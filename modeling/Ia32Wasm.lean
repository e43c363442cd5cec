import Ia32Wasm.Assembly.Basic
import Ia32Wasm.Assembly.Body
import Ia32Wasm.Assembly.Chunk
import Ia32Wasm.Assembly.DispatchLoop
import Ia32Wasm.Image.Basic
import Ia32Wasm.Image.Json
import Ia32Wasm.Json.Basic
import Ia32Wasm.Json.Magnitude
import Ia32Wasm.Json.Parser
import Ia32Wasm.Json.Printer
import Ia32Wasm.Json.Reading
import Ia32Wasm.Json.Token
import Ia32Wasm.Lowering.Arithmetic
import Ia32Wasm.Lowering.Basic
import Ia32Wasm.Lowering.Code
import Ia32Wasm.Lowering.Flags
import Ia32Wasm.Lowering.Instruction
import Ia32Wasm.Lowering.Moves
import Ia32Wasm.Lowering.Operands
import Ia32Wasm.Lowering.Stack
import Ia32Wasm.Machine.Json
import Ia32Wasm.Machine.Slot
import Ia32Wasm.Machine.State
import Ia32Wasm.Program.Basic
import Ia32Wasm.Program.Discovery
import Ia32Wasm.Program.IndexSet
import Ia32Wasm.Program.Json
import Ia32Wasm.Program.Listing
import Ia32Wasm.Program.Resolution
import Ia32Wasm.Proofs.Wasm.Machine
import Ia32Wasm.Recompile
import Ia32Wasm.Recompile.Json
import Ia32Wasm.Text.BitNames
import Ia32Wasm.Text.Blank
import Ia32Wasm.Text.Hex
import Ia32Wasm.Wasm.Encoding
import Ia32Wasm.Wasm.Instr
import Ia32Wasm.Wasm.Leb128
import Ia32Wasm.Wasm.Module
import Ia32Wasm.X86.Condition
import Ia32Wasm.X86.Decoding
import Ia32Wasm.X86.Instruction
import Ia32Wasm.X86.Json
import Ia32Wasm.X86.Mnemonic
import Ia32Wasm.X86.Opcode.Shape
import Ia32Wasm.X86.Opcode.Table
import Ia32Wasm.X86.Operand
import Ia32Wasm.X86.OperandSize
import Ia32Wasm.X86.Prefixes
import Ia32Wasm.Proofs.Wasm.Nesting
import Ia32Wasm.Proofs.Wasm.Trace
import Ia32Wasm.Proofs.Wasm.Linking
import Ia32Wasm.Proofs.Lowering.Emission
import Ia32Wasm.Proofs.Assembly.Layout
import Ia32Wasm.Proofs.Assembly.Simulation
import Ia32Wasm.Proofs.Assembly.Emission
import Ia32Wasm.Proofs.Assembly.Entry
import Ia32Wasm.Proofs.Assembly.Transfers
import Ia32Wasm.Proofs.Outcomes
import Ia32Wasm.Proofs.Program.Discovery
import Ia32Wasm.Proofs.Program.Limits
import Ia32Wasm.Proofs.Program.Lookup
import Ia32Wasm.Proofs.Program.Resolution
import Ia32Wasm.Proofs.Recompile.Agreement
import Ia32Wasm.Proofs.Program.Partition
import Ia32Wasm.Proofs.Program.Closure
import Ia32Wasm.Proofs.Program.Failures
import Ia32Wasm.Proofs.Wasm.Validation
import Ia32Wasm.Proofs.Lowering.Validity
import Ia32Wasm.Proofs.Lowering.InstructionValidity
import Ia32Wasm.Proofs.Assembly.Validity
import Ia32Wasm.Proofs.Lowering.Support
import Ia32Wasm.Proofs.Recompile.Gaps
import Ia32Wasm.Proofs.X86.Extent
import Ia32Wasm.Proofs.X86.Online
import Ia32Wasm.Proofs.X86.Grammar
import Ia32Wasm.Proofs.Wasm.Straight
import Ia32Wasm.Proofs.Lowering.FlagsWord
import Ia32Wasm.Proofs.Wasm.Booleans
import Ia32Wasm.Proofs.Lowering.BooleanFlags
import Ia32Wasm.Proofs.Recompile.FlagInvariant
import Ia32Wasm.Proofs.Program.Search
import Ia32Wasm.Proofs.Program.Locality
import Ia32Wasm.Proofs.Wasm.Binary
import Ia32Wasm.Proofs.Wasm.Reading
import Ia32Wasm.Proofs.Assembly.RoundTrip
import Ia32Wasm.Proofs.Text.Numerals
import Ia32Wasm.Proofs.Text.BitNames
import Ia32Wasm.Proofs.Json.Text
import Ia32Wasm.Proofs.Json.Reading
import Ia32Wasm.Proofs.Recompile.Dumps
import Ia32Wasm.Proofs.Wasm.Sequence
import Ia32Wasm.Proofs.Machine.Operands
import Ia32Wasm.Proofs.X86.Widths
import Ia32Wasm.Proofs.Lowering.Operands
import Ia32Wasm.Proofs.Machine.Arithmetic
import Ia32Wasm.Proofs.Lowering.StatusFlags
import Ia32Wasm.Proofs.Lowering.Results
import Ia32Wasm.Proofs.Lowering.Arithmetic
import Ia32Wasm.Proofs.Lowering.Comparison
import Ia32Wasm.Proofs.Lowering.Shifts
import Ia32Wasm.Proofs.Lowering.Products
import Ia32Wasm.Proofs.Lowering.Quotients
import Ia32Wasm.Proofs.Machine.Addresses
import Ia32Wasm.Proofs.Wasm.Accesses
import Ia32Wasm.Proofs.Lowering.Accesses
import Ia32Wasm.Proofs.Lowering.Addressing
import Ia32Wasm.Proofs.Machine.Locations
import Ia32Wasm.Proofs.X86.Moves
import Ia32Wasm.Proofs.Lowering.Moves
import Ia32Wasm.Proofs.Lowering.Stack
import Ia32Wasm.Proofs.Lowering.Strings
import Ia32Wasm.Proofs.Assembly.Imports
import Ia32Wasm.Proofs.Program.WiderLimits
import Ia32Wasm.Proofs.Program.Repetition
import Ia32Wasm.Proofs.Lowering.Reads
import Ia32Wasm.Proofs.Assembly.Reports
import Ia32Wasm.Proofs.X86.WellFormed
import Ia32Wasm.Proofs.Recompile.FarBranches
