import Ia32Wasm.Proofs.Wasm.Validation
import Mathlib.Algebra.Group.Int.Defs
import Mathlib.Algebra.Group.Nat.Defs

/-!
# The binary grammar

A reader of the binary form of modules, production by production: numbers of limited width in groups of seven bits,
vectors and sections with their sizes in front, names in UTF-8, and function bodies in which every construct is closed
and only a conditional has a second part.  It knows the sections for types, imports, functions, exports and code, and
the instructions that there are here; everything else is refused.

There are two editions of the grammar: that of WebAssembly 1.0, and the same with the two instructions that extend
eight or sixteen bits by their sign, which came later.
-/

namespace Ia32Wasm.Wasm

/-! ### Matching constructs -/

/-- The constructs that are open behind an instruction, innermost first, when `constructs` are open in front of it.
Each says whether it can still get a second part; the outermost is the function itself. -/
def Instr.follow {κ : Type} : List Bool → Instr κ → Option (List Bool)
  | [], _ => none
  | isFirst :: outer, .block | isFirst :: outer, .loop => some (false :: isFirst :: outer)
  | isFirst :: outer, .ifThen => some (true :: isFirst :: outer)
  | isFirst :: outer, .orElse => if isFirst then some (false :: outer) else none
  | _ :: outer, .close => some outer
  | constructs, _ => some constructs

namespace Binary

/-! ### Editions -/

/-- An edition of the grammar: WebAssembly 1.0, or 1.0 with sign extensions from eight and from sixteen bits. -/
inductive Edition where
  | core
  | signExtending
deriving DecidableEq, Repr

/-- The edition has the instruction. -/
def Edition.knows {κ : Type} : Edition → Instr κ → Bool
  | .core, .op .i32Extend8S | .core, .op .i32Extend16S => false
  | _, _ => true

@[simp] theorem Edition.knows_signExtending {κ : Type} (instr : Instr κ) :
    Edition.signExtending.knows instr = true := rfl

/-! ### Readers -/

/-- A reader takes bytes from the front, or refuses them. -/
abbrev Reader := StateT (List UInt8) Option

/-- The next byte. -/
def byte : Reader UInt8
  | [] => none
  | b :: rest => some (b, rest)

/-- A given byte. -/
def expect (b : UInt8) : Reader Unit := do guard ((← byte) = b)

/-- An unsigned number of at most the given number of bits. -/
def unsigned : Nat → Reader Nat
  | _, [] => none
  | bits, b :: rest =>
    if b.toNat < 2 ^ 7 then if b.toNat < 2 ^ bits then some (b.toNat, rest) else none
    else if 7 < bits then (unsigned (bits - 7) rest).map fun (m, rest) => (2 ^ 7 * m + (b.toNat - 2 ^ 7), rest)
    else none

/-- A number of at most the given number of bits, its sign included. -/
def signed : Nat → Reader Int
  | _, [] => none
  | bits, b :: rest =>
    if b.toNat < 2 ^ 6 then if b.toNat < 2 ^ (bits - 1) then some (b.toNat, rest) else none
    else if b.toNat < 2 ^ 7 then if 2 ^ 7 ≤ b.toNat + 2 ^ (bits - 1) then some (b.toNat - 2 ^ 7, rest) else none
    else if 7 < bits then (signed (bits - 7) rest).map fun (i, rest) => (2 ^ 7 * i + (b.toNat - 2 ^ 7), rest)
    else none

variable {α β γ : Type}

/-- The next `size` bytes, all of which the reader has to take. -/
def exactly (size : Nat) (p : Reader α) : Reader α := fun bytes =>
  if bytes.length < size then none
  else
    match p (bytes.take size) with
    | some (a, []) => some (a, bytes.drop size)
    | _ => none

/-- What follows a size, which it has to fill. -/
def framed (p : Reader α) : Reader α := do exactly (← unsigned 32) p

/-- As many items as are asked for. -/
def times : Nat → Reader α → Reader (List α)
  | 0, _ => pure []
  | count + 1, p => do
    let first ← p
    return first :: (← times count p)

/-- Items with their number in front. -/
def vector (p : Reader α) : Reader (List α) := do times (← unsigned 32) p

/-- All the bytes as a text in UTF-8. -/
def text : Reader String := fun bytes => (String.fromUTF8? ⟨bytes.toArray⟩).map (·, [])

/-- A name. -/
def name : Reader String := framed text

/-- The contents of the section with the given number if it comes next; there are none otherwise. -/
def sectionOf (id : UInt8) (p : Reader (List α)) : Reader (List α)
  | [] => some ([], [])
  | b :: rest => if b = id then framed p rest else some ([], b :: rest)

/-! ### Instructions -/

/-- The instruction of WebAssembly 1.0 that takes operands and leaves a result, by its opcode. -/
def numeric? : UInt8 → Option Numeric
  | 0x45 => some .i32Eqz
  | 0x46 => some .i32Eq
  | 0x47 => some .i32Ne
  | 0x49 => some .i32LtU
  | 0x52 => some .i64Ne
  | 0x54 => some .i64LtU
  | 0x69 => some .i32Popcnt
  | 0x6a => some .i32Add
  | 0x6b => some .i32Sub
  | 0x71 => some .i32And
  | 0x72 => some .i32Or
  | 0x73 => some .i32Xor
  | 0x74 => some .i32Shl
  | 0x75 => some .i32ShrS
  | 0x76 => some .i32ShrU
  | 0x7c => some .i64Add
  | 0x7e => some .i64Mul
  | 0x7f => some .i64DivS
  | 0x80 => some .i64DivU
  | 0x81 => some .i64RemS
  | 0x82 => some .i64RemU
  | 0x84 => some .i64Or
  | 0x86 => some .i64Shl
  | 0x88 => some .i64ShrU
  | 0xa7 => some .i32WrapI64
  | 0xac => some .i64ExtendI32S
  | 0xad => some .i64ExtendI32U
  | _ => none

/-- The sign extensions from eight and from sixteen bits, by their opcodes. -/
def signExtension? : UInt8 → Option Numeric
  | 0xc0 => some .i32Extend8S
  | 0xc1 => some .i32Extend16S
  | _ => none

/-- The instruction of an edition that takes operands and leaves a result, by its opcode. -/
def Edition.numeric? : Edition → UInt8 → Option Numeric
  | .core, b => Binary.numeric? b
  | .signExtending, b => Binary.numeric? b <|> signExtension? b

/-- The alignment and the offset of a memory access, which are the natural one and zero. -/
def memoryArgument (alignment : Nat) : Reader Unit := do
  guard ((← unsigned 32) = alignment)
  guard ((← unsigned 32) = 0)

/-- An instruction; a block takes and leaves nothing. -/
def instruction (e : Edition) : Reader (Instr Nat) := do
  match ← byte with
  | 0x00 => return .unreachable
  | 0x02 => expect 0x40; return .block
  | 0x03 => expect 0x40; return .loop
  | 0x04 => expect 0x40; return .ifThen
  | 0x05 => return .orElse
  | 0x0b => return .close
  | 0x0c => return .br (← unsigned 32)
  | 0x0d => return .brIf (← unsigned 32)
  | 0x0f => return .ret
  | 0x10 => return .call (← unsigned 32)
  | 0x1b => return .select
  | 0x20 => return .localGet (← unsigned 32)
  | 0x21 => return .localSet (← unsigned 32)
  | 0x23 => return .globalGet (← unsigned 32)
  | 0x24 => return .globalSet (← unsigned 32)
  | 0x28 => memoryArgument 2; return .load .word
  | 0x2d => memoryArgument 0; return .load .byte
  | 0x2f => memoryArgument 1; return .load .half
  | 0x36 => memoryArgument 2; return .store .word
  | 0x3a => memoryArgument 0; return .store .byte
  | 0x3b => memoryArgument 1; return .store .half
  | 0x41 => return .i32Const (Int32.ofInt (← signed 32)).toUInt32
  | 0x42 => return .i64Const (Int64.ofInt (← signed 64)).toUInt64
  | b => fun bytes => (e.numeric? b).map fun o => (.op o, bytes)

/-- At most `count` instructions; the last of them closes the outermost of the constructs and is left out. -/
def instructions (e : Edition) : Nat → List Bool → Reader (List (Instr Nat))
  | 0, _ => failure
  | count + 1, constructs => do
    let instr ← instruction e
    match instr.follow constructs with
    | none => failure
    | some [] => return []
    | some (isFirst :: outer) => return instr :: (← instructions e count (isFirst :: outer))

/-- The instructions of a function; each takes a byte at least. -/
def expression (e : Edition) : Reader (List (Instr Nat)) := fun bytes => instructions e bytes.length [false] bytes

/-! ### Modules -/

/-- The types of the arguments and of the results. -/
structure Signature where
  arguments : List ValueType
  results : List ValueType
deriving DecidableEq, Repr

/-- What is imported: a function with the index of its type, a table or memory with its limits, or a global. -/
inductive External where
  | function (type : Nat)
  | table (atLeast : Nat) (atMost : Option Nat)
  | memory (atLeast : Nat) (atMost : Option Nat)
  | global (type : ValueType) (isMutable : Bool)
deriving DecidableEq, Repr

/-- An import. -/
structure Imported where
  library : String
  name : String
  item : External
deriving DecidableEq, Repr

/-- What an index counts. -/
inductive IndexSpace where
  | functions
  | tables
  | memories
  | globals
deriving DecidableEq, Repr

/-- An export. -/
structure Exported where
  name : String
  space : IndexSpace
  index : Nat
deriving DecidableEq, Repr

/-- A function body: groups of locals of one type, and the code. -/
structure Function where
  locals : List (Nat × ValueType)
  code : List (Instr Nat)
deriving DecidableEq, Repr

/-- What a module consists of; its own functions have the given types and bodies. -/
structure Contents where
  types : List Signature
  imports : List Imported
  functions : List Nat
  exports : List Exported
  bodies : List Function
deriving DecidableEq, Repr

/-- A value type. -/
def valueType : Reader ValueType := do
  match ← byte with
  | 0x7f => return .i32
  | 0x7e => return .i64
  | _ => failure

/-- A function type. -/
def signature : Reader Signature := do
  expect 0x60
  let arguments ← vector valueType
  return ⟨arguments, ← vector valueType⟩

/-- The limits of a table or memory. -/
def limits : Reader (Nat × Option Nat) := do
  match ← byte with
  | 0x00 => return (← unsigned 32, none)
  | 0x01 =>
    let atLeast ← unsigned 32
    return (atLeast, some (← unsigned 32))
  | _ => failure

/-- Whether a global can be written. -/
def mutability : Reader Bool := do
  match ← byte with
  | 0x00 => return false
  | 0x01 => return true
  | _ => failure

/-- What is imported. -/
def external : Reader External := do
  match ← byte with
  | 0x00 => return .function (← unsigned 32)
  | 0x01 =>
    expect 0x70
    let (atLeast, atMost) ← limits
    return .table atLeast atMost
  | 0x02 =>
    let (atLeast, atMost) ← limits
    return .memory atLeast atMost
  | 0x03 =>
    let type ← valueType
    return .global type (← mutability)
  | _ => failure

/-- An import. -/
def imported : Reader Imported := do
  let library ← name
  let name ← name
  return ⟨library, name, ← external⟩

/-- What an index counts. -/
def indexSpace : Reader IndexSpace := do
  match ← byte with
  | 0x00 => return .functions
  | 0x01 => return .tables
  | 0x02 => return .memories
  | 0x03 => return .globals
  | _ => failure

/-- An export. -/
def exported : Reader Exported := do
  let name ← name
  let space ← indexSpace
  return ⟨name, space, ← unsigned 32⟩

/-- A group of locals of one type. -/
def localGroup : Reader (Nat × ValueType) := do
  let count ← unsigned 32
  return (count, ← valueType)

/-- A function body without its size; the number of its locals has at most 32 bits. -/
def function (e : Edition) : Reader Function := do
  let locals ← vector localGroup
  guard (locals.foldl (fun total group => total + group.1) 0 < 2 ^ 32)
  return ⟨locals, ← expression e⟩

/-- The magic number and the version. -/
def preamble : Reader Unit := do
  expect 0x00; expect 0x61; expect 0x73; expect 0x6d
  expect 0x01; expect 0x00; expect 0x00; expect 0x00

/-- The sections of a module; there is a body for each of its functions. -/
def contents (e : Edition) : Reader Contents := do
  preamble
  let types ← sectionOf 1 (vector signature)
  let imports ← sectionOf 2 (vector imported)
  let functions ← sectionOf 3 (vector (unsigned 32))
  let exports ← sectionOf 7 (vector exported)
  let bodies ← sectionOf 10 (vector (framed (function e)))
  guard (functions.length = bodies.length)
  return { types, imports, functions, exports, bodies }

/-- What the module with the given bytes consists of, if they are the binary form of one in the given edition. -/
def read? (e : Edition) (bytes : List UInt8) : Option Contents :=
  match contents e bytes with
  | some (m, []) => some m
  | _ => none

end Binary

end Ia32Wasm.Wasm
