import Ia32Wasm.Lowering.Moves
import Ia32Wasm.Lowering.Stack

/-!
# Instructions

The code of an instruction has three parts: a prologue for transfers of control, the body, and the
change of the flags.  The body of a transfer of control depends on where the instruction stands in
its chunk: it needs the number of constructs that are open around it up to the dispatch loop.
-/

namespace Ia32Wasm.Lowering

open Machine (Slot)
open X86 (Destination Instruction)

/-! ### Computation -/

/-- The body of an instruction that neither transfers control nor is a plain move. -/
def computation? (i : Instruction) : Option (Lowering Unit) :=
  match i.mnemonic with
  | .binary op => some (binary op i)
  | .unary op => some (unary op i)
  | .shift op => some (shift op i)
  | .multiply signed => some (multiply signed i)
  | .divide signed => some (divide signed i)
  | .widen signed => some (widen signed i)
  | .lea => some (loadAddress i)
  | .xchg => some (exchange i)
  | .cmpxchg => some (compareExchange i)
  | .push => some (push i)
  | .pop => some (pop i)
  | .pushad => some (withoutOperands i pushRegisters)
  | .popad => some (withoutOperands i popRegisters)
  | .pushfd => some (withoutOperands i pushFlags)
  | .popfd => some (withoutOperands i popFlags)
  | .leave => some (withoutOperands i leaveFrame)
  | .cdq => some (extendAccumulator i)
  | .cld => some (emit (setFlag .df [.i32Const 0]))
  | .std => some (emit (setFlag .df [.i32Const 1]))
  | .movs => some (moveString i)
  | .stos => some (fillString i)
  | .set _ => some (storeCondition i)
  | .cpuid => some (emit (clearRegisters [.eax, .ebx, .ecx, .edx]))
  | .xgetbv => some (emit (clearRegisters [.eax, .edx]))
  | .movlpd | .xorps => some (pure ())
  | _ => none

/-! ### Transfers of control -/

/-- The prologue of a transfer of control: a call pushes its return address, a dynamic branch reads
its target first, and a return drops its return address and what its operand says. -/
def prologue (i : Instruction) : Lowering Unit :=
  match i.mnemonic with
  | .call | .importCall => pushConstant i.nextAddress
  | .dynamicJump =>
    match i.operands with
    | [target] => do
      loadOperand target
      emit [setSlot .t1]
    | _ => unsupported
  | .dynamicCall =>
    match i.operands with
    | [target] => do
      loadOperand target
      emit [setSlot .t1]
      pushConstant i.nextAddress
    | _ => unsupported
  | .ret =>
    match i.operands with
    | [] => emit (moveStackPointer 4)
    | [extra] => do
      let extra ← require extra.constant?
      emit (moveStackPointer (4 + (extra.toUInt64.toUInt32 &&& 0xffff)))
    | _ => unsupported
  | _ => pure ()

/-- The target of a branch, which has to be resolved. -/
def resolved (i : Instruction) : Lowering Destination :=
  match i.destination? with
  | some d => pure d
  | none => ⟨[], .error .unresolved⟩

/-- The library of a chunk's module. -/
def chunkLibrary (id : UInt32) : String := "chunk" ++ toString id.toNat

/-- The name of the function that a module exports. -/
def entryName : String := "entry"

/-- A call of a chunk, to begin at one of its instructions. -/
def callChunk (chunk index : UInt32) : Code :=
  [.i32Const index, setSlot .link, callImport (chunkLibrary chunk) entryName]

/-- A jump with `toLoop` constructs open inside the dispatch loop: to an instruction of the same
chunk through the loop, and to another chunk by a call that returns. -/
def jumpTo (toLoop : Nat) : Destination → Code
  | .inside index => [.i32Const index, setSlot .link, .br toLoop]
  | .across chunk index => callChunk chunk index ++ [.ret]

/-- Code that is left out unless the condition of an instruction holds. -/
def guarded (i : Instruction) (code : Code) : Lowering Unit := do
  emit [.block]
  testCondition i
  emit ([.op .i32Eqz, .brIf 0] ++ code ++ [.close])

/-- The library and the name of a symbol, which are divided by its first double colon. -/
def splitSymbol? (symbol : String) : Option (String × String) := go [] symbol.toList
where
  go (read : List Char) : List Char → Option (String × String)
    | ':' :: ':' :: rest => some (String.ofList read.reverse, String.ofList rest)
    | c :: rest => go (c :: read) rest
    | [] => none

/-- A call of the imported function that the first operand names. -/
def importedCall (i : Instruction) : Lowering Unit :=
  match i.operands with
  | .symbol symbol :: _ => do
    let (library, name) ← require (splitSymbol? symbol)
    emit [callImport library name]
  | _ => unsupported

/-- An interrupt with the number of the only operand. -/
def interrupt (i : Instruction) : Lowering Unit :=
  match i.operands with
  | [vector] => do
    loadOperand vector
    emit [setSlot .t1, callHook .interrupt]
  | _ => unsupported

/-- The body of an instruction of the chunk `chunk`, with `toLoop` constructs open inside the
dispatch loop. -/
def body (chunk : UInt32) (toLoop : Nat) (i : Instruction) : Lowering Unit :=
  match i.mnemonic with
  | .jump => do emit (jumpTo toLoop (← resolved i))
  | .call => do
    match ← resolved i with
    | .inside index => emit (callChunk chunk index)
    | .across other index => emit (callChunk other index)
  | .jumpIf _ | .jecxz => do
    let destination ← resolved i
    guarded i (jumpTo (toLoop + 1) destination)
  | .importCall => importedCall i
  | .importJump => do
    importedCall i
    emit [.ret]
  | .dynamicCall => emit [callHook .indirectDispatch]
  | .dynamicJump => emit [callHook .indirectDispatch, .ret]
  | .ret => emit [.ret]
  | .int => interrupt i
  | .into => guarded i [.i32Const 4, setSlot .t1, callHook .interrupt]
  | .nop => pure ()
  | .mov => move i
  | _ => (computation? i).getD unsupported

/-- All the code of an instruction. -/
def instruction (chunk : UInt32) (toLoop : Nat) (i : Instruction) : Lowering Unit := do
  prologue i
  body chunk toLoop i
  updateFlags i

end Ia32Wasm.Lowering
