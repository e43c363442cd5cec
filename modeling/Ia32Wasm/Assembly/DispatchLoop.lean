import Ia32Wasm.Assembly.Body
import Ia32Wasm.Program.IndexSet

/-!
# The dispatch loop

A chunk is a flat list of instructions, and a jump can go to any of its targets.  Its code is one
loop, in which a block for each target is open from the head of the loop up to the target:

    loop
      block                 (the last target)
        …
          block             (the first target)
            go to the end of the block whose target is in link
            the instructions before the first target
          end
          the instructions from the first target up to the second
        …
      end
      the instructions from the last target on
    end

A jump puts its target into `link` and goes to the head of the loop.  With any other value in `link`
the code begins at the first instruction.
-/

namespace Ia32Wasm

namespace DispatchLoop

/-- The tests that lead from the head to each target, whose blocks are counted from the innermost. -/
def tests (targets : List UInt32) : Code :=
  (targets.mapIdx fun depth target => [getSlot .link, .i32Const target, .op .i32Eq, .brIf depth]).flatten

/-- The head of the loop for ascending targets. -/
def head (targets : List UInt32) : Code :=
  .loop :: List.replicate targets.length .block ++ tests targets

end DispatchLoop

namespace Body

/-- The body with a dispatch loop opened. -/
def openDispatch (b : Body) (targets : IndexSet) : Body :=
  { b.append (DispatchLoop.head targets.toList) with dispatch := some ⟨b.depth, targets.toList⟩ }

/-- The body in front of an instruction of the dispatch loop: if it is the next target, its block is
closed. -/
def landDispatch (b : Body) (index : UInt32) : Body :=
  match b.dispatch with
  | some ⟨level, target :: pending⟩ =>
    if target = index then { b.append [.close] with dispatch := some ⟨level, pending⟩ } else b
  | _ => b

/-- The number of constructs that are open inside the dispatch loop. -/
def toLoop (b : Body) : Nat := (b.dispatch.map fun d => b.branchDepth d.level).getD 0

/-- The body with a jump to a target of the dispatch loop. -/
def jumpDispatch (b : Body) (target : UInt32) : Body :=
  if b.dispatch.isSome then b.append (Lowering.jumpTo b.toLoop (.inside target)) else b

/-- The body with the dispatch loop closed. -/
def closeDispatch (b : Body) : Body :=
  match b.dispatch with
  | some d => { b.append (List.replicate (d.pending.length + 1) .close) with dispatch := none }
  | none => b

end Body

end Ia32Wasm
