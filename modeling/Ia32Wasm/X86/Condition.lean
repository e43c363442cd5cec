/-!
# Condition codes

The sixteen conditions in the order of their four-bit codes.  An odd code negates the condition before it.
-/

namespace Ia32Wasm.X86

/-- A condition on the status flags. -/
inductive Condition where
  | o | no | b | ae | e | ne | be | a | s | ns | p | np | l | ge | le | g
deriving DecidableEq, Repr

namespace Condition

/-- The conditions by ascending code. -/
def all : List Condition := [.o, .no, .b, .ae, .e, .ne, .be, .a, .s, .ns, .p, .np, .l, .ge, .le, .g]

/-- The code of a condition. -/
def code : Condition → Nat
  | .o => 0 | .no => 1 | .b => 2 | .ae => 3 | .e => 4 | .ne => 5 | .be => 6 | .a => 7
  | .s => 8 | .ns => 9 | .p => 10 | .np => 11 | .l => 12 | .ge => 13 | .le => 14 | .g => 15

/-- The ending of the mnemonics that test a condition. -/
def suffix : Condition → String
  | .o => "O" | .no => "NO" | .b => "B" | .ae => "AE" | .e => "E" | .ne => "NE" | .be => "BE" | .a => "A"
  | .s => "S" | .ns => "NS" | .p => "P" | .np => "NP" | .l => "L" | .ge => "GE" | .le => "LE" | .g => "G"

end Condition

end Ia32Wasm.X86
