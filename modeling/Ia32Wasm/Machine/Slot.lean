import Ia32Wasm.X86.Operand

/-!
# Machine slots

The 32-bit slots that hold the state of the machine between modules: eight registers, seven status
flags, three scratch slots and six segment registers.  Each is an imported global; its index is its
place in this order.

* `link` holds the index of the instruction at which the entry of a chunk goes on.
* `t1` holds the result of the last arithmetic instruction, or the argument of a hook.
* `t2` holds the index of the instruction that is reported to the debugger.
-/

namespace Ia32Wasm.Machine

/-- A status flag. -/
inductive Flag where
  | cf | pf | af | zf | sf | df | of
deriving DecidableEq, Repr

namespace Flag

/-- The flags in the order of their slots. -/
def all : List Flag := [.cf, .pf, .af, .zf, .sf, .df, .of]

/-- The position of a flag in the packed flags word. -/
def bit : Flag → Nat
  | .cf => 0
  | .pf => 2
  | .af => 4
  | .zf => 6
  | .sf => 7
  | .df => 10
  | .of => 11

/-- The place of a flag among the flags. -/
def index : Flag → Nat
  | .cf => 0
  | .pf => 1
  | .af => 2
  | .zf => 3
  | .sf => 4
  | .df => 5
  | .of => 6

/-- The name of a flag. -/
def name : Flag → String
  | .cf => "cf"
  | .pf => "pf"
  | .af => "af"
  | .zf => "zf"
  | .sf => "sf"
  | .df => "df"
  | .of => "of"

end Flag

/-- A slot of the machine. -/
inductive Slot where
  | register (index : Fin 8)
  | flag (flag : Flag)
  | link
  | t1
  | t2
  | segment (index : Fin 6)
deriving DecidableEq, Repr

namespace Slot

/-- The registers by number. -/
def registers : List Slot := (List.finRange 8).map .register

/-- The segment registers by number. -/
def segments : List Slot := (List.finRange 6).map .segment

/-- Every slot, in order. -/
def all : List Slot := registers ++ Flag.all.map .flag ++ [.link, .t1, .t2] ++ segments

/-- The index of a slot's global. -/
def index : Slot → Nat
  | .register i => i
  | .flag f => 8 + f.index
  | .link => 15
  | .t1 => 16
  | .t2 => 17
  | .segment i => 18 + i

/-- The name of a slot. -/
def name : Slot → String
  | .register i => X86.wideNames.getD i ""
  | .flag f => f.name
  | .link => "link"
  | .t1 => "t1"
  | .t2 => "t2"
  | .segment i => X86.segmentNames.getD i ""

/-- The library that a slot is imported from. -/
def library : Slot → String
  | .segment _ => "segments"
  | _ => "registers"

/-- The slot with a name. -/
def ofName? (name : String) : Option Slot := all.find? fun slot => slot.name == name

/-! ### Registers by name -/

/-- The accumulator. -/
def eax : Slot := .register 0

/-- The count register. -/
def ecx : Slot := .register 1

/-- The data register. -/
def edx : Slot := .register 2

/-- The base register. -/
def ebx : Slot := .register 3

/-- The stack pointer. -/
def esp : Slot := .register 4

/-- The frame pointer. -/
def ebp : Slot := .register 5

/-- The source of string instructions. -/
def esi : Slot := .register 6

/-- The destination of string instructions. -/
def edi : Slot := .register 7

end Slot

end Ia32Wasm.Machine
