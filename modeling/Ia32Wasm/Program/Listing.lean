import Ia32Wasm.Program.Basic

/-!
# Listings

The text of a program: each chunk has a headline and a line for each instruction with its index, its
address and a mark in front when a branch goes to it.
-/

namespace Ia32Wasm

open X86 (Instruction)

/-- A number flush right in a column of five. -/
def indexColumn (n : Nat) : String :=
  let digits := Nat.toDigits 10 n
  String.ofList (List.replicate (5 - digits.length) ' ' ++ digits)

namespace Chunk

/-- The line of the instruction with the given index. -/
def line (c : Chunk) (index : Nat) (i : Instruction) : String :=
  (if c.targets.contains (UInt32.ofNat index) then ">" else " ") ++ indexColumn index ++ "  " ++
    Hex.column i.address ++ "  " ++ i.text ++ "\n"

/-- The listing of a chunk. -/
def listing (c : Chunk) : String :=
  c.name ++ " (chunk " ++ toString c.id.toNat ++ "):\n" ++ String.join (c.instructions.mapIdx c.line)

end Chunk

/-- The listings of the chunks, with an empty line between two. -/
def Program.listing (p : Program) : String := "\n".intercalate (p.chunks.map Chunk.listing)

end Ia32Wasm
