/-!
# Executable images

An image is a buffer, sections that map address ranges onto it, an entry point, and the imported
functions.  Each imported function is known by its thunk: the value that the slot of the import
holds at run time.
-/

namespace Ia32Wasm

/-- The half-open address range from `start` to `stop`, which lies in the buffer from `offset` on. -/
structure Section where
  start : UInt32
  stop : UInt32
  offset : UInt32
deriving DecidableEq, Repr

/-- The address lies in the section. -/
def Section.contains (s : Section) (address : UInt32) : Bool := s.start ≤ address && address < s.stop

/-- An imported function, by name or else by ordinal. -/
structure ImportEntry where
  ordinal : UInt16
  name : Option String
  thunk : UInt32
deriving DecidableEq, Repr

/-- The functions imported from one library. -/
structure ImportLibrary where
  name : String
  entries : List ImportEntry
deriving DecidableEq, Repr

/-- The symbol of an imported function: its library, then its name or `#` and its ordinal. -/
def ImportLibrary.symbol (library : ImportLibrary) (entry : ImportEntry) : String :=
  library.name ++ "::" ++ entry.name.getD ("#" ++ toString entry.ordinal.toNat)

/-- The imported functions of an image. -/
structure ImportTable where
  libraries : List ImportLibrary := []
deriving DecidableEq, Repr

namespace ImportTable

/-- The symbol of the first imported function with a thunk. -/
def symbol? (t : ImportTable) (thunk : UInt32) : Option String :=
  t.libraries.findSome? fun library =>
    (library.entries.find? fun entry => entry.thunk == thunk).map library.symbol

/-- The value is the thunk of an imported function. -/
def isThunk (t : ImportTable) (value : UInt32) : Bool :=
  t.libraries.any fun library => library.entries.any fun entry => entry.thunk == value

end ImportTable

/-- An executable image. -/
structure Image where
  buffer : List UInt8
  sections : List Section
  entry : UInt32
  imports : ImportTable := {}
deriving DecidableEq, Repr

namespace Image

/-- The image of a buffer that is mapped whole at `base` and entered there; the last address is
never mapped. -/
def flat (base : UInt32) (buffer : List UInt8) : Image :=
  let length := (UInt32.ofNat buffer.length).toNat
  { buffer
    sections := [⟨base, UInt32.ofNat (min (base.toNat + length) (UInt32.size - 1)), 0⟩]
    entry := base }

/-- The first section that contains an address. -/
def section? (image : Image) (address : UInt32) : Option Section :=
  image.sections.find? fun s => s.contains address

/-- The bytes from an address to the end of its section, as far as the buffer goes; none when the
buffer ends before the address. -/
def bytesAt? (image : Image) (address : UInt32) : Option (List UInt8) :=
  (image.section? address).bind fun s =>
    let first := s.offset.toNat + (address - s.start).toNat
    if first ≤ image.buffer.length then some ((image.buffer.drop first).take (s.stop - address).toNat)
    else none

/-- The 32-bit little-endian word at an address. -/
def word? (image : Image) (address : UInt32) : Option UInt32 :=
  match image.bytesAt? address with
  | some (b₀ :: b₁ :: b₂ :: b₃ :: _) =>
    some (b₀.toUInt32 ||| b₁.toUInt32 <<< 8 ||| b₂.toUInt32 <<< 16 ||| b₃.toUInt32 <<< 24)
  | _ => none

end Image

end Ia32Wasm
