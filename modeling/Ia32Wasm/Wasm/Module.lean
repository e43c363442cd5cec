import Ia32Wasm.Wasm.Encoding

/-!
# Modules

A module with one function, which takes and returns nothing and is exported.  Besides functions of
that type it imports mutable 32-bit globals and memory, and its function has four 32-bit locals and
one of 64 bits.  The binary form has the sections for types, imports, functions, exports and code,
in this order.
-/

namespace Ia32Wasm.Wasm

/-- What is imported: memory with bounds on its number of pages, a mutable 32-bit global, or a function. -/
inductive ImportKind where
  | memory (minPages : UInt32) (maxPages : Option UInt32)
  | global
  | function
deriving DecidableEq, Repr

/-- An import: the library and the name under which it is found, and what it is. -/
structure Import where
  library : String
  name : String
  kind : ImportKind
deriving DecidableEq, Repr

/-- A module with one exported function. -/
structure Module where
  imports : List Import
  exportName : String
  body : List (Instr Nat)
deriving DecidableEq, Repr

/-! ### Binary form -/

/-- Bytes with their number in front. -/
def sized (bytes : List UInt8) : List UInt8 := Leb128.unsigned bytes.length ++ bytes

/-- Encoded items with their number in front. -/
def counted (items : List (List UInt8)) : List UInt8 := Leb128.unsigned items.length ++ items.flatten

/-- A name as the bytes of its UTF-8 form. -/
def nameBytes (name : String) : List UInt8 := sized name.toUTF8.data.toList

/-- A section with its number and size in front. -/
def sectionBytes (id : UInt8) (items : List (List UInt8)) : List UInt8 := id :: sized (counted items)

/-- The bytes of what is imported; every function has the only type there is. -/
def ImportKind.encode : ImportKind → List UInt8
  | .memory minPages none => 0x02 :: 0x00 :: Leb128.unsigned minPages.toNat
  | .memory minPages (some maxPages) =>
    0x02 :: 0x01 :: (Leb128.unsigned minPages.toNat ++ Leb128.unsigned maxPages.toNat)
  | .global => [0x03, 0x7f, 0x01]
  | .function => [0x00, 0x00]

/-- The bytes of an import. -/
def Import.encode (i : Import) : List UInt8 := nameBytes i.library ++ nameBytes i.name ++ i.kind.encode

/-- The type of a function that takes and returns nothing. -/
def functionType : List UInt8 := [0x60, 0x00, 0x00]

/-- The declaration of four 32-bit locals and one 64-bit local. -/
def localTypes : List UInt8 := counted [[0x04, 0x7f], [0x01, 0x7e]]

/-- The bytes of a function body: its locals, its code and the end. -/
def bodyBytes (body : List (Instr Nat)) : List UInt8 := localTypes ++ encodeCode (body ++ [.close])

namespace Module

/-- The index of the exported function, which comes after the imported ones. -/
def functionIndex (m : Module) : Nat := m.imports.countP fun i => i.kind == .function

/-- The magic number and the version. -/
def header : List UInt8 := [0x00, 0x61, 0x73, 0x6d, 0x01, 0x00, 0x00, 0x00]

/-- The binary form of a module. -/
def encode (m : Module) : List UInt8 :=
  header ++
  sectionBytes 1 [functionType] ++
  sectionBytes 2 (m.imports.map Import.encode) ++
  sectionBytes 3 [[0x00]] ++
  sectionBytes 7 [nameBytes m.exportName ++ 0x00 :: Leb128.unsigned m.functionIndex] ++
  sectionBytes 10 [sized (bodyBytes m.body)]

end Module

end Ia32Wasm.Wasm
