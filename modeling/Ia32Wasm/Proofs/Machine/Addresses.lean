import Ia32Wasm.Proofs.Machine.Arithmetic
import Ia32Wasm.Proofs.X86.Grammar

/-!
# Effective addresses

The bytes of an instruction say where its memory is: the ModRM byte, the SIB byte behind it if there is one, and a
displacement, or four bytes with an absolute address.  `EffectiveAddress` holds what they say, read off the fields of
the bytes without the decoder.

* `Encoding.modRMAddress?` is the address of a ModRM byte and the bytes behind it, and `Encoding.address?` that of an
  instruction.
* The memory operand that is decoded has this address (`Fetch.addressedBy_of_rm`, `hasMemory_of_decode`).  A segment
  that a prefix names is added where the address is in the bytes as a whole, and nowhere else.
-/

namespace Ia32Wasm

open Machine (Slot)
open X86 (Operand OperandSize)

/-! ### Bytes and numbers -/

/-- The number that some bytes stand for, the lowest one first. -/
def littleEndian : List UInt8 → Nat
  | [] => 0
  | b :: rest => b.toNat + 256 * littleEndian rest

/-- The integer that some bytes stand for in two's complement. -/
def signedNumber (bytes : List UInt8) : Int := toSigned (8 * bytes.length) (littleEndian bytes)

/-- Bytes are a number below the power of 256. -/
theorem littleEndian_lt (bytes : List UInt8) : littleEndian bytes < 256 ^ bytes.length := by
  induction bytes with
  | nil => exact Nat.one_pos
  | cons b rest ih =>
    have hb := b.toNat_lt
    rw [littleEndian, List.length_cons, Nat.pow_succ]
    omega

/-! ### Addresses in bytes -/

namespace X86

/-- The register that a field of three bits names. -/
def registerNumber (field : Nat) : Fin 8 := ⟨field % 8, Nat.mod_lt field (Nat.succ_pos 7)⟩

/-- The parts of an address: a base register, an index register with the number of bits that it is shifted by, and a
displacement. -/
structure EffectiveAddress where
  base : Option (Fin 8)
  index : Option (Fin 8 × Nat)
  displacement : Int
deriving DecidableEq

variable {ω : Type}

/-- The sum of the parts. -/
def EffectiveAddress.sum (a : EffectiveAddress) (s : Wasm.Store ω) : Int :=
  a.base.elim 0 (fun r => ((s.get (.register r)).toNat : Int)) +
    a.index.elim 0 (fun x => ((s.get (.register x.1)).toNat : Int) * 2 ^ x.2) + a.displacement

/-- The contents of a segment register, or zero. -/
def segmentBase (segment : Option (Fin 6)) (s : Wasm.Store ω) : Int :=
  segment.elim 0 fun r => ((s.get (.segment r)).toNat : Int)

namespace Encoding

/-- The address that a ModRM byte encodes with the bytes behind it; there is none for a register.  The low field four
asks for a SIB byte, and the base five without a displacement mode stands for a displacement of four bytes. -/
def modRMAddress? (modRM : UInt8) (behind : List UInt8) : Option EffectiveAddress :=
  let mode := modRM.toNat / 64
  let rm := modRM.toNat % 8
  let sib := (behind.headD 0).toNat
  let base := if rm = 4 then sib % 8 else rm
  let rest := if rm = 4 then behind.tail else behind
  if mode = 3 then none
  else some {
    base := if mode = 0 ∧ base = 5 then none else some (registerNumber base)
    index := if rm = 4 ∧ sib / 8 % 8 ≠ 4 then some (registerNumber (sib / 8 % 8), sib / 64) else none
    displacement :=
      if mode = 1 then signedNumber (rest.take 1)
      else if mode = 2 ∨ (mode = 0 ∧ base = 5) then signedNumber (rest.take 4)
      else 0 }

/-- The ModRM byte stands for an absolute address. -/
def isAbsolute (modRM : UInt8) : Bool := modRM.toNat / 64 == 0 && modRM.toNat % 8 == 5

end Encoding

/-- The encoding can name memory.  A ModRM byte that is a part of the opcode names none. -/
def Opcode.Shape.mayAddress : Opcode.Shape → Bool
  | .accOffset _ | .offsetAcc _ => true
  | .exactModRM _ => false
  | shape => shape.hasModRM

/-- The address of the memory that the bytes behind an opcode name. -/
def Opcode.Shape.address? (shape : Opcode.Shape) (bytes : List UInt8) : Option EffectiveAddress :=
  match shape with
  | .accOffset _ | .offsetAcc _ => some ⟨Option.none, Option.none, littleEndian (bytes.take 4)⟩
  | shape => if shape.mayAddress then bytes.head?.bind fun b => Encoding.modRMAddress? b bytes.tail else Option.none

/-- A shape that gives an address is one of those that may. -/
theorem Opcode.Shape.mayAddress_of_address? {shape : Opcode.Shape} {bytes : List UInt8} {a : EffectiveAddress}
    (h : shape.address? bytes = some a) : shape.mayAddress = true := by
  cases shape <;> first | rfl | cases h

/-- The memory, if there is one, is the first operand; else it is the second. -/
def Opcode.Shape.leadsWithMemory : Opcode.Shape → Bool
  | .regRm _ | .regRmWiden _ | .segmentRm | .regRmImm _ _ | .accOffset _ | .xmmRm => false
  | _ => true

/-- The bytes behind an opcode hold an address as a whole, without a SIB byte. -/
def Opcode.Shape.isDirect (shape : Opcode.Shape) (bytes : List UInt8) : Bool :=
  match shape with
  | .accOffset _ | .offsetAcc _ => true
  | shape => shape.hasModRM && bytes.head?.any Encoding.isAbsolute

namespace Encoding

/-- The address of the memory that an instruction with the entry names. -/
def address? (bytes : List UInt8) (e : Opcode.Entry) : Option EffectiveAddress := e.shape.address? (tail bytes)

/-- The instruction has an address as a whole in its bytes. -/
def isDirect (bytes : List UInt8) (e : Opcode.Entry) : Bool := e.shape.isDirect (tail bytes)

/-- The segment register that the prefixes name as the base of addresses. -/
def override? (bytes : List UInt8) : Option (Fin 6) :=
  if 0x64 ∈ prefixes bytes then some 4 else if 0x65 ∈ prefixes bytes then some 5 else none

end Encoding

/-- The operand is memory at an address relative to a segment. -/
structure Operand.AddressedBy (op : Operand) (segment : Option (Fin 6)) (a : EffectiveAddress) : Prop where
  isMemory : op.isMemory = true
  toNat_address : ∀ {ω : Type} (s : Wasm.Store ω), (op.address s).toNat = wrap 32 (segmentBase segment s + a.sum s)

/-! ### Numbers that are read -/

namespace Fetch

variable {bytes rest : List UInt8}

/-- A number is read from its bytes, the lowest first. -/
theorem toNat_number {n : Nat} {v : UInt32} (hn : n ≤ 4) (h : number n bytes = .ok (v, rest)) :
    v.toNat = littleEndian (bytes.take n) ∧ (bytes.take n).length = n := by
  induction n generalizing bytes v rest with
  | zero =>
    cases h
    exact ⟨rfl, rfl⟩
  | succ n ih =>
    obtain ⟨low, middle, hlow, h⟩ := bind_eq_ok.1 h
    obtain ⟨high, middle', hhigh, h⟩ := bind_eq_ok.1 h
    cases h
    obtain rfl := byte_eq_ok hlow
    obtain ⟨hvalue, hlength⟩ := ih (by omega) hhigh
    have hlt : high.toNat < 256 ^ 3 := by
      have hbytes := littleEndian_lt (middle.take n)
      have hpow : 256 ^ n ≤ 256 ^ 3 := Nat.pow_le_pow_right (by omega) (by omega)
      rw [hlength] at hbytes
      omega
    have hword : (low.toUInt32 ||| high <<< 8).toNat = low.toNat + 256 * high.toNat := by
      have hshift : high.toNat <<< 8 < 2 ^ 32 := by
        rw [Nat.shiftLeft_eq]
        omega
      have hlow := low.toNat_lt
      rw [UInt32.toNat_or, UInt32.toNat_shiftLeft, UInt8.toNat_toUInt32]
      show low.toNat ||| high.toNat <<< 8 % 2 ^ 32 = _
      rw [Nat.mod_eq_of_lt hshift, Nat.or_comm, ← Nat.shiftLeft_add_eq_or_of_lt (by omega), Nat.shiftLeft_eq]
      omega
    refine ⟨?_, by rw [List.take_succ_cons, List.length_cons, hlength]⟩
    rw [hword, hvalue, List.take_succ_cons, littleEndian]

private theorem toInt_signedByte {v : Int32} (h : signedByte bytes = .ok (v, rest)) :
    v.toInt = signedNumber (bytes.take 1) := by
  obtain ⟨b, middle, hb, h⟩ := bind_eq_ok.1 h
  cases h
  obtain rfl := byte_eq_ok hb
  have hbyte : b.toInt8.toInt = (b.toNat : Int).bmod (2 ^ 8) := BitVec.toInt_eq_toNat_bmod _
  rw [Int8.toInt_toInt32, hbyte]
  rfl

/-- A word stands for an integer in two's complement. -/
theorem toInt_toInt32 (v : UInt32) : v.toInt32.toInt = toSigned 32 v.toNat := BitVec.toInt_eq_toNat_bmod _

/-- A displacement of four bytes is signed. -/
theorem toInt_signedWord {v : Int32} (h : signedWord bytes = .ok (v, rest)) :
    v.toInt = signedNumber (bytes.take 4) := by
  obtain ⟨word, middle, hword, h⟩ := bind_eq_ok.1 h
  cases h
  obtain ⟨hvalue, hlength⟩ := toNat_number (Nat.le_refl 4) hword
  rw [toInt_toInt32, hvalue, signedNumber, hlength]

private theorem toInt_displacement {mode : UInt8} {d : Option Int32} (h : displacement mode bytes = .ok (d, rest)) :
    (d.getD 0).toInt =
      if mode = 1 then signedNumber (bytes.take 1) else if mode = 2 then signedNumber (bytes.take 4) else 0 := by
  unfold displacement at h
  by_cases hbyte : mode = 1
  · rw [if_pos hbyte] at h ⊢
    obtain ⟨v, middle, hv, h⟩ := bind_eq_ok.1 h
    cases h
    exact toInt_signedByte hv
  · rw [if_neg hbyte] at h ⊢
    by_cases hword : mode = 2
    · rw [if_pos hword] at h ⊢
      obtain ⟨v, middle, hv, h⟩ := bind_eq_ok.1 h
      cases h
      exact toInt_signedWord hv
    · rw [if_neg hword] at h ⊢
      cases h
      rfl

end Fetch

/-! ### Fields of bytes -/

/-- The low three bits of a number. -/
theorem toNat_and_seven (b : UInt8) : (b &&& 7).toNat = b.toNat % 8 := by
  rw [UInt8.toNat_and]
  exact Nat.and_two_pow_sub_one_eq_mod b.toNat 3

private theorem toNat_shiftRight_six (b : UInt8) : (b >>> 6).toNat = b.toNat / 64 := by
  rw [UInt8.toNat_shiftRight, Nat.shiftRight_eq_div_pow]
  rfl

/-- The middle field of a ModRM or SIB byte. -/
theorem toNat_middleField (b : UInt8) : ((b >>> 3) &&& 7).toNat = b.toNat / 8 % 8 := by
  rw [toNat_and_seven, UInt8.toNat_shiftRight, Nat.shiftRight_eq_div_pow]
  rfl

/-- The scale that the two highest bits of a byte stand for. -/
private theorem toNat_scale (sib : UInt8) : ((1 : UInt8) <<< (sib >>> 6)).toNat = 2 ^ (sib.toNat / 64) := by
  have hlt : (sib >>> 6).toNat < 4 := by
    have hsib := sib.toNat_lt
    rw [toNat_shiftRight_six]
    omega
  have hall : ∀ k < 4, ((1 : UInt8) <<< UInt8.ofNat k).toNat = 2 ^ k := by decide
  have hscale := hall _ hlt
  rwa [UInt8.ofNat_toNat, toNat_shiftRight_six] at hscale

/-! ### Addresses of operands -/

namespace Operand

variable {size : OperandSize} {a : EffectiveAddress} {x y : UInt32} {u v : Int}

private theorem toNat_eq_wrap (x : UInt32) : x.toNat = wrap 32 x.toNat := by
  rw [wrap_natCast, Nat.mod_eq_of_lt x.toNat_lt]

private theorem toNat_add_eq_wrap (hx : x.toNat = wrap 32 u) (hy : y.toNat = wrap 32 v) :
    (x + y).toNat = wrap 32 (u + v) := by
  rw [UInt32.toNat_add, hx, hy, wrap_add]

private theorem toNat_mul_eq_wrap (hx : x.toNat = wrap 32 u) (hy : y.toNat = wrap 32 v) :
    (x * y).toNat = wrap 32 (u * v) := by
  rw [UInt32.toNat_mul, hx, hy, wrap_mul]

/-- Memory at a sum of registers and a displacement. -/
private theorem addressedBy_scaledIndex {base index : Option UInt8} {scale : UInt8} {d : Option Int32} {k : Nat}
    (hbase : a.base = base.map fun r => registerNumber r.toNat)
    (hindex : a.index = index.map fun r => (registerNumber r.toNat, k)) (hscale : scale.toNat = 2 ^ k)
    (hd : (d.getD 0).toInt = a.displacement) :
    (Operand.scaledIndex base index scale d size true).AddressedBy none a := by
  refine ⟨rfl, fun s => ?_⟩
  have hbaseWord : (base.elim 0 fun b => s.get (wideSlot b)).toNat =
      wrap 32 (a.base.elim 0 fun r => ((s.get (.register r)).toNat : Int)) := by
    rw [hbase]
    cases base with
    | none => rfl
    | some b => exact toNat_eq_wrap _
  have hindexWord : (index.elim 0 fun i => s.get (wideSlot i) * scale.toUInt32).toNat =
      wrap 32 (a.index.elim 0 fun x => ((s.get (.register x.1)).toNat : Int) * 2 ^ x.2) := by
    rw [hindex]
    cases index with
    | none => rfl
    | some i =>
      have hfactor : scale.toUInt32.toNat = wrap 32 (2 ^ k) := by
        rw [toNat_eq_wrap, UInt8.toNat_toUInt32, hscale, Int.natCast_pow]
        rfl
      exact toNat_mul_eq_wrap (toNat_eq_wrap _) hfactor
  have hdisplacement : (d.getD 0).toUInt32.toNat = wrap 32 a.displacement := by rw [toNat_toUInt32, hd]
  show (_ + _ + _ : UInt32).toNat = wrap 32 (0 + a.sum s)
  rw [Int.zero_add]
  exact toNat_add_eq_wrap (toNat_add_eq_wrap hbaseWord hindexWord) hdisplacement

/-- Memory at an address in a register. -/
private theorem addressedBy_register {r : UInt8} {d : Option Int32} (hbase : a.base = some (registerNumber r.toNat))
    (hindex : a.index = none) (hd : (d.getD 0).toInt = a.displacement) :
    (Operand.register r size true d).AddressedBy none a := by
  refine ⟨rfl, fun s => ?_⟩
  have hdisplacement : (d.getD 0).toUInt32.toNat = wrap 32 a.displacement := by rw [toNat_toUInt32, hd]
  have hsum : a.sum s = (s.get (wideSlot r)).toNat + a.displacement := by
    rw [EffectiveAddress.sum, hbase, hindex]
    show (_ : Int) + 0 + _ = _
    rw [Int.add_zero]
    rfl
  show (_ + _ : UInt32).toNat = wrap 32 (0 + a.sum s)
  rw [Int.zero_add, hsum]
  exact toNat_add_eq_wrap (toNat_eq_wrap _) hdisplacement

/-- Memory at an absolute address, relative to a segment. -/
private theorem addressedBy_segment {index : UInt8} {value : UInt32} (hbase : a.base = none) (hindex : a.index = none)
    (hd : wrap 32 a.displacement = value.toNat) :
    (Operand.segment index size true (some value.toInt32)).AddressedBy (some (Fin.ofNat 6 index.toNat)) a := by
  refine ⟨rfl, fun s => ?_⟩
  have hdisplacement : value.toInt32.toUInt32.toNat = wrap 32 a.displacement := by
    rw [toNat_toUInt32, Fetch.toInt_toInt32, toSigned, wrap_bmod, hd, ← toNat_eq_wrap]
  have hsum : a.sum s = a.displacement := by
    rw [EffectiveAddress.sum, hbase, hindex]
    show (0 : Int) + 0 + _ = _
    omega
  rw [hsum]
  exact toNat_add_eq_wrap (toNat_eq_wrap _) hdisplacement

/-- Memory at an absolute address. -/
private theorem addressedBy_constant {op : Operand} {value : UInt32} (hmemory : op.isMemory = true)
    (haddress : ∀ {ω : Type} (s : Wasm.Store ω), op.address s = value) (hbase : a.base = none)
    (hindex : a.index = none)
    (hd : wrap 32 a.displacement = value.toNat) : op.AddressedBy none a := by
  refine ⟨hmemory, fun s => ?_⟩
  have hsum : a.sum s = a.displacement := by
    rw [EffectiveAddress.sum, hbase, hindex]
    show (0 : Int) + 0 + _ = _
    omega
  show _ = wrap 32 (0 + a.sum s)
  rw [haddress, Int.zero_add, hsum, hd]

end Operand

namespace Fetch

variable {prefixes : Prefixes} {size : OperandSize} {op : Operand} {a : EffectiveAddress} {bytes rest : List UInt8}

/-- The segment register whose base is added to addresses. -/
def overriding (prefixes : Prefixes) : Option (Fin 6) :=
  prefixes.baseSegment?.map fun index => Fin.ofNat 6 index.toNat

private theorem addressedBy_of_absolute {plain : UInt32 → Operand}
    (h : absolute prefixes size plain bytes = .ok (op, rest))
    (hmemory : ∀ value, (plain value).isMemory = true)
    (haddress : ∀ value {ω : Type} (s : Wasm.Store ω), (plain value).address s = value) (hbase : a.base = none)
    (hindex : a.index = none) (hd : wrap 32 a.displacement = littleEndian (bytes.take 4)) :
    op.AddressedBy (overriding prefixes) a := by
  obtain ⟨value, middle, hvalue, h⟩ := bind_eq_ok.1 h
  rw [← (toNat_number (Nat.le_refl 4) hvalue).1] at hd
  unfold overriding
  cases hsegment : prefixes.baseSegment? with
  | some index =>
    rw [hsegment] at h
    cases h
    exact Operand.addressedBy_segment hbase hindex hd
  | none =>
    rw [hsegment] at h
    cases h
    exact Operand.addressedBy_constant (hmemory value) (haddress value) hbase hindex hd

/-- Four bytes taken as a signed number. -/
private theorem wrap_signedNumber {v : UInt32} (h : number 4 bytes = .ok (v, rest)) :
    wrap 32 (signedNumber (bytes.take 4)) = littleEndian (bytes.take 4) := by
  obtain ⟨hvalue, hlength⟩ := toNat_number (Nat.le_refl 4) h
  rw [signedNumber, hlength, toSigned, wrap_bmod, wrap_natCast, ← hvalue, Nat.mod_eq_of_lt v.toNat_lt]

/-- A SIB byte and what comes behind it. -/
private theorem addressedBy_of_scaledIndex {mode sib : UInt8} {behind : List UInt8}
    (h : scaledIndex mode size (sib :: behind) = .ok (op, rest))
    (hbase : a.base = if mode = 0 ∧ sib.toNat % 8 = 5 then none else some (registerNumber (sib.toNat % 8)))
    (hindex : a.index =
      if sib.toNat / 8 % 8 ≠ 4 then some (registerNumber (sib.toNat / 8 % 8), sib.toNat / 64) else none)
    (hd : a.displacement =
      if mode = 1 then signedNumber (behind.take 1)
      else if mode = 2 ∨ (mode = 0 ∧ sib.toNat % 8 = 5) then signedNumber (behind.take 4)
      else 0) : op.AddressedBy none a := by
  have hfive : sib &&& 7 = 5 ↔ sib.toNat % 8 = 5 := by
    rw [← UInt8.toNat_inj, toNat_and_seven]
    rfl
  have hfour : (sib >>> 3) &&& 7 = 4 ↔ sib.toNat / 8 % 8 = 4 := by
    rw [← UInt8.toNat_inj, toNat_middleField]
    rfl
  have hindex' : a.index = (if (sib >>> 3) &&& 7 = 4 then none else some ((sib >>> 3) &&& 7)).map
      fun r => (registerNumber r.toNat, sib.toNat / 64) := by
    rw [hindex]
    by_cases h : sib.toNat / 8 % 8 = 4
    · rw [if_neg (not_not.2 h), if_pos (hfour.2 h)]
      rfl
    · rw [if_pos h, if_neg (mt hfour.1 h), Option.map_some, toNat_middleField]
  obtain ⟨b, middle, hb, h⟩ := bind_eq_ok.1 h
  cases byte_eq_ok hb
  by_cases habsent : sib &&& 7 = 5 ∧ mode = 0
  · have habsent' : mode = 0 ∧ sib.toNat % 8 = 5 := ⟨habsent.2, hfive.1 habsent.1⟩
    rw [if_pos habsent] at h
    obtain ⟨d, middle, hword, h⟩ := bind_eq_ok.1 h
    cases h
    rw [if_pos habsent'] at hbase
    rw [habsent.2, if_neg (by decide), if_pos (.inr ⟨rfl, habsent'.2⟩)] at hd
    refine Operand.addressedBy_scaledIndex (by rw [hbase]; rfl) hindex' (toNat_scale sib) ?_
    rw [hd, Option.getD_some, toInt_signedWord hword]
  · have habsent' : ¬ (mode = 0 ∧ sib.toNat % 8 = 5) := fun h => habsent ⟨hfive.2 h.2, h.1⟩
    rw [if_neg habsent] at h
    obtain ⟨d, middle, hd', h⟩ := bind_eq_ok.1 h
    cases h
    rw [if_neg habsent'] at hbase
    refine Operand.addressedBy_scaledIndex ?_ hindex' (toNat_scale sib) ?_
    · rw [hbase, Option.map_some, toNat_and_seven]
    · rw [hd, toInt_displacement hd']
      simp only [habsent', or_false]

/-- The memory of a ModRM byte is at the address that the bytes encode.  A segment is added to an absolute address
only. -/
theorem addressedBy_of_rm {b : UInt8} (h : rm prefixes (ModRM.ofByte b) size bytes = .ok (op, rest))
    (ha : Encoding.modRMAddress? b bytes = some a) :
    op.AddressedBy (if Encoding.isAbsolute b then overriding prefixes else none) a := by
  have hmode : ∀ k : UInt8, (ModRM.ofByte b).mode = k ↔ b.toNat / 64 = k.toNat := fun k => by
    rw [← UInt8.toNat_inj, ModRM.ofByte, toNat_shiftRight_six]
  have hrm : ∀ k : UInt8, (ModRM.ofByte b).rm = k ↔ b.toNat % 8 = k.toNat := fun k => by
    rw [← UInt8.toNat_inj, ModRM.ofByte, toNat_and_seven]
  have hplain : b.toNat / 64 ≠ 3 := by
    intro hthree
    simp [Encoding.modRMAddress?, hthree] at ha
  simp only [Encoding.modRMAddress?, if_neg hplain, Option.some.injEq] at ha
  unfold rm at h
  rw [if_neg (mt (hmode 3).1 hplain)] at h
  by_cases hfour : b.toNat % 8 = 4
  · -- A SIB byte follows, and there is no absolute address.
    have habsolute : Encoding.isAbsolute b = false := by simp [Encoding.isAbsolute, hfour]
    rw [if_pos ((hrm 4).2 hfour)] at h
    obtain ⟨sib, behind, rfl⟩ : ∃ sib behind, bytes = sib :: behind := by
      obtain ⟨sib, behind, hsib, -⟩ := bind_eq_ok.1 h
      exact ⟨sib, behind, byte_eq_ok hsib⟩
    simp only [hfour, if_true, true_and, List.headD_cons, List.tail_cons] at ha
    subst ha
    rw [habsolute]
    refine addressedBy_of_scaledIndex h ?_ ?_ ?_
    · simp only [hmode]
      rfl
    · rfl
    · simp only [hmode]
      rfl
  · rw [if_neg (mt (hrm 4).1 hfour)] at h
    simp only [hfour, if_false, false_and] at ha
    subst ha
    by_cases hdirect : b.toNat % 8 = 5 ∧ b.toNat / 64 = 0
    · have habsolute : Encoding.isAbsolute b = true := by simp [Encoding.isAbsolute, hdirect]
      rw [if_pos ⟨(hrm 5).2 hdirect.1, (hmode 0).2 hdirect.2⟩] at h
      rw [habsolute]
      obtain ⟨value, middle, hvalue, -⟩ := bind_eq_ok.1 h
      refine addressedBy_of_absolute h (fun _ => rfl) (fun value _ s => ?_) ?_ rfl ?_
      · have hword : (Int64.ofNat value.toNat).toUInt64.toUInt32 = value := by simp
        show (Int64.ofNat value.toNat).toUInt64.toUInt32 + 0 = value
        rw [hword, UInt32.add_zero]
      · simp [hdirect]
      · simp only [hdirect]
        exact wrap_signedNumber hvalue
    · have habsolute : Encoding.isAbsolute b = false := by
        simp only [Encoding.isAbsolute, Bool.and_eq_false_iff, beq_eq_false_iff_ne]
        omega
      have hbase : ¬ (b.toNat / 64 = 0 ∧ b.toNat % 8 = 5) := fun h => hdirect ⟨h.2, h.1⟩
      have hbits : ¬ ((ModRM.ofByte b).rm = 5 ∧ (ModRM.ofByte b).mode = 0) := fun h =>
        hdirect ⟨(hrm 5).1 h.1, (hmode 0).1 h.2⟩
      rw [if_neg hbits] at h
      obtain ⟨d, middle, hd, h⟩ := bind_eq_ok.1 h
      cases h
      rw [habsolute]
      refine Operand.addressedBy_register ?_ rfl ?_
      · rw [if_neg hbase, ModRM.ofByte, toNat_and_seven]
      · rw [toInt_displacement hd]
        simp only [hmode, hbase, or_false]
        rfl

/-- The operand of a ModRM byte is memory at a constant address only where the bytes hold an address as a whole, and
no segment is added to it. -/
private theorem pointer?_of_rm {b : UInt8} (h : rm prefixes (ModRM.ofByte b) size bytes = .ok (op, rest))
    (hb : Encoding.isAbsolute b = true → overriding prefixes ≠ none) : op.pointer? = none := by
  unfold rm at h
  split at h
  · cases h
    rfl
  · split at h
    · obtain ⟨sib, behind, -, hrest⟩ := bind_eq_ok.1 h
      split at hrest
      all_goals
        obtain ⟨d, middle, -, hpure⟩ := bind_eq_ok.1 hrest
        cases hpure
        rfl
    · split at h
      · rename_i hdirect
        have habsolute : Encoding.isAbsolute b = true := by
          rw [Encoding.isAbsolute, Bool.and_eq_true, beq_iff_eq, beq_iff_eq, ← toNat_shiftRight_six,
            ← toNat_and_seven]
          exact ⟨congrArg UInt8.toNat hdirect.2, congrArg UInt8.toNat hdirect.1⟩
        obtain ⟨value, middle, -, hrest⟩ := bind_eq_ok.1 h
        cases hsegment : prefixes.baseSegment? with
        | some index =>
          rw [hsegment] at hrest
          cases hrest
          rfl
        | none => exact absurd (by rw [overriding, hsegment]; rfl) (hb habsolute)
      · obtain ⟨d, middle, -, hpure⟩ := bind_eq_ok.1 h
        cases hpure
        rfl

/-- One of the operands is memory at an address relative to a segment: the first or, unless `leads` holds, the second.
No other is memory. -/
inductive HasMemory (segment : Option (Fin 6)) (a : EffectiveAddress) : (leads : Bool) → List Operand → Prop
  | first {op : Operand} {others : List Operand} (h : op.AddressedBy segment a)
    (hothers : ∀ op' ∈ others, op'.isMemory = false) : HasMemory segment a true (op :: others)
  | second {first op : Operand} {others : List Operand} (h : op.AddressedBy segment a)
      (hfirst : first.isMemory = false)
    (hothers : ∀ op' ∈ others, op'.isMemory = false) : HasMemory segment a false (first :: op :: others)

/-- The memory of a ModRM byte among other operands. -/
private theorem hasMemory_of_modRM {width : ModRM → OperandSize} {f : ModRM → Operand → Fetch (List Operand)}
    {ops : List Operand} {leads : Bool} (hf : ∀ {segment} m op, op.AddressedBy segment a →
      Reads (f m op) (HasMemory segment a leads))
    (h : (do let m ← modRM; let op ← rm prefixes m (width m); f m op) bytes = .ok (ops, rest))
    (ha : (bytes.head?.bind fun b => Encoding.modRMAddress? b bytes.tail) = some a) :
    HasMemory (if bytes.head?.any Encoding.isAbsolute then overriding prefixes else none) a leads ops := by
  obtain ⟨m, behind, hm, hrest⟩ := bind_eq_ok.1 h
  obtain ⟨b, behind', hb, hpure⟩ := bind_eq_ok.1 hm
  cases hpure
  obtain ⟨op, middle, hop, hops⟩ := bind_eq_ok.1 hrest
  rw [byte_eq_ok hb] at ha ⊢
  obtain ⟨-, hmemory⟩ := hf _ op (addressedBy_of_rm hop ha) _ _ _ hops
  exact hmemory

private theorem hasMemory_of_operands {opcode : UInt16} {shape : Opcode.Shape} {ops : List Operand}
    (h : operands prefixes opcode shape bytes = .ok (ops, rest)) (ha : shape.address? bytes = some a) :
    HasMemory (if shape.isDirect bytes then overriding prefixes else none) a shape.leadsWithMemory ops := by
  have hone : ∀ op : Operand, op.isMemory = false → ∀ op' ∈ [op], op'.isMemory = false := fun op hop op' hop' => by
    rwa [List.mem_singleton.1 hop']
  have hconstant : ∀ (size : OperandSize) (c : Opcode.Constant), Reads (constant size c) fun op =>
    op.isMemory = false :=
    fun size c => reads_constant_of c fun _ => rfl
  have hnone : ∀ op' ∈ ([] : List Operand), op'.isMemory = false := fun op' hop' => absurd hop' List.not_mem_nil
  cases shape
  case rmReg | rmSegment | rmOne | rmCl | rmXmm =>
    exact hasMemory_of_modRM (fun m op hop => reads_pure (.first hop (hone _ rfl))) h ha
  case rm => exact hasMemory_of_modRM (fun m op hop => reads_pure (.first hop hnone)) h ha
  case regRm | regRmWiden | segmentRm | xmmRm =>
    exact hasMemory_of_modRM (fun m op hop => reads_pure (.second hop rfl hnone)) h ha
  case rmImm w c =>
    refine hasMemory_of_modRM (fun m op hop => ?_) h ha
    exact reads_bind (hconstant _ c) fun constant hconstant => reads_pure (.first hop (hone _ hconstant))
  case regRmImm w c =>
    refine hasMemory_of_modRM (fun m op hop => ?_) h ha
    exact reads_bind (hconstant _ c) fun constant hconstant => reads_pure (.second hop rfl (hone _ hconstant))
  case accOffset w | offsetAcc w =>
    obtain ⟨op, middle, hop, hpure⟩ := bind_eq_ok.1 h
    cases hpure
    cases ha
    obtain ⟨value, middle, hvalue, -⟩ := bind_eq_ok.1 hop
    have hlt := value.toNat_lt
    rw [(toNat_number (Nat.le_refl 4) hvalue).1] at hlt
    have hop' : op.AddressedBy (overriding prefixes) ⟨none, none, littleEndian (bytes.take 4)⟩ := by
      refine addressedBy_of_absolute hop (fun _ => rfl) (fun _ _ _ => rfl) rfl rfl ?_
      show wrap 32 (littleEndian (bytes.take 4) : Nat) = _
      rw [wrap_natCast, Nat.mod_eq_of_lt hlt]
    first
      | exact .second hop' rfl hnone
      | exact .first hop' (hone _ rfl)
  all_goals cases ha

end Fetch

open Encoding (Names)

/-- The segment register of a set of prefixes is the one that their bytes name. -/
private theorem overriding_prefixSet (bytes : List UInt8) :
    Fetch.overriding (Encoding.prefixSet bytes) = Encoding.override? bytes := by
  unfold Fetch.overriding Prefixes.baseSegment? Encoding.override?
  rw [Encoding.contains_prefixSet Prefixes.single_fs, Encoding.contains_prefixSet Prefixes.single_gs]
  simp only [List.contains_iff_mem]
  split
  · rfl
  · split <;> rfl

/-- The memory of a decoded instruction is at the address that its bytes encode; a segment that a prefix names is
added only where the address is in the bytes as a whole.  A destination that is read as well stands twice. -/
theorem hasMemory_of_decode {bytes : List UInt8} {address : UInt32} {i : Instruction} {n : Nat} {e : Opcode.Entry}
    {a : EffectiveAddress} (h : decode bytes address = .ok (i, n)) (hnames : Names bytes e)
    (ha : Encoding.address? bytes e = some a) :
    ∃ ops, Fetch.HasMemory (if Encoding.isDirect bytes e then Encoding.override? bytes else none) a
      e.shape.leadsWithMemory ops ∧ i.operands = if e.readsFirst then Fetch.repeatFirst ops else ops := by
  obtain ⟨-, -, ops, rest, hops, hoperands⟩ := operands_of_decode h hnames
  have hmemory := Fetch.hasMemory_of_operands hops ha
  rw [overriding_prefixSet] at hmemory
  exact ⟨ops, hmemory, hoperands⟩

/-- The only operand of a decoded instruction is memory at a constant address only where that stands in the bytes as a
whole, and no prefix names a segment. -/
theorem pointer?_of_decode {bytes : List UInt8} {address : UInt32} {i : Instruction} {n : Nat} {e : Opcode.Entry}
    {w : Opcode.Width} (h : decode bytes address = .ok (i, n)) (hnames : Names bytes e) (hshape : e.shape = .rm w)
    (hfirst : e.readsFirst = false) (hdirect : Encoding.isDirect bytes e = true → Encoding.override? bytes ≠ none) :
    ∃ op, i.operands = [op] ∧ op.pointer? = none := by
  obtain ⟨-, -, ops, rest, hops, hoperands⟩ := operands_of_decode h hnames
  rw [hfirst] at hoperands
  rw [Encoding.isDirect, hshape, ← overriding_prefixSet] at hdirect
  rw [hshape] at hops
  obtain ⟨m, behind, hm, hrest⟩ := Fetch.bind_eq_ok.1 hops
  obtain ⟨b, behind', hb, hpure⟩ := Fetch.bind_eq_ok.1 hm
  cases hpure
  obtain ⟨op, middle, hop, hpure⟩ := Fetch.bind_eq_ok.1 hrest
  cases hpure
  rw [Fetch.byte_eq_ok hb] at hdirect
  exact ⟨op, hoperands, Fetch.pointer?_of_rm hop hdirect⟩

end X86

end Ia32Wasm
