import Msca.Manifest
import Msca.Serialize

/-! Typed accumulators. Each collects the items of one column in the layout its bytes will have on
disk and describes the result to the manifest. The optional and the variable-length accumulators keep
a head region (a presence mask, or the cumulative ends of the rows) beside one contiguous data
accumulator, and leave the data region out of their bytes when it is empty. -/
namespace Msca
set_option autoImplicit false
open Checked

/-- What every accumulator provides whatever its items are. -/
class Acc (A : Type) extends Serialize A where
  default : A
  discard : A → A
  isEmpty : A → Bool
  count : A → Nat
  describe : A → Sector → NonZero → Res Manifest.Buffer

/-- An accumulator of items of type `I`. -/
class Accumulate (A I : Type) where
  push : A → I → A

export Accumulate (push)

/-- `FromIterator::from_iter`. -/
def collect {A I : Type} [Acc A] [Accumulate A I] (items : List I) : A := items.foldl push Acc.default

/-! ## Order statistics -/

/-- `MinMax`: the element of the accumulator's bytes that is extreme in direction `ord`. -/
class MinMax (A : Type) where
  find : A → Ordering → Option Sector

def basic (buffer : Sector) (count : NonZero) : Res Manifest.Buffer := .ok (.basic buffer count)

def detail {A : Type} [MinMax A] (a : A) (buffer : Sector) (count : NonZero) : Res Manifest.Buffer :=
  match MinMax.find a .lt with
  | none => basic buffer count
  | some s => do
    let min ← s.relative buffer.offset
    match MinMax.find a .gt with
    | none => basic buffer count
    | some s => do
      let max ← s.relative buffer.offset
      return .detailed buffer count min max

/-- `a.partial_cmp(b) == Some(ord)`. -/
def cmp {α : Type} [Primitive α] (ord : Ordering) (a b : α) : Bool := partialCmp a b == some ord

/-! ## Flat accumulators -/

instance bitsAcc : Acc Bits where
  default := []
  discard _ := []
  isEmpty bits := bits.isEmpty
  count bits := bits.length
  describe _ := basic

instance : Accumulate Bits Bool := ⟨fun bits b => bits ++ [b]⟩

instance vecMinMax {α : Type} [Primitive α] : MinMax (List α) where
  find items ord := Sector.find (items.map some) (Fixed.width α) (cmp ord)

instance vecAcc {α : Type} [Primitive α] : Acc (List α) where
  default := []
  discard _ := []
  isEmpty items := items.isEmpty
  count items := items.length
  describe := detail

instance vecAccumulate {α : Type} [Primitive α] : Accumulate (List α) α := ⟨fun items a => items ++ [a]⟩

/-- Optional items whose `None` has an image of its own. -/
structure OptInSitu (α : Type) where
  data : List (Option α)

section OptInSitu
variable {α : Type} [Primitive α] [Fixed (Option α)]

instance optInSituSerialize : Serialize (OptInSitu α) where
  size acc := Serialize.size acc.data
  serializeInto acc := serializeInto acc.data

instance optInSituMinMax : MinMax (OptInSitu α) where
  find acc ord := Sector.find acc.data (Fixed.width (Option α)) (cmp ord)

instance optInSituAcc : Acc (OptInSitu α) where
  default := ⟨[]⟩
  discard _ := ⟨[]⟩
  isEmpty acc := acc.data.isEmpty
  count acc := acc.data.length
  describe := detail

instance optInSituAccumulate : Accumulate (OptInSitu α) (Option α) := ⟨fun acc a => ⟨acc.data ++ [a]⟩⟩

end OptInSitu

/-! ## Head and data regions -/

section Parts
variable {H D : Type} [Serialize H] [Acc D]

/-- Size of a head region followed by the data region, if there is one. -/
def partsSize (head : H) (data : D) : Res NonZero := do
  let h ← Serialize.size (SizedBuf.mk head)
  if Acc.isEmpty data then return h
  else
    let d ← Serialize.size (SizedBuf.mk data)
    okOr zeroError ((Checked.add d.get h.get).bind NonZero.ofNat?)

def partsInto (head : H) (data : D) (buf : Bytes) : Res (Bytes × Bytes) := do
  let h ← serializeInto (SizedBuf.mk head) buf
  if Acc.isEmpty data then return h
  else
    let d ← serializeInto (SizedBuf.mk data) h.2
    return (h.1 ++ d.1, d.2)

end Parts

/-- Optional items: a presence mask and the present items. -/
structure OptBitVec (D : Type) where
  mask : Bits
  data : D

section OptBitVec
variable {D : Type} [Acc D]

instance optBitVecSerialize : Serialize (OptBitVec D) where
  size acc := partsSize acc.mask acc.data
  serializeInto acc := partsInto acc.mask acc.data

/-- Position of the first present item in the accumulator's bytes. -/
def OptBitVec.origin (acc : OptBitVec D) : Res Nat := do
  let mask ← Serialize.size (SizedBuf.mk acc.mask)
  addOr mask.get PREFIX

instance optBitVecMinMax [MinMax D] : MinMax (OptBitVec D) where
  find acc ord := do
    let origin ← acc.origin.toOption
    let s ← MinMax.find acc.data ord
    (s.relative origin).toOption

@[reducible] def optBitVecAcc (describe : OptBitVec D → Sector → NonZero → Res Manifest.Buffer) : Acc (OptBitVec D) where
  default := ⟨[], Acc.default⟩
  discard acc := ⟨[], Acc.discard acc.data⟩
  isEmpty acc := acc.mask.isEmpty && Acc.isEmpty acc.data
  count acc := acc.mask.length
  describe := describe

instance optBitVecDetailAcc {α : Type} [Primitive α] : Acc (OptBitVec (List α)) := optBitVecAcc detail

instance optBitVecBoolAcc : Acc (OptBitVec Bits) := optBitVecAcc fun _ => basic

instance optBitVecAccumulate {I : Type} [Accumulate D I] : Accumulate (OptBitVec D) (Option I) where
  push acc
    | some i => ⟨acc.mask ++ [true], push acc.data i⟩
    | none => ⟨acc.mask ++ [false], acc.data⟩

end OptBitVec

/-- Rows of variable length: the cumulative end of each and their elements. -/
structure Seq (D : Type) where
  ends : List U64
  data : D

/-- Optional rows of variable length; an absent row has the end `u64::MAX`. -/
structure OptSeq (D : Type) where
  ends : List U64
  data : D

/-- The bytes of a string. -/
def intoBytes (s : String) : Bytes := s.toUTF8.data.toList

theorem fromUTF8?_intoBytes (s : String) : String.fromUTF8? ⟨(intoBytes s).toArray⟩ = some s := by
  have hutf : String.fromUTF8? s.toUTF8 = some s := by
    simp only [String.fromUTF8?, String.fromUTF8, String.toUTF8]
    exact dif_pos s.isValidUTF8
  rw [intoBytes, Array.toArray_toList]
  exact hutf

section Seq
variable {D : Type} [Acc D]

instance seqSerialize : Serialize (Seq D) where
  size acc := partsSize acc.ends acc.data
  serializeInto acc := partsInto acc.ends acc.data

instance seqAcc : Acc (Seq D) where
  default := ⟨[], Acc.default⟩
  discard acc := ⟨[], Acc.discard acc.data⟩
  isEmpty acc := acc.ends.isEmpty && Acc.isEmpty acc.data
  count acc := acc.ends.length
  describe _ := basic

/-- End of the last row. -/
def lastEnd (ends : List U64) : Nat := (ends.getLast?.map U64.val).getD 0

instance seqAccumulate {I : Type} [Accumulate D I] : Accumulate (Seq D) (List I) where
  push acc item :=
    ⟨acc.ends ++ [U64.clamp (lastEnd acc.ends + item.length)], item.foldl push acc.data⟩

instance optSeqSerialize : Serialize (OptSeq D) where
  size acc := partsSize acc.ends acc.data
  serializeInto acc := partsInto acc.ends acc.data

instance optSeqAcc : Acc (OptSeq D) where
  default := ⟨[], Acc.default⟩
  discard acc := ⟨[], Acc.discard acc.data⟩
  isEmpty acc := acc.ends.isEmpty && Acc.isEmpty acc.data
  count acc := acc.ends.length
  describe _ := basic

/-- End of the last present row. -/
def lastPresent (ends : List U64) : Nat :=
  ((ends.reverse.find? fun e => e != U64.max).map U64.val).getD 0

instance optSeqAccumulate {I : Type} [Accumulate D I] : Accumulate (OptSeq D) (Option (List I)) where
  push acc
    | some item =>
      ⟨acc.ends ++ [U64.clamp (lastPresent acc.ends + item.length)], item.foldl push acc.data⟩
    | none => ⟨acc.ends ++ [U64.max], acc.data⟩

end Seq

instance : Accumulate (Seq Bytes) String := ⟨fun acc s => push acc (intoBytes s)⟩

instance : Accumulate (OptSeq Bytes) (Option String) := ⟨fun acc s => push acc (s.map intoBytes)⟩

/-- An accumulator of doubly optional items. -/
structure Flatten (A : Type) where
  inner : A

section Flatten
variable {A : Type} [Acc A]

instance flattenSerialize : Serialize (Flatten A) where
  size acc := Serialize.size acc.inner
  serializeInto acc := serializeInto acc.inner

instance flattenAcc : Acc (Flatten A) where
  default := ⟨Acc.default⟩
  discard acc := ⟨Acc.discard acc.inner⟩
  isEmpty acc := Acc.isEmpty acc.inner
  count acc := Acc.count acc.inner
  describe acc := Acc.describe acc.inner

instance flattenAccumulate {B : Type} [Accumulate A (Option B)] :
    Accumulate (Flatten A) (Option (Option B)) := ⟨fun acc item => ⟨push acc.inner item.join⟩⟩

end Flatten
end Msca
