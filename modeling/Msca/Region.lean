import Msca.Composite

/-! Regions inside a column body. The size announced for an accumulator is the number of bytes it writes, whatever
they overwrite, and the payload of every region nested in them begins at a multiple of eight. -/
namespace Msca
set_option autoImplicit false
open Checked

/-- A payload written behind its size at `off`, where `off` is a multiple of eight. -/
def Framed (bytes : Bytes) (off : Nat) (payload : Bytes) : Prop :=
  8 ∣ off ∧ ∃ front back : Bytes, front.length + PREFIX = off ∧
    bytes = front ++ (Bytes.leBytes 8 payload.length ++ payload) ++ back

theorem framed_frame (payload : Bytes) : Framed (frame payload) PREFIX payload :=
  ⟨Nat.dvd_refl 8, [], Bytes.zeros (roundUp payload.length - payload.length), rfl, rfl⟩

theorem Framed.append_right {bytes payload : Bytes} {off : Nat} (h : Framed bytes off payload) (rest : Bytes) :
    Framed (bytes ++ rest) off payload := by
  obtain ⟨hdvd, front, back, hfront, rfl⟩ := h
  exact ⟨hdvd, front, back ++ rest, hfront, by rw [List.append_assoc _ back]⟩

theorem Framed.append_left {bytes payload : Bytes} {off : Nat} (h : Framed bytes off payload) {first : Bytes}
    (hfirst : 8 ∣ first.length) : Framed (first ++ bytes) (first.length + off) payload := by
  obtain ⟨hdvd, front, back, hfront, rfl⟩ := h
  refine ⟨Nat.dvd_add hfirst hdvd, first ++ front, back, ?_, ?_⟩
  · rw [List.length_append, Nat.add_assoc, hfront]
  · simp only [List.append_assoc]

/-- A region nested in the payload of a region. -/
theorem Framed.nested {body payload : Bytes} {off : Nat} (h : Framed body off payload) :
    Framed (frame body) (PREFIX + off) payload := by
  have hlead : (Bytes.leBytes 8 body.length).length = PREFIX := Bytes.leBytes_length 8 _
  have hdvd : 8 ∣ (Bytes.leBytes 8 body.length).length := hlead ▸ Nat.dvd_refl 8
  have hinner := h.append_left hdvd
  rw [hlead] at hinner
  exact hinner.append_right _

theorem dvd_frame_length (body : Bytes) : 8 ∣ (frame body).length := by
  rw [frame_length]
  exact Nat.dvd_add (Nat.dvd_refl 8) (Nat.dvd_of_mod_eq_zero (roundUp_mod _))

/-! ## Regions of accumulators -/

/-- The regions nested in the bytes of an accumulator, by the position of their payload. -/
class Regions (A : Type) [Serialize A] [LawfulSerialize A] where
  regions : A → List (Nat × Bytes)
  framed : ∀ a, ∀ r ∈ regions a, Framed (enc a) r.1 r.2

export Regions (regions)

/-- Regions of a payload, by their position in the bytes the payload begins at `off` in. -/
def shift (off : Nat) (rs : List (Nat × Bytes)) : List (Nat × Bytes) := rs.map fun r => (off + r.1, r.2)

theorem mem_shift {off : Nat} {rs : List (Nat × Bytes)} {r : Nat × Bytes} :
    r ∈ shift off rs ↔ ∃ q ∈ rs, (off + q.1, q.2) = r := List.mem_map

section SizedBuf
variable {A : Type} [Serialize A] [LawfulSerialize A] [Regions A]

/-- The payload of a region and what is nested in it. -/
def sizedRegions (a : A) : List (Nat × Bytes) := (PREFIX, enc a) :: shift PREFIX (regions a)

theorem sizedRegions_framed (a : A) : ∀ r ∈ sizedRegions a, Framed (frame (enc a)) r.1 r.2 := by
  intro r hr
  rcases List.mem_cons.mp hr with rfl | hr
  · exact framed_frame (enc a)
  · obtain ⟨q, hq, rfl⟩ := mem_shift.mp hr
    exact (Regions.framed a q hq).nested

instance sizedBufRegions : Regions (SizedBuf A) where
  regions s := sizedRegions s.inner
  framed s := sizedRegions_framed s.inner

end SizedBuf

section Flat
variable {α : Type}

instance vecRegions [Serialize α] [LawfulSerialize α] : Regions (List α) := ⟨fun _ => [], fun _ _ h => nomatch h⟩

instance bitsRegions : Regions Bits := ⟨fun _ => [], fun _ _ h => nomatch h⟩

instance optInSituRegions [Primitive α] [Fixed (Option α)] : Regions (OptInSitu α) := ⟨fun _ => [], fun _ _ h => nomatch h⟩

end Flat

section Parts
variable {H D : Type} [Serialize H] [LawfulSerialize H] [Acc D] [LawfulSerialize D] [Regions H] [Regions D]

/-- The regions of a head and, unless it is left out, of the data behind it. -/
def partsRegions (head : H) (data : D) : List (Nat × Bytes) :=
  sizedRegions head ++ if Acc.isEmpty data then [] else shift (frame (enc head)).length (sizedRegions data)

theorem partsRegions_framed (head : H) (data : D) :
    ∀ r ∈ partsRegions head data, Framed (partsEnc head data) r.1 r.2 := by
  intro r hr
  rcases List.mem_append.mp hr with hr | hr
  · exact (sizedRegions_framed head r hr).append_right _
  · cases hd : Acc.isEmpty data with
    | true => simp [hd] at hr
    | false =>
      have hne : ¬ Acc.isEmpty data = true := by simp [hd]
      rw [if_neg hne] at hr
      obtain ⟨q, hq, rfl⟩ := mem_shift.mp hr
      rw [partsEnc, if_neg hne]
      exact (sizedRegions_framed data q hq).append_left (dvd_frame_length _)

instance optBitVecRegions : Regions (OptBitVec D) where
  regions acc := partsRegions acc.mask acc.data
  framed acc := partsRegions_framed acc.mask acc.data

instance seqRegions : Regions (Seq D) where
  regions acc := partsRegions acc.ends acc.data
  framed acc := partsRegions_framed acc.ends acc.data

instance optSeqRegions : Regions (OptSeq D) where
  regions acc := partsRegions acc.ends acc.data
  framed acc := partsRegions_framed acc.ends acc.data

instance flattenRegions : Regions (Flatten D) where
  regions acc := regions acc.inner
  framed acc := Regions.framed acc.inner

end Parts

/-! ## Accumulators of every type -/

class UnfoldRegions (I : Type) [Unfold I] [LawfulUnfold I] where
  raw : Regions (RawAcc I)
  opt : Regions (OptAcc I)

attribute [reducible, instance] UnfoldRegions.raw UnfoldRegions.opt

@[reducible] def Item.regions : (t : Item) → UnfoldRegions t.Val
  | .bool =>
    @UnfoldRegions.mk _ boolUnfold Item.bool.lawful (inferInstanceAs (Regions Bits))
      (inferInstanceAs (Regions (OptBitVec Bits)))
  | .prim (.plain p) =>
    @UnfoldRegions.mk _ (plainUnfold p) (Item.prim (.plain p)).lawful (inferInstanceAs (Regions (List (Prim.plain p).Val)))
      (inferInstanceAs (Regions (OptBitVec (List (Prim.plain p).Val))))
  | .prim (.niche p) =>
    @UnfoldRegions.mk _ (nicheUnfold p) (Item.prim (.niche p)).lawful (inferInstanceAs (Regions (List (Prim.niche p).Val)))
      (inferInstanceAs (Regions (OptInSitu (Prim.niche p).Val)))
  | .string =>
    @UnfoldRegions.mk _ stringUnfold Item.string.lawful (inferInstanceAs (Regions (Seq Bytes)))
      (inferInstanceAs (Regions (OptSeq Bytes)))
  | .option t =>
    letI := t.regions
    @UnfoldRegions.mk _ (optionUnfold t.unfold) (Item.option t).lawful (inferInstanceAs (Regions (OptAcc t.Val)))
      (inferInstanceAs (Regions (Flatten (OptAcc t.Val))))
  | .vec t =>
    letI := t.regions
    @UnfoldRegions.mk _ (vecUnfold t.unfold) (Item.vec t).lawful (inferInstanceAs (Regions (Seq (RawAcc t.Val))))
      (inferInstanceAs (Regions (OptSeq (RawAcc t.Val))))

instance itemRegions (t : Item) : UnfoldRegions t.Val := t.regions

/-- The accumulators: those of the item types, and each combinator over any of them. -/
inductive Shape
  | octets
  | raw (t : Item)
  | opt (t : Item)
  | optBitVec (s : Shape)
  | seq (s : Shape)
  | optSeq (s : Shape)
  | flatten (s : Shape)

@[reducible] def Shape.Acc : Shape → Type
  | .octets => Bytes
  | .raw t => RawAcc t.Val
  | .opt t => OptAcc t.Val
  | .optBitVec s => OptBitVec s.Acc
  | .seq s => Seq s.Acc
  | .optSeq s => OptSeq s.Acc
  | .flatten s => Flatten s.Acc

instance shapeAcc : (s : Shape) → Acc s.Acc
  | .octets => inferInstanceAs (Acc Bytes)
  | .raw t => inferInstanceAs (Acc (RawAcc t.Val))
  | .opt t => inferInstanceAs (Acc (OptAcc t.Val))
  | .optBitVec s =>
    letI := shapeAcc s
    optBitVecAcc fun _ => basic
  | .seq s =>
    letI := shapeAcc s
    inferInstanceAs (Acc (Seq s.Acc))
  | .optSeq s =>
    letI := shapeAcc s
    inferInstanceAs (Acc (OptSeq s.Acc))
  | .flatten s =>
    letI := shapeAcc s
    inferInstanceAs (Acc (Flatten s.Acc))

instance shapeLawful : (s : Shape) → LawfulSerialize s.Acc
  | .octets => inferInstanceAs (LawfulSerialize Bytes)
  | .raw t => inferInstanceAs (LawfulSerialize (RawAcc t.Val))
  | .opt t => inferInstanceAs (LawfulSerialize (OptAcc t.Val))
  | .optBitVec s =>
    letI := shapeLawful s
    inferInstanceAs (LawfulSerialize (OptBitVec s.Acc))
  | .seq s =>
    letI := shapeLawful s
    inferInstanceAs (LawfulSerialize (Seq s.Acc))
  | .optSeq s =>
    letI := shapeLawful s
    inferInstanceAs (LawfulSerialize (OptSeq s.Acc))
  | .flatten s =>
    letI := shapeLawful s
    inferInstanceAs (LawfulSerialize (Flatten s.Acc))

instance shapeRegions : (s : Shape) → Regions s.Acc
  | .octets => inferInstanceAs (Regions Bytes)
  | .raw t => inferInstanceAs (Regions (RawAcc t.Val))
  | .opt t => inferInstanceAs (Regions (OptAcc t.Val))
  | .optBitVec s =>
    letI := shapeRegions s
    inferInstanceAs (Regions (OptBitVec s.Acc))
  | .seq s =>
    letI := shapeRegions s
    inferInstanceAs (Regions (Seq s.Acc))
  | .optSeq s =>
    letI := shapeRegions s
    inferInstanceAs (Regions (OptSeq s.Acc))
  | .flatten s =>
    letI := shapeRegions s
    inferInstanceAs (Regions (Flatten s.Acc))

instance bufferRegions {I : Type} [BitMatch I] [Unfold I] [LawfulUnfold I] [UnfoldRegions I] : Regions (Buffer I) where
  regions
    | .empty => []
    | .compact item _ => regions (once item)
    | .many acc => regions acc
  framed
    | .empty, _, h => nomatch h
    | .compact item _, r, h => Regions.framed (once item) r h
    | .many acc, r, h => Regions.framed acc r h

/-! ## Predicted sizes -/

/-- The bytes written are `n` in number whatever they overwrite, and the regions in them are aligned. -/
def Predicted {A : Type} [Serialize A] [LawfulSerialize A] [Regions A] (a : A) (n : NonZero) : Prop :=
  ∃ bytes : Bytes, bytes.length = n.get ∧
    (∀ buf : Bytes, n.get ≤ buf.length → serializeInto a buf = .ok (bytes, buf.drop n.get)) ∧
    ∀ r ∈ regions a, Framed bytes r.1 r.2

theorem predicted {A : Type} [Serialize A] [LawfulSerialize A] [Regions A] {a : A} {n : NonZero}
    (h : Serialize.size a = .ok n) : Predicted a n :=
  ⟨enc a, (LawfulSerialize.size_eq h).symm, fun buf hle => LawfulSerialize.into_eq buf h hle, Regions.framed a⟩

theorem dvd_sizedBuf_size {A : Type} [Serialize A] {s : SizedBuf A} {n : NonZero} (h : Serialize.size s = .ok n) :
    8 ∣ n.get := by
  obtain ⟨k, -, hn⟩ := sizedBuf_size_eq_ok h
  rw [hn]
  exact Nat.dvd_add (Nat.dvd_of_mod_eq_zero (roundUp_mod _)) (Nat.dvd_refl 8)

/-- A size that is announced is exact, for accumulators of every shape, the buffers over them and regions of either. -/
theorem size_predicted (s : Shape) (a : s.Acc) (t : Item) (b : Buffer t.Val) {n : NonZero} :
    (Serialize.size a = .ok n → Predicted a n) ∧
    (Serialize.size (SizedBuf.mk a) = .ok n → Predicted (SizedBuf.mk a) n ∧ 8 ∣ n.get) ∧
    (Serialize.size b = .ok n → Predicted b n) ∧
    (Serialize.size (SizedBuf.mk b) = .ok n → Predicted (SizedBuf.mk b) n ∧ 8 ∣ n.get) :=
  ⟨predicted, fun h => ⟨predicted h, dvd_sizedBuf_size h⟩, predicted, fun h => ⟨predicted h, dvd_sizedBuf_size h⟩⟩

/-- One row of three bytes. -/
def threeBytes : (Shape.seq .octets).Acc := ⟨[U64.clamp 3], [1, 2, 3]⟩

def flag : Item := .bool

def twice : Buffer flag.Val := .compact (show flag.Val from true) 2

theorem size_predicted_row :
    Predicted threeBytes ⟨32, by decide, by decide⟩ ∧ Predicted (SizedBuf.mk threeBytes) ⟨40, by decide, by decide⟩ ∧
    Predicted twice ⟨1, by decide, by decide⟩ ∧ Predicted (SizedBuf.mk twice) ⟨16, by decide, by decide⟩ :=
  ⟨(size_predicted (.seq .octets) threeBytes flag twice).1 rfl,
    ((size_predicted (.seq .octets) threeBytes flag twice).2.1 rfl).1,
    (size_predicted (.seq .octets) threeBytes flag twice).2.2.1 rfl,
    ((size_predicted (.seq .octets) threeBytes flag twice).2.2.2 rfl).1⟩

end Msca
