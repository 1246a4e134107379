import Msca.Statistics

/-! Statistic sectors of a body. An accumulator of fixed-width items is described without statistics where it holds no
present item, and with the sectors of two of its items that nothing lies beyond where it does. -/
namespace Msca
set_option autoImplicit false
open Checked
open PartialOrd (lt gt le ge)

/-! ## Accumulators with statistics -/

/-- The accumulators of optional fixed-width items. -/
inductive OptOrdered
  | inSitu (p : Niche)
  | bitVec (p : Prim)
  | flatten (s : OptOrdered)

namespace OptOrdered

def prim : OptOrdered → Prim
  | .inSitu p => .niche p
  | .bitVec p => p
  | .flatten s => s.prim

@[reducible] def Base : OptOrdered → Type
  | .inSitu p => (Prim.niche p).Val
  | .bitVec p => p.Val
  | .flatten s => Option s.Base

@[reducible] def Acc : OptOrdered → Type
  | .inSitu p => OptInSitu (Prim.niche p).Val
  | .bitVec p => OptBitVec (List p.Val)
  | .flatten s => Flatten s.Acc

/-- The items present at every level. -/
def present : (s : OptOrdered) → List (Option s.Base) → List s.prim.Val
  | .inSitu _, xs => somes xs
  | .bitVec _, xs => somes xs
  | .flatten s, xs => s.present (xs.map Option.join)

end OptOrdered

instance optOrderedAcc : (s : OptOrdered) → Acc s.Acc
  | .inSitu p => inferInstanceAs (Acc (OptInSitu (Prim.niche p).Val))
  | .bitVec p => inferInstanceAs (Acc (OptBitVec (List p.Val)))
  | .flatten s =>
    letI := optOrderedAcc s
    inferInstanceAs (Acc (Flatten s.Acc))

instance optOrderedAccumulate : (s : OptOrdered) → Accumulate s.Acc (Option s.Base)
  | .inSitu p => inferInstanceAs (Accumulate (OptInSitu (Prim.niche p).Val) (Option (Prim.niche p).Val))
  | .bitVec p => inferInstanceAs (Accumulate (OptBitVec (List p.Val)) (Option p.Val))
  | .flatten s =>
    letI := optOrderedAccumulate s
    inferInstanceAs (Accumulate (Flatten s.Acc) (Option (Option s.Base)))

instance optOrderedLawful : (s : OptOrdered) → LawfulSerialize s.Acc
  | .inSitu p => inferInstanceAs (LawfulSerialize (OptInSitu (Prim.niche p).Val))
  | .bitVec p => inferInstanceAs (LawfulSerialize (OptBitVec (List p.Val)))
  | .flatten s =>
    letI := optOrderedLawful s
    inferInstanceAs (LawfulSerialize (Flatten s.Acc))

/-- The accumulators of fixed-width items. -/
inductive Ordered
  | vec (p : Prim)
  | opt (s : OptOrdered)

namespace Ordered

def prim : Ordered → Prim
  | .vec p => p
  | .opt s => s.prim

@[reducible] def Item : Ordered → Type
  | .vec p => p.Val
  | .opt s => Option s.Base

@[reducible] def Acc : Ordered → Type
  | .vec p => List p.Val
  | .opt s => s.Acc

def present : (s : Ordered) → List s.Item → List s.prim.Val
  | .vec _, xs => xs
  | .opt s, xs => s.present xs

end Ordered

instance orderedAcc : (s : Ordered) → Acc s.Acc
  | .vec p => inferInstanceAs (Acc (List p.Val))
  | .opt s => inferInstanceAs (Acc s.Acc)

instance orderedAccumulate : (s : Ordered) → Accumulate s.Acc s.Item
  | .vec p => inferInstanceAs (Accumulate (List p.Val) p.Val)
  | .opt s => inferInstanceAs (Accumulate s.Acc (Option s.Base))

instance orderedLawful : (s : Ordered) → LawfulSerialize s.Acc
  | .vec p => inferInstanceAs (LawfulSerialize (List p.Val))
  | .opt s => inferInstanceAs (LawfulSerialize s.Acc)

/-! ## Addressed items -/

/-- The sector lies inside the body, is as wide as one item and holds the bytes of `a`. -/
structure Addresses (body : Sector) (bytes : Bytes) (s : Sector) {p : Prim} (a : p.Val) : Prop where
  start : body.offset ≤ s.offset
  stop : s.offset + s.size ≤ body.offset + body.size
  width : s.size = Fixed.width p.Val
  decodes : (deserialize (α := p.Val)).run (Bytes.slice bytes (s.offset - body.offset) s.size) = (.ok a, [])

/-- Two of the items that no item lies beyond. They bound every item if all of these are comparable. -/
structure Extremes {p : Prim} (ys : List p.Val) (a b : p.Val) : Prop where
  min_mem : a ∈ ys
  max_mem : b ∈ ys
  not_lt : ∀ x ∈ ys, partialCmp x a ≠ some .lt
  not_gt : ∀ x ∈ ys, partialCmp x b ≠ some .gt
  bounds : (∀ x ∈ ys, ∀ y ∈ ys, partialCmp x y ≠ none) → ∀ x ∈ ys,
    (partialCmp a x = some .lt ∨ partialCmp a x = some .eq) ∧ (partialCmp x b = some .lt ∨ partialCmp x b = some .eq)

/-- A body with the bytes of `acc` is described without statistics where none of the items is present, and with the
sectors of two extremes of those present where some are. -/
def DescribedAs {A : Type} [Acc A] (acc : A) {p : Prim} (ys : List p.Val) (body : Sector) (count : NonZero) : Prop :=
  ∃ bytes desc, serialize acc = .ok bytes ∧ Acc.describe acc body count = .ok desc ∧
    (desc = .basic body count ↔ ys = []) ∧
    (ys ≠ [] → ∃ min max, ∃ a b : p.Val, desc = .detailed body count min max ∧ Addresses body bytes min a ∧
      Addresses body bytes max b ∧ Extremes ys a b)

/-- The description of every body that the accumulator fits. -/
def Described {A : Type} [Acc A] (acc : A) {p : Prim} (ys : List p.Val) : Prop :=
  ∀ (n : NonZero) (body : Sector) (count : NonZero), Serialize.size acc = .ok n → body.size = n.get →
    body.offset + body.size < 2 ^ 64 → DescribedAs acc ys body count

section Spans
variable {p : Prim} {ys : List p.Val} {lo hi : p.Val}

theorem ranked_of_cmp {x y : p.Val} {o : Ordering} (h : partialCmp x y = some o) :
    @PartialOrd.le p.Val (primPartialOrd p) x x = true ∧ @PartialOrd.le p.Val (primPartialOrd p) y y = true := by
  let _ := primPartialOrd p
  obtain ⟨i, j, hi, hj, -⟩ := partialCmp_eq_some.mp h
  exact ⟨le_self_iff.mpr ⟨i, hi⟩, le_self_iff.mpr ⟨j, hj⟩⟩

theorem extremes_of_spans (h : @Spans p.Val (primPartialOrd p) ys lo hi) : Extremes ys lo hi := by
  let _ := primPartialOrd p
  obtain ⟨y, rest, rfl⟩ := List.exists_cons_of_ne_nil (List.ne_nil_of_mem h.lo_mem)
  have hhead : (y :: rest).head? = some y := rfl
  refine ⟨h.lo_mem, h.hi_mem, ?_, ?_, ?_⟩
  · intro x hx hlt
    obtain ⟨hxle, hlole⟩ := ranked_of_cmp hlt
    cases hy : le y y with
    | false =>
      rw [(h.unranked y hhead hy).1, hy] at hlole
      cases hlole
    | true =>
      have hnot := not_lt_of_le_of (h.ranked y hhead hy x hx hxle).1
      rw [lt, beq_eq_false_iff_ne] at hnot
      exact hnot hlt
  · intro x hx hgt
    obtain ⟨hxle, hhile⟩ := ranked_of_cmp hgt
    cases hy : le y y with
    | false =>
      rw [(h.unranked y hhead hy).2, hy] at hhile
      cases hhile
    | true =>
      have hnot := not_gt_of_le_of (h.ranked y hhead hy x hx hxle).2
      rw [gt, beq_eq_false_iff_ne] at hnot
      exact hnot hgt
  · intro hall x hx
    have hself : ∀ z ∈ y :: rest, le z z = true := by
      intro z hz
      obtain ⟨o, ho⟩ := Option.ne_none_iff_exists'.mp (hall z hz z hz)
      exact (ranked_of_cmp ho).1
    have hcmp : ∀ a b : p.Val, PartialOrd.partialCmp a b = partialCmp a b := fun _ _ => rfl
    simpa [le, hcmp] using h.ranked y hhead (hself y List.mem_cons_self) x hx (hself x hx)

end Spans

/-! ## Searches -/

/-- No search finds anything where no item is present. -/
def Unlocated {A : Type} [MinMax A] (acc : A) {p : Prim} (ys : List p.Val) : Prop :=
  ys = [] → ∀ ord, MinMax.find acc ord = none

theorem find_of_absent {p : Prim} {items : List (Option p.Val)} {width : Nat} {ord : Ordering} (h : somes items = []) :
    Sector.find items width (cmp ord) = none := by
  have hpresent : Sector.present items = [] := List.map_eq_nil_iff.mp (by rw [present_values, h])
  rw [Sector.find, hpresent]
  rfl

theorem vec_unlocated {p : Prim} (xs : List p.Val) : Unlocated xs xs :=
  fun h _ => find_of_absent (by rw [somes_some, h])

theorem optInSitu_unlocated {p : Niche} (acc : OptInSitu (Prim.niche p).Val) : Unlocated acc (somes acc.data) :=
  fun h _ => find_of_absent h

theorem optBitVec_unlocated {p : Prim} (acc : OptBitVec (List p.Val)) : Unlocated acc acc.data := by
  intro h ord
  cases hfind : MinMax.find acc ord with
  | none => rfl
  | some s =>
    obtain ⟨-, t, -, ht, -⟩ := optBitVec_find_eq_some hfind
    rw [vec_unlocated acc.data h ord] at ht
    cases ht

/-- A located item is addressed by its sector once that is moved to the body. -/
theorem addresses_of_slice {p : Prim} {a : p.Val} {bytes : Bytes} {body s t : Sector} (hbody : body.size = bytes.length)
    (hle : s.offset + s.size ≤ bytes.length) (hbytes : Bytes.slice bytes s.offset s.size = Fixed.toLe a)
    (ht : s.relative body.offset = .ok t) : Addresses body bytes t a := by
  obtain ⟨-, hoffset, hsize⟩ := Sector.relative_eq_ok ht
  have hwidth : s.size = Fixed.width p.Val := by
    rw [← Fixed.toLe_length a, ← hbytes, Bytes.slice_length hle]
  refine ⟨by omega, by omega, hsize.trans hwidth, ?_⟩
  have hparse := deserialize_append a []
  rw [List.append_nil] at hparse
  rw [hoffset, hsize, Nat.add_sub_cancel, hbytes, hparse]

theorem described_of_detail {A : Type} [MinMax A] [Acc A] [LawfulSerialize A] {acc : A} {p : Prim} {ys : List p.Val}
    (hdetail : Acc.describe acc = detail acc) (hloc : ∀ n, Serialize.size acc = .ok n → Locates acc ys)
    (hun : Unlocated acc ys) : Described acc ys := by
  intro n body count hn hsize hlt
  have hlen : n.get = (enc acc).length := LawfulSerialize.size_eq hn
  refine ⟨enc acc, ?_⟩
  rw [hdetail]
  cases ys with
  | nil =>
    refine ⟨.basic body count, serialize_eq hn, ?_, by simp, fun h => absurd rfl h⟩
    rw [detail, hun rfl .lt]
    rfl
  | cons y rest =>
    obtain ⟨s, hs, hsle, hsbytes⟩ := hloc n hn .lt (by decide) y rest rfl
    obtain ⟨t, ht, htle, htbytes⟩ := hloc n hn .gt (by decide) y rest rfl
    obtain ⟨min, hmin⟩ : ∃ min, s.relative body.offset = .ok min := ⟨_, Sector.relative_of_lt (by omega)⟩
    obtain ⟨max, hmax⟩ : ∃ max, t.relative body.offset = .ok max := ⟨_, Sector.relative_of_lt (by omega)⟩
    have hfirst := addresses_of_slice (hsize.trans hlen) hsle hsbytes hmin
    have hlast := addresses_of_slice (hsize.trans hlen) htle htbytes hmax
    have hextremes := extremes_of_spans (spans_of_scan y rest)
    refine ⟨.detailed body count min max, serialize_eq hn, ?_, by simp, ?_⟩
    · rw [detail, hs]
      dsimp only
      rw [hmin, ok_bind, ht]
      dsimp only
      rw [hmax, ok_bind]
      rfl
    · exact fun _ => ⟨min, max, _, _, rfl, hfirst, hlast, hextremes⟩

/-! ## Descriptions -/

theorem vec_described {p : Prim} (xs : List p.Val) : Described (collect xs : List p.Val) xs := by
  rw [vec_collect]
  refine described_of_detail rfl (fun n hn => vec_locates xs ?_) (vec_unlocated xs)
  exact (LawfulSerialize.size_eq hn : n.get = (encAll xs).length) ▸ n.lt

theorem OptOrdered.described : (s : OptOrdered) → (xs : List (Option s.Base)) →
    Described (collect xs : s.Acc) (s.present xs)
  | .inSitu p, xs => by
    have hcollect : (collect xs : OptInSitu (Prim.niche p).Val) = ⟨xs⟩ := optInSitu_collect xs
    refine hcollect ▸ described_of_detail rfl (fun n hn => optInSitu_locates ⟨xs⟩ ?_) (optInSitu_unlocated ⟨xs⟩)
    exact (LawfulSerialize.size_eq hn : n.get = (encAll xs).length) ▸ n.lt
  | .bitVec p, xs => by
    have hcollect : (collect xs : OptBitVec (List p.Val)) = ⟨xs.map Option.isSome, somes xs⟩ := by
      rw [optBitVec_collect detail xs, vec_collect]
    exact hcollect ▸ described_of_detail rfl (fun n hn => optBitVec_locates hn) (optBitVec_unlocated _)
  | .flatten s, xs => by
    have hcollect : (collect xs : Flatten s.Acc) = ⟨collect (xs.map Option.join)⟩ := flatten_collect xs
    have hinner := s.described (xs.map Option.join)
    exact hcollect ▸ hinner

/-- Statistic sectors address the extremes of the items present. -/
theorem describe_extremes (s : Ordered) (xs : List s.Item) {n : NonZero} (body : Sector) (count : NonZero)
    (hn : Serialize.size (collect xs : s.Acc) = .ok n) (hsize : body.size = n.get)
    (hlt : body.offset + body.size < 2 ^ 64) : DescribedAs (collect xs : s.Acc) (s.present xs) body count := by
  cases s with
  | vec p => exact vec_described xs n body count hn hsize hlt
  | opt s => exact s.described xs n body count hn hsize hlt

/-- A column of doubly optional bytes. -/
def nestedByte : Ordered := .opt (.flatten (.bitVec (.plain (.uint .b1))))

def nestedBytes : List nestedByte.Item := [none, some (some ⟨7, by decide, trivial⟩), some none, some (some ⟨3, by decide, trivial⟩)]

theorem describe_extremes_nested : DescribedAs (collect nestedBytes : nestedByte.Acc) (nestedByte.present nestedBytes)
    ⟨64, 32, by decide, by decide, by decide⟩ ⟨4, by decide, by decide⟩ :=
  describe_extremes nestedByte nestedBytes (n := ⟨32, by decide, by decide⟩) _ _ rfl rfl (by decide)

end Msca
