import Msca.RoundTrip

/-! The codec of a column of nested items as a whole. A sequence whose elements are all missing has no
data region, and the source of elements that are not flat is nevertheless parsed from it. -/
namespace Msca
set_option autoImplicit false
open Checked

/-! ## Limits of memory -/

/-- No bit vector of the accumulator is longer than its length field allows. -/
def Item.BitsFit : (t : Item) → List t.Val → Prop
  | .bool, xs => xs.length < 2 ^ 61
  | .option .bool, xs => xs.length < 2 ^ 61
  | .option (.prim (.plain _)), xs => xs.length < 2 ^ 61
  | .vec t, xs => t.BitsFit xs.flatten
  | .option (.vec t), xs => t.BitsFit (somes xs).flatten
  | _, _ => True

theorem Item.bitsFit_nil : (t : Item) → t.BitsFit []
  | .bool => (by decide : 0 < 2 ^ 61)
  | .prim _ => trivial
  | .string => trivial
  | .option .bool => (by decide : 0 < 2 ^ 61)
  | .option (.prim (.plain _)) => (by decide : 0 < 2 ^ 61)
  | .option (.prim (.niche _)) => trivial
  | .option .string => trivial
  | .option (.option _) => trivial
  | .option (.vec t) => t.bitsFit_nil
  | .vec t => t.bitsFit_nil

theorem Item.bitsFit_mono : (t : Item) → {xs ys : List t.Val} → xs.Sublist ys → t.BitsFit ys → t.BitsFit xs
  | .bool, _, _, h, hy => Nat.lt_of_le_of_lt h.length_le hy
  | .prim _, _, _, _, _ => trivial
  | .string, _, _, _, _ => trivial
  | .option .bool, _, _, h, hy => Nat.lt_of_le_of_lt h.length_le hy
  | .option (.prim (.plain _)), _, _, h, hy => Nat.lt_of_le_of_lt h.length_le hy
  | .option (.prim (.niche _)), _, _, _, _ => trivial
  | .option .string, _, _, _, _ => trivial
  | .option (.option _), _, _, _, _ => trivial
  | .option (.vec t), _, _, h, hy => t.bitsFit_mono (h.filterMap id).flatten hy
  | .vec t, _, _, h, hy => t.bitsFit_mono h.flatten hy

/-- The bytes of the column fit an allocation, and its bits a bit vector. -/
def Item.InMemory (t : Item) (xs : List t.Val) : Prop := (t.image xs).length < 2 ^ 63 ∧ t.BitsFit xs

theorem length_le_partsEnc {D : Type} [Acc D] [LawfulSerialize D] (ends : List U64) (data : D) :
    ends.length ≤ (partsEnc ends data).length :=
  Nat.le_trans (length_le_encAll ends) (partsEnc_head_le ends data)

theorem Item.length_lt : (t : Item) → t.decodable = true → (xs : List t.Val) → t.InMemory xs →
    xs.length < 2 ^ 63
  | .bool, _, xs, hm => by
    have h : xs.length < 2 ^ 61 := hm.2
    omega
  | .prim (.plain p), _, xs, hm => by
    have himage : (Item.prim (.plain p)).image xs = encAll xs := congrArg encAll (vec_collect xs)
    have hle := length_le_encAll xs
    have hlt := hm.1
    rw [himage] at hlt
    omega
  | .prim (.niche p), _, xs, hm => by
    have himage : (Item.prim (.niche p)).image xs = encAll xs := congrArg encAll (vec_collect xs)
    have hle := length_le_encAll xs
    have hlt := hm.1
    rw [himage] at hlt
    omega
  | .string, _, xs, hm => by
    have hle := length_le_partsEnc (endsFrom 0 ((xs.map intoBytes).map List.length))
      (collect (xs.map intoBytes).flatten : Bytes)
    have hlt := hm.1
    rw [image_string] at hlt
    simp only [endsFrom_length, List.length_map] at hle
    omega
  | .option .bool, _, xs, hm => by
    have h : xs.length < 2 ^ 61 := hm.2
    omega
  | .option (.prim (.plain p)), _, xs, hm => by
    have h : xs.length < 2 ^ 61 := hm.2
    omega
  | .option (.prim (.niche p)), _, xs, hm => by
    have himage : (Item.option (.prim (.niche p))).image xs = encAll xs :=
      congrArg (fun acc : OptInSitu (Prim.niche p).Val => encAll acc.data) (optInSitu_collect xs)
    have hle := length_le_encAll xs
    have hlt := hm.1
    rw [himage] at hlt
    omega
  | .option .string, _, xs, hm => by
    have hle := length_le_partsEnc (optEndsFrom 0 ((xs.map (Option.map intoBytes)).map (Option.map List.length)))
      (collect ((somes xs).map intoBytes).flatten : Bytes)
    have hlt := hm.1
    rw [image_optString] at hlt
    simp only [optEndsFrom_length, List.length_map] at hle
    omega
  | .option (.option _), h, _, _ => by cases h
  | .option (.vec t), _, xs, hm => by
    have hle := length_le_partsEnc (optEndsFrom 0 (xs.map (Option.map List.length))) (t.acc (somes xs).flatten)
    have hlt := hm.1
    rw [image_optVec] at hlt
    simp only [optEndsFrom_length, List.length_map] at hle
    omega
  | .vec t, _, xs, hm => by
    have hle := length_le_partsEnc (endsFrom 0 (xs.map List.length)) (t.acc xs.flatten)
    have hlt := hm.1
    rw [image_vec] at hlt
    simp only [endsFrom_length, List.length_map] at hle
    omega

theorem Item.counted_nil : (t : Item) → t.Counted []
  | .bool => trivial
  | .prim _ => trivial
  | .string => (by omega : 0 < 2 ^ 64 - 1)
  | .option .bool => trivial
  | .option (.prim _) => trivial
  | .option .string => (by omega : 0 < 2 ^ 64 - 1)
  | .option (.option _) => trivial
  | .option (.vec t) => ⟨(by omega : 0 < 2 ^ 64 - 1), t.counted_nil⟩
  | .vec t => ⟨(by omega : 0 < 2 ^ 64 - 1), t.counted_nil⟩

theorem Item.elements_inMemory (t : Item) {H : Type} [Serialize H] [LawfulSerialize H] {head : H}
    {ys : List t.Val} (hlt : (partsEnc head (t.acc ys)).length < 2 ^ 63) (hbits : t.BitsFit ys)
    (hne : ys ≠ []) : t.InMemory ys := by
  have hd : Acc.isEmpty (t.acc ys) = false := by
    rw [Item.acc, LawfulAcc.isEmpty_collect]
    simpa using hne
  have hle : (t.image ys).length ≤ _ := partsEnc_data_le head (t.acc ys) hd
  exact ⟨by omega, hbits⟩

theorem bytes_lt {H : Type} [Serialize H] [LawfulSerialize H] {head : H} {bs : Bytes}
    (hlt : (partsEnc head (collect bs : Bytes)).length < 2 ^ 63) : bs.length < 2 ^ 64 - 1 := by
  cases bs with
  | nil => decide
  | cons b bs =>
    have hd : Acc.isEmpty (collect (b :: bs) : Bytes) = false := LawfulAcc.isEmpty_collect (b :: bs)
    have hle := partsEnc_data_le head (collect (b :: bs) : Bytes) hd
    have henc : enc (collect (b :: bs) : Bytes) = b :: bs := by
      rw [vec_collect]
      exact encAll_bytes (b :: bs)
    rw [henc] at hle
    omega

/-- In memory no end clamps and none reads as absent. -/
theorem Item.counted : (t : Item) → t.decodable = true → (xs : List t.Val) → t.InMemory xs → t.Counted xs
  | .bool, _, _, _ => trivial
  | .prim _, _, _, _ => trivial
  | .string, _, xs, hm => by
    have hlt := hm.1
    rw [image_string] at hlt
    exact bytes_lt hlt
  | .option .bool, _, _, _ => trivial
  | .option (.prim _), _, _, _ => trivial
  | .option .string, _, xs, hm => by
    have hlt := hm.1
    rw [image_optString] at hlt
    exact bytes_lt hlt
  | .option (.option _), h, _, _ => by cases h
  | .option (.vec t), h, xs, hm => by
    by_cases hne : (somes xs).flatten = []
    · show (somes xs).flatten.length < 2 ^ 64 - 1 ∧ t.Counted (somes xs).flatten
      rw [hne]
      exact ⟨(by omega : 0 < 2 ^ 64 - 1), t.counted_nil⟩
    · have hlt := hm.1
      rw [image_optVec] at hlt
      have hin := t.elements_inMemory hlt hm.2 hne
      have hlen := t.length_lt h _ hin
      exact ⟨by omega, t.counted h _ hin⟩
  | .vec t, h, xs, hm => by
    by_cases hne : xs.flatten = []
    · show xs.flatten.length < 2 ^ 64 - 1 ∧ t.Counted xs.flatten
      rw [hne]
      exact ⟨(by omega : 0 < 2 ^ 64 - 1), t.counted_nil⟩
    · have hlt := hm.1
      rw [image_vec] at hlt
      have hin := t.elements_inMemory hlt hm.2 hne
      have hlen := t.length_lt h _ hin
      exact ⟨by omega, t.counted h _ hin⟩

/-! ## Missing elements -/

/-- The source of an item type that is not flat starts with a region. -/
theorem Item.empty_fails : (t : Item) → (h : t.decodable = true) → t.flat = false →
    @openIter t.Val (t.decode h) [] = .error (truncated 8 0)
  | .bool, _, hf => by cases hf
  | .prim _, _, hf => by cases hf
  | .string, _, _ => rfl
  | .option .bool, _, _ => rfl
  | .option (.prim (.plain _)), _, _ => rfl
  | .option (.prim (.niche _)), _, hf => by cases hf
  | .option .string, _, _ => rfl
  | .option (.option _), h, _ => by cases h
  | .option (.vec _), _, _ => rfl
  | .vec _, _, _ => rfl

/-- What the reader finds below a sequence that is not regular. -/
theorem Item.elements_fail {t : Item} {h : t.decodable = true} {ys : List t.Val}
    (hr : (t.flat || (!ys.isEmpty && t.regular ys)) = false)
    (hin : ys ≠ [] → t.regular ys = false →
      @openIter t.Val (t.decode h) (t.image ys) = .error (truncated 8 0)) :
    @openIter t.Val (t.decode h) (dataRegion (t.acc ys)) = .error (truncated 8 0) := by
  rw [Bool.or_eq_false_iff, Bool.and_eq_false_iff] at hr
  rw [t.dataRegion_eq]
  by_cases hne : ys = []
  · rw [hne]
    exact t.empty_fails h hr.1
  · rw [if_neg (by simpa using hne)]
    exact hin hne (hr.2.resolve_left (by simpa using hne))

theorem Item.fails : (t : Item) → (h : t.decodable = true) → (xs : List t.Val) → (n : NonZero) →
    Serialize.size (t.acc xs) = .ok n → t.regular xs = false →
    @openIter t.Val (t.decode h) (t.image xs) = .error (truncated 8 0)
  | .bool, _, _, _, _, hr => by cases hr
  | .prim _, _, _, _, _, hr => by cases hr
  | .string, _, _, _, _, hr => by cases hr
  | .option .bool, _, _, _, _, hr => by cases hr
  | .option (.prim _), _, _, _, _, hr => by cases hr
  | .option .string, _, _, _, _, hr => by cases hr
  | .option (.option _), h, _, _, _, _ => by cases h
  | .option (.vec t), h, xs, n, hs, hr => by
    rw [acc_optVec] at hs
    rw [image_optVec]
    have hopen := @openIter_optSeq t.Val _ _ (t.decode h) _ _ _ hs
    have hdata : @openIter t.Val (t.decode h) (dataRegion (t.acc (somes xs).flatten)) = .error (truncated 8 0) := by
      refine t.elements_fail hr ?_
      intro hne hreg
      obtain ⟨k, hk⟩ := t.elements_size hs hne
      exact t.fails h _ k hk hreg
    rw [Item.acc] at hdata ⊢
    rw [hdata] at hopen
    exact hopen
  | .vec t, h, xs, n, hs, hr => by
    rw [acc_vec] at hs
    rw [image_vec]
    have hopen := @openIter_seq t.Val _ _ (t.decode h) _ _ _ hs
    have hdata : @openIter t.Val (t.decode h) (dataRegion (t.acc xs.flatten)) = .error (truncated 8 0) := by
      refine t.elements_fail hr ?_
      intro hne hreg
      obtain ⟨k, hk⟩ := t.elements_size hs hne
      exact t.fails h _ k hk hreg
    rw [Item.acc] at hdata ⊢
    rw [hdata] at hopen
    exact hopen

/-! ## Writing and reading back -/

/-- Items collected, serialised, and as many taken from the iterator over the bytes. -/
def Item.roundTrip (t : Item) (h : t.decodable = true) (xs : List t.Val) : Res (List (Res t.Val)) := do
  let bytes ← serialize (t.acc xs)
  @readItems t.Val (t.decode h) xs.length bytes

theorem Item.size_acc {t : Item} {xs : List t.Val} (hne : xs ≠ []) (hm : t.InMemory xs) :
    ∃ n, Serialize.size (t.acc xs) = .ok n := LawfulAcc.size_collect xs hne hm.1

theorem Item.roundTrip_eq {t : Item} (h : t.decodable = true) {xs : List t.Val} (hne : xs ≠ [])
    (hm : t.InMemory xs) : t.roundTrip h xs = @readItems t.Val (t.decode h) xs.length (t.image xs) := by
  obtain ⟨n, hn⟩ := Item.size_acc hne hm
  rw [Item.roundTrip, serialize_eq hn, ok_bind]
  rfl

/-- The items of a column come back bit for bit exactly when every level below a sequence is flat or
has an item. -/
theorem Item.roundTrip_iff_regular (t : Item) (h : t.decodable = true) (xs : List t.Val) (hne : xs ≠ [])
    (hm : t.InMemory xs) : t.roundTrip h xs = .ok (xs.map .ok) ↔ t.regular xs = true := by
  obtain ⟨n, hn⟩ := Item.size_acc hne hm
  rw [Item.roundTrip_eq h hne hm, readItems]
  constructor
  · intro heq
    by_contra hr
    rw [t.fails h xs n hn (by simpa using hr)] at heq
    cases heq
  · intro hr
    obtain ⟨c, c', hc, hy⟩ := t.opens h xs n hn (t.counted h xs hm) hr
    rw [hc, ok_bind, takeItems_of_yields hy]
    rfl

/-- Two rows of optional words, the second of them empty. -/
theorem Item.roundTrip_two_rows :
    (Item.vec (.option (.prim (.plain (.uint .b4))))).roundTrip rfl [[some ⟨7, by decide, by decide⟩, none], []] =
      .ok [.ok [some ⟨7, by decide, by decide⟩, none], .ok []] := by
  refine (Item.roundTrip_iff_regular (.vec (.option (.prim (.plain (.uint .b4))))) rfl _ (by simp) ?_).mpr rfl
  exact ⟨by decide, show 2 < 2 ^ 61 by decide⟩

/-- One empty row of optional words is written without a data region and cannot be opened. -/
theorem Item.roundTrip_empty_row :
    (Item.vec (.option (.prim (.plain (.uint .b4))))).roundTrip rfl [[]] = .error (truncated 8 0) ∧
      ¬ ∀ (t : Item) (h : t.decodable = true) (xs : List t.Val), xs ≠ [] → t.InMemory xs →
        t.roundTrip h xs = .ok (xs.map .ok) := by
  have herr : (Item.vec (.option (.prim (.plain (.uint .b4))))).roundTrip rfl [[]] = .error (truncated 8 0) := rfl
  refine ⟨herr, ?_⟩
  intro hall
  have h := hall (.vec (.option (.prim (.plain (.uint .b4))))) rfl [[]] (by simp) ⟨by decide, show 0 < 2 ^ 61 by decide⟩
  rw [herr] at h
  cases h

end Msca
