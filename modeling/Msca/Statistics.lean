import Msca.Base.Extreme
import Msca.Adapter

/-! Order statistics of a written buffer. The two recorded sectors hold the bytes of its least and greatest
comparable item, or both those of the first item if that is comparable with nothing. -/
namespace Msca
set_option autoImplicit false
open Checked
open PartialOrd (lt gt le ge)

/-! ## Ranks -/

/-- Values compare by their ranks, and not at all without one. -/
class Ranked (α : Type) [PartialOrd α] where
  Key : Type
  order : LinearOrder Key
  rank : α → Option Key
  lt_iff : ∀ a b : α, PartialOrd.partialCmp a b = some .lt ↔ ∃ x y, rank a = some x ∧ rank b = some y ∧ x < y
  eq_iff : ∀ a b : α, PartialOrd.partialCmp a b = some .eq ↔ ∃ x y, rank a = some x ∧ rank b = some y ∧ x = y
  gt_iff : ∀ a b : α, PartialOrd.partialCmp a b = some .gt ↔ ∃ x y, rank a = some x ∧ rank b = some y ∧ y < x

attribute [reducible, instance] Ranked.order

section Ranked
variable {α : Type} [PartialOrd α] [Ranked α] {a b c : α}

theorem lt_iff_rank : lt a b = true ↔ ∃ x y, Ranked.rank a = some x ∧ Ranked.rank b = some y ∧ x < y := by
  rw [lt, beq_iff_eq]
  exact Ranked.lt_iff a b

theorem gt_iff_rank : gt a b = true ↔ ∃ x y, Ranked.rank a = some x ∧ Ranked.rank b = some y ∧ y < x := by
  rw [gt, beq_iff_eq]
  exact Ranked.gt_iff a b

theorem le_iff_rank : le a b = true ↔ ∃ x y, Ranked.rank a = some x ∧ Ranked.rank b = some y ∧ x ≤ y := by
  rw [le, Bool.or_eq_true, beq_iff_eq, beq_iff_eq, Ranked.lt_iff, Ranked.eq_iff]
  constructor
  · rintro (⟨x, y, hx, hy, h⟩ | ⟨x, y, hx, hy, h⟩)
    · exact ⟨x, y, hx, hy, le_of_lt h⟩
    · exact ⟨x, y, hx, hy, le_of_eq h⟩
  · rintro ⟨x, y, hx, hy, h⟩
    rcases lt_or_eq_of_le h with h | h
    · exact Or.inl ⟨x, y, hx, hy, h⟩
    · exact Or.inr ⟨x, y, hx, hy, h⟩

theorem ge_iff_rank : ge a b = true ↔ ∃ x y, Ranked.rank a = some x ∧ Ranked.rank b = some y ∧ y ≤ x := by
  rw [ge, Bool.or_eq_true, beq_iff_eq, beq_iff_eq, Ranked.gt_iff, Ranked.eq_iff]
  constructor
  · rintro (⟨x, y, hx, hy, h⟩ | ⟨x, y, hx, hy, h⟩)
    · exact ⟨x, y, hx, hy, le_of_lt h⟩
    · exact ⟨x, y, hx, hy, le_of_eq h.symm⟩
  · rintro ⟨x, y, hx, hy, h⟩
    rcases lt_or_eq_of_le h with h | h
    · exact Or.inl ⟨x, y, hx, hy, h⟩
    · exact Or.inr ⟨x, y, hx, hy, h.symm⟩

theorem le_self_iff : le a a = true ↔ ∃ x, Ranked.rank a = some x := by
  rw [le_iff_rank]
  constructor
  · rintro ⟨x, -, hx, -⟩
    exact ⟨x, hx⟩
  · rintro ⟨x, hx⟩
    exact ⟨x, x, hx, hx, le_refl x⟩

theorem le_trans_of_le (hab : le a b = true) (hbc : le b c = true) : le a c = true := by
  obtain ⟨x, y, hx, hy, hxy⟩ := le_iff_rank.mp hab
  obtain ⟨y', z, hy', hz, hyz⟩ := le_iff_rank.mp hbc
  rw [hy] at hy'
  cases hy'
  exact le_iff_rank.mpr ⟨x, z, hx, hz, le_trans hxy hyz⟩

theorem le_self_left (h : le a b = true) : le a a = true := by
  obtain ⟨x, -, hx, -⟩ := le_iff_rank.mp h
  exact le_self_iff.mpr ⟨x, hx⟩

theorem le_self_right (h : le a b = true) : le b b = true := by
  obtain ⟨-, y, -, hy, -⟩ := le_iff_rank.mp h
  exact le_self_iff.mpr ⟨y, hy⟩

theorem not_lt_of_le_of (h : le a b = true) : lt b a = false := by
  rw [← Bool.not_eq_true, lt_iff_rank]
  rintro ⟨y, x, hy, hx, hlt⟩
  obtain ⟨x', y', hx', hy', hle⟩ := le_iff_rank.mp h
  rw [hx] at hx'
  rw [hy] at hy'
  cases hx'
  cases hy'
  exact absurd hlt (not_lt_of_ge hle)

theorem not_gt_of_le_of (h : le a b = true) : gt a b = false := by
  rw [← Bool.not_eq_true, gt_iff_rank]
  rintro ⟨x, y, hx, hy, hlt⟩
  obtain ⟨x', y', hx', hy', hle⟩ := le_iff_rank.mp h
  rw [hx] at hx'
  rw [hy] at hy'
  cases hx'
  cases hy'
  exact absurd hlt (not_lt_of_ge hle)

end Ranked

theorem partialCmp_eq_some {α : Type} [Primitive α] {a b : α} {o : Ordering} :
    Msca.partialCmp a b = some o ↔ ∃ x y, Primitive.rank a = some x ∧ Primitive.rank b = some y ∧ compare x y = o := by
  unfold Msca.partialCmp
  cases Primitive.rank a <;> cases Primitive.rank b <;> simp

/-- Fixed-width values compare by their position on the line. -/
@[reducible] instance primRanked (p : Prim) : @Ranked p.Val (primPartialOrd p) :=
  letI := primPartialOrd p
  { Key := Int
    order := inferInstance
    rank := Primitive.rank
    lt_iff := fun a b => by simp only [PartialOrd.partialCmp, partialCmp_eq_some, compare_lt_iff_lt]
    eq_iff := fun a b => by simp only [PartialOrd.partialCmp, partialCmp_eq_some, compare_eq_iff_eq]
    gt_iff := fun a b => by simp only [PartialOrd.partialCmp, partialCmp_eq_some, compare_gt_iff_gt] }

/-- Niche values are all comparable. -/
def Niche.position (p : Niche) (a : (Prim.niche p).Val) : Int := ((Prim.niche p).rank a.bits).getD 0

theorem Niche.rank_eq (p : Niche) (a : (Prim.niche p).Val) : Primitive.rank a = some (p.position a) := by
  cases p <;> rfl

/-- The absent value is below every other. -/
@[reducible] instance nicheRanked (p : Niche) :
    @Ranked (Option (Prim.niche p).Val) (optionPartialOrd (primPartialOrd (.niche p))) :=
  letI := optionPartialOrd (primPartialOrd (.niche p))
  { Key := WithBot Int
    order := inferInstance
    rank := fun a => some (a.elim ⊥ fun a => (p.position a : WithBot Int))
    lt_iff := fun a b => by
      cases a <;> cases b <;> simp [PartialOrd.partialCmp, partialCmp_eq_some, Niche.rank_eq, compare_lt_iff_lt]
    eq_iff := fun a b => by
      cases a <;> cases b <;> simp [PartialOrd.partialCmp, partialCmp_eq_some, Niche.rank_eq]
      exact eq_comm
    gt_iff := fun a b => by
      cases a <;> cases b <;> simp [PartialOrd.partialCmp, partialCmp_eq_some, Niche.rank_eq, compare_gt_iff_gt] }

/-! ## Spans -/

/-- The statistics `lo` and `hi` of the items `ys`. -/
structure Spans {α : Type} [PartialOrd α] (ys : List α) (lo hi : α) : Prop where
  lo_mem : lo ∈ ys
  hi_mem : hi ∈ ys
  unranked : ∀ y, ys.head? = some y → le y y = false → lo = y ∧ hi = y
  ranked : ∀ y, ys.head? = some y → le y y = true → ∀ z ∈ ys, le z z = true → le lo z = true ∧ le z hi = true

section Find
variable {p : Prim}

/-- Ranks in the direction of a search. -/
def rankBy (p : Prim) (ord : Ordering) (a : p.Val) : Option Int :=
  if ord = .gt then (Primitive.rank a).map Neg.neg else Primitive.rank a

theorem cmp_eq_step {ord : Ordering} (hord : ord ≠ .eq) (best next : p.Val) :
    (if cmp ord next best then next else best) = Extreme.step (rankBy p ord) best next := by
  have hcmp : cmp ord next best = true ↔
      ∃ x y, Primitive.rank next = some x ∧ Primitive.rank best = some y ∧ compare x y = ord := by
    rw [cmp, beq_iff_eq, partialCmp_eq_some]
  unfold Extreme.step rankBy
  cases hnext : Primitive.rank next with
  | none =>
    rw [hnext] at hcmp
    rw [if_neg (by simp [hcmp])]
    cases ord <;> simp
  | some x =>
    cases hbest : Primitive.rank best with
    | none =>
      rw [hbest] at hcmp
      rw [if_neg (by simp [hcmp])]
      cases ord <;> simp
    | some y =>
      have hcmp : cmp ord next best = true ↔ compare x y = ord := by
        rw [hcmp, hnext, hbest]
        simp
      cases ord with
      | eq => exact absurd rfl hord
      | lt =>
        rw [compare_lt_iff_lt] at hcmp
        simp [hcmp]
      | gt =>
        rw [compare_gt_iff_gt] at hcmp
        simp [hcmp]

theorem spans_of_scan (y : p.Val) (ys : List p.Val) :
    @Spans p.Val (primPartialOrd p) (y :: ys) (Extreme.scan (rankBy p .lt) y ys) (Extreme.scan (rankBy p .gt) y ys) := by
  let _ := primPartialOrd p
  have hself : ∀ z : p.Val, le z z = true ↔ ∃ x, Primitive.rank z = some x := fun z => le_self_iff
  refine ⟨Extreme.scan_mem y ys, Extreme.scan_mem y ys, ?_, ?_⟩
  · intro z hz hnot
    cases hz
    have hnone : Primitive.rank y = none := by
      cases hr : Primitive.rank y with
      | none => rfl
      | some x =>
        rw [(hself y).mpr ⟨x, hr⟩] at hnot
        cases hnot
    exact ⟨Extreme.scan_of_none (by simpa [rankBy] using hnone) ys, Extreme.scan_of_none (by simpa [rankBy] using hnone) ys⟩
  · intro z hz hle w hw hwle
    cases hz
    obtain ⟨r, hr⟩ := (hself y).mp hle
    obtain ⟨x, hx⟩ := (hself w).mp hwle
    obtain ⟨lo, hlo, hmin⟩ := Extreme.scan_rank (rankBy p .lt) (a := y) (r := r) (by simpa [rankBy] using hr) ys
    obtain ⟨hi, hhi, hmax⟩ := Extreme.scan_rank (rankBy p .gt) (a := y) (r := -r) (by simpa [rankBy] using hr) ys
    have hlow : lo ≤ x := hmin w hw x (by simpa [rankBy] using hx)
    have hhigh : hi ≤ -x := hmax w hw (-x) (by simpa [rankBy] using hx)
    obtain ⟨k, hk, rfl⟩ := Option.map_eq_some_iff.mp (show (Primitive.rank _).map Neg.neg = some hi from hhi)
    refine ⟨le_iff_rank.mpr ⟨lo, x, hlo, hx, hlow⟩, le_iff_rank.mpr ⟨x, k, hx, hk, ?_⟩⟩
    exact Int.neg_le_neg_iff.mp hhigh

theorem present_values (items : List (Option p.Val)) : (Sector.present items).map Prod.snd = somes items := by
  have hfrom : ∀ k : Nat, ((items.zipIdx k).filterMap fun e => e.1.map fun a => (e.2, a)).map Prod.snd = somes items := by
    induction items with
    | nil => exact fun _ => rfl
    | cons item items ih =>
      intro k
      rw [List.zipIdx_cons, List.filterMap_cons]
      cases item with
      | none => exact ih (k + 1)
      | some a => exact congrArg (a :: ·) (ih (k + 1))
  exact hfrom 0

theorem foldl_better {ord : Ordering} (hord : ord ≠ .eq) (best : Nat × p.Val) (l : List (Nat × p.Val)) :
    (l.foldl (Sector.better (cmp ord)) best).2 = Extreme.scan (rankBy p ord) best.2 (l.map Prod.snd) := by
  induction l generalizing best with
  | nil => rfl
  | cons next l ih =>
    have hstep : (Sector.better (cmp ord) best next).2 = Extreme.step (rankBy p ord) best.2 next.2 := by
      rw [← cmp_eq_step hord, Sector.better]
      split <;> rfl
    rw [List.foldl_cons, ih, hstep]
    rfl

/-- A search over items of which one is present finds the extreme of those present. -/
theorem find_eq_scan (items : List (Option p.Val)) {width : Nat} {ord : Ordering} (hord : ord ≠ .eq) (hpos : 0 < width)
    (hlt : items.length * width < 2 ^ 64) {y : p.Val} {ys : List p.Val} (hys : somes items = y :: ys) :
    ∃ s i, Sector.find items width (cmp ord) = some s ∧ items[i]? = some (some (Extreme.scan (rankBy p ord) y ys)) ∧
      s.offset = i * width ∧ s.size = width := by
  have hvalues := present_values items
  rw [hys] at hvalues
  cases hpresent : Sector.present items with
  | nil =>
    rw [hpresent] at hvalues
    cases hvalues
  | cons first rest =>
    rw [hpresent, List.map_cons] at hvalues
    obtain ⟨hfirst, hrest⟩ := List.cons.inj hvalues
    obtain ⟨best, hbest⟩ : ∃ best, rest.foldl (Sector.better (cmp ord)) first = best := ⟨_, rfl⟩
    have hreduce : Sector.reduce (Sector.better (cmp ord)) (Sector.present items) = some best := by
      rw [hpresent, ← hbest]
      rfl
    have hscan : best.2 = Extreme.scan (rankBy p ord) y ys := by
      rw [← hbest, foldl_better hord, hfirst, hrest]
    have hget : items[best.1]? = some (some best.2) :=
      Sector.mem_present (Sector.reduce_mem (Sector.better_or (cmp ord)) hreduce)
    have hindex : best.1 < items.length := (List.getElem?_eq_some_iff.mp hget).1
    have hend : (best.1 + 1) * width ≤ items.length * width := Nat.mul_le_mul_right width hindex
    rw [Nat.succ_mul] at hend
    refine ⟨⟨best.1 * width, width, by omega, hpos, by omega⟩, best.1, ?_, hscan ▸ hget, rfl, rfl⟩
    show (Sector.reduce (Sector.better (cmp ord)) (Sector.present items)).bind _ = _
    rw [hreduce, Option.bind_some, mul_of_lt (by omega), Option.bind_eq_bind, Option.bind_some,
      Sector.new_of_lt (by omega) hpos (by omega)]
    rfl

end Find

/-! ## Sectors of statistics -/

theorem slice_encAll {J : Type} [Fixed J] {items : List J} {i : Nat} {a : J} (h : items[i]? = some a) :
    Bytes.slice (encAll items) (i * Fixed.width J) (Fixed.width J) = Fixed.toLe a := by
  induction items generalizing i with
  | nil => cases h
  | cons b items ih =>
    have hb : (Fixed.toLe b).length = Fixed.width J := Fixed.toLe_length b
    have hcons : encAll (b :: items) = Fixed.toLe b ++ encAll items := rfl
    cases i with
    | zero =>
      cases h
      rw [hcons, Nat.zero_mul, Bytes.slice_append_left (by omega), ← hb]
      simp [Bytes.slice]
    | succ i =>
      rw [hcons, Bytes.slice_append_right (by rw [hb, Nat.succ_mul]; omega), hb, Nat.succ_mul, Nat.add_sub_cancel]
      exact ih h

/-- A sector inside the body of a buffer reads the item whose bytes it spans. -/
theorem statistic_of_slice {J : Type} [Fixed J] {sector s t : Sector} {mmap body : Bytes}
    (hslice : sector.slice mmap = .ok body) (ht : s.relative sector.offset = .ok t)
    (hle : s.offset + s.size ≤ body.length) {a : J} (hbytes : Bytes.slice body s.offset s.size = Fixed.toLe a) :
    statistic J t mmap = .ok a := by
  obtain ⟨stop, hstop, hbody⟩ := bind_eq_ok.mp hslice
  obtain ⟨hnext, rfl⟩ := add_eq_some.mp (okOr_eq_ok.mp hstop)
  obtain ⟨-, hoffset, hsize⟩ := Sector.relative_eq_ok ht
  by_cases hmap : sector.size + sector.offset ≤ mmap.length
  · rw [if_pos hmap] at hbody
    obtain rfl := Except.ok.inj hbody
    rw [Bytes.slice_length (by omega)] at hle
    have hread : t.slice mmap = .ok (Fixed.toLe a) := by
      rw [Sector.slice_of_le (by omega) (by omega), ← hbytes, Bytes.slice_slice hle, hoffset, hsize, Nat.add_comm]
    have hparse := deserialize_append a []
    rw [List.append_nil] at hparse
    rw [statistic, hread, ok_bind, hparse]
  · rw [if_neg hmap] at hbody
    cases hbody

theorem slice_frame {body : Bytes} {off n : Nat} (h : off + n ≤ body.length) :
    Bytes.slice (frame body) (8 + off) n = Bytes.slice body off n := by
  have hlen : (Bytes.leBytes 8 body.length).length = 8 := Bytes.leBytes_length _ _
  rw [frame, List.append_assoc, Bytes.slice_append_right (by omega), hlen, Nat.add_sub_cancel_left,
    Bytes.slice_append_left h]

/-- Both searches find the bytes of an extreme of the items `ys`. -/
def Locates {A : Type} [MinMax A] [Serialize A] [LawfulSerialize A] (acc : A) {p : Prim} (ys : List p.Val) : Prop :=
  ∀ ord, ord ≠ .eq → ∀ y rest, ys = y :: rest → ∃ s, MinMax.find acc ord = some s ∧
    s.offset + s.size ≤ (enc acc).length ∧
      Bytes.slice (enc acc) s.offset s.size = Fixed.toLe (Extreme.scan (rankBy p ord) y rest)

theorem vec_locates {p : Prim} (xs : List p.Val) (hlt : (encAll xs).length < 2 ^ 64) : Locates xs xs := by
  intro ord hord y rest hys
  rw [encAll_length] at hlt
  have hpos : 0 < Fixed.width p.Val := Fixed.width_pos
  obtain ⟨s, i, hfind, hget, hoffset, hsize⟩ := find_eq_scan (xs.map some) hord hpos
    (by rw [List.length_map]; omega) (by rw [somes_some]; exact hys)
  rw [List.getElem?_map] at hget
  obtain ⟨a, ha, heq⟩ := Option.map_eq_some_iff.mp hget
  cases heq
  have hindex := (List.getElem?_eq_some_iff.mp ha).1
  refine ⟨s, hfind, ?_, ?_⟩
  · show s.offset + s.size ≤ (encAll xs).length
    rw [hoffset, hsize, encAll_length, ← Nat.succ_mul]
    exact Nat.mul_le_mul_right _ hindex
  · show Bytes.slice (encAll xs) s.offset s.size = _
    rw [hoffset, hsize]
    exact slice_encAll ha

theorem optInSitu_locates {p : Niche} (acc : OptInSitu (Prim.niche p).Val) (hlt : (encAll acc.data).length < 2 ^ 64) :
    Locates acc (somes acc.data) := by
  intro ord hord y rest hys
  rw [encAll_length] at hlt
  have hpos : 0 < Fixed.width (Option (Prim.niche p).Val) := Fixed.width_pos
  obtain ⟨s, i, hfind, hget, hoffset, hsize⟩ := find_eq_scan acc.data hord hpos (by omega) hys
  have hindex := (List.getElem?_eq_some_iff.mp hget).1
  refine ⟨s, hfind, ?_, ?_⟩
  · show s.offset + s.size ≤ (encAll acc.data).length
    rw [hoffset, hsize, encAll_length, ← Nat.succ_mul]
    exact Nat.mul_le_mul_right _ hindex
  · show Bytes.slice (encAll acc.data) s.offset s.size = _
    rw [hoffset, hsize]
    exact slice_encAll hget

theorem optBitVec_locates {p : Prim} {acc : OptBitVec (List p.Val)} {n : NonZero} (hn : Serialize.size acc = .ok n) :
    Locates acc acc.data := by
  intro ord hord y rest hys
  have hlt : (enc acc).length < 2 ^ 64 := LawfulSerialize.size_eq hn ▸ n.lt
  obtain ⟨mask, hmask, -⟩ := partsSize_eq_ok hn
  have hmasklen : mask.get = (frame (enc acc.mask)).length := LawfulSerialize.size_eq hmask
  have hdata : Acc.isEmpty acc.data = false := by rw [hys]; rfl
  have henc : enc acc = frame (enc acc.mask) ++ frame (encAll acc.data) := by
    rw [optBitVec_enc, partsEnc, if_neg (by simp [hdata])]
    rfl
  have hup := le_roundUp (encAll acc.data).length
  rw [henc, List.length_append, frame_length (encAll acc.data)] at hlt
  obtain ⟨s, hfind, hle, hbytes⟩ := vec_locates acc.data (by omega) ord hord y rest hys
  have hle : s.offset + s.size ≤ (encAll acc.data).length := hle
  have hfind' : MinMax.find acc ord = some ⟨s.offset + (mask.get + 8), s.size, by omega, s.size_pos, s.size_lt⟩ := by
    have horigin : acc.origin = .ok (mask.get + 8) := by
      rw [OptBitVec.origin, hmask, ok_bind, PREFIX, addOr_of_lt (by omega)]
    show (acc.origin.toOption.bind fun origin => (MinMax.find acc.data ord).bind fun s => (s.relative origin).toOption) = _
    rw [horigin, hfind]
    show (s.relative (mask.get + 8)).toOption = _
    rw [Sector.relative_of_lt (by omega)]
    rfl
  refine ⟨_, hfind', ?_, ?_⟩
  · rw [henc, List.length_append, frame_length (encAll acc.data)]
    show s.offset + (mask.get + 8) + s.size ≤ _
    omega
  · show Bytes.slice (enc acc) (s.offset + (mask.get + 8)) s.size = _
    rw [henc, Bytes.slice_append_right (by omega), ← hbytes]
    have hoff : s.offset + (mask.get + 8) - (frame (enc acc.mask)).length = 8 + s.offset := by omega
    rw [hoff]
    exact slice_frame hle

theorem detail_written {A : Type} [MinMax A] [Serialize A] [LawfulSerialize A] {acc : A} {p : Prim} {ys : List p.Val}
    (hloc : Locates acc ys) (hne : ys ≠ []) {sector : Sector} {count : NonZero} {desc : Manifest.Buffer} {mmap : Bytes}
    (hdesc : detail acc sector count = .ok desc) (hslice : sector.slice mmap = .ok (enc acc)) :
    ∃ min max lo hi, desc = .detailed sector count min max ∧ @Spans p.Val (primPartialOrd p) ys lo hi ∧
      (∀ (J : Type) [Fixed J] (a : J), Fixed.toLe a = Fixed.toLe lo → statistic J min mmap = .ok a) ∧
        ∀ (J : Type) [Fixed J] (a : J), Fixed.toLe a = Fixed.toLe hi → statistic J max mmap = .ok a := by
  obtain ⟨y, rest, rfl⟩ := List.exists_cons_of_ne_nil hne
  obtain ⟨s, hs, hsle, hsbytes⟩ := hloc .lt (by decide) y rest rfl
  obtain ⟨t, ht, htle, htbytes⟩ := hloc .gt (by decide) y rest rfl
  rcases detail_eq_ok hdesc with rfl | ⟨s', t', min, max, hs', ht', hmin, hmax, rfl⟩
  · unfold detail at hdesc
    rw [hs] at hdesc
    obtain ⟨min, -, hdesc⟩ := bind_eq_ok.mp hdesc
    rw [ht] at hdesc
    obtain ⟨max, -, hdesc⟩ := bind_eq_ok.mp hdesc
    cases hdesc
  · rw [hs] at hs'
    rw [ht] at ht'
    cases hs'
    cases ht'
    refine ⟨min, max, _, _, rfl, spans_of_scan y rest, ?_, ?_⟩
    · intro J _ a ha
      exact statistic_of_slice hslice hmin hsle (hsbytes.trans ha.symm)
    · intro J _ a ha
      exact statistic_of_slice hslice hmax htle (htbytes.trans ha.symm)

/-! ## Written buffers -/

/-- The buffer holds the items `xs`. -/
structure Written (t : Item) (xs : List t.Val) (mmap : Bytes) (buf : Manifest.Buffer) : Prop where
  described : ∃ offset sector, (Buffer.collect xs).descriptor offset = .ok (sector, buf) ∧
    sector.slice mmap = .ok (enc (Buffer.collect xs))
  length_lt : (enc (Buffer.collect xs)).length < 2 ^ 63
  bits : t.BitsFit xs

namespace Evaluate

/-- The operands that the items carry. -/
def operands : {t j : Item} → Evaluate t j → List t.Val → List j.Val
  | _, _, .whole _, xs => xs
  | _, _, .inner _, xs => somes xs

theorem evaluate_iff {t j : Item} (e : Evaluate t j) (item : t.Val) (f : j.Val → Bool) :
    e.evaluate item f = true ↔ ∃ y ∈ e.operands [item], f y = true := by
  cases e with
  | whole => simp [evaluate, operands]
  | inner => cases item <;> simp [evaluate, operands, somes]

theorem operands_mem {t j : Item} (e : Evaluate t j) {item : t.Val} {xs : List t.Val} (h : item ∈ xs) {y : j.Val}
    (hy : y ∈ e.operands [item]) : y ∈ e.operands xs := by
  cases e with
  | whole =>
    rw [operands, List.mem_singleton] at hy
    exact hy ▸ h
  | inner =>
    refine mem_somes.mpr ?_
    have hitem := mem_somes.mp hy
    rw [List.mem_singleton] at hitem
    exact hitem ▸ h

theorem operands_singleton {t j : Item} (e : Evaluate t j) {item : t.Val} {y : j.Val} {rest : List j.Val}
    (h : e.operands [item] = y :: rest) : rest = [] := by
  cases e with
  | whole =>
    cases h
    rfl
  | inner =>
    cases item with
    | none => cases h
    | some a =>
      cases h
      rfl

theorem mem_operands {t j : Item} (e : Evaluate t j) {xs : List t.Val} {y : j.Val} (h : y ∈ e.operands xs) :
    ∃ x ∈ xs, y ∈ e.operands [x] := by
  cases e with
  | whole => exact ⟨y, h, List.mem_cons_self⟩
  | inner => exact ⟨some y, mem_somes.mp h, List.mem_cons_self⟩

theorem evaluate_eq_false_iff {t j : Item} (e : Evaluate t j) (xs : List t.Val) (f : j.Val → Bool) :
    (∀ x ∈ xs, e.evaluate x f = false) ↔ ∀ x ∈ xs, ∀ y ∈ e.operands [x], f y = false := by
  refine forall₂_congr fun x _ => ?_
  rw [← Bool.not_eq_true, e.evaluate_iff]
  simp

end Evaluate

theorem prim_detailed {t : Item} {p : Prim} (e : Evaluate t (.prim p)) {xs : List t.Val} {n : NonZero}
    (hn : Serialize.size (t.acc xs) = .ok n) (hlt : (t.image xs).length < 2 ^ 63) (hne : e.operands xs ≠ [])
    {sector : Sector} {count : NonZero} {buf : Manifest.Buffer} {mmap : Bytes}
    (hdesc : Acc.describe (t.acc xs) sector count = .ok buf) (hslice : sector.slice mmap = .ok (t.image xs)) :
    ∃ min max lo hi, buf = .detailed sector count min max ∧ @Spans p.Val (primPartialOrd p) (e.operands xs) lo hi ∧
      (∀ (J : Type) [Fixed J] (a : J), Fixed.toLe a = Fixed.toLe lo → statistic J min mmap = .ok a) ∧
        ∀ (J : Type) [Fixed J] (a : J), Fixed.toLe a = Fixed.toLe hi → statistic J max mmap = .ok a := by
  cases e with
  | whole =>
    cases p with
    | plain p =>
      have hacc : (Item.prim (.plain p)).acc xs = xs := vec_collect xs
      have himage : (Item.prim (.plain p)).image xs = encAll xs := congrArg encAll (vec_collect xs)
      rw [himage] at hlt hslice
      rw [hacc] at hdesc
      exact detail_written (vec_locates xs (by omega)) hne hdesc hslice
    | niche p =>
      have hacc : (Item.prim (.niche p)).acc xs = xs := vec_collect xs
      have himage : (Item.prim (.niche p)).image xs = encAll xs := congrArg encAll (vec_collect xs)
      rw [himage] at hlt hslice
      rw [hacc] at hdesc
      exact detail_written (vec_locates xs (by omega)) hne hdesc hslice
  | inner =>
    cases p with
    | plain p =>
      have hdata : (collect (somes xs) : List (Prim.plain p).Val) = somes xs := vec_collect _
      have himage : (Item.option (.prim (.plain p))).image xs =
          enc (⟨xs.map Option.isSome, somes xs⟩ : OptBitVec (List (Prim.plain p).Val)) := by
        rw [image_optPlain, hdata, optBitVec_enc]
      rw [himage] at hlt hslice
      rw [acc_optPlain, hdata] at hn hdesc
      exact detail_written (optBitVec_locates (p := .plain p) hn) hne hdesc hslice
    | niche p =>
      have hacc : (Item.option (.prim (.niche p))).acc xs = (⟨xs⟩ : OptInSitu (Prim.niche p).Val) := optInSitu_collect xs
      have himage : (Item.option (.prim (.niche p))).image xs = encAll xs :=
        congrArg (fun acc : OptInSitu (Prim.niche p).Val => encAll acc.data) (optInSitu_collect xs)
      rw [himage] at hlt hslice
      rw [hacc] at hdesc
      exact detail_written (optInSitu_locates ⟨xs⟩ (Nat.lt_trans hlt (by decide))) hne hdesc hslice

end Msca
