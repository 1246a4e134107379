import Msca.Combine
import Msca.Statistics

/-! Pruning of written buffers. A filter that reads the statistics of a buffer clears it only where no item
between them can pass; this holds of every item that is itself comparable and was counted by the statistics. -/
namespace Msca
set_option autoImplicit false
open Checked
open PartialOrd (lt gt le ge)

/-! ## Buffer tests of written buffers -/

theorem Written.cases {t : Item} {xs : List t.Val} {mmap : Bytes} {buf : Manifest.Buffer} (hw : Written t xs mmap buf) :
    ∃ sector count, (∃ x ∈ xs, (∀ y ∈ xs, y = x) ∧ buf = .compact sector count ∧
        sector.slice mmap = .ok (t.image [x]) ∧ t.InMemory [x]) ∨
      ((∃ x ∈ xs, ∃ y ∈ xs, y ≠ x) ∧ Acc.describe (t.acc xs) sector count = .ok buf ∧
        sector.slice mmap = .ok (t.image xs) ∧ t.InMemory xs) := by
  obtain ⟨offset, sector, hdesc, hslice⟩ := hw.described
  have hlt := hw.length_lt
  obtain ⟨count, -, hdesc⟩ := Buffer.descriptor_eq_ok hdesc
  rcases Buffer.collect_cases xs with ⟨rfl, heq⟩ | ⟨x, hx, hall, heq⟩ | ⟨hdiffer, heq⟩
  · cases hdesc
  · rw [heq] at hdesc hslice hlt
    cases hdesc
    have hsub : [x].Sublist xs := List.singleton_sublist.mpr hx
    exact ⟨sector, count, Or.inl ⟨x, hx, hall, rfl, hslice, hlt, t.bitsFit_mono hsub hw.bits⟩⟩
  · rw [heq] at hdesc hslice hlt
    exact ⟨sector, count, Or.inr ⟨hdiffer, hdesc, hslice, hlt, hw.bits⟩⟩

theorem Scalar.regular {t : Item} {s : Scalar} (e : Evaluate t s.item) (xs : List t.Val) : t.regular xs = true := by
  cases s <;> cases e <;> rfl

theorem Item.describe_sector {t : Item} {xs : List t.Val} {sector : Sector} {count : NonZero} {buf : Manifest.Buffer}
    (h : (Buffer.collect xs).describe sector count = .ok buf) : buf.sector = sector := by
  rcases Buffer.collect_cases xs with ⟨-, heq⟩ | ⟨x, -, -, heq⟩ | ⟨-, heq⟩
  · rw [heq] at h
    cases h
  · rw [heq] at h
    cases h
    rfl
  · rw [heq] at h
    rcases t.lawfulDescribe.1.describe_eq h with rfl | ⟨min, max, rfl⟩
    · rfl
    · rfl

theorem Written.buffer_eq {t : Item} {s : Scalar} (e : Evaluate t s.item) (h : t.decodable = true) {xs : List t.Val}
    {mmap : Bytes} {buf : Manifest.Buffer} (hw : Written t xs mmap buf) :
    @Src.buffer t.Val (t.decode h) mmap buf = xs.map .ok := by
  obtain ⟨offset, sector, hdesc, hslice⟩ := hw.described
  obtain ⟨count, -, hdescribe⟩ := Buffer.descriptor_eq_ok hdesc
  have hne : xs ≠ [] := by
    rintro rfl
    cases hdescribe
  have hbody := t.body_collect h hne hdesc hw.length_lt hw.bits fun ys _ _ => Scalar.regular e ys
  rw [Src.buffer, Item.describe_sector hdescribe, hslice, ok_bind, hbody]

/-- Values that the order statistics of a column count. -/
def Scalar.present : (s : Scalar) → s.Val → Bool
  | .niche _, v => Option.isSome v
  | _, _ => true

theorem operands_ne_nil {t j : Item} (e : Evaluate t j) {xs : List t.Val} (h : ∃ x ∈ xs, ∃ y ∈ xs, y ≠ x) :
    e.operands xs ≠ [] := by
  obtain ⟨x, hx, y, hy, hne⟩ := h
  cases e with
  | whole => exact List.ne_nil_of_mem hx
  | inner =>
    cases x with
    | some a => exact List.ne_nil_of_mem (mem_somes.mpr hx)
    | none =>
      cases y with
      | some b => exact List.ne_nil_of_mem (mem_somes.mpr hy)
      | none => exact absurd rfl hne

theorem somes_map_some {α : Type} (xs : List (Option α)) : (somes xs).map some = xs.filter Option.isSome := by
  induction xs with
  | nil => rfl
  | cons x xs ih =>
    cases x with
    | none => exact ih
    | some a => exact congrArg (some a :: ·) ih

theorem Spans.some {α : Type} {o : PartialOrd α} {ys : List α} {lo hi : α} (h : Spans ys lo hi) :
    @Spans (Option α) (optionPartialOrd o) (ys.map Option.some) (Option.some lo) (Option.some hi) := by
  refine @Spans.mk _ (optionPartialOrd o) _ _ _ (List.mem_map_of_mem h.lo_mem) (List.mem_map_of_mem h.hi_mem) ?_ ?_
  · intro y hy hle
    rw [List.head?_map] at hy
    obtain ⟨a, ha, rfl⟩ := Option.map_eq_some_iff.mp hy
    obtain ⟨hlo, hhi⟩ := h.unranked a ha hle
    exact ⟨congrArg Option.some hlo, congrArg Option.some hhi⟩
  · intro y hy hle z hz hzle
    rw [List.head?_map] at hy
    obtain ⟨a, ha, rfl⟩ := Option.map_eq_some_iff.mp hy
    obtain ⟨b, hb, rfl⟩ := List.mem_map.mp hz
    exact h.ranked a ha hle b hb hzle

/-- What a filter makes of a written buffer: a test of its one item, nothing, or a test of its statistics. -/
theorem Written.spanTest_cases {t : Item} {s : Scalar} (e : Evaluate t s.item) (h : t.decodable = true) {xs : List t.Val}
    {mmap : Bytes} {buf : Manifest.Buffer} (hw : Written t xs mmap buf) :
    (∃ x ∈ xs, (∀ y ∈ xs, y = x) ∧ ∀ keep op,
        @spanTest t.Val s.Val (t.decode h) _ (fun item => e.evaluate item keep) op buf mmap = .ok (e.evaluate x keep)) ∨
      (s = .string ∧ ∀ keep op,
        @spanTest t.Val s.Val (t.decode h) _ (fun item => e.evaluate item keep) op buf mmap = .ok true) ∨
      (s ≠ .string ∧ (∃ x ∈ xs, ∃ y ∈ xs, y ≠ x) ∧ ∃ lo hi, Spans ((e.operands xs).filter s.present) lo hi ∧ ∀ keep op,
        @spanTest t.Val s.Val (t.decode h) _ (fun item => e.evaluate item keep) op buf mmap = op lo hi) := by
  obtain ⟨sector, count, ⟨x, hx, hall, rfl, hslice, hm⟩ | ⟨hdiffer, hdesc, hslice, hm⟩⟩ := hw.cases
  · refine Or.inl ⟨x, hx, hall, fun keep op => ?_⟩
    show (do return e.evaluate (← @readOne t.Val (t.decode h) (← sector.slice mmap)) keep : Res Bool) = _
    rw [hslice, ok_bind, t.readOne_image h hm (Scalar.regular e [x])]
    rfl
  · have hne : xs ≠ [] := by
      obtain ⟨x, hx, -⟩ := hdiffer
      exact List.ne_nil_of_mem hx
    obtain ⟨n, hn⟩ := Item.size_acc hne hm
    cases s with
    | string =>
      refine Or.inr (Or.inl ⟨rfl, fun keep op => ?_⟩)
      cases e with
      | whole =>
        cases hdesc
        rfl
      | inner =>
        cases hdesc
        rfl
    | prim p =>
      obtain ⟨min, max, lo, hi, rfl, hspans, hmin, hmax⟩ := prim_detailed e hn hm.1 (operands_ne_nil e hdiffer) hdesc hslice
      have hall : (e.operands xs).filter (Scalar.prim p).present = e.operands xs := List.filter_eq_self.mpr fun _ _ => rfl
      refine Or.inr (Or.inr ⟨by simp, hdiffer, lo, hi, by rw [hall]; exact hspans, fun keep op => ?_⟩)
      show (do op (← statistic p.Val min mmap) (← statistic p.Val max mmap) : Res Bool) = _
      rw [hmin p.Val lo rfl, hmax p.Val hi rfl]
      rfl
    | niche p =>
      cases e with
      | inner => cases h
      | whole =>
        have hsome := operands_ne_nil (.inner (.prim (.niche p))) hdiffer
        obtain ⟨min, max, lo, hi, rfl, hspans, hmin, hmax⟩ :=
          prim_detailed (.inner (.prim (.niche p))) hn hm.1 hsome hdesc hslice
        have hall : ((Evaluate.whole (.option (.prim (.niche p)))).operands xs).filter (Scalar.niche p).present =
            (somes xs).map some := (somes_map_some xs).symm
        refine Or.inr (Or.inr ⟨by simp, hdiffer, some lo, some hi, by rw [hall]; exact hspans.some, fun keep op => ?_⟩)
        show (do op (← statistic (Option (Prim.niche p).Val) min mmap) (← statistic (Option (Prim.niche p).Val) max mmap) :
          Res Bool) = _
        rw [hmin _ (some lo) rfl, hmax _ (some hi) rfl]
        rfl

/-! ## Verdicts on statistics -/

/-- Two of the items enclose the value. -/
def Between {α : Type} [PartialOrd α] (zs : List α) (v : α) : Prop := ∃ a ∈ zs, ∃ b ∈ zs, le a v = true ∧ le v b = true

/-- The first item is comparable. -/
def Anchored {α : Type} [PartialOrd α] (zs : List α) : Prop := ∃ y, zs.head? = some y ∧ le y y = true

section Verdict
variable {α : Type} [PartialOrd α] [Ranked α] {zs : List α} {lo hi v : α}

omit [Ranked α] in
theorem Between.self (hz : v ∈ zs) (hv : le v v = true) : Between zs v := ⟨v, hz, v, hz, hv, hv⟩

theorem Spans.between (h : Spans zs lo hi) (hf : Anchored zs) : (le lo v = true ∧ le v hi = true) ↔ Between zs v := by
  obtain ⟨y, hy, hle⟩ := hf
  constructor
  · rintro ⟨hlo, hhi⟩
    exact ⟨lo, h.lo_mem, hi, h.hi_mem, hlo, hhi⟩
  · rintro ⟨a, ha, b, hb, hav, hvb⟩
    exact ⟨le_trans_of_le (h.ranked y hy hle a ha (le_self_left hav)).1 hav,
      le_trans_of_le hvb (h.ranked y hy hle b hb (le_self_right hvb)).2⟩

omit [Ranked α] in
theorem Spans.unanchored (h : Spans zs lo hi) (hf : ¬ Anchored zs) : le lo lo = false ∧ le hi hi = false := by
  cases zs with
  | nil => exact absurd h.lo_mem List.not_mem_nil
  | cons y rest =>
    have hy : le y y = false := by
      rw [← Bool.not_eq_true]
      exact fun hle => hf ⟨y, rfl, hle⟩
    obtain ⟨rfl, rfl⟩ := h.unranked y rfl hy
    exact ⟨hy, hy⟩

theorem Spans.le_of_anchored (h : Spans zs lo hi) (hf : Anchored zs) : le lo hi = true := by
  obtain ⟨y, hy, hle⟩ := hf
  obtain ⟨hlo, hhi⟩ := h.ranked y hy hle y (List.mem_of_mem_head? hy) hle
  exact le_trans_of_le hlo hhi

theorem le_of_not_lt_of {a b : α} (ha : le a a = true) (hb : le b b = true) (h : lt b a = false) : le a b = true := by
  obtain ⟨x, hx⟩ := le_self_iff.mp ha
  obtain ⟨y, hy⟩ := le_self_iff.mp hb
  refine le_iff_rank.mpr ⟨x, y, hx, hy, le_of_not_gt fun hlt => ?_⟩
  rw [lt_iff_rank.mpr ⟨y, x, hy, hx, hlt⟩] at h
  cases h

theorem le_of_lt_of {a b : α} (h : lt a b = true) : le a b = true := by
  obtain ⟨x, y, hx, hy, hxy⟩ := lt_iff_rank.mp h
  exact le_iff_rank.mpr ⟨x, y, hx, hy, le_of_lt hxy⟩

theorem gt_eq_lt {a b : α} : gt a b = lt b a := by
  rw [Bool.eq_iff_iff, gt_iff_rank, lt_iff_rank]
  constructor
  · rintro ⟨x, y, hx, hy, hxy⟩
    exact ⟨y, x, hy, hx, hxy⟩
  · rintro ⟨x, y, hx, hy, hxy⟩
    exact ⟨y, x, hy, hx, hxy⟩

theorem ge_eq_le {a b : α} : ge a b = le b a := by
  rw [Bool.eq_iff_iff, ge_iff_rank, le_iff_rank]
  constructor
  · rintro ⟨x, y, hx, hy, hxy⟩
    exact ⟨y, x, hy, hx, hxy⟩
  · rintro ⟨x, y, hx, hy, hxy⟩
    exact ⟨y, x, hy, hx, hxy⟩

theorem lt_of_le_of_lt_of {a b c : α} (hab : le a b = true) (hbc : lt b c = true) : lt a c = true := by
  obtain ⟨x, y, hx, hy, hxy⟩ := le_iff_rank.mp hab
  obtain ⟨y', z, hy', hz, hyz⟩ := lt_iff_rank.mp hbc
  rw [hy] at hy'
  cases hy'
  exact lt_iff_rank.mpr ⟨x, z, hx, hz, lt_of_le_of_lt hxy hyz⟩

theorem lt_of_lt_of_le_of {a b c : α} (hab : lt a b = true) (hbc : le b c = true) : lt a c = true := by
  obtain ⟨x, y, hx, hy, hxy⟩ := lt_iff_rank.mp hab
  obtain ⟨y', z, hy', hz, hyz⟩ := le_iff_rank.mp hbc
  rw [hy] at hy'
  cases hy'
  exact lt_iff_rank.mpr ⟨x, z, hx, hz, lt_of_lt_of_le hxy hyz⟩

theorem not_le_of_lt_of {a b : α} (h : lt a b = true) : le b a = false := by
  cases hle : le b a with
  | false => rfl
  | true => rw [not_lt_of_le_of hle] at h; cases h

theorem not_lt_of_unranked {a b : α} (h : le a a = false) : lt a b = false := by
  cases hlt : lt a b with
  | false => rfl
  | true => rw [le_self_left (le_of_lt_of hlt)] at h; cases h

theorem not_gt_of_unranked {a b : α} (h : le a a = false) : gt a b = false := by
  cases hlt : gt a b with
  | false => rfl
  | true => rw [gt_eq_lt] at hlt; rw [le_self_right (le_of_lt_of hlt)] at h; cases h

/-- A range is not disjoint from statistics that enclose a value it contains. -/
theorem disjoint_of_contains {bounds : Bounds α} (hlo : le lo v = true) (hhi : le v hi = true)
    (hv : bounds.contains v = true) : Manifest.Buffer.disjoint lo hi bounds = false := by
  obtain ⟨start, stop⟩ := bounds
  obtain ⟨hstart, hstop⟩ := Bool.and_eq_true_iff.mp hv
  refine Bool.or_eq_false_iff.mpr ⟨?_, ?_⟩
  · cases stop with
    | included inc => exact not_gt_of_le_of (le_trans_of_le hlo hstop)
    | excluded exc => exact ge_eq_le.trans (not_le_of_lt_of (lt_of_le_of_lt_of hlo hstop))
    | unbounded => rfl
  · cases start with
    | included inc => exact not_lt_of_le_of (le_trans_of_le hstart hhi)
    | excluded exc => exact not_le_of_lt_of (lt_of_lt_of_le_of hstart hhi)
    | unbounded => rfl

/-- No range is disjoint from statistics that compare with nothing. -/
theorem disjoint_of_unranked (hlo : le lo lo = false) (hhi : le hi hi = false) (bounds : Bounds α) :
    Manifest.Buffer.disjoint lo hi bounds = false := by
  obtain ⟨start, stop⟩ := bounds
  refine Bool.or_eq_false_iff.mpr ⟨?_, ?_⟩
  · cases stop with
    | included inc => exact not_gt_of_unranked hlo
    | excluded exc =>
      cases hge : ge lo exc with
      | false => exact hge
      | true => rw [ge_eq_le] at hge; rw [le_self_right hge] at hlo; cases hlo
    | unbounded => rfl
  · cases start with
    | included inc => exact not_lt_of_unranked hhi
    | excluded exc =>
      cases hle : le hi exc with
      | false => exact hle
      | true => rw [le_self_left hle] at hhi; cases hhi
    | unbounded => rfl

/-- Only the full range contains a value that compares with nothing. -/
theorem disjoint_of_contains_unranked {bounds : Bounds α} (hv : le v v = false) (hc : bounds.contains v = true) :
    Manifest.Buffer.disjoint lo hi bounds = false := by
  obtain ⟨start, stop⟩ := bounds
  obtain ⟨hstart, hstop⟩ := Bool.and_eq_true_iff.mp hc
  cases start with
  | included inc => rw [le_self_right hstart] at hv; cases hv
  | excluded exc => rw [le_self_right (le_of_lt_of hstart)] at hv; cases hv
  | unbounded =>
    cases stop with
    | included inc => rw [le_self_left hstop] at hv; cases hv
    | excluded exc => rw [le_self_left (le_of_lt_of hstop)] at hv; cases hv
    | unbounded => rfl

/-- The candidates of a sorted slice between two values. -/
theorem partitionPoint_lt_iff {slice : Sorted α} (hlo : le lo lo = true) :
    slice.partitionPoint (fun i => lt i lo) < slice.partitionPoint (fun i => le i hi) ↔
      ∃ c ∈ slice.items, le lo c = true ∧ le c hi = true := by
  obtain ⟨items, hsorted⟩ := slice
  show (items.takeWhile fun i => lt i lo).length < (items.takeWhile fun i => le i hi).length ↔ _
  induction items with
  | nil => simp
  | cons c items ih =>
    obtain ⟨hc, hrest⟩ := List.pairwise_cons.mp hsorted
    rw [List.takeWhile_cons, List.takeWhile_cons]
    cases hhi : le c hi with
    | false =>
      -- the candidates after the first are above `hi` as well
      have hnone : ¬ ∃ d ∈ c :: items, le lo d = true ∧ le d hi = true := by
        rintro ⟨d, hd, -, hdhi⟩
        rcases List.mem_cons.mp hd with rfl | hd
        · rw [hhi] at hdhi
          cases hdhi
        · rw [le_trans_of_le (hc d hd) hdhi] at hhi
          cases hhi
      rw [if_neg Bool.false_ne_true]
      exact iff_of_false (Nat.not_lt_zero _) hnone
    | true =>
      cases hlt : lt c lo with
      | false =>
        have hin : le lo c = true := le_of_not_lt_of hlo (le_self_left hhi) hlt
        simp only [Bool.false_eq_true, if_false, if_true, List.length_nil, List.length_cons, Nat.zero_lt_succ, true_iff]
        exact ⟨c, List.mem_cons_self, hin, hhi⟩
      | true =>
        have hout : le lo c = false := not_le_of_lt_of hlt
        simp only [if_true, List.length_cons, Nat.add_lt_add_iff_right, ih hrest, List.mem_cons]
        constructor
        · rintro ⟨d, hd, hdd⟩
          exact ⟨d, Or.inr hd, hdd⟩
        · rintro ⟨d, rfl | hd, hdd⟩
          · rw [hout] at hdd
            cases hdd.1
          · exact ⟨d, hd, hdd⟩

end Verdict

/-! ## Filters over statistics -/

/-- The filters that test statistics, with their operands. -/
inductive Probe (s : Scalar)
  | range (bounds : Bounds s.Val)
  | bitMatch (item : s.Val)
  | oneOf (items : List s.Val)
  | oneOfSorted (ord : s.item.ord = true) (items : Sorted s.Val)
  | oneOfSet (ord : s.item.ord = true) (items : List s.Val)
  | semiJoin (ord : s.item.ord = true) (keys : BTreeSet s.Val)

namespace Probe
variable {s : Scalar} {t : Item}

/-- The adapter before file IO. -/
def mask (source : Adapter .mask t) (e : Evaluate t s.item) : Probe s → Adapter .mask t
  | .range bounds => .range source e bounds
  | .bitMatch item => .bitMatch source e item
  | .oneOf items => .oneOf source e items
  | .oneOfSorted ord items => .oneOfSorted source e ord items
  | .oneOfSet ord items => .oneOfSet source e ord items
  | .semiJoin ord keys => .semiJoin source e ord (.ok keys)

/-- The resolved adapter. -/
def iter (source : Adapter .iter t) (e : Evaluate t s.item) : Probe s → Adapter .iter t
  | .range bounds => .range source e bounds
  | .bitMatch item => .bitMatch source e item
  | .oneOf items => .oneOf source e items
  | .oneOfSorted ord items => .oneOfSorted source e ord items
  | .oneOfSet ord items => .oneOfSet source e ord items
  | .semiJoin ord keys => .semiJoin source e ord keys

/-- The test of one operand. -/
def keep : Probe s → s.Val → Bool
  | .range bounds => bounds.contains
  | .bitMatch item => BitMatch.eq item
  | .oneOf items => fun item => items.any fun i => BitMatch.eq item i
  | .oneOfSorted _ items => items.binarySearch
  | .oneOfSet _ items => fun item => items.contains item
  | .semiJoin _ keys => keys.contains

/-- The test of the statistics. -/
def op : Probe s → s.Val → s.Val → Res Bool
  | .range bounds => fun lb ub => .ok (!Manifest.Buffer.disjoint lb ub bounds)
  | .bitMatch item => fun lb ub => .ok (le lb item && le item ub)
  | .oneOf items => fun lb ub => .ok (items.any fun i => le lb i && le i ub)
  | .oneOfSorted _ items => fun lb ub =>
    .ok (items.partitionPoint (fun i => lt i lb) < items.partitionPoint fun i => le i ub)
  | .oneOfSet _ items => fun lb ub => .ok (items.any fun i => le lb i && le i ub)
  | .semiJoin _ keys => fun lb ub => do return (← keys.range lb ub).head?.isSome

theorem resolve_eq (a : Probe s) (e : Evaluate t s.item) {source : Adapter .mask t} {mask : Mask}
    {q : Adapter .iter t × Mask} (hq : source.resolve mask = .ok q) :
    (a.mask source e).resolve mask = do
      let kept ← q.1.withMinMax e q.2 a.keep a.op
      return (a.iter q.1 e, kept.2) := by
  cases a <;> rw [Probe.mask, Adapter.resolve, hq] <;> rfl

theorem test_iter (a : Probe s) (e : Evaluate t s.item) (source : Adapter .iter t) (item : t.Val) :
    (a.iter source e).test item = e.evaluate item a.keep := by
  cases a with
  | bitMatch operand =>
    show (e.evaluate item fun i => BitMatch.eq i operand) = e.evaluate item (BitMatch.eq operand)
    congr 1
    funext i
    rw [Bool.eq_iff_iff, LawfulBitMatch.eq_iff, LawfulBitMatch.eq_iff]
    exact eq_comm
  | _ => rfl

/-! ## Candidates -/

/-- The operands of a filter that lists them. -/
def candidates : Probe s → List s.Val
  | .range _ => []
  | .bitMatch item => [item]
  | .oneOf items => items
  | .oneOfSorted _ items => items.items
  | .oneOfSet _ items => items
  | .semiJoin _ keys => keys.items

def listed : Probe s → Bool
  | .range _ => false
  | _ => true

/-- The filters that compare by order. -/
def ordered : Probe s → Bool
  | .bitMatch _ => false
  | .oneOf _ => false
  | _ => true

section Candidates
variable [Ranked s.Val] {zs : List s.Val} {lo hi v : s.Val}

theorem op_eq (a : Probe s) (hl : a.listed = true) (hspans : Spans zs lo hi) (hord : a.ordered = true → Anchored zs) :
    a.op lo hi = .ok (a.candidates.any fun c => le lo c && le c hi) := by
  cases a with
  | range bounds => cases hl
  | bitMatch item => simp [op, candidates]
  | oneOf items => rfl
  | oneOfSorted ord items =>
    have hlo := le_self_left (hspans.le_of_anchored (hord rfl))
    refine congrArg Except.ok ?_
    rw [Bool.eq_iff_iff, decide_eq_true_iff, partitionPoint_lt_iff hlo, List.any_eq_true]
    simp only [Bool.and_eq_true]
    exact Iff.rfl
  | oneOfSet ord items => rfl
  | semiJoin ord keys =>
    have hgt : gt lo hi = false := not_gt_of_le_of (hspans.le_of_anchored (hord rfl))
    have hrange : keys.range lo hi = .ok (keys.items.filter fun i => le lo i && le i hi) := by
      unfold BTreeSet.range
      rw [hgt]
      rfl
    show (do return (← keys.range lo hi).head?.isSome : Res Bool) = _
    rw [hrange]
    refine congrArg Except.ok ?_
    rw [Bool.eq_iff_iff, List.isSome_head?, List.any_eq_true]
    simp
    exact Iff.rfl

theorem op_iff (a : Probe s) (hl : a.listed = true) (hspans : Spans zs lo hi) (hord : a.ordered = true → Anchored zs) :
    ∃ b, a.op lo hi = .ok b ∧ (b = true ↔ Anchored zs ∧ ∃ c ∈ a.candidates, Between zs c) := by
  refine ⟨_, a.op_eq hl hspans hord, ?_⟩
  rw [List.any_eq_true]
  simp only [Bool.and_eq_true]
  by_cases hf : Anchored zs
  · simp only [hspans.between hf, hf, true_and]
  · constructor
    · rintro ⟨c, -, hlo, -⟩
      exact absurd (hspans.unanchored hf).1 (by simp [le_self_left hlo])
    · rintro ⟨hf', -⟩
      exact absurd hf' hf

omit [Ranked s.Val] in
theorem bitMatch_eq_iff {x y : s.Val} : BitMatch.eq x y = true ↔ x = y := LawfulBitMatch.eq_iff x y

theorem le_of_cmp_eq {x y : s.Val} (h : (PartialOrd.partialCmp x y == some .eq) = true) : le x y = true ∧ le y x = true := by
  obtain ⟨k, l, hk, hl, rfl⟩ := (Ranked.eq_iff x y).mp (beq_iff_eq.mp h)
  exact ⟨le_iff_rank.mpr ⟨k, k, hk, hl, le_refl k⟩, le_iff_rank.mpr ⟨k, k, hl, hk, le_refl k⟩⟩

theorem cmp_self {x : s.Val} (h : le x x = true) : (PartialOrd.partialCmp x x == some .eq) = true := by
  obtain ⟨k, hk⟩ := le_self_iff.mp h
  exact beq_iff_eq.mpr ((Ranked.eq_iff x x).mpr ⟨k, k, hk, hk, rfl⟩)

theorem candidate_of_keep (a : Probe s) (hl : a.listed = true) (hv : le v v = true) (hk : a.keep v = true) :
    ∃ c ∈ a.candidates, le c v = true ∧ le v c = true := by
  cases a with
  | range bounds => cases hl
  | bitMatch item =>
    have hitem : item = v := bitMatch_eq_iff.mp hk
    exact ⟨item, List.mem_cons_self, hitem ▸ hv, hitem ▸ hv⟩
  | oneOf items =>
    obtain ⟨c, hc, heq⟩ := List.any_eq_true.mp hk
    have hcv : v = c := bitMatch_eq_iff.mp heq
    exact ⟨c, hc, hcv ▸ hv, hcv ▸ hv⟩
  | oneOfSorted ord items =>
    obtain ⟨c, hc, heq⟩ := List.any_eq_true.mp hk
    exact ⟨c, hc, le_of_cmp_eq heq⟩
  | oneOfSet ord items => exact ⟨v, List.contains_iff_mem.mp hk, hv, hv⟩
  | semiJoin ord keys =>
    obtain ⟨c, hc, heq⟩ := List.any_eq_true.mp hk
    exact ⟨c, hc, le_of_cmp_eq heq⟩

theorem keep_of_candidate (a : Probe s) (hv : le v v = true) (hc : v ∈ a.candidates) : a.keep v = true := by
  cases a with
  | range bounds => cases hc
  | bitMatch item => exact bitMatch_eq_iff.mpr (List.mem_singleton.mp hc).symm
  | oneOf items => exact List.any_eq_true.mpr ⟨v, hc, bitMatch_eq_iff.mpr rfl⟩
  | oneOfSorted ord items => exact List.any_eq_true.mpr ⟨v, hc, cmp_self hv⟩
  | oneOfSet ord items => exact List.contains_iff_mem.mpr hc
  | semiJoin ord keys => exact List.any_eq_true.mpr ⟨v, hc, cmp_self hv⟩

/-- Statistics that enclose an operand that passes pass themselves. -/
theorem op_sound (a : Probe s) (hspans : Spans zs lo hi) (hf : Anchored zs) (hk : a.keep v = true) (hb : Between zs v) :
    a.op lo hi = .ok true := by
  cases hl : a.listed with
  | false =>
    cases a with
    | range bounds =>
      obtain ⟨hlo, hhi⟩ := (hspans.between hf).mpr hb
      show (.ok (!Manifest.Buffer.disjoint lo hi bounds) : Res Bool) = _
      rw [disjoint_of_contains hlo hhi hk]
      rfl
    | _ => cases hl
  | true =>
    obtain ⟨b, hop, hiff⟩ := a.op_iff hl hspans fun _ => hf
    obtain ⟨x, hx, y, hy, hxv, hvy⟩ := hb
    obtain ⟨c, hc, hcv, hvc⟩ := a.candidate_of_keep hl (le_self_left hvy) hk
    have hbtrue : b = true := hiff.mpr ⟨hf, c, hc, x, hx, y, hy, le_trans_of_le hxv hvc, le_trans_of_le hcv hvy⟩
    rw [hop, hbtrue]

end Candidates

/-! ## Resolved filters -/

/-- The buffer test of the filter. -/
def verdict (a : Probe s) (e : Evaluate t s.item) (h : t.decodable = true) (buf : Manifest.Buffer) (mmap : Bytes) : Res Bool :=
  @spanTest t.Val s.Val (t.decode h) _ (fun item => e.evaluate item a.keep) a.op buf mmap

end Probe

theorem Src.excludeFrom_ok {test : Manifest.Buffer → Res Bool} {mask : Mask} {buffers : List Manifest.Buffer} (n : Nat)
    (h : ∀ i, mask.Includes i → ∀ buf, buffers[i]? = some buf → ∃ b, test buf = .ok b) :
    ∃ r, Src.excludeFrom test n mask buffers = .ok r := by
  induction mask generalizing n buffers with
  | nil => exact ⟨_, rfl⟩
  | cons bit mask ih =>
    cases buffers with
    | nil => exact ⟨(n, bit :: mask), by cases bit <;> rfl⟩
    | cons buf buffers =>
      have htail : ∀ i, Mask.Includes mask i → ∀ buf, buffers[i]? = some buf → ∃ b, test buf = .ok b := by
        intro i hi
        exact h (i + 1) hi
      cases bit with
      | false =>
        obtain ⟨r, hr⟩ := ih n htail
        exact ⟨_, by rw [Src.excludeFrom, hr]; rfl⟩
      | true =>
        obtain ⟨b, hb⟩ := h 0 rfl buf rfl
        cases b with
        | true =>
          obtain ⟨r, hr⟩ := ih (n + 1) htail
          exact ⟨_, by rw [Src.excludeFrom, hb, ok_bind, if_pos rfl, hr]; rfl⟩
        | false =>
          obtain ⟨r, hr⟩ := ih n htail
          exact ⟨_, by rw [Src.excludeFrom, hb, ok_bind, if_neg Bool.false_ne_true, hr]; rfl⟩

/-- Every item of a buffer that `before` includes and the resolved chain does not fails the item test. -/
def Adapter.Lossless {t : Item} (h : t.decodable = true) (before : Mask) (r : Adapter .iter t × Mask) : Prop :=
  ∀ i buf, before.Includes i → r.1.src.buffers.items[i]? = some buf → ¬ r.2.Includes i →
    ∀ x, .ok x ∈ @Src.buffer t.Val (t.decode h) r.1.src.mmap buf → r.1.test x = false

/-- The buffers of the source hold the given items. -/
def Src.Holds (src : Src) (t : Item) (column : List (List t.Val)) : Prop :=
  List.Forall₂ (fun xs buf => Written t xs src.mmap buf) column src.buffers.items

/-- The buffers that an exclusion leaves are those whose test says so. -/
theorem Src.Holds.tryExclude {src : Src} {t : Item} {column : List (List t.Val)} (hcol : src.Holds t column) (mask : Mask)
    {test : Adapter.BufferTest} {C : List t.Val → Bool → Prop}
    (htest : ∀ xs buf, Written t xs src.mmap buf → ∃ b, test buf src.mmap = .ok b ∧ C xs b) :
    ∃ kept, src.tryExclude mask test = .ok kept ∧ ∀ (i : Nat) (xs : List t.Val), mask.Includes i → column[i]? = some xs →
      ∃ b buf, src.buffers.items[i]? = some buf ∧ Written t xs src.mmap buf ∧ C xs b ∧ (kept.2.Includes i ↔ b = true) := by
  obtain ⟨hlen, hget⟩ := List.forall₂_iff_get.mp hcol
  have htests : ∀ i, mask.Includes i → ∀ buf, src.buffers.items[i]? = some buf → ∃ b, test buf src.mmap = .ok b := by
    intro i _ buf hbuf
    obtain ⟨hj, rfl⟩ := List.getElem?_eq_some_iff.mp hbuf
    obtain ⟨b, hb, -⟩ := htest _ _ (hget i (by rw [hlen]; exact hj) hj)
    exact ⟨b, hb⟩
  obtain ⟨kept, hkept⟩ := Src.excludeFrom_ok 0 htests
  obtain ⟨-, hbits⟩ := Src.excludeFrom_eq_ok hkept
  refine ⟨kept, hkept, fun i xs hi hxs => ?_⟩
  obtain ⟨hj, rfl⟩ := List.getElem?_eq_some_iff.mp hxs
  have hk : i < src.buffers.items.length := by rwa [← hlen]
  have hw := hget i hj hk
  obtain ⟨b, hb, hC⟩ := htest _ _ hw
  refine ⟨b, _, List.getElem?_eq_getElem hk, hw, hC, ?_⟩
  rw [hbits]
  constructor
  · rintro ⟨-, hall⟩
    exact Except.ok.inj (hb.symm.trans (hall _ (List.getElem?_eq_getElem hk)))
  · rintro rfl
    refine ⟨hi, fun buf hbuf => ?_⟩
    rw [List.getElem?_eq_getElem hk] at hbuf
    cases hbuf
    exact hb

namespace Probe
variable {s : Scalar} {t : Item}

theorem src_iter (a : Probe s) (e : Evaluate t s.item) (source : Adapter .iter t) : (a.iter source e).src = source.src := by
  cases a <;> rfl

/-- A filter whose buffer test is lossless on the buffers with `C` is lossless on columns of such buffers. -/
theorem resolve_lossless_iff (a : Probe s) (e : Evaluate t s.item) {source : Adapter .mask t} {mask : Mask}
    {q : Adapter .iter t × Mask} (hq : source.resolve mask = .ok q) {column : List (List t.Val)}
    (hcol : q.1.src.Holds t column) (C : List t.Val → Prop)
    (hC : ∀ xs buf, Written t xs q.1.src.mmap buf → ∃ b, a.verdict e q.1.decodable buf q.1.src.mmap = .ok b ∧
      ((b = false → ∀ x ∈ xs, e.evaluate x a.keep = false) ↔ C xs)) :
    ∃ r, (a.mask source e).resolve mask = .ok r ∧
      (Adapter.Lossless q.1.decodable q.2 r ↔ ∀ (i : Nat) (xs : List t.Val), q.2.Includes i → column[i]? = some xs → C xs) := by
  obtain ⟨kept, hkept, hbits⟩ := hcol.tryExclude q.2
    (C := fun xs b => (b = false → ∀ x ∈ xs, e.evaluate x a.keep = false) ↔ C xs) hC
  have hkept : q.1.withMinMax e q.2 a.keep a.op = .ok kept := hkept
  refine ⟨(a.iter q.1 e, kept.2), by rw [a.resolve_eq e hq, hkept]; rfl, ?_⟩
  unfold Adapter.Lossless
  simp only [src_iter, test_iter]
  constructor
  · intro hloss i xs hi hxs
    obtain ⟨b, buf, hbuf, hw, hiff, hin⟩ := hbits i xs hi hxs
    refine hiff.mp fun hfalse x hx => hloss i buf hi hbuf ?_ x ?_
    · rw [hin, hfalse]
      exact Bool.false_ne_true
    · rw [hw.buffer_eq e q.1.decodable]
      exact List.mem_map_of_mem hx
  · intro hall i buf hi hbuf hnot x hx
    have hj : i < column.length := by
      rw [hcol.length_eq]
      exact (List.getElem?_eq_some_iff.mp hbuf).1
    have hxs := List.getElem?_eq_getElem hj
    obtain ⟨b, buf', hbuf', hw, hiff, hin⟩ := hbits i _ hi hxs
    rw [hbuf] at hbuf'
    cases hbuf'
    rw [hw.buffer_eq e q.1.decodable] at hx
    obtain ⟨y, hy, hxy⟩ := List.mem_map.mp hx
    cases hxy
    exact hiff.mpr (hall i _ hi hxs) (Bool.eq_false_iff.mpr fun hb => hnot (hin.mpr hb)) x hy

end Probe
end Msca
