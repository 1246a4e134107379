import Msca.Prune

/-! Which filters lose no row by pruning. A filter that compares by order is lossless on plain operands; one
that compares bits is not where a value compares with nothing, and none is where absent values are operands. -/
namespace Msca
set_option autoImplicit false
open Checked
open PartialOrd (lt gt le ge)

/-- A source of one buffer. -/
def Src.sole (mmap : Bytes) (buf : Manifest.Buffer) : Src := ⟨mmap, ⟨[buf], List.pairwise_singleton _ _⟩⟩

/-- The set of one key. -/
def Scalar.key (s : Scalar) (v : s.Val) : BTreeSet s.Val := ⟨[v], List.pairwise_singleton _ _⟩

theorem Adapter.sole_resolve (src : Src) (t : Item) (h : t.decodable = true) :
    (Adapter.column src t h : Adapter .mask t).resolve [true] = .ok (.column src t h, [true]) := rfl

/-- A float by its bit pattern. -/
def float (n : Nat) : Prim.Val (.plain .f32) := ⟨n % 2 ^ 32, Nat.mod_lt _ (Nat.two_pow_pos 32), trivial⟩

/-! ## Comparable operands -/

namespace Scalar

@[reducible] def ranked : (s : Scalar) → s ≠ .string → Ranked s.Val
  | .prim p, _ => primRanked p
  | .niche p, _ => nicheRanked p
  | .string, h => absurd rfl h

/-- Operand types that are no options. -/
def plain : Scalar → Bool
  | .niche _ => false
  | _ => true

/-- Operand types of fixed width that are no options. -/
def fixed : Scalar → Bool
  | .prim _ => true
  | _ => false

theorem present_of_plain {s : Scalar} (h : s.plain = true) (v : s.Val) : s.present v = true := by
  cases s with
  | niche p => cases h
  | _ => rfl

theorem le_self_of_ord {s : Scalar} (hs : s ≠ .string) (hord : s.item.ord = true) (v : s.Val) : le v v = true := by
  let _ := s.ranked hs
  apply le_self_iff.mpr
  cases s with
  | string => exact absurd rfl hs
  | niche p => exact ⟨_, rfl⟩
  | prim p =>
    cases p with
    | niche p => exact ⟨_, p.rank_eq v⟩
    | plain p =>
      cases p with
      | uint w => exact ⟨_, rfl⟩
      | int w => exact ⟨_, rfl⟩
      | f32 => cases hord
      | f64 => cases hord

/-- A value that the statistics do not count is below every other. -/
theorem le_of_absent {s : Scalar} {y : s.Val} (h : s.present y = false) (v : s.Val) : le y v = true := by
  cases s with
  | niche p =>
    cases y with
    | some a => cases h
    | none => cases v <;> rfl
  | _ => cases h

end Scalar

namespace Probe
variable {s : Scalar} {t : Item}

theorem ord_of_ordered {a : Probe s} (hl : a.listed = true) (ho : a.ordered = true) : s.item.ord = true := by
  cases a with
  | range bounds => cases hl
  | bitMatch item => cases ho
  | oneOf items => cases ho
  | oneOfSorted ord items => exact ord
  | oneOfSet ord items => exact ord
  | semiJoin ord keys => exact ord

theorem contains_lo {α : Type} [PartialOrd α] [Ranked α] {o lo hi : α} (hbot : ∀ v : α, le o v = true) {bounds : Bounds α}
    (ho : bounds.contains o = true) (hd : Manifest.Buffer.disjoint lo hi bounds = false) : bounds.contains lo = true := by
  obtain ⟨start, stop⟩ := bounds
  obtain ⟨hstart, hstop⟩ := Bool.and_eq_true_iff.mp ho
  obtain ⟨habove, -⟩ := Bool.or_eq_false_iff.mp hd
  have hself (v : α) : le v v = true := le_self_right (hbot v)
  refine Bool.and_eq_true_iff.mpr ⟨?_, ?_⟩
  · cases start with
    | included inc => exact le_trans_of_le hstart (hbot lo)
    | excluded exc =>
      have hnot := not_lt_of_le_of (hbot exc)
      rw [show lt exc o = true from hstart] at hnot
      cases hnot
    | unbounded => rfl
  · cases stop with
    | included inc => exact le_of_not_lt_of (hself lo) (hself inc) (gt_eq_lt.symm.trans habove)
    | excluded exc =>
      have hle : le exc lo = false := ge_eq_le.symm.trans habove
      cases hlt : lt lo exc with
      | true => exact hlt
      | false =>
        rw [le_of_not_lt_of (hself exc) (hself lo) hlt] at hle
        cases hle
    | unbounded => rfl

theorem le_self (a : Probe s) (ha : a.ordered = true ∨ s.plain = false) (hl : a.listed = true) (hs : s ≠ .string) (v : s.Val) :
    le v v = true := by
  rcases ha with ha | ha
  · exact Scalar.le_self_of_ord hs (ord_of_ordered hl ha) v
  · refine Scalar.le_self_of_ord hs ?_ v
    cases s with
    | niche p => rfl
    | _ => cases ha

theorem anchored_of_total {α : Type} [PartialOrd α] {zs : List α} {lo hi : α} (h : Spans zs lo hi)
    (htotal : ∀ v : α, le v v = true) : Anchored zs := by
  cases zs with
  | nil => exact absurd h.lo_mem List.not_mem_nil
  | cons y rest => exact ⟨y, rfl, htotal y⟩

/-- What the statistics of the present operands say of an operand that passes. -/
theorem op_verdict (a : Probe s) (ha : a.ordered = true ∨ s.plain = false) (hs : s ≠ .string) {ys : List s.Val}
    {lo hi : s.Val} (hspans : Spans (ys.filter s.present) lo hi) : ∃ b, a.op lo hi = .ok b ∧ ∀ y ∈ ys, a.keep y = true →
      (b = true ↔ s.present y = true ∨ ∃ v, a.keep v = true ∧ Between (ys.filter s.present) v) := by
  let _ := s.ranked hs
  cases hl : a.listed with
  | true =>
    have htotal := a.le_self ha hl hs
    have hf := anchored_of_total hspans htotal
    obtain ⟨b, hb, hiff⟩ := a.op_iff hl hspans fun _ => hf
    have hsound : ∀ v, a.keep v = true → Between (ys.filter s.present) v → b = true := by
      intro v hk hv
      exact Except.ok.inj (hb.symm.trans (a.op_sound hspans hf hk hv))
    refine ⟨b, hb, fun y hy hk => ⟨fun hbtrue => ?_, ?_⟩⟩
    · obtain ⟨-, c, hc, hbetween⟩ := hiff.mp hbtrue
      exact Or.inr ⟨c, a.keep_of_candidate (htotal c) hc, hbetween⟩
    · rintro (hpresent | ⟨v, hkv, hv⟩)
      · exact hsound y hk (Between.self (List.mem_filter.mpr ⟨hy, hpresent⟩) (htotal y))
      · exact hsound v hkv hv
  | false =>
    cases a with
    | range bounds =>
      refine ⟨_, rfl, fun y hy hk => ?_⟩
      rw [Bool.not_eq_true']
      by_cases hf : Anchored (ys.filter s.present)
      · constructor
        · intro hd
          cases hp : s.present y with
          | true => exact Or.inl rfl
          | false =>
            -- the range contains the lower statistic as well
            have hbot := Scalar.le_of_absent hp
            exact Or.inr ⟨lo, contains_lo hbot hk hd,
              (hspans.between hf).mp ⟨le_self_right (hbot lo), hspans.le_of_anchored hf⟩⟩
        · rintro (hpresent | ⟨v, hkv, hv⟩)
          · cases hle : le y y with
            | true =>
              obtain ⟨hlo, hhi⟩ := (hspans.between hf).mpr (Between.self (List.mem_filter.mpr ⟨hy, hpresent⟩) hle)
              exact disjoint_of_contains hlo hhi hk
            | false => exact disjoint_of_contains_unranked hle hk
          · obtain ⟨hlo, hhi⟩ := (hspans.between hf).mpr hv
            exact disjoint_of_contains hlo hhi hkv
      · obtain ⟨hlo, hhi⟩ := hspans.unanchored hf
        refine iff_of_true (disjoint_of_unranked hlo hhi bounds) ?_
        cases hp : s.present y with
        | true => exact Or.inl rfl
        | false =>
          rw [le_self_right (Scalar.le_of_absent hp lo)] at hlo
          cases hlo
    | _ => cases hl

/-- A buffer test keeps a buffer with an operand that passes if the statistics count the operand, if the buffer holds
nothing else, or if some value between the statistics passes as well. -/
theorem verdict_iff (a : Probe s) (ha : a.ordered = true ∨ s.plain = false) (e : Evaluate t s.item) (h : t.decodable = true)
    {xs : List t.Val} {mmap : Bytes} {buf : Manifest.Buffer} (hw : Written t xs mmap buf) :
    ∃ b, a.verdict e h buf mmap = .ok b ∧ ∀ x ∈ xs, ∀ y ∈ e.operands [x], a.keep y = true →
      (b = true ↔ s.present y = true ∨ (∀ x' ∈ xs, x' = x) ∨
        ∃ v, a.keep v = true ∧ Between ((e.operands xs).filter s.present) v) := by
  rcases hw.spanTest_cases e h with ⟨x₀, hx₀, hall, htest⟩ | ⟨rfl, htest⟩ | ⟨hs, hdiffer, lo, hi, hspans, htest⟩
  · refine ⟨_, htest a.keep a.op, fun x hx y hy hk => iff_of_true ?_ (Or.inr (Or.inl ?_))⟩
    · rw [← hall x hx]
      exact (e.evaluate_iff x a.keep).mpr ⟨y, hy, hk⟩
    · intro x' hx'
      rw [hall x' hx', hall x hx]
  · exact ⟨true, htest a.keep a.op, fun x hx y hy hk => iff_of_true rfl (Or.inl rfl)⟩
  · obtain ⟨b, hb, hiff⟩ := a.op_verdict ha hs hspans
    refine ⟨b, (htest a.keep a.op).trans hb, fun x hx y hy hk => ?_⟩
    have hnot : ¬ ∀ x' ∈ xs, x' = x := by
      intro hall
      obtain ⟨x₁, h₁, x₂, h₂, hne⟩ := hdiffer
      exact hne ((hall x₂ h₂).trans (hall x₁ h₁).symm)
    rw [hiff y (e.operands_mem hx hy) hk]
    simp only [hnot, false_or]

/-! ## Plain operands -/

/-- A filter that compares by order loses no item of a written column, and its pruning never fails. -/
theorem ordered_lossless (a : Probe s) (ha : a.ordered = true) (hs : s.plain = true) (e : Evaluate t s.item)
    {source : Adapter .mask t} {mask : Mask} {q : Adapter .iter t × Mask} (hq : source.resolve mask = .ok q)
    {column : List (List t.Val)} (hcol : q.1.src.Holds t column) :
    ∃ r, (a.mask source e).resolve mask = .ok r ∧ Adapter.Lossless q.1.decodable q.2 r := by
  obtain ⟨r, hr, hiff⟩ := a.resolve_lossless_iff e hq hcol (fun _ => True) fun xs buf hw => by
    obtain ⟨b, hb, hverdict⟩ := a.verdict_iff (Or.inl ha) e q.1.decodable hw
    refine ⟨b, hb, iff_of_true (fun hfalse => (e.evaluate_eq_false_iff xs a.keep).mpr fun x hx y hy => ?_) trivial⟩
    cases hk : a.keep y with
    | false => rfl
    | true =>
      have htrue := (hverdict x hx y hy hk).mpr (Or.inl (Scalar.present_of_plain hs y))
      rw [hfalse] at htrue
      cases htrue
  exact ⟨r, hr, hiff.mpr fun _ _ _ _ => trivial⟩

theorem ordered_lossless_words : ∃ (src : Src) (r : Adapter .iter (.prim (.plain (.uint .b4))) × Mask),
    src.Holds (.prim (.plain (.uint .b4))) [[word 1, word 2]] ∧
      ((Probe.range (s := .prim (.plain (.uint .b4))) ⟨.included (word 3), .unbounded⟩).mask
          (.column src _ rfl) (.whole _)).resolve [true] = .ok r ∧
        Adapter.Lossless rfl [true] r := by
  let src : Src := .sole (Bytes.zeros 8 ++ Bytes.leBytes 4 1 ++ Bytes.leBytes 4 2)
    (.detailed ⟨8, 8, by decide, by decide, by decide⟩ ⟨2, by decide, by decide⟩
      ⟨8, 4, by decide, by decide, by decide⟩ ⟨12, 4, by decide, by decide, by decide⟩)
  have hcol : src.Holds (.prim (.plain (.uint .b4))) [[word 1, word 2]] :=
    .cons ⟨⟨0, ⟨8, 8, by decide, by decide, by decide⟩, rfl, rfl⟩, by decide, trivial⟩ .nil
  have hq := Adapter.sole_resolve src (.prim (.plain (.uint .b4))) rfl
  obtain ⟨r, hr, hloss⟩ := ordered_lossless (s := .prim (.plain (.uint .b4))) (.range ⟨.included (word 3), .unbounded⟩) rfl rfl
    (.whole _) hq hcol
  exact ⟨src, r, hcol, hr, hloss⟩

/-! ## Bit patterns -/

theorem keep_iff_mem (a : Probe s) (ha : a.ordered = false) (y : s.Val) : a.keep y = true ↔ y ∈ a.candidates := by
  cases a with
  | bitMatch item =>
    show BitMatch.eq item y = true ↔ y ∈ [item]
    rw [bitMatch_eq_iff, List.mem_singleton]
    exact eq_comm
  | oneOf items =>
    show (items.any fun i => BitMatch.eq y i) = true ↔ y ∈ items
    rw [List.any_eq_true]
    simp only [bitMatch_eq_iff, exists_eq_right']
  | _ => cases ha

theorem listed_of_unordered {a : Probe s} (ha : a.ordered = false) : a.listed = true := by
  cases a <;> first | rfl | cases ha

/-- A filter that compares bits is lossless on a fixed-width column exactly when each buffer holds no candidate, holds
one item alone, or starts with a comparable item and has a candidate between two of its items. -/
theorem bits_lossless_iff (a : Probe s) (ha : a.ordered = false) (hs : s.fixed = true) (e : Evaluate t s.item)
    {source : Adapter .mask t} {mask : Mask} {q : Adapter .iter t × Mask} (hq : source.resolve mask = .ok q)
    {column : List (List t.Val)} (hcol : q.1.src.Holds t column) :
    ∃ r, (a.mask source e).resolve mask = .ok r ∧ (Adapter.Lossless q.1.decodable q.2 r ↔
      ∀ (i : Nat) (xs : List t.Val), q.2.Includes i → column[i]? = some xs →
        (∀ c ∈ a.candidates, c ∉ e.operands xs) ∨ (∀ x ∈ xs, ∀ x' ∈ xs, x' = x) ∨
          Anchored (e.operands xs) ∧ ∃ c ∈ a.candidates, Between (e.operands xs) c) := by
  refine a.resolve_lossless_iff e hq hcol _ fun xs buf hw => ?_
  have hplain : s.plain = true ∧ s ≠ .string := by
    cases s with
    | prim p => exact ⟨rfl, by simp⟩
    | _ => cases hs
  have hall : (e.operands xs).filter s.present = e.operands xs :=
    List.filter_eq_self.mpr fun y _ => Scalar.present_of_plain hplain.1 y
  rcases hw.spanTest_cases e q.1.decodable with ⟨x₀, hx₀, hsame, htest⟩ | ⟨hstring, -⟩ | ⟨hne, hdiffer, lo, hi, hspans, htest⟩
  · refine ⟨_, htest a.keep a.op, iff_of_true (fun hfalse x hx => hsame x hx ▸ hfalse) (Or.inr (Or.inl ?_))⟩
    intro x hx x' hx'
    rw [hsame x hx, hsame x' hx']
  · exact absurd hstring hplain.2
  · let _ := s.ranked hne
    rw [hall] at hspans
    obtain ⟨b, hb, hiff⟩ := a.op_iff (listed_of_unordered ha) hspans fun ho => by rw [ha] at ho; cases ho
    refine ⟨b, (htest a.keep a.op).trans hb, ?_⟩
    have hnot : ¬ ∀ x ∈ xs, ∀ x' ∈ xs, x' = x := by
      intro hsame
      obtain ⟨x, hx, x', hx', hne⟩ := hdiffer
      exact hne (hsame x hx x' hx')
    have hnone : (∀ x ∈ xs, e.evaluate x a.keep = false) ↔ ∀ c ∈ a.candidates, c ∉ e.operands xs := by
      rw [e.evaluate_eq_false_iff]
      constructor
      · intro hfail c hc hmem
        obtain ⟨x, hx, hcx⟩ := e.mem_operands hmem
        have hk := (a.keep_iff_mem ha c).mpr hc
        rw [hfail x hx c hcx] at hk
        cases hk
      · intro hfree x hx y hy
        rw [← Bool.not_eq_true, a.keep_iff_mem ha]
        exact fun hc => hfree y hc (e.operands_mem hx hy)
    rw [hnone, ← hiff]
    simp only [hnot, false_or]
    cases b <;> simp

theorem bits_lossless_iff_floats : ∃ (src : Src) (r : Adapter .iter (.prim (.plain .f32)) × Mask),
    src.Holds (.prim (.plain .f32)) [[float 0x3F800000, float 0x40000000]] ∧
      ((Probe.oneOf (s := .prim (.plain .f32)) [float 0x40000000]).mask (.column src _ rfl) (.whole _)).resolve [true] = .ok r ∧
        Adapter.Lossless rfl [true] r := by
  let src : Src := .sole (Bytes.zeros 8 ++ Bytes.leBytes 4 0x3F800000 ++ Bytes.leBytes 4 0x40000000)
    (.detailed ⟨8, 8, by decide, by decide, by decide⟩ ⟨2, by decide, by decide⟩
      ⟨8, 4, by decide, by decide, by decide⟩ ⟨12, 4, by decide, by decide, by decide⟩)
  have hcol : src.Holds (.prim (.plain .f32)) [[float 0x3F800000, float 0x40000000]] :=
    .cons ⟨⟨0, ⟨8, 8, by decide, by decide, by decide⟩, rfl, rfl⟩, by decide, trivial⟩ .nil
  have hq := Adapter.sole_resolve src (.prim (.plain .f32)) rfl
  obtain ⟨r, hr, hiff⟩ := bits_lossless_iff (s := .prim (.plain .f32)) (.oneOf [float 0x40000000]) rfl rfl
    (.whole _) hq hcol
  refine ⟨src, r, hcol, hr, hiff.mpr fun i xs hi hxs => Or.inr (Or.inr ?_)⟩
  have hzero : i = 0 := Nat.lt_one_iff.mp hi.lt
  rw [hzero] at hxs
  cases hxs
  exact ⟨⟨float 0x3F800000, rfl, rfl⟩, float 0x40000000, List.mem_cons_self, float 0x3F800000, List.mem_cons_self,
    float 0x40000000, List.mem_cons_of_mem _ List.mem_cons_self, rfl, rfl⟩

/-- A buffer that starts with a NaN is cleared although its second item is the operand. -/
theorem bits_lose_rows : ∃ (src : Src) (r : Adapter .iter (.prim (.plain .f32)) × Mask),
    src.Holds (.prim (.plain .f32)) [[float 0x7FC00000, float 0x3F800000]] ∧
      ((Probe.bitMatch (s := .prim (.plain .f32)) (float 0x3F800000)).mask (.column src _ rfl) (.whole _)).resolve [true] = .ok r ∧
        ¬ r.2.Includes 0 ∧ r.1.test (float 0x3F800000) = true := by
  refine ⟨.sole (Bytes.zeros 8 ++ Bytes.leBytes 4 0x7FC00000 ++ Bytes.leBytes 4 0x3F800000)
    (.detailed ⟨8, 8, by decide, by decide, by decide⟩ ⟨2, by decide, by decide⟩
      ⟨8, 4, by decide, by decide, by decide⟩ ⟨8, 4, by decide, by decide, by decide⟩), _, ?_, rfl, by decide, by decide⟩
  exact .cons ⟨⟨0, ⟨8, 8, by decide, by decide, by decide⟩, rfl, rfl⟩, by decide, trivial⟩ .nil

/-! ## Absent operands -/

/-- A filter whose operands are options is lossless exactly when each buffer with an absent item that passes holds no
other item, or encloses another value that passes. -/
theorem option_lossless_iff (a : Probe s) (hs : s.plain = false) (e : Evaluate t s.item)
    {source : Adapter .mask t} {mask : Mask} {q : Adapter .iter t × Mask} (hq : source.resolve mask = .ok q)
    {column : List (List t.Val)} (hcol : q.1.src.Holds t column) :
    ∃ r, (a.mask source e).resolve mask = .ok r ∧ (Adapter.Lossless q.1.decodable q.2 r ↔
      ∀ (i : Nat) (xs : List t.Val), q.2.Includes i → column[i]? = some xs →
        ∀ x ∈ xs, ∀ y ∈ e.operands [x], s.present y = false → a.keep y = true →
          (∀ x' ∈ xs, x' = x) ∨ ∃ v, a.keep v = true ∧ Between ((e.operands xs).filter s.present) v) := by
  refine a.resolve_lossless_iff e hq hcol _ fun xs buf hw => ?_
  obtain ⟨b, hb, hverdict⟩ := a.verdict_iff (Or.inr hs) e q.1.decodable hw
  refine ⟨b, hb, ?_⟩
  rw [e.evaluate_eq_false_iff]
  constructor
  · intro hloss x hx y hy habsent hk
    cases b with
    | true =>
      rcases (hverdict x hx y hy hk).mp rfl with hpresent | hkept
      · rw [habsent] at hpresent
        cases hpresent
      · exact hkept
    | false =>
      rw [hloss rfl x hx y hy] at hk
      cases hk
  · intro hcond hfalse x hx y hy
    rw [← Bool.not_eq_true]
    intro hk
    have hkept : s.present y = true ∨ (∀ x' ∈ xs, x' = x) ∨ ∃ v, a.keep v = true ∧ Between ((e.operands xs).filter s.present) v := by
      cases hp : s.present y with
      | true => exact Or.inl rfl
      | false => exact Or.inr (hcond x hx y hy hp hk)
    rw [(hverdict x hx y hy hk).mpr hkept] at hfalse
    cases hfalse

theorem option_lossless_iff_bytes : ∃ (src : Src) (r : Adapter .iter (.option (.prim (.niche (.nonZeroUInt .b1)))) × Mask),
    src.Holds (.option (.prim (.niche (.nonZeroUInt .b1))))
        [[none, some ⟨1, by decide, by decide⟩, some ⟨2, by decide, by decide⟩]] ∧
      ((Probe.oneOf (s := .niche (.nonZeroUInt .b1)) [none, some ⟨2, by decide, by decide⟩]).mask
          (.column src _ rfl) (.whole _)).resolve [true] = .ok r ∧
        Adapter.Lossless rfl [true] r := by
  let src : Src := .sole (Bytes.zeros 8 ++ [0, 1, 2]) (.detailed ⟨8, 3, by decide, by decide, by decide⟩
    ⟨3, by decide, by decide⟩ ⟨9, 1, by decide, by decide, by decide⟩ ⟨10, 1, by decide, by decide, by decide⟩)
  have hcol : src.Holds (.option (.prim (.niche (.nonZeroUInt .b1))))
      [[none, some ⟨1, by decide, by decide⟩, some ⟨2, by decide, by decide⟩]] :=
    .cons ⟨⟨0, ⟨8, 3, by decide, by decide, by decide⟩, rfl, rfl⟩, by decide, trivial⟩ .nil
  have hq := Adapter.sole_resolve src (.option (.prim (.niche (.nonZeroUInt .b1)))) rfl
  obtain ⟨r, hr, hiff⟩ := option_lossless_iff (s := .niche (.nonZeroUInt .b1))
    (.oneOf [none, some ⟨2, by decide, by decide⟩]) rfl (.whole _) hq hcol
  refine ⟨src, r, hcol, hr, hiff.mpr fun i xs hi hxs x hx y hy habsent hk => Or.inr ?_⟩
  have hzero : i = 0 := Nat.lt_one_iff.mp hi.lt
  rw [hzero] at hxs
  cases hxs
  exact ⟨some ⟨2, by decide, by decide⟩, rfl, some ⟨1, by decide, by decide⟩, by decide,
    some ⟨2, by decide, by decide⟩, by decide, rfl, rfl⟩

/-- A buffer with an absent item below the range is cleared although that item passes. -/
theorem option_loses_none : ∃ (src : Src) (r : Adapter .iter (.option (.prim (.niche (.nonZeroUInt .b1)))) × Mask),
    src.Holds (.option (.prim (.niche (.nonZeroUInt .b1))))
        [[none, some ⟨1, by decide, by decide⟩, some ⟨2, by decide, by decide⟩]] ∧
      ((Probe.range (s := .niche (.nonZeroUInt .b1)) ⟨.unbounded, .excluded (some ⟨1, by decide, by decide⟩)⟩).mask
          (.column src _ rfl) (.whole _)).resolve [true] = .ok r ∧
        ¬ r.2.Includes 0 ∧ r.1.test none = true := by
  refine ⟨.sole (Bytes.zeros 8 ++ [0, 1, 2]) (.detailed ⟨8, 3, by decide, by decide, by decide⟩
    ⟨3, by decide, by decide⟩ ⟨9, 1, by decide, by decide, by decide⟩ ⟨10, 1, by decide, by decide, by decide⟩),
    _, ?_, rfl, by decide, by decide⟩
  exact .cons ⟨⟨0, ⟨8, 3, by decide, by decide, by decide⟩, rfl, rfl⟩, by decide, trivial⟩ .nil

end Probe

/-! ## Semi-joins and anti-joins -/

/-- What a filter over single items makes of a written buffer. -/
theorem Written.itemTest_cases {t : Item} {s : Scalar} (e : Evaluate t s.item) (h : t.decodable = true) {xs : List t.Val}
    {mmap : Bytes} {buf : Manifest.Buffer} (hw : Written t xs mmap buf) :
    (∃ x ∈ xs, (∀ y ∈ xs, y = x) ∧ ∀ keep,
        @itemTest t.Val (t.decode h) (fun item => e.evaluate item keep) buf mmap = .ok (e.evaluate x keep)) ∨
      ∀ keep, @itemTest t.Val (t.decode h) (fun item => e.evaluate item keep) buf mmap = .ok true := by
  obtain ⟨sector, count, ⟨x, hx, hall, rfl, hslice, hm⟩ | ⟨-, hdesc, -⟩⟩ := hw.cases
  · refine Or.inl ⟨x, hx, hall, fun keep => ?_⟩
    show (do return e.evaluate (← @readOne t.Val (t.decode h) (← sector.slice mmap)) keep : Res Bool) = _
    rw [hslice, ok_bind, t.readOne_image h hm (Scalar.regular e [x])]
    rfl
  · refine Or.inr fun keep => ?_
    rcases t.lawfulDescribe.1.describe_eq hdesc with rfl | ⟨min, max, rfl⟩
    · rfl
    · rfl

/-- The row `x` of the `i`th buffer comes out of the chain. -/
def Adapter.Accepts {t : Item} (r : Adapter .iter t × Mask) (i : Nat) (x : t.Val) : Prop :=
  r.2.Includes i ∧ r.1.test x = true

namespace Adapter
variable {s : Scalar} {t : Item}

/-- An anti-join keeps the rows whose operand is no key. -/
theorem antiJoin_accepts (ord : s.item.ord = true) (keys : BTreeSet s.Val) (e : Evaluate t s.item)
    {source : Adapter .mask t} {mask : Mask} {q : Adapter .iter t × Mask} (hq : source.resolve mask = .ok q)
    {column : List (List t.Val)} (hcol : q.1.src.Holds t column) :
    ∃ r, (Adapter.antiJoin source e ord (.ok keys)).resolve mask = .ok r ∧
      ∀ (i : Nat) (xs : List t.Val) (x : t.Val), q.2.Includes i → column[i]? = some xs → x ∈ xs →
        (Accepts r i x ↔ e.evaluate x (fun op => !keys.contains op) = true) := by
  obtain ⟨kept, hkept, hbits⟩ := hcol.tryExclude q.2
    (C := fun xs b => ∀ x ∈ xs, e.evaluate x (fun op => !keys.contains op) = true → b = true) fun xs buf hw => by
      rcases hw.itemTest_cases e q.1.decodable with ⟨x₀, -, hall, htest⟩ | htest
      · exact ⟨_, htest fun op => !keys.contains op, fun x hx hpass => hall x hx ▸ hpass⟩
      · exact ⟨true, htest fun op => !keys.contains op, fun _ _ _ => rfl⟩
  have hkept : q.1.withItem e q.2 (fun op => !keys.contains op) = .ok kept := hkept
  refine ⟨(.antiJoin q.1 e ord keys, kept.2), ?_, fun i xs x hi hxs hx => ?_⟩
  · rw [Adapter.resolve, ok_bind, hq, ok_bind, hkept]
    rfl
  · obtain ⟨b, -, -, -, hpass, hin⟩ := hbits i xs hi hxs
    constructor
    · exact fun h => h.2
    · exact fun h => ⟨hin.mpr (hpass x hx h), h⟩

/-- A semi-join keeps the rows whose operand is a key that the statistics do not hide. -/
theorem semiJoin_accepts (ord : s.item.ord = true) (keys : BTreeSet s.Val) (e : Evaluate t s.item)
    {source : Adapter .mask t} {mask : Mask} {q : Adapter .iter t × Mask} (hq : source.resolve mask = .ok q)
    {column : List (List t.Val)} (hcol : q.1.src.Holds t column) :
    ∃ r, (Adapter.semiJoin source e ord (.ok keys)).resolve mask = .ok r ∧
      ∀ (i : Nat) (xs : List t.Val) (x : t.Val), q.2.Includes i → column[i]? = some xs → x ∈ xs →
        (Accepts r i x ↔ ∃ y ∈ e.operands [x], keys.contains y = true ∧ (s.present y = true ∨ (∀ x' ∈ xs, x' = x) ∨
          ∃ v, keys.contains v = true ∧ Between ((e.operands xs).filter s.present) v)) := by
  let a : Probe s := .semiJoin ord keys
  obtain ⟨kept, hkept, hbits⟩ := hcol.tryExclude q.2 fun xs buf hw => a.verdict_iff (Or.inl rfl) e q.1.decodable hw
  have hkept : q.1.withMinMax e q.2 a.keep a.op = .ok kept := hkept
  refine ⟨(.semiJoin q.1 e ord keys, kept.2), ?_, fun i xs x hi hxs hx => ?_⟩
  · show (a.mask source e).resolve mask = _
    rw [a.resolve_eq e hq, hkept]
    rfl
  · obtain ⟨b, -, -, -, hverdict, hin⟩ := hbits i xs hi hxs
    constructor
    · rintro ⟨hincl, hpass⟩
      obtain ⟨y, hy, hk⟩ := (e.evaluate_iff x keys.contains).mp hpass
      exact ⟨y, hy, hk, (hverdict x hx y hy hk).mp (hin.mp hincl)⟩
    · rintro ⟨y, hy, hk, hkept⟩
      exact ⟨hin.mpr ((hverdict x hx y hy hk).mpr hkept), (e.evaluate_iff x keys.contains).mpr ⟨y, hy, hk⟩⟩

/-- A row passes exactly one of the two joins with the same keys when and only when it has an operand, and an absent
operand that is a key is not hidden by the statistics. -/
theorem joins_complement_iff (ord : s.item.ord = true) (keys : BTreeSet s.Val) (e : Evaluate t s.item)
    {source : Adapter .mask t} {mask : Mask} {q : Adapter .iter t × Mask} (hq : source.resolve mask = .ok q)
    {column : List (List t.Val)} (hcol : q.1.src.Holds t column) :
    ∃ r r', (Adapter.semiJoin source e ord (.ok keys)).resolve mask = .ok r ∧
      (Adapter.antiJoin source e ord (.ok keys)).resolve mask = .ok r' ∧
        ∀ (i : Nat) (xs : List t.Val) (x : t.Val), q.2.Includes i → column[i]? = some xs → x ∈ xs →
          (Xor (Accepts r i x) (Accepts r' i x) ↔ ∃ y ∈ e.operands [x], s.present y = false → keys.contains y = true →
            (∀ x' ∈ xs, x' = x) ∨ ∃ v, keys.contains v = true ∧ Between ((e.operands xs).filter s.present) v) := by
  obtain ⟨r, hr, hsemi⟩ := semiJoin_accepts ord keys e hq hcol
  obtain ⟨r', hr', hanti⟩ := antiJoin_accepts ord keys e hq hcol
  refine ⟨r, r', hr, hr', fun i xs x hi hxs hx => ?_⟩
  rw [hsemi i xs x hi hxs hx, hanti i xs x hi hxs hx, e.evaluate_iff]
  rcases hops : e.operands [x] with _ | ⟨y, rest⟩
  · -- a row without an operand passes neither
    simp [Xor]
  · have hrest : rest = [] := e.operands_singleton hops
    rw [hrest]
    simp only [List.mem_singleton, exists_eq_left]
    cases keys.contains y <;> cases s.present y <;> simp [Xor]

theorem joins_complement_iff_words : ∃ (src : Src) (r r' : Adapter .iter (.prim (.plain (.uint .b4))) × Mask),
    src.Holds (.prim (.plain (.uint .b4))) [[word 1, word 2]] ∧
      (@Adapter.semiJoin .mask _ (.prim (.plain (.uint .b4))) (.column src _ rfl) (.whole _) rfl
          (.ok (Scalar.key _ (word 2)))).resolve [true] = .ok r ∧
      (@Adapter.antiJoin .mask _ (.prim (.plain (.uint .b4))) (.column src _ rfl) (.whole _) rfl
          (.ok (Scalar.key (.prim (.plain (.uint .b4))) (word 2)))).resolve [true] = .ok r' ∧
        Xor (Accepts r 0 (word 1)) (Accepts r' 0 (word 1)) := by
  let src : Src := .sole (Bytes.zeros 8 ++ Bytes.leBytes 4 1 ++ Bytes.leBytes 4 2)
    (.detailed ⟨8, 8, by decide, by decide, by decide⟩ ⟨2, by decide, by decide⟩
      ⟨8, 4, by decide, by decide, by decide⟩ ⟨12, 4, by decide, by decide, by decide⟩)
  have hcol : src.Holds (.prim (.plain (.uint .b4))) [[word 1, word 2]] :=
    .cons ⟨⟨0, ⟨8, 8, by decide, by decide, by decide⟩, rfl, rfl⟩, by decide, trivial⟩ .nil
  have hq := Adapter.sole_resolve src (.prim (.plain (.uint .b4))) rfl
  obtain ⟨r, r', hr, hr', hiff⟩ := joins_complement_iff (s := .prim (.plain (.uint .b4))) rfl
    (Scalar.key _ (word 2)) (.whole _) hq hcol
  refine ⟨src, r, r', hcol, hr, hr', (hiff 0 _ (word 1) rfl rfl List.mem_cons_self).mpr ?_⟩
  exact ⟨word 1, List.mem_cons_self, fun habsent => by cases habsent⟩

/-- An absent row passes neither join. -/
theorem joins_drop_none : ∃ (src : Src) (r r' : Adapter .iter (.option (.prim (.plain (.uint .b4)))) × Mask),
    src.Holds (.option (.prim (.plain (.uint .b4)))) [[none, none]] ∧
      (@Adapter.semiJoin .mask _ (.prim (.plain (.uint .b4))) (.column src _ rfl) (.inner _) rfl
          (.ok (Scalar.key _ (word 2)))).resolve [true] = .ok r ∧
      (@Adapter.antiJoin .mask _ (.prim (.plain (.uint .b4))) (.column src _ rfl) (.inner _) rfl
          (.ok (Scalar.key (.prim (.plain (.uint .b4))) (word 2)))).resolve [true] = .ok r' ∧
        ¬ Accepts r 0 none ∧ ¬ Accepts r' 0 none := by
  refine ⟨.sole (Bytes.zeros 8 ++ Bytes.leBytes 8 1 ++ Bytes.zeros 8)
    (.compact ⟨8, 16, by decide, by decide, by decide⟩ ⟨2, by decide, by decide⟩), _, _, ?_, rfl, rfl, ?_, ?_⟩
  · exact .cons ⟨⟨0, ⟨8, 16, by decide, by decide, by decide⟩, rfl, rfl⟩, by decide, show 2 < 2 ^ 61 by decide⟩ .nil
  · rintro ⟨-, hpass⟩
    cases hpass
  · rintro ⟨-, hpass⟩
    cases hpass

end Adapter
end Msca
