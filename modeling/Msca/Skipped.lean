import Msca.Chain
import Msca.Window

/-! Filters over a skipped column. The skip clears whole buffers before the filters prune, and what is left of it goes
with its buffer; a chain that is read behind its origin yields the items that pass all filters among those not skipped. -/
namespace Msca
set_option autoImplicit false
open Checked

/-! ## Rows of a written column -/

theorem Item.describe_count {t : Item} {xs : List t.Val} {sector : Sector} {count : NonZero} {buf : Manifest.Buffer}
    (h : (Buffer.collect xs).describe sector count = .ok buf) : buf.count = count.get := by
  rcases Buffer.collect_cases xs with ⟨-, heq⟩ | ⟨x, -, -, heq⟩ | ⟨-, heq⟩
  · rw [heq] at h
    cases h
  · rw [heq] at h
    cases h
    rfl
  · rw [heq] at h
    rcases t.lawfulDescribe.1.describe_eq h with rfl | ⟨min, max, rfl⟩
    · rfl
    · rfl

theorem Written.count {t : Item} {xs : List t.Val} {mmap : Bytes} {buf : Manifest.Buffer} (hw : Written t xs mmap buf) :
    buf.count = xs.length := by
  obtain ⟨offset, sector, hdesc, -⟩ := hw.described
  obtain ⟨count, hcount, hdescribe⟩ := Buffer.descriptor_eq_ok hdesc
  rw [Item.describe_count hdescribe, hcount, Buffer.count_collect]

namespace Src

/-- The rows of the included buffers are the places of their items. -/
theorem rowsFrom_items {α : Type} {blocks : List (List α)} {buffers : List Manifest.Buffer}
    (h : List.Forall₂ (fun (xs : List α) buf => buf.count = xs.length) blocks buffers) (mask : Mask) (i : Nat) :
    (rowsFrom i mask buffers).map (fun row => blocks[row.1 - i]?.bind fun xs => xs[row.2]?) =
      (retain mask blocks).flatten.map some := by
  induction h generalizing mask i with
  | nil => cases mask <;> simp [rowsFrom]
  | @cons xs buf blocks buffers hcount _ ih =>
    cases mask with
    | nil => rfl
    | cons bit mask =>
      have htail : (rowsFrom (i + 1) mask buffers).map (fun row => (xs :: blocks)[row.1 - i]?.bind fun ys => ys[row.2]?) =
          (retain mask blocks).flatten.map some := by
        rw [← ih mask (i + 1)]
        refine List.map_congr_left fun row hrow => ?_
        have hle := le_of_mem_rowsFrom hrow
        rw [show row.1 - i = row.1 - (i + 1) + 1 by omega, List.getElem?_cons_succ]
      cases bit with
      | false => exact htail
      | true =>
        have hhead : ((List.range buf.count).map fun k => (i, k)).map
            (fun row => (xs :: blocks)[row.1 - i]?.bind fun ys => ys[row.2]?) = xs.map some := by
          rw [List.map_map, hcount]
          exact List.ext_getElem (by simp) fun k hk _ => by simp at hk; simp [hk]
        rw [rowsFrom, if_pos rfl, List.map_append, hhead, htail, Retain.cons_true, List.flatten_cons, List.map_append]

end Src

theorem Src.Holds.counts {src : Src} {t : Item} {column : List (List t.Val)} (h : src.Holds t column) :
    List.Forall₂ (fun (xs : List t.Val) buf => buf.count = xs.length) column src.buffers.items := h.imp fun _ _ hw => hw.count

/-! ## Where a skip ends -/

/-- What a skip of `n` rows leaves of a mask: the buffers before `j` are cleared, and `r` rows of `j` are still to go. -/
structure Skips {α : Type} (n : Nat) (mask : Mask) (blocks : List (List α)) (j r : Nat) : Prop where
  bound : r < 2 ^ 64
  block : ∃ xs, (mask.clear j)[j]? = some true ∧ blocks[j]? = some xs ∧ r ≤ xs.length
  rest : (retain (mask.clear j) blocks).flatten.drop r = (retain mask blocks).flatten.drop n

/-- A narrower mask finds the same behind a skip as long as nothing to be found is in what it leaves out. -/
theorem Skips.filterMap_eq {α β : Type} {n j r : Nat} {mask after : Mask} {blocks : List (List α)} (h : Skips n mask blocks j r)
    {f : α → Option β} (hlen : after.length = (mask.clear j).length) (hsub : ∀ i, after.Includes i → (mask.clear j).Includes i)
    (hlost : ∀ (i : Nat) (xs : List α), (mask.clear j).Includes i → ¬ after.Includes i → blocks[i]? = some xs →
      ∀ x ∈ xs, f x = none) :
    ((retain after blocks).flatten.drop (if after.Includes j then r else 0)).filterMap f =
      ((retain mask blocks).flatten.drop n).filterMap f := by
  obtain ⟨xs, hin, hxs, hle⟩ := h.block
  have hbefore : ∀ m : Mask, (∀ i, m.Includes i → (mask.clear j).Includes i) →
      (retain m blocks).flatten.drop (if m.Includes j then r else 0) = (retain m (blocks.set j (xs.drop r))).flatten := by
    refine fun m hm => Retain.flatten_drop (fun i hi hi' => ?_) hxs hle
    have hij := (Mask.clear_includes.mp (hm i hi')).2
    omega
  have hfind : ∀ m : Mask, (retain m (blocks.set j (xs.drop r))).flatten.filterMap f =
      (retain m (blocks.set j (xs.drop r))).flatMap fun ys => ys.filterMap f := by
    intro m
    rw [List.filterMap_flatten, List.flatMap_def]
  have hwhole := hbefore (mask.clear j) fun _ hi => hi
  rw [if_pos (show (mask.clear j).Includes j from hin), h.rest] at hwhole
  rw [hbefore after hsub, hfind, hwhole, hfind]
  refine Retain.flatMap_narrow hlen hsub fun i ys hys hi hnot => List.filterMap_eq_nil_iff.mpr fun x hx => ?_
  by_cases hij : j = i
  · obtain ⟨hi', rfl⟩ := List.getElem?_eq_some_iff.mp hys
    subst hij
    rw [List.getElem_set_self] at hx
    exact hlost j xs hi hnot hxs x (List.mem_of_mem_drop hx)
  · rw [List.getElem?_set_ne hij] at hys
    exact hlost i ys hi hnot hys x hx

/-- A skip ends in a block, or leaves nothing. -/
theorem Src.Holds.skips {src : Src} {t : Item} {column : List (List t.Val)} (hcol : src.Holds t column) (mask : Mask) {n : Nat}
    (hn : n < 2 ^ 64) :
    (∃ j r, Adapter.skipScan 0 n mask src.buffers.items = (some j, r, mask.clear j) ∧ Skips n mask column j r) ∨
      ∃ k, Adapter.skipScan 0 n mask src.buffers.items = (none, k, mask.clear column.length) ∧
        (retain mask column).flatten.drop n = [] := by
  have hitems : ∀ m : Mask, (Src.rowsFrom 0 m src.buffers.items).map
      (fun row => column[row.1]?.bind fun xs => xs[row.2]?) = (retain m column).flatten.map some :=
    fun m => rowsFrom_items hcol.counts m 0
  rcases hrow : (src.rows mask)[n]? with _ | ⟨j, r⟩
  · have hlen := List.getElem?_eq_none_iff.mp hrow
    refine Or.inr ⟨n - (src.rows mask).length, ?_, ?_⟩
    · rw [hcol.length_eq]
      exact (skipScan_none hlen).1
    · have hsame := congrArg List.length (hitems mask)
      rw [List.length_map, List.length_map] at hsame
      exact List.drop_eq_nil_of_le (hsame ▸ hlen)
  · have hloc := located hrow
    obtain ⟨buf, -, hbuf, hlt, -⟩ := hloc.block
    have hbuf : src.buffers.items[j]? = some buf := hbuf
    have hle := hloc.residual_le
    refine Or.inl ⟨j, r, hloc.scan, by omega, ?_, ?_⟩
    · have hj : j < column.length := by
        rw [hcol.length_eq]
        exact (List.getElem?_eq_some_iff.mp hbuf).1
      obtain ⟨buf', hbuf', hw⟩ := Clears.written hcol (List.getElem?_eq_getElem hj)
      rw [hbuf] at hbuf'
      cases hbuf'
      have hcount := hw.count
      exact ⟨column[j], Mask.clear_includes.mpr ⟨hloc.included, Nat.le_refl j⟩, List.getElem?_eq_getElem hj, by omega⟩
    · have hdrop : src.rows (mask.clear j) = (src.rows mask).drop (n - r) := hloc.drop
      refine List.map_injective_iff.mpr (Option.some_injective _) ?_
      rw [List.map_drop, List.map_drop, ← hitems, ← hitems]
      show ((src.rows (mask.clear j)).map _).drop r = ((src.rows mask).map _).drop n
      rw [hdrop, List.map_drop, List.drop_drop]
      congr 1
      omega

/-! ## Chains over a skip -/

namespace Adapter

/-- The chain over its column behind the first items. -/
def skipping (n : Nat) : {t : Item} → Adapter .mask t → Adapter .mask t
  | _, .column src t h => .skip (.column src t h) n
  | _, .filter source e f => .filter (source.skipping n) e f
  | _, .range source e bounds => .range (source.skipping n) e bounds
  | _, .bitMatch source e item => .bitMatch (source.skipping n) e item
  | _, .oneOf source e items => .oneOf (source.skipping n) e items
  | _, .oneOfSorted source e ord items => .oneOfSorted (source.skipping n) e ord items
  | _, .oneOfSet source e ord items => .oneOfSet (source.skipping n) e ord items
  | _, .semiJoin source e ord keys => .semiJoin (source.skipping n) e ord keys
  | _, .antiJoin source e ord keys => .antiJoin (source.skipping n) e ord keys
  | _, .isSome source => .isSome (source.skipping n)
  | _, .isNone source => .isNone (source.skipping n)
  | _, .skip source m => .skip (source.skipping n) m

/-- `s` is the chain `r` over a column skipped to `anchor`. -/
structure Behind [Outcomes] {t : Item} (anchor : Anchor) (r s : Adapter .iter t) : Prop where
  src : s.src = r.src
  read : ∀ m, s.read m = r.read m
  origin : ∀ m, s.origin m = saturatingAdd 0 (if m.Includes anchor.buffer then anchor.origin else 0)

namespace Behind
variable [Outcomes] {t : Item} {anchor : Anchor} {q p : Adapter .iter t}

theorem withItem (h : Behind anchor q p) {j : Item} (e : Evaluate t j) (mask : Mask) (f : j.Val → Bool) :
    p.withItem e mask f = q.withItem e mask f := by
  unfold Adapter.withItem
  rw [h.src]

theorem withMinMax (h : Behind anchor q p) {s : Scalar} (e : Evaluate t s.item) (mask : Mask) (f : s.Val → Bool)
    (op : s.Val → s.Val → Res Bool) : p.withMinMax e mask f op = q.withMinMax e mask f op := by
  unfold Adapter.withMinMax
  rw [h.src]

end Behind

/-- One more filter over statistics. -/
theorem Behind.probe [Outcomes] {t : Item} {s : Scalar} (a : Probe s) (e : Evaluate t s.item) {source skipped : Adapter .mask t}
    {mask mask' : Mask} {q : Adapter .iter t × Mask} (hq : source.resolve mask = .ok q) {p : Adapter .iter t}
    (hp : skipped.resolve mask' = .ok (p, q.2)) {anchor : Anchor} (hb : Behind anchor q.1 p) {r : Adapter .iter t × Mask}
    (h : (a.mask source e).resolve mask = .ok r) :
    ∃ s, (a.mask skipped e).resolve mask' = .ok (s, r.2) ∧ Behind anchor r.1 s := by
  rw [a.resolve_eq e hq] at h
  obtain ⟨kept, hkept, h⟩ := bind_eq_ok.mp h
  cases h
  refine ⟨a.iter p e, ?_, ?_, fun m => ?_, fun m => ?_⟩
  · rw [a.resolve_eq e hp, hb.withMinMax, hkept]
    rfl
  · rw [Probe.src_iter, Probe.src_iter, hb.src]
  · have hkept : ∀ source : Adapter .iter t, (a.iter source e).read m =
        (source.read m).map fun o => Outcomes.keep o fun item => e.evaluate item a.keep := by
      intro source
      rw [← funext (a.test_iter e source)]
      cases a <;> rfl
    exact (hkept p).trans ((congrArg _ (hb.read m)).trans (hkept q.1).symm)
  · rw [← hb.origin]
    cases a <;> rfl

/-- A chain over a skip resolves as the chain by itself does on what the skip leaves. -/
theorem resolve_skipping [Outcomes] {t : Item} {a : Adapter .mask t} (hs : a.Safe) (n : Nat) (mask : Mask)
    {r : Adapter .iter t × Mask} (h : a.resolve (skipScan 0 n mask a.src.buffers.items).2.2 = .ok r) :
    ∃ s, (a.skipping n).resolve mask = .ok (s, r.2) ∧
      Behind ⟨(skipScan 0 n mask a.src.buffers.items).1.getD mask.length, (skipScan 0 n mask a.src.buffers.items).2.1⟩ r.1 s := by
  induction a with
  | column src t hd =>
    cases h
    refine ⟨_, rfl, rfl, fun _ => rfl, fun m => ?_⟩
    rw [origin_skip]
    rfl
  | range source e bounds ih =>
    obtain ⟨q, hq, -⟩ := bind_eq_ok.mp h
    obtain ⟨p, hp, hb⟩ := ih hs.1 hq
    exact Behind.probe (.range bounds) e hq hp hb h
  | bitMatch source e item ih =>
    obtain ⟨q, hq, -⟩ := bind_eq_ok.mp h
    obtain ⟨p, hp, hb⟩ := ih hs.1 hq
    exact Behind.probe (.bitMatch item) e hq hp hb h
  | oneOf source e items ih =>
    obtain ⟨q, hq, -⟩ := bind_eq_ok.mp h
    obtain ⟨p, hp, hb⟩ := ih hs.1 hq
    exact Behind.probe (.oneOf items) e hq hp hb h
  | oneOfSorted source e ord items ih =>
    obtain ⟨q, hq, -⟩ := bind_eq_ok.mp h
    obtain ⟨p, hp, hb⟩ := ih hs.1 hq
    exact Behind.probe (.oneOfSorted ord items) e hq hp hb h
  | oneOfSet source e ord items ih =>
    obtain ⟨q, hq, -⟩ := bind_eq_ok.mp h
    obtain ⟨p, hp, hb⟩ := ih hs.1 hq
    exact Behind.probe (.oneOfSet ord items) e hq hp hb h
  | semiJoin source e ord keys ih =>
    obtain ⟨hs, -, found, rfl, -⟩ := hs
    obtain ⟨q, hq, -⟩ := bind_eq_ok.mp (show (source.resolve _ >>= _) = _ from h)
    obtain ⟨p, hp, hb⟩ := ih hs hq
    exact Behind.probe (.semiJoin ord found) e hq hp hb h
  | filter source e f ih =>
    obtain ⟨q, hq, h⟩ := bind_eq_ok.mp h
    obtain ⟨kept, hkept, h⟩ := bind_eq_ok.mp h
    cases h
    obtain ⟨p, hp, hb⟩ := ih hs.1 hq
    refine ⟨.filter p e f, ?_, hb.src, fun m => ?_, hb.origin⟩
    · rw [skipping, resolve, hp, ok_bind, hb.withItem, hkept]
      rfl
    · rw [read, hb.read]
      rfl
  | antiJoin source e ord keys ih =>
    obtain ⟨hs, -, found, rfl⟩ := hs
    obtain ⟨q, hq, h⟩ := bind_eq_ok.mp (show (source.resolve _ >>= _) = _ from h)
    obtain ⟨kept, hkept, h⟩ := bind_eq_ok.mp h
    cases h
    obtain ⟨p, hp, hb⟩ := ih hs hq
    refine ⟨.antiJoin p e ord found, ?_, hb.src, fun m => ?_, hb.origin⟩
    · rw [skipping, resolve, ok_bind, hp, ok_bind, hb.withItem, hkept]
      rfl
    · rw [read, hb.read]
      rfl
  | isNone source ih =>
    obtain ⟨q, hq, h⟩ := bind_eq_ok.mp h
    obtain ⟨kept, hkept, h⟩ := bind_eq_ok.mp h
    cases h
    obtain ⟨p, hp, hb⟩ := ih hs hq
    refine ⟨.isNone p, ?_, hb.src, fun m => ?_, hb.origin⟩
    · rw [skipping, resolve, hp, ok_bind, hb.withItem, hkept]
      rfl
    · rw [read, hb.read]
      rfl
  | isSome source ih =>
    obtain ⟨q, hq, h⟩ := bind_eq_ok.mp h
    obtain ⟨kept, hkept, h⟩ := bind_eq_ok.mp h
    cases h
    obtain ⟨p, hp, hb⟩ := ih hs hq
    refine ⟨.isSome p, ?_, hb.src, fun m => ?_, hb.origin⟩
    · rw [skipping, resolve, hp, ok_bind, hb.withItem, hkept]
      rfl
    · rw [read, hb.read]
      rfl
  | skip source m ih => cases hs

/-- A safe chain over a skip yields, behind its origin, the items that pass all filters among those after the first `n`
of the buffers it is offered, whatever the filters prune. -/
theorem read_skipping [Outcomes] [LawfulOutcomes] {t : Item} (a : Adapter .mask t) (hs : a.Safe)
    {column : List (List a.base.Val)} (hcol : a.src.Holds a.base column) (hr : ∀ xs ∈ column, a.base.regular xs = true)
    (mask : Mask) (n : U64) :
    ∃ r, (a.skipping n.val).resolve mask = .ok r ∧
      ((r.1.read r.2).drop (r.1.origin r.2)).filterMap Outcome.included? =
        ((retain mask column).flatten.drop n.val).filterMap a.value ∧
          ∀ o ∈ r.1.read r.2, ∀ e, o ≠ .error e := by
  obtain ⟨r, hres, hclears⟩ := resolve_clears hs hcol hr (skipScan 0 n.val mask a.src.buffers.items).2.2
  obtain ⟨s, hskip, hbehind⟩ := resolve_skipping hs n.val mask hres
  have hread := (hbehind.read r.2).trans (read_written hres hcol hr r.2)
  refine ⟨(s, r.2), hskip, ?_, fun o ho e => ?_⟩
  · have hincluded : ((s.read r.2).drop (s.origin r.2)).filterMap Outcome.included? =
        ((retain r.2 column).flatten.drop (s.origin r.2)).filterMap a.value := by
      rw [hread, ← List.map_drop, List.filterMap_map]
      exact congrArg (fun f => List.filterMap f _) (funext a.included_slot)
    refine hincluded.trans ?_
    rcases hcol.skips mask n.lt with ⟨j, k, hscan, hends⟩ | ⟨k, hscan, hnil⟩
    · rw [hscan] at hclears hbehind
      have hbound := hends.bound
      have horigin : s.origin r.2 = if r.2.Includes j then k else 0 := by
        rw [hbehind.origin, saturatingAdd_zero (by split <;> omega)]
        rfl
      rw [horigin]
      exact hends.filterMap_eq hclears.length hclears.sub hclears.lost
    · rw [hscan] at hclears
      have hnone : retain r.2 column = [] := by
        refine Retain.eq_nil fun i hi hi' => ?_
        have hle := (Mask.clear_includes.mp (hclears.sub i hi')).2
        omega
      rw [hnil, hnone, List.flatten_nil, List.drop_nil]
  · have ho : o ∈ s.read r.2 := ho
    rw [hread] at ho
    obtain ⟨x, -, rfl⟩ := List.mem_map.mp ho
    exact a.slot_ne_error x e

end Adapter

section
attribute [local instance] documented documented_lawful

/-- Behind the first four of five optional bytes, the present ones from two on. -/
theorem Adapter.read_skipping_present : ∃ (src : Src) (r : _), src.mmap = Bytes.zeros 8 ++ [0, 1, 2] ++ Bytes.zeros 5 ++ [3] ∧
    ((presentBytes src).skipping 4).resolve [true, true] = .ok r ∧
      ((r.1.read r.2).drop (r.1.origin r.2)).filterMap Outcome.included? = [byteAfter 2] := by
  obtain ⟨src, hmmap, hsafe, hcol⟩ := presentBytes_column
  obtain ⟨r, hr, hread, -⟩ :=
    (presentBytes src).read_skipping hsafe hcol (fun _ _ => rfl) [true, true] (U64.clamp 4)
  exact ⟨src, r, hmmap, hr, hread⟩

end
end Msca
