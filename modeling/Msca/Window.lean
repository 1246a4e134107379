import Msca.Combine

/-! Positional windows. A skip clears the buffers it covers and remembers how far it reaches into the next
one; a take counts from there and clears the buffers past its end. -/
namespace Msca
set_option autoImplicit false
open Checked

/-! ## Rows -/

namespace Src

/-- The rows of the included buffers, each with its buffer and its position there. -/
def rowsFrom : Nat → Mask → List Manifest.Buffer → List (Nat × Nat)
  | i, bit :: mask, buf :: buffers =>
    (if bit then (List.range buf.count).map fun k => (i, k) else []) ++ rowsFrom (i + 1) mask buffers
  | _, _, _ => []

def rows (src : Src) (mask : Mask) : List (Nat × Nat) := rowsFrom 0 mask src.buffers.items

/-- The position of row `n` in its buffer. -/
def residual (src : Src) (mask : Mask) (n : Nat) : Nat := ((src.rows mask)[n]?.map Prod.snd).getD 0

theorem le_of_mem_rowsFrom {i : Nat} {mask : Mask} {buffers : List Manifest.Buffer} {row : Nat × Nat}
    (h : row ∈ rowsFrom i mask buffers) : i ≤ row.1 := by
  induction mask generalizing i buffers with
  | nil => cases h
  | cons bit mask ih =>
    cases buffers with
    | nil => cases h
    | cons buf buffers =>
      rcases List.mem_append.mp h with h | h
      · cases bit with
        | false => cases h
        | true =>
          obtain ⟨k, -, rfl⟩ := List.mem_map.mp h
          exact Nat.le_refl i
      · exact Nat.le_of_succ_le (ih h)

end Src

/-! ## The scan of a skip -/

/-- The mask without its first `n` buffers. -/
def Mask.clear : Nat → Mask → Mask
  | 0, mask => mask
  | _ + 1, [] => []
  | n + 1, _ :: mask => false :: clear n mask

theorem Mask.clear_length (n : Nat) (mask : Mask) : (mask.clear n).length = mask.length := by
  induction n generalizing mask with
  | zero => rfl
  | succ n ih =>
    cases mask with
    | nil => rfl
    | cons bit mask => rw [clear, List.length_cons, List.length_cons, ih]

theorem Mask.clear_includes {n : Nat} {mask : Mask} {k : Nat} : (mask.clear n).Includes k ↔ mask.Includes k ∧ n ≤ k := by
  induction n generalizing mask k with
  | zero => simp [clear]
  | succ n ih =>
    cases mask with
    | nil => simp [clear, Includes]
    | cons bit mask =>
      cases k with
      | zero => simp [clear, Includes]
      | succ k =>
        have hk : Includes (clear n mask) k ↔ Includes mask k ∧ n ≤ k := ih
        simp only [Includes, clear, List.getElem?_cons_succ] at hk ⊢
        rw [hk, Nat.add_le_add_iff_right]

/-- The mask without the buffers from the `n`th on. -/
def Mask.truncate (n : Nat) (mask : Mask) : Mask := mask.take n ++ (mask.drop n).map fun _ => false

theorem Mask.truncate_includes {n : Nat} {mask : Mask} {k : Nat} :
    (mask.truncate n).Includes k ↔ mask.Includes k ∧ k < n := by
  unfold Includes truncate
  by_cases hk : k < n
  · rw [List.getElem?_append]
    by_cases hlen : k < mask.length
    · rw [if_pos (by rw [List.length_take]; omega), List.getElem?_take, if_pos hk]
      simp [hk]
    · have hnone : mask[k]? = none := List.getElem?_eq_none (by omega)
      rw [if_neg (by rw [List.length_take]; omega), List.drop_eq_nil_of_le (by omega), hnone]
      simp
  · have hnot : ¬ (mask.take n ++ (mask.drop n).map fun _ => false)[k]? = some true := by
      rw [List.getElem?_append_right (by rw [List.length_take]; omega), List.getElem?_map]
      cases (mask.drop n)[k - (mask.take n).length]? <;> simp
    simp only [hnot, hk, and_false]

open Src Adapter

/-- Where a skip of `n` rows ends: row `r` of buffer `j`. -/
structure Located (i n : Nat) (mask : Mask) (buffers : List Manifest.Buffer) (j r : Nat) : Prop where
  le : i ≤ j
  residual_le : r ≤ n
  included : mask.Includes (j - i)
  scan : skipScan i n mask buffers = (some j, r, mask.clear (j - i))
  drop : rowsFrom i (mask.clear (j - i)) buffers = (rowsFrom i mask buffers).drop (n - r)
  block : ∃ buf post, buffers[j - i]? = some buf ∧ r < buf.count ∧
    rowsFrom i (mask.clear (j - i)) buffers = ((List.range buf.count).map fun k => (j, k)) ++ post ∧
      ∀ row ∈ post, j < row.1

theorem skipScan_none {i n : Nat} {mask : Mask} {buffers : List Manifest.Buffer}
    (h : (rowsFrom i mask buffers).length ≤ n) :
    skipScan i n mask buffers = (none, n - (rowsFrom i mask buffers).length, mask.clear buffers.length) ∧
      rowsFrom i (mask.clear buffers.length) buffers = [] := by
  induction mask generalizing i n buffers with
  | nil => cases buffers <;> exact ⟨rfl, rfl⟩
  | cons bit mask ih =>
    cases buffers with
    | nil => cases bit <;> exact ⟨rfl, rfl⟩
    | cons buf buffers =>
      cases bit with
      | false =>
        obtain ⟨hscan, hrows⟩ := ih (i := i + 1) (n := n) h
        refine ⟨?_, hrows⟩
        rw [skipScan, hscan]
        rfl
      | true =>
        simp only [rowsFrom, if_pos, List.length_append, List.length_map, List.length_range] at h
        have hrest : (rowsFrom (i + 1) mask buffers).length ≤ n - buf.count := by omega
        obtain ⟨hscan, hrows⟩ := ih hrest
        refine ⟨?_, hrows⟩
        have hsub : Checked.sub n buf.count = some (n - buf.count) := if_pos (by omega)
        rw [skipScan, hsub]
        simp only [hscan, rowsFrom, if_pos, List.length_append, List.length_map, List.length_range, Nat.sub_sub]
        rfl

theorem Located.shift {i m : Nat} {bit : Bool} {mask : Mask} {buf : Manifest.Buffer} {buffers : List Manifest.Buffer}
    {j r : Nat} {pre : List (Nat × Nat)} (h : Located (i + 1) m mask buffers j r)
    (hrows : rowsFrom i (bit :: mask) (buf :: buffers) = pre ++ rowsFrom (i + 1) mask buffers)
    (hscan : skipScan i (pre.length + m) (bit :: mask) (buf :: buffers) =
      ((skipScan (i + 1) m mask buffers).1, (skipScan (i + 1) m mask buffers).2.1,
        false :: (skipScan (i + 1) m mask buffers).2.2)) :
    Located i (pre.length + m) (bit :: mask) (buf :: buffers) j r := by
  have hle := h.le
  have hres := h.residual_le
  obtain ⟨k, hk⟩ : ∃ k, j - (i + 1) = k := ⟨_, rfl⟩
  have hk' : j - i = k + 1 := by omega
  obtain ⟨buf', post, hbuf, hlt, heq, hpost⟩ := h.block
  have hin := h.included
  have hdrop := h.drop
  rw [h.scan, hk] at hscan
  rw [hk] at hbuf heq hin hdrop
  refine ⟨by omega, by omega, ?_, ?_, ?_, buf', post, ?_, hlt, ?_, hpost⟩
  · rw [hk']
    exact hin
  · rw [hk', hscan]
    rfl
  · rw [hk', hrows, List.drop_append, List.drop_eq_nil_of_le (by omega), List.nil_append]
    have hsub : pre.length + m - r - pre.length = m - r := by omega
    rw [hsub]
    exact hdrop
  · rw [hk']
    exact hbuf
  · rw [hk']
    exact heq

theorem located {i n : Nat} {mask : Mask} {buffers : List Manifest.Buffer} {j r : Nat}
    (h : (rowsFrom i mask buffers)[n]? = some (j, r)) : Located i n mask buffers j r := by
  induction mask generalizing i n buffers with
  | nil => cases h
  | cons bit mask ih =>
    cases buffers with
    | nil => cases h
    | cons buf buffers =>
      cases bit with
      | false =>
        have hrow : Located i (([] : List (Nat × Nat)).length + n) (false :: mask) (buf :: buffers) j r :=
          (ih h).shift rfl (by simp [skipScan])
        rwa [List.length_nil, Nat.zero_add] at hrow
      | true =>
        have hlen : ((List.range buf.count).map fun k => (i, k)).length = buf.count := by simp
        have hrows : rowsFrom i (true :: mask) (buf :: buffers) =
            ((List.range buf.count).map fun k => (i, k)) ++ rowsFrom (i + 1) mask buffers := rfl
        by_cases hn : n < buf.count
        · have hget : (rowsFrom i (true :: mask) (buf :: buffers))[n]? = some (i, n) := by
            rw [hrows, List.getElem?_append_left (by rw [hlen]; exact hn)]
            simp [hn]
          obtain ⟨hi, hr⟩ := Prod.mk.inj (Option.some.inj (hget.symm.trans h))
          rw [← hi, ← hr]
          have hsub : Checked.sub n buf.count = none := if_neg (by omega)
          refine ⟨Nat.le_refl i, Nat.le_refl n, ?_, ?_, ?_, buf, rowsFrom (i + 1) mask buffers, ?_, hn, ?_, ?_⟩
          · rw [Nat.sub_self]
            rfl
          · rw [skipScan, hsub, Nat.sub_self]
            rfl
          · rw [Nat.sub_self, Nat.sub_self]
            rfl
          · rw [Nat.sub_self]
            rfl
          · rw [Nat.sub_self]
            exact hrows
          · intro row hrow
            exact le_of_mem_rowsFrom hrow
        · obtain ⟨m, hm⟩ : ∃ m, n = buf.count + m := ⟨n - buf.count, by omega⟩
          rw [hrows, List.getElem?_append_right (by omega), hlen, hm, Nat.add_sub_cancel_left] at h
          have hsub : Checked.sub (buf.count + m) buf.count = some m := by
            rw [Checked.sub, if_pos (by omega), Nat.add_sub_cancel_left]
          have hrow := (ih h).shift hrows (by rw [hlen, skipScan, hsub])
          rwa [hlen, ← hm] at hrow

/-! ## Skips over a column -/

namespace Adapter

/-- The rows a resolved chain selects. -/
def selected {t : Item} (a : Adapter .iter t) (mask : Mask) : List (Nat × Nat) := (a.src.rows mask).drop (a.origin mask)

theorem selected_nil {t : Item} {a : Adapter .iter t} {mask : Mask} (h : a.src.rows mask = []) : a.selected mask = [] := by
  rw [selected, h, List.drop_nil]

theorem resolve_skip {t : Item} {a : Adapter .mask t} {mask : Mask} {s : Adapter .iter t × Mask}
    (hs : a.resolve mask = .ok s) (n : Nat) :
    (Adapter.skip a n).resolve mask = .ok
      (.skip s.1 ⟨(skipScan 0 n s.2 s.1.src.buffers.items).1.getD s.2.length, (skipScan 0 n s.2 s.1.src.buffers.items).2.1⟩,
        (skipScan 0 n s.2 s.1.src.buffers.items).2.2) := by
  rw [resolve, hs, ok_bind]
  rfl

theorem saturatingAdd_of_lt {a b : Nat} (h : a + b < 2 ^ 64) : saturatingAdd a b = a + b := by
  rw [saturatingAdd]
  omega

theorem saturatingAdd_zero {a : Nat} (h : a < 2 ^ 64) : saturatingAdd 0 a = a := by
  rw [saturatingAdd_of_lt (by omega), Nat.zero_add]

theorem resolve_skip_some {t : Item} {a : Adapter .mask t} {mask : Mask} {s : Adapter .iter t × Mask}
    (hs : a.resolve mask = .ok s) {n j r : Nat} (h : (s.1.src.rows s.2)[n]? = some (j, r)) :
    (Adapter.skip a n).resolve mask = .ok (.skip s.1 ⟨j, r⟩, s.2.clear j) := by
  rw [resolve_skip hs, (located h).scan]
  rfl

theorem resolve_skip_none {t : Item} {a : Adapter .mask t} {mask : Mask} {s : Adapter .iter t × Mask}
    (hs : a.resolve mask = .ok s) {n : Nat} (h : (s.1.src.rows s.2).length ≤ n) :
    (Adapter.skip a n).resolve mask = .ok
      (.skip s.1 ⟨s.2.length, n - (s.1.src.rows s.2).length⟩, s.2.clear s.1.src.buffers.items.length) := by
  rw [resolve_skip hs, (skipScan_none h).1]
  rfl

theorem origin_skip {t : Item} (a : Adapter .iter t) (mask : Mask) (j r : Nat) :
    (Adapter.skip a ⟨j, r⟩).origin mask = saturatingAdd (a.origin mask) (if mask.Includes j then r else 0) := by
  rw [origin]
  congr 1
  by_cases h : mask.Includes j
  · rw [if_pos h, show mask[j]? = some true from h]
    rfl
  · have hget : mask[j]?.getD false = false := by
      rcases hm : mask[j]? with _ | (_ | _)
      · rfl
      · rfl
      · exact absurd hm h
    rw [if_neg h, hget]
    rfl

/-- One skip over a column selects what is left after the rows it skips. -/
theorem skip_column (src : Src) (t : Item) (h : t.decodable = true) (mask : Mask) {n : Nat} (hn : n < 2 ^ 64) :
    ∃ s, (Adapter.skip (.column src t h) n).resolve mask = .ok s ∧ s.1.selected s.2 = (src.rows mask).drop n ∧
      s.1.origin s.2 = src.residual mask n ∧
        ∀ l, s.2.Includes l → s.1.origin (s.2.truncate (l + 1)) = s.1.origin s.2 := by
  have hcol : (Adapter.column src t h : Adapter .mask t).resolve mask = .ok (.column src t h, mask) := rfl
  rcases hrow : (src.rows mask)[n]? with _ | ⟨j, r⟩
  · have hlen := List.getElem?_eq_none_iff.mp hrow
    have hres : src.residual mask n = 0 := by rw [Src.residual, hrow]; rfl
    have hnot : ¬ (mask.clear src.buffers.items.length).Includes mask.length := by
      intro hin
      have hlt := hin.lt
      rw [Mask.clear_length] at hlt
      omega
    have horigin : ∀ mask' : Mask, ¬ mask'.Includes mask.length → ∀ k,
        origin (.skip (.column src t h) ⟨mask.length, k⟩) mask' = 0 := by
      intro mask' hnot k
      rw [origin_skip, if_neg hnot]
      rfl
    refine ⟨_, resolve_skip_none hcol hlen, ?_, (horigin _ hnot _).trans hres.symm, fun l _ => ?_⟩
    · rw [selected_nil, List.drop_eq_nil_of_le hlen]
      exact (skipScan_none hlen).2
    · exact (horigin _ (fun hin => hnot (Mask.truncate_includes.mp hin).1) _).trans (horigin _ hnot _).symm
  · have hloc := located hrow
    have hle := hloc.residual_le
    have hres : src.residual mask n = r := by rw [Src.residual, hrow]; rfl
    have hdrop : src.rows (mask.clear j) = (src.rows mask).drop (n - r) := hloc.drop
    have hin : (mask.clear j).Includes j := Mask.clear_includes.mpr ⟨hloc.included, Nat.le_refl j⟩
    have horigin : ∀ mask' : Mask, mask'.Includes j → origin (.skip (.column src t h) ⟨j, r⟩) mask' = r := by
      intro mask' hin
      rw [origin_skip, if_pos hin, origin, saturatingAdd_zero (by omega)]
    refine ⟨_, resolve_skip_some hcol hrow, ?_, (horigin _ hin).trans hres.symm, fun l hl => ?_⟩
    · show (src.rows (mask.clear j)).drop (origin (.skip (.column src t h) ⟨j, r⟩) (mask.clear j)) = _
      rw [horigin _ hin, hdrop, List.drop_drop]
      congr 1
      omega
    · have hle : j ≤ l := (Mask.clear_includes.mp hl).2
      exact (horigin _ (Mask.truncate_includes.mpr ⟨hin, by omega⟩)).trans (horigin _ hin).symm

end Adapter

/-! ## Chained skips -/

/-- The rows of the `j`th buffer. -/
def Src.count (src : Src) (j : Nat) : Nat := (src.buffers.items[j]?.map Manifest.Buffer.count).getD 0

theorem Located.next {n j r : Nat} {mask : Mask} {src : Src} (h : Located 0 n mask src.buffers.items j r) (d : Nat) :
    (d < src.count j ∧ (src.rows mask)[n - r + d]? = some (j, d)) ∨
      (src.count j ≤ d ∧ ∀ row, (src.rows mask)[n - r + d]? = some row → j < row.1) := by
  obtain ⟨buf, post, hbuf, -, hrows, hpost⟩ := h.block
  have hcount : src.count j = buf.count := by
    rw [Src.count]
    rw [Nat.sub_zero] at hbuf
    rw [hbuf]
    rfl
  have hget : (src.rows mask)[n - r + d]? = (((List.range buf.count).map fun k => (j, k)) ++ post)[d]? := by
    have hdrop := h.drop
    rw [hrows] at hdrop
    rw [hdrop, List.getElem?_drop]
    rfl
  have hlen : ((List.range buf.count).map fun k => (j, k)).length = buf.count := by simp
  rw [hcount, hget]
  by_cases hd : d < buf.count
  · refine Or.inl ⟨hd, ?_⟩
    rw [List.getElem?_append_left (by rw [hlen]; exact hd)]
    simp [hd]
  · refine Or.inr ⟨by omega, fun row hrow => ?_⟩
    rw [List.getElem?_append_right (by omega)] at hrow
    exact hpost row (List.mem_of_getElem? hrow)

namespace Adapter

/-- What two skips over a column select. -/
theorem skip_skip (src : Src) (t : Item) (h : t.decodable = true) (mask : Mask) {a b : Nat} (hab : a + b < 2 ^ 64) :
    ∃ r, (Adapter.skip (.skip (.column src t h) a) b).resolve mask = .ok r ∧
      (r.1.selected r.2 = (src.rows mask).drop (a + b) ↔ ∀ j k, (src.rows mask)[a]? = some (j, k) →
        k = 0 ∨ b < src.count j ∨ (src.rows mask).length ≤ a - k + b) := by
  have hcol : (Adapter.column src t h : Adapter .mask t).resolve mask = .ok (.column src t h, mask) := rfl
  rcases hrow : (src.rows mask)[a]? with _ | ⟨j, k⟩
  · have hlen := List.getElem?_eq_none_iff.mp hrow
    have hnil : src.rows (mask.clear src.buffers.items.length) = [] := (skipScan_none hlen).2
    have hshort : (src.rows (mask.clear src.buffers.items.length)).length ≤ b := by simp [hnil]
    refine ⟨_, resolve_skip_none (resolve_skip_none hcol hlen) hshort, ?_⟩
    rw [selected_nil, List.drop_eq_nil_of_le (by omega)]
    · simp
    · exact (skipScan_none hshort).2
  · have hloc := located hrow
    have hle := hloc.residual_le
    have hdrop : src.rows (mask.clear j) = (src.rows mask).drop (a - k) := hloc.drop
    have hinner := resolve_skip_some hcol hrow
    rcases hrow' : (src.rows (mask.clear j))[b]? with _ | ⟨j', k'⟩
    · have hlen := List.getElem?_eq_none_iff.mp hrow'
      refine ⟨_, resolve_skip_none hinner hlen, ?_⟩
      have hnil := (skipScan_none hlen).2
      rw [hdrop, List.length_drop] at hlen
      rw [selected_nil, List.drop_eq_nil_of_le (by omega)]
      · constructor
        · rintro - j k hjk
          cases hjk
          exact Or.inr (Or.inr (by omega))
        · exact fun _ => rfl
      · exact hnil
    · have hloc' := located hrow'
      have hle' := hloc'.residual_le
      have hin' := (Mask.clear_includes.mp hloc'.included).2
      have hdrop' : src.rows ((mask.clear j).clear j') = (src.rows (mask.clear j)).drop (b - k') := hloc'.drop
      refine ⟨_, resolve_skip_some hinner hrow', ?_⟩
      show (src.rows ((mask.clear j).clear j')).drop (origin (.skip (.skip (.column src t h) ⟨j, k⟩) ⟨j', k'⟩)
        ((mask.clear j).clear j')) = _ ↔ _
      have hout : ((mask.clear j).clear j').Includes j' := Mask.clear_includes.mpr ⟨hloc'.included, Nat.le_refl j'⟩
      have hlt := (List.getElem?_eq_some_iff.mp hrow').1
      rw [hdrop, List.length_drop] at hlt
      rw [hdrop, List.getElem?_drop] at hrow'
      rw [origin_skip, origin_skip, if_pos hout, origin, hdrop', hdrop, List.drop_drop, List.drop_drop]
      rcases hloc.next b with ⟨hb, hget⟩ | ⟨hb, hget⟩
      · -- the outer skip ends in the buffer of the inner one, whose residual still counts
        rw [hget] at hrow'
        cases hrow'
        rw [if_pos hout, saturatingAdd_zero (by omega), saturatingAdd_of_lt (by omega)]
        have hsum : a - k + (b - b + (k + b)) = a + b := by omega
        rw [hsum]
        constructor
        · rintro - i l hil
          cases hil
          exact Or.inr (Or.inl hb)
        · exact fun _ => rfl
      · -- the outer skip ends in a later buffer, and the residual of the inner one is lost
        have hj : j < j' := hget _ hrow'
        have hnot : ¬ ((mask.clear j).clear j').Includes j := by
          intro hin
          have hge := (Mask.clear_includes.mp hin).2
          omega
        rw [if_neg hnot, saturatingAdd_zero (by omega), saturatingAdd_zero (by omega)]
        have hsum : a - k + (b - k' + k') = a - k + b := by omega
        rw [hsum]
        constructor
        · intro heq i l hil
          cases hil
          have hlen := congrArg List.length heq
          rw [List.length_drop, List.length_drop] at hlen
          exact Or.inl (by omega)
        · intro hcond
          rcases hcond j k rfl with hk | hk | hk
          · rw [hk, Nat.sub_zero]
          · omega
          · omega

/-- Two skips select the rows of one skip over both distances when and only when the inner one ends between two
buffers or past all rows, or the outer one ends in the buffer where the inner one did or past all rows. -/
theorem skips_add_iff (src : Src) (t : Item) (h : t.decodable = true) (mask : Mask) (a b : Nat) (hab : a + b < 2 ^ 64) :
    ∃ r s, (Adapter.skip (.skip (.column src t h) a) b).resolve mask = .ok r ∧
      (Adapter.skip (.column src t h) (a + b)).resolve mask = .ok s ∧
        (r.1.selected r.2 = s.1.selected s.2 ↔ ∀ j k, (src.rows mask)[a]? = some (j, k) →
          k = 0 ∨ b < src.count j ∨ (src.rows mask).length ≤ a - k + b) := by
  obtain ⟨r, hr, hiff⟩ := skip_skip src t h mask hab
  obtain ⟨s, hs, hsel, -⟩ := skip_column src t h mask hab
  exact ⟨r, s, hr, hs, by rw [hsel, hiff]⟩

theorem skips_add_iff_segmented : ∃ r s,
    (Adapter.skip (.skip (wordColumn (segmented 1 2 3)) 1) 4).resolve [true, true, true] = .ok r ∧
      (Adapter.skip (wordColumn (segmented 1 2 3)) 5).resolve [true, true, true] = .ok s ∧
        (r.1.selected r.2 = s.1.selected s.2 ↔ ∀ j k, ((segmented 1 2 3).rows [true, true, true])[1]? = some (j, k) →
          k = 0 ∨ 4 < (segmented 1 2 3).count j ∨ ((segmented 1 2 3).rows [true, true, true]).length ≤ 1 - k + 4) :=
  skips_add_iff (segmented 1 2 3) _ rfl [true, true, true] 1 4 (by decide)

/-- Over buffers of two rows, a skip of two after a skip of one is a skip of two. -/
theorem skips_lose_residual : ∃ r s,
    (Adapter.skip (.skip (wordColumn (segmented 1 2 3)) 1) 2).resolve [true, true, true] = .ok r ∧
      (Adapter.skip (wordColumn (segmented 1 2 3)) (1 + 2)).resolve [true, true, true] = .ok s ∧
        r.1.selected r.2 = [(1, 0), (1, 1), (2, 0), (2, 1)] ∧ s.1.selected s.2 = [(1, 1), (2, 0), (2, 1)] :=
  ⟨_, _, rfl, rfl, by decide, by decide⟩

end Adapter

/-! ## Takes -/

/-- `mask::Take`. -/
structure Mask.Take (t : Item) where
  source : Adapter .mask t
  take : Nat

/-- `iter::Take`. -/
structure Iter.Take (t : Item) where
  source : Adapter .iter t
  limit : Nat
  keep : Nat

/-- `split_at_mut`, which panics beyond the end. -/
def Mask.splitAt (n : Nat) (mask : Mask) : Res (Mask × Mask) :=
  if n ≤ mask.length then .ok (mask.take n, mask.drop n) else .error .panic

/-- The scan of `Take::resolve`: the buffer it stops on and what is left to take there. -/
def takeScan : Nat → Nat → Mask → List Manifest.Buffer → Option Nat × Nat
  | i, n, true :: mask, buf :: buffers =>
    match (Checked.sub n buf.count).filter fun n => 0 < n with
    | some n => takeScan (i + 1) n mask buffers
    | none => (some i, n)
  | i, n, false :: mask, _ :: buffers => takeScan (i + 1) n mask buffers
  | _, n, _, _ => (none, n)

/-- `Resolve for Take`. -/
def Mask.Take.resolve {t : Item} (a : Mask.Take t) (mask : Mask) : Res (Iter.Take t × Mask) := do
  let source ← a.source.resolve mask
  let origin := source.1.origin source.2
  let found := takeScan 0 (saturatingAdd a.take origin) source.2 source.1.src.buffers.items
  match found.1 with
  | some i =>
    let halves ← source.2.splitAt (i + 1)
    return (⟨source.1, i, found.2⟩, halves.1 ++ halves.2.map fun _ => false)
  | none => return (⟨source.1, source.2.length, found.2⟩, source.2)

/-- The rows of a resolved window: `keep` rows of buffer `limit`, nothing after it, and none before the origin. -/
def Iter.Take.window {t : Item} (a : Iter.Take t) (mask : Mask) : List (Nat × Nat) :=
  ((a.source.src.rows mask).filter fun row => row.1 < a.limit || row.1 == a.limit && row.2 < a.keep).drop
    (a.source.origin mask)

theorem rowsFrom_lt {i : Nat} {mask : Mask} {buffers : List Manifest.Buffer} {row : Nat × Nat}
    (h : row ∈ rowsFrom i mask buffers) : row.1 < i + mask.length := by
  induction mask generalizing i buffers with
  | nil => cases h
  | cons bit mask ih =>
    cases buffers with
    | nil => cases h
    | cons buf buffers =>
      rw [List.length_cons]
      rcases List.mem_append.mp h with h | h
      · cases bit with
        | false => cases h
        | true =>
          obtain ⟨k, -, rfl⟩ := List.mem_map.mp h
          show i < i + (mask.length + 1)
          omega
      · have hlt := ih h
        omega

theorem takeScan_filter {i n : Nat} {mask : Mask} {buffers : List Manifest.Buffer} {limit keep : Nat}
    (h : takeScan i n mask buffers = (some limit, keep)) : i ≤ limit ∧ mask.Includes (limit - i) ∧
      (rowsFrom i mask buffers).filter (fun row => row.1 < limit || row.1 == limit && row.2 < keep) =
        (rowsFrom i mask buffers).take n := by
  induction mask generalizing i n buffers with
  | nil => cases h
  | cons bit mask ih =>
    cases buffers with
    | nil => cases bit <;> cases h
    | cons buf buffers =>
      cases bit with
      | false =>
        obtain ⟨hle, hin, hrows⟩ := ih h
        refine ⟨by omega, ?_, hrows⟩
        rw [show limit - i = limit - (i + 1) + 1 by omega]
        exact hin
      | true =>
        have hlen : ((List.range buf.count).map fun k => (i, k)).length = buf.count := by simp
        have hrows : rowsFrom i (true :: mask) (buf :: buffers) =
            ((List.range buf.count).map fun k => (i, k)) ++ rowsFrom (i + 1) mask buffers := rfl
        rw [hrows, List.filter_append, List.take_append, hlen]
        by_cases hn : buf.count < n
        · have hsub : (Checked.sub n buf.count).filter (fun n => 0 < n) = some (n - buf.count) := by
            rw [Checked.sub, if_pos (by omega), Option.filter_some_pos]
            simp; omega
          rw [takeScan, hsub] at h
          obtain ⟨hle, hin, hrest⟩ := ih h
          have hnext : Mask.Includes mask (limit - (i + 1)) → Mask.Includes (true :: mask) (limit - i) := by
            rw [show limit - i = limit - (i + 1) + 1 by omega]
            exact id
          refine ⟨by omega, hnext hin, ?_⟩
          have hblock : ((List.range buf.count).map fun k => (i, k)).filter
              (fun row => row.1 < limit || row.1 == limit && row.2 < keep) = (List.range buf.count).map fun k => (i, k) := by
            refine List.filter_eq_self.mpr fun row hrow => ?_
            obtain ⟨k, -, rfl⟩ := List.mem_map.mp hrow
            have hlt : i < limit := hle
            simp [hlt]
          have htake : ((List.range buf.count).map fun k => (i, k)).take n = (List.range buf.count).map fun k => (i, k) :=
            List.take_of_length_le (by rw [hlen]; omega)
          rw [hblock, hrest, htake]
        · have hsub : (Checked.sub n buf.count).filter (fun n => 0 < n) = none := by
            rw [Checked.sub]
            split
            · rw [Option.filter_some_neg]
              simp; omega
            · rfl
          rw [takeScan, hsub] at h
          obtain ⟨hlimit, rfl⟩ := Prod.mk.inj h
          obtain rfl := Option.some.inj hlimit
          refine ⟨Nat.le_refl i, by rw [Nat.sub_self]; rfl, ?_⟩
          have htail : (rowsFrom (i + 1) mask buffers).filter (fun row => row.1 < i || row.1 == i && row.2 < n) = [] := by
            refine List.filter_eq_nil_iff.mpr fun row hrow => ?_
            have hge := le_of_mem_rowsFrom hrow
            have hne : ¬ row.1 < i ∧ row.1 ≠ i := ⟨by omega, by omega⟩
            simp [hne.1, hne.2]
          obtain ⟨d, hd⟩ : ∃ d, buf.count = n + d := ⟨buf.count - n, by omega⟩
          have hblock : ((List.range buf.count).map fun k => (i, k)).filter (fun row => row.1 < i || row.1 == i && row.2 < n) =
              (List.range n).map fun k => (i, k) := by
            rw [hd, List.range_add, List.map_append, List.filter_append, List.filter_eq_self.mpr, List.filter_eq_nil_iff.mpr,
              List.append_nil]
            · simp
            · simp
          rw [htail, hblock, List.append_nil, show n - buf.count = 0 by omega, List.take_zero, List.append_nil,
            ← List.map_take, List.take_range, Nat.min_eq_left (by omega)]

theorem takeScan_none {i n rest : Nat} {mask : Mask} {buffers : List Manifest.Buffer}
    (h : takeScan i n mask buffers = (none, rest)) : (rowsFrom i mask buffers).length ≤ n := by
  induction mask generalizing i n buffers with
  | nil => exact Nat.zero_le n
  | cons bit mask ih =>
    cases buffers with
    | nil => exact Nat.zero_le n
    | cons buf buffers =>
      cases bit with
      | false => exact ih h
      | true =>
        rw [takeScan] at h
        cases hsub : (Checked.sub n buf.count).filter fun n => 0 < n with
        | none =>
          rw [hsub] at h
          cases h
        | some m =>
          rw [hsub] at h
          obtain ⟨hm, -⟩ := Option.filter_eq_some_iff.mp hsub
          obtain ⟨hle, rfl⟩ := guarded_eq_some.mp hm
          have hrest := ih h
          simp only [rowsFrom, if_pos, List.length_append, List.length_map, List.length_range]
          omega

theorem rowsFrom_false (i : Nat) (mask : Mask) (buffers : List Manifest.Buffer) :
    rowsFrom i (mask.map fun _ => false) buffers = [] := by
  induction mask generalizing i buffers with
  | nil => rfl
  | cons bit mask ih =>
    cases buffers with
    | nil => rfl
    | cons buf buffers => exact ih (i + 1) buffers

theorem rowsFrom_truncate (i l : Nat) (mask : Mask) (buffers : List Manifest.Buffer) :
    rowsFrom i (mask.truncate l) buffers = (rowsFrom i mask buffers).filter fun row => row.1 < i + l := by
  unfold Mask.truncate
  induction l generalizing i mask buffers with
  | zero =>
    rw [List.take_zero, List.drop_zero, List.nil_append, rowsFrom_false]
    refine (List.filter_eq_nil_iff.mpr fun row hrow => ?_).symm
    have hge := le_of_mem_rowsFrom hrow
    simp; omega
  | succ l ih =>
    cases mask with
    | nil => rfl
    | cons bit mask =>
      cases buffers with
      | nil => rfl
      | cons buf buffers =>
        have hrest := ih (i + 1) mask buffers
        rw [List.take_succ_cons, List.drop_succ_cons, List.cons_append, rowsFrom, rowsFrom, hrest, List.filter_append]
        congr 1
        · refine (List.filter_eq_self.mpr fun row hrow => ?_).symm
          cases bit with
          | false => cases hrow
          | true =>
            obtain ⟨k, -, rfl⟩ := List.mem_map.mp hrow
            simp
        · congr 1
          funext row
          rw [Nat.add_right_comm, Nat.add_assoc]

/-- A take keeps the first rows of what its source selects. The take is counted from the start of the anchor, and
the sum with the origin saturates. -/
theorem resolve_take {t : Item} {a : Adapter .mask t} {mask : Mask} {s : Adapter .iter t × Mask}
    (hs : a.resolve mask = .ok s) (m : Nat)
    (horigin : ∀ l, s.2.Includes l → s.1.origin (s.2.truncate (l + 1)) = s.1.origin s.2) :
    ∃ r, (Mask.Take.mk a m).resolve mask = .ok r ∧
      r.1.window r.2 = (s.1.selected s.2).take (saturatingAdd m (s.1.origin s.2) - s.1.origin s.2) := by
  rcases hscan : takeScan 0 (saturatingAdd m (s.1.origin s.2)) s.2 s.1.src.buffers.items with ⟨_ | limit, keep⟩
  · have hlen := takeScan_none hscan
    refine ⟨(⟨s.1, s.2.length, keep⟩, s.2), ?_, ?_⟩
    · rw [Mask.Take.resolve, hs, ok_bind]
      simp only [hscan]
      rfl
    · have hall : (s.1.src.rows s.2).filter (fun row => row.1 < s.2.length || row.1 == s.2.length && row.2 < keep) =
          s.1.src.rows s.2 := by
        refine List.filter_eq_self.mpr fun row hrow => ?_
        have hlt := rowsFrom_lt hrow
        rw [Nat.zero_add] at hlt
        simp [hlt]
      show (List.filter _ (s.1.src.rows s.2)).drop (s.1.origin s.2) = _
      rw [hall, Adapter.selected, List.take_of_length_le]
      rw [List.length_drop]
      exact Nat.sub_le_sub_right hlen _
  · obtain ⟨-, hin, hrows⟩ := takeScan_filter hscan
    rw [Nat.sub_zero] at hin
    have hlt := hin.lt
    have hsplit : Mask.splitAt (limit + 1) s.2 = .ok (s.2.take (limit + 1), s.2.drop (limit + 1)) := if_pos (by omega)
    refine ⟨(⟨s.1, limit, keep⟩, s.2.truncate (limit + 1)), ?_, ?_⟩
    · rw [Mask.Take.resolve, hs, ok_bind]
      simp only [hscan, hsplit, ok_bind]
      rfl
    · have hkept : (s.1.src.rows (s.2.truncate (limit + 1))).filter
          (fun row => row.1 < limit || row.1 == limit && row.2 < keep) =
            (s.1.src.rows s.2).take (saturatingAdd m (s.1.origin s.2)) := by
        rw [Src.rows, rowsFrom_truncate, List.filter_filter, Src.rows, ← hrows]
        refine List.filter_congr fun row _ => ?_
        by_cases hrow : row.1 < limit
        · simp [hrow]; omega
        · by_cases heq : row.1 = limit <;> simp [heq, hrow]
      show (List.filter _ (s.1.src.rows _)).drop (s.1.origin (s.2.truncate (limit + 1))) = _
      rw [horigin limit hin, hkept, List.drop_take]
      rfl

/-- The window of `m` rows after `n` rows of a column. The take is counted from the start of the buffer where the skip
ends, and this sum saturates, so the window falls short where it and the rows both pass the largest word. -/
theorem take_skip_window (src : Src) (t : Item) (h : t.decodable = true) (mask : Mask) (n m : U64) :
    ∃ r, (Mask.Take.mk (.skip (.column src t h) n.val) m.val).resolve mask = .ok r ∧
      r.1.window r.2 = ((src.rows mask).drop n.val).take (min m.val (2 ^ 64 - 1 - src.residual mask n.val)) ∧
        (src.residual mask n.val + m.val < 2 ^ 64 ∨ (src.rows mask).length < 2 ^ 64 →
          r.1.window r.2 = ((src.rows mask).drop n.val).take m.val) := by
  obtain ⟨s, hs, hsel, horigin, hfix⟩ := Adapter.skip_column src t h mask n.lt
  obtain ⟨r, hr, hwin⟩ := resolve_take hs m.val hfix
  have hmin : Adapter.saturatingAdd m.val (src.residual mask n.val) - src.residual mask n.val =
      min m.val (2 ^ 64 - 1 - src.residual mask n.val) := by
    rw [Adapter.saturatingAdd]
    omega
  rw [horigin, hsel, hmin] at hwin
  refine ⟨r, hr, hwin, fun hfit => ?_⟩
  rw [hwin]
  rcases hfit with hfit | hfit
  · rw [Nat.min_eq_left (by omega)]
  · have hres : src.residual mask n.val ≤ n.val := by
      unfold Src.residual
      rcases hrow : (src.rows mask)[n.val]? with _ | ⟨j, k⟩
      · exact Nat.zero_le _
      · exact (located hrow).residual_le
    by_cases hm : m.val ≤ 2 ^ 64 - 1 - src.residual mask n.val
    · rw [Nat.min_eq_left hm]
    · rw [List.take_of_length_le, List.take_of_length_le]
      · rw [List.length_drop]
        omega
      · rw [List.length_drop]
        omega

theorem take_skip_window_segmented : ∃ r,
    (Mask.Take.mk (.skip (wordColumn (segmented 1 2 3)) 3) 2).resolve [true, true, true] = .ok r ∧
      r.1.window r.2 = (((segmented 1 2 3).rows [true, true, true]).drop 3).take
          (min 2 (2 ^ 64 - 1 - (segmented 1 2 3).residual [true, true, true] 3)) ∧
        ((segmented 1 2 3).residual [true, true, true] 3 + 2 < 2 ^ 64 ∨
            ((segmented 1 2 3).rows [true, true, true]).length < 2 ^ 64 →
          r.1.window r.2 = (((segmented 1 2 3).rows [true, true, true]).drop 3).take 2) :=
  take_skip_window (segmented 1 2 3) _ rfl [true, true, true] ⟨3, by decide⟩ ⟨2, by decide⟩

theorem max_pos : 0 < U64.max.val := by decide

/-- A compact buffer of `2 ^ 64 - 1` rows and a buffer of one row. -/
def vast : Src where
  mmap := []
  buffers := ⟨[wordBuffer (U64.clamp 0) ⟨U64.max.val, max_pos, U64.max.lt⟩,
    wordBuffer (U64.clamp 4) ⟨1, Nat.succ_pos 0, Nat.one_lt_two_pow_iff.mpr (Nat.succ_ne_zero 63)⟩], by decide⟩

/-- The largest window after the first row of `2 ^ 64` rows lacks the last of them. -/
theorem take_saturates : ∃ r, (Mask.Take.mk (.skip (wordColumn vast) 1) (2 ^ 64 - 1)).resolve [true, true] = .ok r ∧
    r.1.window r.2 ≠ ((vast.rows [true, true]).drop 1).take (2 ^ 64 - 1) := by
  have hrows : vast.rows [true, true] =
      ((List.range (2 ^ 64 - 1)).map fun k => (0, k)) ++ ((List.range 1).map fun k => (1, k)) := rfl
  have hlen : (vast.rows [true, true]).length = 2 ^ 64 := by
    rw [hrows, List.length_append, List.length_map, List.length_map, List.length_range, List.length_range]
    exact Nat.sub_add_cancel (by decide)
  have hres : vast.residual [true, true] 1 = 1 := by
    rw [Src.residual, hrows, List.getElem?_append_left, List.getElem?_map, List.getElem?_range (by decide)]
    · rfl
    · rw [List.length_map, List.length_range]
      decide
  obtain ⟨s, hs, hsel, horigin, hfix⟩ := Adapter.skip_column vast (.prim (.plain (.uint .b4))) rfl [true, true] (n := 1) (by decide)
  obtain ⟨r, hr, hwin⟩ := resolve_take hs (2 ^ 64 - 1) hfix
  refine ⟨r, hr, fun heq => ?_⟩
  have hshort := congrArg List.length (hwin.symm.trans heq)
  rw [horigin, hsel, hres, List.length_take, List.length_take, List.length_drop, hlen] at hshort
  exact absurd hshort (by decide)

/-! ## Skips on both legs of a conjunct -/

theorem rowsFrom_congr {i : Nat} {mask : Mask} {buffers others : List Manifest.Buffer}
    (h : buffers.map Manifest.Buffer.count = others.map Manifest.Buffer.count) :
    rowsFrom i mask buffers = rowsFrom i mask others := by
  induction mask generalizing i buffers others with
  | nil => rfl
  | cons bit mask ih =>
    cases buffers with
    | nil =>
      cases others with
      | nil => rfl
      | cons _ _ => cases h
    | cons buf buffers =>
      cases others with
      | nil => cases h
      | cons other others =>
        obtain ⟨hcount, hrest⟩ := List.cons.inj h
        rw [rowsFrom, rowsFrom, hcount, ih hrest]

theorem clear_clear {mask : Mask} {a b n : Nat} (h : ∀ i, mask.Includes i → (a ≤ i ∧ b ≤ i ↔ n ≤ i)) :
    (mask.clear a).clear b = mask.clear n := by
  apply Mask.ext_includes
  · rw [Mask.clear_length, Mask.clear_length, Mask.clear_length]
  · intro i
    rw [Mask.clear_includes, Mask.clear_includes, Mask.clear_includes, and_assoc]
    exact and_congr_right (h i)

theorem resolve_conjunct {t u : Item} {a : Adapter .mask t} {b : Adapter .mask u} {mask : Mask}
    {p : Adapter .iter t × Mask} {q : Adapter .iter u × Mask} (hp : a.resolve mask = .ok p) (hq : b.resolve p.2 = .ok q) :
    (Tree.conjunct (.leg a) (.leg b)).resolve mask = .ok (.conjunct (.leg p.1) (.leg q.1), q.2) := by
  rw [Tree.resolve, Tree.resolve, hp, ok_bind, pure_bind, Tree.resolve, hq]
  rfl

theorem Located.lt {n j r : Nat} {mask : Mask} {buffers : List Manifest.Buffer} (h : Located 0 n mask buffers j r) :
    j < buffers.length := by
  obtain ⟨buf, -, hbuf, -⟩ := h.block
  exact (List.getElem?_eq_some_iff.mp hbuf).1

/-- The mask that two legs leave. The second skip counts from the start of the buffer where the first one ends. -/
theorem conjunct_skips {srcA srcB : Src}
    (hcounts : srcA.buffers.items.map Manifest.Buffer.count = srcB.buffers.items.map Manifest.Buffer.count)
    (t u : Item) (h : t.decodable = true) (hu : u.decodable = true) (mask : Mask) {x y n : Nat} (hn : max x y = n) :
    ∃ r, (Tree.conjunct (.leg (.skip (.column srcA t h) x)) (.leg (.skip (.column srcB u hu) y))).resolve mask = .ok r ∧
      ((srcB.rows mask).length ≤ n → r.2 = mask.clear srcB.buffers.items.length) ∧
        ∀ j k, (srcB.rows mask)[n]? = some (j, k) →
          (x - srcB.residual mask x + y < n - k + srcB.count j → r.2 = mask.clear j) ∧
            (n - k + srcB.count j ≤ x - srcB.residual mask x + y → ¬ r.2.Includes j) := by
  have hcolA : (Adapter.column srcA t h : Adapter .mask t).resolve mask = .ok (.column srcA t h, mask) := rfl
  have hcolB (mask : Mask) : (Adapter.column srcB u hu : Adapter .mask u).resolve mask = .ok (.column srcB u hu, mask) := rfl
  have hrows (mask : Mask) : srcA.rows mask = srcB.rows mask := rowsFrom_congr hcounts
  have hsize : srcA.buffers.items.length = srcB.buffers.items.length := by
    rw [← List.length_map (f := Manifest.Buffer.count), hcounts, List.length_map]
  rcases hx : (srcB.rows mask)[x]? with _ | ⟨i, l⟩
  · -- the first leg passes all rows and leaves none to the second
    have hlen := List.getElem?_eq_none_iff.mp hx
    have hA := resolve_skip_none hcolA (n := x) (by rw [Adapter.src, hrows]; exact hlen)
    have hshort : (srcB.rows (mask.clear srcA.buffers.items.length)).length ≤ y := by
      rw [hsize, Src.rows, (skipScan_none hlen).2]
      exact Nat.zero_le y
    refine ⟨_, resolve_conjunct hA (resolve_skip_none (hcolB _) hshort), fun _ => ?_, fun j k hjk => ?_⟩
    · show (mask.clear srcA.buffers.items.length).clear srcB.buffers.items.length = _
      rw [hsize]
      exact clear_clear fun i _ => and_self_iff
    · have hlt := (List.getElem?_eq_some_iff.mp hjk).1
      omega
  · have hloc := located hx
    have hle := hloc.residual_le
    have hres : srcB.residual mask x = l := by rw [Src.residual, hx]; rfl
    have hdrop : srcB.rows (mask.clear i) = (srcB.rows mask).drop (x - l) := hloc.drop
    have hA := resolve_skip_some hcolA (n := x) (by rw [Adapter.src, hrows]; exact hx)
    have hxlt := (List.getElem?_eq_some_iff.mp hx).1
    -- the second leg starts no later than the buffer where the larger skip ends
    have hstart : ∀ j k, (srcB.rows mask)[n]? = some (j, k) → n - k ≤ x - l + y := by
      intro j k hjk
      by_cases hxn : x = n
      · rw [← hxn, hx] at hjk
        cases hjk
        omega
      · omega
    have hnext : ∀ j k, (srcB.rows mask)[n]? = some (j, k) →
        (x - l + y < n - k + srcB.count j ∧ ∃ d, (srcB.rows mask)[x - l + y]? = some (j, d)) ∨
          (n - k + srcB.count j ≤ x - l + y ∧ ∀ row, (srcB.rows mask)[x - l + y]? = some row → j < row.1) := by
      intro j k hjk
      have hge := hstart j k hjk
      have hd := (located hjk).next (x - l + y - (n - k))
      rw [Nat.add_sub_cancel' hge] at hd
      rcases hd with ⟨hd, hrow⟩ | ⟨hd, hrow⟩
      · exact Or.inl ⟨by omega, _, hrow⟩
      · exact Or.inr ⟨by omega, hrow⟩
    rw [hres]
    rcases hy : (srcB.rows (mask.clear i))[y]? with _ | ⟨i', l'⟩
    · have hlen := List.getElem?_eq_none_iff.mp hy
      have hclear : (mask.clear i).clear srcB.buffers.items.length = mask.clear srcB.buffers.items.length := by
        have hlt := hloc.lt
        exact clear_clear fun k _ => by omega
      refine ⟨_, resolve_conjunct hA (resolve_skip_none (hcolB _) hlen), fun _ => hclear, fun j k hjk => ⟨?_, ?_⟩⟩
      · intro hlt
        rw [hdrop, List.getElem?_drop] at hy
        rcases hnext j k hjk with ⟨-, d, hd⟩ | ⟨hge, -⟩
        · rw [hy] at hd
          cases hd
        · omega
      · intro _ hin
        have hge := (Mask.clear_includes.mp hin).2
        have hlt := (located hjk).lt
        have hge : srcB.buffers.items.length ≤ j := hge
        omega
    · have hle' := (Mask.clear_includes.mp (located hy).included).2
      have hclear : (mask.clear i).clear i' = mask.clear i' := clear_clear fun k _ => by omega
      have hylt := (List.getElem?_eq_some_iff.mp hy).1
      rw [hdrop, List.length_drop] at hylt
      refine ⟨_, resolve_conjunct hA (resolve_skip_some (hcolB _) hy), fun hlen => by omega, fun j k hjk => ?_⟩
      rw [hdrop, List.getElem?_drop] at hy
      show (_ → (mask.clear i).clear i' = _) ∧ (_ → ¬ ((mask.clear i).clear i').Includes j)
      rw [hclear]
      rcases hnext j k hjk with ⟨hlt, d, hd⟩ | ⟨hge, hrow⟩
      · rw [hy] at hd
        cases hd
        exact ⟨fun _ => rfl, fun hge => by omega⟩
      · have hlt := hrow _ hy
        refine ⟨fun hlt => by omega, fun _ hin => ?_⟩
        have hle := (Mask.clear_includes.mp hin).2
        have hlt : j < i' := hlt
        omega

/-- Skips on both legs leave every row from the larger of them on, whatever the order of the legs, when and only when
the smaller skip and the buffers it covers both fit into the buffer where the larger one ends. -/
theorem conjunct_skips_iff (srcA srcB : Src)
    (hcounts : srcA.buffers.items.map Manifest.Buffer.count = srcB.buffers.items.map Manifest.Buffer.count)
    (t u : Item) (h : t.decodable = true) (hu : u.decodable = true) (n m : Nat) :
    ∃ r r', (Tree.conjunct (.leg (.skip (.column srcA t h) n)) (.leg (.skip (.column srcB u hu) m))).resolve srcA.mask =
        .ok r ∧
      (Tree.conjunct (.leg (.skip (.column srcB u hu) m)) (.leg (.skip (.column srcA t h) n))).resolve srcA.mask = .ok r' ∧
        (((∀ i p k, max n m ≤ p → (srcA.rows srcA.mask)[p]? = some (i, k) → r.2.Includes i) ∧ r'.2 = r.2) ↔
          ∀ j k, (srcA.rows srcA.mask)[max n m]? = some (j, k) →
            min n m < srcA.count j ∧ k + (min n m - srcA.residual srcA.mask (min n m)) < srcA.count j) := by
  obtain ⟨r, hr, hpast, hmid⟩ := conjunct_skips hcounts t u h hu srcA.mask (x := n) (y := m) rfl
  obtain ⟨r', hr', hpast', hmid'⟩ := conjunct_skips hcounts.symm u t hu h srcA.mask (x := m) (y := n) (Nat.max_comm m n)
  have hrows : srcB.rows srcA.mask = srcA.rows srcA.mask := rowsFrom_congr hcounts.symm
  have hres (x : Nat) : srcB.residual srcA.mask x = srcA.residual srcA.mask x := by rw [Src.residual, hrows, Src.residual]
  have hcount (j : Nat) : srcB.count j = srcA.count j := by
    unfold Src.count
    rw [← List.getElem?_map, ← List.getElem?_map, hcounts]
  have hsize : srcA.buffers.items.length = srcB.buffers.items.length := by
    rw [← List.length_map (f := Manifest.Buffer.count), hcounts, List.length_map]
  refine ⟨r, r', hr, hr', ?_⟩
  rcases hrow : (srcA.rows srcA.mask)[max n m]? with _ | ⟨j, k⟩
  · have hlen := List.getElem?_eq_none_iff.mp hrow
    constructor
    · intro _ j k hjk
      cases hjk
    · refine fun _ => ⟨fun i p k hp hik => ?_, ?_⟩
      · have hlt := (List.getElem?_eq_some_iff.mp hik).1
        omega
      · rw [hpast (by rw [hrows]; exact hlen), hpast' hlen, hsize]
  · have hloc := located hrow
    have hle := hloc.residual_le
    have hmax : srcA.residual srcA.mask (max n m) = k := by rw [Src.residual, hrow]; rfl
    obtain ⟨hkeep, hlose⟩ := hmid j k (by rw [hrows]; exact hrow)
    obtain ⟨hkeep', hlose'⟩ := hmid' j k hrow
    rw [hcount, hres] at hkeep hlose
    have hin : (srcA.mask.clear j).Includes j := Mask.clear_includes.mpr ⟨hloc.included, Nat.le_refl j⟩
    have hfit : (min n m < srcA.count j ∧ k + (min n m - srcA.residual srcA.mask (min n m)) < srcA.count j) ↔
        n - srcA.residual srcA.mask n + m < max n m - k + srcA.count j ∧
          m - srcA.residual srcA.mask m + n < max n m - k + srcA.count j := by
      rcases Nat.le_total n m with hnm | hnm
      · rw [Nat.max_eq_right hnm] at hmax hle ⊢
        rw [Nat.min_eq_left hnm, hmax]
        omega
      · rw [Nat.max_eq_left hnm] at hmax hle ⊢
        rw [Nat.min_eq_right hnm, hmax]
        omega
    constructor
    · rintro ⟨hall, hsame⟩ i l hil
      obtain ⟨rfl, rfl⟩ := Prod.mk.inj (Option.some.inj hil)
      have hincl := hall j _ k (Nat.le_refl _) hrow
      apply hfit.mpr
      constructor
      · by_contra hge
        exact hlose (Nat.le_of_not_lt hge) hincl
      · by_contra hge
        exact hlose' (Nat.le_of_not_lt hge) (hsame ▸ hincl)
    · intro hcond
      obtain ⟨hlt, hlt'⟩ := hfit.mp (hcond j k rfl)
      rw [hkeep hlt, hkeep' hlt']
      refine ⟨fun i p l hp hil => ?_, rfl⟩
      have hafter : j ≤ i := by
        have hnext := hloc.next (p - (max n m - k))
        rw [Nat.add_sub_cancel' (by omega)] at hnext
        rcases hnext with ⟨-, hget⟩ | ⟨-, hget⟩
        · rw [hil] at hget
          exact Nat.le_of_eq (congrArg Prod.fst (Option.some.inj hget)).symm
        · exact Nat.le_of_lt (hget _ hil)
      exact Mask.clear_includes.mpr ⟨(located hil).included, hafter⟩

theorem conjunct_skips_iff_segmented : ∃ r r',
    (Tree.conjunct (.leg (.skip (wordColumn (segmented 1 2 3)) 1)) (.leg (.skip (wordColumn (segmented 4 5 6)) 3))).resolve
        (segmented 1 2 3).mask = .ok r ∧
      (Tree.conjunct (.leg (.skip (wordColumn (segmented 4 5 6)) 3)) (.leg (.skip (wordColumn (segmented 1 2 3)) 1))).resolve
          (segmented 1 2 3).mask = .ok r' ∧
        (((∀ i p k, max 1 3 ≤ p → ((segmented 1 2 3).rows (segmented 1 2 3).mask)[p]? = some (i, k) → r.2.Includes i) ∧
            r'.2 = r.2) ↔
          ∀ j k, ((segmented 1 2 3).rows (segmented 1 2 3).mask)[max 1 3]? = some (j, k) →
            min 1 3 < (segmented 1 2 3).count j ∧
              k + (min 1 3 - (segmented 1 2 3).residual (segmented 1 2 3).mask (min 1 3)) < (segmented 1 2 3).count j) :=
  conjunct_skips_iff (segmented 1 2 3) (segmented 4 5 6) rfl _ _ rfl rfl 1 3

/-- Over buffers of two rows, skips of two on both legs lose the second buffer. -/
theorem conjunct_skips_compound : ∃ r,
    (Tree.conjunct (.leg (.skip (wordColumn (segmented 1 2 3)) 2)) (.leg (.skip (wordColumn (segmented 4 5 6)) 2))).resolve
        (segmented 1 2 3).mask = .ok r ∧
      ((segmented 1 2 3).rows (segmented 1 2 3).mask)[2]? = some (1, 0) ∧ ¬ r.2.Includes 1 :=
  ⟨_, rfl, rfl, by decide⟩

end Msca
