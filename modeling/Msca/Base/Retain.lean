import Mathlib.Data.List.Flatten
import Mathlib.Data.List.Forall2

/-! Blocks of a sequence selected by a mask. A scan over the retained blocks finds all that a scan over every block
finds as long as the blocks left out hold nothing to be found. -/
namespace Msca
set_option autoImplicit false

/-- The elements whose bit is set. -/
def retain {α : Type} (mask : List Bool) (xs : List α) : List α := ((mask.zip xs).filter Prod.fst).map Prod.snd

namespace Retain
variable {α β : Type} {mask : List Bool}

@[simp] theorem nil_left (xs : List α) : retain [] xs = [] := rfl

@[simp] theorem nil_right : retain mask ([] : List α) = [] := by rw [retain, List.zip_nil_right]; rfl

@[simp] theorem cons_true (x : α) (xs : List α) : retain (true :: mask) (x :: xs) = x :: retain mask xs := rfl

@[simp] theorem cons_false (x : α) (xs : List α) : retain (false :: mask) (x :: xs) = retain mask xs := rfl

theorem map (f : α → β) (xs : List α) : retain mask (xs.map f) = (retain mask xs).map f := by
  induction mask generalizing xs with
  | nil => rfl
  | cons bit mask ih =>
    cases xs with
    | nil => simp
    | cons x xs =>
      cases bit with
      | false => exact ih xs
      | true => exact congrArg (f x :: ·) (ih xs)

theorem sublist (xs : List α) : (retain mask xs).Sublist xs := by
  induction mask generalizing xs with
  | nil => exact List.nil_sublist xs
  | cons bit mask ih =>
    cases xs with
    | nil => simp
    | cons x xs =>
      cases bit with
      | false => exact (ih xs).cons x
      | true => exact (ih xs).cons_cons x

theorem eq_nil {xs : List α} (h : ∀ i < xs.length, mask[i]? ≠ some true) : retain mask xs = [] := by
  induction mask generalizing xs with
  | nil => rfl
  | cons bit mask ih =>
    cases xs with
    | nil => simp
    | cons x xs =>
      cases bit with
      | false => exact ih fun i hi => h (i + 1) (Nat.succ_lt_succ hi)
      | true => exact absurd rfl (h 0 (Nat.succ_pos xs.length))

theorem forall₂ {R : α → β → Prop} {xs : List α} {ys : List β} (h : List.Forall₂ R xs ys) :
    List.Forall₂ R (retain mask xs) (retain mask ys) := by
  induction h generalizing mask with
  | nil => simp
  | @cons x y xs ys hxy _ ih =>
    cases mask with
    | nil => exact .nil
    | cons bit mask =>
      cases bit with
      | false => exact ih
      | true => exact .cons hxy ih

/-- What is found in the retained blocks is all there is exactly when no other block has anything. -/
theorem flatMap_eq_iff {f : α → List β} {xs : List α} (hlen : mask.length = xs.length) :
    (retain mask xs).flatMap f = xs.flatMap f ↔
      ∀ (i : Nat) (x : α), xs[i]? = some x → mask[i]? ≠ some true → f x = [] := by
  induction mask generalizing xs with
  | nil =>
    rw [List.length_eq_zero_iff.mp hlen.symm]
    simp
  | cons bit mask ih =>
    cases xs with
    | nil => cases hlen
    | cons x xs =>
      have htail := ih (Nat.succ.inj hlen)
      cases bit with
      | true =>
        rw [cons_true, List.flatMap_cons, List.flatMap_cons, List.append_cancel_left_eq, htail]
        constructor
        · intro h i y hy hnot
          cases i with
          | zero => exact absurd rfl hnot
          | succ i => exact h i y hy hnot
        · exact fun h i y hy hnot => h (i + 1) y hy hnot
      | false =>
        rw [cons_false, List.flatMap_cons]
        constructor
        · intro h
          -- what the first block adds is missing from the shorter scan
          have hle := ((@sublist α mask xs).flatMap f).length_le
          rw [h, List.length_append] at hle
          have hnil : f x = [] := List.eq_nil_of_length_eq_zero (by omega)
          rw [hnil, List.nil_append] at h
          intro i y hy hnot
          cases i with
          | zero => exact Option.some.inj hy ▸ hnil
          | succ i => exact htail.mp h i y hy hnot
        · intro h
          rw [h 0 x rfl (by simp), List.nil_append]
          exact htail.mpr fun i y hy hnot => h (i + 1) y hy hnot

/-- A narrower mask finds the same as long as the blocks it leaves out besides hold nothing to be found. -/
theorem flatMap_narrow {f : α → List β} {after : List Bool} {xs : List α} (hlen : after.length = mask.length)
    (hsub : ∀ i : Nat, after[i]? = some true → mask[i]? = some true)
    (hlost : ∀ (i : Nat) (x : α), xs[i]? = some x → mask[i]? = some true → after[i]? ≠ some true → f x = []) :
    (retain after xs).flatMap f = (retain mask xs).flatMap f := by
  induction mask generalizing after xs with
  | nil => rw [List.length_eq_zero_iff.mp hlen]
  | cons bit mask ih =>
    cases after with
    | nil => cases hlen
    | cons kept after =>
      cases xs with
      | nil => simp
      | cons x xs =>
        have htail : (retain after xs).flatMap f = (retain mask xs).flatMap f :=
          ih (Nat.succ.inj hlen) (fun i => hsub (i + 1)) fun i => hlost (i + 1)
        cases kept with
        | true =>
          have hbit : bit = true := Option.some.inj (hsub 0 rfl)
          rw [hbit, cons_true, cons_true, List.flatMap_cons, List.flatMap_cons, htail]
        | false =>
          cases bit with
          | false => exact htail
          | true =>
            rw [cons_true, List.flatMap_cons, hlost 0 x rfl rfl (by simp), List.nil_append]
            exact htail

/-- What is dropped in front of the retained elements can be dropped from their first block, kept or not. -/
theorem flatten_drop {blocks : List (List α)} {j r : Nat} {xs : List α} (hbefore : ∀ i < j, mask[i]? ≠ some true)
    (hxs : blocks[j]? = some xs) (hr : r ≤ xs.length) :
    (retain mask blocks).flatten.drop (if mask[j]? = some true then r else 0) =
      (retain mask (blocks.set j (xs.drop r))).flatten := by
  induction j generalizing mask blocks with
  | zero =>
    cases blocks with
    | nil => cases hxs
    | cons x blocks =>
      rw [← Option.some.inj hxs] at hr ⊢
      cases mask with
      | nil => rfl
      | cons bit mask =>
        cases bit with
        | false => simp
        | true => simp [List.drop_append_of_le_length hr]
  | succ j ih =>
    cases blocks with
    | nil => cases hxs
    | cons x blocks =>
      cases mask with
      | nil => rfl
      | cons bit mask =>
        cases bit with
        | true => exact absurd rfl (hbefore 0 (Nat.succ_pos j))
        | false => exact ih (fun i hi => hbefore (i + 1) (Nat.succ_lt_succ hi)) hxs

end Retain
end Msca
