import Mathlib

/-! Items numbered by their first occurrence in a list. Equality is any equivalence that can be tested; the
number of an item stays the same as the list grows, and equal items share theirs. -/
namespace Numbering
set_option autoImplicit false
variable {α : Type} [BEq α]

/-- Position of the first item that equals `x`. -/
def first (l : List α) (x : α) : Option Nat := l.findIdx? (· == x)

/-- The items that equal none of `l` and none before them. -/
def unseen (l : List α) : List α → List α
  | [] => []
  | x :: items => if (first l x).isSome then unseen l items else x :: unseen (l ++ [x]) items

theorem first_append {l : List α} {x : α} {n : Nat} (h : first l x = some n) (r : List α) :
    first (l ++ r) x = some n := by
  unfold first at *
  simp [List.findIdx?_append, h]

theorem first_append_of_none {l : List α} {x : α} (h : first l x = none) (r : List α) :
    first (l ++ r) x = (first r x).map (· + l.length) := by
  unfold first at *
  simp [List.findIdx?_append, h]

theorem first_eq_some {l : List α} {x : α} {n : Nat} (h : first l x = some n) : ∃ y, l[n]? = some y ∧ (y == x) = true := by
  obtain ⟨hlt, heq, -⟩ := List.findIdx?_eq_some_iff_getElem.mp h
  exact ⟨l[n], List.getElem?_eq_getElem hlt, heq⟩

theorem first_lt {l : List α} {x : α} {n : Nat} (h : first l x = some n) : n < l.length := by
  obtain ⟨y, hy, -⟩ := first_eq_some h
  exact (List.getElem?_eq_some_iff.mp hy).1

theorem unseen_of_some {l : List α} {x : α} {n : Nat} (h : first l x = some n) (items : List α) :
    unseen l (x :: items) = unseen l items := by
  simp [unseen, h]

theorem unseen_of_none {l : List α} {x : α} (h : first l x = none) (items : List α) :
    unseen l (x :: items) = x :: unseen (l ++ [x]) items := by
  simp [unseen, h]

variable [EquivBEq α]

theorem first_congr {l : List α} {x y : α} (h : (x == y) = true) : first l x = first l y := by
  unfold first
  congr 1
  funext z
  exact BEq.congr_right h

theorem eq_of_first {l : List α} {x y : α} {n : Nat} (hx : first l x = some n) (hy : first l y = some n) :
    (x == y) = true := by
  obtain ⟨z, hz, hzx⟩ := first_eq_some hx
  obtain ⟨z', hz', hzy⟩ := first_eq_some hy
  rw [hz] at hz'
  cases hz'
  exact BEq.trans (BEq.symm hzx) hzy

theorem first_eq_iff {l : List α} {x y : α} {m n : Nat} (hx : first l x = some m) (hy : first l y = some n) :
    m = n ↔ (x == y) = true := by
  constructor
  · rintro rfl
    exact eq_of_first hx hy
  · intro h
    rw [first_congr h, hy] at hx
    exact (Option.some.inj hx).symm

theorem first_singleton {x : α} : first [x] x = some 0 := by
  simp [first]

theorem first_snoc {l : List α} {x : α} (h : first l x = none) (r : List α) : first (l ++ [x] ++ r) x = some l.length := by
  apply first_append
  rw [first_append_of_none h, first_singleton]
  simp

/-- Lists of equal items number alike. -/
theorem first_of_forall₂ {l l' : List α} (h : List.Forall₂ (fun a b => (a == b) = true) l l') (x : α) :
    first l x = first l' x := by
  unfold first
  induction h with
  | nil => rfl
  | cons hab _ ih => rw [List.findIdx?_cons, List.findIdx?_cons, ih, BEq.congr_left hab]

end Numbering
