import Mathlib

/-! Labelled runs of a step relation: composition, monotonicity and the invariant rule. -/
set_option autoImplicit false

/-- `t` is reached from `s` by steps labelled, in order, with `l`. -/
def Run {S L : Type*} (R : S → L → S → Prop) : S → List L → S → Prop
  | s, [], t => s = t
  | s, a :: l, t => ∃ u, R s a u ∧ Run R u l t

namespace Run
variable {S L : Type*} {R : S → L → S → Prop}

theorem nil (s : S) : Run R s [] s := rfl

theorem cons {s u t : S} {a : L} {l : List L} (h : R s a u) (hl : Run R u l t) : Run R s (a :: l) t :=
  ⟨u, h, hl⟩

theorem append_iff {s t : S} {l m : List L} : Run R s (l ++ m) t ↔ ∃ u, Run R s l u ∧ Run R u m t := by
  induction l generalizing s with
  | nil =>
    constructor
    · intro h
      exact ⟨s, rfl, h⟩
    · rintro ⟨u, rfl, h⟩
      exact h
  | cons a l ih =>
    constructor
    · rintro ⟨v, hv, h⟩
      obtain ⟨u, hl, hm⟩ := ih.mp h
      exact ⟨u, ⟨v, hv, hl⟩, hm⟩
    · rintro ⟨u, ⟨v, hv, hl⟩, hm⟩
      exact ⟨v, hv, ih.mpr ⟨u, hl, hm⟩⟩

theorem snoc {s u t : S} {a : L} {l : List L} (hl : Run R s l u) (h : R u a t) : Run R s (l ++ [a]) t :=
  append_iff.mpr ⟨u, hl, t, h, rfl⟩

theorem flatten {s t : S} {ls : List (List L)} (h : Run R s ls.flatten t) : Run (Run R) s ls t := by
  induction ls generalizing s with
  | nil => exact h
  | cons l ls ih =>
    obtain ⟨u, hl, h⟩ := append_iff.mp h
    exact ⟨u, hl, ih h⟩

theorem mono {R' : S → L → S → Prop} (step : ∀ s a t, R s a t → R' s a t) {s t : S} {l : List L} (h : Run R s l t) :
    Run R' s l t := by
  induction l generalizing s with
  | nil => exact h
  | cons a l ih =>
    obtain ⟨u, hu, h⟩ := h
    exact ⟨u, step s a u hu, ih h⟩

theorem invariant {I : S → Prop} (step : ∀ s a t, I s → R s a t → I t) {s t : S} {l : List L}
    (h : Run R s l t) (hs : I s) : I t := by
  induction l generalizing s with
  | nil => exact h ▸ hs
  | cons a l ih =>
    obtain ⟨u, hu, h⟩ := h
    exact ih h (step s a u hs hu)

/-- Where no step has two ends, no run has. -/
theorem unique (step : ∀ s a t t', R s a t → R s a t' → t = t') {s t t' : S} {l : List L} (h : Run R s l t)
    (h' : Run R s l t') : t = t' := by
  induction l generalizing s with
  | nil => exact h.symm.trans h'
  | cons a l ih =>
    obtain ⟨u, hu, h⟩ := h
    obtain ⟨u', hu', h'⟩ := h'
    cases step s a u u' hu hu'
    exact ih h h'

/-- An invariant that also speaks of the labels seen so far. -/
theorem invariant_labels {I : List L → S → Prop} (step : ∀ l s a t, I l s → R s a t → I (l ++ [a]) t)
    {s t : S} {l k : List L} (h : Run R s l t) (hs : I k s) : I (k ++ l) t := by
  induction l generalizing s k with
  | nil => simpa using h ▸ hs
  | cons a l ih =>
    obtain ⟨u, hu, h⟩ := h
    have := ih h (step k s a u hs hu)
    simpa using this

end Run
