import Mathlib

/-! Cursors polled until they yield nothing. A cursor that consumes a slice by pieces of one width ends exactly where
the slice holds whole pieces: a shorter rest is looked at by every later call and consumed by none. -/
namespace Polling
set_option autoImplicit false
variable {C α : Type*}

/-- The cursor behind `n` calls. -/
def after (next : C → Option α × C) (n : Nat) (c : C) : C := (fun c => (next c).2)^[n] c

/-- One of the first `n` calls yields nothing. -/
def EndsWithin (next : C → Option α × C) (n : Nat) (c : C) : Prop := ∃ k < n, (next (after next k c)).1 = none

/-- Each call takes a piece of `width` off the slice, of which `len` is left. A shorter rest stays. -/
structure Consumes (next : C → Option α × C) (len : C → Nat) (width : Nat) : Prop where
  pos : 0 < width
  ended : ∀ c, (next c).1 = none ↔ len c = 0
  whole : ∀ c, width ≤ len c → len (next c).2 = len c - width
  short : ∀ c, len c < width → len (next c).2 = len c

variable {next : C → Option α × C} {len : C → Nat} {width : Nat}

theorem after_succ (n : Nat) (c : C) : after next (n + 1) c = after next n (next c).2 := rfl

theorem after_succ' (n : Nat) (c : C) : after next (n + 1) c = (next (after next n c)).2 :=
  Function.iterate_succ_apply' _ n c

namespace Consumes

theorem mod_next (h : Consumes next len width) (c : C) : len (next c).2 % width = len c % width := by
  by_cases hle : width ≤ len c
  · rw [h.whole c hle, ← Nat.mod_eq_sub_mod hle]
  · rw [h.short c (Nat.lt_of_not_le hle)]

theorem mod_after (h : Consumes next len width) (n : Nat) (c : C) : len (after next n c) % width = len c % width := by
  induction n generalizing c with
  | zero => rfl
  | succ n ih => rw [after_succ, ih, h.mod_next]

theorem after_whole (h : Consumes next len width) {n : Nat} {c : C} (hlen : len c = n * width) :
    len (after next n c) = 0 := by
  induction n generalizing c with
  | zero => rw [Nat.zero_mul] at hlen; exact hlen
  | succ n ih =>
    rw [Nat.succ_mul] at hlen
    exact ih (by rw [h.whole c (by omega)]; omega)

/-- A rest that is no whole piece is never consumed. -/
theorem dvd_of_ends (h : Consumes next len width) {n : Nat} {c : C} (hends : EndsWithin next n c) : width ∣ len c := by
  obtain ⟨k, -, hnone⟩ := hends
  rw [Nat.dvd_iff_mod_eq_zero, ← h.mod_after k c, (h.ended _).mp hnone, Nat.zero_mod]

theorem ends_of_dvd (h : Consumes next len width) {c : C} (hdvd : width ∣ len c) : EndsWithin next (len c + 1) c := by
  obtain ⟨n, hn⟩ := hdvd
  refine ⟨n, ?_, (h.ended _).mpr (h.after_whole (by rw [hn, Nat.mul_comm]))⟩
  have hle := Nat.le_mul_of_pos_left n h.pos
  omega

theorem ends_iff (h : Consumes next len width) (c : C) : EndsWithin next (len c + 1) c ↔ width ∣ len c :=
  ⟨h.dvd_of_ends, h.ends_of_dvd⟩

end Consumes

end Polling
