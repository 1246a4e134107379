import Mathlib.Order.Lattice

/-! Extremes of a list whose elements may be incomparable. An element without a rank compares with nothing, so
a scan that starts at one never leaves it, and a scan that starts at any other passes over such elements. -/
namespace Extreme
set_option autoImplicit false
variable {β κ : Type} [LinearOrder κ] (rank : β → Option κ)

/-- The next element where it compares as smaller. -/
def step (best next : β) : β :=
  match rank next, rank best with
  | some q, some r => if q < r then next else best
  | _, _ => best

def scan (a : β) (l : List β) : β := l.foldl (step rank) a

variable {rank}

theorem step_of_none {a : β} (h : rank a = none) (b : β) : step rank a b = a := by
  unfold step
  rw [h]
  cases rank b <;> rfl

theorem step_none {b : β} (h : rank b = none) (a : β) : step rank a b = a := by
  unfold step
  rw [h]

theorem step_rank {a b : β} {r q : κ} (ha : rank a = some r) (hb : rank b = some q) :
    rank (step rank a b) = some (min q r) := by
  unfold step
  rw [ha, hb]
  show rank (if q < r then b else a) = _
  by_cases h : q < r
  · rw [if_pos h, hb, min_eq_left (le_of_lt h)]
  · rw [if_neg h, ha, min_eq_right (le_of_not_gt h)]

variable (rank) in
theorem step_or (a b : β) : step rank a b = a ∨ step rank a b = b := by
  unfold step
  split
  · split
    · exact Or.inr rfl
    · exact Or.inl rfl
  · exact Or.inl rfl

theorem scan_mem (a : β) (l : List β) : scan rank a l ∈ a :: l := by
  induction l generalizing a with
  | nil => exact List.mem_cons_self
  | cons b l ih =>
    rcases List.mem_cons.mp (ih (step rank a b)) with h | h
    · show scan rank (step rank a b) l ∈ a :: b :: l
      rw [h]
      rcases step_or rank a b with h | h
      · rw [h]
        exact List.mem_cons_self
      · rw [h]
        exact List.mem_cons_of_mem _ List.mem_cons_self
    · exact List.mem_cons_of_mem _ (List.mem_cons_of_mem _ h)

theorem scan_of_none {a : β} (h : rank a = none) (l : List β) : scan rank a l = a := by
  induction l with
  | nil => rfl
  | cons b l ih =>
    show scan rank (step rank a b) l = a
    rw [step_of_none h, ih]

variable (rank) in
/-- A scan that starts at a rank ends at the least of all ranks. -/
theorem scan_rank {a : β} {r : κ} (h : rank a = some r) (l : List β) :
    ∃ q, rank (scan rank a l) = some q ∧ ∀ b ∈ a :: l, ∀ p, rank b = some p → q ≤ p := by
  induction l generalizing a r with
  | nil =>
    refine ⟨r, h, fun b hb p hp => ?_⟩
    rw [List.mem_singleton.mp hb, h] at hp
    exact le_of_eq (Option.some.inj hp)
  | cons b l ih =>
    cases hb : rank b with
    | none =>
      have hstep : scan rank a (b :: l) = scan rank a l := congrArg (scan rank · l) (step_none hb a)
      obtain ⟨q, hq, hmin⟩ := ih h
      refine ⟨q, hstep ▸ hq, fun c hc p hp => ?_⟩
      rcases List.mem_cons.mp hc with rfl | hc
      · exact hmin c List.mem_cons_self p hp
      · rcases List.mem_cons.mp hc with rfl | hc
        · rw [hb] at hp
          cases hp
        · exact hmin c (List.mem_cons_of_mem _ hc) p hp
    | some s =>
      have hstep := step_rank h hb
      obtain ⟨q, hq, hmin⟩ := ih hstep
      have hbest := hmin _ List.mem_cons_self _ hstep
      refine ⟨q, hq, fun c hc p hp => ?_⟩
      rcases List.mem_cons.mp hc with rfl | hc
      · rw [h] at hp
        exact Option.some.inj hp ▸ le_trans hbest (min_le_right s r)
      · rcases List.mem_cons.mp hc with rfl | hc
        · rw [hb] at hp
          exact Option.some.inj hp ▸ le_trans hbest (min_le_left s r)
        · exact hmin c (List.mem_cons_of_mem _ hc) p hp

end Extreme
