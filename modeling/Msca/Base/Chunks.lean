import Mathlib

/-! Lists read as a concatenation of chunks. An element of the concatenation lies at a position of some chunk, and
lists read in lockstep stand at the same position as long as the chunks left behind have the same sizes. -/
namespace Chunks
set_option autoImplicit false

/-- The chunk of element `k` of the concatenation and its position there, for chunks of the given sizes. -/
def place : List Nat → Nat → Option (Nat × Nat)
  | [], _ => none
  | n :: sizes, k => if k < n then some (0, k) else (place sizes (k - n)).map fun p => (p.1 + 1, p.2)

theorem place_eq_some {sizes : List Nat} {k s p : Nat} :
    place sizes k = some (s, p) ↔ k = (sizes.take s).sum + p ∧ ∃ n, sizes[s]? = some n ∧ p < n := by
  induction sizes generalizing k s with
  | nil => simp [place]
  | cons n sizes ih =>
    rw [place]
    by_cases hk : k < n
    · rw [if_pos hk]
      cases s with
      | zero => simp; omega
      | succ s =>
        simp only [Option.some.injEq, Prod.mk.injEq, List.take_succ_cons, List.sum_cons]
        omega
    · rw [if_neg hk]
      cases s with
      | zero => simp; omega
      | succ s =>
        have hih := ih (k := k - n) (s := s)
        rw [List.take_succ_cons, List.sum_cons, List.getElem?_cons_succ]
        constructor
        · intro h
          obtain ⟨⟨s', p'⟩, hplace, heq⟩ := Option.map_eq_some_iff.mp h
          cases heq
          obtain ⟨hsum, hn⟩ := hih.mp hplace
          exact ⟨by omega, hn⟩
        · rintro ⟨hsum, hn⟩
          rw [hih.mpr ⟨by omega, hn⟩]
          rfl

theorem exists_place {sizes : List Nat} {k : Nat} (h : k < sizes.sum) : ∃ s p, place sizes k = some (s, p) := by
  induction sizes generalizing k with
  | nil => simp at h
  | cons n sizes ih =>
    rw [place]
    by_cases hk : k < n
    · exact ⟨0, k, if_pos hk⟩
    · rw [List.sum_cons] at h
      obtain ⟨s, p, hp⟩ := ih (k := k - n) (by omega)
      exact ⟨s + 1, p, by rw [if_neg hk, hp]; rfl⟩

theorem getElem?_flatten {α : Type} (chunks : List (List α)) (k : Nat) :
    chunks.flatten[k]? = (place (chunks.map List.length) k).bind fun p => chunks[p.1]?.bind fun chunk => chunk[p.2]? := by
  induction chunks generalizing k with
  | nil => rfl
  | cons chunk chunks ih =>
    rw [List.flatten_cons, List.map_cons, place]
    by_cases hk : k < chunk.length
    · rw [if_pos hk, List.getElem?_append_left hk]
      rfl
    · rw [if_neg hk, List.getElem?_append_right (by omega), ih]
      cases place (chunks.map List.length) (k - chunk.length) <;> rfl

/-! ## Lockstep -/

theorem sum_take_succ {sizes : List Nat} {s n : Nat} (h : sizes[s]? = some n) :
    (sizes.take (s + 1)).sum = (sizes.take s).sum + n := by
  rw [List.take_add_one, h]
  simp

theorem sum_take_le (sizes : List Nat) {s t : Nat} (h : s ≤ t) : (sizes.take s).sum ≤ (sizes.take t).sum :=
  (List.take_sublist_take_left h).sum_le_sum fun _ _ => Nat.zero_le _

section
variable {ι : Type}

/-- Before element `k` every chunk that one list has left behind is of the same size in all. -/
def Level (sizes : ι → List Nat) (k : Nat) : Prop :=
  ∀ s i n, (sizes i)[s]? = some n → ((sizes i).take (s + 1)).sum ≤ k → ∀ j, (sizes j)[s]? = some n

variable {sizes : ι → List Nat} {k : Nat}

theorem Level.mono {m : Nat} (h : Level sizes k) (hle : m ≤ k) : Level sizes m :=
  fun s i n hn hsum => h s i n hn (Nat.le_trans hsum hle)

theorem level_of_forall_eq (h : ∀ i j, sizes i = sizes j) (k : Nat) : Level sizes k := by
  intro s i n hn _ j
  rw [← h i j]
  exact hn

theorem Level.take_eq (h : Level sizes k) {i j : ι} {s : Nat} (hs : s ≤ (sizes i).length) (hsum : ((sizes i).take s).sum ≤ k) :
    (sizes j).take s = (sizes i).take s := by
  induction s with
  | zero => rw [List.take_zero, List.take_zero]
  | succ s ih =>
    have hn := List.getElem?_eq_getElem (l := sizes i) (i := s) (by omega)
    have htake := ih (by omega) (Nat.le_trans (sum_take_le _ (Nat.le_succ s)) hsum)
    rw [List.take_add_one, List.take_add_one, htake, hn, h s i _ hn hsum j]

theorem Level.le_of_place (h : Level sizes k) {i j : ι} {s p t q : Nat} (hi : place (sizes i) k = some (s, p))
    (hj : place (sizes j) k = some (t, q)) : t ≤ s := by
  obtain ⟨hk, n, hn, hp⟩ := place_eq_some.mp hi
  obtain ⟨hk', m, hm, -⟩ := place_eq_some.mp hj
  by_contra hlt
  have hlen := (List.getElem?_eq_some_iff.mp hm).1
  have hleft : ((sizes j).take (s + 1)).sum ≤ k := by
    have := sum_take_le (sizes j) (show s + 1 ≤ t by omega)
    omega
  have hsame := h.take_eq (i := j) (j := i) (by omega) hleft
  have hsum := sum_take_succ hn
  rw [hsame] at hsum
  omega

theorem Level.place_eq (h : Level sizes k) {i j : ι} (hi : k < (sizes i).sum) (hj : k < (sizes j).sum) :
    place (sizes i) k = place (sizes j) k := by
  obtain ⟨s, p, hp⟩ := exists_place hi
  obtain ⟨t, q, hq⟩ := exists_place hj
  have hst : s = t := Nat.le_antisymm (h.le_of_place hq hp) (h.le_of_place hp hq)
  obtain ⟨hk, n, hn, -⟩ := place_eq_some.mp hp
  obtain ⟨hk', -⟩ := place_eq_some.mp hq
  have hlen := (List.getElem?_eq_some_iff.mp hn).1
  have htake := h.take_eq (i := i) (j := j) (s := s) (by omega) (by omega)
  rw [← hst, htake] at hk'
  rw [hp, hq, ← hst, show p = q by omega]

theorem place_of_take {sizes : List Nat} {s n p : Nat} (hn : sizes[s]? = some n) (hp : p < n) :
    place sizes ((sizes.take s).sum + p) = some (s, p) := place_eq_some.mpr ⟨rfl, n, hn, hp⟩

theorem level_of_places (hlt : ∀ i, k < (sizes i).sum)
    (h : ∀ m, m ≤ k → ∀ i j, place (sizes i) m = place (sizes j) m) : Level sizes k := by
  have hall : ∀ s i, s ≤ (sizes i).length → ((sizes i).take s).sum ≤ k → ∀ j, (sizes j).take s = (sizes i).take s := by
    intro s
    induction s with
    | zero => simp
    | succ s ih =>
      intro i hs hsum j
      have hn := List.getElem?_eq_getElem (l := sizes i) (i := s) (by omega)
      have htake := ih i (by omega) (Nat.le_trans (sum_take_le _ (Nat.le_succ s)) hsum) j
      rw [sum_take_succ hn] at hsum
      have hlen : s < (sizes j).length := by
        by_contra hge
        have hwhole := List.take_of_length_le (l := sizes j) (i := s) (by omega)
        have hj := hlt j
        rw [← hwhole, htake] at hj
        omega
      have hm := List.getElem?_eq_getElem hlen
      have hsame : (sizes j)[s] = (sizes i)[s] := by
        rcases Nat.lt_trichotomy (sizes j)[s] (sizes i)[s] with hlt' | heq | hlt'
        · -- the list with the smaller chunk is the first to leave it
          have hplace := h _ (show ((sizes i).take s).sum + (sizes j)[s] ≤ k by omega) i j
          rw [place_of_take hn hlt', ← htake] at hplace
          obtain ⟨-, n, hn', hp⟩ := place_eq_some.mp hplace.symm
          rw [hm] at hn'
          cases hn'
          omega
        · exact heq
        · have hplace := h _ (show ((sizes j).take s).sum + (sizes i)[s] ≤ k by rw [htake]; omega) j i
          rw [place_of_take hm hlt', htake] at hplace
          obtain ⟨-, n, hn', hp⟩ := place_eq_some.mp hplace.symm
          rw [hn] at hn'
          cases hn'
          omega
      rw [List.take_add_one, List.take_add_one, htake, hn, hm, hsame]
  intro s i n hn hsum j
  have hlen := (List.getElem?_eq_some_iff.mp hn).1
  have htake := hall (s + 1) i hlen hsum j
  have hget := congrArg (fun l : List Nat => l[s]?) htake
  simp only [List.getElem?_take, Nat.lt_succ_self, if_true] at hget
  rw [hget, hn]

/-- Lists stand at the same place all the way to an element exactly when they are level there. -/
theorem level_iff_places (hlt : ∀ i, k < (sizes i).sum) :
    Level sizes k ↔ ∀ m, m ≤ k → ∀ i j, place (sizes i) m = place (sizes j) m := by
  constructor
  · intro h m hm i j
    exact (h.mono hm).place_eq (Nat.lt_of_le_of_lt hm (hlt i)) (Nat.lt_of_le_of_lt hm (hlt j))
  · exact level_of_places hlt

end
end Chunks
