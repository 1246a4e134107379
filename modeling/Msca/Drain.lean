import Msca.Base.Polling
import Msca.Decode

/-! Item iterators over arbitrary bytes. An iterator ends where its slice is empty and a slice is advanced by whole
items only, so that the iterators which end are those over whole items. -/
namespace Msca
set_option autoImplicit false
open Checked Polling

/-! ## Fixed-width items -/

section Fixed
variable {I : Type} [Fixed I]

/-- A parse of a fixed-width item takes its bytes also where it rejects the value. -/
theorem deserialize_rest (src : Bytes) :
    ((deserialize (α := I)).run src).2 = if Fixed.width I ≤ src.length then src.drop (Fixed.width I) else src := by
  change ((splitFront (Fixed.width I) >>= fun chunk => Parse.lift (Fixed.ofLe chunk)).run src).2 = _
  split
  next h => rw [run_bind_ok (splitFront_of_le h), run_lift]
  next h => rw [run_bind_error (splitFront_of_lt (Nat.lt_of_not_le h))]

theorem nextFixed_consumes : Consumes (nextFixed (I := I)) List.length (Fixed.width I) where
  pos := Fixed.width_pos
  ended src := by cases src <;> simp [nextFixed]
  whole src h := by
    have hpos := Fixed.width_pos (α := I)
    have hne : src.isEmpty = false := by
      rw [← Bool.not_eq_true, List.isEmpty_iff]
      rintro rfl
      exact absurd hpos (Nat.not_lt_of_le h)
    rw [nextFixed, hne]
    simp only [Bool.false_eq_true, if_false]
    rw [deserialize_rest, if_pos h, List.length_drop]
  short src h := by
    rw [nextFixed]
    split
    · rfl
    · simp only
      rw [deserialize_rest, if_neg (Nat.not_le.mpr h)]

end Fixed

/-! ## Sequences -/

section Rows
variable {D R : Type} {row : Nat → Rows D → Res R × Rows D}

theorem Rows.step_ends (hrow : ∀ stop c, (row stop c).2.ends = c.ends) (c : Rows D) :
    (c.step row).2.ends = if Fixed.width U64 ≤ c.ends.length then c.ends.drop (Fixed.width U64) else c.ends := by
  obtain ⟨ends, start, data⟩ := c
  cases ends with
  | nil => rfl
  | cons b ends =>
    have hends := deserialize_rest (I := U64) (b :: ends)
    simp only [Rows.step, List.isEmpty_cons, Bool.false_eq_true, if_false]
    split
    · exact hends
    · exact (hrow _ _).trans hends

/-- Rows take one recorded end each, whatever becomes of the row. -/
theorem Rows.step_consumes (hrow : ∀ stop c, (row stop c).2.ends = c.ends) :
    Consumes (fun c : Rows D => c.step row) (fun c => c.ends.length) (Fixed.width U64) where
  pos := Fixed.width_pos
  ended c := by
    obtain ⟨ends, start, data⟩ := c
    cases ends with
    | nil => simp [Rows.step]
    | cons b ends =>
      simp only [Rows.step, List.isEmpty_cons, Bool.false_eq_true, if_false]
      split <;> simp
  whole c h := by rw [Rows.step_ends hrow, if_pos h, List.length_drop]
  short c h := by rw [Rows.step_ends hrow, if_neg (Nat.not_le.mpr h)]

theorem strRow_ends (stop : Nat) (c : Rows Bytes) : (strRow stop c).2.ends = c.ends := by
  unfold strRow
  split
  · rfl
  · split <;> rfl

theorem optRow_ends (hrow : ∀ stop c, (row stop c).2.ends = c.ends) (stop : Nat) (c : Rows D) :
    (optRow row stop c).2.ends = c.ends := by
  unfold optRow
  split
  · rfl
  · exact hrow stop c

variable {S I : Type} [Decoder S I]

theorem vecRow_ends (stop : Nat) (c : Rows (Decoder.Cursor S I)) : (vecRow stop c).2.ends = c.ends := by
  unfold vecRow
  split <;> rfl

theorem presentVecRow_ends (stop : Nat) (c : Rows (Decoder.Cursor S I)) : (presentVecRow stop c).2.ends = c.ends := rfl

end Rows

/-! ## Element reads -/

/-- The decoder with a count of the calls to its iterator. -/
@[reducible] def Decoder.counted {S I : Type} (d : Decoder S I) : Decoder S I where
  Cursor := d.Cursor × Nat
  iter src := return (← d.iter src, 0)
  next c := ((d.next c.1).1, (d.next c.1).2, c.2 + 1)
  one := d.one

section Reads
variable {S I : Type} [Decoder S I] {reads : Decoder.Cursor S I → Nat}

theorem takeCollect_reads (hnext : ∀ c, reads (Decoder.next c).2 = reads c + 1) (n : Nat) (c : Decoder.Cursor S I) :
    reads (takeCollect Decoder.next n c).2 ≤ reads c + n := by
  induction n generalizing c with
  | zero => exact Nat.le_refl _
  | succ n ih =>
    have hhead := hnext c
    have hrest := ih (Decoder.next c).2
    rw [takeCollect]
    split
    · simp only
      omega
    · simp only
      omega
    · simp only
      omega

theorem vecRow_reads (hnext : ∀ c, reads (Decoder.next c).2 = reads c + 1) (stop : Nat)
    (c : Rows (Decoder.Cursor S I)) : reads (vecRow stop c).2.data ≤ reads c.data + stop := by
  unfold vecRow
  split
  · exact Nat.le_add_right _ _
  next n hn =>
    have hreads := takeCollect_reads hnext n c.data
    have hle : n ≤ stop := by
      obtain ⟨-, rfl⟩ := subOr_eq_ok.mp hn
      omega
    exact Nat.le_trans hreads (Nat.add_le_add_left hle _)

theorem presentVecRow_reads (hnext : ∀ c, reads (Decoder.next c).2 = reads c + 1) (stop : Nat)
    (c : Rows (Decoder.Cursor S I)) : reads (presentVecRow stop c).2.data ≤ reads c.data + stop :=
  Nat.le_trans (takeCollect_reads hnext (stop - c.start) c.data) (Nat.add_le_add_left (Nat.sub_le _ _) _)

theorem optRow_reads {D R : Type} {reads : D → Nat} {row : Nat → Rows D → Res R × Rows D}
    (hrow : ∀ stop c, reads (row stop c).2.data ≤ reads c.data + stop) (stop : Nat) (c : Rows D) :
    reads (optRow row stop c).2.data ≤ reads c.data + stop := by
  unfold optRow
  split
  · exact Nat.le_add_right _ _
  · exact hrow stop c

theorem Rows.step_reads {D R : Type} {reads : D → Nat} {row : Nat → Rows D → Res R × Rows D}
    (hrow : ∀ stop c, reads (row stop c).2.data ≤ reads c.data + stop) (c : Rows D) :
    reads (c.step row).2.data < reads c.data + 2 ^ 64 := by
  unfold Rows.step
  split
  · simp
  · simp only
    split
    · simp
    next stop _ =>
      have hle := hrow stop.val { c with ends := ((deserialize (α := U64)).run c.ends).2 }
      have hlt := stop.lt
      simp only at hle ⊢
      omega

end Reads

/-! ## All iterators -/

/-- The iterators over `src` yield `None` within one call more than `n`. -/
def Finite (I : Type) {S : Type} [Decoder S I] (src : S) (n : Nat) : Prop :=
  ∀ c, Decoder.iter (I := I) src = .ok c → EndsWithin (Decoder.next (S := S) (I := I)) (n + 1) c

theorem finite_of_iter {S I : Type} [Decoder S I] {src : S} {c : Decoder.Cursor S I} (h : Decoder.iter (I := I) src = .ok c)
    (n : Nat) : Finite I src n ↔ EndsWithin (Decoder.next (S := S) (I := I)) (n + 1) c := by
  constructor
  · intro hfin
    exact hfin c h
  · intro hends c' hc'
    rw [h] at hc'
    cases hc'
    exact hends

theorem vecCursor_ends {S I : Type} [Deserialize S] [Decoder S I] {src : Read.Seq} {c : Rows (Decoder.Cursor S I)}
    (h : vecCursor S I src = .ok c) : c.ends = src.ends := by
  obtain ⟨_, -, h⟩ := bind_eq_ok.mp h
  obtain ⟨_, -, h⟩ := bind_eq_ok.mp h
  cases h
  rfl

/-- The iterators that end, and the element reads of a call, for bytes of any length and content. -/
theorem finite_iff (b : Bytes) (src : Read.Seq) :
    (∀ (I : Type) [Fixed I], Finite I b b.length ↔ Fixed.width I ∣ b.length) ∧
    (∀ (I : Type) [Fixed (Option I)],
      Finite (Option I) (Read.OptInSitu.mk b) b.length ↔ Fixed.width (Option I) ∣ b.length) ∧
    (Finite String src src.ends.length ↔ 8 ∣ src.ends.length) ∧
    (Finite (Option String) src src.ends.length ↔ 8 ∣ src.ends.length) ∧
    ∀ (S I : Type) [Deserialize S] (d : Decoder S I),
      (∀ c, (vecDecoder S I).iter src = .ok c →
        (EndsWithin (vecDecoder S I).next (src.ends.length + 1) c ↔ 8 ∣ src.ends.length)) ∧
      (∀ c, (optVecDecoder S I).iter src = .ok c →
        (EndsWithin (optVecDecoder S I).next (src.ends.length + 1) c ↔ 8 ∣ src.ends.length)) ∧
      (∀ c, ((@vecDecoder S I _ d.counted).next c).2.data.2 < c.data.2 + 2 ^ 64) ∧
      ∀ c, ((@optVecDecoder S I _ d.counted).next c).2.data.2 < c.data.2 + 2 ^ 64 := by
  refine ⟨fun I _ => ?_, fun I _ => ?_, ?_, ?_, fun S I _ d => ⟨?_, ?_, ?_, ?_⟩⟩
  · rw [finite_of_iter rfl]
    exact nextFixed_consumes.ends_iff b
  · rw [finite_of_iter rfl]
    exact nextFixed_consumes.ends_iff b
  · rw [finite_of_iter rfl]
    exact (Rows.step_consumes strRow_ends).ends_iff (strCursor src)
  · rw [finite_of_iter rfl]
    exact (Rows.step_consumes (optRow_ends strRow_ends)).ends_iff (strCursor src)
  · intro c hc
    rw [← vecCursor_ends hc]
    exact (Rows.step_consumes vecRow_ends).ends_iff c
  · intro c hc
    rw [← vecCursor_ends hc]
    exact (Rows.step_consumes (optRow_ends presentVecRow_ends)).ends_iff c
  · intro c
    exact Rows.step_reads (@vecRow_reads S I d.counted Prod.snd fun _ => rfl) c
  · intro c
    exact Rows.step_reads (optRow_reads (@presentVecRow_reads S I d.counted Prod.snd fun _ => rfl)) c

/-- A byte too few for an item is reported again and again. -/
theorem not_finite_tail : ¬ Finite (Prim.plain (.uint .b2)).Val ([0] : Bytes) 1 := by
  intro h
  obtain ⟨n, hn⟩ := nextFixed_consumes.dvd_of_ends (h [0] rfl)
  change 1 = 2 * n at hn
  omega

end Msca
