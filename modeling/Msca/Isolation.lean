import Msca.Drain

/-! Rows of a sequence over arbitrary ends and data. What a row is taken from depends on the rows in front of it by
two positions, the running start and the elements already read, and a row is its own range exactly where
both are what the recorded ends say. -/
namespace Msca
set_option autoImplicit false
open Checked Polling

/-- The end recorded for row `i`. -/
def recorded (ends : Bytes) (i : Nat) : Nat := Bytes.ofLe ((ends.drop (8 * i)).take 8)

/-- The start of row `i`: the end recorded for the nearest earlier row that is not skipped. -/
def origin (skip : Nat → Bool) (e : Nat → Nat) : Nat → Nat
  | 0 => 0
  | i + 1 => if skip (e i) then origin skip e i else e i

/-- The first `n` outcomes are items or errors, and each item is the one expected at its position. -/
def Isolated {C R : Type} (next : C → Option (Res R) × C) (c : C) (n : Nat) (exact : Nat → R → Prop) : Prop :=
  ∀ i < n, ∃ out, (next (after next i c)).1 = some out ∧ ∀ r, out = .ok r → exact i r

/-- No row is marked as absent. -/
def unmarked (_ : Nat) : Bool := false

/-- A row is marked as absent by the largest word. -/
def marked (stop : Nat) : Bool := stop == U64.max.val

/-! ## The run of the rows -/

section Rows
variable {D R : Type} {row : Nat → Rows D → Res R × Rows D}

theorem Rows.step_whole {ends : Bytes} (h : 8 ≤ ends.length) (start : Nat) (d : D) :
    Rows.step ⟨ends, start, d⟩ row =
      (some (row (Bytes.ofLe (ends.take 8)) ⟨ends.drop 8, start, d⟩).1,
        (row (Bytes.ofLe (ends.take 8)) ⟨ends.drop 8, start, d⟩).2) := by
  have hlt : Bytes.ofLe (ends.take 8) < 2 ^ 64 := by
    have hle := Bytes.ofLe_lt (ends.take 8)
    rw [List.length_take, Nat.min_eq_left h] at hle
    exact hle
  have hword : Fixed.toLe (U64.clamp (Bytes.ofLe (ends.take 8))) = ends.take 8 := by
    change Bytes.leBytes 8 (U64.clamp (Bytes.ofLe (ends.take 8))).val = _
    rw [U64.clamp_val hlt]
    have hback := Bytes.leBytes_ofLe (ends.take 8)
    rwa [List.length_take, Nat.min_eq_left h] at hback
  have hstep : Rows.step ⟨Fixed.toLe (U64.clamp (Bytes.ofLe (ends.take 8))) ++ ends.drop 8, start, d⟩ row = _ :=
    step_cons (U64.clamp (Bytes.ofLe (ends.take 8))) (ends.drop 8) start d
  rwa [hword, List.take_append_drop, U64.clamp_val hlt] at hstep

theorem optRow_of_ne {stop : Nat} (h : stop ≠ U64.max.val) (c : Rows D) :
    optRow row stop c = (some <$> (row stop c).1, (row stop c).2) := if_neg h

variable (row) in
/-- Rows that leave the cursor at known positions are judged one by one from these positions. -/
theorem isolated_iff {ends : Bytes} {start : Nat → Nat} {data : Nat → D}
    (hrow : ∀ i rest, (row (recorded ends i) ⟨rest, start i, data i⟩).2 = ⟨rest, start (i + 1), data (i + 1)⟩)
    (exact : Nat → R → Prop) :
    Isolated (fun c : Rows D => c.step row) ⟨ends, start 0, data 0⟩ (ends.length / 8) exact ↔
      ∀ i < ends.length / 8, ∀ r, (row (recorded ends i) ⟨ends.drop (8 * i + 8), start i, data i⟩).1 = .ok r → exact i r := by
  have hstep : ∀ i < ends.length / 8, Rows.step ⟨ends.drop (8 * i), start i, data i⟩ row =
      (some (row (recorded ends i) ⟨ends.drop (8 * i + 8), start i, data i⟩).1,
        ⟨ends.drop (8 * i + 8), start (i + 1), data (i + 1)⟩) := by
    intro i hi
    rw [Rows.step_whole (by rw [List.length_drop]; omega), List.drop_drop]
    exact Prod.ext rfl (hrow i _)
  have hafter : ∀ i ≤ ends.length / 8, after (fun c : Rows D => c.step row) i ⟨ends, start 0, data 0⟩ =
      ⟨ends.drop (8 * i), start i, data i⟩ := by
    intro i hi
    induction i with
    | zero => rfl
    | succ i ih => rw [after_succ', ih (by omega), hstep i (by omega), Nat.mul_succ]
  have hpoll : ∀ i < ends.length / 8, (Rows.step (after (fun c : Rows D => c.step row) i ⟨ends, start 0, data 0⟩) row).1 =
      some (row (recorded ends i) ⟨ends.drop (8 * i + 8), start i, data i⟩).1 := by
    intro i hi
    rw [hafter i (Nat.le_of_lt hi), hstep i hi]
  constructor
  · intro h i hi r hr
    obtain ⟨out, hout, hall⟩ := h i hi
    have hsame := (hpoll i hi).symm.trans hout
    exact hall r (Option.some.inj hsame ▸ hr)
  · intro h i hi
    exact ⟨_, hpoll i hi, h i hi⟩

end Rows

/-! ## Text -/

/-- The text of a row is the bytes from `start` to `stop`, all of which the data holds. -/
def Text (data : Bytes) (start stop : Nat) (s : String) : Prop :=
  start ≤ stop ∧ stop ≤ data.length ∧ intoBytes s = Bytes.slice data start (stop - start)

/-- The end of the last row in front of `i` that was in order and inside the data. -/
def accepted (skip : Nat → Bool) (data : Bytes) (e : Nat → Nat) : Nat → Nat
  | 0 => 0
  | i + 1 =>
    if skip (e i) = false ∧ accepted skip data e i ≤ e i ∧ e i ≤ data.length then e i else accepted skip data e i

/-- A row that can be read from the last accepted end follows the accepted row itself. -/
def TextInStep (skip : Nat → Bool) (data : Bytes) (e : Nat → Nat) (i : Nat) : Prop :=
  skip (e i) = false → ∀ s, Text data (accepted skip data e i) (e i) s → accepted skip data e i = origin skip e i

theorem fromUtf8_eq_ok {bs : Bytes} {s : String} : fromUtf8 bs = .ok s ↔ intoBytes s = bs := by
  constructor
  · intro h
    have hsome := okOr_eq_ok.mp h
    rw [String.fromUTF8?] at hsome
    split at hsome
    · cases hsome
      rfl
    · cases hsome
  · rintro rfl
    exact fromUtf8_intoBytes s

theorem Text.length {data : Bytes} {start stop : Nat} {s : String} (h : Text data start stop s) :
    (intoBytes s).length = stop - start := by
  obtain ⟨hle, hlen, heq⟩ := h
  rw [heq, Bytes.slice_length (by omega)]

/-- A string row passes its range, whatever its text, or stays where it is. -/
theorem strRow_cases {data : Bytes} {start : Nat} (h : start ≤ data.length) (rest : Bytes) (stop : Nat) :
    (start ≤ stop ∧ stop ≤ data.length ∧ strRow stop ⟨rest, start, data.drop start⟩ =
        (fromUtf8 (Bytes.slice data start (stop - start)), ⟨rest, stop, data.drop stop⟩)) ∨
      ¬ (start ≤ stop ∧ stop ≤ data.length) ∧
        ∃ f, strRow stop ⟨rest, start, data.drop start⟩ = (.error f, ⟨rest, start, data.drop start⟩) := by
  by_cases hle : start ≤ stop
  · by_cases hlen : stop ≤ data.length
    · refine Or.inl ⟨hle, hlen, ?_⟩
      have hfits : stop - start ≤ (data.drop start).length := by
        rw [List.length_drop]
        omega
      rw [strRow, subOr_of_le hle]
      simp only [if_pos hfits, List.drop_drop, Nat.add_sub_cancel' hle]
      rfl
    · have hover : ¬ stop - start ≤ (data.drop start).length := by
        rw [List.length_drop]
        omega
      refine Or.inr ⟨fun hin => hlen hin.2, truncated (stop - start) (data.drop start).length, ?_⟩
      rw [strRow, subOr_of_le hle]
      simp only [if_neg hover]
  · refine Or.inr ⟨fun hin => hle hin.1, zeroError, ?_⟩
    rw [strRow, subOr_of_lt (Nat.lt_of_not_le hle)]

theorem strRow_ok_iff {data : Bytes} {start : Nat} (h : start ≤ data.length) (rest : Bytes) (stop : Nat) (s : String) :
    (strRow stop ⟨rest, start, data.drop start⟩).1 = .ok s ↔ Text data start stop s := by
  rcases strRow_cases h rest stop with ⟨hle, hlen, hrow⟩ | ⟨hout, f, hrow⟩
  · rw [hrow, fromUtf8_eq_ok]
    exact ⟨fun heq => ⟨hle, hlen, heq⟩, fun ht => ht.2.2⟩
  · rw [hrow]
    constructor
    · intro hf
      cases hf
    · intro ht
      exact absurd ⟨ht.1, ht.2.1⟩ hout

theorem accepted_le (skip : Nat → Bool) (data : Bytes) (e : Nat → Nat) (i : Nat) :
    accepted skip data e i ≤ data.length := by
  induction i with
  | zero => exact Nat.zero_le _
  | succ i ih =>
    rw [accepted]
    split
    next h => exact h.2.2
    next => exact ih

/-- Rows that are readable from the last accepted end are their own ranges exactly where they are in step. -/
theorem text_inStep_iff {skip : Nat → Bool} {data : Bytes} {e : Nat → Nat} {i : Nat} (hskip : skip (e i) = false) :
    (∀ s, Text data (accepted skip data e i) (e i) s → Text data (origin skip e i) (e i) s) ↔
      TextInStep skip data e i := by
  constructor
  · intro h _ s hs
    have hown := h s hs
    have hlen := hs.length.symm.trans hown.length
    have hle := hs.1
    have hle' := hown.1
    omega
  · intro h s hs
    exact h hskip s hs ▸ hs

section Strings
variable (skip : Nat → Bool) (data : Bytes) (e : Nat → Nat) (i : Nat) (rest : Bytes)

theorem strRow_rest (hskip : skip (e i) = false) :
    (strRow (e i) ⟨rest, accepted skip data e i, data.drop (accepted skip data e i)⟩).2 =
      ⟨rest, accepted skip data e (i + 1), data.drop (accepted skip data e (i + 1))⟩ := by
  rw [accepted]
  rcases strRow_cases (accepted_le skip data e i) rest (e i) with ⟨hle, hlen, hrow⟩ | ⟨hout, f, hrow⟩
  · rw [hrow, if_pos ⟨hskip, hle, hlen⟩]
  · rw [hrow, if_neg fun h => hout h.2]

theorem strRow_iff : (∀ s, (strRow (e i) ⟨rest, accepted unmarked data e i, data.drop (accepted unmarked data e i)⟩).1 = .ok s →
    Text data (origin unmarked e i) (e i) s) ↔ TextInStep unmarked data e i := by
  simp only [strRow_ok_iff (accepted_le unmarked data e i)]
  exact text_inStep_iff rfl

theorem optStrRow_rest :
    (optRow strRow (e i) ⟨rest, accepted marked data e i, data.drop (accepted marked data e i)⟩).2 =
      ⟨rest, accepted marked data e (i + 1), data.drop (accepted marked data e (i + 1))⟩ := by
  by_cases hmax : e i = U64.max.val
  · simp [optRow, accepted, marked, hmax]
  · rw [optRow_of_ne hmax]
    exact strRow_rest marked data e i rest (by simp [marked, hmax])

theorem optStrRow_iff :
    (∀ r, (optRow strRow (e i) ⟨rest, accepted marked data e i, data.drop (accepted marked data e i)⟩).1 = .ok r →
      marked (e i) = false → ∃ s, r = some s ∧ Text data (origin marked e i) (e i) s) ↔ TextInStep marked data e i := by
  by_cases hmax : e i = U64.max.val
  · have hmark : marked (e i) = true := by simp [marked, hmax]
    constructor
    · intro _ h
      rw [hmark] at h
      cases h
    · intro _ r _ h
      rw [hmark] at h
      cases h
  · have hmark : marked (e i) = false := by simp [marked, hmax]
    rw [← text_inStep_iff hmark, optRow_of_ne hmax]
    constructor
    · intro h s hs
      obtain ⟨t, ht, htext⟩ := h (some s) (by rw [(strRow_ok_iff (accepted_le marked data e i) rest (e i) s).mpr hs]; rfl) hmark
      cases ht
      exact htext
    · intro h r hr _
      cases hrow : (strRow (e i) ⟨rest, accepted marked data e i, data.drop (accepted marked data e i)⟩).1 with
      | error f =>
        rw [hrow] at hr
        cases hr
      | ok s =>
        rw [hrow] at hr
        cases hr
        exact ⟨s, rfl, h s ((strRow_ok_iff (accepted_le marked data e i) rest (e i) s).mp hrow)⟩

end Strings

/-! ## Elements -/

section Elements
variable {I : Type}

/-- The elements from `start` to `stop`, all of which are there and can be decoded. -/
def Elements (o : Nat → Option (Res I)) (start stop : Nat) (xs : List I) : Prop :=
  start ≤ stop ∧ (List.range' start (stop - start)).map o = xs.map fun x => some (.ok x)

/-- Reading `n` elements from `p` on meets one that cannot be decoded. -/
def Fails (o : Nat → Option (Res I)) : Nat → Nat → Prop
  | _, 0 => False
  | p, n + 1 => (∃ f, o p = some (.error f)) ∨ (∃ x, o p = some (.ok x)) ∧ Fails o (p + 1) n

/-- The elements that reading `n` of them from `p` on takes, the failing one included. -/
def consumed (o : Nat → Option (Res I)) : Nat → Nat → Nat
  | _, 0 => 0
  | p, n + 1 =>
    match o p with
    | some (.ok _) => consumed o (p + 1) n + 1
    | _ => 1

/-- `n` elements can be decoded both from `p` and from `q` on, and are the same. -/
def Coincide (o : Nat → Option (Res I)) (p q n : Nat) : Prop :=
  ∀ k < n, ∃ x, o (p + k) = some (.ok x) ∧ o (q + k) = some (.ok x)

theorem coincide_succ {o : Nat → Option (Res I)} {p q n : Nat} {x : I} (hp : o p = some (.ok x)) :
    Coincide o p q (n + 1) ↔ o q = some (.ok x) ∧ Coincide o (p + 1) (q + 1) n := by
  constructor
  · intro h
    obtain ⟨y, hy, hq⟩ := h 0 (Nat.succ_pos n)
    rw [Nat.add_zero, hp] at hy
    cases hy
    refine ⟨hq, fun k hk => ?_⟩
    rw [Nat.add_right_comm p, Nat.add_right_comm q]
    exact h (k + 1) (by omega)
  · rintro ⟨hq, h⟩ k hk
    cases k with
    | zero => exact ⟨x, hp, hq⟩
    | succ k =>
      rw [← Nat.add_assoc, ← Nat.add_assoc, Nat.add_right_comm p, Nat.add_right_comm q]
      exact h k (by omega)

variable {S : Type} [Decoder S I]

/-- The outcome of the read of element `j`. -/
def element (c : Decoder.Cursor S I) (j : Nat) : Option (Res I) := (Decoder.next (after Decoder.next j c)).1

theorem takeCollect_rest (c : Decoder.Cursor S I) (p n : Nat) :
    (takeCollect Decoder.next n (after Decoder.next p c)).2 = after Decoder.next (p + consumed (element c) p n) c := by
  induction n generalizing p with
  | zero => rfl
  | succ n ih =>
    have hrest := ih (p + 1)
    rw [after_succ'] at hrest
    rw [takeCollect, consumed, element]
    split
    next h => simp only [h, after_succ']
    next h => simp only [h, after_succ']
    next h =>
      simp only [h]
      rw [hrest, Nat.add_assoc, Nat.add_comm 1]

theorem takeCollect_fails {c : Decoder.Cursor S I} {p n : Nat} (h : Fails (element c) p n) :
    ∃ f, (takeCollect Decoder.next n (after Decoder.next p c)).1 = .error f := by
  induction n generalizing p with
  | zero => exact h.elim
  | succ n ih =>
    rw [takeCollect]
    rcases h with ⟨f, hf⟩ | ⟨⟨x, hx⟩, h⟩
    · rw [element] at hf
      simp only [hf]
      exact ⟨f, rfl⟩
    · obtain ⟨f, hf⟩ := ih h
      rw [after_succ'] at hf
      rw [element] at hx
      simp only [hx, hf]
      exact ⟨f, rfl⟩

/-- Without a failure the items read are the elements from `p` on, up to the end of the data. -/
theorem takeCollect_ok {c : Decoder.Cursor S I} {p n : Nat} (h : ¬ Fails (element c) p n) :
    ∃ xs, (takeCollect Decoder.next n (after Decoder.next p c)).1 = .ok xs ∧ xs.length ≤ n ∧
      ∀ q, (List.range' q n).map (element c) = xs.map (fun x => some (.ok x)) ↔ Coincide (element c) p q n := by
  induction n generalizing p with
  | zero => exact ⟨[], rfl, Nat.le_refl 0, fun q => by simp [Coincide]⟩
  | succ n ih =>
    rw [takeCollect]
    cases hp : element c p with
    | none =>
      refine ⟨[], ?_, Nat.zero_le _, fun q => ?_⟩
      · rw [element] at hp
        simp only [hp]
      · constructor
        · intro hq
          cases hq
        · intro hq
          obtain ⟨x, hx, -⟩ := hq 0 (Nat.succ_pos n)
          rw [Nat.add_zero, hp] at hx
          cases hx
    | some out =>
      cases out with
      | error f => exact absurd (Or.inl ⟨f, hp⟩) h
      | ok x =>
        obtain ⟨xs, hxs, hlen, hall⟩ := ih fun hrest => h (Or.inr ⟨⟨x, hp⟩, hrest⟩)
        refine ⟨x :: xs, ?_, Nat.succ_le_succ hlen, fun q => ?_⟩
        · rw [after_succ'] at hxs
          have hnext := hp
          rw [element] at hnext
          simp only [hnext, hxs]
          rfl
        · rw [coincide_succ hp, ← hall, List.range'_succ, List.map_cons, List.map_cons, List.cons.injEq]

end Elements

/-! ## Vectors -/

section Vectors
variable {I : Type} (skip : Nat → Bool) (o : Nat → Option (Res I)) (e : Nat → Nat)

/-- The greatest end recorded in front of row `i`. -/
def highest (e : Nat → Nat) : Nat → Nat
  | 0 => 0
  | i + 1 => max (highest e i) (e i)

/-- The elements taken by the rows in front of row `i`, where row `i` begins at `start i`. -/
def reached (start : Nat → Nat) : Nat → Nat
  | 0 => 0
  | i + 1 => if skip (e i) then reached start i else reached start i + consumed o (reached start i) (e i - start i)

/-- A row in order that decodes from the elements reached begins at its own start and is its own range. -/
def VecInStep (i : Nat) : Prop :=
  highest e i ≤ e i → ¬ Fails o (reached unmarked o e (highest e) i) (e i - highest e i) →
    highest e i = origin unmarked e i ∧ Coincide o (reached unmarked o e (highest e) i) (highest e i) (e i - highest e i)

/-- A present row that decodes from the elements reached is in order and is its own range. -/
def OptVecInStep (i : Nat) : Prop :=
  marked (e i) = false → ¬ Fails o (reached marked o e (origin marked e) i) (e i - origin marked e i) →
    origin marked e i ≤ e i ∧
      Coincide o (reached marked o e (origin marked e) i) (origin marked e i) (e i - origin marked e i)

theorem origin_le_highest (e : Nat → Nat) (i : Nat) : origin unmarked e i ≤ highest e i := by
  cases i with
  | zero => exact Nat.le_refl 0
  | succ i => exact Nat.le_max_right _ _

variable {S : Type} [Decoder S I] (c : Decoder.Cursor S I)

theorem vecRow_rest (i : Nat) (rest : Bytes) :
    (vecRow (e i) ⟨rest, highest e i, after Decoder.next (reached unmarked (element c) e (highest e) i) c⟩).2 =
      ⟨rest, highest e (i + 1), after Decoder.next (reached unmarked (element c) e (highest e) (i + 1)) c⟩ := by
  by_cases hle : highest e i ≤ e i
  · rw [vecRow, subOr_of_le hle]
    simp only [takeCollect_rest]
    rw [highest, reached, Nat.max_eq_right hle]
    rfl
  · rw [vecRow, subOr_of_lt (Nat.lt_of_not_le hle)]
    have hzero : e i - highest e i = 0 := by omega
    rw [highest, reached, Nat.max_eq_left (by omega), hzero]
    rfl

theorem vecRow_iff (i : Nat) (rest : Bytes) :
    (∀ xs, (vecRow (e i) ⟨rest, highest e i, after Decoder.next (reached unmarked (element c) e (highest e) i) c⟩).1 = .ok xs →
        Elements (element c) (origin unmarked e i) (e i) xs) ↔ VecInStep (element c) e i := by
  by_cases hle : highest e i ≤ e i
  · rw [vecRow, subOr_of_le hle]
    by_cases hfails : Fails (element c) (reached unmarked (element c) e (highest e) i) (e i - highest e i)
    · obtain ⟨f, hf⟩ := takeCollect_fails hfails
      simp only [hf]
      constructor
      · intro _ _ h
        exact absurd hfails h
      · intro _ xs h
        cases h
    · obtain ⟨xs, hxs, hlen, hall⟩ := takeCollect_ok hfails
      simp only [hxs]
      constructor
      · intro h _ _
        obtain ⟨hstart, hmap⟩ := h xs rfl
        have hcount := congrArg List.length hmap
        rw [List.length_map, List.length_map, List.length_range'] at hcount
        have hlow := origin_le_highest e i
        have hsame : highest e i = origin unmarked e i := by omega
        rw [← hsame] at hmap
        exact ⟨hsame, (hall _).mp hmap⟩
      · intro h ys hys
        obtain ⟨hsame, hagree⟩ := h hle hfails
        cases hys
        rw [← hsame]
        exact ⟨hle, (hall _).mpr hagree⟩
  · rw [vecRow, subOr_of_lt (Nat.lt_of_not_le hle)]
    constructor
    · intro _ h
      exact absurd h hle
    · intro _ xs h
      cases h

theorem presentVecRow_rest (i : Nat) (rest : Bytes) :
    (optRow presentVecRow (e i)
        ⟨rest, origin marked e i, after Decoder.next (reached marked (element c) e (origin marked e) i) c⟩).2 =
      ⟨rest, origin marked e (i + 1), after Decoder.next (reached marked (element c) e (origin marked e) (i + 1)) c⟩ := by
  rw [optRow, origin, reached]
  by_cases hmax : e i = U64.max.val
  · simp [marked, hmax]
  · simp [marked, hmax, presentVecRow, takeCollect_rest]

theorem presentVecRow_iff (i : Nat) (rest : Bytes) :
    (∀ r, (optRow presentVecRow (e i)
        ⟨rest, origin marked e i, after Decoder.next (reached marked (element c) e (origin marked e) i) c⟩).1 = .ok r →
      marked (e i) = false → ∃ xs, r = some xs ∧ Elements (element c) (origin marked e i) (e i) xs) ↔
      OptVecInStep (element c) e i := by
  by_cases hmax : e i = U64.max.val
  · have hmark : marked (e i) = true := by simp [marked, hmax]
    constructor
    · intro _ h
      rw [hmark] at h
      cases h
    · intro _ r _ h
      rw [hmark] at h
      cases h
  · have hmark : marked (e i) = false := by simp [marked, hmax]
    rw [optRow_of_ne hmax]
    simp only [presentVecRow]
    by_cases hfails : Fails (element c) (reached marked (element c) e (origin marked e) i) (e i - origin marked e i)
    · obtain ⟨f, hf⟩ := takeCollect_fails hfails
      rw [hf]
      constructor
      · intro _ _ h
        exact absurd hfails h
      · intro _ r h
        cases h
    · obtain ⟨xs, hxs, -, hall⟩ := takeCollect_ok hfails
      rw [hxs]
      constructor
      · intro h _ _
        obtain ⟨ys, hys, hstart, hmap⟩ := h (some xs) rfl hmark
        cases hys
        exact ⟨hstart, (hall _).mp hmap⟩
      · intro h r hr _
        obtain ⟨hstart, hagree⟩ := h hmark hfails
        cases hr
        exact ⟨xs, rfl, hstart, (hall _).mpr hagree⟩

end Vectors

/-! ## All rows -/

/-- The rows of a sequence are their own ranges exactly where each row that can be read is in step with the rows in
front of it. -/
theorem seq_isolated_iff (src : Read.Seq) :
    (Isolated (Decoder.next (S := Read.Seq) (I := String)) (strCursor src) (src.ends.length / 8)
        (fun i s => Text src.data (origin unmarked (recorded src.ends) i) (recorded src.ends i) s) ↔
      ∀ i < src.ends.length / 8, TextInStep unmarked src.data (recorded src.ends) i) ∧
    (Isolated (Decoder.next (S := Read.Seq) (I := Option String)) (strCursor src) (src.ends.length / 8)
        (fun i r => marked (recorded src.ends i) = false →
          ∃ s, r = some s ∧ Text src.data (origin marked (recorded src.ends) i) (recorded src.ends i) s) ↔
      ∀ i < src.ends.length / 8, TextInStep marked src.data (recorded src.ends) i) ∧
    ∀ (S I : Type) [Deserialize S] [Decoder S I] (c : Rows (Decoder.Cursor S I)), vecCursor S I src = .ok c →
      (Isolated (vecDecoder S I).next c (src.ends.length / 8)
          (fun i xs => Elements (element c.data) (origin unmarked (recorded src.ends) i) (recorded src.ends i) xs) ↔
        ∀ i < src.ends.length / 8, VecInStep (element c.data) (recorded src.ends) i) ∧
      (Isolated (optVecDecoder S I).next c (src.ends.length / 8)
          (fun i r => marked (recorded src.ends i) = false →
            ∃ xs, r = some xs ∧ Elements (element c.data) (origin marked (recorded src.ends) i) (recorded src.ends i) xs) ↔
        ∀ i < src.ends.length / 8, OptVecInStep (element c.data) (recorded src.ends) i) := by
  refine ⟨?_, ?_, ?_⟩
  · refine (isolated_iff strRow (fun i rest => strRow_rest unmarked src.data _ i rest rfl) _).trans ?_
    exact forall₂_congr fun i _ => strRow_iff src.data _ i _
  · refine (isolated_iff (optRow strRow) (fun i rest => optStrRow_rest src.data _ i rest) _).trans ?_
    exact forall₂_congr fun i _ => optStrRow_iff src.data _ i _
  · intro S I _ _ c hc
    obtain ⟨elems, -, hc⟩ := bind_eq_ok.mp hc
    obtain ⟨d, -, hc⟩ := bind_eq_ok.mp hc
    cases hc
    constructor
    · refine (isolated_iff vecRow (fun i rest => vecRow_rest _ d i rest) _).trans ?_
      exact forall₂_congr fun i _ => vecRow_iff _ d i _
    · refine (isolated_iff (optRow presentVecRow) (fun i rest => presentVecRow_rest _ d i rest) _).trans ?_
      exact forall₂_congr fun i _ => presentVecRow_iff _ d i _

abbrev NonZeroU8 := (Prim.niche (.nonZeroUInt .b1)).Val

theorem one_valid : 1 < 256 ^ (Prim.niche (.nonZeroUInt .b1)).size ∧ (Prim.niche (.nonZeroUInt .b1)).Valid 1 := by decide

/-- The first of three elements is no `NonZero`; the rows end behind the second and the third. -/
def shifted : Read.Seq := ⟨[2, 0, 0, 0, 0, 0, 0, 0, 3, 0, 0, 0, 0, 0, 0, 0], [0, 1, 2]⟩

/-- The row behind a failed one is taken from where the failed one stopped. -/
theorem not_isolated_shifted : ¬ Isolated (vecDecoder Bytes NonZeroU8).next ⟨shifted.ends, 0, shifted.data⟩ 2
    (fun i xs => Elements (element (S := Bytes) shifted.data) (origin unmarked (recorded shifted.ends) i)
      (recorded shifted.ends i) xs) := by
  intro h
  obtain ⟨out, hout, hall⟩ := h 1 (by decide)
  have hread : ((vecDecoder Bytes NonZeroU8).next (after (vecDecoder Bytes NonZeroU8).next 1
      ⟨shifted.ends, 0, shifted.data⟩)).1 = some (.ok [⟨1, one_valid.1, one_valid.2⟩]) := rfl
  obtain ⟨-, hmap⟩ := hall _ (Option.some.inj (hout.symm.trans hread))
  have hone : element (S := Bytes) (I := NonZeroU8) shifted.data 2 = some (.ok ⟨1, one_valid.1, one_valid.2⟩) :=
    (List.cons.inj hmap).1
  have hbits : (element (S := Bytes) (I := NonZeroU8) shifted.data 2).map (Except.map Prim.Val.bits) = some (.ok 2) := rfl
  rw [hone] at hbits
  cases hbits

end Msca
