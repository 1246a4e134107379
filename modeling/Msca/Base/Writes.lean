import Msca.Base.Bytes

/-! Positional writes that are taken into a queue and put down later. They reach the bytes in order and part by part, so at
any moment a front of the queue has landed and the rest waits; a process that stops leaves such a front. -/
set_option autoImplicit false

namespace Bytes

/-- A position and the bytes to be written from there on. -/
abbrev Write := Nat × Bytes

/-- The bytes once all of `ws` has landed. -/
def land (bs : Bytes) (ws : List Write) : Bytes := ws.foldl (fun bs w => overlay bs w.1 w.2) bs

theorem land_cons (bs : Bytes) (w : Write) (ws : List Write) : land bs (w :: ws) = land (overlay bs w.1 w.2) ws := rfl

theorem land_append (bs : Bytes) (ws vs : List Write) : land bs (ws ++ vs) = land (land bs ws) vs := List.foldl_append

theorem length_le_overlay (bs data : Bytes) (pos : Nat) : bs.length ≤ (overlay bs pos data).length := by
  rw [overlay_length]
  exact Nat.le_max_left _ _

/-! ## Landing -/

/-- Some of `ws` has landed on `bs`, which gives `cs`, and `vs` is what still waits. -/
inductive Lands : Bytes → List Write → Bytes → List Write → Prop
  | refl (bs : Bytes) (ws : List Write) : Lands bs ws bs ws
  | whole {bs cs data : Bytes} {p : Nat} {ws vs : List Write} (h : Lands (overlay bs p data) ws cs vs) :
      Lands bs ((p, data) :: ws) cs vs
  | part {bs cs a b : Bytes} {p : Nat} {ws vs : List Write} (ha : a ≠ [])
      (h : Lands (overlay bs p a) ((p + a.length, b) :: ws) cs vs) : Lands bs ((p, a ++ b) :: ws) cs vs

namespace Lands
variable {bs cs ds : Bytes} {ws vs us : List Write}

theorem trans (h : Lands bs ws cs vs) (h' : Lands cs vs ds us) : Lands bs ws ds us := by
  induction h with
  | refl => exact h'
  | whole _ ih => exact .whole (ih h')
  | part ha _ ih => exact .part ha (ih h')

/-- What joins the queue waits behind the rest. -/
theorem append (h : Lands bs ws cs vs) (us : List Write) : Lands bs (ws ++ us) cs (vs ++ us) := by
  induction h with
  | refl => exact .refl _ _
  | whole _ ih => exact .whole ih
  | part ha _ ih => exact .part ha ih

theorem join (h : Lands bs ws cs vs) {xs : List Write} (h' : Lands cs (vs ++ us) ds xs) : Lands bs (ws ++ us) ds xs :=
  (h.append us).trans h'

theorem all (bs : Bytes) (ws : List Write) : Lands bs ws (land bs ws) [] := by
  induction ws generalizing bs with
  | nil => exact .refl _ _
  | cons w ws ih => exact .whole (ih _)

/-- It does not matter how much has landed when the rest does. -/
theorem land_eq (h : Lands bs ws cs vs) : land cs vs = land bs ws := by
  induction h with
  | refl => rfl
  | whole _ ih => exact ih
  | part ha _ ih => rw [ih, land_cons, land_cons, overlay_overlay]

theorem drained (h : Lands bs ws cs []) : cs = land bs ws := h.land_eq

theorem of_nil (h : Lands bs [] cs vs) : cs = bs ∧ vs = [] := by
  cases h
  exact ⟨rfl, rfl⟩

theorem length_le (h : Lands bs ws cs vs) : bs.length ≤ cs.length := by
  induction h with
  | refl => exact Nat.le_refl _
  | whole _ ih => exact Nat.le_trans (length_le_overlay _ _ _) ih
  | part ha _ ih => exact Nat.le_trans (length_le_overlay _ _ _) ih

end Lands

/-! ## What holds of every write -/

/-- Parts of a write with `P` have `P`. -/
structure Parted (P : Write → Prop) : Prop where
  front : ∀ p a b, P (p, a ++ b) → P (p, a)
  back : ∀ p a b, P (p, a ++ b) → P (p + a.length, b)

/-- The write ends at `n` or before. -/
def Within (n : Nat) (w : Write) : Prop := w.1 + w.2.length ≤ n

/-- The write lies in front of `lo`, or from `hi` on. -/
def Spares (lo hi : Nat) (w : Write) : Prop := w.1 + w.2.length ≤ lo ∨ hi ≤ w.1

theorem parted_within (n : Nat) : Parted (Within n) := by
  constructor <;> intro p a b h <;> simp only [Within, List.length_append] at h ⊢ <;> omega

theorem parted_spares (lo hi : Nat) : Parted (Spares lo hi) := by
  constructor <;> intro p a b h <;> simp only [Spares, List.length_append] at h ⊢ <;> omega

theorem Spares.mono {lo hi hi' : Nat} {w : Write} (h : Spares lo hi w) (hle : hi' ≤ hi) : Spares lo hi' w :=
  h.imp id fun h => Nat.le_trans hle h

theorem Lands.forall {P : Write → Prop} (hP : Parted P) {bs cs : Bytes} {ws vs : List Write} (h : Lands bs ws cs vs)
    (hws : ∀ w ∈ ws, P w) : ∀ w ∈ vs, P w := by
  induction h with
  | refl => exact hws
  | whole _ ih => exact ih fun w hw => hws w (List.mem_cons_of_mem _ hw)
  | part ha _ ih =>
    refine ih fun w hw => ?_
    rcases List.mem_cons.mp hw with rfl | hw
    · exact hP.back _ _ _ (hws _ List.mem_cons_self)
    · exact hws w (List.mem_cons_of_mem _ hw)

theorem overlay_spares {lo hi : Nat} {bs : Bytes} {w : Write} (hle : hi ≤ bs.length) (h : Spares lo hi w) :
    Agree lo hi bs (overlay bs w.1 w.2) := by
  refine ⟨hle, Nat.le_trans hle (length_le_overlay _ _ _), fun i hlo hi => ?_⟩
  have hin : ¬ (w.1 ≤ i ∧ i < w.1 + w.2.length) := by
    rcases h with h | h <;> omega
  rw [overlay_getElem?_of_lt (by omega), if_neg hin]

/-- Writes that spare a part leave it as it is, however much of them has landed. -/
theorem Lands.agree {lo hi : Nat} {bs cs : Bytes} {ws vs : List Write} (h : Lands bs ws cs vs) (hle : hi ≤ bs.length)
    (hws : ∀ w ∈ ws, Spares lo hi w) : Agree lo hi bs cs := by
  induction h with
  | refl => exact Agree.refl hle
  | @whole bs cs data p ws vs _ ih =>
    have hfirst := overlay_spares hle (hws (p, data) List.mem_cons_self)
    exact hfirst.trans (ih hfirst.right fun w hw => hws w (List.mem_cons_of_mem _ hw))
  | @part bs cs a b p ws vs ha _ ih =>
    have hspares := hws (p, a ++ b) List.mem_cons_self
    have hfirst := overlay_spares hle ((parted_spares lo hi).front p a b hspares)
    refine hfirst.trans (ih hfirst.right fun w hw => ?_)
    rcases List.mem_cons.mp hw with rfl | hw
    · exact (parted_spares lo hi).back p a b hspares
    · exact hws w (List.mem_cons_of_mem _ hw)

theorem land_agree {lo hi : Nat} {bs : Bytes} {ws : List Write} (hle : hi ≤ bs.length) (hws : ∀ w ∈ ws, Spares lo hi w) :
    Agree lo hi bs (land bs ws) := (Lands.all bs ws).agree hle hws

theorem land_length_le {n : Nat} {bs : Bytes} {ws : List Write} (hle : bs.length ≤ n) (hws : ∀ w ∈ ws, Within n w) :
    (land bs ws).length ≤ n := by
  induction ws generalizing bs with
  | nil => exact hle
  | cons w ws ih =>
    refine ih ?_ fun w hw => hws w (List.mem_cons_of_mem _ hw)
    have hw : w.1 + w.2.length ≤ n := hws w List.mem_cons_self
    rw [overlay_length]
    exact Nat.max_le.mpr ⟨hle, hw⟩

/-! ## The first bytes of a queue -/

/-- The first `n` bytes that `ws` writes. -/
def front : List Write → Nat → List Write
  | _, 0 => []
  | [], _ => []
  | (p, data) :: ws, n + 1 =>
    if n + 1 < data.length then [(p, data.take (n + 1))] else (p, data) :: front ws (n + 1 - data.length)

/-- What `ws` writes behind its first `n` bytes. -/
def back : List Write → Nat → List Write
  | ws, 0 => ws
  | [], _ => []
  | (p, data) :: ws, n + 1 =>
    if n + 1 < data.length then (p + (n + 1), data.drop (n + 1)) :: ws else back ws (n + 1 - data.length)

theorem lands_front (bs : Bytes) (ws : List Write) (n : Nat) : Lands bs ws (land bs (front ws n)) (back ws n) := by
  induction ws generalizing bs n with
  | nil => cases n <;> exact .refl _ _
  | cons w ws ih =>
    obtain ⟨p, data⟩ := w
    cases n with
    | zero => exact .refl _ _
    | succ n =>
      rw [front, back]
      split
      next hlt =>
        have htake : (data.take (n + 1)).length = n + 1 := by
          rw [List.length_take]
          omega
        have hsplit : data.take (n + 1) ++ data.drop (n + 1) = data := List.take_append_drop _ _
        have hpart : Lands bs ((p, data.take (n + 1) ++ data.drop (n + 1)) :: ws) (overlay bs p (data.take (n + 1)))
            ((p + (n + 1), data.drop (n + 1)) :: ws) := by
          refine .part (List.ne_nil_of_length_pos (by omega)) ?_
          rw [htake]
          exact .refl _ _
        rwa [hsplit] at hpart
      next => exact .whole (ih _ _)

theorem front_cons {p n : Nat} {data : Bytes} {ws : List Write} (hne : data ≠ []) (hle : data.length ≤ n) :
    front ((p, data) :: ws) n = (p, data) :: front ws (n - data.length) := by
  have hpos := List.length_pos_iff.mpr hne
  obtain ⟨n, rfl⟩ := Nat.exists_eq_add_one_of_ne_zero (by omega : n ≠ 0)
  rw [front, if_neg (by omega)]

theorem land_front_singleton {bs data : Bytes} {p : Nat} (hp : p ≤ bs.length) (n : Nat) :
    land bs (front [(p, data)] n) = overlay bs p (data.take n) := by
  cases n with
  | zero => rw [List.take_zero, overlay_nil hp, front]; rfl
  | succ n =>
    rw [front]
    split
    next => rfl
    next hlt =>
      have hrest : ∀ m, front [] m = [] := fun m => by cases m <;> rfl
      rw [hrest, List.take_of_length_le (by omega)]
      rfl

theorem front_of_lt {ws : List Write} {n : Nat} (h : (ws.map fun w => w.2.length).sum < n) : front ws n = ws := by
  induction ws generalizing n with
  | nil => cases n <;> rfl
  | cons w ws ih =>
    rw [List.map_cons, List.sum_cons] at h
    obtain ⟨n, rfl⟩ := Nat.exists_eq_add_one_of_ne_zero (Nat.ne_of_gt (Nat.lt_of_le_of_lt (Nat.zero_le _) h))
    rw [front, if_neg (by omega), ih (by omega)]

theorem front_forall {P : Write → Prop} (hP : Parted P) {ws : List Write} (hws : ∀ w ∈ ws, P w) (n : Nat) :
    ∀ w ∈ front ws n, P w := by
  induction ws generalizing n with
  | nil => cases n <;> exact hws
  | cons w ws ih =>
    obtain ⟨p, data⟩ := w
    cases n with
    | zero => simp [front]
    | succ n =>
      rw [front]
      split
      next =>
        intro w hw
        rw [List.mem_singleton.mp hw]
        refine hP.front p (data.take (n + 1)) (data.drop (n + 1)) ?_
        rw [List.take_append_drop]
        exact hws _ List.mem_cons_self
      next =>
        intro w hw
        rcases List.mem_cons.mp hw with rfl | hw
        · exact hws _ List.mem_cons_self
        · exact ih (fun w hw => hws w (List.mem_cons_of_mem _ hw)) _ w hw

end Bytes
