import Mathlib

/-! Finite sets ordered and identified by a key, and the ordered maps they specialise to. A set is
its items in key order; two items with one key are one element, and inserting the second of them
changes nothing. -/
set_option autoImplicit false

/-- Items in strictly increasing order of `key`. -/
@[ext] structure KeySet {β κ : Type} [LinearOrder κ] (key : β → κ) where
  items : List β
  sorted : items.Pairwise fun a b => key a < key b

namespace KeySet
variable {β κ : Type} [LinearOrder κ] {key : β → κ}

instance [DecidableEq β] : DecidableEq (KeySet key) := fun a b =>
  decidable_of_iff (a.items = b.items) KeySet.ext_iff.symm

def empty : KeySet key := ⟨[], List.Pairwise.nil⟩

/-- Ordered insertion; an item with a present key is dropped. -/
def insertItems (key : β → κ) (b : β) : List β → List β
  | [] => [b]
  | c :: cs =>
    if key b < key c then b :: c :: cs
    else if key c < key b then c :: insertItems key b cs
    else c :: cs

theorem mem_insertItems {b a : β} {l : List β} (h : a ∈ insertItems key b l) : a = b ∨ a ∈ l := by
  induction l with
  | nil => exact Or.inl (by simpa [insertItems] using h)
  | cons c cs ih =>
    rw [insertItems] at h
    split_ifs at h with h1 h2
    · exact List.mem_cons.mp h
    · rcases List.mem_cons.mp h with rfl | h
      · exact Or.inr List.mem_cons_self
      · exact (ih h).imp_right (List.mem_cons_of_mem _)
    · exact Or.inr h

theorem insertItems_sorted (b : β) {l : List β} (hl : l.Pairwise fun a b => key a < key b) :
    (insertItems key b l).Pairwise fun a b => key a < key b := by
  induction l with
  | nil => simp [insertItems]
  | cons c cs ih =>
    obtain ⟨hc, hcs⟩ := List.pairwise_cons.mp hl
    rw [insertItems]
    split_ifs with h1 h2
    · refine List.pairwise_cons.mpr ⟨fun a ha => ?_, hl⟩
      rcases List.mem_cons.mp ha with rfl | ha
      · exact h1
      · exact lt_trans h1 (hc a ha)
    · refine List.pairwise_cons.mpr ⟨fun a ha => ?_, ih hcs⟩
      rcases mem_insertItems ha with rfl | ha
      · exact h2
      · exact hc a ha
    · exact hl

/-- Insertion into the set. -/
def insert (b : β) (s : KeySet key) : KeySet key := ⟨insertItems key b s.items, insertItems_sorted b s.sorted⟩

/-- The item stored under `k`. -/
def find? (k : κ) (s : KeySet key) : Option β := s.items.find? fun b => decide (key b = k)

theorem insert_above {b : β} {s : KeySet key} (h : ∀ a ∈ s.items, key a < key b) :
    (s.insert b).items = s.items ++ [b] := by
  obtain ⟨l, hl⟩ := s
  simp only [insert] at h ⊢
  induction l with
  | nil => rfl
  | cons c cs ih =>
    have hc : key c < key b := h c List.mem_cons_self
    rw [insertItems, if_neg (not_lt_of_gt hc), if_pos hc,
      ih (List.pairwise_cons.mp hl).2 fun a ha => h a (List.mem_cons_of_mem _ ha)]
    rfl

theorem find?_eq_some {k : κ} {s : KeySet key} {b : β} (h : s.find? k = some b) :
    b ∈ s.items ∧ key b = k :=
  ⟨List.mem_of_find?_eq_some h, by simpa using List.find?_some h⟩

theorem find?_eq_none {k : κ} {s : KeySet key} : s.find? k = none ↔ ∀ b ∈ s.items, key b ≠ k := by
  simp [find?, List.find?_eq_none]

theorem eq_of_key {s : KeySet key} {a b : β} (ha : a ∈ s.items) (hb : b ∈ s.items)
    (h : key a = key b) : a = b := by
  by_contra hne
  have hor : ∀ x ∈ s.items, ∀ y ∈ s.items, x ≠ y → key x < key y ∨ key y < key x := by
    intro x hx y hy hxy
    exact List.Pairwise.forall_of_forall_of_flip (R := fun x y => x ≠ y → key x < key y ∨ key y < key x)
      (fun _ _ hx => absurd rfl hx) (s.sorted.imp fun h _ => Or.inl h)
      (s.sorted.imp fun h _ => Or.inr h) hx hy hxy
  rcases hor a ha b hb hne with h' | h'
  · exact absurd h' (h ▸ lt_irrefl _)
  · exact absurd h' (h ▸ lt_irrefl _)

theorem find?_of_mem {s : KeySet key} {b : β} (h : b ∈ s.items) : s.find? (key b) = some b := by
  cases hf : s.find? (key b) with
  | none => exact absurd rfl (find?_eq_none.mp hf b h)
  | some c =>
    obtain ⟨hc, hk⟩ := find?_eq_some hf
    rw [eq_of_key hc h hk]

theorem mem_insert_iff {s : KeySet key} {a b : β} (h : s.find? (key b) = none) :
    a ∈ (s.insert b).items ↔ a = b ∨ a ∈ s.items := by
  obtain ⟨l, hl⟩ := s
  have hne := find?_eq_none.mp h
  simp only [insert] at hne ⊢
  clear h
  induction l with
  | nil => simp [insertItems]
  | cons c cs ih =>
    have hcb := hne c List.mem_cons_self
    rw [insertItems]
    split_ifs with h1 h2
    · simp
    · have hrec := ih (List.pairwise_cons.mp hl).2 fun x hx => hne x (List.mem_cons_of_mem _ hx)
      simp only [List.mem_cons, hrec]
      tauto
    · exact absurd (le_antisymm (not_lt.mp h1) (not_lt.mp h2)) hcb

theorem find?_insert_self {s : KeySet key} {b : β} (h : s.find? (key b) = none) :
    (s.insert b).find? (key b) = some b :=
  find?_of_mem ((mem_insert_iff h).mpr (Or.inl rfl))

theorem find?_insert_ne {s : KeySet key} {b : β} {k : κ} (h : s.find? (key b) = none)
    (hk : key b ≠ k) : (s.insert b).find? k = s.find? k := by
  cases hf : s.find? k with
  | none =>
    refine find?_eq_none.mpr fun a ha => ?_
    rcases (mem_insert_iff h).mp ha with rfl | ha
    · exact hk
    · exact find?_eq_none.mp hf a ha
  | some c =>
    obtain ⟨hc, rfl⟩ := find?_eq_some hf
    exact find?_of_mem ((mem_insert_iff h).mpr (Or.inr hc))

end KeySet

/-! ## Ordered maps -/

/-- A map with its entries in key order. -/
abbrev OrdMap (κ α : Type) [LinearOrder κ] := KeySet (Prod.fst : κ × α → κ)

namespace OrdMap
variable {κ α α' : Type} [LinearOrder κ]

def keys (m : OrdMap κ α) : List κ := m.items.map Prod.fst

def values (m : OrdMap κ α) : List α := m.items.map Prod.snd

def get? (m : OrdMap κ α) (k : κ) : Option α := (m.find? k).map Prod.snd

/-- The entry of a vacant key; an occupied key keeps its value. -/
def insertVacant (m : OrdMap κ α) (k : κ) (v : α) : OrdMap κ α := m.insert (k, v)

theorem keys_sorted (m : OrdMap κ α) : m.keys.Pairwise (· < ·) :=
  List.pairwise_map.mpr m.sorted

omit [LinearOrder κ] in
theorem map_fst_zip_sublist (ks : List κ) (vs : List α') :
    ((ks.zip vs).map Prod.fst).Sublist ks := by
  induction ks generalizing vs with
  | nil => simp
  | cons k ks ih =>
    cases vs with
    | nil => simp
    | cons v vs => simpa using ih vs

/-- The map with its values replaced, in key order, by those of `vs`. -/
def withValues (m : OrdMap κ α) (vs : List α') : OrdMap κ α' where
  items := m.keys.zip vs
  sorted := by
    exact List.pairwise_map.mp (m.keys_sorted.sublist (map_fst_zip_sublist m.keys vs))

/-- The map with `f` applied to the value under `k`. -/
def modify (m : OrdMap κ α) (k : κ) (f : α → α) : OrdMap κ α where
  items := m.items.map fun e => if e.1 = k then (e.1, f e.2) else e
  sorted := by
    refine List.pairwise_map.mpr (m.sorted.imp ?_)
    intro a b h
    split <;> split <;> exact h

/-! ## Lookups -/

theorem find?_eq_none_of_get? {m : OrdMap κ α} {k : κ} (h : m.get? k = none) : m.find? k = none :=
  Option.map_eq_none_iff.mp h

theorem get?_insertVacant_self {m : OrdMap κ α} {k : κ} (v : α) (h : m.get? k = none) :
    (m.insertVacant k v).get? k = some v := by
  have hf : (m.insertVacant k v).find? k = some (k, v) :=
    KeySet.find?_insert_self (b := (k, v)) (find?_eq_none_of_get? h)
  rw [get?, hf]
  rfl

theorem get?_insertVacant_ne {m : OrdMap κ α} {k k' : κ} (v : α) (h : m.get? k = none) (hne : k ≠ k') :
    (m.insertVacant k v).get? k' = m.get? k' := by
  have hf : (m.insertVacant k v).find? k' = m.find? k' :=
    KeySet.find?_insert_ne (b := (k, v)) (find?_eq_none_of_get? h) hne
  rw [get?, get?, hf]

theorem find?_modify (m : OrdMap κ α) (k : κ) (f : α → α) (k' : κ) :
    (m.modify k f).find? k' = (m.find? k').map fun e => if e.1 = k then (e.1, f e.2) else e := by
  rw [KeySet.find?, KeySet.find?, modify]
  dsimp only
  induction m.items with
  | nil => rfl
  | cons e l ih =>
    have hkey : (if e.1 = k then (e.1, f e.2) else e).1 = e.1 := by
      split <;> rfl
    rw [List.map_cons, List.find?_cons, List.find?_cons, hkey]
    cases decide (e.1 = k') with
    | true => rfl
    | false => exact ih

theorem get?_modify_self {m : OrdMap κ α} {k : κ} {v : α} (f : α → α) (h : m.get? k = some v) :
    (m.modify k f).get? k = some (f v) := by
  obtain ⟨⟨k', v'⟩, hf, rfl⟩ := Option.map_eq_some_iff.mp h
  obtain ⟨-, rfl⟩ := KeySet.find?_eq_some hf
  rw [get?, find?_modify, hf]
  simp

theorem get?_modify_ne {m : OrdMap κ α} {k k' : κ} (f : α → α) (hne : k ≠ k') :
    (m.modify k f).get? k' = m.get? k' := by
  rw [get?, get?, find?_modify]
  cases hf : m.find? k' with
  | none => rfl
  | some e =>
    obtain ⟨-, hk⟩ := KeySet.find?_eq_some hf
    have hne' : ¬ e.1 = k := fun h => hne (h.symm.trans hk)
    rw [Option.map_some, if_neg hne']

theorem keys_withValues {m : OrdMap κ α} {vs : List α'} (h : vs.length = m.items.length) :
    (m.withValues vs).keys = m.keys := by
  rw [keys, withValues, List.map_fst_zip]
  rw [keys, List.length_map, h]

theorem values_withValues {m : OrdMap κ α} {vs : List α'} (h : vs.length = m.items.length) :
    (m.withValues vs).values = vs := by
  rw [values, withValues, List.map_snd_zip]
  rw [keys, List.length_map, h]

theorem length_values (m : OrdMap κ α) : m.values.length = m.items.length := List.length_map _

end OrdMap
