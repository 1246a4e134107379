import Msca.Base.KeySet

/-! Ordered maps that only grow: entries are added, and the value of an entry moves along a preorder. -/
set_option autoImplicit false

namespace OrdMap
variable {κ α : Type} [LinearOrder κ] {R : α → α → Prop} {m m' m'' : OrdMap κ α}

/-- Every key of `m` is in `m'`, and its value has moved along `R`. -/
def Grows (R : α → α → Prop) (m m' : OrdMap κ α) : Prop :=
  ∀ k v, m.get? k = some v → ∃ w, m'.get? k = some w ∧ R v w

namespace Grows

theorem refl (h : ∀ v, R v v) (m : OrdMap κ α) : Grows R m m := fun _ v hv => ⟨v, hv, h v⟩

theorem trans (h : ∀ {u v w}, R u v → R v w → R u w) (hm : Grows R m m') (hm' : Grows R m' m'') : Grows R m m'' := by
  intro k u hu
  obtain ⟨v, hv, huv⟩ := hm k u hu
  obtain ⟨w, hw, hvw⟩ := hm' k v hv
  exact ⟨w, hw, h huv hvw⟩

theorem insertVacant (h : ∀ v, R v v) {k : κ} (v : α) (hk : m.get? k = none) : Grows R m (m.insertVacant k v) := by
  intro k' w hw
  have hne : k ≠ k' := by
    rintro rfl
    rw [hk] at hw
    cases hw
  exact ⟨w, by rw [get?_insertVacant_ne v hk hne]; exact hw, h w⟩

theorem modify (h : ∀ v, R v v) {k : κ} {v : α} (hk : m.get? k = some v) {f : α → α} (hf : R v (f v)) :
    Grows R m (m.modify k f) := by
  intro k' w hw
  by_cases hkk : k = k'
  · subst hkk
    rw [hk] at hw
    cases hw
    exact ⟨f v, get?_modify_self f hk, hf⟩
  · exact ⟨w, by rw [get?_modify_ne f hkk]; exact hw, h w⟩

end Grows

/-- The entry at a place, found under its key. -/
theorem get?_of_getElem? {k : κ} {v : α} {j : Nat} (hk : m.keys[j]? = some k) (hv : m.values[j]? = some v) :
    m.get? k = some v := by
  rw [keys, List.getElem?_map] at hk
  rw [values, List.getElem?_map] at hv
  obtain ⟨e, he, rfl⟩ := Option.map_eq_some_iff.mp hk
  rw [he] at hv
  cases hv
  rw [get?, KeySet.find?_of_mem (List.mem_of_getElem? he)]
  rfl

theorem getElem?_of_get? {k : κ} {v : α} (h : m.get? k = some v) :
    ∃ j : Nat, m.keys[j]? = some k ∧ m.values[j]? = some v := by
  obtain ⟨e, he, rfl⟩ := Option.map_eq_some_iff.mp h
  obtain ⟨hmem, rfl⟩ := KeySet.find?_eq_some he
  obtain ⟨j, hj⟩ := List.getElem?_of_mem hmem
  exact ⟨j, by rw [keys, List.getElem?_map, hj, Option.map_some], by rw [values, List.getElem?_map, hj, Option.map_some]⟩

end OrdMap
