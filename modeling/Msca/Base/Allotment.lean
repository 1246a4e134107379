import Mathlib.Data.Nat.Basic

/-! Labelled regions that do not overlap. Regions allotted in one stretch of an address space and regions allotted in the
stretch behind it make up regions allotted in both. -/
set_option autoImplicit false

/-- The regions, each a start and a length, lie between `lo` and `hi`, and no two labels share an address. -/
structure Allotted {π : Type} (region? : π → Option (Nat × Nat)) (lo hi : Nat) : Prop where
  inside : ∀ p r, region? p = some r → lo ≤ r.1 ∧ r.1 + r.2 ≤ hi
  disjoint : ∀ p q r s, p ≠ q → region? p = some r → region? q = some s → r.1 + r.2 ≤ s.1 ∨ s.1 + s.2 ≤ r.1

namespace Allotted
variable {π : Type} {f g f' : π → Option (Nat × Nat)} {lo mid hi : Nat}

theorem none (h : ∀ p, f p = none) : Allotted f lo hi where
  inside p r hr := by simp [h p] at hr
  disjoint p _ r _ _ hr _ := by simp [h p] at hr

/-- One label. -/
theorem single [DecidableEq π] {p : π} {r : Nat × Nat} (hlo : lo ≤ r.1) (hhi : r.1 + r.2 ≤ hi) :
    Allotted (fun q => if q = p then some r else Option.none) lo hi where
  inside q s hs := by
    obtain ⟨-, hs⟩ := Option.ite_none_right_eq_some.mp hs
    cases hs
    exact ⟨hlo, hhi⟩
  disjoint q q' _ _ hne hq hq' := by
    obtain ⟨rfl, -⟩ := Option.ite_none_right_eq_some.mp hq
    obtain ⟨rfl, -⟩ := Option.ite_none_right_eq_some.mp hq'
    exact absurd rfl hne

/-- Labels allotted before, or in the stretch behind. -/
theorem join (hf : Allotted f lo mid) (hg : Allotted g mid hi) (hlo : lo ≤ mid) (hhi : mid ≤ hi)
    (h : ∀ p r, f' p = some r → f p = some r ∨ g p = some r) : Allotted f' lo hi where
  inside p r hr := by
    rcases h p r hr with hr | hr
    · exact ⟨(hf.inside p r hr).1, Nat.le_trans (hf.inside p r hr).2 hhi⟩
    · exact ⟨Nat.le_trans hlo (hg.inside p r hr).1, (hg.inside p r hr).2⟩
  disjoint p q r s hne hr hs := by
    rcases h p r hr with hr | hr
    · rcases h q s hs with hs | hs
      · exact hf.disjoint p q r s hne hr hs
      · exact Or.inl (Nat.le_trans (hf.inside p r hr).2 (hg.inside q s hs).1)
    · rcases h q s hs with hs | hs
      · exact Or.inr (Nat.le_trans (hf.inside q s hs).2 (hg.inside p r hr).1)
      · exact hg.disjoint p q r s hne hr hs

end Allotted
