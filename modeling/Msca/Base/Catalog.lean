import Msca.Base.Run

/-! Named tables that batches are appended to, and values that are put under a name once. What a catalog has been given it
keeps: its tables only get longer and its values do not change. -/
set_option autoImplicit false

/-- Tables of batches `β` with a shape `σ`, and values `ν`, under names `κ`. -/
structure Catalog (κ σ β ν : Type*) where
  tables : κ → Option (σ × List β)
  values : κ → Option ν

namespace Catalog
variable {κ σ β ν : Type*}

inductive Change (κ σ β ν : Type*)
  | declare (name : κ) (shape : σ)
  | append (name : κ) (batch : β)
  | put (name : κ) (value : ν)

def empty : Catalog κ σ β ν := ⟨fun _ => none, fun _ => none⟩

/-! ## Changes -/

section
variable [DecidableEq κ]

def withTable (c : Catalog κ σ β ν) (name : κ) (table : σ × List β) : Catalog κ σ β ν :=
  { c with tables := Function.update c.tables name (some table) }

def withValue (c : Catalog κ σ β ν) (name : κ) (value : ν) : Catalog κ σ β ν :=
  { c with values := Function.update c.values name (some value) }

variable {c d : Catalog κ σ β ν} {name other : κ}

@[simp] theorem withTable_values (table : σ × List β) : (c.withTable name table).values = c.values := rfl

@[simp] theorem withValue_tables (value : ν) : (c.withValue name value).tables = c.tables := rfl

@[simp] theorem withTable_self (table : σ × List β) : (c.withTable name table).tables name = some table :=
  Function.update_self name _ _

@[simp] theorem withValue_self (value : ν) : (c.withValue name value).values name = some value :=
  Function.update_self name _ _

theorem withTable_ne (table : σ × List β) (h : other ≠ name) : (c.withTable name table).tables other = c.tables other :=
  Function.update_of_ne h _ _

theorem withValue_ne (value : ν) (h : other ≠ name) : (c.withValue name value).values other = c.values other :=
  Function.update_of_ne h _ _

/-- Names are given once, and the batches of a table have its shape. -/
inductive Step (shape : β → σ) (c : Catalog κ σ β ν) : Change κ σ β ν → Catalog κ σ β ν → Prop
  | declare {name : κ} {s : σ} (vacant : c.tables name = none) : Step shape c (.declare name s) (c.withTable name (s, []))
  | append {name : κ} {batch : β} {batches : List β} (found : c.tables name = some (shape batch, batches)) :
      Step shape c (.append name batch) (c.withTable name (shape batch, batches ++ [batch]))
  | put {name : κ} {value : ν} (vacant : c.values name = none) : Step shape c (.put name value) (c.withValue name value)

end

/-! ## Growth -/

/-- The tables of `c` are in `d`, with more batches, and so are its values. -/
structure Extends (c d : Catalog κ σ β ν) : Prop where
  tables : ∀ name s batches, c.tables name = some (s, batches) → ∃ more, d.tables name = some (s, batches ++ more)
  values : ∀ name value, c.values name = some value → d.values name = some value

namespace Extends
variable {c d e : Catalog κ σ β ν}

theorem refl (c : Catalog κ σ β ν) : c.Extends c :=
  ⟨fun _ _ batches h => ⟨[], by rw [List.append_nil]; exact h⟩, fun _ _ h => h⟩

theorem trans (h : c.Extends d) (h' : d.Extends e) : c.Extends e := by
  refine ⟨fun name s batches hc => ?_, fun name value hc => h'.values name value (h.values name value hc)⟩
  obtain ⟨more, hd⟩ := h.tables name s batches hc
  obtain ⟨more', he⟩ := h'.tables name s _ hd
  exact ⟨more ++ more', by rw [← List.append_assoc]; exact he⟩

end Extends

section
variable [DecidableEq κ] {shape : β → σ} {c d : Catalog κ σ β ν}

theorem Step.extends {change : Change κ σ β ν} (h : Step shape c change d) : c.Extends d := by
  cases h with
  | @declare name s vacant =>
    refine ⟨fun other s' batches hc => ⟨[], ?_⟩, fun _ _ hc => hc⟩
    have hne : other ≠ name := by
      rintro rfl
      rw [vacant] at hc
      cases hc
    rw [withTable_ne _ hne, hc, List.append_nil]
  | @append name batch batches found =>
    refine ⟨fun other s' batches' hc => ?_, fun _ _ hc => hc⟩
    by_cases hne : other = name
    · subst hne
      rw [found] at hc
      cases hc
      exact ⟨[batch], withTable_self _⟩
    · exact ⟨[], by rw [withTable_ne _ hne, hc, List.append_nil]⟩
  | @put name value vacant =>
    refine ⟨fun _ _ batches hc => ⟨[], by rw [List.append_nil]; exact hc⟩, fun other v hc => ?_⟩
    have hne : other ≠ name := by
      rintro rfl
      rw [vacant] at hc
      cases hc
    rw [withValue_ne _ hne, hc]

theorem run_extends {changes : List (Change κ σ β ν)} (h : Run (Step shape) c changes d) : c.Extends d :=
  h.invariant (I := fun d => c.Extends d) (fun _ _ _ hc hstep => hc.trans hstep.extends) (.refl c)

end
end Catalog
