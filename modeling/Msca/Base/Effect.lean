import Mathlib

/-! Computations over a state that may stop with an error and then leave the state they reached. Runs
are taken apart step by step, by pre- and postconditions with a postcondition of their own for
errors, and by relations between two runs of which one is to return what the other returns. -/
set_option autoImplicit false

/-- A computation over `σ` that returns an `α` or stops with an `ε`. -/
def Eff (ε σ α : Type) : Type := σ → Except ε α × σ

namespace Eff
variable {ε σ τ α β : Type}

instance : Monad (Eff ε σ) where
  pure a s := (.ok a, s)
  bind x f s :=
    match x s with
    | (.ok a, t) => f a t
    | (.error e, t) => (.error e, t)

def lift (r : Except ε α) : Eff ε σ α := fun s => (r, s)

/-- The state, seen through `f`. -/
def gets (f : σ → α) : Eff ε σ α := fun s => (.ok (f s), s)

def modify (f : σ → σ) : Eff ε σ Unit := fun s => (.ok (), f s)

/-- A computation on a part of the state. -/
def focus (part : σ → τ) (put : σ → τ → σ) (x : Eff ε τ α) : Eff ε σ α :=
  fun s => ((x (part s)).1, put s (x (part s)).2)

def mapError {ε' : Type} (f : ε → ε') (x : Eff ε σ α) : Eff ε' σ α := fun s => ((x s).1.mapError f, (x s).2)

/-! ## Runs -/

theorem bind_ok {x : Eff ε σ α} {f : α → Eff ε σ β} {s t : σ} {a : α} (h : x s = (.ok a, t)) :
    (x >>= f) s = f a t := by
  show (match x s with | (.ok a, t) => f a t | (.error e, t) => (.error e, t)) = _
  rw [h]

theorem bind_error {x : Eff ε σ α} {f : α → Eff ε σ β} {s t : σ} {e : ε} (h : x s = (.error e, t)) :
    (x >>= f) s = (.error e, t) := by
  show (match x s with | (.ok a, t) => f a t | (.error e, t) => (.error e, t)) = _
  rw [h]

theorem bind_lift_ok {r : Except ε α} {f : α → Eff ε σ β} {s : σ} {a : α} (h : r = .ok a) :
    (lift r >>= f) s = f a s := by
  rw [bind_ok]
  exact congrArg (·, s) h

theorem bind_lift_error {r : Except ε α} {f : α → Eff ε σ β} {s : σ} {e : ε} (h : r = .error e) :
    (lift r >>= f) s = (.error e, s) := by
  rw [bind_error]
  exact congrArg (·, s) h

theorem bind_gets {g : σ → α} {f : α → Eff ε σ β} (s : σ) : (gets g >>= f) s = f (g s) s := rfl

theorem bind_assoc {γ : Type} (x : Eff ε σ α) (f : α → Eff ε σ β) (g : β → Eff ε σ γ) :
    x >>= f >>= g = x >>= fun a => f a >>= g := by
  funext s
  rcases h : x s with ⟨e | a, t⟩
  · rw [bind_error h, bind_error (bind_error h)]
  · rw [bind_ok h]
    rcases h' : f a t with ⟨e | b, u⟩
    · rw [bind_error h', bind_error ((bind_ok h).trans h')]
    · rw [bind_ok h', bind_ok ((bind_ok h).trans h')]

theorem bind_cases (x : Eff ε σ α) (f : α → Eff ε σ β) (s : σ) :
    (∃ e t, x s = (.error e, t) ∧ (x >>= f) s = (.error e, t)) ∨
      ∃ a t, x s = (.ok a, t) ∧ (x >>= f) s = f a t := by
  rcases h : x s with ⟨e | a, t⟩
  · exact Or.inl ⟨e, t, rfl, bind_error h⟩
  · exact Or.inr ⟨a, t, rfl, bind_ok h⟩

theorem bind_eq_ok {x : Eff ε σ α} {f : α → Eff ε σ β} {s u : σ} {b : β} (h : (x >>= f) s = (.ok b, u)) :
    ∃ a t, x s = (.ok a, t) ∧ f a t = (.ok b, u) := by
  rcases bind_cases x f s with ⟨e, t, -, hy⟩ | ⟨a, t, hx, hy⟩
  · rw [hy] at h
    cases h
  · exact ⟨a, t, hx, hy.symm.trans h⟩

theorem bind_lift_eq_ok {r : Except ε α} {f : α → Eff ε σ β} {s u : σ} {b : β} (h : (lift r >>= f) s = (.ok b, u)) :
    ∃ a, r = .ok a ∧ f a s = (.ok b, u) := by
  obtain ⟨a, t, hr, h⟩ := bind_eq_ok h
  obtain ⟨hok, rfl⟩ := Prod.mk.inj hr
  exact ⟨a, hok, h⟩

theorem mapError_ok {ε' : Type} {f : ε → ε'} {x : Eff ε σ α} {s t : σ} {a : α} :
    mapError f x s = (.ok a, t) ↔ x s = (.ok a, t) := by
  unfold mapError
  rcases x s with ⟨e | b, u⟩ <;> simp [Except.mapError]

theorem mapError_error {ε' : Type} {f : ε → ε'} {x : Eff ε σ α} {s t : σ} {e' : ε'} :
    mapError f x s = (.error e', t) ↔ ∃ e, x s = (.error e, t) ∧ f e = e' := by
  unfold mapError
  rcases x s with ⟨e | b, u⟩ <;> simp [Except.mapError, and_comm]

/-! ## Pre- and postconditions -/

/-- From a state with `P`, `x` returns with `Q` or stops with `E`. -/
def Triple (P : σ → Prop) (x : Eff ε σ α) (Q : α → σ → Prop) (E : ε → σ → Prop) : Prop :=
  ∀ s, P s → (∃ a t, x s = (.ok a, t) ∧ Q a t) ∨ ∃ e t, x s = (.error e, t) ∧ E e t

namespace Triple
variable {P : σ → Prop} {x : Eff ε σ α} {Q : α → σ → Prop} {E : ε → σ → Prop}

theorem ok (h : Triple P x Q E) {s t : σ} {a : α} (hs : P s) (hx : x s = (.ok a, t)) : Q a t := by
  rcases h s hs with ⟨b, u, hb, hq⟩ | ⟨e, u, he, -⟩
  · rw [hx] at hb
    cases hb
    exact hq
  · rw [hx] at he
    cases he

theorem error (h : Triple P x Q E) {s t : σ} {e : ε} (hs : P s) (hx : x s = (.error e, t)) : E e t := by
  rcases h s hs with ⟨b, u, hb, -⟩ | ⟨e, u, he, hq⟩
  · rw [hx] at hb
    cases hb
  · rw [hx] at he
    cases he
    exact hq

theorem conseq {P' : σ → Prop} {Q' : α → σ → Prop} {E' : ε → σ → Prop} (h : Triple P' x Q' E')
    (hp : ∀ s, P s → P' s) (hq : ∀ a s, Q' a s → Q a s) (he : ∀ e s, E' e s → E e s) : Triple P x Q E :=
  fun s hs => (h s (hp s hs)).imp (fun ⟨a, t, hx, h⟩ => ⟨a, t, hx, hq a t h⟩)
    fun ⟨e, t, hx, h⟩ => ⟨e, t, hx, he e t h⟩

theorem bind {R : α → σ → Prop} {f : α → Eff ε σ β} {Q : β → σ → Prop} (hx : Triple P x R E)
    (hf : ∀ a, Triple (R a) (f a) Q E) : Triple P (x >>= f) Q E := by
  intro s hs
  rcases hx s hs with ⟨a, t, h, hr⟩ | ⟨e, t, h, he⟩
  · rw [bind_ok h]
    exact hf a t hr
  · rw [bind_error h]
    exact Or.inr ⟨e, t, rfl, he⟩

/-- The rest of the state is a frame around the part. -/
theorem focus (part : σ → τ) (put : σ → τ → σ) {x : Eff ε τ α} {s : σ} {Q : α → τ → Prop} {E : ε → τ → Prop}
    (h : Triple (fun t => t = part s) x Q E) :
    Triple (fun s' => s' = s) (Eff.focus part put x) (fun a s' => ∃ t, s' = put s t ∧ Q a t)
      fun e s' => ∃ t, s' = put s t ∧ E e t := by
  rintro _ rfl
  rcases h _ rfl with ⟨a, t, hx, hq⟩ | ⟨e, t, hx, he⟩
  · exact Or.inl ⟨a, put _ t, by rw [Eff.focus, hx], t, rfl, hq⟩
  · exact Or.inr ⟨e, put _ t, by rw [Eff.focus, hx], t, rfl, he⟩

end Triple

/-! ## Two runs -/

/-- From related states both runs end alike, in states related as their common end says. -/
def Sim {σ' : Type} (R : σ → σ' → Prop) (x : Eff ε σ α) (y : Eff ε σ' α)
    (S : Except ε α → σ → σ' → Prop) : Prop :=
  ∀ s t, R s t → (x s).1 = (y t).1 ∧ S (x s).1 (x s).2 (y t).2

namespace Sim
variable {σ' τ' : Type} {R : σ → σ' → Prop} {x : Eff ε σ α} {y : Eff ε σ' α}

theorem pure {S : Except ε α → σ → σ' → Prop} {a : α} (h : ∀ s t, R s t → S (.ok a) s t) :
    Sim R (Pure.pure a : Eff ε σ α) (Pure.pure a : Eff ε σ' α) S :=
  fun s t hst => ⟨rfl, h s t hst⟩

theorem bind {Q : Except ε α → σ → σ' → Prop} {S : Except ε β → σ → σ' → Prop} {f : α → Eff ε σ β}
    {g : α → Eff ε σ' β} (h : Sim R x y Q) (hfg : ∀ a, Sim (Q (.ok a)) (f a) (g a) S)
    (herr : ∀ e s t, Q (.error e) s t → S (.error e) s t) : Sim R (x >>= f) (y >>= g) S := by
  intro s t hst
  obtain ⟨heq, hq⟩ := h s t hst
  rcases hx : x s with ⟨r, s'⟩
  rcases hy : y t with ⟨r', t'⟩
  simp only [hx, hy] at heq hq
  subst heq
  cases r with
  | ok a =>
    rw [bind_ok hx, bind_ok hy]
    exact hfg a s' t' hq
  | error e =>
    rw [bind_error hx, bind_error hy]
    exact ⟨rfl, herr e s' t' hq⟩

theorem lift {S : Except ε α → σ → σ' → Prop} {r : Except ε α} (h : ∀ s t, R s t → S r s t) :
    Sim R (Eff.lift r) (Eff.lift r) S := fun s t hst => ⟨rfl, h s t hst⟩

theorem bind_gets {S : Except ε β → σ → σ' → Prop} {p : σ → α} {q : σ' → α} {f : α → Eff ε σ β}
    {g : α → Eff ε σ' β} (h : ∀ s t, R s t → p s = q t)
    (hfg : ∀ a, Sim (fun s t => R s t ∧ p s = a ∧ q t = a) (f a) (g a) S) :
    Sim R (Eff.gets p >>= f) (Eff.gets q >>= g) S := by
  intro s t hst
  have hgo := hfg (p s) s t ⟨hst, rfl, (h s t hst).symm⟩
  rw [Eff.bind_gets, Eff.bind_gets, ← h s t hst]
  exact hgo

theorem modify {S : Except ε Unit → σ → σ' → Prop} {f : σ → σ} {g : σ' → σ'}
    (h : ∀ s t, R s t → S (.ok ()) (f s) (g t)) : Sim R (Eff.modify f) (Eff.modify g) S :=
  fun s t hst => ⟨rfl, h s t hst⟩

theorem focus {part : σ → τ} {put : σ → τ → σ} {part' : σ' → τ'} {put' : σ' → τ' → σ'} {x : Eff ε τ α}
    {y : Eff ε τ' α} {Q : τ → τ' → Prop} {S : Except ε α → τ → τ' → Prop} {S' : Except ε α → σ → σ' → Prop}
    (h : Sim Q x y S) (hin : ∀ s t, R s t → Q (part s) (part' t))
    (hout : ∀ r s t u v, R s t → S r u v → S' r (put s u) (put' t v)) :
    Sim R (Eff.focus part put x) (Eff.focus part' put' y) S' := by
  intro s t hst
  obtain ⟨heq, hq⟩ := h _ _ (hin s t hst)
  exact ⟨heq, hout _ s t _ _ hst hq⟩

end Sim
end Eff
