import Mathlib

/-! Machine words as bounded naturals. A word operation either returns its exact value over the
naturals or reports that the value leaves the word; nothing here wraps. The rounding lemmas are the
alignment arithmetic every layout computation rests on. -/
namespace Checked
set_option autoImplicit false

/-- A 64-bit word. -/
@[ext] structure U64 where
  val : Nat
  lt : val < 2 ^ 64
  deriving DecidableEq

/-- A positive 64-bit word. -/
@[ext] structure NonZero where
  get : Nat
  pos : 0 < get
  lt : get < 2 ^ 64
  deriving DecidableEq

def NonZero.ofNat? (n : Nat) : Option NonZero :=
  if h : 0 < n ∧ n < 2 ^ 64 then some ⟨n, h.1, h.2⟩ else none

def NonZero.toU64 (n : NonZero) : U64 := ⟨n.get, n.lt⟩

/-- Addition that reports overflow of the 64-bit word. -/
def add (a b : Nat) : Option Nat := if a + b < 2 ^ 64 then some (a + b) else none

/-- Subtraction that reports underflow. -/
def sub (a b : Nat) : Option Nat := if b ≤ a then some (a - b) else none

/-- Multiplication that reports overflow of the 64-bit word. -/
def mul (a b : Nat) : Option Nat := if a * b < 2 ^ 64 then some (a * b) else none

/-- The largest word. -/
def U64.max : U64 := ⟨2 ^ 64 - 1, by decide⟩

/-- The word `n`, or the largest word when `n` is out of range. -/
def U64.clamp (n : Nat) : U64 := ⟨min n (2 ^ 64 - 1), by omega⟩

/-- `n` rounded up to a multiple of eight, over the naturals. -/
def roundUp (n : Nat) : Nat := (n + 7) / 8 * 8

/-! ## Inversion and evaluation -/

theorem guarded_eq_some {α : Type} {P : Prop} [Decidable P] {a c : α} :
    (if P then some a else none) = some c ↔ P ∧ c = a := by
  by_cases h : P
  · rw [if_pos h]
    constructor
    · intro heq
      exact ⟨h, (Option.some.inj heq).symm⟩
    · rintro ⟨-, rfl⟩
      rfl
  · rw [if_neg h]
    constructor
    · intro heq
      cases heq
    · intro hc
      exact absurd hc.1 h

theorem add_eq_some {a b c : Nat} : add a b = some c ↔ a + b < 2 ^ 64 ∧ c = a + b := guarded_eq_some

theorem add_of_lt {a b : Nat} (h : a + b < 2 ^ 64) : add a b = some (a + b) := if_pos h

theorem sub_eq_some {a b c : Nat} : sub a b = some c ↔ b ≤ a ∧ c = a - b := guarded_eq_some

theorem sub_of_le {a b : Nat} (h : b ≤ a) : sub a b = some (a - b) := if_pos h

theorem mul_of_lt {a b : Nat} (h : a * b < 2 ^ 64) : mul a b = some (a * b) := if_pos h

theorem mul_eq_some {a b c : Nat} : mul a b = some c ↔ a * b < 2 ^ 64 ∧ c = a * b := guarded_eq_some

theorem U64.clamp_val {n : Nat} (h : n < 2 ^ 64) : (U64.clamp n).val = n := by
  simp only [U64.clamp]
  omega

theorem NonZero.ofNat?_of_lt {n : Nat} (h0 : 0 < n) (h : n < 2 ^ 64) :
    NonZero.ofNat? n = some ⟨n, h0, h⟩ := dif_pos ⟨h0, h⟩

theorem NonZero.ofNat?_get (n : NonZero) : NonZero.ofNat? n.get = some n :=
  NonZero.ofNat?_of_lt n.pos n.lt

theorem NonZero.ofNat?_eq_some {n : Nat} {k : NonZero} :
    NonZero.ofNat? n = some k ↔ k.get = n := by
  constructor
  · intro h
    unfold NonZero.ofNat? at h
    split at h
    · cases h; rfl
    · cases h
  · rintro rfl
    exact k.ofNat?_get

/-! ## Rounding -/

theorem le_roundUp (n : Nat) : n ≤ roundUp n := by
  unfold roundUp
  omega

theorem roundUp_lt (n : Nat) : roundUp n < n + 8 := by
  unfold roundUp
  omega

@[simp] theorem roundUp_mod (n : Nat) : roundUp n % 8 = 0 := by
  unfold roundUp
  omega

theorem roundUp_of_mod {n : Nat} (h : n % 8 = 0) : roundUp n = n := by
  unfold roundUp
  omega

theorem roundUp_mono {m n : Nat} (h : m ≤ n) : roundUp m ≤ roundUp n := by
  unfold roundUp
  omega

theorem roundUp_add {m n : Nat} (h : m % 8 = 0) : roundUp (m + n) = m + roundUp n := by
  unfold roundUp
  omega

end Checked
