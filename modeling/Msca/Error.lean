import Msca.Base.Checked

/-! Errors of the crate and the fallible arithmetic of the write path. A computation ends with a
value, with one of the crate's errors, or with a panic. The `From` conversions of the source
collapse every error into `io::Error`, so one error type serves all modules. -/
namespace Msca
set_option autoImplicit false
open Checked

/-- `schema::number::Error`. -/
inductive NumberError
  | convert
  | zero
  deriving DecidableEq, Repr

/-- `manifest::Error`. -/
inductive ManifestError
  | notFound (name : String)
  | collision (name : String)
  deriving DecidableEq, Repr

/-- `schema::Error` without its `Number` variant, which `io::Error` flattens. -/
inductive SchemaError
  | collision (name : String)
  | notFound
  deriving DecidableEq, Repr

/-- `io::Error`. -/
inductive Error
  | checksum
  | decode
  | io
  | magic
  | manifest (e : ManifestError)
  | number (e : NumberError)
  | schema (e : SchemaError)
  | truncated (expected actual : Nat)
  | utf8
  | version (v : UInt8)
  deriving DecidableEq, Repr

/-- How a computation stops without a value. -/
inductive Fault
  | error (e : Error)
  | panic
  deriving DecidableEq, Repr

abbrev Res := Except Fault

/-- `Err(number::Error::Zero)`. -/
abbrev zeroError : Fault := .error (.number .zero)

/-- `Err(number::Error::Convert(_))`. -/
abbrev convertError : Fault := .error (.number .convert)

/-- `Option::ok_or`. -/
def okOr {α : Type} (f : Fault) : Option α → Res α
  | some a => .ok a
  | none => .error f

/-- `checked_add(..).ok_or(number::Error::Zero)`. -/
def addOr (a b : Nat) : Res Nat := okOr zeroError (Checked.add a b)

/-- `checked_sub(..).ok_or(number::Error::Zero)`. -/
def subOr (a b : Nat) : Res Nat := okOr zeroError (Checked.sub a b)

/-- `+` on `u64`, which panics when the sum is out of range. -/
def plus (a b : Nat) : Res Nat := okOr .panic (Checked.add a b)

/-- `Iterator::sum` over `u64`. -/
def sum (ns : List Nat) : Res Nat := ns.foldlM plus 0

/-- `u64::next_multiple_of(8)`, which panics when the multiple is out of range. -/
def nextMultipleOf8 (n : Nat) : Res Nat := if roundUp n < 2 ^ 64 then .ok (roundUp n) else .error .panic

/-- `Align::align`. -/
def align (n : Nat) : Res Nat := nextMultipleOf8 n

/-- `Align::pad`. -/
def pad (n : Nat) : Res Nat := do
  let m ← nextMultipleOf8 n
  return m - n

@[simp] theorem okOr_some {α : Type} (f : Fault) (a : α) : okOr f (some a) = .ok a := rfl

@[simp] theorem okOr_none {α : Type} (f : Fault) : okOr f (none : Option α) = .error f := rfl

theorem okOr_eq_ok {α : Type} {f : Fault} {o : Option α} {a : α} : okOr f o = .ok a ↔ o = some a := by
  cases o <;> simp

theorem bind_eq_ok {α β : Type} {x : Res α} {f : α → Res β} {b : β} :
    (x >>= f) = .ok b ↔ ∃ a, x = .ok a ∧ f a = .ok b := by
  cases x with
  | error e => simp [bind, Except.bind]
  | ok a => simp [bind, Except.bind]

@[simp] theorem ok_bind {α β : Type} (a : α) (f : α → Res β) : ((Except.ok a : Res α) >>= f) = f a := rfl

theorem addOr_of_lt {a b : Nat} (h : a + b < 2 ^ 64) : addOr a b = .ok (a + b) := by
  simp [addOr, add_of_lt h]

theorem addOr_of_le {a b : Nat} (h : 2 ^ 64 ≤ a + b) : addOr a b = .error zeroError := by
  rw [addOr, Checked.add, if_neg (Nat.not_lt_of_le h), okOr_none]

theorem addOr_eq_ok {a b c : Nat} : addOr a b = .ok c ↔ a + b < 2 ^ 64 ∧ c = a + b := by
  rw [addOr, okOr_eq_ok, add_eq_some]

theorem subOr_of_le {a b : Nat} (h : b ≤ a) : subOr a b = .ok (a - b) := by
  simp [subOr, sub_of_le h]

theorem subOr_of_lt {a b : Nat} (h : a < b) : subOr a b = .error zeroError := by
  rw [subOr, Checked.sub, if_neg (Nat.not_le_of_lt h), okOr_none]

theorem subOr_eq_ok {a b c : Nat} : subOr a b = .ok c ↔ b ≤ a ∧ c = a - b := by
  rw [subOr, okOr_eq_ok, sub_eq_some]

theorem plus_of_lt {a b : Nat} (h : a + b < 2 ^ 64) : plus a b = .ok (a + b) := by
  simp [plus, add_of_lt h]

theorem plus_of_le {a b : Nat} (h : 2 ^ 64 ≤ a + b) : plus a b = .error .panic := by
  rw [plus, Checked.add, if_neg (Nat.not_lt_of_le h), okOr_none]

theorem foldlM_plus {ns : List Nat} {a : Nat} (ha : a < 2 ^ 64) :
    ns.foldlM plus a = if a + ns.sum < 2 ^ 64 then .ok (a + ns.sum) else .error .panic := by
  induction ns generalizing a with
  | nil => exact (if_pos ha).symm
  | cons n ns ih =>
    rw [List.foldlM_cons, List.sum_cons, ← Nat.add_assoc]
    by_cases hn : a + n < 2 ^ 64
    · rw [plus_of_lt hn, ok_bind, ih hn]
    · rw [plus_of_le (Nat.le_of_not_lt hn), if_neg (by omega)]
      rfl

/-- A sum of words is exact, or it panics. -/
theorem sum_eq (ns : List Nat) : sum ns = if ns.sum < 2 ^ 64 then .ok ns.sum else .error .panic := by
  rw [sum, foldlM_plus (Nat.two_pow_pos 64), Nat.zero_add]

theorem sum_of_lt {ns : List Nat} (h : ns.sum < 2 ^ 64) : sum ns = .ok ns.sum := by
  rw [sum_eq, if_pos h]

theorem sum_eq_ok {ns : List Nat} {n : Nat} : sum ns = .ok n ↔ ns.sum < 2 ^ 64 ∧ n = ns.sum := by
  rw [sum_eq]
  constructor
  · intro h
    split at h
    next hlt => exact ⟨hlt, (Except.ok.inj h).symm⟩
    · cases h
  · rintro ⟨hlt, rfl⟩
    exact if_pos hlt

theorem align_of_lt {n : Nat} (h : roundUp n < 2 ^ 64) : align n = .ok (roundUp n) := if_pos h

theorem align_of_le {n : Nat} (h : 2 ^ 64 ≤ roundUp n) : align n = .error .panic := if_neg (Nat.not_lt_of_le h)

theorem align_eq_ok {n m : Nat} : align n = .ok m ↔ roundUp n < 2 ^ 64 ∧ m = roundUp n := by
  unfold align nextMultipleOf8
  constructor
  · intro h
    split at h
    · next hlt => exact ⟨hlt, (Except.ok.inj h).symm⟩
    · cases h
  · rintro ⟨hlt, rfl⟩
    exact if_pos hlt

theorem pad_of_lt {n : Nat} (h : roundUp n < 2 ^ 64) : pad n = .ok (roundUp n - n) := by
  show (do return (← align n) - n) = _
  rw [align_of_lt h]
  rfl

theorem pad_of_le {n : Nat} (h : 2 ^ 64 ≤ roundUp n) : pad n = .error .panic := by
  show (do return (← align n) - n) = _
  rw [align_of_le h]
  rfl

theorem pad_eq_ok {n m : Nat} : pad n = .ok m ↔ roundUp n < 2 ^ 64 ∧ m = roundUp n - n := by
  constructor
  · intro h
    obtain ⟨k, hk, hm⟩ := bind_eq_ok.mp h
    obtain ⟨hlt, rfl⟩ := align_eq_ok.mp hk
    exact ⟨hlt, (Except.ok.inj hm).symm⟩
  · rintro ⟨hlt, rfl⟩
    exact pad_of_lt hlt

end Msca
