import Msca.Base.Bytes
import Msca.Error

/-! Fixed-width items. A primitive value is its little-endian bit pattern together with the proof
that the pattern is one the type admits, so a zero `NonZero` or a surrogate `char` cannot be built.
The optional form of a niche primitive occupies the same bytes, `None` taking the excluded pattern. -/
namespace Msca
set_option autoImplicit false
open Checked

inductive Width
  | b1 | b2 | b4 | b8 | b16
  deriving DecidableEq, Repr

def Width.bytes : Width → Nat
  | .b1 => 1
  | .b2 => 2
  | .b4 => 4
  | .b8 => 8
  | .b16 => 16

/-- Primitives whose `Option` is wider than the primitive. -/
inductive Plain
  | uint (w : Width)
  | int (w : Width)
  | f32
  | f64
  deriving DecidableEq, Repr

/-- Primitives whose `Option` fits the bytes of the primitive. -/
inductive Niche
  | nonZeroUInt (w : Width)
  | nonZeroInt (w : Width)
  | char
  deriving DecidableEq, Repr

inductive Prim
  | plain (p : Plain)
  | niche (p : Niche)
  deriving DecidableEq, Repr

namespace Prim

def size : Prim → Nat
  | .plain (.uint w) => w.bytes
  | .plain (.int w) => w.bytes
  | .plain .f32 => 4
  | .plain .f64 => 8
  | .niche (.nonZeroUInt w) => w.bytes
  | .niche (.nonZeroInt w) => w.bytes
  | .niche .char => 4

/-- Bit patterns the type admits. -/
def Valid : Prim → Nat → Prop
  | .plain _, _ => True
  | .niche (.nonZeroUInt _), n => n ≠ 0
  | .niche (.nonZeroInt _), n => n ≠ 0
  | .niche .char, n => n < 0xD800 ∨ 0xDFFF < n ∧ n < 0x110000

instance (p : Prim) (n : Nat) : Decidable (p.Valid n) :=
  match p with
  | .plain _ => instDecidableTrue
  | .niche (.nonZeroUInt _) => inferInstanceAs (Decidable (n ≠ 0))
  | .niche (.nonZeroInt _) => inferInstanceAs (Decidable (n ≠ 0))
  | .niche .char => inferInstanceAs (Decidable (n < 0xD800 ∨ 0xDFFF < n ∧ n < 0x110000))

/-- What reading an inadmissible pattern reports. -/
def invalid : Prim → Fault
  | .niche .char => .error .utf8
  | _ => convertError

@[ext] structure Val (p : Prim) where
  bits : Nat
  lt : bits < 256 ^ p.size
  valid : p.Valid bits
  deriving DecidableEq

theorem size_pos (p : Prim) : 0 < p.size := by
  rcases p with (w | w | _ | _) | (w | w | _) <;> try cases w
  all_goals decide

theorem size_le (p : Prim) : p.size ≤ 16 := by
  rcases p with (w | w | _ | _) | (w | w | _) <;> try cases w
  all_goals decide

/-! ## Order -/

/-- Two's complement reading of a pattern of `size` bytes. -/
def signed (size n : Nat) : Int := if 2 * n < 256 ^ size then n else (n : Int) - 256 ^ size

/-- Position of an IEEE 754 pattern on the line, `none` for a NaN. The sign is bit `s`, `inf` is the
pattern of positive infinity, and the two zeros share a position. -/
def floatRank (s inf n : Nat) : Option Int :=
  if inf < n % 2 ^ s then none
  else if n < 2 ^ s then some (n % 2 ^ s : Nat)
  else some (-(n % 2 ^ s : Nat))

/-- Position of a value in the order of its type, `none` if it is comparable with nothing. -/
def rank : (p : Prim) → Nat → Option Int
  | .plain (.uint _), n => some n
  | .plain (.int w), n => some (signed w.bytes n)
  | .plain .f32, n => floatRank 31 0x7F800000 n
  | .plain .f64, n => floatRank 63 0x7FF0000000000000 n
  | .niche (.nonZeroUInt _), n => some n
  | .niche (.nonZeroInt w), n => some (signed w.bytes n)
  | .niche .char, n => some n

end Prim

/-- The pattern that encodes `None` in place. -/
def Niche.absent : Niche → Nat
  | .char => 2 ^ 32 - 1
  | _ => 0

theorem Niche.absent_lt (p : Niche) : p.absent < 256 ^ (Prim.niche p).size := by
  rcases p with w | w | _ <;> try cases w
  all_goals decide

theorem Niche.absent_invalid (p : Niche) : ¬ (Prim.niche p).Valid p.absent := by
  cases p <;> simp [Prim.Valid, Niche.absent]

/-! ## Fixed-width byte images -/

/-- A type whose values all have images of one length. `ofLe` reads one image of that length. -/
class Fixed (α : Type) where
  width : Nat
  width_pos : 0 < width
  width_lt : width < 2 ^ 64
  toLe : α → Bytes
  toLe_length : ∀ a, (toLe a).length = width
  ofLe : Bytes → Res α
  ofLe_toLe : ∀ a, ofLe (toLe a) = .ok a

attribute [simp] Fixed.toLe_length Fixed.ofLe_toLe

theorem Fixed.toLe_inj {α : Type} [Fixed α] {a b : α} (h : Fixed.toLe a = Fixed.toLe b) : a = b := by
  have hb := Fixed.ofLe_toLe b
  rw [← h, Fixed.ofLe_toLe] at hb
  exact Except.ok.inj hb

def Prim.ofBits (p : Prim) (n : Nat) : Res p.Val :=
  if h : n < 256 ^ p.size ∧ p.Valid n then .ok ⟨n, h.1, h.2⟩ else .error p.invalid

theorem Prim.ofBits_bits {p : Prim} (a : p.Val) : p.ofBits a.bits = .ok a := by
  simp [Prim.ofBits, a.lt, a.valid]

instance (p : Prim) : Fixed p.Val where
  width := p.size
  width_pos := p.size_pos
  width_lt := Nat.lt_of_le_of_lt p.size_le (by decide)
  toLe a := Bytes.leBytes p.size a.bits
  toLe_length a := Bytes.leBytes_length _ _
  ofLe bs := p.ofBits (Bytes.ofLe bs)
  ofLe_toLe a := by rw [Bytes.ofLe_leBytes_of_lt a.lt, Prim.ofBits_bits]

def Niche.optBits (p : Niche) : Option (Prim.niche p).Val → Nat
  | none => p.absent
  | some a => a.bits

def Niche.ofOptBits (p : Niche) (n : Nat) : Res (Option (Prim.niche p).Val) :=
  if n = p.absent then .ok none else some <$> (Prim.niche p).ofBits n

theorem Niche.ofOptBits_optBits {p : Niche} (a : Option (Prim.niche p).Val) :
    p.ofOptBits (p.optBits a) = .ok a := by
  cases a with
  | none => simp [ofOptBits, optBits]
  | some a =>
    have hne : a.bits ≠ p.absent := by
      intro h
      exact p.absent_invalid (h ▸ a.valid)
    simp [ofOptBits, optBits, hne, Prim.ofBits_bits]

theorem Niche.optBits_lt {p : Niche} (a : Option (Prim.niche p).Val) :
    p.optBits a < 256 ^ (Prim.niche p).size := by
  cases a with
  | none => exact p.absent_lt
  | some a => exact a.lt

instance (p : Niche) : Fixed (Option (Prim.niche p).Val) where
  width := (Prim.niche p).size
  width_pos := (Prim.niche p).size_pos
  width_lt := Nat.lt_of_le_of_lt (Prim.niche p).size_le (by decide)
  toLe a := Bytes.leBytes (Prim.niche p).size (p.optBits a)
  toLe_length a := Bytes.leBytes_length _ _
  ofLe bs := p.ofOptBits (Bytes.ofLe bs)
  ofLe_toLe a := by rw [Bytes.ofLe_leBytes_of_lt (Niche.optBits_lt a), Niche.ofOptBits_optBits]

instance : Fixed UInt8 where
  width := 1
  width_pos := by decide
  width_lt := by decide
  toLe b := [b]
  toLe_length b := rfl
  ofLe bs := .ok (UInt8.ofNat (Bytes.ofLe bs))
  ofLe_toLe b := by simp [Bytes.ofLe]

instance : Fixed U64 where
  width := 8
  width_pos := by decide
  width_lt := by decide
  toLe n := Bytes.leBytes 8 n.val
  toLe_length n := Bytes.leBytes_length _ _
  ofLe bs := .ok (U64.clamp (Bytes.ofLe bs))
  ofLe_toLe n := by
    have h := n.lt
    rw [Bytes.ofLe_leBytes_of_lt (by simpa using h)]
    simp only [Except.ok.injEq]
    exact U64.ext (U64.clamp_val h)

/-! ## Comparison -/

/-- `PartialOrd` and bitwise equality of the items of a `Vec` column. -/
class Primitive (α : Type) extends Fixed α where
  rank : α → Option Int

instance (p : Prim) : Primitive p.Val where
  rank a := p.rank a.bits

instance : Primitive UInt8 where
  rank b := some b.toNat

/-- `PartialOrd::partial_cmp`. -/
def partialCmp {α : Type} [Primitive α] (a b : α) : Option Ordering :=
  match Primitive.rank a, Primitive.rank b with
  | some x, some y => some (compare x y)
  | _, _ => none

end Msca
