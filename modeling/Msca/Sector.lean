import Msca.Base.Bytes
import Msca.Error

/-! Contiguous regions of the file: their bounds, their order and the bytes they address. -/
namespace Msca
set_option autoImplicit false
open Checked

@[ext] structure Sector where
  offset : Nat
  size : Nat
  offset_lt : offset < 2 ^ 64
  size_pos : 0 < size
  size_lt : size < 2 ^ 64

instance : DecidableEq Sector := fun s t =>
  decidable_of_iff (s.offset = t.offset ∧ s.size = t.size) Sector.ext_iff.symm

/-- `NonZeroU64::try_from`. -/
def nonZero (n : Nat) : Res NonZero := okOr convertError (NonZero.ofNat? n)

namespace Sector

def new (offset size : Nat) : Res Sector :=
  if ho : offset < 2 ^ 64 then
    if hp : 0 < size then
      if hs : size < 2 ^ 64 then .ok ⟨offset, size, ho, hp, hs⟩ else .error convertError
    else .error convertError
  else .error convertError

/-- The offset just past the sector, or `none` when it is out of range. -/
def next (s : Sector) : Option Nat := Checked.add s.size s.offset

def relative (s : Sector) (origin : Nat) : Res Sector := do
  let offset ← addOr s.offset origin
  new offset s.size

/-- `Iterator::reduce`. -/
def reduce {α : Type} (f : α → α → α) : List α → Option α
  | [] => none
  | a :: l => some (l.foldl f a)

/-- The present items with their element index. -/
def present {α : Type} (items : List (Option α)) : List (Nat × α) :=
  items.zipIdx.filterMap fun e => e.1.map fun a => (e.2, a)

def find {α : Type} (items : List (Option α)) (width : Nat) (cmp : α → α → Bool) : Option Sector := do
  let best ← reduce (fun best next => if cmp next.2 best.2 then next else best) (present items)
  let offset ← Checked.mul best.1 width
  (new offset width).toOption

/-- The bytes of the sector inside a mapped region. -/
def slice (s : Sector) (mmap : Bytes) : Res Bytes := do
  let stop ← okOr zeroError s.next
  if stop ≤ mmap.length then .ok (Bytes.slice mmap s.offset s.size)
  else .error (.error (.truncated (stop - s.offset) (mmap.length - s.offset)))

/-- Sectors compare by offset, then by size. -/
def key (s : Sector) : Nat ×ₗ Nat := toLex (s.offset, s.size)

theorem key_lt_of_offset {s t : Sector} (h : s.offset < t.offset) : s.key < t.key :=
  Prod.Lex.toLex_lt_toLex.mpr (Or.inl h)

theorem new_eq_ok {o n : Nat} {s : Sector} (h : new o n = .ok s) : s.offset = o ∧ s.size = n := by
  unfold new at h
  split at h
  · split at h
    · split at h
      · cases h
        exact ⟨rfl, rfl⟩
      · cases h
    · cases h
  · cases h

theorem new_of_lt {o n : Nat} (ho : o < 2 ^ 64) (hp : 0 < n) (hn : n < 2 ^ 64) :
    new o n = .ok ⟨o, n, ho, hp, hn⟩ := by
  rw [new, dif_pos ho, dif_pos hp, dif_pos hn]

theorem next_of_lt {s : Sector} (h : s.offset + s.size < 2 ^ 64) : s.next = some (s.offset + s.size) := by
  rw [next, add_of_lt (by omega), Nat.add_comm]

theorem relative_of_lt {s : Sector} {o : Nat} (h : s.offset + o < 2 ^ 64) :
    s.relative o = .ok ⟨s.offset + o, s.size, h, s.size_pos, s.size_lt⟩ := by
  rw [relative, addOr_of_lt h, ok_bind, new_of_lt h s.size_pos s.size_lt]

theorem relative_eq_ok {s t : Sector} {o : Nat} (h : s.relative o = .ok t) :
    s.offset + o < 2 ^ 64 ∧ t.offset = s.offset + o ∧ t.size = s.size := by
  obtain ⟨a, ha, ht⟩ := bind_eq_ok.mp h
  obtain ⟨hlt, rfl⟩ := addOr_eq_ok.mp ha
  exact ⟨hlt, new_eq_ok ht⟩

theorem slice_of_le {s : Sector} {mmap : Bytes} (h : s.offset + s.size ≤ mmap.length)
    (hw : s.offset + s.size < 2 ^ 64) : s.slice mmap = .ok (Bytes.slice mmap s.offset s.size) := by
  simp only [slice, next_of_lt hw, okOr_some, ok_bind]
  rw [if_pos h]

end Sector
end Msca
