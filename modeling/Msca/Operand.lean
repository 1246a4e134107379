import Msca.Source

/-! Operands of the query filters: the comparisons of the item types, the collections a filter may test
against, and how an item answers a test of its operand. A float that is not a number is comparable with
nothing, so comparison is partial. -/
namespace Msca
set_option autoImplicit false
open Checked

/-! ## Comparison -/

/-- `PartialOrd`. -/
class PartialOrd (α : Type) where
  partialCmp : α → α → Option Ordering

namespace PartialOrd
variable {α : Type} [PartialOrd α]

def lt (a b : α) : Bool := partialCmp a b == some .lt

def gt (a b : α) : Bool := partialCmp a b == some .gt

def le (a b : α) : Bool := partialCmp a b == some .lt || partialCmp a b == some .eq

def ge (a b : α) : Bool := partialCmp a b == some .gt || partialCmp a b == some .eq

end PartialOrd

open PartialOrd (lt gt le ge)

@[reducible] def boolPartialOrd : PartialOrd Bool := ⟨fun a b => some (compare a b)⟩

@[reducible] def primPartialOrd (p : Prim) : PartialOrd p.Val := ⟨Msca.partialCmp⟩

@[reducible] def stringPartialOrd : PartialOrd String := ⟨fun a b => some (compare (intoBytes a) (intoBytes b))⟩

/-- `None` is below every `Some`. -/
@[reducible] def optionPartialOrd {α : Type} (o : PartialOrd α) : PartialOrd (Option α) where
  partialCmp
    | none, none => some .eq
    | none, some _ => some .lt
    | some _, none => some .gt
    | some a, some b => PartialOrd.partialCmp a b

/-- Lexicographic order. -/
def lexCmp {α : Type} [PartialOrd α] : List α → List α → Option Ordering
  | [], [] => some .eq
  | [], _ :: _ => some .lt
  | _ :: _, [] => some .gt
  | a :: as, b :: bs => if PartialOrd.partialCmp a b = some .eq then lexCmp as bs else PartialOrd.partialCmp a b

@[reducible] def vecPartialOrd {α : Type} (_ : PartialOrd α) : PartialOrd (List α) := ⟨lexCmp⟩

@[reducible] def Item.partialOrd : (t : Item) → PartialOrd t.Val
  | .bool => boolPartialOrd
  | .prim p => primPartialOrd p
  | .string => stringPartialOrd
  | .option t => optionPartialOrd t.partialOrd
  | .vec t => vecPartialOrd t.partialOrd

instance (t : Item) : PartialOrd t.Val := t.partialOrd

/-- Item types with `Ord`. -/
def Item.ord : Item → Bool
  | .prim (.plain .f32) => false
  | .prim (.plain .f64) => false
  | .option t => t.ord
  | .vec t => t.ord
  | _ => true

/-! ## Operand types -/

/-- Item types with `Deserialize`, which order statistics are read as. -/
inductive Scalar
  | prim (p : Prim)
  | string
  | niche (p : Niche)

namespace Scalar

@[reducible] def item : Scalar → Item
  | .prim p => .prim p
  | .string => .string
  | .niche p => .option (.prim (.niche p))

abbrev Val (s : Scalar) : Type := s.item.Val

@[reducible] def deserialize : (s : Scalar) → Deserialize s.Val
  | .prim p => inferInstanceAs (Deserialize p.Val)
  | .string => ⟨do Parse.lift (fromUtf8 (← takeAll))⟩
  | .niche p => inferInstanceAs (Deserialize (Option (Prim.niche p).Val))

instance (s : Scalar) : Deserialize s.Val := s.deserialize

@[reducible] def decidableEq : (s : Scalar) → DecidableEq s.Val
  | .prim p => inferInstanceAs (DecidableEq p.Val)
  | .string => inferInstanceAs (DecidableEq String)
  | .niche p => inferInstanceAs (DecidableEq (Option (Prim.niche p).Val))

instance (s : Scalar) : DecidableEq s.Val := s.decidableEq

end Scalar

/-- `read::Evaluate`: an item is tested as a whole, or an option by the item it carries. -/
inductive Evaluate : Item → Item → Type
  | whole (t : Item) : Evaluate t t
  | inner (t : Item) : Evaluate (.option t) t

/-- `Evaluate::evaluate`. -/
def Evaluate.evaluate : {t j : Item} → Evaluate t j → t.Val → (j.Val → Bool) → Bool
  | _, _, .whole _, item, filter => filter item
  | _, _, .inner _, item, filter => item.any filter

/-! ## Operands -/

/-- `ops::Bound`. -/
inductive Bound (α : Type)
  | included (a : α)
  | excluded (a : α)
  | unbounded

/-- `ops::RangeBounds`. -/
structure Bounds (α : Type) where
  start : Bound α
  stop : Bound α

section Collections
variable {α : Type} [PartialOrd α]

/-- `RangeBounds::contains`. -/
def Bounds.contains (bounds : Bounds α) (item : α) : Bool :=
  (match bounds.start with
    | .included start => le start item
    | .excluded start => lt start item
    | .unbounded => true) &&
  match bounds.stop with
  | .included stop => le item stop
  | .excluded stop => lt item stop
  | .unbounded => true

/-- `Buffer::disjoint`. -/
def Manifest.Buffer.disjoint (min max : α) (bounds : Bounds α) : Bool :=
  let above := match bounds.stop with
    | .included inc => gt min inc
    | .excluded exc => ge min exc
    | .unbounded => false
  let below := match bounds.start with
    | .included inc => lt max inc
    | .excluded exc => le max exc
    | .unbounded => false
  above || below

/-- A slice in ascending order. -/
structure Sorted (α : Type) [PartialOrd α] where
  items : List α
  ascending : items.Pairwise fun a b => le a b = true

/-- `binary_search(..).is_ok()`. -/
def Sorted.binarySearch (slice : Sorted α) (item : α) : Bool :=
  slice.items.any fun i => PartialOrd.partialCmp i item == some .eq

/-- `partition_point`. -/
def Sorted.partitionPoint (slice : Sorted α) (pred : α → Bool) : Nat := (slice.items.takeWhile pred).length

/-- `BTreeSet`. -/
structure BTreeSet (α : Type) [PartialOrd α] where
  items : List α
  ascending : items.Pairwise fun a b => lt a b = true

def BTreeSet.contains (keys : BTreeSet α) (item : α) : Bool :=
  keys.items.any fun i => PartialOrd.partialCmp i item == some .eq

/-- `BTreeSet::range(lb ..= ub)`, which panics on an inverted range. -/
def BTreeSet.range (keys : BTreeSet α) (lb ub : α) : Res (List α) :=
  if gt lb ub then .error .panic else .ok (keys.items.filter fun i => le lb i && le i ub)

end Collections
end Msca
