import Msca.Operand

/-! Adapter chains over one column. Each adapter tests whole buffers before any item is read and clears
the bits of those it excludes; the chain then resolves into one of the same shape that tests the items. -/
namespace Msca
set_option autoImplicit false
open Checked

/-! ## Sources and masks -/

/-- `query::Src`. -/
structure Src where
  mmap : Bytes
  buffers : BufferSet

/-- `BitBox`: the `n`th bit includes the `n`th buffer. -/
abbrev Mask := List Bool

namespace Src

def mask (src : Src) : Mask := List.replicate src.buffers.items.length true

/-- The fold of `Src::try_exclude`. Bits without a buffer stay as they are. -/
def excludeFrom (test : Manifest.Buffer → Res Bool) : Nat → Mask → List Manifest.Buffer → Res (Nat × Mask)
  | n, true :: mask, buf :: buffers => do
    if ← test buf then
      let rest ← excludeFrom test (n + 1) mask buffers
      return (rest.1, true :: rest.2)
    else
      let rest ← excludeFrom test n mask buffers
      return (rest.1, false :: rest.2)
  | n, false :: mask, _ :: buffers => do
    let rest ← excludeFrom test n mask buffers
    return (rest.1, false :: rest.2)
  | n, mask, _ => .ok (n, mask)

def tryExclude (src : Src) (mask : Mask) (test : Manifest.Buffer → Bytes → Res Bool) : Res (Nat × Mask) :=
  excludeFrom (fun buf => test buf src.mmap) 0 mask src.buffers.items

end Src

/-! ## Buffer tests -/

section Exclude
variable {I J : Type} [Decode I]

/-- The test of `Exclude::with_item`; `keep` evaluates its filter. -/
def itemTest (keep : I → Bool) (buf : Manifest.Buffer) (mmap : Bytes) : Res Bool :=
  match buf with
  | .compact sector _ => do return keep (← readOne I (← sector.slice mmap))
  | _ => .ok true

/-- `deserialize_into` over the bytes of a statistic. -/
def statistic (J : Type) [Deserialize J] (sector : Sector) (mmap : Bytes) : Res J := do
  ((deserialize (α := J)).run (← sector.slice mmap)).1

/-- The test of `Exclude::with_min_max`. -/
def spanTest [Deserialize J] (keep : I → Bool) (op : J → J → Res Bool) (buf : Manifest.Buffer) (mmap : Bytes) :
    Res Bool :=
  match buf with
  | .detailed _ _ min max => do
    let min ← statistic J min mmap
    let max ← statistic J max mmap
    op min max
  | .compact sector _ => do return keep (← readOne I (← sector.slice mmap))
  | .basic _ _ => .ok true

end Exclude

/-! ## Chains -/

/-- What the adapters that differ between the two phases of a query hold. -/
structure Phase where
  Skip : Type
  Keys : Item → Type

/-- `iter::Skip`: the buffer of the first retained item and its index there. -/
structure Anchor where
  buffer : Nat
  origin : Nat
  deriving DecidableEq, Repr

/-- Before file IO the keys of a join are still to be read. -/
@[reducible] def Phase.mask : Phase := ⟨Nat, fun t => Res (BTreeSet t.Val)⟩

@[reducible] def Phase.iter : Phase := ⟨Anchor, fun t => BTreeSet t.Val⟩

/-- Adapters over the items of a column. -/
inductive Adapter (ph : Phase) : Item → Type
  | column (src : Src) (t : Item) (h : t.decodable = true) : Adapter ph t
  | filter {t j : Item} (source : Adapter ph t) (e : Evaluate t j) (filter : j.Val → Bool) : Adapter ph t
  | range {t : Item} {s : Scalar} (source : Adapter ph t) (e : Evaluate t s.item) (bounds : Bounds s.Val) : Adapter ph t
  | bitMatch {t : Item} {s : Scalar} (source : Adapter ph t) (e : Evaluate t s.item) (item : s.Val) : Adapter ph t
  | oneOf {t : Item} {s : Scalar} (source : Adapter ph t) (e : Evaluate t s.item) (items : List s.Val) : Adapter ph t
  | oneOfSorted {t : Item} {s : Scalar} (source : Adapter ph t) (e : Evaluate t s.item) (ord : s.item.ord = true)
      (items : Sorted s.Val) : Adapter ph t
  | oneOfSet {t : Item} {s : Scalar} (source : Adapter ph t) (e : Evaluate t s.item) (ord : s.item.ord = true)
      (items : List s.Val) : Adapter ph t
  | semiJoin {t : Item} {s : Scalar} (source : Adapter ph t) (e : Evaluate t s.item) (ord : s.item.ord = true)
      (keys : ph.Keys s.item) : Adapter ph t
  | antiJoin {t j : Item} (source : Adapter ph t) (e : Evaluate t j) (ord : j.ord = true) (keys : ph.Keys j) :
      Adapter ph t
  | isSome {t : Item} (source : Adapter ph (.option t)) : Adapter ph t
  | isNone {t : Item} (source : Adapter ph (.option t)) : Adapter ph (.option t)
  | skip {t : Item} (source : Adapter ph t) (skip : ph.Skip) : Adapter ph t

theorem Item.decodable_inner {t : Item} (h : (Item.option t).decodable = true) : t.decodable = true := by
  cases t <;> first | rfl | exact h | cases h

namespace Adapter
variable {ph : Phase}

/-- `Deref::deref`. -/
def src : {t : Item} → Adapter ph t → Src
  | _, .column src _ _ => src
  | _, .filter source _ _ => source.src
  | _, .range source _ _ => source.src
  | _, .bitMatch source _ _ => source.src
  | _, .oneOf source _ _ => source.src
  | _, .oneOfSorted source _ _ _ => source.src
  | _, .oneOfSet source _ _ _ => source.src
  | _, .semiJoin source _ _ _ => source.src
  | _, .antiJoin source _ _ _ => source.src
  | _, .isSome source => source.src
  | _, .isNone source => source.src
  | _, .skip source _ => source.src

theorem decodable {t : Item} (a : Adapter ph t) : t.decodable = true := by
  induction a with
  | column _ _ h => exact h
  | isSome _ ih => exact Item.decodable_inner ih
  | _ => assumption

/-- `Exclude::with_item` over the source of an adapter. -/
def withItem {t j : Item} (source : Adapter ph t) (e : Evaluate t j) (mask : Mask) (filter : j.Val → Bool) :
    Res (Nat × Mask) :=
  source.src.tryExclude mask (@itemTest t.Val (t.decode source.decodable) fun item => e.evaluate item filter)

/-- `Exclude::with_min_max` over the source of an adapter. -/
def withMinMax {t : Item} {s : Scalar} (source : Adapter ph t) (e : Evaluate t s.item) (mask : Mask)
    (f : s.Val → Bool) (op : s.Val → s.Val → Res Bool) : Res (Nat × Mask) :=
  source.src.tryExclude mask (@spanTest t.Val s.Val (t.decode source.decodable) _ (fun item => e.evaluate item f) op)

/-- The scan of `Skip::resolve`: the buffer it stops on, what is left to skip there, and the mask. -/
def skipScan : Nat → Nat → Mask → List Manifest.Buffer → Option Nat × Nat × Mask
  | i, n, true :: mask, buf :: buffers =>
    match Checked.sub n buf.count with
    | some n =>
      let rest := skipScan (i + 1) n mask buffers
      (rest.1, rest.2.1, false :: rest.2.2)
    | none => (some i, n, true :: mask)
  | i, n, false :: mask, _ :: buffers =>
    let rest := skipScan (i + 1) n mask buffers
    (rest.1, rest.2.1, false :: rest.2.2)
  | _, n, mask, _ => (none, n, mask)

open PartialOrd (le lt)

/-- `mask::Resolve::resolve`. -/
def resolve : {t : Item} → Adapter .mask t → Mask → Res (Adapter .iter t × Mask)
  | _, .column src t h, mask => .ok (.column src t h, mask)
  | _, .filter source e f, mask => do
    let source ← source.resolve mask
    let kept ← source.1.withItem e source.2 f
    return (.filter source.1 e f, kept.2)
  | _, .range source e bounds, mask => do
    let source ← source.resolve mask
    let kept ← source.1.withMinMax e source.2 bounds.contains fun lb ub => .ok (!Manifest.Buffer.disjoint lb ub bounds)
    return (.range source.1 e bounds, kept.2)
  | _, .bitMatch source e item, mask => do
    let source ← source.resolve mask
    let kept ← source.1.withMinMax e source.2 (BitMatch.eq item) fun lb ub => .ok (le lb item && le item ub)
    return (.bitMatch source.1 e item, kept.2)
  | _, .oneOf source e items, mask => do
    let source ← source.resolve mask
    let kept ← source.1.withMinMax e source.2 (fun item => items.any fun i => BitMatch.eq item i)
      fun lb ub => .ok (items.any fun i => le lb i && le i ub)
    return (.oneOf source.1 e items, kept.2)
  | _, .oneOfSorted source e ord items, mask => do
    let source ← source.resolve mask
    let kept ← source.1.withMinMax e source.2 items.binarySearch
      fun lb ub => .ok (items.partitionPoint (fun i => lt i lb) < items.partitionPoint fun i => le i ub)
    return (.oneOfSorted source.1 e ord items, kept.2)
  | _, .oneOfSet source e ord items, mask => do
    let source ← source.resolve mask
    let kept ← source.1.withMinMax e source.2 (fun item => items.contains item)
      fun lb ub => .ok (items.any fun i => le lb i && le i ub)
    return (.oneOfSet source.1 e ord items, kept.2)
  | _, .semiJoin source e ord keys, mask => do
    let keys ← keys
    let source ← source.resolve mask
    let kept ← source.1.withMinMax e source.2 keys.contains
      fun lb ub => do return (← keys.range lb ub).head?.isSome
    return (.semiJoin source.1 e ord keys, kept.2)
  | _, .antiJoin source e ord keys, mask => do
    let keys ← keys
    let source ← source.resolve mask
    let kept ← source.1.withItem e source.2 fun op => !keys.contains op
    return (.antiJoin source.1 e ord keys, kept.2)
  | _, .isSome source, mask => do
    let source ← source.resolve mask
    let kept ← source.1.withItem (.whole _) source.2 Option.isSome
    return (.isSome source.1, kept.2)
  | _, .isNone source, mask => do
    let source ← source.resolve mask
    let kept ← source.1.withItem (.whole _) source.2 Option.isNone
    return (.isNone source.1, kept.2)
  | _, .skip source n, mask => do
    let source ← source.resolve mask
    let found := skipScan 0 n source.2 source.1.src.buffers.items
    return (.skip source.1 ⟨found.1.getD source.2.length, found.2.1⟩, found.2.2)

/-- The test that `iter::Resolve::read` applies to the items of its source. -/
def test : {t : Item} → Adapter .iter t → t.Val → Bool
  | _, .filter _ e f, item => e.evaluate item f
  | _, .range _ e bounds, item => e.evaluate item bounds.contains
  | _, .bitMatch _ e operand, item => e.evaluate item fun i => BitMatch.eq i operand
  | _, .oneOf _ e items, item => e.evaluate item fun i => items.any (BitMatch.eq i)
  | _, .oneOfSorted _ e _ items, item => e.evaluate item items.binarySearch
  | _, .oneOfSet _ e _ items, item => e.evaluate item fun i => items.contains i
  | _, .semiJoin _ e _ keys, item => e.evaluate item keys.contains
  | _, .antiJoin _ e _ keys, item => e.evaluate item fun i => !keys.contains i
  | _, .isNone _, item => item.isNone
  | _, _, _ => true

/-- `usize::saturating_add`. -/
def saturatingAdd (a b : Nat) : Nat := min (a + b) (2 ^ 64 - 1)

/-- `iter::Resolve::origin`. -/
def origin : {t : Item} → Adapter .iter t → Mask → Nat
  | _, .column _ _ _, _ => 0
  | _, .filter source _ _, mask => source.origin mask
  | _, .range source _ _, mask => source.origin mask
  | _, .bitMatch source _ _, mask => source.origin mask
  | _, .oneOf source _ _, mask => source.origin mask
  | _, .oneOfSorted source _ _ _, mask => source.origin mask
  | _, .oneOfSet source _ _ _, mask => source.origin mask
  | _, .semiJoin source _ _ _, mask => source.origin mask
  | _, .antiJoin source _ _ _, mask => source.origin mask
  | _, .isSome source, mask => source.origin mask
  | _, .isNone source, mask => source.origin mask
  | _, .skip source anchor, mask =>
    let offset := if mask[anchor.buffer]?.getD false then anchor.origin else 0
    saturatingAdd (source.origin mask) offset

end Adapter
end Msca
