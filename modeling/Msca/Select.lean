import Msca.Chain

/-! Filtered reads of records. The legs of a combination stand over the columns of one schema and settle one selection
of its segments before any of them is read; a record comes back if the tree holds of its fields. Over written columns
that is every record the tree selects and no other, whatever the statistics of the columns say. -/
namespace Msca
set_option autoImplicit false
open Checked

/-! ## Combinations -/

/-- The nodes that join a leg to what stands before it. -/
inductive Node
  | conjunct
  | disjunct
  | adjunct
  deriving DecidableEq

namespace Node

def tree {ph : Phase} : Node → Tree ph → Tree ph → Tree ph
  | .conjunct => .conjunct
  | .disjunct => .disjunct
  | .adjunct => .adjunct

/-- The mask that the second child is given, from the mask of the node and what the first child left of it. -/
def offer : Node → Mask → Mask → Mask
  | .conjunct, _, first => first
  | _, mask, first => mask.xor first

/-- The mask of the node, from what both children left. -/
def settle : Node → Mask → Mask → Mask
  | .conjunct, _, second => second
  | _, first, second => second.or first

/-- The sets that the nodes stand for. -/
def holds : Node → Bool → Bool → Bool
  | .conjunct, a, b => a && b
  | .disjunct, a, b => a || b
  | .adjunct, a, b => a ^^ b

end Node

/-- `Combine::combine`, the verdict of a node. -/
class Combine where
  combine : Node → Bool → Bool → Bool

class LawfulCombine [Combine] : Prop where
  combine_eq : ∀ n, Combine.combine n = n.holds

/-- The legs behind the first, each with the node that joins it. -/
abbrev Legs (ph : Phase) (ts : List Item) := Each (fun t => Node × Adapter ph t) ts

/-- A left-nested combination with one leg for each field of a record. -/
structure Combination (ph : Phase) (t : Item) (ts : List Item) where
  head : Adapter ph t
  legs : Legs ph ts

namespace Legs

def tree {ph : Phase} : {ts : List Item} → Tree ph → Legs ph ts → Tree ph
  | _, before, .nil => before
  | _, before, .cons leg legs => tree (leg.1.tree before (.leg leg.2)) legs

/-- The legs resolve one by one; `mask` is what the whole combination was given, `before` what is left of it. -/
def resolve (mask : Mask) : {ts : List Item} → Mask → Legs .mask ts → Res (Legs .iter ts × Mask)
  | _, before, .nil => .ok (.nil, before)
  | _, before, .cons leg legs => do
    let r ← leg.2.resolve (leg.1.offer mask before)
    let rest ← resolve mask (leg.1.settle before r.2) legs
    return (.cons (leg.1, r.1) rest.1, rest.2)

def ops {ph : Phase} : {ts : List Item} → Legs ph ts → List Node
  | _, .nil => []
  | _, .cons leg legs => leg.1 :: ops legs

end Legs

namespace Combination
variable {t : Item} {ts : List Item}

def tree {ph : Phase} (c : Combination ph t ts) : Tree ph := c.legs.tree (.leg c.head)

def resolve (c : Combination .mask t ts) (mask : Mask) : Res (Combination .iter t ts × Mask) := do
  let head ← c.head.resolve mask
  let legs ← c.legs.resolve mask head.2
  return (⟨head.1, legs.1⟩, legs.2)

/-- The streams of the legs, each built from the settled selection. -/
def reader [Outcomes] [Combine] (c : Combination .iter t ts) (mask : Mask) : Reader (t :: ts) where
  streams := .cons (c.head.read mask) (c.legs.map fun _ leg => leg.2.read mask)
  combine := c.legs.ops.map Combine.combine

/-- `Composite::new`: the selection starts from the buffers of the first leg. -/
def new [Outcomes] [Combine] (c : Combination .mask t ts) : Res (Reader (t :: ts)) := do
  let r ← c.resolve c.head.src.mask
  return r.1.reader r.2

end Combination

/-! ## Trees -/

theorem Node.resolve_tree (n : Node) (a : Tree .mask) {t : Item} (leg : Adapter .mask t) (mask : Mask) :
    (n.tree a (.leg leg)).resolve mask = do
      let first ← a.resolve mask
      let second ← leg.resolve (n.offer mask first.2)
      return (n.tree first.1 (.leg second.1), n.settle first.2 second.2) := by
  cases n <;> simp only [Node.tree, Node.offer, Node.settle, Tree.resolve, bind_assoc, pure_bind]

theorem Legs.resolve_tree {ts : List Item} (legs : Legs .mask ts) (before : Tree .mask) (mask : Mask) :
    (legs.tree before).resolve mask = do
      let first ← before.resolve mask
      let rest ← legs.resolve mask first.2
      return (rest.1.tree first.1, rest.2) := by
  induction legs generalizing before with
  | nil =>
    rw [Legs.tree]
    cases before.resolve mask with
    | error e => rfl
    | ok first => rfl
  | cons leg legs ih =>
    rw [Legs.tree, ih, Node.resolve_tree]
    simp only [Legs.resolve, bind_assoc, pure_bind]
    rfl

/-- The legs of a combination resolve as the tree they form does. -/
theorem Combination.resolve_tree {t : Item} {ts : List Item} (c : Combination .mask t ts) (mask : Mask) :
    c.tree.resolve mask = do
      let r ← c.resolve mask
      return (r.1.tree, r.2) := by
  rw [Combination.tree, Legs.resolve_tree, Combination.resolve]
  simp only [Tree.resolve, bind_assoc, pure_bind]
  rfl

/-! ## Records -/

namespace Legs

/-- The types of the columns under the legs. -/
@[reducible] def bases {ph : Phase} : {ts : List Item} → Legs ph ts → List Item
  | _, .nil => []
  | _, .cons leg legs => leg.2.base :: bases legs

/-- The columns hold, segment by segment, the fields of the records in `blocks`. -/
def Hold : {ts : List Item} → (legs : Legs .mask ts) → List (List (Row legs.bases)) → Prop
  | _, .nil, _ => True
  | _, .cons leg legs, blocks =>
    leg.2.src.Holds leg.2.base (blocks.map (List.map Each.head)) ∧
      (∀ rows ∈ blocks, leg.2.base.regular (rows.map Each.head) = true) ∧ Hold legs (blocks.map (List.map Each.tail))

/-- The fields of a record as the legs narrow them, if none is absent, and the verdict of the nodes over them. -/
def record (before : Bool) : {ts : List Item} → (legs : Legs .mask ts) → Row legs.bases → Option (Bool × Row ts)
  | _, .nil, _ => some (before, .nil)
  | _, .cons leg legs, row =>
    (leg.2.narrow row.head).bind fun x =>
      (record (leg.1.holds before (leg.2.accepts x)) legs row.tail).map fun rest => (rest.1, .cons x rest.2)

def Safe : {ts : List Item} → Legs .mask ts → Prop
  | _, .nil => True
  | _, .cons leg legs => leg.2.Safe ∧ Safe legs

end Legs
namespace Combination
variable {t : Item} {ts : List Item} (c : Combination .mask t ts)

@[reducible] def bases : List Item := c.head.base :: c.legs.bases

/-- The columns of all legs hold the records in `blocks`. -/
def Hold (blocks : List (List (Row c.bases))) : Prop :=
  c.head.src.Holds c.head.base (blocks.map (List.map Each.head)) ∧
    (∀ rows ∈ blocks, c.head.base.regular (rows.map Each.head) = true) ∧ c.legs.Hold (blocks.map (List.map Each.tail))

/-- What a filtered read makes of a record: its narrowed fields, if none is absent and the tree holds of them. -/
def select (row : Row c.bases) : Option (Row (t :: ts)) :=
  (c.head.narrow row.head).bind fun x =>
    (c.legs.record (c.head.accepts x) row.tail).bind fun r => if r.1 then some (.cons x r.2) else none

def Safe : Prop := c.head.Safe ∧ c.legs.Safe

end Combination

/-! ## The selection -/

section Masks
variable {mask before after : Mask}

theorem Node.offer_length (n : Node) (h : before.length = mask.length) : (n.offer mask before).length = mask.length := by
  cases n with
  | conjunct => exact h
  | disjunct => exact Mask.xor_length h
  | adjunct => exact Mask.xor_length h

theorem Node.offer_sub (n : Node) (h : before.length = mask.length) (hsub : ∀ i, before.Includes i → mask.Includes i)
    {i : Nat} (hi : (n.offer mask before).Includes i) : mask.Includes i := by
  cases n with
  | conjunct => exact hsub i hi
  | disjunct => exact ((Mask.xor_includes h hsub i).mp hi).1
  | adjunct => exact ((Mask.xor_includes h hsub i).mp hi).1

theorem Node.settle_length (n : Node) (h : before.length = after.length) : (n.settle before after).length = after.length := by
  cases n with
  | conjunct => rfl
  | disjunct => exact Mask.or_length h
  | adjunct => exact Mask.or_length h

theorem Node.settle_sub (n : Node) (h : before.length = after.length) {i : Nat} (hi : (n.settle before after).Includes i) :
    after.Includes i ∨ before.Includes i := by
  cases n with
  | conjunct => exact Or.inl hi
  | disjunct => exact (Mask.or_includes h i).mp hi
  | adjunct => exact (Mask.or_includes h i).mp hi

/-- A buffer that a node clears was cleared by what the node needs: by one child of an intersection, by both of a union. -/
theorem Node.lost (n : Node) (hlen : before.length = mask.length) (hafter : before.length = after.length)
    (hsub : ∀ i, before.Includes i → mask.Includes i) {i : Nat} (hi : mask.Includes i)
    (hnot : ¬ (n.settle before after).Includes i) {a b : Bool} (ha : ¬ before.Includes i → a = false)
    (hb : (n.offer mask before).Includes i → ¬ after.Includes i → b = false) : n.holds a b = false := by
  by_cases hbefore : before.Includes i
  · cases n with
    | conjunct =>
      rw [Node.holds, hb hbefore hnot, Bool.and_false]
    | disjunct => exact absurd ((Mask.or_includes hafter i).mpr (Or.inr hbefore)) hnot
    | adjunct => exact absurd ((Mask.or_includes hafter i).mpr (Or.inr hbefore)) hnot
  · have hfalse := ha hbefore
    cases n with
    | conjunct => rw [Node.holds, hfalse, Bool.false_and]
    | disjunct =>
      have hnone := hb ((Mask.xor_includes hlen hsub i).mpr ⟨hi, hbefore⟩) fun h =>
        hnot ((Mask.or_includes hafter i).mpr (Or.inl h))
      rw [Node.holds, hfalse, hnone, Bool.or_false]
    | adjunct =>
      have hnone := hb ((Mask.xor_includes hlen hsub i).mpr ⟨hi, hbefore⟩) fun h =>
        hnot ((Mask.or_includes hafter i).mpr (Or.inl h))
      rw [Node.holds, hfalse, hnone, Bool.xor_false]

end Masks
theorem map_map_map {α β γ : Type} (f : α → β) (g : β → γ) (blocks : List (List α)) :
    (blocks.map (List.map f)).map (List.map g) = blocks.map (List.map fun x => g (f x)) := by
  rw [List.map_map]
  refine List.map_congr_left fun xs _ => ?_
  rw [Function.comp_apply, List.map_map]
  rfl

/-- The legs clear no segment with a record that the nodes select: `verdict` is what the tree before them makes of an
element of a block, and `row` its fields for them. -/
theorem Legs.resolve_clears {α : Type} {ts : List Item} (legs : Legs .mask ts) (hs : legs.Safe) {blocks : List (List α)}
    {verdict : α → Option Bool} {row : α → Row legs.bases} (hhold : legs.Hold (blocks.map (List.map row)))
    {mask before : Mask} (hlen : before.length = mask.length) (hsub : ∀ i, before.Includes i → mask.Includes i)
    (hlost : ∀ (i : Nat) (xs : List α), mask.Includes i → ¬ before.Includes i → blocks[i]? = some xs →
      ∀ x ∈ xs, verdict x ≠ some true) :
    ∃ r, legs.resolve mask before = .ok r ∧ r.2.length = mask.length ∧
      ∀ (i : Nat) (xs : List α), mask.Includes i → ¬ r.2.Includes i → blocks[i]? = some xs →
        ∀ x ∈ xs, ∀ b, verdict x = some b → ∀ o, legs.record b (row x) = some o → o.1 = false := by
  induction legs generalizing before verdict with
  | nil =>
    refine ⟨_, rfl, hlen, fun i xs hi hnot hxs x hx b hb o ho => ?_⟩
    cases ho
    cases b with
    | false => rfl
    | true => exact absurd hb (hlost i xs hi hnot hxs x hx)
  | cons leg legs ih =>
    obtain ⟨hsleg, hslegs⟩ := hs
    obtain ⟨hcol, hreg, hrest⟩ := hhold
    rw [map_map_map] at hcol hrest
    have hoffer := leg.1.offer_length hlen
    have hregular : ∀ xs ∈ blocks.map (List.map fun x => (row x).head), leg.2.base.regular xs = true := by
      intro xs hxs
      obtain ⟨ys, hys, rfl⟩ := List.mem_map.mp hxs
      have hr := hreg _ (List.mem_map_of_mem hys)
      rwa [List.map_map] at hr
    obtain ⟨q, hq, hclears⟩ := Adapter.resolve_clears hsleg hcol hregular (leg.1.offer mask before)
    have hq2 : before.length = q.2.length := by rw [hclears.length, hoffer, hlen]
    have hsettle : (leg.1.settle before q.2).length = mask.length := by
      rw [leg.1.settle_length hq2, ← hq2, hlen]
    -- what the node makes of an element once its second child is known
    have hstep : ∀ (i : Nat) (xs : List α), mask.Includes i → ¬ (leg.1.settle before q.2).Includes i →
        blocks[i]? = some xs → ∀ x ∈ xs, ((verdict x).bind fun b =>
          (leg.2.narrow (row x).head).map fun y => leg.1.holds b (leg.2.accepts y)) ≠ some true := by
      intro i xs hi hnot hxs x hx htrue
      obtain ⟨b, hb, htrue⟩ := Option.bind_eq_some_iff.mp htrue
      obtain ⟨y, hy, htrue⟩ := Option.map_eq_some_iff.mp htrue
      have hfalse := leg.1.lost hlen hq2 hsub hi hnot (a := b) (b := leg.2.accepts y)
        (fun hbefore => Bool.eq_false_iff.mpr fun h => hlost i xs hi hbefore hxs x hx (h ▸ hb))
        fun hin hout => by
          have hcolumn : (blocks.map (List.map fun x => (row x).head))[i]? = some (xs.map fun x => (row x).head) := by
            rw [List.getElem?_map, hxs]
            rfl
          have hnone := hclears.lost i _ hin hout hcolumn _ (List.mem_map_of_mem hx)
          rw [Adapter.value, hy, Option.filter_eq_none_iff] at hnone
          exact Bool.eq_false_iff.mpr (hnone y rfl)
      rw [hfalse] at htrue
      cases htrue
    obtain ⟨r, hr, hlen', hlost'⟩ := ih hslegs hrest hsettle
      (fun i hi => (leg.1.settle_sub hq2 hi).elim (fun h => leg.1.offer_sub hlen hsub (hclears.sub i h)) (hsub i)) hstep
    refine ⟨_, bind_eq_ok.mpr ⟨q, hq, bind_eq_ok.mpr ⟨r, hr, rfl⟩⟩, hlen', fun i xs hi hnot hxs x hx b hb o ho => ?_⟩
    obtain ⟨y, hy, ho⟩ := Option.bind_eq_some_iff.mp ho
    obtain ⟨o', ho', rfl⟩ := Option.map_eq_some_iff.mp ho
    refine hlost' i xs hi hnot hxs x hx (leg.1.holds b (leg.2.accepts y)) ?_ o' ho'
    rw [hb, Option.bind_some, hy, Option.map_some]

/-! ## The reader -/

/-- The streams whose steps are the given slots. -/
def Streams.gather : (ts : List Item) → List (Slots ts) → Streams ts
  | [], _ => .nil
  | _ :: ts, steps => .cons (steps.map Each.head) (gather ts (steps.map Each.tail))

theorem Streams.pull_gather {ts : List Item} (slots : Slots ts) (steps : List (Slots ts)) :
    (Streams.gather ts (slots :: steps)).pull = (some slots, Streams.gather ts steps) := by
  induction slots with
  | nil => rfl
  | cons o slots ih =>
    have htail := ih (steps.map Each.tail)
    rw [Streams.gather, List.map_cons, List.map_cons]
    simp only [Each.head, Each.tail, Streams.pull, htail]
    rfl

/-- A reader over gathered streams gives their steps one by one, assembled. -/
theorem Reader.nth_gather {t : Item} {ts : List Item} (combine : List (Bool → Bool → Bool)) (steps : List (Slots (t :: ts)))
    (n : Nat) : Reader.nth n ⟨Streams.gather (t :: ts) steps, combine⟩ = (steps[n]?).map (Reader.assemble combine) := by
  induction n generalizing steps with
  | zero =>
    cases steps with
    | nil => rfl
    | cons slots steps =>
      rw [Reader.nth, Reader.next, Streams.pull_gather]
      rfl
  | succ n ih =>
    cases steps with
    | nil =>
      rw [Reader.nth]
      exact ih []
    | cons slots steps =>
      rw [Reader.nth, Reader.next, Streams.pull_gather]
      exact ih steps

theorem retain_fields {α β : Type} (f : α → β) (mask : Mask) (blocks : List (List α)) :
    (retain mask (blocks.map (List.map f))).flatten = (retain mask blocks).flatten.map f := by
  rw [Retain.map, List.map_flatten]

/-- The outcomes of a record in its legs. -/
def Legs.slots : {ts : List Item} → (legs : Legs .mask ts) → Row legs.bases → Slots ts
  | _, .nil, _ => .nil
  | _, .cons leg legs, row => .cons (leg.2.slot (.ok row.head)) (slots legs row.tail)

/-- The streams of resolved legs move through the retained records together. -/
theorem Legs.read_gather [Outcomes] [LawfulOutcomes] {ts : List Item} {legs : Legs .mask ts}
    {blocks : List (List (Row legs.bases))} (hhold : legs.Hold blocks) {mask before : Mask} {r : Legs .iter ts × Mask}
    (h : legs.resolve mask before = .ok r) (m : Mask) :
    (r.1.map fun _ leg => leg.2.read m) = Streams.gather ts ((retain m blocks).flatten.map legs.slots) := by
  induction legs generalizing before with
  | nil =>
    cases h
    rfl
  | cons leg legs ih =>
    obtain ⟨hcol, hreg, hrest⟩ := hhold
    obtain ⟨q, hq, h⟩ := bind_eq_ok.mp h
    obtain ⟨rest, hlegs, h⟩ := bind_eq_ok.mp h
    cases h
    have hregular : ∀ xs ∈ blocks.map (List.map Each.head), leg.2.base.regular xs = true := by
      intro xs hxs
      obtain ⟨ys, hys, rfl⟩ := List.mem_map.mp hxs
      exact hreg ys hys
    rw [Each.map, Streams.gather, Adapter.read_written hq hcol hregular m, ih hrest hlegs, retain_fields, retain_fields,
      List.map_map, List.map_map, List.map_map, List.map_map]
    rfl

theorem Adapter.split_slot {t : Item} {R : Type} (a : Adapter .mask t) (x : a.base.Val) :
    (a.slot (.ok x)).split (J := R) = (a.narrow x).elim (.error .absent) fun y => .ok (a.accepts y, y) := by
  rw [slot]
  cases a.narrow x with
  | none => rfl
  | some y => cases h : a.accepts y <;> simp [Outcome.split, h]

/-- A record is rebuilt from its slots unless a field is absent, and the verdicts of the fields fold to the tree. -/
theorem Legs.rebuild_slots {ts : List Item} (legs : Legs .mask ts) (row : Row legs.bases) (R : Type) :
    (legs.slots row).rebuild (R := R) = .error .absent ∧ (∀ before, legs.record before row = none) ∨
      ∃ keeps fields, (legs.slots row).rebuild (R := R) = .ok (keeps, fields) ∧
        ∀ before, legs.record before row =
          some (((legs.ops.map Node.holds).zip keeps).foldl (fun folded step => step.1 folded step.2) before, fields) := by
  induction legs with
  | nil => exact Or.inr ⟨[], .nil, rfl, fun before => rfl⟩
  | cons leg legs ih =>
    rw [Legs.slots, Slots.rebuild, Adapter.split_slot]
    cases hn : leg.2.narrow row.head with
    | none =>
      refine Or.inl ⟨rfl, fun before => ?_⟩
      rw [Legs.record, hn]
      rfl
    | some y =>
      rcases ih row.tail with ⟨hrebuild, hrecord⟩ | ⟨keeps, fields, hrebuild, hrecord⟩
      · refine Or.inl ⟨?_, fun before => ?_⟩
        · rw [hrebuild]
          rfl
        · rw [Legs.record, hn, Option.bind_some, hrecord]
          rfl
      · refine Or.inr ⟨leg.2.accepts y :: keeps, .cons y fields, ?_, fun before => ?_⟩
        · rw [hrebuild]
          rfl
        · rw [Legs.record, hn, Option.bind_some, hrecord]
          rfl

theorem Legs.resolve_ops {ts : List Item} {legs : Legs .mask ts} {mask before : Mask} {r : Legs .iter ts × Mask}
    (h : legs.resolve mask before = .ok r) : r.1.ops = legs.ops := by
  induction legs generalizing before with
  | nil =>
    cases h
    rfl
  | cons leg legs ih =>
    obtain ⟨q, hq, h⟩ := bind_eq_ok.mp h
    obtain ⟨rest, hlegs, h⟩ := bind_eq_ok.mp h
    cases h
    rw [Legs.ops, Legs.ops, ih hlegs]

namespace Combination
variable {t : Item} {ts : List Item} (c : Combination .mask t ts)

theorem resolve_ops {mask : Mask} {r : Combination .iter t ts × Mask} (h : c.resolve mask = .ok r) :
    r.1.legs.ops = c.legs.ops := by
  obtain ⟨head, -, h⟩ := bind_eq_ok.mp h
  obtain ⟨legs, hlegs, h⟩ := bind_eq_ok.mp h
  cases h
  exact Legs.resolve_ops hlegs

/-- The outcomes of a record in all legs. -/
def slots (row : Row c.bases) : Slots (t :: ts) := .cons (c.head.slot (.ok row.head)) (c.legs.slots row.tail)

/-- Assembled, the slots of a record are the record if it is selected, and never an error. -/
theorem assemble_slots [Combine] [LawfulCombine] (row : Row c.bases) :
    (Reader.assemble (c.legs.ops.map Combine.combine) (c.slots row)).included? = c.select row ∧
      ∀ e, Reader.assemble (c.legs.ops.map Combine.combine) (c.slots row) ≠ .error e := by
  have hops : c.legs.ops.map Combine.combine = c.legs.ops.map Node.holds :=
    List.map_congr_left fun n _ => LawfulCombine.combine_eq n
  rw [hops, slots, Reader.assemble, Slots.rebuild, Adapter.split_slot, select]
  cases hn : c.head.narrow row.head with
  | none => exact ⟨rfl, fun e h => by cases h⟩
  | some x =>
    rcases c.legs.rebuild_slots row.tail (Row (t :: ts)) with ⟨hrebuild, hrecord⟩ | ⟨keeps, fields, hrebuild, hrecord⟩
    · rw [hrebuild, Option.bind_some, hrecord]
      exact ⟨rfl, fun e h => by cases h⟩
    · rw [hrebuild, Option.bind_some, hrecord, Option.bind_some]
      change (if Reader.verdict (c.legs.ops.map Node.holds) (c.head.accepts x :: keeps) then
          Outcome.included (Each.cons x fields) else .excluded (Each.cons x fields)).included? = _ ∧ ∀ e,
        (if Reader.verdict (c.legs.ops.map Node.holds) (c.head.accepts x :: keeps) then
          Outcome.included (Each.cons x fields) else .excluded (Each.cons x fields)) ≠ .error e
      rw [Reader.verdict]
      cases ((c.legs.ops.map Node.holds).zip keeps).foldl (fun folded step => step.1 folded step.2) (c.head.accepts x) with
      | true => exact ⟨rfl, fun e h => by cases h⟩
      | false => exact ⟨rfl, fun e h => by cases h⟩

theorem Hold.regular {blocks : List (List (Row c.bases))} (h : c.Hold blocks) :
    ∀ xs ∈ blocks.map (List.map Each.head), c.head.base.regular xs = true := by
  intro xs hxs
  obtain ⟨rows, hrows, rfl⟩ := List.mem_map.mp hxs
  exact h.2.1 rows hrows

/-- Safe legs over written columns resolve, and no segment with a selected record is cleared. -/
theorem resolve_clears (hs : c.Safe) {blocks : List (List (Row c.bases))} (hhold : c.Hold blocks) (mask : Mask) :
    ∃ r, c.resolve mask = .ok r ∧ r.2.length = mask.length ∧
      ∀ (i : Nat) (rows : List (Row c.bases)), mask.Includes i → ¬ r.2.Includes i → blocks[i]? = some rows →
        ∀ row ∈ rows, c.select row = none := by
  obtain ⟨head, hhead, hclears⟩ := Adapter.resolve_clears hs.1 hhold.1 (Hold.regular c hhold) mask
  have hlost : ∀ (i : Nat) (rows : List (Row c.bases)), mask.Includes i → ¬ head.2.Includes i → blocks[i]? = some rows →
      ∀ row ∈ rows, (c.head.narrow row.head).map c.head.accepts ≠ some true := by
    intro i rows hi hnot hrows row hrow htrue
    obtain ⟨x, hx, haccepts⟩ := Option.map_eq_some_iff.mp htrue
    have hcolumn : (blocks.map (List.map Each.head))[i]? = some (rows.map Each.head) := by
      rw [List.getElem?_map, hrows]
      rfl
    have hnone := hclears.lost i _ hi hnot hcolumn _ (List.mem_map_of_mem hrow)
    rw [Adapter.value, hx, Option.filter_eq_none_iff] at hnone
    exact hnone x rfl haccepts
  obtain ⟨legs, hlegs, hlen, hlegsLost⟩ := c.legs.resolve_clears hs.2 hhold.2.2 hclears.length hclears.sub hlost
  refine ⟨_, bind_eq_ok.mpr ⟨head, hhead, bind_eq_ok.mpr ⟨legs, hlegs, rfl⟩⟩, hlen, fun i rows hi hnot hrows row hrow => ?_⟩
  rw [← Option.not_isSome_iff_eq_none]
  intro hsome
  obtain ⟨record, hselect⟩ := Option.isSome_iff_exists.mp hsome
  obtain ⟨x, hx, hselect⟩ := Option.bind_eq_some_iff.mp hselect
  obtain ⟨o, ho, hselect⟩ := Option.bind_eq_some_iff.mp hselect
  have hfalse := hlegsLost i rows hi hnot hrows row hrow (c.head.accepts x) (by rw [hx]; rfl) o ho
  rw [if_neg (by rw [hfalse]; exact Bool.false_ne_true)] at hselect
  cases hselect

theorem read_gather [Outcomes] [LawfulOutcomes] [Combine] {blocks : List (List (Row c.bases))} (hhold : c.Hold blocks)
    {mask : Mask} {r : Combination .iter t ts × Mask} (h : c.resolve mask = .ok r) (m : Mask) :
    (r.1.reader m).streams = Streams.gather (t :: ts) ((retain m blocks).flatten.map c.slots) := by
  obtain ⟨head, hhead, h⟩ := bind_eq_ok.mp h
  obtain ⟨legs, hlegs, h⟩ := bind_eq_ok.mp h
  cases h
  rw [reader, Streams.gather, Adapter.read_written hhead hhold.1 (Hold.regular c hhold) m,
    Legs.read_gather hhold.2.2 hlegs m, retain_fields, retain_fields, List.map_map, List.map_map, List.map_map,
    List.map_map]
  rfl

/-- A filtered read of records over written columns yields, in the order they were written, the records that the
combination selects, each with its narrowed fields, and nothing else: the selection of segments loses none of them,
the streams never part, and no outcome is an error. -/
theorem select_exact [Outcomes] [LawfulOutcomes] [Combine] [LawfulCombine] (hs : c.Safe)
    {blocks : List (List (Row c.bases))} (hhold : c.Hold blocks) :
    ∃ (reader : Reader (t :: ts)) (outcomes : List (Outcome (Row (t :: ts)))), c.new = .ok reader ∧
      (∀ n, reader.nth n = outcomes[n]?) ∧
        outcomes.filterMap Outcome.included? = blocks.flatten.filterMap c.select ∧ ∀ o ∈ outcomes, ∀ e, o ≠ .error e := by
  obtain ⟨r, hr, hlen, hlost⟩ := c.resolve_clears hs hhold c.head.src.mask
  have hsize : c.head.src.mask.length = blocks.length := by
    rw [Src.mask, List.length_replicate, ← hhold.1.length_eq, List.length_map]
  have hnone : ∀ (i : Nat) (rows : List (Row c.bases)), blocks[i]? = some rows → r.2[i]? ≠ some true →
      rows.filterMap c.select = [] := by
    intro i rows hrows hnot
    have hlt : i < c.head.src.buffers.items.length := by
      rw [← List.length_replicate (n := c.head.src.buffers.items.length) (a := true), ← Src.mask, hsize]
      exact (List.getElem?_eq_some_iff.mp hrows).1
    have hmask : c.head.src.mask.Includes i := by
      unfold Mask.Includes Src.mask
      rw [List.getElem?_replicate, if_pos hlt]
    exact List.filterMap_eq_nil_iff.mpr (hlost i rows hmask hnot hrows)
  have hreader : r.1.reader r.2 =
      ⟨Streams.gather (t :: ts) ((retain r.2 blocks).flatten.map c.slots), c.legs.ops.map Combine.combine⟩ := by
    rw [← c.read_gather hhold hr r.2, ← c.resolve_ops hr]
    rfl
  refine ⟨_, (retain r.2 blocks).flatten.map fun row => Reader.assemble (c.legs.ops.map Combine.combine) (c.slots row),
    bind_eq_ok.mpr ⟨r, hr, rfl⟩, fun n => ?_, ?_, fun o ho e => ?_⟩
  · rw [hreader, Reader.nth_gather, List.getElem?_map, List.getElem?_map, Option.map_map]
    rfl
  · calc ((retain r.2 blocks).flatten.map fun row =>
          Reader.assemble (c.legs.ops.map Combine.combine) (c.slots row)).filterMap Outcome.included?
        = (retain r.2 blocks).flatten.filterMap c.select := by
          rw [List.filterMap_map]
          exact congrArg (fun f => List.filterMap f _) (funext fun row => (c.assemble_slots row).1)
      _ = (retain r.2 blocks).flatMap fun rows => rows.filterMap c.select := by
          rw [List.filterMap_flatten, List.flatMap_def]
      _ = blocks.flatMap fun rows => rows.filterMap c.select :=
          (Retain.flatMap_eq_iff (hlen.trans hsize)).mpr hnone
      _ = blocks.flatten.filterMap c.select := by
          rw [List.filterMap_flatten, List.flatMap_def]
  · obtain ⟨row, -, rfl⟩ := List.mem_map.mp ho
    exact (c.assemble_slots row).2 e

end Combination
end Msca
