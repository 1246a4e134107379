import Msca.Base.Chunks
import Msca.Combine
import Msca.Composite

/-! The composite reader, as `#[derive(Read)]` expands it. It pulls one outcome from every field stream and rebuilds
a record from them, so the fields of a record belong together as long as the streams stand at the same position of
the same segment. A buffer that fails gives one outcome for all its items and takes its stream out of step. -/
namespace Msca
set_option autoImplicit false
open Checked

/-! ## Outcomes -/

/-- `read::Outcome`, as the generated code matches it. -/
inductive Outcome (I : Type)
  | included (item : I)
  | excluded (item : I)
  | error (e : Fault)
  | absent
  deriving DecidableEq

namespace Outcome
variable {I J : Type}

def item? : Outcome I → Option I
  | .included item => some item
  | .excluded item => some item
  | _ => none

/-- The verdict and the item, or what the outcome propagates as. -/
def split : Outcome I → Except (Outcome J) (Bool × I)
  | .included item => .ok (true, item)
  | .excluded item => .ok (false, item)
  | .error e => .error (.error e)
  | .absent => .error .absent

theorem split_ok {o : Outcome I} {keep : Bool} {item : I} (h : o.split (J := J) = .ok (keep, item)) : o.item? = some item := by
  cases o with
  | included x =>
    cases h
    rfl
  | excluded x =>
    cases h
    rfl
  | error e => cases h
  | absent => cases h

theorem split_error {o : Outcome I} {other : Outcome J} (h : o.split = .error other) : other.item? = none := by
  cases o with
  | included x => cases h
  | excluded x => cases h
  | error e =>
    cases h
    rfl
  | absent =>
    cases h
    rfl

/-- A result as the outcome that includes its item. -/
def ofResult : Res I → Outcome I
  | .ok item => .included item
  | .error e => .error e

theorem ofResult_item (r : Res I) (x : I) (h : (ofResult r).item? = some x) : r = .ok x := by
  cases r with
  | ok y =>
    cases h
    rfl
  | error e => cases h

end Outcome

/-! ## The reader -/

namespace Each
variable {F G : Item → Type}

def map (f : (t : Item) → F t → G t) : {ts : List Item} → Each F ts → Each G ts
  | _, .nil => .nil
  | _, .cons head tail => .cons (f _ head) (map f tail)

theorem get_map (f : (t : Item) → F t → G t) {ts : List Item} (e : Each F ts) (j : Fin ts.length) :
    (e.map f).get j = f _ (e.get j) := by
  induction e with
  | nil => exact j.elim0
  | cons head tail ih =>
    obtain ⟨j, hj⟩ := j
    cases j with
    | zero => rfl
    | succ j => exact ih ⟨j, Nat.lt_of_succ_lt_succ hj⟩

end Each

/-- The outcomes left in each field stream. -/
abbrev Streams (ts : List Item) := Each (fun t => List (Outcome t.Val)) ts

/-- One outcome for each field. -/
abbrev Slots (ts : List Item) := Each (fun t => Outcome t.Val) ts

/-- Every stream is pulled in name order, up to one that has ended. -/
def Streams.pull : {ts : List Item} → Streams ts → Option (Slots ts) × Streams ts
  | _, .nil => (some .nil, .nil)
  | _, .cons [] streams => (none, .cons [] streams)
  | _, .cons (o :: stream) streams =>
    let r := pull streams
    (r.1.map (.cons o), .cons stream r.2)

/-- The verdicts and the items of the fields; the first outcome without item propagates. -/
def Slots.rebuild {R : Type} : {ts : List Item} → Slots ts → Except (Outcome R) (List Bool × Row ts)
  | _, .nil => .ok ([], .nil)
  | _, .cons o slots => do
    let head ← o.split
    let tail ← rebuild slots
    return (head.1 :: tail.1, .cons head.2 tail.2)

/-- The generated reader: its streams, and the operators of the nodes from the innermost pair outwards. -/
structure Reader (ts : List Item) where
  streams : Streams ts
  combine : List (Bool → Bool → Bool)

namespace Reader
variable {ts : List Item}

def verdict (combine : List (Bool → Bool → Bool)) : List Bool → Bool
  | [] => true
  | keep :: keeps => (combine.zip keeps).foldl (fun folded step => step.1 folded step.2) keep

/-- What the reader makes of the outcomes it pulled. -/
def assemble (combine : List (Bool → Bool → Bool)) (slots : Slots ts) : Outcome (Row ts) :=
  match slots.rebuild with
  | .error o => o
  | .ok r => if verdict combine r.1 then .included r.2 else .excluded r.2

/-- `Iterator::next` of the generated reader. -/
def next (r : Reader ts) : Option (Outcome (Row ts)) × Reader ts :=
  let p := r.streams.pull
  (p.1.map (assemble r.combine), { r with streams := p.2 })

/-- The outcome of call `n` of `next`. -/
def nth : Nat → Reader ts → Option (Outcome (Row ts))
  | 0, r => r.next.1
  | n + 1, r => nth n r.next.2

end Reader

/-- The stream of a field: its column, and what becomes of each result decoded from it. An outcome with an item has it
from the result. -/
structure FieldStream (t : Item) where
  decodable : t.decodable = true
  buffers : List Manifest.Buffer
  outcome : Res t.Val → Outcome t.Val
  decoded : ∀ r x, (outcome r).item? = some x → r = .ok x

namespace FieldStream
variable {t : Item} (mask : Mask) (mmap : Bytes)

/-- `Column::retained`. -/
def retained (f : FieldStream t) : List Manifest.Buffer := ((mask.zip f.buffers).filter Prod.fst).map Prod.snd

/-- `Column::read`. -/
def read (f : FieldStream t) : List (Outcome t.Val) :=
  (@Src.intoIter t.Val (t.decode f.decodable) (f.retained mask) mmap).map f.outcome

/-- The results that each segment gives. -/
def segments (f : FieldStream t) : List (List (Res t.Val)) :=
  List.zipWith (fun keep b => if keep then @Src.buffer t.Val (t.decode f.decodable) mmap b else []) mask f.buffers

/-- How many outcomes each segment gives. -/
def sizes (f : FieldStream t) : List Nat := (f.segments mask mmap).map List.length

/-- The result at a position of a segment. -/
def result (f : FieldStream t) (p : Nat × Nat) : Option (Res t.Val) :=
  (f.segments mask mmap)[p.1]?.bind fun results => results[p.2]?

/-- The segment and the position that outcome `n` comes from. -/
def place (f : FieldStream t) (n : Nat) : Option (Nat × Nat) := Chunks.place (f.sizes mask mmap) n

end FieldStream

/-- The reader of a composite over its legs, which share one selection. -/
def Reader.new {ts : List Item} (mask : Mask) (mmap : Bytes) (fields : Each FieldStream ts)
    (combine : List (Bool → Bool → Bool)) : Reader ts := ⟨fields.map fun _ f => f.read mask mmap, combine⟩

/-! ## Pulling -/

theorem Streams.pull_some {ts : List Item} {streams : Streams ts} {slots : Slots ts} (h : streams.pull.1 = some slots)
    (j : Fin ts.length) : streams.get j = slots.get j :: streams.pull.2.get j := by
  induction streams with
  | nil => exact j.elim0
  | cons stream streams ih =>
    cases stream with
    | nil => cases h
    | cons o stream =>
      obtain ⟨rest, hrest, heq⟩ := Option.map_eq_some_iff.mp h
      cases heq
      obtain ⟨j, hj⟩ := j
      cases j with
      | zero => rfl
      | succ j => exact ih hrest ⟨j, Nat.lt_of_succ_lt_succ hj⟩

theorem Streams.pull_none {ts : List Item} {streams : Streams ts} (h : streams.pull.1 = none) :
    ∃ j, streams.pull.2.get j = [] := by
  induction streams with
  | nil => cases h
  | cons stream streams ih =>
    cases stream with
    | nil => exact ⟨⟨0, Nat.succ_pos _⟩, rfl⟩
    | cons o stream =>
      obtain ⟨j, hj⟩ := ih (Option.map_eq_none_iff.mp h)
      exact ⟨⟨j.val + 1, Nat.succ_lt_succ j.isLt⟩, hj⟩

/-- The streams are in lockstep: call `n` takes outcome `n` of each, whatever came before. -/
theorem Reader.nth_eq_some {ts : List Item} {n : Nat} {r : Reader ts} {o : Outcome (Row ts)} (h : r.nth n = some o) :
    ∃ slots : Slots ts, (∀ j, (r.streams.get j)[n]? = some (slots.get j)) ∧ o = assemble r.combine slots := by
  induction n generalizing r with
  | zero =>
    obtain ⟨slots, hslots, heq⟩ := Option.map_eq_some_iff.mp h
    refine ⟨slots, fun j => ?_, heq.symm⟩
    rw [Streams.pull_some hslots j]
    rfl
  | succ n ih =>
    obtain ⟨slots, hslots, heq⟩ := ih h
    refine ⟨slots, fun j => ?_, heq⟩
    cases hpull : r.streams.pull.1 with
    | none =>
      obtain ⟨i, hi⟩ := Streams.pull_none hpull
      have hend := hslots i
      rw [show r.next.2.streams = r.streams.pull.2 from rfl, hi] at hend
      cases hend
    | some first =>
      rw [Streams.pull_some hpull j, List.getElem?_cons_succ]
      exact hslots j

theorem Slots.rebuild_ok {ts : List Item} {R : Type} {slots : Slots ts} {keeps : List Bool} {row : Row ts}
    (h : slots.rebuild (R := R) = .ok (keeps, row)) (j : Fin ts.length) : (slots.get j).item? = some (row.get j) := by
  induction slots generalizing keeps with
  | nil => exact j.elim0
  | cons o slots ih =>
    cases hsplit : o.split (J := R) with
    | error e =>
      rw [rebuild, hsplit] at h
      cases h
    | ok head =>
      cases htail : Slots.rebuild (R := R) slots with
      | error e =>
        rw [rebuild, hsplit, htail] at h
        cases h
      | ok tail =>
        rw [rebuild, hsplit, htail] at h
        cases h
        obtain ⟨j, hj⟩ := j
        cases j with
        | zero => exact Outcome.split_ok hsplit
        | succ j => exact ih htail ⟨j, Nat.lt_of_succ_lt_succ hj⟩

theorem Slots.rebuild_error {ts : List Item} {R : Type} {slots : Slots ts} {o : Outcome R} (h : slots.rebuild = .error o) :
    o.item? = none := by
  induction slots with
  | nil => cases h
  | cons head slots ih =>
    cases hsplit : head.split (J := R) with
    | error e =>
      rw [rebuild, hsplit] at h
      cases h
      exact Outcome.split_error hsplit
    | ok head =>
      cases htail : Slots.rebuild (R := R) slots with
      | error e =>
        rw [rebuild, hsplit, htail] at h
        cases h
        exact ih htail
      | ok tail =>
        rw [rebuild, hsplit, htail] at h
        cases h

theorem Reader.assemble_item {ts : List Item} {combine : List (Bool → Bool → Bool)} {slots : Slots ts} {row : Row ts}
    (h : (assemble combine slots).item? = some row) (j : Fin ts.length) : (slots.get j).item? = some (row.get j) := by
  unfold assemble at h
  cases hr : slots.rebuild (R := Row ts) with
  | error o =>
    rw [hr] at h
    rw [Slots.rebuild_error hr] at h
    cases h
  | ok r =>
    rw [hr] at h
    have hrow : r.2 = row := by
      dsimp only at h
      by_cases hv : verdict combine r.1 = true
      · rw [if_pos hv] at h
        exact Option.some.inj h
      · rw [if_neg hv] at h
        exact Option.some.inj h
    rw [← hrow]
    exact Slots.rebuild_ok hr j

/-! ## Positions -/

namespace FieldStream
variable {t : Item} (mask : Mask) (mmap : Bytes)

theorem flatten_segments (f : FieldStream t) :
    (f.segments mask mmap).flatten = @Src.intoIter t.Val (t.decode f.decodable) (f.retained mask) mmap := by
  obtain ⟨hd, buffers, outcome, decoded⟩ := f
  unfold segments retained Src.intoIter
  dsimp only
  induction mask generalizing buffers with
  | nil => rfl
  | cons keep mask ih =>
    cases buffers with
    | nil => simp
    | cons b buffers =>
      rw [List.zipWith_cons_cons, List.flatten_cons, ih, List.zip_cons_cons, List.filter_cons]
      cases keep with
      | false => rfl
      | true => rfl

/-- The outcome at `n` is made of the result at its place. -/
theorem read_getElem (f : FieldStream t) (n : Nat) :
    (f.read mask mmap)[n]? = ((f.place mask mmap n).bind (f.result mask mmap)).map f.outcome := by
  rw [read, List.getElem?_map, ← flatten_segments, Chunks.getElem?_flatten]
  rfl

theorem lt_of_read {f : FieldStream t} {n : Nat} {o : Outcome t.Val} (h : (f.read mask mmap)[n]? = some o) :
    n < (f.sizes mask mmap).sum := by
  have hlt := (List.getElem?_eq_some_iff.mp h).1
  rw [read, List.length_map, ← flatten_segments, List.length_flatten] at hlt
  exact hlt

end FieldStream

namespace Reader
variable {ts : List Item} {mask : Mask} {mmap : Bytes} {fields : Each FieldStream ts}
  {combine : List (Bool → Bool → Bool)} {n : Nat} {o : Outcome (Row ts)}

theorem new_nth (h : (new mask mmap fields combine).nth n = some o) : ∃ slots : Slots ts,
    (∀ j, ((fields.get j).read mask mmap)[n]? = some (slots.get j)) ∧ o = assemble combine slots := by
  obtain ⟨slots, hslots, ho⟩ := nth_eq_some h
  refine ⟨slots, fun j => ?_, ho⟩
  rw [← hslots j]
  exact congrArg (fun l : List (Outcome (ts.get j).Val) => l[n]?) (Each.get_map (fun _ f => f.read mask mmap) fields j).symm

theorem rebuilt_result (h : (new mask mmap fields combine).nth n = some o) {row : Row ts} (hrow : o.item? = some row)
    (j : Fin ts.length) : ∃ p, (fields.get j).place mask mmap n = some p ∧
      (fields.get j).result mask mmap p = some (.ok (row.get j)) := by
  obtain ⟨slots, hslots, rfl⟩ := new_nth h
  have hitem := assemble_item hrow j
  have hread := hslots j
  rw [FieldStream.read_getElem] at hread
  obtain ⟨r, hr, houtcome⟩ := Option.map_eq_some_iff.mp hread
  obtain ⟨p, hp, hresult⟩ := Option.bind_eq_some_iff.mp hr
  rw [← houtcome] at hitem
  rw [(fields.get j).decoded _ _ hitem] at hresult
  exact ⟨p, hp, hresult⟩

/-- The fields stand at one position of one segment at every step up to `n` exactly when, in each segment that a field
has left behind by then, all fields had the same number of outcomes; and then a record rebuilt at step `n` has all its
fields from there. -/
theorem aligned_iff_level (h : (new mask mmap fields combine).nth n = some o) :
    (Chunks.Level (fun j : Fin ts.length => (fields.get j).sizes mask mmap) n ↔
      ∀ m, m ≤ n → ∃ p, ∀ j, (fields.get j).place mask mmap m = some p) ∧
    (Chunks.Level (fun j : Fin ts.length => (fields.get j).sizes mask mmap) n → ∀ row, o.item? = some row →
      ∃ p, ∀ j, (fields.get j).place mask mmap n = some p ∧ (fields.get j).result mask mmap p = some (.ok (row.get j))) := by
  obtain ⟨slots, hslots, -⟩ := new_nth h
  have hlt : ∀ j, n < ((fields.get j).sizes mask mmap).sum := fun j => FieldStream.lt_of_read mask mmap (hslots j)
  have hiff := Chunks.level_iff_places hlt
  have hplaces : Chunks.Level (fun j : Fin ts.length => (fields.get j).sizes mask mmap) n ↔
      ∀ m, m ≤ n → ∃ p, ∀ j, (fields.get j).place mask mmap m = some p := by
    rw [hiff]
    constructor
    · intro hall m hm
      by_cases hts : Nonempty (Fin ts.length)
      · obtain ⟨i⟩ := hts
        obtain ⟨s, p, hp⟩ := Chunks.exists_place (Nat.lt_of_le_of_lt hm (hlt i))
        exact ⟨(s, p), fun j => (hall m hm j i).trans hp⟩
      · exact ⟨(0, 0), fun j => absurd ⟨j⟩ hts⟩
    · intro hall m hm i j
      obtain ⟨p, hp⟩ := hall m hm
      exact (hp i).trans (hp j).symm
  refine ⟨hplaces, fun hlevel row hrow => ?_⟩
  obtain ⟨p, hp⟩ := hplaces.mp hlevel n (Nat.le_refl n)
  refine ⟨p, fun j => ⟨hp j, ?_⟩⟩
  obtain ⟨q, hq, hresult⟩ := rebuilt_result h hrow j
  rw [hp j] at hq
  cases hq
  exact hresult

end Reader

theorem word_decodable : (Item.prim (.plain (.uint .b4))).decodable = true := rfl

theorem pair_pos : 0 < 2 := Nat.succ_pos 1

/-- A column of words, whose results become outcomes as they are. -/
def wordStream (buffers : List Manifest.Buffer) : FieldStream (.prim (.plain (.uint .b4))) where
  decodable := word_decodable
  buffers := buffers
  outcome := Outcome.ofResult
  decoded := Outcome.ofResult_item

/-- Twice each of the words in the file at the given offsets. -/
def wordPairs (offsets : List Nat) : List Manifest.Buffer :=
  offsets.map fun offset => wordBuffer (U64.clamp offset) ⟨2, pair_pos, pair_count⟩

def wordFile : Bytes := Bytes.leBytes 4 1 ++ Bytes.leBytes 4 2 ++ Bytes.leBytes 4 3 ++ Bytes.leBytes 4 4

/-- Two columns of words. -/
def wordFields (a b : List Nat) : Each FieldStream [.prim (.plain (.uint .b4)), .prim (.plain (.uint .b4))] :=
  .cons (wordStream (wordPairs a)) (.cons (wordStream (wordPairs b)) .nil)

def wordRow (a b : Nat) : Row [.prim (.plain (.uint .b4)), .prim (.plain (.uint .b4))] :=
  .cons (word a) (.cons (word b) .nil)

/-- Both columns lose the buffers of the first segment and stay in step. -/
theorem Reader.aligned_iff_level_pair :
    (Reader.new [true, true] wordFile (wordFields [16, 4] [20, 12]) [and]).nth 2 = some (.included (wordRow 2 4)) ∧
      ∃ p, ∀ j, ((wordFields [16, 4] [20, 12]).get j).place [true, true] wordFile 2 = some p ∧
        ((wordFields [16, 4] [20, 12]).get j).result [true, true] wordFile p = some (.ok ((wordRow 2 4).get j)) :=
  have hnth : (Reader.new [true, true] wordFile (wordFields [16, 4] [20, 12]) [and]).nth 2 = some (.included (wordRow 2 4)) := rfl
  ⟨hnth, (Reader.aligned_iff_level hnth).2 (Chunks.level_of_forall_eq (fun i j => by
    fin_cases i <;> fin_cases j <;> rfl) 2) _ rfl⟩

/-- The buffer that one column cannot read takes one step, its sibling takes two: the record rebuilt next has a field of
the first segment and one of the second. -/
theorem Reader.mixes_segments : ∃ row,
    (Reader.new [true, true] wordFile (wordFields [0, 4] [20, 12]) [and]).nth 1 = some (.included row) ∧
      ¬ ∃ p, ∀ j, ((wordFields [0, 4] [20, 12]).get j).result [true, true] wordFile p = some (.ok (row.get j)) := by
  refine ⟨wordRow 1 4, rfl, ?_⟩
  rintro ⟨⟨s, i⟩, h⟩
  have ha : (wordStream (wordPairs [0, 4])).result [true, true] wordFile (s, i) = some (.ok (word 1)) := h ⟨0, by decide⟩
  have hb : (wordStream (wordPairs [20, 12])).result [true, true] wordFile (s, i) = some (.ok (word 4)) := h ⟨1, by decide⟩
  have hsa : (wordStream (wordPairs [0, 4])).segments [true, true] wordFile =
    [[.ok (word 1), .ok (word 1)], [.ok (word 2), .ok (word 2)]] := rfl
  have hsb : (wordStream (wordPairs [20, 12])).segments [true, true] wordFile =
    [[.error (truncated 4 0)], [.ok (word 4), .ok (word 4)]] := rfl
  rw [FieldStream.result, hsa] at ha
  rw [FieldStream.result, hsb] at hb
  match s, i with
  | 0, 0 => cases hb
  | 0, i + 1 => cases hb
  | 1, 0 => cases ha
  | 1, 1 => cases ha
  | 1, i + 2 => cases ha
  | s + 2, i => cases ha

end Msca
