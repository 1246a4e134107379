import Msca.Compaction
import Msca.Intern
import Msca.ReadBack

/-! Stable indices for records. The committed rows of a schema are numbered, requested records are looked up among
them, and those that are new are committed as one segment behind the rows. -/
namespace Msca
set_option autoImplicit false
open Checked Numbering

/-- `query::Query`. -/
structure Query where
  mmap : Bytes
  schema : Manifest.Schema

/-- A record type: its fields, how a record falls into them, and what `Query::iter` yields for it. -/
class Unfiltered (I : Type) where
  fields : Fields
  row : I → Row fields.types
  iter : Query → Except GetError (List (Res I))

/-- `Dataset::query`. -/
def Dataset.query [Fs] (d : Dataset) (name : String) : Except GetError Query :=
  match d.file.manifest.schemas.get? name with
  | none => .error (.column name)
  | some schema => .ok ⟨d.mmap, schema⟩

section
variable {I : Type} [BEq I] [Unfiltered I] {w : Width}

/-- The part of `Dataset::get_or_insert` between its file accesses: the indices of the requested items, and the new
items with theirs. A hash map yields its entries in an order of its own. -/
def Query.plan (order : List (I × Unsigned w) → List (I × Unsigned w)) (query : Query) (items : List I) :
    Except GetError (List (Unsigned w) × List (I × Unsigned w)) := do
  let rows ← Unfiltered.iter query
  let map ← intern rows HashMap.empty (Unsigned.ofNat? 0)
  let count ← query.schema.count.mapError .fault
  let r ← request items map (Unsigned.ofNat? count)
  return (r.1, recover count (order r.2.entries))

/-- `Dataset::get_or_insert`. -/
def Dataset.getOrInsert [Extern] [Fs] (order : List (I × Unsigned w) → List (I × Unsigned w)) (name : String) (items : List I) :
    Eff GetError Dataset (List (Unsigned w)) := do
  let acc ← Eff.mapError .fault (Dataset.schema (Unfiltered.fields I) name)
  let query ← Eff.gets fun d => d.query name
  let query ← Eff.lift query
  let r ← Eff.lift (query.plan order items)
  let _ ← Eff.mapError .fault (acc.commit (r.2.map fun e => Unfiltered.row e.1))
  return r.1

/-! ## The plan -/

/-- The query yields `rows` and counts them. -/
structure Query.Yields (q : Query) (rows : List I) : Prop where
  iter : Unfiltered.iter q = .ok (rows.map .ok)
  count : q.schema.count = if rows.length < 2 ^ 64 then .ok rows.length else .error .panic

variable [EquivBEq I] {order : List (I × Unsigned w) → List (I × Unsigned w)} {q : Query}

omit [EquivBEq I] in
theorem Query.Yields.plan_eq {rows : List I} (hq : q.Yields rows) (hlt : rows.length < 2 ^ 64) {m : HashMap I (Unsigned w)}
    (hm : intern (rows.map .ok) HashMap.empty (Unsigned.ofNat? 0) = .ok m) {items : List I} :
    q.plan order items = do
      let r ← request items m (Unsigned.ofNat? rows.length)
      return (r.1, recover rows.length (order r.2.entries)) := by
  have hcount : q.schema.count.mapError GetError.fault = .ok rows.length := by
    rw [hq.count, if_pos hlt]
    rfl
  rw [Query.plan, hq.iter]
  show (intern (rows.map .ok) HashMap.empty (Unsigned.ofNat? 0) >>= _) = _
  rw [hm]
  show (q.schema.count.mapError GetError.fault >>= _) = _
  rw [hcount]
  rfl

theorem Query.Yields.interned {rows : List I} (hq : q.Yields rows) {items : List I}
    {r : List (Unsigned w) × List (I × Unsigned w)} (hrun : q.plan order items = .ok r) :
    rows.length ≤ 256 ^ w.bytes ∧ rows.length < 2 ^ 64 ∧ ∃ (m : HashMap I (Unsigned w)) (r' : _), Numbers m rows ∧
      request items m (Unsigned.ofNat? rows.length) = .ok r' ∧ r = (r'.1, recover rows.length (order r'.2.entries)) := by
  obtain ⟨yielded, hyielded, hrun⟩ := GetError.bind_eq_ok.mp hrun
  rw [hq.iter] at hyielded
  cases hyielded
  obtain ⟨m, hm, hrun⟩ := GetError.bind_eq_ok.mp hrun
  obtain ⟨count, hcount, hrun⟩ := GetError.bind_eq_ok.mp hrun
  obtain ⟨r', hr', hrun⟩ := GetError.bind_eq_ok.mp hrun
  cases hrun
  have htotal : rows.length < 2 ^ 64 ∧ count = rows.length := by
    rw [hq.count] at hcount
    by_cases hlt : rows.length < 2 ^ 64
    · rw [if_pos hlt] at hcount
      cases hcount
      exact ⟨hlt, rfl⟩
    · rw [if_neg hlt] at hcount
      cases hcount
  obtain ⟨hlt, rfl⟩ := htotal
  have hspec := intern_spec (Numbers.empty (I := I) (w := w)) rows (Nat.zero_le _)
  rw [List.nil_append, List.length_nil, Nat.zero_add, hm] at hspec
  rcases hspec with ⟨hle, m', hm', hnumbers⟩ | ⟨-, herror⟩
  · cases hm'
    exact ⟨hle, hlt, m, r', hnumbers, hr', rfl⟩
  · cases herror

/-- A plan that is made numbers the requested items behind the unseen ones, and recovers those of the unseen items whose
index is as large as a word. -/
theorem Query.Yields.plan (horder : ∀ l, (order l).Perm l) {rows : List I} (hq : q.Yields rows) {items : List I}
    {r : List (Unsigned w) × List (I × Unsigned w)} (hrun : q.plan order items = .ok r) :
    rows.length + (unseen rows items).length ≤ 256 ^ w.bytes ∧
      List.Forall₂ (fun x i => first (rows ++ unseen rows items) x = some i.val) items r.1 ∧
      r.2.map (fun e => (e.1, e.2.val)) =
        ((unseen rows items).zipIdx rows.length).filter fun e => decide (rows.length ≤ e.2 % 2 ^ 64) := by
  obtain ⟨hle, hlt, m, r', hnumbers, hr', rfl⟩ := hq.interned hrun
  obtain ⟨hall, added, hentries, hadded⟩ := request_spec hnumbers hr'
  have hperm : (order r'.2.entries).Perm (m.entries ++ added) := (horder _).trans (by rw [hentries])
  have hrecover := recover_spec hperm hlt hnumbers.lt hadded
  refine ⟨?_, hall, ?_⟩
  · by_cases hnil : unseen rows items = []
    · rwa [hnil, List.length_nil, Nat.add_zero]
    · have hpos := List.length_pos_iff.mpr hnil
      have hindices : added.map (fun e => e.2.val) = List.range' rows.length (unseen rows items).length := by
        have hsnd := congrArg (List.map Prod.snd) hadded
        rw [List.map_map, List.zipIdx_map_snd] at hsnd
        exact hsnd
      have hlast : rows.length + (unseen rows items).length - 1 ∈ added.map fun e => e.2.val := by
        rw [hindices, List.mem_range'_1]
        omega
      obtain ⟨e, -, he⟩ := List.mem_map.mp hlast
      have hlt := e.2.isLt
      omega
  · show (recover _ _).map _ = _
    rw [hrecover, ← hadded, List.filter_map]
    rfl

section
variable {rows fresh : List I} {l : List (I × Unsigned w)}

omit [BEq I] [Unfiltered I] [EquivBEq I] in
theorem recovered_sublist {n : Nat} {p : I × Nat → Bool}
    (h : l.map (fun e => (e.1, e.2.val)) = (fresh.zipIdx n).filter p) : (l.map Prod.fst).Sublist fresh := by
  have hfst := congrArg (List.map Prod.fst) h
  rw [List.map_map] at hfst
  rw [show l.map Prod.fst = _ from hfst]
  conv_rhs => rw [← List.zipIdx_map_fst n fresh]
  exact List.filter_sublist.map _

omit [BEq I] [Unfiltered I] [EquivBEq I] in
theorem recovered_all {n : Nat} (h : l.map (fun e => (e.1, e.2.val)) = (fresh.zipIdx n).filter fun e => decide (n ≤ e.2 % 2 ^ 64))
    (hword : n + fresh.length < 2 ^ 64) : l.map Prod.fst = fresh := by
  have hkeep : (fresh.zipIdx n).filter (fun e => decide (n ≤ e.2 % 2 ^ 64)) = fresh.zipIdx n := by
    apply List.filter_eq_self.mpr
    intro e he
    have hlo := List.le_snd_of_mem_zipIdx he
    have hhi := List.snd_lt_add_of_mem_zipIdx he
    rw [Nat.mod_eq_of_lt (by omega)]
    exact decide_eq_true hlo
  have hfst := congrArg (List.map Prod.fst) (h.trans hkeep)
  rw [List.map_map, List.zipIdx_map_fst] at hfst
  exact hfst

end

variable (order) in
theorem Query.Yields.exists_plan {rows : List I} (hq : q.Yields rows) (hlt : rows.length < 2 ^ 64) (items : List I)
    (hle : rows.length + items.length ≤ 256 ^ w.bytes) : ∃ r, q.plan order items = .ok r := by
  have hspec := intern_spec (Numbers.empty (I := I) (w := w)) rows (Nat.zero_le _)
  rw [List.nil_append, List.length_nil, Nat.zero_add] at hspec
  rcases hspec with ⟨-, m, hm, hnumbers⟩ | ⟨hgt, -⟩
  · obtain ⟨r, hr⟩ := exists_request hnumbers items hle
    refine ⟨(r.1, recover rows.length (order r.2.entries)), ?_⟩
    rw [hq.plan_eq hlt hm, hr]
    rfl
  · omega

/-- Where every item has an index already, the plan finds it and recovers nothing. -/
theorem Query.Yields.plan_known (horder : ∀ l, (order l).Perm l) {rows : List I} (hq : q.Yields rows)
    (hle : rows.length ≤ 256 ^ w.bytes) (hlt : rows.length < 2 ^ 64) {items : List I} {out : List (Unsigned w)}
    (hall : List.Forall₂ (fun x i => first rows x = some i.val) items out) : q.plan order items = .ok (out, []) := by
  have hspec := intern_spec (Numbers.empty (I := I) (w := w)) rows (Nat.zero_le _)
  rw [List.nil_append, List.length_nil, Nat.zero_add] at hspec
  rcases hspec with ⟨-, m, hm, hnumbers⟩ | ⟨hgt, -⟩
  · have hrequest := request_known hnumbers (Unsigned.ofNat? rows.length) hall
    have hperm : (order m.entries).Perm (m.entries ++ []) := by
      rw [List.append_nil]
      exact horder _
    have hnone : ([] : List (I × Unsigned w)).map (fun e => (e.1, e.2.val)) = ([] : List I).zipIdx rows.length := rfl
    have hrecover : recover rows.length (order m.entries) = [] := recover_spec hperm hlt hnumbers.lt hnone
    rw [hq.plan_eq hlt hm, hrequest]
    show Except.ok (out, recover rows.length (order m.entries)) = _
    rw [hrecover]
  · omega

end

/-! ## Runs taken apart -/

theorem zip_all_of_map_eq {α β γ : Type} {f : α → γ} {g : β → γ} {l : List α} {k : List β} (h : l.map f = k.map g) :
    ∀ p ∈ l.zip k, f p.1 = g p.2 := by
  intro p hp
  obtain ⟨i, hi, rfl⟩ := List.mem_iff_getElem.mp hp
  have hget := congrArg (fun l : List γ => l[i]?) h
  simp only [List.getElem?_map] at hget
  rw [List.length_zip] at hi
  rw [List.getElem?_eq_getElem (by omega), List.getElem?_eq_getElem (by omega), Option.map_some, Option.map_some] at hget
  rw [List.getElem_zip]
  exact Option.some.inj hget

theorem Schema.occupied_of_shaped {fs : Fields} {name : String} {e : Manifest.Schema} (h : Shaped e fs) :
    (fs.schema name).occupied e = .ok e.sector := by
  have hpairs : ∀ m : OrdMap String Column, m.items.map (fun c => (c.1, c.2.ty)) = m.keys.zip (m.values.map Column.ty) := by
    intro m
    rw [OrdMap.keys, OrdMap.values, List.map_map, List.zip_map']
    rfl
  have hmap : e.columns.items.map (fun c => (c.1, c.2.ty)) = (fs.schema name).map.items.map fun c => (c.1, c.2.ty) := by
    rw [hpairs, hpairs, h.keys, h.types, fs.map_keys name, (fs.shaped name e.sector).types]
  unfold Schema.occupied
  dsimp only
  rw [if_pos]
  simp only [Bool.and_eq_true, beq_iff_eq, List.all_eq_true]
  refine ⟨by simpa using congrArg List.length hmap, fun p hp => ?_⟩
  have heq := zip_all_of_map_eq hmap p hp
  exact ⟨(Prod.mk.inj heq).1, by simpa [Column.eq] using (Prod.mk.inj heq).2⟩

theorem Accumulator.pushes_name {fs : Fields} {a b : Accumulator fs} {rows : List (Row fs.types)}
    (h : a.pushes rows = .ok b) : b.name = a.name := by
  induction rows generalizing a with
  | nil =>
    cases h
    rfl
  | cons row rows ih =>
    rw [Accumulator.pushes, List.foldlM_cons] at h
    obtain ⟨c, hc, h⟩ := bind_eq_ok.mp h
    rw [ih h]
    obtain ⟨data, -, hc⟩ := bind_eq_ok.mp hc
    cases hc
    rfl

theorem Composite.isEmpty_collect {ts : List Item} (hts : ts ≠ []) (rows : List (Row ts)) :
    Composite.isEmpty (Composite.collect rows) = rows.isEmpty := by
  cases ts with
  | nil => exact absurd rfl hts
  | cons t ts =>
    have hget := Composite.get_collect rows ⟨0, Nat.succ_pos _⟩
    cases hc : Composite.collect rows with
    | cons b c =>
      rw [hc] at hget
      show b.isEmpty = _
      rw [show b = _ from hget, Buffer.isEmpty_collect, List.isEmpty_map]

theorem forall₂_getElem? {α β : Type} {R : α → β → Prop} {l : List α} {k : List β} (h : List.Forall₂ R l k) {j : Nat} {x : α}
    {y : β} (hx : l[j]? = some x) (hy : k[j]? = some y) : R x y := by
  obtain ⟨hj, rfl⟩ := List.getElem?_eq_some_iff.mp hx
  obtain ⟨hj', rfl⟩ := List.getElem?_eq_some_iff.mp hy
  exact h.get hj hj'

section
variable [Extern] [Fs]

namespace Dataset
variable {I : Type} [BEq I] [Unfiltered I] {w : Width} {order : List (I × Unsigned w) → List (I × Unsigned w)}
  {name : String} {items : List I} {d d' : Dataset}

theorem getOrInsert_ok {out : List (Unsigned w)} : getOrInsert order name items d = (.ok out, d') ↔
    ∃ (a : Accumulator (Unfiltered.fields I)) (d₁ : Dataset) (q : Query) (r : _) (n : Nat),
      Dataset.schema (Unfiltered.fields I) name d = (.ok a, d₁) ∧ d₁.query name = .ok q ∧ q.plan order items = .ok r ∧
        a.commit (r.2.map fun e => Unfiltered.row e.1) d₁ = (.ok n, d') ∧ out = r.1 := by
  constructor
  · intro h
    obtain ⟨a, d₁, hschema, h⟩ := Eff.bind_eq_ok h
    rw [Eff.bind_gets] at h
    obtain ⟨q, d₂, hquery, h⟩ := Eff.bind_eq_ok h
    obtain ⟨hq, rfl⟩ := Prod.mk.inj hquery
    obtain ⟨r, d₃, hplan, h⟩ := Eff.bind_eq_ok h
    obtain ⟨hr, rfl⟩ := Prod.mk.inj hplan
    obtain ⟨n, d₄, hwrite, h⟩ := Eff.bind_eq_ok h
    cases h
    exact ⟨a, d₁, q, r, n, Eff.mapError_ok.mp hschema, hq, hr, Eff.mapError_ok.mp hwrite, rfl⟩
  · rintro ⟨a, d₁, q, r, n, hschema, hq, hr, hwrite, rfl⟩
    unfold getOrInsert
    rw [Eff.bind_ok (Eff.mapError_ok.mpr hschema), Eff.bind_gets, Eff.bind_lift_ok hq, Eff.bind_lift_ok hr,
      Eff.bind_ok (Eff.mapError_ok.mpr hwrite)]
    rfl

/-- An index out of range is found before anything but the schema is written. -/
theorem getOrInsert_overflow (h : getOrInsert order name items d = (.error .overflow, d')) :
    ∃ a : Accumulator (Unfiltered.fields I), Dataset.schema (Unfiltered.fields I) name d = (.ok a, d') := by
  unfold getOrInsert at h
  rcases Eff.bind_cases _ _ d with ⟨e, t, hx, hy⟩ | ⟨a, d₁, hx, hy⟩
  · rw [hy] at h
    cases h
    obtain ⟨f, -, hf⟩ := Eff.mapError_error.mp hx
    cases hf
  · refine ⟨a, ?_⟩
    rw [Eff.mapError_ok.mp hx]
    rw [hy, Eff.bind_gets] at h
    cases hq : d₁.query name with
    | error e =>
      rw [Eff.bind_lift_error hq] at h
      cases h
      rfl
    | ok q =>
      rw [Eff.bind_lift_ok hq] at h
      cases hr : q.plan order items with
      | error e =>
        rw [Eff.bind_lift_error hr] at h
        cases h
        rfl
      | ok r =>
        rw [Eff.bind_lift_ok hr] at h
        rcases Eff.bind_cases _ _ d₁ with ⟨e, t, hx, hy⟩ | ⟨n, t, hx, hy⟩
        · rw [hy] at h
          cases h
          obtain ⟨f, -, hf⟩ := Eff.mapError_error.mp hx
          cases hf
        · rw [hy] at h
          cases h

theorem schema_name {fs : Fields} {a : Accumulator fs} (h : Dataset.schema fs name d = (.ok a, d')) : a.name = name := by
  obtain ⟨parts, d₁, -, h⟩ := Eff.bind_eq_ok h
  obtain ⟨sector, d₂, -, h⟩ := Eff.bind_eq_ok h
  cases h
  rfl

end Dataset

/-! ## Sessions -/

theorem Op.seg?_of_committed {d : Dataset} {op : Op} {c : Commit} (h : c ∈ op.committed d) : op.seg? d = some c.seg := by
  unfold Op.committed at h
  split at h
  · cases h
  next seg hseg =>
    split at h
    · rw [List.mem_singleton.mp h]
      exact hseg
    · cases h

theorem Session.fed_schema (s : Session) (fs : Fields) (name : String) (d : Dataset) (hs : List Handle) (k : String) :
    fed ⟨d, hs, s.commits ++ (Op.schema fs name).committed s.dataset⟩ k = s.fed k := by
  have hnone : ((Op.schema fs name).committed s.dataset).filter (fun c => c.seg.feeds k) = [] := by
    apply List.filter_eq_nil_iff.mpr
    intro c hc
    have hseg := Op.seg?_of_committed hc
    rw [Op.seg?] at hseg
    split at hseg
    · cases hseg
    · rw [← Option.some.inj hseg]
      simp [Seg.feeds]
  rw [fed, List.filter_append, hnone, List.append_nil]
  rfl

/-! ## Committed records -/

variable [LawfulFs]

section
variable {I : Type} [BEq I] [Unfiltered I]

/-- The records of every data segment: a query yields them segment by segment, and those of a segment are equal to the
records pushed into it. -/
structure Contents (contents : Commit → List I) : Prop where
  iter {s : Session} (h : s.Reached) {name : String}
    (hreg : Registered s.dataset.file.manifest name (Unfiltered.fields I)) {q : Query}
    (hq : s.dataset.query name = .ok q) : Unfiltered.iter q = .ok (((s.fed name).flatMap contents).map .ok)
  length {s : Session} (h : s.Reached) {name : String}
    (hreg : Registered s.dataset.file.manifest name (Unfiltered.fields I)) :
    ∀ c ∈ s.fed name, (contents c).length = c.seg.rows
  pushed {c : Commit} {a : Accumulator (Unfiltered.fields I)} (hseg : c.seg = .data a) {items : List I}
    (hdata : a.data = Composite.collect (items.map Unfiltered.row)) :
    List.Forall₂ (fun x y => (x == y) = true) (contents c) items

/-- The committed records of a schema. -/
def Session.rows (s : Session) (contents : Commit → List I) (name : String) : List I := (s.fed name).flatMap contents

omit [LawfulFs] [BEq I] [Unfiltered I] in
theorem Session.rows_snoc {s : Session} {contents : Commit → List I} {name : String} {d : Dataset} {hs : List Handle}
    {cs : List Commit} : Session.rows ⟨d, hs, s.commits ++ cs⟩ contents name =
      s.rows contents name ++ (cs.filter fun c => c.seg.feeds name).flatMap contents := by
  rw [Session.rows, Session.fed, List.filter_append, List.flatMap_append]
  rfl

variable [LawfulExtern] {contents : Commit → List I} {s : Session} {name : String}

theorem Contents.yields (hc : Contents contents) (h : s.Reached)
    (hreg : Registered s.dataset.file.manifest name (Unfiltered.fields I)) {q : Query}
    (hq : s.dataset.query name = .ok q) : q.Yields (s.rows contents name) := by
  refine ⟨hc.iter h hreg hq, ?_⟩
  unfold Dataset.query at hq
  split at hq
  · cases hq
  next e he =>
    cases hq
    have hlen : ((s.fed name).map fun c => c.seg.rows).sum = (s.rows contents name).length := by
      rw [Session.rows, List.length_flatMap]
      congr 1
      exact (List.map_congr_left (hc.length h hreg)).symm
    rw [(Session.Consistent.reached h).count_eq he, sum_eq, hlen]

/-- A fresh handle filled with records and written puts them behind the others. -/
theorem Contents.written (hc : Contents contents) (h : s.Reached) {a : Accumulator (Unfiltered.fields I)}
    (ha : ⟨Unfiltered.fields I, a⟩ ∈ s.handles) (hname : a.name = name) {items : List I} (hlt : items.length < 2 ^ 64)
    (hbits : BitsFit (items.map (Unfiltered.row (I := I)))) {n : Nat} {d : Dataset}
    (hwrite : a.commit (items.map Unfiltered.row) s.dataset = (.ok n, d)) :
    ∃ (t : Session) (fresh : List I), t.Reached ∧ t.dataset = d ∧
      Registered d.file.manifest name (Unfiltered.fields I) ∧ t.rows contents name = s.rows contents name ++ fresh ∧
        List.Forall₂ (fun x y => (x == y) = true) fresh items := by
  obtain ⟨acc, hpushed, hacc⟩ := Accumulator.commit_ok hwrite
  have hobtained : Obtained s.handles acc (items.map Unfiltered.row) := .pushes ha (by simpa using hlt) hbits hpushed
  have hreached := h.data hobtained hacc
  have hfresh := (Session.Consistent.reached hreached).fresh _ (List.mem_append_left _ ha)
  have hdata := (hobtained.collected (Session.Consistent.reached h).fresh).2.1
  have hempty : Pending.isEmpty acc = items.isEmpty := by
    show Composite.isEmpty acc.data = _
    rw [hdata, Composite.isEmpty_collect (List.ne_nil_of_length_pos (Fields.types_pos _)), List.isEmpty_map]
  refine ⟨_, ((Op.data acc).committed s.dataset).flatMap contents, hreached, rfl, hname ▸ hfresh.1, ?_, ?_⟩
  · rw [Session.rows_snoc, List.filter_eq_self.mpr]
    intro c hc
    have hseg := Op.seg?_of_committed hc
    rw [Op.seg?] at hseg
    split at hseg
    · cases hseg
    · rw [← Option.some.inj hseg]
      show (acc.name == name) = true
      rw [Accumulator.pushes_name hpushed]
      exact beq_iff_eq.mpr hname
  · cases items with
    | nil =>
      rw [Op.committed_none (by rw [Op.seg?, hempty]; rfl)]
      exact List.Forall₂.nil
    | cons x items =>
      have hseg : (Op.data acc).seg? s.dataset = some (.data acc) := by rw [Op.seg?, hempty]; rfl
      have hop : Dataset.perform (.data acc) s.dataset = (.ok (.count n), d) := Eff.bind_ok hacc
      obtain ⟨c, hcommitted, hcseg, -⟩ := Op.committed_of_ok hop hseg
      rw [hcommitted, List.flatMap_singleton]
      exact hc.pushed hcseg hdata

end

/-! ## Stable indices -/

section
variable {I : Type} [BEq I] [Unfiltered I] {w : Width}

/-- `out` are the indices of `items`, and the dataset `d` holds the records they stand for behind the records `old`. -/
structure Interned (name : String) (old items : List I) (out : List (Unsigned w)) (d : Dataset) : Prop where
  committed : ∃ q fresh, d.query name = .ok q ∧ Unfiltered.iter q = .ok ((old ++ fresh).map .ok) ∧
    List.Forall₂ (fun x y => (x == y) = true) fresh (unseen old items) ∧
      List.Forall₂ (fun x i => ∃ y, (old ++ fresh)[i.val]? = some y ∧ (y == x) = true) items out
  same : ∀ (j k : Nat) (x y : I) (m n : Unsigned w), items[j]? = some x → items[k]? = some y → out[j]? = some m →
    out[k]? = some n → (m = n ↔ (x == y) = true)
  earliest : List.Forall₂ (fun x i => ∀ k, first old x = some k → i.val = k) items out
  again : ∀ order : List (I × Unsigned w) → List (I × Unsigned w), (∀ l, (order l).Perm l) →
    Dataset.getOrInsert order name items d = (.ok out, d)

variable [EquivBEq I] [LawfulExtern] {contents : Commit → List I} {s : Session} {name : String}

theorem Contents.again (hc : Contents contents) (h : s.Reached)
    (hreg : Registered s.dataset.file.manifest name (Unfiltered.fields I)) {items : List I} {out : List (Unsigned w)}
    (hle : (s.rows contents name).length ≤ 256 ^ w.bytes) (hlt : (s.rows contents name).length < 2 ^ 64)
    (hall : List.Forall₂ (fun x i => first (s.rows contents name) x = some i.val) items out)
    {order : List (I × Unsigned w) → List (I × Unsigned w)} (horder : ∀ l, (order l).Perm l) :
    Dataset.getOrInsert order name items s.dataset = (.ok out, s.dataset) := by
  obtain ⟨e, he, hshape⟩ := hreg
  let a : Accumulator (Unfiltered.fields I) := ⟨Composite.default _, name, e.sector⟩
  have hschema : Dataset.schema (Unfiltered.fields I) name s.dataset = (.ok a, s.dataset) := by
    have hfinish := Schema.finish_found (s := (Unfiltered.fields I).schema name) he
    rw [Schema.occupied_of_shaped hshape] at hfinish
    unfold Dataset.schema
    rw [Fields.accumulator_eq, Eff.bind_lift_ok rfl, Eff.bind_ok hfinish]
    rfl
  have hquery : s.dataset.query name = .ok ⟨s.dataset.mmap, e⟩ := by
    rw [Dataset.query, he]
  have hplan := (hc.yields h ⟨e, he, hshape⟩ hquery).plan_known horder hle hlt hall
  refine Dataset.getOrInsert_ok.mpr ⟨a, s.dataset, _, _, 0, hschema, hquery, hplan, ?_, rfl⟩
  rcases Dataset.write_cases a s.dataset with ⟨-, hwrite⟩ | ⟨hne, -⟩
  · exact hwrite
  · rw [show Pending.isEmpty a = true from Composite.isEmpty_default _] at hne
    cases hne

/-- A call returns where an index is left for every item and the new items can be written. -/
theorem Contents.returns (hc : Contents contents) (h : s.Reached) (items : List I) {fresh : List I}
    (order : List (I × Unsigned w) → List (I × Unsigned w)) (horder : ∀ l, (order l).Perm l)
    (hlt : (s.rows contents name).length < 2 ^ 64) (hle : (s.rows contents name).length + items.length ≤ 256 ^ w.bytes)
    (hfresh : (((unseen (s.rows contents name) items).zipIdx (s.rows contents name).length).filter fun e =>
      decide ((s.rows contents name).length ≤ e.2 % 2 ^ 64)).map Prod.fst = fresh)
    {a : Accumulator (Unfiltered.fields I)} {d₁ d₂ : Dataset} {n : Nat}
    (hschema : Dataset.schema (Unfiltered.fields I) name s.dataset = (.ok a, d₁))
    (hwrite : a.commit (fresh.map Unfiltered.row) d₁ = (.ok n, d₂)) :
    ∃ out : List (Unsigned w), Dataset.getOrInsert order name items s.dataset = (.ok out, d₂) := by
  have hreached := h.schema hschema
  have hreg := ((Session.Consistent.reached hreached).fresh _ (List.mem_append_right _ (List.mem_singleton_self _))).1
  rw [Dataset.schema_name hschema] at hreg
  obtain ⟨e, he, hshape⟩ := hreg
  have hquery : d₁.query name = .ok ⟨d₁.mmap, e⟩ := by rw [Dataset.query, he]
  have hyields := hc.yields hreached ⟨e, he, hshape⟩ hquery
  rw [Session.rows, s.fed_schema, ← Session.rows] at hyields
  obtain ⟨r, hr⟩ := hyields.exists_plan order hlt items hle
  refine ⟨r.1, Dataset.getOrInsert_ok.mpr ⟨a, d₁, _, r, n, hschema, hquery, hr, ?_, rfl⟩⟩
  have hitems : r.2.map Prod.fst = fresh := by
    rw [← hfresh, ← (hyields.plan horder hr).2.2, List.map_map]
    rfl
  rw [← hwrite, ← hitems, List.map_map]
  rfl

theorem Contents.rows_lt (hc : Contents contents) (h : s.Reached) {items : List I} {out : List (Unsigned w)} {d : Dataset}
    {order : List (I × Unsigned w) → List (I × Unsigned w)}
    (hrun : Dataset.getOrInsert order name items s.dataset = (.ok out, d)) : (s.rows contents name).length < 2 ^ 64 := by
  obtain ⟨a, d₁, q, r, n, hschema, hq, hr, -⟩ := Dataset.getOrInsert_ok.mp hrun
  have hreached := h.schema hschema
  have hfresh := (Session.Consistent.reached hreached).fresh _ (List.mem_append_right _ (List.mem_singleton_self _))
  have hyields := hc.yields hreached (Dataset.schema_name hschema ▸ hfresh.1) hq
  rw [Session.rows, s.fed_schema, ← Session.rows] at hyields
  exact (hyields.interned hr).2.1

section
variable {items : List I} {order : List (I × Unsigned w) → List (I × Unsigned w)} {out : List (Unsigned w)} {d : Dataset}

/-- A call that returns leaves the old rows in front, and the recovered items behind them. -/
theorem Contents.returned (hc : Contents contents) (h : s.Reached) (horder : ∀ l, (order l).Perm l)
    (hlt : (unseen (s.rows contents name) items).length < 2 ^ 64)
    (hbits : BitsFit ((unseen (s.rows contents name) items).map Unfiltered.row))
    (hrun : Dataset.getOrInsert order name items s.dataset = (.ok out, d)) :
    ∃ (t : Session) (fresh : List I), t.Reached ∧ t.dataset = d ∧
      Registered d.file.manifest name (Unfiltered.fields I) ∧ t.rows contents name = s.rows contents name ++ fresh ∧
      (s.rows contents name).length + (unseen (s.rows contents name) items).length ≤ 256 ^ w.bytes ∧
      List.Forall₂ (fun x i => first (s.rows contents name ++ unseen (s.rows contents name) items) x = some i.val) items out ∧
      ((s.rows contents name).length + (unseen (s.rows contents name) items).length < 2 ^ 64 →
        List.Forall₂ (fun x y => (x == y) = true) fresh (unseen (s.rows contents name) items)) := by
  obtain ⟨a, d₁, q, r, n, hschema, hq, hr, hwrite, rfl⟩ := Dataset.getOrInsert_ok.mp hrun
  have hreached := h.schema hschema
  have hmem : (⟨_, a⟩ : Handle) ∈ s.handles ++ [⟨_, a⟩] := List.mem_append_right _ (List.mem_singleton_self _)
  have hname := Dataset.schema_name hschema
  have hreg := ((Session.Consistent.reached hreached).fresh _ hmem).1
  rw [hname] at hreg
  have hyields := hc.yields hreached hreg hq
  rw [Session.rows, s.fed_schema, ← Session.rows] at hyields
  obtain ⟨hle, hall, hrecovered⟩ := hyields.plan horder hr
  have hsub := recovered_sublist hrecovered
  have hitems : (r.2.map fun e => Unfiltered.row e.1) = (r.2.map Prod.fst).map (Unfiltered.row (I := I)) := by
    rw [List.map_map]
    rfl
  rw [hitems] at hwrite
  obtain ⟨t, fresh, ht, hdataset, hregt, hrows, hfresh⟩ := hc.written hreached hmem hname
    (Nat.lt_of_le_of_lt hsub.length_le hlt) (hbits.mono (hsub.map _)) hwrite
  rw [Session.rows, Session.rows, s.fed_schema, ← Session.rows, ← Session.rows] at hrows
  refine ⟨t, fresh, ht, hdataset, hregt, hrows, hle, hall, fun hword => ?_⟩
  rwa [recovered_all hrecovered hword] at hfresh

theorem Interned.rows_lt (hc : Contents contents) (h : s.Reached) (horder : ∀ l, (order l).Perm l)
    (hlt : (unseen (s.rows contents name) items).length < 2 ^ 64)
    (hbits : BitsFit ((unseen (s.rows contents name) items).map Unfiltered.row))
    (hrun : Dataset.getOrInsert order name items s.dataset = (.ok out, d))
    (hi : Interned name (s.rows contents name) items out d) :
    (s.rows contents name).length + (unseen (s.rows contents name) items).length < 2 ^ 64 := by
  obtain ⟨t, -, ht, rfl, hregt, -⟩ := hc.returned h horder hlt hbits hrun
  obtain ⟨q, fresh, hq, hiter, hequal, -⟩ := hi.committed
  rw [(hc.yields ht hregt hq).iter] at hiter
  have hlen := congrArg List.length (Except.ok.inj hiter)
  rw [List.length_map, List.length_map, List.length_append, hequal.length_eq] at hlen
  rw [← hlen]
  exact hc.rows_lt ht (hi.again _ horder)

theorem Contents.interned (hc : Contents contents) (h : s.Reached) (horder : ∀ l, (order l).Perm l)
    (hlt : (unseen (s.rows contents name) items).length < 2 ^ 64)
    (hbits : BitsFit ((unseen (s.rows contents name) items).map Unfiltered.row))
    (hrun : Dataset.getOrInsert order name items s.dataset = (.ok out, d))
    (hword : (s.rows contents name).length + (unseen (s.rows contents name) items).length < 2 ^ 64) :
    Interned name (s.rows contents name) items out d := by
  obtain ⟨t, fresh, ht, rfl, hregt, hrows, hle, hall, hfresh⟩ := hc.returned h horder hlt hbits hrun
  have hfresh := hfresh hword
  have hequal : List.Forall₂ (fun x y => (x == y) = true) (t.rows contents name)
      (s.rows contents name ++ unseen (s.rows contents name) items) := by
    rw [hrows]
    exact List.rel_append (List.forall₂_same.mpr fun _ _ => BEq.rfl) hfresh
  have hnumbered : List.Forall₂ (fun x i => first (t.rows contents name) x = some i.val) items out :=
    hall.imp fun x i hx => (first_of_forall₂ hequal x).trans hx
  have hlen := hequal.length_eq
  rw [List.length_append] at hlen
  constructor
  · obtain ⟨e, he, hshape⟩ := hregt
    have hquery : t.dataset.query name = .ok ⟨t.dataset.mmap, e⟩ := by rw [Dataset.query, he]
    have hiter := (hc.yields ht ⟨e, he, hshape⟩ hquery).iter
    rw [hrows] at hiter hnumbered
    exact ⟨_, fresh, hquery, hiter, hfresh, hnumbered.imp fun x i hx => first_eq_some hx⟩
  · intro j k x y m n hx hy hm hn
    rw [Fin.ext_iff]
    exact first_eq_iff (forall₂_getElem? hall hx hm) (forall₂_getElem? hall hy hn)
  · exact hall.imp fun x i hx k hk => Option.some.inj (hx.symm.trans (first_append hk _))
  · intro order' horder'
    exact hc.again ht hregt (by omega) (by omega) hnumbered horder'

end

/-- A call that returns has given every requested item a stable index exactly when the rows after it are counted by a
word; a call that runs out of indices has written no row. -/
theorem getOrInsert_interned_iff (hc : Contents contents) (h : s.Reached) {items : List I}
    {order : List (I × Unsigned w) → List (I × Unsigned w)} (horder : ∀ l, (order l).Perm l)
    (hlt : (unseen (s.rows contents name) items).length < 2 ^ 64)
    (hbits : BitsFit ((unseen (s.rows contents name) items).map Unfiltered.row)) :
    (∀ (out : List (Unsigned w)) (d : Dataset), Dataset.getOrInsert order name items s.dataset = (.ok out, d) →
        (Interned name (s.rows contents name) items out d ↔
          (s.rows contents name).length + (unseen (s.rows contents name) items).length < 2 ^ 64)) ∧
      ∀ d, Dataset.getOrInsert order name items s.dataset = (.error .overflow, d) →
        ∃ t : Session, t.Reached ∧ t.dataset = d ∧ ∀ k, t.fed k = s.fed k := by
  constructor
  · intro out d hrun
    exact ⟨fun hi => hi.rows_lt hc h horder hlt hbits hrun, hc.interned h horder hlt hbits hrun⟩
  · intro d hrun
    obtain ⟨a, hschema⟩ := Dataset.getOrInsert_overflow hrun
    exact ⟨_, h.schema hschema, rfl, s.fed_schema _ _ _ _⟩

end
end

/-! ## Records of one byte -/

/-- The item type `u8`. -/
def octet : Item := .prim (.plain (.uint .b1))

instance : DecidableEq octet.Val := inferInstanceAs (DecidableEq (Prim.Val _))

/-- A record with one field. -/
def single : Fields where
  columns := ⟨[("x", octet)], List.pairwise_singleton _ _⟩
  ne := List.cons_ne_nil _ _

instance : Unfiltered octet.Val where
  fields := single
  row b := .cons b .nil
  iter q :=
    match q.schema.columns.values with
    | [] => .error (.column "x")
    | col :: _ => .ok (@Src.intoIter octet.Val (octet.decode rfl) col.buffers.items q.mmap)

def Buffer.octets : Buffer octet.Val → List octet.Val
  | .empty => []
  | .compact b n => List.replicate n b
  | .many acc => acc

def Composite.octets : {ts : List Item} → Composite ts → List octet.Val
  | _, .nil => []
  | t :: _, .cons b _ => if h : t = octet then Buffer.octets (h ▸ b) else []

theorem Buffer.octets_collect (xs : List octet.Val) : (Buffer.collect xs).octets = xs := by
  rcases Buffer.collect_cases xs with ⟨rfl, heq⟩ | ⟨item, -, hall, heq⟩ | ⟨-, heq⟩
  · rw [heq]
    rfl
  · rw [heq]
    exact (List.eq_replicate_of_mem hall).symm
  · rw [heq]
    exact vec_collect (α := Prim.Val _) xs

theorem Composite.octets_collect {ts : List Item} (rows : List (Row ts)) (hj : 0 < ts.length)
    (ht : ts.get ⟨0, hj⟩ = octet) : Composite.octets (Composite.collect rows) = rows.map fun row => ht ▸ row.get ⟨0, hj⟩ := by
  cases ts with
  | nil => cases hj
  | cons t ts =>
    change t = _ at ht
    subst ht
    have hget := Composite.get_collect rows ⟨0, hj⟩
    cases hc : Composite.collect rows with
    | cons b c =>
      rw [hc] at hget
      rw [Composite.octets, dif_pos rfl]
      show b.octets = _
      rw [show b = _ from hget, Buffer.octets_collect]

theorem Item.eq_octet {t : Item} (h : t.type = octet.type) : t = octet := by
  cases t with
  | bool => cases h
  | prim p => rw [Prim.type_inj (show p.type = (Prim.plain (.uint .b1)).type from h), octet]
  | string => cases h
  | option t =>
    change t.type.flatOption = .number _ at h
    cases ht : t.type <;> rw [ht] at h <;> cases h
  | vec t => cases h

theorem Shaped.eq_octet {e : Manifest.Schema} (h : Shaped e single) {fs : Fields} (hfs : Shaped e fs) (hj : 0 < fs.types.length) :
    fs.types.get ⟨0, hj⟩ = octet := by
  apply Item.eq_octet
  have htypes := congrArg (fun l : List Ty => l[0]?) (hfs.types.symm.trans h.types)
  simp only [List.getElem?_map, List.getElem?_eq_getElem hj, Option.map_some] at htypes
  exact Option.some.inj htypes

section
variable [Extern]

def Commit.octets (c : Commit) : List octet.Val :=
  match c.seg with
  | .data a => Composite.octets a.data
  | _ => []

/-- A data segment of byte records holds the bytes pushed into it. -/
theorem Commit.Pushed.octets {c : Commit} {items : List octet.Val} (h : c.Pushed 0 octet items) : c.octets = items := by
  unfold Commit.Pushed at h
  unfold Commit.octets
  cases hseg : c.seg with
  | schema s => exact (by rwa [hseg] at h : False).elim
  | bin b => exact (by rwa [hseg] at h : False).elim
  | @data fs a =>
    rw [hseg] at h
    obtain ⟨rows, hj, ht, hdata, rfl⟩ := h
    show Composite.octets a.data = _
    rw [hdata, Composite.octets_collect rows hj ht]

theorem Commit.Pushed.flatten {cs : List Commit} {items : List (List octet.Val)}
    (h : List.Forall₂ (Commit.Pushed 0 octet) cs items) : items.flatten = cs.flatMap Commit.octets := by
  induction h with
  | nil => rfl
  | cons hc _ ih => rw [List.flatten_cons, List.flatMap_cons, ih, hc.octets]

variable [Fs] [LawfulFs]

theorem Session.Reached.octet_column [LawfulExtern] {s : Session} (h : s.Reached) {name : String} {e : Manifest.Schema}
    (he : s.dataset.file.manifest.schemas.get? name = some e) (hshape : Shaped e single) :
    ∀ c ∈ s.fed name, c.Decodable 0 ∧ (c.octets).length = c.seg.rows := by
  intro c hc
  have hs := Session.Consistent.reached h
  have hrecords := hs.records hc
  obtain ⟨hmem, hfeeds⟩ := List.mem_filter.mp hc
  unfold Commit.Records at hrecords
  unfold Commit.Decodable Commit.octets
  cases hseg : c.seg with
  | schema s' =>
    rw [hseg] at hfeeds
    cases hfeeds
  | bin b =>
    rw [hseg] at hfeeds
    cases hfeeds
  | @data fs a =>
    rw [hseg] at hrecords hfeeds
    obtain ⟨e', he', hshape'⟩ := hs.registered hmem hseg
    rw [beq_iff_eq.mp hfeeds, he] at he'
    cases he'
    refine ⟨fun hj => by rw [hshape.eq_octet hshape' hj]; rfl, ?_⟩
    obtain ⟨rows, hdata, hrows, -⟩ := hrecords
    show (Composite.octets a.data).length = _
    rw [hdata, Composite.octets_collect rows (Fields.types_pos fs) (hshape.eq_octet hshape' _), List.length_map, hrows]

theorem contents_octets [LawfulExtern] : Contents Commit.octets where
  iter := by
    intro s h name hreg q hq
    have hs := Session.Consistent.reached h
    obtain ⟨e, he, hshape⟩ := hreg
    rw [Dataset.query, he] at hq
    cases hq
    obtain ⟨col, cols, hcols, hty, -⟩ := List.map_eq_cons_iff.mp hshape.types
    have hcol : e.columns.values[0]? = some col := by rw [hcols]; rfl
    obtain ⟨items, hpushed, hread⟩ := hs.column_reads he hcol (t := octet) rfl hty
      (hs.index.columns name e he 0 col hcol) fun c hc => ⟨hc, (h.octet_column he hshape c hc).1⟩
    rw [Commit.Pushed.flatten hpushed] at hread
    simp only [Unfiltered.iter, hcols]
    exact congrArg Except.ok hread
  length := by
    intro s h name hreg c hc
    obtain ⟨e, he, hshape⟩ := hreg
    exact (h.octet_column he hshape c hc).2
  pushed := by
    intro c a hseg items hdata
    have hoctets : c.octets = items := by
      unfold Commit.octets
      rw [hseg]
      show Composite.octets a.data = _
      rw [hdata, Composite.octets_collect _ (Fields.types_pos single) rfl, List.map_map]
      exact List.map_id items
    rw [hoctets]
    exact List.forall₂_same.mpr fun _ _ => BEq.rfl

end

section
attribute [local instance] reference reference_lawful buffered buffered_lawful

def octetOf (n : Nat) : octet.Val :=
  (⟨n % 256 ^ 1, Nat.mod_lt _ (Nat.pow_pos (Nat.succ_pos 255)), trivial⟩ : Prim.Val (.plain (.uint .b1)))

def pushOctets (fresh : List octet.Val) : Eff Fault Dataset Nat := do
  let a ← Dataset.schema single "s"
  a.commit (fresh.map Unfiltered.row)

/-- As many equal records as a word counts. -/
def crowded : Composite single.types := .cons (Buffer.compact (I := octet.Val) (octetOf 0) (2 ^ 64 - 1)) .nil

def crowd : Eff Fault Dataset Nat := do
  let a ← Dataset.schema single "s"
  Dataset.write (⟨crowded, a.name, a.schema⟩ : Accumulator single)

theorem pushOctets_launches : (Dataset.launch (pushOctets [octetOf 1, octetOf 2])).isSome = true := by decide +kernel

theorem crowd_launches : (Dataset.launch (crowd >>= fun _ => pushOctets [octetOf 1])).isSome = true := by decide +kernel

theorem single_bitsFit (rows : List (Row single.types)) : BitsFit rows := by
  rintro ⟨j, hj⟩
  cases j with
  | zero => exact trivial
  | succ j => exact absurd (Nat.lt_of_succ_lt_succ hj) (Nat.not_lt_zero j)

theorem getOrInsert_interned_iff_pair : ∃ (s : Session) (out : List (Unsigned .b4)) (d : Dataset), s.Reached ∧
    Dataset.getOrInsert id "s" [octetOf 1, octetOf 2, octetOf 1] s.dataset = (.ok out, d) ∧
      Interned "s" (s.rows Commit.octets "s") [octetOf 1, octetOf 2, octetOf 1] out d := by
  obtain ⟨⟨n, d₂⟩, hx⟩ := Option.isSome_iff_exists.mp pushOctets_launches
  obtain ⟨d, hreached, hrun⟩ := Dataset.launch_eq_some hx
  obtain ⟨a, d₁, hschema, hwrite⟩ := Eff.bind_eq_ok hrun
  have hrows : Session.rows ⟨d, [], []⟩ Commit.octets "s" = [] := rfl
  have hunseen : unseen [] [octetOf 1, octetOf 2, octetOf 1] = [octetOf 1, octetOf 2] := by decide
  obtain ⟨out, hout⟩ := contents_octets.returns (w := .b4) hreached [octetOf 1, octetOf 2, octetOf 1] id
    (fun l => List.Perm.refl l) (by rw [hrows]; decide) (by rw [hrows]; decide) (by rw [hrows, hunseen]; decide) hschema hwrite
  have hiff := (getOrInsert_interned_iff contents_octets hreached (fun l => List.Perm.refl l)
    (by rw [hrows, hunseen]; decide) (single_bitsFit _)).1 out d₂ hout
  rw [hrows, hunseen] at hiff
  exact ⟨_, out, d₂, hreached, hout, hiff.mpr (by decide)⟩

theorem collect_replicate {n : Nat} (hn : 0 < n) (b : octet.Val) :
    Composite.collect ((List.replicate n b).map Unfiltered.row) = (.cons (.compact b n) .nil : Composite single.types) := by
  have hget := Composite.get_collect ((List.replicate n b).map Unfiltered.row)
    (⟨0, Fields.types_pos single⟩ : Fin single.types.length)
  rw [List.map_map] at hget
  have hcompact : Buffer.collect (List.replicate n b) = .compact b n := by
    refine (Buffer.collect_eq_compact _ b n).mpr ⟨by simp; omega, fun y hy => ?_, by simp⟩
    rw [List.eq_of_mem_replicate hy, LawfulBitMatch.eq_iff]
  cases hc : Composite.collect ((List.replicate n b).map Unfiltered.row) with
  | cons head tail =>
    cases tail
    rw [hc] at hget
    rw [← hcompact]
    refine congrArg (fun b : Buffer octet.Val => (.cons b .nil : Composite single.types)) (hget.trans ?_)
    rw [← List.map_id (List.replicate n b), List.map_map]
    rfl

theorem first_replicate {n : Nat} {a x : octet.Val} (h : (a == x) = false) : first (List.replicate n a) x = none := by
  simp [first, h]

/-- The second of two new records gets an index that no row has. -/
theorem getOrInsert_loses_row : ∃ (s : Session) (out : List (Unsigned .b16)) (d : Dataset), s.Reached ∧
    Dataset.getOrInsert id "s" [octetOf 1, octetOf 2] s.dataset = (.ok out, d) ∧
      ¬ Interned "s" (s.rows Commit.octets "s") [octetOf 1, octetOf 2] out d := by
  obtain ⟨⟨n, d₄⟩, hx⟩ := Option.isSome_iff_exists.mp crowd_launches
  obtain ⟨d, hreached, hrun⟩ := Dataset.launch_eq_some hx
  obtain ⟨m, d₂, hcrowd, hpush⟩ := Eff.bind_eq_ok hrun
  obtain ⟨a, d₁, hschema, hwrite⟩ := Eff.bind_eq_ok hcrowd
  obtain ⟨a', d₃, hschema', hwrite'⟩ := Eff.bind_eq_ok hpush
  have hreached₁ := hreached.schema hschema
  have hmem : (⟨single, a⟩ : Handle) ∈ [] ++ [(⟨single, a⟩ : Handle)] := List.mem_singleton_self _
  have hdata := ((Session.Consistent.reached hreached₁).fresh _ hmem).2
  have hlen : ((List.replicate (2 ^ 64 - 1) (octetOf 0)).map Unfiltered.row).length < 2 ^ 64 := by
    rw [List.length_map, List.length_replicate]
    decide
  have hcommit : a.commit ((List.replicate (2 ^ 64 - 1) (octetOf 0)).map Unfiltered.row) d₁ = (.ok m, d₂) := by
    rw [Accumulator.commit, Eff.bind_lift_ok (Accumulator.pushes_of_lt hdata hlen),
      collect_replicate (Nat.sub_pos_of_lt (by decide))]
    exact hwrite
  obtain ⟨t, fresh, ht, rfl, -, hrows, hfresh⟩ := contents_octets.written hreached₁ hmem (Dataset.schema_name hschema)
    (by rw [List.length_replicate]; decide) (single_bitsFit _) hcommit
  have hfresh : fresh = List.replicate (2 ^ 64 - 1) (octetOf 0) :=
    List.forall₂_eq_eq_eq ▸ hfresh.imp fun _ _ heq => eq_of_beq heq
  rw [Session.rows, Session.rows, Session.fed_schema ⟨d, [], []⟩, hfresh] at hrows
  have hrows : t.rows Commit.octets "s" = List.replicate (2 ^ 64 - 1) (octetOf 0) := hrows
  have hunseen : unseen (List.replicate (2 ^ 64 - 1) (octetOf 0)) [octetOf 1, octetOf 2] = [octetOf 1, octetOf 2] := by
    have hone : first (List.replicate (2 ^ 64 - 1) (octetOf 0)) (octetOf 1) = none := first_replicate (by decide)
    have htwo : first (List.replicate (2 ^ 64 - 1) (octetOf 0) ++ [octetOf 1]) (octetOf 2) = none := by
      rw [first_append_of_none (first_replicate (by decide)), show first [octetOf 1] (octetOf 2) = none by decide]
      rfl
    rw [unseen_of_none hone, unseen_of_none htwo, unseen]
  obtain ⟨out, hout⟩ := contents_octets.returns (w := .b16) ht [octetOf 1, octetOf 2] id
    (fun l => List.Perm.refl l) (by rw [hrows, List.length_replicate]; decide) (by rw [hrows, List.length_replicate]; decide)
    (by rw [hrows, hunseen, List.length_replicate]; decide) hschema' hwrite'
  refine ⟨t, out, d₄, ht, hout, fun hi => ?_⟩
  have hlt := hi.rows_lt contents_octets ht (fun l => List.Perm.refl l) (by rw [hrows, hunseen]; decide) (single_bitsFit _) hout
  rw [hrows, hunseen, List.length_replicate] at hlt
  exact absurd hlt (by decide)

end
end Msca
