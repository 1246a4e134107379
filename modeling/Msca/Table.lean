import Msca.Base.Growth
import Msca.GetOrInsert
import Msca.Select

/-! Filtered reads of a dataset. A query opens the columns of one schema by name; over the map of any session, chains
and combinations on opened columns yield the records committed for the schema that they select. -/
namespace Msca
set_option autoImplicit false
open Checked

/-- What `query::Error` names. -/
inductive QueryError
  | column (name : String)
  | type (expect actual : Ty)
  deriving DecidableEq

/-- `manifest::Column::exact`. -/
def Column.exact (col : Column) (t : Item) : Except QueryError Column :=
  if col.ty = t.type then .ok col else .error (.type t.type col.ty)

/-- `Query::column`. -/
def Query.column (q : Query) (t : Item) (h : t.decodable = true) (name : String) : Except QueryError (Adapter .mask t) :=
  match q.schema.columns.get? name with
  | none => .error (.column name)
  | some entry => do
    let col ← entry.exact t
    return .column ⟨q.mmap, col.buffers⟩ t h

theorem Query.column_eq {q : Query} {t : Item} (h : t.decodable = true) {name : String} {col : Column}
    (hcol : q.schema.columns.get? name = some col) (hty : col.ty = t.type) :
    q.column t h name = .ok (.column ⟨q.mmap, col.buffers⟩ t h) := by
  unfold Query.column
  rw [hcol]
  change (col.exact t >>= _) = _
  rw [Column.exact, if_pos hty]
  rfl

/-- `Query::read`. -/
def Query.read [Outcomes] (q : Query) (t : Item) (h : t.decodable = true) (name : String) :
    Except QueryError (List (Outcome t.Val)) :=
  match q.schema.columns.get? name with
  | none => .error (.column name)
  | some entry => do
    let col ← entry.exact t
    return (@Src.intoIter t.Val (t.decode h) col.buffers.items q.mmap).map Outcomes.ofResult

theorem Query.read_eq_ok [Outcomes] {q : Query} {t : Item} {h : t.decodable = true} {name : String}
    {items : List (Outcome t.Val)} : q.read t h name = .ok items ↔ ∃ col, q.schema.columns.get? name = some col ∧
      col.ty = t.type ∧ items = (@Src.intoIter t.Val (t.decode h) col.buffers.items q.mmap).map Outcomes.ofResult := by
  unfold Query.read
  cases q.schema.columns.get? name with
  | none => simp
  | some col =>
    change (col.exact t >>= _) = _ ↔ _
    rw [Column.exact]
    by_cases hty : col.ty = t.type
    · rw [if_pos hty]
      constructor
      · intro hread
        exact ⟨col, rfl, hty, (Except.ok.inj hread).symm⟩
      · rintro ⟨col, hcol, -, rfl⟩
        cases hcol
        rfl
    · rw [if_neg hty]
      constructor
      · intro hread
        cases hread
      · rintro ⟨col, hcol, hty', -⟩
        cases hcol
        exact absurd hty' hty

theorem Src.retained_mask (src : Src) : src.retained src.mask = src.buffers.items := by
  have hall : ∀ bs : List Manifest.Buffer, retain (List.replicate bs.length true) bs = bs := by
    intro bs
    induction bs with
    | nil => rfl
    | cons b bs ih => rw [List.length_cons, List.replicate_succ, Retain.cons_true, ih]
  exact hall src.buffers.items

theorem Dataset.query_eq_ok [Fs] {d : Dataset} {name : String} {q : Query} (h : d.query name = .ok q) :
    d.file.manifest.schemas.get? name = some q.schema ∧ q.mmap = d.mmap := by
  rw [Dataset.query] at h
  cases hget : d.file.manifest.schemas.get? name with
  | none =>
    rw [hget] at h
    cases h
  | some schema =>
    rw [hget] at h
    cases h
    exact ⟨rfl, rfl⟩

/-! ## Fields by name -/

/-- The field under `name` in a row with the given keys, if it has the type `t`. -/
def Each.field? (name : String) (t : Item) : List String → {ts : List Item} → Row ts → Option t.Val
  | k :: keys, u :: _, .cons x row =>
    if k = name then if h : u = t then some (h ▸ x) else none else field? name t keys row
  | _, _, _ => none

/-- The fields under `names` with the types `ts`. -/
def Each.pick (keys : List String) {us : List Item} (row : Row us) : (ts : List Item) → List String → Option (Row ts)
  | [], _ => some .nil
  | t :: ts, name :: names => (row.field? name t keys).bind fun x => (pick keys row ts names).map (Each.cons x)
  | _ :: _, [] => none

theorem Each.field?_eq {name : String} {t : Item} {keys : List String} (hkeys : keys.Nodup) {us : List Item} (row : Row us)
    {j : Nat} (hkey : keys[j]? = some name) (hj : j < us.length) (ht : us.get ⟨j, hj⟩ = t) :
    row.field? name t keys = some (ht ▸ row.get ⟨j, hj⟩) := by
  induction row generalizing keys j with
  | nil => exact absurd hj (Nat.not_lt_zero j)
  | @cons u us x row ih =>
    cases keys with
    | nil => cases hkey
    | cons k keys =>
      obtain ⟨hk, hkeys⟩ := List.nodup_cons.mp hkeys
      cases j with
      | zero =>
        cases hkey
        subst ht
        rw [field?, if_pos rfl]
        exact dif_pos rfl
      | succ j =>
        have hne : k ≠ name := fun h => hk (h ▸ List.mem_of_getElem? hkey)
        rw [field?, if_neg hne]
        exact ih hkeys hkey (Nat.lt_of_succ_lt_succ hj) ht

/-- Fields picked one column at a time are picked together. -/
theorem Each.pick_cons {keys : List String} {us ts : List Item} {t : Item} {name : String} {names : List String}
    {rows : List (Row us)} {xs : List t.Val} {rest : List (Row ts)}
    (hxs : rows.map (fun row => row.field? name t keys) = xs.map some)
    (hrest : rows.map (fun row => row.pick keys ts names) = rest.map some) :
    ∃ picked : List (Row (t :: ts)), rows.map (fun row => row.pick keys (t :: ts) (name :: names)) = picked.map some ∧
      picked.map Each.head = xs ∧ picked.map Each.tail = rest := by
  induction rows generalizing xs rest with
  | nil =>
    cases List.map_eq_nil_iff.mp hxs.symm
    cases List.map_eq_nil_iff.mp hrest.symm
    exact ⟨[], rfl, rfl, rfl⟩
  | cons row rows ih =>
    obtain ⟨x, xs, rfl, hx, hxs⟩ := List.map_eq_cons_iff.mp hxs.symm
    obtain ⟨fields, rest, rfl, hfields, hrest⟩ := List.map_eq_cons_iff.mp hrest.symm
    obtain ⟨picked, hpicked, rfl, rfl⟩ := ih hxs.symm hrest.symm
    refine ⟨.cons x fields :: picked, ?_, rfl, rfl⟩
    have hhead : row.pick keys (t :: ts) (name :: names) = some (.cons x fields) := by
      rw [pick, show row.field? name t keys = some x from hx.symm, show row.pick keys ts names = some fields from hfields.symm]
      rfl
    rw [List.map_cons, List.map_cons, hpicked, hhead]

/-! ## Opened columns -/

/-- The chain stands on the column that the query opens under `name`. -/
def Adapter.Opened (q : Query) (name : String) {t : Item} (a : Adapter .mask t) : Prop :=
  q.column a.base a.base_decodable name = .ok (.column a.src a.base a.base_decodable)

def Legs.Opened (q : Query) : {ts : List Item} → Legs .mask ts → List String → Prop
  | _, .nil, names => names = []
  | _, .cons leg legs, name :: names => leg.2.Opened q name ∧ Opened q legs names
  | _, .cons _ _, [] => False

/-- The legs stand on the columns that the query opens under `names`. -/
def Combination.Opened (q : Query) {t : Item} {ts : List Item} (c : Combination .mask t ts) : List String → Prop
  | [] => False
  | name :: names => c.head.Opened q name ∧ c.legs.Opened q names

/-- An opened column has the requested type, and its place among the columns of the schema. -/
theorem Adapter.Opened.column {q : Query} {name : String} {t : Item} {a : Adapter .mask t} (h : a.Opened q name) :
    ∃ (j : Nat) (col : Column), q.schema.columns.keys[j]? = some name ∧ q.schema.columns.values[j]? = some col ∧
      col.ty = a.base.type ∧ a.src = ⟨q.mmap, col.buffers⟩ := by
  rw [Opened, Query.column] at h
  cases hget : q.schema.columns.get? name with
  | none =>
    rw [hget] at h
    cases h
  | some col =>
    obtain ⟨j, hkey, hcol⟩ := OrdMap.getElem?_of_get? hget
    rw [hget] at h
    change (col.exact a.base >>= fun col => pure (Adapter.column ⟨q.mmap, col.buffers⟩ a.base a.base_decodable) :
      Except QueryError (Adapter .mask a.base)) = _ at h
    rw [Column.exact] at h
    by_cases hty : col.ty = a.base.type
    · rw [if_pos hty] at h
      exact ⟨j, col, hkey, hcol, hty, (congrArg Adapter.src (Except.ok.inj h)).symm⟩
    · rw [if_neg hty] at h
      cases h

section
variable [Extern] [Fs] [LawfulFs]

/-- The fields under `names` of the records in a committed accumulator. -/
def Commit.Rows (names : List String) (ts : List Item) (c : Commit) (rows : List (Row ts)) : Prop :=
  match c.seg with
  | @Seg.data fs a => ∃ pushed : List (Row fs.types), a.data = Composite.collect pushed ∧
      pushed.map (fun row => row.pick fs.columns.keys ts names) = rows.map some
  | _ => False

/-- A data segment and the records pushed into it. -/
def Commit.Filled (c : Commit) (p : (fs : Fields) × List (Row fs.types)) : Prop :=
  ∃ a : Accumulator p.1, c.seg = .data a ∧ a.data = Composite.collect p.2 ∧ p.2 ≠ [] ∧ BitsFit p.2

/-- The records of data segments. -/
abbrev Pushes := List ((fs : Fields) × List (Row fs.types))

omit [Extern] [Fs] [LawfulFs] in
theorem exists_forall₂ {α β : Type} {R : α → β → Prop} {l : List α} (h : ∀ x ∈ l, ∃ y, R x y) :
    ∃ k, List.Forall₂ R l k := by
  induction l with
  | nil => exact ⟨[], .nil⟩
  | cons x l ih =>
    obtain ⟨y, hy⟩ := h x List.mem_cons_self
    obtain ⟨k, hk⟩ := ih fun z hz => h z (List.mem_cons_of_mem _ hz)
    exact ⟨y :: k, .cons hy hk⟩

namespace Session.Consistent
variable {s : Session} {name : String} {e : Manifest.Schema}

omit [LawfulFs] in
theorem filled (h : s.Consistent) {c : Commit} (hc : c ∈ s.fed name) : ∃ p, c.Filled p := by
  obtain ⟨hmem, hfeeds⟩ := List.mem_filter.mp hc
  obtain ⟨m, hsound⟩ := h.sound c hmem
  cases hseg : c.seg with
  | schema s' =>
    rw [hseg] at hfeeds
    cases hfeeds
  | bin b =>
    rw [hseg] at hfeeds
    cases hfeeds
  | @data fs a =>
    rw [hseg] at hsound
    obtain ⟨-, rows, -, -, hdata, hne, -, hbits⟩ := hsound
    exact ⟨⟨fs, rows⟩, a, hseg, hdata, hne, hbits⟩

omit [LawfulFs] in
/-- The records of a schema are of the type the schema records. -/
theorem shaped (h : s.Consistent) (he : s.dataset.file.manifest.schemas.get? name = some e) {c : Commit}
    (hc : c ∈ s.fed name) {p : (fs : Fields) × List (Row fs.types)} (hp : c.Filled p) : Shaped e p.1 := by
  obtain ⟨hmem, hfeeds⟩ := List.mem_filter.mp hc
  obtain ⟨a, hseg, -⟩ := hp
  obtain ⟨e', he', hshape⟩ := h.registered hmem hseg
  rw [hseg] at hfeeds
  rw [beq_iff_eq.mp hfeeds, he] at he'
  cases he'
  exact hshape

/-- The map holds a column of a committed accumulator as it was written. -/
theorem buffer_written (h : s.Consistent) {c : Commit} (hc : c ∈ s.commits) {p : (fs : Fields) × List (Row fs.types)}
    (hp : c.Filled p) {j : Nat} (hj : j < p.1.types.length) {b : Manifest.Buffer} (hb : c.Column j b) :
    Written (p.1.types.get ⟨j, hj⟩) (p.2.map fun row => row.get ⟨j, hj⟩) s.dataset.mmap b := by
  obtain ⟨a, hseg, hdata, -, hbits⟩ := hp
  rw [Commit.Column, hseg] at hb
  obtain ⟨hj', hdesc⟩ := hb
  have hcollect : a.data.get ⟨j, hj⟩ = Buffer.collect (p.2.map fun row => row.get ⟨j, hj⟩) := by
    rw [hdata]
    exact Composite.get_collect p.2 ⟨j, hj⟩
  obtain ⟨offset, sector, hdescriptor⟩ := hdesc.described
  have hslice := h.slice hc (by rw [hseg]; rfl) hdesc.above hdesc.inside
  have hinside := hdesc.inside
  have hstop := (h.bounds c hc).2
  have hlimit := h.stored.end_lt
  have hlen : (Bytes.slice c.image (b.sector.offset + HEADER - c.start) b.sector.size).length = b.sector.size :=
    Bytes.slice_length (by omega)
  rw [Commit.stop] at hstop
  rw [hdesc.slice] at hslice hlen
  rw [hcollect] at hslice hlen hdescriptor
  have hsector : b.sector = sector := by
    obtain ⟨count, -, hdescribe⟩ := Buffer.descriptor_eq_ok hdescriptor
    exact Item.describe_sector hdescribe
  exact ⟨⟨offset, sector, hdescriptor, hsector ▸ hslice⟩, by omega, hbits ⟨j, hj⟩⟩

/-- The named fields of the records of one segment are written in the buffer that the column lists for it. -/
theorem opened_block (h : s.Consistent) (he : s.dataset.file.manifest.schemas.get? name = some e) {c : Commit}
    (hc : c ∈ s.fed name) (hdec : ∀ j, c.Decodable j) {p : (fs : Fields) × List (Row fs.types)} (hp : c.Filled p) {j : Nat}
    {label : String} (hkey : e.columns.keys[j]? = some label) {col : Column} (hcol : e.columns.values[j]? = some col)
    {t : Item} (ht : t.decodable = true) (hty : col.ty = t.type) {b : Manifest.Buffer} (hb : c.Column j b) :
    ∃ xs, Written t xs s.dataset.mmap b ∧
      p.2.map (fun row => row.field? label t p.1.columns.keys) = xs.map some := by
  have hshape := h.shaped he hc hp
  have htypes := congrArg (fun l : List Ty => l[j]?) hshape.types
  have hj : j < p.1.types.length := by
    have hlen := congrArg List.length hshape.types
    have hlt := (List.getElem?_eq_some_iff.mp hcol).1
    simp only [List.length_map] at hlen
    omega
  simp only [List.getElem?_map, hcol, List.getElem?_eq_getElem hj, Option.map_some, Option.some.injEq] at htypes
  have hdecode : (p.1.types.get ⟨j, hj⟩).decodable = true := by
    obtain ⟨a, hseg, -⟩ := hp
    have hdec := hdec j
    rw [Commit.Decodable, hseg] at hdec
    exact hdec hj
  have hsame := Item.type_inj _ _ hdecode ht (htypes.symm.trans hty)
  subst hsame
  refine ⟨_, h.buffer_written (List.mem_filter.mp hc).1 hp hj hb, ?_⟩
  have hnodup : p.1.columns.keys.Nodup := p.1.columns.keys_sorted.imp fun h => ne_of_lt h
  rw [List.map_map]
  exact List.map_congr_left fun row _ => Each.field?_eq hnodup row (hshape.keys ▸ hkey) hj rfl

/-- An opened column holds the named fields of the records, segment by segment. -/
theorem opened_holds (h : s.Consistent) {q : Query} (hq : s.dataset.query name = .ok q)
    {pushes : Pushes} (hpushes : List.Forall₂ Commit.Filled (s.fed name) pushes)
    (hdec : ∀ c ∈ s.fed name, ∀ j, c.Decodable j) {label : String} {t : Item} {a : Adapter .mask t} (ha : a.Opened q label) :
    ∃ column : List (List a.base.Val), a.src.Holds a.base column ∧
      List.Forall₂ (fun p xs => p.2.map (fun row => row.field? label a.base p.1.columns.keys) = xs.map some) pushes column := by
  obtain ⟨j, col, hkey, hcol, hty, hsrc⟩ := ha.column
  obtain ⟨he, hmmap⟩ := Dataset.query_eq_ok hq
  have hblock : ∀ {cs : List Commit}, (∀ c ∈ cs, c ∈ s.fed name) → ∀ {bs : List Manifest.Buffer},
      List.Forall₂ (Commit.Column j) cs bs → ∀ {ps : Pushes},
        List.Forall₂ Commit.Filled cs ps → ∃ column : List (List a.base.Val),
          List.Forall₂ (fun xs b => Written a.base xs s.dataset.mmap b) column bs ∧
            List.Forall₂ (fun p xs => p.2.map (fun row => row.field? label a.base p.1.columns.keys) = xs.map some) ps
              column := by
    intro cs hcs bs hbs
    induction hbs with
    | nil =>
      intro ps hps
      cases hps
      exact ⟨[], .nil, .nil⟩
    | @cons c b cs bs hb _ ih =>
      intro ps hps
      cases hps with
      | cons hp hps =>
        obtain ⟨column, hcolumn, hfields⟩ := ih (fun c hc => hcs c (List.mem_cons_of_mem _ hc)) hps
        have hc := hcs c List.mem_cons_self
        obtain ⟨xs, hxs, hfield⟩ := h.opened_block he hc (hdec c hc) hp hkey hcol a.base_decodable hty hb
        exact ⟨xs :: column, .cons hxs hcolumn, .cons hfield hfields⟩
  unfold Src.Holds
  rw [hsrc, hmmap]
  exact hblock (fun _ hc => hc) (h.index.columns name q.schema he j col hcol) hpushes

end Session.Consistent

omit [Extern] [Fs] [LawfulFs] in
theorem Each.pick_blocks {pushes : Pushes} {t : Item} {ts : List Item} {name : String} {names : List String}
    {column : List (List t.Val)} {rest : List (List (Row ts))}
    (hcolumn : List.Forall₂ (fun p xs => p.2.map (fun row => row.field? name t p.1.columns.keys) = xs.map some) pushes column)
    (hrest : List.Forall₂ (fun p rows => p.2.map (fun row => row.pick p.1.columns.keys ts names) = rows.map some) pushes rest) :
    ∃ blocks : List (List (Row (t :: ts))),
      List.Forall₂ (fun p rows => p.2.map (fun row => row.pick p.1.columns.keys (t :: ts) (name :: names)) = rows.map some)
        pushes blocks ∧ blocks.map (List.map Each.head) = column ∧ blocks.map (List.map Each.tail) = rest := by
  induction hcolumn generalizing rest with
  | nil =>
    cases hrest
    exact ⟨[], .nil, rfl, rfl⟩
  | cons hxs _ ih =>
    cases hrest with
    | cons hfields hrest =>
      obtain ⟨blocks, hblocks, rfl, rfl⟩ := ih hrest
      obtain ⟨rows, hrows, rfl, rfl⟩ := Each.pick_cons hxs hfields
      exact ⟨rows :: blocks, .cons hrows hblocks, rfl, rfl⟩

section
variable {s : Session} {name : String} {q : Query} {pushes : Pushes}

/-- Opened legs hold the named fields of the records. -/
theorem Legs.opened_hold (h : s.Consistent) (hq : s.dataset.query name = .ok q)
    (hpushes : List.Forall₂ Commit.Filled (s.fed name) pushes) (hdec : ∀ c ∈ s.fed name, ∀ j, c.Decodable j)
    {ts : List Item} (legs : Legs .mask ts) {names : List String} (hopen : legs.Opened q names)
    (hsimple : ∀ t ∈ legs.bases, t.simple = true) :
    ∃ blocks, legs.Hold blocks ∧
      List.Forall₂ (fun p rows => p.2.map (fun row => row.pick p.1.columns.keys legs.bases names) = rows.map some) pushes
        blocks := by
  induction legs generalizing names with
  | nil =>
    refine ⟨pushes.map fun p => p.2.map fun _ => .nil, trivial, ?_⟩
    rw [List.forall₂_map_right_iff, List.forall₂_same]
    intro p _
    rw [List.map_map]
    rfl
  | cons leg legs ih =>
    cases names with
    | nil => exact hopen.elim
    | cons label names =>
      obtain ⟨hleg, hlegs⟩ := hopen
      obtain ⟨column, hcolumn, hfields⟩ := h.opened_holds hq hpushes hdec hleg
      obtain ⟨rest, hrest, hpicked⟩ := ih hlegs fun t ht => hsimple t (List.mem_cons_of_mem _ ht)
      obtain ⟨blocks, hblocks, rfl, rfl⟩ := Each.pick_blocks hfields hpicked
      exact ⟨blocks, ⟨hcolumn, fun rows _ => Item.regular_of_simple (hsimple _ List.mem_cons_self) _, hrest⟩, hblocks⟩

theorem Combination.opened_hold (h : s.Consistent) (hq : s.dataset.query name = .ok q)
    (hpushes : List.Forall₂ Commit.Filled (s.fed name) pushes) (hdec : ∀ c ∈ s.fed name, ∀ j, c.Decodable j)
    {t : Item} {ts : List Item} (c : Combination .mask t ts) {names : List String} (hopen : c.Opened q names)
    (hsimple : ∀ t ∈ c.bases, t.simple = true) :
    ∃ blocks, c.Hold blocks ∧
      List.Forall₂ (fun p rows => p.2.map (fun row => row.pick p.1.columns.keys c.bases names) = rows.map some) pushes
        blocks := by
  cases names with
  | nil => exact hopen.elim
  | cons label names =>
    obtain ⟨hhead, hlegs⟩ := hopen
    obtain ⟨column, hcolumn, hfields⟩ := h.opened_holds hq hpushes hdec hhead
    obtain ⟨rest, hrest, hpicked⟩ := c.legs.opened_hold h hq hpushes hdec hlegs fun t ht => hsimple t (List.mem_cons_of_mem _ ht)
    obtain ⟨blocks, hblocks, rfl, rfl⟩ := Each.pick_blocks hfields hpicked
    exact ⟨blocks, ⟨hcolumn, fun rows _ => Item.regular_of_simple (hsimple _ List.mem_cons_self) _, hrest⟩, hblocks⟩

/-- A combination of safe chains over columns opened in a session yields, in commit order, the records committed for the
schema that it selects, each with its narrowed fields, and nothing else. -/
theorem Session.selects [LawfulExtern] [Outcomes] [LawfulOutcomes] [Combine] [LawfulCombine] (h : s.Reached)
    (hq : s.dataset.query name = .ok q) (hdec : ∀ c ∈ s.fed name, ∀ j, c.Decodable j) {t : Item} {ts : List Item}
    (c : Combination .mask t ts) {names : List String} (hopen : c.Opened q names)
    (hsimple : ∀ t ∈ c.bases, t.simple = true) (hsafe : c.Safe) :
    ∃ (blocks : List (List (Row c.bases))) (reader : Reader (t :: ts)) (outcomes : List (Outcome (Row (t :: ts)))),
      List.Forall₂ (Commit.Rows names c.bases) (s.fed name) blocks ∧ c.new = .ok reader ∧
        (∀ n, reader.nth n = outcomes[n]?) ∧
          outcomes.filterMap Outcome.included? = blocks.flatten.filterMap c.select ∧ ∀ o ∈ outcomes, ∀ e, o ≠ .error e := by
  have hs := Consistent.reached h
  obtain ⟨pushes, hpushes⟩ := exists_forall₂ fun c (hc : c ∈ s.fed name) => hs.filled hc
  obtain ⟨blocks, hblocks, hpicked⟩ := c.opened_hold hs hq hpushes hdec hopen hsimple
  obtain ⟨reader, outcomes, hnew, hnth, hselect, herror⟩ := c.select_exact hsafe hblocks
  refine ⟨blocks, reader, outcomes, ?_, hnew, hnth, hselect, herror⟩
  clear hblocks hselect hdec
  generalize s.fed name = cs at hpushes
  induction hpushes generalizing blocks with
  | nil =>
    cases hpicked
    exact .nil
  | cons hp _ ih =>
    cases hpicked with
    | cons hrows hpicked =>
      refine .cons ?_ (ih _ hpicked)
      obtain ⟨a, hseg, hdata, -⟩ := hp
      rw [Commit.Rows, hseg]
      exact ⟨_, hdata, hrows⟩

/-- A written accumulator joins the segments of its schema with the records pushed into it. -/
theorem Session.Reached.pushed [LawfulExtern] {s : Session} (h : s.Reached) {fs : Fields} {a : Accumulator fs}
    (ha : (⟨fs, a⟩ : Handle) ∈ s.handles) {rows : List (Row fs.types)} (hne : rows ≠ []) (hlt : rows.length < 2 ^ 64)
    (hbits : BitsFit rows) {n : Nat} {d : Dataset} (hx : a.commit rows s.dataset = (.ok n, d)) :
    ∃ t : Session, t.Reached ∧ t.dataset = d ∧ t.handles = s.handles ∧ ∀ pushes : Pushes,
      List.Forall₂ Commit.Filled (s.fed a.name) pushes → List.Forall₂ Commit.Filled (t.fed a.name) (pushes ++ [⟨fs, rows⟩]) := by
  obtain ⟨b, hpushed, hwrite⟩ := Accumulator.commit_ok hx
  have hobtained := Obtained.pushes ha hlt hbits hpushed
  obtain ⟨-, hdata, -⟩ := hobtained.collected (Consistent.reached h).fresh
  have hempty : Pending.isEmpty b = false := by
    show Composite.isEmpty b.data = _
    rw [hdata, Composite.isEmpty_collect (List.ne_nil_of_length_pos (Fields.types_pos _))]
    simpa using hne
  have hseg : (Op.data b).seg? s.dataset = some (.data b) := by
    rw [Op.seg?, hempty]
    rfl
  have hop : Dataset.perform (.data b) s.dataset = (.ok (.count n), d) := Eff.bind_ok hwrite
  obtain ⟨c, hcommitted, hcseg, -⟩ := Op.committed_of_ok hop hseg
  refine ⟨_, h.data hobtained hwrite, rfl, List.append_nil _, fun pushes hpushes => ?_⟩
  have hfeeds : c.seg.feeds a.name = true := by
    rw [hcseg, ← Accumulator.pushes_name hpushed]
    exact beq_self_eq_true b.name
  have hkept : [c].filter (fun c => c.seg.feeds a.name) = [c] := List.filter_cons_of_pos hfeeds
  rw [fed, hcommitted, List.filter_append, hkept]
  exact List.rel_append hpushes (.cons ⟨_, hcseg, hdata, hne, hbits⟩ .nil)

end
end

/-! ## Flags and names -/

section
attribute [local instance] reference reference_lawful buffered buffered_lawful documented documented_lawful

/-- The nodes as documented. -/
@[reducible] def nodes : Combine := ⟨Node.holds⟩

theorem nodes_lawful : @LawfulCombine nodes := @LawfulCombine.mk nodes fun _ => rfl

attribute [local instance] nodes nodes_lawful

def flaggedTable : Eff Fault Dataset Unit := do
  let a ← Dataset.schema flagged "s"
  let _ ← a.commit flaggedRows
  return ()

theorem flaggedTable_columns : (Dataset.launch flaggedTable).map (fun p => (p.2.file.manifest.schemas.get? "s").map fun e =>
    ((e.columns.get? "flag").map Column.ty, (e.columns.get? "name").map Column.ty)) =
    some (some (some .bool, some (.option .string))) := by
  decide +kernel

/-- The set flags, with the names that are there. -/
def namedFlags (flag name : Src) : Combination .mask .bool [.string] where
  head := .filter (.column flag .bool rfl) (.whole _) fun b => b
  legs := .cons (.conjunct, .range (s := .string) (.isSome (.column name (.option .string) rfl)) (.whole _)
    ⟨.included "aa", .unbounded⟩) .nil

theorem flagged_table : ∃ (s : Session) (q : Query) (flag name : Src), s.Reached ∧ s.dataset.query "s" = .ok q ∧
    (namedFlags flag name).Opened q ["flag", "name"] ∧ ∀ c ∈ s.fed "s", ∃ a : Accumulator flagged, c.seg = .data a := by
  obtain ⟨d, t, _, d', hnew, hrun, hcolumns⟩ := Dataset.launch_map flaggedTable_columns
  have hreached := Session.Reached.launched hnew
  obtain ⟨a, d₁, hschema, hrun⟩ := Eff.bind_eq_ok hrun
  obtain ⟨m, d₂, hdata, hrun⟩ := Eff.bind_eq_ok hrun
  cases hrun
  have h₁ := hreached.schema hschema
  have hhandle : (⟨flagged, a⟩ : Handle) ∈ [] ++ [(⟨flagged, a⟩ : Handle)] := by simp
  obtain ⟨b, hpushed, hwrite⟩ := Accumulator.commit_ok hdata
  have hbits : BitsFit flaggedRows := by
    rintro ⟨_ | _ | j, hj⟩
    · exact (by decide : 2 < 2 ^ 61)
    · exact trivial
    · exact absurd hj (by change ¬ j + 2 < 2; omega)
  have h₂ := h₁.data (Obtained.pushes hhandle (by decide) hbits hpushed) hwrite
  obtain ⟨e, he, hentries⟩ := Option.map_eq_some_iff.mp hcolumns
  obtain ⟨hflag, hname⟩ := Prod.mk.inj hentries
  obtain ⟨flag, hflag, hbool⟩ := Option.map_eq_some_iff.mp hflag
  obtain ⟨name, hname, hstring⟩ := Option.map_eq_some_iff.mp hname
  refine ⟨_, ⟨d'.mmap, e⟩, ⟨d'.mmap, flag.buffers⟩, ⟨d'.mmap, name.buffers⟩, h₂, ?_, ⟨?_, ?_, rfl⟩, ?_⟩
  · rw [Dataset.query, he]
  · exact Query.column_eq rfl hflag hbool
  · exact Query.column_eq rfl hname hstring
  · intro c hc
    obtain ⟨hmem, hfeeds⟩ := List.mem_filter.mp hc
    rcases List.mem_append.mp hmem with hmem | hmem
    · rcases List.mem_append.mp hmem with hmem | hmem
      · cases hmem
      · have hseg := Op.seg?_of_committed hmem
        rw [Op.seg?] at hseg
        split at hseg
        · cases hseg
        · rw [← Option.some.inj hseg] at hfeeds
          cases hfeeds
    · have hseg := Op.seg?_of_committed hmem
      rw [Op.seg?] at hseg
      split at hseg
      · cases hseg
      · exact ⟨_, (Option.some.inj hseg).symm⟩

/-- The set flags with their names come back from a session. -/
theorem Session.selects_flagged : ∃ (s : Session) (flag name : Src) (blocks : List (List (Row [.bool, .option .string])))
    (reader : Reader [.bool, .string]) (outcomes : List (Outcome (Row [.bool, .string]))), s.Reached ∧
      List.Forall₂ (Commit.Rows ["flag", "name"] [.bool, .option .string]) (s.fed "s") blocks ∧
        (namedFlags flag name).new = .ok reader ∧ (∀ n, reader.nth n = outcomes[n]?) ∧
          outcomes.filterMap Outcome.included? = blocks.flatten.filterMap (namedFlags flag name).select := by
  obtain ⟨s, q, flag, name, h, hq, hopen, hfed⟩ := flagged_table
  have hdec : ∀ c ∈ s.fed "s", ∀ j, c.Decodable j := by
    intro c hc j
    obtain ⟨a, hseg⟩ := hfed c hc
    rw [Commit.Decodable, hseg]
    intro hj
    rcases j with _ | _ | j
    · rfl
    · rfl
    · exact absurd hj (by change ¬ j + 2 < 2; omega)
  have hsimple : ∀ t ∈ (namedFlags flag name).bases, t.simple = true := by
    intro t ht
    rcases List.mem_cons.mp ht with rfl | ht
    · rfl
    · rw [List.mem_singleton.mp ht]
      rfl
  have hsafe : (namedFlags flag name).Safe :=
    ⟨⟨trivial, Or.inl rfl⟩, ⟨trivial, Or.inr rfl, Or.inl rfl, fun y hy => by cases hy⟩, trivial⟩
  obtain ⟨blocks, reader, outcomes, hrows, hnew, hnth, hselect, -⟩ :=
    Session.selects h hq hdec (namedFlags flag name) hopen hsimple hsafe
  exact ⟨s, flag, name, blocks, reader, outcomes, h, hrows, hnew, hnth, hselect⟩

end
end Msca
