import Msca.Base.Catalog
import Msca.Snapshot

/-! What a dataset is for. It stands for a catalog of record tables and byte strings: every commit is one change of the
catalog, queries and lookups answer as the catalog has it, and nothing a catalog has been given is lost. -/
namespace Msca
set_option autoImplicit false
open Checked

/-! ## Tables of records -/

/-- The names and the recorded types of the fields of a record. -/
abbrev Signature := List (String × Ty)

def Fields.signature (fs : Fields) : Signature := fs.columns.keys.zip (fs.types.map Item.type)

def Manifest.Schema.signature (e : Manifest.Schema) : Signature := e.columns.keys.zip (e.columns.values.map Column.ty)

/-- Records pushed into one accumulator. -/
abbrev Batch := (fs : Fields) × List (Row fs.types)

abbrev Store := Catalog String Signature Batch Bytes

abbrev Store.Change := Catalog.Change String Signature Batch Bytes

/-- The changes of a store. -/
abbrev Store.Step : Store → Store.Change → Store → Prop := Catalog.Step fun b : Batch => b.1.signature

theorem Shaped.signature_eq {e : Manifest.Schema} {fs : Fields} (h : Shaped e fs) : e.signature = fs.signature := by
  rw [Manifest.Schema.signature, Fields.signature, h.keys, h.types]

/-! ## Commits as changes -/

section
variable [Extern]

/-- The change that a commit makes. -/
inductive Commit.Means (c : Commit) : Store.Change → Prop
  | declare {fs : Fields} {name : String} (schema : c.seg = .schema (fs.schema name)) : Means c (.declare name fs.signature)
  | append {name : String} {b : Batch} (feeds : c.seg.feeds name = true) (filled : c.Filled b) : Means c (.append name b)
  | put {b : Bin} (bin : c.seg = .bin b) : Means c (.put b.name b.data)

/-- The store holds what the commits have brought, under the names of the manifest. -/
structure Abstracts (cs : List Commit) (m : Manifest) (σ : Store) : Prop where
  shapes : ∀ name, (m.schemas.get? name).map Manifest.Schema.signature = (σ.tables name).map Prod.fst
  filled : ∀ name table, σ.tables name = some table →
    List.Forall₂ Commit.Filled (cs.filter fun c => c.seg.feeds name) table.2
  vacant : ∀ name, m.bins.get? name = none ↔ σ.values name = none
  bins : ∀ name bytes, σ.values name = some bytes → ∃ c ∈ cs, c.seg = .bin ⟨name, bytes⟩

theorem Abstracts.empty : Abstracts [] Manifest.default Catalog.empty where
  shapes _ := rfl
  filled _ _ h := by cases h
  vacant _ := ⟨fun _ => rfl, fun _ => rfl⟩
  bins _ _ h := by cases h

section Step
variable {cs : List Commit} {c : Commit} {m : Manifest} {σ : Store}

theorem Abstracts.bins_append (h : Abstracts cs m σ) (c : Commit) (name : String) (bytes : Bytes)
    (hv : σ.values name = some bytes) : ∃ d ∈ cs ++ [c], d.seg = .bin ⟨name, bytes⟩ := by
  obtain ⟨d, hd, hseg⟩ := h.bins name bytes hv
  exact ⟨d, List.mem_append_left _ hd, hseg⟩

theorem Abstracts.tables_none (h : Abstracts cs m σ) {name : String} (hvacant : m.schemas.get? name = none) :
    σ.tables name = none := by
  have hshape := h.shapes name
  rw [hvacant] at hshape
  exact Option.map_eq_none_iff.mp hshape.symm

/-- A schema segment declares a table. -/
theorem Abstracts.declare (h : Abstracts cs m σ) (hi : Index cs m) {fs : Fields} {name : String} (sec : Sector)
    (hseg : c.seg = .schema (fs.schema name)) (hvacant : m.schemas.get? name = none) :
    Abstracts (cs ++ [c]) { m with schemas := m.schemas.insertVacant name ⟨sec, (fs.schema name).map⟩ }
      (σ.withTable name (fs.signature, [])) := by
  have hfeeds : ∀ other, ((cs ++ [c]).filter fun c => c.seg.feeds other) = cs.filter fun c => c.seg.feeds other := by
    intro other
    rw [filter_feeds_append, hseg]
    exact List.append_nil _
  refine ⟨fun other => ?_, fun other table ht => ?_, h.vacant, h.bins_append c⟩
  · by_cases hne : other = name
    · subst hne
      rw [OrdMap.get?_insertVacant_self _ hvacant, Catalog.withTable_self]
      exact congrArg some (fs.shaped other sec).signature_eq
    · rw [OrdMap.get?_insertVacant_ne _ hvacant (Ne.symm hne), Catalog.withTable_ne _ hne]
      exact h.shapes other
  · rw [hfeeds]
    by_cases hne : other = name
    · subst hne
      rw [Catalog.withTable_self] at ht
      cases ht
      -- no records are committed for a name before its schema
      have hnone : (cs.filter fun c => c.seg.feeds other) = [] :=
        List.filter_eq_nil_iff.mpr fun d hd hfeeds => hi.fed d hd other hfeeds hvacant
      rw [hnone]
      exact .nil
    · rw [Catalog.withTable_ne _ hne] at ht
      exact h.filled other table ht

/-- A data segment appends its records to a table. -/
theorem Abstracts.append (h : Abstracts cs m σ) {name : String} {e : Manifest.Schema} (he : m.schemas.get? name = some e)
    {b : Batch} (hfeeds : ∀ other, c.seg.feeds other = true ↔ name = other) (hfilled : c.Filled b) {batches : List Batch}
    (ht : σ.tables name = some (b.1.signature, batches)) {descs : List Manifest.Buffer}
    (hdescs : descs.length = e.columns.values.length) :
    Abstracts (cs ++ [c]) { m with schemas := m.schemas.modify name fun _ => e.insert descs }
      (σ.withTable name (b.1.signature, batches ++ [b])) := by
  refine ⟨fun other => ?_, fun other table htable => ?_, h.vacant, h.bins_append c⟩
  · by_cases hne : other = name
    · subst hne
      rw [OrdMap.get?_modify_self _ he, Catalog.withTable_self]
      have hshape := h.shapes other
      rw [he, ht, Option.map_some, Option.map_some] at hshape
      obtain ⟨hkeys, hvalues⟩ := Manifest.Schema.insert_columns hdescs
      rw [Option.map_some, Option.map_some, ← Option.some.inj hshape, Manifest.Schema.signature, Manifest.Schema.signature,
        hkeys, hvalues, map_ty_insert hdescs]
    · rw [OrdMap.get?_modify_ne _ (Ne.symm hne), Catalog.withTable_ne _ hne]
      exact h.shapes other
  · rw [filter_feeds_append]
    by_cases hne : other = name
    · subst hne
      rw [Catalog.withTable_self] at htable
      cases htable
      rw [if_pos ((hfeeds other).mpr rfl)]
      exact List.rel_append (h.filled other _ ht) (.cons hfilled .nil)
    · rw [Catalog.withTable_ne _ hne] at htable
      rw [if_neg fun hf => hne ((hfeeds other).mp hf).symm, List.append_nil]
      exact h.filled other table htable

/-- A binary segment puts its bytes under its name. -/
theorem Abstracts.put (h : Abstracts cs m σ) {b : Bin} (sector : Sector) (hseg : c.seg = .bin b)
    (hvacant : m.bins.get? b.name = none) :
    Abstracts (cs ++ [c]) { m with bins := m.bins.insertVacant b.name sector } (σ.withValue b.name b.data) := by
  refine ⟨h.shapes, fun other table ht => ?_, fun other => ?_, fun other bytes hv => ?_⟩
  · rw [filter_feeds_append, hseg]
    rw [show (if (Seg.bin b).feeds other then [c] else []) = [] from rfl, List.append_nil]
    exact h.filled other table ht
  · by_cases hne : other = b.name
    · subst hne
      rw [OrdMap.get?_insertVacant_self _ hvacant, Catalog.withValue_self]
      simp
    · rw [OrdMap.get?_insertVacant_ne _ hvacant (Ne.symm hne), Catalog.withValue_ne _ hne]
      exact h.vacant other
  · by_cases hne : other = b.name
    · subst hne
      rw [Catalog.withValue_self] at hv
      cases hv
      exact ⟨c, List.mem_append_right _ List.mem_cons_self, hseg⟩
    · rw [Catalog.withValue_ne _ hne] at hv
      exact h.bins_append c other bytes hv

end Step

/-! ## Journals as runs -/

theorem Append.abstracts {cs : List Commit} {s t : Nat × Manifest} {c : Commit} {σ : Store} (happend : Append s c t)
    (hsound : Sound s.2 c.seg) (hi : Index cs s.2) (hlo : HEADER ≤ s.1) (h : Abstracts cs s.2 σ) :
    ∃ change τ, c.Means change ∧ Store.Step σ change τ ∧ Abstracts (cs ++ [c]) t.2 τ := by
  obtain ⟨hstart, hstop, hlt, hentry, sec, hoffset, hsize, hreg⟩ := happend
  have hwrap := c.wrapped
  rw [Commit.stop] at hstop
  cases hseg : c.seg with
  | schema s' =>
    rw [hseg] at hsound hentry hreg
    obtain ⟨fs, hfs⟩ := hsound
    have hvacant := schema_vacant hentry
    rw [← congrArg Prod.snd hreg]
    refine ⟨.declare s'.name fs.signature, _, .declare (hseg.trans (congrArg Seg.schema hfs)),
      .declare (h.tables_none hvacant), ?_⟩
    have hdeclared := h.declare hi sec (hseg.trans (congrArg Seg.schema hfs)) hvacant
    rw [← hfs] at hdeclared
    exact hdeclared
  | @data fs a =>
    rw [hseg] at hsound hreg hwrap
    rw [← hoffset] at hwrap
    obtain ⟨e, rows, he, hshape, hdata, hne, hrows, hbits⟩ := id hsound
    obtain ⟨e', descs, he', -, hdescs, hreg', -⟩ := hsound.register (by omega) hwrap (by omega)
    rw [he] at he'
    cases he'
    change register a sec s.2 = _ at hreg
    rw [hreg'] at hreg
    rw [← congrArg Prod.snd hreg]
    have hfilled : c.Filled ⟨fs, rows⟩ := ⟨a, hseg, hdata, hne, hbits⟩
    have htables := h.shapes a.name
    rw [he, Option.map_some, hshape.signature_eq] at htables
    obtain ⟨⟨signature, batches⟩, ht, hsame⟩ := Option.map_eq_some_iff.mp htables.symm
    dsimp only at hsame
    subst hsame
    have hfeeds : ∀ other, c.seg.feeds other = true ↔ a.name = other := by
      intro other
      rw [hseg]
      exact beq_iff_eq
    exact ⟨.append a.name ⟨fs, rows⟩, _, .append ((hfeeds a.name).mpr rfl) hfilled, .append ht,
      h.append he hfeeds hfilled ht hdescs⟩
  | bin b =>
    rw [hseg] at hentry hreg hwrap
    have hvacant := bin_vacant hentry
    have hwrap : wrap b sec.offset = .ok c.image := hoffset ▸ hwrap
    obtain ⟨sector, hreg', -⟩ := bin_register (by rw [HEADER] at hlo; omega) hwrap (by omega) s.2
    change register b sec s.2 = _ at hreg
    rw [hreg'] at hreg
    rw [← congrArg Prod.snd hreg]
    exact ⟨.put b.name b.data, _, .put hseg, .put ((h.vacant b.name).mp hvacant), h.put sector hseg hvacant⟩

/-- A journal is a run of changes. -/
theorem Journal.abstracts {cs ds : List Commit} {s t : Nat × Manifest} {σ : Store}
    (h : Run (fun s c t => Append s c t ∧ Sound s.2 c.seg) s ds t) (hi : Index cs s.2) (hlo : HEADER ≤ s.1)
    (hbefore : ∀ c ∈ cs, c.stop ≤ s.1) (hσ : Abstracts cs s.2 σ) :
    ∃ changes τ, List.Forall₂ Commit.Means ds changes ∧ Run Store.Step σ changes τ ∧ Abstracts (cs ++ ds) t.2 τ := by
  induction ds generalizing cs s σ with
  | nil =>
    cases h
    exact ⟨[], σ, .nil, .nil σ, by rw [List.append_nil]; exact hσ⟩
  | cons c ds ih =>
    obtain ⟨u, ⟨happend, hsound⟩, h⟩ := h
    obtain ⟨change, ρ, hmeans, hstep, hρ⟩ := happend.abstracts hsound hi hlo hσ
    have hindex : Index (cs ++ [c]) u.2 := Journal.index (.cons ⟨happend, hsound⟩ (.nil u)) hi hlo hbefore
    have hbounds := Append.bounds (.cons happend (.nil u))
    obtain ⟨changes, τ, hall, hrun, hτ⟩ := ih h hindex (Nat.le_trans hlo hbounds.1) (fun d hd => by
      rcases List.mem_append.mp hd with hd | hd
      · exact Nat.le_trans (hbefore d hd) hbounds.1
      · rw [List.mem_singleton.mp hd]
        exact (hbounds.2 c List.mem_cons_self).2) hρ
    exact ⟨change :: changes, τ, .cons hmeans hall, .cons hstep hrun, by simpa using hτ⟩

/-! ## What a dataset presents -/

/-- The fields under `names` of the records of a batch. -/
def Batch.Picked (names : List String) (ts : List Item) (b : Batch) (rows : List (Row ts)) : Prop :=
  b.2.map (fun row => row.pick b.1.columns.keys ts names) = rows.map some

variable [Fs]

/-- Queries and lookups on the dataset answer as the store has it: a query selects from the records of a table, in the order
they were appended. -/
structure Dataset.Presents [Outcomes] [Combine] (d : Dataset) (σ : Store) : Prop where
  shapes : ∀ name, ((d.query name).toOption.map fun q => q.schema.signature) = (σ.tables name).map Prod.fst
  counts : ∀ name q table, d.query name = .ok q → σ.tables name = some table →
    (∀ n, q.schema.count = .ok n → n = (table.2.map fun b => b.2.length).sum) ∧
      ((table.2.map fun b => b.2.length).sum < 2 ^ 64 → q.schema.count = .ok (table.2.map fun b => b.2.length).sum)
  selects : ∀ name q table, d.query name = .ok q → σ.tables name = some table →
    (∀ b ∈ table.2, ∀ t ∈ b.1.types, t.decodable = true) →
      ∀ {t : Item} {ts : List Item} (c : Combination .mask t ts) (names : List String), c.Opened q names →
        (∀ t ∈ c.bases, t.simple = true) → c.Safe →
          ∃ (blocks : List (List (Row c.bases))) (reader : Reader (t :: ts)) (outcomes : List (Outcome (Row (t :: ts)))),
            List.Forall₂ (Batch.Picked names c.bases) table.2 blocks ∧ c.new = .ok reader ∧
              (∀ n, reader.nth n = outcomes[n]?) ∧
                outcomes.filterMap Outcome.included? = blocks.flatten.filterMap c.select ∧
                  ∀ o ∈ outcomes, ∀ e, o ≠ .error e
  bins : ∀ name, (d.binary name).toOption = σ.values name

omit [Fs] in
theorem Commit.Filled.rows {c : Commit} {b : Batch} (h : c.Filled b) : c.seg.rows = b.2.length := by
  obtain ⟨a, hseg, hdata, -⟩ := h
  rw [hseg, Seg.rows, hdata]
  exact (Composite.lockstep_collect b.2).count_eq ⟨0, Fields.types_pos _⟩

omit [Fs] in
theorem Commit.Filled.decodable {c : Commit} {b : Batch} (h : c.Filled b) (hb : ∀ t ∈ b.1.types, t.decodable = true)
    (j : Nat) : c.Decodable j := by
  obtain ⟨a, hseg, -⟩ := h
  rw [Commit.Decodable, hseg]
  exact fun hj => hb _ (List.get_mem _ _)

omit [Fs] in
theorem Commit.filled_sum {cs : List Commit} {batches : List Batch} (h : List.Forall₂ Commit.Filled cs batches) :
    (cs.map fun c => c.seg.rows).sum = (batches.map fun b => b.2.length).sum := by
  induction h with
  | nil => rfl
  | cons hb _ ih => rw [List.map_cons, List.map_cons, List.sum_cons, List.sum_cons, ih, hb.rows]

omit [Fs] in
theorem Commit.filled_decodable {cs : List Commit} {batches : List Batch} (h : List.Forall₂ Commit.Filled cs batches)
    (hdec : ∀ b ∈ batches, ∀ t ∈ b.1.types, t.decodable = true) : ∀ c ∈ cs, ∀ j, c.Decodable j := by
  induction h with
  | nil => exact fun c hc => absurd hc List.not_mem_nil
  | cons hb _ ih =>
    intro c hc
    rcases List.mem_cons.mp hc with rfl | hc
    · exact hb.decodable (hdec _ List.mem_cons_self)
    · exact ih (fun b hb => hdec b (List.mem_cons_of_mem _ hb)) c hc

variable [LawfulFs]

namespace Session.Consistent
variable {s : Session}

theorem binary_eq (h : s.Consistent) {c : Commit} (hc : c ∈ s.commits) {b : Bin} (hseg : c.seg = .bin b) :
    s.dataset.binary b.name = .ok b.data := by
  simpa using h.binary_reads hc hseg b.obtained

/-- A consistent session presents the store that its commits have brought about. -/
theorem presents [Outcomes] [LawfulOutcomes] [Combine] [LawfulCombine] (h : s.Consistent) {σ : Store}
    (hσ : Abstracts s.commits s.dataset.file.manifest σ) : s.dataset.Presents σ where
  shapes name := by
    rw [← hσ.shapes, Dataset.query]
    cases s.dataset.file.manifest.schemas.get? name <;> rfl
  counts name q table hq ht := by
    have hrows : ((s.fed name).map fun c => c.seg.rows).sum = (table.2.map fun b => b.2.length).sum :=
      Commit.filled_sum (hσ.filled name table ht)
    rw [h.count_eq (Dataset.query_eq_ok hq).1, ← hrows]
    exact ⟨fun n hn => (sum_eq_ok.mp hn).2, sum_of_lt⟩
  selects name q table hq ht hdec t ts c names hopen hsimple hsafe := by
    have hfilled := hσ.filled name table ht
    obtain ⟨blocks, hblocks, hpicked⟩ :=
      c.opened_hold h hq hfilled (Commit.filled_decodable hfilled hdec) hopen hsimple
    obtain ⟨reader, outcomes, hnew, hnth, hselect, herror⟩ := c.select_exact hsafe hblocks
    exact ⟨blocks, reader, outcomes, hpicked, hnew, hnth, hselect, herror⟩
  bins name := by
    cases hv : σ.values name with
    | none =>
      rw [Dataset.binary, (hσ.vacant name).mpr hv]
      rfl
    | some bytes =>
      obtain ⟨c, hc, hseg⟩ := hσ.bins name bytes hv
      rw [show s.dataset.binary name = .ok bytes from h.binary_eq hc hseg]
      rfl

end Session.Consistent

/-- However a session goes, with crashes that are spared: its commits, read as changes, make up a store that the dataset
presents, and where the session goes on the store goes on by further changes and keeps all it holds. -/
theorem Session.refines [LawfulExtern] [Outcomes] [LawfulOutcomes] [Combine] [LawfulCombine] {o s t : Session}
    {before after : List Turn} (hstart : o.Starts) (hbefore : Run Turns o before s) (hafter : Run Turns s after t) :
    ∃ (changes more : List Store.Change) (σ τ : Store),
      List.Forall₂ Commit.Means s.commits changes ∧ Run Store.Step Catalog.empty changes σ ∧ s.dataset.Presents σ ∧
        List.Forall₂ Commit.Means t.commits (changes ++ more) ∧ Run Store.Step σ more τ ∧ t.dataset.Presents τ ∧
          σ.Extends τ := by
  have hs : s.Consistent := hbefore.invariant (fun _ _ _ hs hturn => hs.turn hturn) (.start hstart)
  have ht : t.Consistent := hafter.invariant (fun _ _ _ hs hturn => hs.turn hturn) hs
  have hcommits : s.commits <+: t.commits := by
    refine hafter.invariant (I := fun r : Session => s.commits <+: r.commits) ?_ (List.prefix_refl _)
    exact fun _ _ _ hr hturn => hr.trans hturn.commits
  obtain ⟨rest, hrest⟩ := hcommits
  obtain ⟨changes, σ, hmeans, hrun, hσ⟩ := Journal.abstracts hs.journal Index.empty (Nat.le_refl _) (by simp) .empty
  have hjournal := ht.journal
  rw [← hrest] at hjournal
  obtain ⟨u, hfirst, hjournal⟩ := Run.append_iff.mp hjournal
  have hu : u = (s.dataset.file.header.offset, s.dataset.file.manifest) :=
    Run.unique (fun _ _ _ _ h h' => h.1.unique h'.1) hfirst hs.journal
  subst hu
  obtain ⟨more, τ, hmeans', hrun', hτ⟩ :=
    Journal.abstracts hjournal hs.index hs.stored.start (fun c hc => (hs.bounds c hc).2) hσ
  rw [hrest] at hτ
  refine ⟨changes, more, σ, τ, hmeans, hrun, hs.presents hσ, ?_, hrun', ht.presents hτ, Catalog.run_extends hrun'⟩
  rw [← hrest]
  exact List.rel_append hmeans hmeans'

omit [LawfulFs] in
theorem Session.Reached.turns {s : Session} (h : s.Reached) : ∃ o turns, o.Starts ∧ Run Turns o turns s := by
  obtain ⟨o, es, hstart, hrun⟩ := h
  refine ⟨o, es.map .event, hstart, ?_⟩
  clear hstart
  induction es generalizing o with
  | nil => exact hrun
  | cons e es ih =>
    obtain ⟨u, hstep, hrun⟩ := hrun
    exact ⟨u, .event hstep, ih u hrun⟩

end

/-! ## Two records and a note -/

section
attribute [local instance] reference reference_lawful buffered buffered_lawful documented documented_lawful nodes nodes_lawful

/-- Two records and a note are a table and a value. -/
theorem Session.refines_flagged : ∃ (s : Session) (changes : List Store.Change) (σ : Store), s.Reached ∧
    List.Forall₂ Commit.Means s.commits changes ∧ Run Store.Step Catalog.empty changes σ ∧ s.dataset.Presents σ ∧
      (∃ table, σ.tables "s" = some table ∧ (table.2.map fun b => b.2.length).sum = 2) ∧
        σ.values "note" = some [1, 2, 3] := by
  obtain ⟨s, e, h, he, hvalues, c, hc, hseg⟩ := flagged_session
  obtain ⟨o, turns, hstart, hturns⟩ := h.turns
  obtain ⟨changes, -, σ, -, hmeans, hrun, hpresents, -⟩ := Session.refines hstart hturns (.nil s)
  have hnote : s.dataset.binary "note" = .ok [1, 2, 3] := (Session.Consistent.reached h).binary_eq hc hseg
  refine ⟨s, changes, σ, h, hmeans, hrun, hpresents, ?_, by rw [← hpresents.bins, hnote]; rfl⟩
  have hquery : s.dataset.query "s" = .ok ⟨s.dataset.mmap, e⟩ := by rw [Dataset.query, he]
  have hshape := hpresents.shapes "s"
  rw [hquery] at hshape
  obtain ⟨table, ht, -⟩ := Option.map_eq_some_iff.mp hshape.symm
  refine ⟨table, ht, ?_⟩
  obtain ⟨col, cols, hcol, hhead, -⟩ := List.map_eq_cons_iff.mp hvalues
  refine ((hpresents.counts "s" _ table hquery ht).1 2 ?_).symm
  rw [Manifest.Schema.count, hcol]
  change sum (col.buffers.items.map Manifest.Buffer.count) = .ok 2
  rw [(Prod.mk.inj hhead).2]
  rfl

end
end Msca
