import Msca.Base.Run
import Msca.Layout
import Msca.Nested

/-! The dataset as an append-only journal: the segments committed one behind the other and the manifest
that indexes them. Offsets only grow, so the descriptors of a column stand in commit order, one for each
segment that fed it, and none is ever taken for one that is there. -/
namespace Msca
set_option autoImplicit false
open Checked

section
variable [Extern]

/-! ## Segments -/

/-- A segment of any kind that a dataset writes. -/
inductive Seg
  | schema (s : Schema)
  | data {fs : Fields} (a : Accumulator fs)
  | bin (b : Bin)

instance segSegment : Segment Seg where
  VARIANT
    | .schema s => Segment.VARIANT s
    | .data a => Segment.VARIANT a
    | .bin b => Segment.VARIANT b
  wrap
    | .schema s => wrap s
    | .data a => wrap a
    | .bin b => wrap b

instance segRegister : Register Seg where
  entry
    | .schema s => entry s
    | .data a => entry a
    | .bin b => entry b
  register
    | .schema s => register s
    | .data a => register a
    | .bin b => register b

/-- A segment on disk. -/
structure Commit where
  start : Nat
  seg : Seg
  image : Bytes
  wrapped : wrap seg start = .ok image

namespace Commit

def stop (c : Commit) : Nat := c.start + c.image.length

end Commit

/-- Segment `c` goes behind the others and is registered. -/
def Append (s : Nat × Manifest) (c : Commit) (t : Nat × Manifest) : Prop :=
  c.start = s.1 ∧ c.stop = t.1 ∧ t.1 < 2 ^ 63 ∧ entry c.seg s.2 = .ok () ∧
    ∃ sec : Sector, sec.offset = c.start ∧ sec.size = c.image.length ∧ register c.seg sec s.2 = (.ok (), t.2)

/-- The segments `cs`, from the first one on, end at `offset` and are indexed by `m`. -/
abbrev Journal (cs : List Commit) (offset : Nat) (m : Manifest) : Prop :=
  Run Append (HEADER, Manifest.default) cs (offset, m)

/-! ## Positions -/

theorem Append.bounds {s t : Nat × Manifest} {cs : List Commit} (h : Run Append s cs t) :
    s.1 ≤ t.1 ∧ ∀ c ∈ cs, s.1 ≤ c.start ∧ c.stop ≤ t.1 := by
  induction cs generalizing s with
  | nil =>
    cases h
    exact ⟨Nat.le_refl _, by simp⟩
  | cons c cs ih =>
    obtain ⟨u, ⟨hstart, hstop, -⟩, h⟩ := h
    obtain ⟨hle, hall⟩ := ih h
    have hc : c.start ≤ c.stop := Nat.le_add_right _ _
    refine ⟨by omega, ?_⟩
    intro d hd
    rcases List.mem_cons.mp hd with rfl | hd
    · omega
    · have hbound := hall d hd
      omega

/-! ## Kinds of segments -/

namespace Seg

/-- The segment carries records of the schema `name`. -/
def feeds (name : String) : Seg → Bool
  | .data a => a.name == name
  | _ => false

/-- Records in the segment. -/
def rows : Seg → Nat
  | .data a => Composite.count a.data
  | _ => 0

end Seg

/-- The recorded columns are those of the record type with the fields `fs`. -/
structure Shaped (e : Manifest.Schema) (fs : Fields) : Prop where
  keys : e.columns.keys = fs.columns.keys
  types : e.columns.values.map Column.ty = fs.types.map Item.type

/-- The bits of no column exceed a bit vector. -/
def BitsFit {ts : List Item} (rows : List (Row ts)) : Prop :=
  ∀ j : Fin ts.length, (ts.get j).BitsFit (rows.map fun row => row.get j)

/-- What a dataset hands to `File::write`. -/
def Sound (m : Manifest) : Seg → Prop
  | .schema s => ∃ fs : Fields, s = fs.schema s.name
  | @Seg.data fs a => ∃ (e : Manifest.Schema) (rows : List (Row fs.types)), m.schemas.get? a.name = some e ∧
      Shaped e fs ∧ a.data = Composite.collect rows ∧ rows ≠ [] ∧ rows.length < 2 ^ 64 ∧ BitsFit rows
  | .bin _ => True

/-- `b` describes column `j` of the data segment `a` with the bytes `image` at `start`. -/
structure Describes {fs : Fields} (a : Accumulator fs) (j : Fin fs.types.length) (start : Nat) (image : Bytes)
    (b : Manifest.Buffer) : Prop where
  above : start ≤ b.sector.offset + HEADER
  inside : b.sector.offset + HEADER - start + b.sector.size + 8 ≤ image.length
  slice : Bytes.slice image (b.sector.offset + HEADER - start) b.sector.size = enc (a.data.get j)
  described : ∃ offset s, (a.data.get j).descriptor offset = .ok (s, b)
  count : b.count = Composite.count a.data

namespace Commit

/-- Column `j` of the commit is described by `b`. -/
def Column (j : Nat) (c : Commit) (b : Manifest.Buffer) : Prop :=
  match c.seg with
  | @Seg.data fs a => ∃ hj : j < fs.types.length, Describes a ⟨j, hj⟩ c.start c.image b
  | _ => False

/-- The commit is the binary segment `name`, and `sector` addresses its bytes. -/
def Binary (name : String) (sector : Sector) (c : Commit) : Prop :=
  ∃ b, c.seg = .bin b ∧ b.name = name ∧ c.start ≤ sector.offset + HEADER ∧
    sector.offset + HEADER - c.start + sector.size + 8 ≤ c.image.length ∧
    Bytes.slice c.image (sector.offset + HEADER - c.start) sector.size = b.data

end Commit

/-- The manifest lists what the commits hold. -/
structure Index (cs : List Commit) (m : Manifest) : Prop where
  shaped : ∀ name e, m.schemas.get? name = some e → ∃ fs, Shaped e fs
  fed : ∀ c ∈ cs, ∀ name, c.seg.feeds name = true → m.schemas.get? name ≠ none
  columns : ∀ name e, m.schemas.get? name = some e → ∀ j col, e.columns.values[j]? = some col →
    List.Forall₂ (Commit.Column j) (cs.filter fun c => c.seg.feeds name) col.buffers.items
  listed : ∀ name sector, m.bins.get? name = some sector → ∃ c ∈ cs, c.Binary name sector
  found : ∀ c ∈ cs, ∀ b, c.seg = .bin b → ∃ sector, m.bins.get? b.name = some sector ∧ c.Binary b.name sector

theorem Index.empty : Index [] Manifest.default where
  shaped _ _ h := by cases h
  fed _ h := by cases h
  columns _ _ h := by cases h
  listed _ _ h := by cases h
  found _ h := by cases h

end

/-! ## Registration keeps the index -/

theorem Composite.Described.get {ts : List Item} {c : Composite ts} {offset : Nat} {descs : List Manifest.Buffer}
    (h : Composite.Described c offset descs) (j : Fin ts.length) :
    ∃ d s off, descs[j.val]? = some d ∧ (c.get j).descriptor off = .ok (s, d) ∧ d.count = (c.get j).count := by
  induction c generalizing offset descs with
  | nil => exact j.elim0
  | cons b c ih =>
    obtain ⟨s, desc, rest, rfl, hdesc, -, -, -, hcount, h⟩ := h
    obtain ⟨j, hj⟩ := j
    cases j with
    | zero => exact ⟨desc, s, offset, rfl, hdesc, hcount⟩
    | succ j => exact ih h ⟨j, Nat.lt_of_succ_lt_succ hj⟩

theorem Composite.Lockstep.count_eq {ts : List Item} {c : Composite ts} {n : Nat} (h : c.Lockstep n)
    (j : Fin ts.length) : Composite.count c = n := by
  cases c with
  | nil => exact j.elim0
  | cons b c => exact h.head

theorem schema_vacant {s : Schema} {m : Manifest} (h : entry s m = .ok ()) : m.schemas.get? s.name = none := by
  cases hget : m.schemas.get? s.name with
  | none => rfl
  | some e =>
    simp only [entry, hget] at h
    cases h

theorem bin_vacant {b : Bin} {m : Manifest} (h : entry b m = .ok ()) : m.bins.get? b.name = none := by
  cases hget : m.bins.get? b.name with
  | none => rfl
  | some e =>
    simp only [entry, hget] at h
    cases h

theorem Fields.types_pos (fs : Fields) : 0 < fs.types.length := by
  rw [Fields.types, OrdMap.length_values]
  exact List.length_pos_iff.mpr fs.ne

theorem Fields.map_values (fs : Fields) (name : String) :
    (fs.schema name).map.values = fs.types.map fun t => Column.ofType t.type := by
  have hfs : (fs.types.map Item.type).length = fs.columns.items.length := by
    rw [List.length_map]
    exact OrdMap.length_values _
  have hvalues : (fs.schema name).columns.values = fs.types.map Item.type := OrdMap.values_withValues hfs
  have hcolumns : ((fs.schema name).columns.values.map Column.ofType).length = (fs.schema name).columns.items.length := by
    rw [List.length_map, OrdMap.length_values]
  rw [Schema.map, OrdMap.values_withValues hcolumns, hvalues, List.map_map]
  rfl

theorem Fields.map_keys (fs : Fields) (name : String) : (fs.schema name).map.keys = fs.columns.keys := by
  have hfs : (fs.types.map Item.type).length = fs.columns.items.length := by
    rw [List.length_map]
    exact OrdMap.length_values _
  have hcolumns : ((fs.schema name).columns.values.map Column.ofType).length = (fs.schema name).columns.items.length := by
    rw [List.length_map, OrdMap.length_values]
  rw [Schema.map, OrdMap.keys_withValues hcolumns]
  exact OrdMap.keys_withValues hfs

theorem Fields.shaped (fs : Fields) (name : String) (sec : Sector) : Shaped ⟨sec, (fs.schema name).map⟩ fs := by
  refine ⟨fs.map_keys name, ?_⟩
  rw [fs.map_values, List.map_map]
  rfl

theorem map_ty_insert {cols : List Column} {descs : List Manifest.Buffer} (h : descs.length = cols.length) :
    (List.zipWith Column.insert cols descs).map Column.ty = cols.map Column.ty := by
  induction cols generalizing descs with
  | nil => rfl
  | cons col cols ih =>
    obtain ⟨d, descs, rfl⟩ := List.exists_cons_of_length_eq_add_one h
    rw [List.zipWith_cons_cons, List.map_cons, List.map_cons, ih (Nat.succ.inj h)]
    rfl

theorem Shaped.length {e : Manifest.Schema} {fs : Fields} (h : Shaped e fs) :
    e.columns.values.length = fs.types.length := by
  have htypes := congrArg List.length h.types
  rwa [List.length_map, List.length_map] at htypes

/-- The entry with one more buffer in each column. -/
def Manifest.Schema.insert (e : Manifest.Schema) (descs : List Manifest.Buffer) : Manifest.Schema :=
  { e with columns := e.columns.withValues (List.zipWith Column.insert e.columns.values descs) }

theorem Manifest.Schema.insert_columns {e : Manifest.Schema} {descs : List Manifest.Buffer}
    (h : descs.length = e.columns.values.length) : (e.insert descs).columns.keys = e.columns.keys ∧
      (e.insert descs).columns.values = List.zipWith Column.insert e.columns.values descs := by
  have hzip : (List.zipWith Column.insert e.columns.values descs).length = e.columns.items.length := by
    rw [List.length_zipWith, h, Nat.min_self, OrdMap.length_values]
  exact ⟨OrdMap.keys_withValues hzip, OrdMap.values_withValues hzip⟩

theorem Shaped.insert {e : Manifest.Schema} {fs : Fields} (h : Shaped e fs) {descs : List Manifest.Buffer}
    (hdescs : descs.length = e.columns.values.length) : Shaped (e.insert descs) fs := by
  obtain ⟨hkeys, hvalues⟩ := Manifest.Schema.insert_columns hdescs
  refine ⟨hkeys.trans h.keys, ?_⟩
  rw [hvalues, ← h.types]
  exact map_ty_insert hdescs

section
variable [Extern]

theorem registerIn_describes {fs : Fields} {a : Accumulator fs} {rows : List (Row fs.types)} {sec : Sector}
    {image : Bytes} {e : Manifest.Schema} (hdata : a.data = Composite.collect rows) (hne : rows ≠ [])
    (hlt : rows.length < 2 ^ 64) (hsec : HEADER ≤ sec.offset) (hwrap : wrap a sec.offset = .ok image)
    (hend : sec.offset + image.length < 2 ^ 64) (he : e.columns.values.length = fs.types.length) :
    ∃ descs : List Manifest.Buffer, descs.length = fs.types.length ∧ a.registerIn sec e = (.ok (), { e with
        columns := e.columns.withValues (List.zipWith Column.insert e.columns.values descs) }) ∧
      ∀ j : Fin fs.types.length, ∃ d, descs[j.val]? = some d ∧ Describes a j sec.offset image d := by
  have hstep : a.data.Lockstep rows.length := by
    rw [hdata]
    exact Composite.lockstep_collect rows
  obtain ⟨descs, hreg, hdescs⟩ := registerIn_described hstep (List.length_pos_iff.mpr hne) hlt hsec hwrap hend he
  have hagrees := hdescs.agrees hsec hwrap
  refine ⟨descs, hdescs.length_eq, hreg, fun j => ?_⟩
  obtain ⟨d, s, off, hd, hdesc, hcount⟩ := hdescs.get j
  have hmem := List.mem_of_getElem? hd
  have hinside := hagrees.inside d hmem
  have hpos := d.sector.size_pos
  have hslice := congrArg (fun l : List Bytes => l[j.val]?) hagrees.slices
  simp only [List.getElem?_map, hd, Option.map_some, Composite.bodies_get, Option.some.injEq] at hslice
  exact ⟨d, hd, hagrees.addressed d hmem, by omega, hslice, ⟨off, s, hdesc⟩,
    by rw [hcount, hstep j, hstep.count_eq j]⟩

section Step
variable {cs : List Commit} {c : Commit} {m : Manifest}

theorem filter_feeds_append (name : String) : ((cs ++ [c]).filter fun c => c.seg.feeds name) =
    (cs.filter fun c => c.seg.feeds name) ++ if c.seg.feeds name then [c] else [] := by
  rw [List.filter_append, List.filter_cons]
  rfl

theorem Index.found_append (hi : Index cs m) (hseg : ∀ b, c.seg ≠ .bin b) (d : Commit) (hd : d ∈ cs ++ [c]) (b : Bin)
    (hb : d.seg = .bin b) : ∃ sector, m.bins.get? b.name = some sector ∧ d.Binary b.name sector := by
  rcases List.mem_append.mp hd with hd | hd
  · exact hi.found d hd b hb
  · rw [List.mem_singleton.mp hd] at hb
    exact absurd hb (hseg b)

theorem Index.listed_append (hi : Index cs m) (c : Commit) (name : String) (sector : Sector)
    (h : m.bins.get? name = some sector) : ∃ d ∈ cs ++ [c], d.Binary name sector := by
  obtain ⟨d, hd, hbin⟩ := hi.listed name sector h
  exact ⟨d, List.mem_append_left _ hd, hbin⟩

theorem Index.schema (hi : Index cs m) {fs : Fields} {name : String} (sec : Sector)
    (hseg : c.seg = .schema (fs.schema name)) (hentry : entry (fs.schema name) m = .ok ()) :
    Index (cs ++ [c]) (register (fs.schema name) sec m).2 := by
  have hvacant : m.schemas.get? name = none := schema_vacant hentry
  have hfeeds : ∀ name, c.seg.feeds name = false := by
    intro name
    rw [hseg]
    rfl
  have hget : ∀ k e, (m.schemas.insertVacant name ⟨sec, (fs.schema name).map⟩).get? k = some e →
      k = name ∧ e = ⟨sec, (fs.schema name).map⟩ ∨ m.schemas.get? k = some e := by
    intro k e he
    by_cases hname : name = k
    · subst hname
      rw [OrdMap.get?_insertVacant_self _ hvacant] at he
      exact Or.inl ⟨rfl, (Option.some.inj he).symm⟩
    · rw [OrdMap.get?_insertVacant_ne _ hvacant hname] at he
      exact Or.inr he
  refine ⟨?_, ?_, ?_, hi.listed_append c, hi.found_append (by rw [hseg]; simp)⟩
  · intro k e he
    rcases hget k e he with ⟨rfl, rfl⟩ | he
    · exact ⟨fs, fs.shaped k sec⟩
    · exact hi.shaped k e he
  · intro d hd k hfeed
    rcases List.mem_append.mp hd with hd | hd
    · have hold := hi.fed d hd k hfeed
      have hne : name ≠ k := fun h => hold (h ▸ hvacant)
      change (m.schemas.insertVacant name ⟨sec, (fs.schema name).map⟩).get? k ≠ none
      rw [OrdMap.get?_insertVacant_ne _ hvacant hne]
      exact hold
    · rw [List.mem_singleton.mp hd, hfeeds] at hfeed
      cases hfeed
  · intro k e he j col hcol
    rw [filter_feeds_append, hfeeds, if_neg (by simp), List.append_nil]
    rcases hget k e he with ⟨rfl, rfl⟩ | he
    · have hempty : (cs.filter fun c => c.seg.feeds k) = [] := by
        rw [List.filter_eq_nil_iff]
        intro d hd hfeed
        exact hi.fed d hd k hfeed hvacant
      rw [fs.map_values, List.getElem?_map] at hcol
      obtain ⟨t, -, rfl⟩ := Option.map_eq_some_iff.mp hcol
      rw [hempty]
      exact List.Forall₂.nil
    · exact hi.columns k e he j col hcol

theorem Index.bin (hi : Index cs m) {b : Bin} {sec : Sector} (hseg : c.seg = .bin b) (hentry : entry b m = .ok ())
    (hsec : HEADER ≤ sec.offset) (hstart : c.start = sec.offset) (hend : c.stop < 2 ^ 64) :
    Index (cs ++ [c]) (register b sec m).2 := by
  have hvacant := bin_vacant hentry
  have hwrap : wrap b sec.offset = .ok c.image := by
    have h := c.wrapped
    rw [hseg, hstart] at h
    exact h
  have hlt : sec.offset + c.image.length < 2 ^ 64 := by
    rw [← hstart]
    exact hend
  obtain ⟨sector, hreg, hoffset, hsize⟩ := bin_register hsec hwrap hlt m
  obtain ⟨hslice, hinside⟩ := bin_slice hwrap
  obtain ⟨-, -, himage⟩ := bin_wrap_eq_ok hwrap
  have hlen : 17 ≤ c.image.length := by
    rw [himage, segment_length]
    omega
  have hup := le_roundUp (sec.offset + 9)
  have hpos : sector.offset + HEADER - c.start = roundUp (sec.offset + 9) - sec.offset := by
    rw [HEADER] at hsec ⊢
    omega
  have hnew : c.Binary b.name sector := by
    rw [HEADER] at hsec
    refine ⟨b, hseg, rfl, by rw [HEADER]; omega, by rw [hpos]; omega, ?_⟩
    rw [hpos, hsize]
    exact hslice
  have hfeeds : ∀ name, c.seg.feeds name = false := by
    intro name
    rw [hseg]
    rfl
  rw [hreg]
  refine ⟨hi.shaped, ?_, ?_, ?_, ?_⟩
  · intro d hd k hfeed
    rcases List.mem_append.mp hd with hd | hd
    · exact hi.fed d hd k hfeed
    · rw [List.mem_singleton.mp hd, hfeeds] at hfeed
      cases hfeed
  · intro k e he j col hcol
    rw [filter_feeds_append, hfeeds, if_neg (by simp), List.append_nil]
    exact hi.columns k e he j col hcol
  · intro k s hs
    change (m.bins.insertVacant b.name sector).get? k = some s at hs
    by_cases hname : b.name = k
    · subst hname
      rw [OrdMap.get?_insertVacant_self _ hvacant] at hs
      cases hs
      exact ⟨c, List.mem_append_right _ (List.mem_singleton_self c), hnew⟩
    · rw [OrdMap.get?_insertVacant_ne _ hvacant hname] at hs
      exact hi.listed_append c k s hs
  · intro d hd b' hb
    change ∃ s, (m.bins.insertVacant b.name sector).get? b'.name = some s ∧ _
    rcases List.mem_append.mp hd with hd | hd
    · obtain ⟨s, hs, hbin⟩ := hi.found d hd b' hb
      have hne : b.name ≠ b'.name := by
        intro h
        rw [← h, hvacant] at hs
        cases hs
      exact ⟨s, by rw [OrdMap.get?_insertVacant_ne _ hvacant hne]; exact hs, hbin⟩
    · rw [List.mem_singleton.mp hd] at hb ⊢
      rw [hseg] at hb
      cases hb
      exact ⟨sector, OrdMap.get?_insertVacant_self _ hvacant, hnew⟩

theorem Index.buffer_lt (hi : Index cs m) {name : String} {e : Manifest.Schema} (he : m.schemas.get? name = some e)
    {j : Nat} {col : Column} (hcol : e.columns.values[j]? = some col) {offset : Nat}
    (hbefore : ∀ d ∈ cs, d.stop ≤ offset) {b : Manifest.Buffer} (hb : b ∈ col.buffers.items) :
    b.sector.offset + HEADER < offset := by
  obtain ⟨i, hi', hbi⟩ := List.getElem_of_mem hb
  have hall := hi.columns name e he j col hcol
  have hlen := hall.length_eq
  have hdesc := hall.get (hlen ▸ hi') hi'
  obtain ⟨d, hd, hdi⟩ : ∃ d ∈ cs, Commit.Column j d b := by
    refine ⟨_, (List.mem_filter.mp (List.getElem_mem (hlen ▸ hi'))).1, ?_⟩
    rw [← hbi]
    exact hdesc
  have hstop := hbefore d hd
  unfold Commit.Column at hdi
  split at hdi
  · obtain ⟨hj, hdi⟩ := hdi
    have habove := hdi.above
    have hinside := hdi.inside
    have hpos := b.sector.size_pos
    rw [Commit.stop] at hstop
    omega
  · exact hdi.elim

/-- Registration of a data segment puts one buffer into each column of a schema with as many columns as it has. -/
theorem register_describes {fs : Fields} {a : Accumulator fs} {rows : List (Row fs.types)} {e : Manifest.Schema}
    (he : m.schemas.get? a.name = some e) (hlen : e.columns.values.length = fs.types.length)
    (hdata : a.data = Composite.collect rows) (hne : rows ≠ []) (hrows : rows.length < 2 ^ 64) {sec : Sector} {image : Bytes}
    (hsec : HEADER ≤ sec.offset) (hwrap : wrap a sec.offset = .ok image) (hend : sec.offset + image.length < 2 ^ 64) :
    ∃ descs : List Manifest.Buffer, descs.length = e.columns.values.length ∧
      Msca.register a sec m = (.ok (), { m with schemas := m.schemas.modify a.name fun _ => e.insert descs }) ∧
      ∀ j : Fin fs.types.length, ∃ d, descs[j.val]? = some d ∧ Describes a j sec.offset image d := by
  obtain ⟨descs, hdescs, hin, hdescribes⟩ := registerIn_describes hdata hne hrows hsec hwrap hend hlen
  refine ⟨descs, hdescs.trans hlen.symm, ?_, hdescribes⟩
  simp only [Msca.register, he, hin]
  rfl

theorem Sound.register {fs : Fields} {a : Accumulator fs} (h : Sound m (.data a)) {sec : Sector} {image : Bytes}
    (hsec : HEADER ≤ sec.offset) (hwrap : wrap a sec.offset = .ok image) (hend : sec.offset + image.length < 2 ^ 64) :
    ∃ (e : Manifest.Schema) (descs : List Manifest.Buffer), m.schemas.get? a.name = some e ∧ Shaped e fs ∧
      descs.length = e.columns.values.length ∧
      Msca.register a sec m = (.ok (), { m with schemas := m.schemas.modify a.name fun _ => e.insert descs }) ∧
      ∀ j : Fin fs.types.length, ∃ d, descs[j.val]? = some d ∧ Describes a j sec.offset image d := by
  obtain ⟨e, rows, he, hshape, hdata, hne, hrows, -⟩ := h
  obtain ⟨descs, hdescs, hreg, hdescribes⟩ := register_describes he hshape.length hdata hne hrows hsec hwrap hend
  exact ⟨e, descs, he, hshape, hdescs, hreg, hdescribes⟩

/-- An accumulator that was filled record by record and has as many columns as the schema of its name. -/
def Seg.Even (m : Manifest) : Seg → Prop
  | @Seg.data fs a => (∃ rows : List (Row fs.types), a.data = Composite.collect rows ∧ rows ≠ [] ∧ rows.length < 2 ^ 64) ∧
      ∀ e, m.schemas.get? a.name = some e → e.columns.values.length = fs.types.length
  | _ => True

omit [Extern] in
theorem Sound.even {seg : Seg} (h : Sound m seg) : seg.Even m := by
  cases seg with
  | @data fs a =>
    obtain ⟨e, rows, he, hshape, hdata, hne, hrows, -⟩ := h
    refine ⟨⟨rows, hdata, hne, hrows⟩, fun e' he' => ?_⟩
    obtain rfl := Option.some.inj (he'.symm.trans he)
    exact hshape.length
  | schema | bin => trivial

/-- Such a segment is registered, once it is on disk below the limit of offsets. -/
theorem Seg.Even.register_ok {seg : Seg} (h : seg.Even m) (hentry : entry seg m = .ok ()) {sec : Sector} {image : Bytes}
    (hsec : HEADER ≤ sec.offset) (hwrap : wrap seg sec.offset = .ok image) (hend : sec.offset + image.length < 2 ^ 64) :
    (Msca.register seg sec m).1 = .ok () := by
  cases seg with
  | schema s => rfl
  | @data fs a =>
    obtain ⟨⟨rows, hdata, hne, hrows⟩, hlen⟩ := h
    cases he : m.schemas.get? a.name with
    | none =>
      change (fun _ => ()) <$> okOr _ (m.schemas.get? a.name) = _ at hentry
      rw [he] at hentry
      cases hentry
    | some e =>
      obtain ⟨descs, -, hreg, -⟩ := register_describes he (hlen e he) hdata hne hrows hsec hwrap hend
      exact congrArg Prod.fst hreg
  | bin b =>
    obtain ⟨sector, hreg, -⟩ := bin_register hsec hwrap hend m
    exact congrArg Prod.fst hreg

theorem Index.data (hi : Index cs m) {fs : Fields} {a : Accumulator fs} {sec : Sector} (hseg : c.seg = .data a)
    (hsound : Sound m (.data a)) (hsec : HEADER ≤ sec.offset) (hstart : c.start = sec.offset) (hend : c.stop < 2 ^ 64)
    (hbefore : ∀ d ∈ cs, d.stop ≤ c.start) :
    (register a sec m).1 = .ok () ∧ Index (cs ++ [c]) (register a sec m).2 := by
  have hwrap : wrap a sec.offset = .ok c.image := by
    have h := c.wrapped
    rw [hseg, hstart] at h
    exact h
  have hlt : sec.offset + c.image.length < 2 ^ 64 := by
    rw [← hstart]
    exact hend
  obtain ⟨e, descs, he, hshape, hdescs, hreg, hdescribes⟩ := hsound.register hsec hwrap hlt
  obtain ⟨-, hvalues⟩ := Manifest.Schema.insert_columns hdescs
  have hget : ∀ k e', (m.schemas.modify a.name fun _ => e.insert descs).get? k = some e' →
      (k = a.name ∧ e' = e.insert descs) ∨ k ≠ a.name ∧ m.schemas.get? k = some e' := by
    intro k e' he'
    by_cases hname : a.name = k
    · subst hname
      rw [OrdMap.get?_modify_self _ he] at he'
      exact Or.inl ⟨rfl, (Option.some.inj he').symm⟩
    · rw [OrdMap.get?_modify_ne _ hname] at he'
      exact Or.inr ⟨fun h => hname h.symm, he'⟩
  have hfeeds : ∀ k, c.seg.feeds k = (a.name == k) := by
    intro k
    rw [hseg]
    rfl
  rw [hreg]
  refine ⟨rfl, ?_, ?_, ?_, hi.listed_append c, hi.found_append (by rw [hseg]; simp)⟩
  · intro k e' he'
    rcases hget k e' he' with ⟨-, rfl⟩ | ⟨-, he'⟩
    · exact ⟨fs, hshape.insert hdescs⟩
    · exact hi.shaped k e' he'
  · intro d hd k hfeed
    change (m.schemas.modify a.name _).get? k ≠ none
    by_cases hname : a.name = k
    · subst hname
      rw [OrdMap.get?_modify_self _ he]
      exact Option.some_ne_none _
    · rw [OrdMap.get?_modify_ne _ hname]
      rcases List.mem_append.mp hd with hd | hd
      · exact hi.fed d hd k hfeed
      · rw [List.mem_singleton.mp hd, hfeeds] at hfeed
        exact absurd (beq_iff_eq.mp hfeed) hname
  · intro k e' he' j col' hcol'
    rw [filter_feeds_append, hfeeds]
    rcases hget k e' he' with ⟨rfl, rfl⟩ | ⟨hname, he'⟩
    · rw [hvalues, List.getElem?_zipWith_eq_some] at hcol'
      obtain ⟨col, d, hcol, hd, rfl⟩ := hcol'
      have hj : j < fs.types.length := by
        rw [← hshape.length, ← hdescs]
        exact (List.getElem?_eq_some_iff.mp hd).1
      obtain ⟨d', hd', hdesc⟩ := hdescribes ⟨j, hj⟩
      have hdd : d' = d := by
        rw [hd] at hd'
        exact (Option.some.inj hd').symm
      subst hdd
      have hins : (col.insert d').buffers.items = col.buffers.items ++ [d'] := by
        refine KeySet.insert_above fun b hb => Sector.key_lt_of_offset ?_
        have hb := hi.buffer_lt he hcol hbefore hb
        have habove := hdesc.above
        rw [hstart] at hb
        omega
      rw [if_pos (beq_self_eq_true a.name), hins]
      refine List.rel_append (hi.columns a.name e he j col hcol) (List.Forall₂.cons ?_ List.Forall₂.nil)
      unfold Commit.Column
      rw [hseg, hstart]
      exact ⟨hj, hdesc⟩
    · rw [if_neg (by simpa using fun h => hname h.symm), List.append_nil]
      exact hi.columns k e' he' j col' hcol'

/-- The schema `name` is registered for the record type with the fields `fs`. -/
def Registered (m : Manifest) (name : String) (fs : Fields) : Prop :=
  ∃ e, m.schemas.get? name = some e ∧ Shaped e fs

theorem Registered.append {s t : Nat × Manifest} {name : String} {fs : Fields} (h : Registered s.2 name fs)
    (happend : Append s c t) (hsound : Sound s.2 c.seg) (hlo : HEADER ≤ s.1) : Registered t.2 name fs := by
  obtain ⟨hstart, hstop, hlt, hentry, sec, hoffset, hsize, hreg⟩ := happend
  obtain ⟨e, he, hshape⟩ := h
  cases hseg : c.seg with
  | schema s' =>
    rw [hseg] at hentry hreg
    have hvacant := schema_vacant hentry
    have hne : s'.name ≠ name := by
      intro hname
      rw [hname, he] at hvacant
      cases hvacant
    refine ⟨e, ?_, hshape⟩
    rw [← congrArg Prod.snd hreg]
    change (s.2.schemas.insertVacant s'.name _).get? name = some e
    rw [OrdMap.get?_insertVacant_ne _ hvacant hne]
    exact he
  | data a =>
    have hwrap := c.wrapped
    rw [hseg] at hsound hreg hwrap
    rw [← hoffset] at hwrap
    rw [Commit.stop] at hstop
    obtain ⟨e', descs, he', hshape', hdescs, hreg', -⟩ := hsound.register (by omega) hwrap (by omega)
    change register a sec s.2 = _ at hreg
    rw [hreg'] at hreg
    rw [← congrArg Prod.snd hreg]
    by_cases hname : a.name = name
    · subst hname
      rw [he'] at he
      cases he
      exact ⟨e.insert descs, OrdMap.get?_modify_self _ he', hshape.insert hdescs⟩
    · refine ⟨e, ?_, hshape⟩
      change (s.2.schemas.modify a.name _).get? name = some e
      rw [OrdMap.get?_modify_ne _ hname]
      exact he
  | bin b =>
    rw [hseg] at hreg
    change register b sec s.2 = _ at hreg
    have hsame : t.2.schemas = s.2.schemas := by
      rw [← congrArg Prod.snd hreg]
      cases hsector : b.sector sec <;> simp only [register, hsector]
    exact ⟨e, by rw [hsame]; exact he, hshape⟩

end Step

/-- The run of a journal along which every segment is one a dataset hands over is indexed. -/
theorem Journal.index {cs ds : List Commit} {s t : Nat × Manifest}
    (h : Run (fun s c t => Append s c t ∧ Sound s.2 c.seg) s ds t) (hs : Index cs s.2) (hlo : HEADER ≤ s.1)
    (hbefore : ∀ c ∈ cs, c.stop ≤ s.1) : Index (cs ++ ds) t.2 := by
  induction ds generalizing cs s with
  | nil =>
    cases h
    rwa [List.append_nil]
  | cons c ds ih =>
    obtain ⟨u, ⟨⟨hstart, hstop, hlt, hentry, sec, hoffset, hsize, hreg⟩, hsound⟩, h⟩ := h
    have hc : c.start ≤ c.stop := Nat.le_add_right _ _
    have hindex : Index (cs ++ [c]) u.2 := by
      cases hseg : c.seg with
      | schema s' =>
        rw [hseg] at hsound hentry hreg
        obtain ⟨fs, hfs⟩ := hsound
        rw [hfs] at hseg hentry hreg
        have hstep := hs.schema sec hseg hentry
        change register (fs.schema s'.name) sec s.2 = _ at hreg
        rwa [hreg] at hstep
      | data a =>
        rw [hseg] at hsound hreg
        have hstep := hs.data hseg hsound (by omega) hoffset.symm (by omega) fun d hd => by
          have := hbefore d hd
          omega
        change register a sec s.2 = _ at hreg
        rw [hreg] at hstep
        exact hstep.2
      | bin b =>
        rw [hseg] at hentry hreg
        have hstep := hs.bin hseg hentry (by omega) hoffset.symm (by omega)
        change register b sec s.2 = _ at hreg
        rwa [hreg] at hstep
    have happend : cs ++ c :: ds = (cs ++ [c]) ++ ds := by simp
    rw [happend]
    refine ih h hindex (by omega) ?_
    intro d hd
    rcases List.mem_append.mp hd with hd | hd
    · have := hbefore d hd
      omega
    · rw [List.mem_singleton.mp hd]
      omega

end
end Msca
