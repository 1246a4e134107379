import Msca.History

/-! Several datasets side by side. An accumulator knows its schema by name and by an offset in the file it came from;
another file may have other columns under the name. What it writes is registered column by column all the same, so
the columns and the offset have to agree for the registration to mean what it says. -/
namespace Msca
set_option autoImplicit false
open Checked

/-! ## Registration by position -/

/-- Column by column the accumulator has the recorded types, and its pointer is the sector of the schema. -/
structure Accumulator.Fits {fs : Fields} (a : Accumulator fs) (e : Manifest.Schema) : Prop where
  types : e.columns.values.map Column.ty = fs.types.map Item.type
  pointer : a.schema.offset = e.sector.offset

theorem Accumulator.Fits.length {fs : Fields} {a : Accumulator fs} {e : Manifest.Schema} (h : a.Fits e) :
    e.columns.values.length = fs.types.length := by
  have htypes := congrArg List.length h.types
  rwa [List.length_map, List.length_map] at htypes

/-- Every buffer that the manifest lists lies in front of `offset`. -/
def Manifest.Before (m : Manifest) (offset : Nat) : Prop :=
  ∀ name (e : Manifest.Schema), m.schemas.get? name = some e → ∀ (j : Nat) (col : Column), e.columns.values[j]? = some col →
    ∀ b ∈ col.buffers.items, b.sector.offset + HEADER < offset

namespace Manifest.Before
variable {m : Manifest} {offset : Nat}

theorem default : Manifest.default.Before offset := by
  intro name e he
  cases he

theorem mono {offset' : Nat} (h : m.Before offset) (hle : offset ≤ offset') : m.Before offset' :=
  fun name e he j col hcol b hb => Nat.lt_of_lt_of_le (h name e he j col hcol b hb) hle

theorem schema (h : m.Before offset) {fs : Fields} {name : String} (sec : Sector)
    (hentry : entry (fs.schema name) m = .ok ()) : (register (fs.schema name) sec m).2.Before offset := by
  have hvacant : m.schemas.get? name = none := schema_vacant hentry
  intro k e he
  change (m.schemas.insertVacant name _).get? k = some e at he
  by_cases hname : name = k
  · subst hname
    rw [OrdMap.get?_insertVacant_self _ hvacant] at he
    cases he
    intro j col hcol b hb
    rw [fs.map_values, List.getElem?_map] at hcol
    obtain ⟨t, -, rfl⟩ := Option.map_eq_some_iff.mp hcol
    cases hb
  · rw [OrdMap.get?_insertVacant_ne _ hvacant hname] at he
    exact h k e he

theorem bin (h : m.Before offset) (b : Bin) (sec : Sector) : (register b sec m).2.Before offset := by
  have hsame : (register b sec m).2.schemas = m.schemas := by
    cases hsector : b.sector sec <;> simp only [register, hsector]
  intro name e he
  rw [hsame] at he
  exact h name e he

theorem added (h : m.Before offset) {name : String} {e : Manifest.Schema} (he : m.schemas.get? name = some e) {j : Nat}
    {col : Column} (hcol : e.columns.values[j]? = some col) {desc : Manifest.Buffer}
    (hdesc : offset ≤ desc.sector.offset + HEADER) :
    (col.insert desc).buffers.items = col.buffers.items ++ [desc] := by
  refine KeySet.insert_above fun b hb => Sector.key_lt_of_offset ?_
  have hlt := h name e he j col hcol b hb
  omega

theorem insert (h : m.Before offset) {fs : Fields} {a : Accumulator fs} {e : Manifest.Schema} {descs : List Manifest.Buffer}
    {image : Bytes} (he : m.schemas.get? a.name = some e) (hlen : e.columns.values.length = fs.types.length)
    (hdescs : descs.length = e.columns.values.length)
    (hdescribes : ∀ j : Fin fs.types.length, ∃ d, descs[j.val]? = some d ∧ Describes a j offset image d) :
    Before { m with schemas := m.schemas.modify a.name fun _ => e.insert descs } (offset + image.length) := by
  intro k e' he' j col' hcol' b hb
  change (m.schemas.modify a.name _).get? k = some e' at he'
  by_cases hname : a.name = k
  · subst hname
    rw [OrdMap.get?_modify_self _ he] at he'
    cases he'
    rw [(Manifest.Schema.insert_columns hdescs).2, List.getElem?_zipWith_eq_some] at hcol'
    obtain ⟨col, d, hcol, hd, rfl⟩ := hcol'
    have hj : j < fs.types.length := by
      rw [← hlen]
      exact (List.getElem?_eq_some_iff.mp hcol).1
    obtain ⟨d', hd', hdesc⟩ := hdescribes ⟨j, hj⟩
    have hdd : d' = d := Option.some.inj (hd'.symm.trans hd)
    subst hdd
    have habove := hdesc.above
    have hinside := hdesc.inside
    rw [h.added he hcol habove] at hb
    rcases List.mem_append.mp hb with hb | hb
    · have hlt := h _ e he j col hcol b hb
      omega
    · rw [List.mem_singleton.mp hb]
      omega
  · rw [OrdMap.get?_modify_ne _ hname] at he'
    have hlt := h k e' he' j col' hcol' b hb
    omega

end Manifest.Before

/-! ## One write -/

section
variable [Extern]

theorem wrap_pointer {fs : Fields} {a : Accumulator fs} {offset : Nat} {image : Bytes} (h : wrap a offset = .ok image) :
    Bytes.slice image 9 8 = Bytes.leBytes 8 a.schema.offset ∧ 17 ≤ image.length := by
  obtain ⟨total, -, -, -, himage⟩ := data_wrap_eq_ok h
  have hlen := congrArg List.length himage
  rw [segment_length, List.length_append, Bytes.leBytes_length] at hlen
  refine ⟨?_, by omega⟩
  have hle : 0 + 8 ≤ (Bytes.leBytes 8 a.schema.offset ++ (Bytes.leBytes 8 (Composite.count a.data) ++
      (Bytes.zeros (roundUp (offset + 25) - (offset + 25)) ++ Composite.image a.data))).length := by
    rw [List.length_append, Bytes.leBytes_length]
    omega
  have hslice := segment_slice .data ((Composite.image a.data).length + 16 + (roundUp (offset + 25) - (offset + 25))) [] _ hle
  rw [List.nil_append, ← himage] at hslice
  have hfirst : Bytes.slice (Bytes.leBytes 8 a.schema.offset ++ (Bytes.leBytes 8 (Composite.count a.data) ++
      (Bytes.zeros (roundUp (offset + 25) - (offset + 25)) ++ Composite.image a.data))) 0 8 =
      Bytes.leBytes 8 a.schema.offset := by
    rw [Bytes.slice_append_left (by rw [Bytes.leBytes_length])]
    simp [Bytes.slice, List.take_of_length_le]
  exact hslice.trans hfirst

variable [Fs]

/-- Between `d` and `d'` the accumulator was written: each column of the named schema has one more buffer, which describes
a buffer of the type of the column, and the segment points at that schema. -/
structure Registers (d d' : Dataset) {fs : Fields} (a : Accumulator fs) (e : Manifest.Schema)
    (descs : List Manifest.Buffer) : Prop where
  named : d.file.manifest.schemas.get? a.name = some e
  manifest : d'.file.manifest =
    { d.file.manifest with schemas := d.file.manifest.schemas.modify a.name fun _ => e.insert descs }
  length : descs.length = e.columns.values.length
  added : ∀ (j : Nat) (col : Column) (desc : Manifest.Buffer), e.columns.values[j]? = some col → descs[j]? = some desc →
    (col.insert desc).buffers.items = col.buffers.items ++ [desc]
  types : e.columns.values.map Column.ty = fs.types.map Item.type
  described : ∀ j : Fin fs.types.length, ∃ (desc : Manifest.Buffer) (offset : Nat) (s : Sector),
    descs[j.val]? = some desc ∧ (a.data.get j).descriptor offset = .ok (s, desc) ∧
      Bytes.slice d'.file.bytes (desc.sector.offset + HEADER) desc.sector.size = enc (a.data.get j)
  pointer : Bytes.slice d'.file.bytes (d.file.header.offset + 9) 8 = Bytes.leBytes 8 e.sector.offset

theorem File.Written.stored {S : Type} [Segment S] [Register S] {seg : S} {f t : File} {image index : Bytes} {sec : Sector}
    (hw : File.Written seg f image sec index t) (hlo : HEADER ≤ f.header.offset) :
    Bytes.slice t.bytes f.header.offset image.length = image := by
  have hlen : (Header.serialize t.header).length = 16 := File.header_serialize_length t.header
  have hbytes : t.bytes = Bytes.land (Bytes.land f.bytes f.queue) _ := (hw.given.drained hw.drained).trans (Bytes.land_append _ _ _)
  generalize Bytes.land f.bytes f.queue = bytes at hbytes
  have himage : (Bytes.overlay bytes f.header.offset image).length = max bytes.length (f.header.offset + image.length) :=
    Bytes.overlay_length _
  have hindex : (Bytes.overlay (Bytes.overlay bytes f.header.offset image) (f.header.offset + image.length) index).length =
      max (Bytes.overlay bytes f.header.offset image).length (f.header.offset + image.length + index.length) :=
    Bytes.overlay_length _
  rw [HEADER] at hlo
  rw [hbytes]
  change Bytes.slice (Bytes.overlay (Bytes.overlay (Bytes.overlay bytes f.header.offset image)
    (f.header.offset + image.length) index) Header.OFFSET (Header.serialize t.header)) _ _ = _
  rw [Bytes.slice_overlay_after (by rw [Header.OFFSET]; omega) (by rw [hlen, Header.OFFSET]; omega),
    Bytes.slice_overlay_before (by omega) (Nat.le_refl _)]
  exact Bytes.slice_overlay_self

/-- What the run of a dataset keeps: the segments start behind the header and hold every listed buffer, and the file and
what waits to be written to it stay below the limit of the file system. -/
structure Dataset.Ordered (d : Dataset) : Prop where
  start : HEADER ≤ d.file.header.offset
  before : d.file.manifest.Before d.file.header.offset
  limit : d.file.bytes.length ≤ Fs.limit
  fits : d.file.stream.view.Fits

/-- A segment that means what it says where it is written. -/
def Seg.Proper (m : Manifest) : Seg → Prop
  | .schema s => ∃ fs : Fields, s = fs.schema s.name
  | @Seg.data fs a => (∃ rows : List (Row fs.types), a.data = Composite.collect rows ∧ rows ≠ [] ∧ rows.length < 2 ^ 64) ∧
      ∀ e, m.schemas.get? a.name = some e → a.Fits e
  | .bin _ => True

variable [LawfulFs]

section
variable {d : Dataset} {f : File} {image index : Bytes} {sec : Sector}

omit [LawfulFs] in
theorem File.Written.offset_eq {seg : Seg} (hw : File.Written seg d.file image sec index f) :
    f.header.offset = d.file.header.offset + image.length := hw.published.offset

theorem Dataset.Ordered.registers (h : d.Ordered) {fs : Fields} {a : Accumulator fs} {rows : List (Row fs.types)}
    (hdata : a.data = Composite.collect rows) (hne : rows ≠ []) (hrows : rows.length < 2 ^ 64)
    (hfits : ∀ e, d.file.manifest.schemas.get? a.name = some e → a.Fits e)
    (hw : File.Written (Seg.data a) d.file image sec index f) (map : Nat) :
    f.manifest.Before f.header.offset ∧ ∃ e descs, Registers d ⟨f, map⟩ a e descs := by
  obtain ⟨e, he⟩ : ∃ e, d.file.manifest.schemas.get? a.name = some e := by
    have hreserved := hw.reserved
    change (fun _ => ()) <$> okOr _ (d.file.manifest.schemas.get? a.name) = _ at hreserved
    cases hget : d.file.manifest.schemas.get? a.name with
    | some e => exact ⟨e, rfl⟩
    | none =>
      rw [hget] at hreserved
      cases hreserved
  have hfit := hfits e he
  have hlimit := LawfulFs.limit_lt
  have hend := Nat.le_trans hw.below (hw.limit h.limit)
  have hnext := hw.offset_eq
  have hstart := h.start
  have hwrap : wrap a sec.offset = .ok image := by
    rw [hw.offset]
    exact hw.wrapped
  obtain ⟨descs, hlen, hreg, hdescribes⟩ := register_describes he hfit.length hdata hne hrows (by rw [hw.offset]; exact hstart)
    hwrap (by rw [hw.offset]; omega)
  have hmanifest : f.manifest =
      { d.file.manifest with schemas := d.file.manifest.schemas.modify a.name fun _ => e.insert descs } := by
    rw [hw.manifest]
    exact congrArg Prod.snd hreg
  rw [hw.offset] at hdescribes
  have hstored := hw.stored hstart
  obtain ⟨hpointer, hlong⟩ := wrap_pointer hwrap
  refine ⟨?_, e, descs, he, hmanifest, hlen, ?_, hfit.types, ?_, ?_⟩
  · rw [hmanifest, hw.offset_eq]
    exact h.before.insert he hfit.length hlen hdescribes
  · intro j col desc hcol hdesc
    have hj : j < fs.types.length := by
      rw [← hfit.length]
      exact (List.getElem?_eq_some_iff.mp hcol).1
    obtain ⟨desc', hdesc', hd⟩ := hdescribes ⟨j, hj⟩
    have hsame : desc' = desc := Option.some.inj (hdesc'.symm.trans hdesc)
    subst hsame
    exact h.before.added he hcol hd.above
  · intro j
    obtain ⟨desc, hdesc, hd⟩ := hdescribes j
    obtain ⟨offset, s, hdescriptor⟩ := hd.described
    refine ⟨desc, offset, s, hdesc, hdescriptor, ?_⟩
    have habove := hd.above
    have hinside := hd.inside
    rw [← hd.slice]
    conv_rhs => rw [← hstored]
    rw [Bytes.slice_slice (by omega), show d.file.header.offset + (desc.sector.offset + HEADER - d.file.header.offset) =
      desc.sector.offset + HEADER by omega]
  · rw [← hfit.pointer, ← hpointer]
    conv_rhs => rw [← hstored]
    rw [Bytes.slice_slice (by omega)]

theorem Dataset.Ordered.written (h : d.Ordered) {seg : Seg} (hseg : seg.Proper d.file.manifest)
    (hw : File.Written seg d.file image sec index f) (map : Nat) : Dataset.Ordered ⟨f, map⟩ := by
  have hoffset := hw.offset_eq
  refine ⟨Nat.le_trans h.start (by change _ ≤ f.header.offset; omega), ?_, hw.limit h.limit, Stream.fits_of_nil hw.drained⟩
  have hbefore : d.file.manifest.Before f.header.offset := h.before.mono (by omega)
  cases seg with
  | schema s =>
    obtain ⟨fs, hs⟩ := hseg
    have hentry := hw.reserved
    change entry s d.file.manifest = .ok () at hentry
    change f.manifest.Before f.header.offset
    rw [hw.manifest]
    change (register s sec d.file.manifest).2.Before f.header.offset
    rw [hs] at hentry ⊢
    exact hbefore.schema sec hentry
  | data a =>
    obtain ⟨⟨rows, hdata, hne, hrows⟩, hfits⟩ := hseg
    exact (h.registers hdata hne hrows hfits hw map).1
  | bin b =>
    change f.manifest.Before f.header.offset
    rw [hw.manifest]
    exact hbefore.bin b sec

end

/-! ## One step of a dataset -/

/-- What keeps a step of a dataset from going wrong: an accumulator that holds records fits the schema of its name, the
medium fails before the segment is written or not at all, there is room for the segment and the manifest, and a file that is
opened again holds the header and the manifest that are in memory. -/
structure Dataset.Meets (d : Dataset) (e : Event) : Prop where
  fits : ∀ (fs : Fields) (a : Accumulator fs), e.op = .data a → Pending.isEmpty a = false →
    ∀ s, d.file.manifest.schemas.get? a.name = some s → a.Fits s
  timely : ∀ seg, e.op.seg? d = some seg → File.Timely seg (d.arm e.script).file seg.calls
  bounded : ∀ seg, e.op.seg? d = some seg → File.Bounded seg d.file
  reopens : e.op = .reopen → d.file.queue = [] ∧ OnDisk d.file.bytes d.file.header d.file.manifest []

namespace Dataset
variable {d d' : Dataset} {e : Event} {r : Res Answer}

/-- The accumulators that an operation writes were filled record by record. -/
def Filled (op : Op) : Prop := ∀ (fs : Fields) (a : Accumulator fs), op = .data a →
  ∃ rows : List (Row fs.types), a.data = Composite.collect rows ∧ rows.length < 2 ^ 64

omit [LawfulFs] in
theorem Meets.proper (h : d.Meets e) (hfilled : Filled e.op) {seg : Seg} (hseg : e.op.seg? d = some seg) :
    seg.Proper d.file.manifest := by
  obtain ⟨op, σ⟩ := e
  cases op with
  | schema fs name =>
    rw [Op.seg?] at hseg
    split at hseg
    · cases hseg
    · cases hseg
      exact ⟨fs, rfl⟩
  | data a =>
    rw [Op.seg?] at hseg
    by_cases hempty : Pending.isEmpty a = true
    · rw [if_pos hempty] at hseg
      cases hseg
    · rw [if_neg hempty] at hseg
      cases hseg
      obtain ⟨rows, hdata, hlt⟩ := hfilled _ a rfl
      refine ⟨⟨rows, hdata, ?_, hlt⟩, h.fits _ a rfl (by simpa using hempty)⟩
      rintro rfl
      apply hempty
      change Composite.isEmpty a.data = true
      rw [hdata, Composite.collect_nil]
      exact Composite.isEmpty_default _
  | bin b =>
    rw [Op.seg?] at hseg
    split at hseg
    · cases hseg
    · cases hseg
      exact trivial
  | reopen => cases hseg

omit [LawfulFs] in
theorem Meets.even (h : d.Meets e) (hfilled : Filled e.op) {seg : Seg} (hseg : e.op.seg? d = some seg) :
    seg.Even d.file.manifest := by
  have hproper := h.proper hfilled hseg
  cases seg with
  | data a => exact ⟨hproper.1, fun s hs => (hproper.2 s hs).length⟩
  | schema | bin => trivial

/-- A write that fails leaves the dataset in order, with the header and the manifest it had. -/
theorem Meets.refused (h : d.Meets e) (hordered : d.Ordered) (hfilled : Filled e.op) {seg : Seg} {fault : Fault} {f : File}
    (hseg : e.op.seg? d = some seg) (herror : File.write seg (d.arm e.script).file = (.error fault, f)) :
    f.manifest = d.file.manifest ∧ (d.withFile f).Ordered := by
  have hstopped : File.Stopped seg (d.arm e.script).file f := (File.write_triple seg _).error rfl herror
  have hbounded : File.Bounded seg (d.arm e.script).file := h.bounded seg hseg
  obtain ⟨hheader, hmanifest, hbroke⟩ := hstopped.spared fun image sec happ =>
    happ.completes hordered.start (h.even hfilled hseg) hbounded
      (((h.timely seg hseg).mono seg.seven_le_calls).appended happ)
  refine ⟨hmanifest, ?_, ?_, ?_, hbounded.fits hordered.fits hbroke⟩
  · change HEADER ≤ f.header.offset
    rw [hheader]
    exact hordered.start
  · change f.manifest.Before f.header.offset
    rw [hheader, hmanifest]
    exact hordered.before
  · obtain ⟨ws, hws, -⟩ := hbroke
    exact Nat.le_trans hws.view.extent (Nat.max_le.mpr ⟨hordered.limit, Nat.le_refl _⟩)

/-- A file that is opened again is found as it was. -/
theorem Meets.reopened [LawfulExtern] (h : d.Meets e) (hop : e.op = .reopen) {s : Stream}
    (hordered : d.Ordered) (hopen : Dataset.open (d.arm e.script).file.stream.reopened = (.ok d', s)) : d'.Ordered := by
  obtain ⟨hqueue, hstored⟩ := h.reopens hop
  rw [Stream.reopened, Stream.found_of_nil (s := (d.arm e.script).file.stream) hqueue] at hopen
  obtain ⟨⟨hbytes, hempty⟩, hheader, hmanifest, -⟩ := hstored.opened hopen
  refine ⟨?_, ?_, ?_, Stream.fits_of_nil hempty⟩
  · rw [hheader]
    exact hordered.start
  · rw [hheader, hmanifest]
    exact hordered.before
  · rw [hbytes]
    exact hordered.limit

theorem Ordered.step [LawfulExtern] (h : d.Ordered) (hmeets : d.Meets e) (hfilled : Filled e.op) (hstep : d.step e = (r, d')) :
    d'.Ordered := by
  have harm : (d.arm e.script).Ordered := ⟨h.start, h.before, h.limit, h.fits⟩
  have hperformed := Dataset.performed e.op (d.arm e.script)
  rw [show Dataset.perform e.op (d.arm e.script) = (r, d') from hstep] at hperformed
  have hwritten : ∀ {seg : Seg} {sector : Sector} {f : File} (map : Nat), e.op.seg? d = some seg →
      File.write seg (d.arm e.script).file = (.ok sector, f) → Dataset.Ordered ⟨f, map⟩ := by
    intro seg sector f map hseg hok
    obtain ⟨image, index, hw⟩ := (File.write_triple seg (d.arm e.script).file).ok rfl hok
    exact harm.written (hmeets.proper hfilled hseg) hw map
  obtain ⟨op, σ⟩ := e
  cases hperformed with
  | matched => exact harm
  | clashed => exact harm
  | ignored => exact harm
  | failed writes error => exact (hmeets.refused h hfilled writes error).2
  | @added fs name sector f vacant ok =>
    have hvacant : d.file.manifest.schemas.get? name = none := vacant
    have hseg : (Op.schema fs name).seg? d = some (.schema (fs.schema name)) := by rw [Op.seg?, hvacant]
    exact hwritten _ hseg ok
  | mapped _ writes ok => exact hwritten _ writes ok
  | unmapped _ writes ok => exact hwritten _ writes ok
  | opened ok => exact hmeets.reopened rfl h ok
  | closed => exact harm

end Dataset

/-! ## Fleets -/

/-- Several datasets, and the handles that any of them gave out. -/
structure Fleet where
  datasets : List Dataset
  handles : List Handle

def Answer.given : Res Answer → List Handle
  | .ok answer => answer.handles
  | .error _ => []

namespace Fleet

/-- A new file, or an operation on one of the datasets. -/
inductive Event
  | create (script : Script)
  | perform (i : Nat) (e : Msca.Event)

/-- Accumulators written come from some dataset. -/
def Legal (w : Fleet) : Op → Prop
  | .data a => ∃ rows, Obtained w.handles a rows
  | _ => True

inductive Step (w : Fleet) : Event → Fleet → Prop
  | create {σ : Script} {stream : Stream} {d : Dataset} (h : Dataset.new ⟨Fs.opened [], σ, []⟩ = (.ok d, stream)) :
      Step w (.create σ) ⟨w.datasets ++ [d], w.handles⟩
  | perform {i : Nat} {e : Msca.Event} {d d' : Dataset} {r : Res Answer} (found : w.datasets[i]? = some d)
      (legal : w.Legal e.op) (h : d.step e = (r, d')) :
      Step w (.perform i e) ⟨w.datasets.set i d', w.handles ++ Answer.given r⟩

def Meets (w : Fleet) : Event → Prop
  | .create _ => True
  | .perform i e => ∀ d, w.datasets[i]? = some d → d.Meets e

/-- What a run whose steps all meet the condition reaches. -/
def Reached (w : Fleet) : Prop := ∃ es, Run (fun w e t => Step w e t ∧ w.Meets e) ⟨[], []⟩ es w

/-- What such a run keeps. -/
structure Ordered (w : Fleet) : Prop where
  datasets : ∀ d ∈ w.datasets, d.Ordered
  handles : ∀ h ∈ w.handles, h.2.data = Composite.default h.1.types

omit [Extern] [LawfulFs] in
theorem Ordered.filled {w : Fleet} (h : w.Ordered) {op : Op} (legal : w.Legal op) : Dataset.Filled op := by
  rintro fs a rfl
  obtain ⟨rows, hrows⟩ := legal
  obtain ⟨hdata, hlt, -⟩ := hrows.filled h.handles
  exact ⟨rows, hdata, hlt⟩

omit [LawfulFs] in
theorem given_empty {d d' : Dataset} {e : Msca.Event} {r : Res Answer} (hstep : d.step e = (r, d')) :
    ∀ h ∈ Answer.given r, h.2.data = Composite.default h.1.types := by
  have hperformed := Dataset.performed e.op (d.arm e.script)
  rw [show Dataset.perform e.op (d.arm e.script) = (r, d') from hstep] at hperformed
  intro h hh
  obtain ⟨op, σ⟩ := e
  cases hperformed with
  | matched =>
    rw [List.mem_singleton.mp hh]
  | added =>
    rw [List.mem_singleton.mp hh]
  | clashed => cases hh
  | ignored => cases hh
  | failed => cases hh
  | mapped => cases hh
  | unmapped => cases hh
  | opened => cases hh
  | closed => cases hh

theorem new_ordered {σ : Script} {stream : Stream} {d : Dataset} (h : Dataset.new ⟨Fs.opened [], σ, []⟩ = (.ok d, stream)) :
    d.Ordered := by
  have hstart : Session.Starts ⟨d, [], []⟩ := ⟨σ, stream, h, rfl, rfl⟩
  have hconsistent := Session.Consistent.start hstart
  have hjournal : (HEADER, Manifest.default) = (d.file.header.offset, d.file.manifest) := hconsistent.journal
  obtain ⟨hoffset, hmanifest⟩ := Prod.mk.inj hjournal
  exact ⟨Nat.le_of_eq hoffset, by rw [← hmanifest]; exact Manifest.Before.default, hconsistent.stored.limit,
    Stream.fits_of_nil hconsistent.settled⟩

theorem Ordered.step [LawfulExtern] {w t : Fleet} {e : Event} (h : w.Ordered) (hstep : Step w e t)
    (hmeets : w.Meets e) : t.Ordered := by
  cases hstep with
  | create hnew =>
    refine ⟨fun d hd => ?_, h.handles⟩
    rcases List.mem_append.mp hd with hd | hd
    · exact h.datasets d hd
    · rw [List.mem_singleton.mp hd]
      exact new_ordered hnew
  | perform found legal hrun =>
    refine ⟨fun d hd => ?_, fun a ha => ?_⟩
    · rcases List.mem_or_eq_of_mem_set hd with hd | rfl
      · exact h.datasets d hd
      · exact (h.datasets _ (List.mem_of_getElem? found)).step (hmeets _ found) (h.filled legal) hrun
    · rcases List.mem_append.mp ha with ha | ha
      · exact h.handles a ha
      · exact given_empty hrun a ha

theorem Reached.ordered [LawfulExtern] {w : Fleet} (h : w.Reached) : w.Ordered := by
  obtain ⟨es, hrun⟩ := h
  exact hrun.invariant (fun _ _ _ hw hstep => hw.step hstep.1 hstep.2) ⟨by simp, by simp⟩

end Fleet

/-! ## Writes -/

/-- What the write of `a` on `d` should come to: an error that leaves the manifest alone, or the registration in the named
schema. An empty accumulator is ignored. -/
def Accumulator.Lands {fs : Fields} (a : Accumulator fs) (d : Dataset) (r : Res Answer) (d' : Dataset) : Prop :=
  match r with
  | .error _ => d'.file.manifest = d.file.manifest
  | .ok _ => if Pending.isEmpty a then d'.file.manifest = d.file.manifest else ∃ e descs, Registers d d' a e descs

namespace Fleet
variable {w : Fleet} {i : Nat} {d d' : Dataset} {fs : Fields} {a : Accumulator fs} {σ : Script} {r : Res Answer}

theorem Ordered.lands (h : w.Ordered) (found : w.datasets[i]? = some d) (legal : w.Legal (.data a))
    (hmeets : d.Meets ⟨.data a, σ⟩) (hstep : d.step ⟨.data a, σ⟩ = (r, d')) : a.Lands d r d' := by
  have hordered := h.datasets d (List.mem_of_getElem? found)
  have harm : (d.arm σ).Ordered := ⟨hordered.start, hordered.before, hordered.limit, hordered.fits⟩
  have hperformed := Dataset.performed (.data a) (d.arm σ)
  rw [show Dataset.perform (.data a) (d.arm σ) = (r, d') from hstep] at hperformed
  have hwritten : ∀ {seg : Seg} {sector : Sector} {f : File} (map : Nat), (Op.data a).seg? d = some seg →
      File.write seg (d.arm σ).file = (.ok sector, f) →
        Pending.isEmpty a = false ∧ (∃ e descs, Registers d ⟨f, map⟩ a e descs) ∧ ∃ n, f.mmap = .ok n := by
    intro seg sector f map hseg hok
    rw [Op.seg?] at hseg
    by_cases hempty : Pending.isEmpty a = true
    · rw [if_pos hempty] at hseg
      cases hseg
    · rw [if_neg hempty] at hseg
      cases hseg
      have hfits := hmeets.fits _ a rfl (by simpa using hempty)
      obtain ⟨image, index, hw⟩ := (File.write_triple (Seg.data a) (d.arm σ).file).ok rfl hok
      have hproper : Seg.Proper (d.arm σ).file.manifest (.data a) :=
        hmeets.proper (h.filled legal) (by rw [Op.seg?, if_neg hempty])
      obtain ⟨⟨rows, hdata, hne, hlt⟩, -⟩ := hproper
      obtain ⟨-, e, descs, hregisters⟩ := harm.registers hdata hne hlt hfits hw map
      have hoffset := hw.offset_eq
      have hstart := harm.start
      have hspared : Fs.fails (f.stream.script 0) = false := by
        have hcalls := (hmeets.timely (.data a) (by rw [Op.seg?, if_neg hempty])).appended hw.toAppended
        rw [hw.given.script]
        exact (Seg.within_calls.mp hcalls).2 rfl
      have hsame : Registers d ⟨f, map⟩ a e descs := ⟨hregisters.named, hregisters.manifest, hregisters.length,
        hregisters.added, hregisters.types, hregisters.described, hregisters.pointer⟩
      exact ⟨by simpa using hempty, ⟨e, descs, hsame⟩, _, File.mmap_of_le (by omega) hspared⟩
  cases hperformed with
  | ignored hnone n =>
    have hempty : Pending.isEmpty a = true := by
      by_contra hne
      rw [Op.seg?, if_neg hne] at hnone
      cases hnone
    change (if Pending.isEmpty a then _ else _)
    rw [if_pos hempty]
    rfl
  | failed writes error => exact (hmeets.refused hordered (h.filled legal) writes error).1
  | mapped _ writes ok =>
    obtain ⟨hempty, hregisters, -⟩ := hwritten _ writes ok
    change (if Pending.isEmpty a then _ else _)
    rw [if_neg (by simp [hempty])]
    exact hregisters
  | unmapped _ writes ok hmap =>
    obtain ⟨-, -, n, hn⟩ := hwritten 0 writes ok
    rw [hn] at hmap
    cases hmap

/-- A write that returned and registered what it should was one that fits. -/
theorem Ordered.fits_of_lands (h : w.Ordered) (found : w.datasets[i]? = some d) {answer : Answer}
    (hstep : d.step ⟨.data a, σ⟩ = (.ok answer, d')) (hne : Pending.isEmpty a = false) (hlands : a.Lands d (.ok answer) d')
    (s : Manifest.Schema) (hs : d.file.manifest.schemas.get? a.name = some s) : a.Fits s := by
  have hstart := (h.datasets d (List.mem_of_getElem? found)).start
  change (if Pending.isEmpty a then _ else ∃ e descs, Registers d d' a e descs) at hlands
  rw [if_neg (by simp [hne])] at hlands
  obtain ⟨e, descs, hregisters⟩ := hlands
  have hsame : e = s := Option.some.inj (hregisters.named.symm.trans hs)
  subst hsame
  refine ⟨hregisters.types, ?_⟩
  have hpointer : Bytes.slice d'.file.bytes (d.file.header.offset + 9) 8 = Bytes.leBytes 8 a.schema.offset := by
    have hperformed := Dataset.performed (.data a) (d.arm σ)
    rw [show Dataset.perform (.data a) (d.arm σ) = (.ok answer, d') from hstep] at hperformed
    generalize hr : (Except.ok answer : Res Answer) = r at hperformed
    cases hperformed with
    | ignored hnone =>
      rw [Op.seg?, if_neg (by simp [hne])] at hnone
      cases hnone
    | @mapped op seg sector f n map _ writes ok hmap =>
      rw [Op.seg?, if_neg (by simp [hne])] at writes
      cases writes
      obtain ⟨image, index, hw⟩ := (File.write_triple (Seg.data a) (d.arm σ).file).ok rfl ok
      have hstored : Bytes.slice f.bytes d.file.header.offset image.length = image := hw.stored hstart
      obtain ⟨hslice, hlong⟩ := wrap_pointer hw.wrapped
      rw [← hslice]
      conv_rhs => rw [← hstored]
      rw [Bytes.slice_slice (by omega)]
    | failed => cases hr
    | unmapped => cases hr
  exact Bytes.leBytes_inj a.schema.offset_lt e.sector.offset_lt (hpointer.symm.trans hregisters.pointer)

/-- In a run whose steps meet the condition so far, a write that meets it as well leaves the manifest alone or registers
the accumulator in the schema of its name; and of the writes that return records, only those that fit the schema do. -/
theorem lands_of_meets [LawfulExtern] (h : w.Reached) (found : w.datasets[i]? = some d) (legal : w.Legal (.data a))
    (hstep : d.step ⟨.data a, σ⟩ = (r, d')) : (d.Meets ⟨.data a, σ⟩ → a.Lands d r d') ∧
      ((∃ answer, r = .ok answer) → Pending.isEmpty a = false → a.Lands d r d' →
        ∀ s, d.file.manifest.schemas.get? a.name = some s → a.Fits s) := by
  refine ⟨fun hmeets => h.ordered.lands found legal hmeets hstep, ?_⟩
  rintro ⟨answer, rfl⟩ hne hlands s hs
  exact h.ordered.fits_of_lands found hstep hne hlands s hs

end Fleet

/-! ## Two files -/

namespace Fleet.Reached
variable {w : Fleet}

omit [LawfulFs] in
theorem create {σ : Script} {stream : Stream} {d : Dataset} (h : w.Reached)
    (hnew : Dataset.new ⟨Fs.opened [], σ, []⟩ = (.ok d, stream)) : Reached ⟨w.datasets ++ [d], w.handles⟩ := by
  have hmeets : w.Meets (.create σ) := trivial
  obtain ⟨es, hrun⟩ := h
  exact ⟨es ++ [.create σ], Run.snoc hrun ⟨Step.create hnew, hmeets⟩⟩

/-- An operation that returns meets the condition when its accumulator fits. -/
theorem meets_of_ok {d d' : Dataset} {e : Msca.Event} {answer : Answer} (h : d.Ordered) (hstep : d.step e = (.ok answer, d'))
    (hreopen : e.op ≠ .reopen) (fits : ∀ (fs : Fields) (a : Accumulator fs), e.op = .data a → Pending.isEmpty a = false →
      ∀ s, d.file.manifest.schemas.get? a.name = some s → a.Fits s) : d.Meets e := by
  have hwrites : ∀ seg, e.op.seg? d = some seg → ∃ image index sec f,
      File.Written seg (d.arm e.script).file image sec index f ∧ e.script.within seg.calls = false := by
    intro seg hseg
    obtain ⟨⟨sec, f, hok⟩, hmap⟩ := (Dataset.perform_ok_iff (d := d.arm e.script) hseg h.start).mp ⟨answer, d', hstep⟩
    obtain ⟨image, index, hw⟩ := (File.write_triple seg (d.arm e.script).file).ok rfl hok
    exact ⟨image, index, sec, f, hw, Seg.within_calls.mpr ⟨hw.given.spared, hmap⟩⟩
  refine ⟨fits, fun seg hseg _ _ => ?_, fun seg hseg => ?_, fun hop => absurd hop hreopen⟩
  · obtain ⟨-, -, -, -, -, hspared⟩ := hwrites seg hseg
    exact Or.inr hspared
  · obtain ⟨image, index, sec, f, hw, -⟩ := hwrites seg hseg
    have hbounded : File.Bounded seg (d.arm e.script).file := hw.bounded h.limit
    exact hbounded

theorem schema [LawfulExtern] {i : Nat} {d d' : Dataset} {fs : Fields} {name : String} {a : Accumulator fs} (h : w.Reached)
    (found : w.datasets[i]? = some d) (hx : Dataset.schema fs name d = (.ok a, d')) :
    Reached ⟨w.datasets.set i d', w.handles ++ [⟨fs, a⟩]⟩ := by
  have hop : d.step ⟨.schema fs name, d.file.stream.script⟩ = (.ok (.handle a), d') := Eff.bind_ok hx
  have hordered : d.Ordered := h.ordered.datasets d (List.mem_of_getElem? found)
  have hmeets : d.Meets ⟨.schema fs name, d.file.stream.script⟩ := meets_of_ok hordered hop (by simp) (by simp)
  have hlegal : w.Legal (.schema fs name) := trivial
  obtain ⟨es, hrun⟩ := h
  refine ⟨es ++ [.perform i ⟨.schema fs name, d.file.stream.script⟩], Run.snoc hrun ⟨Step.perform found hlegal hop, ?_⟩⟩
  intro d₁ hd₁
  rw [found] at hd₁
  cases hd₁
  exact hmeets

end Fleet.Reached

end

section
attribute [local instance] reference reference_lawful buffered buffered_lawful

/-- Records with one field. -/
def only (t : Item) : Fields where
  columns := ⟨[("x", t)], List.pairwise_singleton _ _⟩
  ne := List.cons_ne_nil _ _

theorem header_lt : HEADER < 2 ^ 64 := by decide

theorem lent_lt : 27 < 2 ^ 64 := by decide

/-- One record of a flag, for the schema of a new file. -/
def lent : Accumulator (only .bool) where
  data := Composite.collect [.cons true .nil]
  name := "s"
  schema := ⟨HEADER, 27, header_lt, Nat.succ_pos 26, lent_lt⟩

def borrow (t : Item) : Eff Fault Dataset Nat := do
  let _ ← Dataset.schema (only t) "s"
  Dataset.write lent

theorem lent_schema : (Dataset.launch (Dataset.schema (only .bool) "s")).map (fun p => (p.1.name, p.1.schema)) =
    some ("s", lent.schema) := by
  decide +kernel

/-- The accumulator is from the first of two files that know the schema by the same name. -/
theorem Fleet.lent_reached {t : Item} {n : Nat} {d' : Dataset} (h : Dataset.launch (borrow t) = some (n, d')) :
    ∃ (w : Fleet) (d : Dataset), w.Reached ∧ w.datasets[1]? = some d ∧ w.Legal (.data lent) ∧
      d.step ⟨.data lent, d.file.stream.script⟩ = (.ok (.count n), d') ∧
        (Dataset.launch (Dataset.schema (only t) "s")).map Prod.snd = some d := by
  obtain ⟨d₀, s₀, hnew, hrun⟩ := Dataset.launch_new h
  obtain ⟨b, d₁, hschema, hwrite⟩ := Eff.bind_eq_ok hrun
  have hlaunch : Dataset.launch (Dataset.schema (only t) "s") = some (b, d₁) := by
    rw [Dataset.launch, hnew]
    dsimp only
    rw [hschema]
  obtain ⟨d₂, s₂, a, dₐ, hnew', hschema', hfields⟩ := Dataset.launch_map lent_schema
  have hsame : d₂ = d₀ := by
    rw [hnew] at hnew'
    exact (Except.ok.inj (Prod.mk.inj hnew').1).symm
  subst hsame
  have hempty : Reached ⟨[], []⟩ := ⟨[], Run.nil _⟩
  have hfleet := ((hempty.create hnew).create hnew).schema (i := 0) rfl hschema'
  have hfleet := hfleet.schema (i := 1) rfl hschema
  have hlent : a.push (.cons true .nil) = .ok lent := by
    have hdata : a.data = Composite.default (only .bool).types :=
      hfleet.ordered.handles ⟨only .bool, a⟩ (List.mem_append_left _ (List.mem_append_right _ (List.mem_singleton_self _)))
    obtain ⟨hname, hsector⟩ := Prod.mk.inj hfields
    obtain ⟨data, name, sector⟩ := a
    cases hname
    cases hsector
    cases hdata
    rfl
  refine ⟨_, d₁, hfleet, rfl, ⟨[.cons true .nil], ?_⟩, ?_, ?_⟩
  · refine (Obtained.handle (List.mem_append_left _ (List.mem_append_right _ (List.mem_singleton_self _)))).push _
      (by decide) ?_ hlent
    rintro ⟨j, hj⟩
    cases j with
    | zero => exact (by decide : 1 < 2 ^ 61)
    | succ j => exact absurd (Nat.lt_of_succ_lt_succ hj) (Nat.not_lt_zero j)
  · exact Eff.bind_ok hwrite
  · rw [hlaunch]
    rfl

theorem lent_matches : (Dataset.launch (borrow .bool)).isSome = true ∧
    (Dataset.launch (Dataset.schema (only .bool) "s")).map (fun p => (p.2.file.manifest.schemas.get? "s").map fun e =>
      (e.columns.values.map Column.ty, e.sector.offset)) = some (some ([.bool], HEADER)) := by
  decide +kernel

/-- Written to a file that knows the same schema, it is registered there. -/
theorem Fleet.lands_of_meets_lent : ∃ (w : Fleet) (d d' : Dataset) (n : Nat), w.Reached ∧ w.datasets[1]? = some d ∧
    d.step ⟨.data lent, d.file.stream.script⟩ = (.ok (.count n), d') ∧ lent.Lands d (.ok (.count n)) d' := by
  obtain ⟨hlaunch, htypes⟩ := lent_matches
  obtain ⟨⟨n, d'⟩, hx⟩ := Option.isSome_iff_exists.mp hlaunch
  obtain ⟨w, d, hw, found, legal, hstep, hd⟩ := Fleet.lent_reached hx
  refine ⟨w, d, d', n, hw, found, hstep, (Fleet.lands_of_meets hw found legal hstep).1 ?_⟩
  refine Fleet.Reached.meets_of_ok (hw.ordered.datasets d (List.mem_of_getElem? found)) hstep (by simp) ?_
  intro fs a ha _ e he
  cases ha
  obtain ⟨⟨b, d₁⟩, hs, hd⟩ := Option.map_eq_some_iff.mp hd
  cases hd
  rw [hs] at htypes
  obtain ⟨e', he', hfields⟩ := Option.map_eq_some_iff.mp (Option.some.inj htypes)
  have hsame : e' = e := Option.some.inj (he'.symm.trans he)
  subst hsame
  obtain ⟨hty, hoffset⟩ := Prod.mk.inj hfields
  exact ⟨hty, hoffset.symm⟩

theorem lent_differs : (Dataset.launch (borrow (.prim (.plain (.uint .b1))))).isSome = true ∧
    (Dataset.launch (Dataset.schema (only (.prim (.plain (.uint .b1)))) "s")).map (fun p =>
      (p.2.file.manifest.schemas.get? "s").map fun e => e.columns.values.map Column.ty) =
        some (some [(Item.prim (.plain (.uint .b1))).type]) := by
  decide +kernel

/-- Written to a file where the name stands for a column of bytes, the flags are registered as bytes. -/
theorem Fleet.registers_foreign : ∃ (w : Fleet) (d d' : Dataset) (n : Nat), w.Reached ∧ w.datasets[1]? = some d ∧
    w.Legal (.data lent) ∧ d.step ⟨.data lent, d.file.stream.script⟩ = (.ok (.count n), d') ∧
      ¬ lent.Lands d (.ok (.count n)) d' := by
  obtain ⟨hlaunch, htypes⟩ := lent_differs
  obtain ⟨⟨n, d'⟩, hx⟩ := Option.isSome_iff_exists.mp hlaunch
  obtain ⟨w, d, hw, found, legal, hstep, hd⟩ := Fleet.lent_reached hx
  refine ⟨w, d, d', n, hw, found, legal, hstep, fun hlands => ?_⟩
  obtain ⟨⟨b, d₁⟩, hs, hd⟩ := Option.map_eq_some_iff.mp hd
  cases hd
  rw [hs] at htypes
  obtain ⟨e, he, hty⟩ := Option.map_eq_some_iff.mp (Option.some.inj htypes)
  have hfits := hw.ordered.fits_of_lands found hstep rfl hlands e he
  have hbool := hty.symm.trans hfits.types
  cases hbool

end
end Msca
