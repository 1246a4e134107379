import Msca.Crash
import Msca.Table

/-! What a reader goes on to see. Segments only join a dataset, behind those that are there: a reader keeps the records it
found when it opened the file, and one that opens the file later finds the same records first, and others behind them. -/
namespace Msca
set_option autoImplicit false
open Checked

/-! ## Manifests that grow -/

structure Column.Grows (c d : Column) : Prop where
  ty : d.ty = c.ty
  buffers : c.buffers.items <+: d.buffers.items

theorem Column.Grows.refl (c : Column) : c.Grows c := ⟨rfl, List.prefix_refl _⟩

/-- The schema has the sector and the columns it had, with more buffers behind those of a column. -/
structure Manifest.Schema.Grows (e e' : Manifest.Schema) : Prop where
  sector : e'.sector = e.sector
  keys : e'.columns.keys = e.columns.keys
  values : List.Forall₂ Column.Grows e.columns.values e'.columns.values

theorem Manifest.Schema.Grows.refl (e : Manifest.Schema) : e.Grows e :=
  ⟨rfl, rfl, List.forall₂_same.mpr fun c _ => Column.Grows.refl c⟩

theorem Manifest.Schema.Grows.trans {e e' e'' : Manifest.Schema} (h : e.Grows e') (h' : e'.Grows e'') : e.Grows e'' := by
  refine ⟨h'.sector.trans h.sector, h'.keys.trans h.keys, ?_⟩
  have htrans : ∀ {cs ds fs : List Column}, List.Forall₂ Column.Grows cs ds → List.Forall₂ Column.Grows ds fs →
      List.Forall₂ Column.Grows cs fs := by
    intro cs ds fs hcs
    induction hcs generalizing fs with
    | nil => exact fun hds => hds
    | cons hc _ ih =>
      intro hds
      cases hds with
      | cons hd hds => exact .cons ⟨hd.ty.trans hc.ty, hc.buffers.trans hd.buffers⟩ (ih hds)
  exact htrans h.values h'.values

structure Manifest.Grows (m m' : Manifest) : Prop where
  schemas : m.schemas.Grows Manifest.Schema.Grows m'.schemas
  bins : m.bins.Grows Eq m'.bins

theorem Manifest.Grows.refl (m : Manifest) : m.Grows m :=
  ⟨OrdMap.Grows.refl Manifest.Schema.Grows.refl _, OrdMap.Grows.refl Eq.refl _⟩

theorem Manifest.Grows.trans {m m' m'' : Manifest} (h : m.Grows m') (h' : m'.Grows m'') : m.Grows m'' :=
  ⟨h.schemas.trans Manifest.Schema.Grows.trans h'.schemas, h.bins.trans Eq.trans h'.bins⟩

section
variable [Extern]

/-! ## Commits -/

theorem Append.unique {s t t' : Nat × Manifest} {c : Commit} (h : Append s c t) (h' : Append s c t') : t = t' := by
  obtain ⟨-, hstop, -, -, sec, hoffset, hsize, hreg⟩ := h
  obtain ⟨-, hstop', -, -, sec', hoffset', hsize', hreg'⟩ := h'
  have hsec : sec = sec' := Sector.ext (hoffset.trans hoffset'.symm) (hsize.trans hsize'.symm)
  rw [hsec, hreg'] at hreg
  exact Prod.ext (hstop.symm.trans hstop') (Prod.mk.inj hreg).2.symm

/-- A listed buffer was cut from a segment. -/
theorem Index.buffer_column {cs : List Commit} {m : Manifest} (hi : Index cs m) {name : String} {e : Manifest.Schema}
    (he : m.schemas.get? name = some e) {j : Nat} {col : Column} (hcol : e.columns.values[j]? = some col)
    {b : Manifest.Buffer} (hb : b ∈ col.buffers.items) : ∃ c ∈ cs, c.Column j b := by
  obtain ⟨i, hi', rfl⟩ := List.getElem_of_mem hb
  have hall := hi.columns name e he j col hcol
  have hlen := hall.length_eq ▸ hi'
  exact ⟨_, (List.mem_filter.mp (List.getElem_mem hlen)).1, hall.get hlen hi'⟩

/-- The buffers of a data segment go behind those of its schema. -/
theorem Index.insert_grows {cs : List Commit} {m : Manifest} (hi : Index cs m) {name : String} {e : Manifest.Schema}
    (he : m.schemas.get? name = some e) {descs : List Manifest.Buffer} (hlen : descs.length = e.columns.values.length)
    {offset : Nat} (hbefore : ∀ d ∈ cs, d.stop ≤ offset) (habove : ∀ d ∈ descs, offset ≤ d.sector.offset + HEADER) :
    e.Grows (e.insert descs) := by
  obtain ⟨hkeys, hvalues⟩ := Manifest.Schema.insert_columns hlen
  refine ⟨rfl, hkeys, ?_⟩
  rw [hvalues]
  refine List.forall₂_iff_get.mpr ⟨by rw [List.length_zipWith, hlen, Nat.min_self], fun j hj hj' => ?_⟩
  have hjd : j < descs.length := hlen ▸ hj
  have hcol : e.columns.values[j]? = some e.columns.values[j] := List.getElem?_eq_getElem hj
  have hins : (e.columns.values[j].insert descs[j]).buffers.items = e.columns.values[j].buffers.items ++ [descs[j]] := by
    refine KeySet.insert_above fun b hb => Sector.key_lt_of_offset ?_
    have hb := hi.buffer_lt he hcol hbefore hb
    have hd := habove descs[j] (List.getElem_mem hjd)
    omega
  rw [List.get_eq_getElem, List.get_eq_getElem, List.getElem_zipWith]
  exact ⟨rfl, hins ▸ List.prefix_append _ _⟩

theorem Append.grows {cs : List Commit} {s t : Nat × Manifest} {c : Commit} (happend : Append s c t)
    (hsound : Sound s.2 c.seg) (hi : Index cs s.2) (hlo : HEADER ≤ s.1) (hbefore : ∀ d ∈ cs, d.stop ≤ s.1) :
    s.2.Grows t.2 := by
  obtain ⟨hstart, hstop, hlt, hentry, sec, hoffset, hsize, hreg⟩ := happend
  cases hseg : c.seg with
  | schema s' =>
    rw [hseg] at hentry hreg
    rw [← congrArg Prod.snd hreg]
    exact ⟨OrdMap.Grows.insertVacant Manifest.Schema.Grows.refl _ (schema_vacant hentry), OrdMap.Grows.refl Eq.refl _⟩
  | @data fs a =>
    have hwrap := c.wrapped
    rw [hseg] at hsound hreg hwrap
    rw [← hoffset] at hwrap
    rw [Commit.stop] at hstop
    obtain ⟨e, descs, he, hshape, hdescs, hreg', hdescribes⟩ := hsound.register (by omega) hwrap (by omega)
    change register a sec s.2 = _ at hreg
    rw [hreg'] at hreg
    rw [← congrArg Prod.snd hreg]
    refine ⟨OrdMap.Grows.modify Manifest.Schema.Grows.refl he ?_, OrdMap.Grows.refl Eq.refl _⟩
    refine hi.insert_grows he hdescs hbefore fun d hd => ?_
    obtain ⟨j, hj, rfl⟩ := List.getElem_of_mem hd
    have hj' : j < fs.types.length := by rw [← hshape.length, ← hdescs]; exact hj
    obtain ⟨d', hd', hdesc⟩ := hdescribes ⟨j, hj'⟩
    rw [List.getElem?_eq_getElem hj] at hd'
    cases hd'
    have habove := hdesc.above
    omega
  | bin b =>
    rw [hseg] at hentry hreg
    have hvacant := bin_vacant hentry
    rw [← congrArg Prod.snd hreg]
    cases hsector : b.sector sec with
    | error e =>
      have hsame : (register b sec s.2).2 = s.2 := by simp only [register, hsector]
      change s.2.Grows (register b sec s.2).2
      rw [hsame]
      exact .refl _
    | ok sector =>
      have hsame : (register b sec s.2).2 = { s.2 with bins := s.2.bins.insertVacant b.name sector } := by
        simp only [register, hsector]
      change s.2.Grows (register b sec s.2).2
      rw [hsame]
      exact ⟨OrdMap.Grows.refl Manifest.Schema.Grows.refl _, OrdMap.Grows.insertVacant Eq.refl _ hvacant⟩

theorem Journal.grows {cs ds : List Commit} {s t : Nat × Manifest}
    (h : Run (fun s c t => Append s c t ∧ Sound s.2 c.seg) s ds t) (hi : Index cs s.2) (hlo : HEADER ≤ s.1)
    (hbefore : ∀ c ∈ cs, c.stop ≤ s.1) : s.2.Grows t.2 := by
  induction ds generalizing cs s with
  | nil =>
    cases h
    exact .refl _
  | cons c ds ih =>
    obtain ⟨u, ⟨happend, hsound⟩, h⟩ := h
    have hindex : Index (cs ++ [c]) u.2 := Journal.index (.cons ⟨happend, hsound⟩ (.nil u)) hi hlo hbefore
    have hbounds := Append.bounds (.cons happend (.nil u))
    have hle := (hbounds.2 c List.mem_cons_self).2
    refine (happend.grows hsound hi hlo hbefore).trans (ih h hindex (Nat.le_trans hlo hbounds.1) fun d hd => ?_)
    rcases List.mem_append.mp hd with hd | hd
    · exact Nat.le_trans (hbefore d hd) hbounds.1
    · rw [List.mem_singleton.mp hd]
      exact hle

/-- The bytes between two states of a journal are the segments that were put down between them. -/
theorem Append.region {cs : List Commit} {s t : Nat × Manifest} (h : Run Append s cs t) {bytes : Bytes}
    (hstored : ∀ c ∈ cs, Bytes.slice bytes c.start c.image.length = c.image) :
    Bytes.slice bytes s.1 (t.1 - s.1) = cs.flatMap Commit.image := by
  induction cs generalizing s with
  | nil =>
    cases h
    rw [Nat.sub_self, Bytes.slice, List.take_zero]
    rfl
  | cons c cs ih =>
    obtain ⟨u, happend, h⟩ := h
    have hstep := (Append.bounds h).1
    obtain ⟨hstart, hstop, -⟩ := happend
    rw [Commit.stop] at hstop
    have hlen : t.1 - s.1 = c.image.length + (t.1 - u.1) := by omega
    rw [hlen, Bytes.slice_add, ← hstart, hstored c List.mem_cons_self, show c.start + c.image.length = u.1 from hstop,
      ih h fun d hd => hstored d (List.mem_cons_of_mem _ hd), List.flatMap_cons]

/-! ## Sessions that go on -/

variable [Fs]

namespace Session.Consistent
variable {s t : Session}

/-- Where a session has the commits of another and more, its manifest has grown from that of the other. -/
theorem grows (hs : s.Consistent) (ht : t.Consistent) (hcommits : s.commits <+: t.commits) :
    s.dataset.file.manifest.Grows t.dataset.file.manifest := by
  obtain ⟨cs, hcs⟩ := hcommits
  have hjournal := ht.journal
  rw [← hcs] at hjournal
  obtain ⟨u, hleft, hright⟩ := Run.append_iff.mp hjournal
  cases Run.unique (fun _ _ _ _ h h' => h.1.unique h'.1) hleft hs.journal
  exact Journal.grows hright hs.index hs.stored.start fun c hc => (hs.bounds c hc).2

/-- The bytes of the segments are the same in both files. -/
theorem region (hs : s.Consistent) (ht : t.Consistent) (hcommits : s.commits <+: t.commits) :
    Bytes.slice t.dataset.file.bytes HEADER (s.dataset.file.header.offset - HEADER) =
      Bytes.slice s.dataset.file.bytes HEADER (s.dataset.file.header.offset - HEADER) := by
  have hrun := hs.journal.mono fun _ _ _ h => h.1
  have hregion := Append.region hrun hs.stored.stored
  have hregion' := Append.region hrun fun c hc => ht.stored.stored c (hcommits.subset hc)
  exact hregion'.trans hregion.symm

end Session.Consistent

theorem Session.Turns.commits {s t : Session} {turn : Turn} (h : Turns s turn t) : s.commits <+: t.commits := by
  cases h with
  | event hstep =>
    cases hstep with
    | done => exact List.prefix_append _ _
    | refused => exact List.prefix_refl _
  | crash =>
    dsimp only
    split
    · exact List.prefix_refl _
    · exact List.prefix_append _ _

/-- What is read from `d` is what is read from `d'` first. -/
structure Dataset.Extended [Outcomes] (d d' : Dataset) : Prop where
  reads : ∀ name q, d.query name = .ok q → ∃ q', d'.query name = .ok q' ∧
    ∀ (t : Item) (h : t.decodable = true) label items, q.read t h label = .ok items →
      ∃ more, q'.read t h label = .ok (items ++ more)
  binary : ∀ name bytes, d.binary name = .ok bytes → d'.binary name = .ok bytes

variable [LawfulFs]

namespace Session.Consistent
variable {s t : Session}

/-- A listed buffer shows the same bytes in both maps. -/
theorem buffer_slice (hs : s.Consistent) (ht : t.Consistent) (hcommits : s.commits <+: t.commits) {name : String}
    {e : Manifest.Schema} (he : s.dataset.file.manifest.schemas.get? name = some e) {j : Nat} {col : Column}
    (hcol : e.columns.values[j]? = some col) {b : Manifest.Buffer} (hb : b ∈ col.buffers.items) :
    b.sector.slice t.dataset.mmap = b.sector.slice s.dataset.mmap := by
  obtain ⟨c, hc, hcolumn⟩ := hs.index.buffer_column he hcol hb
  unfold Commit.Column at hcolumn
  cases hseg : c.seg with
  | schema s' =>
    rw [hseg] at hcolumn
    exact hcolumn.elim
  | bin b' =>
    rw [hseg] at hcolumn
    exact hcolumn.elim
  | data a =>
    rw [hseg] at hcolumn
    obtain ⟨hj, hdesc⟩ := hcolumn
    have hpay : c.seg.payload = true := by rw [hseg]; rfl
    rw [hs.slice hc hpay hdesc.above hdesc.inside, ht.slice (hcommits.subset hc) hpay hdesc.above hdesc.inside]

theorem extended [Outcomes] (hs : s.Consistent) (ht : t.Consistent) (hcommits : s.commits <+: t.commits) :
    s.dataset.Extended t.dataset := by
  have hgrows := hs.grows ht hcommits
  constructor
  · intro name q hq
    obtain ⟨he, hmmap⟩ := Dataset.query_eq_ok hq
    obtain ⟨e', he', hschema⟩ := hgrows.schemas name q.schema he
    refine ⟨⟨t.dataset.mmap, e'⟩, by rw [Dataset.query, he'], fun ty hty label items hread => ?_⟩
    obtain ⟨col, hcol, htype, rfl⟩ := Query.read_eq_ok.mp hread
    obtain ⟨j, hkey, hvalue⟩ := OrdMap.getElem?_of_get? hcol
    obtain ⟨hj, hjcol⟩ := List.getElem?_eq_some_iff.mp hvalue
    have hj' : j < e'.columns.values.length := hschema.values.length_eq ▸ hj
    have hcolumn : col.Grows e'.columns.values[j] := hjcol ▸ hschema.values.get hj hj'
    have hcol' : e'.columns.get? label = some e'.columns.values[j] :=
      OrdMap.get?_of_getElem? (hschema.keys ▸ hkey) (List.getElem?_eq_getElem hj')
    obtain ⟨rest, hrest⟩ := hcolumn.buffers
    refine ⟨(@Src.intoIter ty.Val (ty.decode hty) rest t.dataset.mmap).map Outcomes.ofResult,
      Query.read_eq_ok.mpr ⟨_, hcol', hcolumn.ty.trans htype, ?_⟩⟩
    have hsame : @Src.intoIter ty.Val (ty.decode hty) col.buffers.items q.mmap =
        @Src.intoIter ty.Val (ty.decode hty) col.buffers.items t.dataset.mmap := by
      rw [hmmap]
      refine List.flatMap_congr fun b hb => ?_
      rw [Src.buffer, Src.buffer, hs.buffer_slice ht hcommits he hvalue hb]
    rw [hsame, ← List.map_append, ← hrest, Src.intoIter, Src.intoIter, Src.intoIter, List.flatMap_append]
  · intro name bytes hbytes
    unfold Dataset.binary at hbytes ⊢
    obtain ⟨sector, hget, hslice⟩ := bind_eq_ok.mp hbytes
    cases hbin : s.dataset.file.manifest.bins.get? name with
    | none =>
      rw [hbin] at hget
      cases hget
    | some sector' =>
      rw [hbin] at hget
      cases hget
      obtain ⟨_, hbin', rfl⟩ := hgrows.bins name sector hbin
      obtain ⟨c, hc, b, hseg, -, habove, hinside, -⟩ := hs.index.listed name sector hbin
      have hpay : c.seg.payload = true := by rw [hseg]; rfl
      rw [hbin', okOr_some, ok_bind, ht.slice (hcommits.subset hc) hpay habove hinside, ←
        hs.slice hc hpay habove hinside, hslice]

end Session.Consistent

/-! ## Readers -/

/-- The dataset while its file has these contents. -/
def Dataset.over (d : Dataset) (bytes : Bytes) : Dataset :=
  d.withFile (d.file.withStream { d.file.stream with handle := Fs.opened bytes })

/-- Another handle opens the file. -/
def Dataset.attached (d : Dataset) (σ : Script) : Res Dataset := (Dataset.open (d.arm σ).file.stream.reopened).1

theorem Session.Consistent.attached [LawfulExtern] {s : Session} (h : s.Consistent) {σ : Script} {d : Dataset}
    (hopen : s.dataset.attached σ = .ok d) : Consistent ⟨d, [], s.commits⟩ ∧ d.file.header = s.dataset.file.header ∧
      d.map + HEADER = s.dataset.file.header.offset := by
  unfold Dataset.attached at hopen
  rw [Stream.reopened, Stream.found_of_nil (s := (s.dataset.arm σ).file.stream) h.settled] at hopen
  obtain ⟨hsame, hheader, hmanifest, hmap⟩ := h.stored.opened (Prod.ext hopen rfl)
  exact ⟨(h.reopened hsame hheader hmanifest hmap).drop, hheader, hmap⟩

/-- However a session goes on, with crashes that are spared: a reader that opened the file reads what it did, its schemas
stay as they are, and one that opens the file later reads the same first. -/
theorem Session.readers_keep [LawfulExtern] [Outcomes] {o s t : Session} {before after : List Turn} (hstart : o.Starts)
    (hbefore : Run Turns o before s) (hafter : Run Turns s after t) {reader : Dataset} {σ : Script}
    (hopen : s.dataset.attached σ = .ok reader) :
    (∀ name, (reader.over t.dataset.file.bytes).query name = reader.query name) ∧
      (∀ name, (reader.over t.dataset.file.bytes).binary name = reader.binary name) ∧
        reader.file.manifest.Grows t.dataset.file.manifest ∧
          ∀ (later : Dataset) (ρ : Script), t.dataset.attached ρ = .ok later → reader.Extended later := by
  have hs : s.Consistent := hbefore.invariant (fun _ _ _ hs hturn => hs.turn hturn) (.start hstart)
  have ht : t.Consistent := hafter.invariant (fun _ _ _ hs hturn => hs.turn hturn) hs
  have hcommits : s.commits <+: t.commits := by
    refine hafter.invariant (I := fun r : Session => s.commits <+: r.commits) ?_ (List.prefix_refl _)
    exact fun _ _ _ hr hturn => hr.trans hturn.commits
  obtain ⟨hreader, hheader, hmap⟩ := hs.attached hopen
  have hmmap : (reader.over t.dataset.file.bytes).mmap = reader.mmap := by
    have hregion := hreader.region ht hcommits
    change Bytes.slice t.dataset.file.bytes HEADER (reader.file.header.offset - HEADER) = _ at hregion
    rw [hheader, ← hmap, Nat.add_sub_cancel] at hregion
    change Bytes.slice (Fs.view (Fs.opened t.dataset.file.bytes)).bytes HEADER reader.map = _
    rw [LawfulFs.opened]
    exact hregion
  refine ⟨fun name => ?_, fun name => ?_, hreader.grows ht hcommits, fun later ρ hlater => ?_⟩
  · unfold Dataset.query
    rw [hmmap]
    rfl
  · unfold Dataset.binary
    rw [hmmap]
    rfl
  · exact hreader.extended (ht.attached hlater).1 hcommits

end

/-! ## A reader between two writes -/

section
attribute [local instance] reference reference_lawful buffered buffered_lawful documented

/-- What a reader of the file finds under a name. -/
def Dataset.finds (d : Dataset) (name : String) : Option Bytes := do
  let reader ← (d.attached Script.calm).toOption
  (reader.binary name).toOption

/-- The write of a first note, and of a second one. -/
def noteEvent : Event := ⟨.bin noteBin, Script.calm⟩

def nextEvent : Event := ⟨.bin ⟨"b", [4]⟩, Script.calm⟩

theorem notes_written : (Dataset.launch (pure ())).map (fun p =>
    ((p.2.step noteEvent).1.toOption.isSome, ((p.2.step noteEvent).2.step nextEvent).1.toOption.isSome)) =
    some (true, true) := by
  decide +kernel

/-- A session that puts down two notes on a new file. -/
theorem Session.two_notes : ∃ o s t : Session, o.Starts ∧ (Dataset.launch (pure ())).map Prod.snd = some o.dataset ∧
    Run Turns o [.event noteEvent] s ∧ s.dataset = (o.dataset.step noteEvent).2 ∧
      Run Turns s [.event nextEvent] t ∧ t.dataset = (s.dataset.step nextEvent).2 := by
  obtain ⟨p, hp, hrun⟩ := Option.map_eq_some_iff.mp notes_written
  obtain ⟨d, w, hnew, hd⟩ := Dataset.launch_new hp
  cases hd
  obtain ⟨hfirst, hsecond⟩ := Prod.mk.inj hrun
  obtain ⟨a, ha⟩ := Option.isSome_iff_exists.mp hfirst
  obtain ⟨b, hb⟩ := Option.isSome_iff_exists.mp hsecond
  refine ⟨⟨p.2, [], []⟩, _, _, ⟨_, w, hnew, rfl, rfl⟩, by rw [hp]; rfl,
    .cons (.event (.done ⟨_, Bin.obtained _⟩ (Prod.ext (toOption_eq_some ha) rfl))) (.nil _), rfl,
    .cons (.event (.done ⟨_, Bin.obtained _⟩ (Prod.ext (toOption_eq_some hb) rfl))) (.nil _), rfl⟩

theorem notes_open : (Dataset.launch (pure ())).map (fun p =>
    ((p.2.step noteEvent).2.finds "note", ((p.2.step noteEvent).2.step nextEvent).2.finds "b")) =
    some (some [1, 2, 3], some [4]) := by
  decide +kernel

/-- The reader of a note while another note is written, and one that opens the file after that. -/
theorem Session.readers_keep_note : ∃ (o s t : Session) (reader later : Dataset), o.Starts ∧
    Run Turns o [.event noteEvent] s ∧ Run Turns s [.event nextEvent] t ∧
      s.dataset.attached Script.calm = .ok reader ∧ t.dataset.attached Script.calm = .ok later ∧
        (reader.over t.dataset.file.bytes).binary "note" = .ok [1, 2, 3] ∧ reader.Extended later := by
  obtain ⟨o, s, t, hstart, hnew, hbefore, hs, hafter, ht⟩ := Session.two_notes
  obtain ⟨p, hp, hrun⟩ := Option.map_eq_some_iff.mp notes_open
  rw [hp] at hnew
  rw [Option.some.inj hnew, ← hs, ← ht] at hrun
  obtain ⟨hreader, hlater⟩ := Prod.mk.inj hrun
  obtain ⟨reader, hopen, hnote⟩ := Option.bind_eq_some_iff.mp hreader
  obtain ⟨later, hopen', -⟩ := Option.bind_eq_some_iff.mp hlater
  have hopen := toOption_eq_some hopen
  have hopen' := toOption_eq_some hopen'
  obtain ⟨-, hbinary, -, hextended⟩ := Session.readers_keep hstart hbefore hafter hopen
  refine ⟨o, s, t, reader, later, hstart, hbefore, hafter, hopen, hopen', ?_, hextended later _ hopen'⟩
  rw [hbinary]
  exact toOption_eq_some hnote

end
end Msca
