import Msca.Base.Allotment
import Msca.Snapshot

/-! Where the manifest points. Whatever has been committed, the sectors of schemas, buffers and binary segments that the
manifest lists lie in the segment region, and no two of them share a byte. -/
namespace Msca
set_option autoImplicit false
open Checked

/-- A sector in the manifest: of a schema, of the `k`-th buffer of its `j`-th column, or of a binary segment. -/
inductive Place
  | schema (name : String)
  | buffer (name : String) (j k : Nat)
  | bin (name : String)
  deriving DecidableEq

/-- Start in the file, and size. Schemas are recorded by their offset in the file, the rest by that in the map. -/
def Manifest.region? (m : Manifest) : Place → Option (Nat × Nat)
  | .schema name => (m.schemas.get? name).map fun e => (e.sector.offset, e.sector.size)
  | .buffer name j k => do
    let e ← m.schemas.get? name
    let col ← e.columns.values[j]?
    let b ← col.buffers.items[k]?
    return (b.sector.offset + HEADER, b.sector.size)
  | .bin name => (m.bins.get? name).map fun s => (s.offset + HEADER, s.size)

theorem Manifest.region?_buffer {m : Manifest} {name : String} {j k : Nat} {r : Nat × Nat} :
    m.region? (.buffer name j k) = some r ↔ ∃ e col b, m.schemas.get? name = some e ∧ e.columns.values[j]? = some col ∧
      col.buffers.items[k]? = some b ∧ r = (b.sector.offset + HEADER, b.sector.size) := by
  unfold Manifest.region?
  simp only [Option.bind_eq_bind, Option.bind_eq_some_iff, Option.pure_def, Option.some.injEq]
  constructor
  · rintro ⟨e, he, col, hcol, b, hb, rfl⟩
    exact ⟨e, col, b, he, hcol, hb, rfl⟩
  · rintro ⟨e, col, b, he, hcol, hb, rfl⟩
    exact ⟨e, he, col, hcol, b, hb, rfl⟩

/-- The sectors of a manifest below `offset`, apart from one another. -/
abbrev Manifest.Tiled (m : Manifest) (offset : Nat) : Prop := Allotted m.region? HEADER offset

/-- The sectors that the descriptors of a data segment add to the columns of the schema `name`. -/
def Manifest.Schema.added (e : Manifest.Schema) (name : String) (descs : List Manifest.Buffer) : Place → Option (Nat × Nat)
  | .buffer k j i => do
    let col ← e.columns.values[j]?
    let d ← descs[j]?
    if k = name ∧ i = col.buffers.items.length then some (d.sector.offset + HEADER, d.sector.size) else none
  | _ => none

theorem Manifest.Schema.added_eq_some {e : Manifest.Schema} {name : String} {descs : List Manifest.Buffer} {p : Place}
    {r : Nat × Nat} : e.added name descs p = some r ↔ ∃ j col d, p = .buffer name j col.buffers.items.length ∧
      e.columns.values[j]? = some col ∧ descs[j]? = some d ∧ r = (d.sector.offset + HEADER, d.sector.size) := by
  constructor
  · intro h
    cases p with
    | schema k => cases h
    | bin k => cases h
    | buffer k j i =>
      obtain ⟨col, hcol, h⟩ := Option.bind_eq_some_iff.mp h
      obtain ⟨d, hd, h⟩ := Option.bind_eq_some_iff.mp h
      obtain ⟨⟨hname, hi⟩, h⟩ := Option.ite_none_right_eq_some.mp h
      exact ⟨j, col, d, by rw [hname, hi], hcol, hd, (Option.some.inj h).symm⟩
  · rintro ⟨j, col, d, rfl, hcol, hd, rfl⟩
    simp [added, hcol, hd]

/-- The descriptors of one data segment lie in it, one behind the other. -/
theorem Agrees.allotted {o : Nat} {bytes : Bytes} {bodies : List Bytes} {descs : List Manifest.Buffer}
    (h : Agrees o bytes bodies descs) (e : Manifest.Schema) (name : String) :
    Allotted (e.added name descs) o (o + bytes.length) where
  inside p r hr := by
    obtain ⟨j, col, d, rfl, hcol, hd, rfl⟩ := Manifest.Schema.added_eq_some.mp hr
    have hmem := List.mem_of_getElem? hd
    have habove := h.addressed d hmem
    have hinside := h.inside d hmem
    have hpos := d.sector.size_pos
    exact ⟨habove, by dsimp only; omega⟩
  disjoint p q r s hne hr hs := by
    obtain ⟨i, col, d, rfl, hcol, hd, rfl⟩ := Manifest.Schema.added_eq_some.mp hr
    obtain ⟨j, col', d', rfl, hcol', hd', rfl⟩ := Manifest.Schema.added_eq_some.mp hs
    have hpair := List.pairwise_iff_getElem.mp h.disjoint
    obtain ⟨hi, rfl⟩ := List.getElem?_eq_some_iff.mp hd
    obtain ⟨hj, rfl⟩ := List.getElem?_eq_some_iff.mp hd'
    rcases Nat.lt_trichotomy i j with hij | rfl | hij
    · have hle := hpair i j hi hj hij
      exact Or.inl (by dsimp only; omega)
    · rw [hcol] at hcol'
      cases hcol'
      exact absurd rfl hne
    · have hle := hpair j i hj hi hij
      exact Or.inr (by dsimp only; omega)

/-! ## Registration -/

section
variable {m : Manifest} {offset stop : Nat}

theorem Manifest.Tiled.schema (h : m.Tiled offset) (hlo : HEADER ≤ offset) {fs : Fields} {name : String} {sec : Sector}
    (hvacant : m.schemas.get? name = none) (hsec : offset ≤ sec.offset) (hstop : sec.offset + sec.size ≤ stop) :
    ({ m with schemas := m.schemas.insertVacant name ⟨sec, (fs.schema name).map⟩ } : Manifest).Tiled stop := by
  refine h.join (.single (p := .schema name) (r := (sec.offset, sec.size)) hsec hstop) hlo (by omega) fun p r hr => ?_
  cases p with
  | bin k => exact Or.inl hr
  | schema k =>
    by_cases hname : name = k
    · subst hname
      rw [Manifest.region?, OrdMap.get?_insertVacant_self _ hvacant] at hr
      exact Or.inr ((if_pos rfl).trans hr)
    · rw [Manifest.region?, OrdMap.get?_insertVacant_ne _ hvacant hname] at hr
      exact Or.inl hr
  | buffer k j i =>
    obtain ⟨e, col, b, he, hcol, hb, rfl⟩ := Manifest.region?_buffer.mp hr
    by_cases hname : name = k
    · subst hname
      rw [OrdMap.get?_insertVacant_self _ hvacant] at he
      cases he
      -- a column starts without buffers
      rw [fs.map_values name, List.getElem?_map] at hcol
      obtain ⟨ty, -, rfl⟩ := Option.map_eq_some_iff.mp hcol
      cases hb
    · rw [OrdMap.get?_insertVacant_ne _ hvacant hname] at he
      exact Or.inl (Manifest.region?_buffer.mpr ⟨e, col, b, he, hcol, hb, rfl⟩)

theorem Manifest.Tiled.bin (h : m.Tiled offset) (hlo : HEADER ≤ offset) {name : String} {sec : Sector}
    (hvacant : m.bins.get? name = none) (hsec : offset ≤ sec.offset + HEADER) (hstop : sec.offset + HEADER + sec.size ≤ stop) :
    ({ m with bins := m.bins.insertVacant name sec } : Manifest).Tiled stop := by
  refine h.join (.single (p := .bin name) (r := (sec.offset + HEADER, sec.size)) hsec hstop) hlo (by omega) fun p r hr => ?_
  cases p with
  | schema k => exact Or.inl hr
  | buffer k j i => exact Or.inl hr
  | bin k =>
    by_cases hname : name = k
    · subst hname
      rw [Manifest.region?, OrdMap.get?_insertVacant_self _ hvacant] at hr
      exact Or.inr ((if_pos rfl).trans hr)
    · rw [Manifest.region?, OrdMap.get?_insertVacant_ne _ hvacant hname] at hr
      exact Or.inl hr

theorem Manifest.Tiled.data (h : m.Tiled offset) (hlo : HEADER ≤ offset) {name : String} {e : Manifest.Schema}
    (he : m.schemas.get? name = some e) {descs : List Manifest.Buffer} (hlen : descs.length = e.columns.values.length)
    {bytes : Bytes} {bodies : List Bytes} (hagrees : Agrees offset bytes bodies descs) :
    ({ m with schemas := m.schemas.modify name fun _ => e.insert descs } : Manifest).Tiled (offset + bytes.length) := by
  obtain ⟨-, hvalues⟩ := Manifest.Schema.insert_columns hlen
  refine h.join (hagrees.allotted e name) hlo (Nat.le_add_right _ _) fun p r hr => ?_
  cases p with
  | bin k => exact Or.inl hr
  | schema k =>
    refine Or.inl ?_
    by_cases hname : name = k
    · subst hname
      rw [Manifest.region?, OrdMap.get?_modify_self _ he] at hr
      rw [Manifest.region?, he]
      exact hr
    · rw [Manifest.region?, OrdMap.get?_modify_ne _ hname] at hr
      exact hr
  | buffer k j i =>
    obtain ⟨e', col, b, he', hcol, hb, rfl⟩ := Manifest.region?_buffer.mp hr
    by_cases hname : name = k
    · subst hname
      rw [OrdMap.get?_modify_self _ he] at he'
      cases he'
      rw [hvalues, List.getElem?_zipWith_eq_some] at hcol
      obtain ⟨old, d, hold, hd, rfl⟩ := hcol
      have habove := hagrees.addressed d (List.mem_of_getElem? hd)
      -- the new buffer goes behind the others, which lie in front of the segment
      have hins : (old.insert d).buffers.items = old.buffers.items ++ [d] := by
        refine KeySet.insert_above fun b hb => Sector.key_lt_of_offset ?_
        obtain ⟨k, hk⟩ := List.getElem?_of_mem hb
        have hbelow := (h.inside (.buffer name j k) _ (Manifest.region?_buffer.mpr ⟨e, old, b, he, hold, hk, rfl⟩)).2
        have hpos := b.sector.size_pos
        dsimp only at hbelow
        omega
      rw [hins] at hb
      by_cases hlt : i < old.buffers.items.length
      · rw [List.getElem?_append_left hlt] at hb
        exact Or.inl (Manifest.region?_buffer.mpr ⟨e, old, b, he, hold, hb, rfl⟩)
      · have hle := Nat.le_of_not_lt hlt
        rw [List.getElem?_append_right hle] at hb
        have hi : i = old.buffers.items.length := by
          have hone := (List.getElem?_eq_some_iff.mp hb).1
          rw [List.length_singleton] at hone
          omega
        subst hi
        rw [Nat.sub_self] at hb
        cases Option.some.inj hb
        exact Or.inr (Manifest.Schema.added_eq_some.mpr ⟨j, old, _, rfl, hold, hd, rfl⟩)
    · rw [OrdMap.get?_modify_ne _ hname] at he'
      exact Or.inl (Manifest.region?_buffer.mpr ⟨e', col, b, he', hcol, hb, rfl⟩)

end

theorem Manifest.tiled_default : Manifest.default.Tiled HEADER := .none fun p => by cases p <;> rfl

section
variable [Extern] {s t : Nat × Manifest} {c : Commit}

/-- A segment that is put behind the others and registered takes sectors of its own. -/
theorem Append.tiled (happend : Append s c t) (hsound : Sound s.2 c.seg) (h : s.2.Tiled s.1) (hlo : HEADER ≤ s.1) :
    t.2.Tiled t.1 := by
  obtain ⟨hstart, hstop, hlt, hentry, sec, hoffset, hsize, hreg⟩ := happend
  have hwrap := c.wrapped
  rw [Commit.stop] at hstop
  cases hseg : c.seg with
  | schema s' =>
    rw [hseg] at hsound hentry hreg
    obtain ⟨fs, hfs⟩ := hsound
    rw [← congrArg Prod.snd hreg]
    have hvacant := schema_vacant hentry
    rw [hfs]
    exact h.schema hlo hvacant (by omega) (by omega)
  | @data fs a =>
    rw [hseg] at hsound hreg hwrap
    obtain ⟨e, rows, he, hshape, hdata, hne, hrows, -⟩ := hsound
    have hwrap : wrap a sec.offset = .ok c.image := hoffset ▸ hwrap
    have hstep : a.data.Lockstep rows.length := by
      rw [hdata]
      exact Composite.lockstep_collect rows
    obtain ⟨descs, hin, hdescs⟩ := registerIn_described hstep (List.length_pos_iff.mpr hne) hrows
      (by rw [HEADER] at hlo; omega) hwrap (by omega) hshape.length
    have hlen : descs.length = e.columns.values.length := hdescs.length_eq.trans hshape.length.symm
    have hreg' : register a sec s.2 =
        (.ok (), { s.2 with schemas := s.2.schemas.modify a.name fun _ => e.insert descs }) := by
      simp only [register, he, hin]
      rfl
    change register a sec s.2 = _ at hreg
    rw [hreg'] at hreg
    have hagrees := hdescs.agrees (by rw [HEADER] at hlo; omega) hwrap
    rw [hoffset, hstart] at hagrees
    rw [← congrArg Prod.snd hreg, ← hstop, hstart]
    exact h.data hlo he hlen hagrees
  | bin b =>
    rw [hseg] at hentry hreg hwrap
    have hvacant := bin_vacant hentry
    have hwrap : wrap b sec.offset = .ok c.image := hoffset ▸ hwrap
    obtain ⟨sector, hreg', hpos, hbytes⟩ := bin_register (by rw [HEADER] at hlo; omega) hwrap (by omega) s.2
    obtain ⟨-, hinside⟩ := bin_slice hwrap
    have hup := le_roundUp (sec.offset + 9)
    have hpositive := sector.size_pos
    change register b sec s.2 = _ at hreg
    rw [hreg'] at hreg
    rw [← congrArg Prod.snd hreg]
    refine h.bin hlo hvacant ?_ ?_
    · rw [HEADER] at hlo ⊢
      omega
    · rw [HEADER] at hlo ⊢
      omega

variable [Fs]

variable [LawfulFs]

/-- However a session has gone, with crashes that were spared: all sectors in the manifest lie between the header and the
manifest on disk, and no two of them overlap. -/
theorem Session.sectors_tiled [LawfulExtern] {o u : Session} {turns : List Turn} (hstart : o.Starts)
    (hrun : Run Turns o turns u) :
    u.dataset.file.header.offset ≤ u.dataset.file.bytes.length ∧
      (∀ p r, u.dataset.file.manifest.region? p = some r →
        HEADER ≤ r.1 ∧ r.1 + r.2 ≤ u.dataset.file.header.offset) ∧
      ∀ p q r r', p ≠ q → u.dataset.file.manifest.region? p = some r → u.dataset.file.manifest.region? q = some r' →
        r.1 + r.2 ≤ r'.1 ∨ r'.1 + r'.2 ≤ r.1 := by
  have hu : u.Consistent := hrun.invariant (fun _ _ _ hs hturn => hs.turn hturn) (.start hstart)
  have htiled : HEADER ≤ u.dataset.file.header.offset ∧ u.dataset.file.manifest.Tiled u.dataset.file.header.offset := by
    refine hu.journal.invariant (I := fun s : Nat × Manifest => HEADER ≤ s.1 ∧ s.2.Tiled s.1) ?_
      ⟨Nat.le_refl _, Manifest.tiled_default⟩
    rintro s c t ⟨hlo, hs⟩ ⟨happend, hsound⟩
    exact ⟨Nat.le_trans hlo (Append.bounds (.cons happend (.nil t))).1, happend.tiled hsound hs hlo⟩
  have hbelow := hu.stored.below
  exact ⟨by omega, htiled.2.inside, htiled.2.disjoint⟩

end

/-! ## Two notes -/

section
attribute [local instance] reference reference_lawful buffered buffered_lawful

theorem notes_listed : (Dataset.launch (pure ())).map (fun p =>
    let manifest := ((p.2.step noteEvent).2.step nextEvent).2.file.manifest
    (manifest.region? (.bin "note"), manifest.region? (.bin "b"))) = some (some (40, 3), some (64, 1)) := by
  decide +kernel

theorem Session.sectors_tiled_notes : ∃ o u : Session, o.Starts ∧ Run Turns o [.event noteEvent, .event nextEvent] u ∧
    u.dataset.file.manifest.region? (.bin "note") = some (40, 3) ∧
      u.dataset.file.manifest.region? (.bin "b") = some (64, 1) ∧ 64 + 1 ≤ u.dataset.file.header.offset := by
  obtain ⟨o, s, t, hstart, hnew, hbefore, hs, hafter, ht⟩ := Session.two_notes
  obtain ⟨p, hp, hrun⟩ := Option.map_eq_some_iff.mp notes_listed
  rw [hp] at hnew
  rw [Option.some.inj hnew, ← hs, ← ht] at hrun
  obtain ⟨hnote, hb⟩ := Prod.mk.inj hrun
  have hruns : Run Turns o [.event noteEvent, .event nextEvent] t := Run.append_iff.mpr ⟨s, hbefore, hafter⟩
  obtain ⟨-, hinside, -⟩ := Session.sectors_tiled hstart hruns
  exact ⟨o, t, hstart, hruns, hnote, hb, (hinside _ _ hb).2⟩

end
end Msca
