import Msca.History

/-! A process that stops within a write. The segment goes over the manifest that the header still names, so the file opens
again only if the process stopped before its first byte, or once the header names the manifest behind the segment. -/
namespace Msca
set_option autoImplicit false
open Checked

section
variable [Extern] [Fs]

variable [LawfulFs]

namespace File
variable {S : Type} [Segment S] [Register S]

/-- The writes of `File::write`, in order. -/
def writes (seg : S) (f : File) : List Bytes.Write := (write seg f).2.stream.log.drop f.stream.log.length

/-- After `n` bytes the segment and the manifest behind it are on disk, and the header names that manifest: what it still
lacks is there already. -/
def Lands (seg : S) (f : File) (n : Nat) : Prop :=
  ∃ image index sec header, Appended seg f image sec ∧ (register seg sec f.manifest).1 = .ok () ∧
    Published (register seg sec f.manifest).2 (f.header.offset + image.length) index header ∧
      f.header.offset + image.length + index.length ≤ Fs.limit ∧ image.length + index.length ≤ n ∧
        (Header.serialize header).drop (n - (image.length + index.length)) =
          (Bytes.slice f.bytes Header.OFFSET 16).drop (n - (image.length + index.length))

/-- Nothing is written yet, or all that matters. -/
def Spares (seg : S) (f : File) (n : Nat) : Prop := n = 0 ∨ Lands seg f n

omit [LawfulFs] in
theorem Written.writes {seg : S} {f t : File} {image index : Bytes} {sec sec' : Sector} (hw : Written seg f image sec index t)
    (hx : write seg f = (.ok sec', t)) : writes seg f = records f.header.offset image index t.header := by
  rw [File.writes, hx, hw.given.log, List.drop_left]

omit [Extern] [Fs] in
/-- All but the last bytes of the header, which are there, make the three writes whole. -/
theorem records_front {bytes image index : Bytes} {o n : Nat} {header : Sector} (hstart : HEADER ≤ o) (hle : o ≤ bytes.length)
    (himage : image ≠ []) (hindex : index ≠ []) (hn : image.length + index.length ≤ n)
    (hdrop : (Header.serialize header).drop (n - (image.length + index.length)) =
      (Bytes.slice bytes Header.OFFSET 16).drop (n - (image.length + index.length))) :
    Bytes.land bytes (Bytes.front (records o image index header) n) = Bytes.land bytes (records o image index header) := by
  have hlen := header_serialize_length header
  rw [HEADER] at hstart
  generalize hfirst : Bytes.overlay bytes o image = first
  generalize hsecond : Bytes.overlay first (o + image.length) index = second
  have h1 : first.length = max bytes.length (o + image.length) := hfirst ▸ Bytes.overlay_length image
  have h2 : second.length = max first.length (o + image.length + index.length) := hsecond ▸ Bytes.overlay_length index
  have hregion : Bytes.slice second Header.OFFSET 16 = Bytes.slice bytes Header.OFFSET 16 := by
    rw [← hsecond, Bytes.slice_overlay_before (by omega) (by rw [Header.OFFSET]; omega), ← hfirst,
      Bytes.slice_overlay_before hle (by rw [Header.OFFSET]; omega)]
  rw [records, Bytes.front_cons himage (by omega), Bytes.front_cons hindex (by omega), Nat.sub_sub, Bytes.land_cons,
    Bytes.land_cons, Bytes.land_cons, Bytes.land_cons, hfirst, hsecond,
    Bytes.land_front_singleton (by rw [Header.OFFSET]; omega)]
  refine Bytes.overlay_take ?_ ?_
  · rw [hlen, Header.OFFSET]
    omega
  · rw [hlen, hregion]
    exact hdrop

/-- On a sound medium a write that has landed is as good as done. -/
theorem Lands.written {seg : S} {f : File} {n : Nat} (h : Lands seg f n) (hscript : f.stream.script = Script.calm)
    (hqueue : f.queue = []) (hstart : HEADER ≤ f.header.offset) (hle : f.header.offset ≤ f.bytes.length) :
    ∃ sec t, write seg f = (.ok sec, t) ∧ Bytes.land f.bytes (Bytes.front (writes seg f) n) = t.bytes := by
  obtain ⟨image, index, sec, header, happ, hreg, hpub, hlimit, hn, hdrop⟩ := h
  rcases write_triple seg f f rfl with ⟨sec', t, hx, image', index', hw⟩ | ⟨fault, t, hx, hstop⟩
  · obtain ⟨rfl, rfl⟩ := happ.unique hw.toAppended
    have hindex : index' = index := Except.ok.inj (hw.published.wrapped.symm.trans hpub.wrapped)
    subst hindex
    have hheader : t.header = header :=
      Sector.ext (hw.published.offset.trans hpub.offset.symm) (hw.published.size.trans hpub.size.symm)
    refine ⟨sec', t, hx, ?_⟩
    rw [hw.writes hx, hw.bytes_eq hqueue, hheader]
    exact records_front hstart hle happ.ne hpub.ne hn hdrop
  · exfalso
    cases hstop with
    | refused h =>
      exact h ⟨happ.reserved, image, happ.wrapped, happ.ne, happ.spared, Stream.fits_of_nil hqueue, by omega⟩
    | registered h unfit =>
      obtain ⟨rfl, rfl⟩ := happ.unique h
      refine unfit ⟨hreg, ?_, ⟨index, hpub.wrapped, hpub.ne, hlimit⟩, by omega⟩
      rw [hscript]
      exact Script.within_calm 7

end File

/-! ## Crashes in a session -/

/-- What the file holds when the process stops once `n` bytes of what `op` writes have reached it. -/
def Op.crashed (op : Op) (d : Dataset) (n : Nat) : Bytes :=
  match op.seg? d with
  | none => d.file.bytes
  | some seg => Bytes.land d.file.bytes (Bytes.front (File.writes seg (d.arm Script.calm).file) n)

def Op.Spares (op : Op) (d : Dataset) (n : Nat) : Prop :=
  ∀ seg, op.seg? d = some seg → File.Spares seg (d.arm Script.calm).file n

/-- An operation, or a crash `n` bytes into one after which the file is opened again. -/
inductive Turn
  | event (e : Event)
  | crash (op : Op) (n : Nat) (script : Script)

namespace Session

/-- An operation that returns or changes nothing, or a crash that is spared. -/
inductive Turns (s : Session) : Turn → Session → Prop
  | event {e : Event} {t : Session} (h : Step s e t) : Turns s (.event e) t
  | crash {op : Op} {n : Nat} {σ : Script} {d : Dataset} {u : Stream} (legal : s.Legal op)
      (spares : op.Spares s.dataset n) (ok : Dataset.open ⟨Fs.opened (op.crashed s.dataset n), σ, []⟩ = (.ok d, u)) :
      Turns s (.crash op n σ) ⟨d, [], if n = 0 then s.commits else s.commits ++ op.committed s.dataset⟩

/-- The manifest that stands after a crash. -/
def after (s : Session) (op : Op) (n : Nat) : Manifest :=
  match op.seg? s.dataset with
  | none => s.dataset.file.manifest
  | some seg => if n = 0 then s.dataset.file.manifest else (File.write seg (s.dataset.arm Script.calm).file).2.manifest

namespace Consistent
variable {s : Session}

omit [LawfulFs] in
theorem drop (h : s.Consistent) : Consistent ⟨s.dataset, [], s.commits⟩ :=
  ⟨h.journal, h.stored, fun _ hh => absurd hh List.not_mem_nil, h.map_le, h.mapped, h.settled⟩

/-- A crash that is spared leaves the file of a consistent session. -/
theorem crashed (h : s.Consistent) {op : Op} {n : Nat} (hlegal : s.Legal op) (hspares : op.Spares s.dataset n) :
    ∃ d : Dataset, d.file.bytes = op.crashed s.dataset n ∧ d.file.manifest = s.after op n ∧
      Consistent ⟨d, s.handles, if n = 0 then s.commits else s.commits ++ op.committed s.dataset⟩ := by
  unfold Op.crashed Session.after
  cases hseg : op.seg? s.dataset with
  | none =>
    rw [Op.committed_none hseg, List.append_nil, ite_self]
    exact ⟨s.dataset, rfl, rfl, h⟩
  | some seg =>
    dsimp only
    rcases hspares seg hseg with rfl | hlands
    · rw [if_pos rfl, if_pos rfl, Bytes.front]
      exact ⟨s.dataset, rfl, rfl, h⟩
    · have hn : n ≠ 0 := by
        rintro rfl
        obtain ⟨image, index, sec, header, happ, -, -, -, hle, -⟩ := hlands
        exact happ.ne (List.length_eq_zero_iff.mp (by omega))
      have harm := h.same (s.dataset.arm_same Script.calm)
      have hbelow := h.stored.below
      obtain ⟨sec, t, hx, hbytes⟩ := hlands.written rfl h.settled h.stored.start (by
        change s.dataset.file.header.offset ≤ s.dataset.file.bytes.length
        omega)
      obtain ⟨image, index, hw⟩ := (File.write_triple seg _).ok rfl hx
      have hgrow : s.dataset.file.header.offset ≤ t.header.offset := hw.published.offset ▸ Nat.le_add_right _ _
      have hmap := h.map_le
      have hwritten : Consistent ⟨⟨t, t.header.offset - HEADER⟩, s.handles, s.commits ++ op.committed s.dataset⟩ :=
        harm.written hlegal hseg hx (by change s.dataset.map ≤ t.header.offset - HEADER; omega)
          (by change t.header.offset - HEADER + HEADER ≤ t.header.offset; omega)
          fun _ => by change t.header.offset - HEADER + HEADER = t.header.offset; omega
      have hmanifest : (File.write seg (s.dataset.arm Script.calm).file).2.manifest = t.manifest := by rw [hx]
      rw [if_neg hn, if_neg hn, hmanifest]
      exact ⟨_, hbytes.symm, rfl, hwritten⟩

theorem turn [LawfulExtern] (h : s.Consistent) {turn : Turn} {t : Session} (hturn : Turns s turn t) : t.Consistent := by
  cases hturn with
  | event hstep => exact h.step hstep
  | @crash op n σ d' u legal spares ok =>
    obtain ⟨d, hbytes, -, hcrashed⟩ := h.crashed legal spares
    rw [← hbytes] at ok
    obtain ⟨hsame, hheader, hmanifest, hmap⟩ := hcrashed.stored.opened ok
    exact (hcrashed.reopened hsame hheader hmanifest hmap).drop

end Consistent
end Session

/-- The manifest indexes the commits, and their bytes are there. -/
def Holds (bytes : Bytes) (manifest : Manifest) (cs : List Commit) : Prop :=
  Index cs manifest ∧ ∀ c ∈ cs, Bytes.slice bytes c.start c.image.length = c.image

/-- Crashes that are spared lose nothing: the file opens, and has the commits of before or one more. -/
theorem crash_safe [LawfulExtern] {s t : Session} {turns : List Turn} (hstart : s.Starts) (hrun : Run Session.Turns s turns t)
    {op : Op} {seg : Seg} {n : Nat} (hlegal : t.Legal op) (hseg : op.seg? t.dataset = some seg)
    (hspares : op.Spares t.dataset n) :
    ∃ header manifest u, File.open ⟨Fs.opened (op.crashed t.dataset n), Script.calm, []⟩ = (.ok (header, manifest), u) ∧
      (manifest = t.dataset.file.manifest ∧ Holds (op.crashed t.dataset n) manifest t.commits ∨
        manifest = (File.write seg (t.dataset.arm Script.calm).file).2.manifest ∧
          Holds (op.crashed t.dataset n) manifest (t.commits ++ op.committed t.dataset)) := by
  have hconsistent : t.Consistent := hrun.invariant (fun _ _ _ hs hturn => hs.turn hturn) (.start hstart)
  obtain ⟨d, hbytes, hmanifest, hcrashed⟩ := hconsistent.crashed hlegal hspares
  have hstored := hcrashed.stored
  have hindex := hcrashed.index
  rw [← hbytes]
  rcases open_opened hstored Script.calm [] _ rfl with ⟨parts, u, hx, rfl, -⟩ | ⟨e, u, -, hfails⟩
  · refine ⟨_, _, u, hx, ?_⟩
    rw [Session.after, hseg] at hmanifest
    dsimp only at hmanifest hindex hstored
    by_cases hn : n = 0
    · rw [if_pos hn] at hmanifest hindex hstored
      exact Or.inl ⟨hmanifest, hindex, hstored.stored⟩
    · rw [if_neg hn] at hmanifest hindex hstored
      exact Or.inr ⟨hmanifest, hindex, hstored.stored⟩
  · exact Bool.noConfusion ((Script.within_calm 3).symm.trans hfails)

end

/-! ## Crashes on a new file -/

section
attribute [local instance] reference reference_lawful buffered buffered_lawful

/-- One byte of the segment is enough to lose the manifest. -/
theorem crash_loses_manifest : ∃ s : Session, s.Starts ∧ s.Legal (.bin noteBin) ∧
    (Op.bin noteBin).seg? s.dataset = some (.bin noteBin) ∧
    (File.open ⟨Fs.opened ((Op.bin noteBin).crashed s.dataset 1), Script.calm, []⟩).1 = .error (.error .checksum) := by
  have hrun : (Dataset.launch (pure ())).map (fun p =>
      (File.open ⟨Fs.opened ((Op.bin noteBin).crashed p.2 1), Script.calm, []⟩).1) = some (.error (.error .checksum)) := by
    decide +kernel
  obtain ⟨d, t, _, _, hnew, hd, hrun⟩ := Dataset.launch_map hrun
  cases hd
  exact ⟨⟨d, [], []⟩, ⟨_, t, hnew, rfl, rfl⟩, ⟨_, noteBin.obtained⟩, rfl, hrun⟩

/-- Of the header of 16 bytes the last seven need not be written. -/
theorem crash_safe_note : ∃ s : Session, s.Starts ∧ ∃ header manifest u,
    File.open ⟨Fs.opened ((Op.bin noteBin).crashed s.dataset 66), Script.calm, []⟩ = (.ok (header, manifest), u) ∧
      (manifest = s.dataset.file.manifest ∧ Holds ((Op.bin noteBin).crashed s.dataset 66) manifest s.commits ∨
        manifest = (File.write (Seg.bin noteBin) (s.dataset.arm Script.calm).file).2.manifest ∧
          Holds ((Op.bin noteBin).crashed s.dataset 66) manifest
            (s.commits ++ (Op.bin noteBin).committed s.dataset)) := by
  have hrun : (Dataset.launch (pure ())).map (fun p =>
      let r := File.write (Seg.bin noteBin) (p.2.arm Script.calm).file
      (r.1.toOption.isSome, r.2.header.offset, r.2.header.size, decide ((Header.serialize r.2.header).drop 9 =
        (Bytes.slice p.2.file.bytes Header.OFFSET 16).drop 9))) = some (true, 51, 30, true) := by
    decide +kernel
  obtain ⟨d, t, _, _, hnew, hd, hrun⟩ := Dataset.launch_map hrun
  cases hd
  have hstart : Session.Starts ⟨d, [], []⟩ := ⟨_, t, hnew, rfl, rfl⟩
  have hfresh := (Session.Reached.fresh ⟨_, [], hstart, Run.nil _⟩).1
  obtain ⟨hsome, hrest⟩ := Prod.mk.inj hrun
  obtain ⟨hoffset, hrest⟩ := Prod.mk.inj hrest
  obtain ⟨hsize, hdrop⟩ := Prod.mk.inj hrest
  have hdrop := of_decide_eq_true hdrop
  refine ⟨_, hstart, crash_safe hstart (Run.nil _) ⟨_, noteBin.obtained⟩ rfl ?_⟩
  intro seg hseg
  cases hseg
  rcases File.write_triple (Seg.bin noteBin) (d.arm Script.calm).file _ rfl with ⟨sec, f, hw, image, index, hw'⟩ | ⟨e, f, hw, -⟩
  · rw [hw] at hoffset hsize hdrop
    dsimp only at hoffset hsize hdrop
    have himage := hw'.published.offset
    have hindex := hw'.published.size
    have hstart : (d.arm Script.calm).file.header.offset = 24 := hfresh
    have hlen : image.length + index.length = 57 := by omega
    refine Or.inr ⟨image, index, sec, f.header, hw'.toAppended, hw'.registered, hw'.published, ?_, by omega, ?_⟩
    · change (d.arm Script.calm).file.header.offset + image.length + index.length ≤ 2 ^ 63 - 1
      omega
    · rw [hlen]
      exact hdrop
  · rw [hw] at hsome
    cases hsome

end
end Msca
