import Msca.Snapshot
import Msca.Walk

/-! When a write goes through. In a session that a run reaches nothing but a taken name, the size of the file or the medium
keeps a segment from being committed: registration does not fail once the segment is on disk. -/
namespace Msca
set_option autoImplicit false
open Checked

section
variable [Extern] [Fs] [LawfulFs]

/-- The name of the segment is free, and the segment and the manifest behind it end below the limit of the file system. -/
structure File.Room (seg : Seg) (f : File) : Prop where
  vacant : entry seg f.manifest = .ok ()
  fits : ∃ (image index : Bytes) (sec : Sector), wrap seg f.header.offset = .ok image ∧ sec.offset = f.header.offset ∧
    sec.size = image.length ∧ wrap (register seg sec f.manifest).2 (f.header.offset + image.length) = .ok index ∧
      f.header.offset + image.length + index.length ≤ Fs.limit

/-- A write of a sound segment to a file of which nothing waits returns exactly when there is room for it and the medium
holds for its seven calls. -/
theorem File.write_ok_iff {seg : Seg} {f : File} (hsound : Sound f.manifest seg) (hstart : HEADER ≤ f.header.offset)
    (hqueue : f.queue = []) (hle : f.bytes.length ≤ Fs.limit) :
    (∃ sec t, File.write seg f = (.ok sec, t)) ↔ File.Room seg f ∧ f.stream.script.within 7 = false := by
  have hlimit := LawfulFs.limit_lt
  constructor
  · rintro ⟨sec, t, hx⟩
    obtain ⟨image, index, hw⟩ := (write_triple seg f).ok rfl hx
    have hpub := hw.published
    refine ⟨⟨hw.reserved, image, index, sec, hw.wrapped, hw.offset, hw.size, hpub.wrapped, ?_⟩, hw.given.spared⟩
    rw [← hpub.size, ← hpub.offset]
    exact Nat.le_trans hw.below (hw.limit hle)
  · rintro ⟨⟨hvacant, image, index, sec, hwrap, hoffset, hsize, hindex, hend⟩, hspared⟩
    have hne := wrap_ne_nil hwrap
    rcases write_triple seg f f rfl with ⟨sec', t, hx, -⟩ | ⟨e, t, hx, hstop⟩
    · exact ⟨sec', t, hx⟩
    · exfalso
      cases hstop with
      | refused h =>
        exact h ⟨hvacant, image, hwrap, hne, Script.within_mono hspared (by decide), Stream.fits_of_nil hqueue, by omega⟩
      | @registered image' sec' happ unfit =>
        have himage : image' = image := Except.ok.inj (happ.wrapped.symm.trans hwrap)
        subst himage
        have hsec : sec' = sec := Sector.ext (happ.offset.trans hoffset.symm) (happ.size.trans hsize.symm)
        subst hsec
        exact unfit ⟨hsound.even.register_ok hvacant (hoffset ▸ hstart) (hoffset ▸ hwrap) (by omega), hspared,
          ⟨index, hindex, index_ne_nil hindex, hend⟩, by omega⟩

/-- In a session that a run reaches, with crashes that were spared, a write returns exactly when its name is free, the segment
and the manifest behind it end below the limit of the file system, and the medium holds for the calls of the write cycle and
for the mapping. -/
theorem Session.writes_iff [LawfulExtern] {o s : Session} {turns : List Turn} (hstart : o.Starts)
    (hrun : Run Turns o turns s) {op : Op} (legal : s.Legal op) {seg : Seg} (hseg : op.seg? s.dataset = some seg)
    (σ : Script) :
    (∃ answer d, s.dataset.step ⟨op, σ⟩ = (.ok answer, d)) ↔
      File.Room seg s.dataset.file ∧ σ.within seg.calls = false := by
  have hs : s.Consistent := hrun.invariant (fun _ _ _ hs hturn => hs.turn hturn) (.start hstart)
  have hsound : Sound s.dataset.file.manifest seg := hs.writes_sound legal hseg
  have hroom : File.Room seg (s.dataset.arm σ).file ↔ File.Room seg s.dataset.file :=
    ⟨fun h => ⟨h.vacant, h.fits⟩, fun h => ⟨h.vacant, h.fits⟩⟩
  have hwrite := File.write_ok_iff (f := (s.dataset.arm σ).file) hsound hs.stored.start hs.settled hs.stored.limit
  rw [← hroom, Seg.within_calls, ← and_assoc]
  exact (Dataset.perform_ok_iff (d := s.dataset.arm σ) hseg hs.stored.start).trans (and_congr_left fun _ => hwrite)

end

/-! ## A note on a medium that fails -/

section
attribute [local instance] reference reference_lawful buffered buffered_lawful

/-- There is room for a note, and its write does not return where the mapping fails. -/
theorem Session.writes_iff_note : ∃ o : Session, o.Starts ∧ File.Room (.bin noteBin) o.dataset.file ∧
    (∃ answer d, o.dataset.step noteEvent = (.ok answer, d)) ∧
      ¬ ∃ answer d, o.dataset.step ⟨.bin noteBin, fun k => (k == 7, 0)⟩ = (.ok answer, d) := by
  obtain ⟨o, s, t, hstart, hnew, hbefore, hs, hafter, ht⟩ := Session.two_notes
  obtain ⟨p, hp, hrun⟩ := Option.map_eq_some_iff.mp notes_written
  rw [hp] at hnew
  rw [Option.some.inj hnew] at hrun
  obtain ⟨answer, ha⟩ := Option.isSome_iff_exists.mp (Prod.mk.inj hrun).1
  have hstep : ∃ answer d, o.dataset.step noteEvent = (.ok answer, d) := ⟨answer, _, Prod.ext (toOption_eq_some ha) rfl⟩
  have hlegal : o.Legal (.bin noteBin) := ⟨_, noteBin.obtained⟩
  have hiff := fun σ => Session.writes_iff hstart (.nil o) hlegal rfl σ
  refine ⟨o, hstart, ((hiff Script.calm).mp hstep).1, hstep, fun h => ?_⟩
  have hcalls := ((hiff fun k => (k == 7, 0)).mp h).2
  revert hcalls
  decide

end
end Msca
