import Msca.Failure

/-! The bytes under a map. Writes go to the header region or behind the segments, and the manifest only moves up, so a
region that was mapped is left alone for good; only opening a file whose header was torn can take the manifest back
into it. -/
namespace Msca
set_option autoImplicit false
open Checked Bytes

section
variable [Extern] [Fs]

/-! ## Where writes go -/

namespace File
variable {S : Type} [Segment S] [Register S] {seg : S} {f t : File}

theorem Stopped.writes (h : Stopped seg f t) :
    ∃ ws, f.stream.Broke ws t.stream ∧ ∀ w ∈ ws, Bytes.Spares HEADER f.header.offset w := by
  cases h with
  | refused _ _ _ broke =>
    obtain ⟨ws, hbroke, hws⟩ := broke
    refine ⟨ws, hbroke, fun w hw => ?_⟩
    obtain ⟨image, -, rfl⟩ := hws w hw
    exact Or.inr (Nat.le_refl _)
  | registered _ _ _ _ broke => exact broke

omit [Extern] [Fs] in
theorem records_spare (o : Nat) (image index : Bytes) (header : Sector) :
    ∀ w ∈ records o image index header, Bytes.Spares HEADER o w := by
  intro w hw
  simp only [records, List.mem_cons, List.not_mem_nil, or_false] at hw
  rcases hw with rfl | rfl | rfl
  · exact Or.inr (Nat.le_refl _)
  · exact Or.inr (Nat.le_add_right _ _)
  · exact header_spares header o

end File

/-! ## Steps and maps -/

namespace Dataset

/-- The file that an operation maps. -/
inductive Maps (d : Dataset) : Op → File → Prop
  | written {op : Op} {seg : Seg} {sector : Sector} {f : File} (payload : seg.payload = true) (writes : op.seg? d = some seg)
      (ok : File.write seg d.file = (.ok sector, f)) : Maps d op f
  | opened {s : Stream} {header : Sector} {manifest : Manifest}
      (ok : File.open d.file.stream.reopened = (.ok (header, manifest), s)) : Maps d .reopen ⟨s, header, manifest⟩

/-- The step `e` leaves the regions `maps` alone: neither what it writes nor what waits from before has a byte in them, and
the file holds there what it held. It does not move the manifest down, and maps what it maps without underflow. -/
structure Keeps (d : Dataset) (maps : List Nat) (e : Event) : Prop where
  spared : ∃ ws, (d.step e).2.file.stream.log = d.file.stream.log ++ ws ∧ ∀ w ∈ d.file.queue ++ ws, ∀ m ∈ maps, ∀ i,
    w.1 ≤ i → i < w.1 + w.2.length → i < HEADER ∨ HEADER + m ≤ i
  kept : ∀ m ∈ maps, Agree HEADER (HEADER + m) d.file.bytes (d.step e).2.file.bytes
  grows : d.file.header.offset ≤ (d.step e).2.file.header.offset
  fits : ∀ f, (d.arm e.script).Maps e.op f → f.mmap ≠ .error .panic

/-- A step, with the regions mapped so far. -/
def track (s : Dataset × List Nat) (e : Event) : Dataset × List Nat := ((s.1.step e).2, (s.1.step e).2.map :: s.2)

theorem run_track (es : List Event) (s : Dataset × List Nat) : Run (fun s e t => t = track s e) s es (es.foldl track s) := by
  induction es generalizing s with
  | nil => exact rfl
  | cons e es ih => exact ⟨_, rfl, ih _⟩

/-- A file that is opened is not found to name a manifest below the one in memory. -/
def Whole (d : Dataset) (e : Event) : Prop :=
  e.op = .reopen →
    d.file.header.offset ≤ Bytes.ofLe (slice (Fs.found (e.script 0) d.file.stream.handle) Header.OFFSET 8)

/-- The manifest lies behind all regions mapped. -/
structure Held (s : Dataset × List Nat) : Prop where
  grounded : s.1.Grounded
  maps_le : ∀ m ∈ s.2, m + HEADER ≤ s.1.file.header.offset

omit [Extern] [Fs] in
theorem header_offset {bytes : Bytes} {header : Sector} (h : slice bytes Header.OFFSET 16 = Header.serialize header) :
    Bytes.ofLe (slice bytes Header.OFFSET 8) = header.offset := by
  have hfront : slice bytes Header.OFFSET 8 = Bytes.leBytes 8 header.offset := by
    have hslice := congrArg (fun bs => slice bs 0 8) h
    rw [slice_slice (by decide)] at hslice
    exact hslice.trans (List.take_left' (Bytes.leBytes_length 8 _))
  rw [hfront, Bytes.ofLe_leBytes_of_lt header.offset_lt]

variable [LawfulFs]

/-- What a step writes goes to the header or behind the segments. -/
theorem Moved.writes {d d' : Dataset} {op : Op} (h : d.Moved op d') :
    ∃ ws, d'.file.stream.log = d.file.stream.log ++ ws ∧ ∀ w ∈ ws, Bytes.Spares HEADER d.file.header.offset w := by
  cases h with
  | stayed => exact ⟨[], (List.append_nil _).symm, by simp⟩
  | stopped hstop =>
    obtain ⟨ws, hbroke, hws⟩ := hstop.writes
    exact ⟨ws, hbroke.log, hws⟩
  | written hw => exact ⟨_, hw.given.log, File.records_spare _ _ _ _⟩
  | opened ok => exact ⟨[], by rw [(open_eq_ok ok).1.2.2, List.append_nil], by simp⟩

/-- The bytes in front of the manifest stay as they are. -/
theorem Moved.kept {d d' : Dataset} {op : Op} (h : d.Moved op d') (hground : d.Grounded) :
    Agree HEADER d.file.header.offset d.file.bytes d'.file.bytes := by
  cases h with
  | stayed => exact .refl hground.offset_le
  | stopped hstop =>
    obtain ⟨ws, hbroke, hws⟩ := hstop.writes
    exact hbroke.view.agree hground.offset_le hground.spares hws
  | written hw => exact hw.given.view.agree hground.offset_le hground.spares (File.records_spare _ _ _ _)
  | opened ok =>
    obtain ⟨⟨rest, hlands⟩, -⟩ := LawfulFs.found (d.file.stream.script 0) d.file.stream.handle
    rw [(open_eq_ok ok).1.1]
    exact hlands.agree hground.offset_le hground.spares

theorem Moved.grows {d d' : Dataset} {op : Op} (h : d.Moved op d')
    (hwhole : op = .reopen → d.file.header.offset ≤
      Bytes.ofLe (slice (Fs.found (d.file.stream.script 0) d.file.stream.handle) Header.OFFSET 8)) :
    d.file.header.offset ≤ d'.file.header.offset := by
  cases h with
  | stayed => exact Nat.le_refl _
  | stopped hstop => exact hstop.advance.1
  | written hw => exact hw.advance.1
  | opened ok =>
    have hle := hwhole rfl
    rwa [header_offset (open_eq_ok ok).2.1] at hle

omit [Extern] [LawfulFs] in
theorem mmap_ne_panic {f : File} (h : HEADER ≤ f.header.offset) : f.mmap ≠ .error .panic := by
  rw [File.mmap, if_pos h]
  split <;> simp [ioError]

theorem Held.fits {s : Dataset × List Nat} (h : Held s) {e : Event} (hwhole : s.1.Whole e) {f : File}
    (hmaps : (s.1.arm e.script).Maps e.op f) : f.mmap ≠ .error .panic := by
  have hle := h.grounded.map_le
  suffices hup : s.1.file.header.offset ≤ f.header.offset by
    exact mmap_ne_panic (by omega)
  obtain ⟨op, σ⟩ := e
  cases hmaps with
  | written _ _ ok =>
    obtain ⟨image, index, hw⟩ := (File.write_triple _ _).ok rfl ok
    exact hw.advance.1
  | @opened u header manifest ok =>
    have hfound := hwhole rfl
    have hopened := LawfulFs.opened (Fs.found (σ 0) s.1.file.stream.handle)
    obtain ⟨-, hregion, -⟩ := Msca.open_eq_ok (congrArg View.cursor hopened) (congrArg View.queue hopened) ok
    have hbytes : (s.1.arm σ).file.stream.reopened.bytes = Fs.found (σ 0) s.1.file.stream.handle := congrArg View.bytes hopened
    rw [hbytes] at hregion
    exact Nat.le_trans hfound (Nat.le_of_eq (header_offset hregion))

/-- A step from behind all maps spares them and stays behind. -/
theorem Held.step {s : Dataset × List Nat} (h : Held s) {e : Event} (hwhole : s.1.Whole e) :
    s.1.Keeps s.2 e ∧ Held (track s e) := by
  have hmoved := moved e.op (s.1.arm e.script)
  have harm : (s.1.arm e.script).Grounded := ⟨h.grounded.map_le, h.grounded.offset_le, h.grounded.spares⟩
  have hgrounded : (s.1.step e).2.Grounded := harm.moved hmoved
  have hgrows : s.1.file.header.offset ≤ (s.1.step e).2.file.header.offset := hmoved.grows hwhole
  have hkept : Agree HEADER s.1.file.header.offset s.1.file.bytes (s.1.step e).2.file.bytes := hmoved.kept harm
  obtain ⟨ws, hlog, hclear⟩ := hmoved.writes
  refine ⟨⟨⟨ws, hlog, fun w hw m hm i hlo hhi => ?_⟩, fun m hm => hkept.mono ?_, hgrows, fun f => h.fits hwhole⟩, hgrounded,
    fun m hm => ?_⟩
  · have hle := h.maps_le m hm
    have hspares : Bytes.Spares HEADER s.1.file.header.offset w :=
      (List.mem_append.mp hw).elim (h.grounded.spares w) (hclear w)
    rcases hspares with hhead | hbehind
    · exact Or.inl (by omega)
    · exact Or.inr (by omega)
  · have hle := h.maps_le m hm
    omega
  · rcases List.mem_cons.mp hm with rfl | hm
    · exact hgrounded.map_le
    · exact Nat.le_trans (h.maps_le m hm) hgrows

/-- In a run on any dataset that opens no torn file, no byte under a map is written. -/
theorem mapped_bytes_kept {d d' : Dataset} {maps : List Nat} {es : List Event} {e : Event} (h : d.Arises)
    (hrun : Run (fun s e t => s.1.Whole e ∧ t = track s e) (d, [d.map]) es (d', maps)) (he : d'.Whole e) :
    d'.Keeps maps e := by
  have hstart : Held (d, [d.map]) := by
    refine ⟨h.grounded, fun m hm => ?_⟩
    rw [List.mem_singleton.mp hm]
    exact h.grounded.map_le
  have hheld : Held (d', maps) := by
    refine hrun.invariant (fun s e t hs hstep => ?_) hstart
    obtain ⟨hwhole, rfl⟩ := hstep
    exact (hs.step hwhole).2
  exact (hheld.step he).1

end Dataset
end

/-! ## A torn header -/

section
attribute [local instance] reference reference_lawful buffered buffered_lawful

/-- The image of an empty manifest, as long as the manifest of one binary segment. -/
def forged : Bytes := sealed (Bytes.zeros 9 ++ [0xd8, 100, 0x80] ++ Bytes.zeros 8)

/-- The image lies at 48 in the file. -/
def forgedBin : Bin := ⟨"a", Bytes.zeros 8 ++ forged ++ Bytes.zeros 140⟩

/-- The second write moves the manifest from 224 to 304, and one byte of that reaches the header. -/
def tornRun : List Event :=
  [⟨.bin forgedBin, Script.calm⟩, ⟨.bin ⟨"b", Bytes.zeros 56⟩, fun k => (k == 5, 1)⟩, ⟨.reopen, Script.calm⟩]

theorem torn_tracked : (Dataset.launch (pure ())).map (fun p =>
    let s := tornRun.foldl Dataset.track (p.2, [p.2.map])
    (s.1.file.header.offset, decide (200 ∈ s.2), ((s.1.step ⟨.bin noteBin, Script.calm⟩).2.file.stream.log.drop
      s.1.file.stream.log.length).map fun w => (w.1, w.2.length))) =
    some (48, true, [(48, 27), (75, 31), (5, 16)]) := by
  decide +kernel

/-- The next write goes to 48, into the bytes from 24 to 224 that the first one had mapped. -/
theorem mapped_bytes_overwritten : ∃ (d : Dataset) (s : Dataset × List Nat), d.Arises ∧
    Run (fun s e t => t = Dataset.track s e) (d, [d.map]) tornRun s ∧ 200 ∈ s.2 ∧ s.1.file.header.offset = 48 ∧
    ¬ s.1.Keeps s.2 ⟨.bin noteBin, Script.calm⟩ := by
  obtain ⟨d, t, _, _, hnew, hd, hrun⟩ := Dataset.launch_map torn_tracked
  cases hd
  obtain ⟨hoffset, hrest⟩ := Prod.mk.inj hrun
  obtain ⟨hmap, hwrites⟩ := Prod.mk.inj hrest
  have hmap := of_decide_eq_true hmap
  have hruns := Dataset.run_track tornRun (d, [d.map])
  generalize tornRun.foldl Dataset.track (d, [d.map]) = s at hoffset hmap hwrites hruns
  refine ⟨d, s, .new hnew, hruns, hmap, hoffset, fun hkeeps => ?_⟩
  obtain ⟨ws, hlog, hspared⟩ := hkeeps.spared
  rw [hlog, List.drop_left] at hwrites
  have hmem : (48, 27) ∈ ws.map fun w => (w.1, w.2.length) := by
    rw [hwrites]
    exact List.mem_cons_self
  obtain ⟨w, hw, heq⟩ := List.mem_map.mp hmem
  obtain ⟨hstart, hlen⟩ := Prod.mk.inj heq
  have hclear := hspared w (List.mem_append_right _ hw) 200 hmap 48 (by omega) (by omega)
  rw [HEADER] at hclear
  omega

/-- A segment that is written, the file opened anew, and a write that breaks off. -/
def keptRun : List Event := [⟨.bin noteBin, Script.calm⟩, ⟨.reopen, Script.calm⟩]

theorem mapped_bytes_kept_reopened : ∃ (d : Dataset) (s : Dataset × List Nat), d.Arises ∧
    Run (fun s e t => t = Dataset.track s e) (d, [d.map]) keptRun s ∧ s.2 = [27, 27, 0] ∧
    s.1.Keeps s.2 ⟨.bin ⟨"b", [4]⟩, fun k => (k == 1, 2)⟩ := by
  have hrun : (Dataset.launch (pure ())).map (fun p =>
      let s := Dataset.track (p.2, [p.2.map]) ⟨.bin noteBin, Script.calm⟩
      ((Dataset.track s ⟨.reopen, Script.calm⟩).2, decide (s.1.file.header.offset ≤
        Bytes.ofLe (slice (Fs.found (Script.calm 0) s.1.file.stream.handle) Header.OFFSET 8)))) = some ([27, 27, 0], true) := by
    decide +kernel
  obtain ⟨d, t, _, _, hnew, hd, hrun⟩ := Dataset.launch_map hrun
  cases hd
  obtain ⟨hmaps, hwhole⟩ := Prod.mk.inj hrun
  have harises : d.Arises := .new hnew
  have hfirst : d.Whole ⟨.bin noteBin, Script.calm⟩ := by rintro ⟨⟩
  have hsecond : (Dataset.track (d, [d.map]) ⟨.bin noteBin, Script.calm⟩).1.Whole ⟨.reopen, Script.calm⟩ :=
    fun _ => of_decide_eq_true hwhole
  have hruns : Run (fun s e t => s.1.Whole e ∧ t = Dataset.track s e) (d, [d.map]) keptRun
      (Dataset.track (Dataset.track (d, [d.map]) ⟨.bin noteBin, Script.calm⟩) ⟨.reopen, Script.calm⟩) :=
    .cons ⟨hfirst, rfl⟩ (.cons ⟨hsecond, rfl⟩ (.nil _))
  generalize hs : Dataset.track (Dataset.track (d, [d.map]) ⟨.bin noteBin, Script.calm⟩) ⟨.reopen, Script.calm⟩ = s at hruns hmaps
  exact ⟨d, s, harises, hruns.mono fun _ _ _ h => h.2, hmaps, Dataset.mapped_bytes_kept harises hruns (by rintro ⟨⟩)⟩

end
end Msca
