import Msca.Read
import Msca.Register
import Msca.Stream

/-! An open file: its stream, the header and the manifest held in memory. The segments follow the header
of the file, the manifest follows the segments and is overwritten by the next one, and the sector of the
manifest is the one mutable region at the front. -/
namespace Msca
set_option autoImplicit false
open Checked

/-- `io::MAGIC`. -/
def MAGIC : Bytes := [109, 115, 99, 97]

/-- `io::VERSION`. -/
def VERSION : UInt8 := 0

/-! ## The header -/

namespace Header

/-- `Header::SECTOR.offset`. -/
def OFFSET : Nat := 5

/-- `Header::serialize`. -/
def serialize (manifest : Sector) : Bytes :=
  Bytes.leBytes 8 manifest.offset ++ Bytes.leBytes 8 manifest.size

/-- `Header::deserialize`. -/
def deserialize : Parse Sector := do
  let src ← get
  if src.length < OFFSET then throw (truncated HEADER src.length)
  else if src.take 4 ≠ MAGIC then throw (.error .magic)
  else if src.getD 4 0 ≠ VERSION then throw (.error (.version (src.getD 4 0)))
  else
    set (src.drop OFFSET)
    let offset ← Msca.deserialize (α := U64)
    let size ← Msca.deserialize (α := NonZero)
    return ⟨offset.val, size.get, offset.lt, size.pos, size.lt⟩

section
variable [Fs]

/-- The header region is overwritten. -/
def write (manifest : Sector) : Eff Fault Stream Unit := do
  Stream.writeAt OFFSET (serialize manifest)
  Stream.flush

end

end Header

section
variable [Extern] [Fs]

/-- `Manifest::from_file`. -/
def Manifest.fromFile (sector : Sector) : Eff Fault Stream Manifest := do
  Stream.seek sector.offset
  let buf ← Stream.readExact sector.size
  let data ← Eff.lift (verify buf)
  if data.length < Segment.HEADER then Eff.lift (.error (truncated Segment.HEADER buf.length))
  else Eff.lift (okOr (.error .decode) (Extern.decodeManifest (data.drop Segment.HEADER)))

/-- `io::File`. -/
structure File where
  stream : Stream
  header : Sector
  manifest : Manifest

namespace File

abbrev bytes (f : File) : Bytes := f.stream.bytes

abbrev queue (f : File) : List Bytes.Write := f.stream.queue

def withStream (f : File) (stream : Stream) : File := { f with stream }

def withHeader (f : File) (header : Sector) : File := { f with header }

def withManifest (f : File) (manifest : Manifest) : File := { f with manifest }

/-- `File::create` on the stream of a new file. -/
def create : Eff Fault Stream (Sector × Manifest) := do
  Stream.writeAll MAGIC
  Stream.writeAll [VERSION]
  let header ← Segment.write Manifest.default HEADER
  Stream.writeAt Header.OFFSET (Header.serialize header)
  Stream.writeAll (Bytes.zeros 3)
  Stream.flush
  return (header, Manifest.default)

/-- `File::open` on the stream of an existing file. -/
def «open» : Eff Fault Stream (Sector × Manifest) := do
  let buf ← Stream.readExact HEADER
  let header ← Eff.lift (Header.deserialize.run buf).1
  let manifest ← Manifest.fromFile header
  return (header, manifest)

/-- Length of the region `File::mmap` maps; the subtraction is unchecked in the source. The system call is the last one of
its operation and may fail. -/
def mmap (f : File) : Res Nat :=
  if HEADER ≤ f.header.offset then
    if Fs.fails (f.stream.script 0) then .error ioError else .ok (f.header.offset - HEADER)
  else .error .panic

/-- Phases 4 and 5 of `File::write`: the manifest behind the segments, then the header region. -/
def publish (next : Nat) : Eff Fault File Unit := do
  let manifest ← Eff.gets File.manifest
  let header ← Eff.focus File.stream withStream (Segment.write manifest next)
  Eff.modify fun f => f.withHeader header
  Eff.focus File.stream withStream (Header.write header)

/-- `File::write`. -/
def write {S : Type} [Segment S] [Register S] (seg : S) : Eff Fault File Sector := do
  -- Phase 1: the entry is reserved before any IO.
  let reserved ← Eff.gets fun f => entry seg f.manifest
  Eff.lift reserved
  -- Phase 2: the segment overwrites the manifest on disk.
  let offset ← Eff.gets fun f => f.header.offset
  let sec ← Eff.focus File.stream withStream (Segment.write seg offset)
  -- Phase 3: registration in memory.
  Eff.focus File.manifest withManifest (register seg sec)
  let next ← Eff.lift (okOr zeroError sec.next)
  publish next
  return sec

/-! ## What a write can do -/

omit [Extern] [Fs] in
theorem header_serialize_length (header : Sector) : (Header.serialize header).length = 16 := by
  simp [Header.serialize]

omit [Extern] [Fs] in
theorem header_serialize_ne (header : Sector) : Header.serialize header ≠ [] :=
  List.ne_nil_of_length_pos (by rw [header_serialize_length]; decide)

omit [Extern] [Fs] in
theorem header_spares (header : Sector) (o : Nat) : Bytes.Spares HEADER o (Header.OFFSET, Header.serialize header) := by
  have hlen := header_serialize_length header
  exact Or.inl (by change 5 + (Header.serialize header).length ≤ 24; omega)

omit [Extern] in
theorem header_write_triple [LawfulFs] (header : Sector) (s : Stream) :
    Eff.Triple (fun t => t = s) (Header.write header)
      (fun _ t => s.Given 3 [(Header.OFFSET, Header.serialize header)] t ∧ t.queue = [])
      fun _ t => ¬ (s.script.within 3 = false ∧ s.view.Fits ∧ HEADER ≤ Fs.limit) ∧
        ∃ ws, s.Broke ws t ∧ ∀ w ∈ ws, w = (Header.OFFSET, Header.serialize header) := by
  have hlen := header_serialize_length header
  refine Eff.Triple.bind (R := fun _ t => s.Put Header.OFFSET (Header.serialize header) t)
    ((Stream.writeAt_triple s Header.OFFSET (header_serialize_ne header)).conseq (fun _ h => h) (fun _ _ h => h.1) ?_) ?_
  · rintro e t ⟨hn, -, hb⟩
    refine ⟨fun h => hn ⟨Script.within_mono h.1 (by decide), h.2.1, ?_⟩, hb⟩
    have hle := h.2.2
    rw [HEADER] at hle
    rw [hlen, Header.OFFSET]
    omega
  · rintro - t hput
    refine (Stream.flush_triple t).conseq (fun _ h => h) ?_ ?_ t rfl
    · rintro - u ⟨hgiven, hqueue⟩
      exact ⟨hput.toGiven.trans hgiven, hqueue⟩
    · rintro e u ⟨hn, -, hb⟩
      refine ⟨fun h => hn ⟨?_, ?_⟩, _, hput.toGiven.broke hb, by simp⟩
      · rw [hput.within]
        exact h.1
      · refine hput.fits ?_
        have hle := h.2.2
        rw [HEADER] at hle
        rw [hlen, Header.OFFSET]
        omega

/-- `index` is the image of the manifest at `next`, and `header` is its sector. -/
structure Published (m : Manifest) (next : Nat) (index : Bytes) (header : Sector) : Prop where
  wrapped : wrap m next = .ok index
  ne : index ≠ []
  offset : header.offset = next
  size : header.size = index.length

/-- The manifest has an image at `next` and the medium takes it and the header. -/
structure Publishes (f : File) (next : Nat) : Prop where
  spared : f.stream.script.within 5 = false
  fits : f.stream.view.Fits
  image : ∃ index, wrap f.manifest next = .ok index ∧ index ≠ [] ∧ next + index.length ≤ Fs.limit
  header : HEADER ≤ Fs.limit

theorem publish_triple [LawfulFs] (f : File) (next : Nat) :
    Eff.Triple (fun t => t = f) (publish next)
      (fun _ t => ∃ index, Published f.manifest next index t.header ∧
        f.stream.Given 5 [(next, index), (Header.OFFSET, Header.serialize t.header)] t.stream ∧ t.queue = [] ∧
          t.manifest = f.manifest)
      fun _ t => ¬ Publishes f next ∧ t.manifest = f.manifest ∧
        (t.header = f.header ∨ t.header.offset = next ∧ (Bytes.land f.bytes f.queue).length ≤ t.bytes.length ∧
          ∀ w ∈ t.queue, Bytes.Spares HEADER next w) ∧
          ∃ ws, f.stream.Broke ws t.stream ∧ ∀ w ∈ ws, Bytes.Spares HEADER next w := by
  rintro f rfl
  unfold publish
  rw [Eff.bind_gets]
  have hwrite := Eff.Triple.focus File.stream withStream (Segment.write_triple f.manifest next f.stream)
  rcases hwrite f rfl with
    ⟨header, _, hx, s, rfl, index, hwrap, hne, hoffset, hsize, hput⟩ | ⟨e, _, hx, s, rfl, hfit, ws, hb, hws⟩
  · have hhead := Eff.Triple.focus File.stream withStream (s := ⟨s, header, f.manifest⟩) (header_write_triple header _)
    rw [Eff.bind_ok hx]
    have hsettled := hput.settled.length_le
    rcases hhead _ rfl with ⟨_, _, hx', t, rfl, hgiven, hqueue⟩ | ⟨e, _, hx', t, rfl, hn, ws, hb, hws⟩
    · exact Or.inl ⟨_, _, hx', index, ⟨hwrap, hne, hoffset, hsize⟩, hput.toGiven.trans hgiven, hqueue, rfl⟩
    · refine Or.inr ⟨_, _, hx', fun h => hn ⟨?_, ?_, h.header⟩, rfl, Or.inr ⟨hoffset, ?_, ?_⟩, _, hput.toGiven.broke hb, ?_⟩
      · change s.script.within 3 = false
        rw [hput.within]
        exact h.spared
      · obtain ⟨index', hindex, -, hle⟩ := h.image
        rw [hwrap] at hindex
        cases hindex
        exact hput.fits hle
      · exact Nat.le_trans hsettled hb.view.length_le
      · refine hb.view.forall (Bytes.parted_spares HEADER next) (hput.settled.forall (Bytes.parted_spares HEADER next) ?_) ?_
        · intro w hw
          rw [List.mem_singleton.mp hw]
          exact Or.inr (Nat.le_refl _)
        · intro w hw
          rw [hws w hw]
          exact header_spares header next
      · intro w hw
        rcases List.mem_cons.mp hw with rfl | hw
        · exact Or.inr (Nat.le_refl _)
        · rw [hws w hw]
          exact header_spares header next
  · rw [Eff.bind_error hx]
    refine Or.inr ⟨e, _, rfl, fun h => hfit ?_, rfl, Or.inl rfl, ws, hb, fun w hw => ?_⟩
    · obtain ⟨index, hindex, hne, hle⟩ := h.image
      exact ⟨index, hindex, hne, Script.within_mono h.spared (by decide), h.fits, hle⟩
    · obtain ⟨index, -, rfl⟩ := hws w hw
      exact Or.inr (Nat.le_refl _)

section
variable {S : Type} [Segment S] [Register S]

/-- The entry is vacant, and the image is there and the medium takes it. -/
def Admits (seg : S) (f : File) : Prop :=
  entry seg f.manifest = .ok () ∧ Segment.Fits seg f.header.offset f.stream

/-- The segment was written as `image`, and `sec` is its sector. -/
structure Appended (seg : S) (f : File) (image : Bytes) (sec : Sector) : Prop where
  reserved : entry seg f.manifest = .ok ()
  wrapped : wrap seg f.header.offset = .ok image
  ne : image ≠ []
  spared : f.stream.script.within 2 = false
  offset : sec.offset = f.header.offset
  size : sec.size = image.length

omit [Extern] in
theorem Appended.unique {seg : S} {f : File} {image image' : Bytes} {sec sec' : Sector} (h : Appended seg f image sec)
    (h' : Appended seg f image' sec') : image' = image ∧ sec' = sec := by
  have himage : image' = image := Except.ok.inj (h'.wrapped.symm.trans h.wrapped)
  subst himage
  exact ⟨rfl, Sector.ext (h'.offset.trans h.offset.symm) (h'.size.trans h.size.symm)⟩

/-- The segment is registered, and the medium takes it, the manifest behind it and the header. -/
structure Completes (seg : S) (f : File) (image : Bytes) (sec : Sector) : Prop where
  registered : (register seg sec f.manifest).1 = .ok ()
  spared : f.stream.script.within 7 = false
  index : ∃ index, wrap (register seg sec f.manifest).2 (f.header.offset + image.length) = .ok index ∧ index ≠ [] ∧
    f.header.offset + image.length + index.length ≤ Fs.limit
  header : HEADER ≤ Fs.limit

/-- How far a write got that did not return. -/
inductive Stopped (seg : S) (f t : File) : Prop
  | refused (h : ¬ Admits seg f) (header : t.header = f.header) (manifest : t.manifest = f.manifest)
      (broke : ∃ ws, f.stream.Broke ws t.stream ∧
        ∀ w ∈ ws, ∃ image, wrap seg f.header.offset = .ok image ∧ w = (f.header.offset, image))
  | registered {image : Bytes} {sec : Sector} (h : Appended seg f image sec) (unfit : ¬ Completes seg f image sec)
      (manifest : t.manifest = (register seg sec f.manifest).2)
      (header : t.header = f.header ∨
        t.header.offset = f.header.offset + image.length ∧ t.header.offset ≤ t.bytes.length ∧
          ∀ w ∈ t.queue, Bytes.Spares HEADER t.header.offset w)
      (broke : ∃ ws, f.stream.Broke ws t.stream ∧ ∀ w ∈ ws, Bytes.Spares HEADER f.header.offset w)

/-- The three writes of `File::write`. -/
def records (o : Nat) (image index : Bytes) (header : Sector) : List Bytes.Write :=
  [(o, image), (o + image.length, index), (Header.OFFSET, Header.serialize header)]

/-- A write that returned. -/
structure Written (seg : S) (f : File) (image : Bytes) (sec : Sector) (index : Bytes) (t : File) : Prop
    extends Appended seg f image sec where
  registered : (register seg sec f.manifest).1 = .ok ()
  published : Published (register seg sec f.manifest).2 (f.header.offset + image.length) index t.header
  given : f.stream.Given 7 (records f.header.offset image index t.header) t.stream
  drained : t.queue = []
  manifest : t.manifest = (register seg sec f.manifest).2

theorem write_triple [LawfulFs] (seg : S) (f : File) :
    Eff.Triple (fun t => t = f) (write seg) (fun sec t => ∃ image index, Written seg f image sec index t)
      fun _ t => Stopped seg f t := by
  rintro f rfl
  unfold write
  rw [Eff.bind_gets]
  have hlimit := LawfulFs.limit_lt
  cases hentry : entry seg f.manifest with
  | error e =>
    refine Or.inr ⟨e, f, rfl, .refused ?_ rfl rfl ⟨[], .refl _, by simp⟩⟩
    rintro ⟨h, -⟩
    rw [hentry] at h
    cases h
  | ok =>
    rw [Eff.bind_lift_ok rfl, Eff.bind_gets]
    rcases Eff.Triple.focus File.stream withStream (Segment.write_triple seg f.header.offset f.stream) f rfl with
      ⟨sec, _, hx, s, rfl, image, hwrap, hne, hoffset, hsize, hput⟩ | ⟨e, _, hx, s, rfl, hfit, hbroke⟩
    · have happ : Appended seg f image sec :=
        ⟨hentry, hwrap, hne, Script.within_mono hput.spared (Nat.le_refl _), hoffset, hsize⟩
      have hbehind : ∀ {ws : List Bytes.Write}, (∀ w ∈ ws, Bytes.Spares HEADER (f.header.offset + image.length) w) →
          ∀ w ∈ [(f.header.offset, image)] ++ ws, Bytes.Spares HEADER f.header.offset w := by
        intro ws hws w hw
        rcases List.mem_cons.mp hw with rfl | hw
        · exact Or.inr (Nat.le_refl _)
        · exact (hws w hw).mono (Nat.le_add_right _ _)
      have hreg : Eff.focus File.manifest withManifest (register seg sec) (f.withStream s) =
          ((register seg sec f.manifest).1, ⟨s, f.header, (register seg sec f.manifest).2⟩) := rfl
      rw [Eff.bind_ok hx]
      cases hr : (register seg sec f.manifest).1 with
      | error e =>
        rw [hr] at hreg
        rw [Eff.bind_error hreg]
        refine Or.inr ⟨e, _, rfl, .registered happ (fun h => ?_) rfl (Or.inl rfl)
          ⟨_, hput.toGiven.broke (.refl s), hbehind (by simp)⟩⟩
        rw [h.registered] at hr
        cases hr
      | ok =>
        rw [hr] at hreg
        rw [Eff.bind_ok hreg]
        cases hnext : sec.next with
        | none =>
          refine Or.inr ⟨_, _, rfl, .registered happ (fun h => ?_) rfl (Or.inl rfl)
            ⟨_, hput.toGiven.broke (.refl s), hbehind (by simp)⟩⟩
          obtain ⟨index, -, -, hle⟩ := h.index
          rw [Sector.next_of_lt (by omega)] at hnext
          cases hnext
        | some next =>
          have hend : next = f.header.offset + image.length := by
            rw [(add_eq_some.mp hnext).2, hoffset, hsize, Nat.add_comm]
          subst hend
          rw [okOr_some, Eff.bind_lift_ok rfl]
          have hpub := publish_triple ⟨s, f.header, (register seg sec f.manifest).2⟩ (f.header.offset + image.length)
          rcases hpub _ rfl with ⟨_, t, hx', index, hpub, hgiven, hqueue, hmanifest⟩ |
            ⟨e, t, hx', hunfit, hmanifest, hheader, ws, hb, hws⟩
          · rw [Eff.bind_ok hx']
            exact Or.inl ⟨sec, t, rfl, image, index, happ, hr, hpub, hput.toGiven.trans hgiven, hqueue, hmanifest⟩
          · rw [Eff.bind_error hx']
            refine Or.inr ⟨e, t, rfl, .registered happ (fun h => hunfit ?_) hmanifest (hheader.imp_right fun h => ⟨h.1, ?_, ?_⟩)
              ⟨_, hput.toGiven.broke hb, hbehind hws⟩⟩
            · refine ⟨?_, hput.fits ?_, h.index, h.header⟩
              · change s.script.within 5 = false
                rw [hput.within]
                exact h.spared
              · obtain ⟨index, -, -, hle⟩ := h.index
                omega
            · have hland : Bytes.land s.bytes s.queue =
                  Bytes.overlay (Bytes.land f.bytes f.queue) f.header.offset image := hput.settled.land_eq
              have hlen := h.2.1
              rw [show (Bytes.land _ _) = _ from hland, Bytes.overlay_length] at hlen
              rw [h.1]
              omega
            · rw [h.1]
              exact h.2.2
    · rw [Eff.bind_error hx]
      exact Or.inr ⟨e, _, rfl, .refused (fun h => hfit h.2) rfl rfl hbroke⟩

end
end File
end
end Msca
