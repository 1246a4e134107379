import Msca.Fs
import Msca.Segment

/-! The file as a stream of bytes with a cursor, over whatever the file system makes of the calls. Seeking and writing at an
offset is what a segment, a manifest and a header are put down with. -/
namespace Msca
set_option autoImplicit false
open Checked Bytes

/-- The error of a step of IO. -/
abbrev ioError : Fault := .error .io

/-- A handle, how the medium fares in the calls to come, and the writes asked for so far. -/
structure Stream [Fs] where
  handle : Fs.Handle
  script : Script
  log : List Write

section
variable [Fs]

namespace Stream

abbrev view (s : Stream) : View := Fs.view s.handle

abbrev bytes (s : Stream) : Bytes := s.view.bytes

abbrev queue (s : Stream) : List Write := s.view.queue

abbrev cursor (s : Stream) : Nat := s.view.cursor

/-- A call of the file system, in which the writes `ws` are asked for. -/
def call {α : Type} (ws : List Write) (op : Fs.Chance → Eff Unit Fs.Handle α) : Eff Fault Stream α := fun s =>
  match op (s.script 0) s.handle with
  | (.ok a, h) => (.ok a, ⟨h, s.script.after 1, s.log ++ ws⟩)
  | (.error _, h) => (.error ioError, ⟨h, s.script.after 1, s.log ++ ws⟩)

def seek (p : Nat) : Eff Fault Stream Unit := call [] fun c => Fs.seek c p

def writeAll (data : Bytes) : Eff Fault Stream Unit := fun s => call [(s.cursor, data)] (fun c => Fs.writeAll c data) s

def flush : Eff Fault Stream Unit := call [] Fs.flush

def readExact (n : Nat) : Eff Fault Stream Bytes := call [] fun c => Fs.readExact c n

/-- A write at a given position. -/
def writeAt (p : Nat) (data : Bytes) : Eff Fault Stream Unit := do
  seek p
  writeAll data

/-- A second handle on the file. What the first has not put down by then is lost. -/
def reopened (s : Stream) : Stream := ⟨Fs.opened (Fs.found (s.script 0) s.handle), s.script.after 1, s.log⟩

/-! ## Calls in a row -/

/-- `n` calls that returned lie between, in which `ws` was written. -/
structure Given (s : Stream) (n : Nat) (ws : List Write) (t : Stream) : Prop where
  view : s.view.Given ws t.view
  spared : s.script.within n = false
  script : t.script = s.script.after n
  log : t.log = s.log ++ ws

/-- Calls lie between of which the last one failed; they were to write `ws`. -/
structure Broke (s : Stream) (ws : List Write) (t : Stream) : Prop where
  view : s.view.Broken ws t.view
  log : t.log = s.log ++ ws

theorem Broke.refl (s : Stream) : Broke s [] s := ⟨.refl _, (List.append_nil _).symm⟩

theorem Given.trans {s t u : Stream} {m n : Nat} {ws vs : List Write} (h : Given s m ws t) (h' : Given t n vs u) :
    Given s (m + n) (ws ++ vs) u := by
  refine ⟨h.view.trans h'.view, ?_, ?_, ?_⟩
  · rw [← Script.within_after h.spared, ← h.script]
    exact h'.spared
  · rw [h'.script, h.script, Script.after_after]
  · rw [h'.log, h.log, List.append_assoc]

theorem Given.broke {s t u : Stream} {n : Nat} {ws vs : List Write} (h : Given s n ws t) (h' : Broke t vs u) :
    Broke s (ws ++ vs) u := ⟨h.view.broken h'.view, by rw [h'.log, h.log, List.append_assoc]⟩

theorem Given.toBroke {s t : Stream} {n : Nat} {ws : List Write} (h : Given s n ws t) : Broke s ws t := by
  have hbroke := h.broke (.refl t)
  rwa [List.append_nil] at hbroke

/-- What follows calls that returned fails as it does from the start. -/
theorem Given.within {s t : Stream} {m : Nat} {ws : List Write} (h : Given s m ws t) (n : Nat) :
    t.script.within n = s.script.within (m + n) := by
  rw [h.script, Script.within_after h.spared]

theorem Given.drained {s t : Stream} {n : Nat} {ws : List Write} (h : Given s n ws t) (hq : t.queue = []) :
    t.bytes = land s.bytes (s.queue ++ ws) := by
  have hlands := h.view.lands
  rw [show t.view.queue = [] from hq] at hlands
  exact hlands.drained

theorem call_triple {α : Type} {s : Stream} {ws : List Write} {op : Fs.Chance → Eff Unit Fs.Handle α}
    {Q : α → View → Prop} {E : Prop}
    (h : Eff.Triple (fun h => h = s.handle) (op (s.script 0))
      (fun a h => Fs.fails (s.script 0) = false ∧ s.view.Given ws (Fs.view h) ∧ Q a (Fs.view h))
      fun _ h => ¬ (Fs.fails (s.script 0) = false ∧ E) ∧ s.view.Broken ws (Fs.view h)) :
    Eff.Triple (fun t => t = s) (call ws op) (fun a t => Given s 1 ws t ∧ Q a t.view)
      fun e t => ¬ (s.script.within 1 = false ∧ E) ∧ e = ioError ∧ Broke s ws t := by
  rintro s rfl
  rw [Script.within_one]
  unfold call
  rcases h _ rfl with ⟨a, h', hx, hfails, hgiven, hq⟩ | ⟨e, h', hx, hn, hbroken⟩
  · rw [hx]
    refine Or.inl ⟨a, _, rfl, ⟨hgiven, ?_, rfl, rfl⟩, hq⟩
    rw [Script.within_one]
    exact hfails
  · rw [hx]
    exact Or.inr ⟨_, _, rfl, hn, rfl, hbroken, rfl⟩

variable [LawfulFs]

theorem seek_triple (s : Stream) (p : Nat) :
    Eff.Triple (fun t => t = s) (seek p) (fun _ t => Given s 1 [] t ∧ t.queue = [] ∧ t.cursor = p)
      fun e t => ¬ (s.script.within 1 = false ∧ s.view.Fits ∧ p ≤ Fs.limit) ∧ e = ioError ∧ Broke s [] t :=
  call_triple (Q := fun _ v => v.queue = [] ∧ v.cursor = p) (LawfulFs.seek (s.script 0) s.handle p)

theorem writeAll_triple (s : Stream) {data : Bytes} (ne : data ≠ []) :
    Eff.Triple (fun t => t = s) (writeAll data)
      (fun _ t => Given s 1 [(s.cursor, data)] t ∧ t.cursor = s.cursor + data.length)
      fun e t => ¬ (s.script.within 1 = false ∧ s.view.Fits ∧ Within Fs.limit (s.cursor, data)) ∧ e = ioError ∧
        Broke s [(s.cursor, data)] t := by
  rintro s rfl
  exact call_triple (Q := fun _ v => v.cursor = s.cursor + data.length) (LawfulFs.writeAll (s.script 0) s.handle data ne) s rfl

theorem flush_triple (s : Stream) :
    Eff.Triple (fun t => t = s) flush (fun _ t => Given s 1 [] t ∧ t.queue = [])
      fun e t => ¬ (s.script.within 1 = false ∧ s.view.Fits) ∧ e = ioError ∧ Broke s [] t :=
  call_triple (Q := fun _ v => v.queue = []) (LawfulFs.flush (s.script 0) s.handle)

theorem readExact_triple (s : Stream) (n : Nat) :
    Eff.Triple (fun t => t = s) (readExact n)
      (fun data t => Given s 1 [] t ∧ t.queue = [] ∧ s.cursor + n ≤ t.bytes.length ∧ data = slice t.bytes s.cursor n ∧
        t.cursor = s.cursor + n)
      fun e t => ¬ (s.script.within 1 = false ∧ s.view.Fits ∧ s.cursor + n ≤ (land s.bytes s.queue).length) ∧ e = ioError ∧
        Broke s [] t :=
  call_triple (Q := fun data v => v.queue = [] ∧ s.cursor + n ≤ v.bytes.length ∧ data = slice v.bytes s.cursor n ∧
    v.cursor = s.cursor + n) (LawfulFs.readExact (s.script 0) s.handle n)

/-! ## Positional writes -/

/-- The medium takes the two calls, and all that waits, and the write of `len` bytes at `p`, stays below the limit. -/
def Fits (s : Stream) (p len : Nat) : Prop := s.script.within 2 = false ∧ s.view.Fits ∧ p + len ≤ Fs.limit

/-- `data` was written at `p`, once all that waited had landed. -/
structure Put (s : Stream) (p : Nat) (data : Bytes) (t : Stream) : Prop extends Given s 2 [(p, data)] t where
  settled : Lands (land s.bytes s.queue) [(p, data)] t.bytes t.queue

theorem writeAt_triple (s : Stream) (p : Nat) {data : Bytes} (ne : data ≠ []) :
    Eff.Triple (fun t => t = s) (writeAt p data)
      (fun _ t => Put s p data t ∧ t.cursor = p + data.length)
      fun e t => ¬ Fits s p data.length ∧ e = ioError ∧ ∃ ws, Broke s ws t ∧ ∀ w ∈ ws, w = (p, data) := by
  refine Eff.Triple.bind (R := fun _ t => Given s 1 [] t ∧ t.queue = [] ∧ t.cursor = p)
    ((seek_triple s p).conseq (fun _ h => h) (fun _ _ h => h) ?_) ?_
  · rintro e t ⟨hn, he, hb⟩
    exact ⟨fun hfits => hn ⟨Script.within_mono hfits.1 (by decide), hfits.2.1, by have := hfits.2.2; omega⟩, he, [], hb, by simp⟩
  · rintro - t ⟨hgiven, hqueue, hcursor⟩
    have hgo := writeAll_triple t ne
    rw [hcursor] at hgo
    refine (hgo.conseq (fun _ h => h) ?_ ?_) _ rfl
    · rintro - u ⟨hthen, hend⟩
      refine ⟨⟨hgiven.trans hthen, ?_⟩, hend⟩
      have hlands := hthen.view.lands
      rw [show t.view.queue = [] from hqueue, show t.view.bytes = _ from hgiven.drained hqueue, List.append_nil] at hlands
      exact hlands
    · rintro e u ⟨hn, he, hb⟩
      refine ⟨fun hfits => hn ⟨?_, ?_, hfits.2.2⟩, he, _, hgiven.broke hb, by simp⟩
      · rw [hgiven.within]
        exact hfits.1
      · intro w hw
        rw [show t.view.queue = [] from hqueue] at hw
        cases hw

omit [LawfulFs] in
theorem Put.fits {s t : Stream} {p : Nat} {data : Bytes} (h : Put s p data t) (hle : p + data.length ≤ Fs.limit) : t.view.Fits :=
  h.settled.forall (parted_within Fs.limit) fun w hw => by rwa [List.mem_singleton.mp hw]

end Stream

/-! ## Segments -/

/-- `Segment::write`. -/
def Segment.write {S : Type} [Segment S] (seg : S) (offset : Nat) : Eff Fault Stream Sector := do
  let buf ← Eff.lift (wrap seg offset)
  let size ← Eff.lift (Serialize.size buf)
  let sector ← Eff.lift (Sector.new offset size.get)
  Stream.seek sector.offset
  Stream.writeAll buf
  return sector

omit [Fs] in
theorem bytes_size {buf : Bytes} (hne : buf ≠ []) (hlt : buf.length < 2 ^ 63) :
    ∃ n : NonZero, Serialize.size buf = .ok n ∧ n.get = buf.length := by
  have henc := encAll_bytes buf
  obtain ⟨n, hn⟩ := fixedSize_of_lt hne (by rw [henc]; exact hlt)
  exact ⟨n, hn, by rw [(vecSize_eq_ok hn).1, henc]⟩

variable {S : Type} [Segment S]

/-- The image is there and the medium takes it. -/
def Segment.Fits (seg : S) (offset : Nat) (s : Stream) : Prop :=
  ∃ image, wrap seg offset = .ok image ∧ image ≠ [] ∧ s.Fits offset image.length

/-- A segment that cannot be placed is refused before any call; else its image is written at the offset. -/
theorem Segment.write_cases (seg : S) (offset : Nat) :
    (∃ e, (∀ s, Segment.write seg offset s = (.error e, s)) ∧
      ∀ image : Bytes, wrap seg offset = .ok image → image ≠ [] → 2 ^ 63 ≤ offset + image.length) ∨
      ∃ (image : Bytes) (sector : Sector), wrap seg offset = .ok image ∧ image ≠ [] ∧ sector.offset = offset ∧
        sector.size = image.length ∧ Segment.write seg offset = Stream.writeAt offset image >>= fun _ => pure sector := by
  unfold Segment.write
  cases hwrap : wrap seg offset with
  | error e => exact Or.inl ⟨e, fun s => rfl, fun image himage => nomatch himage⟩
  | ok image =>
    cases hsize : Serialize.size image with
    | error e =>
      refine Or.inl ⟨e, fun s => by rw [Eff.bind_lift_ok rfl, hsize]; rfl, fun image' himage hne => ?_⟩
      cases himage
      by_contra hlt
      obtain ⟨n, hn, -⟩ := bytes_size hne (by omega)
      rw [hsize] at hn
      cases hn
    | ok n =>
      have hn : n.get = image.length := by rw [(vecSize_eq_ok hsize).1, encAll_bytes]
      have hpos := n.pos
      have hne : image ≠ [] := List.ne_nil_of_length_pos (by omega)
      cases hsector : Sector.new offset n.get with
      | error e =>
        refine Or.inl ⟨e, fun s => by rw [Eff.bind_lift_ok rfl, hsize, Eff.bind_lift_ok rfl, hsector]; rfl,
          fun image' himage _ => ?_⟩
        cases himage
        by_contra hlt
        rw [Sector.new_of_lt (by omega) n.pos n.lt] at hsector
        cases hsector
      | ok sector =>
        obtain ⟨hoffset, hsec⟩ := Sector.new_eq_ok hsector
        refine Or.inr ⟨image, sector, rfl, hne, hoffset, by omega, funext fun s => ?_⟩
        rw [Eff.bind_lift_ok rfl, hsize, Eff.bind_lift_ok rfl, hsector, Eff.bind_lift_ok rfl, Stream.writeAt, Eff.bind_assoc,
          hoffset]

/-- A segment is written whole, or it is refused or cut. -/
theorem Segment.write_triple [LawfulFs] (seg : S) (offset : Nat) (s : Stream) :
    Eff.Triple (fun t => t = s) (Segment.write seg offset)
      (fun sec t => ∃ image, wrap seg offset = .ok image ∧ image ≠ [] ∧ sec.offset = offset ∧ sec.size = image.length ∧
        s.Put offset image t)
      fun _ t => ¬ Segment.Fits seg offset s ∧
        ∃ ws, s.Broke ws t ∧ ∀ w ∈ ws, ∃ image, wrap seg offset = .ok image ∧ w = (offset, image) := by
  rintro s rfl
  have hlimit := LawfulFs.limit_lt
  rcases Segment.write_cases seg offset with ⟨e, hx, hlarge⟩ | ⟨image, sector, hwrap, hne, hoffset, hsize, hx⟩
  · refine Or.inr ⟨e, s, hx s, ?_, [], .refl s, by simp⟩
    rintro ⟨image, hwrap, hne, hfits⟩
    have hbelow := hfits.2.2
    have habove := hlarge image hwrap hne
    omega
  · rw [hx]
    rcases Stream.writeAt_triple s offset hne s rfl with ⟨a, t, ht, hput, -⟩ | ⟨e, t, ht, hn, -, ws, hb, hws⟩
    · rw [Eff.bind_ok ht]
      exact Or.inl ⟨sector, t, rfl, image, hwrap, hne, hoffset, hsize, hput⟩
    · rw [Eff.bind_error ht]
      refine Or.inr ⟨e, t, rfl, ?_, ws, hb, fun w hw => ⟨image, hwrap, hws w hw⟩⟩
      rintro ⟨image', hwrap', -, hfits⟩
      rw [hwrap] at hwrap'
      cases hwrap'
      exact hn hfits

end
end Msca
