import Msca.Foreign
import Msca.Walk

/-! Writes that fail. Until its segment has been taken a failing write changes nothing but bytes behind the segments,
and the next write puts those down anew: two datasets that differ there alone answer every operation alike. Once the
segment is registered the manifest in memory has changed, whatever becomes of the rest of the write. -/
namespace Msca
set_option autoImplicit false
open Checked Bytes

section
variable [Fs]

/-! ## Streams with a common front -/

/-- What waits stays below the limit, and out of the bytes up to `o`. -/
def Stream.Clear (o : Nat) (s : Stream) : Prop := ∀ w ∈ s.queue, Within Fs.limit w ∧ Bytes.Spares HEADER o w

/-- Behind the header the files are the same up to `o`, and stay so. -/
structure Stream.Beside (o : Nat) (s t : Stream) : Prop where
  left : s.Clear o
  right : t.Clear o
  front : Agree HEADER o s.bytes t.bytes

/-- The medium also fares the same, and once all that waits has landed the files are the same up to `n`. -/
structure Stream.Alike (o n : Nat) (s t : Stream) : Prop extends Beside o s t where
  script : s.script = t.script
  reach : Agree HEADER n (land s.bytes s.queue) (land t.bytes t.queue)

namespace Stream
variable {o n : Nat} {s t : Stream}

theorem Clear.fits (h : s.Clear o) : s.view.Fits := fun w hw => (h w hw).1

theorem Clear.mono {m : Nat} (h : s.Clear o) (hle : m ≤ o) : s.Clear m := fun w hw => ⟨(h w hw).1, (h w hw).2.mono hle⟩

theorem clear_of_nil (hq : s.queue = []) : s.Clear o := by
  intro w hw
  rw [hq] at hw
  cases hw

omit [Fs] in
theorem parted_clear (n o : Nat) : Parted fun w => Within n w ∧ Bytes.Spares HEADER o w where
  front p a b h := ⟨(parted_within n).front p a b h.1, (parted_spares HEADER o).front p a b h.2⟩
  back p a b h := ⟨(parted_within n).back p a b h.1, (parted_spares HEADER o).back p a b h.2⟩

theorem Beside.mono {m : Nat} (h : Beside o s t) (hle : m ≤ o) : Beside m s t :=
  ⟨h.left.mono hle, h.right.mono hle, h.front.mono hle⟩

/-- Files that are the same up to `o` are so once all that waits has landed. -/
theorem Beside.alike (h : Beside o s t) (hscript : s.script = t.script) : Alike o o s t := by
  refine ⟨h, hscript, ?_⟩
  have hleft := land_agree h.front.left fun w hw => (h.left w hw).2
  have hright := land_agree h.front.right fun w hw => (h.right w hw).2
  exact hleft.symm.trans (h.front.trans hright)

/-- Where nothing waits any more the files are the same as far as they were to be. -/
theorem Alike.drained {s' t' : Stream} {k l : Nat} (h : Alike o n s t) (hs : s.Given k [] s') (hqs : s'.queue = [])
    (ht : t.Given l [] t') (hqt : t'.queue = []) : Beside n s' t' := by
  refine ⟨clear_of_nil hqs, clear_of_nil hqt, ?_⟩
  rw [hs.drained hqs, ht.drained hqt, List.append_nil, List.append_nil]
  exact h.reach

/-- Calls that break off leave the common part alone when what they were to write does. -/
theorem Beside.broke {s' t' : Stream} {ws vs : List Write} (h : Beside o s t) (hs : s.Broke ws s') (ht : t.Broke vs t')
    (hws : ∀ w ∈ ws, Within Fs.limit w ∧ Bytes.Spares HEADER o w)
    (hvs : ∀ w ∈ vs, Within Fs.limit w ∧ Bytes.Spares HEADER o w) : Beside o s' t' := by
  refine ⟨hs.view.forall (parted_clear _ o) h.left hws, ht.view.forall (parted_clear _ o) h.right hvs, ?_⟩
  have hleft := hs.view.agree h.front.left (fun w hw => (h.left w hw).2) fun w hw => (hws w hw).2
  have hright := ht.view.agree h.front.right (fun w hw => (h.right w hw).2) fun w hw => (hvs w hw).2
  exact hleft.symm.trans (h.front.trans hright)

theorem Beside.given {s' t' : Stream} {k l : Nat} {ws vs : List Write} (h : Beside o s t) (hs : s.Given k ws s')
    (ht : t.Given l vs t') (hws : ∀ w ∈ ws, Within Fs.limit w ∧ Bytes.Spares HEADER o w)
    (hvs : ∀ w ∈ vs, Within Fs.limit w ∧ Bytes.Spares HEADER o w) : Beside o s' t' :=
  h.broke hs.toBroke ht.toBroke hws hvs

/-- A call that asks for nothing impossible ends as the medium has it, on either stream. -/
theorem call_sim {x : Eff Fault Stream Unit} {ws vs : List Write} {Q Q' : Stream → Prop} {E E' : Prop}
    (hs : Eff.Triple (fun u => u = s) x (fun _ u => s.Given 1 ws u ∧ Q u)
      fun e u => ¬ (s.script.within 1 = false ∧ E) ∧ e = ioError ∧ s.Broke ws u)
    (ht : Eff.Triple (fun u => u = t) x (fun _ u => t.Given 1 vs u ∧ Q' u)
      fun e u => ¬ (t.script.within 1 = false ∧ E') ∧ e = ioError ∧ t.Broke vs u)
    (hscript : s.script = t.script) (hE : E) (hE' : E') :
    (∃ u v, x s = (.ok (), u) ∧ x t = (.ok (), v) ∧ (s.Given 1 ws u ∧ Q u) ∧ t.Given 1 vs v ∧ Q' v) ∨
      ∃ u v, x s = (.error ioError, u) ∧ x t = (.error ioError, v) ∧ s.Broke ws u ∧ t.Broke vs v := by
  rcases hs s rfl with ⟨⟨⟩, u, hu, hq⟩ | ⟨e, u, hu, hn, rfl, hb⟩ <;>
    rcases ht t rfl with ⟨⟨⟩, v, hv, hq'⟩ | ⟨e, v, hv, hn', rfl, hb'⟩
  · exact Or.inl ⟨u, v, hu, hv, hq, hq'⟩
  · exact absurd ⟨hscript ▸ hq.1.spared, hE'⟩ hn'
  · exact absurd ⟨hscript ▸ hq'.1.spared, hE⟩ hn
  · exact Or.inr ⟨u, v, hu, hv, hb, hb'⟩

variable [LawfulFs]

/-- Both streams are at `p` and nothing waits. -/
structure Sought (p n : Nat) (s t : Stream) : Prop extends Alike n n s t where
  queue : s.queue = [] ∧ t.queue = []
  cursor : s.cursor = p ∧ t.cursor = p

theorem seek_sim {p : Nat} (hp : p ≤ Fs.limit) : Eff.Sim (Alike o n) (seek p) (seek p) fun r s t =>
    Beside o s t ∧ (r = .ok () → Sought p n s t) := by
  intro s t h
  rcases call_sim (seek_triple s p) (seek_triple t p) h.script ⟨h.left.fits, hp⟩ ⟨h.right.fits, hp⟩ with
    ⟨u, v, hx, hy, ⟨hs, hqs, hcs⟩, ht, hqt, hct⟩ | ⟨u, v, hx, hy, hs, ht⟩
  · rw [hx, hy]
    have hscript : u.script = v.script := by rw [hs.script, ht.script, h.script]
    exact ⟨rfl, h.toBeside.given hs ht (by simp) (by simp), fun _ =>
      ⟨(h.drained hs hqs ht hqt).alike hscript, ⟨hqs, hqt⟩, hcs, hct⟩⟩
  · rw [hx, hy]
    exact ⟨rfl, h.toBeside.broke hs ht (by simp) (by simp), fun hok => nomatch hok⟩

theorem writeAll_sim {p : Nat} {data : Bytes} (ne : data ≠ []) (hp : p ≤ n) (hlimit : p + data.length ≤ Fs.limit)
    (hspares : Bytes.Spares HEADER n (p, data)) :
    Eff.Sim (Sought p n) (writeAll data) (writeAll data) fun r s t =>
      Beside n s t ∧ (r = .ok () → Alike n (max n (p + data.length)) s t) := by
  intro s t h
  have hws : ∀ w ∈ [(p, data)], Within Fs.limit w ∧ Bytes.Spares HEADER n w := by
    intro w hw
    rw [List.mem_singleton.mp hw]
    exact ⟨hlimit, hspares⟩
  have hs := writeAll_triple s ne
  have ht := writeAll_triple t ne
  rw [h.cursor.1] at hs
  rw [h.cursor.2] at ht
  rcases call_sim hs ht h.script ⟨h.left.fits, hlimit⟩ ⟨h.right.fits, hlimit⟩ with
    ⟨u, v, hx, hy, ⟨hs, -⟩, ht, -⟩ | ⟨u, v, hx, hy, hs, ht⟩
  · rw [hx, hy]
    have hbeside := h.toBeside.given hs ht hws hws
    refine ⟨rfl, hbeside, fun _ => ⟨hbeside, by rw [hs.script, ht.script, h.script], ?_⟩⟩
    have hleft : land u.bytes u.queue = overlay s.bytes p data := by
      rw [hs.view.lands.land_eq, show s.view.queue = [] from h.queue.1]
      rfl
    have hright : land v.bytes v.queue = overlay t.bytes p data := by
      rw [ht.view.lands.land_eq, show t.view.queue = [] from h.queue.2]
      rfl
    rw [hleft, hright]
    exact h.front.overlay hp data
  · rw [hx, hy]
    exact ⟨rfl, h.toBeside.broke hs ht hws hws, fun hok => nomatch hok⟩

theorem flush_sim : Eff.Sim (Alike o n) flush flush fun r s t => Beside o s t ∧ (r = .ok () → s.script = t.script) := by
  intro s t h
  rcases call_sim (flush_triple s) (flush_triple t) h.script h.left.fits h.right.fits with
    ⟨u, v, hx, hy, ⟨hs, -⟩, ht, -⟩ | ⟨u, v, hx, hy, hs, ht⟩
  · rw [hx, hy]
    exact ⟨rfl, h.toBeside.given hs ht (by simp) (by simp), fun _ => by rw [hs.script, ht.script, h.script]⟩
  · rw [hx, hy]
    exact ⟨rfl, h.toBeside.broke hs ht (by simp) (by simp), fun hok => nomatch hok⟩

theorem writeAt_sim {p : Nat} {data : Bytes} (ne : data ≠ []) (ho : o ≤ n) (hp : p ≤ n)
    (hlimit : p + data.length ≤ Fs.limit) (hspares : Bytes.Spares HEADER n (p, data)) :
    Eff.Sim (Alike o n) (writeAt p data) (writeAt p data) fun r s t =>
      Beside o s t ∧ (r = .ok () → Alike n (max n (p + data.length)) s t) := by
  refine (seek_sim (by omega)).bind (fun _ s t h => ?_) fun e s t h => ⟨h.1, fun hok => nomatch hok⟩
  obtain ⟨heq, hbeside, halike⟩ := writeAll_sim ne hp hlimit hspares s t (h.2 rfl)
  exact ⟨heq, hbeside.mono ho, halike⟩

end Stream

variable [LawfulFs]

theorem Segment.write_sim {S : Type} [Segment S] (seg : S) {o n : Nat} (ho : o ≤ n)
    (hlimit : ∀ image : Bytes, wrap seg n = .ok image → n + image.length ≤ Fs.limit) :
    Eff.Sim (Stream.Alike o n) (Segment.write seg n) (Segment.write seg n) fun r s t =>
      Stream.Beside o s t ∧ ∀ sec : Sector, r = .ok sec → ∃ image, wrap seg n = .ok image ∧ sec.offset = n ∧
        sec.size = image.length ∧ Stream.Alike n (n + image.length) s t := by
  rcases Segment.write_cases seg n with ⟨e, hx, -⟩ | ⟨image, sector, hwrap, hne, hoffset, hsize, hx⟩
  · intro s t h
    rw [hx, hx]
    exact ⟨rfl, h.toBeside, fun sec hok => nomatch hok⟩
  · rw [hx]
    refine (Stream.writeAt_sim hne ho (Nat.le_refl n) (hlimit image hwrap) (Or.inr (Nat.le_refl n))).bind
      (fun _ => Eff.Sim.pure fun s t h => ⟨h.1, fun sec hsec => ?_⟩) fun e s t h => ⟨h.1, fun sec hok => nomatch hok⟩
    cases hsec
    have halike := h.2 rfl
    rw [Nat.max_eq_right (Nat.le_add_right _ _)] at halike
    exact ⟨image, hwrap, hoffset, hsize, halike⟩

/-! ## Files with a common front -/

/-- Header and manifest are the same, the manifest lies behind the map, and so are the files up to the manifest. -/
structure File.Beside (map : Nat) (f g : File) : Prop where
  header : f.header = g.header
  manifest : f.manifest = g.manifest
  base : map + HEADER ≤ f.header.offset
  stream : Stream.Beside f.header.offset f.stream g.stream

/-- The manifest is at `o`, and once all that waits has landed the files are the same up to `n`. -/
structure File.Alike (map o n : Nat) (f g : File) : Prop where
  header : f.header = g.header
  manifest : f.manifest = g.manifest
  base : map + HEADER ≤ o
  offset : f.header.offset = o
  stream : Stream.Alike o n f.stream g.stream

section
variable [Extern]

namespace File
variable {map o n : Nat}

omit [Extern] [LawfulFs] in
theorem Alike.beside {f g : File} (h : Alike map o n f g) {s t : Stream} (hst : Stream.Beside o s t) :
    Beside map (f.withStream s) (g.withStream t) := by
  refine ⟨h.header, h.manifest, ?_, ?_⟩
  · change map + HEADER ≤ f.header.offset
    rw [h.offset]
    exact h.base
  · change Stream.Beside f.header.offset s t
    rw [h.offset]
    exact hst

omit [Extern] in
theorem header_write_sim (ho : HEADER ≤ o) (hn : o ≤ n) (hlimit : HEADER ≤ Fs.limit) (header : Sector) :
    Eff.Sim (Stream.Alike o n) (Header.write header) (Header.write header) fun r s t =>
      Stream.Beside o s t ∧ (r = .ok () → s.script = t.script) := by
  have hlen := header_serialize_length header
  rw [HEADER] at ho hlimit
  refine (Stream.writeAt_sim (header_serialize_ne header) hn (by rw [Header.OFFSET]; omega)
    (by rw [hlen, Header.OFFSET]; omega) (header_spares header n)).bind (fun _ s t h => ?_)
    fun e s t h => ⟨h.1, by rintro ⟨⟩⟩
  obtain ⟨heq, hbeside, hscript⟩ := Stream.flush_sim s t (h.2 rfl)
  exact ⟨heq, hbeside.mono hn, hscript⟩

theorem publish_sim {m : Manifest} (ho : o ≤ n) (hlimit : ∀ index : Bytes, wrap m n = .ok index → n + index.length ≤ Fs.limit)
    (hheader : HEADER ≤ Fs.limit) :
    Eff.Sim (fun f g => Alike map o n f g ∧ f.manifest = m) (publish n) (publish n) fun r f g =>
      Beside map f g ∧ (r = .ok () → f.stream.script = g.stream.script) := by
  unfold publish
  refine Eff.Sim.bind_gets (fun f g h => h.1.manifest) fun manifest => ?_
  by_cases hm : manifest = m
  swap
  · rintro f g ⟨⟨-, rfl⟩, rfl, -⟩
    exact absurd rfl hm
  subst hm
  refine Eff.Sim.bind (Q := fun r f g => Beside map f g ∧ ∀ header : Sector, r = .ok header → header.offset = n ∧
        map + HEADER ≤ n ∧ ∃ k, n ≤ k ∧ Stream.Alike n k f.stream g.stream)
    (Eff.Sim.focus (Segment.write_sim manifest ho hlimit) (fun f g h => h.1.1.stream) ?_) (fun header => ?_)
    fun e f g h => ⟨h.1, fun hok => nomatch hok⟩
  · rintro r f g s t ⟨⟨h, -⟩, -⟩ ⟨hbeside, hok⟩
    refine ⟨h.beside hbeside, fun header hr => ?_⟩
    obtain ⟨index, -, hoffset, -, halike⟩ := hok header hr
    exact ⟨hoffset, Nat.le_trans h.base ho, _, Nat.le_add_right _ _, halike⟩
  · refine Eff.Sim.bind (Q := fun _ f g => ∃ k, n ≤ k ∧ Alike map n k f g) (Eff.Sim.modify ?_) (fun _ => ?_) ?_
    · rintro f g ⟨h, hok⟩
      obtain ⟨hoffset, hbase, k, hk, halike⟩ := hok header rfl
      exact ⟨k, hk, rfl, h.manifest, hbase, hoffset, halike⟩
    · rintro f g ⟨k, hk, h⟩
      have hn : HEADER ≤ n := Nat.le_trans (Nat.le_add_left _ _) h.base
      obtain ⟨heq, hbeside, hscript⟩ := header_write_sim hn hk hheader header f.stream g.stream h.stream
      exact ⟨heq, h.beside hbeside, hscript⟩
    · rintro e f g ⟨k, hk, h⟩
      exact ⟨h.beside h.stream.toBeside, fun hok => nomatch hok⟩

/-- Registration and what comes after it go alike once the segment has been taken. -/
theorem register_sim {S : Type} [Segment S] [Register S] (seg : S) {m : Manifest} {sec : Sector} {image : Bytes}
    (hoffset : sec.offset = o) (hsize : sec.size = image.length) (hlimit : o + image.length ≤ Fs.limit)
    (hindex : ∀ index : Bytes, wrap (register seg sec m).2 (o + image.length) = .ok index →
      o + image.length + index.length ≤ Fs.limit) :
    Eff.Sim (fun f g => Alike map o (o + image.length) f g ∧ f.manifest = m)
      (do
        Eff.focus File.manifest withManifest (register seg sec)
        let next ← Eff.lift (okOr zeroError sec.next)
        publish next
        return sec)
      (do
        Eff.focus File.manifest withManifest (register seg sec)
        let next ← Eff.lift (okOr zeroError sec.next)
        publish next
        return sec)
      fun r f g => Beside map f g ∧ ∀ sec, r = .ok sec → f.stream.script = g.stream.script := by
  refine Eff.Sim.bind (Q := fun _ f g => Alike map o (o + image.length) f g ∧ f.manifest = (register seg sec m).2) ?_
    (fun _ => ?_) fun e f g h => ⟨h.1.beside h.1.stream.toBeside, fun sec hok => nomatch hok⟩
  · rintro f g ⟨h, rfl⟩
    unfold Eff.focus
    rw [← h.manifest]
    exact ⟨rfl, ⟨h.header, rfl, h.base, h.offset, h.stream⟩, rfl⟩
  · refine Eff.Sim.bind (Q := fun r f g => (Alike map o (o + image.length) f g ∧ f.manifest = (register seg sec m).2) ∧
        ∀ next, r = .ok next → next = o + image.length)
      (Eff.Sim.lift fun f g h => ⟨h, fun next hnext => ?_⟩) (fun next => ?_)
      fun e f g h => ⟨h.1.1.beside h.1.1.stream.toBeside, fun sec hok => nomatch hok⟩
    · rw [(add_eq_some.mp (okOr_eq_ok.mp hnext)).2, hoffset, hsize, Nat.add_comm]
    · rintro f g ⟨h, hnext⟩
      rw [hnext next rfl]
      have hheader : HEADER ≤ Fs.limit := by
        have hbase := h.1.base
        omega
      exact (publish_sim (Nat.le_add_right _ _) hindex hheader).bind
        (S := fun r f g => Beside map f g ∧ ∀ sec : Sector, r = .ok sec → f.stream.script = g.stream.script)
        (fun _ => Eff.Sim.pure fun f g h => ⟨h.1, fun _ _ => h.2 rfl⟩) (fun e f g h => ⟨h.1, fun sec hok => nomatch hok⟩) f g h

/-- Two files that differ behind the segments alone take a write alike. -/
theorem write_sim {S : Type} [Segment S] [Register S] (seg : S) :
    Eff.Sim (fun f g => (Beside map f g ∧ f.stream.script = g.stream.script) ∧ Bounded seg f) (write seg) (write seg)
      fun r f g => Beside map f g ∧ ∀ sec, r = .ok sec → f.stream.script = g.stream.script := by
  rintro f₀ g₀ ⟨⟨h, hscript⟩, hbounded⟩
  have hfirst : ∀ image : Bytes, wrap seg f₀.header.offset = .ok image → f₀.header.offset + image.length ≤ Fs.limit :=
    fun image himage => (hbounded image himage).1
  unfold write
  rw [Eff.bind_gets, Eff.bind_gets, ← h.manifest]
  cases entry seg f₀.manifest with
  | error e => exact ⟨rfl, h, fun sec hok => nomatch hok⟩
  | ok =>
    rw [Eff.bind_lift_ok rfl, Eff.bind_lift_ok rfl, Eff.bind_gets, Eff.bind_gets, ← h.header]
    have hwritten : Eff.Sim (fun f g => f = f₀ ∧ g = g₀)
        (Eff.focus File.stream withStream (Segment.write seg f₀.header.offset))
        (Eff.focus File.stream withStream (Segment.write seg f₀.header.offset)) fun r f g =>
          (∃ s t, f = f₀.withStream s ∧ g = g₀.withStream t ∧ Stream.Beside f₀.header.offset s t) ∧
            ∀ sec : Sector, r = .ok sec → ∃ image, wrap seg f₀.header.offset = .ok image ∧ sec.offset = f₀.header.offset ∧
              sec.size = image.length ∧ Stream.Alike f₀.header.offset (f₀.header.offset + image.length) f.stream g.stream := by
      refine Eff.Sim.focus (Segment.write_sim seg (Nat.le_refl _) hfirst) ?_ ?_
      · rintro f g ⟨rfl, rfl⟩
        exact h.stream.alike hscript
      · rintro r f g s t ⟨rfl, rfl⟩ ⟨hbeside, hok⟩
        exact ⟨⟨s, t, rfl, rfl, hbeside⟩, hok⟩
    refine hwritten.bind (S := fun r f g => Beside map f g ∧ ∀ sec, r = .ok sec → f.stream.script = g.stream.script)
      (fun sec => ?_) (fun e f g h' => ?_) f₀ g₀ ⟨rfl, rfl⟩
    · rintro f g ⟨⟨s, t, rfl, rfl, -⟩, hok⟩
      obtain ⟨image, hwrap, hoffset, hsize, halike⟩ := hok sec rfl
      obtain ⟨hle, hregister⟩ := hbounded image hwrap
      obtain ⟨index, hindex, hend⟩ := hregister sec hoffset hsize
      refine register_sim seg hoffset hsize hle (fun index' hindex' => ?_) _ _ ⟨⟨h.header, h.manifest, h.base, rfl, halike⟩, rfl⟩
      have hsame : index' = index := Except.ok.inj (hindex'.symm.trans hindex)
      rw [hsame]
      exact hend
    · obtain ⟨⟨s, t, rfl, rfl, hbeside⟩, -⟩ := h'
      exact ⟨⟨h.header, h.manifest, h.base, hbeside⟩, fun sec hok => nomatch hok⟩

end File

/-! ## Datasets with a common front -/

/-- Header, manifest and map are the same, and so are the files in front of the manifest. -/
structure Dataset.Beside (d d' : Dataset) : Prop where
  map : d.map = d'.map
  file : File.Beside d.map d.file d'.file

namespace Dataset

omit [Extern] [LawfulFs] in
theorem Beside.mmap {d d' : Dataset} (h : Beside d d') : d.mmap = d'.mmap := by
  have hbase := h.file.base
  rw [Dataset.mmap, Dataset.mmap, ← h.map]
  exact h.file.stream.front.slice (Nat.le_refl _) (by omega)

omit [Extern] [LawfulFs] in
theorem Beside.arm {d d' : Dataset} (h : Beside d d') (σ : Script) : Beside (d.arm σ) (d'.arm σ) :=
  ⟨h.map, h.file.header, h.file.manifest, h.file.base, h.file.stream.left, h.file.stream.right, h.file.stream.front⟩

/-- What the operation writes, and the manifest behind it, end below the limit of the file system. -/
def Bounded (d : Dataset) (op : Op) : Prop := ∀ seg, op.seg? d = some seg → File.Bounded seg d.file

/-- The medium also fares the same. -/
def Alike (d d' : Dataset) : Prop := Beside d d' ∧ d.file.stream.script = d'.file.stream.script

theorem focus_sim {S : Type} [Segment S] [Register S] (seg : S) :
    Eff.Sim (fun d d' => Alike d d' ∧ File.Bounded seg d.file) (Eff.focus Dataset.file withFile (File.write seg))
      (Eff.focus Dataset.file withFile (File.write seg)) fun r d d' => Beside d d' ∧ ∀ sec, r = .ok sec → Alike d d' := by
  rintro d d' ⟨⟨h, hscript⟩, hbounded⟩
  obtain ⟨heq, hfile, hok⟩ := File.write_sim seg d.file d'.file ⟨⟨h.file, hscript⟩, hbounded⟩
  exact ⟨heq, ⟨h.map, hfile⟩, fun sec hsec => ⟨⟨h.map, hfile⟩, hok sec hsec⟩⟩

theorem write_sim {S : Type} [Segment S] [Register S] [Pending S] (acc : S) :
    Eff.Sim (fun d d' => Alike d d' ∧ (Pending.isEmpty acc = false → File.Bounded acc d.file)) (Dataset.write acc)
      (Dataset.write acc) fun _ d d' => Beside d d' := by
  unfold Dataset.write
  split
  · exact Eff.Sim.pure fun d d' h => h.1.1
  next hne =>
    refine Eff.Sim.bind (Q := fun r d d' => Beside d d' ∧ ∀ sec, r = .ok sec → Alike d d') ?_ (fun sec => ?_) fun e d d' h => h.1
    · rintro d d' ⟨h, hbounded⟩
      exact focus_sim acc d d' ⟨h, hbounded (by simpa using hne)⟩
    refine Eff.Sim.bind_gets (fun d d' h => ?_) fun map => ?_
    · rw [File.mmap, File.mmap, h.1.file.header, (h.2 sec rfl).2]
    refine Eff.Sim.bind (Q := fun r d d' => Beside d d' ∧ ∀ n, r = .ok n → d.file.mmap = .ok n)
      (Eff.Sim.lift fun d d' h => ⟨h.1.1, fun n hn => h.2.1.trans hn⟩) (fun n => ?_) fun e d d' h => h.1
    refine Eff.Sim.bind (Q := fun _ d d' => Beside d d') (Eff.Sim.modify fun d d' h => ⟨rfl, ?_⟩)
      (fun _ => Eff.Sim.pure fun d d' h => h) fun e d d' h => h
    have hmap := File.mmap_eq_ok (h.2 n rfl)
    exact ⟨h.1.file.header, h.1.file.manifest, Nat.le_of_eq hmap, h.1.file.stream⟩

theorem finish_sim (s : Schema) :
    Eff.Sim (fun d d' => Alike d d' ∧ (d.file.manifest.schemas.get? s.name = none → File.Bounded s d.file)) s.finish s.finish
      fun _ d d' => Beside d d' := by
  unfold Schema.finish
  refine Eff.Sim.bind_gets (fun d d' h => by rw [h.1.1.file.manifest]) fun entry => ?_
  cases entry with
  | none =>
    rintro d d' ⟨⟨h, hbounded⟩, hentry, -⟩
    obtain ⟨heq, hbeside, -⟩ := focus_sim s d d' ⟨h, hbounded hentry⟩
    exact ⟨heq, hbeside⟩
  | some e => exact Eff.Sim.lift fun d d' h => h.1.1.1

/-- Two datasets that differ behind the segments alone answer alike. -/
theorem perform_sim {op : Op} (hop : op ≠ .reopen) :
    Eff.Sim (fun d d' => Alike d d' ∧ d.Bounded op) (perform op) (perform op) fun _ d d' => Beside d d' := by
  cases op with
  | schema fs name =>
    rintro d d' ⟨h, hbounded⟩
    rw [perform_schema, perform_schema]
    refine (finish_sim (fs.schema name)).bind (S := fun _ d d' => Beside d d') (fun _ => Eff.Sim.pure fun d d' h => h)
      (fun e d d' h => h) d d' ⟨h, fun hvacant => ?_⟩
    have hvacant : d.file.manifest.schemas.get? name = none := hvacant
    exact hbounded (.schema (fs.schema name)) (by rw [Op.seg?, hvacant])
  | data a =>
    rintro d d' ⟨h, hbounded⟩
    exact (write_sim a).bind (S := fun _ d d' => Beside d d') (fun _ => Eff.Sim.pure fun d d' h => h) (fun e d d' h => h)
      d d' ⟨h, fun hne => hbounded (.data a) (by rw [Op.seg?, if_neg (by simp [hne])])⟩
  | bin b =>
    rintro d d' ⟨h, hbounded⟩
    exact (write_sim b).bind (S := fun _ d d' => Beside d d') (fun _ => Eff.Sim.pure fun d d' h => h) (fun e d d' h => h)
      d d' ⟨h, fun hne => hbounded (.bin b) (by rw [Op.seg?, if_neg (by simp [hne])])⟩
  | reopen => exact absurd rfl hop

/-- The answers of a run, and what it leaves. -/
def run (d : Dataset) : List Event → List (Res Answer) × Dataset
  | [] => ([], d)
  | e :: es => ((d.step e).1 :: ((d.step e).2.run es).1, ((d.step e).2.run es).2)

/-- The file is not opened anew, and there is room for all that is written. -/
def Roomy (d : Dataset) : List Event → Prop
  | [] => True
  | e :: es => e.op ≠ .reopen ∧ d.Bounded e.op ∧ (d.step e).2.Roomy es

theorem run_sim {es : List Event} {d d' : Dataset} (h : Beside d d') (hes : d.Roomy es) :
    (d.run es).1 = (d'.run es).1 ∧ Beside (d.run es).2 (d'.run es).2 := by
  induction es generalizing d d' with
  | nil => exact ⟨rfl, h⟩
  | cons e es ih =>
    obtain ⟨hop, hbounded, hes⟩ := hes
    have hbounded : (d.arm e.script).Bounded e.op := hbounded
    obtain ⟨heq, hstep⟩ := perform_sim hop (d.arm e.script) (d'.arm e.script) ⟨⟨h.arm e.script, rfl⟩, hbounded⟩
    obtain ⟨hrest, hend⟩ := ih hstep hes
    exact ⟨congrArg₂ List.cons heq hrest, hend⟩

end Dataset
/-! ## Datasets of any run -/

namespace File
variable {S : Type} [Segment S] [Register S] {seg : S} {f t : File}

omit [LawfulFs] in
theorem Stopped.advance (h : Stopped seg f t) : f.header.offset ≤ t.header.offset ∧
    (f.header.offset ≤ f.bytes.length → (∀ w ∈ f.queue, Bytes.Spares HEADER f.header.offset w) →
      t.header.offset ≤ t.bytes.length ∧ ∀ w ∈ t.queue, Bytes.Spares HEADER t.header.offset w) := by
  cases h with
  | refused _ header _ broke =>
    obtain ⟨ws, hbroke, hws⟩ := broke
    rw [header]
    refine ⟨Nat.le_refl _, fun hle hqueue => ⟨Nat.le_trans hle hbroke.view.length_le, ?_⟩⟩
    refine hbroke.view.forall (parted_spares HEADER _) hqueue fun w hw => ?_
    obtain ⟨image, -, rfl⟩ := hws w hw
    exact Or.inr (Nat.le_refl _)
  | registered h _ _ header broke =>
    obtain ⟨ws, hbroke, hws⟩ := broke
    rcases header with header | ⟨header, hle, hqueue⟩
    · rw [header]
      exact ⟨Nat.le_refl _, fun hle hqueue => ⟨Nat.le_trans hle hbroke.view.length_le,
        hbroke.view.forall (parted_spares HEADER _) hqueue hws⟩⟩
    · exact ⟨by omega, fun _ _ => ⟨hle, hqueue⟩⟩

omit [LawfulFs] in
theorem Written.advance {image index : Bytes} {sec : Sector} (h : Written seg f image sec index t) :
    f.header.offset ≤ t.header.offset ∧ t.header.offset ≤ t.bytes.length := by
  have hbelow := h.below
  have hoffset := h.published.offset
  exact ⟨by omega, by omega⟩

end File

namespace Dataset

/-- A dataset of a new file, after operations of any outcome. -/
inductive Arises : Dataset → Prop
  | new {σ : Script} {d : Dataset} {t : Stream} (ok : Dataset.new ⟨Fs.opened [], σ, []⟩ = (.ok d, t)) : Arises d
  | step {d : Dataset} (h : Arises d) (e : Event) : Arises (d.step e).2

/-- The manifest lies behind the map and starts within the file, and what waits to be written goes behind it or to the
header. -/
structure Grounded (d : Dataset) : Prop where
  map_le : d.map + HEADER ≤ d.file.header.offset
  offset_le : d.file.header.offset ≤ d.file.bytes.length
  spares : ∀ w ∈ d.file.queue, Bytes.Spares HEADER d.file.header.offset w

theorem open_eq_ok {bytes : Bytes} {σ : Script} {log : List Write} {d : Dataset} {t : Stream}
    (h : Dataset.open ⟨Fs.opened bytes, σ, log⟩ = (.ok d, t)) :
    (d.file.bytes = bytes ∧ d.file.queue = [] ∧ d.file.stream.log = log) ∧
      slice bytes Header.OFFSET 16 = Header.serialize d.file.header ∧
        d.file.header.offset + d.file.header.size ≤ bytes.length ∧ d.map + HEADER = d.file.header.offset := by
  have hopened := LawfulFs.opened bytes
  have hqueue : (Stream.mk (Fs.opened bytes) σ log).queue = [] := congrArg View.queue hopened
  have hbytes : (Stream.mk (Fs.opened bytes) σ log).bytes = bytes := congrArg View.bytes hopened
  unfold Dataset.open Dataset.attach at h
  obtain ⟨⟨header, manifest⟩, u, hopen, h⟩ := Eff.bind_eq_ok h
  rw [Eff.bind_gets] at h
  obtain ⟨map, v, hmap, h⟩ := Eff.bind_eq_ok h
  cases h
  obtain ⟨⟨n, hgiven⟩, hregion, hbelow⟩ := Msca.open_eq_ok (congrArg View.cursor hopened) hqueue hopen
  obtain ⟨hstill, hempty⟩ := hgiven.still hqueue
  rw [hbytes] at hregion hbelow hstill
  exact ⟨⟨hstill, hempty, by rw [hgiven.log, List.append_nil]⟩, hregion, hbelow, File.mmap_eq_ok (congrArg Prod.fst hmap)⟩

/-- What an operation does to the file: nothing, a write that stops or returns, or an opening. -/
inductive Moved (d : Dataset) : Op → Dataset → Prop
  | stayed {op : Op} : Moved d op d
  | stopped {op : Op} {seg : Seg} {f : File} (h : File.Stopped seg d.file f) : Moved d op (d.withFile f)
  | written {op : Op} {seg : Seg} {image index : Bytes} {sec : Sector} {f : File} {map : Nat}
      (h : File.Written seg d.file image sec index f) (hmap : map = d.map ∨ map + HEADER = f.header.offset) :
      Moved d op ⟨f, map⟩
  | opened {d' : Dataset} {s : Stream} (ok : Dataset.open d.file.stream.reopened = (.ok d', s)) : Moved d .reopen d'

theorem moved (op : Op) (d : Dataset) : Moved d op (Dataset.perform op d).2 := by
  have hperformed := Dataset.performed op d
  generalize (Dataset.perform op d).1 = r, (Dataset.perform op d).2 = d' at hperformed
  cases hperformed with
  | matched => exact .stayed
  | clashed => exact .stayed
  | ignored => exact .stayed
  | closed => exact .stayed
  | failed _ error => exact .stopped ((File.write_triple _ d.file).error rfl error)
  | added _ ok =>
    obtain ⟨image, index, hw⟩ := (File.write_triple _ d.file).ok rfl ok
    exact .written hw (Or.inl rfl)
  | mapped _ _ ok hmap =>
    obtain ⟨image, index, hw⟩ := (File.write_triple _ d.file).ok rfl ok
    exact .written hw (Or.inr (File.mmap_eq_ok hmap))
  | unmapped _ _ ok =>
    obtain ⟨image, index, hw⟩ := (File.write_triple _ d.file).ok rfl ok
    exact .written hw (Or.inl rfl)
  | opened ok => exact .opened ok

theorem Grounded.moved {d d' : Dataset} (h : d.Grounded) {op : Op} (hmoved : d.Moved op d') : d'.Grounded := by
  have hmap := h.map_le
  cases hmoved with
  | stayed => exact h
  | stopped hstop =>
    obtain ⟨hup, hin⟩ := hstop.advance
    obtain ⟨hle, hspares⟩ := hin h.offset_le h.spares
    exact ⟨Nat.le_trans hmap hup, hle, hspares⟩
  | @written _ seg image index sec f map hw hmap' =>
    refine ⟨?_, hw.advance.2, ?_⟩
    · change map + HEADER ≤ f.header.offset
      rcases hmap' with rfl | hmap'
      · exact Nat.le_trans hmap hw.advance.1
      · exact Nat.le_of_eq hmap'
    · change ∀ w ∈ f.queue, _
      rw [hw.drained]
      simp
  | opened ok =>
    obtain ⟨⟨hbytes, hqueue, -⟩, -, hbelow, hopened⟩ := open_eq_ok ok
    refine ⟨Nat.le_of_eq hopened, ?_, ?_⟩
    · rw [hbytes]
      omega
    · rw [hqueue]
      simp

theorem Arises.grounded {d : Dataset} (h : Arises d) : d.Grounded := by
  induction h with
  | @new σ d t ok =>
    have hstart := Session.Consistent.start (s := ⟨d, [], []⟩) ⟨σ, t, ok, rfl, rfl⟩
    have hbelow : d.file.header.offset + d.file.header.size ≤ d.file.bytes.length := hstart.stored.below
    have hqueue : d.file.queue = [] := hstart.settled
    refine ⟨hstart.map_le, by omega, ?_⟩
    rw [hqueue]
    simp
  | @step d _ e ih =>
    have harm : (d.arm e.script).Grounded := ⟨ih.map_le, ih.offset_le, ih.spares⟩
    exact harm.moved (Dataset.moved e.op _)

end Dataset

/-! ## Writes that leave no trace -/

omit [Fs] [LawfulFs] in
/-- A segment that is registered shows in the manifest. -/
theorem register_ne {seg : Seg} {m : Manifest} {o : Nat} {image : Bytes} {sec : Sector} (heven : seg.Even m)
    (hbefore : m.Before o) (hentry : entry seg m = .ok ()) (hstart : HEADER ≤ o) (hoffset : sec.offset = o)
    (hwrap : wrap seg o = .ok image) (hend : o + image.length < 2 ^ 64) : (register seg sec m).2 ≠ m := by
  subst hoffset
  intro hsame
  cases seg with
  | schema s =>
    have hvacant : m.schemas.get? s.name = none := schema_vacant hentry
    have hget := congrArg (fun m : Manifest => m.schemas.get? s.name) hsame
    change (m.schemas.insertVacant s.name _).get? s.name = _ at hget
    rw [OrdMap.get?_insertVacant_self _ hvacant, hvacant] at hget
    cases hget
  | @data fs a =>
    obtain ⟨⟨rows, hdata, hne, hrows⟩, hcolumns⟩ := heven
    cases he : m.schemas.get? a.name with
    | none =>
      change (fun _ => ()) <$> okOr _ (m.schemas.get? a.name) = _ at hentry
      rw [he] at hentry
      cases hentry
    | some e =>
      have hlen := hcolumns e he
      obtain ⟨descs, hdescs, hreg, hdescribes⟩ := register_describes he hlen hdata hne hrows hstart hwrap hend
      have hmanifest : { m with schemas := m.schemas.modify a.name fun _ => e.insert descs } = m := by
        exact (congrArg Prod.snd hreg).symm.trans hsame
      have hget := congrArg (fun m : Manifest => m.schemas.get? a.name) hmanifest
      change (m.schemas.modify a.name fun _ => e.insert descs).get? a.name = _ at hget
      rw [OrdMap.get?_modify_self _ he, he] at hget
      have hinsert : e.insert descs = e := Option.some.inj hget
      -- The first column has one more buffer, which lies behind all others.
      have hpos := Fields.types_pos fs
      obtain ⟨desc, hdesc, hd⟩ := hdescribes ⟨0, hpos⟩
      obtain ⟨col, hcol⟩ : ∃ col, e.columns.values[0]? = some col :=
        ⟨_, List.getElem?_eq_getElem (by rw [hlen]; exact hpos)⟩
      have hvalues := (Manifest.Schema.insert_columns hdescs).2
      have hzip : (List.zipWith Column.insert e.columns.values descs)[0]? = some (col.insert desc) :=
        List.getElem?_zipWith_eq_some.mpr ⟨col, desc, hcol, hdesc, rfl⟩
      rw [← hvalues, hinsert, hcol] at hzip
      have hadded := hbefore.added he hcol hd.above
      rw [← Option.some.inj hzip] at hadded
      have hlonger := congrArg List.length hadded
      simp at hlonger
  | bin b =>
    have hvacant := bin_vacant hentry
    obtain ⟨sector, hreg, -⟩ := bin_register hstart hwrap hend m
    have hmanifest : { m with bins := m.bins.insertVacant b.name sector } = m := by
      exact (congrArg Prod.snd hreg).symm.trans hsame
    have hget := congrArg (fun m : Manifest => m.bins.get? b.name) hmanifest
    change (m.bins.insertVacant b.name sector).get? b.name = _ at hget
    rw [OrdMap.get?_insertVacant_self _ hvacant, hvacant] at hget
    cases hget

namespace Dataset

/-- What a reader goes by is the same: the manifest and the bytes under the map. -/
structure Shows (d d' : Dataset) : Prop where
  header : d'.file.header = d.file.header
  manifest : d'.file.manifest = d.file.manifest
  map : d'.map = d.map
  mmap : d'.mmap = d.mmap

/-- When the write of `e` fails, header and manifest are as before, and all that follows goes as if `e` had never been. -/
def Atomic (d : Dataset) (e : Event) : Prop :=
  ∀ seg fault f, e.op.seg? d = some seg → File.write seg (d.arm e.script).file = (.error fault, f) →
    (d.step e).1 = .error fault ∧ f.manifest = d.file.manifest ∧ f.header = d.file.header ∧
      ∀ es : List Event, d.Roomy es →
        ((d.step e).2.run es).1 = (d.run es).1 ∧ (d.run es).2.Shows ((d.step e).2.run es).2

/-- There is room for what `e` writes, and for what still waits: both end below the limit of the file system, and an
accumulator was filled record by record and has the columns of its schema. -/
structure Room (d : Dataset) (e : Event) : Prop where
  even : ∀ seg, e.op.seg? d = some seg → seg.Even d.file.manifest
  bounded : d.Bounded e.op
  fits : d.file.stream.view.Fits

/-- What waits ends below the limit of the file system, and so does the segment of `e`. Where its name is free and it has an
image the medium fails before that is taken; or it fails in none of the seven calls of the write, there is room for the
manifest, and an accumulator was filled record by record and has the columns of its schema. -/
structure Spared (d : Dataset) (e : Event) : Prop where
  fits : d.file.stream.view.Fits
  below : ∀ seg, e.op.seg? d = some seg → ∀ image : Bytes, wrap seg d.file.header.offset = .ok image →
    d.file.header.offset + image.length ≤ Fs.limit
  timely : ∀ seg, e.op.seg? d = some seg → entry seg d.file.manifest = .ok () →
    (∃ image, wrap seg d.file.header.offset = .ok image) →
      e.script.within 2 = true ∨ e.script.within 7 = false ∧ seg.Even d.file.manifest ∧ File.Bounded seg d.file

omit [LawfulFs] in
theorem perform_failed {d : Dataset} {op : Op} {seg : Seg} {fault : Fault} {f : File} (hseg : op.seg? d = some seg)
    (hw : File.write seg d.file = (.error fault, f)) : perform op d = (.error fault, d.withFile f) := by
  have hperformed := Dataset.performed op d
  generalize Dataset.perform op d = p at hperformed ⊢
  obtain ⟨r, d'⟩ := p
  dsimp only at hperformed
  cases hperformed with
  | matched found => simp [Op.seg?, found] at hseg
  | clashed found => simp [Op.seg?, found] at hseg
  | ignored hnone => simp [hnone] at hseg
  | failed writes error =>
    obtain rfl := Option.some.inj (writes.symm.trans hseg)
    rw [hw] at error
    cases error
    rfl
  | added vacant ok =>
    rw [Op.seg?, vacant] at hseg
    cases hseg
    rw [hw] at ok
    cases ok
  | mapped _ writes ok =>
    obtain rfl := Option.some.inj (writes.symm.trans hseg)
    rw [hw] at ok
    cases ok
  | unmapped _ writes ok =>
    obtain rfl := Option.some.inj (writes.symm.trans hseg)
    rw [hw] at ok
    cases ok
  | opened => cases hseg
  | closed => cases hseg

omit [Extern] [LawfulFs] in
theorem Beside.shows {d d' : Dataset} (h : Beside d d') : d.Shows d' :=
  ⟨h.file.header.symm, h.file.manifest.symm, h.map.symm, h.mmap.symm⟩
/-- A write that is spared leaves no trace when it fails. -/
theorem Spared.atomic {d : Dataset} {e : Event} (h : d.Spared e) (hground : d.Grounded) : d.Atomic e := by
  intro seg fault f hseg hw
  have hstep : d.step e = (.error fault, (d.arm e.script).withFile f) := perform_failed (d := d.arm e.script) hseg hw
  have hstopped : File.Stopped seg (d.arm e.script).file f := (File.write_triple seg _).error rfl hw
  have hstart : HEADER ≤ d.file.header.offset := Nat.le_trans (Nat.le_add_left _ _) hground.map_le
  obtain ⟨hheader, hmanifest, ws, hbroke, hws⟩ := hstopped.spared fun image sec happ => by
    rcases h.timely seg hseg happ.reserved ⟨image, happ.wrapped⟩ with hfails | ⟨hnone, heven, hbounded⟩
    · exact absurd (happ.spared.symm.trans hfails) Bool.false_ne_true
    · exact happ.completes hstart heven hbounded hnone
  have hclear : d.file.stream.Clear d.file.header.offset := fun w hw => ⟨h.fits w hw, hground.spares w hw⟩
  have hself : Stream.Beside d.file.header.offset d.file.stream (d.arm e.script).file.stream :=
    ⟨hclear, hclear, Agree.refl hground.offset_le⟩
  have hstream := hself.broke (.refl _) hbroke (by simp) fun w hw => by
    obtain ⟨image, hwrap, rfl⟩ := hws w hw
    exact ⟨h.below seg hseg image hwrap, Or.inr (Nat.le_refl _)⟩
  have hbeside : Beside d ((d.arm e.script).withFile f) := ⟨rfl, hheader.symm, hmanifest.symm, hground.map_le, hstream⟩
  rw [hstep]
  refine ⟨rfl, hmanifest, hheader, fun es hes => ?_⟩
  obtain ⟨hanswers, hend⟩ := run_sim hbeside hes
  exact ⟨hanswers.symm, hend.shows⟩

/-- Where there is room, a write that leaves no trace when it fails is spared. -/
theorem Atomic.spared {d : Dataset} {e : Event} (h : d.Atomic e) (hroom : d.Room e) (hground : d.Grounded)
    (hbefore : d.file.manifest.Before d.file.header.offset) : d.Spared e := by
  have hlimit := LawfulFs.limit_lt
  refine ⟨hroom.fits, fun seg hseg image hwrap => (hroom.bounded seg hseg image hwrap).1, fun seg hseg hentry => ?_⟩
  rintro ⟨image, hwrap⟩
  by_contra hlate
  obtain ⟨htaken, hfails⟩ := not_or.mp hlate
  have htaken : (d.arm e.script).file.stream.script.within 2 = false := Bool.eq_false_iff.mpr htaken
  have hend := (hroom.bounded seg hseg image hwrap).1
  have hstart : HEADER ≤ d.file.header.offset := Nat.le_trans (Nat.le_add_left _ _) hground.map_le
  rcases File.write_triple seg (d.arm e.script).file _ rfl with ⟨sec, f, -, image', index, hw⟩ | ⟨fault, f, hx, hstop⟩
  · exact hfails ⟨hw.given.spared, hroom.even seg hseg, hroom.bounded seg hseg⟩
  · obtain ⟨-, hmanifest, -⟩ := h seg fault f hseg hx
    cases hstop with
    | refused hn =>
      exact hn ⟨hentry, image, hwrap, wrap_ne_nil hwrap, htaken, hroom.fits, hend⟩
    | @registered image' sec happ _ hregister =>
      rw [hmanifest] at hregister
      have himage : image' = image := Except.ok.inj (happ.wrapped.symm.trans hwrap)
      subst himage
      exact register_ne (hroom.even seg hseg) hbefore hentry hstart happ.offset hwrap (by omega) hregister.symm

/-- On any dataset that arises, a failed write leaves no trace when the medium fails before the segment is taken, or not at
all; and where there is room for the write that is the only case. -/
theorem failed_write_atomic {d : Dataset} (h : d.Arises) {e : Event} : (d.Spared e → d.Atomic e) ∧
    (d.Room e → d.file.manifest.Before d.file.header.offset → d.Atomic e → d.Spared e) :=
  ⟨fun hspared => hspared.atomic h.grounded, fun hroom hbefore hatomic => hatomic.spared hroom h.grounded hbefore⟩

end Dataset
end
end

/-! ## A header that is not written -/

section
attribute [local instance] reference reference_lawful buffered buffered_lawful

/-- The count an operation returned. -/
def Answer.count? : Answer → Option Nat
  | .count n => some n
  | _ => none

theorem Answer.count?_error {r : Res Answer} {e : Fault} (h : Answer.count? <$> r = .error e) : r = .error e := by
  cases r with
  | error e' =>
    cases h
    rfl
  | ok a => cases h

theorem Answer.count?_ok {r : Res Answer} {n : Nat} (h : Answer.count? <$> r = .ok (some n)) : r = .ok (.count n) := by
  cases r with
  | error e => cases h
  | ok a =>
    cases a with
    | count m =>
      cases h
      rfl
    | handle => cases h
    | opened => cases h

/-- The write of a note. Its call `n` fails, and nothing of what then waits reaches the file. -/
def noteFails (n : Nat) : Event := ⟨.bin noteBin, fun k => (k == n, 0)⟩

/-- The write of a note that fails in call `n` has registered the note and leaves the manifest at `offset`. -/
abbrev Dataset.Headless (d : Dataset) (n offset : Nat) : Prop :=
  (fun _ => ()) <$> (File.write (Seg.bin noteBin) (d.arm (noteFails n).script).file).1 = .error ioError ∧
    ((d.step (noteFails n)).2.file.manifest.bins.get? "note").isSome = true ∧
      (d.step (noteFails n)).2.file.header.offset = offset ∧
        Answer.count? <$> ((d.step (noteFails n)).2.step ⟨.bin noteBin, Script.calm⟩).1 =
          .error (.error (.manifest (.collision "note")))

theorem headless_write : (Dataset.launch (pure ())).map (fun p => decide (p.2.Headless 2 24 ∧ p.2.Headless 5 51 ∧
    Answer.count? <$> (p.2.step ⟨.bin noteBin, Script.calm⟩).1 = .ok (some 3))) = some true := by
  decide +kernel

theorem Dataset.Headless.collides {d : Dataset} {n offset : Nat} (h : d.Headless n offset)
    (hfresh : d.file.manifest = Manifest.default) : ∃ d', d.step (noteFails n) = (.error ioError, d') ∧
      d'.file.manifest ≠ d.file.manifest ∧ d'.file.header.offset = offset ∧
        (d'.step ⟨.bin noteBin, Script.calm⟩).1 = .error (.error (.manifest (.collision "note"))) ∧
          ¬ d.Atomic (noteFails n) := by
  obtain ⟨hwrite, hbin, hoffset, hagain⟩ := h
  rcases hfile : File.write (Seg.bin noteBin) (d.arm (noteFails n).script).file with ⟨fault | sec, f⟩
  swap
  · rw [hfile] at hwrite
    cases hwrite
  rw [hfile] at hwrite
  cases hwrite
  have hseg : (Op.bin noteBin).seg? d = some (.bin noteBin) := rfl
  have hstep : d.step (noteFails n) = (.error ioError, (d.arm (noteFails n).script).withFile f) :=
    Dataset.perform_failed (d := d.arm (noteFails n).script) hseg hfile
  rw [hstep] at hbin hoffset hagain
  have hmanifest : f.manifest ≠ d.file.manifest := by
    intro heq
    have hbin : (f.manifest.bins.get? "note").isSome = true := hbin
    rw [heq, hfresh] at hbin
    cases hbin
  exact ⟨_, hstep, hmanifest, hoffset, Answer.count?_error hagain, fun hatomic => hmanifest (hatomic _ _ _ hseg hfile).2.1⟩

/-- A bin is refused as a collision with itself, because its first write failed: behind the segment, as when the error of the
segment itself comes out only then, or at the header. -/
theorem failed_write_collides : ∃ d : Dataset, d.Arises ∧ (d.step ⟨.bin noteBin, Script.calm⟩).1 = .ok (.count 3) ∧
    (∀ n ∈ [2, 5], ∃ d', d.step (noteFails n) = (.error ioError, d') ∧ d'.file.manifest ≠ d.file.manifest ∧
      (d'.step ⟨.bin noteBin, Script.calm⟩).1 = .error (.error (.manifest (.collision "note"))) ∧ ¬ d.Atomic (noteFails n)) ∧
    (d.step (noteFails 5)).2.file.header ≠ d.file.header := by
  obtain ⟨d, t, _, _, hnew, hd, hrun⟩ := Dataset.launch_map headless_write
  cases hd
  obtain ⟨hsecond, hfifth, hfresh⟩ := of_decide_eq_true hrun
  obtain ⟨hstart, hdefault⟩ := Session.Reached.fresh (.launched hnew)
  refine ⟨d, .new hnew, Answer.count?_ok hfresh, fun n hn => ?_, fun heq => ?_⟩
  · have hheadless : ∃ offset, d.Headless n offset := by
      rcases List.mem_pair.mp hn with rfl | rfl
      · exact ⟨24, hsecond⟩
      · exact ⟨51, hfifth⟩
    obtain ⟨offset, hheadless⟩ := hheadless
    obtain ⟨d', hstep, hmanifest, -, hagain, hatomic⟩ := hheadless.collides hdefault
    exact ⟨d', hstep, hmanifest, hagain, hatomic⟩
  · have hoffset := hfifth.2.2.1
    rw [heq, hstart] at hoffset
    cases hoffset

/-- The write of a note. Its second call puts down the first three bytes of the segment and fails. -/
def noteTorn : Event := ⟨.bin noteBin, fun k => (k == 1, 3)⟩

/-- A write that fails at the segment leaves no trace. -/
theorem failed_write_atomic_torn : ∃ d : Dataset, d.Arises ∧ (∃ fault, (d.step noteTorn).1 = .error fault) ∧
    d.Atomic noteTorn := by
  have hrun : (Dataset.launch (pure ())).map (fun p => decide (Answer.count? <$> (p.2.step noteTorn).1 = .error ioError ∧
      Answer.count? <$> (p.2.step ⟨.bin noteBin, Script.calm⟩).1 = .ok (some 3))) = some true := by
    decide +kernel
  obtain ⟨d, t, _, _, hnew, hd, hrun⟩ := Dataset.launch_map hrun
  cases hd
  obtain ⟨htorn, hcalm⟩ := of_decide_eq_true hrun
  have hordered := Fleet.new_ordered hnew
  have hmeets : d.Meets ⟨.bin noteBin, Script.calm⟩ :=
    Fleet.Reached.meets_of_ok hordered (Prod.ext (Answer.count?_ok hcalm) rfl) (by simp) (by simp)
  refine ⟨d, .new hnew, ⟨_, Answer.count?_error htorn⟩, ?_⟩
  exact (Dataset.failed_write_atomic (.new hnew)).1 ⟨hordered.fits, fun seg hseg image hwrap =>
    (hmeets.bounded seg hseg image hwrap).1, fun _ _ _ _ => Or.inl rfl⟩

end
end Msca
