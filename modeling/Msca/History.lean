import Msca.Session

/-! What holds of every session reached from a new file: the commits form a journal, the manifest in
memory indexes it, the file holds it, and the map covers the payloads. -/
namespace Msca
set_option autoImplicit false
open Checked

theorem map_eq_of_zip_all {α β γ : Type} {f : α → γ} {g : β → γ} {l : List α} {k : List β} (hlen : l.length = k.length)
    (h : ∀ p ∈ l.zip k, f p.1 = g p.2) : l.map f = k.map g := by
  induction l generalizing k with
  | nil =>
    cases k with
    | nil => rfl
    | cons _ _ => cases hlen
  | cons a l ih =>
    obtain ⟨b, k, rfl⟩ := List.exists_cons_of_length_eq_add_one hlen.symm
    rw [List.zip_cons_cons] at h
    rw [List.map_cons, List.map_cons, h (a, b) List.mem_cons_self,
      ih (Nat.succ.inj hlen) fun p hp => h p (List.mem_cons_of_mem _ hp)]

theorem Schema.occupied_shaped {fs : Fields} {name : String} {e : Manifest.Schema} {sector : Sector}
    (h : (fs.schema name).occupied e = .ok sector) : Shaped e fs := by
  unfold Schema.occupied at h
  dsimp only at h
  split at h
  next hall =>
    simp only [Bool.and_eq_true, beq_iff_eq, List.all_eq_true] at hall
    obtain ⟨hlen, hall⟩ := hall
    have hmap := map_eq_of_zip_all (f := fun c : String × Column => (c.1, c.2.ty))
      (g := fun c : String × Column => (c.1, c.2.ty)) hlen fun p hp =>
        Prod.ext (hall p hp).1 (by simpa [Column.eq] using (hall p hp).2)
    have hkeys := congrArg (List.map Prod.fst) hmap
    have htypes := congrArg (List.map Prod.snd) hmap
    rw [List.map_map, List.map_map] at hkeys htypes
    refine ⟨hkeys.trans (fs.map_keys name), ?_⟩
    have hvalues := fs.shaped name sector
    rw [← hvalues.types, OrdMap.values, OrdMap.values, List.map_map, List.map_map]
    exact htypes
  next => cases h

section
variable [Fs]

theorem Dataset.arm_same (d : Dataset) (σ : Script) : d.Same (d.arm σ) := ⟨rfl, rfl, rfl, rfl, rfl⟩

theorem File.mmap_eq_ok {f : File} {map : Nat} (h : f.mmap = .ok map) : map + HEADER = f.header.offset := by
  unfold File.mmap at h
  split at h
  · split at h
    · cases h
    · cases h
      omega
  · cases h

theorem File.mmap_of_le {f : File} (h : HEADER ≤ f.header.offset) (hspared : Fs.fails (f.stream.script 0) = false) :
    f.mmap = .ok (f.header.offset - HEADER) := by
  rw [File.mmap, if_pos h, hspared]
  rfl

theorem File.mmap_spared {f : File} {map : Nat} (h : f.mmap = .ok map) : Fs.fails (f.stream.script 0) = false := by
  unfold File.mmap at h
  split at h
  · split at h
    · cases h
    next hspared => simpa using hspared
  · cases h

theorem Seg.within_calls {seg : Seg} {σ : Script} :
    σ.within seg.calls = false ↔ σ.within 7 = false ∧ (seg.payload = true → Fs.fails (σ 7) = false) := by
  unfold Seg.calls
  cases seg.payload with
  | false => simp
  | true => rw [if_pos rfl, Script.within, Bool.or_eq_false_iff]; simp

end

section
variable [Extern] [Fs]

namespace Session

structure Consistent (s : Session) : Prop where
  journal : Run (fun s c t => Append s c t ∧ Sound s.2 c.seg) (HEADER, Manifest.default) s.commits
    (s.dataset.file.header.offset, s.dataset.file.manifest)
  stored : OnDisk s.dataset.file.bytes s.dataset.file.header s.dataset.file.manifest s.commits
  fresh : ∀ h ∈ s.handles, Handle.Fresh s.dataset.file.manifest h
  map_le : s.dataset.map + HEADER ≤ s.dataset.file.header.offset
  mapped : ∀ c ∈ s.commits, c.seg.payload = true → c.stop ≤ s.dataset.map + HEADER
  settled : s.dataset.file.queue = []

namespace Consistent
variable {s : Session}

theorem bounds (h : s.Consistent) : ∀ c ∈ s.commits, HEADER ≤ c.start ∧ c.stop ≤ s.dataset.file.header.offset :=
  (Append.bounds (h.journal.mono fun _ _ _ hstep => hstep.1)).2

theorem index (h : s.Consistent) : Index s.commits s.dataset.file.manifest :=
  Journal.index h.journal Index.empty (Nat.le_refl _) (by simp)

/-! ## What changes nothing -/

theorem same (h : s.Consistent) {d : Dataset} (hd : s.dataset.Same d) : Consistent ⟨d, s.handles, s.commits⟩ := by
  obtain ⟨hbytes, hqueue, hheader, hmanifest, hmap⟩ := hd
  refine ⟨?_, ?_, ?_, ?_, ?_, hqueue.trans h.settled⟩
  · rw [hheader, hmanifest]
    exact h.journal
  · change OnDisk d.file.bytes _ _ _
    rw [hbytes, hheader, hmanifest]
    exact h.stored
  · rw [hmanifest]
    exact h.fresh
  · rw [hmap, hheader]
    exact h.map_le
  · rw [hmap]
    exact h.mapped

theorem handle (h : s.Consistent) {a : Handle} (ha : Handle.Fresh s.dataset.file.manifest a) :
    Consistent ⟨s.dataset, s.handles ++ [a], s.commits⟩ := by
  refine ⟨h.journal, h.stored, ?_, h.map_le, h.mapped, h.settled⟩
  intro b hb
  rcases List.mem_append.mp hb with hb | hb
  · exact h.fresh b hb
  · rw [List.mem_singleton.mp hb]
    exact ha

end Consistent
end Session

/-! ## A commit -/

theorem Op.committed_eq {d : Dataset} {op : Op} {seg : Seg} {image : Bytes} (hseg : op.seg? d = some seg)
    (hwrap : wrap seg d.file.header.offset = .ok image) : op.committed d = [⟨d.file.header.offset, seg, image, hwrap⟩] := by
  unfold Op.committed
  rw [hseg]
  dsimp only
  split
  next image' h =>
    have himage : image' = image := Except.ok.inj (h.symm.trans hwrap)
    subst himage
    rfl
  next e h => exact absurd (h.symm.trans hwrap) (by simp)

theorem Op.committed_none {d : Dataset} {op : Op} (hseg : op.seg? d = none) : op.committed d = [] := by
  unfold Op.committed
  rw [hseg]

variable [LawfulFs]

theorem File.Written.append {seg : Seg} {f t : File} {image index : Bytes} {sec : Sector}
    (hw : File.Written seg f image sec index t) (hle : f.bytes.length ≤ Fs.limit) :
    Append (f.header.offset, f.manifest) ⟨f.header.offset, seg, image, hw.wrapped⟩ (t.header.offset, t.manifest) := by
  have hlimit := LawfulFs.limit_lt
  have hend := hw.limit hle
  have hbelow := hw.below
  refine ⟨rfl, hw.published.offset.symm, ?_, hw.reserved, sec, hw.offset, hw.size, ?_⟩
  · change t.header.offset < 2 ^ 63
    omega
  · rw [hw.manifest, ← hw.registered]

omit [Fs] in
theorem Handle.Fresh.append {s t : Nat × Manifest} {c : Commit} {a : Handle} (ha : Handle.Fresh s.2 a)
    (happend : Append s c t) (hsound : Sound s.2 c.seg) (hlo : HEADER ≤ s.1) : Handle.Fresh t.2 a :=
  ⟨ha.1.append happend hsound hlo, ha.2⟩

/-- A file that is opened is found as it is, and the region in front of its manifest is mapped. -/
theorem OnDisk.opened [LawfulExtern] {bytes : Bytes} {header : Sector} {manifest : Manifest} {cs : List Commit}
    (h : OnDisk bytes header manifest cs) {σ : Script} {log : List Bytes.Write} {t : Stream} {d : Dataset}
    (hopen : Dataset.open ⟨Fs.opened bytes, σ, log⟩ = (.ok d, t)) :
    (d.file.bytes = bytes ∧ d.file.queue = []) ∧ d.file.header = header ∧ d.file.manifest = manifest ∧
      d.map + HEADER = header.offset := by
  unfold Dataset.open Dataset.attach at hopen
  rcases open_opened h σ log _ rfl with ⟨_, u, hx, rfl, hsame⟩ | ⟨e, u, hx, -⟩
  · rw [Eff.bind_ok hx, Eff.bind_gets] at hopen
    rcases Eff.bind_cases (Eff.lift (File.mmap ⟨u, header, manifest⟩)) _ u with ⟨e, v, -, hy⟩ | ⟨map, v, hmap, hy⟩
    · rw [hy] at hopen
      cases hopen
    · have hmap := File.mmap_eq_ok (congrArg Prod.fst hmap)
      rw [hy] at hopen
      obtain ⟨hdataset, -⟩ := Prod.mk.inj hopen
      cases hdataset
      exact ⟨hsame, rfl, rfl, hmap⟩
  · rw [Eff.bind_error hx] at hopen
    cases hopen

omit [Extern] in
/-- Where nothing waits a second handle finds the file as it is. -/
theorem Stream.found_of_nil {s : Stream} (hq : s.queue = []) (c : Fs.Chance) : Fs.found c s.handle = s.bytes := by
  obtain ⟨⟨rest, hlands⟩, -⟩ := LawfulFs.found c s.handle
  rw [show (Fs.view s.handle).queue = [] from hq] at hlands
  exact hlands.of_nil.1

namespace Session.Consistent
variable {s : Session}

theorem commit (h : s.Consistent) {seg : Seg} {f : File} {image index : Bytes} {sec : Sector}
    (hsound : Sound s.dataset.file.manifest seg) (hw : File.Written seg s.dataset.file image sec index f) {map : Nat}
    (hlo : s.dataset.map ≤ map) (hhi : map + HEADER ≤ f.header.offset)
    (hmap : seg.payload = true → map + HEADER = f.header.offset) :
    Consistent ⟨⟨f, map⟩, s.handles, s.commits ++ [⟨s.dataset.file.header.offset, seg, image, hw.wrapped⟩]⟩ := by
  have happend := hw.append h.stored.limit
  refine ⟨Run.snoc h.journal ⟨happend, hsound⟩, ?_, ?_, hhi, ?_, hw.drained⟩
  · exact h.stored.written h.settled h.bounds hw rfl rfl
  · intro a ha
    exact (h.fresh a ha).append happend hsound h.stored.start
  · intro c hc hpay
    rcases List.mem_append.mp hc with hc | hc
    · have hold := h.mapped c hc hpay
      change c.stop ≤ map + HEADER
      omega
    · rw [List.mem_singleton.mp hc] at hpay ⊢
      change _ ≤ map + HEADER
      rw [hmap hpay]
      exact Nat.le_of_eq happend.2.1

theorem start (h : Starts s) : s.Consistent := by
  obtain ⟨σ, stream, hnew, hhandles, hcommits⟩ := h
  have hopened := LawfulFs.opened []
  unfold Dataset.new Dataset.attach at hnew
  rcases create_triple (s := ⟨Fs.opened [], σ, []⟩) (congrArg View.cursor hopened) (congrArg View.bytes hopened)
      (congrArg View.queue hopened) _ rfl with ⟨⟨header, manifest⟩, t, hx, hoffset, rfl, hdisk, hqueue⟩ | ⟨e, t, hx, -⟩
  · rw [Eff.bind_ok hx, Eff.bind_gets] at hnew
    rcases Eff.bind_cases (Eff.lift (File.mmap ⟨t, header, Manifest.default⟩)) _ t with ⟨e, u, -, hy⟩ | ⟨map, u, hmap, hy⟩
    · rw [hy] at hnew
      cases hnew
    · have hmap := File.mmap_eq_ok (congrArg Prod.fst hmap)
      rw [hy] at hnew
      obtain ⟨hdataset, -⟩ := Prod.mk.inj hnew
      have hdataset := (Except.ok.inj hdataset).symm
      obtain ⟨d, handles, commits⟩ := s
      subst hdataset hhandles hcommits
      refine ⟨?_, hdisk, by simp, Nat.le_of_eq hmap, by simp, hqueue⟩
      change (HEADER, Manifest.default) = (header.offset, Manifest.default)
      rw [hoffset]
  · rw [Eff.bind_error hx] at hnew
    cases hnew

omit [LawfulFs] in
/-- What a legal operation writes is sound. -/
theorem writes_sound (h : s.Consistent) {op : Op} (legal : s.Legal op) {seg : Seg}
    (hseg : op.seg? s.dataset = some seg) : Sound s.dataset.file.manifest seg := by
  cases op with
  | schema fs name =>
    rw [Op.seg?] at hseg
    split at hseg
    · cases hseg
    · cases hseg
      exact ⟨fs, rfl⟩
  | data a =>
    rw [Op.seg?] at hseg
    split at hseg
    · cases hseg
    next hne =>
      cases hseg
      obtain ⟨rows, hrows⟩ := legal
      exact hrows.sound h.fresh (by simpa using hne)
  | bin b =>
    rw [Op.seg?] at hseg
    split at hseg
    · cases hseg
    · cases hseg
      exact trivial
  | reopen => cases hseg

theorem written (h : s.Consistent) {op : Op} {seg : Seg} {d' : Dataset} {sec : Sector}
    (hlegal : s.Legal op) (hseg : op.seg? s.dataset = some seg) (hok : File.write seg s.dataset.file = (.ok sec, d'.file))
    (hlo : s.dataset.map ≤ d'.map) (hhi : d'.map + HEADER ≤ d'.file.header.offset)
    (hmap : seg.payload = true → d'.map + HEADER = d'.file.header.offset) :
    Consistent ⟨d', s.handles, s.commits ++ op.committed s.dataset⟩ := by
  obtain ⟨image, index, hw⟩ := (File.write_triple seg s.dataset.file).ok rfl hok
  rw [Op.committed_eq hseg hw.wrapped]
  exact h.commit (h.writes_sound hlegal hseg) hw hlo hhi hmap

omit [LawfulFs] in
theorem reopened (h : s.Consistent) {d : Dataset}
    (hsame : d.file.bytes = s.dataset.file.bytes ∧ d.file.queue = [])
    (hheader : d.file.header = s.dataset.file.header) (hmanifest : d.file.manifest = s.dataset.file.manifest)
    (hmap : d.map + HEADER = s.dataset.file.header.offset) : Consistent ⟨d, s.handles, s.commits⟩ := by
  have hle := h.map_le
  refine ⟨?_, ?_, ?_, ?_, ?_, hsame.2⟩
  · rw [hheader, hmanifest]
    exact h.journal
  · rw [hsame.1, hheader, hmanifest]
    exact h.stored
  · rw [hmanifest]
    exact h.fresh
  · rw [hheader, hmap]
  · intro c hc _
    rw [hmap]
    exact (h.bounds c hc).2

theorem done [LawfulExtern] (h : s.Consistent) {op : Op} {answer : Answer} {d : Dataset} (hlegal : s.Legal op)
    (hop : Dataset.perform op s.dataset = (.ok answer, d)) :
    Consistent ⟨d, s.handles ++ answer.handles, s.commits ++ op.committed s.dataset⟩ := by
  have hperformed := Dataset.performed op s.dataset
  rw [hop] at hperformed
  generalize hr : (Except.ok answer : Res Answer) = r at hperformed
  cases hperformed with
  | matched found same =>
    cases hr
    rw [Op.committed_none (by rw [Op.seg?, found]), List.append_nil]
    exact h.handle ⟨⟨_, found, Schema.occupied_shaped same⟩, rfl⟩
  | ignored hnone n =>
    cases hr
    rw [Op.committed_none hnone, List.append_nil]
    exact (congrArg (fun hs => Consistent ⟨s.dataset, hs, s.commits⟩) (List.append_nil s.handles)).mpr h
  | @added fs name sector f vacant ok =>
    cases hr
    have hseg : (Op.schema fs name).seg? s.dataset = some (.schema (fs.schema name)) := by rw [Op.seg?, vacant]
    obtain ⟨image, index, hw⟩ := (File.write_triple (Seg.schema (fs.schema name)) s.dataset.file).ok rfl ok
    have hle := h.map_le
    have hoffset := hw.published.offset
    have hcommit : Consistent ⟨s.dataset.withFile f, s.handles,
        s.commits ++ (Op.schema fs name).committed s.dataset⟩ :=
      h.written hlegal hseg ok (Nat.le_refl _) (by change s.dataset.map + HEADER ≤ f.header.offset; omega)
        (by simp [Seg.payload])
    refine hcommit.handle ⟨⟨⟨sector, (fs.schema name).map⟩, ?_, fs.shaped name sector⟩, rfl⟩
    change f.manifest.schemas.get? name = _
    rw [hw.manifest]
    exact OrdMap.get?_insertVacant_self _ vacant
  | @mapped op seg sector f n map payload writes ok hmap =>
    cases hr
    have hmap := File.mmap_eq_ok hmap
    obtain ⟨image, index, hw⟩ := (File.write_triple seg s.dataset.file).ok rfl ok
    have hle := h.map_le
    have hoffset := hw.published.offset
    have hcommit : Consistent ⟨⟨f, map⟩, s.handles, s.commits ++ op.committed s.dataset⟩ :=
      h.written hlegal writes ok (by change s.dataset.map ≤ map; omega) (Nat.le_of_eq hmap) fun _ => hmap
    exact (congrArg (fun hs => Consistent ⟨⟨f, map⟩, hs, _⟩) (List.append_nil s.handles)).mpr hcommit
  | opened ok =>
    cases hr
    rw [Stream.reopened, Stream.found_of_nil h.settled] at ok
    obtain ⟨hsame, hheader, hmanifest, hmap⟩ := h.stored.opened ok
    rw [Op.committed_none rfl, List.append_nil]
    exact (congrArg (fun hs => Consistent ⟨d, hs, s.commits⟩) (List.append_nil s.handles)).mpr
      (h.reopened hsame hheader hmanifest hmap)
  | clashed => cases hr
  | failed => cases hr
  | unmapped => cases hr
  | closed => cases hr

theorem step [LawfulExtern] (h : s.Consistent) {e : Event} {t : Session} (hstep : Step s e t) : t.Consistent := by
  have harm := h.same (s.dataset.arm_same e.script)
  cases hstep with
  | done legal hop =>
    have hdone := harm.done legal hop
    exact hdone
  | refused hop same => exact h.same same

/-- Every session reached is consistent. -/
theorem reached [LawfulExtern] (h : Reached s) : s.Consistent := by
  obtain ⟨t, es, hstart, hrun⟩ := h
  exact hrun.invariant (fun _ _ _ hs hstep => hs.step hstep) (start hstart)

end Session.Consistent

end

/-! ## Programs on a new file -/

section
variable [Extern] [Fs]

/-- A program on the dataset of a new file. -/
def Dataset.launch {α : Type} (x : Eff Fault Dataset α) : Option (α × Dataset) :=
  match Dataset.new ⟨Fs.opened [], Script.calm, []⟩ with
  | (.error _, _) => none
  | (.ok d, _) =>
    match x d with
    | (.error _, _) => none
    | (.ok a, d') => some (a, d')

theorem Dataset.launch_new {α : Type} {x : Eff Fault Dataset α} {a : α} {d' : Dataset}
    (h : Dataset.launch x = some (a, d')) : ∃ d t, Dataset.new ⟨Fs.opened [], Script.calm, []⟩ = (.ok d, t) ∧ x d = (.ok a, d') := by
  unfold Dataset.launch at h
  split at h
  · cases h
  next d t hnew =>
    split at h
    · cases h
    next hx =>
      cases h
      exact ⟨d, t, hnew, hx⟩

theorem Dataset.launch_map {α β : Type} {x : Eff Fault Dataset α} {f : α × Dataset → β} {b : β}
    (h : (Dataset.launch x).map f = some b) : ∃ d t a d', Dataset.new ⟨Fs.opened [], Script.calm, []⟩ = (.ok d, t) ∧
      x d = (.ok a, d') ∧ f (a, d') = b := by
  obtain ⟨p, hx, hf⟩ := Option.map_eq_some_iff.mp h
  obtain ⟨d, t, hnew, hrun⟩ := Dataset.launch_new hx
  exact ⟨d, t, p.1, p.2, hnew, hrun, hf⟩

theorem Session.Reached.launched {d : Dataset} {t : Stream} (hnew : Dataset.new ⟨Fs.opened [], Script.calm, []⟩ = (.ok d, t)) :
    Session.Reached ⟨d, [], []⟩ :=
  ⟨_, [], ⟨_, t, hnew, rfl, rfl⟩, Run.nil _⟩

theorem Dataset.launch_eq_some {α : Type} {x : Eff Fault Dataset α} {a : α} {d' : Dataset}
    (h : Dataset.launch x = some (a, d')) : ∃ d, Session.Reached ⟨d, [], []⟩ ∧ x d = (.ok a, d') := by
  obtain ⟨d, t, hnew, hx⟩ := Dataset.launch_new h
  exact ⟨d, .launched hnew, hx⟩

namespace Session.Reached
variable {s : Session}

theorem step {e : Event} {t : Session} (h : s.Reached) (hstep : Step s e t) : t.Reached := by
  obtain ⟨r, es, hstart, hrun⟩ := h
  exact ⟨r, es ++ [e], hstart, Run.snoc hrun hstep⟩

theorem perform {op : Op} {answer : Answer} {d : Dataset} (h : s.Reached) (legal : s.Legal op)
    (hop : Dataset.perform op s.dataset = (.ok answer, d)) :
    Reached ⟨d, s.handles ++ answer.handles, s.commits ++ op.committed s.dataset⟩ :=
  h.step (Step.done (e := ⟨op, s.dataset.file.stream.script⟩) legal hop)

theorem schema {fs : Fields} {name : String} {a : Accumulator fs} {d : Dataset} (h : s.Reached)
    (hx : Dataset.schema fs name s.dataset = (.ok a, d)) :
    Reached ⟨d, s.handles ++ [⟨fs, a⟩], s.commits ++ (Op.schema fs name).committed s.dataset⟩ := by
  have hop : Dataset.perform (.schema fs name) s.dataset = (.ok (.handle a), d) := Eff.bind_ok hx
  have hlegal : s.Legal (.schema fs name) := trivial
  exact h.perform hlegal hop

theorem data {fs : Fields} {a : Accumulator fs} {rows : List (Row fs.types)} {n : Nat} {d : Dataset} (h : s.Reached)
    (ha : Obtained s.handles a rows) (hx : Dataset.write a s.dataset = (.ok n, d)) :
    Reached ⟨d, s.handles ++ [], s.commits ++ (Op.data a).committed s.dataset⟩ := by
  have hop : Dataset.perform (.data a) s.dataset = (.ok (.count n), d) := Eff.bind_ok hx
  have hlegal : s.Legal (.data a) := ⟨rows, ha⟩
  exact h.perform hlegal hop

theorem bin {b : Bin} {chunks : List Bytes} {n : Nat} {d : Dataset} (h : s.Reached) (hb : b.Obtained chunks)
    (hx : Dataset.write b s.dataset = (.ok n, d)) :
    Reached ⟨d, s.handles ++ [], s.commits ++ (Op.bin b).committed s.dataset⟩ := by
  have hop : Dataset.perform (.bin b) s.dataset = (.ok (.count n), d) := Eff.bind_ok hx
  have hlegal : s.Legal (.bin b) := ⟨chunks, hb⟩
  exact h.perform hlegal hop

end Session.Reached

theorem Op.written_of_ok {d d' : Dataset} {op : Op} {answer : Answer} {seg : Seg}
    (hop : Dataset.perform op d = (.ok answer, d')) (hseg : op.seg? d = some seg) :
    ∃ sec f, File.write seg d.file = (.ok sec, f) := by
  have hperformed := Dataset.performed op d
  rw [hop] at hperformed
  generalize hr : (Except.ok answer : Res Answer) = r at hperformed
  cases hperformed with
  | matched found =>
    rw [Op.seg?, found] at hseg
    cases hseg
  | ignored hnone =>
    rw [hnone] at hseg
    cases hseg
  | added vacant ok =>
    rw [Op.seg?, vacant] at hseg
    cases hseg
    exact ⟨_, _, ok⟩
  | mapped payload writes ok =>
    rw [writes] at hseg
    cases hseg
    exact ⟨_, _, ok⟩
  | opened => cases hseg
  | clashed => cases hr
  | failed => cases hr
  | unmapped => cases hr
  | closed => cases hr

end

section
variable [Extern] [Fs] [LawfulFs]

theorem Session.Reached.fresh [LawfulExtern] {d : Dataset} (h : Session.Reached ⟨d, [], []⟩) :
    d.file.header.offset = HEADER ∧ d.file.manifest = Manifest.default := by
  have hjournal : (HEADER, Manifest.default) = (d.file.header.offset, d.file.manifest) :=
    (Session.Consistent.reached h).journal
  exact ⟨(Prod.mk.inj hjournal).1.symm, (Prod.mk.inj hjournal).2.symm⟩

/-- An operation that writes returns when its write does and the region is mapped. -/
theorem Dataset.perform_ok_iff {d : Dataset} {op : Op} {seg : Seg} (hseg : op.seg? d = some seg)
    (hstart : HEADER ≤ d.file.header.offset) :
    (∃ answer d', Dataset.perform op d = (.ok answer, d')) ↔
      (∃ sec f, File.write seg d.file = (.ok sec, f)) ∧ (seg.payload = true → Fs.fails (d.file.stream.script 7) = false) := by
  have hnext : ∀ {sec f}, File.write seg d.file = (.ok sec, f) →
      f.stream.script 0 = d.file.stream.script 7 ∧ HEADER ≤ f.header.offset := by
    intro sec f hok
    obtain ⟨image, index, hw⟩ := (File.write_triple seg d.file).ok rfl hok
    refine ⟨?_, by rw [hw.published.offset]; omega⟩
    rw [hw.given.script]
    rfl
  have hperformed := Dataset.performed op d
  rcases hp : Dataset.perform op d with ⟨r, d'⟩
  rw [hp] at hperformed
  constructor
  · rintro ⟨answer, d'', hop⟩
    cases hop
    refine ⟨Op.written_of_ok hp hseg, fun hpay => ?_⟩
    generalize hr : (Except.ok answer : Res Answer) = r at hperformed
    cases hperformed with
    | matched found =>
      rw [Op.seg?, found] at hseg
      cases hseg
    | ignored hnone =>
      rw [hnone] at hseg
      cases hseg
    | added vacant ok =>
      rw [Op.seg?, vacant] at hseg
      cases hseg
      cases hpay
    | mapped payload writes ok hmap =>
      rw [writes] at hseg
      cases hseg
      have hspared := File.mmap_spared hmap
      rwa [(hnext ok).1] at hspared
    | opened => cases hseg
    | clashed => cases hr
    | failed => cases hr
    | unmapped => cases hr
    | closed => cases hr
  · rintro ⟨⟨sec, f, hok⟩, hspared⟩
    cases r with
    | ok answer => exact ⟨answer, d', rfl⟩
    | error fault =>
      exfalso
      generalize hr : (Except.error fault : Res Answer) = r at hperformed
      cases hperformed with
      | clashed found =>
        rw [Op.seg?, found] at hseg
        cases hseg
      | failed writes error =>
        rw [hseg] at writes
        cases writes
        rw [hok] at error
        cases error
      | unmapped payload writes ok hmap =>
        rw [hseg] at writes
        cases writes
        rw [hok] at ok
        cases ok
        obtain ⟨hscript, hle⟩ := hnext hok
        rw [File.mmap_of_le hle (by rw [hscript]; exact hspared payload)] at hmap
        cases hmap
      | closed => cases hseg
      | matched => cases hr
      | ignored => cases hr
      | added => cases hr
      | mapped => cases hr
      | opened => cases hr

theorem Op.committed_of_ok {d d' : Dataset} {op : Op} {answer : Answer} {seg : Seg}
    (hop : Dataset.perform op d = (.ok answer, d')) (hseg : op.seg? d = some seg) :
    ∃ c, op.committed d = [c] ∧ c.seg = seg ∧ c.start = d.file.header.offset := by
  obtain ⟨sec, f, hok⟩ := Op.written_of_ok hop hseg
  obtain ⟨image, index, hw⟩ := (File.write_triple seg d.file).ok rfl hok
  exact ⟨_, Op.committed_eq hseg hw.wrapped, rfl, rfl⟩

end

/-! ## Two records and a binary segment -/

section
attribute [local instance] reference buffered buffered_lawful

def flaggedProgram : Eff Fault Dataset Unit := do
  let a ← Dataset.schema flagged "s"
  let _ ← a.commit flaggedRows
  let _ ← Dataset.write noteBin
  return ()

theorem flagged_columns : (Dataset.launch flaggedProgram).map (fun p => (p.2.file.manifest.schemas.get? "s").map fun e =>
    e.columns.values.map fun col => (col.ty, col.buffers.items.map Manifest.Buffer.count)) =
    some (some [(.bool, [2]), (.option .string, [2])]) := by
  decide +kernel

theorem flagged_obtained {handles : List Handle} {a b : Accumulator flagged} (ha : ⟨flagged, a⟩ ∈ handles)
    (ok : a.pushes flaggedRows = .ok b) : Obtained handles b flaggedRows := by
  have hlen : flagged.types.length = 2 := rfl
  refine .pushes ha (by decide) ?_ ok
  rintro ⟨_ | _ | j, hj⟩
  · exact (by decide : 2 < 2 ^ 61)
  · exact trivial
  · omega

/-- The records and the bytes are committed in a session. -/
theorem flagged_session : ∃ (s : Session) (e : Manifest.Schema), s.Reached ∧
    s.dataset.file.manifest.schemas.get? "s" = some e ∧
    e.columns.values.map (fun col => (col.ty, col.buffers.items.map Manifest.Buffer.count)) =
      [(.bool, [2]), (.option .string, [2])] ∧ ∃ c ∈ s.commits, c.seg = .bin noteBin := by
  obtain ⟨d, t, _, d', hnew, hrun, hcolumns⟩ := Dataset.launch_map flagged_columns
  have hreached := Session.Reached.launched hnew
  obtain ⟨a, d₁, hschema, hrun⟩ := Eff.bind_eq_ok hrun
  obtain ⟨m, d₂, hcommit, hrun⟩ := Eff.bind_eq_ok hrun
  obtain ⟨b, hpushes, hdata⟩ := Accumulator.commit_ok hcommit
  obtain ⟨n, d₃, hbin, hrun⟩ := Eff.bind_eq_ok hrun
  cases hrun
  have h₁ := hreached.schema hschema
  have h₂ := h₁.data (flagged_obtained (List.mem_singleton_self _) hpushes) hdata
  have h₃ := h₂.bin noteBin.obtained hbin
  have hop : Dataset.perform (.bin noteBin) d₂ = (.ok (.count n), d') := Eff.bind_ok hbin
  obtain ⟨c, hcommitted, hseg, -⟩ := Op.committed_of_ok hop rfl
  obtain ⟨e, he, hvalues⟩ := Option.map_eq_some_iff.mp hcolumns
  refine ⟨_, e, h₃, he, hvalues, c, List.mem_append_right _ ?_, hseg⟩
  change c ∈ (Op.bin noteBin).committed d₂
  rw [hcommitted]
  exact List.mem_singleton_self c

end
end Msca
