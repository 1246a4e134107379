import Msca.History

/-! The sequential walk over the segment region, from header to header, that recovery of a damaged
manifest rests on. The size in the header of a binary segment leaves out the fill before its payload. -/
namespace Msca
set_option autoImplicit false
open Checked

section
variable [Extern]

/-- The next segment behind the one at `o`, by the size in its header. -/
def skip (bytes : Bytes) (o : Nat) : Nat := o + 9 + Bytes.ofLe (Bytes.slice bytes (o + 1) 8) + 8

/-- The walk from `o` visits the segments `cs`, each intact, and lands on `stop`. -/
def Walks (bytes : Bytes) : List Commit → Nat → Nat → Prop
  | [], o, stop => o = stop
  | c :: cs, o, stop => o = c.start ∧ Bytes.slice bytes o 1 = [(Segment.VARIANT c.seg).byte] ∧
      (∃ data, verify (Bytes.slice bytes o (skip bytes o - o)) = .ok data) ∧ Walks bytes cs (skip bytes o) stop

/-- A segment at `o` has no fill that its size leaves out. -/
def Seg.Unfilled (o : Nat) : Seg → Prop
  | .bin _ => (o + 9) % 8 = 0
  | _ => True

instance (o : Nat) (seg : Seg) : Decidable (seg.Unfilled o) :=
  match seg with
  | .schema _ => instDecidableTrue
  | .data _ => instDecidableTrue
  | .bin _ => inferInstanceAs (Decidable (_ = _))

/-- The header of a wrapped segment, and how far its size reaches. -/
theorem wrap_segment {seg : Seg} {o : Nat} {image : Bytes} (h : wrap seg o = .ok image) : ∃ size body,
    image = segment (Segment.VARIANT seg) size body ∧ size ≤ body.length ∧ (size = body.length ↔ seg.Unfilled o) := by
  cases seg with
  | schema s =>
    change wrap s o = .ok image at h
    exact ⟨_, _, schema_wrap_eq_ok h, Nat.le_refl _, by simp [Seg.Unfilled]⟩
  | data a =>
    change wrap a o = .ok image at h
    obtain ⟨total, -, -, -, himage⟩ := data_wrap_eq_ok h
    have hlen : (Bytes.leBytes 8 a.schema.offset ++ (Bytes.leBytes 8 (Composite.count a.data) ++
        (Bytes.zeros (roundUp (o + 25) - (o + 25)) ++ Composite.image a.data))).length =
        (Composite.image a.data).length + 16 + (roundUp (o + 25) - (o + 25)) := by
      simp only [List.length_append, Bytes.leBytes_length, Bytes.zeros_length]
      omega
    exact ⟨_, _, himage, Nat.le_of_eq hlen.symm, by simp [Seg.Unfilled, hlen]⟩
  | bin b =>
    change wrap b o = .ok image at h
    obtain ⟨-, -, himage⟩ := bin_wrap_eq_ok h
    have hlen : (Bytes.zeros (roundUp (o + 9) - (o + 9)) ++ b.data).length = roundUp (o + 9) - (o + 9) + b.data.length := by
      rw [List.length_append, Bytes.zeros_length]
    have hup := le_roundUp (o + 9)
    refine ⟨_, _, himage, by omega, ?_⟩
    rw [hlen]
    change _ ↔ (o + 9) % 8 = 0
    constructor
    · intro hsize
      have hmod := roundUp_mod (o + 9)
      have hround : roundUp (o + 9) = o + 9 := by omega
      rwa [hround] at hmod
    · intro hmod
      have hround : roundUp (o + 9) = o + 9 := roundUp_of_mod hmod
      omega

theorem wrap_ne_nil {seg : Seg} {o : Nat} {image : Bytes} (h : wrap seg o = .ok image) : image ≠ [] := by
  obtain ⟨size, body, rfl, -⟩ := wrap_segment h
  exact List.ne_nil_of_length_pos (by rw [segment_length]; omega)

section
variable {bytes image body : Bytes} {v : Variant} {o size : Nat}

theorem stored_variant (h : Bytes.slice bytes o image.length = image) (himage : image = segment v size body) :
    Bytes.slice bytes o 1 = [v.byte] := by
  have hlen : image.length = body.length + 17 := by rw [himage, segment_length]
  have hslice : Bytes.slice (Bytes.slice bytes o image.length) 0 1 = Bytes.slice bytes o 1 := Bytes.slice_slice (by omega)
  rw [h] at hslice
  rw [← hslice, himage]
  rfl

theorem stored_skip (h : Bytes.slice bytes o image.length = image) (himage : image = segment v size body)
    (hlt : size < 2 ^ 64) : skip bytes o = o + size + 17 := by
  have hlen : image.length = body.length + 17 := by rw [himage, segment_length]
  have hslice : Bytes.slice (Bytes.slice bytes o image.length) 1 8 = Bytes.slice bytes (o + 1) 8 :=
    Bytes.slice_slice (by omega)
  have hword : ∀ (b : UInt8) (w rest : Bytes), w.length = 8 → Bytes.slice (b :: (w ++ rest)) 1 8 = w := by
    intro b w rest hw
    exact List.take_left' hw
  have hsplit : image = v.byte :: (Bytes.leBytes 8 size ++
      (body ++ Bytes.leBytes 8 (Extern.xxh3_64 (v.byte :: (Bytes.leBytes 8 size ++ body))).val)) := by
    rw [himage, segment, sealed, List.cons_append, List.append_assoc]
  rw [h] at hslice
  rw [skip, ← hslice, hsplit, hword _ _ _ (Bytes.leBytes_length 8 size), Bytes.ofLe_leBytes_of_lt hlt]
  omega

end

/-- Along a stored journal the walk is right exactly over segments without such a fill. -/
theorem Append.walks_iff {bytes : Bytes} {cs : List Commit} {s t : Nat × Manifest} (h : Run Append s cs t)
    (hbytes : ∀ c ∈ cs, Bytes.slice bytes c.start c.image.length = c.image) :
    Walks bytes cs s.1 t.1 ↔ ∀ c ∈ cs, c.seg.Unfilled c.start := by
  induction cs generalizing s with
  | nil =>
    cases h
    simp [Walks]
  | cons c cs ih =>
    obtain ⟨u, ⟨hstart, hstop, hlt, -⟩, h⟩ := h
    have hstored := hbytes c List.mem_cons_self
    have hrest := ih h fun d hd => hbytes d (List.mem_cons_of_mem _ hd)
    obtain ⟨size, body, himage, hle, hsize⟩ := wrap_segment c.wrapped
    have hlen : c.image.length = body.length + 17 := by rw [himage, segment_length]
    rw [Commit.stop] at hstop
    have hskip := stored_skip hstored himage (by omega)
    rw [Walks, ← hstart, List.forall_mem_cons, ← hsize]
    constructor
    · rintro ⟨-, -, -, hwalk⟩
      -- The walk goes on from where the next segment starts, or has landed.
      have hnext : skip bytes c.start = u.1 := by
        cases cs with
        | nil =>
          cases h
          exact hwalk
        | cons d cs =>
          obtain ⟨w, ⟨hd, -⟩, -⟩ := h
          exact hwalk.1.trans hd
      have hbody : size = body.length := by omega
      rw [hnext] at hwalk
      exact ⟨hbody, hrest.mp hwalk⟩
    · rintro ⟨hbody, hall⟩
      have hnext : skip bytes c.start = u.1 := by omega
      have hspan : skip bytes c.start - c.start = c.image.length := by omega
      refine ⟨rfl, stored_variant hstored himage, ?_, ?_⟩
      · rw [hspan, hstored, himage]
        exact ⟨_, verify_sealed _⟩
      · rw [hnext]
        exact hrest.mpr hall

variable [Fs]

variable [LawfulFs]

/-- The segment region of a file can be walked exactly when no binary segment in it is filled up. -/
theorem Session.walks_iff_unfilled [LawfulExtern] {s : Session} (h : s.Reached) :
    Walks s.dataset.file.bytes s.commits HEADER s.dataset.file.header.offset ↔
      ∀ c ∈ s.commits, c.seg.Unfilled c.start := by
  have hs := Consistent.reached h
  exact Append.walks_iff (hs.journal.mono fun _ _ _ hstep => hstep.1) hs.stored.stored

end

section
attribute [local instance] reference reference_lawful buffered buffered_lawful

/-- Filled, emptied and filled again. -/
def alignedBin : Bin := (((Bin.new "note").push [9]).discard.push [1, 2]).push [3]

/-- A schema, bytes that come to lie at a multiple of eight, and records. It returns where the bytes begin. -/
def alignedProgram : Eff Fault Dataset Nat := do
  let a ← Dataset.schema flagged "marked"
  let offset ← Eff.gets fun d => d.file.header.offset
  let _ ← Dataset.write alignedBin
  let _ ← a.commit flaggedRows
  return offset

theorem aligned_offset : (Dataset.launch alignedProgram).map Prod.fst = some 71 := by decide +kernel

/-- A file with a schema, records and bytes that need no fill can be walked. -/
theorem Session.walks_aligned : ∃ (s : Session) (c₁ c₂ c₃ : Commit), s.Reached ∧ s.commits = [c₁, c₂, c₃] ∧
    c₁.seg = .schema (flagged.schema "marked") ∧ c₂.seg = .bin alignedBin ∧ c₂.start = 71 ∧ c₃.seg.payload = true ∧
      Walks s.dataset.file.bytes [c₁, c₂, c₃] HEADER s.dataset.file.header.offset := by
  obtain ⟨d, t, _, d', hnew, hrun, hoffset⟩ := Dataset.launch_map aligned_offset
  have hreached := Session.Reached.launched hnew
  obtain ⟨a, d₁, hschema, hrun⟩ := Eff.bind_eq_ok hrun
  rw [Eff.bind_gets] at hrun
  obtain ⟨n, d₂, hbin, hrun⟩ := Eff.bind_eq_ok hrun
  obtain ⟨m, d₃, hcommit, hrun⟩ := Eff.bind_eq_ok hrun
  cases hrun
  obtain ⟨b, hpushes, hdata⟩ := Accumulator.commit_ok hcommit
  have hfilled : Bin.Obtained alignedBin [[1, 2], [3]] := ((((Bin.Obtained.new "note").push [9]).discard).push [1, 2]).push [3]
  have hrows := flagged_obtained (List.mem_singleton_self _) hpushes
  have h₁ := hreached.schema hschema
  have h₂ := h₁.bin hfilled hbin
  have h₃ := h₂.data (by rwa [List.append_nil]) hdata
  have hvacant : d.file.manifest.schemas.get? "marked" = none := by
    rw [hreached.fresh.2]
    rfl
  have hne : Pending.isEmpty b = false := by
    have hfresh := (Session.Consistent.reached h₁).fresh
    obtain ⟨hdata, -⟩ := hrows.filled fun h hh => (hfresh h hh).2
    change Composite.isEmpty b.data = false
    rw [hdata]
    rfl
  have hschemaOp : Dataset.perform (.schema flagged "marked") d = (.ok (.handle a), d₁) := Eff.bind_ok hschema
  have hbinOp : Dataset.perform (.bin alignedBin) d₁ = (.ok (.count n), d₂) := Eff.bind_ok hbin
  have hdataOp : Dataset.perform (.data b) d₂ = (.ok (.count m), d') := Eff.bind_ok hdata
  obtain ⟨c₁, hfirst, hschemaSeg, -⟩ := Op.committed_of_ok hschemaOp (by rw [Op.seg?, hvacant])
  obtain ⟨c₂, hsecond, hbinSeg, hstart⟩ := Op.committed_of_ok hbinOp rfl
  obtain ⟨c₃, hthird, hdataSeg, -⟩ := Op.committed_of_ok hdataOp (by rw [Op.seg?, if_neg (by simp [hne])])
  have hstart : c₂.start = 71 := hstart.trans hoffset
  have hcommits : [] ++ (Op.schema flagged "marked").committed d ++ (Op.bin alignedBin).committed d₁ ++
      (Op.data b).committed d₂ = [c₁, c₂, c₃] := by
    rw [hfirst, hsecond, hthird]
    rfl
  refine ⟨_, c₁, c₂, c₃, h₃, hcommits, hschemaSeg, hbinSeg, hstart, by rw [hdataSeg]; rfl, ?_⟩
  have hwalks := (Session.walks_iff_unfilled h₃).mpr
  rw [hcommits] at hwalks
  refine hwalks fun c hc => ?_
  simp only [List.mem_cons, List.not_mem_nil, or_false] at hc
  rcases hc with rfl | rfl | rfl
  · rw [hschemaSeg]
    exact trivial
  · rw [hbinSeg, hstart]
    exact (by decide : (71 + 9) % 8 = 0)
  · rw [hdataSeg]
    exact trivial

/-- A binary segment behind the header of a new file is filled up, and the walk falls short of its end. -/
theorem Session.walks_note : ∃ s : Session, s.Reached ∧
    ¬ Walks s.dataset.file.bytes s.commits HEADER s.dataset.file.header.offset := by
  have hruns : (Dataset.launch (Dataset.write noteBin)).isSome = true := by decide +kernel
  obtain ⟨⟨n, d'⟩, hx⟩ := Option.isSome_iff_exists.mp hruns
  obtain ⟨d, hreached, hbin⟩ := Dataset.launch_eq_some hx
  have h := hreached.bin noteBin.obtained hbin
  have hop : Dataset.perform (.bin noteBin) d = (.ok (.count n), d') := Eff.bind_ok hbin
  obtain ⟨c, hcommitted, hseg, hstart⟩ := Op.committed_of_ok hop rfl
  have hs := Session.Consistent.reached h
  refine ⟨_, h, fun hwalks => ?_⟩
  have hall := (Append.walks_iff (hs.journal.mono fun _ _ _ hstep => hstep.1) hs.stored.stored).mp hwalks
  have hc : c ∈ ([] ++ (Op.bin noteBin).committed d : List Commit) := by
    rw [hcommitted]
    exact List.mem_singleton_self c
  have hunfilled := hall c hc
  rw [hseg, hstart, hreached.fresh.1] at hunfilled
  revert hunfilled
  decide

end
end Msca
