import Msca.OnDisk

/-! A dataset over its whole life: the operations on it, what each of them can do to the file, the
segments committed so far and the handles given out. While no write breaks off half way the segments
form a journal that the manifest indexes, and the file holds both. -/
namespace Msca
set_option autoImplicit false
open Checked

section
variable [Extern] [Fs]

/-! ## Operations -/

inductive Op
  | schema (fs : Fields) (name : String)
  | data {fs : Fields} (a : Accumulator fs)
  | bin (b : Bin)
  | reopen

inductive Answer
  | handle {fs : Fields} (a : Accumulator fs)
  | count (n : Nat)
  | opened

/-- The file is opened anew; when that fails the old handle is all there is. -/
def Dataset.reopen : Eff Fault Dataset Unit := fun d =>
  if Fs.fails (d.file.stream.script 0) then (.error ioError, d)
  else
    match Dataset.open d.file.stream.reopened with
    | (.ok d', _) => (.ok (), d')
    | (.error e, _) => (.error e, d)

def Dataset.perform : Op → Eff Fault Dataset Answer
  | .schema fs name => do
    let a ← Dataset.schema fs name
    return .handle a
  | .data a => do
    let n ← Dataset.write a
    return .count n
  | .bin b => do
    let n ← Dataset.write b
    return .count n
  | .reopen => do
    Dataset.reopen
    return .opened

/-- The segment an operation writes. -/
def Op.seg? (d : Dataset) : Op → Option Seg
  | .schema fs name =>
    match d.file.manifest.schemas.get? name with
    | some _ => none
    | none => some (.schema (fs.schema name))
  | .data a => if Pending.isEmpty a then none else some (.data a)
  | .bin b => if Pending.isEmpty b then none else some (.bin b)
  | .reopen => none

/-! ## What an operation can do -/

/-- The segment is there to be read back through the map. -/
def Seg.payload : Seg → Bool
  | .schema _ => false
  | _ => true

/-- The calls of an operation that writes `seg`: seven for the segment, the manifest and the header, and the mapping. -/
def Seg.calls (seg : Seg) : Nat := if seg.payload then 8 else 7

omit [Extern] [Fs] in
theorem Seg.seven_le_calls (seg : Seg) : 7 ≤ seg.calls := by
  unfold Seg.calls
  split <;> decide

/-- The outcomes of an operation. -/
inductive Performed (d : Dataset) : Op → Res Answer → Dataset → Prop
  | matched {fs : Fields} {name : String} {e : Manifest.Schema} {sector : Sector}
      (found : d.file.manifest.schemas.get? name = some e) (same : (fs.schema name).occupied e = .ok sector) :
      Performed d (.schema fs name) (.ok (.handle ⟨Composite.default fs.types, name, sector⟩)) d
  | clashed {fs : Fields} {name : String} {e : Manifest.Schema} {fault : Fault}
      (found : d.file.manifest.schemas.get? name = some e) (differ : (fs.schema name).occupied e = .error fault) :
      Performed d (.schema fs name) (.error fault) d
  | ignored {op : Op} (empty : op.seg? d = none) (n : Nat) : Performed d op (.ok (.count n)) d
  | failed {op : Op} {seg : Seg} {fault : Fault} {f : File} (writes : op.seg? d = some seg)
      (error : File.write seg d.file = (.error fault, f)) : Performed d op (.error fault) (d.withFile f)
  | added {fs : Fields} {name : String} {sector : Sector} {f : File}
      (vacant : d.file.manifest.schemas.get? name = none)
      (ok : File.write (Seg.schema (fs.schema name)) d.file = (.ok sector, f)) :
      Performed d (.schema fs name) (.ok (.handle ⟨Composite.default fs.types, name, sector⟩)) (d.withFile f)
  | mapped {op : Op} {seg : Seg} {sector : Sector} {f : File} {n map : Nat} (payload : seg.payload = true)
      (writes : op.seg? d = some seg) (ok : File.write seg d.file = (.ok sector, f)) (hmap : f.mmap = .ok map) :
      Performed d op (.ok (.count n)) ⟨f, map⟩
  | unmapped {op : Op} {seg : Seg} {sector : Sector} {f : File} {fault : Fault} (payload : seg.payload = true)
      (writes : op.seg? d = some seg) (ok : File.write seg d.file = (.ok sector, f)) (hmap : f.mmap = .error fault) :
      Performed d op (.error fault) (d.withFile f)
  | opened {d' : Dataset} {s : Stream} (ok : Dataset.open d.file.stream.reopened = (.ok d', s)) :
      Performed d .reopen (.ok .opened) d'
  | closed (fault : Fault) : Performed d .reopen (.error fault) d

theorem Dataset.write_cases {S : Type} [Segment S] [Register S] [Pending S] (acc : S) (d : Dataset) :
    Pending.isEmpty acc = true ∧ Dataset.write acc d = (.ok 0, d) ∨
      Pending.isEmpty acc = false ∧
        ((∃ fault f, File.write acc d.file = (.error fault, f) ∧ Dataset.write acc d = (.error fault, d.withFile f)) ∨
          ∃ sector f, File.write acc d.file = (.ok sector, f) ∧
            ((∃ map, f.mmap = .ok map ∧ Dataset.write acc d = (.ok (Pending.count acc), ⟨f, map⟩)) ∨
              ∃ fault, f.mmap = .error fault ∧ Dataset.write acc d = (.error fault, d.withFile f))) := by
  cases he : Pending.isEmpty acc with
  | true => exact Or.inl ⟨rfl, by rw [Dataset.write, if_pos he]; rfl⟩
  | false =>
    refine Or.inr ⟨rfl, ?_⟩
    rw [Dataset.write, if_neg (by simp [he])]
    rcases hw : File.write acc d.file with ⟨fault | sector, f⟩
    · have hfocus : Eff.focus Dataset.file Dataset.withFile (File.write acc) d = (.error fault, d.withFile f) := by
        rw [Eff.focus, hw]
      exact Or.inl ⟨fault, f, rfl, Eff.bind_error hfocus⟩
    · have hfocus : Eff.focus Dataset.file Dataset.withFile (File.write acc) d = (.ok sector, d.withFile f) := by
        rw [Eff.focus, hw]
      refine Or.inr ⟨sector, f, rfl, ?_⟩
      rw [Eff.bind_ok hfocus, Eff.bind_gets]
      change (∃ map, f.mmap = .ok map ∧ (Eff.lift f.mmap >>= _) _ = _) ∨
        ∃ fault, f.mmap = .error fault ∧ (Eff.lift f.mmap >>= _) _ = _
      cases f.mmap with
      | ok map => exact Or.inl ⟨map, rfl, rfl⟩
      | error fault => exact Or.inr ⟨fault, rfl, rfl⟩

/-- A write that returns counts what it wrote. -/
theorem Dataset.count_of_write {S : Type} [Segment S] [Register S] [Pending S] {acc : S} {d d' : Dataset} {n : Nat}
    (hempty : Pending.isEmpty acc = false) (h : Dataset.write acc d = (.ok n, d')) : n = Pending.count acc := by
  rcases Dataset.write_cases acc d with ⟨he, -⟩ | ⟨-, ⟨fault, f, -, hw⟩ | ⟨sector, f, -, ⟨map, -, hw⟩ | ⟨fault, -, hw⟩⟩⟩
  · rw [hempty] at he
    cases he
  · rw [h] at hw
    cases hw
  · rw [h] at hw
    cases hw
    rfl
  · rw [h] at hw
    cases hw

theorem Schema.finish_found {s : Schema} {d : Dataset} {e : Manifest.Schema}
    (h : d.file.manifest.schemas.get? s.name = some e) : s.finish d = (s.occupied e, d) := by
  unfold Schema.finish
  rw [Eff.bind_gets, h]
  rfl

theorem Schema.finish_vacant {s : Schema} {d : Dataset} (h : d.file.manifest.schemas.get? s.name = none) :
    s.finish d = ((File.write s d.file).1, d.withFile (File.write s d.file).2) := by
  unfold Schema.finish
  rw [Eff.bind_gets, h]
  rfl

theorem Dataset.perform_schema (fs : Fields) (name : String) (d : Dataset) :
    Dataset.perform (.schema fs name) d = ((fs.schema name).finish >>= fun sector =>
      pure (.handle ⟨Composite.default fs.types, name, sector⟩)) d := by
  show ((Eff.lift _ >>= fun _ => _) >>= fun _ => _) d = _
  rw [Eff.bind_assoc, fs.accumulator_eq name, Eff.bind_lift_ok rfl, Eff.bind_assoc]
  rfl

theorem Dataset.performed_write {S : Type} [Segment S] [Register S] [Pending S] {op : Op} {acc : S} {seg : Seg}
    {d : Dataset} (hop : Dataset.perform op = Dataset.write acc >>= fun n => pure (.count n))
    (hseg : op.seg? d = if Pending.isEmpty acc then none else some seg) (hsame : File.write acc = File.write seg)
    (hpay : seg.payload = true) :
    Performed d op (Dataset.perform op d).1 (Dataset.perform op d).2 := by
  rw [hop]
  rcases Dataset.write_cases acc d with ⟨he, hw⟩ | ⟨he, hcases⟩
  · rw [Eff.bind_ok hw]
    exact .ignored (by rw [hseg, if_pos he]) 0
  · have hseg : op.seg? d = some seg := by rw [hseg, if_neg (by simp [he])]
    rw [hsame] at hcases
    rcases hcases with ⟨fault, f, hfile, hw⟩ | ⟨sector, f, hfile, ⟨map, hmap, hw⟩ | ⟨fault, hmap, hw⟩⟩
    · rw [Eff.bind_error hw]
      exact .failed hseg hfile
    · rw [Eff.bind_ok hw]
      exact .mapped hpay hseg hfile hmap
    · rw [Eff.bind_error hw]
      exact .unmapped hpay hseg hfile hmap

theorem Dataset.performed (op : Op) (d : Dataset) : Performed d op (Dataset.perform op d).1 (Dataset.perform op d).2 := by
  cases op with
  | schema fs name =>
    rw [Dataset.perform_schema]
    cases hget : d.file.manifest.schemas.get? name with
    | some e =>
      have hfinish : (fs.schema name).finish d = _ := Schema.finish_found hget
      cases hocc : (fs.schema name).occupied e with
      | ok sector =>
        rw [Eff.bind_ok (hfinish.trans (by rw [hocc]))]
        exact .matched hget hocc
      | error fault =>
        rw [Eff.bind_error (hfinish.trans (by rw [hocc]))]
        exact .clashed hget hocc
    | none =>
      have hfinish : (fs.schema name).finish d = _ := Schema.finish_vacant hget
      have hsame : File.write (Seg.schema (fs.schema name)) = File.write (fs.schema name) := rfl
      rcases hw : File.write (fs.schema name) d.file with ⟨fault | sector, f⟩
      · rw [Eff.bind_error (hfinish.trans (by rw [hw]))]
        exact .failed (by rw [Op.seg?, hget]) (by rw [hsame, hw])
      · rw [Eff.bind_ok (hfinish.trans (by rw [hw]))]
        exact .added hget (by rw [hsame, hw])
  | data a => exact Dataset.performed_write rfl rfl rfl rfl
  | bin b => exact Dataset.performed_write rfl rfl rfl rfl
  | reopen =>
    by_cases hfails : Fs.fails (d.file.stream.script 0) = true
    · have hrun : Dataset.reopen d = (.error ioError, d) := by
        rw [Dataset.reopen, if_pos hfails]
      rw [Dataset.perform, Eff.bind_error hrun]
      exact .closed _
    · rcases hopen : Dataset.open d.file.stream.reopened with ⟨fault | d', s⟩
      · have hrun : Dataset.reopen d = (.error fault, d) := by
          rw [Dataset.reopen, if_neg hfails, hopen]
        rw [Dataset.perform, Eff.bind_error hrun]
        exact .closed fault
      · have hrun : Dataset.reopen d = (.ok (), d') := by
          rw [Dataset.reopen, if_neg hfails, hopen]
        rw [Dataset.perform, Eff.bind_ok hrun]
        exact .opened hopen

theorem Accumulator.commit_ok {fs : Fields} {a : Accumulator fs} {rows : List (Row fs.types)} {d d' : Dataset} {n : Nat}
    (h : a.commit rows d = (.ok n, d')) : ∃ b, a.pushes rows = .ok b ∧ Dataset.write b d = (.ok n, d') :=
  Eff.bind_lift_eq_ok h

end

/-! ## Accumulators that a caller can hold -/

/-- A handle for some record type. -/
abbrev Handle := Σ fs : Fields, Accumulator fs

/-- Handles of the dataset, filled, emptied and cloned, and the records they hold. A count beyond a word
or bits beyond a bit vector stop the program. -/
inductive Obtained (handles : List Handle) {fs : Fields} : Accumulator fs → List (Row fs.types) → Prop
  | handle {a : Accumulator fs} (h : ⟨fs, a⟩ ∈ handles) : Obtained handles a []
  | push {a : Accumulator fs} {rows : List (Row fs.types)} (h : Obtained handles a rows) (row : Row fs.types)
      (hlt : rows.length + 1 < 2 ^ 64) (hbits : BitsFit (rows ++ [row])) {b : Accumulator fs} (ok : a.push row = .ok b) :
      Obtained handles b (rows ++ [row])
  | discard {a : Accumulator fs} {rows : List (Row fs.types)} (h : Obtained handles a rows) : Obtained handles a.discard []
  | clone {a : Accumulator fs} {rows : List (Row fs.types)} (h : Obtained handles a rows) : Obtained handles a.clone []

/-- A binary accumulator made by its name, filled and emptied, and the chunks pushed into it since it was last empty. -/
inductive Bin.Obtained : Bin → List Bytes → Prop
  | new (name : String) : Obtained (Bin.new name) []
  | push {b : Bin} {chunks : List Bytes} (h : b.Obtained chunks) (item : Bytes) : Obtained (b.push item) (chunks ++ [item])
  | extendFromSlice {b : Bin} {chunks : List Bytes} (h : b.Obtained chunks) (slice : Bytes) :
      Obtained (b.extendFromSlice slice) (chunks ++ [slice])
  | extend {b : Bin} {chunks : List Bytes} (h : b.Obtained chunks) (items : List UInt8) :
      Obtained (b.extend items) (chunks ++ [items])
  | discard {b : Bin} {chunks : List Bytes} (h : b.Obtained chunks) : Obtained b.discard []

/-- The bytes of a binary accumulator are the chunks one after another. -/
theorem Bin.Obtained.data {b : Bin} {chunks : List Bytes} (h : b.Obtained chunks) : b.data = chunks.flatten := by
  induction h with
  | new name => rfl
  | push h item ih => simp [Bin.push, ih]
  | extendFromSlice h slice ih => simp [Bin.extendFromSlice, ih]
  | extend h items ih => simp [Bin.extend, ih]
  | discard h ih => rfl

theorem Bin.obtained (b : Bin) : b.Obtained [b.data] := (Obtained.new b.name).push b.data

theorem BitsFit.mono {ts : List Item} {rows rows' : List (Row ts)} (hsub : rows.Sublist rows') (h : BitsFit rows') :
    BitsFit rows := fun j => (ts.get j).bitsFit_mono (hsub.map _) (h j)

theorem Obtained.pushes {handles : List Handle} {fs : Fields} {a b : Accumulator fs} (h : ⟨fs, a⟩ ∈ handles)
    {rows : List (Row fs.types)} (hlt : rows.length < 2 ^ 64) (hbits : BitsFit rows) (ok : a.pushes rows = .ok b) :
    Obtained handles b rows := by
  induction rows using List.reverseRecOn generalizing b with
  | nil =>
    cases ok
    exact .handle h
  | append_singleton rows row ih =>
    rw [List.length_append, List.length_singleton] at hlt
    simp only [Accumulator.pushes, List.foldlM_append, List.foldlM_cons, List.foldlM_nil, bind_pure] at ok
    obtain ⟨c, hc, ok⟩ := bind_eq_ok.mp ok
    exact (ih (by omega) (hbits.mono (List.sublist_append_left _ _)) hc).push row hlt hbits ok

theorem Accumulator.pushes_of_lt {fs : Fields} {a : Accumulator fs} (ha : a.data = Composite.default fs.types)
    {rows : List (Row fs.types)} (hlt : rows.length < 2 ^ 64) :
    a.pushes rows = .ok { a with data := Composite.collect rows } := by
  induction rows using List.reverseRecOn with
  | nil =>
    rw [Composite.collect_nil, ← ha]
    rfl
  | append_singleton rows row ih =>
    rw [List.length_append, List.length_singleton] at hlt
    simp only [Accumulator.pushes, List.foldlM_append, List.foldlM_cons, List.foldlM_nil, bind_pure]
    rw [show List.foldlM Accumulator.push a rows = a.pushes rows from rfl, ih (by omega), ok_bind, Accumulator.push,
      Composite.push_of_lt row hlt]
    rfl

/-- A handle as `Dataset::schema` returns it. -/
def Handle.Fresh (m : Manifest) (h : Handle) : Prop :=
  Registered m h.2.name h.1 ∧ h.2.data = Composite.default h.1.types

theorem Composite.discard_eq {ts : List Item} (c : Composite ts) : Composite.discard c = Composite.default ts := by
  induction c with
  | nil => rfl
  | cons b c ih =>
    rw [Composite.discard, ih]
    rfl

theorem Composite.isEmpty_default (ts : List Item) : Composite.isEmpty (Composite.default ts) = true := by
  cases ts <;> rfl

/-- The accumulator holds the records pushed since it was last empty. -/
theorem Obtained.filled {handles : List Handle} (hs : ∀ h ∈ handles, h.2.data = Composite.default h.1.types) {fs : Fields}
    {a : Accumulator fs} {rows : List (Row fs.types)} (h : Obtained handles a rows) :
    a.data = Composite.collect rows ∧ rows.length < 2 ^ 64 ∧ BitsFit rows := by
  have hempty : BitsFit ([] : List (Row fs.types)) := fun j => Item.bitsFit_nil _
  induction h with
  | handle h => exact ⟨(hs _ h).trans (Composite.collect_nil _).symm, Nat.two_pow_pos 64, hempty⟩
  | push h row hlt hbits ok ih =>
    refine ⟨?_, by rwa [List.length_append, List.length_singleton], hbits⟩
    rw [Accumulator.push, ih.1] at ok
    obtain ⟨c, hc, ok⟩ := bind_eq_ok.mp ok
    cases ok
    exact Composite.push_eq_ok hc
  | discard h ih => exact ⟨(Composite.discard_eq _).trans (Composite.collect_nil _).symm, Nat.two_pow_pos 64, hempty⟩
  | clone h ih => exact ⟨(Composite.collect_nil _).symm, Nat.two_pow_pos 64, hempty⟩

theorem Obtained.collected {handles : List Handle} {m : Manifest} (hs : ∀ h ∈ handles, Handle.Fresh m h) {fs : Fields}
    {a : Accumulator fs} {rows : List (Row fs.types)} (h : Obtained handles a rows) :
    Registered m a.name fs ∧ a.data = Composite.collect rows ∧ rows.length < 2 ^ 64 ∧ BitsFit rows := by
  refine ⟨?_, h.filled fun h hh => (hs h hh).2⟩
  induction h with
  | handle h => exact (hs _ h).1
  | push h row hlt hbits ok ih =>
    obtain ⟨c, -, ok⟩ := bind_eq_ok.mp ok
    cases ok
    exact ih
  | discard h ih => exact ih
  | clone h ih => exact ih

theorem Obtained.sound {handles : List Handle} {m : Manifest} (hs : ∀ h ∈ handles, Handle.Fresh m h) {fs : Fields}
    {a : Accumulator fs} {rows : List (Row fs.types)} (h : Obtained handles a rows) (hne : Pending.isEmpty a = false) :
    Sound m (.data a) := by
  obtain ⟨⟨e, he, hshape⟩, hdata, hlt, hbits⟩ := h.collected hs
  refine ⟨e, rows, he, hshape, hdata, ?_, hlt, hbits⟩
  rintro rfl
  change Composite.isEmpty a.data = false at hne
  rw [hdata, Composite.collect_nil] at hne
  exact Bool.noConfusion ((Composite.isEmpty_default fs.types).symm.trans hne)

/-! ## Sessions -/

section
variable [Extern] [Fs]

/-- An operation, and how the medium fares from its start. -/
structure Event where
  op : Op
  script : Script

namespace Dataset

def arm (d : Dataset) (σ : Script) : Dataset := d.withFile (d.file.withStream { d.file.stream with script := σ })

def step (d : Dataset) (e : Event) : Res Answer × Dataset := perform e.op (d.arm e.script)

/-- File, header, manifest and map are the same, and nothing else waits to be written. -/
structure Same (d d' : Dataset) : Prop where
  bytes : d'.file.bytes = d.file.bytes
  queue : d'.file.queue = d.file.queue
  header : d'.file.header = d.file.header
  manifest : d'.file.manifest = d.file.manifest
  map : d'.map = d.map

end Dataset

def Answer.handles : Answer → List Handle
  | @Answer.handle fs a => [⟨fs, a⟩]
  | _ => []

/-- The segment that an operation that returns has put behind the others. -/
def Op.committed (d : Dataset) (op : Op) : List Commit :=
  match op.seg? d with
  | none => []
  | some seg =>
    match h : wrap seg d.file.header.offset with
    | .ok image => [⟨_, seg, image, h⟩]
    | .error _ => []

/-- A dataset with the handles it gave out and the segments committed to it. -/
structure Session where
  dataset : Dataset
  handles : List Handle
  commits : List Commit

namespace Session

/-- Accumulators written come from the dataset. -/
def Legal (s : Session) : Op → Prop
  | .data a => ∃ rows, Obtained s.handles a rows
  | .bin b => ∃ chunks, b.Obtained chunks
  | _ => True

/-- An operation that returns, or one that fails and leaves everything as it was. -/
inductive Step (s : Session) (e : Event) : Session → Prop
  | done {answer : Answer} {d : Dataset} (legal : s.Legal e.op) (h : s.dataset.step e = (.ok answer, d)) :
      Step s e ⟨d, s.handles ++ answer.handles, s.commits ++ e.op.committed s.dataset⟩
  | refused {fault : Fault} {d : Dataset} (h : s.dataset.step e = (.error fault, d)) (same : s.dataset.Same d) :
      Step s e ⟨d, s.handles, s.commits⟩

/-- A session on a new file. -/
def Starts (s : Session) : Prop :=
  ∃ (σ : Script) (stream : Stream), Dataset.new ⟨Fs.opened [], σ, []⟩ = (.ok s.dataset, stream) ∧ s.handles = [] ∧
    s.commits = []

/-- Sessions that any run from a new file reaches. -/
def Reached (t : Session) : Prop := ∃ s es, Starts s ∧ Run Step s es t

end Session

end
end Msca
