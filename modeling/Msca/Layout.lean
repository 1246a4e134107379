import Msca.Reference
import Msca.Register

/-! Where the bytes of a segment are, twice: `wrap` lays the columns out by padding from the absolute
offset and chaining their images, `register` recomputes every position from the written sector. The
two agree for every offset and every size of every column. -/
namespace Msca
set_option autoImplicit false
open Checked

/-! ## Columns of a composite -/

namespace Composite

/-- The serialized columns. -/
def bodies : {ts : List Item} → Composite ts → List Bytes
  | _, .nil => []
  | _, .cons b c => enc b :: bodies c

@[simp] theorem bodies_length {ts : List Item} (c : Composite ts) : (bodies c).length = ts.length := by
  induction c with
  | nil => rfl
  | cons b c ih => simp [bodies, ih]

theorem image_eq {ts : List Item} (c : Composite ts) : image c = (bodies c).flatMap frame := by
  induction c with
  | nil => rfl
  | cons b c ih => rw [image, bodies, List.flatMap_cons, ih]

theorem image_mod {ts : List Item} (c : Composite ts) : (image c).length % 8 = 0 := by
  rw [image_eq, ← regionStart_all (Nat.le_refl (bodies c).length)]
  exact regionStart_mod _ _

theorem bodies_get {ts : List Item} (c : Composite ts) (j : Fin ts.length) :
    (bodies c)[j.val]? = some (enc (c.get j)) := by
  induction c with
  | nil => exact j.elim0
  | cons b c ih =>
    obtain ⟨j, hj⟩ := j
    cases j with
    | zero => rfl
    | succ j => exact ih ⟨j, Nat.lt_of_succ_lt_succ hj⟩

theorem size_get {ts : List Item} {c : Composite ts} {total n : Nat} (h : sumSizes c total = .ok n)
    (j : Fin ts.length) : ∃ k, Serialize.size (c.get j) = .ok k := by
  induction c generalizing total with
  | nil => exact j.elim0
  | cons b c ih =>
    obtain ⟨k, hk, -, h⟩ := sumSizes_cons h
    obtain ⟨j, hj⟩ := j
    cases j with
    | zero =>
      obtain ⟨m, hm, -⟩ := sizedBuf_size_eq_ok hk
      exact ⟨m, hm⟩
    | succ j => exact ih h ⟨j, Nat.lt_of_succ_lt_succ hj⟩

/-- Every column holds `n` items. -/
def Lockstep {ts : List Item} (c : Composite ts) (n : Nat) : Prop := ∀ j, (c.get j).count = n

theorem Lockstep.head {t : Item} {ts : List Item} {b : Buffer t.Val} {c : Composite ts} {n : Nat}
    (h : Lockstep (.cons b c) n) : b.count = n := h ⟨0, Nat.succ_pos _⟩

theorem Lockstep.tail {t : Item} {ts : List Item} {b : Buffer t.Val} {c : Composite ts} {n : Nat}
    (h : Lockstep (.cons b c) n) : Lockstep c n :=
  fun j => h ⟨j.val + 1, Nat.succ_lt_succ j.isLt⟩

theorem lockstep_collect {ts : List Item} (rows : List (Row ts)) : Lockstep (collect rows) rows.length := by
  intro j
  rw [get_collect, Buffer.count_collect, List.length_map]

/-- `descs` are the descriptors of the columns framed one after another from `offset`. -/
def Described {ts : List Item} (c : Composite ts) (offset : Nat) (descs : List Manifest.Buffer) : Prop :=
  match c with
  | .nil => descs = []
  | .cons b c => ∃ s desc rest, descs = desc :: rest ∧ b.descriptor offset = .ok (s, desc) ∧
      s.offset = offset + 8 ∧ s.size = (enc b).length ∧ desc.sector = s ∧ desc.count = b.count ∧
      Described c (offset + (frame (enc b)).length) rest

theorem buffers_described {ts : List Item} {c : Composite ts} {total n k : Nat} (offset : Nat) {columns : List Column}
    (hsize : sumSizes c total = .ok n) (hstep : Lockstep c k) (hpos : 0 < k) (hk : k < 2 ^ 64)
    (hmod : offset % 8 = 0) (hlt : offset + (image c).length < 2 ^ 64) (hlen : columns.length = ts.length) :
    ∃ descs, buffers c offset columns =
        (.ok (offset + (image c).length), List.zipWith Column.insert columns descs) ∧
      Described c offset descs := by
  induction c generalizing total offset columns with
  | nil =>
    rw [List.length_eq_zero_iff.mp hlen]
    exact ⟨[], rfl, rfl⟩
  | cons b c ih =>
    obtain ⟨m, hm, hframe, hsize⟩ := sumSizes_cons hsize
    obtain ⟨body, hbody, hround⟩ := sizedBuf_size_eq_ok hm
    have henc : body.get = (enc b).length := LawfulSerialize.size_eq hbody
    have hup := le_roundUp body.get
    have hround8 := roundUp_mod body.get
    rw [image, List.length_append] at hlt ⊢
    obtain ⟨column, columns, rfl⟩ := List.exists_cons_of_length_eq_add_one hlen
    obtain ⟨s, desc, hdesc, hoffset, hbytes, hsector, hcount⟩ :=
      Item.buffer_descriptor _ offset hbody (by omega) (by rw [hstep.head]; exact hpos)
        (by rw [hstep.head]; exact hk)
    have hstop : roundUp (s.size + s.offset) = offset + (frame (enc b)).length := by
      have hadd := roundUp_add (m := offset + 8) (n := body.get) (by omega)
      rw [hoffset, hbytes, Nat.add_comm, hadd]
      omega
    have hnext : (do align (← okOr zeroError s.next)) = (.ok (offset + (frame (enc b)).length) : Res Nat) := by
      rw [Sector.next, add_of_lt (by omega), okOr_some, ok_bind, align_of_lt (by omega), hstop]
    obtain ⟨descs, hwalk, hdescs⟩ := ih (offset + (frame (enc b)).length) hsize hstep.tail
      (by omega) (by omega) (Nat.succ.inj hlen)
    refine ⟨desc :: descs, ?_, s, desc, descs, rfl, hdesc, hoffset, by omega, hsector, hcount, hdescs⟩
    have hhead : b.buffers offset column = (.ok (offset + (frame (enc b)).length), column.insert desc) := by
      rw [Buffer.buffers, hdesc]
      exact congrArg (·, column.insert desc) hnext
    rw [Composite.buffers, hhead]
    dsimp only
    rw [hwalk, Nat.add_assoc]
    rfl

theorem Described.length_eq {ts : List Item} {c : Composite ts} {offset : Nat} {descs : List Manifest.Buffer}
    (h : Described c offset descs) : descs.length = ts.length := by
  induction c generalizing offset descs with
  | nil =>
    rw [h]
    rfl
  | cons b c ih =>
    obtain ⟨s, desc, rest, rfl, -, -, -, -, -, h⟩ := h
    rw [List.length_cons, ih h, List.length_cons]

theorem Described.sector {ts : List Item} {c : Composite ts} {offset : Nat} {descs : List Manifest.Buffer}
    (h : Described c offset descs) {j : Nat} {desc : Manifest.Buffer} (hj : descs[j]? = some desc) :
    ∃ body, (bodies c)[j]? = some body ∧ desc.sector.offset = offset + regionStart (bodies c) j + 8 ∧
      desc.sector.size = body.length := by
  induction c generalizing offset descs j with
  | nil =>
    rw [h] at hj
    cases hj
  | cons b c ih =>
    obtain ⟨s, head, rest, rfl, -, hoffset, hsize, hsector, -, h⟩ := h
    cases j with
    | zero =>
      cases hj
      refine ⟨enc b, rfl, ?_, ?_⟩
      · rw [hsector, hoffset]
        rfl
      · rw [hsector, hsize]
    | succ j =>
      obtain ⟨body, hbody, hoff, hlen⟩ := ih h hj
      refine ⟨body, hbody, ?_, hlen⟩
      rw [hoff, bodies, regionStart_cons]
      omega

end Composite

/-! ## Agreement of the two computations -/

section
variable [Extern]

/-- The descriptors of a segment at `o` address its columns `bodies` inside the wrapped bytes. -/
structure Agrees (o : Nat) (bytes : Bytes) (bodies : List Bytes) (descs : List Manifest.Buffer) : Prop where
  aligned : ∀ d ∈ descs, d.sector.offset % 8 = 0
  addressed : ∀ d ∈ descs, o ≤ d.sector.offset + HEADER
  slices : descs.map (fun d => Bytes.slice bytes (d.sector.offset + HEADER - o) d.sector.size) = bodies
  disjoint : descs.Pairwise fun d e => d.sector.offset + d.sector.size ≤ e.sector.offset
  inside : ∀ d ∈ descs, d.sector.offset + HEADER - o + d.sector.size ≤ bytes.length - 8

theorem data_filled {fs : Fields} {a : Accumulator fs} {data : NonZero} (hdata : Serialize.size a.data = .ok data)
    (fill size : Nat) (hsize : size = data.get + 16 + fill) :
    filled (size + 17) [serializeInto Variant.data.byte, copyFront (Bytes.leBytes 8 size),
      copyFront (Bytes.leBytes 8 a.schema.offset), copyFront (Bytes.leBytes 8 (Composite.count a.data)),
      copyFront (Bytes.zeros fill), serializeInto a.data] =
        .ok (segment .data ((Composite.image a.data).length + 16 + fill) (Bytes.leBytes 8 a.schema.offset ++
          (Bytes.leBytes 8 (Composite.count a.data) ++ (Bytes.zeros fill ++ Composite.image a.data)))) := by
  have henc : enc a.data = Composite.image a.data := rfl
  have hlen : data.get = (Composite.image a.data).length := LawfulSerialize.size_eq hdata
  have hw := chain_cons_writes (byte_writes Variant.data.byte) (chain_cons_writes
    (copyFront_writes (Bytes.leBytes 8 size)) (chain_cons_writes
    (copyFront_writes (Bytes.leBytes 8 a.schema.offset)) (chain_cons_writes
    (copyFront_writes (Bytes.leBytes 8 (Composite.count a.data))) (chain_cons_writes
    (copyFront_writes (Bytes.zeros fill)) (chain_cons_writes (serializeInto_writes hdata) chain_nil_writes)))))
  rw [filled_eq hw (by simp [henc]; omega), segment, List.append_nil, henc, hsize, hlen]
  rfl

theorem data_wrap_eq_ok {fs : Fields} {a : Accumulator fs} {offset : Nat} {bytes : Bytes}
    (h : wrap a offset = .ok bytes) :
    ∃ total, Composite.sumSizes a.data 0 = .ok total ∧ 0 < total ∧ roundUp (offset + 25) < 2 ^ 64 ∧
      bytes = segment .data ((Composite.image a.data).length + 16 + (roundUp (offset + 25) - (offset + 25)))
        (Bytes.leBytes 8 a.schema.offset ++ (Bytes.leBytes 8 (Composite.count a.data) ++
          (Bytes.zeros (roundUp (offset + 25) - (offset + 25)) ++ Composite.image a.data))) := by
  obtain ⟨start, hstart, h⟩ := bind_eq_ok.mp h
  obtain ⟨-, rfl⟩ := addOr_eq_ok.mp hstart
  obtain ⟨fill, hfill, h⟩ := bind_eq_ok.mp h
  obtain ⟨hround, rfl⟩ := pad_eq_ok.mp hfill
  obtain ⟨body, hbody, h⟩ := bind_eq_ok.mp h
  obtain ⟨size, hsize, h⟩ := bind_eq_ok.mp h
  obtain ⟨-, rfl⟩ := addOr_eq_ok.mp hsize
  obtain ⟨full, hfull, h⟩ := bind_eq_ok.mp h
  obtain ⟨-, rfl⟩ := addOr_eq_ok.mp hfull
  obtain ⟨data, hdata, hbody⟩ := bind_eq_ok.mp hbody
  obtain ⟨aligned, haligned, hbody⟩ := bind_eq_ok.mp hbody
  obtain ⟨-, rfl⟩ := align_eq_ok.mp haligned
  obtain ⟨sum, hsum, hbody⟩ := Option.bind_eq_some_iff.mp (okOr_eq_ok.mp hbody)
  obtain ⟨-, rfl⟩ := add_eq_some.mp hsum
  have hget := NonZero.ofNat?_eq_some.mp hbody
  have hlen : data.get = (Composite.image a.data).length := LawfulSerialize.size_eq hdata
  have hmod := Composite.image_mod a.data
  rw [roundUp_of_mod (by omega)] at hget
  obtain ⟨total, htotal, hn⟩ := bind_eq_ok.mp hdata
  have hn := NonZero.ofNat?_eq_some.mp (okOr_eq_ok.mp hn)
  have hpos := data.pos
  rw [Accumulator.HEADER, data_filled hdata _ _ (by rw [hget])] at h
  exact ⟨total, htotal, by omega, hround, (Except.ok.inj h).symm⟩

theorem Composite.Described.agrees {fs : Fields} {a : Accumulator fs} {o : Nat} {bytes : Bytes}
    {descs : List Manifest.Buffer} (ho : 24 ≤ o) (hwrap : wrap a o = .ok bytes)
    (h : Composite.Described a.data (roundUp (o + 25) - 24) descs) :
    Agrees o bytes (Composite.bodies a.data) descs := by
  obtain ⟨total, -, -, -, hbytes⟩ := data_wrap_eq_ok hwrap
  have hup := le_roundUp (o + 25)
  have hmod := roundUp_mod (o + 25)
  have hall := regionStart_all (Nat.le_refl (Composite.bodies a.data).length)
  rw [← Composite.image_eq] at hall
  have hlen : bytes.length = (Composite.image a.data).length + (roundUp (o + 25) - o) + 8 := by
    rw [hbytes, segment_length]
    simp
    omega
  have hsector : ∀ j d, descs[j]? = some d → ∃ body, (Composite.bodies a.data)[j]? = some body ∧
      d.sector.offset + 24 = roundUp (o + 25) + regionStart (Composite.bodies a.data) j + 8 ∧
        d.sector.size = body.length ∧
          regionStart (Composite.bodies a.data) j + 8 + body.length ≤ (Composite.image a.data).length := by
    intro j d hj
    obtain ⟨body, hbody, hoff, hsize⟩ := h.sector hj
    have hlt : j < (Composite.bodies a.data).length := (List.getElem?_eq_some_iff.mp hbody).1
    have hle := region_le hbody hlt
    exact ⟨body, hbody, by omega, hsize, by omega⟩
  refine ⟨?_, ?_, ?_, ?_, ?_⟩
  · intro d hd
    obtain ⟨j, hj⟩ := List.getElem?_of_mem hd
    obtain ⟨body, -, hoff, -⟩ := hsector j d hj
    have hregion := regionStart_mod (Composite.bodies a.data) j
    omega
  · intro d hd
    obtain ⟨j, hj⟩ := List.getElem?_of_mem hd
    obtain ⟨body, -, hoff, -⟩ := hsector j d hj
    rw [HEADER]
    omega
  · apply List.ext_getElem?
    intro j
    rw [List.getElem?_map]
    cases hj : descs[j]? with
    | none =>
      have hge := List.getElem?_eq_none_iff.mp hj
      rw [h.length_eq, ← Composite.bodies_length a.data] at hge
      rw [List.getElem?_eq_none hge]
      rfl
    | some d =>
      obtain ⟨body, hbody, hoff, hsize, hle⟩ := hsector j d hj
      have hfront : 9 + (Bytes.leBytes 8 a.schema.offset ++ (Bytes.leBytes 8 (Composite.count a.data) ++
          Bytes.zeros (roundUp (o + 25) - (o + 25)))).length + (regionStart (Composite.bodies a.data) j + 8) =
          d.sector.offset + HEADER - o := by
        simp [HEADER]
        omega
      have hslice := segment_slice .data
        ((Composite.image a.data).length + 16 + (roundUp (o + 25) - (o + 25)))
        (Bytes.leBytes 8 a.schema.offset ++ (Bytes.leBytes 8 (Composite.count a.data) ++
          Bytes.zeros (roundUp (o + 25) - (o + 25)))) (Composite.image a.data) hle
      rw [hfront, Composite.image_eq, slice_region hbody] at hslice
      rw [hbody, Option.map_some, hbytes, hsize]
      simpa [Composite.image_eq] using hslice
  · rw [List.pairwise_iff_getElem]
    intro i j hi hj hij
    obtain ⟨body, hbody, hoff, hsize, -⟩ := hsector i _ (List.getElem?_eq_getElem hi)
    obtain ⟨body', -, hoff', -⟩ := hsector j _ (List.getElem?_eq_getElem hj)
    have hle := region_le hbody hij
    omega
  · intro d hd
    obtain ⟨j, hj⟩ := List.getElem?_of_mem hd
    obtain ⟨body, -, hoff, hsize, hle⟩ := hsector j d hj
    rw [HEADER]
    omega

omit [Extern] in
theorem serialize_get {ts : List Item} {c : Composite ts} {total n : Nat} (h : Composite.sumSizes c total = .ok n)
    (j : Fin ts.length) :
    ∃ body, serialize (c.get j) = .ok body ∧ (Composite.bodies c)[j.val]? = some body := by
  obtain ⟨k, hk⟩ := Composite.size_get h j
  exact ⟨enc (c.get j), serialize_eq hk, Composite.bodies_get c j⟩

theorem registerIn_described {fs : Fields} {a : Accumulator fs} {n : Nat} (hstep : a.data.Lockstep n)
    (hpos : 0 < n) (hn : n < 2 ^ 64) {s : Sector} (hs : 24 ≤ s.offset) {bytes : Bytes}
    (hwrap : wrap a s.offset = .ok bytes) (hend : s.offset + bytes.length < 2 ^ 64) {e : Manifest.Schema}
    (he : e.columns.values.length = fs.types.length) :
    ∃ descs, a.registerIn s e = (.ok (), { e with
        columns := e.columns.withValues (List.zipWith Column.insert e.columns.values descs) }) ∧
      Composite.Described a.data (roundUp (s.offset + 25) - 24) descs := by
  obtain ⟨total, htotal, -, hround, hbytes⟩ := data_wrap_eq_ok hwrap
  have hup := le_roundUp (s.offset + 25)
  have hmod := roundUp_mod (s.offset + 25)
  have hlen : bytes.length = (Composite.image a.data).length + (roundUp (s.offset + 25) - s.offset) + 8 := by
    rw [hbytes, segment_length]
    simp
    omega
  obtain ⟨descs, hwalk, hdescs⟩ := Composite.buffers_described (roundUp (s.offset + 25) - 24) htotal
    hstep hpos hn (by omega) (by omega) he
  refine ⟨descs, ?_, hdescs⟩
  rw [Accumulator.registerIn, Accumulator.HEADER, payload_of_lt hs hround]
  dsimp only
  rw [hwalk]
  rfl

theorem bin_register {b : Bin} {s : Sector} (hs : 24 ≤ s.offset) {bytes : Bytes}
    (hwrap : wrap b s.offset = .ok bytes) (hend : s.offset + bytes.length < 2 ^ 64) (m : Manifest) :
    ∃ sector, register b s m = (.ok (), { m with bins := m.bins.insertVacant b.name sector }) ∧
      sector.offset = roundUp (s.offset + 9) - 24 ∧ sector.size = b.data.length := by
  obtain ⟨hpos, hround, hbytes⟩ := bin_wrap_eq_ok hwrap
  have hlen : bytes.length = roundUp (s.offset + 9) - (s.offset + 9) + b.data.length + 17 := by
    rw [hbytes, segment_length]
    simp
  have hlt : b.data.length < 2 ^ 64 := by omega
  have hsector : b.sector s = .ok ⟨roundUp (s.offset + 9) - 24, b.data.length, by omega, hpos, hlt⟩ := by
    rw [Bin.sector, Segment.HEADER, payload_of_lt hs hround, ok_bind, Sector.new_of_lt (by omega) hpos hlt]
  refine ⟨⟨roundUp (s.offset + 9) - 24, b.data.length, by omega, hpos, hlt⟩, ?_, rfl, rfl⟩
  simp only [register, hsector]

theorem bin_slice {b : Bin} {o : Nat} {bytes : Bytes} (hwrap : wrap b o = .ok bytes) :
    Bytes.slice bytes (roundUp (o + 9) - o) b.data.length = b.data ∧
      roundUp (o + 9) - o + b.data.length = bytes.length - 8 := by
  obtain ⟨-, -, hbytes⟩ := bin_wrap_eq_ok hwrap
  have hup := le_roundUp (o + 9)
  have hslice := segment_slice .binary b.data.length (Bytes.zeros (roundUp (o + 9) - (o + 9))) b.data
    (Nat.le_of_eq (Nat.zero_add _) : 0 + b.data.length ≤ b.data.length)
  have hfront : 9 + (Bytes.zeros (roundUp (o + 9) - (o + 9))).length + 0 = roundUp (o + 9) - o := by
    rw [Bytes.zeros_length]
    omega
  rw [hfront, ← hbytes] at hslice
  refine ⟨?_, ?_⟩
  · rw [hslice]
    simp [Bytes.slice]
  · rw [hbytes, segment_length]
    simp
    omega

/-- What is registered for a segment wrapped at `o` addresses its payload inside the wrapped bytes. -/
theorem registered_sectors_agree (o : Nat) (ho : HEADER ≤ o) :
    (∀ (fs : Fields) (a : Accumulator fs) (rows : List (Row fs.types)) (bytes : Bytes) (s : Sector)
        (e : Manifest.Schema), a.data = Composite.collect rows → rows ≠ [] → rows.length < 2 ^ 64 →
        wrap a o = .ok bytes → o + bytes.length < 2 ^ 64 → s.offset = o → s.size = bytes.length →
        e.columns.values.length = fs.types.length →
      ∃ descs bodies, a.registerIn s e = (.ok (), { e with
            columns := e.columns.withValues (List.zipWith Column.insert e.columns.values descs) }) ∧
          bodies.length = fs.types.length ∧
          (∀ j : Fin fs.types.length, ∃ body, serialize (a.data.get j) = .ok body ∧ bodies[j.val]? = some body) ∧
          Agrees o bytes bodies descs) ∧
      ∀ (b : Bin) (bytes : Bytes) (s : Sector) (m : Manifest), wrap b o = .ok bytes →
          o + bytes.length < 2 ^ 64 → s.offset = o → s.size = bytes.length → entry b m = .ok () →
        ∃ sector, register b s m = (.ok (), { m with bins := m.bins.insertVacant b.name sector }) ∧
          sector.offset % 8 = 0 ∧ o ≤ sector.offset + HEADER ∧
          Bytes.slice bytes (sector.offset + HEADER - o) sector.size = b.data ∧
          sector.offset + HEADER - o + sector.size ≤ bytes.length - 8 := by
  have ho : 24 ≤ o := ho
  refine ⟨?_, ?_⟩
  · intro fs a rows bytes s e hdata hne hcount hwrap hend hoffset _ he
    subst hoffset
    have hstep : a.data.Lockstep rows.length := by
      rw [hdata]
      exact Composite.lockstep_collect rows
    obtain ⟨descs, hreg, hdescs⟩ := registerIn_described hstep (List.length_pos_iff.mpr hne) hcount ho hwrap hend he
    obtain ⟨total, htotal, -⟩ := data_wrap_eq_ok hwrap
    refine ⟨descs, Composite.bodies a.data, hreg, Composite.bodies_length a.data, ?_, hdescs.agrees ho hwrap⟩
    intro j
    exact serialize_get htotal j
  · intro b bytes s m hwrap hend hoffset _ _
    subst hoffset
    obtain ⟨sector, hreg, hoffset, hsize⟩ := bin_register ho hwrap hend m
    obtain ⟨hslice, hinside⟩ := bin_slice hwrap
    have hup := le_roundUp (s.offset + 9)
    have hmod := roundUp_mod (s.offset + 9)
    have hpos : sector.offset + HEADER - s.offset = roundUp (s.offset + 9) - s.offset := by
      rw [HEADER, hoffset]
      omega
    refine ⟨sector, hreg, by omega, by rw [HEADER]; omega, ?_, ?_⟩
    · rw [hpos, hsize, hslice]
    · rw [hpos, hsize, hinside]

end

/-! ## A data segment and a binary segment at the start of a file -/

section
attribute [local instance] reference

/-- Records of a flag and an optional name. -/
def flagged : Fields where
  columns := ⟨[("flag", .bool), ("name", .option .string)], by decide⟩
  ne := by simp

def flaggedRows : List (Row flagged.types) :=
  [.cons true (.cons (some "ab") .nil), .cons false (.cons none .nil)]

def flaggedAcc : Accumulator flagged where
  data := Composite.collect flaggedRows
  name := "s"
  schema := ⟨24, 40, by decide, by decide, by decide⟩

def flaggedSchema : Manifest.Schema where
  sector := flaggedAcc.schema
  columns := ⟨[("flag", Column.ofType .bool), ("name", Column.ofType (.option .string))], by decide⟩

def noteBin : Bin := ⟨"note", [1, 2, 3]⟩

theorem registered_sectors_agree_flagged :
    (∃ bytes descs bodies, wrap flaggedAcc 24 = .ok bytes ∧
      flaggedAcc.registerIn ⟨24, 104, by decide, by decide, by decide⟩ flaggedSchema = (.ok (), { flaggedSchema with
        columns := flaggedSchema.columns.withValues
          (List.zipWith Column.insert flaggedSchema.columns.values descs) }) ∧ Agrees 24 bytes bodies descs) ∧
      ∃ bytes sector, wrap noteBin 24 = .ok bytes ∧
        register noteBin ⟨24, 27, by decide, by decide, by decide⟩ Manifest.default =
          (.ok (), { Manifest.default with bins := Manifest.default.bins.insertVacant "note" sector }) ∧
        Bytes.slice bytes (sector.offset + HEADER - 24) sector.size = [1, 2, 3] := by
  have hdata : (wrap flaggedAcc 24).toOption.map List.length = some 104 := by decide +kernel
  have hbin : (wrap noteBin 24).toOption.map List.length = some 27 := by decide +kernel
  obtain ⟨bytes, hwrap, hlen⟩ := Option.map_eq_some_iff.mp hdata
  obtain ⟨note, hnote, hnlen⟩ := Option.map_eq_some_iff.mp hbin
  have hagree := registered_sectors_agree 24 (by decide)
  obtain ⟨descs, bodies, hreg, -, -, hagrees⟩ := hagree.1 flagged flaggedAcc flaggedRows bytes
    ⟨24, 104, by decide, by decide, by decide⟩ flaggedSchema rfl (by simp [flaggedRows]) (by decide)
    (toOption_eq_some hwrap) (by omega) rfl hlen.symm rfl
  obtain ⟨sector, hbreg, -, -, hslice, -⟩ := hagree.2 noteBin note ⟨24, 27, by decide, by decide, by decide⟩
    Manifest.default (toOption_eq_some hnote) (by omega) rfl hnlen.symm rfl
  exact ⟨⟨bytes, descs, bodies, toOption_eq_some hwrap, hreg, hagrees⟩, note, sector, toOption_eq_some hnote, hbreg, hslice⟩

end
end Msca
