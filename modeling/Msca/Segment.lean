import Msca.Composite
import Msca.Read

/-! Segments. Every segment is wrapped as a variant byte, a size, a body and the checksum of all that
precedes it; the body of a data segment and of a binary segment is filled up so that its payload
starts at a multiple of eight in the file. The hash and the CBOR codec are not part of the crate. -/
namespace Msca
set_option autoImplicit false
open Checked

/-! ## Schemas under construction -/

/-- `schema::Schema`. -/
structure Schema where
  columns : OrdMap String Ty
  name : String

namespace Schema

def new (name : String) : Schema := ⟨KeySet.empty, name⟩

def column (s : Schema) (name : String) (t : Item) : Res (Buffer t.Val × Schema) :=
  match s.columns.get? name with
  | some _ => .error (.error (.schema (.collision name)))
  | none => .ok (.empty, { s with columns := s.columns.insertVacant name t.type })

/-- `Schema::map` over the columns. -/
def map (s : Schema) : OrdMap String Column := s.columns.withValues (s.columns.values.map Column.ofType)

end Schema

/-- `Data::accumulator`. -/
def accumulator : (columns : List (String × Item)) → Schema → Res (Composite (columns.map Prod.snd) × Schema)
  | [], s => .ok (.nil, s)
  | (name, t) :: columns, s => do
    let (b, s) ← s.column name t
    let (c, s) ← accumulator columns s
    return (.cons b c, s)

/-- The schema of the record type with the fields `fs`. -/
def Fields.schema (fs : Fields) (name : String) : Schema where
  columns := fs.columns.withValues (fs.types.map Item.type)
  name := name

theorem accumulator_eq (cols : List (String × Item)) (s : Schema)
    (hs : (cols.map Prod.fst).Pairwise (· < ·)) (hlt : ∀ e ∈ s.columns.items, ∀ c ∈ cols, e.1 < c.1) :
    ∃ columns : OrdMap String Ty, columns.items = s.columns.items ++ cols.map (fun c => (c.1, c.2.type)) ∧
      accumulator cols s = .ok (Composite.default (cols.map Prod.snd), { s with columns := columns }) := by
  induction cols generalizing s with
  | nil => exact ⟨s.columns, by simp, rfl⟩
  | cons c cols ih =>
    obtain ⟨name, t⟩ := c
    obtain ⟨hname, hs⟩ := List.pairwise_cons.mp hs
    have hnone : s.columns.get? name = none := by
      rw [OrdMap.get?, KeySet.find?_eq_none.mpr, Option.map_none]
      intro e he
      exact ne_of_lt (hlt e he _ List.mem_cons_self)
    have hitems : (s.columns.insertVacant name t.type).items = s.columns.items ++ [(name, t.type)] :=
      KeySet.insert_above fun e he => hlt e he _ List.mem_cons_self
    have hcol : s.column name t = .ok (.empty, { s with columns := s.columns.insertVacant name t.type }) := by
      rw [Schema.column, hnone]
    obtain ⟨columns, hcols, hacc⟩ := ih { s with columns := s.columns.insertVacant name t.type } hs (by
      intro e he c hc
      change e ∈ (s.columns.insertVacant name t.type).items at he
      rw [hitems, List.mem_append, List.mem_singleton] at he
      rcases he with he | rfl
      · exact hlt e he c (List.mem_cons_of_mem _ hc)
      · exact hname _ (List.mem_map_of_mem hc))
    refine ⟨columns, ?_, ?_⟩
    · rw [hcols]
      change (s.columns.insertVacant name t.type).items ++ _ = _
      rw [hitems, List.append_assoc]
      rfl
    · rw [accumulator, hcol, ok_bind]
      dsimp only
      rw [hacc, ok_bind]
      rfl

theorem Fields.accumulator_eq (fs : Fields) (name : String) :
    accumulator fs.columns.items (Schema.new name) = .ok (Composite.default fs.types, fs.schema name) := by
  have hs := fs.columns.keys_sorted
  obtain ⟨columns, hcols, hacc⟩ := Msca.accumulator_eq fs.columns.items (Schema.new name) hs (by simp [Schema.new, KeySet.empty])
  have hsame : columns = (fs.schema name).columns := by
    apply KeySet.ext
    rw [hcols]
    change [] ++ _ = fs.columns.keys.zip (fs.types.map Item.type)
    rw [List.nil_append, Fields.types, OrdMap.values, OrdMap.keys, List.map_map, List.zip_map']
    rfl
  rw [hacc, hsame]
  rfl

/-! ## Checksums -/

/-- The functions of other packages that the write path and the manifest reader call. -/
class Extern where
  xxh3_64 : Bytes → U64
  encodeSchema : Schema → Bytes
  encodeManifest : Manifest → Bytes
  decodeManifest : Bytes → Option Manifest

/-- Decoding inverts encoding. -/
class LawfulExtern [Extern] : Prop where
  decode_encode : ∀ m : Manifest, Extern.decodeManifest (Extern.encodeManifest m) = some m

section
variable [Extern]

/-- `Checksum::checksum`. -/
def checksum (buf : Bytes) : Res Bytes :=
  if buf.length < 8 then .error zeroError
  else
    let data := buf.take (buf.length - 8)
    .ok (data ++ Bytes.leBytes 8 (Extern.xxh3_64 data).val)

/-- `Checksum::verify`. -/
def verify (buf : Bytes) : Res Bytes :=
  if buf.length < 8 then .error (truncated 8 buf.length)
  else
    let data := buf.take (buf.length - 8)
    if Bytes.ofLe (buf.drop (buf.length - 8)) = (Extern.xxh3_64 data).val then .ok data
    else .error (.error .checksum)

/-- Bytes followed by their checksum. -/
def sealed (data : Bytes) : Bytes := data ++ Bytes.leBytes 8 (Extern.xxh3_64 data).val

@[simp] theorem sealed_length (data : Bytes) : (sealed data).length = data.length + 8 := by
  rw [sealed, List.length_append, Bytes.leBytes_length]

theorem verify_sealed (data : Bytes) : verify (sealed data) = .ok data := by
  have hlen : (sealed data).length - 8 = data.length := by
    rw [sealed_length]
    omega
  have htake : (sealed data).take data.length = data := by
    rw [sealed, List.take_left' rfl]
  have hdrop : (sealed data).drop data.length = Bytes.leBytes 8 (Extern.xxh3_64 data).val := by
    rw [sealed, List.drop_left' rfl]
  rw [verify, if_neg (by rw [sealed_length]; omega), hlen, htake, hdrop,
    Bytes.ofLe_leBytes_of_lt (Extern.xxh3_64 data).lt, if_pos rfl]

theorem checksum_append {data tail : Bytes} (h : tail.length = 8) :
    checksum (data ++ tail) = .ok (sealed data) := by
  have hlen : (data ++ tail).length - 8 = data.length := by
    rw [List.length_append]
    omega
  rw [checksum, if_neg (by rw [List.length_append]; omega), hlen, List.take_left' rfl]
  rfl

end

/-! ## Chained writes -/

abbrev Writer := Bytes → Res (Bytes × Bytes)

/-- `serialize_push` after `serialize_push`. -/
def chain : List Writer → Writer
  | [], buf => .ok ([], buf)
  | w :: ws, buf => do
    let front ← w buf
    let back ← chain ws front.2
    return (front.1 ++ back.1, back.2)

/-- The writer replaces the front of any slice that is long enough by `bytes`. -/
def Writes (w : Writer) (bytes : Bytes) : Prop :=
  ∀ buf : Bytes, bytes.length ≤ buf.length → w buf = .ok (bytes, buf.drop bytes.length)

theorem copyFront_writes (bytes : Bytes) : Writes (copyFront bytes) bytes :=
  fun _ h => copyFront_of_le h

theorem serializeInto_writes {α : Type} [Serialize α] [LawfulSerialize α] {a : α} {n : NonZero}
    (h : Serialize.size a = .ok n) : Writes (serializeInto a) (enc a) := by
  intro buf hle
  have hn := LawfulSerialize.size_eq h
  rw [LawfulSerialize.into_eq buf h (by omega), hn]

theorem chain_nil_writes : Writes (chain []) [] := fun _ _ => rfl

theorem chain_cons_writes {w : Writer} {ws : List Writer} {bytes rest : Bytes} (h : Writes w bytes)
    (hs : Writes (chain ws) rest) : Writes (chain (w :: ws)) (bytes ++ rest) := by
  intro buf hle
  rw [List.length_append] at hle
  rw [chain, h buf (by omega), ok_bind, hs _ (by rw [List.length_drop]; omega), ok_bind,
    List.drop_drop, List.length_append]
  rfl

/-! ## Wrapping -/

/-- `segment::Variant`. -/
inductive Variant
  | manifest | schema | data | binary
  deriving DecidableEq, Repr

def Variant.byte : Variant → UInt8
  | .manifest => 0
  | .schema => 1
  | .data => 2
  | .binary => 3

/-- `segment::Header::SIZE`. -/
def Segment.HEADER : Nat := 9

section
variable [Extern]

/-- A buffer of `full` zeros, written from the front and closed by its checksum. -/
def filled (full : Nat) (ws : List Writer) : Res Bytes := do
  let w ← chain ws (Bytes.zeros full)
  checksum (w.1 ++ w.2)

theorem filled_eq {full : Nat} {ws : List Writer} {bytes : Bytes} (h : Writes (chain ws) bytes)
    (hfull : full = bytes.length + 8) : filled full ws = .ok (sealed bytes) := by
  rw [filled, h _ (by rw [Bytes.zeros_length]; omega), ok_bind, checksum_append]
  rw [List.length_drop, Bytes.zeros_length]
  omega

/-- The image of a segment. -/
def segment (v : Variant) (size : Nat) (body : Bytes) : Bytes :=
  sealed (v.byte :: (Bytes.leBytes 8 size ++ body))

theorem segment_length (v : Variant) (size : Nat) (body : Bytes) :
    (segment v size body).length = body.length + 17 := by
  simp [segment]
  omega

theorem segment_slice (v : Variant) (size : Nat) (front body : Bytes) {off len : Nat}
    (h : off + len ≤ body.length) :
    Bytes.slice (segment v size (front ++ body)) (9 + front.length + off) len = Bytes.slice body off len := by
  have hsplit : segment v size (front ++ body) = (v.byte :: (Bytes.leBytes 8 size ++ front)) ++
      (body ++ Bytes.leBytes 8 (Extern.xxh3_64 (v.byte :: (Bytes.leBytes 8 size ++ (front ++ body)))).val) := by
    simp [segment, sealed]
  have hfront : (v.byte :: (Bytes.leBytes 8 size ++ front)).length = 9 + front.length := by
    simp
    omega
  rw [hsplit, Bytes.slice_append_right (by omega), hfront, Nat.add_sub_cancel_left, Bytes.slice_append_left h]

/-- `segment::Segment`. -/
class Segment (S : Type) where
  VARIANT : S → Variant
  wrap : S → Nat → Res Bytes

export Segment (wrap)

/-- A segment without alignment around a CBOR body. -/
def cborWrap (v : Variant) (body : Bytes) : Res Bytes := do
  let size ← nonZero body.length
  let full ← addOr size.get 17
  filled full [serializeInto v.byte, copyFront (Bytes.leBytes 8 size.get), copyFront body]

instance manifestSegment : Segment Manifest where
  VARIANT _ := .manifest
  wrap m _ := cborWrap .manifest (Extern.encodeManifest m)

instance schemaSegment : Segment Schema where
  VARIANT _ := .schema
  wrap s _ := cborWrap .schema (Extern.encodeSchema s)

/-- `binary::Bin`. -/
structure Bin where
  name : String
  data : Bytes

instance binSegment : Segment Bin where
  VARIANT _ := .binary
  wrap b offset := do
    let fill ← pad (← addOr offset Segment.HEADER)
    let size ← Serialize.size b.data
    let full ← addOr (← addOr size.get 17) fill
    filled full [serializeInto Variant.binary.byte, copyFront (Bytes.leBytes 8 size.get),
      copyFront (Bytes.zeros fill), serializeInto b.data]

/-- `accumulate::Accumulator`. -/
structure Accumulator (fs : Fields) where
  data : Composite fs.types
  name : String
  schema : Sector

namespace Accumulator
variable {fs : Fields}

/-- `Accumulator::HEADER`. -/
def HEADER : Nat := 25

def size (a : Accumulator fs) : Res NonZero := do
  let aligned ← align (← Serialize.size a.data).get
  okOr zeroError ((Checked.add aligned 16).bind NonZero.ofNat?)

end Accumulator

instance dataSegment {fs : Fields} : Segment (Accumulator fs) where
  VARIANT _ := .data
  wrap a offset := do
    let fill ← pad (← addOr offset Accumulator.HEADER)
    let size ← addOr (← a.size).get fill
    let full ← addOr size 17
    filled full [serializeInto Variant.data.byte, copyFront (Bytes.leBytes 8 size),
      copyFront (Bytes.leBytes 8 a.schema.offset), copyFront (Bytes.leBytes 8 (Composite.count a.data)),
      copyFront (Bytes.zeros fill), serializeInto a.data]

/-! ## Wrapped bytes -/

omit [Extern] in
theorem byte_writes (b : UInt8) : Writes (serializeInto b) [b] := copyFront_writes [b]

theorem cborWrap_eq_ok {v : Variant} {body bytes : Bytes} (h : cborWrap v body = .ok bytes) :
    bytes = segment v body.length body := by
  obtain ⟨size, hsize, h⟩ := bind_eq_ok.mp h
  obtain ⟨full, hfull, h⟩ := bind_eq_ok.mp h
  obtain ⟨-, rfl⟩ := addOr_eq_ok.mp hfull
  have hn : size.get = body.length := NonZero.ofNat?_eq_some.mp (okOr_eq_ok.mp hsize)
  have hw := chain_cons_writes (byte_writes v.byte) (chain_cons_writes (copyFront_writes (Bytes.leBytes 8 size.get))
    (chain_cons_writes (copyFront_writes body) chain_nil_writes))
  rw [filled_eq hw (by simp; omega)] at h
  rw [← Except.ok.inj h, segment, hn, List.append_nil]
  rfl

theorem manifest_wrap_eq_ok {m : Manifest} {offset : Nat} {bytes : Bytes} (h : wrap m offset = .ok bytes) :
    bytes = segment .manifest (Extern.encodeManifest m).length (Extern.encodeManifest m) :=
  cborWrap_eq_ok h

theorem schema_wrap_eq_ok {s : Schema} {offset : Nat} {bytes : Bytes} (h : wrap s offset = .ok bytes) :
    bytes = segment .schema (Extern.encodeSchema s).length (Extern.encodeSchema s) :=
  cborWrap_eq_ok h

theorem bin_filled {b : Bin} {size : NonZero} (hsize : Serialize.size b.data = .ok size) (fill : Nat) :
    size.get = b.data.length ∧ filled (size.get + 17 + fill) [serializeInto Variant.binary.byte,
      copyFront (Bytes.leBytes 8 size.get), copyFront (Bytes.zeros fill), serializeInto b.data] =
        .ok (segment .binary b.data.length (Bytes.zeros fill ++ b.data)) := by
  have henc : enc b.data = b.data := encAll_bytes b.data
  have hn : size.get = b.data.length := by
    rw [LawfulSerialize.size_eq hsize, henc]
  have hdata := serializeInto_writes hsize
  rw [henc] at hdata
  have hw := chain_cons_writes (byte_writes Variant.binary.byte) (chain_cons_writes
    (copyFront_writes (Bytes.leBytes 8 size.get)) (chain_cons_writes
    (copyFront_writes (Bytes.zeros fill)) (chain_cons_writes hdata chain_nil_writes)))
  refine ⟨hn, ?_⟩
  rw [filled_eq hw (by simp; omega), segment, hn, List.append_nil]
  rfl

theorem bin_wrap_eq_ok {b : Bin} {offset : Nat} {bytes : Bytes} (h : wrap b offset = .ok bytes) :
    0 < b.data.length ∧ roundUp (offset + 9) < 2 ^ 64 ∧
      bytes = segment .binary b.data.length (Bytes.zeros (roundUp (offset + 9) - (offset + 9)) ++ b.data) := by
  obtain ⟨start, hstart, h⟩ := bind_eq_ok.mp h
  obtain ⟨-, rfl⟩ := addOr_eq_ok.mp hstart
  obtain ⟨fill, hfill, h⟩ := bind_eq_ok.mp h
  obtain ⟨hround, rfl⟩ := pad_eq_ok.mp hfill
  obtain ⟨size, hsize, h⟩ := bind_eq_ok.mp h
  obtain ⟨part, hpart, h⟩ := bind_eq_ok.mp h
  obtain ⟨-, rfl⟩ := addOr_eq_ok.mp hpart
  obtain ⟨full, hfull, h⟩ := bind_eq_ok.mp h
  obtain ⟨-, rfl⟩ := addOr_eq_ok.mp hfull
  obtain ⟨hn, hfilled⟩ := bin_filled hsize (roundUp (offset + 9) - (offset + 9))
  have hpos := size.pos
  rw [Segment.HEADER, hfilled] at h
  exact ⟨by omega, hround, (Except.ok.inj h).symm⟩

end
end Msca
