import Msca.Describe
import Msca.Segment

/-! Registration of a written segment in the manifest. The entry is reserved before any IO; what the
registration then records is computed from the written sector alone, so an error found on the way
leaves the manifest as far as it got. -/
namespace Msca
set_option autoImplicit false
open Checked

/-- `io::Register`. `register` is called with the entry that `entry` reserved. -/
class Register (S : Type) where
  entry : S → Manifest → Res Unit
  register : S → Sector → Manifest → Res Unit × Manifest

export Register (entry register)

/-- `io::HEADER`. -/
def HEADER : Nat := 24

instance schemaRegister : Register Schema where
  entry s m :=
    match m.schemas.get? s.name with
    | some _ => .error (.error (.manifest (.collision s.name)))
    | none => .ok ()
  register s sector m := (.ok (), { m with schemas := m.schemas.insertVacant s.name ⟨sector, s.map⟩ })

/-- Offset of the payload of a segment relative to the mapped region. -/
def payload (s : Sector) (header : Nat) : Res Nat := do
  subOr (← align (← addOr s.offset header)) HEADER

/-- Sector of the bytes of a binary segment. -/
def Bin.sector (b : Bin) (s : Sector) : Res Sector := do
  Sector.new (← payload s Segment.HEADER) b.data.length

instance binRegister : Register Bin where
  entry b m :=
    match m.bins.get? b.name with
    | some _ => .error (.error (.manifest (.collision b.name)))
    | none => .ok ()
  register b s m :=
    match b.sector s with
    | .error e => (.error e, m)
    | .ok sector => (.ok (), { m with bins := m.bins.insertVacant b.name sector })

/-- `Accumulator::register` on the reserved entry. -/
def Accumulator.registerIn {fs : Fields} (a : Accumulator fs) (s : Sector) (e : Manifest.Schema) :
    Res Unit × Manifest.Schema :=
  match payload s Accumulator.HEADER with
  | .error f => (.error f, e)
  | .ok offset =>
    let r := Composite.buffers a.data offset e.columns.values
    ((fun _ => ()) <$> r.1, { e with columns := e.columns.withValues r.2 })

instance dataRegister {fs : Fields} : Register (Accumulator fs) where
  entry a m := (fun _ => ()) <$> okOr (.error (.schema .notFound)) (m.schemas.get? a.name)
  register a s m :=
    match m.schemas.get? a.name with
    | none => (.error (.error (.schema .notFound)), m)
    | some e =>
      let r := a.registerIn s e
      (r.1, { m with schemas := m.schemas.modify a.name fun _ => r.2 })

theorem payload_of_lt {s : Sector} {header : Nat} (hs : 24 ≤ s.offset)
    (h : roundUp (s.offset + header) < 2 ^ 64) :
    payload s header = .ok (roundUp (s.offset + header) - 24) := by
  have hle := le_roundUp (s.offset + header)
  rw [payload, addOr_of_lt (by omega), ok_bind, align_of_lt h, ok_bind, HEADER, subOr_of_le (by omega)]

/-! ## Framed regions -/

/-- Length of the framed regions before region `j`. -/
def regionStart (bodies : List Bytes) (j : Nat) : Nat := ((bodies.take j).flatMap frame).length

theorem regionStart_succ {bodies : List Bytes} {j : Nat} {body : Bytes} (h : bodies[j]? = some body) :
    regionStart bodies (j + 1) = regionStart bodies j + (8 + roundUp body.length) := by
  rw [regionStart, List.take_add_one, h, List.flatMap_append, List.length_append, ← regionStart]
  simp [frame_length]

theorem regionStart_cons (body : Bytes) (bodies : List Bytes) (j : Nat) :
    regionStart (body :: bodies) (j + 1) = (frame body).length + regionStart bodies j := by
  rw [regionStart, List.take_succ_cons, List.flatMap_cons, List.length_append, ← regionStart]

theorem regionStart_mono (bodies : List Bytes) {i j : Nat} (h : i ≤ j) :
    regionStart bodies i ≤ regionStart bodies j := by
  have hsub : (bodies.take i) <+: (bodies.take j) := List.take_prefix_take_left h
  obtain ⟨rest, hrest⟩ := hsub
  rw [regionStart, regionStart, ← hrest, List.flatMap_append, List.length_append]
  omega

theorem regionStart_mod (bodies : List Bytes) (j : Nat) : regionStart bodies j % 8 = 0 := by
  rw [regionStart]
  induction bodies.take j with
  | nil => rfl
  | cons body rest ih =>
    have hmod := roundUp_mod body.length
    rw [List.flatMap_cons, List.length_append, frame_length]
    omega

theorem regionStart_all {bodies : List Bytes} {j : Nat} (h : bodies.length ≤ j) :
    regionStart bodies j = (bodies.flatMap frame).length := by
  rw [regionStart, List.take_of_length_le h]

theorem region_le {bodies : List Bytes} {i j : Nat} {body : Bytes} (h : bodies[i]? = some body) (hij : i < j) :
    regionStart bodies i + 8 + body.length ≤ regionStart bodies j := by
  have hup := le_roundUp body.length
  have hmono := regionStart_mono bodies (Nat.succ_le_of_lt hij)
  rw [regionStart_succ h] at hmono
  omega

theorem slice_region {bodies : List Bytes} {j : Nat} {body : Bytes} (h : bodies[j]? = some body) :
    Bytes.slice (bodies.flatMap frame) (regionStart bodies j + 8) body.length = body := by
  have hsplit : bodies.flatMap frame = (bodies.take j).flatMap frame ++ (bodies.drop j).flatMap frame := by
    rw [← List.flatMap_append, List.take_append_drop]
  have hdrop : bodies.drop j = body :: bodies.drop (j + 1) := by
    rw [List.drop_eq_getElem?_toList_append, h]
    rfl
  have hframe : frame body = Bytes.leBytes 8 body.length ++ body ++ Bytes.zeros (roundUp body.length - body.length) := rfl
  rw [hsplit, Bytes.slice_append_right (by rw [regionStart]; omega), hdrop, List.flatMap_cons, hframe,
    List.append_assoc _ _ (List.flatMap _ _)]
  have hoff : regionStart bodies j + 8 - ((bodies.take j).flatMap frame).length = (Bytes.leBytes 8 body.length).length := by
    rw [regionStart, Bytes.leBytes_length]
    omega
  rw [hoff]
  exact Bytes.slice_append _ _ _

end Msca
