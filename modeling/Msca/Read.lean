import Msca.Serialize
import Msca.Item

/-! Lazy decoding of a column buffer. A source is parsed from the front of a byte slice, which is
advanced also by some of the failures; an iterator over a source is a cursor with a step function,
so that an iterator that never ends is an ordinary value here. -/
namespace Msca
set_option autoImplicit false
open Checked

/-- A computation that consumes the front of a byte slice. -/
abbrev Parse := ExceptT Fault (StateM Bytes)

namespace Parse

def run {α : Type} (p : Parse α) (src : Bytes) : Res α × Bytes := ExceptT.run p src

def lift {α : Type} (r : Res α) : Parse α := ExceptT.mk (pure r)

/-- The length of the slice left. -/
def remaining : Parse Nat := return (← get).length

end Parse

class Deserialize (α : Type) where
  deserialize : Parse α

export Deserialize (deserialize)

def truncated (expected actual : Nat) : Fault := .error (.truncated expected actual)

/-- `split_at_checked(n)`, keeping the back in the slice. -/
def splitFront (n : Nat) : Parse Bytes := do
  let src ← get
  if n ≤ src.length then
    set (src.drop n)
    return src.take n
  else throw (truncated n src.length)

/-- `mem::take`. -/
def takeAll : Parse Bytes := do
  let src ← get
  set ([] : Bytes)
  return src

instance fixedDeserialize {α : Type} [Fixed α] : Deserialize α where
  deserialize := do
    let chunk ← splitFront (Fixed.width α)
    Parse.lift (Fixed.ofLe chunk)

instance nonZeroDeserialize : Deserialize NonZero where
  deserialize := do
    let n ← deserialize (α := U64)
    Parse.lift (okOr convertError (NonZero.ofNat? n.val))

/-- `SizedBuf::deserialize`: the body of the region at the front of the slice. -/
def sizedBody : Parse Bytes := do
  let size ← deserialize (α := NonZero)
  let body ← splitFront size.get
  let fill ← Parse.lift (pad size.get)
  let _ ← splitFront fill
  return body

/-! ## Sources -/

namespace Read

structure OptBitVec (S : Type) where
  mask : Bits
  data : S

structure Seq where
  ends : Bytes
  data : Bytes

structure OptInSitu where
  data : Bytes

end Read

/-- A source whose `Default` stands for an omitted region. -/
class DefaultSource (S : Type) extends Deserialize S where
  default : S

instance bytesSource : DefaultSource Bytes where
  deserialize := takeAll
  default := []

instance bitsSource : DefaultSource Bits where
  deserialize := return Bytes.viewBits (← takeAll)
  default := []

/-- A region of the slice, parsed by `S` to its end. -/
def regionInto (S : Type) [Deserialize S] : Parse S := do
  let body ← sizedBody
  Parse.lift (deserialize (α := S) |>.run body).1

/-- A trailing region that may be left out. -/
def omittable {S : Type} [Deserialize S] (default : S) : Parse S := do
  if (← Parse.remaining) = 0 then return default else regionInto S

instance optBitVecSource {S : Type} [DefaultSource S] : Deserialize (Read.OptBitVec S) where
  deserialize := do
    let mask ← regionInto Bits
    return ⟨mask, ← omittable DefaultSource.default⟩

instance seqSource : Deserialize Read.Seq where
  deserialize := do
    let ends ← regionInto Bytes
    return ⟨ends, ← omittable []⟩

instance optInSituSource : Deserialize Read.OptInSitu where
  deserialize := return ⟨← takeAll⟩

/-! ## Decoders -/

/-- `Decoder` over the source of `Decode`: an iterator of items and the direct read of the first. -/
class Decoder (S I : Type) where
  Cursor : Type
  iter : S → Res Cursor
  next : Cursor → Option (Res I) × Cursor
  one : S → Res I

/-- The default `Decoder::one`. -/
def firstOf {I C : Type} (next : C → Option (Res I) × C) (c : Res C) : Res I := do
  match (next (← c)).1 with
  | some item => item
  | none => .error (truncated 1 0)

/-- A step that parses an item from a nonempty slice. -/
def nextFixed {I : Type} [Fixed I] (src : Bytes) : Option (Res I) × Bytes :=
  if src.isEmpty then (none, src)
  else
    let r := (deserialize (α := I)).run src
    (some r.1, r.2)

instance bytesDecoder {I : Type} [Fixed I] : Decoder Bytes I where
  Cursor := Bytes
  iter := .ok
  next := nextFixed
  one src := ((deserialize (α := I)).run src).1

instance bitsDecoder : Decoder Bits Bool where
  Cursor := Bits
  iter := .ok
  next
    | [] => (none, [])
    | b :: bits => (some (.ok b), bits)
  one bits := okOr (truncated 1 0) bits.head?

instance optInSituDecoder {I : Type} [Fixed (Option I)] : Decoder Read.OptInSitu (Option I) where
  Cursor := Bytes
  iter src := .ok src.data
  next := nextFixed
  one src := ((deserialize (α := Option I)).run src.data).1

section OptBitVec
variable {S I : Type} [Decoder S I]

def nextOptBitVec (c : Bits × Decoder.Cursor S I) : Option (Res (Option I)) × (Bits × Decoder.Cursor S I) :=
  match c.1 with
  | [] => (none, c)
  | true :: mask =>
    let r := Decoder.next c.2
    (r.1.map fun item => some <$> item, (mask, r.2))
  | false :: mask => (some (.ok none), (mask, c.2))

instance optBitVecDecoder : Decoder (Read.OptBitVec S) (Option I) where
  Cursor := Bits × Decoder.Cursor S I
  iter src := return (src.mask, ← Decoder.iter (I := I) src.data)
  next := nextOptBitVec
  one src := do
    if ← Decoder.one (I := Bool) src.mask then some <$> Decoder.one src.data else return none

end OptBitVec

/-- `str::from_utf8(..).map(str::to_owned)`. -/
def fromUtf8 (bs : Bytes) : Res String := okOr (.error .utf8) (String.fromUTF8? ⟨bs.toArray⟩)

/-- Iterator state over the rows of a sequence. -/
structure Rows (D : Type) where
  ends : Bytes
  start : Nat
  data : D

/-- The next recorded end, or the end of the iteration. A short `ends` slice is not advanced. -/
def Rows.step {D R : Type} (c : Rows D) (row : Nat → Rows D → Res R × Rows D) :
    Option (Res R) × Rows D :=
  if c.ends.isEmpty then (none, c)
  else
    let r := (deserialize (α := U64)).run c.ends
    match r.1 with
    | .error e => (some (.error e), { c with ends := r.2 })
    | .ok stop =>
      let out := row stop.val { c with ends := r.2 }
      (some out.1, out.2)

/-- The string row ending at `stop`; the cursor passes the row before its text is validated. -/
def strRow (stop : Nat) (c : Rows Bytes) : Res String × Rows Bytes :=
  match subOr stop c.start with
  | .error e => (.error e, c)
  | .ok len =>
    if len ≤ c.data.length then
      (fromUtf8 (c.data.take len), { c with data := c.data.drop len, start := stop })
    else (.error (truncated len c.data.length), c)

/-- A row that the largest word marks as absent. -/
def optRow {D R : Type} (row : Nat → Rows D → Res R × Rows D) (stop : Nat) (c : Rows D) :
    Res (Option R) × Rows D :=
  if stop = U64.max.val then (.ok none, c)
  else
    let out := row stop c
    (some <$> out.1, out.2)

def strCursor (src : Read.Seq) : Rows Bytes := ⟨src.ends, 0, src.data⟩

instance stringDecoder : Decoder Read.Seq String where
  Cursor := Rows Bytes
  iter src := .ok (strCursor src)
  next c := c.step strRow
  one src := firstOf (fun c : Rows Bytes => c.step strRow) (.ok (strCursor src))

instance optStringDecoder : Decoder Read.Seq (Option String) where
  Cursor := Rows Bytes
  iter src := .ok (strCursor src)
  next c := c.step (optRow strRow)
  one src := firstOf (fun c : Rows Bytes => c.step (optRow strRow)) (.ok (strCursor src))

section Vec
variable {S I : Type} [Deserialize S] [Decoder S I]

/-- `by_ref().take(n).collect::<Result<Vec<_>, _>>()`. -/
def takeCollect (next : Decoder.Cursor S I → Option (Res I) × Decoder.Cursor S I) :
    Nat → Decoder.Cursor S I → Res (List I) × Decoder.Cursor S I
  | 0, c => (.ok [], c)
  | n + 1, c =>
    let r := next c
    match r.1 with
    | none => (.ok [], r.2)
    | some (.error e) => (.error e, r.2)
    | some (.ok i) =>
      let rest := takeCollect next n r.2
      ((i :: ·) <$> rest.1, rest.2)

def vecRow (stop : Nat) (c : Rows (Decoder.Cursor S I)) : Res (List I) × Rows (Decoder.Cursor S I) :=
  match subOr stop c.start with
  | .error e => (.error e, c)
  | .ok n =>
    let r := takeCollect Decoder.next n c.data
    (r.1, { c with start := stop, data := r.2 })

/-- The row of the optional decoder, whose length is clamped at zero. -/
def presentVecRow (stop : Nat) (c : Rows (Decoder.Cursor S I)) :
    Res (List I) × Rows (Decoder.Cursor S I) :=
  let r := takeCollect Decoder.next (stop - c.start) c.data
  (r.1, { c with start := stop, data := r.2 })

/-- The cursor over the rows of a sequence; the source of its elements is parsed eagerly. -/
def vecCursor (S I : Type) [Deserialize S] [Decoder S I] (src : Read.Seq) :
    Res (Rows (Decoder.Cursor S I)) := do
  let elements ← ((deserialize (α := S)).run src.data).1
  return ⟨src.ends, 0, ← Decoder.iter elements⟩

@[reducible] def vecDecoder (S I : Type) [Deserialize S] [Decoder S I] : Decoder Read.Seq (List I) where
  Cursor := Rows (Decoder.Cursor S I)
  iter := vecCursor S I
  next c := c.step vecRow
  one src := firstOf (fun c : Rows (Decoder.Cursor S I) => c.step vecRow) (vecCursor S I src)

@[reducible] def optVecDecoder (S I : Type) [Deserialize S] [Decoder S I] :
    Decoder Read.Seq (Option (List I)) where
  Cursor := Rows (Decoder.Cursor S I)
  iter := vecCursor S I
  next c := c.step (optRow presentVecRow)
  one src := firstOf (fun c : Rows (Decoder.Cursor S I) => c.step (optRow presentVecRow)) (vecCursor S I src)

end Vec

/-- Iterator items taken until `n` are collected or the iterator ends. -/
def takeItems {C I : Type} (next : C → Option (Res I) × C) : Nat → C → List (Res I)
  | 0, _ => []
  | n + 1, c =>
    let r := next c
    match r.1 with
    | none => []
    | some item => item :: takeItems next n r.2

/-- `read::Decode`: the source an item type is decoded from. -/
class Decode (I : Type) where
  Src : Type
  source : Deserialize Src
  decoder : Decoder Src I

attribute [reducible, instance] Decode.source Decode.decoder

@[reducible] def vecDecode {I : Type} (d : Decode I) : Decode (List I) where
  Src := Read.Seq
  source := inferInstance
  decoder := vecDecoder d.Src I

@[reducible] def optVecDecode {I : Type} (d : Decode I) : Decode (Option (List I)) where
  Src := Read.Seq
  source := inferInstance
  decoder := optVecDecoder d.Src I

/-- `Src::deserialize(..)?.iter()`. -/
def openIter (I : Type) [Decode I] (body : Bytes) : Res (Decoder.Cursor (Decode.Src I) I) := do
  Decoder.iter (← ((deserialize (α := Decode.Src I)).run body).1)

/-- The first `n` outcomes of iterating over a column body. -/
def readItems (I : Type) [Decode I] (n : Nat) (body : Bytes) : Res (List (Res I)) := do
  return takeItems Decoder.next n (← openIter I body)

/-- Item types with a `Decode` implementation: all but doubly optional ones. -/
def Item.decodable : Item → Bool
  | .bool => true
  | .prim _ => true
  | .string => true
  | .option .bool => true
  | .option (.prim _) => true
  | .option .string => true
  | .option (.option _) => false
  | .option (.vec t) => t.decodable
  | .vec t => t.decodable

@[reducible] def Item.decode : (t : Item) → t.decodable = true → Decode t.Val
  | .bool, _ => ⟨Bits, inferInstance, inferInstance⟩
  | .prim p, _ => ⟨Bytes, inferInstance, bytesDecoder (I := p.Val)⟩
  | .string, _ => ⟨Read.Seq, inferInstance, inferInstance⟩
  | .option .bool, _ => ⟨Read.OptBitVec Bits, inferInstance, inferInstance⟩
  | .option (.prim (.plain p)), _ =>
    ⟨Read.OptBitVec Bytes, inferInstance, optBitVecDecoder (I := (Prim.plain p).Val)⟩
  | .option (.prim (.niche p)), _ =>
    ⟨Read.OptInSitu, inferInstance, optInSituDecoder (I := (Prim.niche p).Val)⟩
  | .option .string, _ => ⟨Read.Seq, inferInstance, inferInstance⟩
  | .option (.vec t), h => optVecDecode (t.decode h)
  | .vec t, h => vecDecode (t.decode h)

end Msca
