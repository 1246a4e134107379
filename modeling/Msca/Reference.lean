import Msca.Base.Codec
import Msca.Base.Xxh3
import Msca.Fs
import Msca.Segment

/-! The functions of other packages, as they behave: XXH3 over bytes, and the array representation in
which the derived CBOR codec writes the manifest and the schemas. -/
namespace Msca
set_option autoImplicit false
open Checked

namespace Cbor

def number : Codec Nat := Codec.head 0

/-- An array of a fixed number of elements. -/
def array (n : UInt8) {α : Type} (c : Codec α) : Codec α := Codec.after [0x80 + n] c

/-- Field lists of enum variants stand in an array behind the index of the variant. -/
def variant (index fields : UInt8) : Bytes := [0x82, index, 0x80 + fields]

def ordMap {α : Type} (c : Codec (String × α)) : Codec (OrdMap String α) :=
  (Codec.list (Codec.head 5) c).iso KeySet.items
    (fun items => if h : items.Pairwise fun a b => a.1 < b.1 then some ⟨items, h⟩ else none)
    fun m => dif_pos m.sorted

def string : Codec String :=
  (Codec.list (Codec.head 3) Codec.byte).iso intoBytes (fun bs => String.fromUTF8? ⟨bs.toArray⟩)
    fromUTF8?_intoBytes

def sector : Codec Sector :=
  (array 2 (Codec.pair number number)).iso (fun s => (s.offset, s.size))
    (fun v => (Sector.new v.1 v.2).toOption) fun s => by
      rw [Sector.new_of_lt s.offset_lt s.size_pos s.size_lt]
      rfl

def nonZero : Codec NonZero := number.iso NonZero.get NonZero.ofNat? NonZero.ofNat?_get

/-! ## Types -/

def kind : Kind → UInt8
  | .uInt => 0
  | .nonZeroUInt => 1
  | .int => 2
  | .nonZeroInt => 3
  | .float => 4

def kindOf (b : UInt8) : Option Kind := [Kind.uInt, .nonZeroUInt, .int, .nonZeroInt, .float][b.toNat]?

def encTy : Ty → Bytes
  | .bool => variant 1 0
  | .char => variant 2 0
  | .number n => variant 3 1 ++ [0x82] ++ variant (kind n.kind) 0 ++ number.enc n.size.toNat
  | .option t => variant 4 1 ++ encTy t
  | .string => variant 6 0
  | .sequence t => variant 7 1 ++ encTy t

/-- The type at the front of the bytes, nested at most `fuel` deep. -/
def decTy : Nat → Bytes → Option (Ty × Bytes)
  | fuel + 1, 0x82 :: 4 :: 0x81 :: bs => do
    let (t, rest) ← decTy fuel bs
    return (.option t, rest)
  | fuel + 1, 0x82 :: 7 :: 0x81 :: bs => do
    let (t, rest) ← decTy fuel bs
    return (.sequence t, rest)
  | _ + 1, 0x82 :: 1 :: 0x80 :: bs => some (.bool, bs)
  | _ + 1, 0x82 :: 2 :: 0x80 :: bs => some (.char, bs)
  | _ + 1, 0x82 :: 6 :: 0x80 :: bs => some (.string, bs)
  | _ + 1, 0x82 :: 3 :: 0x81 :: 0x82 :: 0x82 :: k :: 0x80 :: bs => do
    let (n, rest) ← number.dec bs
    return (.number ⟨← kindOf k, UInt8.ofNat n⟩, rest)
  | _, _ => none

theorem kindOf_kind (k : Kind) : kindOf (kind k) = some k := by cases k <;> rfl

theorem encTy_pos (t : Ty) : 0 < (encTy t).length := by
  cases t <;> simp [encTy, variant]

theorem decTy_encTy (t : Ty) (fuel : Nat) (rest : Bytes) (h : (encTy t).length ≤ fuel) :
    decTy fuel (encTy t ++ rest) = some (t, rest) := by
  induction t generalizing fuel with
  | bool =>
    obtain ⟨fuel, rfl⟩ := Nat.exists_eq_add_of_lt (Nat.lt_of_lt_of_le (encTy_pos _) h)
    rfl
  | char =>
    obtain ⟨fuel, rfl⟩ := Nat.exists_eq_add_of_lt (Nat.lt_of_lt_of_le (encTy_pos _) h)
    rfl
  | string =>
    obtain ⟨fuel, rfl⟩ := Nat.exists_eq_add_of_lt (Nat.lt_of_lt_of_le (encTy_pos _) h)
    rfl
  | number n =>
    obtain ⟨fuel, rfl⟩ := Nat.exists_eq_add_of_lt (Nat.lt_of_lt_of_le (encTy_pos _) h)
    change (do
      let (size, rest) ← number.dec (number.enc n.size.toNat ++ rest)
      return (Ty.number ⟨← kindOf (kind n.kind), UInt8.ofNat size⟩, rest)) = _
    simp [number.dec_enc, kindOf_kind]
  | option t ih =>
    rw [encTy, List.length_append] at h
    obtain ⟨fuel, rfl⟩ := Nat.exists_eq_add_of_lt (Nat.lt_of_lt_of_le (encTy_pos t) (by omega : _ ≤ fuel))
    change (do
      let (t, rest) ← decTy (0 + fuel) (encTy t ++ rest)
      return (Ty.option t, rest)) = _
    rw [ih (0 + fuel) (by simp [variant] at h; omega)]
    rfl
  | sequence t ih =>
    rw [encTy, List.length_append] at h
    obtain ⟨fuel, rfl⟩ := Nat.exists_eq_add_of_lt (Nat.lt_of_lt_of_le (encTy_pos t) (by omega : _ ≤ fuel))
    change (do
      let (t, rest) ← decTy (0 + fuel) (encTy t ++ rest)
      return (Ty.sequence t, rest)) = _
    rw [ih (0 + fuel) (by simp [variant] at h; omega)]
    rfl

def ty : Codec Ty where
  enc := encTy
  dec bs := decTy bs.length bs
  dec_enc t rest := decTy_encTy t _ rest (by simp)

/-! ## Descriptors -/

/-- A structure whose second field is left out when it is empty. -/
def optionalTail {α β : Type} (c : Codec α) (d : Codec β) (empty : β) (isEmpty : β → Bool)
    (h : ∀ b, isEmpty b = true → b = empty) : Codec (α × β) :=
  (Codec.dependent (δ := fun full => if full then α × β else α)
    (Codec.byte.iso (fun full : Bool => if full then 0x82 else 0x81)
      (fun b => if b = 0x82 then some true else if b = 0x81 then some false else none) (by decide))
    (fun full => match full with
      | true => Codec.pair c d
      | false => c)).iso
    (fun v => if isEmpty v.2 then ⟨false, v.1⟩ else ⟨true, v⟩)
    (fun v => match v with
      | ⟨true, v⟩ => some v
      | ⟨false, a⟩ => some (a, empty))
    (by
      rintro ⟨a, b⟩
      cases hb : isEmpty b with
      | true => simp [h b hb]
      | false => simp)

/-- Fields of the variants of `manifest::Buffer`. -/
def BufferFields : Fin 3 → Type
  | 0 => Sector × NonZero
  | 1 => Sector × NonZero
  | 2 => (Sector × NonZero) × Sector × Sector

def bufferFields : (i : Fin 3) → Codec (BufferFields i)
  | 0 => array 2 (Codec.pair sector nonZero)
  | 1 => array 2 (Codec.pair sector nonZero)
  | 2 => array 4 (Codec.pair (Codec.pair sector nonZero) (Codec.pair sector sector))

def buffer : Codec Manifest.Buffer :=
  (array 2 (Codec.dependent (Codec.byte.iso (fun i : Fin 3 => UInt8.ofNat i.val)
      (fun b => if h : b.toNat < 3 then some ⟨b.toNat, h⟩ else none) (by decide)) bufferFields)).iso
    (fun b => match b with
      | .compact s n => ⟨0, (s, n)⟩
      | .basic s n => ⟨1, (s, n)⟩
      | .detailed s n min max => ⟨2, ((s, n), min, max)⟩)
    (fun v => match v with
      | ⟨0, (s, n)⟩ => some (.compact s n)
      | ⟨1, (s, n)⟩ => some (.basic s n)
      | ⟨2, ((s, n), min, max)⟩ => some (.detailed s n min max))
    (fun b => by cases b <;> rfl)

def bufferSet : Codec BufferSet :=
  (Codec.list (Codec.head 4) buffer).iso KeySet.items
    (fun items => if h : items.Pairwise fun a b => Manifest.Buffer.key a < Manifest.Buffer.key b then some ⟨items, h⟩
      else none)
    fun s => dif_pos s.sorted

theorem keySet_empty {β κ : Type} [LinearOrder κ] {key : β → κ} (s : KeySet key) (h : s.items.isEmpty = true) :
    s = KeySet.empty := KeySet.ext (List.isEmpty_iff.mp h)

def column : Codec Column :=
  (optionalTail ty bufferSet KeySet.empty (fun s => s.items.isEmpty) keySet_empty).iso
    (fun c => (c.ty, c.buffers)) (fun v => some ⟨v.1, v.2⟩) fun _ => rfl

def schema : Codec Manifest.Schema :=
  (optionalTail sector (ordMap (Codec.pair string column)) KeySet.empty (fun s => s.items.isEmpty) keySet_empty).iso
    (fun s => (s.sector, s.columns)) (fun v => some ⟨v.1, v.2⟩) fun _ => rfl

theorem ordMap_start {α : Type} (c : Codec (String × α)) (m : OrdMap String α) :
    ∃ b bs, (ordMap c).enc m = b :: bs ∧ b ≠ 0xf6 := by
  obtain ⟨b, bs, heq, hb⟩ := Codec.head_start 5 m.items.length
  refine ⟨b, bs ++ m.items.flatMap c.enc, ?_, ?_⟩
  · change (Codec.head 5).enc m.items.length ++ m.items.flatMap c.enc = _
    rw [heq]
    rfl
  · rintro rfl
    exact absurd hb (by decide)

/-- The fields of the manifest that are written. -/
def ManifestFields : Fin 3 → Type
  | 0 => Unit
  | 1 => OrdMap String Manifest.Schema
  | 2 => Option (OrdMap String Manifest.Schema) × OrdMap String Sector

def manifestFields : (i : Fin 3) → Codec (ManifestFields i)
  | 0 => Codec.unit
  | 1 => ordMap (Codec.pair string schema)
  | 2 => Codec.pair (Codec.nullable 0xf6 (ordMap (Codec.pair string schema)) (ordMap_start _))
      (ordMap (Codec.pair string sector))

/-- An empty map is not written, and stands as `null` before one that is. -/
def fieldsOf (m : Manifest) : (i : Fin 3) × ManifestFields i :=
  if m.bins.items.isEmpty then
    if m.schemas.items.isEmpty then ⟨0, ()⟩ else ⟨1, m.schemas⟩
  else ⟨2, (if m.schemas.items.isEmpty then none else some m.schemas, m.bins)⟩

def ofFields : (i : Fin 3) × ManifestFields i → Manifest
  | ⟨0, ()⟩ => ⟨KeySet.empty, KeySet.empty⟩
  | ⟨1, schemas⟩ => ⟨schemas, KeySet.empty⟩
  | ⟨2, (schemas, bins)⟩ => ⟨schemas.getD KeySet.empty, bins⟩

theorem ofFields_fieldsOf (m : Manifest) : ofFields (fieldsOf m) = m := by
  obtain ⟨schemas, bins⟩ := m
  by_cases hb : bins.items.isEmpty = true
  · by_cases hs : schemas.items.isEmpty = true
    · rw [fieldsOf, if_pos hb, if_pos hs, keySet_empty schemas hs, keySet_empty bins hb]
      rfl
    · rw [fieldsOf, if_pos hb, if_neg hs, keySet_empty bins hb]
      rfl
  · by_cases hs : schemas.items.isEmpty = true
    · rw [fieldsOf, if_neg hb, if_pos hs, keySet_empty schemas hs]
      rfl
    · rw [fieldsOf, if_neg hb, if_neg hs]
      rfl

/-- The manifest under its tag. -/
def manifest : Codec Manifest :=
  (Codec.after [0xd8, 100] (Codec.dependent (Codec.byte.iso (fun i : Fin 3 => 0x80 + UInt8.ofNat i.val)
      (fun b => if h : b.toNat - 0x80 < 3 then some ⟨b.toNat - 0x80, h⟩ else none) (by decide)) manifestFields)).iso
    fieldsOf (fun v => some (ofFields v)) fun m => congrArg some (ofFields_fieldsOf m)

def schemaColumns (s : Schema) : Bytes := (ordMap (Codec.pair string (array 1 ty))).enc s.columns

def encodeSchema (s : Schema) : Bytes :=
  if s.name.isEmpty then
    if s.columns.items.isEmpty then [0x80] else 0x81 :: schemaColumns s
  else 0x82 :: ((if s.columns.items.isEmpty then [0xf6] else schemaColumns s) ++ string.enc s.name)

end Cbor

/-- The packages the crate is built with. -/
@[reducible] def reference : Extern where
  xxh3_64 bs := ⟨Xxh3.hash bs % 2 ^ 64, Nat.mod_lt _ (by decide)⟩
  encodeSchema := Cbor.encodeSchema
  encodeManifest := Cbor.manifest.enc
  decodeManifest bs := (Cbor.manifest.dec bs).map Prod.fst

theorem reference_lawful : @LawfulExtern reference := by
  refine @LawfulExtern.mk reference ?_
  intro m
  have h := Cbor.manifest.dec_enc m []
  rw [List.append_nil] at h
  show (Cbor.manifest.dec (Cbor.manifest.enc m)).map Prod.fst = some m
  rw [h]
  rfl

/-! ## A file system -/

namespace Buffered
open Bytes

/-- The largest offset that is not negative as `off_t`. -/
def LIMIT : Nat := 2 ^ 63 - 1

def fits (v : View) : Bool := v.queue.all fun w => decide (w.1 + w.2.length ≤ LIMIT)

/-- `n` bytes land, unless the queue goes beyond the limit. -/
def settle (v : View) (n : Nat) : View :=
  if fits v then ⟨land v.bytes (front v.queue n), back v.queue n, v.cursor⟩ else v

/-- `n` bytes land, and the rest is given up. -/
def abandon (v : View) (n : Nat) : View := ⟨(settle v n).bytes, [], v.cursor⟩

def drain (v : View) (cursor : Nat) : View := ⟨land v.bytes v.queue, [], cursor⟩

def push (v : View) (data : Bytes) : View := ⟨v.bytes, v.queue ++ [(v.cursor, data)], v.cursor + data.length⟩

/-- A call that puts down all that waits before it returns `a`. -/
def settled {α : Type} (c : Bool × Nat) (possible : Bool) (a : α) (cursor : Nat) : Eff Unit View α := fun v =>
  if c.1 || !fits v || !possible then (.error (), abandon v c.2) else (.ok a, drain v cursor)

end Buffered

/-- A file system that keeps what is written in a queue; by the end of a call some bytes of it have landed, and a call that
fails gives up the rest. -/
@[reducible] def buffered : Fs where
  Handle := View
  Chance := Bool × Nat
  calm := (false, 0)
  fails := Prod.fst
  limit := Buffered.LIMIT
  view v := v
  opened bs := ⟨bs, [], 0⟩
  found c v := (Buffered.settle v c.2).bytes
  seek c p v := Buffered.settled c (decide (p ≤ Buffered.LIMIT)) () p v
  writeAll c data v :=
    if c.1 then (.error (), Buffered.abandon (Buffered.push v data) c.2)
    else (.ok (), Buffered.settle (Buffered.push v data) c.2)
  flush c v := Buffered.settled c true () v.cursor v
  readExact c n v := Buffered.settled c (decide (v.cursor + n ≤ (Bytes.land v.bytes v.queue).length))
    (Bytes.slice (Bytes.land v.bytes v.queue) v.cursor n) (v.cursor + n) v

section
attribute [local instance] buffered
open Bytes

namespace Buffered

theorem fits_iff {v : View} : fits v = true ↔ v.Fits := by
  rw [fits, List.all_eq_true]
  exact forall₂_congr fun w _ => decide_eq_true_iff

theorem lands_settle (v : View) (n : Nat) : Lands v.bytes v.queue (settle v n).bytes (settle v n).queue := by
  unfold settle
  split
  · exact lands_front _ _ _
  · exact .refl _ _

theorem extent_settle (v : View) (n : Nat) : (settle v n).bytes.length ≤ max v.bytes.length LIMIT := by
  unfold settle
  split
  next h =>
    refine land_length_le (Nat.le_max_left _ _) fun w hw => ?_
    have hw : w.1 + w.2.length ≤ LIMIT := front_forall (parted_within LIMIT) (fits_iff.mp h) n w hw
    exact Nat.le_trans hw (Nat.le_max_right _ _)
  next => exact Nat.le_max_left _ _

theorem broken_abandon (v : View) (n : Nat) : v.Broken [] (abandon v n) := by
  refine ⟨⟨(settle v n).queue, 0, ?_, ?_⟩, extent_settle v n⟩
  · rw [List.append_nil]
    exact lands_settle v n
  · rw [front]
    rfl

theorem broken_push (v : View) (data : Bytes) (n : Nat) : v.Broken [(v.cursor, data)] (abandon (push v data) n) := by
  refine ⟨⟨(settle (push v data) n).queue, 0, lands_settle (push v data) n, ?_⟩, extent_settle (push v data) n⟩
  rw [front]
  rfl

theorem given_drain {v : View} (h : v.Fits) (cursor : Nat) : v.Given [] (drain v cursor) := by
  refine ⟨?_, land_length_le (Nat.le_max_left _ _) fun w hw => Nat.le_trans (h w hw) (Nat.le_max_right _ _)⟩
  rw [List.append_nil]
  exact .all _ _

theorem settled_triple {α : Type} (c : Bool × Nat) (possible : Bool) (a : α) (cursor : Nat) (v : View) :
    Eff.Triple (fun w => w = v) (settled c possible a cursor)
      (fun b w => c.1 = false ∧ v.Given [] w ∧ possible = true ∧ b = a ∧ w = drain v cursor)
      fun _ w => ¬ (c.1 = false ∧ v.Fits ∧ possible = true) ∧ v.Broken [] w := by
  rintro v rfl
  unfold settled
  split
  next h =>
    refine Or.inr ⟨_, _, rfl, ?_, broken_abandon v c.2⟩
    rintro ⟨hc, hfits, hpossible⟩
    rw [hc, fits_iff.mpr hfits, hpossible] at h
    cases h
  next h =>
    simp only [Bool.or_eq_true, Bool.not_eq_true', not_or, Bool.not_eq_true, Bool.not_eq_false] at h
    exact Or.inl ⟨_, _, rfl, h.1.1, given_drain (fits_iff.mp h.1.2) cursor, h.2, rfl, rfl⟩

end Buffered

theorem buffered_lawful : LawfulFs where
  calm := rfl
  limit_lt := by decide
  opened bs := rfl
  found c v := ⟨⟨_, Buffered.lands_settle v c.2⟩, Buffered.extent_settle v c.2⟩
  seek c v p := by
    refine (Buffered.settled_triple c (decide (p ≤ Buffered.LIMIT)) () p v).conseq (fun _ h => h) ?_ ?_
    · rintro - w ⟨hc, hgiven, -, -, rfl⟩
      exact ⟨hc, hgiven, rfl, rfl⟩
    · rintro - w ⟨hn, hbroken⟩
      exact ⟨fun h => hn ⟨h.1, h.2.1, decide_eq_true h.2.2⟩, hbroken⟩
  writeAll c v data _ := by
    rintro v rfl
    change (∃ a t, (if c.1 = true then _ else _) = _ ∧ _) ∨ ∃ e t, (if c.1 = true then _ else _) = _ ∧ _
    cases hc : c.1 with
    | true => exact Or.inr ⟨(), _, rfl, fun h => Bool.noConfusion (hc.symm.trans h.1), Buffered.broken_push v data c.2⟩
    | false =>
      refine Or.inl ⟨(), _, rfl, hc, ⟨Buffered.lands_settle (Buffered.push v data) c.2,
        Buffered.extent_settle (Buffered.push v data) c.2⟩, ?_⟩
      show (Buffered.settle (Buffered.push v data) c.2).cursor = _
      unfold Buffered.settle
      split <;> rfl
  flush c v := by
    rintro v rfl
    refine (Buffered.settled_triple c true () v.cursor v).conseq (fun _ h => h) ?_ ?_ v rfl
    · rintro - w ⟨hc, hgiven, -, -, rfl⟩
      exact ⟨hc, hgiven, rfl⟩
    · rintro - w ⟨hn, hbroken⟩
      exact ⟨fun h => hn ⟨h.1, h.2, rfl⟩, hbroken⟩
  readExact c v n := by
    rintro v rfl
    refine (Buffered.settled_triple c _ (slice (land v.bytes v.queue) v.cursor n) (v.cursor + n) v).conseq (fun _ h => h)
      ?_ ?_ v rfl
    · rintro data w ⟨hc, hgiven, hpossible, rfl, rfl⟩
      exact ⟨hc, hgiven, rfl, of_decide_eq_true hpossible, rfl, rfl⟩
    · rintro - w ⟨hn, hbroken⟩
      exact ⟨fun h => hn ⟨h.1, h.2.1, decide_eq_true h.2.2⟩, hbroken⟩

end

end Msca
