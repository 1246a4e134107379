import Msca.File

/-! The dataset: an open file and the map over its segments. Schemas are registered and deduplicated by
name, accumulators are committed as segments, and the map is taken anew after every write. -/
namespace Msca
set_option autoImplicit false
open Checked

section
variable [Extern] [Fs]

/-- `dataset::Dataset`; `map` is the length of the mapped region. -/
structure Dataset where
  file : File
  map : Nat

namespace Dataset

def withFile (d : Dataset) (file : File) : Dataset := { d with file }

def withMap (d : Dataset) (map : Nat) : Dataset := { d with map }

/-- What the map shows. -/
def mmap (d : Dataset) : Bytes := Bytes.slice d.file.bytes HEADER d.map

/-- The common part of `Dataset::new` and `Dataset::open`. -/
def attach (parts : Eff Fault Stream (Sector × Manifest)) : Eff Fault Stream Dataset := do
  let parts ← parts
  let file ← Eff.gets fun stream => File.mk stream parts.1 parts.2
  let map ← Eff.lift file.mmap
  return ⟨file, map⟩

def new : Eff Fault Stream Dataset := attach File.create

def «open» : Eff Fault Stream Dataset := attach File.open

end Dataset

/-! ## Schemas -/

/-- `Schema::occupied`. -/
def Schema.occupied (s : Schema) (e : Manifest.Schema) : Res Sector :=
  let columns := s.map.items
  if e.columns.items.length == columns.length &&
      (e.columns.items.zip columns).all fun p => p.1.1 == p.2.1 && p.1.2.eq p.2.2 then .ok e.sector
  else .error (.error (.manifest (.collision s.name)))

/-- `Schema::finish`. -/
def Schema.finish (s : Schema) : Eff Fault Dataset Sector := do
  let entry ← Eff.gets fun d : Dataset => d.file.manifest.schemas.get? s.name
  match entry with
  | some e => Eff.lift (s.occupied e)
  | none => Eff.focus Dataset.file Dataset.withFile (File.write s)

/-- `Dataset::schema` for the record type with the fields `fs`. -/
def Dataset.schema (fs : Fields) (name : String) : Eff Fault Dataset (Accumulator fs) := do
  let parts ← Eff.lift (accumulator fs.columns.items (Schema.new name))
  let sector ← parts.2.finish
  return ⟨parts.1, name, sector⟩

/-! ## Accumulators -/

namespace Accumulator
variable {fs : Fields}

def push (a : Accumulator fs) (row : Row fs.types) : Res (Accumulator fs) := do
  return { a with data := ← a.data.push row }

/-- The records pushed one after another. -/
def pushes (a : Accumulator fs) (rows : List (Row fs.types)) : Res (Accumulator fs) := rows.foldlM push a

def discard (a : Accumulator fs) : Accumulator fs := { a with data := a.data.discard }

/-- `Clone for Accumulator`. -/
def clone (a : Accumulator fs) : Accumulator fs := { a with data := Composite.default fs.types }

end Accumulator

namespace Bin

def new (name : String) : Bin := ⟨name, []⟩

def push (b : Bin) (item : Bytes) : Bin := { b with data := b.data ++ item }

/-- `Bin::extend_from_slice`. -/
def extendFromSlice (b : Bin) (slice : Bytes) : Bin := { b with data := b.data ++ slice }

/-- `Extend::extend for Bin`. -/
def extend (b : Bin) (items : List UInt8) : Bin := { b with data := b.data ++ items }

def discard (b : Bin) : Bin := { b with data := [] }

end Bin

/-- What `Dataset::write` asks of an accumulator. -/
class Pending (S : Type) where
  isEmpty : S → Bool
  count : S → Nat

instance {fs : Fields} : Pending (Accumulator fs) where
  isEmpty a := Composite.isEmpty a.data
  count a := Composite.count a.data

instance : Pending Bin where
  isEmpty b := b.data.isEmpty
  count b := b.data.length

namespace Dataset

/-- `Dataset::write`. -/
def write {S : Type} [Segment S] [Register S] [Pending S] (acc : S) : Eff Fault Dataset Nat :=
  if Pending.isEmpty acc then pure 0
  else do
    let count := Pending.count acc
    let _ ← Eff.focus Dataset.file withFile (File.write acc)
    let map ← Eff.gets fun d => d.file.mmap
    let map ← Eff.lift map
    Eff.modify fun d => d.withMap map
    return count

end Dataset

/-- The records pushed into an accumulator that is written then. -/
def Accumulator.commit {fs : Fields} (a : Accumulator fs) (rows : List (Row fs.types)) : Eff Fault Dataset Nat := do
  let a ← Eff.lift (a.pushes rows)
  Dataset.write a

namespace Dataset

/-- `Dataset::binary`. -/
def binary (d : Dataset) (name : String) : Res Bytes := do
  let sector ← okOr (.error (.manifest (.notFound name))) (d.file.manifest.bins.get? name)
  sector.slice d.mmap

end Dataset

end
end Msca
