import Msca.Base.KeySet
import Msca.Item
import Msca.Sector

/-! The manifest: the schemas of the file, the buffers of their columns and the binary segments.
Buffers are ordered and identified by their sector alone, columns and schemas by their name. -/
namespace Msca
set_option autoImplicit false
open Checked

/-- `manifest::Buffer`. -/
inductive Manifest.Buffer
  | compact (buffer : Sector) (count : NonZero)
  | basic (buffer : Sector) (count : NonZero)
  | detailed (buffer : Sector) (count : NonZero) (min max : Sector)
  deriving DecidableEq

namespace Manifest.Buffer

def count : Manifest.Buffer → Nat
  | .compact _ count => count.get
  | .basic _ count => count.get
  | .detailed _ count _ _ => count.get

def sector : Manifest.Buffer → Sector
  | .compact buffer _ => buffer
  | .basic buffer _ => buffer
  | .detailed buffer _ _ _ => buffer

/-- `Ord for Buffer`. -/
def key (b : Manifest.Buffer) : Nat ×ₗ Nat := b.sector.key

end Manifest.Buffer

/-- `BTreeSet<Buffer>`. -/
abbrev BufferSet := KeySet Manifest.Buffer.key

/-- `manifest::Column`. -/
@[ext] structure Column where
  ty : Ty
  buffers : BufferSet
  deriving DecidableEq

namespace Column

/-- `From<Type> for Column`. -/
def ofType (ty : Ty) : Column := ⟨ty, KeySet.empty⟩

/-- `PartialEq for Column`, which compares the recorded types only. -/
def eq (a b : Column) : Bool := a.ty == b.ty

def insert (c : Column) (b : Manifest.Buffer) : Column := { c with buffers := c.buffers.insert b }

def count (c : Column) : Res Nat := sum (c.buffers.items.map Manifest.Buffer.count)

end Column

/-- `manifest::Schema`. -/
@[ext] structure Manifest.Schema where
  sector : Sector
  columns : OrdMap String Column
  deriving DecidableEq

namespace Manifest.Schema

/-- Rows of the schema, counted over its first column. -/
def count (s : Manifest.Schema) : Res Nat :=
  match s.columns.values with
  | [] => sum []
  | c :: _ => c.count

end Manifest.Schema

@[ext] structure Manifest where
  schemas : OrdMap String Manifest.Schema
  bins : OrdMap String Sector
  deriving DecidableEq

/-- `Manifest::default`. -/
def Manifest.default : Manifest := ⟨KeySet.empty, KeySet.empty⟩

end Msca
