import Msca.Accumulate

/-! The accumulator of each item type and the compacting buffer built over it. A buffer holds no
accumulator until two of its items differ bitwise. -/
namespace Msca
set_option autoImplicit false
open Checked

/-- `schema::Unfold`: the accumulators of an item type and of its optional form. -/
class Unfold (I : Type) where
  RawAcc : Type
  OptAcc : Type
  rawAcc : Acc RawAcc
  optAcc : Acc OptAcc
  pushRaw : Accumulate RawAcc I
  pushOpt : Accumulate OptAcc (Option I)

export Unfold (RawAcc OptAcc)

attribute [reducible, instance] Unfold.rawAcc Unfold.optAcc Unfold.pushRaw Unfold.pushOpt

@[reducible] def boolUnfold : Unfold Bool where
  RawAcc := Bits
  OptAcc := OptBitVec Bits
  rawAcc := inferInstance
  optAcc := inferInstance
  pushRaw := inferInstance
  pushOpt := inferInstance

@[reducible] def plainUnfold (p : Plain) : Unfold (Prim.plain p).Val where
  RawAcc := List (Prim.plain p).Val
  OptAcc := OptBitVec (List (Prim.plain p).Val)
  rawAcc := inferInstance
  optAcc := inferInstance
  pushRaw := inferInstance
  pushOpt := inferInstance

@[reducible] def nicheUnfold (p : Niche) : Unfold (Prim.niche p).Val where
  RawAcc := List (Prim.niche p).Val
  OptAcc := OptInSitu (Prim.niche p).Val
  rawAcc := inferInstance
  optAcc := inferInstance
  pushRaw := inferInstance
  pushOpt := inferInstance

@[reducible] def stringUnfold : Unfold String where
  RawAcc := Seq Bytes
  OptAcc := OptSeq Bytes
  rawAcc := inferInstance
  optAcc := inferInstance
  pushRaw := inferInstance
  pushOpt := inferInstance

@[reducible] def optionUnfold {I : Type} (u : Unfold I) : Unfold (Option I) where
  RawAcc := OptAcc I
  OptAcc := Flatten (OptAcc I)
  rawAcc := inferInstance
  optAcc := inferInstance
  pushRaw := inferInstance
  pushOpt := inferInstance

@[reducible] def vecUnfold {I : Type} (u : Unfold I) : Unfold (List I) where
  RawAcc := Seq (RawAcc I)
  OptAcc := OptSeq (RawAcc I)
  rawAcc := inferInstance
  optAcc := inferInstance
  pushRaw := inferInstance
  pushOpt := inferInstance

@[reducible] def Item.unfold : (t : Item) → Unfold t.Val
  | .bool => boolUnfold
  | .prim (.plain p) => plainUnfold p
  | .prim (.niche p) => nicheUnfold p
  | .string => stringUnfold
  | .option t => optionUnfold t.unfold
  | .vec t => vecUnfold t.unfold

instance itemUnfold (t : Item) : Unfold t.Val := t.unfold

/-- `Unfold::once`. -/
def once {I : Type} [Unfold I] (item : I) : RawAcc I := collect [item]

/-! ## Compacting buffer -/

/-- `accumulate::Buffer`. -/
inductive Buffer (I : Type) [Unfold I]
  | empty
  | compact (item : I) (count : Nat)
  | many (acc : RawAcc I)

namespace Buffer
variable {I : Type} [Unfold I]

def upgrade (item : I) (count : Nat) (new : I) : Buffer I :=
  .many (collect (List.replicate count item ++ [new]))

/-- `Accumulate::push for Buffer`. -/
def push [BitMatch I] (b : Buffer I) (new : I) : Res (Buffer I) :=
  match b with
  | .empty => .ok (.compact new 1)
  | .compact item count =>
    if BitMatch.eq new item then do return .compact item (← plus count 1) else .ok (upgrade item count new)
  | .many acc => .ok (.many (Msca.push acc new))

def discard (_ : Buffer I) : Buffer I := .empty

def isEmpty : Buffer I → Bool
  | .empty => true
  | .compact _ _ => false
  | .many acc => Acc.isEmpty acc

def count : Buffer I → Nat
  | .empty => 0
  | .compact _ count => count
  | .many acc => Acc.count acc

/-- `Descriptor for Buffer`. -/
def describe (b : Buffer I) (buffer : Sector) (count : NonZero) : Res Manifest.Buffer :=
  match b with
  | .empty => .error zeroError
  | .compact _ _ => .ok (.compact buffer count)
  | .many acc => Acc.describe acc buffer count

instance : Serialize (Buffer I) where
  size
    | .empty => .error zeroError
    | .compact item _ => Serialize.size (once item)
    | .many acc => Serialize.size acc
  serializeInto
    | .empty, _ => .error zeroError
    | .compact item _, buf => serializeInto (once item) buf
    | .many acc, buf => serializeInto acc buf

end Buffer
end Msca
