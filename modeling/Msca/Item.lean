import Msca.Prim

/-! The item types a column may hold, as codes: the values of each, the type descriptor recorded for
it in the manifest, and bitwise equality. -/
namespace Msca
set_option autoImplicit false

inductive Item
  | bool
  | prim (p : Prim)
  | string
  | option (t : Item)
  | vec (t : Item)
  deriving DecidableEq, Repr

/-- Values of an item type. -/
@[reducible] def Item.Val : Item → Type
  | .bool => Bool
  | .prim p => p.Val
  | .string => String
  | .option t => Option t.Val
  | .vec t => List t.Val

/-! ## Type descriptors -/

/-- `schema::number::Kind`. -/
inductive Kind
  | uInt | nonZeroUInt | int | nonZeroInt | float
  deriving DecidableEq, Repr

structure Number where
  kind : Kind
  size : UInt8
  deriving DecidableEq, Repr

/-- `schema::Type`. -/
inductive Ty
  | bool
  | char
  | number (n : Number)
  | option (subtype : Ty)
  | string
  | sequence (subtype : Ty)
  deriving DecidableEq, Repr

/-- `Type::option`: one level of optionality is recorded however many are declared. -/
def Ty.flatOption : Ty → Ty
  | .option subtype => .option subtype
  | subtype => .option subtype

/-- `AsType::TYPE`. -/
def Prim.type : Prim → Ty
  | .plain (.uint w) => .number ⟨.uInt, w.bytes.toUInt8⟩
  | .plain (.int w) => .number ⟨.int, w.bytes.toUInt8⟩
  | .plain .f32 => .number ⟨.float, 4⟩
  | .plain .f64 => .number ⟨.float, 8⟩
  | .niche (.nonZeroUInt w) => .number ⟨.nonZeroUInt, w.bytes.toUInt8⟩
  | .niche (.nonZeroInt w) => .number ⟨.nonZeroInt, w.bytes.toUInt8⟩
  | .niche .char => .char

/-- `Unfolder::unfold`. -/
def Item.type : Item → Ty
  | .bool => .bool
  | .prim p => p.type
  | .string => .string
  | .option t => t.type.flatOption
  | .vec t => .sequence t.type

/-! ## Bitwise equality -/

/-- `schema::BitMatch`. -/
class BitMatch (I : Type) where
  eq : I → I → Bool

instance : BitMatch Bool := ⟨fun a b => a == b⟩

instance (p : Prim) : BitMatch p.Val := ⟨fun a b => a.bits == b.bits⟩

instance : BitMatch String := ⟨fun a b => decide (a.toByteArray = b.toByteArray)⟩

instance optionBitMatch {I : Type} [BitMatch I] : BitMatch (Option I) where
  eq
    | none, b => b.isNone
    | some a, b => b.any (BitMatch.eq a)

instance vecBitMatch {I : Type} [BitMatch I] : BitMatch (List I) where
  eq a b := a.length == b.length && (a.zip b).all fun both => BitMatch.eq both.1 both.2

/-- Values that match bitwise are one value. -/
class LawfulBitMatch (I : Type) [BitMatch I] : Prop where
  eq_iff : ∀ a b : I, BitMatch.eq a b = true ↔ a = b

instance : LawfulBitMatch Bool := ⟨fun a b => by cases a <;> cases b <;> decide⟩

instance (p : Prim) : LawfulBitMatch p.Val where
  eq_iff a b := by
    simp only [BitMatch.eq, beq_iff_eq]
    exact Prim.Val.ext_iff.symm

instance : LawfulBitMatch String where
  eq_iff a b := by
    simp only [BitMatch.eq, decide_eq_true_eq]
    exact String.toByteArray_inj

instance optionLawfulBitMatch {I : Type} [BitMatch I] [LawfulBitMatch I] : LawfulBitMatch (Option I) where
  eq_iff a b := by
    cases a <;> cases b <;> simp [BitMatch.eq, LawfulBitMatch.eq_iff]

instance vecLawfulBitMatch {I : Type} [BitMatch I] [LawfulBitMatch I] : LawfulBitMatch (List I) where
  eq_iff a b := by
    induction a generalizing b with
    | nil => cases b <;> simp [BitMatch.eq]
    | cons x a ih =>
      cases b with
      | nil => simp [BitMatch.eq]
      | cons y b =>
        have htail := ih b
        simp only [BitMatch.eq, Bool.and_eq_true, beq_iff_eq] at htail
        simp only [BitMatch.eq, List.length_cons, List.zip_cons_cons, List.all_cons,
          Bool.and_eq_true, beq_iff_eq, LawfulBitMatch.eq_iff, List.cons.injEq,
          Nat.add_right_cancel_iff]
        rw [← htail]
        tauto

@[reducible] def Item.bitMatch : (t : Item) → BitMatch t.Val
  | .bool => inferInstance
  | .prim p => inferInstanceAs (BitMatch p.Val)
  | .string => inferInstance
  | .option t => @optionBitMatch _ t.bitMatch
  | .vec t => @vecBitMatch _ t.bitMatch

instance (t : Item) : BitMatch t.Val := t.bitMatch

theorem Item.bitMatch_lawful : (t : Item) → LawfulBitMatch t.Val
  | .bool => inferInstanceAs (LawfulBitMatch Bool)
  | .prim p => inferInstanceAs (LawfulBitMatch p.Val)
  | .string => inferInstanceAs (LawfulBitMatch String)
  | .option t => @optionLawfulBitMatch _ _ t.bitMatch_lawful
  | .vec t => @vecLawfulBitMatch _ _ t.bitMatch_lawful

instance (t : Item) : LawfulBitMatch t.Val := t.bitMatch_lawful

end Msca
