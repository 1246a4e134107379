import Msca.Unfold

/-! The bytes an accumulator has on disk, as a function of the items collected into it. Every
accumulator writes exactly the bytes whose number it announced, is empty exactly when nothing was
collected, and can announce its size whenever that fits a word. -/
namespace Msca
set_option autoImplicit false
open Checked

/-! ## Head and data regions -/

section Parts
variable {H D : Type} [Serialize H] [Acc D] [LawfulSerialize H] [LawfulSerialize D]

def partsEnc (head : H) (data : D) : Bytes :=
  frame (enc head) ++ if Acc.isEmpty data then [] else frame (enc data)

omit [LawfulSerialize H] [LawfulSerialize D] in
theorem partsSize_eq_ok {head : H} {data : D} {n : NonZero} (h : partsSize head data = .ok n) :
    ∃ k : NonZero, Serialize.size (SizedBuf.mk head) = .ok k ∧
      (Acc.isEmpty data = true ∧ n = k ∨
        Acc.isEmpty data = false ∧ ∃ m : NonZero, Serialize.size (SizedBuf.mk data) = .ok m ∧
          n.get = m.get + k.get) := by
  obtain ⟨k, hk, h⟩ := bind_eq_ok.mp h
  refine ⟨k, hk, ?_⟩
  cases hd : Acc.isEmpty data with
  | true =>
    rw [if_pos hd] at h
    exact Or.inl ⟨rfl, (Except.ok.inj h).symm⟩
  | false =>
    rw [if_neg (by simp [hd])] at h
    obtain ⟨m, hm, h⟩ := bind_eq_ok.mp h
    obtain ⟨t, ht, hn⟩ := Option.bind_eq_some_iff.mp (okOr_eq_ok.mp h)
    obtain ⟨-, rfl⟩ := add_eq_some.mp ht
    exact Or.inr ⟨rfl, m, hm, NonZero.ofNat?_eq_some.mp hn⟩

theorem partsSize_eq {head : H} {data : D} {n : NonZero} (h : partsSize head data = .ok n) :
    n.get = (partsEnc head data).length := by
  obtain ⟨k, hk, ⟨hd, rfl⟩ | ⟨hd, m, hm, hn⟩⟩ := partsSize_eq_ok h
  · have hsize : n.get = (frame (enc head)).length := LawfulSerialize.size_eq hk
    simpa [partsEnc, hd] using hsize
  · have hkn : k.get = (frame (enc head)).length := LawfulSerialize.size_eq hk
    have hmn : m.get = (frame (enc data)).length := LawfulSerialize.size_eq hm
    simp only [partsEnc, hd, Bool.false_eq_true, if_false, List.length_append]
    omega

theorem partsInto_eq {head : H} {data : D} {n : NonZero} {buf : Bytes}
    (h : partsSize head data = .ok n) (hle : n.get ≤ buf.length) :
    partsInto head data buf = .ok (partsEnc head data, buf.drop n.get) := by
  obtain ⟨k, hk, ⟨hd, rfl⟩ | ⟨hd, m, hm, hn⟩⟩ := partsSize_eq_ok h
  · have hhead := LawfulSerialize.into_eq buf hk hle
    rw [partsInto, hhead, ok_bind, if_pos hd, partsEnc, if_pos hd, List.append_nil]
    rfl
  · have hhead := LawfulSerialize.into_eq buf hk (by omega)
    have hdata := LawfulSerialize.into_eq (buf.drop k.get) hm (by rw [List.length_drop]; omega)
    have hne : ¬ Acc.isEmpty data = true := by simp [hd]
    have hdrop : (buf.drop k.get).drop m.get = buf.drop n.get := by
      rw [List.drop_drop, hn, Nat.add_comm]
    rw [hdrop] at hdata
    rw [partsInto, hhead, ok_bind, if_neg hne, hdata, ok_bind, partsEnc, if_neg hne]
    rfl

theorem partsSize_of_lt {head : H} {data : D} (hh : ∃ k, Serialize.size head = .ok k)
    (hd : Acc.isEmpty data = false → ∃ k, Serialize.size data = .ok k)
    (hlt : (partsEnc head data).length < 2 ^ 63) : ∃ n, partsSize head data = .ok n := by
  obtain ⟨k, hk⟩ := hh
  have hkn := LawfulSerialize.size_eq hk
  have hframe := frame_length (enc head)
  rw [partsEnc, List.length_append] at hlt
  have hhead := sizedBuf_size_of_lt (s := SizedBuf.mk head) hk (by rw [hkn]; omega)
  cases he : Acc.isEmpty data with
  | true =>
    refine ⟨⟨roundUp k.get + 8, by omega, by rw [hkn]; omega⟩, ?_⟩
    rw [partsSize, hhead, ok_bind, if_pos he]
    rfl
  | false =>
    have hne : ¬ Acc.isEmpty data = true := by simp [he]
    obtain ⟨m, hm⟩ := hd he
    have hmn := LawfulSerialize.size_eq hm
    have hframe' := frame_length (enc data)
    rw [if_neg hne] at hlt
    have hdata := sizedBuf_size_of_lt (s := SizedBuf.mk data) hm (by rw [hmn]; omega)
    have hsum : roundUp m.get + 8 + (roundUp k.get + 8) < 2 ^ 64 := by
      rw [hkn, hmn]
      omega
    refine ⟨⟨roundUp m.get + 8 + (roundUp k.get + 8), by omega, hsum⟩, ?_⟩
    rw [partsSize, hhead, ok_bind, if_neg hne, hdata, ok_bind, add_of_lt hsum, Option.bind_some,
      NonZero.ofNat?_of_lt (by omega) hsum, okOr_some]

end Parts

instance optInSituLawful {α : Type} [Primitive α] [Fixed (Option α)] : LawfulSerialize (OptInSitu α) where
  enc acc := encAll acc.data
  size_eq h := LawfulSerialize.size_eq (α := List (Option α)) h
  into_eq buf h hle := LawfulSerialize.into_eq (α := List (Option α)) buf h hle

section
variable {D : Type} [Acc D] [LawfulSerialize D]

instance optBitVecLawful : LawfulSerialize (OptBitVec D) where
  enc acc := partsEnc acc.mask acc.data
  size_eq h := partsSize_eq h
  into_eq _ h hle := partsInto_eq h hle

theorem optBitVec_enc (acc : OptBitVec D) : enc acc = partsEnc acc.mask acc.data := rfl

instance seqLawful : LawfulSerialize (Seq D) where
  enc acc := partsEnc acc.ends acc.data
  size_eq h := partsSize_eq h
  into_eq _ h hle := partsInto_eq h hle

instance optSeqLawful : LawfulSerialize (OptSeq D) where
  enc acc := partsEnc acc.ends acc.data
  size_eq h := partsSize_eq h
  into_eq _ h hle := partsInto_eq h hle

instance flattenLawful : LawfulSerialize (Flatten D) where
  enc acc := enc acc.inner
  size_eq h := LawfulSerialize.size_eq (α := D) h
  into_eq buf h hle := LawfulSerialize.into_eq (α := D) buf h hle

end

/-! ## Collected accumulators -/

theorem bits_foldl (acc xs : Bits) : xs.foldl push acc = acc ++ xs := by
  induction xs generalizing acc with
  | nil => simp
  | cons b xs ih =>
    rw [List.foldl_cons, ih]
    exact List.append_assoc acc [b] xs

theorem vec_foldl {α : Type} [Primitive α] (acc xs : List α) : xs.foldl push acc = acc ++ xs := by
  induction xs generalizing acc with
  | nil => simp
  | cons a xs ih =>
    rw [List.foldl_cons, ih]
    exact List.append_assoc acc [a] xs

theorem optInSitu_foldl {α : Type} [Primitive α] [Fixed (Option α)] (acc : OptInSitu α)
    (xs : List (Option α)) : xs.foldl push acc = ⟨acc.data ++ xs⟩ := by
  induction xs generalizing acc with
  | nil => simp
  | cons a xs ih =>
    rw [List.foldl_cons, ih]
    exact congrArg OptInSitu.mk (List.append_assoc acc.data [a] xs)

/-- The present items of a list. -/
def somes {α : Type} (xs : List (Option α)) : List α := xs.filterMap id

section
variable {D I : Type} [Accumulate D I]

theorem optBitVec_foldl (acc : OptBitVec D) (xs : List (Option I)) :
    xs.foldl push acc = ⟨acc.mask ++ xs.map Option.isSome, (somes xs).foldl push acc.data⟩ := by
  induction xs generalizing acc with
  | nil => simp [somes]
  | cons x xs ih =>
    rw [List.foldl_cons, ih]
    cases x with
    | none => simp [somes, push, Accumulate.push]
    | some i => simp [somes, push, Accumulate.push]

/-- The ends pushed for rows of the given lengths after a row ending at `start`. -/
def endsFrom : Nat → List Nat → List U64
  | _, [] => []
  | start, n :: ns => U64.clamp (start + n) :: endsFrom (U64.clamp (start + n)).val ns

theorem lastEnd_append (ends : List U64) (e : U64) : lastEnd (ends ++ [e]) = e.val := by
  simp [lastEnd]

theorem seq_foldl (acc : Seq D) (xs : List (List I)) :
    xs.foldl push acc =
      ⟨acc.ends ++ endsFrom (lastEnd acc.ends) (xs.map List.length), xs.flatten.foldl push acc.data⟩ := by
  induction xs generalizing acc with
  | nil => simp [endsFrom]
  | cons x xs ih =>
    rw [List.foldl_cons, ih]
    simp only [push, Accumulate.push, lastEnd_append, List.map_cons, endsFrom, List.flatten_cons,
      List.foldl_append, List.append_assoc, List.singleton_append]

/-- The ends pushed for optional rows after a present row ending at `start`. -/
def optEndsFrom : Nat → List (Option Nat) → List U64
  | _, [] => []
  | start, none :: ns => U64.max :: optEndsFrom start ns
  | start, some n :: ns =>
    let stop := U64.clamp (start + n)
    stop :: optEndsFrom (if stop = U64.max then start else stop.val) ns

theorem lastPresent_append (ends : List U64) (e : U64) :
    lastPresent (ends ++ [e]) = if e = U64.max then lastPresent ends else e.val := by
  by_cases he : e = U64.max
  · simp [lastPresent, he]
  · simp [lastPresent, he]

theorem optSeq_foldl (acc : OptSeq D) (xs : List (Option (List I))) :
    xs.foldl push acc =
      ⟨acc.ends ++ optEndsFrom (lastPresent acc.ends) (xs.map (Option.map List.length)),
        (somes xs).flatten.foldl push acc.data⟩ := by
  induction xs generalizing acc with
  | nil => simp [optEndsFrom, somes]
  | cons x xs ih =>
    rw [List.foldl_cons, ih]
    cases x with
    | none =>
      have hlast := lastPresent_append acc.ends U64.max
      rw [if_pos rfl] at hlast
      simp [push, Accumulate.push, hlast, optEndsFrom, somes]
    | some row =>
      simp [push, Accumulate.push, lastPresent_append, optEndsFrom, somes]

theorem flatten_foldl {A B : Type} [Accumulate A (Option B)] (acc : Flatten A)
    (xs : List (Option (Option B))) : xs.foldl push acc = ⟨(xs.map Option.join).foldl push acc.inner⟩ := by
  induction xs generalizing acc with
  | nil => rfl
  | cons x xs ih =>
    rw [List.foldl_cons, ih]
    rfl

end

/-! ## Laws of collection -/

class LawfulAcc (A I : Type) [Acc A] [Accumulate A I] [LawfulSerialize A] : Prop where
  isEmpty_collect : ∀ xs : List I, Acc.isEmpty (collect xs : A) = xs.isEmpty
  count_collect : ∀ xs : List I, Acc.count (collect xs : A) = xs.length
  size_collect : ∀ xs : List I, xs ≠ [] → (enc (collect xs : A)).length < 2 ^ 63 →
    ∃ n, Serialize.size (collect xs : A) = .ok n

theorem fixedSize_of_lt {α : Type} [Fixed α] {l : List α} (hne : l ≠ [])
    (hlt : (encAll l).length < 2 ^ 63) : ∃ n, Serialize.size l = .ok n := by
  have hfold : ∀ (m : List α) (total : Nat), total + (encAll m).length < 2 ^ 63 →
      m.foldlM (fun total a => do addOr total (← Serialize.size a).get) total =
        (.ok (total + (encAll m).length) : Res Nat) := by
    intro m
    induction m with
    | nil => intro total _; rfl
    | cons a m ih =>
      intro total h
      have hwidth : (enc a).length = Fixed.width α := Fixed.toLe_length a
      rw [encAll_cons, List.length_append] at h
      have hstep : (do addOr total (← Serialize.size a).get) = (.ok (total + (enc a).length) : Res Nat) := by
        rw [hwidth]
        change addOr total (Fixed.width α) = _
        exact addOr_of_lt (by omega)
      rw [List.foldlM_cons, hstep, ok_bind, ih _ (by omega), encAll_cons, List.length_append,
        Nat.add_assoc]
  have hpos : 0 < (encAll l).length := by
    cases l with
    | nil => exact absurd rfl hne
    | cons a l =>
      have hwidth : (enc a).length = Fixed.width α := Fixed.toLe_length a
      have hwp := Fixed.width_pos (α := α)
      rw [encAll_cons, List.length_append]
      omega
  have hsum : sumSizes l = .ok (encAll l).length := by
    have h := hfold l 0 (by omega)
    rwa [Nat.zero_add] at h
  refine ⟨⟨(encAll l).length, hpos, by omega⟩, ?_⟩
  change (do okOr zeroError (NonZero.ofNat? (← sumSizes l))) = _
  rw [hsum, ok_bind, NonZero.ofNat?_of_lt hpos (by omega), okOr_some]

theorem bitsSize_of_lt {bits : Bits} (hne : bits ≠ []) (hlt : (Bytes.packBits bits).length < 2 ^ 63) :
    ∃ n, Serialize.size bits = .ok n := by
  have hpos : 0 < (Bytes.packBits bits).length := by
    have hbits := List.length_pos_iff.mpr hne
    rw [Bytes.packBits_length]
    omega
  refine ⟨⟨_, hpos, by omega⟩, ?_⟩
  change okOr zeroError (NonZero.ofNat? (Bytes.packBits bits).length) = _
  rw [NonZero.ofNat?_of_lt hpos (by omega), okOr_some]

theorem bits_collect (xs : Bits) : (collect xs : Bits) = xs := bits_foldl [] xs

theorem vec_collect {α : Type} [Primitive α] (xs : List α) : (collect xs : List α) = xs := vec_foldl [] xs

theorem optInSitu_collect {α : Type} [Primitive α] [Fixed (Option α)] (xs : List (Option α)) :
    (collect xs : OptInSitu α) = ⟨xs⟩ := optInSitu_foldl ⟨[]⟩ xs

instance : LawfulAcc Bits Bool where
  isEmpty_collect xs := by rw [bits_collect]; rfl
  count_collect xs := by rw [bits_collect]; rfl
  size_collect xs hne hlt := by
    rw [bits_collect] at hlt ⊢
    exact bitsSize_of_lt hne hlt

instance {α : Type} [Primitive α] : LawfulAcc (List α) α where
  isEmpty_collect xs := by rw [vec_collect]; rfl
  count_collect xs := by rw [vec_collect]; rfl
  size_collect xs hne hlt := by
    rw [vec_collect] at hlt ⊢
    exact fixedSize_of_lt hne hlt

instance {α : Type} [Primitive α] [Fixed (Option α)] : LawfulAcc (OptInSitu α) (Option α) where
  isEmpty_collect xs := by rw [optInSitu_collect]; rfl
  count_collect xs := by rw [optInSitu_collect]; rfl
  size_collect xs hne hlt := by
    rw [optInSitu_collect] at hlt ⊢
    exact fixedSize_of_lt hne hlt

section
variable {D I : Type} [Acc D] [Accumulate D I]

theorem seq_collect (xs : List (List I)) :
    (collect xs : Seq D) = ⟨endsFrom 0 (xs.map List.length), collect xs.flatten⟩ :=
  seq_foldl ⟨[], Acc.default⟩ xs

theorem optSeq_collect (xs : List (Option (List I))) :
    (collect xs : OptSeq D) =
      ⟨optEndsFrom 0 (xs.map (Option.map List.length)), collect (somes xs).flatten⟩ :=
  optSeq_foldl ⟨[], Acc.default⟩ xs

theorem flatten_collect {B : Type} [Accumulate D (Option B)] (xs : List (Option (Option B))) :
    (collect xs : Flatten D) = ⟨collect (xs.map Option.join)⟩ :=
  flatten_foldl ⟨Acc.default⟩ xs

end

@[simp] theorem endsFrom_length (start : Nat) (ns : List Nat) : (endsFrom start ns).length = ns.length := by
  induction ns generalizing start with
  | nil => rfl
  | cons n ns ih => simp [endsFrom, ih]

@[simp] theorem optEndsFrom_length (start : Nat) (ns : List (Option Nat)) :
    (optEndsFrom start ns).length = ns.length := by
  induction ns generalizing start with
  | nil => rfl
  | cons n ns ih => cases n <;> simp [optEndsFrom, ih]

section
variable {D I : Type} [Acc D] [Accumulate D I] [LawfulSerialize D]

theorem partsEnc_head_le {H : Type} [Serialize H] [LawfulSerialize H] (head : H) (data : D) :
    (enc head).length ≤ (partsEnc head data).length := by
  have h := frame_length (enc head)
  have hup := le_roundUp (enc head).length
  rw [partsEnc, List.length_append]
  omega

theorem partsEnc_data_le {H : Type} [Serialize H] [LawfulSerialize H] (head : H) (data : D)
    (hd : Acc.isEmpty data = false) : (enc data).length ≤ (partsEnc head data).length := by
  have h := frame_length (enc data)
  have hup := le_roundUp (enc data).length
  rw [partsEnc, List.length_append, if_neg (by simp [hd])]
  omega

theorem parts_of_collect {H : Type} [Serialize H] [LawfulSerialize H] [LawfulAcc D I] {head : H}
    {items : List I} (hh : (enc head).length < 2 ^ 63 → ∃ k, Serialize.size head = .ok k)
    (hlt : (partsEnc head (collect items : D)).length < 2 ^ 63) :
    ∃ n, partsSize head (collect items : D) = .ok n := by
  have hhead := partsEnc_head_le head (collect items : D)
  refine partsSize_of_lt (hh (by omega)) ?_ hlt
  intro hd
  have hdata := partsEnc_data_le head (collect items : D) hd
  rw [LawfulAcc.isEmpty_collect] at hd
  exact LawfulAcc.size_collect items (by simpa using hd) (by omega)

instance seqLawfulAcc [LawfulAcc D I] : LawfulAcc (Seq D) (List I) where
  isEmpty_collect xs := by
    rw [seq_collect]
    change ((endsFrom 0 (xs.map List.length)).isEmpty && Acc.isEmpty (collect xs.flatten : D)) = _
    rw [LawfulAcc.isEmpty_collect]
    cases xs <;> simp [endsFrom]
  count_collect xs := by
    rw [seq_collect]
    change (endsFrom 0 (xs.map List.length)).length = _
    simp
  size_collect xs hne hlt := by
    rw [seq_collect] at hlt ⊢
    refine parts_of_collect (fun h => fixedSize_of_lt ?_ h) hlt
    exact List.ne_nil_of_length_pos (by simpa using List.length_pos_iff.mpr hne)

instance optSeqLawfulAcc [LawfulAcc D I] : LawfulAcc (OptSeq D) (Option (List I)) where
  isEmpty_collect xs := by
    rw [optSeq_collect]
    change ((optEndsFrom 0 (xs.map (Option.map List.length))).isEmpty &&
      Acc.isEmpty (collect (somes xs).flatten : D)) = _
    rw [LawfulAcc.isEmpty_collect]
    rcases xs with _ | ⟨x, xs⟩
    · rfl
    · cases x <;> simp [optEndsFrom]
  count_collect xs := by
    rw [optSeq_collect]
    change (optEndsFrom 0 (xs.map (Option.map List.length))).length = _
    simp
  size_collect xs hne hlt := by
    rw [optSeq_collect] at hlt ⊢
    refine parts_of_collect (fun h => fixedSize_of_lt ?_ h) hlt
    exact List.ne_nil_of_length_pos (by simpa using List.length_pos_iff.mpr hne)

instance flattenLawfulAcc {B : Type} [Accumulate D (Option B)] [LawfulAcc D (Option B)] :
    LawfulAcc (Flatten D) (Option (Option B)) where
  isEmpty_collect xs := by
    rw [flatten_collect]
    change Acc.isEmpty (collect (xs.map Option.join) : D) = _
    rw [LawfulAcc.isEmpty_collect]
    cases xs <;> rfl
  count_collect xs := by
    rw [flatten_collect]
    change Acc.count (collect (xs.map Option.join) : D) = _
    rw [LawfulAcc.count_collect, List.length_map]
  size_collect xs hne hlt := by
    rw [flatten_collect] at hlt ⊢
    exact LawfulAcc.size_collect (A := D) (xs.map Option.join) (by simpa using hne) hlt

theorem optBitVec_collect [LawfulAcc D I] (describe : OptBitVec D → Sector → NonZero → Res Manifest.Buffer)
    (xs : List (Option I)) :
    @collect (OptBitVec D) (Option I) (optBitVecAcc describe) _ xs =
      ⟨xs.map Option.isSome, collect (somes xs)⟩ :=
  optBitVec_foldl ⟨[], Acc.default⟩ xs

theorem optBitVec_lawfulAcc [LawfulAcc D I]
    (describe : OptBitVec D → Sector → NonZero → Res Manifest.Buffer) :
    @LawfulAcc (OptBitVec D) (Option I) (optBitVecAcc describe) _ _ := by
  let _ := optBitVecAcc describe
  refine ⟨?_, ?_, ?_⟩
  · intro xs
    rw [optBitVec_collect]
    change ((xs.map Option.isSome).isEmpty && Acc.isEmpty (collect (somes xs) : D)) = _
    rw [LawfulAcc.isEmpty_collect]
    cases xs <;> simp [somes]
  · intro xs
    rw [optBitVec_collect]
    exact List.length_map _
  · intro xs hne hlt
    rw [optBitVec_collect] at hlt ⊢
    exact parts_of_collect (fun h => bitsSize_of_lt (by simpa using hne) h) hlt

end

instance {α : Type} [Primitive α] : LawfulAcc (OptBitVec (List α)) (Option α) := optBitVec_lawfulAcc detail

instance : LawfulAcc (OptBitVec Bits) (Option Bool) := optBitVec_lawfulAcc fun _ => basic

theorem string_collect (xs : List String) : (collect xs : Seq Bytes) = collect (xs.map intoBytes) := by
  rw [collect, collect, List.foldl_map]
  rfl

theorem optString_collect (xs : List (Option String)) :
    (collect xs : OptSeq Bytes) = collect (xs.map (Option.map intoBytes)) := by
  rw [collect, collect, List.foldl_map]
  rfl

instance : LawfulAcc (Seq Bytes) String where
  isEmpty_collect xs := by
    rw [string_collect, LawfulAcc.isEmpty_collect]
    cases xs <;> rfl
  count_collect xs := by rw [string_collect, LawfulAcc.count_collect, List.length_map]
  size_collect xs hne hlt := by
    rw [string_collect] at hlt ⊢
    exact LawfulAcc.size_collect _ (by simpa using hne) hlt

instance : LawfulAcc (OptSeq Bytes) (Option String) where
  isEmpty_collect xs := by
    rw [optString_collect, LawfulAcc.isEmpty_collect]
    cases xs <;> rfl
  count_collect xs := by rw [optString_collect, LawfulAcc.count_collect, List.length_map]
  size_collect xs hne hlt := by
    rw [optString_collect] at hlt ⊢
    exact LawfulAcc.size_collect _ (by simpa using hne) hlt

/-- An item type both of whose accumulators obey the laws. -/
class LawfulUnfold (I : Type) [Unfold I] where
  rawEnc : LawfulSerialize (RawAcc I)
  optEnc : LawfulSerialize (OptAcc I)
  rawLaws : LawfulAcc (RawAcc I) I
  optLaws : LawfulAcc (OptAcc I) (Option I)

attribute [reducible, instance] LawfulUnfold.rawEnc LawfulUnfold.optEnc
attribute [instance] LawfulUnfold.rawLaws LawfulUnfold.optLaws

@[reducible] def Item.lawful : (t : Item) → LawfulUnfold t.Val
  | .bool =>
    @LawfulUnfold.mk _ boolUnfold (inferInstanceAs (LawfulSerialize (Bits)))
      (inferInstanceAs (LawfulSerialize (OptBitVec Bits)))
      (inferInstanceAs (LawfulAcc (Bits) (Bool)))
      (inferInstanceAs (LawfulAcc (OptBitVec Bits) (Option (Bool))))
  | .prim (.plain p) =>
    @LawfulUnfold.mk _ (plainUnfold p) (inferInstanceAs (LawfulSerialize (List (Prim.plain p).Val)))
      (inferInstanceAs (LawfulSerialize (OptBitVec (List (Prim.plain p).Val))))
      (inferInstanceAs (LawfulAcc (List (Prim.plain p).Val) ((Prim.plain p).Val)))
      (inferInstanceAs (LawfulAcc (OptBitVec (List (Prim.plain p).Val)) (Option ((Prim.plain p).Val))))
  | .prim (.niche p) =>
    @LawfulUnfold.mk _ (nicheUnfold p) (inferInstanceAs (LawfulSerialize (List (Prim.niche p).Val)))
      (inferInstanceAs (LawfulSerialize (OptInSitu (Prim.niche p).Val)))
      (inferInstanceAs (LawfulAcc (List (Prim.niche p).Val) ((Prim.niche p).Val)))
      (inferInstanceAs (LawfulAcc (OptInSitu (Prim.niche p).Val) (Option ((Prim.niche p).Val))))
  | .string =>
    @LawfulUnfold.mk _ stringUnfold (inferInstanceAs (LawfulSerialize (Seq Bytes)))
      (inferInstanceAs (LawfulSerialize (OptSeq Bytes)))
      (inferInstanceAs (LawfulAcc (Seq Bytes) (String)))
      (inferInstanceAs (LawfulAcc (OptSeq Bytes) (Option (String))))
  | .option t =>
    letI := t.lawful
    @LawfulUnfold.mk _ (optionUnfold t.unfold) (inferInstanceAs (LawfulSerialize (OptAcc t.Val)))
      (inferInstanceAs (LawfulSerialize (Flatten (OptAcc t.Val))))
      (inferInstanceAs (LawfulAcc (OptAcc t.Val) (Option t.Val)))
      (inferInstanceAs (LawfulAcc (Flatten (OptAcc t.Val)) (Option (Option t.Val))))
  | .vec t =>
    letI := t.lawful
    @LawfulUnfold.mk _ (vecUnfold t.unfold) (inferInstanceAs (LawfulSerialize (Seq (RawAcc t.Val))))
      (inferInstanceAs (LawfulSerialize (OptSeq (RawAcc t.Val))))
      (inferInstanceAs (LawfulAcc (Seq (RawAcc t.Val)) (List t.Val)))
      (inferInstanceAs (LawfulAcc (OptSeq (RawAcc t.Val)) (Option (List t.Val))))

instance itemLawful (t : Item) : LawfulUnfold t.Val := t.lawful

/-- The bytes of a column body holding the items `xs`. -/
def image {I : Type} [Unfold I] [LawfulUnfold I] (xs : List I) : Bytes := enc (collect xs : RawAcc I)

def Item.image (t : Item) (xs : List t.Val) : Bytes := Msca.image xs

/-- The accumulator of a column of type `t` holding `xs`. -/
def Item.acc (t : Item) (xs : List t.Val) : RawAcc t.Val := collect xs

theorem mem_somes {α : Type} {xs : List (Option α)} {x : α} : x ∈ somes xs ↔ some x ∈ xs := by
  simp [somes]

theorem somes_some {α : Type} (xs : List α) : somes (xs.map some) = xs := by
  induction xs with
  | nil => rfl
  | cons x xs ih => exact congrArg (x :: ·) ih

theorem somes_map {α β : Type} (f : α → β) (xs : List (Option α)) :
    somes (xs.map (Option.map f)) = (somes xs).map f := by
  induction xs with
  | nil => rfl
  | cons x xs ih =>
    cases x with
    | none => exact ih
    | some x => exact congrArg (f x :: ·) ih

/-! ## The parts of each column -/

theorem acc_string (xs : List String) :
    Item.string.acc xs = (⟨endsFrom 0 ((xs.map intoBytes).map List.length),
      collect (xs.map intoBytes).flatten⟩ : Seq Bytes) :=
  (string_collect xs).trans (seq_collect _)

theorem acc_optBool (xs : List (Option Bool)) :
    (Item.option .bool).acc xs = (⟨xs.map Option.isSome, collect (somes xs)⟩ : OptBitVec Bits) :=
  optBitVec_collect _ xs

theorem acc_optPlain (p : Plain) (xs : List (Option (Prim.plain p).Val)) :
    (Item.option (.prim (.plain p))).acc xs =
      (⟨xs.map Option.isSome, collect (somes xs)⟩ : OptBitVec (List (Prim.plain p).Val)) :=
  optBitVec_collect _ xs

theorem acc_optString (xs : List (Option String)) :
    (Item.option .string).acc xs =
      (⟨optEndsFrom 0 ((xs.map (Option.map intoBytes)).map (Option.map List.length)),
        collect ((somes xs).map intoBytes).flatten⟩ : OptSeq Bytes) := by
  rw [← somes_map intoBytes xs]
  exact (optString_collect xs).trans (optSeq_collect _)

theorem acc_vec (t : Item) (xs : List (List t.Val)) :
    (Item.vec t).acc xs = (⟨endsFrom 0 (xs.map List.length), t.acc xs.flatten⟩ : Seq (RawAcc t.Val)) :=
  seq_collect xs

theorem acc_optVec (t : Item) (xs : List (Option (List t.Val))) :
    (Item.option (.vec t)).acc xs =
      (⟨optEndsFrom 0 (xs.map (Option.map List.length)), t.acc (somes xs).flatten⟩ : OptSeq (RawAcc t.Val)) :=
  optSeq_collect xs

theorem image_string (xs : List String) :
    Item.string.image xs = partsEnc (endsFrom 0 ((xs.map intoBytes).map List.length))
      (collect (xs.map intoBytes).flatten : Bytes) :=
  congrArg (enc (α := Seq Bytes)) (acc_string xs)

theorem image_optBool (xs : List (Option Bool)) :
    (Item.option .bool).image xs = partsEnc (xs.map Option.isSome) (collect (somes xs) : Bits) := by
  show enc (α := OptBitVec Bits) ((Item.option .bool).acc xs) = _
  rw [acc_optBool, optBitVec_enc]

theorem image_optPlain (p : Plain) (xs : List (Option (Prim.plain p).Val)) :
    (Item.option (.prim (.plain p))).image xs =
      partsEnc (xs.map Option.isSome) (collect (somes xs) : List (Prim.plain p).Val) := by
  show enc (α := OptBitVec (List (Prim.plain p).Val)) ((Item.option (.prim (.plain p))).acc xs) = _
  rw [acc_optPlain, optBitVec_enc]

theorem image_optString (xs : List (Option String)) :
    (Item.option .string).image xs =
      partsEnc (optEndsFrom 0 ((xs.map (Option.map intoBytes)).map (Option.map List.length)))
        (collect ((somes xs).map intoBytes).flatten : Bytes) :=
  congrArg (enc (α := OptSeq Bytes)) (acc_optString xs)

theorem image_vec (t : Item) (xs : List (List t.Val)) :
    (Item.vec t).image xs = partsEnc (endsFrom 0 (xs.map List.length)) (t.acc xs.flatten) :=
  congrArg (enc (α := Seq (RawAcc t.Val))) (acc_vec t xs)

theorem image_optVec (t : Item) (xs : List (Option (List t.Val))) :
    (Item.option (.vec t)).image xs =
      partsEnc (optEndsFrom 0 (xs.map (Option.map List.length))) (t.acc (somes xs).flatten) :=
  congrArg (enc (α := OptSeq (RawAcc t.Val))) (acc_optVec t xs)

end Msca
