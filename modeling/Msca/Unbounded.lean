import Msca.Layout

/-! The write path over all integers. The code rounds positions up without a check, so it stops without an error where
the next multiple of eight is out of range; everywhere else it computes the same value or reports a number error. -/
namespace Msca
set_option autoImplicit false
open Checked

/-! ## Outcomes -/

/-- A value with the property, or a number error. -/
def Exact {α : Type} (r : Res α) (P : α → Prop) : Prop := (∃ a, r = .ok a ∧ P a) ∨ ∃ e, r = .error (.error (.number e))

/-- A word above the last multiple of eight among the words. -/
def Unroundable (n : Nat) : Prop := 2 ^ 64 - 8 < n ∧ n < 2 ^ 64

instance (n : Nat) : Decidable (Unroundable n) := inferInstanceAs (Decidable (_ ∧ _))

section Exact
variable {α β : Type} {P : α → Prop} {Q : β → Prop}

theorem Exact.ok {a : α} (h : P a) : Exact (.ok a) P := Or.inl ⟨a, rfl, h⟩

theorem exact_number {e : NumberError} : Exact (.error (.error (.number e))) P := Or.inr ⟨e, rfl⟩

theorem not_exact_panic : ¬ Exact (.error .panic) P := by
  rintro (⟨a, h, -⟩ | ⟨e, h⟩) <;> cases h

theorem Exact.bind {x : Res α} {f : α → Res β} (hx : Exact x P) (hf : ∀ a, P a → Exact (f a) Q) : Exact (x >>= f) Q := by
  obtain ⟨a, rfl, ha⟩ | ⟨e, rfl⟩ := hx
  · exact hf a ha
  · exact exact_number

theorem Exact.mono {P' : α → Prop} {r : Res α} (h : Exact r P) (himp : ∀ a, P a → P' a) : Exact r P' :=
  h.imp_left fun ⟨a, ha, hp⟩ => ⟨a, ha, himp a hp⟩

theorem exact_addOr (a b : Nat) : Exact (addOr a b) fun n => n = a + b ∧ n < 2 ^ 64 := by
  by_cases h : a + b < 2 ^ 64
  · rw [addOr_of_lt h]
    exact .ok ⟨rfl, h⟩
  · rw [addOr_of_le (Nat.le_of_not_lt h)]
    exact exact_number

theorem exact_subOr (a b : Nat) : Exact (subOr a b) fun n => n + b = a := by
  by_cases h : b ≤ a
  · rw [subOr_of_le h]
    exact .ok (Nat.sub_add_cancel h)
  · rw [subOr_of_lt (Nat.lt_of_not_le h)]
    exact exact_number

theorem exact_ofNat? (n : Nat) : Exact (okOr zeroError (NonZero.ofNat? n)) fun k => k.get = n := by
  cases h : NonZero.ofNat? n with
  | none => exact exact_number
  | some k => exact .ok (NonZero.ofNat?_eq_some.mp h)

theorem exact_nonZero (n : Nat) : Exact (nonZero n) fun k => k.get = n := by
  rw [nonZero]
  cases h : NonZero.ofNat? n with
  | none => exact exact_number
  | some k => exact .ok (NonZero.ofNat?_eq_some.mp h)

theorem exact_new (o n : Nat) : Exact (Sector.new o n) fun s => s.offset = o ∧ s.size = n := by
  unfold Sector.new
  split
  · split
    · split
      · exact .ok ⟨rfl, rfl⟩
      · exact exact_number
    · exact exact_number
  · exact exact_number

theorem exact_relative (s : Sector) (o : Nat) :
    Exact (s.relative o) fun t => t.offset = s.offset + o ∧ t.size = s.size := by
  refine (exact_addOr s.offset o).bind ?_
  rintro a ⟨rfl, -⟩
  exact exact_new _ _

theorem roundUp_lt_iff {n : Nat} (hn : n < 2 ^ 64) : roundUp n < 2 ^ 64 ↔ ¬ Unroundable n := by
  unfold Unroundable roundUp
  omega

theorem align_of_unroundable {n : Nat} (h : Unroundable n) : align n = .error .panic := by
  have hge := mt (roundUp_lt_iff h.2).mp (not_not_intro h)
  exact align_of_le (Nat.le_of_not_lt hge)

theorem pad_of_unroundable {n : Nat} (h : Unroundable n) : pad n = .error .panic := by
  have hge := mt (roundUp_lt_iff h.2).mp (not_not_intro h)
  exact pad_of_le (Nat.le_of_not_lt hge)

theorem align_exact_iff {n : Nat} (hn : n < 2 ^ 64) : Exact (align n) (· = roundUp n) ↔ ¬ Unroundable n := by
  constructor
  · intro h hs
    rw [align_of_unroundable hs] at h
    exact not_exact_panic h
  · intro h
    rw [align_of_lt ((roundUp_lt_iff hn).mpr h)]
    exact .ok rfl

theorem pad_exact_iff {n : Nat} (hn : n < 2 ^ 64) : Exact (pad n) (· = roundUp n - n) ↔ ¬ Unroundable n := by
  constructor
  · intro h hs
    rw [pad_of_unroundable hs] at h
    exact not_exact_panic h
  · intro h
    rw [pad_of_lt ((roundUp_lt_iff hn).mpr h)]
    exact .ok rfl

end Exact

/-! ## Sizes -/

theorem exact_fixedSize {α : Type} [Fixed α] (l : List α) : Exact (Serialize.size l) fun n => n.get = (encAll l).length := by
  have hsum : ∀ total, Exact (l.foldlM (fun total a => do addOr total (← Serialize.size a).get) total)
      fun n => n = total + (encAll l).length := by
    induction l with
    | nil => exact fun total => .ok rfl
    | cons a l ih =>
      intro total
      rw [List.foldlM_cons]
      refine Exact.bind (P := (· = total + Fixed.width α)) ((exact_addOr _ _).mono fun n h => h.1) ?_
      rintro n rfl
      refine (ih _).mono fun n h => ?_
      have hlen : (enc a).length = Fixed.width α := Fixed.toLe_length a
      rw [h, encAll_cons, List.length_append, hlen]
      omega
  refine (hsum 0).bind ?_
  rintro n rfl
  exact (exact_ofNat? _).mono fun k h => by rw [h, Nat.zero_add]

/-- Every column has a size that its bytes in memory allow. -/
def Composite.Sized {ts : List Item} (c : Composite ts) : Prop :=
  ∀ j, ∃ n : NonZero, Serialize.size (c.get j) = .ok n ∧ n.get < 2 ^ 63

theorem Composite.Sized.head {t : Item} {ts : List Item} {b : Buffer t.Val} {c : Composite ts}
    (h : Composite.Sized (.cons b c)) : ∃ n : NonZero, Serialize.size b = .ok n ∧ n.get < 2 ^ 63 := h ⟨0, Nat.succ_pos _⟩

theorem Composite.Sized.tail {t : Item} {ts : List Item} {b : Buffer t.Val} {c : Composite ts}
    (h : Composite.Sized (.cons b c)) : Composite.Sized c := fun j => h ⟨j.val + 1, Nat.succ_lt_succ j.isLt⟩

theorem Buffer.size_collect (t : Item) {xs : List t.Val} (hne : xs ≠ []) (hlt : (enc (Buffer.collect xs)).length < 2 ^ 63) :
    ∃ n, Serialize.size (Buffer.collect xs) = .ok n := by
  rcases Buffer.collect_cases xs with ⟨rfl, -⟩ | ⟨item, -, -, heq⟩ | ⟨-, heq⟩
  · exact absurd rfl hne
  · rw [heq] at hlt ⊢
    exact LawfulAcc.size_collect [item] (List.cons_ne_nil _ _) hlt
  · rw [heq] at hlt ⊢
    exact LawfulAcc.size_collect xs hne hlt

theorem Composite.sized_collect {ts : List Item} {rows : List (Row ts)} (hne : rows ≠ [])
    (hlt : ∀ j, (enc ((Composite.collect rows).get j)).length < 2 ^ 63) : Composite.Sized (Composite.collect rows) := by
  intro j
  have hbody := hlt j
  rw [Composite.get_collect] at hbody ⊢
  obtain ⟨n, hn⟩ := Buffer.size_collect (ts.get j) (by simpa using hne) hbody
  exact ⟨n, hn, LawfulSerialize.size_eq hn ▸ hbody⟩

theorem exact_sizedBuf {α : Type} [Serialize α] [LawfulSerialize α] {a : α} {n : NonZero} (hn : Serialize.size a = .ok n)
    (hlt : n.get < 2 ^ 63) : Exact (Serialize.size (SizedBuf.mk a)) fun k => k.get = (frame (enc a)).length := by
  have hlen : n.get = (enc a).length := LawfulSerialize.size_eq hn
  have hup := roundUp_lt n.get
  show Exact (do okOr zeroError ((Checked.add (← align (← Serialize.size a).get) PREFIX).bind NonZero.ofNat?)) _
  rw [hn, ok_bind, align_of_lt (by omega), ok_bind, PREFIX, add_of_lt (by omega), Option.bind_some]
  refine (exact_ofNat? _).mono fun k h => ?_
  rw [h, frame_length, hlen, Nat.add_comm]

theorem exact_sumSizes {ts : List Item} {c : Composite ts} (hc : Composite.Sized c) (total : Nat) :
    Exact (Composite.sumSizes c total) fun n => n = total + (Composite.image c).length := by
  induction c generalizing total with
  | nil => exact .ok rfl
  | cons b c ih =>
    obtain ⟨n, hn, hlt⟩ := hc.head
    refine (exact_sizedBuf hn hlt).bind fun k hk => ?_
    refine (exact_addOr total k.get).bind ?_
    rintro m ⟨rfl, -⟩
    refine (ih hc.tail _).mono fun n h => ?_
    rw [h, hk, Composite.image, List.length_append, Nat.add_assoc]

theorem exact_compositeSize {ts : List Item} {c : Composite ts} (hc : Composite.Sized c) :
    Exact (Serialize.size c) fun n => n.get = (Composite.image c).length := by
  refine (exact_sumSizes hc 0).bind ?_
  rintro n rfl
  exact (exact_ofNat? _).mono fun k h => by rw [h, Nat.zero_add]

theorem exact_accumulatorSize {fs : Fields} {a : Accumulator fs} (hc : Composite.Sized a.data) :
    Exact a.size fun n => n.get = (Composite.image a.data).length + 16 := by
  refine (exact_compositeSize hc).bind fun k hk => ?_
  have hmod := Composite.image_mod a.data
  have hround : roundUp k.get = k.get := roundUp_of_mod (by omega)
  rw [align_of_lt (by rw [hround]; exact k.lt), ok_bind, hround]
  by_cases h : k.get + 16 < 2 ^ 64
  · rw [add_of_lt h, Option.bind_some]
    exact (exact_ofNat? _).mono fun n hn => by rw [hn, hk]
  · rw [Checked.add, if_neg h]
    exact exact_number

/-! ## Wrapping -/

/-- What follows a rounded sum is reached unless the sum cannot be rounded. -/
theorem exact_after {α : Type} {P : α → Prop} {f : Nat → Res α} {g : Nat → Res Nat} {v : Nat → Nat}
    (hstuck : ∀ {n}, Unroundable n → g n = .error .panic) (hround : ∀ {n}, roundUp n < 2 ^ 64 → g n = .ok (v n)) (a b : Nat)
    (hf : Exact (f (v (a + b))) P) : Exact (do f (← g (← addOr a b))) P ↔ ¬ Unroundable (a + b) := by
  by_cases h : a + b < 2 ^ 64
  · rw [addOr_of_lt h, ok_bind]
    constructor
    · intro hexact hs
      rw [hstuck hs] at hexact
      exact not_exact_panic hexact
    · intro hs
      rwa [hround ((roundUp_lt_iff h).mpr hs), ok_bind]
  · rw [addOr_of_le (Nat.le_of_not_lt h)]
    exact iff_of_true exact_number fun hs => h hs.2

section
variable [Extern]

/-- The bytes of a binary segment at any position. -/
def Bin.wrapped (b : Bin) (o : Nat) : Bytes :=
  segment .binary b.data.length (Bytes.zeros (roundUp (o + 9) - (o + 9)) ++ b.data)

/-- The bytes of a data segment at any position. -/
def Accumulator.wrapped {fs : Fields} (a : Accumulator fs) (o : Nat) : Bytes :=
  segment .data ((Composite.image a.data).length + 16 + (roundUp (o + 25) - (o + 25)))
    (Bytes.leBytes 8 a.schema.offset ++ (Bytes.leBytes 8 (Composite.count a.data) ++
      (Bytes.zeros (roundUp (o + 25) - (o + 25)) ++ Composite.image a.data)))

theorem bin_wrap_exact_iff (b : Bin) (o : Nat) : Exact (wrap b o) (· = b.wrapped o) ↔ ¬ Unroundable (o + 9) := by
  refine exact_after pad_of_unroundable pad_of_lt o 9 ?_
  have hsize := exact_fixedSize b.data
  obtain ⟨size, hn, -⟩ | ⟨e, hn⟩ := hsize
  · rw [hn, ok_bind]
    refine (exact_addOr size.get 17).bind ?_
    rintro part ⟨rfl, -⟩
    refine (exact_addOr _ _).bind ?_
    rintro full ⟨rfl, -⟩
    rw [(bin_filled hn _).2]
    exact .ok rfl
  · rw [hn]
    exact exact_number

theorem data_wrap_exact_iff {fs : Fields} {a : Accumulator fs} (hc : Composite.Sized a.data) (o : Nat) :
    Exact (wrap a o) (· = a.wrapped o) ↔ ¬ Unroundable (o + 25) := by
  refine exact_after pad_of_unroundable pad_of_lt o 25 ?_
  obtain ⟨data, hdata, hlen⟩ | ⟨e, hdata⟩ := exact_compositeSize hc
  · refine (exact_accumulatorSize hc).bind fun body hbody => ?_
    refine (exact_addOr _ _).bind ?_
    rintro size ⟨rfl, -⟩
    refine (exact_addOr _ _).bind ?_
    rintro full ⟨rfl, -⟩
    rw [data_filled hdata _ _ (by rw [hbody, hlen])]
    exact .ok rfl
  · have hsize : a.size = .error (.error (.number e)) := by
      rw [Accumulator.size, hdata]
      rfl
    rw [hsize]
    exact exact_number

end

/-! ## Descriptors -/

/-- A region whose offset and size are any numbers. -/
abbrev Span := Nat × Nat

def Sector.span (s : Sector) : Span := (s.offset, s.size)

/-- A descriptor over any numbers. -/
inductive Descriptor
  | compact (buffer : Span) (count : Nat)
  | basic (buffer : Span) (count : Nat)
  | detailed (buffer : Span) (count : Nat) (min max : Span)

def Manifest.Buffer.numbers : Manifest.Buffer → Descriptor
  | .compact buffer count => .compact buffer.span count.get
  | .basic buffer count => .basic buffer.span count.get
  | .detailed buffer count min max => .detailed buffer.span count.get min.span max.span

namespace Unbounded

def relative (s : Span) (origin : Nat) : Span := (s.1 + origin, s.2)

def find {α : Type} (items : List (Option α)) (width : Nat) (cmp : α → α → Bool) : Option Span := do
  let best ← Sector.reduce (fun best next => if cmp next.2 best.2 then next else best) (Sector.present items)
  return (best.1 * width, width)

def vecFind {p : Prim} (items : List p.Val) (ord : Ordering) : Option Span :=
  find (items.map some) (Fixed.width p.Val) (cmp ord)

def optInSituFind {p : Niche} (acc : OptInSitu (Prim.niche p).Val) (ord : Ordering) : Option Span :=
  find acc.data (Fixed.width (Option (Prim.niche p).Val)) (cmp ord)

def optBitVecFind {p : Prim} (acc : OptBitVec (List p.Val)) (ord : Ordering) : Option Span := do
  return relative (← vecFind acc.data ord) ((frame (enc acc.mask)).length + PREFIX)

def basic (buffer : Span) (count : Nat) : Descriptor := .basic buffer count

def detail (find : Ordering → Option Span) (buffer : Span) (count : Nat) : Descriptor :=
  match find .lt, find .gt with
  | some min, some max => .detailed buffer count (relative min buffer.1) (relative max buffer.1)
  | _, _ => basic buffer count

/-- `Descriptor for` both accumulators of an item type. -/
def describe : (t : Item) → (RawAcc t.Val → Span → Nat → Descriptor) × (OptAcc t.Val → Span → Nat → Descriptor)
  | .bool => (fun _ => basic, fun _ => basic)
  | .prim (.plain _) => (fun acc => detail (vecFind acc), fun acc => detail (optBitVecFind acc))
  | .prim (.niche _) => (fun acc => detail (vecFind acc), fun acc => detail (optInSituFind acc))
  | .string => (fun _ => basic, fun _ => basic)
  | .option t => ((describe t).2, fun acc => (describe t).2 acc.inner)
  | .vec _ => (fun _ => basic, fun _ => basic)

/-- `Descriptor for Buffer`, where it holds anything. -/
def descriptor {t : Item} (b : Buffer t.Val) (buffer : Span) (count : Nat) : Option Descriptor :=
  match b with
  | .empty => none
  | .compact _ _ => some (.compact buffer count)
  | .many acc => some ((describe t).1 acc buffer count)

end Unbounded

/-- The searches of an accumulator with a size are those over any numbers. -/
def Searches {A : Type} [MinMax A] [Acc A] (find : A → Ordering → Option Span) : Prop :=
  ∀ {a : A} {n : NonZero}, Serialize.size a = .ok n → ∀ ord, (MinMax.find a ord).map Sector.span = find a ord

theorem find_span {α : Type} {items : List (Option α)} {width : Nat} (cmp : α → α → Bool) (hpos : 0 < width)
    (hlt : items.length * width < 2 ^ 64) :
    (Sector.find items width cmp).map Sector.span = Unbounded.find items width cmp := by
  unfold Sector.find Unbounded.find
  cases hbest : Sector.reduce (fun best next => if cmp next.2 best.2 then next else best) (Sector.present items) with
  | none => rfl
  | some best =>
    have hget := Sector.mem_present (Sector.reduce_mem (Sector.better_or cmp) hbest)
    have hindex : best.1 < items.length := (List.getElem?_eq_some_iff.mp hget).1
    have hend : (best.1 + 1) * width ≤ items.length * width := Nat.mul_le_mul_right width hindex
    rw [Nat.succ_mul] at hend
    rw [Option.bind_eq_bind, Option.bind_some, mul_of_lt (by omega), Option.bind_eq_bind, Option.bind_some,
      Sector.new_of_lt (by omega) hpos (by omega)]
    rfl

theorem vec_searches (p : Prim) : Searches (A := List p.Val) Unbounded.vecFind := by
  intro items n hn ord
  have hlt := n.lt
  rw [fixedSize_eq hn] at hlt
  exact find_span (cmp ord) Fixed.width_pos (by rwa [List.length_map])

theorem optInSitu_searches (p : Niche) : Searches (A := OptInSitu (Prim.niche p).Val) Unbounded.optInSituFind := by
  intro acc n hn ord
  have hlt := n.lt
  rw [fixedSize_eq (l := acc.data) hn] at hlt
  exact find_span (cmp ord) Fixed.width_pos hlt

theorem optBitVec_find_none {D : Type} [MinMax D] {acc : OptBitVec D} {ord : Ordering} (h : MinMax.find acc.data ord = none) :
    MinMax.find acc ord = none := by
  cases hfind : MinMax.find acc ord with
  | none => rfl
  | some s =>
    obtain ⟨-, t, -, ht, -⟩ := optBitVec_find_eq_some hfind
    rw [h] at ht
    cases ht

theorem optBitVec_searches (p : Prim) : Searches (A := OptBitVec (List p.Val)) Unbounded.optBitVecFind := by
  intro acc n hn ord
  obtain ⟨k, hk, hcase⟩ := partsSize_eq_ok hn
  have hmask : k.get = (frame (enc acc.mask)).length := LawfulSerialize.size_eq hk
  have hlt := n.lt
  rw [Unbounded.optBitVecFind]
  rcases hcase with ⟨he, -⟩ | ⟨-, m, hm, hsum⟩
  · have hnone : Unbounded.vecFind acc.data ord = none := by
      rw [List.isEmpty_iff.mp he]
      rfl
    rw [optBitVec_find_none (LawfulMinMax.find_empty ord he), hnone]
    rfl
  · obtain ⟨d, hd, hmd⟩ := sizedBuf_size_eq_ok hm
    rw [← vec_searches p hd ord]
    cases hs : MinMax.find acc.data ord with
    | none =>
      rw [optBitVec_find_none hs]
      rfl
    | some s =>
      have hle := LawfulMinMax.find_le hs hd
      have hup := le_roundUp d.get
      have horigin : acc.origin = .ok (k.get + 8) := by
        rw [OptBitVec.origin, hk, ok_bind, PREFIX, addOr_of_lt (by omega)]
      have hfind : MinMax.find acc ord = (s.relative (k.get + 8)).toOption := by
        show (acc.origin.toOption.bind fun o => (MinMax.find acc.data ord).bind fun s => (s.relative o).toOption) = _
        rw [horigin, hs]
        rfl
      rw [hfind, Sector.relative_of_lt (by omega)]
      exact congrArg (fun origin => some (s.offset + (origin + 8), s.size)) hmask

/-- A described accumulator with a size has the descriptor over any numbers, or a number is out of range. -/
def DescribesExact {A : Type} [Acc A] (describe : A → Span → Nat → Descriptor) : Prop :=
  ∀ (a : A) (buffer : Sector) (count : NonZero) {n : NonZero}, Serialize.size a = .ok n →
    Exact (Acc.describe a buffer count) fun desc => desc.numbers = describe a buffer.span count.get

theorem describes_basic {A : Type} [Acc A] (h : ∀ a : A, Acc.describe a = Msca.basic) :
    DescribesExact (A := A) fun _ => Unbounded.basic := by
  intro a buffer count n _
  rw [h a]
  exact .ok rfl

theorem describes_detail {A : Type} [MinMax A] [Acc A] {find : A → Ordering → Option Span} (hfind : Searches find)
    (h : ∀ a : A, Acc.describe a = Msca.detail a) : DescribesExact fun a : A => Unbounded.detail (find a) := by
  intro a buffer count n hn
  rw [h a]
  show Exact (Msca.detail a buffer count) fun desc => desc.numbers = Unbounded.detail (find a) buffer.span count.get
  rw [Msca.detail, Unbounded.detail, ← hfind hn .lt, ← hfind hn .gt]
  cases MinMax.find a .lt with
  | none => exact .ok rfl
  | some s =>
    refine (exact_relative s buffer.offset).bind fun min hmin => ?_
    cases MinMax.find a .gt with
    | none => exact .ok rfl
    | some t =>
      refine (exact_relative t buffer.offset).bind fun max hmax => .ok ?_
      have hmin : min.span = (s.offset + buffer.offset, s.size) := Prod.ext hmin.1 hmin.2
      have hmax : max.span = (t.offset + buffer.offset, t.size) := Prod.ext hmax.1 hmax.2
      rw [Manifest.Buffer.numbers, hmin, hmax]
      rfl

theorem Item.describes : (t : Item) →
    DescribesExact (A := RawAcc t.Val) (Unbounded.describe t).1 ∧ DescribesExact (A := OptAcc t.Val) (Unbounded.describe t).2
  | .bool => ⟨describes_basic (A := Bits) fun _ => rfl, describes_basic (A := OptBitVec Bits) fun _ => rfl⟩
  | .prim (.plain p) =>
    ⟨describes_detail (A := List (Prim.plain p).Val) (vec_searches (.plain p)) fun _ => rfl,
      describes_detail (A := OptBitVec (List (Prim.plain p).Val)) (optBitVec_searches (.plain p)) fun _ => rfl⟩
  | .prim (.niche p) =>
    ⟨describes_detail (A := List (Prim.niche p).Val) (vec_searches (.niche p)) fun _ => rfl,
      describes_detail (A := OptInSitu (Prim.niche p).Val) (optInSitu_searches p) fun _ => rfl⟩
  | .string => ⟨describes_basic (A := Seq Bytes) fun _ => rfl, describes_basic (A := OptSeq Bytes) fun _ => rfl⟩
  | .option t => ⟨t.describes.2, fun acc buffer count _ hn => t.describes.2 acc.inner buffer count hn⟩
  | .vec t =>
    ⟨describes_basic (A := Seq (RawAcc t.Val)) fun _ => rfl, describes_basic (A := OptSeq (RawAcc t.Val)) fun _ => rfl⟩

theorem exact_describe {t : Item} {b : Buffer t.Val} (buffer : Sector) (count : NonZero) {n : NonZero}
    (hn : Serialize.size b = .ok n) :
    Exact (b.describe buffer count) fun desc => some desc.numbers = Unbounded.descriptor b buffer.span count.get := by
  cases b with
  | empty => cases hn
  | compact item k => exact .ok rfl
  | many acc => exact (t.describes.1 acc buffer count hn).mono fun desc h => congrArg some h

/-! ## Registration -/

namespace Unbounded

/-- The ends of the bodies of the columns described from `offset` on. -/
def ends : {ts : List Item} → Composite ts → Nat → Nat → List Nat
  | _, .nil, _, _ => []
  | _, .cons _ _, _, 0 => []
  | _, .cons b c, offset, columns + 1 =>
    (offset + PREFIX + (enc b).length) :: ends c (roundUp (offset + PREFIX + (enc b).length)) columns

/-- `Describe::buffers` of a composite over that many columns. -/
def buffers : {ts : List Item} → Composite ts → Nat → Nat → Res Nat × List (Option Descriptor)
  | _, .nil, offset, _ => (.ok offset, [])
  | _, .cons _ _, _, 0 => (.error (.error (.schema .notFound)), [])
  | _, .cons b c, offset, columns + 1 =>
    let rest := buffers c (roundUp (offset + PREFIX + (enc b).length)) columns
    (rest.1, descriptor b (offset + PREFIX, (enc b).length) b.count :: rest.2)

theorem le_of_mem_ends {ts : List Item} {c : Composite ts} {offset columns x : Nat} (h : x ∈ ends c offset columns) :
    offset ≤ x := by
  induction c generalizing offset columns with
  | nil => cases h
  | cons b c ih =>
    cases columns with
    | zero => cases h
    | succ columns =>
      rcases List.mem_cons.mp h with rfl | h
      · omega
      · have hup := le_roundUp (offset + PREFIX + (enc b).length)
        have hle := ih h
        omega

theorem buffers_ne_panic {ts : List Item} (c : Composite ts) (offset columns : Nat) :
    (buffers c offset columns).1 ≠ .error .panic := by
  induction c generalizing offset columns with
  | nil => simp [buffers]
  | cons b c ih =>
    cases columns with
    | zero => simp [buffers]
    | succ columns => exact ih _ _

end Unbounded

/-- The columns with one descriptor inserted in each as far as these go. -/
def insertEach : List Column → List Manifest.Buffer → List Column
  | column :: columns, desc :: descs => column.insert desc :: insertEach columns descs
  | columns, _ => columns

theorem insertEach_nil (columns : List Column) : insertEach columns [] = columns := by
  cases columns <;> rfl

theorem exact_descriptor {t : Item} {b : Buffer t.Val} {n : NonZero} (hn : Serialize.size b = .ok n) (offset : Nat) :
    Exact (b.descriptor offset) fun r => r.1.offset = offset + PREFIX ∧ r.1.size = n.get ∧
      some r.2.numbers = Unbounded.descriptor b (offset + PREFIX, (enc b).length) b.count := by
  have hlen : n.get = (enc b).length := LawfulSerialize.size_eq hn
  refine (exact_addOr offset PREFIX).bind ?_
  rintro start ⟨rfl, -⟩
  rw [hn, ok_bind]
  refine (exact_new _ n.get).bind ?_
  rintro sector ⟨hoffset, hsize⟩
  have hspan : sector.span = (offset + PREFIX, (enc b).length) := Prod.ext hoffset (hsize.trans hlen)
  refine (exact_nonZero b.count).bind fun count hcount => ?_
  refine (exact_describe sector count hn).bind fun desc hdesc => .ok ⟨hoffset, hsize, ?_⟩
  rw [hdesc, hspan, hcount]

section Buffers
variable {t : Item} {b : Buffer t.Val} {n : NonZero} {offset : Nat}

theorem buffer_overflow (hn : Serialize.size b = .ok n) (column : Column) (h : 2 ^ 64 ≤ offset + PREFIX + (enc b).length) :
    ∃ e, (b.buffers offset column).1 = .error (.error (.number e)) := by
  have hlen : n.get = (enc b).length := LawfulSerialize.size_eq hn
  rw [Buffer.buffers]
  obtain ⟨⟨s, desc⟩, hdesc, hoffset, hsize, -⟩ | ⟨e, hdesc⟩ := exact_descriptor hn offset
  · have hoffset : s.offset = offset + PREFIX := hoffset
    have hsize : s.size = n.get := hsize
    have hnext : s.next = none := if_neg (by omega)
    rw [hdesc]
    dsimp only
    rw [hnext]
    exact ⟨.zero, rfl⟩
  · rw [hdesc]
    exact ⟨e, rfl⟩

/-- A body inside the words is described, and the position after it rounded up. -/
theorem buffer_described (hn : Serialize.size b = .ok n) (hpos : 0 < b.count) (hcount : b.count < 2 ^ 64) (column : Column)
    (h : offset + PREFIX + (enc b).length < 2 ^ 64) :
    ∃ desc, b.buffers offset column = (align (offset + PREFIX + (enc b).length), column.insert desc) ∧
      some desc.numbers = Unbounded.descriptor b (offset + PREFIX, (enc b).length) b.count := by
  have hlen : n.get = (enc b).length := LawfulSerialize.size_eq hn
  obtain ⟨s, desc, hdesc, hoffset, hsize, -⟩ := t.buffer_descriptor offset hn (hlen ▸ h) hpos hcount
  have hexact := exact_descriptor hn offset
  rw [hdesc] at hexact
  obtain ⟨r, hr, -, -, hnumbers⟩ | ⟨e, hr⟩ := hexact
  · cases hr
    refine ⟨desc, ?_, hnumbers⟩
    have hnext : s.next = some (offset + PREFIX + (enc b).length) := by
      rw [Sector.next_of_lt (by rw [hoffset, hsize, hlen]; exact h), hoffset, hsize, hlen, PREFIX]
    rw [Buffer.buffers, hdesc]
    dsimp only
    rw [hnext, okOr_some, ok_bind]
  · cases hr

end Buffers

/-- The walk ends as the one over any numbers does and inserts its descriptors, or it reports a number error. -/
def BuffersExact (r : Res Nat × List Column) (columns : List Column) (walk : Res Nat × List (Option Descriptor)) : Prop :=
  (r.1 = walk.1 ∧ ∃ descs, descs.map (fun desc => some desc.numbers) = walk.2 ∧ r.2 = insertEach columns descs) ∨
    ∃ e, r.1 = .error (.error (.number e))

section Composite
variable {ts : List Item} {c : Composite ts} {k : Nat}

theorem buffers_panic (hc : c.Sized) (hstep : c.Lockstep k) (hpos : 0 < k) (hk : k < 2 ^ 64) (offset : Nat)
    (columns : List Column) (h : ∃ x ∈ Unbounded.ends c offset columns.length, Unroundable x) :
    (Composite.buffers c offset columns).1 = .error .panic := by
  induction c generalizing offset columns with
  | nil =>
    obtain ⟨x, hx, -⟩ := h
    cases hx
  | cons b c ih =>
    cases columns with
    | nil =>
      obtain ⟨x, hx, -⟩ := h
      cases hx
    | cons column columns =>
      obtain ⟨n, hn, -⟩ := hc.head
      obtain ⟨x, hx, hstuck⟩ := h
      rw [List.length_cons, Unbounded.ends] at hx
      have hup := le_roundUp (offset + PREFIX + (enc b).length)
      have hlt : offset + PREFIX + (enc b).length < 2 ^ 64 := by
        rcases List.mem_cons.mp hx with rfl | hx
        · exact hstuck.2
        · have hle := Unbounded.le_of_mem_ends hx
          have hxlt := hstuck.2
          omega
      obtain ⟨desc, hhead, -⟩ := buffer_described hn (by rw [hstep.head]; exact hpos) (by rw [hstep.head]; exact hk)
        column hlt
      rw [Composite.buffers, hhead]
      rcases List.mem_cons.mp hx with rfl | hx
      · rw [align_of_unroundable hstuck]
      · have hle := Unbounded.le_of_mem_ends hx
        have hxlt := hstuck.2
        rw [align_of_lt (by omega)]
        exact ih hc.tail hstep.tail _ columns ⟨x, hx, hstuck⟩

theorem buffers_exact (hc : c.Sized) (hstep : c.Lockstep k) (hpos : 0 < k) (hk : k < 2 ^ 64) (offset : Nat)
    (columns : List Column) (h : ∀ x ∈ Unbounded.ends c offset columns.length, ¬ Unroundable x) :
    BuffersExact (Composite.buffers c offset columns) columns (Unbounded.buffers c offset columns.length) := by
  induction c generalizing offset columns with
  | nil => exact Or.inl ⟨rfl, [], rfl, (insertEach_nil columns).symm⟩
  | cons b c ih =>
    cases columns with
    | nil => exact Or.inl ⟨rfl, [], rfl, rfl⟩
    | cons column columns =>
      obtain ⟨n, hn, -⟩ := hc.head
      rw [List.length_cons, Unbounded.ends] at h
      by_cases hlt : offset + PREFIX + (enc b).length < 2 ^ 64
      · have hround := (roundUp_lt_iff hlt).mpr (h _ List.mem_cons_self)
        obtain ⟨desc, hhead, hnumbers⟩ := buffer_described hn (by rw [hstep.head]; exact hpos)
          (by rw [hstep.head]; exact hk) column hlt
        rw [align_of_lt hround] at hhead
        rw [Composite.buffers, hhead]
        have htail := ih hc.tail hstep.tail (roundUp (offset + PREFIX + (enc b).length)) columns fun x hx =>
          h x (List.mem_cons_of_mem _ hx)
        obtain ⟨hend, descs, hdescs, hcolumns⟩ | ⟨e, he⟩ := htail
        · refine Or.inl ⟨hend, desc :: descs, ?_, ?_⟩
          · rw [List.map_cons, hdescs, hnumbers]
            rfl
          · exact congrArg (column.insert desc :: ·) hcolumns
        · exact Or.inr ⟨e, he⟩
      · obtain ⟨e, he⟩ := buffer_overflow hn column (Nat.le_of_not_lt hlt)
        refine Or.inr ⟨e, ?_⟩
        rw [Composite.buffers]
        cases hhead : b.buffers offset column with
        | mk next column' =>
          rw [hhead] at he
          cases he
          rfl

theorem not_buffersExact_panic {r : Res Nat × List Column} (columns : List Column) (offset count : Nat)
    (h : r.1 = .error .panic) : ¬ BuffersExact r columns (Unbounded.buffers c offset count) := by
  rintro (⟨heq, -⟩ | ⟨e, he⟩)
  · exact Unbounded.buffers_ne_panic c offset count (heq ▸ h)
  · rw [h] at he
    cases he

end Composite

theorem payload_exact_iff (s : Sector) (header : Nat) :
    Exact (payload s header) (fun n => n + HEADER = roundUp (s.offset + header)) ↔ ¬ Unroundable (s.offset + header) :=
  exact_after align_of_unroundable align_of_lt s.offset header (exact_subOr _ HEADER)

theorem payload_of_unroundable {s : Sector} {header : Nat} (h : Unroundable (s.offset + header)) :
    payload s header = .error .panic := by
  rw [payload, addOr_of_lt h.2, ok_bind, align_of_unroundable h]
  rfl

/-- The registered sector of a binary segment is the one over any numbers, or a number is out of range. -/
def Bin.Registers (b : Bin) (s : Sector) (m : Manifest) : Prop :=
  (∃ sector, register b s m = (.ok (), { m with bins := m.bins.insertVacant b.name sector }) ∧
    sector.offset + HEADER = roundUp (s.offset + 9) ∧ sector.size = b.data.length) ∨
    ∃ e, (register b s m).1 = .error (.error (.number e))

theorem bin_registers_iff (b : Bin) (s : Sector) (m : Manifest) : b.Registers s m ↔ ¬ Unroundable (s.offset + 9) := by
  constructor
  · intro h hstuck
    have hsector : b.sector s = .error .panic := by
      rw [Bin.sector, Segment.HEADER, payload_of_unroundable hstuck]
      rfl
    have hpanic : (register b s m).1 = .error .panic := by simp only [register, hsector]
    obtain ⟨sector, hreg, -⟩ | ⟨e, he⟩ := h
    · rw [hreg] at hpanic
      cases hpanic
    · rw [hpanic] at he
      cases he
  · intro hs
    have hsector : Exact (b.sector s) fun sector =>
        sector.offset + HEADER = roundUp (s.offset + 9) ∧ sector.size = b.data.length := by
      refine ((payload_exact_iff s 9).mpr hs).bind fun n hn => ?_
      refine (exact_new n b.data.length).mono ?_
      rintro sector ⟨rfl, hsize⟩
      exact ⟨hn, hsize⟩
    obtain ⟨sector, hsector, hoffset, hsize⟩ | ⟨e, hsector⟩ := hsector
    · exact Or.inl ⟨sector, by simp only [register, hsector], hoffset, hsize⟩
    · exact Or.inr ⟨e, by simp only [register, hsector]⟩

/-- The registered columns are those of the walk over any numbers, or a number is out of range. -/
def Accumulator.Registers {fs : Fields} (a : Accumulator fs) (s : Sector) (e : Manifest.Schema) : Prop :=
  let walk := Unbounded.buffers a.data (roundUp (s.offset + 25) - Msca.HEADER) e.columns.values.length
  ((a.registerIn s e).1 = (fun _ => ()) <$> walk.1 ∧ ∃ descs, descs.map (fun desc => some desc.numbers) = walk.2 ∧
    (a.registerIn s e).2 = { e with columns := e.columns.withValues (insertEach e.columns.values descs) }) ∨
    ∃ e', (a.registerIn s e).1 = .error (.error (.number e'))

/-- Every position rounded up on the way can be. -/
def Accumulator.Roundable {fs : Fields} (a : Accumulator fs) (s : Sector) (e : Manifest.Schema) : Prop :=
  s.offset + 25 < 2 ^ 64 → ¬ Unroundable (s.offset + 25) ∧
    ∀ x ∈ Unbounded.ends a.data (roundUp (s.offset + 25) - Msca.HEADER) e.columns.values.length, ¬ Unroundable x

section Data
variable {fs : Fields} {a : Accumulator fs} {s : Sector} {e : Manifest.Schema}

theorem registerIn_error {f : Fault} (h : payload s 25 = .error f) : a.registerIn s e = (.error f, e) := by
  rw [Accumulator.registerIn, Accumulator.HEADER, h]

theorem registerIn_ok {offset : Nat} (h : payload s 25 = .ok offset) :
    a.registerIn s e = ((fun _ => ()) <$> (Composite.buffers a.data offset e.columns.values).1,
      { e with columns := e.columns.withValues (Composite.buffers a.data offset e.columns.values).2 }) := by
  rw [Accumulator.registerIn, Accumulator.HEADER, h]

theorem not_registers_panic (h : (a.registerIn s e).1 = .error .panic) : ¬ a.Registers s e := by
  rintro (⟨heq, -⟩ | ⟨e', he⟩)
  · rw [h] at heq
    cases hwalk : (Unbounded.buffers a.data (roundUp (s.offset + 25) - HEADER) e.columns.values.length).1 with
    | ok offset =>
      rw [hwalk] at heq
      cases heq
    | error f =>
      rw [hwalk] at heq
      cases heq
      exact Unbounded.buffers_ne_panic _ _ _ hwalk
  · rw [h] at he
    cases he

theorem data_registers_iff {k : Nat} (hc : Composite.Sized a.data) (hstep : a.data.Lockstep k) (hpos : 0 < k)
    (hk : k < 2 ^ 64) : a.Registers s e ↔ a.Roundable s e := by
  by_cases hlt : s.offset + 25 < 2 ^ 64
  · by_cases hstuck : Unroundable (s.offset + 25)
    · have hpanic : (a.registerIn s e).1 = .error .panic := by rw [registerIn_error (payload_of_unroundable hstuck)]
      exact iff_of_false (not_registers_panic hpanic) fun h => (h hlt).1 hstuck
    · have hup := le_roundUp (s.offset + 25)
      have hround := (roundUp_lt_iff hlt).mpr hstuck
      have hpayload : payload s 25 = .ok (roundUp (s.offset + 25) - HEADER) := by
        rw [payload, addOr_of_lt hlt, ok_bind, align_of_lt hround, ok_bind, HEADER, subOr_of_le (by omega)]
      by_cases hends : ∃ x ∈ Unbounded.ends a.data (roundUp (s.offset + 25) - HEADER) e.columns.values.length, Unroundable x
      · have hwalk := buffers_panic hc hstep hpos hk _ e.columns.values hends
        have hpanic : (a.registerIn s e).1 = .error .panic := by
          rw [registerIn_ok hpayload, hwalk]
          rfl
        obtain ⟨x, hx, hxs⟩ := hends
        exact iff_of_false (not_registers_panic hpanic) fun h => (h hlt).2 x hx hxs
      · have hends : ∀ x ∈ Unbounded.ends a.data (roundUp (s.offset + 25) - HEADER) e.columns.values.length, ¬ Unroundable x :=
          fun x hx hxs => hends ⟨x, hx, hxs⟩
        refine iff_of_true ?_ fun _ => ⟨hstuck, hends⟩
        rw [Accumulator.Registers, registerIn_ok hpayload]
        obtain ⟨hend, descs, hdescs, hcolumns⟩ | ⟨e', he⟩ := buffers_exact hc hstep hpos hk _ e.columns.values hends
        · exact Or.inl ⟨congrArg (fun r : Res Nat => (fun _ => ()) <$> r) hend, descs, hdescs, by rw [hcolumns]⟩
        · refine Or.inr ⟨e', ?_⟩
          dsimp only
          rw [he]
          rfl
  · refine iff_of_true ?_ fun h => absurd h hlt
    have hpayload : payload s 25 = .error zeroError := by
      rw [payload, addOr_of_le (Nat.le_of_not_lt hlt)]
      rfl
    exact Or.inr ⟨.zero, by rw [registerIn_error hpayload]⟩

end Data

theorem buffers_exact_iff {ts : List Item} {c : Composite ts} {k : Nat} (hc : c.Sized) (hstep : c.Lockstep k) (hpos : 0 < k)
    (hk : k < 2 ^ 64) (offset : Nat) (columns : List Column) :
    BuffersExact (Composite.buffers c offset columns) columns (Unbounded.buffers c offset columns.length) ↔
      ∀ x ∈ Unbounded.ends c offset columns.length, ¬ Unroundable x := by
  constructor
  · intro h x hx hstuck
    exact not_buffersExact_panic columns offset columns.length (buffers_panic hc hstep hpos hk offset columns ⟨x, hx, hstuck⟩) h
  · exact buffers_exact hc hstep hpos hk offset columns

section
variable [Extern]

/-- The arithmetic of the write path is exact but where a word has no multiple of eight above it among the words. -/
theorem write_path_exact_iff (n o : U64) (s : Sector) (b : Bin) (m : Manifest) {fs : Fields} (a : Accumulator fs)
    (rows : List (Row fs.types)) (e : Manifest.Schema) (columns : List Column) (hdata : a.data = Composite.collect rows)
    (hne : rows ≠ []) (hcount : rows.length < 2 ^ 64) (hmem : ∀ j, (enc (a.data.get j)).length < 2 ^ 63) :
    (Exact (align n.val) (· = roundUp n.val) ↔ ¬ Unroundable n.val) ∧
    (Exact (pad n.val) (· = roundUp n.val - n.val) ↔ ¬ Unroundable n.val) ∧
    (Exact (wrap b o.val) (· = b.wrapped o.val) ↔ ¬ Unroundable (o.val + 9)) ∧
    (Exact (wrap a o.val) (· = a.wrapped o.val) ↔ ¬ Unroundable (o.val + 25)) ∧
    (b.Registers s m ↔ ¬ Unroundable (s.offset + 9)) ∧
    (a.Registers s e ↔ a.Roundable s e) ∧
    (BuffersExact (Composite.buffers a.data o.val columns) columns (Unbounded.buffers a.data o.val columns.length) ↔
      ∀ x ∈ Unbounded.ends a.data o.val columns.length, ¬ Unroundable x) := by
  have hc : Composite.Sized a.data := by
    rw [hdata] at hmem ⊢
    exact Composite.sized_collect hne hmem
  have hstep : a.data.Lockstep rows.length := by
    rw [hdata]
    exact Composite.lockstep_collect rows
  have hpos := List.length_pos_iff.mpr hne
  exact ⟨align_exact_iff n.lt, pad_exact_iff n.lt, bin_wrap_exact_iff b o.val, data_wrap_exact_iff hc o.val,
    bin_registers_iff b s m, data_registers_iff hc hstep hpos hcount, buffers_exact_iff hc hstep hpos hcount o.val columns⟩

end

section
attribute [local instance] reference

theorem write_path_exact_iff_flagged :
    Exact (wrap noteBin 24) (· = noteBin.wrapped 24) ∧ Exact (wrap flaggedAcc 24) (· = flaggedAcc.wrapped 24) ∧
      flaggedAcc.Registers ⟨24, 104, by decide, by decide, by decide⟩ flaggedSchema := by
  have hmem : ∀ j, (enc (flaggedAcc.data.get j)).length < 2 ^ 63 := by decide +kernel
  have h := write_path_exact_iff ⟨24, by decide⟩ ⟨24, by decide⟩ ⟨24, 104, by decide, by decide, by decide⟩ noteBin
    Manifest.default flaggedAcc flaggedRows flaggedSchema [] rfl (by simp [flaggedRows]) (by decide) hmem
  refine ⟨h.2.2.1.mpr (by decide), h.2.2.2.1.mpr (by decide), h.2.2.2.2.2.1.mpr fun _ => ⟨by decide, ?_⟩⟩
  decide +kernel

/-- A segment that starts sixteen bytes below the end of the words, and the last word rounded up. -/
theorem not_exact_at_end : ¬ Exact (wrap noteBin (2 ^ 64 - 16)) (· = noteBin.wrapped (2 ^ 64 - 16)) ∧
    ¬ Exact (align (2 ^ 64 - 1)) (· = roundUp (2 ^ 64 - 1)) := by
  refine ⟨fun h => (bin_wrap_exact_iff noteBin _).mp h ⟨by decide, by decide⟩, fun h => ?_⟩
  exact (align_exact_iff (by decide)).mp h ⟨by decide, by decide⟩

end

end Msca
