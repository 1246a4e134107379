import Msca.Composite

/-! Descriptors of buffers. An accumulator that fits the file at some offset can be described there,
and the descriptor records the sector and the count it was given. -/
namespace Msca
set_option autoImplicit false
open Checked

/-! ## Located items -/

namespace Sector
variable {α : Type}

theorem mem_present {items : List (Option α)} {i : Nat} {a : α} (h : (i, a) ∈ present items) :
    items[i]? = some (some a) := by
  obtain ⟨⟨o, k⟩, hmem, hmap⟩ := List.mem_filterMap.mp h
  obtain ⟨b, hb, heq⟩ := Option.map_eq_some_iff.mp hmap
  have hk := List.mem_zipIdx_iff_getElem?.mp hmem
  cases heq
  rw [hk]
  exact congrArg some hb

theorem reduce_mem {f : α → α → α} (hf : ∀ a b, f a b = a ∨ f a b = b) {l : List α} {a : α}
    (h : reduce f l = some a) : a ∈ l := by
  cases l with
  | nil => cases h
  | cons b l =>
    cases h
    induction l generalizing b with
    | nil => exact List.mem_cons_self
    | cons c l ih =>
      rw [List.foldl_cons]
      rcases List.mem_cons.mp (ih (f b c)) with hhead | htail
      · rw [hhead]
        rcases hf b c with h | h
        · rw [h]
          exact List.mem_cons_self
        · rw [h]
          exact List.mem_cons_of_mem _ List.mem_cons_self
      · exact List.mem_cons_of_mem _ (List.mem_cons_of_mem _ htail)

/-- The better of two located items. -/
def better (cmp : α → α → Bool) (best next : Nat × α) : Nat × α := if cmp next.2 best.2 then next else best

theorem better_or (cmp : α → α → Bool) (a b : Nat × α) : better cmp a b = a ∨ better cmp a b = b := by
  unfold better
  split
  · exact Or.inr rfl
  · exact Or.inl rfl

theorem find_eq_some {items : List (Option α)} {width : Nat} {cmp : α → α → Bool} {s : Sector}
    (h : find items width cmp = some s) : ∃ best, reduce (better cmp) (present items) = some best ∧
      items[best.1]? = some (some best.2) ∧ s.offset = best.1 * width ∧ s.size = width := by
  obtain ⟨best, hbest, h⟩ := Option.bind_eq_some_iff.mp h
  obtain ⟨offset, hoffset, h⟩ := Option.bind_eq_some_iff.mp h
  obtain ⟨-, rfl⟩ := mul_eq_some.mp hoffset
  have hnew : new (best.1 * width) width = .ok s := by
    cases hn : new (best.1 * width) width with
    | error e =>
      rw [hn] at h
      cases h
    | ok t =>
      rw [hn] at h
      exact congrArg Except.ok (Option.some.inj h)
  refine ⟨best, hbest, mem_present ?_, new_eq_ok hnew⟩
  exact reduce_mem (better_or cmp) hbest

theorem find_le {items : List (Option α)} {width : Nat} {cmp : α → α → Bool} {s : Sector}
    (h : find items width cmp = some s) : s.offset + s.size ≤ items.length * width := by
  obtain ⟨best, -, hget, hoffset, hsize⟩ := find_eq_some h
  have hlt : best.1 < items.length := by
    by_contra hge
    rw [List.getElem?_eq_none (by omega)] at hget
    cases hget
  rw [hoffset, hsize, ← Nat.succ_mul]
  exact Nat.mul_le_mul_right width hlt

end Sector

/-! ## Laws of description -/

/-- Statistics lie inside the bytes of the accumulator. -/
class LawfulMinMax (A : Type) [MinMax A] [Acc A] : Prop where
  find_empty : ∀ {a : A} (ord : Ordering), Acc.isEmpty a = true → MinMax.find a ord = none
  find_le : ∀ {a : A} {ord : Ordering} {s : Sector} {n : NonZero}, MinMax.find a ord = some s →
    Serialize.size a = .ok n → s.offset + s.size ≤ n.get

class LawfulDescribe (A : Type) [Acc A] : Prop where
  describe_ok : ∀ {a : A} {n : NonZero} (buffer : Sector) (count : NonZero), Serialize.size a = .ok n →
    buffer.offset + n.get < 2 ^ 64 →
      ∃ desc, Acc.describe a buffer count = .ok desc ∧ desc.sector = buffer ∧ desc.count = count.get
  describe_eq : ∀ {a : A} {buffer : Sector} {count : NonZero} {desc : Manifest.Buffer},
    Acc.describe a buffer count = .ok desc → desc = .basic buffer count ∨ ∃ min max, desc = .detailed buffer count min max

theorem basic_ok (buffer : Sector) (count : NonZero) :
    ∃ desc, basic buffer count = .ok desc ∧ desc.sector = buffer ∧ desc.count = count.get :=
  ⟨_, rfl, rfl, rfl⟩

theorem detail_ok {A : Type} [MinMax A] [Acc A] [LawfulMinMax A] {a : A}
    {n : NonZero} {buffer : Sector} (count : NonZero) (hsize : Serialize.size a = .ok n)
    (hlt : buffer.offset + n.get < 2 ^ 64) :
    ∃ desc, detail a buffer count = .ok desc ∧ desc.sector = buffer ∧ desc.count = count.get := by
  unfold detail
  cases hmin : MinMax.find a .lt with
  | none => exact basic_ok buffer count
  | some s =>
    have hs := LawfulMinMax.find_le hmin hsize
    dsimp only
    rw [Sector.relative_of_lt (by omega), ok_bind]
    cases hmax : MinMax.find a .gt with
    | none => exact basic_ok buffer count
    | some t =>
      have ht := LawfulMinMax.find_le hmax hsize
      dsimp only
      rw [Sector.relative_of_lt (by omega), ok_bind]
      exact ⟨_, rfl, rfl, rfl⟩

theorem detail_eq_ok {A : Type} [MinMax A] {a : A} {buffer : Sector} {count : NonZero} {desc : Manifest.Buffer}
    (h : detail a buffer count = .ok desc) : desc = .basic buffer count ∨
      ∃ s t min max, MinMax.find a .lt = some s ∧ MinMax.find a .gt = some t ∧ s.relative buffer.offset = .ok min ∧
        t.relative buffer.offset = .ok max ∧ desc = .detailed buffer count min max := by
  unfold detail at h
  cases hmin : MinMax.find a .lt with
  | none =>
    rw [hmin] at h
    exact Or.inl (Except.ok.inj h).symm
  | some s =>
    rw [hmin] at h
    dsimp only at h
    obtain ⟨min, hs, h⟩ := bind_eq_ok.mp h
    cases hmax : MinMax.find a .gt with
    | none =>
      rw [hmax] at h
      exact Or.inl (Except.ok.inj h).symm
    | some t =>
      rw [hmax] at h
      dsimp only at h
      obtain ⟨max, ht, h⟩ := bind_eq_ok.mp h
      exact Or.inr ⟨s, t, min, max, rfl, rfl, hs, ht, (Except.ok.inj h).symm⟩

theorem fixedSize_eq {α : Type} [Fixed α] {l : List α} {n : NonZero} (h : Serialize.size l = .ok n) :
    n.get = l.length * Fixed.width α := by
  rw [(vecSize_eq_ok h).1, encAll_length]

instance {α : Type} [Primitive α] : LawfulMinMax (List α) where
  find_empty := by
    intro items ord h
    rw [List.isEmpty_iff.mp h]
    rfl
  find_le := by
    intro items ord s n hfind hsize
    have hle := Sector.find_le hfind
    rw [List.length_map] at hle
    rwa [fixedSize_eq hsize]

instance {α : Type} [Primitive α] [Fixed (Option α)] : LawfulMinMax (OptInSitu α) where
  find_empty := by
    intro acc ord h
    change Sector.find acc.data _ _ = none
    rw [List.isEmpty_iff.mp h]
    rfl
  find_le := by
    intro acc ord s n hfind hsize
    rw [fixedSize_eq (l := acc.data) hsize]
    exact Sector.find_le hfind

theorem toOption_eq_some {α : Type} {r : Res α} {a : α} (h : r.toOption = some a) : r = .ok a := by
  cases r with
  | error e => cases h
  | ok b => exact congrArg Except.ok (Option.some.inj h)

theorem optBitVec_find_eq_some {D : Type} [MinMax D] {acc : OptBitVec D} {ord : Ordering} {s : Sector}
    (h : MinMax.find acc ord = some s) : ∃ mask t, Serialize.size (SizedBuf.mk acc.mask) = .ok mask ∧
      MinMax.find acc.data ord = some t ∧ s.offset = t.offset + (mask.get + 8) ∧ s.size = t.size := by
  obtain ⟨origin, horigin, h⟩ := Option.bind_eq_some_iff.mp h
  obtain ⟨t, ht, h⟩ := Option.bind_eq_some_iff.mp h
  obtain ⟨mask, hmask, horigin⟩ := bind_eq_ok.mp (toOption_eq_some horigin)
  obtain ⟨-, rfl⟩ := addOr_eq_ok.mp horigin
  obtain ⟨-, hoffset, hsize⟩ := Sector.relative_eq_ok (toOption_eq_some h)
  exact ⟨mask, t, hmask, ht, hoffset, hsize⟩

instance {α : Type} [Primitive α] : LawfulMinMax (OptBitVec (List α)) where
  find_empty := by
    intro acc ord h
    cases hfind : MinMax.find acc ord with
    | none => rfl
    | some s =>
      obtain ⟨-, t, -, ht, -⟩ := optBitVec_find_eq_some hfind
      have hdata := LawfulMinMax.find_empty (a := acc.data) ord (Bool.and_eq_true_iff.mp h).2
      rw [hdata] at ht
      cases ht
  find_le := by
    intro acc ord s n hfind hsize
    obtain ⟨mask, t, hmask, ht, hoffset, hwidth⟩ := optBitVec_find_eq_some hfind
    obtain ⟨k, hk, ⟨he, -⟩ | ⟨-, m, hm, hn⟩⟩ := partsSize_eq_ok hsize
    · rw [LawfulMinMax.find_empty ord he] at ht
      cases ht
    · obtain ⟨d, hd, hm⟩ := sizedBuf_size_eq_ok hm
      have hle := LawfulMinMax.find_le ht hd
      have hup := le_roundUp d.get
      have hmk : mask = k := Except.ok.inj (hmask.symm.trans hk)
      rw [hoffset, hwidth, hmk]
      omega

theorem lawfulDescribe_basic {A : Type} [Acc A] (h : ∀ a : A, Acc.describe a = basic) : LawfulDescribe A where
  describe_ok := by
    intro a n buffer count _ _
    rw [h a]
    exact basic_ok buffer count
  describe_eq := by
    intro a buffer count desc hdesc
    rw [h a] at hdesc
    exact Or.inl (Except.ok.inj hdesc).symm

theorem lawfulDescribe_detail {A : Type} [MinMax A] [Acc A] [LawfulMinMax A]
    (h : ∀ a : A, Acc.describe a = detail a) : LawfulDescribe A where
  describe_ok := by
    intro a n buffer count hsize hlt
    rw [h a]
    exact detail_ok count hsize hlt
  describe_eq := by
    intro a buffer count desc hdesc
    rw [h a] at hdesc
    exact (detail_eq_ok hdesc).imp_right fun ⟨_, _, min, max, _, _, _, _, heq⟩ => ⟨min, max, heq⟩

/-- Both accumulators of every item type can be described. -/
theorem Item.lawfulDescribe : (t : Item) → LawfulDescribe (RawAcc t.Val) ∧ LawfulDescribe (OptAcc t.Val)
  | .bool =>
    ⟨lawfulDescribe_basic (A := Bits) fun _ => rfl, lawfulDescribe_basic (A := OptBitVec Bits) fun _ => rfl⟩
  | .prim (.plain p) =>
    ⟨lawfulDescribe_detail (A := List (Prim.plain p).Val) fun _ => rfl,
      lawfulDescribe_detail (A := OptBitVec (List (Prim.plain p).Val)) fun _ => rfl⟩
  | .prim (.niche p) =>
    ⟨lawfulDescribe_detail (A := List (Prim.niche p).Val) fun _ => rfl,
      lawfulDescribe_detail (A := OptInSitu (Prim.niche p).Val) fun _ => rfl⟩
  | .string =>
    ⟨lawfulDescribe_basic (A := Seq Bytes) fun _ => rfl, lawfulDescribe_basic (A := OptSeq Bytes) fun _ => rfl⟩
  | .option t => ⟨t.lawfulDescribe.2, ⟨t.lawfulDescribe.2.describe_ok, t.lawfulDescribe.2.describe_eq⟩⟩
  | .vec t =>
    ⟨lawfulDescribe_basic (A := Seq (RawAcc t.Val)) fun _ => rfl,
      lawfulDescribe_basic (A := OptSeq (RawAcc t.Val)) fun _ => rfl⟩

theorem Item.buffer_descriptor (t : Item) {b : Buffer t.Val} (offset : Nat) {n : NonZero}
    (hsize : Serialize.size b = .ok n) (hlt : offset + 8 + n.get < 2 ^ 64) (hpos : 0 < b.count)
    (hcount : b.count < 2 ^ 64) :
    ∃ s desc, b.descriptor offset = .ok (s, desc) ∧ s.offset = offset + 8 ∧ s.size = n.get ∧
      desc.sector = s ∧ desc.count = b.count := by
  have hn := n.pos
  have hlt' := n.lt
  let s : Sector := ⟨offset + 8, n.get, by omega, hn, hlt'⟩
  have hdesc : ∃ desc, b.describe s ⟨b.count, hpos, hcount⟩ = .ok desc ∧ desc.sector = s ∧
      desc.count = b.count := by
    cases b with
    | empty => cases hsize
    | compact item count => exact ⟨_, rfl, rfl, rfl⟩
    | many acc => exact t.lawfulDescribe.1.describe_ok s ⟨_, hpos, hcount⟩ hsize hlt
  obtain ⟨desc, hd, hsector, hc⟩ := hdesc
  refine ⟨s, desc, ?_, rfl, rfl, hsector, hc⟩
  rw [Buffer.descriptor, PREFIX, addOr_of_lt (by omega), ok_bind, hsize, ok_bind,
    Sector.new_of_lt (by omega) hn hlt', ok_bind, NonZero.ofNat?_of_lt hpos hcount, okOr_some, ok_bind, hd]
  rfl

end Msca
