import Msca.Source

/-! Compaction. A buffer keeps one item for as long as every push repeats it, and what is read back from
the single item is what would have been read from all of them. -/
namespace Msca
set_option autoImplicit false
open Checked

/-! ## Runs of a buffer -/

/-- A call of `Accumulate::push` or `Accumulate::discard`. -/
inductive Buffer.Op (I : Type)
  | push (item : I)
  | discard

namespace Buffer
variable {I : Type} [Unfold I] [BitMatch I]

def step (b : Buffer I) : Op I → Res (Buffer I)
  | .push item => b.push item
  | .discard => .ok b.discard

def run (ops : List (Op I)) : Res (Buffer I) := ops.foldlM step .empty

/-- The items pushed since the last discard, after one more call. -/
def Op.keep {I : Type} (xs : List I) : Op I → List I
  | .push item => xs ++ [item]
  | .discard => []

/-- The items pushed since the last discard. -/
def since {I : Type} (ops : List (Op I)) : List I := ops.foldl Op.keep []

theorem run_snoc (ops : List (Op I)) (op : Op I) : run (ops ++ [op]) = run ops >>= fun b => step b op := by
  simp only [run, List.foldlM_append, List.foldlM_cons, List.foldlM_nil, bind_pure]

omit [Unfold I] [BitMatch I] in
theorem since_snoc (ops : List (Op I)) (op : Op I) : since (ops ++ [op]) = Op.keep (since ops) op := by
  rw [since, List.foldl_append]
  rfl

variable [LawfulBitMatch I]

theorem run_eq_ok {ops : List (Op I)} {b : Buffer I} (h : run ops = .ok b) : b = collect (since ops) := by
  induction ops using List.reverseRecOn generalizing b with
  | nil => exact (Except.ok.inj h).symm
  | append_singleton ops op ih =>
    rw [run_snoc] at h
    obtain ⟨c, hc, h⟩ := bind_eq_ok.mp h
    rw [ih hc] at h
    rw [since_snoc]
    cases op with
    | push item => exact push_eq_ok h
    | discard => exact (Except.ok.inj h).symm

/-- The calls return while no more items are held than a word counts. -/
theorem run_of_lt {ops : List (Op I)} (h : ∀ front, front <+: ops → (since front).length < 2 ^ 64) :
    run ops = .ok (collect (since ops)) := by
  induction ops using List.reverseRecOn with
  | nil => rfl
  | append_singleton ops op ih =>
    have hrun := ih fun front hfront => h front (hfront.trans (List.prefix_append ops [op]))
    have hlt := h _ (List.prefix_refl _)
    rw [since_snoc] at hlt ⊢
    rw [run_snoc, hrun, ok_bind]
    cases op with
    | push item => exact push_of_lt item (by simpa [Op.keep] using hlt)
    | discard => rfl

theorem collect_eq_empty (xs : List I) : collect xs = .empty ↔ xs = [] := by
  rcases collect_cases xs with ⟨rfl, heq⟩ | ⟨item, hitem, -, heq⟩ | ⟨⟨item, hitem, -⟩, heq⟩
  · simp [heq]
  · simp [heq, List.ne_nil_of_mem hitem]
  · simp [heq, List.ne_nil_of_mem hitem]

theorem collect_eq_compact (xs : List I) (x : I) (n : Nat) :
    collect xs = .compact x n ↔ xs ≠ [] ∧ (∀ y ∈ xs, BitMatch.eq y x = true) ∧ n = xs.length := by
  simp only [LawfulBitMatch.eq_iff]
  rcases collect_cases xs with ⟨rfl, heq⟩ | ⟨item, hitem, hall, heq⟩ | ⟨⟨item, hitem, y, hy, hne⟩, heq⟩
  · simp [heq]
  · rw [heq, Buffer.compact.injEq]
    constructor
    · rintro ⟨rfl, rfl⟩
      exact ⟨List.ne_nil_of_mem hitem, hall, rfl⟩
    · rintro ⟨-, hx, rfl⟩
      exact ⟨hx item hitem, rfl⟩
  · rw [heq]
    constructor
    · intro h
      cases h
    · rintro ⟨-, hx, -⟩
      exact absurd ((hx y hy).trans (hx item hitem).symm) hne

theorem collect_eq_many (xs : List I) (acc : RawAcc I) :
    collect xs = .many acc ↔ (∃ x ∈ xs, ∃ y ∈ xs, BitMatch.eq x y = false) ∧ acc = Msca.collect xs := by
  rcases collect_cases xs with ⟨rfl, heq⟩ | ⟨item, -, hall, heq⟩ | ⟨⟨item, hitem, y, hy, hne⟩, heq⟩
  · simp [heq]
  · rw [heq]
    constructor
    · intro h
      cases h
    · rintro ⟨⟨x, hx, y, hy, hne⟩, -⟩
      rw [(LawfulBitMatch.eq_iff x y).mpr ((hall x hx).trans (hall y hy).symm)] at hne
      cases hne
  · have hdiffer : ∃ x ∈ xs, ∃ y ∈ xs, BitMatch.eq x y = false := by
      refine ⟨y, hy, item, hitem, ?_⟩
      rw [← Bool.not_eq_true, LawfulBitMatch.eq_iff]
      exact hne
    rw [heq, Buffer.many.injEq]
    constructor
    · rintro rfl
      exact ⟨hdiffer, rfl⟩
    · rintro ⟨-, rfl⟩
      rfl

end Buffer

/-! ## The image of fewer items -/

section Parts
variable {H D I : Type} [Serialize H] [Acc D] [LawfulSerialize H] [LawfulSerialize D] [Accumulate D I] [LawfulAcc D I]

theorem partsEnc_mono {head head' : H} {xs ys : List I} (hhead : (enc head).length ≤ (enc head').length)
    (hsub : xs.Sublist ys) (hdata : (enc (collect xs : D)).length ≤ (enc (collect ys : D)).length) :
    (partsEnc head (collect xs : D)).length ≤ (partsEnc head' (collect ys : D)).length := by
  unfold partsEnc
  rw [LawfulAcc.isEmpty_collect, LawfulAcc.isEmpty_collect, List.length_append, List.length_append, frame_length,
    frame_length]
  have hround := roundUp_mono hhead
  by_cases hxs : xs = []
  · rw [if_pos (by simp [hxs]), List.length_nil]
    omega
  · have hys : ys ≠ [] := by
      rintro rfl
      exact hxs (List.sublist_nil.mp hsub)
    rw [if_neg (by simp [hxs]), if_neg (by simp [hys]), frame_length, frame_length]
    have hround' := roundUp_mono hdata
    omega

end Parts

theorem packBits_mono {xs ys : Bits} (h : xs.length ≤ ys.length) :
    (Bytes.packBits xs).length ≤ (Bytes.packBits ys).length := by
  rw [Bytes.packBits_length, Bytes.packBits_length]
  omega

theorem encAll_mono {α : Type} [Fixed α] {xs ys : List α} (h : xs.length ≤ ys.length) :
    (encAll xs).length ≤ (encAll ys).length := by
  rw [encAll_length, encAll_length]
  exact Nat.mul_le_mul_right _ h

theorem Item.image_mono : (t : Item) → t.decodable = true → {xs ys : List t.Val} → xs.Sublist ys →
    (t.image xs).length ≤ (t.image ys).length
  | .bool, _, xs, ys, hsub => by
    show (Bytes.packBits (collect xs : Bits)).length ≤ (Bytes.packBits (collect ys : Bits)).length
    rw [bits_collect, bits_collect]
    exact packBits_mono hsub.length_le
  | .prim (.plain p), _, xs, ys, hsub => by
    show (encAll (collect xs : List (Prim.plain p).Val)).length ≤ (encAll (collect ys : List (Prim.plain p).Val)).length
    rw [vec_collect, vec_collect]
    exact encAll_mono hsub.length_le
  | .prim (.niche p), _, xs, ys, hsub => by
    show (encAll (collect xs : List (Prim.niche p).Val)).length ≤ (encAll (collect ys : List (Prim.niche p).Val)).length
    rw [vec_collect, vec_collect]
    exact encAll_mono hsub.length_le
  | .string, _, xs, ys, hsub => by
    rw [image_string, image_string]
    have hbytes := (hsub.map intoBytes).flatten
    refine partsEnc_mono (encAll_mono (by simp [endsFrom_length, hsub.length_le])) hbytes ?_
    show (encAll (collect _ : List UInt8)).length ≤ (encAll (collect _ : List UInt8)).length
    rw [vec_collect, vec_collect]
    exact encAll_mono hbytes.length_le
  | .option .bool, _, xs, ys, hsub => by
    rw [image_optBool, image_optBool]
    refine partsEnc_mono (packBits_mono (by simp [hsub.length_le])) (hsub.filterMap id) ?_
    rw [bits_collect, bits_collect]
    exact packBits_mono (hsub.filterMap id).length_le
  | .option (.prim (.plain p)), _, xs, ys, hsub => by
    rw [image_optPlain, image_optPlain]
    refine partsEnc_mono (packBits_mono (by simp [hsub.length_le])) (hsub.filterMap id) ?_
    rw [vec_collect, vec_collect]
    exact encAll_mono (hsub.filterMap id).length_le
  | .option (.prim (.niche p)), _, xs, ys, hsub => by
    show (encAll (collect xs : OptInSitu (Prim.niche p).Val).data).length ≤
      (encAll (collect ys : OptInSitu (Prim.niche p).Val).data).length
    rw [optInSitu_collect, optInSitu_collect]
    exact encAll_mono hsub.length_le
  | .option .string, _, xs, ys, hsub => by
    rw [image_optString, image_optString]
    have hbytes := ((hsub.filterMap id).map intoBytes).flatten
    refine partsEnc_mono (encAll_mono (by simp [optEndsFrom_length, hsub.length_le])) hbytes ?_
    show (encAll (collect _ : List UInt8)).length ≤ (encAll (collect _ : List UInt8)).length
    rw [vec_collect, vec_collect]
    exact encAll_mono hbytes.length_le
  | .option (.option _), h, _, _, _ => by cases h
  | .option (.vec t), h, xs, ys, hsub => by
    rw [image_optVec, image_optVec]
    exact partsEnc_mono (encAll_mono (by simp [optEndsFrom_length, hsub.length_le])) (hsub.filterMap id).flatten
      (t.image_mono h (hsub.filterMap id).flatten)
  | .vec t, h, xs, ys, hsub => by
    rw [image_vec, image_vec]
    exact partsEnc_mono (encAll_mono (by simp [endsFrom_length, hsub.length_le])) hsub.flatten
      (t.image_mono h hsub.flatten)

/-! ## Reading the single item -/

theorem Item.regular_congr : (t : Item) → {xs ys : List t.Val} → (∀ x, x ∈ xs ↔ x ∈ ys) →
    t.regular xs = t.regular ys
  | .vec t, xs, ys, hmem => by
    have hflat : ∀ x, x ∈ xs.flatten ↔ x ∈ ys.flatten := by
      intro x
      simp only [List.mem_flatten, hmem]
    have hempty : xs.flatten.isEmpty = ys.flatten.isEmpty := by
      rw [Bool.eq_iff_iff, List.isEmpty_iff, List.isEmpty_iff, List.eq_nil_iff_forall_not_mem, List.eq_nil_iff_forall_not_mem]
      simp only [hflat]
    rw [Item.regular, Item.regular, hempty, t.regular_congr hflat]
  | .option (.vec t), xs, ys, hmem => by
    have hflat : ∀ x, x ∈ (somes xs).flatten ↔ x ∈ (somes ys).flatten := by
      intro x
      simp only [List.mem_flatten, mem_somes, hmem]
    have hempty : (somes xs).flatten.isEmpty = (somes ys).flatten.isEmpty := by
      rw [Bool.eq_iff_iff, List.isEmpty_iff, List.isEmpty_iff, List.eq_nil_iff_forall_not_mem, List.eq_nil_iff_forall_not_mem]
      simp only [hflat]
    rw [Item.regular, Item.regular, hempty, t.regular_congr hflat]
  | .bool, _, _, _ => rfl
  | .prim _, _, _, _ => rfl
  | .string, _, _, _ => rfl
  | .option .bool, _, _, _ => rfl
  | .option (.prim _), _, _, _ => rfl
  | .option .string, _, _, _ => rfl
  | .option (.option _), _, _, _ => rfl

theorem readOne_eq_error {I : Type} [Decode I] {body : Bytes} {e : Fault}
    (hone : ∀ src : Decode.Src I, Decoder.iter (I := I) src = .error e → Decoder.one (I := I) src = .error e)
    (h : openIter I body = .error e) : readOne I body = .error e := by
  unfold openIter at h
  unfold readOne
  cases hsrc : ((deserialize (α := Decode.Src I)).run body).1 with
  | error f =>
    rw [hsrc] at h
    cases h
    rfl
  | ok src =>
    rw [hsrc] at h
    exact hone src h

theorem Item.one_fails : (t : Item) → (h : t.decodable = true) → (xs : List t.Val) → t.regular xs = false →
    {e : Fault} → (src : (t.decode h).Src) → @Decoder.iter _ _ (t.decode h).decoder src = .error e →
      @Decoder.one _ _ (t.decode h).decoder src = .error e
  | .vec t, h, _, _, e, src, hiter => by
    show firstOf _ (@vecCursor _ _ (t.decode h).source (t.decode h).decoder src) = _
    rw [show @vecCursor _ _ (t.decode h).source (t.decode h).decoder src = .error e from hiter]
    rfl
  | .option (.vec t), h, _, _, e, src, hiter => by
    show firstOf _ (@vecCursor _ _ (t.decode h).source (t.decode h).decoder src) = _
    rw [show @vecCursor _ _ (t.decode h).source (t.decode h).decoder src = .error e from hiter]
    rfl
  | .bool, _, _, hr, _, _, _ => by cases hr
  | .prim _, _, _, hr, _, _, _ => by cases hr
  | .string, _, _, hr, _, _, _ => by cases hr
  | .option .bool, _, _, hr, _, _, _ => by cases hr
  | .option (.prim _), _, _, hr, _, _, _ => by cases hr
  | .option .string, _, _, hr, _, _, _ => by cases hr
  | .option (.option _), h, _, _, _, _, _ => by cases h

/-- What is read from the image of the single item is what is read from the image of all of them. -/
theorem Item.compact_reads (t : Item) (h : t.decodable = true) {x : t.Val} {xs : List t.Val} (hmem : x ∈ xs)
    (hall : ∀ y ∈ xs, y = x) (hm : t.InMemory xs) (sector : Sector) {count : NonZero} (hcount : count.get = xs.length) :
    @Src.body t.Val (t.decode h) (.compact sector count) (t.image [x]) =
      @Src.body t.Val (t.decode h) (.basic sector count) (t.image xs) := by
  have hne : xs ≠ [] := List.ne_nil_of_mem hmem
  have hsub : [x].Sublist xs := List.singleton_sublist.mpr hmem
  have hone : t.InMemory [x] := ⟨Nat.lt_of_le_of_lt (t.image_mono h hsub) hm.1, t.bitsFit_mono hsub hm.2⟩
  have hrep : xs = List.replicate count.get x := List.eq_replicate_iff.mpr ⟨hcount.symm, hall⟩
  have hsame : t.regular [x] = t.regular xs := by
    apply t.regular_congr
    intro y
    rw [List.mem_singleton]
    exact ⟨fun hy => hy ▸ hmem, hall y⟩
  show (do return List.replicate count.get (.ok (← @readOne t.Val (t.decode h) (t.image [x]))) :
    Res (List (Res t.Val))) = @readItems t.Val (t.decode h) count.get (t.image xs)
  cases hr : t.regular xs with
  | true =>
    rw [hr] at hsame
    obtain ⟨c, c', hc, hy⟩ := t.opens_of_inMemory h hne hm hr
    rw [t.readOne_image h hone hsame, readItems, hc, ok_bind, ok_bind, hcount,
      takeItems_of_yields hy, hrep, List.map_replicate, List.length_replicate]
  | false =>
    rw [hr] at hsame
    obtain ⟨n, hn⟩ := Item.size_acc (by simp) hone
    obtain ⟨k, hk⟩ := Item.size_acc hne hm
    have hfail := t.fails h [x] n hn hsame
    rw [@readOne_eq_error t.Val (t.decode h) _ _ (t.one_fails h xs hr) hfail, readItems, t.fails h xs k hk hr]
    rfl

/-- Compaction is transparent: the state of a buffer is determined by the items it holds, a compact buffer reads back as
their accumulator does, and no call stops while a word counts the items. -/
theorem Item.compaction_transparent (t : Item) (h : t.decodable = true) (ops : List (Buffer.Op t.Val)) :
    (∀ b, Buffer.run ops = .ok b →
      (b = .empty ↔ Buffer.since ops = []) ∧
      (∀ x n, b = .compact x n ↔ Buffer.since ops ≠ [] ∧ (∀ y ∈ Buffer.since ops, BitMatch.eq y x = true) ∧
        n = (Buffer.since ops).length) ∧
      (∀ acc, b = .many acc ↔ (∃ x ∈ Buffer.since ops, ∃ y ∈ Buffer.since ops, BitMatch.eq x y = false) ∧
        acc = (Buffer.since ops).foldl Msca.push Acc.default) ∧
      b.count = (Buffer.since ops).length ∧
      ∀ x n, b = .compact x n → t.InMemory (Buffer.since ops) →
        ∃ body raw, serialize b = .ok body ∧
          serialize ((Buffer.since ops).foldl Msca.push Acc.default : RawAcc t.Val) = .ok raw ∧
            ∀ (sector : Sector) (count : NonZero), count.get = n →
              @Src.body t.Val (t.decode h) (.compact sector count) body =
                @Src.body t.Val (t.decode h) (.basic sector count) raw) ∧
    ((∀ front, front <+: ops → (Buffer.since front).length < 2 ^ 64) → ∃ b, Buffer.run ops = .ok b) := by
  refine ⟨fun b hb => ?_, fun hlt => ⟨_, Buffer.run_of_lt hlt⟩⟩
  rw [Buffer.run_eq_ok hb]
  refine ⟨Buffer.collect_eq_empty _, Buffer.collect_eq_compact _, Buffer.collect_eq_many _, Buffer.count_collect _, ?_⟩
  intro x n heq hm
  obtain ⟨hne, hall, hn⟩ := (Buffer.collect_eq_compact _ x n).mp heq
  simp only [LawfulBitMatch.eq_iff] at hall
  obtain ⟨y, hy⟩ := List.exists_mem_of_ne_nil _ hne
  have hx : x ∈ Buffer.since ops := hall y hy ▸ hy
  have hsub : [x].Sublist (Buffer.since ops) := List.singleton_sublist.mpr hx
  have hone : t.InMemory [x] := ⟨Nat.lt_of_le_of_lt (t.image_mono h hsub) hm.1, t.bitsFit_mono hsub hm.2⟩
  obtain ⟨k, hk⟩ := Item.size_acc (t := t) (by simp) hone
  obtain ⟨l, hl⟩ := Item.size_acc hne hm
  refine ⟨t.image [x], t.image (Buffer.since ops), ?_, serialize_eq hl, ?_⟩
  · rw [heq]
    exact serialize_eq (a := Buffer.compact x n) hk
  · intro sector count hcount
    exact t.compact_reads h hx hall hm sector (hcount.trans hn)

/-- Two equal rows after a discard. -/
theorem Item.compaction_transparent_flags : ∃ (t : Item) (h : t.decodable = true) (ops : List (Buffer.Op t.Val)) (x : t.Val),
    Buffer.run ops = .ok (.compact x 2) ∧ ∃ body raw, serialize (Buffer.compact x 2) = .ok body ∧
      serialize ((Buffer.since ops).foldl Msca.push Acc.default : RawAcc t.Val) = .ok raw ∧
        ∀ (sector : Sector) (count : NonZero), count.get = 2 →
          @Src.body t.Val (t.decode h) (.compact sector count) body =
            @Src.body t.Val (t.decode h) (.basic sector count) raw :=
  ⟨.bool, rfl, [.push true, .discard, .push false, .push false], false, rfl,
    ((Item.compaction_transparent .bool rfl [.push true, .discard, .push false, .push false]).1 _ rfl).2.2.2.2 false 2 rfl
      ⟨by decide, show 2 < 2 ^ 61 by decide⟩⟩

end Msca
