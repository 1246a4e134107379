import Msca.Nested

/-! Bit identity against byte identity. The bytes of a column determine its items up to the level at which an absent
value is absent, since nested options are collapsed before they are written. -/
namespace Msca
set_option autoImplicit false
open Checked

/-! ## Images that determine their parts -/

theorem frame_append_inj {a b r s : Bytes} (hlen : a.length = b.length) (h : frame a ++ r = frame b ++ s) :
    a = b ∧ r = s := by
  have hframe : (frame a).length = (frame b).length := by rw [frame_length, frame_length, hlen]
  obtain ⟨hfront, hback⟩ := List.append_inj h hframe
  rw [frame, frame, List.append_assoc, List.append_assoc] at hfront
  have hbody := (List.append_inj hfront (by rw [Bytes.leBytes_length, Bytes.leBytes_length])).2
  exact ⟨(List.append_inj hbody hlen).1, hback⟩

/-- A frame determines its payload: the lengths agree up to the fill and as words. -/
theorem frame_inj {a b : Bytes} (h : frame a = frame b) : a = b := by
  have htotal := congrArg List.length h
  rw [frame_length, frame_length] at htotal
  have hprefix := h
  rw [frame, frame, List.append_assoc, List.append_assoc] at hprefix
  have hword := congrArg Bytes.ofLe (List.append_inj hprefix (by rw [Bytes.leBytes_length, Bytes.leBytes_length])).1
  rw [Bytes.ofLe_leBytes, Bytes.ofLe_leBytes] at hword
  have hlen : a.length = b.length := by
    simp only [roundUp] at htotal
    omega
  exact (frame_append_inj (r := []) (s := []) hlen (by rw [h])).1

theorem encAll_inj {α : Type} [Fixed α] {xs ys : List α} (h : encAll xs = encAll ys) : xs = ys := by
  induction xs generalizing ys with
  | nil =>
    cases ys with
    | nil => rfl
    | cons y ys =>
      have hlen := congrArg List.length h
      have hpos := Fixed.width_pos (α := α)
      rw [encAll_length, encAll_length, List.length_nil, List.length_cons] at hlen
      rw [Nat.zero_mul, Nat.succ_mul] at hlen
      omega
  | cons x xs ih =>
    cases ys with
    | nil =>
      have hlen := congrArg List.length h
      have hpos := Fixed.width_pos (α := α)
      rw [encAll_length, encAll_length, List.length_nil, List.length_cons] at hlen
      rw [Nat.zero_mul, Nat.succ_mul] at hlen
      omega
    | cons y ys =>
      rw [encAll_cons, encAll_cons] at h
      obtain ⟨hhead, htail⟩ := List.append_inj h ((Fixed.toLe_length x).trans (Fixed.toLe_length y).symm)
      rw [Fixed.toLe_inj hhead, ih htail]

theorem packBits_inj {xs ys : Bits} (hlen : xs.length = ys.length) (h : Bytes.packBits xs = Bytes.packBits ys) :
    xs = ys := by
  rw [← Bytes.viewBits_packBits_take xs, ← Bytes.viewBits_packBits_take ys, h, hlen]

theorem options_ext {α : Type} {xs ys : List (Option α)} (hsome : xs.map Option.isSome = ys.map Option.isSome)
    (hitems : somes xs = somes ys) : xs = ys := by
  induction xs generalizing ys with
  | nil => exact (List.map_eq_nil_iff.mp hsome.symm).symm
  | cons x xs ih =>
    cases ys with
    | nil => cases hsome
    | cons y ys =>
      rw [List.map_cons, List.map_cons, List.cons.injEq] at hsome
      cases x with
      | none =>
        cases y with
        | none => exact congrArg (none :: ·) (ih hsome.2 hitems)
        | some b => cases hsome.1
      | some a =>
        cases y with
        | none => cases hsome.1
        | some b =>
          have hboth : a :: somes xs = b :: somes ys := hitems
          rw [List.cons.injEq] at hboth
          rw [hboth.1, ih hsome.2 hboth.2]

theorem endsFrom_inj {start : Nat} {ns ms : List Nat} (hn : start + ns.sum < 2 ^ 64) (hm : start + ms.sum < 2 ^ 64)
    (h : endsFrom start ns = endsFrom start ms) : ns = ms := by
  induction ns generalizing start ms with
  | nil =>
    cases ms with
    | nil => rfl
    | cons m ms => cases h
  | cons n ns ih =>
    cases ms with
    | nil => cases h
    | cons m ms =>
      rw [List.sum_cons] at hn hm
      simp only [endsFrom, List.cons.injEq] at h
      have hstart := congrArg U64.val h.1
      rw [U64.clamp_val (by omega), U64.clamp_val (by omega)] at hstart
      have hsame : n = m := by omega
      subst hsame
      rw [U64.clamp_val (by omega)] at h
      rw [ih (by omega) (by omega) h.2]

theorem clamp_ne_max {n : Nat} (h : n < 2 ^ 64 - 1) : U64.clamp n ≠ U64.max := by
  intro heq
  have hval := congrArg U64.val heq
  rw [U64.clamp_val (by omega)] at hval
  change n = 2 ^ 64 - 1 at hval
  omega

theorem optEndsFrom_inj {start : Nat} {ns ms : List (Option Nat)} (hn : start + (somes ns).sum < 2 ^ 64 - 1)
    (hm : start + (somes ms).sum < 2 ^ 64 - 1) (h : optEndsFrom start ns = optEndsFrom start ms) : ns = ms := by
  induction ns generalizing start ms with
  | nil =>
    rcases ms with _ | ⟨_ | m, ms⟩
    · rfl
    · cases h
    · cases h
  | cons n ns ih =>
    rcases ms with _ | ⟨m, ms⟩
    · cases n <;> cases h
    · cases n with
      | none =>
        cases m with
        | none =>
          have htail := (List.cons.inj h).2
          exact congrArg (none :: ·) (ih hn hm htail)
        | some m =>
          have hsum : start + (m + (somes ms).sum) < 2 ^ 64 - 1 := hm
          exact absurd (List.cons.inj h).1.symm (clamp_ne_max (by omega))
      | some n =>
        have hsum : start + (n + (somes ns).sum) < 2 ^ 64 - 1 := hn
        cases m with
        | none => exact absurd (List.cons.inj h).1 (clamp_ne_max (by omega))
        | some m =>
          have hsum' : start + (m + (somes ms).sum) < 2 ^ 64 - 1 := hm
          obtain ⟨hhead, htail⟩ := List.cons.inj h
          have hval := congrArg U64.val hhead
          rw [U64.clamp_val (by omega), U64.clamp_val (by omega)] at hval
          have hsame : n = m := by omega
          subst hsame
          rw [if_neg (clamp_ne_max (by omega)), U64.clamp_val (by omega)] at htail
          rw [ih (by omega) (by omega) htail]

theorem parts_inj {H D : Type} [Serialize H] [Acc D] [LawfulSerialize H] [LawfulSerialize D] {head head' : H}
    {data data' : D} (hlen : (enc head).length = (enc head').length) (h : partsEnc head data = partsEnc head' data') :
    enc head = enc head' ∧ dataRegion data = dataRegion data' := by
  obtain ⟨hhead, hdata⟩ := frame_append_inj hlen h
  refine ⟨hhead, ?_⟩
  rw [dataRegion, dataRegion]
  cases he : Acc.isEmpty data with
  | true =>
    cases he' : Acc.isEmpty data' with
    | true => rfl
    | false =>
      rw [if_pos he, if_neg (by simp [he'])] at hdata
      have hsize := congrArg List.length hdata
      rw [frame_length, List.length_nil] at hsize
      omega
  | false =>
    cases he' : Acc.isEmpty data' with
    | true =>
      rw [if_neg (by simp [he]), if_pos he'] at hdata
      have hsize := congrArg List.length hdata
      rw [frame_length, List.length_nil] at hsize
      omega
    | false =>
      rw [if_neg (by simp [he]), if_neg (by simp [he'])] at hdata
      exact frame_inj hdata

/-! ## Items behind their bytes -/

/-- The value with every absent option absent at the outermost of its levels. -/
def Item.outer : (t : Item) → t.Val → t.Val
  | .option (.option t), x => ((Item.option t).outer x.join).map some
  | .option (.vec t), x => x.map (List.map t.outer)
  | .vec t, x => x.map t.outer
  | _, x => x

/-- No level of a sequence has so many elements that an end would clamp or read as absent. -/
def Item.Indexed : (t : Item) → List t.Val → Prop
  | .vec t, xs => xs.flatten.length < 2 ^ 64 - 1 ∧ t.Indexed xs.flatten
  | .option (.option t), xs => (Item.option t).Indexed (xs.map Option.join)
  | .option (.vec t), xs => (somes xs).flatten.length < 2 ^ 64 - 1 ∧ t.Indexed (somes xs).flatten
  | .string, xs => (xs.map intoBytes).flatten.length < 2 ^ 64 - 1
  | .option .string, xs => ((somes xs).map intoBytes).flatten.length < 2 ^ 64 - 1
  | _, _ => True

theorem image_optOpt (t : Item) (xs : List (Option (Option t.Val))) :
    (Item.option (.option t)).image xs = (Item.option t).image (xs.map Option.join) :=
  congrArg (fun acc : Flatten (OptAcc t.Val) => enc acc.inner) (flatten_collect xs)

theorem Item.elements_inj {t : Item} {xs ys : List t.Val} (hlen : xs.length = ys.length)
    (h : dataRegion (t.acc xs) = dataRegion (t.acc ys)) (hin : t.image xs = t.image ys → xs.map t.outer = ys.map t.outer) :
    xs.map t.outer = ys.map t.outer := by
  rw [t.dataRegion_eq, t.dataRegion_eq] at h
  cases xs with
  | nil =>
    rw [List.length_eq_zero_iff.mp hlen.symm]
  | cons x xs =>
    cases ys with
    | nil => cases hlen
    | cons y ys => exact hin h

theorem rows_inj {α β : Type} {f : α → β} {xs ys : List (List α)} (hlen : xs.map List.length = ys.map List.length)
    (h : xs.flatten.map f = ys.flatten.map f) : xs.map (List.map f) = ys.map (List.map f) := by
  rw [List.eq_iff_flatten_eq, ← List.map_flatten, ← List.map_flatten, List.map_map, List.map_map]
  refine ⟨h, ?_⟩
  have hcomp : List.length ∘ List.map f = List.length := by
    funext l
    exact List.length_map f
  rw [hcomp, hlen]

theorem isSome_of_lengths {α : Type} (len : α → Nat) {xs ys : List (Option α)}
    (h : xs.map (Option.map len) = ys.map (Option.map len)) :
    xs.map Option.isSome = ys.map Option.isSome ∧ (somes xs).map len = (somes ys).map len := by
  constructor
  · have hsome := congrArg (List.map Option.isSome) h
    simpa [List.map_map, Function.comp_def] using hsome
  · rw [← somes_map, ← somes_map, h]

theorem intoBytes_inj {a b : String} (h : intoBytes a = intoBytes b) : a = b := by
  have hback := fromUtf8_intoBytes a
  rw [h, fromUtf8_intoBytes] at hback
  exact (Except.ok.inj hback).symm

theorem bits_region (bs : Bits) : dataRegion (collect bs : Bits) = Bytes.packBits bs := by
  rw [bits_collect, dataRegion]
  cases bs <;> rfl

theorem vec_region {α : Type} [Primitive α] (l : List α) : dataRegion (collect l : List α) = encAll l := by
  rw [vec_collect, dataRegion]
  cases l <;> rfl

theorem masked_inj {D α : Type} [Acc D] [LawfulSerialize D] {data data' : D} {xs ys : List (Option α)}
    (hlen : xs.length = ys.length)
    (h : partsEnc (xs.map Option.isSome) data = partsEnc (ys.map Option.isSome) data')
    (hin : (somes xs).length = (somes ys).length → dataRegion data = dataRegion data' → somes xs = somes ys) : xs = ys := by
  have hmasks : (xs.map Option.isSome).length = (ys.map Option.isSome).length := by simpa using hlen
  obtain ⟨hmask, hdata⟩ := parts_inj (by simp only [enc, Bytes.packBits_length, hmasks]) h
  have hsome := packBits_inj hmasks hmask
  refine options_ext hsome (hin ?_ hdata)
  have hcount : ∀ zs : List (Option α), (somes zs).length = (zs.map Option.isSome).count true := by
    intro zs
    induction zs with
    | nil => rfl
    | cons z zs ih =>
      cases z with
      | none => simpa [somes] using ih
      | some a => simpa [somes] using ih
  rw [hcount, hcount, hsome]

/-- Equal bytes are equal items, up to the level at which an absent value is absent. -/
theorem Item.image_inj : (t : Item) → (xs ys : List t.Val) → xs.length = ys.length → t.Indexed xs → t.Indexed ys →
    t.image xs = t.image ys → xs.map t.outer = ys.map t.outer
  | .bool, xs, ys, hlen, _, _, h => by
    have hbits : Bytes.packBits (collect xs : Bits) = Bytes.packBits (collect ys : Bits) := h
    rw [bits_collect, bits_collect] at hbits
    rw [packBits_inj hlen hbits]
  | .prim (.plain p), xs, ys, _, _, _, h => by
    have hitems : encAll (collect xs : List (Prim.plain p).Val) = encAll (collect ys : List (Prim.plain p).Val) := h
    rw [vec_collect, vec_collect] at hitems
    rw [encAll_inj hitems]
  | .prim (.niche p), xs, ys, _, _, _, h => by
    have hitems : encAll (collect xs : List (Prim.niche p).Val) = encAll (collect ys : List (Prim.niche p).Val) := h
    rw [vec_collect, vec_collect] at hitems
    rw [encAll_inj hitems]
  | .option (.prim (.niche p)), xs, ys, _, _, _, h => by
    have hitems : encAll (collect xs : OptInSitu (Prim.niche p).Val).data =
        encAll (collect ys : OptInSitu (Prim.niche p).Val).data := h
    rw [optInSitu_collect, optInSitu_collect] at hitems
    have hsame : xs = ys := encAll_inj hitems
    rw [hsame]
  | .option .bool, xs, ys, hlen, _, _, h => by
    rw [image_optBool, image_optBool] at h
    have hsame : xs = ys := by
      refine masked_inj hlen h fun hcount hdata => ?_
      rw [bits_region, bits_region] at hdata
      exact packBits_inj hcount hdata
    rw [hsame]
  | .option (.prim (.plain p)), xs, ys, hlen, _, _, h => by
    rw [image_optPlain, image_optPlain] at h
    have hsame : xs = ys := by
      refine masked_inj hlen h fun _ hdata => ?_
      rw [vec_region, vec_region] at hdata
      exact encAll_inj hdata
    rw [hsame]
  | .string, xs, ys, hlen, hx, hy, h => by
    have hx : (xs.map intoBytes).flatten.length < 2 ^ 64 - 1 := hx
    have hy : (ys.map intoBytes).flatten.length < 2 ^ 64 - 1 := hy
    rw [image_string, image_string] at h
    rw [List.length_flatten] at hx hy
    obtain ⟨hends, hdata⟩ := parts_inj (by simp [enc, encAll_length, hlen]) h
    have hlens := endsFrom_inj (by omega) (by omega) (encAll_inj hends)
    rw [bytes_region, bytes_region] at hdata
    have hbytes := List.eq_iff_flatten_eq.mpr ⟨hdata, hlens⟩
    rw [List.map_injective_iff.mpr (fun _ _ => intoBytes_inj) hbytes]
  | .option .string, xs, ys, hlen, hx, hy, h => by
    have hx : ((somes xs).map intoBytes).flatten.length < 2 ^ 64 - 1 := hx
    have hy : ((somes ys).map intoBytes).flatten.length < 2 ^ 64 - 1 := hy
    rw [image_optString, image_optString] at h
    rw [List.length_flatten, ← somes_map, ← somes_map] at hx hy
    obtain ⟨hends, hdata⟩ := parts_inj (by simp [enc, encAll_length, hlen]) h
    have hlens := optEndsFrom_inj (by omega) (by omega) (encAll_inj hends)
    obtain ⟨hsome, hcounts⟩ := isSome_of_lengths List.length hlens
    rw [bytes_region, bytes_region, ← somes_map, ← somes_map] at hdata
    have hbytes := options_ext hsome (List.eq_iff_flatten_eq.mpr ⟨hdata, hcounts⟩)
    have hinj := Option.map_injective fun _ _ => intoBytes_inj
    rw [List.map_injective_iff.mpr hinj hbytes]
  | .option (.option t), xs, ys, hlen, hx, hy, h => by
    rw [image_optOpt, image_optOpt] at h
    have hin := (Item.option t).image_inj (xs.map Option.join) (ys.map Option.join) (by simpa using hlen) hx hy h
    rw [List.map_map, List.map_map] at hin
    have hsome := congrArg (List.map (Option.map some)) hin
    rw [List.map_map, List.map_map] at hsome
    exact hsome
  | .option (.vec t), xs, ys, hlen, hx, hy, h => by
    have hx' : (somes xs).flatten.length < 2 ^ 64 - 1 := hx.1
    have hy' : (somes ys).flatten.length < 2 ^ 64 - 1 := hy.1
    rw [image_optVec, image_optVec] at h
    rw [List.length_flatten, ← somes_map] at hx' hy'
    obtain ⟨hends, hdata⟩ := parts_inj (by simp [enc, encAll_length, hlen]) h
    have hlens := optEndsFrom_inj (by omega) (by omega) (encAll_inj hends)
    obtain ⟨hsome, hcounts⟩ := isSome_of_lengths List.length hlens
    have hcount : (somes xs).flatten.length = (somes ys).flatten.length := by
      rw [List.length_flatten, List.length_flatten, hcounts]
    have hrows := rows_inj hcounts (Item.elements_inj hcount hdata (t.image_inj _ _ hcount hx.2 hy.2))
    rw [← somes_map, ← somes_map] at hrows
    refine options_ext ?_ hrows
    have hmap : Option.isSome ∘ (Item.option (.vec t)).outer = Option.isSome := by
      funext o
      cases o <;> rfl
    rw [List.map_map, List.map_map, hmap, hsome]
  | .vec t, xs, ys, hlen, hx, hy, h => by
    have hx' : xs.flatten.length < 2 ^ 64 - 1 := hx.1
    have hy' : ys.flatten.length < 2 ^ 64 - 1 := hy.1
    rw [image_vec, image_vec] at h
    rw [List.length_flatten] at hx' hy'
    obtain ⟨hends, hdata⟩ := parts_inj (by simp [enc, encAll_length, hlen]) h
    have hlens := endsFrom_inj (by omega) (by omega) (encAll_inj hends)
    have hcount : xs.flatten.length = ys.flatten.length := by rw [List.length_flatten, List.length_flatten, hlens]
    exact rows_inj hlens (Item.elements_inj hcount hdata (t.image_inj _ _ hcount hx.2 hy.2))

theorem lengths_of_rows {α β : Type} {f : α → β} {xs ys : List (List α)} (h : xs.map (List.map f) = ys.map (List.map f)) :
    xs.map List.length = ys.map List.length ∧ xs.flatten.map f = ys.flatten.map f := by
  constructor
  · have hlens := congrArg (List.map List.length) h
    rw [List.map_map, List.map_map] at hlens
    have hcomp : List.length ∘ List.map f = List.length := by
      funext l
      exact List.length_map f
    rwa [hcomp] at hlens
  · rw [List.map_flatten, List.map_flatten, h]

/-- Items that are the same up to the level of an absent value are collected alike. -/
theorem Item.acc_of_outer : (t : Item) → (xs ys : List t.Val) → xs.map t.outer = ys.map t.outer → t.acc xs = t.acc ys
  | .bool, xs, ys, h => by
    have hsame : xs = ys := by simpa [Item.outer] using h
    rw [hsame]
  | .prim p, xs, ys, h => by
    have hsame : xs = ys := by simpa [Item.outer] using h
    rw [hsame]
  | .string, xs, ys, h => by
    have hsame : xs = ys := by simpa [Item.outer] using h
    rw [hsame]
  | .option .bool, xs, ys, h => by
    have hsame : xs = ys := by simpa [Item.outer] using h
    rw [hsame]
  | .option (.prim p), xs, ys, h => by
    have hsame : xs = ys := by simpa [Item.outer] using h
    rw [hsame]
  | .option .string, xs, ys, h => by
    have hsame : xs = ys := by simpa [Item.outer] using h
    rw [hsame]
  | .option (.option t), xs, ys, h => by
    have hinner : (xs.map Option.join).map (Item.option t).outer = (ys.map Option.join).map (Item.option t).outer := by
      rw [List.map_map, List.map_map]
      have hinj := List.map_injective_iff.mpr (Option.map_injective (Option.some_injective t.Val))
      apply hinj
      rw [List.map_map, List.map_map]
      exact h
    have hacc := (Item.option t).acc_of_outer _ _ hinner
    exact (flatten_collect xs).trans ((congrArg Flatten.mk hacc).trans (flatten_collect ys).symm)
  | .option (.vec t), xs, ys, h => by
    have h : xs.map (Option.map (List.map t.outer)) = ys.map (Option.map (List.map t.outer)) := h
    have hlens := congrArg (List.map (Option.map List.length)) h
    have hcomp : Option.map List.length ∘ Option.map (List.map t.outer) = Option.map List.length := by
      funext o
      cases o <;> simp
    rw [List.map_map, List.map_map, hcomp] at hlens
    have hsomes := congrArg somes h
    rw [somes_map, somes_map] at hsomes
    rw [acc_optVec, acc_optVec, hlens, t.acc_of_outer _ _ (lengths_of_rows hsomes).2]
  | .vec t, xs, ys, h => by
    obtain ⟨hlens, hflat⟩ := lengths_of_rows h
    rw [acc_vec, acc_vec, hlens, t.acc_of_outer _ _ hflat]

/-! ## Bit identity -/

/-- `T::once` of both values serialises to the same bytes. -/
def SameBytes {I : Type} [Unfold I] (a b : I) : Prop :=
  ∃ bytes, serialize (once a) = .ok bytes ∧ serialize (once b) = .ok bytes

theorem once_eq (t : Item) (a : t.Val) : once a = t.acc [a] := rfl

theorem serialize_eq_ok {α : Type} [Serialize α] [LawfulSerialize α] {a : α} {bytes : Bytes} (h : serialize a = .ok bytes) :
    bytes = enc a := by
  obtain ⟨n, hn, -⟩ := bind_eq_ok.mp h
  rw [serialize_eq hn] at h
  exact (Except.ok.inj h).symm

/-- Values share their bytes exactly where they differ at most in the level of an absent option. -/
theorem sameBytes_iff (t : Item) (a b : t.Val) (ha : t.Indexed [a]) (hb : t.Indexed [b])
    (hs : ∃ bytes, serialize (once a) = .ok bytes) : SameBytes a b ↔ t.outer a = t.outer b := by
  obtain ⟨bytes, hbytes⟩ := hs
  constructor
  · rintro ⟨same, hsa, hsb⟩
    have himage : t.image [a] = t.image [b] := (serialize_eq_ok hsa).symm.trans (serialize_eq_ok hsb)
    have hmap := t.image_inj [a] [b] rfl ha hb himage
    exact (List.cons.inj hmap).1
  · intro h
    have hacc := t.acc_of_outer [a] [b] (congrArg (fun x => [x]) h)
    refine ⟨bytes, hbytes, ?_⟩
    rw [once_eq, ← hacc, ← once_eq, hbytes]

/-- Bit identity is byte identity except between values that differ in the level of an absent option only. -/
theorem bitMatch_sameBytes_iff (t : Item) (a b : t.Val) (ha : t.Indexed [a]) (hb : t.Indexed [b])
    (hs : ∃ bytes, serialize (once a) = .ok bytes) :
    (BitMatch.eq a b = true ↔ SameBytes a b) ↔ (t.outer a = t.outer b → a = b) := by
  rw [LawfulBitMatch.eq_iff, sameBytes_iff t a b ha hb hs]
  constructor
  · intro h
    exact h.mpr
  · intro h
    refine ⟨?_, h⟩
    rintro rfl
    rfl

def nested : Item := .option (.option .bool)

def inside : nested.Val := show Option (Option Bool) from some none

def outside : nested.Val := show Option (Option Bool) from none

def present : nested.Val := show Option (Option Bool) from some (some true)

theorem bitMatch_sameBytes_iff_present : BitMatch.eq present inside = true ↔ SameBytes present inside :=
  (bitMatch_sameBytes_iff nested present inside trivial trivial ⟨_, rfl⟩).mpr fun h => by cases h

/-- An absent value has the bytes of a present absent one, and does not match it. -/
theorem not_bitMatch_nested : ¬ (BitMatch.eq outside inside = true ↔ SameBytes outside inside) := by
  intro h
  have hmatch := h.mpr ⟨_, rfl, rfl⟩
  cases hmatch

end Msca
