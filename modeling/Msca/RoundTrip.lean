import Msca.Decode

/-! Collected items read back from their bytes. The accumulators leave out an empty data region, and
the reader supplies an empty source for it at the top of a column but not below a sequence, so the
items of a nested column come back exactly when every nested level is present or flat. -/
namespace Msca
set_option autoImplicit false
open Checked

/-! ## Sources of laid out bytes -/

section Parts
variable {H D : Type} [Serialize H] [Acc D] [LawfulSerialize H] [LawfulSerialize D]

theorem region_bounds {α : Type} [Serialize α] [LawfulSerialize α] {a : α} {n : NonZero}
    (h : Serialize.size (SizedBuf.mk a) = .ok n) :
    0 < (enc a).length ∧ roundUp (enc a).length < 2 ^ 64 := by
  obtain ⟨k, hk, hn⟩ := sizedBuf_size_eq_ok h
  have hlen := LawfulSerialize.size_eq hk
  have hpos := k.pos
  have hlt := n.lt
  rw [← hlen]
  omega

/-- What the reader of a head and data layout finds in the data region. -/
def dataRegion (data : D) : Bytes := if Acc.isEmpty data then [] else enc data

theorem omittable_of_present {S : Type} [Deserialize S] (default : S) {body : Bytes} (hpos : 0 < body.length)
    (hlt : roundUp body.length < 2 ^ 64) :
    (omittable default).run (frame body) = (((deserialize (α := S)).run body).1, []) := by
  have hlen := frame_length body
  have hrem : Parse.remaining.run (frame body) = (.ok (frame body).length, frame body) := rfl
  rw [omittable, run_bind_ok hrem, if_neg (by omega)]
  have hregion : (regionInto S).run (frame body ++ []) = (((deserialize (α := S)).run body).1, []) :=
    regionInto_frame hpos hlt
  rwa [List.append_nil] at hregion

theorem omittable_nil {S : Type} [Deserialize S] (default : S) :
    (omittable default).run [] = (.ok default, []) := rfl

theorem parts_parse {S T R : Type} [Deserialize S] [Deserialize T] (mk : S → T → R) {head : H} {data : D}
    {n : NonZero} (hsize : partsSize head data = .ok n) {s : S} {t default : T}
    (hs : ((deserialize (α := S)).run (enc head)).1 = .ok s)
    (ht : Acc.isEmpty data = false → ((deserialize (α := T)).run (enc data)).1 = .ok t)
    (hd : Acc.isEmpty data = true → t = default) :
    (do return mk (← regionInto S) (← omittable default) : Parse R).run (partsEnc head data) =
      (.ok (mk s t), []) := by
  obtain ⟨k, hk, hcase⟩ := partsSize_eq_ok hsize
  obtain ⟨hpos, hlt⟩ := region_bounds hk
  have hhead : (regionInto S).run (partsEnc head data) =
      (.ok s, if Acc.isEmpty data then [] else frame (enc data)) := by
    rw [partsEnc, regionInto_frame hpos hlt, hs]
  rw [run_bind_ok hhead]
  have htail : (omittable default).run (if Acc.isEmpty data then [] else frame (enc data)) =
      (.ok t, []) := by
    rcases hcase with ⟨he, -⟩ | ⟨he, m, hm, -⟩
    · rw [if_pos he, omittable_nil, hd he]
    · obtain ⟨hpos', hlt'⟩ := region_bounds hm
      rw [if_neg (by simp [he]), omittable_of_present default hpos' hlt', ht he]
  rw [run_bind_ok htail]
  rfl

theorem seq_parse {ends : List U64} {data : D} {n : NonZero} (h : partsSize ends data = .ok n) :
    (deserialize (α := Read.Seq)).run (partsEnc ends data) =
      (.ok ⟨encAll ends, dataRegion data⟩, []) := by
  refine parts_parse Read.Seq.mk h rfl ?_ ?_
  · intro he
    rw [dataRegion, if_neg (by simp [he])]
    rfl
  · intro he
    rw [dataRegion, if_pos he]

theorem optBitVec_parse {S : Type} [DefaultSource S] {mask : Bits} {data : D} {n : NonZero}
    (h : partsSize mask data = .ok n) {s : S}
    (hs : ((deserialize (α := S)).run (dataRegion data)).1 = .ok s)
    (hd : (deserialize (α := S)).run [] = (.ok DefaultSource.default, [])) :
    (deserialize (α := Read.OptBitVec S)).run (partsEnc mask data) =
      (.ok ⟨Bytes.viewBits (Bytes.packBits mask), s⟩, []) := by
  refine parts_parse Read.OptBitVec.mk h rfl ?_ ?_
  · intro he
    rwa [dataRegion, if_neg (by simp [he])] at hs
  · intro he
    rw [dataRegion, if_pos he, hd] at hs
    exact (Except.ok.inj hs).symm

end Parts
/-! ## Columns of items -/

/-- The body opens as an iterator over `xs`. -/
def Opens (I : Type) [Decode I] (xs : List I) (body : Bytes) : Prop :=
  ∃ c c', openIter I body = .ok c ∧ Yields Decoder.next c xs c'

/-- Item types read from their region as it stands, present or not. -/
def Item.flat : Item → Bool
  | .bool => true
  | .prim _ => true
  | .option (.prim (.niche _)) => true
  | _ => false

/-- Every level below a sequence is flat or has an item. -/
def Item.regular : (t : Item) → List t.Val → Bool
  | .vec t, xs => t.flat || (!xs.flatten.isEmpty && t.regular xs.flatten)
  | .option (.vec t), xs => t.flat || (!(somes xs).flatten.isEmpty && t.regular (somes xs).flatten)
  | _, _ => true

/-- No sequence level has so many elements that an end would clamp or read as absent. -/
def Item.Counted : (t : Item) → List t.Val → Prop
  | .vec t, xs => xs.flatten.length < 2 ^ 64 - 1 ∧ t.Counted xs.flatten
  | .option (.vec t), xs => (somes xs).flatten.length < 2 ^ 64 - 1 ∧ t.Counted (somes xs).flatten
  | .string, xs => (xs.map intoBytes).flatten.length < 2 ^ 64 - 1
  | .option .string, xs => ((somes xs).map intoBytes).flatten.length < 2 ^ 64 - 1
  | _, _ => True

theorem viewBits_fill (xs : Bits) :
    ∃ fill, Bytes.viewBits (Bytes.packBits xs) = xs ++ fill := by
  refine ⟨(Bytes.viewBits (Bytes.packBits xs)).drop xs.length, ?_⟩
  have h := List.take_append_drop xs.length (Bytes.viewBits (Bytes.packBits xs))
  rw [Bytes.viewBits_packBits_take] at h
  exact h.symm

theorem fixed_yields {I : Type} [Fixed I] (xs : List I) : Yields nextFixed (encAll xs) xs [] := by
  have h := nextFixed_yields xs []
  rwa [List.append_nil] at h

/-- Flat items come back whatever their number. -/
theorem Item.opens_of_flat : (t : Item) → (h : t.decodable = true) → t.flat = true → (xs : List t.Val) →
    @Opens t.Val (t.decode h) xs (t.image xs)
  | .bool, _, _, xs => by
    obtain ⟨fill, hfill⟩ := viewBits_fill xs
    have himage : Item.bool.image xs = Bytes.packBits xs := congrArg Bytes.packBits (bits_collect xs)
    refine ⟨Bytes.viewBits (Bytes.packBits xs), fill, by rw [himage]; rfl, ?_⟩
    rw [hfill]
    exact bits_yields xs fill
  | .prim (.plain p), _, _, xs => by
    have himage : (Item.prim (.plain p)).image xs = encAll xs := congrArg encAll (vec_collect xs)
    exact ⟨encAll xs, [], by rw [himage]; rfl, fixed_yields xs⟩
  | .prim (.niche p), _, _, xs => by
    have himage : (Item.prim (.niche p)).image xs = encAll xs := congrArg encAll (vec_collect xs)
    exact ⟨encAll xs, [], by rw [himage]; rfl, fixed_yields xs⟩
  | .option (.prim (.niche p)), _, _, xs => by
    have himage : (Item.option (.prim (.niche p))).image xs = encAll xs :=
      congrArg (fun acc : OptInSitu (Prim.niche p).Val => encAll acc.data) (optInSitu_collect xs)
    exact ⟨encAll xs, [], by rw [himage]; rfl, fixed_yields xs⟩

section Rows
variable {I : Type} [Unfold I] [LawfulUnfold I]

/-- The data region below a sequence, when its elements read back. -/
theorem dataRegion_collect (ys : List I) :
    dataRegion (collect ys : RawAcc I) = if ys.isEmpty then [] else image ys := by
  rw [dataRegion, LawfulAcc.isEmpty_collect]
  rfl

omit [Unfold I] [LawfulUnfold I] in
theorem vecCursor_eq [d : Decode I] (src : Read.Seq) :
    vecCursor d.Src I src = (fun c => ⟨src.ends, 0, c⟩) <$> openIter I src.data := by
  rw [vecCursor, openIter]
  cases ((deserialize (α := d.Src)).run src.data).1 with
  | error e => rfl
  | ok elements =>
    rw [ok_bind, ok_bind]
    cases Decoder.iter (I := I) elements <;> rfl

theorem openIter_seq [d : Decode I] {ends : List U64} {ys : List I} {n : NonZero}
    (hs : partsSize ends (collect ys : RawAcc I) = .ok n) :
    @openIter (List I) (vecDecode d) (partsEnc ends (collect ys : RawAcc I)) =
      (fun c => ⟨encAll ends, 0, c⟩) <$> openIter I (dataRegion (collect ys : RawAcc I)) := by
  change (do vecCursor (Decode.Src I) I (← ((deserialize (α := Read.Seq)).run _).1)) = _
  rw [seq_parse hs, ok_bind, vecCursor_eq]

theorem openIter_optSeq [d : Decode I] {ends : List U64} {ys : List I} {n : NonZero}
    (hs : partsSize ends (collect ys : RawAcc I) = .ok n) :
    @openIter (Option (List I)) (optVecDecode d) (partsEnc ends (collect ys : RawAcc I)) =
      (fun c => ⟨encAll ends, 0, c⟩) <$> openIter I (dataRegion (collect ys : RawAcc I)) :=
  openIter_seq hs

theorem vec_opens [d : Decode I] {xs : List (List I)} {n : NonZero}
    (hs : partsSize (endsFrom 0 (xs.map List.length)) (collect xs.flatten : RawAcc I) = .ok n)
    (hlt : xs.flatten.length < 2 ^ 64 - 1)
    (hin : Opens I xs.flatten (dataRegion (collect xs.flatten : RawAcc I))) :
    @Opens (List I) (vecDecode d) xs
      (partsEnc (endsFrom 0 (xs.map List.length)) (collect xs.flatten : RawAcc I)) := by
  obtain ⟨c, c', hc, hy⟩ := hin
  rw [List.length_flatten] at hlt
  refine ⟨_, _, ?_, rows_yields List.length vecRow_writes 0 (Run.flatten hy) (by omega)⟩
  rw [openIter_seq hs, hc]
  rfl

theorem optVec_opens [d : Decode I] {xs : List (Option (List I))} {n : NonZero}
    (hs : partsSize (optEndsFrom 0 (xs.map (Option.map List.length)))
      (collect (somes xs).flatten : RawAcc I) = .ok n)
    (hlt : (somes xs).flatten.length < 2 ^ 64 - 1)
    (hin : Opens I (somes xs).flatten (dataRegion (collect (somes xs).flatten : RawAcc I))) :
    @Opens (Option (List I)) (optVecDecode d) xs
      (partsEnc (optEndsFrom 0 (xs.map (Option.map List.length))) (collect (somes xs).flatten : RawAcc I)) := by
  obtain ⟨c, c', hc, hy⟩ := hin
  rw [List.length_flatten] at hlt
  refine ⟨_, _, ?_, optRows_yields List.length presentVecRow_writes 0 (Run.flatten hy) (by omega)⟩
  rw [openIter_optSeq hs, hc]
  rfl

end Rows

section Strings

theorem bytes_region (bs : Bytes) : dataRegion (collect bs : Bytes) = bs := by
  rw [vec_collect, dataRegion]
  cases bs with
  | nil => rfl
  | cons b bs => exact encAll_bytes (b :: bs)

theorem strings_opens {xs : List String} {n : NonZero}
    (hs : partsSize (endsFrom 0 ((xs.map intoBytes).map List.length)) (collect (xs.map intoBytes).flatten : Bytes) = .ok n)
    (hlt : (xs.map intoBytes).flatten.length < 2 ^ 64 - 1) :
    @Opens String (Item.string.decode rfl) xs
      (partsEnc (endsFrom 0 ((xs.map intoBytes).map List.length)) (collect (xs.map intoBytes).flatten : Bytes)) := by
  have hdata := bytes_region (xs.map intoBytes).flatten
  have hrun := strings_run xs []
  rw [List.append_nil] at hrun
  rw [List.length_flatten, List.map_map] at hlt
  rw [List.map_map] at hs ⊢
  refine ⟨⟨encAll (endsFrom 0 (xs.map (List.length ∘ intoBytes))), 0, (xs.map intoBytes).flatten⟩, _, ?_,
    rows_yields (List.length ∘ intoBytes) strRow_writes 0 hrun (by omega)⟩
  change (do Except.ok (strCursor (← ((deserialize (α := Read.Seq)).run _).1))) = _
  rw [seq_parse hs, ok_bind, hdata]
  rfl

theorem optStrings_opens {xs : List (Option String)} {n : NonZero}
    (hs : partsSize (optEndsFrom 0 ((xs.map (Option.map intoBytes)).map (Option.map List.length)))
      (collect ((somes xs).map intoBytes).flatten : Bytes) = .ok n)
    (hlt : ((somes xs).map intoBytes).flatten.length < 2 ^ 64 - 1) :
    @Opens (Option String) ((Item.option .string).decode rfl) xs
      (partsEnc (optEndsFrom 0 ((xs.map (Option.map intoBytes)).map (Option.map List.length)))
        (collect ((somes xs).map intoBytes).flatten : Bytes)) := by
  have hdata := bytes_region ((somes xs).map intoBytes).flatten
  have hrun := strings_run (somes xs) []
  have hlens : (xs.map (Option.map intoBytes)).map (Option.map List.length) =
      xs.map (Option.map (List.length ∘ intoBytes)) := by
    rw [List.map_map, Option.map_comp_map]
  rw [List.append_nil] at hrun
  rw [List.length_flatten, List.map_map] at hlt
  rw [hlens] at hs ⊢
  refine ⟨⟨encAll (optEndsFrom 0 (xs.map (Option.map (List.length ∘ intoBytes)))), 0,
    ((somes xs).map intoBytes).flatten⟩, _, ?_,
    optRows_yields (List.length ∘ intoBytes) strRow_writes 0 hrun (by omega)⟩
  change (do Except.ok (strCursor (← ((deserialize (α := Read.Seq)).run _).1))) = _
  rw [seq_parse hs, ok_bind, hdata]
  rfl

end Strings

section OptBitVec

theorem optBits_opens {xs : List (Option Bool)} {n : NonZero}
    (hs : partsSize (xs.map Option.isSome) (collect (somes xs) : Bits) = .ok n) :
    @Opens (Option Bool) ((Item.option .bool).decode rfl) xs
      (partsEnc (xs.map Option.isSome) (collect (somes xs) : Bits)) := by
  obtain ⟨fill, hfill⟩ := viewBits_fill (somes xs)
  obtain ⟨pad, hpad⟩ := viewBits_fill (xs.map Option.isSome)
  have hdata : ((deserialize (α := Bits)).run (dataRegion (collect (somes xs) : Bits))).1 =
      .ok (Bytes.viewBits (Bytes.packBits (somes xs))) := by
    rw [bits_collect, dataRegion]
    cases somes xs <;> rfl
  refine ⟨(xs.map Option.isSome ++ pad, somes xs ++ fill), _, ?_, optBitVec_yields pad (bits_yields (somes xs) fill)⟩
  change (do
    let src ← ((deserialize (α := Read.OptBitVec Bits)).run _).1
    return (src.mask, ← Decoder.iter (I := Bool) src.data)) = _
  rw [optBitVec_parse hs hdata rfl, ok_bind, hpad, hfill]
  rfl

theorem optPlain_opens {p : Plain} {xs : List (Option (Prim.plain p).Val)} {n : NonZero}
    (hs : partsSize (xs.map Option.isSome) (collect (somes xs) : List (Prim.plain p).Val) = .ok n) :
    @Opens (Option (Prim.plain p).Val) ((Item.option (.prim (.plain p))).decode rfl) xs
      (partsEnc (xs.map Option.isSome) (collect (somes xs) : List (Prim.plain p).Val)) := by
  obtain ⟨pad, hpad⟩ := viewBits_fill (xs.map Option.isSome)
  have hdata : ((deserialize (α := Bytes)).run (dataRegion (collect (somes xs) : List (Prim.plain p).Val))).1 =
      .ok (encAll (somes xs)) := by
    rw [vec_collect, dataRegion]
    cases somes xs <;> rfl
  refine ⟨(xs.map Option.isSome ++ pad, encAll (somes xs)), _, ?_,
    optBitVec_yields (S := Bytes) pad (fixed_yields (somes xs))⟩
  change (do
    let src ← ((deserialize (α := Read.OptBitVec Bytes)).run _).1
    return (src.mask, ← Decoder.iter (I := (Prim.plain p).Val) src.data)) = _
  rw [optBitVec_parse hs hdata rfl, ok_bind, hpad]
  rfl

end OptBitVec

theorem dataSize_of_parts {H D : Type} [Serialize H] [Acc D] {head : H} {data : D} {n : NonZero}
    (h : partsSize head data = .ok n) (hd : Acc.isEmpty data = false) :
    ∃ k, Serialize.size data = .ok k := by
  obtain ⟨-, -, ⟨he, -⟩ | ⟨-, m, hm, -⟩⟩ := partsSize_eq_ok h
  · rw [he] at hd
    cases hd
  · obtain ⟨k, hk, -⟩ := sizedBuf_size_eq_ok hm
    exact ⟨k, hk⟩

theorem Item.dataRegion_eq (t : Item) (ys : List t.Val) :
    dataRegion (t.acc ys) = if ys.isEmpty then [] else t.image ys := dataRegion_collect ys

theorem Item.image_nil {t : Item} (h : t.flat = true) : t.image [] = [] := by
  rcases t with _ | (_ | _) | _ | (_ | (_ | _) | _ | _ | _) | _ <;> first | rfl | cases h

theorem Item.elements_open {t : Item} {h : t.decodable = true} {ys : List t.Val}
    (hr : (t.flat || (!ys.isEmpty && t.regular ys)) = true)
    (hin : ys ≠ [] → t.regular ys = true → @Opens t.Val (t.decode h) ys (t.image ys)) :
    @Opens t.Val (t.decode h) ys (dataRegion (t.acc ys)) := by
  rw [t.dataRegion_eq]
  cases hf : t.flat with
  | true =>
    have hflat := t.opens_of_flat h hf ys
    cases ys with
    | nil => rwa [image_nil hf] at hflat
    | cons y ys => exact hflat
  | false =>
    rw [hf, Bool.false_or, Bool.and_eq_true, Bool.not_eq_true'] at hr
    rw [if_neg (by simp [hr.1])]
    exact hin (by simpa using hr.1) hr.2

theorem Item.elements_size (t : Item) {H : Type} [Serialize H] {head : H} {ys : List t.Val} {n : NonZero}
    (h : partsSize head (t.acc ys) = .ok n) (hne : ys ≠ []) : ∃ k, Serialize.size (t.acc ys) = .ok k := by
  refine dataSize_of_parts h ?_
  rw [Item.acc, LawfulAcc.isEmpty_collect]
  simpa using hne

theorem Item.opens : (t : Item) → (h : t.decodable = true) → (xs : List t.Val) → (n : NonZero) →
    Serialize.size (t.acc xs) = .ok n → t.Counted xs → t.regular xs = true →
    @Opens t.Val (t.decode h) xs (t.image xs)
  | .bool, h, xs, _, _, _, _ => Item.bool.opens_of_flat h rfl xs
  | .prim p, h, xs, _, _, _, _ => (Item.prim p).opens_of_flat h rfl xs
  | .option (.prim (.niche p)), h, xs, _, _, _, _ => (Item.option (.prim (.niche p))).opens_of_flat h rfl xs
  | .option .bool, _, xs, n, hs, _, _ => by
    rw [acc_optBool] at hs
    rw [image_optBool]
    exact optBits_opens hs
  | .option (.prim (.plain p)), _, xs, n, hs, _, _ => by
    rw [acc_optPlain] at hs
    rw [image_optPlain]
    exact optPlain_opens hs
  | .string, _, xs, n, hs, hc, _ => by
    rw [acc_string] at hs
    rw [image_string]
    exact strings_opens hs hc
  | .option .string, _, xs, n, hs, hc, _ => by
    rw [acc_optString] at hs
    rw [image_optString]
    exact optStrings_opens hs hc
  | .option (.option t), h, _, _, _, _, _ => by cases h
  | .option (.vec t), h, xs, n, hs, hc, hr => by
    rw [acc_optVec] at hs
    rw [image_optVec]
    refine @optVec_opens _ _ _ (t.decode h) xs n hs hc.1 (t.elements_open hr ?_)
    intro hne hreg
    obtain ⟨k, hk⟩ := t.elements_size hs hne
    exact t.opens h _ k hk hc.2 hreg
  | .vec t, h, xs, n, hs, hc, hr => by
    rw [acc_vec] at hs
    rw [image_vec]
    refine @vec_opens _ _ _ (t.decode h) xs n hs hc.1 (t.elements_open hr ?_)
    intro hne hreg
    obtain ⟨k, hk⟩ := t.elements_size hs hne
    exact t.opens h _ k hk hc.2 hreg

end Msca
