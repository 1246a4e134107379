import Msca.Table

/-! Reading bytes that nobody wrote. No slice of a map, whatever it holds, makes a decoder panic: each step ends in an item
or in an error, and leaves a cursor of which the same holds. -/
namespace Msca
set_option autoImplicit false
open Checked

/-! ## Computations that do not panic -/

/-- The computation ends in a value with `P` or in an error of the crate. -/
def Calm {α : Type} (P : α → Prop) : Res α → Prop
  | .ok a => P a
  | .error e => e ≠ .panic

namespace Calm
variable {α β : Type} {P : α → Prop} {R : β → Prop}

theorem ne_panic {r : Res α} (h : Calm P r) : r ≠ .error .panic := by
  rintro rfl
  exact h rfl

theorem of_eq {r : Res α} {a : α} (h : Calm P r) (hr : r = .ok a) : P a := by
  subst hr
  exact h

theorem bind {r : Res α} {f : α → Res β} (h : Calm P r) (hf : ∀ a, P a → Calm R (f a)) : Calm R (r >>= f) := by
  cases r with
  | error e => exact h
  | ok a => exact hf a h

theorem map {r : Res α} {f : α → β} (h : Calm P r) (hf : ∀ a, P a → R (f a)) : Calm R (f <$> r) := by
  cases r with
  | error e => exact h
  | ok a => exact hf a h

theorem okOr {o : Option α} {f : Fault} (hf : f ≠ .panic) (h : ∀ a, o = some a → P a) : Calm P (Msca.okOr f o) := by
  cases o with
  | none => exact hf
  | some a => exact h a rfl

end Calm

theorem calm_subOr (a b : Nat) : Calm (fun _ => True) (subOr a b) := .okOr (by simp) fun _ _ => trivial

/-! ## Parsers -/

/-- No slice of a memory makes the parser panic. -/
def Parse.Calm {α : Type} (P : α → Prop) (p : Parse α) : Prop :=
  ∀ src : Bytes, src.length < 2 ^ 63 → Msca.Calm P (p.run src).1 ∧ (p.run src).2.length < 2 ^ 63

namespace Parse.Calm
variable {α β : Type} {P : α → Prop} {R : β → Prop}

theorem bind {p : Parse α} {f : α → Parse β} (h : Parse.Calm P p) (hf : ∀ a, P a → Parse.Calm R (f a)) :
    Parse.Calm R (p >>= f) := by
  intro src hsrc
  obtain ⟨hvalue, hrest⟩ := h src hsrc
  rcases hp : p.run src with ⟨r, rest⟩
  rw [hp] at hvalue hrest
  cases r with
  | error e =>
    rw [run_bind_error hp]
    exact ⟨hvalue, hrest⟩
  | ok a =>
    rw [run_bind_ok hp]
    exact hf a hvalue rest hrest

theorem pure {a : α} (h : P a) : Parse.Calm P (pure a : Parse α) := fun _ hsrc => ⟨h, hsrc⟩

theorem lift {r : Res α} (h : Msca.Calm P r) : Parse.Calm P (Parse.lift r) := fun _ hsrc => ⟨h, hsrc⟩

theorem splitFront (n : Nat) : Parse.Calm (fun bs : Bytes => bs.length = n ∧ n < 2 ^ 63) (splitFront n) := by
  intro src hsrc
  by_cases h : n ≤ src.length
  · rw [splitFront_of_le h]
    exact ⟨⟨List.length_take_of_le h, by omega⟩, by rw [List.length_drop]; omega⟩
  · rw [splitFront_of_lt (Nat.lt_of_not_le h)]
    exact ⟨by simp [Msca.Calm, truncated], hsrc⟩

theorem takeAll : Parse.Calm (fun bs : Bytes => bs.length < 2 ^ 63) takeAll := fun _ hsrc =>
  ⟨hsrc, show 0 < 2 ^ 63 by decide⟩

end Parse.Calm

/-- Fixed-width types whose every image is read without a panic. -/
class CalmFixed (α : Type) [Fixed α] : Prop where
  ofLe : ∀ bs, Calm (fun _ => True) (Fixed.ofLe (α := α) bs)

theorem Prim.calm_ofBits (p : Prim) (n : Nat) : Calm (fun _ => True) (p.ofBits n) := by
  rw [ofBits]
  split
  · trivial
  · rcases p with p | (_ | _ | _) <;> simp [Calm, Prim.invalid]

instance (p : Prim) : CalmFixed p.Val := ⟨fun bs => p.calm_ofBits (Bytes.ofLe bs)⟩

instance (p : Niche) : CalmFixed (Option (Prim.niche p).Val) where
  ofLe bs := by
    change Calm _ (p.ofOptBits (Bytes.ofLe bs))
    rw [Niche.ofOptBits]
    split
    · trivial
    · exact ((Prim.niche p).calm_ofBits _).map fun _ _ => trivial

instance : CalmFixed U64 := ⟨fun _ => trivial⟩

section Sources

theorem fixed_calm {α : Type} [Fixed α] [CalmFixed α] : Parse.Calm (fun _ => True) (deserialize (α := α)) :=
  (Parse.Calm.splitFront (Fixed.width α)).bind fun bs _ => .lift (CalmFixed.ofLe bs)

theorem nonZero_calm : Parse.Calm (fun _ => True) (deserialize (α := NonZero)) :=
  fixed_calm.bind fun _ _ => .lift (.okOr (by simp) fun _ _ => trivial)

/-- The size of a region is at most that of the slice it was split from, so its padding is in range. -/
theorem sizedBody_calm : Parse.Calm (fun bs : Bytes => bs.length < 2 ^ 63) sizedBody := by
  refine nonZero_calm.bind fun size _ => (Parse.Calm.splitFront size.get).bind fun body hbody => ?_
  obtain ⟨hlen, hlt⟩ := hbody
  have hround := roundUp_lt size.get
  have hpad : Calm (fun _ => True) (pad size.get) := by
    rw [pad_of_lt (by omega)]
    trivial
  exact (Parse.Calm.lift hpad).bind fun fill _ => (Parse.Calm.splitFront fill).bind fun _ _ => .pure (by omega)

variable {S : Type} [Deserialize S] {P : S → Prop}

theorem regionInto_calm (h : Parse.Calm P (deserialize (α := S))) : Parse.Calm P (regionInto S) :=
  sizedBody_calm.bind fun body hbody => .lift (h body hbody).1

theorem omittable_calm (h : Parse.Calm P (deserialize (α := S))) {default : S} (hdefault : P default) :
    Parse.Calm P (omittable default) := by
  have hremaining : Parse.Calm (fun _ : Nat => True) Parse.remaining := fun _ hsrc => ⟨trivial, hsrc⟩
  refine hremaining.bind fun n _ => ?_
  by_cases hn : n = 0
  · rw [if_pos hn]
    exact .pure hdefault
  · rw [if_neg hn]
    exact regionInto_calm h

theorem bytes_calm : Parse.Calm (fun bs : Bytes => bs.length < 2 ^ 63) (deserialize (α := Bytes)) := Parse.Calm.takeAll

theorem bits_calm : Parse.Calm (fun _ : Bits => True) (deserialize (α := Bits)) := Parse.Calm.takeAll.bind fun _ _ => .pure trivial

theorem seq_calm : Parse.Calm (fun src : Read.Seq => src.ends.length < 2 ^ 63 ∧ src.data.length < 2 ^ 63)
    (deserialize (α := Read.Seq)) :=
  (regionInto_calm bytes_calm).bind fun _ hends =>
    (omittable_calm bytes_calm (show ([] : Bytes).length < 2 ^ 63 by decide)).bind fun _ hdata => .pure ⟨hends, hdata⟩

theorem optInSitu_calm : Parse.Calm (fun src : Read.OptInSitu => src.data.length < 2 ^ 63)
    (deserialize (α := Read.OptInSitu)) := Parse.Calm.takeAll.bind fun _ hdata => .pure hdata

theorem optBitVec_calm {S : Type} [DefaultSource S] {P : S → Prop} (h : Parse.Calm P (deserialize (α := S)))
    (hdefault : P DefaultSource.default) :
    Parse.Calm (fun src : Read.OptBitVec S => P src.data) (deserialize (α := Read.OptBitVec S)) :=
  (regionInto_calm bits_calm).bind fun _ _ => (omittable_calm h hdefault).bind fun _ hdata => .pure hdata

end Sources

/-! ## Decoders -/

/-- The steps of an iterator from cursors with `good` do not panic, and lead to cursors with `good`. -/
def CalmNext {C I : Type} (good : C → Prop) (next : C → Option (Res I) × C) : Prop :=
  ∀ c, good c → (∀ r, (next c).1 = some r → Calm (fun _ => True) r) ∧ good (next c).2

/-- Neither iterating over a source with `fits` nor reading its first item panics. -/
structure CalmDecoder (S I : Type) [Decoder S I] (fits : S → Prop) : Prop where
  iter : ∃ good : Decoder.Cursor S I → Prop, (∀ src, fits src → Calm good (Decoder.iter (I := I) src)) ∧
    CalmNext good (Decoder.next (S := S) (I := I))
  one : ∀ src, fits src → Calm (fun _ => True) (Decoder.one (I := I) src)

theorem nextFixed_calm {I : Type} [Fixed I] [CalmFixed I] : CalmNext (fun bs : Bytes => bs.length < 2 ^ 63) (nextFixed (I := I)) := by
  intro bs hbs
  obtain ⟨hitem, hrest⟩ := fixed_calm (α := I) bs hbs
  rw [nextFixed]
  split
  · exact ⟨fun r hr => (by cases hr), hbs⟩
  · exact ⟨fun r hr => (by cases hr; exact hitem), hrest⟩

theorem bytesDecoder_calm {I : Type} [Fixed I] [CalmFixed I] :
    @CalmDecoder Bytes I bytesDecoder fun bs => bs.length < 2 ^ 63 where
  iter := ⟨fun bs : Bytes => bs.length < 2 ^ 63, fun _ hsrc => hsrc, nextFixed_calm⟩
  one bs hbs := (fixed_calm (α := I) bs hbs).1

theorem optInSituDecoder_calm {I : Type} [Fixed (Option I)] [CalmFixed (Option I)] :
    CalmDecoder Read.OptInSitu (Option I) fun src => src.data.length < 2 ^ 63 where
  iter := ⟨fun bs : Bytes => bs.length < 2 ^ 63, fun _ hsrc => hsrc, nextFixed_calm⟩
  one src hsrc := (fixed_calm (α := Option I) src.data hsrc).1

theorem bitsDecoder_calm : CalmDecoder Bits Bool fun _ => True where
  iter := by
    refine ⟨fun _ => True, fun _ _ => trivial, fun c _ => ⟨fun r hr => ?_, trivial⟩⟩
    cases c with
    | nil => cases hr
    | cons b bits =>
      cases hr
      trivial
  one _ _ := .okOr (by simp [truncated]) fun _ _ => trivial

theorem optBitVecDecoder_calm {S I : Type} [Decoder S I] {P : S → Prop} (h : CalmDecoder S I P) :
    CalmDecoder (Read.OptBitVec S) (Option I) fun src => P src.data where
  iter := by
    obtain ⟨good, hiter, hnext⟩ := h.iter
    refine ⟨fun c => good c.2, fun src hsrc => (hiter src.data hsrc).bind fun c hc => hc, ?_⟩
    rintro ⟨mask, c⟩ hc
    obtain ⟨hitem, hrest⟩ := hnext c hc
    cases mask with
    | nil => exact ⟨fun r hr => (by cases hr), hc⟩
    | cons b mask =>
      cases b with
      | false => exact ⟨fun r hr => (by cases hr; trivial), hc⟩
      | true =>
        refine ⟨fun r hr => ?_, hrest⟩
        obtain ⟨item, hnextItem, rfl⟩ := Option.map_eq_some_iff.mp hr
        exact (hitem item hnextItem).map fun _ _ => trivial
  one src hsrc := by
    refine (bitsDecoder_calm.one src.mask trivial).bind fun b _ => ?_
    cases b with
    | false => trivial
    | true => exact (h.one src.data hsrc).map fun _ _ => trivial

/-! ## Rows -/

section Rows
variable {D R : Type} {good : D → Prop}

/-- Cursors over the ends of rows in memory. -/
def Rows.Good (good : D → Prop) (c : Rows D) : Prop := c.ends.length < 2 ^ 63 ∧ good c.data

/-- A row that does not panic, whatever its end. -/
def CalmRow (good : D → Prop) (row : Nat → Rows D → Res R × Rows D) : Prop :=
  ∀ stop c, c.Good good → Calm (fun _ => True) (row stop c).1 ∧ (row stop c).2.Good good

theorem CalmRow.next {row : Nat → Rows D → Res R × Rows D} (h : CalmRow good row) :
    CalmNext (Rows.Good good) fun c : Rows D => c.step row := by
  intro c hc
  obtain ⟨hstop, hends⟩ := fixed_calm (α := U64) c.ends hc.1
  dsimp only [Rows.step]
  split
  · exact ⟨fun r hr => (by cases hr), hc⟩
  · split
    next e he =>
      rw [he] at hstop
      exact ⟨fun r hr => (by cases hr; exact hstop), hends, hc.2⟩
    next stop _ =>
      obtain ⟨hrow, hgood⟩ := h stop.val { c with ends := _ } ⟨hends, hc.2⟩
      exact ⟨fun r hr => (by cases hr; exact hrow), hgood⟩

theorem CalmRow.opt {row : Nat → Rows D → Res R × Rows D} (h : CalmRow good row) : CalmRow good (optRow row) := by
  intro stop c hc
  rw [optRow]
  split
  · exact ⟨trivial, hc⟩
  · exact ⟨(h stop c hc).1.map fun _ _ => trivial, (h stop c hc).2⟩

theorem strRow_calm : CalmRow (fun _ : Bytes => True) strRow := by
  intro stop c hc
  rw [strRow]
  have hsub := calm_subOr stop c.start
  split
  next e he =>
    rw [he] at hsub
    exact ⟨hsub, hc⟩
  next len _ =>
    split
    · exact ⟨.okOr (by simp) fun _ _ => trivial, hc.1, trivial⟩
    · exact ⟨by simp [Calm, truncated], hc⟩

theorem firstOf_calm {I C : Type} {good : C → Prop} {next : C → Option (Res I) × C} (h : CalmNext good next) {c : Res C}
    (hc : Calm good c) : Calm (fun _ => True) (firstOf next c) := by
  refine hc.bind fun c hc => ?_
  cases hnext : (next c).1 with
  | none => simp [Calm, truncated]
  | some item => exact (h c hc).1 item hnext

/-- A decoder of rows whose cursor opens without a panic. -/
theorem CalmRow.decoder {S I D : Type} {good : D → Prop} {row : Nat → Rows D → Res I × Rows D} (h : CalmRow good row)
    {open? : S → Res (Rows D)} {fits : S → Prop} (hopen : ∀ src, fits src → Calm (Rows.Good good) (open? src)) :
    @CalmDecoder S I ⟨Rows D, open?, fun c => c.step row, fun src => firstOf (fun c => c.step row) (open? src)⟩ fits :=
  @CalmDecoder.mk S I ⟨Rows D, open?, fun c => c.step row, fun src => firstOf (fun c => c.step row) (open? src)⟩ fits
    ⟨Rows.Good good, hopen, h.next⟩ fun src hsrc => firstOf_calm h.next (hopen src hsrc)

section Vec
variable {S I : Type} [Decoder S I] {good : Decoder.Cursor S I → Prop}

theorem takeCollect_calm {next : Decoder.Cursor S I → Option (Res I) × Decoder.Cursor S I} (h : CalmNext good next) (n : Nat)
    {c : Decoder.Cursor S I} (hc : good c) :
    Calm (fun _ => True) (takeCollect next n c).1 ∧ good (takeCollect next n c).2 := by
  induction n generalizing c with
  | zero => exact ⟨trivial, hc⟩
  | succ n ih =>
    obtain ⟨hitem, hrest⟩ := h c hc
    dsimp only [takeCollect]
    cases hnext : (next c).1 with
    | none => exact ⟨trivial, hrest⟩
    | some item =>
      cases item with
      | error e => exact ⟨hitem _ hnext, hrest⟩
      | ok i => exact ⟨(ih hrest).1.map fun _ _ => trivial, (ih hrest).2⟩

theorem vecRow_calm (h : CalmNext good (Decoder.next (S := S) (I := I))) : CalmRow good (vecRow (S := S) (I := I)) := by
  intro stop c hc
  rw [vecRow]
  have hsub := calm_subOr stop c.start
  split
  next e he =>
    rw [he] at hsub
    exact ⟨hsub, hc⟩
  next n _ => exact ⟨(takeCollect_calm h n hc.2).1, hc.1, (takeCollect_calm h n hc.2).2⟩

theorem presentVecRow_calm (h : CalmNext good (Decoder.next (S := S) (I := I))) :
    CalmRow good (presentVecRow (S := S) (I := I)) := fun stop c hc =>
  ⟨(takeCollect_calm h (stop - c.start) hc.2).1, hc.1, (takeCollect_calm h (stop - c.start) hc.2).2⟩

theorem vecCursor_calm [Deserialize S] {fits : S → Prop} (hsource : Parse.Calm fits (deserialize (α := S)))
    (hiter : ∀ src, fits src → Calm good (Decoder.iter (I := I) src)) (src : Read.Seq)
    (hsrc : src.ends.length < 2 ^ 63 ∧ src.data.length < 2 ^ 63) : Calm (Rows.Good good) (vecCursor S I src) :=
  ((hsource src.data hsrc.2).1).bind fun elements helements => (hiter elements helements).bind fun _ hc => ⟨hsrc.1, hc⟩

end Vec
end Rows

/-! ## Item types -/

/-- The source of an item type parses, and its items are read, without a panic. -/
def CalmDecode (I : Type) [d : Decode I] : Prop :=
  ∃ fits : d.Src → Prop, Parse.Calm fits (deserialize (α := d.Src)) ∧ CalmDecoder d.Src I fits

theorem strCursor_calm (src : Read.Seq) (hsrc : src.ends.length < 2 ^ 63 ∧ src.data.length < 2 ^ 63) :
    Calm (Rows.Good fun _ : Bytes => True) (.ok (strCursor src)) := ⟨hsrc.1, trivial⟩

theorem Item.calm : (t : Item) → (h : t.decodable = true) → @CalmDecode t.Val (t.decode h)
  | .bool, _ => ⟨_, bits_calm, bitsDecoder_calm⟩
  | .prim _, _ => ⟨_, bytes_calm, bytesDecoder_calm⟩
  | .string, _ => ⟨_, seq_calm, strRow_calm.decoder strCursor_calm⟩
  | .option .bool, _ => ⟨_, optBitVec_calm bits_calm trivial, optBitVecDecoder_calm bitsDecoder_calm⟩
  | .option (.prim (.plain _)), _ =>
    ⟨_, optBitVec_calm bytes_calm (show ([] : Bytes).length < 2 ^ 63 by decide), optBitVecDecoder_calm bytesDecoder_calm⟩
  | .option (.prim (.niche _)), _ => ⟨_, optInSitu_calm, optInSituDecoder_calm⟩
  | .option .string, _ => ⟨_, seq_calm, strRow_calm.opt.decoder strCursor_calm⟩
  | .option (.vec t), h => by
    obtain ⟨_, hsource, ⟨_, hiter, hnext⟩, -⟩ := Item.calm t h
    exact ⟨_, seq_calm, (presentVecRow_calm hnext).opt.decoder (vecCursor_calm hsource hiter)⟩
  | .vec t, h => by
    obtain ⟨_, hsource, ⟨_, hiter, hnext⟩, -⟩ := Item.calm t h
    exact ⟨_, seq_calm, (vecRow_calm hnext).decoder (vecCursor_calm hsource hiter)⟩

/-! ## Buffers -/

theorem takeItems_calm {C I : Type} {good : C → Prop} {next : C → Option (Res I) × C} (h : CalmNext good next) (n : Nat)
    {c : C} (hc : good c) : ∀ r ∈ takeItems next n c, Calm (fun _ => True) r := by
  induction n generalizing c with
  | zero => exact fun r hr => absurd hr List.not_mem_nil
  | succ n ih =>
    obtain ⟨hitem, hrest⟩ := h c hc
    intro r hr
    rw [takeItems] at hr
    cases hnext : (next c).1 with
    | none =>
      rw [hnext] at hr
      cases hr
    | some item =>
      rw [hnext] at hr
      rcases List.mem_cons.mp hr with rfl | hr
      · exact hitem _ hnext
      · exact ih hrest r hr

theorem slice_calm {mmap : Bytes} (h : mmap.length < 2 ^ 63) (s : Sector) :
    Calm (fun bs : Bytes => bs.length < 2 ^ 63) (s.slice mmap) := by
  have hnext : Calm (fun _ : Nat => True) (okOr zeroError s.next) := .okOr (by simp) fun _ _ => trivial
  refine hnext.bind fun stop _ => ?_
  split
  · rw [Bytes.slice]
    have hlen := List.length_take_le' s.size (mmap.drop s.offset)
    rw [List.length_drop] at hlen
    exact Nat.lt_of_le_of_lt hlen (Nat.lt_of_le_of_lt (Nat.sub_le _ _) h)
  · simp [Calm]

section
variable {I : Type} [Decode I] (h : CalmDecode I)
include h

theorem readOne_calm {body : Bytes} (hbody : body.length < 2 ^ 63) : Calm (fun _ => True) (readOne I body) := by
  obtain ⟨fits, hsource, -, hone⟩ := h
  exact (hsource body hbody).1.bind hone

theorem readItems_calm (n : Nat) {body : Bytes} (hbody : body.length < 2 ^ 63) :
    Calm (fun items : List (Res I) => ∀ r ∈ items, Calm (fun _ => True) r) (readItems I n body) := by
  obtain ⟨fits, hsource, ⟨good, hiter, hnext⟩, -⟩ := h
  have hopen : Calm good (openIter I body) := (hsource body hbody).1.bind hiter
  exact hopen.bind fun c hc => takeItems_calm hnext n hc

theorem buffer_calm {mmap : Bytes} (hmmap : mmap.length < 2 ^ 63) (b : Manifest.Buffer) :
    ∀ r ∈ Src.buffer I mmap b, Calm (fun _ => True) r := by
  have hbody : Calm (fun items : List (Res I) => ∀ r ∈ items, Calm (fun _ => True) r)
      (do Src.body I b (← b.sector.slice mmap)) := by
    refine (slice_calm hmmap b.sector).bind fun body hbody => ?_
    cases b with
    | compact sector count =>
      refine (readOne_calm h hbody).bind fun x _ r hr => ?_
      rw [List.eq_of_mem_replicate hr]
      trivial
    | basic sector count => exact readItems_calm h _ hbody
    | detailed sector count min max => exact readItems_calm h _ hbody
  intro r hr
  rw [Src.buffer] at hr
  split at hr
  next items hitems => exact hbody.of_eq hitems r hr
  next e he =>
    rw [he] at hbody
    rw [List.mem_singleton.mp hr]
    exact hbody

/-- Whatever a map and the descriptors of a column say, iterating over the column does not panic. -/
theorem intoIter_calm {mmap : Bytes} (hmmap : mmap.length < 2 ^ 63) (buffers : List Manifest.Buffer) :
    ∀ r ∈ Src.intoIter I buffers mmap, Calm (fun _ => True) r := by
  intro r hr
  obtain ⟨b, -, hr⟩ := List.mem_flatMap.mp hr
  exact buffer_calm h hmmap b r hr

end

/-! ## Chains -/

namespace Src

theorem excludeFrom_calm {test : Manifest.Buffer → Res Bool} {buffers : List Manifest.Buffer}
    (h : ∀ buf ∈ buffers, Calm (fun _ => True) (test buf)) (n : Nat) (mask : Mask) :
    Calm (fun _ => True) (excludeFrom test n mask buffers) := by
  induction buffers generalizing n mask with
  | nil =>
    rcases mask with _ | ⟨_ | _, mask⟩
    all_goals trivial
  | cons buf buffers ih =>
    have hrest := ih fun b hb => h b (List.mem_cons_of_mem _ hb)
    rcases mask with _ | ⟨_ | _, mask⟩
    · trivial
    · exact (hrest n mask).bind fun _ _ => trivial
    · refine (h buf List.mem_cons_self).bind fun b _ => ?_
      cases b with
      | false => exact (hrest n mask).bind fun _ _ => trivial
      | true => exact (hrest (n + 1) mask).bind fun _ _ => trivial

end Src

theorem scalar_calm (s : Scalar) : Parse.Calm (fun _ => True) (deserialize (α := s.Val)) := by
  cases s with
  | prim p => exact fixed_calm
  | niche p => exact fixed_calm
  | string => exact Parse.Calm.takeAll.bind fun bs _ => .lift (.okOr (by simp) fun _ _ => trivial)

theorem statistic_calm (s : Scalar) {mmap : Bytes} (h : mmap.length < 2 ^ 63) (sector : Sector) :
    Calm (fun _ => True) (statistic s.Val sector mmap) :=
  (slice_calm h sector).bind fun bytes hbytes => (scalar_calm s bytes hbytes).1

theorem itemTest_calm {I : Type} [Decode I] (h : CalmDecode I) {mmap : Bytes} (hmmap : mmap.length < 2 ^ 63) (keep : I → Bool)
    (buf : Manifest.Buffer) : Calm (fun _ => True) (itemTest keep buf mmap) := by
  cases buf with
  | compact sector count =>
    exact (slice_calm hmmap sector).bind fun body hbody => (readOne_calm h hbody).bind fun _ _ => trivial
  | basic sector count => trivial
  | detailed sector count min max => trivial

/-- A test over statistics panics only where the operation on the two bounds does. -/
theorem spanTest_calm {I : Type} [Decode I] (h : CalmDecode I) {s : Scalar} {mmap : Bytes} (hmmap : mmap.length < 2 ^ 63)
    (keep : I → Bool) {op : s.Val → s.Val → Res Bool} (buf : Manifest.Buffer)
    (hop : ∀ sector n min max, buf = .detailed sector n min max → ∀ lb ub, statistic s.Val min mmap = .ok lb →
      statistic s.Val max mmap = .ok ub → Calm (fun _ => True) (op lb ub)) :
    Calm (fun _ => True) (spanTest keep op buf mmap) := by
  cases buf with
  | compact sector count =>
    exact (slice_calm hmmap sector).bind fun body hbody => (readOne_calm h hbody).bind fun _ _ => trivial
  | basic sector count => trivial
  | detailed sector count min max =>
    have hmin := statistic_calm s hmmap min
    have hmax := statistic_calm s hmmap max
    rw [spanTest]
    cases hlb : statistic s.Val min mmap with
    | error e =>
      rw [hlb] at hmin
      exact hmin
    | ok lb =>
      cases hub : statistic s.Val max mmap with
      | error e =>
        rw [hub] at hmax
        exact hmax
      | ok ub => exact hop sector count min max rfl lb ub hlb hub

/-- No buffer of the source has statistics that read as an inverted pair of `s`. -/
def Src.Upright (src : Src) (s : Scalar) : Prop :=
  ∀ sector n min max, Manifest.Buffer.detailed sector n min max ∈ src.buffers.items → ∀ lb ub : s.Val,
    statistic s.Val min src.mmap = .ok lb → statistic s.Val max src.mmap = .ok ub → PartialOrd.gt lb ub = false

namespace Adapter

/-- The map of a chain is in memory, the keys of its joins do not panic, and its semi-joins are over upright statistics. -/
def Guarded : {t : Item} → Adapter .mask t → Prop
  | _, .column src _ _ => src.mmap.length < 2 ^ 63
  | _, .filter source _ _ => source.Guarded
  | _, .range source _ _ => source.Guarded
  | _, .bitMatch source _ _ => source.Guarded
  | _, .oneOf source _ _ => source.Guarded
  | _, .oneOfSorted source _ _ _ => source.Guarded
  | _, .oneOfSet source _ _ _ => source.Guarded
  | _, .semiJoin (s := s) source _ _ keys => source.Guarded ∧ Calm (fun _ => True) keys ∧ source.src.Upright s
  | _, .antiJoin source _ _ keys => source.Guarded ∧ Calm (fun _ => True) keys
  | _, .isSome source => source.Guarded
  | _, .isNone source => source.Guarded
  | _, .skip source _ => source.Guarded

theorem Guarded.mmap {t : Item} {a : Adapter .mask t} (h : a.Guarded) : a.src.mmap.length < 2 ^ 63 := by
  induction a with
  | column src t ht => exact h
  | semiJoin source e ord keys ih => exact ih h.1
  | antiJoin source e ord keys ih => exact ih h.1
  | _ =>
    rename_i ih
    exact ih h

section
variable {t : Item} {source : Adapter .iter t} (h : source.src.mmap.length < 2 ^ 63) (mask : Mask)
include h

theorem withItem_calm {j : Item} (e : Evaluate t j) (f : j.Val → Bool) : Calm (fun _ => True) (source.withItem e mask f) :=
  let _ := t.decode source.decodable
  Src.excludeFrom_calm (fun buf _ => itemTest_calm (t.calm source.decodable) h _ buf) 0 mask

theorem withMinMax_calm {s : Scalar} (e : Evaluate t s.item) (f : s.Val → Bool) {op : s.Val → s.Val → Res Bool}
    (hop : ∀ sector n min max, Manifest.Buffer.detailed sector n min max ∈ source.src.buffers.items → ∀ lb ub,
      statistic s.Val min source.src.mmap = .ok lb → statistic s.Val max source.src.mmap = .ok ub →
        Calm (fun _ => True) (op lb ub)) : Calm (fun _ => True) (source.withMinMax e mask f op) :=
  let _ := t.decode source.decodable
  Src.excludeFrom_calm (fun buf hbuf => spanTest_calm (t.calm source.decodable) h _ buf fun sector n min max hb =>
    hop sector n min max (hb ▸ hbuf)) 0 mask

theorem withSpan_calm {s : Scalar} (e : Evaluate t s.item) (f : s.Val → Bool) (op : s.Val → s.Val → Bool) :
    Calm (fun _ => True) (source.withMinMax e mask f fun lb ub => .ok (op lb ub)) :=
  withMinMax_calm h mask e f fun _ _ _ _ _ _ _ _ _ => trivial

end

/-- A guarded chain resolves over its own source, or fails without a panic. -/
theorem resolve_calm {t : Item} {a : Adapter .mask t} (h : a.Guarded) (mask : Mask) :
    Calm (fun r : Adapter .iter t × Mask => r.1.src = a.src) (a.resolve mask) := by
  induction a generalizing mask with
  | column src t ht => exact rfl
  | skip source n ih => exact (ih h mask).bind fun r hr => hr
  | isSome source ih =>
    exact (ih h mask).bind fun r hr => (withItem_calm (hr ▸ h.mmap) _ _ _).bind fun _ _ => hr
  | isNone source ih =>
    exact (ih h mask).bind fun r hr => (withItem_calm (hr ▸ h.mmap) _ _ _).bind fun _ _ => hr
  | filter source e f ih =>
    exact (ih h mask).bind fun r hr => (withItem_calm (hr ▸ h.mmap) _ _ _).bind fun _ _ => hr
  | antiJoin source e ord keys ih =>
    obtain ⟨hsource, hkeys⟩ := h
    exact hkeys.bind fun _ _ => (ih hsource mask).bind fun r hr =>
      (withItem_calm (hr ▸ hsource.mmap) _ _ _).bind fun _ _ => hr
  | semiJoin source e ord keys ih =>
    obtain ⟨hsource, hkeys, hupright⟩ := h
    refine hkeys.bind fun found _ => (ih hsource mask).bind fun r hr =>
      (withMinMax_calm (hr ▸ hsource.mmap) _ e _ fun sector n min max hmem lb ub hlb hub => ?_).bind fun _ _ => hr
    rw [hr] at hmem hlb hub
    refine Calm.bind (P := fun _ => True) ?_ fun _ _ => trivial
    rw [BTreeSet.range, if_neg (by simp [hupright sector n min max hmem lb ub hlb hub])]
    trivial
  | _ =>
    rename_i ih
    exact (ih h mask).bind fun r hr => (withSpan_calm (hr ▸ h.mmap) _ _ _ _).bind fun _ _ => hr

/-- No outcome that a resolved chain reads is a panic. -/
def Quiet [Outcomes] {t : Item} (a : Adapter .iter t) : Prop := ∀ m, ∀ o ∈ a.read m, o ≠ .error .panic

theorem slot_ne_panic {t : Item} (a : Adapter .mask t) {r : Res a.base.Val} (h : Calm (fun _ => True) r) :
    a.slot r ≠ .error .panic := by
  cases r with
  | ok x => exact a.slot_ne_error x .panic
  | error e =>
    rintro ⟨⟩
    exact h rfl

theorem quiet [Outcomes] [LawfulOutcomes] {t : Item} {a : Adapter .mask t} (h : a.Guarded) {mask : Mask}
    {r : Adapter .iter t × Mask} (hr : a.resolve mask = .ok r) : r.1.Quiet := by
  let _ := a.base.decode a.base_decodable
  intro m o ho
  rw [resolve_read hr m] at ho
  obtain ⟨x, hx, rfl⟩ := List.mem_map.mp ho
  exact a.slot_ne_panic (intoIter_calm (a.base.calm a.base_decodable) h.mmap _ x hx)

end Adapter

/-! ## Combinations -/

def Legs.Guarded : {ts : List Item} → Legs .mask ts → Prop
  | _, .nil => True
  | _, .cons leg legs => leg.2.Guarded ∧ Guarded legs

def Combination.Guarded {t : Item} {ts : List Item} (c : Combination .mask t ts) : Prop := c.head.Guarded ∧ c.legs.Guarded

/-- No outcome left in the streams is a panic. -/
def Streams.Quiet {ts : List Item} (streams : Streams ts) : Prop :=
  ∀ j, ∀ o ∈ streams.get j, o ≠ .error .panic

theorem Streams.Quiet.cons {t : Item} {ts : List Item} {stream : List (Outcome t.Val)} {streams : Streams ts}
    (h : ∀ o ∈ stream, o ≠ .error .panic) (hs : streams.Quiet) :
    @Streams.Quiet (t :: ts) (.cons stream streams) := by
  rintro ⟨j, hj⟩
  cases j with
  | zero => exact h
  | succ j => exact hs ⟨j, Nat.lt_of_succ_lt_succ hj⟩

theorem Legs.resolve_calm [Outcomes] [LawfulOutcomes] {ts : List Item} {legs : Legs .mask ts} (h : legs.Guarded)
    (mask before : Mask) : Calm (fun r : Legs .iter ts × Mask =>
      ∀ m, Streams.Quiet (r.1.map fun _ leg => leg.2.read m)) (legs.resolve mask before) := by
  induction legs generalizing before with
  | nil => exact fun m j => j.elim0
  | cons leg legs ih =>
    obtain ⟨hleg, hrest⟩ := h
    have hresolve := Adapter.resolve_calm hleg (leg.1.offer mask before)
    rw [Legs.resolve]
    cases hr : leg.2.resolve (leg.1.offer mask before) with
    | error e =>
      rw [hr] at hresolve
      exact hresolve
    | ok r => exact (ih hrest _).bind fun rest hquiet m => .cons (Adapter.quiet hleg hr m) (hquiet m)

theorem Outcome.split_panic {I J : Type} {o : Outcome I} (h : o.split (J := J) = .error (.error .panic)) :
    o = .error .panic := by
  cases o with
  | error e =>
    cases h
    rfl
  | _ => cases h

theorem Slots.rebuild_panic {ts : List Item} {R : Type} {slots : Slots ts}
    (h : slots.rebuild (R := R) = .error (.error .panic)) : ∃ j, slots.get j = .error .panic := by
  induction slots with
  | nil => cases h
  | cons o slots ih =>
    rw [rebuild] at h
    cases hsplit : o.split (J := R) with
    | error e =>
      rw [hsplit] at h
      cases h
      exact ⟨⟨0, Nat.succ_pos _⟩, Outcome.split_panic hsplit⟩
    | ok head =>
      cases htail : Slots.rebuild (R := R) slots with
      | error e =>
        rw [hsplit, htail] at h
        cases h
        obtain ⟨j, hj⟩ := ih htail
        exact ⟨⟨j.val + 1, Nat.succ_lt_succ j.isLt⟩, hj⟩
      | ok tail =>
        rw [hsplit, htail] at h
        cases h

/-- A reader over streams without panics never yields one. -/
theorem Reader.quiet {ts : List Item} {r : Reader ts} (h : r.streams.Quiet) (n : Nat) : r.nth n ≠ some (.error .panic) := by
  intro hn
  obtain ⟨slots, hslots, ho⟩ := nth_eq_some hn
  rw [assemble] at ho
  cases hrebuild : slots.rebuild (R := Row ts) with
  | ok p =>
    rw [hrebuild] at ho
    dsimp only at ho
    split at ho
    · cases ho
    · cases ho
  | error o =>
    rw [hrebuild] at ho
    change _ = o at ho
    subst ho
    obtain ⟨j, hj⟩ := Slots.rebuild_panic hrebuild
    exact h j _ (List.mem_of_getElem? (hslots j)) hj

/-- Whatever is in the map and whatever its descriptors say, a query whose join keys do not panic and whose semi-joins are
over upright statistics opens or fails without a panic, and no record it yields is one. -/
theorem Combination.malformed_calm [Outcomes] [LawfulOutcomes] [Combine] {t : Item} {ts : List Item}
    (c : Combination .mask t ts) (h : c.Guarded) :
    c.new ≠ .error .panic ∧ ∀ r, c.new = .ok r → ∀ n, r.nth n ≠ some (.error .panic) := by
  have hnew : Calm (fun r : Reader (t :: ts) => r.streams.Quiet) c.new := by
    have hhead := Adapter.resolve_calm h.1 c.head.src.mask
    rw [Combination.new, Combination.resolve]
    cases hr : c.head.resolve c.head.src.mask with
    | error e =>
      rw [hr] at hhead
      exact hhead
    | ok r =>
      have hlegs := Legs.resolve_calm h.2 c.head.src.mask r.2
      rw [ok_bind]
      cases hl : c.legs.resolve c.head.src.mask r.2 with
      | error e =>
        rw [hl] at hlegs
        exact hlegs
      | ok l =>
        rw [hl] at hlegs
        exact .cons (Adapter.quiet h.1 hr l.2) (hlegs l.2)
  exact ⟨hnew.ne_panic, fun r hr n => Reader.quiet (hnew.of_eq hr) n⟩

/-- An inverted pair in the first buffer of a column does make a semi-join over the column panic. -/
theorem Adapter.semiJoin_inverted {src : Src} {t : Item} (h : t.decodable = true) {s : Scalar} (e : Evaluate t s.item)
    (ord : s.item.ord = true) (keys : BTreeSet s.Val) {sector min max : Sector} {n : NonZero} {buffers : List Manifest.Buffer}
    (hfirst : src.buffers.items = .detailed sector n min max :: buffers) {lb ub : s.Val}
    (hlb : statistic s.Val min src.mmap = .ok lb) (hub : statistic s.Val max src.mmap = .ok ub)
    (hgt : PartialOrd.gt lb ub = true) :
    (.semiJoin (.column src t h) e ord (Except.ok keys) : Adapter .mask t).resolve src.mask = .error .panic := by
  have hkept : (.column src t h : Adapter .iter t).withMinMax e src.mask keys.contains
      (fun lb ub => do return (← keys.range lb ub).head?.isSome) = .error .panic := by
    rw [Adapter.withMinMax, Src.tryExclude, Src.mask, Adapter.src, hfirst, List.length_cons, List.replicate_succ,
      Src.excludeFrom]
    have htest : @spanTest t.Val s.Val (t.decode h) _ (fun item => e.evaluate item keys.contains)
        (fun lb ub => do return (← keys.range lb ub).head?.isSome) (.detailed sector n min max) src.mmap = .error .panic := by
      simp only [spanTest, hlb, hub, ok_bind, BTreeSet.range, if_pos hgt]
      rfl
    rw [htest]
    rfl
  change (do
    let kept ← (.column src t h : Adapter .iter t).withMinMax e src.mask keys.contains
      fun lb ub => do return (← keys.range lb ub).head?.isSome
    return ((.semiJoin (.column src t h) e ord keys : Adapter .iter t), kept.2)) = _
  rw [hkept]
  rfl

section
attribute [local instance] documented documented_lawful nodes

def noKeys (s : Scalar) : BTreeSet s.Val := ⟨[], .nil⟩

/-- Records of a name or a byte among no keys. -/
def unmatched (name byte : Src) : Combination .mask .string [.prim (.plain (.uint .b1))] where
  head := .column name .string rfl
  legs := .cons (.disjunct, .semiJoin (s := .prim (.plain (.uint .b1))) (.column byte _ rfl) (.whole _) rfl
    (Except.ok (noKeys _))) .nil

/-- Names cut off before their ends give one error and no panic. -/
theorem Combination.malformed_calm_truncated : ∃ (name byte : Src) (reader : Reader [.string, .prim (.plain (.uint .b1))]),
    name.mmap = [255, 254, 3, 5] ∧ (unmatched name byte).new = .ok reader ∧
      reader.nth 0 = some (.error (truncated 8 2)) ∧ ∀ n, reader.nth n ≠ some (.error .panic) := by
  let name : Src := ⟨[255, 254, 3, 5], ⟨[.basic ⟨0, 2, by decide, by decide, by decide⟩ ⟨2, by decide, by decide⟩],
    List.pairwise_singleton _ _⟩⟩
  let byte : Src := ⟨[255, 254, 3, 5], ⟨[.detailed ⟨2, 2, by decide, by decide, by decide⟩ ⟨2, by decide, by decide⟩
    ⟨2, 1, by decide, by decide, by decide⟩ ⟨3, 1, by decide, by decide, by decide⟩], List.pairwise_singleton _ _⟩⟩
  have hupright : byte.Upright (.prim (.plain (.uint .b1))) := by
    intro sector n min max hmem lb ub hlb hub
    cases List.mem_singleton.mp hmem
    cases hlb
    cases hub
    rfl
  have hguarded : (unmatched name byte).Guarded :=
    ⟨(by decide : 4 < 2 ^ 63), ⟨(by decide : 4 < 2 ^ 63), trivial, hupright⟩, trivial⟩
  exact ⟨name, byte, _, rfl, rfl, rfl, (malformed_calm _ hguarded).2 _ rfl⟩

end
end Msca
