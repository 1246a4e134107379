import Msca.Describe
import Msca.Nested

/-! The item source of a query: the items of a column, decoded from its buffers in order. The one item of
a compact buffer is read directly and repeated; every other buffer is iterated. -/
namespace Msca
set_option autoImplicit false
open Checked

/-! ## Reading one item -/

/-- `Src::deserialize(..)?.one()`. -/
def readOne (I : Type) [Decode I] (body : Bytes) : Res I := do
  Decoder.one (← ((deserialize (α := Decode.Src I)).run body).1)

/-- The direct read finds what the iterator yields first. -/
class LawfulDecoder (S I : Type) [Decoder S I] : Prop where
  one_eq : ∀ {src : S} {c c' : Decoder.Cursor S I} {x : I}, Decoder.iter src = .ok c →
    Decoder.next c = (some (.ok x), c') → Decoder.one src = .ok x

theorem firstOf_eq {I C : Type} {next : C → Option (Res I) × C} {c c' : C} {x : I} (h : next c = (some (.ok x), c')) :
    firstOf next (.ok c) = .ok x := by
  rw [firstOf, ok_bind, h]

theorem nextFixed_eq {I : Type} [Fixed I] {src rest : Bytes} {x : I} (h : nextFixed src = (some (.ok x), rest)) :
    ((deserialize (α := I)).run src).1 = .ok x := by
  unfold nextFixed at h
  split at h
  · cases h
  · exact Option.some.inj (Prod.mk.inj h).1

instance {I : Type} [Fixed I] : LawfulDecoder Bytes I where
  one_eq hiter hnext := by
    cases hiter
    exact nextFixed_eq hnext

instance {I : Type} [Fixed (Option I)] : LawfulDecoder Read.OptInSitu (Option I) where
  one_eq hiter hnext := by
    cases hiter
    exact nextFixed_eq hnext

instance : LawfulDecoder Bits Bool where
  one_eq {src c c' x} hiter hnext := by
    cases hiter
    cases src with
    | nil => cases hnext
    | cons b bits =>
      cases hnext
      rfl

instance : LawfulDecoder Read.Seq String where
  one_eq hiter hnext := by
    cases hiter
    exact firstOf_eq hnext

instance : LawfulDecoder Read.Seq (Option String) where
  one_eq hiter hnext := by
    cases hiter
    exact firstOf_eq hnext

theorem vecDecoder_lawful (S I : Type) [Deserialize S] [Decoder S I] : @LawfulDecoder Read.Seq (List I) (vecDecoder S I) := by
  refine @LawfulDecoder.mk _ _ (vecDecoder S I) ?_
  intro src c c' x hiter hnext
  change firstOf _ (vecCursor S I src) = _
  rw [show vecCursor S I src = .ok c from hiter]
  exact firstOf_eq hnext

theorem optVecDecoder_lawful (S I : Type) [Deserialize S] [Decoder S I] :
    @LawfulDecoder Read.Seq (Option (List I)) (optVecDecoder S I) := by
  refine @LawfulDecoder.mk _ _ (optVecDecoder S I) ?_
  intro src c c' x hiter hnext
  change firstOf _ (vecCursor S I src) = _
  rw [show vecCursor S I src = .ok c from hiter]
  exact firstOf_eq hnext

instance {S I : Type} [Decoder S I] [LawfulDecoder S I] : LawfulDecoder (Read.OptBitVec S) (Option I) where
  one_eq {src c c' x} hiter hnext := by
    obtain ⟨mask, data⟩ := src
    obtain ⟨d, hd, hc⟩ := bind_eq_ok.mp hiter
    cases hc
    change (do if ← Decoder.one (I := Bool) mask then some <$> Decoder.one data else return none : Res (Option I)) = _
    cases mask with
    | nil => cases hnext
    | cons b mask =>
      cases b with
      | false =>
        cases hnext
        rfl
      | true =>
        change ((Decoder.next d).1.map fun item => some <$> item, _) = _ at hnext
        obtain ⟨item, hitem, hx⟩ := Option.map_eq_some_iff.mp (Prod.mk.inj hnext).1
        cases item with
        | error e => cases hx
        | ok y =>
          cases hx
          have hone : Decoder.one data = .ok y := LawfulDecoder.one_eq hd (Prod.ext hitem rfl)
          change some <$> Decoder.one data = _
          rw [hone]
          rfl

theorem Item.decoder_lawful : (t : Item) → (h : t.decodable = true) →
    @LawfulDecoder (t.decode h).Src t.Val (t.decode h).decoder
  | .bool, _ => inferInstanceAs (LawfulDecoder Bits Bool)
  | .prim p, _ => inferInstanceAs (LawfulDecoder Bytes p.Val)
  | .string, _ => inferInstanceAs (LawfulDecoder Read.Seq String)
  | .option .bool, _ => inferInstanceAs (LawfulDecoder (Read.OptBitVec Bits) (Option Bool))
  | .option (.prim (.plain p)), _ => inferInstanceAs (LawfulDecoder (Read.OptBitVec Bytes) (Option (Prim.plain p).Val))
  | .option (.prim (.niche p)), _ => inferInstanceAs (LawfulDecoder Read.OptInSitu (Option (Prim.niche p).Val))
  | .option .string, _ => inferInstanceAs (LawfulDecoder Read.Seq (Option String))
  | .option (.vec t), h => @optVecDecoder_lawful (t.decode h).Src t.Val (t.decode h).source (t.decode h).decoder
  | .vec t, h => @vecDecoder_lawful (t.decode h).Src t.Val (t.decode h).source (t.decode h).decoder

theorem readOne_eq {I : Type} [Decode I] [LawfulDecoder (Decode.Src I) I] {body : Bytes}
    {c c' : Decoder.Cursor (Decode.Src I) I} {x : I} (hopen : openIter I body = .ok c)
    (hnext : Decoder.next c = (some (.ok x), c')) : readOne I body = .ok x := by
  obtain ⟨src, hsrc, hiter⟩ := bind_eq_ok.mp hopen
  rw [readOne, hsrc, ok_bind]
  exact LawfulDecoder.one_eq hiter hnext

/-! ## Buffers -/

namespace Src
variable (I : Type) [Decode I]

/-- The items in the body of a buffer that `b` describes. -/
def body (b : Manifest.Buffer) (bytes : Bytes) : Res (List (Res I)) :=
  match b with
  | .compact _ count => do return List.replicate count.get (.ok (← readOne I bytes))
  | _ => readItems I b.count bytes

/-- The items of one buffer; an error is yielded once, in their place. -/
def buffer (mmap : Bytes) (b : Manifest.Buffer) : List (Res I) :=
  match (do body I b (← b.sector.slice mmap)) with
  | .ok items => items
  | .error e => [.error e]

/-- `Src::into_iter`. -/
def intoIter (buffers : List Manifest.Buffer) (mmap : Bytes) : List (Res I) := buffers.flatMap (buffer I mmap)

end Src

theorem Buffer.descriptor_eq_ok {I : Type} [Unfold I] {b : Buffer I} {offset : Nat} {sector : Sector}
    {desc : Manifest.Buffer} (h : b.descriptor offset = .ok (sector, desc)) :
    ∃ count : NonZero, count.get = b.count ∧ b.describe sector count = .ok desc := by
  obtain ⟨start, -, h⟩ := bind_eq_ok.mp h
  obtain ⟨size, -, h⟩ := bind_eq_ok.mp h
  obtain ⟨s, -, h⟩ := bind_eq_ok.mp h
  obtain ⟨count, hcount, h⟩ := bind_eq_ok.mp h
  obtain ⟨d, hd, h⟩ := bind_eq_ok.mp h
  cases h
  exact ⟨count, NonZero.ofNat?_eq_some.mp (okOr_eq_ok.mp hcount), hd⟩

namespace Item
variable (t : Item) (h : t.decodable = true)

/-- The items of a regular column read back one by one. -/
theorem opens_of_inMemory {xs : List t.Val} (hne : xs ≠ []) (hm : t.InMemory xs) (hr : t.regular xs = true) :
    @Opens t.Val (t.decode h) xs (t.image xs) := by
  obtain ⟨n, hn⟩ := Item.size_acc hne hm
  exact t.opens h xs n hn (t.counted h xs hm) hr

theorem readOne_image {x : t.Val} (hm : t.InMemory [x]) (hr : t.regular [x] = true) :
    @readOne t.Val (t.decode h) (t.image [x]) = .ok x := by
  obtain ⟨c, c', hc, d, hnext, -⟩ := t.opens_of_inMemory h (by simp) hm hr
  exact @readOne_eq t.Val (t.decode h) (t.decoder_lawful h) _ _ _ _ hc hnext

theorem body_collect {xs : List t.Val} {offset : Nat} {sector : Sector} {desc : Manifest.Buffer} (hne : xs ≠ [])
    (hdesc : (Buffer.collect xs).descriptor offset = .ok (sector, desc)) (hlt : (enc (Buffer.collect xs)).length < 2 ^ 63)
    (hbits : t.BitsFit xs) (hr : ∀ ys : List t.Val, ys ≠ [] → ys.Sublist xs → t.regular ys = true) :
    @Src.body t.Val (t.decode h) desc (enc (Buffer.collect xs)) = .ok (xs.map .ok) := by
  obtain ⟨count, hcount, hdesc⟩ := Buffer.descriptor_eq_ok hdesc
  rw [Buffer.count_collect] at hcount
  rcases Buffer.collect_cases xs with ⟨rfl, -⟩ | ⟨item, hitem, hall, heq⟩ | ⟨-, heq⟩
  · exact absurd rfl hne
  · rw [heq] at hdesc hlt ⊢
    cases hdesc
    have hsub : [item].Sublist xs := List.singleton_sublist.mpr hitem
    have hone := t.readOne_image h ⟨hlt, t.bitsFit_mono hsub hbits⟩ (hr _ (by simp) hsub)
    have hrep : xs = List.replicate count.get item := List.eq_replicate_iff.mpr ⟨hcount.symm, hall⟩
    change (do return List.replicate count.get (.ok (← @readOne t.Val (t.decode h) (t.image [item]))) :
      Res (List (Res t.Val))) = _
    rw [hone, ok_bind, hrep, List.map_replicate]
    rfl
  · rw [heq] at hdesc hlt ⊢
    obtain ⟨c, c', hc, hy⟩ := t.opens_of_inMemory h hne ⟨hlt, hbits⟩ (hr xs hne (List.Sublist.refl xs))
    have hitems : @readItems t.Val (t.decode h) count.get (t.image xs) = .ok (xs.map .ok) := by
      rw [readItems, hc, ok_bind, hcount, takeItems_of_yields hy]
      rfl
    rcases t.lawfulDescribe.1.describe_eq hdesc with rfl | ⟨min, max, rfl⟩
    · exact hitems
    · exact hitems

end Item
end Msca
