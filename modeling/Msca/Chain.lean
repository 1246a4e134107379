import Msca.Base.Retain
import Msca.Compaction
import Msca.Lossless
import Msca.Reader

/-! What a chain of filters yields. A chain prunes whole buffers and then tests the items of the rest; over a written
column both phases together yield the items that pass every test, each narrowed past the options that the chain
unwraps, as long as no filter reads the one item of a compact buffer in a form it is not stored in. -/
namespace Msca
set_option autoImplicit false
open Checked

/-! ## Outcomes -/

/-- The methods of `read::Outcome` that chains call. -/
class Outcomes where
  /-- `From::from`. -/
  ofResult {I : Type} : Res I → Outcome I
  keep {I : Type} : Outcome I → (I → Bool) → Outcome I
  flatten {I : Type} : Outcome (Option I) → Outcome I

/-- A result enters a chain included. A test applies to included items alone, and an item that fails stays in its slot;
flattening leaves a slot without item where the option is absent. -/
class LawfulOutcomes [Outcomes] : Prop where
  ofResult_ok {I : Type} (x : I) : Outcomes.ofResult (.ok x) = .included x
  ofResult_error {I : Type} (e : Fault) : Outcomes.ofResult (.error e : Res I) = .error e
  keep_included {I : Type} (x : I) (f : I → Bool) :
    Outcomes.keep (.included x) f = if f x then .included x else .excluded x
  keep_excluded {I : Type} (x : I) (f : I → Bool) : Outcomes.keep (.excluded x) f = .excluded x
  keep_error {I : Type} (e : Fault) (f : I → Bool) : Outcomes.keep (.error e) f = .error e
  keep_absent {I : Type} (f : I → Bool) : Outcomes.keep .absent f = .absent
  flatten_included {I : Type} (x : Option I) : Outcomes.flatten (.included x) = x.elim .absent .included
  flatten_excluded {I : Type} (x : Option I) : Outcomes.flatten (.excluded x) = x.elim .absent .excluded
  flatten_error {I : Type} (e : Fault) : Outcomes.flatten (.error e : Outcome (Option I)) = .error e
  flatten_absent {I : Type} : Outcomes.flatten (.absent : Outcome (Option I)) = .absent

attribute [simp] LawfulOutcomes.ofResult_ok LawfulOutcomes.ofResult_error LawfulOutcomes.keep_included
  LawfulOutcomes.keep_excluded LawfulOutcomes.keep_error LawfulOutcomes.keep_absent LawfulOutcomes.flatten_included
  LawfulOutcomes.flatten_excluded LawfulOutcomes.flatten_error LawfulOutcomes.flatten_absent

/-- `read::Outcome` as documented. -/
@[reducible] def documented : Outcomes where
  ofResult
    | .ok x => .included x
    | .error e => .error e
  keep
    | .included x, f => if f x then .included x else .excluded x
    | o, _ => o
  flatten
    | .included x => x.elim .absent .included
    | .excluded x => x.elim .absent .excluded
    | .error e => .error e
    | .absent => .absent

theorem documented_lawful : @LawfulOutcomes documented := by
  let _ := documented
  exact ⟨fun _ => rfl, fun _ => rfl, fun _ _ => rfl, fun _ _ => rfl, fun _ _ => rfl, fun _ => rfl, fun _ => rfl,
    fun _ => rfl, fun _ => rfl, rfl⟩

/-- The item of an included outcome. -/
def Outcome.included? {I : Type} : Outcome I → Option I
  | .included item => some item
  | _ => none

/-! ## Reading -/

/-- `Src::retained`. -/
def Src.retained (src : Src) (mask : Mask) : List Manifest.Buffer :=
  ((mask.zip src.buffers.items).filter Prod.fst).map Prod.snd

theorem Src.retained_eq (src : Src) (mask : Mask) : src.retained mask = retain mask src.buffers.items := rfl

namespace Adapter

/-- The type of the column under a chain. -/
@[reducible] def base {ph : Phase} : {t : Item} → Adapter ph t → Item
  | t, .column _ _ _ => t
  | _, .filter source _ _ => source.base
  | _, .range source _ _ => source.base
  | _, .bitMatch source _ _ => source.base
  | _, .oneOf source _ _ => source.base
  | _, .oneOfSorted source _ _ _ => source.base
  | _, .oneOfSet source _ _ _ => source.base
  | _, .semiJoin source _ _ _ => source.base
  | _, .antiJoin source _ _ _ => source.base
  | _, .isSome source => source.base
  | _, .isNone source => source.base
  | _, .skip source _ => source.base

section Read
variable [Outcomes]

/-- The outcomes of a source, each kept by the test of the adapter over it. -/
def kept {t : Item} (a : Adapter .iter t) (items : List (Outcome t.Val)) : List (Outcome t.Val) :=
  items.map fun o => Outcomes.keep o a.test

/-- `iter::Resolve::read`. -/
def read : {t : Item} → Adapter .iter t → Mask → List (Outcome t.Val)
  | t, .column src _ h, mask => (@Src.intoIter t.Val (t.decode h) (src.retained mask) src.mmap).map Outcomes.ofResult
  | _, .filter source e f, mask => (Adapter.filter source e f).kept (source.read mask)
  | _, .range source e bounds, mask => (Adapter.range source e bounds).kept (source.read mask)
  | _, .bitMatch source e item, mask => (Adapter.bitMatch source e item).kept (source.read mask)
  | _, .oneOf source e items, mask => (Adapter.oneOf source e items).kept (source.read mask)
  | _, .oneOfSorted source e ord items, mask => (Adapter.oneOfSorted source e ord items).kept (source.read mask)
  | _, .oneOfSet source e ord items, mask => (Adapter.oneOfSet source e ord items).kept (source.read mask)
  | _, .semiJoin source e ord keys, mask => (Adapter.semiJoin source e ord keys).kept (source.read mask)
  | _, .antiJoin source e ord keys, mask => (Adapter.antiJoin source e ord keys).kept (source.read mask)
  | _, .isSome source, mask => (source.read mask).map Outcomes.flatten
  | _, .isNone source, mask => (Adapter.isNone source).kept (source.read mask)
  | _, .skip source _, mask => source.read mask

end Read

/-! ## Meaning -/

/-- What a chain makes of an item of its column: `none` where an option that the chain unwraps is absent. -/
def narrow {ph : Phase} : {t : Item} → (a : Adapter ph t) → a.base.Val → Option t.Val
  | _, .column _ _ _ => some
  | _, .filter source _ _ => source.narrow
  | _, .range source _ _ => source.narrow
  | _, .bitMatch source _ _ => source.narrow
  | _, .oneOf source _ _ => source.narrow
  | _, .oneOfSorted source _ _ _ => source.narrow
  | _, .oneOfSet source _ _ _ => source.narrow
  | _, .semiJoin source _ _ _ => source.narrow
  | _, .antiJoin source _ _ _ => source.narrow
  | _, .isSome source => fun x => (source.narrow x).join
  | _, .isNone source => source.narrow
  | _, .skip source _ => source.narrow

/-- A narrowed item passes every test of a chain. -/
def accepts : {t : Item} → Adapter .mask t → t.Val → Bool
  | _, .column _ _ _, _ => true
  | _, .filter source e f, item => source.accepts item && e.evaluate item f
  | _, .range source e bounds, item => source.accepts item && e.evaluate item bounds.contains
  | _, .bitMatch source e operand, item => source.accepts item && e.evaluate item fun i => BitMatch.eq i operand
  | _, .oneOf source e items, item => source.accepts item && e.evaluate item fun i => items.any (BitMatch.eq i)
  | _, .oneOfSorted source e _ items, item => source.accepts item && e.evaluate item items.binarySearch
  | _, .oneOfSet source e _ items, item => source.accepts item && e.evaluate item fun i => items.contains i
  | _, .semiJoin source e _ keys, item =>
    source.accepts item && keys.toOption.any fun keys => e.evaluate item keys.contains
  | _, .antiJoin source e _ keys, item =>
    source.accepts item && keys.toOption.any fun keys => e.evaluate item fun i => !keys.contains i
  | _, .isSome source, item => source.accepts (some item)
  | _, .isNone source, item => source.accepts item && item.isNone
  | _, .skip source _, item => source.accepts item

/-- The item that a chain yields for an item of its column. -/
def value {t : Item} (a : Adapter .mask t) (x : a.base.Val) : Option t.Val := (a.narrow x).filter a.accepts

/-- The outcome that a chain yields for a result decoded from its column. -/
def slot {t : Item} (a : Adapter .mask t) : Res a.base.Val → Outcome t.Val
  | .error e => .error e
  | .ok x => (a.narrow x).elim .absent fun y => if a.accepts y then .included y else .excluded y

theorem base_decodable {ph : Phase} {t : Item} (a : Adapter ph t) : a.base.decodable = true := by
  induction a with
  | column _ _ h => exact h
  | _ => assumption

end Adapter

/-- A chain narrows items not at all, or past the option they are stored in. -/
inductive Narrows : (c t : Item) → (c.Val → Option t.Val) → Prop
  | whole (t : Item) : Narrows t t some
  | present (t : Item) : Narrows (.option t) t fun x => x

theorem Narrows.join {c t : Item} {f : c.Val → Option (Option t.Val)} (h : Narrows c (.option t) f)
    (hc : c.decodable = true) : Narrows c t fun x => (f x).join := by
  cases h with
  | whole => exact .present t
  | present => cases hc

theorem Narrows.eq_option {c t : Item} {f : c.Val → Option (Option t.Val)} (h : Narrows c (.option t) f)
    (hc : c.decodable = true) : c = .option t := by
  cases h with
  | whole => rfl
  | present => cases hc

theorem Adapter.narrows {ph : Phase} {t : Item} (a : Adapter ph t) : Narrows a.base t a.narrow := by
  induction a with
  | column src t h => exact .whole t
  | isSome source ih => exact ih.join source.base_decodable
  | _ => assumption

/-! ## Reading a resolved chain -/

namespace Adapter
variable [Outcomes] [LawfulOutcomes]

theorem keep_slot {t : Item} (a : Adapter .mask t) (g : t.Val → Bool) (r : Res a.base.Val) :
    Outcomes.keep (a.slot r) g = match r with
      | .error e => .error e
      | .ok x => (a.narrow x).elim .absent fun y => if (a.accepts y && g y) then .included y else .excluded y := by
  cases r with
  | error e => simp [slot]
  | ok x =>
    cases hn : a.narrow x with
    | none => simp [slot, hn]
    | some y => cases ha : a.accepts y <;> simp [slot, hn, ha]

theorem flatten_slot {t : Item} (a : Adapter .mask (.option t)) (r : Res a.base.Val) :
    Outcomes.flatten (a.slot r) = (Adapter.isSome a).slot r := by
  cases r with
  | error e => simp [slot]
  | ok x =>
    change _ = ((a.narrow x).join.elim .absent fun y => if a.accepts (some y) then .included y else .excluded y :
      Outcome t.Val)
    cases hn : a.narrow x with
    | none => simp [slot, hn]
    | some y =>
      cases ha : a.accepts y with
      | false => cases y <;> simp [slot, hn, ha]
      | true => cases y <;> simp [slot, hn, ha]

/-- Whatever a chain resolves into reads every retained buffer and makes the same of each result. -/
theorem resolve_read {t : Item} {a : Adapter .mask t} {mask : Mask} {r : Adapter .iter t × Mask}
    (h : a.resolve mask = .ok r) (m : Mask) :
    r.1.read m = (@Src.intoIter a.base.Val (a.base.decode a.base_decodable) (a.src.retained m) a.src.mmap).map a.slot := by
  induction a generalizing mask with
  | column src t ht =>
    cases h
    refine List.map_congr_left fun r _ => ?_
    cases r with
    | error e => exact LawfulOutcomes.ofResult_error e
    | ok x => exact LawfulOutcomes.ofResult_ok x
  | skip source n ih =>
    obtain ⟨s, hs, h⟩ := bind_eq_ok.mp h
    cases h
    rw [read, ih hs]
    refine List.map_congr_left fun r _ => ?_
    cases r <;> rfl
  | isSome source ih =>
    obtain ⟨s, hs, h⟩ := bind_eq_ok.mp h
    obtain ⟨kept, hkept, h⟩ := bind_eq_ok.mp h
    cases h
    rw [read, ih hs, List.map_map]
    refine List.map_congr_left fun r _ => ?_
    rw [Function.comp_apply, flatten_slot]
  | semiJoin source e ord keys ih =>
    obtain ⟨keys', hkeys, h⟩ := bind_eq_ok.mp h
    obtain ⟨s, hs, h⟩ := bind_eq_ok.mp h
    obtain ⟨kept, hkept, h⟩ := bind_eq_ok.mp h
    cases h
    rw [show keys = .ok keys' from hkeys, read, Adapter.kept, ih hs, List.map_map]
    refine List.map_congr_left fun r _ => ?_
    rw [Function.comp_apply, keep_slot]
    cases r <;> rfl
  | antiJoin source e ord keys ih =>
    obtain ⟨keys', hkeys, h⟩ := bind_eq_ok.mp h
    obtain ⟨s, hs, h⟩ := bind_eq_ok.mp h
    obtain ⟨kept, hkept, h⟩ := bind_eq_ok.mp h
    cases h
    rw [show keys = .ok keys' from hkeys, read, Adapter.kept, ih hs, List.map_map]
    refine List.map_congr_left fun r _ => ?_
    rw [Function.comp_apply, keep_slot]
    cases r <;> rfl
  | _ =>
    rename_i ih
    obtain ⟨s, hs, h⟩ := bind_eq_ok.mp h
    obtain ⟨kept, hkept, h⟩ := bind_eq_ok.mp h
    cases h
    rw [read, Adapter.kept, ih hs, List.map_map]
    refine List.map_congr_left fun r _ => ?_
    rw [Function.comp_apply, keep_slot]
    cases r <;> rfl

end Adapter
/-! ## Written buffers -/

/-- A written buffer with regular items reads back. -/
theorem Written.reads {t : Item} (h : t.decodable = true) {xs : List t.Val} {mmap : Bytes} {buf : Manifest.Buffer}
    (hw : Written t xs mmap buf) (hr : t.regular xs = true) :
    @Src.buffer t.Val (t.decode h) mmap buf = xs.map .ok := by
  obtain ⟨offset, sector, hdesc, hslice⟩ := hw.described
  have hlt := hw.length_lt
  obtain ⟨count, hcount, hdescribe⟩ := Buffer.descriptor_eq_ok hdesc
  rw [Buffer.count_collect] at hcount
  have hbody : @Src.body t.Val (t.decode h) buf (enc (Buffer.collect xs)) = .ok (xs.map .ok) := by
    rcases Buffer.collect_cases xs with ⟨rfl, heq⟩ | ⟨item, hitem, hall, -⟩ | ⟨hdiffer, heq⟩
    · cases hdescribe
    · -- all items are one, so any of them make up the same column
      refine t.body_collect h (List.ne_nil_of_mem hitem) hdesc hlt hw.bits fun ys hys hsub => ?_
      obtain ⟨y, hy⟩ := List.exists_mem_of_ne_nil ys hys
      rw [← hr]
      refine t.regular_congr fun x => ⟨fun hx => hsub.subset hx, fun hx => ?_⟩
      rwa [hall x hx, ← hall y (hsub.subset hy)]
    · obtain ⟨x, hx, -⟩ := hdiffer
      rw [heq] at hdescribe hlt ⊢
      obtain ⟨c, c', hc, hy⟩ := t.opens_of_inMemory h (List.ne_nil_of_mem hx) ⟨hlt, hw.bits⟩ hr
      have hitems : @readItems t.Val (t.decode h) count.get (t.image xs) = .ok (xs.map .ok) := by
        rw [readItems, hc, ok_bind, hcount, takeItems_of_yields hy]
        rfl
      rcases t.lawfulDescribe.1.describe_eq hdescribe with rfl | ⟨min, max, rfl⟩
      · exact hitems
      · exact hitems
  rw [Src.buffer, Item.describe_sector hdescribe, hslice, ok_bind, hbody]

/-- Item types whose present values have the bytes of the values themselves. -/
def Item.inPlace : Item → Bool
  | .prim (.niche _) => true
  | .string => true
  | .vec _ => true
  | _ => false

theorem Item.image_some {t : Item} (h : t.inPlace = true) (y : t.Val) : (Item.option t).image [some y] = t.image [y] := by
  cases t with
  | bool => cases h
  | option t => cases h
  | string =>
    rw [image_optString, image_string]
    rfl
  | vec t =>
    rw [image_optVec, image_vec]
    rfl
  | prim p =>
    cases p with
    | plain p => cases h
    | niche p => rfl

theorem Item.inMemory_some {t : Item} (h : t.inPlace = true) {y : t.Val} (hm : (Item.option t).InMemory [some y]) :
    t.InMemory [y] := by
  obtain ⟨hlt, hbits⟩ := hm
  rw [Item.image_some h] at hlt
  refine ⟨hlt, ?_⟩
  cases t with
  | bool => cases h
  | option t => cases h
  | string => exact trivial
  | vec t => exact hbits
  | prim p => exact trivial

theorem Item.regular_some {t : Item} (h : t.inPlace = true) {y : t.Val} (hr : (Item.option t).regular [some y] = true) :
    t.regular [y] = true := by
  cases t with
  | bool => cases h
  | option t => cases h
  | string => rfl
  | vec t => exact hr
  | prim p => rfl

theorem Item.option_ne (t : Item) : Item.option t ≠ t := by
  intro h
  have hsize := congrArg sizeOf h
  simp at hsize

namespace Narrows
variable {c t : Item} {f : c.Val → Option t.Val}

/-- The one item of a compact buffer read as the narrowed item it stands for. -/
theorem readOne_eq (h : Narrows c t f) (ht : t.decodable = true) (hin : c = t ∨ t.inPlace = true) {x : c.Val} {y : t.Val}
    (hx : f x = some y) (hm : c.InMemory [x]) (hr : c.regular [x] = true) :
    @readOne t.Val (t.decode ht) (c.image [x]) = .ok y := by
  cases h with
  | whole =>
    cases hx
    exact c.readOne_image ht hm hr
  | present =>
    have hplace : t.inPlace = true := hin.resolve_left t.option_ne
    cases hx
    rw [Item.image_some hplace]
    exact t.readOne_image ht (Item.inMemory_some hplace hm) (Item.regular_some hplace hr)

/-- A test of single items sees the one item of a compact buffer, and passes every other. -/
theorem itemTest_cases (h : Narrows c t f) (ht : t.decodable = true) (hin : c = t ∨ t.inPlace = true) {xs : List c.Val}
    {mmap : Bytes} {buf : Manifest.Buffer} (hw : Written c xs mmap buf) (hr : c.regular xs = true)
    (hlive : ∃ x ∈ xs, (f x).isSome = true) :
    (∃ y, (∀ x ∈ xs, f x = some y) ∧ ∀ g, @itemTest t.Val (t.decode ht) g buf mmap = .ok (g y)) ∨
      ((∃ x ∈ xs, ∃ x' ∈ xs, x' ≠ x) ∧ ∀ g, @itemTest t.Val (t.decode ht) g buf mmap = .ok true) := by
  obtain ⟨sector, count, ⟨x, hx, hall, rfl, hslice, hm⟩ | ⟨hdiffer, hdesc, -⟩⟩ := hw.cases
  · obtain ⟨x', hx', hsome⟩ := hlive
    rw [hall x' hx'] at hsome
    obtain ⟨y, hy⟩ := Option.isSome_iff_exists.mp hsome
    have hone : c.regular [x] = true := by
      rw [← hr]
      refine c.regular_congr fun z => ⟨fun hz => List.mem_singleton.mp hz ▸ hx, fun hz => ?_⟩
      exact List.mem_singleton.mpr (hall z hz)
    refine Or.inl ⟨y, fun z hz => by rw [hall z hz, hy], fun g => ?_⟩
    show (do return g (← @readOne t.Val (t.decode ht) (← sector.slice mmap)) : Res Bool) = _
    rw [hslice, ok_bind, h.readOne_eq ht hin hy hm hone]
    rfl
  · refine Or.inr ⟨hdiffer, fun g => ?_⟩
    rcases c.lawfulDescribe.1.describe_eq hdesc with rfl | ⟨min, max, rfl⟩
    · rfl
    · rfl

/-- What a filter tests of a narrowed item it finds in the stored one. -/
theorem evaluate (h : Narrows c t f) (hc : c.decodable = true) {s : Scalar} (e : Evaluate t s.item) :
    ∃ e' : Evaluate c s.item, ∀ x y, f x = some y → e'.operands [x] = e.operands [y] := by
  cases h with
  | whole =>
    refine ⟨e, fun x y hx => ?_⟩
    cases hx
    rfl
  | present =>
    cases e with
    | inner => cases hc
    | whole =>
      refine ⟨.inner s.item, fun x y hx => ?_⟩
      cases hx
      rfl

/-- A test of statistics answers for the narrowed items as it does for the stored ones. -/
theorem spanTest_eq (h : Narrows c t f) (hc : c.decodable = true) (ht : t.decodable = true)
    (hin : c = t ∨ t.inPlace = true) {s : Scalar} {e : Evaluate t s.item} {e' : Evaluate c s.item}
    (he : ∀ x y, f x = some y → e'.operands [x] = e.operands [y]) {xs : List c.Val} {mmap : Bytes}
    {buf : Manifest.Buffer} (hw : Written c xs mmap buf) (hlive : ∃ x ∈ xs, (f x).isSome = true) (keep : s.Val → Bool)
    (op : s.Val → s.Val → Res Bool) :
    @spanTest t.Val s.Val (t.decode ht) _ (fun item => e.evaluate item keep) op buf mmap =
      @spanTest c.Val s.Val (c.decode hc) _ (fun item => e'.evaluate item keep) op buf mmap := by
  obtain ⟨sector, count, ⟨x, hx, hall, rfl, hslice, hm⟩ | ⟨-, hdesc, -⟩⟩ := hw.cases
  · obtain ⟨x', hx', hsome⟩ := hlive
    rw [hall x' hx'] at hsome
    obtain ⟨y, hy⟩ := Option.isSome_iff_exists.mp hsome
    have hsame : e.evaluate y keep = e'.evaluate x keep := by
      rw [Bool.eq_iff_iff, e.evaluate_iff, e'.evaluate_iff, he x y hy]
    have hone := Scalar.regular e' [x]
    show (do return e.evaluate (← @readOne t.Val (t.decode ht) (← sector.slice mmap)) keep : Res Bool) =
      do return e'.evaluate (← @readOne c.Val (c.decode hc) (← sector.slice mmap)) keep
    rw [hslice, ok_bind, ok_bind, h.readOne_eq ht hin hy hm hone, c.readOne_image hc hm hone, ok_bind, ok_bind, hsame]
  · rcases c.lawfulDescribe.1.describe_eq hdesc with rfl | ⟨min, max, rfl⟩
    · rfl
    · rfl

end Narrows

namespace Probe
variable {s : Scalar} {t : Item}

/-- The filter compares by order or all its operands can be compared, and no absent operand passes it. -/
def Safe (a : Probe s) : Prop :=
  (a.ordered = true ∨ s.item.ord = true) ∧ ∀ y, s.present y = false → a.keep y = false

/-- A safe filter clears no buffer with an item that passes. -/
theorem Safe.verdict {a : Probe s} (ha : a.Safe) (e : Evaluate t s.item) (h : t.decodable = true) {xs : List t.Val}
    {mmap : Bytes} {buf : Manifest.Buffer} (hw : Written t xs mmap buf) :
    ∃ b, a.verdict e h buf mmap = .ok b ∧ (b = false → ∀ x ∈ xs, e.evaluate x a.keep = false) := by
  obtain ⟨hord, habsent⟩ := ha
  have hpresent : ∀ y, a.keep y = true → s.present y = true := by
    intro y hk
    cases hp : s.present y with
    | true => rfl
    | false => rw [habsent y hp] at hk; cases hk
  by_cases hcase : a.ordered = true ∨ s.plain = false
  · obtain ⟨b, hb, hverdict⟩ := a.verdict_iff hcase e h hw
    refine ⟨b, hb, fun hfalse => (e.evaluate_eq_false_iff xs a.keep).mpr fun x hx y hy => ?_⟩
    rw [← Bool.not_eq_true]
    intro hk
    rw [(hverdict x hx y hy hk).mpr (Or.inl (hpresent y hk))] at hfalse
    cases hfalse
  · -- a filter that compares bits, over operands that can all be compared
    obtain ⟨hbits, hplain⟩ := not_or.mp hcase
    have hbits := Bool.eq_false_iff.mpr hbits
    have hord := hord.resolve_left (by rw [hbits]; exact Bool.false_ne_true)
    rcases hw.spanTest_cases e h with ⟨x₀, -, hall, htest⟩ | ⟨-, htest⟩ | ⟨hs, -, lo, hi, hspans, htest⟩
    · exact ⟨_, htest a.keep a.op, fun hfalse x hx => hall x hx ▸ hfalse⟩
    · exact ⟨true, htest a.keep a.op, fun hfalse => by cases hfalse⟩
    · let _ := s.ranked hs
      have htotal := Scalar.le_self_of_ord hs hord
      have hf := anchored_of_total hspans htotal
      obtain ⟨b, hb, -⟩ := a.op_iff (listed_of_unordered hbits) hspans fun _ => hf
      refine ⟨b, (htest a.keep a.op).trans hb, fun hfalse => (e.evaluate_eq_false_iff xs a.keep).mpr fun x hx y hy => ?_⟩
      rw [← Bool.not_eq_true]
      intro hk
      have hmem : y ∈ (e.operands xs).filter s.present := List.mem_filter.mpr ⟨e.operands_mem hx hy, hpresent y hk⟩
      rw [a.op_sound hspans hf hk (Between.self hmem (htotal y)), hfalse] at hb
      cases hb

end Probe
/-! ## Pruning -/

/-- What the chain `r` over the column in `src` has cleared of `mask`: only buffers without a `value`, and those left have
an item that is narrowed at all. -/
structure Clears {c t : Item} (src : Src) (column : List (List c.Val)) (narrow value : c.Val → Option t.Val) (mask : Mask)
    (r : Adapter .iter t × Mask) : Prop where
  src_eq : r.1.src = src
  length : r.2.length = mask.length
  sub : ∀ i, r.2.Includes i → mask.Includes i
  lost : ∀ (i : Nat) (xs : List c.Val), mask.Includes i → ¬ r.2.Includes i → column[i]? = some xs → ∀ x ∈ xs, value x = none
  live : ∀ (i : Nat) (xs : List c.Val), r.2.Includes i → column[i]? = some xs → ∃ x ∈ xs, (narrow x).isSome = true

namespace Clears
variable {c t u : Item} {src : Src} {column : List (List c.Val)} {f v : c.Val → Option t.Val} {mask : Mask}
  {q : Adapter .iter t × Mask}

theorem written (hcol : src.Holds c column) {i : Nat} {xs : List c.Val} (hxs : column[i]? = some xs) :
    ∃ buf, src.buffers.items[i]? = some buf ∧ Written c xs src.mmap buf := by
  obtain ⟨hlen, hget⟩ := List.forall₂_iff_get.mp hcol
  obtain ⟨hi, rfl⟩ := List.getElem?_eq_some_iff.mp hxs
  have hj : i < src.buffers.items.length := by rwa [← hlen]
  exact ⟨_, List.getElem?_eq_getElem hj, hget i hi hj⟩

/-- A test that answers on each buffer that is left clears those it answers with no. -/
theorem tryExclude (h : Clears src column f v mask q) (hcol : src.Holds c column) {test : Adapter.BufferTest}
    {C : List c.Val → Bool → Prop} (htest : ∀ xs ∈ column, ∀ buf, Written c xs src.mmap buf →
      (∃ x ∈ xs, (f x).isSome = true) → ∃ b, test buf src.mmap = .ok b ∧ C xs b) :
    ∃ kept, q.1.src.tryExclude q.2 test = .ok kept ∧ kept.2.length = mask.length ∧
      (∀ i, kept.2.Includes i → q.2.Includes i) ∧ ∀ (i : Nat) (xs : List c.Val), q.2.Includes i → column[i]? = some xs →
        ∃ b, C xs b ∧ (kept.2.Includes i ↔ b = true) := by
  have htests : ∀ (i : Nat) (xs : List c.Val), q.2.Includes i → column[i]? = some xs →
      ∃ buf b, src.buffers.items[i]? = some buf ∧ test buf src.mmap = .ok b ∧ C xs b := by
    intro i xs hi hxs
    obtain ⟨buf, hbuf, hw⟩ := written hcol hxs
    obtain ⟨b, hb, hC⟩ := htest xs (List.mem_of_getElem? hxs) buf hw (h.live i xs hi hxs)
    exact ⟨buf, b, hbuf, hb, hC⟩
  have hok : ∀ i, q.2.Includes i → ∀ buf, src.buffers.items[i]? = some buf → ∃ b, test buf src.mmap = .ok b := by
    intro i hi buf hbuf
    have hj : i < column.length := by
      rw [hcol.length_eq]
      exact (List.getElem?_eq_some_iff.mp hbuf).1
    obtain ⟨buf', b, hbuf', hb, -⟩ := htests i _ hi (List.getElem?_eq_getElem hj)
    rw [hbuf] at hbuf'
    cases hbuf'
    exact ⟨b, hb⟩
  obtain ⟨kept, hkept⟩ := Src.excludeFrom_ok 0 hok
  obtain ⟨hlen, hbits⟩ := Src.excludeFrom_eq_ok hkept
  refine ⟨kept, by rw [h.src_eq]; exact hkept, hlen.trans h.length, fun i hi => ((hbits i).mp hi).1, fun i xs hi hxs => ?_⟩
  obtain ⟨buf, b, hbuf, hb, hC⟩ := htests i xs hi hxs
  refine ⟨b, hC, fun hin => Except.ok.inj (hb.symm.trans (((hbits i).mp hin).2 buf hbuf)), fun htrue => ?_⟩
  refine (hbits i).mpr ⟨hi, fun buf' hbuf' => ?_⟩
  rw [hbuf] at hbuf'
  cases hbuf'
  rw [hb, htrue]

/-- One more test over the buffers that are left. -/
theorem exclude (h : Clears src column f v mask q) (hcol : src.Holds c column) {f' v' : c.Val → Option u.Val}
    {a : Adapter .iter u} (ha : a.src = q.1.src) (hv : ∀ x, v x = none → v' x = none) {test : Adapter.BufferTest}
    (htest : ∀ xs ∈ column, ∀ buf, Written c xs src.mmap buf → (∃ x ∈ xs, (f x).isSome = true) →
      ∃ b, test buf src.mmap = .ok b ∧ (b = false → ∀ x ∈ xs, v' x = none) ∧
        (b = true → ∃ x ∈ xs, (f' x).isSome = true)) :
    ∃ kept, q.1.src.tryExclude q.2 test = .ok kept ∧ Clears src column f' v' mask (a, kept.2) := by
  obtain ⟨kept, hkept, hlen, hsub, hbits⟩ := h.tryExclude hcol htest
  refine ⟨kept, hkept, ha.trans h.src_eq, hlen, fun i hi => h.sub i (hsub i hi), fun i xs hi hnot hxs x hx => ?_,
    fun i xs hi hxs => ?_⟩
  · by_cases hq : q.2.Includes i
    · obtain ⟨b, ⟨hfalse, -⟩, hin⟩ := hbits i xs hq hxs
      exact hfalse (Bool.eq_false_iff.mpr fun htrue => hnot (hin.mpr htrue)) x hx
    · exact hv x (h.lost i xs hi hq hxs x hx)
  · obtain ⟨b, ⟨-, htrue⟩, hin⟩ := hbits i xs (hsub i hi) hxs
    exact htrue (hin.mp hi)

/-- A filter over single items. -/
theorem item (h : Clears src column f v mask q) (hcol : src.Holds c column) (hr : ∀ xs ∈ column, c.regular xs = true)
    (hn : Narrows c t f) (hv : ∀ x y, v x = some y → f x = some y) (ht : t.decodable = true)
    (hin : c = t ∨ t.inPlace = true) (g : t.Val → Bool) {a : Adapter .iter t} (ha : a.src = q.1.src) :
    ∃ kept, q.1.src.tryExclude q.2 (@itemTest t.Val (t.decode ht) g) = .ok kept ∧
      Clears src column f (fun x => (v x).filter g) mask (a, kept.2) := by
  refine h.exclude hcol ha (fun x hx => by rw [hx]; rfl) fun xs hxs buf hw hlive => ?_
  rcases hn.itemTest_cases ht hin hw (hr xs hxs) hlive with ⟨y, hall, htest⟩ | ⟨-, htest⟩
  · refine ⟨g y, htest g, fun hfalse x hx => ?_, fun _ => hlive⟩
    rw [Option.filter_eq_none_iff]
    intro z hz
    have hzy := (hv x z hz).symm.trans (hall x hx)
    cases hzy
    rw [hfalse]
    exact Bool.false_ne_true
  · exact ⟨true, htest g, fun hfalse => absurd hfalse.symm Bool.false_ne_true, fun _ => hlive⟩

/-- A filter over statistics. -/
theorem probe (h : Clears src column f v mask q) (hcol : src.Holds c column) (hn : Narrows c t f)
    (hv : ∀ x y, v x = some y → f x = some y) (hc : c.decodable = true) (hin : c = t ∨ t.inPlace = true) {s : Scalar}
    (p : Probe s) (hp : p.Safe) (e : Evaluate t s.item) : ∃ kept, q.1.withMinMax e q.2 p.keep p.op = .ok kept ∧
      Clears src column f (fun x => (v x).filter fun y => e.evaluate y p.keep) mask (p.iter q.1 e, kept.2) := by
  obtain ⟨e', he⟩ := hn.evaluate hc e
  refine h.exclude hcol (p.src_iter e q.1) (fun x hx => by rw [hx]; rfl) fun xs hxs buf hw hlive => ?_
  obtain ⟨b, hb, hfalse⟩ := hp.verdict e' hc hw
  refine ⟨b, (hn.spanTest_eq hc q.1.decodable hin he hw hlive p.keep p.op).trans hb, fun hbfalse x hx => ?_, fun _ => hlive⟩
  rw [Option.filter_eq_none_iff]
  intro y hy
  have hnone := hfalse hbfalse x hx
  rw [← Bool.not_eq_true, e'.evaluate_iff, he x y (hv x y hy)] at hnone
  rwa [e.evaluate_iff]

/-- The filter that unwraps an option. -/
theorem isSome {f v : c.Val → Option (Option t.Val)} {q : Adapter .iter (.option t) × Mask}
    (h : @Clears c (.option t) src column f v mask q) (hcol : src.Holds c column)
    (hr : ∀ xs ∈ column, c.regular xs = true) (hn : Narrows c (.option t) f) (hv : ∀ x y, v x = some y → f x = some y)
    (hc : c.decodable = true) : ∃ kept, q.1.withItem (.whole _) q.2 Option.isSome = .ok kept ∧
      Clears src column (fun x => (f x).join) (fun x => (v x).join) mask (.isSome q.1, kept.2) := by
  have hsrc : (Adapter.isSome q.1).src = q.1.src := rfl
  refine h.exclude hcol hsrc (fun x hx => by rw [hx]; rfl) fun xs hxs buf hw hlive => ?_
  cases hn with
  | present => cases hc
  | whole =>
    rcases (Narrows.whole (.option t)).itemTest_cases q.1.decodable (Or.inl rfl) hw (hr xs hxs) hlive
      with ⟨y, hall, htest⟩ | ⟨⟨x, hx, x', hx', hne⟩, htest⟩
    · refine ⟨Option.isSome y, htest Option.isSome, fun hfalse x hx => ?_, fun htrue => ?_⟩
      · have hnone : y = none := Option.isNone_iff_eq_none.mp (by rw [← Option.not_isSome, hfalse]; rfl)
        rw [Option.join_eq_none_iff]
        cases hvx : v x with
        | none => exact Or.inl rfl
        | some z =>
          have hz := (hv x z hvx).symm.trans (hall x hx)
          cases hz
          exact Or.inr (congrArg some hnone)
      · obtain ⟨x, hx, -⟩ := hlive
        refine ⟨x, hx, ?_⟩
        rw [hall x hx]
        exact htrue
    · -- of two values that differ one is present
      refine ⟨true, htest Option.isSome, fun hfalse => absurd hfalse.symm Bool.false_ne_true, fun _ => ?_⟩
      cases x with
      | some y => exact ⟨some y, hx, rfl⟩
      | none =>
        cases x' with
        | some y => exact ⟨some y, hx', rfl⟩
        | none => exact absurd rfl hne

end Clears
theorem Written.ne_nil {t : Item} {xs : List t.Val} {mmap : Bytes} {buf : Manifest.Buffer} (hw : Written t xs mmap buf) :
    xs ≠ [] := by
  obtain ⟨_, _, ⟨x, hx, -⟩ | ⟨⟨x, hx, -⟩, -⟩⟩ := hw.cases
  · exact List.ne_nil_of_mem hx
  · exact List.ne_nil_of_mem hx

namespace Adapter

/-- The items of the chain are stored as they are, or as present options with the same bytes. -/
def InPlace {ph : Phase} {t : Item} (a : Adapter ph t) : Prop := a.base = t ∨ t.inPlace = true

/-- Chains of safe filters whose keys can be read, each over items in place. -/
def Safe : {t : Item} → Adapter .mask t → Prop
  | _, .column _ _ _ => True
  | _, .filter source _ _ => source.Safe ∧ source.InPlace
  | _, .range (s := s) source _ bounds => source.Safe ∧ source.InPlace ∧ (Probe.range bounds : Probe s).Safe
  | _, .bitMatch (s := s) source _ item => source.Safe ∧ source.InPlace ∧ (Probe.bitMatch item : Probe s).Safe
  | _, .oneOf (s := s) source _ items => source.Safe ∧ source.InPlace ∧ (Probe.oneOf items : Probe s).Safe
  | _, .oneOfSorted (s := s) source _ ord items =>
    source.Safe ∧ source.InPlace ∧ (Probe.oneOfSorted ord items : Probe s).Safe
  | _, .oneOfSet (s := s) source _ ord items => source.Safe ∧ source.InPlace ∧ (Probe.oneOfSet ord items : Probe s).Safe
  | _, .semiJoin (s := s) source _ ord keys =>
    source.Safe ∧ source.InPlace ∧ ∃ found, keys = .ok found ∧ (Probe.semiJoin ord found : Probe s).Safe
  | _, .antiJoin source _ _ keys => source.Safe ∧ source.InPlace ∧ ∃ found, keys = .ok found
  | _, .isSome source => source.Safe
  | _, .isNone source => source.Safe
  | _, .skip _ _ => False

theorem value_some {t : Item} {a : Adapter .mask t} (x : a.base.Val) (y : t.Val) (h : a.value x = some y) :
    a.narrow x = some y := (Option.filter_eq_some_iff.mp h).1

theorem base_option {ph : Phase} {t : Item} (a : Adapter ph (.option t)) : a.base = .option t :=
  a.narrows.eq_option a.base_decodable

/-- A filter over a chain filters what the chain yields. -/
theorem filter_value {c t : Item} {f : c.Val → Option t.Val} {p g : t.Val → Bool} :
    (fun x => ((f x).filter p).filter g) = fun x => (f x).filter fun y => p y && g y := by
  funext x
  rw [Option.filter_filter]

theorem join_value {c t : Item} {f : c.Val → Option (Option t.Val)} {p : Option t.Val → Bool} :
    (fun x => ((f x).filter p).join) = fun x => (f x).join.filter fun y => p (some y) := by
  funext x
  cases f x with
  | none => rfl
  | some o =>
    cases o with
    | none => cases h : p none <;> simp [Option.filter, h]
    | some y => cases h : p (some y) <;> simp [Option.filter, h]

section Clears
variable {t : Item} {source : Adapter .mask t} {column : List (List source.base.Val)} {mask : Mask}
  {q : Adapter .iter t × Mask}

/-- The chain with one more filter over statistics. -/
theorem clears_probe {s : Scalar} (p : Probe s) (hp : p.Safe) (e : Evaluate t s.item) (hq : source.resolve mask = .ok q)
    (h : Clears source.src column source.narrow source.value mask q) (hcol : source.src.Holds source.base column)
    (hin : source.InPlace) : ∃ r, (p.mask source e).resolve mask = .ok r ∧ Clears source.src column source.narrow
      (fun x => (source.narrow x).filter fun y => source.accepts y && e.evaluate y p.keep) mask r := by
  obtain ⟨kept, hkept, hclears⟩ := h.probe hcol source.narrows value_some source.base_decodable hin p hp e
  refine ⟨(p.iter q.1 e, kept.2), ?_, ?_⟩
  · rw [p.resolve_eq e hq, hkept]
    rfl
  · rw [← filter_value]
    exact hclears

/-- The chain with one more filter over single items. -/
theorem clears_item (h : Clears source.src column source.narrow source.value mask q) (hcol : source.src.Holds source.base column)
    (hr : ∀ xs ∈ column, source.base.regular xs = true) (hin : source.InPlace) (g : t.Val → Bool) (a : Adapter .iter t)
    (ha : a.src = q.1.src) : ∃ kept, q.1.src.tryExclude q.2 (@itemTest t.Val (t.decode q.1.decodable) g) = .ok kept ∧
      Clears source.src column source.narrow (fun x => (source.narrow x).filter fun y => source.accepts y && g y) mask
        (a, kept.2) := by
  obtain ⟨kept, hkept, hclears⟩ := h.item hcol hr source.narrows value_some q.1.decodable hin g ha
  refine ⟨kept, hkept, ?_⟩
  rw [← filter_value]
  exact hclears

end Clears

/-- A safe chain over a written column resolves, and clears no buffer with an item that it would yield. -/
theorem resolve_clears {t : Item} {a : Adapter .mask t} (hs : a.Safe) {column : List (List a.base.Val)}
    (hcol : a.src.Holds a.base column) (hr : ∀ xs ∈ column, a.base.regular xs = true) (mask : Mask) :
    ∃ r, a.resolve mask = .ok r ∧ Clears a.src column a.narrow a.value mask r := by
  induction a with
  | column src t h =>
    refine ⟨_, rfl, rfl, rfl, fun _ hi => hi, fun i xs hi hnot => absurd hi hnot, fun i xs hi hxs => ?_⟩
    obtain ⟨buf, -, hw⟩ := Clears.written hcol hxs
    obtain ⟨x, hx⟩ := List.exists_mem_of_ne_nil xs hw.ne_nil
    exact ⟨x, hx, rfl⟩
  | range source e bounds ih =>
    obtain ⟨hs, hin, hp⟩ := hs
    obtain ⟨q, hq, hclears⟩ := ih hs hcol hr
    exact clears_probe (.range bounds) hp e hq hclears hcol hin
  | @bitMatch t s source e item ih =>
    obtain ⟨hs, hin, hp⟩ := hs
    obtain ⟨q, hq, hclears⟩ := ih hs hcol hr
    have hsame : ∀ y, (e.evaluate y fun i => BitMatch.eq i item) = e.evaluate y (Probe.bitMatch item : Probe s).keep :=
      (Probe.bitMatch item).test_iter e q.1
    obtain ⟨r, hres, hclears⟩ := clears_probe (.bitMatch item) hp e hq hclears hcol hin
    refine ⟨r, hres, ?_⟩
    unfold value
    simp only [accepts, hsame]
    exact hclears
  | oneOf source e items ih =>
    obtain ⟨hs, hin, hp⟩ := hs
    obtain ⟨q, hq, hclears⟩ := ih hs hcol hr
    exact clears_probe (.oneOf items) hp e hq hclears hcol hin
  | oneOfSorted source e ord items ih =>
    obtain ⟨hs, hin, hp⟩ := hs
    obtain ⟨q, hq, hclears⟩ := ih hs hcol hr
    exact clears_probe (.oneOfSorted ord items) hp e hq hclears hcol hin
  | oneOfSet source e ord items ih =>
    obtain ⟨hs, hin, hp⟩ := hs
    obtain ⟨q, hq, hclears⟩ := ih hs hcol hr
    exact clears_probe (.oneOfSet ord items) hp e hq hclears hcol hin
  | semiJoin source e ord keys ih =>
    obtain ⟨hs, hin, found, rfl, hp⟩ := hs
    obtain ⟨q, hq, hclears⟩ := ih hs hcol hr
    exact clears_probe (.semiJoin ord found) hp e hq hclears hcol hin
  | filter source e f ih =>
    obtain ⟨hs, hin⟩ := hs
    obtain ⟨q, hq, hclears⟩ := ih hs hcol hr
    obtain ⟨kept, hkept, hclears⟩ := clears_item hclears hcol hr hin (fun y => e.evaluate y f) (.filter q.1 e f) rfl
    exact ⟨_, bind_eq_ok.mpr ⟨q, hq, bind_eq_ok.mpr ⟨kept, hkept, rfl⟩⟩, hclears⟩
  | antiJoin source e ord keys ih =>
    obtain ⟨hs, hin, found, rfl⟩ := hs
    obtain ⟨q, hq, hclears⟩ := ih hs hcol hr
    obtain ⟨kept, hkept, hclears⟩ := clears_item hclears hcol hr hin (fun y => e.evaluate y fun i => !found.contains i)
      (.antiJoin q.1 e ord found) rfl
    exact ⟨_, bind_eq_ok.mpr ⟨found, rfl, bind_eq_ok.mpr ⟨q, hq, bind_eq_ok.mpr ⟨kept, hkept, rfl⟩⟩⟩, hclears⟩
  | isNone source ih =>
    obtain ⟨q, hq, hclears⟩ := ih hs hcol hr
    obtain ⟨kept, hkept, hclears⟩ := clears_item hclears hcol hr (Or.inl source.base_option) Option.isNone
      (.isNone q.1) rfl
    exact ⟨_, bind_eq_ok.mpr ⟨q, hq, bind_eq_ok.mpr ⟨kept, hkept, rfl⟩⟩, hclears⟩
  | isSome source ih =>
    obtain ⟨q, hq, hclears⟩ := ih hs hcol hr
    obtain ⟨kept, hkept, hclears⟩ := hclears.isSome hcol hr source.narrows value_some source.base_decodable
    refine ⟨_, bind_eq_ok.mpr ⟨q, hq, bind_eq_ok.mpr ⟨kept, hkept, rfl⟩⟩, ?_⟩
    have hvalue : (Adapter.isSome source).value = fun x => (source.value x).join := join_value.symm
    rw [hvalue]
    exact hclears
  | skip source n ih => cases hs

/-! ## Both phases -/

theorem included_slot {t : Item} (a : Adapter .mask t) (x : a.base.Val) : (a.slot (.ok x)).included? = a.value x := by
  rw [slot, value]
  cases a.narrow x with
  | none => rfl
  | some y => cases h : a.accepts y <;> simp [Option.filter, Outcome.included?, h]

theorem slot_ne_error {t : Item} (a : Adapter .mask t) (x : a.base.Val) (e : Fault) : a.slot (.ok x) ≠ .error e := by
  rw [slot]
  cases a.narrow x with
  | none => simp
  | some y => cases h : a.accepts y <;> simp [h]

/-- Over a written column a resolved chain has one slot for each item of the retained buffers. -/
theorem read_written [Outcomes] [LawfulOutcomes] {t : Item} {a : Adapter .mask t} {mask : Mask}
    {r : Adapter .iter t × Mask} (h : a.resolve mask = .ok r) {column : List (List a.base.Val)}
    (hcol : a.src.Holds a.base column) (hr : ∀ xs ∈ column, a.base.regular xs = true) (m : Mask) :
    r.1.read m = (retain m column).flatten.map fun x => a.slot (.ok x) := by
  have hbuffers : ∀ {xss : List (List a.base.Val)} {bs : List Manifest.Buffer}, (∀ xs ∈ xss, a.base.regular xs = true) →
      List.Forall₂ (fun xs buf => Written a.base xs a.src.mmap buf) xss bs →
        @Src.intoIter a.base.Val (a.base.decode a.base_decodable) bs a.src.mmap = xss.flatten.map .ok := by
    intro xss bs hr hall
    induction hall with
    | nil => rfl
    | @cons xs buf xss bs hw _ ih =>
      have htail := ih fun ys hys => hr ys (List.mem_cons_of_mem _ hys)
      rw [Src.intoIter] at htail ⊢
      rw [List.flatMap_cons, htail, hw.reads a.base_decodable (hr xs List.mem_cons_self), List.flatten_cons,
        List.map_append]
  rw [resolve_read h m, Src.retained_eq,
    hbuffers (fun xs hxs => hr xs ((Retain.sublist column).subset hxs)) (Retain.forall₂ hcol), List.map_map]
  rfl

/-- What a resolved chain yields of a written column are the items of the retained buffers that it accepts. -/
theorem read_included [Outcomes] [LawfulOutcomes] {t : Item} {a : Adapter .mask t} {mask : Mask}
    {r : Adapter .iter t × Mask} (h : a.resolve mask = .ok r) {column : List (List a.base.Val)}
    (hcol : a.src.Holds a.base column) (hr : ∀ xs ∈ column, a.base.regular xs = true) (m : Mask) :
    (r.1.read m).filterMap Outcome.included? = (retain m column).flatMap fun xs => xs.filterMap a.value := by
  calc (r.1.read m).filterMap Outcome.included?
      = (retain m column).flatten.filterMap a.value := by
        rw [read_written h hcol hr m, List.filterMap_map]
        exact congrArg (fun f => List.filterMap f _) (funext a.included_slot)
    _ = (retain m column).flatMap fun xs => xs.filterMap a.value := by
        rw [List.filterMap_flatten, List.flatMap_def]

/-- A safe chain over a written column yields the items that pass all its filters, narrowed, in the order they were
written, and no error: pruning loses none of them and reads none of them wrong. -/
theorem read_exact [Outcomes] [LawfulOutcomes] {t : Item} (a : Adapter .mask t) (hs : a.Safe)
    {column : List (List a.base.Val)} (hcol : a.src.Holds a.base column)
    (hr : ∀ xs ∈ column, a.base.regular xs = true) :
    ∃ r, a.resolve a.src.mask = .ok r ∧
      (r.1.read r.2).filterMap Outcome.included? = column.flatten.filterMap a.value ∧
        ∀ o ∈ r.1.read r.2, ∀ e, o ≠ .error e := by
  obtain ⟨r, hres, hclears⟩ := resolve_clears hs hcol hr a.src.mask
  refine ⟨r, hres, ?_, fun o ho e => ?_⟩
  · have hlen : r.2.length = column.length := by
      rw [hclears.length, Src.mask, List.length_replicate, hcol.length_eq]
    have hnone : ∀ (i : Nat) (xs : List a.base.Val), column[i]? = some xs → r.2[i]? ≠ some true →
        xs.filterMap a.value = [] := by
      intro i xs hxs hnot
      have hlt : i < a.src.mask.length := by
        rw [← hclears.length, hlen]
        exact (List.getElem?_eq_some_iff.mp hxs).1
      have hmask : a.src.mask.Includes i := by
        unfold Mask.Includes Src.mask
        rw [List.getElem?_replicate, if_pos (by rwa [Src.mask, List.length_replicate] at hlt)]
      exact List.filterMap_eq_nil_iff.mpr (hclears.lost i xs hmask hnot hxs)
    rw [read_included hres hcol hr, (Retain.flatMap_eq_iff hlen).mpr hnone, List.filterMap_flatten, List.flatMap_def]
  · rw [read_written hres hcol hr r.2] at ho
    obtain ⟨x, -, rfl⟩ := List.mem_map.mp ho
    exact a.slot_ne_error x e

end Adapter
/-! ## A chain over two buffers -/

section
attribute [local instance] documented documented_lawful

/-- The byte after `n`. -/
def byteAfter (n : Nat) : Prim.Val (.niche (.nonZeroUInt .b1)) :=
  ⟨n % 255 + 1, Nat.succ_lt_succ (Nat.mod_lt _ (by decide)), Nat.succ_ne_zero _⟩

/-- The present bytes from two on. -/
def presentBytes (src : Src) : Adapter .mask (.prim (.niche (.nonZeroUInt .b1))) :=
  .range (s := .prim (.niche (.nonZeroUInt .b1))) (.isSome (.column src _ rfl)) (.whole _)
    ⟨.included (byteAfter 1), .unbounded⟩

/-- Three optional bytes with their extremes, and one byte twice. -/
theorem presentBytes_column : ∃ src : Src, src.mmap = Bytes.zeros 8 ++ [0, 1, 2] ++ Bytes.zeros 5 ++ [3] ∧
    (presentBytes src).Safe ∧ src.Holds (.option (.prim (.niche (.nonZeroUInt .b1))))
      [[none, some (byteAfter 0), some (byteAfter 1)], [some (byteAfter 2), some (byteAfter 2)]] := by
  let src : Src := ⟨Bytes.zeros 8 ++ [0, 1, 2] ++ Bytes.zeros 5 ++ [3],
    ⟨[.detailed ⟨8, 3, by decide, by decide, by decide⟩ ⟨3, by decide, by decide⟩
        ⟨9, 1, by decide, by decide, by decide⟩ ⟨10, 1, by decide, by decide, by decide⟩,
      .compact ⟨16, 1, by decide, by decide, by decide⟩ ⟨2, by decide, by decide⟩],
      List.pairwise_pair.mpr (Prod.Lex.left _ _ (by decide))⟩⟩
  refine ⟨src, rfl, ⟨trivial, Or.inr rfl, Or.inl rfl, fun y hy => by cases hy⟩, ?_⟩
  exact .cons ⟨⟨0, ⟨8, 3, by decide, by decide, by decide⟩, rfl, rfl⟩, by decide, trivial⟩
    (.cons ⟨⟨8, ⟨16, 1, by decide, by decide, by decide⟩, rfl, rfl⟩, by decide, trivial⟩ .nil)

/-- The present bytes from two on come back. -/
theorem Adapter.read_exact_present : ∃ (src : Src) (r : _), src.mmap = Bytes.zeros 8 ++ [0, 1, 2] ++ Bytes.zeros 5 ++ [3] ∧
    (presentBytes src).resolve [true, true] = .ok r ∧
      (r.1.read r.2).filterMap Outcome.included? = [byteAfter 1, byteAfter 2, byteAfter 2] := by
  obtain ⟨src, hmmap, hsafe, hcol⟩ := presentBytes_column
  have hmask : src.mask = [true, true] := by rw [Src.mask, ← hcol.length_eq]; rfl
  obtain ⟨r, hr, hread, -⟩ := (presentBytes src).read_exact hsafe hcol fun _ _ => rfl
  exact ⟨src, r, hmmap, hmask ▸ hr, hread⟩

end
end Msca
