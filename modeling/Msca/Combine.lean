import Msca.Adapter

/-! Combination trees over the columns of one query. A tree hands one mask down its legs, a union offering
its second child what the first one cleared, and what comes back is the truth of the tree at every bit. -/
namespace Msca
set_option autoImplicit false
open Checked

/-! ## Trees -/

/-- Nested `Conjunct`, `Disjunct` and `Adjunct` nodes. -/
inductive Tree (ph : Phase)
  | leg {t : Item} (a : Adapter ph t)
  | conjunct (a b : Tree ph)
  | disjunct (a b : Tree ph)
  | adjunct (a b : Tree ph)

namespace Mask

/-- `^=` -/
def xor (mask other : Mask) : Mask := List.zipWith Bool.xor mask other

/-- `|=` -/
def or (mask other : Mask) : Mask := List.zipWith Bool.or mask other

end Mask

namespace Tree

/-- `mask::Resolve::resolve`. -/
def resolve : Tree .mask → Mask → Res (Tree .iter × Mask)
  | .leg a, mask => do
    let r ← a.resolve mask
    return (.leg r.1, r.2)
  | .conjunct a b, mask => do
    let a ← a.resolve mask
    let b ← b.resolve a.2
    return (.conjunct a.1 b.1, b.2)
  | .disjunct a b, mask => do
    let a ← a.resolve mask
    let b ← b.resolve (mask.xor a.2)
    return (.disjunct a.1 b.1, b.2.or a.2)
  | .adjunct a b, mask => do
    let a ← a.resolve mask
    let b ← b.resolve (mask.xor a.2)
    return (.adjunct a.1 b.1, b.2.or a.2)

end Tree

/-! ## Bits -/

/-- The `i`th buffer is included. -/
def Mask.Includes (mask : Mask) (i : Nat) : Prop := mask[i]? = some true

instance (mask : Mask) (i : Nat) : Decidable (mask.Includes i) := inferInstanceAs (Decidable (_ = _))

namespace Mask

theorem Includes.lt {mask : Mask} {i : Nat} (h : mask.Includes i) : i < mask.length :=
  (List.getElem?_eq_some_iff.mp h).1

theorem ext_includes {a b : Mask} (hlen : a.length = b.length) (h : ∀ i, a.Includes i ↔ b.Includes i) : a = b := by
  apply List.ext_getElem hlen
  intro i ha hb
  have hi := h i
  unfold Includes at hi
  rw [List.getElem?_eq_getElem ha, List.getElem?_eq_getElem hb, Option.some.injEq, Option.some.injEq] at hi
  exact Bool.eq_iff_iff.mpr hi

theorem xor_includes {mask other : Mask} (hlen : other.length = mask.length)
    (hsub : ∀ i, other.Includes i → mask.Includes i) (i : Nat) :
    (mask.xor other).Includes i ↔ mask.Includes i ∧ ¬ other.Includes i := by
  have hi := hsub i
  unfold Includes xor at *
  rw [List.getElem?_zipWith]
  by_cases hlt : i < mask.length
  · rw [List.getElem?_eq_getElem hlt, List.getElem?_eq_getElem (by omega)] at *
    cases ha : mask[i] <;> cases hb : other[i] <;> simp_all
  · rw [List.getElem?_eq_none (by omega)]
    simp

theorem or_includes {mask other : Mask} (hlen : other.length = mask.length) (i : Nat) :
    (mask.or other).Includes i ↔ mask.Includes i ∨ other.Includes i := by
  unfold Includes or
  rw [List.getElem?_zipWith]
  by_cases hlt : i < mask.length
  · rw [List.getElem?_eq_getElem hlt, List.getElem?_eq_getElem (by omega)]
    simp
  · rw [List.getElem?_eq_none (by omega), List.getElem?_eq_none (by omega)]
    simp

theorem xor_length {mask other : Mask} (hlen : other.length = mask.length) : (mask.xor other).length = mask.length := by
  rw [xor, List.length_zipWith, hlen, Nat.min_self]

theorem or_length {mask other : Mask} (hlen : other.length = mask.length) : (mask.or other).length = mask.length := by
  rw [or, List.length_zipWith, hlen, Nat.min_self]

end Mask

/-! ## Exclusion -/

namespace Src

theorem excludeFrom_eq_ok {test : Manifest.Buffer → Res Bool} {n : Nat} {mask : Mask} {buffers : List Manifest.Buffer}
    {r : Nat × Mask} (h : excludeFrom test n mask buffers = .ok r) : r.2.length = mask.length ∧
      ∀ i, r.2.Includes i ↔ mask.Includes i ∧ ∀ buf, buffers[i]? = some buf → test buf = .ok true := by
  induction mask generalizing n buffers r with
  | nil =>
    cases h
    exact ⟨rfl, fun i => by simp [Mask.Includes]⟩
  | cons bit mask ih =>
    cases buffers with
    | nil =>
      have hr : r = (n, bit :: mask) := by cases bit <;> exact (Except.ok.inj h).symm
      rw [hr]
      exact ⟨rfl, fun i => by simp⟩
    | cons buf buffers =>
      cases bit with
      | false =>
        obtain ⟨rest, hrest, h⟩ := bind_eq_ok.mp h
        cases h
        obtain ⟨hlen, hbits⟩ := ih hrest
        refine ⟨by rw [List.length_cons, List.length_cons, hlen], fun i => ?_⟩
        cases i with
        | zero => simp [Mask.Includes]
        | succ i => exact hbits i
      | true =>
        obtain ⟨keep, hkeep, h⟩ := bind_eq_ok.mp h
        cases keep with
        | false =>
          obtain ⟨rest, hrest, h⟩ := bind_eq_ok.mp h
          cases h
          obtain ⟨hlen, hbits⟩ := ih hrest
          refine ⟨by rw [List.length_cons, List.length_cons, hlen], fun i => ?_⟩
          cases i with
          | zero => simp [Mask.Includes, hkeep]
          | succ i => exact hbits i
        | true =>
          obtain ⟨rest, hrest, h⟩ := bind_eq_ok.mp h
          cases h
          obtain ⟨hlen, hbits⟩ := ih hrest
          refine ⟨by rw [List.length_cons, List.length_cons, hlen], fun i => ?_⟩
          cases i with
          | zero => simp [Mask.Includes, hkeep]
          | succ i => exact hbits i

theorem excludeFrom_of_pass {test : Manifest.Buffer → Res Bool} {mask : Mask} {buffers : List Manifest.Buffer} (n : Nat)
    (h : ∀ i, mask.Includes i → ∀ buf, buffers[i]? = some buf → test buf = .ok true) :
    ∃ k, excludeFrom test n mask buffers = .ok (k, mask) := by
  induction mask generalizing n buffers with
  | nil => exact ⟨n, rfl⟩
  | cons bit mask ih =>
    cases buffers with
    | nil => exact ⟨n, by cases bit <;> rfl⟩
    | cons buf buffers =>
      have htail : ∀ i, Mask.Includes mask i → ∀ buf, buffers[i]? = some buf → test buf = .ok true := by
        intro i hi
        exact h (i + 1) hi
      cases bit with
      | false =>
        obtain ⟨k, hk⟩ := ih n htail
        exact ⟨k, by rw [excludeFrom, hk]; rfl⟩
      | true =>
        obtain ⟨k, hk⟩ := ih (n + 1) htail
        have hbuf := h 0 rfl buf rfl
        exact ⟨k, by rw [excludeFrom, hbuf, ok_bind, if_pos rfl, hk]; rfl⟩

end Src

/-! ## Legs -/

namespace Adapter

/-- Chains of filters alone. -/
def windowless {ph : Phase} : {t : Item} → Adapter ph t → Bool
  | _, .column _ _ _ => true
  | _, .filter source _ _ => source.windowless
  | _, .range source _ _ => source.windowless
  | _, .bitMatch source _ _ => source.windowless
  | _, .oneOf source _ _ => source.windowless
  | _, .oneOfSorted source _ _ _ => source.windowless
  | _, .oneOfSet source _ _ _ => source.windowless
  | _, .semiJoin source _ _ _ => source.windowless
  | _, .antiJoin source _ _ _ => source.windowless
  | _, .isSome source => source.windowless
  | _, .isNone source => source.windowless
  | _, .skip _ _ => false

abbrev BufferTest := Manifest.Buffer → Bytes → Res Bool

/-- A test that first reads its keys. -/
def withKeys {K : Type} (keys : Res K) (test : K → BufferTest) : BufferTest := fun buf mmap => do test (← keys) buf mmap

/-- The buffer tests of the filters of a chain, in order. -/
def tests : {t : Item} → Adapter .mask t → List BufferTest
  | _, .column _ _ _ => []
  | t, .filter source e f => source.tests ++ [@itemTest t.Val (t.decode source.decodable) fun item => e.evaluate item f]
  | t, .range (s := s) source e bounds => source.tests ++
    [@spanTest t.Val s.Val (t.decode source.decodable) _ (fun item => e.evaluate item bounds.contains)
      fun lb ub => .ok (!Manifest.Buffer.disjoint lb ub bounds)]
  | t, .bitMatch (s := s) source e item => source.tests ++
    [@spanTest t.Val s.Val (t.decode source.decodable) _ (fun i => e.evaluate i (BitMatch.eq item))
      fun lb ub => .ok (PartialOrd.le lb item && PartialOrd.le item ub)]
  | t, .oneOf (s := s) source e items => source.tests ++
    [@spanTest t.Val s.Val (t.decode source.decodable) _
      (fun item => e.evaluate item fun item => items.any fun i => BitMatch.eq item i)
      fun lb ub => .ok (items.any fun i => PartialOrd.le lb i && PartialOrd.le i ub)]
  | t, .oneOfSorted (s := s) source e _ items => source.tests ++
    [@spanTest t.Val s.Val (t.decode source.decodable) _ (fun item => e.evaluate item items.binarySearch)
      fun lb ub => .ok (items.partitionPoint (fun i => PartialOrd.lt i lb) < items.partitionPoint fun i => PartialOrd.le i ub)]
  | t, .oneOfSet (s := s) source e _ items => source.tests ++
    [@spanTest t.Val s.Val (t.decode source.decodable) _ (fun item => e.evaluate item fun item => items.contains item)
      fun lb ub => .ok (items.any fun i => PartialOrd.le lb i && PartialOrd.le i ub)]
  | t, .semiJoin (s := s) source e _ keys => source.tests ++
    [withKeys (K := BTreeSet s.Val) keys fun keys =>
      @spanTest t.Val s.Val (t.decode source.decodable) _ (fun item => e.evaluate item keys.contains)
        fun lb ub => do return (← keys.range lb ub).head?.isSome]
  | t, .antiJoin (j := j) source e _ keys => source.tests ++
    [withKeys (K := BTreeSet j.Val) keys fun keys =>
      @itemTest t.Val (t.decode source.decodable) fun item => e.evaluate item fun op => !keys.contains op]
  | _, .isSome (t := t) source => source.tests ++
    [@itemTest (Option t.Val) ((Item.option t).decode source.decodable) Option.isSome]
  | _, .isNone (t := t) source => source.tests ++
    [@itemTest (Option t.Val) ((Item.option t).decode source.decodable) Option.isNone]
  | _, .skip source _ => source.tests

/-- What a chain of filters makes of a mask. -/
def Prunes (src : Src) (tests : List BufferTest) {t : Item} (mask : Mask) (r : Adapter .iter t × Mask) : Prop :=
  r.1.src = src ∧ r.2.length = mask.length ∧ ∀ i, r.2.Includes i ↔ mask.Includes i ∧
    ∀ buf, src.buffers.items[i]? = some buf → ∀ test ∈ tests, test buf src.mmap = .ok true

theorem prunes_filter {src : Src} {tests : List BufferTest} {test : BufferTest} {t u : Item} {mask : Mask}
    {source : Adapter .iter t × Mask} {a : Adapter .iter u} {kept : Nat × Mask} (hs : Prunes src tests mask source)
    (ha : a.src = source.1.src) (hkept : source.1.src.tryExclude source.2 test = .ok kept) :
    Prunes src (tests ++ [test]) mask (a, kept.2) := by
  obtain ⟨hsrc, hlen, hbits⟩ := hs
  obtain ⟨hlen', hbits'⟩ := Src.excludeFrom_eq_ok hkept
  rw [hsrc] at hbits'
  refine ⟨ha.trans hsrc, hlen'.trans hlen, fun i => ?_⟩
  constructor
  · intro h
    obtain ⟨h, hlast⟩ := (hbits' i).mp h
    obtain ⟨h, hpass⟩ := (hbits i).mp h
    refine ⟨h, fun buf hbuf T hT => ?_⟩
    rcases List.mem_append.mp hT with hT | hT
    · exact hpass buf hbuf T hT
    · rw [List.mem_singleton.mp hT]
      exact hlast buf hbuf
  · rintro ⟨h, hpass⟩
    refine (hbits' i).mpr ⟨(hbits i).mpr ⟨h, fun buf hbuf T hT => ?_⟩, fun buf hbuf => ?_⟩
    · exact hpass buf hbuf T (List.mem_append_left _ hT)
    · exact hpass buf hbuf test (List.mem_append_right _ List.mem_cons_self)

theorem resolve_prunes {t : Item} {a : Adapter .mask t} {mask : Mask} {r : Adapter .iter t × Mask}
    (hw : a.windowless = true) (h : a.resolve mask = .ok r) : Prunes a.src a.tests mask r := by
  induction a generalizing mask with
  | column src t ht =>
    cases h
    exact ⟨rfl, rfl, fun i => by simp [tests]⟩
  | semiJoin source e ord keys ih =>
    obtain ⟨keys', hkeys, h⟩ := bind_eq_ok.mp h
    obtain ⟨s, hs, h⟩ := bind_eq_ok.mp h
    obtain ⟨kept, hkept, h⟩ := bind_eq_ok.mp h
    cases h
    have hstep := prunes_filter (a := .semiJoin s.1 e ord keys') (ih hw hs) rfl hkept
    rw [tests, show keys = .ok keys' from hkeys]
    exact hstep
  | antiJoin source e ord keys ih =>
    obtain ⟨keys', hkeys, h⟩ := bind_eq_ok.mp h
    obtain ⟨s, hs, h⟩ := bind_eq_ok.mp h
    obtain ⟨kept, hkept, h⟩ := bind_eq_ok.mp h
    cases h
    have hstep := prunes_filter (a := .antiJoin s.1 e ord keys') (ih hw hs) rfl hkept
    rw [tests, show keys = .ok keys' from hkeys]
    exact hstep
  | skip source n ih => cases hw
  | _ =>
    rename_i ih
    obtain ⟨s, hs, h⟩ := bind_eq_ok.mp h
    obtain ⟨kept, hkept, h⟩ := bind_eq_ok.mp h
    cases h
    exact prunes_filter (ih hw hs) rfl hkept

/-- The buffer passes every test of the chain. -/
def Passes {t : Item} (a : Adapter .mask t) (i : Nat) : Prop :=
  ∀ buf, a.src.buffers.items[i]? = some buf → ∀ test ∈ a.tests, test buf a.src.mmap = .ok true

theorem tryExclude_of_pass {src : Src} {test : BufferTest} {mask : Mask}
    (h : ∀ i, mask.Includes i → ∀ buf, src.buffers.items[i]? = some buf → test buf src.mmap = .ok true) :
    ∃ k, src.tryExclude mask test = .ok (k, mask) := Src.excludeFrom_of_pass 0 h

/-- A chain that resolves on some mask resolves on every mask whose buffers pass, and changes nothing. -/
theorem resolve_of_passes {t : Item} {a : Adapter .mask t} {other mask : Mask} {r : Adapter .iter t × Mask}
    (hw : a.windowless = true) (h : a.resolve other = .ok r) (hpass : ∀ i, mask.Includes i → a.Passes i) :
    ∃ b, a.resolve mask = .ok (b, mask) := by
  induction a generalizing other with
  | column src t ht => exact ⟨_, rfl⟩
  | semiJoin source e ord keys ih =>
    obtain ⟨keys', hkeys, h⟩ := bind_eq_ok.mp h
    obtain ⟨s, hs, -⟩ := bind_eq_ok.mp h
    obtain ⟨b, hb⟩ := ih hw hs fun i hi buf hbuf T hT => hpass i hi buf hbuf T (List.mem_append_left _ hT)
    have hsrc := (resolve_prunes (by exact hw) hb).1
    have hlast := fun i hi buf hbuf => hpass i hi buf hbuf _ (List.mem_append_right _ List.mem_cons_self)
    rw [show keys = .ok keys' from hkeys] at hlast ⊢
    obtain ⟨k, hk⟩ := tryExclude_of_pass hlast
    have hk : b.src.tryExclude mask _ = .ok (k, mask) := hsrc ▸ hk
    exact ⟨_, bind_eq_ok.mpr ⟨keys', rfl, bind_eq_ok.mpr ⟨(b, mask), hb, bind_eq_ok.mpr ⟨(k, mask), hk, rfl⟩⟩⟩⟩
  | antiJoin source e ord keys ih =>
    obtain ⟨keys', hkeys, h⟩ := bind_eq_ok.mp h
    obtain ⟨s, hs, -⟩ := bind_eq_ok.mp h
    obtain ⟨b, hb⟩ := ih hw hs fun i hi buf hbuf T hT => hpass i hi buf hbuf T (List.mem_append_left _ hT)
    have hsrc := (resolve_prunes (by exact hw) hb).1
    have hlast := fun i hi buf hbuf => hpass i hi buf hbuf _ (List.mem_append_right _ List.mem_cons_self)
    rw [show keys = .ok keys' from hkeys] at hlast ⊢
    obtain ⟨k, hk⟩ := tryExclude_of_pass hlast
    have hk : b.src.tryExclude mask _ = .ok (k, mask) := hsrc ▸ hk
    exact ⟨_, bind_eq_ok.mpr ⟨keys', rfl, bind_eq_ok.mpr ⟨(b, mask), hb, bind_eq_ok.mpr ⟨(k, mask), hk, rfl⟩⟩⟩⟩
  | skip source n ih => cases hw
  | _ =>
    rename_i ih
    obtain ⟨s, hs, -⟩ := bind_eq_ok.mp h
    obtain ⟨b, hb⟩ := ih hw hs fun i hi buf hbuf T hT => hpass i hi buf hbuf T (List.mem_append_left _ hT)
    have hsrc := (resolve_prunes (by exact hw) hb).1
    obtain ⟨k, hk⟩ := tryExclude_of_pass fun i hi buf hbuf => hpass i hi buf hbuf _ (List.mem_append_right _ List.mem_cons_self)
    have hk : b.src.tryExclude mask _ = .ok (k, mask) := hsrc ▸ hk
    exact ⟨_, bind_eq_ok.mpr ⟨(b, mask), hb, bind_eq_ok.mpr ⟨(k, mask), hk, rfl⟩⟩⟩

end Adapter

/-- The mask of `n` buffers that includes the `i`th alone. -/
def Mask.only (n i : Nat) : Mask := (List.range n).map fun j => j == i

theorem Mask.only_includes {n i j : Nat} : (Mask.only n i).Includes j ↔ j < n ∧ j = i := by
  unfold Mask.Includes Mask.only
  by_cases h : j < n <;> simp [h]

namespace Adapter
variable {t : Item} {a : Adapter .mask t}

/-- The chain by itself keeps the `i`th of `n` buffers. -/
def keeps (a : Adapter .mask t) (n i : Nat) : Bool :=
  match a.resolve (Mask.only n i) with
  | .ok r => decide (r.2.Includes i)
  | .error _ => false

theorem keeps_iff {other : Mask} {r : Adapter .iter t × Mask} (hw : a.windowless = true) (h : a.resolve other = .ok r)
    {n i : Nat} (hi : i < n) : a.keeps n i = true ↔ a.Passes i := by
  unfold keeps
  constructor
  · intro hkeep
    cases hr : a.resolve (Mask.only n i) with
    | error e =>
      rw [hr] at hkeep
      cases hkeep
    | ok r =>
      rw [hr] at hkeep
      exact (((resolve_prunes hw hr).2.2 i).mp (of_decide_eq_true hkeep)).2
  · intro hpass
    have honly : ∀ j, (Mask.only n i).Includes j → a.Passes j := by
      intro j hj
      rw [(Mask.only_includes.mp hj).2]
      exact hpass
    obtain ⟨b, hb⟩ := resolve_of_passes hw h honly
    rw [hb]
    exact decide_eq_true (Mask.only_includes.mpr ⟨hi, rfl⟩)

end Adapter

/-! ## Truth of a tree -/

abbrev Leg (ph : Phase) := Σ t : Item, Adapter ph t

namespace Tree

def legs {ph : Phase} : Tree ph → List (Leg ph)
  | .leg a => [⟨_, a⟩]
  | .conjunct a b => a.legs ++ b.legs
  | .disjunct a b => a.legs ++ b.legs
  | .adjunct a b => a.legs ++ b.legs

def Windowless {ph : Phase} (tree : Tree ph) : Prop := ∀ leg ∈ tree.legs, leg.2.windowless = true

instance {ph : Phase} (tree : Tree ph) : Decidable tree.Windowless := inferInstanceAs (Decidable (∀ leg ∈ _, _))

/-- The tree over buffers: a buffer of a symmetric difference may hold rows of either child. -/
def Holds {ph : Phase} (value : Leg ph → Prop) : Tree ph → Prop
  | .leg a => value ⟨_, a⟩
  | .conjunct a b => a.Holds value ∧ b.Holds value
  | .disjunct a b => a.Holds value ∨ b.Holds value
  | .adjunct a b => a.Holds value ∨ b.Holds value

/-- The tree over rows. -/
def Selects {ph : Phase} (row : Leg ph → Prop) : Tree ph → Prop
  | .leg a => row ⟨_, a⟩
  | .conjunct a b => a.Selects row ∧ b.Selects row
  | .disjunct a b => a.Selects row ∨ b.Selects row
  | .adjunct a b => Xor (a.Selects row) (b.Selects row)

/-- The same tree with the children of nodes and the filters of legs in another order. -/
inductive Reordered : Tree .mask → Tree .mask → Prop
  | filters {t u : Item} {a : Adapter .mask t} {b : Adapter .mask u} (src : a.src = b.src) (tests : a.tests.Perm b.tests) :
      Reordered (.leg a) (.leg b)
  | conjunct {a b a' b' : Tree .mask} (ha : Reordered a a') (hb : Reordered b b') : Reordered (.conjunct a b) (.conjunct a' b')
  | disjunct {a b a' b' : Tree .mask} (ha : Reordered a a') (hb : Reordered b b') : Reordered (.disjunct a b) (.disjunct a' b')
  | adjunct {a b a' b' : Tree .mask} (ha : Reordered a a') (hb : Reordered b b') : Reordered (.adjunct a b) (.adjunct a' b')
  | conjunctSwap (a b : Tree .mask) : Reordered (.conjunct a b) (.conjunct b a)
  | disjunctSwap (a b : Tree .mask) : Reordered (.disjunct a b) (.disjunct b a)
  | adjunctSwap (a b : Tree .mask) : Reordered (.adjunct a b) (.adjunct b a)
  | trans {a b c : Tree .mask} (hab : Reordered a b) (hbc : Reordered b c) : Reordered a c

theorem holds_congr {ph : Phase} {value value' : Leg ph → Prop} {tree : Tree ph}
    (h : ∀ leg ∈ tree.legs, (value leg ↔ value' leg)) : tree.Holds value ↔ tree.Holds value' := by
  induction tree with
  | leg a => exact h _ List.mem_cons_self
  | conjunct a b iha ihb =>
    exact and_congr (iha fun leg hl => h leg (List.mem_append_left _ hl)) (ihb fun leg hl => h leg (List.mem_append_right _ hl))
  | disjunct a b iha ihb =>
    exact or_congr (iha fun leg hl => h leg (List.mem_append_left _ hl)) (ihb fun leg hl => h leg (List.mem_append_right _ hl))
  | adjunct a b iha ihb =>
    exact or_congr (iha fun leg hl => h leg (List.mem_append_left _ hl)) (ihb fun leg hl => h leg (List.mem_append_right _ hl))

theorem holds_of_selects {ph : Phase} {row value : Leg ph → Prop} {tree : Tree ph}
    (h : ∀ leg ∈ tree.legs, row leg → value leg) (hrow : tree.Selects row) : tree.Holds value := by
  induction tree with
  | leg a => exact h _ List.mem_cons_self hrow
  | conjunct a b iha ihb =>
    exact ⟨iha (fun leg hl => h leg (List.mem_append_left _ hl)) hrow.1,
      ihb (fun leg hl => h leg (List.mem_append_right _ hl)) hrow.2⟩
  | disjunct a b iha ihb =>
    exact hrow.imp (iha fun leg hl => h leg (List.mem_append_left _ hl)) (ihb fun leg hl => h leg (List.mem_append_right _ hl))
  | adjunct a b iha ihb =>
    have hor : a.Selects row ∨ b.Selects row := hrow.imp And.left And.left
    exact hor.imp (iha fun leg hl => h leg (List.mem_append_left _ hl)) (ihb fun leg hl => h leg (List.mem_append_right _ hl))

/-- What a tree of filters makes of a mask. -/
def Prunes (tree : Tree .mask) (mask mask' : Mask) : Prop :=
  mask'.length = mask.length ∧ ∀ i, mask'.Includes i ↔ mask.Includes i ∧ tree.Holds fun leg => leg.2.Passes i

/-- The second child sees what the first cleared, and the two are united. -/
theorem prunes_union {a b : Tree .mask} {mask ma mb : Mask} (ha : a.Prunes mask ma) (hb : b.Prunes (mask.xor ma) mb) :
    (Tree.disjunct a b).Prunes mask (mb.or ma) := by
  obtain ⟨hla, ha⟩ := ha
  obtain ⟨hlb, hb⟩ := hb
  have hxor := Mask.xor_length hla
  have hlen : ma.length = mb.length := by rw [hla, hlb, hxor]
  refine ⟨(Mask.or_length hlen).trans (hlb.trans hxor), fun i => ?_⟩
  have hsub : ∀ i, ma.Includes i → mask.Includes i := fun i hi => ((ha i).mp hi).1
  rw [Mask.or_includes hlen, hb, Mask.xor_includes hla hsub, ha, Holds]
  tauto

theorem resolve_prunes {tree : Tree .mask} {mask : Mask} {r : Tree .iter × Mask} (hw : tree.Windowless)
    (h : tree.resolve mask = .ok r) : tree.Prunes mask r.2 := by
  induction tree generalizing mask r with
  | leg a =>
    obtain ⟨s, hs, h⟩ := bind_eq_ok.mp h
    cases h
    exact (Adapter.resolve_prunes (hw _ List.mem_cons_self) hs).2
  | conjunct a b iha ihb =>
    obtain ⟨s, hs, h⟩ := bind_eq_ok.mp h
    obtain ⟨u, hu, h⟩ := bind_eq_ok.mp h
    cases h
    obtain ⟨hla, ha⟩ := iha (fun leg hl => hw leg (List.mem_append_left _ hl)) hs
    obtain ⟨hlb, hb⟩ := ihb (fun leg hl => hw leg (List.mem_append_right _ hl)) hu
    refine ⟨hlb.trans hla, fun i => ?_⟩
    rw [hb, ha, and_assoc]
    rfl
  | disjunct a b iha ihb =>
    obtain ⟨s, hs, h⟩ := bind_eq_ok.mp h
    obtain ⟨u, hu, h⟩ := bind_eq_ok.mp h
    cases h
    exact prunes_union (iha (fun leg hl => hw leg (List.mem_append_left _ hl)) hs)
      (ihb (fun leg hl => hw leg (List.mem_append_right _ hl)) hu)
  | adjunct a b iha ihb =>
    obtain ⟨s, hs, h⟩ := bind_eq_ok.mp h
    obtain ⟨u, hu, h⟩ := bind_eq_ok.mp h
    cases h
    exact prunes_union (iha (fun leg hl => hw leg (List.mem_append_left _ hl)) hs)
      (ihb (fun leg hl => hw leg (List.mem_append_right _ hl)) hu)

theorem resolve_legs {tree : Tree .mask} {mask : Mask} {r : Tree .iter × Mask} (h : tree.resolve mask = .ok r) :
    ∀ leg ∈ tree.legs, ∃ other s, leg.2.resolve other = .ok s := by
  induction tree generalizing mask r with
  | leg a =>
    obtain ⟨s, hs, -⟩ := bind_eq_ok.mp h
    intro leg hl
    rw [List.mem_singleton.mp hl]
    exact ⟨mask, s, hs⟩
  | conjunct a b iha ihb =>
    obtain ⟨s, hs, h⟩ := bind_eq_ok.mp h
    obtain ⟨u, hu, -⟩ := bind_eq_ok.mp h
    exact fun leg hl => (List.mem_append.mp hl).elim (iha hs leg) (ihb hu leg)
  | disjunct a b iha ihb =>
    obtain ⟨s, hs, h⟩ := bind_eq_ok.mp h
    obtain ⟨u, hu, -⟩ := bind_eq_ok.mp h
    exact fun leg hl => (List.mem_append.mp hl).elim (iha hs leg) (ihb hu leg)
  | adjunct a b iha ihb =>
    obtain ⟨s, hs, h⟩ := bind_eq_ok.mp h
    obtain ⟨u, hu, -⟩ := bind_eq_ok.mp h
    exact fun leg hl => (List.mem_append.mp hl).elim (iha hs leg) (ihb hu leg)

theorem Reordered.holds {a b : Tree .mask} (h : a.Reordered b) (i : Nat) :
    (a.Holds fun leg => leg.2.Passes i) ↔ b.Holds fun leg => leg.2.Passes i := by
  induction h with
  | @filters t u a b src tests =>
    show a.Passes i ↔ b.Passes i
    unfold Adapter.Passes
    rw [src]
    simp only [tests.mem_iff]
  | conjunct _ _ iha ihb => exact and_congr iha ihb
  | disjunct _ _ iha ihb => exact or_congr iha ihb
  | adjunct _ _ iha ihb => exact or_congr iha ihb
  | conjunctSwap a b => exact and_comm
  | disjunctSwap a b => exact or_comm
  | adjunctSwap a b => exact or_comm
  | trans _ _ ihab ihbc => exact ihab.trans ihbc

/-- A tree of filters acts on every bit by itself: a bit stays set when it was set and the tree holds of what
each leg by itself does to it. The order of children and filters does not matter, and a buffer is kept if any
selection of rows the legs may hold in it is selected by the tree. -/
theorem resolve_pointwise {tree : Tree .mask} {mask : Mask} {r : Tree .iter × Mask} (hw : tree.Windowless)
    (h : tree.resolve mask = .ok r) :
    (∀ i, r.2.Includes i ↔ mask.Includes i ∧ tree.Holds fun leg => leg.2.keeps mask.length i = true) ∧
      (∀ other s, tree.Reordered other → other.Windowless → other.resolve mask = .ok s → s.2 = r.2) ∧
        ∀ i (row : Leg .mask → Prop), mask.Includes i →
          (∀ leg ∈ tree.legs, row leg → leg.2.keeps mask.length i = true) → tree.Selects row → r.2.Includes i := by
  obtain ⟨hlen, hbits⟩ := resolve_prunes hw h
  have hkeeps : ∀ i, r.2.Includes i ↔ mask.Includes i ∧ tree.Holds fun leg => leg.2.keeps mask.length i = true := by
    intro i
    rw [hbits]
    refine and_congr_right fun hi => holds_congr fun leg hl => ?_
    obtain ⟨other, s, hs⟩ := resolve_legs h leg hl
    exact (Adapter.keeps_iff (hw leg hl) hs hi.lt).symm
  refine ⟨hkeeps, fun other s hother hwo hs => ?_, fun i row hi hrow hsel => ?_⟩
  · obtain ⟨hlen', hbits'⟩ := resolve_prunes hwo hs
    refine Mask.ext_includes (hlen'.trans hlen.symm) fun i => ?_
    rw [hbits, hbits', hother.holds]
  · exact (hkeeps i).mpr ⟨hi, holds_of_selects hrow hsel⟩

end Tree

/-- A word of 32 bits. -/
def word (n : Nat) : Prim.Val (.plain (.uint .b4)) := ⟨n % 2 ^ 32, Nat.mod_lt _ (by decide), trivial⟩

theorem word_size : 4 < 2 ^ 64 := by decide

theorem pair_count : 2 < 2 ^ 64 := by decide

/-- A compact buffer of one word. -/
def wordBuffer (offset : U64) (count : NonZero) : Manifest.Buffer :=
  .compact ⟨offset.val, 4, offset.lt, Nat.succ_pos 3, word_size⟩ count

/-- Three compact buffers of one word each. -/
def segmented (a b c : Nat) : Src where
  mmap := Bytes.leBytes 4 a ++ Bytes.leBytes 4 b ++ Bytes.leBytes 4 c
  buffers := ⟨[wordBuffer (U64.clamp 0) ⟨2, Nat.succ_pos 1, pair_count⟩,
    wordBuffer (U64.clamp 4) ⟨2, Nat.succ_pos 1, pair_count⟩,
    wordBuffer (U64.clamp 8) ⟨2, Nat.succ_pos 1, pair_count⟩], by decide⟩

def wordColumn (src : Src) : Adapter .mask (.prim (.plain (.uint .b4))) := .column src _ rfl

/-- A leg that clears the first buffer, and a union of a leg that keeps the second and one that keeps all. -/
def united : Tree .mask := .conjunct
  (.leg (.oneOf (s := .prim (.plain (.uint .b4))) (wordColumn (segmented 1 2 3)) (.whole _) [word 2, word 3]))
  (.disjunct (.leg (.bitMatch (s := .prim (.plain (.uint .b4))) (wordColumn (segmented 4 5 6)) (.whole _) (word 5)))
    (.leg (wordColumn (segmented 7 8 9))))

theorem Tree.resolve_pointwise_united : ∃ r, united.resolve [true, true, true] = .ok r ∧ r.2 = [false, true, true] ∧
    (∀ i, r.2.Includes i ↔ Mask.Includes [true, true, true] i ∧ united.Holds fun leg => leg.2.keeps 3 i = true) ∧
      (∀ other s, united.Reordered other → other.Windowless → other.resolve [true, true, true] = .ok s → s.2 = r.2) ∧
        ∀ i (row : Leg .mask → Prop), Mask.Includes [true, true, true] i →
          (∀ leg ∈ united.legs, row leg → leg.2.keeps 3 i = true) → united.Selects row → r.2.Includes i :=
  ⟨_, rfl, rfl, Tree.resolve_pointwise (by decide) rfl⟩

end Msca
