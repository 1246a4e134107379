import Msca.Base.Numbering
import Msca.Prim

/-! Items interned to the index of their first occurrence. The rows of a schema are numbered as they are read,
unseen items take the indices that follow, and the new items are found again in the map by their index. -/
namespace Msca
set_option autoImplicit false
open Numbering

/-- `crate::Error`. An index out of range is kept apart from the number errors of the write path, which the source
flattens into the same `Number(Zero)`. -/
inductive GetError
  | column (name : String)
  | fault (f : Fault)
  | overflow
  deriving DecidableEq, Repr

/-! ## Indices -/

/-- `N: Unsigned`. -/
abbrev Unsigned (w : Width) := Fin (256 ^ w.bytes)

namespace Unsigned
variable {w : Width}

/-- `N::try_from(..).ok()`. -/
def ofNat? (n : Nat) : Option (Unsigned w) := if h : n < 256 ^ w.bytes then some ⟨n, h⟩ else none

/-- `checked_add(N::ONE)`. -/
def succ? (i : Unsigned w) : Option (Unsigned w) := ofNat? (i.val + 1)

/-- `as_u64`. -/
def asU64 (i : Unsigned w) : Nat := i.val % 2 ^ 64

theorem ofNat?_eq_some {n : Nat} {i : Unsigned w} : ofNat? n = some i ↔ i.val = n := by
  unfold ofNat?
  split
  next h => rw [Option.some.injEq, Fin.ext_iff, eq_comm]
  next h =>
    constructor
    · simp
    · rintro rfl
      exact absurd i.isLt h

theorem ofNat?_of_lt {n : Nat} (h : n < 256 ^ w.bytes) : (ofNat? n : Option (Unsigned w)) = some ⟨n, h⟩ := dif_pos h

theorem ofNat?_of_not_lt {n : Nat} (h : ¬ n < 256 ^ w.bytes) : (ofNat? n : Option (Unsigned w)) = none := dif_neg h

end Unsigned

/-! ## Maps -/

/-- `HashMap`: entries under keys that are pairwise unequal. -/
structure HashMap (κ ν : Type) [BEq κ] where
  entries : List (κ × ν)
  distinct : entries.Pairwise fun a b => (a.1 == b.1) = false

namespace HashMap
variable {κ ν : Type} [BEq κ]

def empty : HashMap κ ν := ⟨[], List.Pairwise.nil⟩

def get? (m : HashMap κ ν) (k : κ) : Option ν := (m.entries.find? fun e => e.1 == k).map Prod.snd

theorem get?_eq_none {m : HashMap κ ν} {k : κ} : m.get? k = none ↔ ∀ e ∈ m.entries, (e.1 == k) = false := by
  simp [get?, List.find?_eq_none]

theorem distinct_snoc {m : HashMap κ ν} {k : κ} (h : m.get? k = none) (v : ν) :
    (m.entries ++ [(k, v)]).Pairwise fun a b => (a.1 == b.1) = false := by
  refine List.pairwise_append.mpr ⟨m.distinct, List.pairwise_singleton _ _, fun a ha b hb => ?_⟩
  rw [List.mem_singleton.mp hb]
  exact get?_eq_none.mp h a ha

/-- `VacantEntry::insert`. -/
def insertVacant (m : HashMap κ ν) (k : κ) (v : ν) (h : m.get? k = none) : HashMap κ ν :=
  ⟨m.entries ++ [(k, v)], distinct_snoc h v⟩

/-- `hash_map::Entry`. -/
inductive Entry (m : HashMap κ ν) (k : κ)
  | occupied (v : ν) (h : m.get? k = some v)
  | vacant (h : m.get? k = none)

/-- `HashMap::entry`. -/
def entry (m : HashMap κ ν) (k : κ) : m.Entry k :=
  match h : m.get? k with
  | some v => .occupied v h
  | none => .vacant h

theorem entry_some {m : HashMap κ ν} {k : κ} {v : ν} (h : m.get? k = some v) : m.entry k = .occupied v h := by
  cases m.entry k with
  | occupied u h' =>
    have hsame : u = v := Option.some.inj (h'.symm.trans h)
    subst hsame
    rfl
  | vacant h' =>
    rw [h] at h'
    cases h'

theorem entry_none {m : HashMap κ ν} {k : κ} (h : m.get? k = none) : m.entry k = .vacant h := by
  cases m.entry k with
  | occupied v h' =>
    rw [h] at h'
    cases h'
  | vacant h' => rfl

/-- `Entry::or_insert`. -/
def orInsert (m : HashMap κ ν) (k : κ) (v : ν) : HashMap κ ν :=
  match m.entry k with
  | .occupied _ _ => m
  | .vacant h => m.insertVacant k v h

theorem orInsert_some {m : HashMap κ ν} {k : κ} {u : ν} (h : m.get? k = some u) (v : ν) : m.orInsert k v = m := by
  rw [orInsert, entry_some h]

theorem orInsert_none {m : HashMap κ ν} {k : κ} (h : m.get? k = none) (v : ν) : m.orInsert k v = m.insertVacant k v h := by
  rw [orInsert, entry_none h]

theorem get?_insertVacant {m : HashMap κ ν} {k : κ} (h : m.get? k = none) (v : ν) (x : κ) :
    (m.insertVacant k v h).get? x = (m.get? x).or (if (k == x) = true then some v else none) := by
  simp only [get?, insertVacant, List.find?_append, List.find?_cons, List.find?_nil]
  cases m.entries.find? fun e => e.1 == x with
  | some e => rfl
  | none => cases k == x <;> rfl

end HashMap

section
variable {I : Type} [BEq I] {w : Width}

/-- `Query::intern`, from the map and the index reached. -/
def intern : List (Res I) → HashMap I (Unsigned w) → Option (Unsigned w) → Except GetError (HashMap I (Unsigned w))
  | [], map, _ => .ok map
  | _ :: _, _, none => .error .overflow
  | .error f :: _, _, some _ => .error (.fault f)
  | .ok item :: items, map, some i => intern items (map.orInsert item i) i.succ?

/-- The loop of `Dataset::get_or_insert` over the requested items. -/
def request : List I → HashMap I (Unsigned w) → Option (Unsigned w) →
    Except GetError (List (Unsigned w) × HashMap I (Unsigned w))
  | [], map, _ => .ok ([], map)
  | item :: items, map, next =>
    match map.entry item, next with
    | .occupied i _, next => do
      let r ← request items map next
      return (i :: r.1, r.2)
    | .vacant h, some i => do
      let r ← request items (map.insertVacant item i h) i.succ?
      return (i :: r.1, r.2)
    | .vacant _, none => .error .overflow

/-- The entries at or behind index `count` in index order. -/
def recover (count : Nat) (entries : List (I × Unsigned w)) : List (I × Unsigned w) :=
  (entries.filter fun e => decide (count ≤ e.2.asU64)).mergeSort fun a b => decide (a.2 ≤ b.2)

/-! ## What a map stands for -/

/-- The map holds the numbers of the items of `l`. -/
structure Numbers (m : HashMap I (Unsigned w)) (l : List I) : Prop where
  get : ∀ x, (m.get? x).map Fin.val = first l x
  lt : ∀ e ∈ m.entries, e.2.val < l.length

namespace Numbers
variable [EquivBEq I] {m : HashMap I (Unsigned w)} {l : List I}

omit [EquivBEq I] in
theorem empty : Numbers (HashMap.empty : HashMap I (Unsigned w)) [] := ⟨fun _ => rfl, by simp [HashMap.empty]⟩

omit [EquivBEq I] in
theorem get?_eq_none (h : Numbers m l) {x : I} : m.get? x = none ↔ first l x = none := by
  rw [← h.get x, Option.map_eq_none_iff]

theorem snoc_known (h : Numbers m l) {x : I} {i : Unsigned w} (hx : m.get? x = some i) : Numbers m (l ++ [x]) := by
  have hfirst : first l x = some i.val := by rw [← h.get x, hx, Option.map_some]
  constructor
  · intro y
    rw [h.get y]
    cases hy : first l y with
    | some n => rw [first_append hy]
    | none =>
      rw [first_append_of_none hy]
      have hne : (x == y) = false := by
        rw [← Bool.not_eq_true]
        intro heq
        rw [first_congr heq, hy] at hfirst
        cases hfirst
      simp [first, hne]
  · intro e he
    rw [List.length_append]
    exact Nat.lt_of_lt_of_le (h.lt e he) (Nat.le_add_right _ _)

omit [EquivBEq I] in
theorem snoc_vacant (h : Numbers m l) {x : I} (hx : m.get? x = none) {i : Unsigned w} (hi : i.val = l.length) :
    Numbers (m.insertVacant x i hx) (l ++ [x]) := by
  constructor
  · intro y
    rw [HashMap.get?_insertVacant, Option.map_or, h.get y]
    cases hy : first l y with
    | some n => rw [first_append hy, Option.some_or]
    | none =>
      rw [first_append_of_none hy, Option.none_or]
      by_cases hxy : (x == y) = true
      · simp [first, hxy, hi]
      · simp [first, hxy]
  · intro e he
    rw [List.length_append, List.length_singleton]
    rcases List.mem_append.mp he with he | he
    · exact Nat.lt_succ_of_lt (h.lt e he)
    · rw [List.mem_singleton.mp he]
      show i.val < l.length + 1
      omega

theorem orInsert (h : Numbers m l) (x : I) {i : Unsigned w} (hi : i.val = l.length) :
    Numbers (m.orInsert x i) (l ++ [x]) := by
  cases hx : m.get? x with
  | some u =>
    rw [HashMap.orInsert_some hx]
    exact h.snoc_known hx
  | none =>
    rw [HashMap.orInsert_none hx]
    exact h.snoc_vacant hx hi

end Numbers

/-! ## The loops -/

theorem GetError.bind_eq_ok {α β : Type} {x : Except GetError α} {f : α → Except GetError β} {b : β} :
    (x >>= f) = .ok b ↔ ∃ a, x = .ok a ∧ f a = .ok b := by
  cases x with
  | error e => simp [bind, Except.bind]
  | ok a => simp [bind, Except.bind]

section
variable {m : HashMap I (Unsigned w)} {l : List I}

theorem intern_append [EquivBEq I] (h : Numbers m l) (items : List I) (rest : List (Res I))
    (hle : l.length + items.length ≤ 256 ^ w.bytes) :
    ∃ m', Numbers m' (l ++ items) ∧
      intern (items.map .ok ++ rest) m (Unsigned.ofNat? l.length) = intern rest m' (Unsigned.ofNat? (l ++ items).length) := by
  induction items generalizing m l with
  | nil => exact ⟨m, by rwa [List.append_nil], by rw [List.append_nil]; rfl⟩
  | cons x items ih =>
    rw [List.length_cons] at hle
    have hlt : l.length < 256 ^ w.bytes := by omega
    have hnext : (l ++ [x]).length = l.length + 1 := by simp
    obtain ⟨m', hm', hrun⟩ := ih (h.orInsert x (i := ⟨l.length, hlt⟩) rfl) (by omega)
    refine ⟨m', by rwa [List.append_cons], ?_⟩
    rw [List.append_cons, ← hrun, hnext, Unsigned.ofNat?_of_lt hlt]
    rfl

theorem intern_overflow (items : List I) (rest : List (Res I)) {n : Nat} (hn : n ≤ 256 ^ w.bytes)
    (hlt : 256 ^ w.bytes < n + items.length) :
    intern (items.map .ok ++ rest) m (Unsigned.ofNat? n) = .error .overflow := by
  induction items generalizing m n with
  | nil => exact absurd hlt (by simpa using hn)
  | cons x items ih =>
    rw [List.length_cons] at hlt
    by_cases hfits : n < 256 ^ w.bytes
    · rw [Unsigned.ofNat?_of_lt hfits]
      exact ih (n := n + 1) hfits (by omega)
    · rw [Unsigned.ofNat?_of_not_lt hfits]
      rfl

/-- Rows are interned exactly while an index is left for each. -/
theorem intern_spec [EquivBEq I] (h : Numbers m l) (rows : List I) (hle : l.length ≤ 256 ^ w.bytes) :
    (l.length + rows.length ≤ 256 ^ w.bytes ∧
        ∃ m', intern (rows.map .ok) m (Unsigned.ofNat? l.length) = .ok m' ∧ Numbers m' (l ++ rows)) ∨
      256 ^ w.bytes < l.length + rows.length ∧ intern (rows.map .ok) m (Unsigned.ofNat? l.length) = .error .overflow := by
  rcases Nat.lt_or_ge (256 ^ w.bytes) (l.length + rows.length) with hlt | hfits
  · refine Or.inr ⟨hlt, ?_⟩
    simpa using intern_overflow rows [] hle hlt
  · obtain ⟨m', hm', hrun⟩ := intern_append h rows [] hfits
    rw [List.append_nil] at hrun
    exact Or.inl ⟨hfits, m', hrun, hm'⟩

theorem request_some {x : I} {i : Unsigned w} (h : m.get? x = some i) (items : List I) (next : Option (Unsigned w)) :
    request (x :: items) m next = do
      let r ← request items m next
      return (i :: r.1, r.2) := by
  conv_lhs => unfold request
  rw [HashMap.entry_some h]

theorem request_vacant {x : I} (h : m.get? x = none) (items : List I) (i : Unsigned w) :
    request (x :: items) m (some i) = do
      let r ← request items (m.insertVacant x i h) i.succ?
      return (i :: r.1, r.2) := by
  conv_lhs => unfold request
  rw [HashMap.entry_none h]

theorem request_overflow {x : I} (h : m.get? x = none) (items : List I) :
    request (x :: items) m (none : Option (Unsigned w)) = .error .overflow := by
  conv_lhs => unfold request
  rw [HashMap.entry_none h]

/-- Every requested item gets its number behind the unseen ones, which are entered in order. -/
theorem request_spec [EquivBEq I] (h : Numbers m l) {items : List I} {r : List (Unsigned w) × HashMap I (Unsigned w)}
    (hrun : request items m (Unsigned.ofNat? l.length) = .ok r) :
    List.Forall₂ (fun x i => first (l ++ unseen l items) x = some i.val) items r.1 ∧
      ∃ added, r.2.entries = m.entries ++ added ∧
        added.map (fun e => (e.1, e.2.val)) = (unseen l items).zipIdx l.length := by
  induction items generalizing m l r with
  | nil =>
    cases hrun
    exact ⟨List.Forall₂.nil, [], by simp, rfl⟩
  | cons x items ih =>
    cases hx : m.get? x with
    | some i =>
      rw [request_some hx] at hrun
      obtain ⟨r', hr', hrun⟩ := GetError.bind_eq_ok.mp hrun
      cases hrun
      have hfirst : first l x = some i.val := by rw [← h.get x, hx, Option.map_some]
      obtain ⟨hall, hadded⟩ := ih h hr'
      rw [unseen_of_some hfirst]
      exact ⟨List.Forall₂.cons (first_append hfirst _) hall, hadded⟩
    | none =>
      have hfirst := h.get?_eq_none.mp hx
      cases hnext : (Unsigned.ofNat? l.length : Option (Unsigned w)) with
      | none =>
        rw [hnext, request_overflow hx] at hrun
        cases hrun
      | some i =>
        have hi := Unsigned.ofNat?_eq_some.mp hnext
        rw [hnext, request_vacant hx] at hrun
        obtain ⟨r', hr', hrun⟩ := GetError.bind_eq_ok.mp hrun
        cases hrun
        have hsucc : i.succ? = Unsigned.ofNat? (l ++ [x]).length := by
          rw [Unsigned.succ?, hi, List.length_append, List.length_singleton]
        rw [hsucc] at hr'
        obtain ⟨hall, added, hentries, hadded⟩ := ih (h.snoc_vacant hx hi) hr'
        rw [unseen_of_none hfirst, List.append_cons]
        refine ⟨List.Forall₂.cons (hi ▸ first_snoc hfirst _) hall, (x, i) :: added, ?_, ?_⟩
        · rw [hentries, HashMap.insertVacant, List.append_assoc]
          rfl
        · rw [List.map_cons, hadded, List.zipIdx_cons, hi, List.length_append, List.length_singleton]

theorem exists_request [EquivBEq I] (h : Numbers m l) (items : List I) (hle : l.length + items.length ≤ 256 ^ w.bytes) :
    ∃ r, request items m (Unsigned.ofNat? l.length) = .ok r := by
  induction items generalizing m l with
  | nil => exact ⟨_, rfl⟩
  | cons x items ih =>
    rw [List.length_cons] at hle
    cases hx : m.get? x with
    | some i =>
      obtain ⟨r, hr⟩ := ih h (by omega)
      exact ⟨(i :: r.1, r.2), by rw [request_some hx, hr]; rfl⟩
    | none =>
      have hlt : l.length < 256 ^ w.bytes := by omega
      obtain ⟨r, hr⟩ := ih (h.snoc_vacant hx (i := ⟨l.length, hlt⟩) rfl) (by simp; omega)
      rw [List.length_append, List.length_singleton] at hr
      change request items _ (Unsigned.succ? ⟨l.length, hlt⟩) = _ at hr
      refine ⟨(⟨l.length, hlt⟩ :: r.1, r.2), ?_⟩
      rw [Unsigned.ofNat?_of_lt hlt, request_vacant hx, hr]
      rfl

theorem request_known (h : Numbers m l) (next : Option (Unsigned w)) {items : List I} {out : List (Unsigned w)}
    (hall : List.Forall₂ (fun x i => first l x = some i.val) items out) : request items m next = .ok (out, m) := by
  induction hall with
  | nil => rfl
  | @cons x i items out hx _ ih =>
    have hget : m.get? x = some i := by
      have hmap := (h.get x).trans hx
      obtain ⟨j, hj, hval⟩ := Option.map_eq_some_iff.mp hmap
      rw [hj, Fin.ext hval]
    rw [request_some hget, ih]
    rfl

/-- Numbers in front are passed over, and what is recovered stands in index order. -/
theorem recover_spec {entries added : List (I × Unsigned w)} (horder : entries.Perm (m.entries ++ added)) {count : Nat}
    (hcount : count < 2 ^ 64) (hlt : ∀ e ∈ m.entries, e.2.val < count) {fresh : List I}
    (hadded : added.map (fun e => (e.1, e.2.val)) = fresh.zipIdx count) :
    recover count entries = added.filter fun e => decide (count ≤ e.2.asU64) := by
  have hindices : added.map (fun e => e.2.val) = List.range' count fresh.length := by
    rw [← List.zipIdx_map_snd, ← hadded, List.map_map]
    rfl
  have hsorted : added.Pairwise fun a b => decide (a.2 ≤ b.2) = true := by
    have hpairs : (added.map fun e => e.2.val).Pairwise (· < ·) := hindices ▸ List.pairwise_lt_range'
    exact (List.pairwise_map.mp hpairs).imp fun hab => decide_eq_true (Nat.le_of_lt hab)
  have hinj : ∀ a ∈ added, ∀ b ∈ added, a.2.val = b.2.val → a = b := by
    have hnodup : (added.map fun e => e.2.val).Nodup := hindices ▸ List.nodup_range'
    exact fun a ha b hb hab => List.inj_on_of_nodup_map hnodup ha hb hab
  have hfilter : (m.entries ++ added).filter (fun e => decide (count ≤ e.2.asU64)) =
      added.filter fun e => decide (count ≤ e.2.asU64) := by
    rw [List.filter_append, List.filter_eq_nil_iff.mpr, List.nil_append]
    intro e he
    have hval := hlt e he
    rw [Unsigned.asU64, Nat.mod_eq_of_lt (Nat.lt_trans hval hcount)]
    simpa using hval
  have hperm : (recover count entries).Perm (added.filter fun e => decide (count ≤ e.2.asU64)) :=
    hfilter ▸ (List.mergeSort_perm _ _).trans (horder.filter _)
  refine hperm.eq_of_pairwise ?_ (List.pairwise_mergeSort ?_ ?_ _) (hsorted.filter _)
  · intro a b ha hb hab hba
    have ha := (List.mem_filter.mp (hperm.mem_iff.mp ha)).1
    have hb := (List.mem_filter.mp hb).1
    exact hinj a ha b hb (Nat.le_antisymm (of_decide_eq_true hab) (of_decide_eq_true hba))
  · intro a b c hab hbc
    exact decide_eq_true (le_trans (of_decide_eq_true hab) (of_decide_eq_true hbc))
  · intro a b
    simpa using le_total a.2 b.2

end

/-! ## Numbers by first occurrence -/

/-- Every item has an index for its first occurrence. -/
def Representable (w : Width) (items : List I) : Prop := ∀ x n, first items x = some n → n < 256 ^ w.bytes

/-- The items in front of the first failure. -/
def before : List (Res I) → List I
  | .ok x :: rows => x :: before rows
  | _ => []

def failure? : List (Res I) → Option Fault
  | [] => none
  | .ok _ :: rows => failure? rows
  | .error f :: _ => some f

/-- What `Query::into_hash_map` documents: only a first occurrence can overflow the index. -/
structure FirstOccurrences (rows : List (Res I)) (out : Except GetError (HashMap I (Unsigned w))) : Prop where
  complete : failure? rows = none → Representable w (before rows) → ∃ m, out = .ok m ∧ Numbers m (before rows)
  overflow : failure? rows = none → ¬ Representable w (before rows) → out = .error .overflow
  failure : ∀ f, failure? rows = some f → Representable w (before rows) → out = .error (.fault f)

/-- The rows that take an index: the loop asks for one before it looks at the failure that ends it. -/
def taken (rows : List (Res I)) : Nat := (before rows).length + (failure? rows).toList.length

theorem Representable.of_length {items : List I} (h : items.length ≤ 256 ^ w.bytes) : Representable w items :=
  fun _ _ hx => Nat.lt_of_lt_of_le (first_lt hx) h

omit [BEq I] in
/-- Rows end behind their items or with the first failure. -/
theorem before_cases (rows : List (Res I)) : (failure? rows = none ∧ rows = (before rows).map .ok) ∨
    ∃ f rest, failure? rows = some f ∧ rows = (before rows).map .ok ++ .error f :: rest := by
  induction rows with
  | nil => exact Or.inl ⟨rfl, rfl⟩
  | cons row rows ih =>
    cases row with
    | error f => exact Or.inr ⟨f, rows, rfl, rfl⟩
    | ok x =>
      rcases ih with ⟨hnone, hrows⟩ | ⟨f, rest, hsome, hrows⟩
      · exact Or.inl ⟨hnone, congrArg (Except.ok x :: ·) hrows⟩
      · exact Or.inr ⟨f, rest, hsome, congrArg (Except.ok x :: ·) hrows⟩

/-- The run as it is, in the terms of the rows read. -/
theorem intern_cases [EquivBEq I] (rows : List (Res I)) :
    (256 ^ w.bytes < taken rows ∧ intern rows HashMap.empty (Unsigned.ofNat? 0 : Option (Unsigned w)) = .error .overflow) ∨
      taken rows ≤ 256 ^ w.bytes ∧
        ((failure? rows = none ∧ ∃ m, intern rows HashMap.empty (Unsigned.ofNat? 0 : Option (Unsigned w)) = .ok m ∧
            Numbers m (before rows)) ∨
          ∃ f, failure? rows = some f ∧
            intern rows HashMap.empty (Unsigned.ofNat? 0 : Option (Unsigned w)) = .error (.fault f)) := by
  have hempty := Numbers.empty (I := I) (w := w)
  rcases before_cases rows with ⟨hnone, hrows⟩ | ⟨f, rest, hsome, hrows⟩
  · have htaken : taken rows = (before rows).length := by simp [taken, hnone]
    have hspec := intern_spec hempty (before rows) (Nat.zero_le _)
    rw [← hrows, List.length_nil, Nat.zero_add, List.nil_append] at hspec
    rw [htaken]
    rcases hspec with ⟨hle, hrun⟩ | hlt
    · exact Or.inr ⟨hle, Or.inl ⟨hnone, hrun⟩⟩
    · exact Or.inl hlt
  · have htaken : taken rows = (before rows).length + 1 := by simp [taken, hsome]
    rw [htaken]
    by_cases hfits : (before rows).length ≤ 256 ^ w.bytes
    · obtain ⟨m, -, hrun⟩ := intern_append hempty (before rows) (.error f :: rest) (by simpa using hfits)
      rw [← hrows, List.length_nil, List.nil_append] at hrun
      rw [hrun]
      by_cases hlt : (before rows).length < 256 ^ w.bytes
      · rw [Unsigned.ofNat?_of_lt hlt]
        exact Or.inr ⟨hlt, Or.inr ⟨f, hsome, rfl⟩⟩
      · rw [Unsigned.ofNat?_of_not_lt hlt]
        exact Or.inl ⟨by omega, rfl⟩
    · have hover := intern_overflow (m := HashMap.empty) (w := w) (before rows) (.error f :: rest) (Nat.zero_le _) (by omega)
      rw [← hrows] at hover
      exact Or.inl ⟨by omega, hover⟩

/-- Interning is exact up to the capacity of the index, and behind it where a first occurrence overflows as well. -/
theorem intern_firstOccurrences_iff [EquivBEq I] (rows : List (Res I)) :
    FirstOccurrences rows (intern rows HashMap.empty (Unsigned.ofNat? 0 : Option (Unsigned w))) ↔
      taken rows ≤ 256 ^ w.bytes ∨ ¬ Representable w (before rows) := by
  rcases intern_cases (w := w) rows with ⟨hlt, hrun⟩ | ⟨hle, ⟨hnone, m, hrun, hm⟩ | ⟨f, hsome, hrun⟩⟩
  · rw [hrun]
    constructor
    · intro h
      refine Or.inr fun hrep => ?_
      cases hf : failure? rows with
      | none =>
        obtain ⟨m, hm, -⟩ := h.complete hf hrep
        cases hm
      | some f => cases h.failure f hf hrep
    · rintro (hle | hrep)
      · omega
      · exact ⟨fun _ h => absurd h hrep, fun _ _ => rfl, fun _ _ h => absurd h hrep⟩
  · have hrep : Representable w (before rows) := Representable.of_length (by unfold taken at hle; omega)
    exact ⟨fun _ => Or.inl hle, fun _ => ⟨fun _ _ => ⟨m, hrun, hm⟩, fun _ h => absurd hrep h,
      fun g hg => by rw [hnone] at hg; cases hg⟩⟩
  · have hrep : Representable w (before rows) := Representable.of_length (by unfold taken at hle; omega)
    refine ⟨fun _ => Or.inl hle, fun _ => ⟨fun h => ?_, fun h => ?_, fun g hg _ => ?_⟩⟩
    · rw [hsome] at h
      cases h
    · rw [hsome] at h
      cases h
    · rw [hsome] at hg
      cases hg
      exact hrun

theorem intern_firstOccurrences_iff_pair :
    FirstOccurrences [.ok 7, .ok 7] (intern [.ok 7, .ok 7] HashMap.empty (Unsigned.ofNat? 0 : Option (Unsigned .b1))) :=
  (intern_firstOccurrences_iff (I := Nat) (w := .b1) [.ok 7, .ok 7]).mpr (Or.inl (by decide))

omit [BEq I] in
@[simp] theorem before_map_ok (items : List I) : before (items.map .ok) = items := by
  induction items with
  | nil => rfl
  | cons x items ih => exact congrArg (x :: ·) ih

omit [BEq I] in
@[simp] theorem failure?_map_ok (items : List I) : failure? (items.map .ok) = none := by
  induction items with
  | nil => rfl
  | cons x items ih => exact ih

/-- A repeated item behind the last index needs none, but the loop asks for one. -/
theorem not_firstOccurrences_repeat :
    ¬ FirstOccurrences ((List.replicate 257 7).map .ok)
      (intern ((List.replicate 257 7).map .ok) HashMap.empty (Unsigned.ofNat? 0 : Option (Unsigned .b1))) := by
  intro h
  have hlong : 256 ^ Width.b1.bytes < 0 + (List.replicate 257 7).length := by
    rw [List.length_replicate]
    decide
  have hover := intern_overflow (m := HashMap.empty) (w := .b1) (List.replicate 257 7) [] (Nat.zero_le _) hlong
  rw [List.append_nil] at hover
  rw [hover] at h
  have hrep : Representable .b1 (List.replicate 257 7) := by
    intro x n hx
    rw [first, List.findIdx?_replicate] at hx
    split at hx
    · cases hx
      decide
    · cases hx
  obtain ⟨m, hm, -⟩ := h.complete (failure?_map_ok _) (by rwa [before_map_ok])
  cases hm

end
end Msca
