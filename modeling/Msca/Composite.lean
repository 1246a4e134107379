import Msca.Image

/-! Record types and their composite accumulators, as `#[derive(Data)]` expands them. A record type is
its fields in name order, a composite holds one compacting buffer for each of them, and pushing a
record pushes one item into every buffer, so the buffers advance in lockstep. -/
namespace Msca
set_option autoImplicit false
open Checked

/-- The named fields of a record type, in the order of the columns. -/
structure Fields where
  columns : OrdMap String Item
  ne : columns.items ≠ []

def Fields.types (fs : Fields) : List Item := fs.columns.values

/-- One `F t` for each item type of the list. -/
inductive Each (F : Item → Type) : List Item → Type
  | nil : Each F []
  | cons {t : Item} {ts : List Item} (head : F t) (tail : Each F ts) : Each F (t :: ts)

namespace Each
variable {F G : Item → Type}

def head {t : Item} {ts : List Item} : Each F (t :: ts) → F t
  | .cons head _ => head

def tail {t : Item} {ts : List Item} : Each F (t :: ts) → Each F ts
  | .cons _ tail => tail

def get : {ts : List Item} → Each F ts → (j : Fin ts.length) → F (ts.get j)
  | _ :: _, .cons head _, ⟨0, _⟩ => head
  | _ :: _, .cons _ tail, ⟨j + 1, h⟩ => tail.get ⟨j, Nat.lt_of_succ_lt_succ h⟩

def pure (f : (t : Item) → F t) : (ts : List Item) → Each F ts
  | [] => .nil
  | t :: ts => .cons (f t) (pure f ts)

end Each

/-- A record. -/
abbrev Row (ts : List Item) := Each Item.Val ts

/-- The generated accumulator. -/
abbrev Composite (ts : List Item) := Each (fun t => Buffer t.Val) ts

namespace Composite

def default (ts : List Item) : Composite ts := Each.pure (fun _ => Buffer.empty) ts

def push : {ts : List Item} → Composite ts → Row ts → Res (Composite ts)
  | _, .nil, .nil => .ok .nil
  | _, .cons b c, .cons i row => do return .cons (← b.push i) (← push c row)

def discard : {ts : List Item} → Composite ts → Composite ts
  | _, .nil => .nil
  | _, .cons b c => .cons b.discard (discard c)

def isEmpty {ts : List Item} : Composite ts → Bool
  | .nil => true
  | .cons b _ => b.isEmpty

def count {ts : List Item} : Composite ts → Nat
  | .nil => 0
  | .cons b _ => b.count

def sumSizes : {ts : List Item} → Composite ts → Nat → Res Nat
  | _, .nil, total => .ok total
  | _, .cons b c, total => do sumSizes c (← addOr total (← Serialize.size (SizedBuf.mk b)).get)

def serializeEach : {ts : List Item} → Composite ts → Bytes → Res (Bytes × Bytes)
  | _, .nil, buf => .ok ([], buf)
  | _, .cons b c, buf => do
    let w ← serializeInto (SizedBuf.mk b) buf
    let ws ← serializeEach c w.2
    return (w.1 ++ ws.1, ws.2)

instance {ts : List Item} : Serialize (Composite ts) where
  size c := do okOr zeroError (NonZero.ofNat? (← c.sumSizes 0))
  serializeInto := serializeEach

end Composite

/-! ## Registration of the buffers -/

/-- The sector and the descriptor of a buffer framed at `offset`. -/
def Buffer.descriptor {I : Type} [Unfold I] (b : Buffer I) (offset : Nat) :
    Res (Sector × Manifest.Buffer) := do
  let start ← addOr offset PREFIX
  let sector ← Sector.new start (← Serialize.size b).get
  let count ← okOr convertError (NonZero.ofNat? b.count)
  return (sector, ← b.describe sector count)

/-- `Describe::buffers for Buffer`, for the column it was given. The descriptor stays inserted when
the next offset cannot be computed. -/
def Buffer.buffers {I : Type} [Unfold I] (b : Buffer I) (offset : Nat) (column : Column) :
    Res Nat × Column :=
  match b.descriptor offset with
  | .error e => (.error e, column)
  | .ok (sector, desc) =>
    (do align (← okOr zeroError sector.next), column.insert desc)

/-- `Describe::buffers` of a composite over the columns left to the walk. -/
def Composite.buffers : {ts : List Item} → Composite ts → Nat → List Column → Res Nat × List Column
  | _, .nil, offset, columns => (.ok offset, columns)
  | _, .cons _ _, _, [] => (.error (.error (.schema .notFound)), [])
  | _, .cons b c, offset, column :: columns =>
    match b.buffers offset column with
    | (.error e, column) => (.error e, column :: columns)
    | (.ok next, column) =>
      let rest := Composite.buffers c next columns
      (rest.1, column :: rest.2)

/-! ## Laws of the buffers -/

section Buffer
variable {I : Type} [Unfold I]

instance bufferLawful [LawfulUnfold I] : LawfulSerialize (Buffer I) where
  enc
    | .empty => []
    | .compact item _ => image [item]
    | .many acc => enc acc
  size_eq := by
    intro b n h
    cases b with
    | empty => cases h
    | compact item count => exact LawfulSerialize.size_eq (α := RawAcc I) h
    | many acc => exact LawfulSerialize.size_eq (α := RawAcc I) h
  into_eq := by
    intro b n buf h hle
    cases b with
    | empty => cases h
    | compact item count => exact LawfulSerialize.into_eq (α := RawAcc I) buf h hle
    | many acc => exact LawfulSerialize.into_eq (α := RawAcc I) buf h hle

variable [BitMatch I]

/-- The buffer that holds `xs`: a single item for as long as all of them match it. -/
def Buffer.collect : List I → Buffer I
  | [] => .empty
  | x :: xs => if xs.all fun y => BitMatch.eq y x then .compact x (xs.length + 1) else .many (Msca.collect (x :: xs))

section
variable [LawfulBitMatch I]

theorem Buffer.collect_same {x : I} {xs : List I} (h : ∀ y ∈ xs, y = x) :
    Buffer.collect (x :: xs) = .compact x (xs.length + 1) := by
  refine if_pos (List.all_eq_true.mpr fun y hy => ?_)
  exact (LawfulBitMatch.eq_iff y x).mpr (h y hy)

theorem Buffer.collect_differ {x y : I} {xs : List I} (hy : y ∈ xs) (h : y ≠ x) :
    Buffer.collect (x :: xs) = .many (Msca.collect (x :: xs)) := by
  refine if_neg fun hall => h ?_
  exact (LawfulBitMatch.eq_iff y x).mp (List.all_eq_true.mp hall y hy)

theorem Buffer.collect_cases (xs : List I) :
    xs = [] ∧ Buffer.collect xs = .empty ∨
      (∃ item ∈ xs, (∀ x ∈ xs, x = item) ∧ Buffer.collect xs = .compact item xs.length) ∨
        (∃ item ∈ xs, ∃ x ∈ xs, x ≠ item) ∧ Buffer.collect xs = .many (Msca.collect xs) := by
  cases xs with
  | nil => exact Or.inl ⟨rfl, rfl⟩
  | cons item xs =>
    by_cases hall : ∀ x ∈ xs, x = item
    · exact Or.inr (Or.inl ⟨item, List.mem_cons_self, by simpa using hall, Buffer.collect_same hall⟩)
    · obtain ⟨x, hx, hne⟩ : ∃ x ∈ xs, x ≠ item := by simpa using hall
      exact Or.inr (Or.inr ⟨⟨item, List.mem_cons_self, x, List.mem_cons_of_mem _ hx, hne⟩, Buffer.collect_differ hx hne⟩)

/-- A push adds one item to those held, unless the count of a single item leaves the word. -/
theorem Buffer.push_collect (xs : List I) (new : I) :
    (Buffer.collect xs).push new = .ok (Buffer.collect (xs ++ [new])) ∨
      2 ^ 64 ≤ xs.length + 1 ∧ (Buffer.collect xs).push new = .error .panic := by
  cases xs with
  | nil => exact Or.inl rfl
  | cons x xs =>
    rw [List.cons_append]
    by_cases hall : ∀ y ∈ xs, y = x
    · rw [Buffer.collect_same hall]
      by_cases hnew : new = x
      · have hmore : ∀ y ∈ xs ++ [new], y = x := by simpa [or_imp, forall_and] using ⟨hall, hnew⟩
        rw [Buffer.push, if_pos ((LawfulBitMatch.eq_iff new x).mpr hnew), Buffer.collect_same hmore, List.length_append]
        by_cases hlt : xs.length + 1 + 1 < 2 ^ 64
        · rw [plus_of_lt hlt]
          exact Or.inl rfl
        · rw [plus_of_le (Nat.le_of_not_lt hlt)]
          exact Or.inr ⟨Nat.le_of_not_lt hlt, rfl⟩
      · have hrep : List.replicate (xs.length + 1) x = x :: xs :=
          (List.eq_replicate_of_mem (by simpa using hall : ∀ y ∈ x :: xs, y = x)).symm
        rw [Buffer.push, if_neg (fun heq => hnew ((LawfulBitMatch.eq_iff new x).mp heq)), Buffer.upgrade, hrep,
          Buffer.collect_differ (List.mem_append_right _ (List.mem_singleton_self _)) hnew]
        exact Or.inl rfl
    · obtain ⟨y, hy, hne⟩ : ∃ y ∈ xs, y ≠ x := by simpa using hall
      rw [Buffer.collect_differ hy hne, Buffer.collect_differ (List.mem_append_left _ hy) hne, Buffer.push, Msca.collect,
        Msca.collect, ← List.cons_append, List.foldl_append]
      exact Or.inl rfl

theorem Buffer.push_of_lt {xs : List I} (new : I) (h : xs.length + 1 < 2 ^ 64) :
    (Buffer.collect xs).push new = .ok (Buffer.collect (xs ++ [new])) := by
  rcases Buffer.push_collect xs new with hpush | ⟨hle, -⟩
  · exact hpush
  · omega

theorem Buffer.push_eq_ok {xs : List I} {new : I} {b : Buffer I} (h : (Buffer.collect xs).push new = .ok b) :
    b = Buffer.collect (xs ++ [new]) := by
  rcases Buffer.push_collect xs new with hpush | ⟨-, hpush⟩
  · exact Except.ok.inj (h.symm.trans hpush)
  · rw [hpush] at h
    cases h

end

theorem Buffer.count_collect [LawfulUnfold I] [LawfulBitMatch I] (xs : List I) : (Buffer.collect xs).count = xs.length := by
  rcases Buffer.collect_cases xs with ⟨rfl, heq⟩ | ⟨item, -, -, heq⟩ | ⟨-, heq⟩
  · rw [heq]
    rfl
  · rw [heq]
    rfl
  · rw [heq]
    exact LawfulAcc.count_collect xs

theorem Buffer.isEmpty_collect [LawfulUnfold I] [LawfulBitMatch I] (xs : List I) :
    (Buffer.collect xs).isEmpty = xs.isEmpty := by
  rcases Buffer.collect_cases xs with ⟨rfl, heq⟩ | ⟨item, hmem, -, heq⟩ | ⟨-, heq⟩
  · rw [heq]
    rfl
  · rw [heq]
    cases xs with
    | nil => cases hmem
    | cons x xs => rfl
  · rw [heq]
    exact LawfulAcc.isEmpty_collect xs

end Buffer

/-! ## Laws of the composite -/

namespace Composite

/-- The framed columns one after another. -/
def image : {ts : List Item} → Composite ts → Bytes
  | _, .nil => []
  | _, .cons b c => frame (enc b) ++ image c

theorem sumSizes_cons {t : Item} {ts : List Item} {b : Buffer t.Val} {c : Composite ts} {total n : Nat}
    (h : sumSizes (.cons b c) total = .ok n) :
    ∃ k : NonZero, Serialize.size (SizedBuf.mk b) = .ok k ∧ k.get = (frame (enc b)).length ∧
      sumSizes c (total + k.get) = .ok n := by
  obtain ⟨k, hk, h⟩ := bind_eq_ok.mp h
  obtain ⟨m, hm, h⟩ := bind_eq_ok.mp h
  obtain ⟨-, rfl⟩ := addOr_eq_ok.mp hm
  exact ⟨k, hk, LawfulSerialize.size_eq hk, h⟩

theorem sumSizes_eq_ok {ts : List Item} {c : Composite ts} {total n : Nat} (h : c.sumSizes total = .ok n) :
    n = total + (image c).length := by
  induction c generalizing total with
  | nil =>
    cases h
    simp [image]
  | cons b c ih =>
    obtain ⟨k, -, hsize, h⟩ := sumSizes_cons h
    rw [ih h, image, List.length_append]
    omega

theorem serializeEach_eq {ts : List Item} {c : Composite ts} {total n : Nat} (h : c.sumSizes total = .ok n)
    (buf : Bytes) (hle : (image c).length ≤ buf.length) :
    c.serializeEach buf = .ok (image c, buf.drop (image c).length) := by
  induction c generalizing total buf with
  | nil => rfl
  | cons b c ih =>
    obtain ⟨k, hk, hsize, h⟩ := sumSizes_cons h
    rw [image, List.length_append] at hle
    have hhead := LawfulSerialize.into_eq buf hk (by omega)
    have htail := ih h (buf.drop k.get) (by rw [List.length_drop]; omega)
    rw [serializeEach, hhead, ok_bind, htail, ok_bind, image, List.length_append, List.drop_drop, hsize]
    rfl

instance {ts : List Item} : LawfulSerialize (Composite ts) where
  enc := image
  size_eq := by
    intro c n h
    obtain ⟨total, ht, h⟩ := bind_eq_ok.mp h
    have hn := NonZero.ofNat?_eq_some.mp (okOr_eq_ok.mp h)
    have htotal := sumSizes_eq_ok ht
    omega
  into_eq := by
    intro c n buf h hle
    obtain ⟨total, ht, h⟩ := bind_eq_ok.mp h
    have hn := NonZero.ofNat?_eq_some.mp (okOr_eq_ok.mp h)
    have htotal := sumSizes_eq_ok ht
    have hlen : n.get = (image c).length := by omega
    rw [hlen] at hle ⊢
    exact serializeEach_eq ht buf hle

/-- The composite that holds the records `rows`. -/
def collect : {ts : List Item} → List (Row ts) → Composite ts
  | [], _ => .nil
  | _ :: _, rows => .cons (Buffer.collect (rows.map Each.head)) (collect (rows.map Each.tail))

theorem collect_nil (ts : List Item) : collect ([] : List (Row ts)) = default ts := by
  induction ts with
  | nil => rfl
  | cons t ts ih =>
    rw [collect, List.map_nil, List.map_nil, ih]
    rfl

theorem get_collect {ts : List Item} (rows : List (Row ts)) (j : Fin ts.length) :
    (collect rows).get j = Buffer.collect (rows.map fun row => row.get j) := by
  induction ts with
  | nil => exact j.elim0
  | cons t ts ih =>
    obtain ⟨j, hj⟩ := j
    cases j with
    | zero =>
      rw [collect, Each.get]
      congr 2
      funext row
      cases row
      rfl
    | succ j =>
      rw [collect, Each.get, ih, List.map_map]
      congr 2
      funext row
      cases row
      rfl

theorem push_of_lt {ts : List Item} {rows : List (Row ts)} (row : Row ts) (h : rows.length + 1 < 2 ^ 64) :
    push (collect rows) row = .ok (collect (rows ++ [row])) := by
  induction ts with
  | nil =>
    cases row
    rfl
  | cons t ts ih =>
    cases row with
    | cons i row =>
      rw [collect, push, Buffer.push_of_lt i (by simpa using h), ok_bind, ih row (by simpa using h), ok_bind, collect,
        List.map_append, List.map_append]
      rfl

theorem push_eq_ok {ts : List Item} {rows : List (Row ts)} {row : Row ts} {c : Composite ts}
    (h : push (collect rows) row = .ok c) : c = collect (rows ++ [row]) := by
  induction ts with
  | nil =>
    cases row
    exact (Except.ok.inj h).symm
  | cons t ts ih =>
    cases row with
    | cons i row =>
      rw [collect, push] at h
      obtain ⟨b, hb, h⟩ := bind_eq_ok.mp h
      obtain ⟨rest, hrest, h⟩ := bind_eq_ok.mp h
      cases h
      rw [Buffer.push_eq_ok hb, ih hrest, collect, List.map_append, List.map_append]
      rfl

end Composite
end Msca
