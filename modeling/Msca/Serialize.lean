import Msca.Prim

/-! Serialisation into a byte buffer. `serializeInto` takes the writable slice and returns the bytes
that replace its front together with the rest of the slice; a slice that is too short is an index
panic, as in the source. `LawfulSerialize` is what every implementation owes its callers: the bytes
written are a fixed image of the value and their number is the size announced beforehand. -/
namespace Msca
set_option autoImplicit false
open Checked

class Serialize (α : Type) where
  size : α → Res NonZero
  serializeInto : α → Bytes → Res (Bytes × Bytes)

export Serialize (serializeInto)

/-- `buf[..n]` and `buf[n..]`, with `n` bytes of `w` copied over the former. -/
def copyFront (w buf : Bytes) : Res (Bytes × Bytes) :=
  if w.length ≤ buf.length then .ok (w, buf.drop w.length) else .error .panic

instance fixedSerialize {α : Type} [Fixed α] : Serialize α where
  size _ := .ok ⟨Fixed.width α, Fixed.width_pos, Fixed.width_lt⟩
  serializeInto a buf := copyFront (Fixed.toLe a) buf

section Vec
variable {α : Type} [Serialize α]

def sumSizes (l : List α) : Res Nat :=
  l.foldlM (fun total a => do addOr total (← Serialize.size a).get) 0

def serializeEach : List α → Bytes → Res (Bytes × Bytes)
  | [], buf => .ok ([], buf)
  | a :: l, buf => do
    let w ← serializeInto a buf
    let ws ← serializeEach l w.2
    return (w.1 ++ ws.1, ws.2)

instance vecSerialize : Serialize (List α) where
  size l := do okOr zeroError (NonZero.ofNat? (← sumSizes l))
  serializeInto := serializeEach

end Vec

/-- The bits of a `BitVec`. -/
abbrev Bits := List Bool

instance bitsSerialize : Serialize Bits where
  size bits := okOr zeroError (NonZero.ofNat? (Bytes.packBits bits).length)
  serializeInto bits := serializeEach (Bytes.packBits bits)

/-- A region written behind its size and filled with zeros to a 64-bit boundary. -/
structure SizedBuf (α : Type) where
  inner : α

/-- `SizedBuf::PREFIX`. -/
def PREFIX : Nat := 8

instance sizedBufSerialize {α : Type} [Serialize α] : Serialize (SizedBuf α) where
  size s := do
    let aligned ← align (← Serialize.size s.inner).get
    okOr zeroError ((Checked.add aligned PREFIX).bind NonZero.ofNat?)
  serializeInto s buf := do
    let size ← Serialize.size s.inner
    let fill ← pad size.get
    let front ← serializeInto size.toU64 buf
    let body ← serializeInto s.inner front.2
    let zeros ← copyFront (Bytes.zeros fill) body.2
    return (front.1 ++ body.1 ++ zeros.1, zeros.2)

/-- `Serialize::serialize` of the unsized types. -/
def serialize {α : Type} [Serialize α] (a : α) : Res Bytes := do
  let size ← Serialize.size a
  let w ← serializeInto a (Bytes.zeros size.get)
  return w.1 ++ w.2

/-! ## Laws -/

class LawfulSerialize (α : Type) [Serialize α] where
  enc : α → Bytes
  size_eq : ∀ {a : α} {n : NonZero}, Serialize.size a = .ok n → n.get = (enc a).length
  into_eq : ∀ {a : α} {n : NonZero} (buf : Bytes), Serialize.size a = .ok n → n.get ≤ buf.length →
    serializeInto a buf = .ok (enc a, buf.drop n.get)

export LawfulSerialize (enc)

theorem copyFront_of_le {w buf : Bytes} (h : w.length ≤ buf.length) :
    copyFront w buf = .ok (w, buf.drop w.length) := if_pos h

instance fixedLawful {α : Type} [Fixed α] : LawfulSerialize α where
  enc := Fixed.toLe
  size_eq := by
    intro a n h
    cases h
    exact (Fixed.toLe_length a).symm
  into_eq := by
    intro a n buf h hle
    cases h
    have hlen := Fixed.toLe_length a
    have hfit : (Fixed.toLe a).length ≤ buf.length := by
      rw [hlen]
      exact hle
    change copyFront (Fixed.toLe a) buf = _
    rw [copyFront_of_le hfit, hlen]

section Vec
variable {α : Type} [Serialize α] [LawfulSerialize α]

/-- The image of a vector: the images of its elements in order. -/
def encAll (l : List α) : Bytes := l.flatMap enc

@[simp] theorem encAll_nil : encAll ([] : List α) = [] := rfl

@[simp] theorem encAll_cons (a : α) (l : List α) : encAll (a :: l) = enc a ++ encAll l := rfl

theorem foldlM_sizes {l : List α} {total n : Nat}
    (h : l.foldlM (fun total a => do addOr total (← Serialize.size a).get) total = (.ok n : Res Nat)) :
    n = total + (encAll l).length ∧ ∀ a ∈ l, ∃ k, Serialize.size a = .ok k := by
  induction l generalizing total with
  | nil =>
    cases h
    simp
  | cons a l ih =>
    rw [List.foldlM_cons] at h
    obtain ⟨m, hm, h⟩ := bind_eq_ok.mp h
    obtain ⟨k, hk, hm⟩ := bind_eq_ok.mp hm
    obtain ⟨-, rfl⟩ := addOr_eq_ok.mp hm
    obtain ⟨hn, hall⟩ := ih h
    have hsize := LawfulSerialize.size_eq hk
    refine ⟨?_, ?_⟩
    · rw [encAll_cons, List.length_append]
      omega
    · intro b hb
      rcases List.mem_cons.mp hb with rfl | hb
      · exact ⟨k, hk⟩
      · exact hall b hb

theorem serializeEach_eq {l : List α} (buf : Bytes) (hall : ∀ a ∈ l, ∃ k, Serialize.size a = .ok k)
    (hle : (encAll l).length ≤ buf.length) :
    serializeEach l buf = .ok (encAll l, buf.drop (encAll l).length) := by
  induction l generalizing buf with
  | nil => rfl
  | cons a l ih =>
    obtain ⟨k, hk⟩ := hall a List.mem_cons_self
    have hsize := LawfulSerialize.size_eq hk
    rw [encAll_cons, List.length_append] at hle
    have hhead := LawfulSerialize.into_eq buf hk (by omega)
    have htail := ih (buf.drop k.get) (fun b hb => hall b (List.mem_cons_of_mem _ hb))
      (by rw [List.length_drop]; omega)
    rw [serializeEach, hhead, ok_bind, htail, ok_bind, encAll_cons, List.length_append,
      List.drop_drop, hsize]
    rfl

theorem vecSize_eq_ok {l : List α} {n : NonZero} (h : Serialize.size l = .ok n) :
    n.get = (encAll l).length ∧ ∀ a ∈ l, ∃ k, Serialize.size a = .ok k := by
  obtain ⟨total, ht, h⟩ := bind_eq_ok.mp h
  obtain ⟨hn, hall⟩ := foldlM_sizes ht
  have hget := NonZero.ofNat?_eq_some.mp (okOr_eq_ok.mp h)
  exact ⟨by omega, hall⟩

instance vecLawful : LawfulSerialize (List α) where
  enc := encAll
  size_eq h := (vecSize_eq_ok h).1
  into_eq := by
    intro l n buf h hle
    obtain ⟨hn, hall⟩ := vecSize_eq_ok h
    rw [hn] at hle ⊢
    exact serializeEach_eq buf hall hle

end Vec

theorem encAll_bytes (bs : Bytes) : encAll bs = bs := by
  induction bs with
  | nil => rfl
  | cons b bs ih => rw [encAll_cons, ih]; rfl

theorem encAll_length {α : Type} [Fixed α] (xs : List α) : (encAll xs).length = xs.length * Fixed.width α := by
  induction xs with
  | nil => simp [encAll]
  | cons x xs ih =>
    have hx : (enc x).length = Fixed.width α := Fixed.toLe_length x
    rw [encAll_cons, List.length_append, ih, hx, List.length_cons, Nat.succ_mul, Nat.add_comm]

theorem length_le_encAll {α : Type} [Fixed α] (xs : List α) : xs.length ≤ (encAll xs).length := by
  rw [encAll_length]
  exact Nat.le_mul_of_pos_right _ Fixed.width_pos

instance bitsLawful : LawfulSerialize Bits where
  enc := Bytes.packBits
  size_eq h := NonZero.ofNat?_eq_some.mp (okOr_eq_ok.mp h)
  into_eq := by
    intro bits n buf h hle
    have hn : n.get = _ := NonZero.ofNat?_eq_some.mp (okOr_eq_ok.mp h)
    have hbytes := serializeEach_eq (l := Bytes.packBits bits) buf (fun b _ => ⟨_, rfl⟩)
      (by rw [encAll_bytes]; omega)
    rw [encAll_bytes, ← hn] at hbytes
    exact hbytes

section SizedBuf
variable {α : Type} [Serialize α] [LawfulSerialize α]

/-- The image of a region: its size, its body and the fill to the next boundary. -/
def frame (body : Bytes) : Bytes :=
  Bytes.leBytes 8 body.length ++ body ++ Bytes.zeros (roundUp body.length - body.length)

theorem frame_length (body : Bytes) : (frame body).length = 8 + roundUp body.length := by
  have h := le_roundUp body.length
  simp only [frame, List.length_append, Bytes.leBytes_length, Bytes.zeros_length]
  omega

omit [LawfulSerialize α] in
theorem sizedBuf_size_eq_ok {s : SizedBuf α} {n : NonZero} (h : Serialize.size s = .ok n) :
    ∃ k : NonZero, Serialize.size s.inner = .ok k ∧ n.get = roundUp k.get + 8 := by
  obtain ⟨k, hk, h⟩ := bind_eq_ok.mp h
  obtain ⟨m, hm, h⟩ := bind_eq_ok.mp h
  obtain ⟨-, rfl⟩ := align_eq_ok.mp hm
  obtain ⟨t, ht, hn⟩ := Option.bind_eq_some_iff.mp (okOr_eq_ok.mp h)
  obtain ⟨-, rfl⟩ := add_eq_some.mp ht
  exact ⟨k, hk, NonZero.ofNat?_eq_some.mp hn⟩

omit [LawfulSerialize α] in
theorem sizedBuf_size_of_lt {s : SizedBuf α} {k : NonZero} (hk : Serialize.size s.inner = .ok k)
    (hlt : roundUp k.get + 8 < 2 ^ 64) :
    Serialize.size s = .ok ⟨roundUp k.get + 8, by omega, hlt⟩ := by
  change (do
    let aligned ← align (← Serialize.size s.inner).get
    okOr zeroError ((Checked.add aligned PREFIX).bind NonZero.ofNat?)) = _
  rw [hk, ok_bind, align_of_lt (by omega), ok_bind, PREFIX, add_of_lt hlt, Option.bind_some,
    NonZero.ofNat?_of_lt (by omega) hlt, okOr_some]

instance sizedBufLawful : LawfulSerialize (SizedBuf α) where
  enc s := frame (enc s.inner)
  size_eq := by
    intro s n h
    obtain ⟨k, hk, hn⟩ := sizedBuf_size_eq_ok h
    rw [frame_length, ← LawfulSerialize.size_eq hk]
    omega
  into_eq := by
    intro s n buf h hle
    obtain ⟨k, hk, hn⟩ := sizedBuf_size_eq_ok h
    have hsize := LawfulSerialize.size_eq hk
    have hup := le_roundUp k.get
    have hlt := n.lt
    have hprefix : serializeInto k.toU64 buf = .ok (Bytes.leBytes 8 k.get, buf.drop 8) := by
      have hlen : (Bytes.leBytes 8 k.get).length ≤ buf.length := by
        rw [Bytes.leBytes_length]
        omega
      have hcopy := copyFront_of_le hlen
      rwa [Bytes.leBytes_length] at hcopy
    have hbody := LawfulSerialize.into_eq (buf.drop 8) hk (by rw [List.length_drop]; omega)
    have hfill : copyFront (Bytes.zeros (roundUp k.get - k.get)) ((buf.drop 8).drop k.get) =
        .ok (Bytes.zeros (roundUp k.get - k.get), buf.drop n.get) := by
      rw [copyFront_of_le (by simp; omega), List.drop_drop, List.drop_drop, Bytes.zeros_length]
      congr 3
      omega
    change (do
      let size ← Serialize.size s.inner
      let fill ← pad size.get
      let front ← serializeInto size.toU64 buf
      let body ← serializeInto s.inner front.2
      let zeros ← copyFront (Bytes.zeros fill) body.2
      return (front.1 ++ body.1 ++ zeros.1, zeros.2)) = _
    rw [hk, ok_bind, pad_of_lt (by omega), ok_bind, hprefix, ok_bind, hbody, ok_bind, hfill, ok_bind,
      frame, ← hsize]
    rfl

end SizedBuf

theorem serialize_eq {α : Type} [Serialize α] [LawfulSerialize α] {a : α} {n : NonZero}
    (h : Serialize.size a = .ok n) : serialize a = .ok (enc a) := by
  have hn := LawfulSerialize.size_eq h
  have hinto := LawfulSerialize.into_eq (Bytes.zeros n.get) h (by simp)
  rw [serialize, h, ok_bind, hinto, ok_bind, List.drop_eq_nil_of_le (by simp), List.append_nil]
  rfl

end Msca
