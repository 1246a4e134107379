import Msca.Base.Bytes

/-! Self-delimiting codecs. A codec reads back exactly what it wrote and leaves what follows, so codecs
compose by concatenation. The heads are those of CBOR: a major type and an argument in the shortest
of five widths. -/
set_option autoImplicit false

structure Codec (α : Type) where
  enc : α → Bytes
  dec : Bytes → Option (α × Bytes)
  dec_enc : ∀ a rest, dec (enc a ++ rest) = some (a, rest)

namespace Codec
variable {α β γ : Type}

/-- Values that are written as values of `α`. -/
def iso (c : Codec α) (code : β → α) (of : α → Option β) (h : ∀ b, of (code b) = some b) : Codec β where
  enc b := c.enc (code b)
  dec bs := do
    let (a, rest) ← c.dec bs
    return (← of a, rest)
  dec_enc b rest := by simp [c.dec_enc, h]

/-- Bytes that stand before every value. -/
def after (front : Bytes) (c : Codec α) : Codec α where
  enc a := front ++ c.enc a
  dec bs := if bs.take front.length = front then c.dec (bs.drop front.length) else none
  dec_enc a rest := by
    rw [List.append_assoc, List.take_left' rfl, List.drop_left' rfl, if_pos rfl, c.dec_enc]

def byte : Codec UInt8 where
  enc b := [b]
  dec
    | [] => none
    | b :: bs => some (b, bs)
  dec_enc _ _ := rfl

def unit : Codec Unit where
  enc _ := []
  dec bs := some ((), bs)
  dec_enc _ _ := rfl

/-- A value whose codec depends on the one before it. -/
def dependent {δ : α → Type} (c : Codec α) (d : (a : α) → Codec (δ a)) : Codec ((a : α) × δ a) where
  enc v := c.enc v.1 ++ (d v.1).enc v.2
  dec bs := do
    let (a, rest) ← c.dec bs
    let (b, rest) ← (d a).dec rest
    return (⟨a, b⟩, rest)
  dec_enc v rest := by simp [List.append_assoc, c.dec_enc, (d v.1).dec_enc]

def pair (c : Codec α) (d : Codec β) : Codec (α × β) :=
  (dependent c fun _ => d).iso (fun v => ⟨v.1, v.2⟩) (fun v => some (v.1, v.2)) fun _ => rfl

/-- As many values as announced. -/
def times (c : Codec α) : Nat → Bytes → Option (List α × Bytes)
  | 0, bs => some ([], bs)
  | n + 1, bs => do
    let (a, rest) ← c.dec bs
    let (as, rest) ← times c n rest
    return (a :: as, rest)

theorem times_enc (c : Codec α) (as : List α) (rest : Bytes) :
    c.times as.length (as.flatMap c.enc ++ rest) = some (as, rest) := by
  induction as with
  | nil => rfl
  | cons a as ih => simp [times, List.append_assoc, c.dec_enc, ih]

def list (count : Codec Nat) (c : Codec α) : Codec (List α) where
  enc as := count.enc as.length ++ as.flatMap c.enc
  dec bs := do
    let (n, rest) ← count.dec bs
    c.times n rest
  dec_enc as rest := by simp [List.append_assoc, count.dec_enc, times_enc]

/-- The value or the byte `null`, which no value starts with. -/
def nullable (null : UInt8) (c : Codec α) (h : ∀ a, ∃ b bs, c.enc a = b :: bs ∧ b ≠ null) : Codec (Option α) where
  enc
    | none => [null]
    | some a => c.enc a
  dec
    | [] => none
    | b :: bs =>
      if b = null then some (none, bs)
      else do
        let (a, rest) ← c.dec (b :: bs)
        return (some a, rest)
  dec_enc o rest := by
    cases o with
    | none => simp
    | some a =>
      obtain ⟨b, bs, heq, hne⟩ := h a
      have hdec := c.dec_enc a rest
      dsimp only
      rw [heq] at hdec ⊢
      rw [List.cons_append] at hdec ⊢
      simp [hne, hdec]

/-! ## Heads -/

/-- The argument of a head in big-endian order. -/
def argument (width n : Nat) : Bytes := (Bytes.leBytes width n).reverse

/-- Arguments beyond a word have no CBOR form; they are counted out in unary. -/
def unary : Nat → Bytes
  | 0 => [0]
  | n + 1 => 1 :: unary n

def ununary : Bytes → Option (Nat × Bytes)
  | [] => none
  | b :: bs =>
    if b = 0 then some (0, bs)
    else do
      let (n, rest) ← ununary bs
      return (n + 1, rest)

theorem ununary_unary (n : Nat) (rest : Bytes) : ununary (unary n ++ rest) = some (n, rest) := by
  induction n with
  | zero => rfl
  | succ n ih => simp [unary, ununary, ih]

def readArgument (width : Nat) (bs : Bytes) : Option (Nat × Bytes) :=
  if width ≤ bs.length then some (Bytes.ofLe (bs.take width).reverse, bs.drop width) else none

theorem readArgument_argument (width : Nat) {n : Nat} (h : n < 256 ^ width) (rest : Bytes) :
    readArgument width (argument width n ++ rest) = some (n, rest) := by
  have hlen : (argument width n).length = width := by simp [argument]
  rw [readArgument, if_pos (by rw [List.length_append]; omega), List.take_left' hlen, List.drop_left' hlen,
    argument, List.reverse_reverse, Bytes.ofLe_leBytes_of_lt h]

/-- The low five bits of an initial byte and the argument that follows it. -/
def info (n : Nat) : Nat × Bytes :=
  if n < 24 then (n, [])
  else if n < 256 then (24, argument 1 n)
  else if n < 65536 then (25, argument 2 n)
  else if n < 2 ^ 32 then (26, argument 4 n)
  else if n < 2 ^ 64 then (27, argument 8 n)
  else (28, unary n)

def readInfo (i : Nat) (bs : Bytes) : Option (Nat × Bytes) :=
  if i < 24 then some (i, bs)
  else if i = 24 then readArgument 1 bs
  else if i = 25 then readArgument 2 bs
  else if i = 26 then readArgument 4 bs
  else if i = 27 then readArgument 8 bs
  else if i = 28 then ununary bs
  else none

theorem info_lt (n : Nat) : (info n).1 < 32 := by
  unfold info
  split_ifs <;> simp
  omega

theorem readInfo_info (n : Nat) (rest : Bytes) : readInfo (info n).1 ((info n).2 ++ rest) = some (n, rest) := by
  unfold info
  split_ifs with h0 h1 h2 h3 h4
  · simp [readInfo, h0]
  · exact readArgument_argument 1 h1 rest
  · exact readArgument_argument 2 h2 rest
  · exact readArgument_argument 4 h3 rest
  · exact readArgument_argument 8 h4 rest
  · exact ununary_unary n rest

/-- A head of major type `major`. -/
def head (major : Fin 8) : Codec Nat where
  enc n := UInt8.ofNat (32 * major.val + (info n).1) :: (info n).2
  dec
    | [] => none
    | b :: bs => if b.toNat / 32 = major.val then readInfo (b.toNat % 32) bs else none
  dec_enc n rest := by
    have hinfo := info_lt n
    have hmajor := major.isLt
    have hbyte : (UInt8.ofNat (32 * major.val + (info n).1)).toNat = 32 * major.val + (info n).1 := by
      rw [UInt8.toNat_ofNat']
      omega
    have hdiv : (32 * major.val + (info n).1) / 32 = major.val := by omega
    have hmod : (32 * major.val + (info n).1) % 32 = (info n).1 := by omega
    rw [List.cons_append]
    dsimp only
    rw [hbyte, hdiv, hmod, if_pos rfl, readInfo_info]

theorem head_start (major : Fin 8) (n : Nat) : ∃ b bs, (head major).enc n = b :: bs ∧ b.toNat / 32 = major.val := by
  refine ⟨_, _, rfl, ?_⟩
  have hinfo := info_lt n
  have hmajor := major.isLt
  rw [UInt8.toNat_ofNat']
  omega

end Codec
