import Mathlib

/-! Byte strings: little-endian words, bit vectors packed least significant bit first, contiguous
slices and positional overwrites. Everything here is about lists of bytes only. -/
set_option autoImplicit false

/-- A byte string. -/
abbrev Bytes := List UInt8

namespace Bytes

/-- A run of zero bytes. -/
def zeros (n : Nat) : Bytes := List.replicate n 0

@[simp] theorem zeros_length (n : Nat) : (zeros n).length = n := List.length_replicate

/-! ## Little-endian words -/

/-- The `w` low bytes of `n`, least significant first. -/
def leBytes : Nat → Nat → Bytes
  | 0, _ => []
  | w + 1, n => UInt8.ofNat n :: leBytes w (n / 256)

/-- The number a little-endian byte string denotes. -/
def ofLe : Bytes → Nat
  | [] => 0
  | b :: bs => b.toNat + 256 * ofLe bs

@[simp] theorem leBytes_length (w n : Nat) : (leBytes w n).length = w := by
  induction w generalizing n with
  | zero => rfl
  | succ w ih => simp [leBytes, ih]

theorem ofLe_leBytes (w n : Nat) : ofLe (leBytes w n) = n % 256 ^ w := by
  induction w generalizing n with
  | zero => simp [leBytes, ofLe, Nat.mod_one]
  | succ w ih =>
    have hb : (UInt8.ofNat n).toNat = n % 256 := by simp
    rw [leBytes, ofLe, ih, hb, Nat.pow_succ', Nat.mod_mul]

theorem ofLe_leBytes_of_lt {w n : Nat} (h : n < 256 ^ w) : ofLe (leBytes w n) = n := by
  rw [ofLe_leBytes, Nat.mod_eq_of_lt h]

theorem ofLe_lt (bs : Bytes) : ofLe bs < 256 ^ bs.length := by
  induction bs with
  | nil => simp [ofLe]
  | cons b bs ih =>
    have hb := b.toNat_lt
    rw [ofLe, List.length_cons, Nat.pow_succ']
    omega

theorem leBytes_ofLe (bs : Bytes) : leBytes bs.length (ofLe bs) = bs := by
  induction bs with
  | nil => rfl
  | cons b bs ih =>
    have hb := b.toNat_lt
    have hlow : UInt8.ofNat (b.toNat + 256 * ofLe bs) = b := by
      apply UInt8.toNat_inj.mp
      simp only [UInt8.toNat_ofNat']
      omega
    have hhigh : (b.toNat + 256 * ofLe bs) / 256 = ofLe bs := by omega
    rw [ofLe, List.length_cons, leBytes, hlow, hhigh, ih]

theorem leBytes_inj {w m n : Nat} (hm : m < 256 ^ w) (hn : n < 256 ^ w)
    (h : leBytes w m = leBytes w n) : m = n := by
  rw [← ofLe_leBytes_of_lt hm, h, ofLe_leBytes_of_lt hn]

/-! ## Packed bits -/

/-- The byte whose bits, least significant first, are the first eight of `bits`. -/
def loadLe : List Bool → Nat
  | [] => 0
  | b :: bs => b.toNat + 2 * loadLe bs

/-- Bits packed eight to a byte, the last byte filled with zeros. -/
def packBits (bits : List Bool) : Bytes :=
  (List.range ((bits.length + 7) / 8)).map fun i => UInt8.ofNat (loadLe ((bits.drop (8 * i)).take 8))

/-- The eight bits of a byte, least significant first. -/
def byteBits (b : UInt8) : List Bool := (List.range 8).map b.toNat.testBit

/-- The bits of a byte string in storage order. -/
def viewBits (bs : Bytes) : List Bool := bs.flatMap byteBits

@[simp] theorem packBits_length (bits : List Bool) :
    (packBits bits).length = (bits.length + 7) / 8 := by
  simp [packBits]

@[simp] theorem viewBits_length (bs : Bytes) : (viewBits bs).length = 8 * bs.length := by
  induction bs with
  | nil => rfl
  | cons b bs ih =>
    simp only [viewBits, List.flatMap_cons, List.length_append, List.length_cons] at ih ⊢
    have hb : (byteBits b).length = 8 := by simp [byteBits]
    omega

theorem loadLe_testBit (bits : List Bool) (i : Nat) :
    (loadLe bits).testBit i = bits.getD i false := by
  induction bits generalizing i with
  | nil => simp [loadLe]
  | cons b bs ih =>
    cases i with
    | zero => cases b <;> simp [loadLe, Nat.testBit_zero]
    | succ i =>
      have hs : (b.toNat + 2 * loadLe bs) / 2 = loadLe bs := by
        have hb : b.toNat ≤ 1 := Bool.toNat_le b
        omega
      rw [loadLe, Nat.testBit_succ, hs, ih]
      simp

theorem loadLe_lt (bits : List Bool) : loadLe bits < 2 ^ bits.length := by
  induction bits with
  | nil => simp [loadLe]
  | cons b bs ih =>
    have hb : b.toNat ≤ 1 := Bool.toNat_le b
    rw [loadLe, List.length_cons, Nat.pow_succ]
    omega

theorem byteBits_getElem? (b : UInt8) (i : Nat) (h : i < 8) :
    (byteBits b)[i]? = some (b.toNat.testBit i) := by
  simp [byteBits, h]

theorem viewBits_getElem? (bs : Bytes) (i : Nat) :
    (viewBits bs)[i]? = bs[i / 8]?.map fun b => b.toNat.testBit (i % 8) := by
  induction bs generalizing i with
  | nil => simp [viewBits]
  | cons b bs ih =>
    have hlen : (byteBits b).length = 8 := by simp [byteBits]
    change (byteBits b ++ viewBits bs)[i]? = _
    by_cases hi : i < 8
    · rw [List.getElem?_append_left (by omega), byteBits_getElem? b i hi,
        Nat.div_eq_of_lt hi, Nat.mod_eq_of_lt hi]
      rfl
    · have hdiv : i / 8 = (i - 8) / 8 + 1 := by omega
      have hmod : i % 8 = (i - 8) % 8 := by omega
      rw [List.getElem?_append_right (by omega), hlen, ih, hdiv, hmod, List.getElem?_cons_succ]

theorem packBits_getElem? (bits : List Bool) (k : Nat) (h : 8 * k < bits.length) :
    (packBits bits)[k]? = some (UInt8.ofNat (loadLe ((bits.drop (8 * k)).take 8))) := by
  have hk : k < (bits.length + 7) / 8 := by omega
  simp [packBits, hk]

theorem viewBits_packBits_getElem? (bits : List Bool) (i : Nat) (h : i < bits.length) :
    (viewBits (packBits bits))[i]? = bits[i]? := by
  have hmod : i % 8 < 8 := Nat.mod_lt i (by decide)
  have hchunk : loadLe ((bits.drop (8 * (i / 8))).take 8) < 256 := by
    refine Nat.lt_of_lt_of_le (loadLe_lt _) ?_
    exact Nat.pow_le_pow_right (by decide) (List.length_take_le _ _)
  have hbyte : (UInt8.ofNat (loadLe ((bits.drop (8 * (i / 8))).take 8))).toNat =
      loadLe ((bits.drop (8 * (i / 8))).take 8) := by
    simpa using hchunk
  have hpos : 8 * (i / 8) + i % 8 = i := Nat.div_add_mod i 8
  rw [viewBits_getElem?, packBits_getElem? bits (i / 8) (by omega), Option.map_some, hbyte,
    loadLe_testBit, List.getD_eq_getElem?_getD, List.getElem?_take_of_lt hmod, List.getElem?_drop,
    hpos, List.getElem?_eq_getElem h]
  rfl

/-- Reading back as many packed bits as were stored gives the vector. -/
theorem viewBits_packBits_take (bits : List Bool) :
    (viewBits (packBits bits)).take bits.length = bits := by
  apply List.ext_getElem?
  intro i
  by_cases h : i < bits.length
  · rw [List.getElem?_take_of_lt h, viewBits_packBits_getElem? bits i h]
  · rw [List.getElem?_eq_none (by simp; omega), List.getElem?_eq_none (by omega)]

/-! ## Slices and overwrites -/

/-- The `len` bytes from position `off`. -/
def slice (bs : Bytes) (off len : Nat) : Bytes := (bs.drop off).take len

/-- `bs` with `data` written from position `pos`; a gap before `pos` reads as zeros. -/
def overlay (bs : Bytes) (pos : Nat) (data : Bytes) : Bytes :=
  bs.take pos ++ zeros (pos - bs.length) ++ data ++ bs.drop (pos + data.length)

theorem slice_append (a b c : Bytes) : slice (a ++ b ++ c) a.length b.length = b := by
  simp [slice, List.append_assoc]

theorem slice_length {bs : Bytes} {off len : Nat} (h : off + len ≤ bs.length) :
    (slice bs off len).length = len := by
  simp only [slice, List.length_take, List.length_drop]
  omega

theorem slice_add (bs : Bytes) (off m n : Nat) : slice bs off (m + n) = slice bs off m ++ slice bs (off + m) n := by
  rw [slice, slice, slice, List.take_add, List.drop_drop]

theorem slice_slice {bs : Bytes} {off len i n : Nat} (h : i + n ≤ len) :
    slice (slice bs off len) i n = slice bs (off + i) n := by
  simp only [slice, List.drop_take, List.drop_drop, List.take_take]
  congr 1
  omega

theorem slice_append_left {a b : Bytes} {off len : Nat} (h : off + len ≤ a.length) :
    slice (a ++ b) off len = slice a off len := by
  simp only [slice]
  rw [List.drop_append_of_le_length (by omega), List.take_append_of_le_length (by simp; omega)]

theorem slice_append_right {a b : Bytes} {off len : Nat} (h : a.length ≤ off) :
    slice (a ++ b) off len = slice b (off - a.length) len := by
  simp only [slice]
  rw [List.drop_append, List.drop_eq_nil_of_le h, List.nil_append]

@[simp] theorem overlay_nil {bs : Bytes} {pos : Nat} (h : pos ≤ bs.length) : overlay bs pos [] = bs := by
  simp [overlay, Nat.sub_eq_zero_of_le h, zeros]

theorem overlay_of_le {bs : Bytes} {pos : Nat} (h : pos ≤ bs.length) (data : Bytes) :
    overlay bs pos data = bs.take pos ++ data ++ bs.drop (pos + data.length) := by
  simp [overlay, Nat.sub_eq_zero_of_le h, zeros]

theorem overlay_length {bs : Bytes} {pos : Nat} (data : Bytes) :
    (overlay bs pos data).length = max bs.length (pos + data.length) := by
  simp only [overlay, List.length_append, List.length_take, List.length_drop, zeros_length]
  omega

theorem slice_overlay_before {bs data : Bytes} {pos off len : Nat} (hp : pos ≤ bs.length)
    (h : off + len ≤ pos) : slice (overlay bs pos data) off len = slice bs off len := by
  have hlen : (bs.take pos).length = pos := by simp; omega
  rw [overlay_of_le hp, List.append_assoc, slice_append_left (by omega)]
  conv_rhs => rw [← List.take_append_drop pos bs]
  rw [slice_append_left (by omega)]

theorem slice_overlay_after {bs data : Bytes} {pos off len : Nat} (hp : pos ≤ bs.length)
    (h : pos + data.length ≤ off) : slice (overlay bs pos data) off len = slice bs off len := by
  have hlen : (bs.take pos ++ data).length = pos + data.length := by simp; omega
  rw [overlay_of_le hp, slice_append_right (by omega), hlen]
  simp only [slice, List.drop_drop]
  congr 2
  omega

theorem slice_overlay_self {bs data : Bytes} {pos : Nat} : slice (overlay bs pos data) pos data.length = data := by
  have hlen : (bs.take pos ++ zeros (pos - bs.length)).length = pos := by
    rw [List.length_append, List.length_take, zeros_length]
    omega
  have h := slice_append (bs.take pos ++ zeros (pos - bs.length)) data (bs.drop (pos + data.length))
  rwa [hlen] at h

/-! ## Bytes by position -/

theorem overlay_getElem? {bs data : Bytes} {pos : Nat} (hp : pos ≤ bs.length) (i : Nat) :
    (overlay bs pos data)[i]? = if pos ≤ i ∧ i < pos + data.length then data[i - pos]? else bs[i]? := by
  have hlen : (bs.take pos).length = pos := by simp; omega
  rw [overlay_of_le hp, List.append_assoc]
  by_cases hlo : i < pos
  · rw [List.getElem?_append_left (by omega), List.getElem?_take_of_lt hlo, if_neg (by omega)]
  · rw [List.getElem?_append_right (by omega), hlen]
    by_cases hhi : i < pos + data.length
    · rw [List.getElem?_append_left (by omega), if_pos ⟨by omega, hhi⟩]
    · rw [List.getElem?_append_right (by omega), if_neg (by omega), List.getElem?_drop]
      congr 1
      omega

/-- Bytes that are there already need not be written. -/
theorem overlay_take {bs data : Bytes} {pos k : Nat} (hle : pos + data.length ≤ bs.length)
    (h : data.drop k = (slice bs pos data.length).drop k) : overlay bs pos (data.take k) = overlay bs pos data := by
  apply List.ext_getElem?
  intro i
  rw [overlay_getElem? (by omega), overlay_getElem? (by omega), List.length_take]
  by_cases hin : pos ≤ i ∧ i < pos + data.length
  · rw [if_pos hin]
    by_cases hk : i - pos < k
    · rw [if_pos (by omega), List.getElem?_take_of_lt hk]
    · have hsame := congrArg (fun bytes : Bytes => bytes[i - pos - k]?) h
      have hi : k + (i - pos - k) = i - pos := by omega
      have hj : pos + (i - pos) = i := by omega
      rw [List.getElem?_drop, List.getElem?_drop, hi, slice, List.getElem?_take_of_lt (by omega), List.getElem?_drop,
        hj] at hsame
      rw [if_neg (by omega), hsame]
  · rw [if_neg hin, if_neg (by omega)]

/-- A byte that is there changes where the overwrite reaches it, and nowhere else. -/
theorem overlay_getElem?_of_lt {bs data : Bytes} {pos i : Nat} (h : i < bs.length) :
    (overlay bs pos data)[i]? = if pos ≤ i ∧ i < pos + data.length then data[i - pos]? else bs[i]? := by
  by_cases hp : pos ≤ bs.length
  · exact overlay_getElem? hp i
  · rw [if_neg (by omega), overlay, List.take_of_length_le (by omega), List.append_assoc, List.append_assoc,
      List.getElem?_append_left h]

theorem overlay_append (bs cs data : Bytes) :
    overlay (bs ++ cs) bs.length data = bs ++ data ++ cs.drop data.length := by
  rw [overlay_of_le (by rw [List.length_append]; omega), List.take_left, List.drop_append,
    List.drop_eq_nil_of_le (Nat.le_add_right _ _), List.nil_append, Nat.add_sub_cancel_left]

/-- A write in two parts is a write. -/
theorem overlay_overlay (bs a b : Bytes) (pos : Nat) :
    overlay (overlay bs pos a) (pos + a.length) b = overlay bs pos (a ++ b) := by
  have hlen : (bs.take pos ++ zeros (pos - bs.length) ++ a).length = pos + a.length := by
    rw [List.length_append, List.length_append, List.length_take, zeros_length]
    omega
  have hfirst : overlay bs pos a = bs.take pos ++ zeros (pos - bs.length) ++ a ++ bs.drop (pos + a.length) := rfl
  have hsecond := overlay_append (bs.take pos ++ zeros (pos - bs.length) ++ a) (bs.drop (pos + a.length)) b
  rw [hlen, ← hfirst, List.drop_drop] at hsecond
  rw [hsecond, overlay, List.length_append, ← Nat.add_assoc, List.append_assoc _ a b]

/-! ## Common parts -/

/-- The bytes from `lo` up to `hi` are there in both and the same. -/
structure Agree (lo hi : Nat) (bs cs : Bytes) : Prop where
  left : hi ≤ bs.length
  right : hi ≤ cs.length
  same : ∀ i, lo ≤ i → i < hi → bs[i]? = cs[i]?

namespace Agree
variable {lo hi p : Nat} {bs cs ds : Bytes}

theorem refl {bs : Bytes} (h : hi ≤ bs.length) : Agree lo hi bs bs := ⟨h, h, fun _ _ _ => rfl⟩

theorem symm (h : Agree lo hi bs cs) : Agree lo hi cs bs := ⟨h.right, h.left, fun i hlo hhi => (h.same i hlo hhi).symm⟩

theorem trans (h : Agree lo hi bs cs) (h' : Agree lo hi cs ds) : Agree lo hi bs ds :=
  ⟨h.left, h'.right, fun i hlo hhi => (h.same i hlo hhi).trans (h'.same i hlo hhi)⟩

theorem mono {m : Nat} (h : Agree lo hi bs cs) (hle : m ≤ hi) : Agree lo m bs cs :=
  ⟨Nat.le_trans hle h.left, Nat.le_trans hle h.right, fun i hlo hi => h.same i hlo (Nat.lt_of_lt_of_le hi hle)⟩

/-- The same write at the end of the common part, or within, makes it longer. -/
theorem overlay (h : Agree lo hi bs cs) (hp : p ≤ hi) (data : Bytes) :
    Agree lo (max hi (p + data.length)) (Bytes.overlay bs p data) (Bytes.overlay cs p data) := by
  have hleft := h.left
  have hright := h.right
  refine ⟨by rw [overlay_length]; omega, by rw [overlay_length]; omega, fun i hlo hi => ?_⟩
  rw [overlay_getElem? (by omega), overlay_getElem? (by omega)]
  by_cases hin : p ≤ i ∧ i < p + data.length
  · rw [if_pos hin, if_pos hin]
  · rw [if_neg hin, if_neg hin]
    exact h.same i hlo (by omega)

theorem slice (h : Agree lo hi bs cs) {off len : Nat} (hlo : lo ≤ off) (hle : off + len ≤ hi) :
    Bytes.slice bs off len = Bytes.slice cs off len := by
  apply List.ext_getElem?
  intro i
  unfold Bytes.slice
  by_cases hi : i < len
  · rw [List.getElem?_take_of_lt hi, List.getElem?_take_of_lt hi, List.getElem?_drop, List.getElem?_drop]
    exact h.same _ (by omega) (by omega)
  · rw [List.getElem?_eq_none (by simp; omega), List.getElem?_eq_none (by simp; omega)]

end Agree

end Bytes
