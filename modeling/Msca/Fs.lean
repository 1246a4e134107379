import Msca.Base.Effect
import Msca.Base.Writes

/-! `smol::fs`, which the crate is built on and which is not part of it. A write is taken into a queue and put down later, so
it may return before a byte of it has reached the file, and the error comes out at a call that follows. -/
namespace Msca
set_option autoImplicit false
open Bytes

/-- A file as its handle stands to it. -/
structure View where
  /-- What has reached the file. -/
  bytes : Bytes
  /-- The writes taken that wait. -/
  queue : List Write
  cursor : Nat

/-- The file system. What becomes of a call is left to a `Chance`, which stands for all that the program has no say in. -/
class Fs where
  Handle : Type
  Chance : Type
  /-- Nothing goes wrong. -/
  calm : Chance
  /-- The call comes back with an error of the medium, be it its own or that of a write that waited. -/
  fails : Chance → Bool
  /-- No file has a byte from here on. -/
  limit : Nat
  view : Handle → View
  /-- A new handle on a file with these bytes. -/
  opened : Bytes → Handle
  /-- What a new handle finds of the file. -/
  found : Chance → Handle → Bytes
  seek : Chance → Nat → Eff Unit Handle Unit
  writeAll : Chance → Bytes → Eff Unit Handle Unit
  flush : Chance → Eff Unit Handle Unit
  readExact : Chance → Nat → Eff Unit Handle Bytes

namespace View
variable [Fs]

/-- `ws` has joined the queue, and some of the queue has landed. -/
structure Given (v : View) (ws : List Write) (w : View) : Prop where
  lands : Lands v.bytes (v.queue ++ ws) w.bytes w.queue
  extent : w.bytes.length ≤ max v.bytes.length Fs.limit

/-- `ws` was to join the queue; some of the queue has landed, and of the rest a front still waits. -/
structure Broken (v : View) (ws : List Write) (w : View) : Prop where
  lands : ∃ rest n, Lands v.bytes (v.queue ++ ws) w.bytes rest ∧ w.queue = front rest n
  extent : w.bytes.length ≤ max v.bytes.length Fs.limit

/-- What waits stays below the limit. -/
def Fits (v : View) : Prop := ∀ w ∈ v.queue, Within Fs.limit w

theorem Given.trans {u v w : View} {ws vs : List Write} (h : Given u ws v) (h' : Given v vs w) : Given u (ws ++ vs) w := by
  refine ⟨?_, ?_⟩
  · rw [← List.append_assoc]
    exact h.lands.join h'.lands
  · have hfirst := h.extent
    have hthen := h'.extent
    omega

theorem Given.broken {u v w : View} {ws vs : List Write} (h : Given u ws v) (h' : Broken v vs w) : Broken u (ws ++ vs) w := by
  obtain ⟨rest, n, hlands, hqueue⟩ := h'.lands
  refine ⟨⟨rest, n, ?_, hqueue⟩, ?_⟩
  · rw [← List.append_assoc]
    exact h.lands.join hlands
  · have hfirst := h.extent
    have hthen := h'.extent
    omega

theorem Broken.refl (v : View) : Broken v [] v := by
  refine ⟨⟨v.queue, (v.queue.map fun w => w.2.length).sum + 1, ?_, (front_of_lt (Nat.lt_succ_self _)).symm⟩, Nat.le_max_left _ _⟩
  rw [List.append_nil]
  exact .refl _ _

theorem Broken.length_le {v w : View} {ws : List Write} (h : Broken v ws w) : v.bytes.length ≤ w.bytes.length := by
  obtain ⟨rest, n, hlands, -⟩ := h.lands
  exact hlands.length_le

/-- What holds of every write that waits or joins holds of what waits then. -/
theorem Broken.forall {v w : View} {ws : List Write} (h : Broken v ws w) {P : Write → Prop} (hP : Parted P)
    (hqueue : ∀ x ∈ v.queue, P x) (hws : ∀ x ∈ ws, P x) : ∀ x ∈ w.queue, P x := by
  obtain ⟨rest, n, hlands, hrest⟩ := h.lands
  rw [hrest]
  exact front_forall hP (hlands.forall hP fun x hx => (List.mem_append.mp hx).elim (hqueue x) (hws x)) n

theorem Given.agree {v w : View} {ws : List Write} (h : Given v ws w) {lo hi : Nat} (hle : hi ≤ v.bytes.length)
    (hqueue : ∀ x ∈ v.queue, Spares lo hi x) (hws : ∀ x ∈ ws, Spares lo hi x) : Agree lo hi v.bytes w.bytes :=
  h.lands.agree hle fun x hx => (List.mem_append.mp hx).elim (hqueue x) (hws x)

theorem Broken.agree {v w : View} {ws : List Write} (h : Broken v ws w) {lo hi : Nat} (hle : hi ≤ v.bytes.length)
    (hqueue : ∀ x ∈ v.queue, Spares lo hi x) (hws : ∀ x ∈ ws, Spares lo hi x) : Agree lo hi v.bytes w.bytes := by
  obtain ⟨rest, n, hlands, -⟩ := h.lands
  exact hlands.agree hle fun x hx => (List.mem_append.mp hx).elim (hqueue x) (hws x)

end View

/-- What the file system promises. A call that returns has met no error; seeking, flushing and reading put down all that
waits first; a call fails only when the medium does, when a write goes beyond the limit, or when it asks for an offset or for
bytes that are not there. -/
class LawfulFs [Fs] : Prop where
  calm : Fs.fails Fs.calm = false
  /-- Offsets from `2 ^ 63` on are negative as `off_t`. -/
  limit_lt : Fs.limit < 2 ^ 63
  opened (bs : Bytes) : Fs.view (Fs.opened bs) = ⟨bs, [], 0⟩
  found (c : Fs.Chance) (h : Fs.Handle) : (∃ rest, Lands (Fs.view h).bytes (Fs.view h).queue (Fs.found c h) rest) ∧
    (Fs.found c h).length ≤ max (Fs.view h).bytes.length Fs.limit
  seek (c : Fs.Chance) (h : Fs.Handle) (p : Nat) : Eff.Triple (fun h' => h' = h) (Fs.seek c p)
    (fun _ h' => Fs.fails c = false ∧ (Fs.view h).Given [] (Fs.view h') ∧ (Fs.view h').queue = [] ∧ (Fs.view h').cursor = p)
    fun _ h' => ¬ (Fs.fails c = false ∧ (Fs.view h).Fits ∧ p ≤ Fs.limit) ∧ (Fs.view h).Broken [] (Fs.view h')
  writeAll (c : Fs.Chance) (h : Fs.Handle) (data : Bytes) (ne : data ≠ []) : Eff.Triple (fun h' => h' = h) (Fs.writeAll c data)
    (fun _ h' => Fs.fails c = false ∧ (Fs.view h).Given [((Fs.view h).cursor, data)] (Fs.view h') ∧
      (Fs.view h').cursor = (Fs.view h).cursor + data.length)
    fun _ h' => ¬ (Fs.fails c = false ∧ (Fs.view h).Fits ∧ Within Fs.limit ((Fs.view h).cursor, data)) ∧
      (Fs.view h).Broken [((Fs.view h).cursor, data)] (Fs.view h')
  flush (c : Fs.Chance) (h : Fs.Handle) : Eff.Triple (fun h' => h' = h) (Fs.flush c)
    (fun _ h' => Fs.fails c = false ∧ (Fs.view h).Given [] (Fs.view h') ∧ (Fs.view h').queue = [])
    fun _ h' => ¬ (Fs.fails c = false ∧ (Fs.view h).Fits) ∧ (Fs.view h).Broken [] (Fs.view h')
  readExact (c : Fs.Chance) (h : Fs.Handle) (n : Nat) : Eff.Triple (fun h' => h' = h) (Fs.readExact c n)
    (fun data h' => Fs.fails c = false ∧ (Fs.view h).Given [] (Fs.view h') ∧ (Fs.view h').queue = [] ∧
      (Fs.view h).cursor + n ≤ (Fs.view h').bytes.length ∧ data = slice (Fs.view h').bytes (Fs.view h).cursor n ∧
      (Fs.view h').cursor = (Fs.view h).cursor + n)
    fun _ h' => ¬ (Fs.fails c = false ∧ (Fs.view h).Fits ∧
        (Fs.view h).cursor + n ≤ (land (Fs.view h).bytes (Fs.view h).queue).length) ∧ (Fs.view h).Broken [] (Fs.view h')

/-! ## The calls of an operation -/

/-- How the medium fares in the calls to come. -/
abbrev Script [Fs] := Nat → Fs.Chance

namespace Script
variable [Fs]

/-- Nothing goes wrong. -/
def calm : Script := fun _ => Fs.calm

/-- The medium fails in one of the next `n` calls. -/
def within (σ : Script) : Nat → Bool
  | 0 => false
  | n + 1 => σ.within n || Fs.fails (σ n)

/-- What is left after `n` calls. -/
def after (σ : Script) (n : Nat) : Script := fun k => σ (n + k)

theorem after_after (σ : Script) (m n : Nat) : (σ.after m).after n = σ.after (m + n) :=
  funext fun k => congrArg σ (Nat.add_assoc m n k).symm

theorem within_add (σ : Script) (m n : Nat) : σ.within (m + n) = (σ.within m || (σ.after m).within n) := by
  induction n with
  | zero => rw [within, Bool.or_false, Nat.add_zero]
  | succ n ih => rw [← Nat.add_assoc, within, within, ih, Bool.or_assoc, after]

theorem within_after {σ : Script} {m n : Nat} (h : σ.within m = false) : (σ.after m).within n = σ.within (m + n) := by
  rw [within_add, h, Bool.false_or]

theorem within_mono {σ : Script} {m n : Nat} (h : σ.within n = false) (hle : m ≤ n) : σ.within m = false := by
  obtain ⟨k, rfl⟩ := Nat.exists_eq_add_of_le hle
  rw [within_add] at h
  exact (Bool.or_eq_false_iff.mp h).1

theorem within_one (σ : Script) : σ.within 1 = Fs.fails (σ 0) := by rw [within, within, Bool.false_or]

theorem within_calm [LawfulFs] (n : Nat) : calm.within n = false := by
  induction n with
  | zero => rfl
  | succ n ih => rw [within, ih, Bool.false_or, calm, LawfulFs.calm]

end Script
end Msca
