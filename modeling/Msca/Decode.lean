import Msca.Base.Run
import Msca.Image
import Msca.Read

/-! What decoding makes of the bytes the write path lays out: parsing one framed region, and stepping
the iterators over the images of collected items. -/
namespace Msca
set_option autoImplicit false
open Checked

/-! ## Parsing -/

section Parse
variable {α β : Type}

theorem run_bind (p : Parse α) (f : α → Parse β) (src : Bytes) :
    (p >>= f).run src = match p.run src with
      | (.ok a, rest) => (f a).run rest
      | (.error e, rest) => (.error e, rest) := by
  change ExceptT.run (p >>= f) src = _
  rw [ExceptT.run_bind]
  rcases hp : Parse.run p src with ⟨e | a, rest⟩
  all_goals
    change ExceptT.run p src = _ at hp
    simp only [bind, StateT.bind, hp]
    rfl

theorem run_bind_ok {p : Parse α} {f : α → Parse β} {src rest : Bytes} {a : α}
    (h : p.run src = (.ok a, rest)) : (p >>= f).run src = (f a).run rest := by
  rw [run_bind, h]

theorem run_bind_error {p : Parse α} {f : α → Parse β} {src rest : Bytes} {e : Fault}
    (h : p.run src = (.error e, rest)) : (p >>= f).run src = (.error e, rest) := by
  rw [run_bind, h]

@[simp] theorem run_lift (r : Res α) (src : Bytes) : (Parse.lift r).run src = (r, src) := rfl

theorem splitFront_of_le {n : Nat} {src : Bytes} (h : n ≤ src.length) :
    (splitFront n).run src = (.ok (src.take n), src.drop n) := by
  have hget : (get : Parse Bytes).run src = (.ok src, src) := rfl
  rw [splitFront, run_bind_ok hget, if_pos h]
  rfl

theorem splitFront_of_lt {n : Nat} {src : Bytes} (h : src.length < n) :
    (splitFront n).run src = (.error (truncated n src.length), src) := by
  have hget : (get : Parse Bytes).run src = (.ok src, src) := rfl
  rw [splitFront, run_bind_ok hget, if_neg (Nat.not_le.mpr h)]
  rfl

theorem splitFront_append (a rest : Bytes) :
    (splitFront a.length).run (a ++ rest) = (.ok a, rest) := by
  rw [splitFront_of_le (by simp), List.take_left, List.drop_left]

theorem deserialize_append [Fixed α] (a : α) (rest : Bytes) :
    (deserialize (α := α)).run (Fixed.toLe a ++ rest) = (.ok a, rest) := by
  have hsplit := splitFront_append (Fixed.toLe a) rest
  rw [Fixed.toLe_length] at hsplit
  change (splitFront (Fixed.width α) >>= fun chunk => Parse.lift (Fixed.ofLe chunk)).run _ = _
  rw [run_bind_ok hsplit, run_lift, Fixed.ofLe_toLe]

theorem deserialize_nonZero (n : NonZero) (rest : Bytes) :
    (deserialize (α := NonZero)).run (Bytes.leBytes 8 n.get ++ rest) = (.ok n, rest) := by
  have hword : (deserialize (α := U64)).run (Bytes.leBytes 8 n.get ++ rest) = (.ok n.toU64, rest) :=
    deserialize_append n.toU64 rest
  change (deserialize (α := U64) >>= fun m => Parse.lift (okOr convertError (NonZero.ofNat? m.val))).run _ = _
  rw [run_bind_ok hword, run_lift]
  change (okOr convertError (NonZero.ofNat? n.get), rest) = _
  rw [NonZero.ofNat?_get, okOr_some]

theorem sizedBody_frame {body rest : Bytes} (hpos : 0 < body.length) (hlt : roundUp body.length < 2 ^ 64) :
    sizedBody.run (frame body ++ rest) = (.ok body, rest) := by
  have hup := le_roundUp body.length
  let size : NonZero := ⟨body.length, hpos, by omega⟩
  have hfill := splitFront_append (Bytes.zeros (roundUp body.length - body.length)) rest
  rw [Bytes.zeros_length] at hfill
  have hbody := splitFront_append body (Bytes.zeros (roundUp body.length - body.length) ++ rest)
  have hsize := deserialize_nonZero size
    (body ++ (Bytes.zeros (roundUp body.length - body.length) ++ rest))
  have hpad : pad size.get = .ok (roundUp body.length - body.length) := pad_of_lt hlt
  rw [frame, List.append_assoc, List.append_assoc, sizedBody, run_bind_ok hsize]
  change (splitFront body.length >>= _).run _ = _
  rw [run_bind_ok hbody, hpad]
  change (splitFront (roundUp body.length - body.length) >>= _).run _ = _
  rw [run_bind_ok hfill]
  rfl

theorem regionInto_frame {S : Type} [Deserialize S] {body rest : Bytes} (hpos : 0 < body.length)
    (hlt : roundUp body.length < 2 ^ 64) :
    (regionInto S).run (frame body ++ rest) = (((deserialize (α := S)).run body).1, rest) := by
  rw [regionInto, run_bind_ok (sizedBody_frame hpos hlt), run_lift]

end Parse

/-! ## Iterators over images -/

/-- The iterator yields, in order, the items of a list. -/
abbrev Yields {C I : Type} (next : C → Option (Res I) × C) : C → List I → C → Prop :=
  Run fun c i c' => next c = (some (.ok i), c')

section Yields
variable {C I : Type} {next : C → Option (Res I) × C}

theorem takeItems_of_yields {c c' : C} {xs : List I} (h : Yields next c xs c') :
    takeItems next xs.length c = xs.map .ok := by
  induction xs generalizing c with
  | nil => rfl
  | cons x xs ih =>
    obtain ⟨d, hx, h⟩ := h
    rw [List.length_cons, takeItems, hx, List.map_cons, ← ih h]

end Yields

theorem takeCollect_of_yields {S I : Type} [Deserialize S] [Decoder S I]
    {c c' : Decoder.Cursor S I} {xs : List I} (h : Yields Decoder.next c xs c') :
    takeCollect Decoder.next xs.length c = (.ok xs, c') := by
  induction xs generalizing c with
  | nil => exact congrArg _ h
  | cons x xs ih =>
    obtain ⟨d, hx, h⟩ := h
    rw [List.length_cons, takeCollect, hx]
    simp only [ih h]
    rfl

theorem nextFixed_yields {I : Type} [Fixed I] (xs : List I) (rest : Bytes) :
    Yields nextFixed (encAll xs ++ rest) xs rest := by
  induction xs with
  | nil => rfl
  | cons x xs ih =>
    have hitem := deserialize_append x (encAll xs ++ rest)
    have hlen := Fixed.toLe_length x
    have hwidth := Fixed.width_pos (α := I)
    have hne : (Fixed.toLe x ++ (encAll xs ++ rest)).isEmpty = false := by
      rw [List.isEmpty_eq_false_iff_exists_mem]
      obtain ⟨b, hb⟩ := List.exists_mem_of_length_pos (l := Fixed.toLe x) (by omega)
      exact ⟨b, List.mem_append_left _ hb⟩
    refine ⟨encAll xs ++ rest, ?_, ih⟩
    rw [encAll_cons, List.append_assoc]
    change nextFixed (Fixed.toLe x ++ (encAll xs ++ rest)) = _
    rw [nextFixed, hne, hitem]
    rfl

theorem bits_yields (xs rest : Bits) : Yields (Decoder.next (S := Bits)) (xs ++ rest) xs rest := by
  induction xs with
  | nil => rfl
  | cons b xs ih => exact ⟨xs ++ rest, rfl, ih⟩

theorem fromUtf8_intoBytes (s : String) : fromUtf8 (intoBytes s) = .ok s := by
  rw [fromUtf8, fromUTF8?_intoBytes, okOr_some]

section Rows
variable {D X : Type}

theorem step_cons {row : Nat → Rows D → Res X × Rows D} (stop : U64) (ends : Bytes) (start : Nat) (d : D) :
    Rows.step ⟨Fixed.toLe stop ++ ends, start, d⟩ row =
      (some (row stop.val ⟨ends, start, d⟩).1, (row stop.val ⟨ends, start, d⟩).2) := by
  have hitem := deserialize_append stop ends
  have hne : (Fixed.toLe stop ++ ends).isEmpty = false := by
    simp [Fixed.toLe, Bytes.leBytes]
  simp only [Rows.step, hne, hitem, Bool.false_eq_true, if_false]

theorem rows_yields {row : Nat → Rows D → Res X × Rows D} (len : X → Nat) {Writes : D → X → D → Prop}
    (hrow : ∀ ends start d x d', Writes d x d' →
      row (start + len x) ⟨ends, start, d⟩ = (.ok x, ⟨ends, start + len x, d'⟩))
    {xs : List X} {d d' : D} (start : Nat) (h : Run Writes d xs d')
    (hlt : start + (xs.map len).sum < 2 ^ 64) :
    Yields (fun c => Rows.step c row) ⟨encAll (endsFrom start (xs.map len)), start, d⟩ xs
      ⟨[], start + (xs.map len).sum, d'⟩ := by
  induction xs generalizing d start with
  | nil =>
    have hd : d = d' := h
    simp [endsFrom, hd, Run]
  | cons x xs ih =>
    obtain ⟨m, hx, h⟩ := h
    rw [List.map_cons, List.sum_cons, ← Nat.add_assoc] at hlt ⊢
    have hstop : (U64.clamp (start + len x)).val = start + len x := U64.clamp_val (by omega)
    refine ⟨⟨encAll (endsFrom (start + len x) (xs.map len)), start + len x, m⟩, ?_, ih _ h hlt⟩
    rw [endsFrom, encAll_cons, hstop]
    change Rows.step ⟨Fixed.toLe (U64.clamp (start + len x)) ++ _, start, d⟩ row = _
    rw [step_cons, hstop, hrow _ _ _ _ _ hx]

theorem optRows_yields {row : Nat → Rows D → Res X × Rows D} (len : X → Nat) {Writes : D → X → D → Prop}
    (hrow : ∀ ends start d x d', Writes d x d' →
      row (start + len x) ⟨ends, start, d⟩ = (.ok x, ⟨ends, start + len x, d'⟩))
    {xs : List (Option X)} {d d' : D} (start : Nat) (h : Run Writes d (somes xs) d')
    (hlt : start + ((somes xs).map len).sum < 2 ^ 64 - 1) :
    Yields (fun c => Rows.step c (optRow row))
      ⟨encAll (optEndsFrom start (xs.map (Option.map len))), start, d⟩ xs
      ⟨[], start + ((somes xs).map len).sum, d'⟩ := by
  induction xs generalizing d start with
  | nil =>
    have hd : d = d' := h
    simp [optEndsFrom, somes, hd, Run]
  | cons x xs ih =>
    cases x with
    | none =>
      refine ⟨⟨encAll (optEndsFrom start (xs.map (Option.map len))), start, d⟩, ?_, ih _ h hlt⟩
      change Rows.step ⟨Fixed.toLe U64.max ++ _, start, d⟩ (optRow row) = _
      rw [step_cons, optRow, if_pos rfl]
      rfl
    | some x =>
      obtain ⟨m, hx, h⟩ := h
      change start + (len x + ((somes xs).map len).sum) < _ at hlt
      rw [← Nat.add_assoc] at hlt
      have hstop : (U64.clamp (start + len x)).val = start + len x := U64.clamp_val (by omega)
      have hmax : ¬ start + len x = U64.max.val := by
        change ¬ start + len x = 2 ^ 64 - 1
        omega
      have hne : ¬ U64.clamp (start + len x) = U64.max := by
        intro he
        exact hmax (by rw [← hstop, he])
      have hsum : start + ((somes (some x :: xs)).map len).sum =
          start + len x + ((somes xs).map len).sum := (Nat.add_assoc _ _ _).symm
      rw [hsum]
      refine ⟨⟨encAll (optEndsFrom (start + len x) (xs.map (Option.map len))), start + len x, m⟩, ?_, ih _ h hlt⟩
      simp only [List.map_cons, Option.map_some, optEndsFrom, if_neg hne, hstop, encAll_cons]
      change Rows.step ⟨Fixed.toLe (U64.clamp (start + len x)) ++ _, start, d⟩ (optRow row) = _
      rw [step_cons, hstop, optRow, if_neg hmax, hrow _ _ _ _ _ hx]
      rfl

theorem strRow_writes (ends : Bytes) (start : Nat) (d : Bytes) (s : String) (d' : Bytes)
    (h : d = intoBytes s ++ d') :
    strRow (start + (intoBytes s).length) ⟨ends, start, d⟩ =
      (.ok s, ⟨ends, start + (intoBytes s).length, d'⟩) := by
  have hlen : subOr (start + (intoBytes s).length) start = .ok (intoBytes s).length := by
    rw [subOr_of_le (by omega), Nat.add_sub_cancel_left]
  subst h
  simp only [strRow, hlen, List.length_append, Nat.le_add_right, if_true, List.take_left,
    List.drop_left, fromUtf8_intoBytes]

theorem strings_run (ss : List String) (rest : Bytes) :
    Run (fun d s d' => d = intoBytes s ++ d') ((ss.map intoBytes).flatten ++ rest) ss rest := by
  induction ss with
  | nil => rfl
  | cons s ss ih => exact ⟨_, by rw [List.map_cons, List.flatten_cons, List.append_assoc], ih⟩

end Rows

section VecRow
variable {S I : Type} [Deserialize S] [Decoder S I]

theorem vecRow_writes (ends : Bytes) (start : Nat) (d : Decoder.Cursor S I) (row : List I)
    (d' : Decoder.Cursor S I) (h : Yields Decoder.next d row d') :
    vecRow (start + row.length) ⟨ends, start, d⟩ = (.ok row, ⟨ends, start + row.length, d'⟩) := by
  have hlen : subOr (start + row.length) start = .ok row.length := by
    rw [subOr_of_le (by omega), Nat.add_sub_cancel_left]
  simp only [vecRow, hlen, takeCollect_of_yields h]

theorem presentVecRow_writes (ends : Bytes) (start : Nat) (d : Decoder.Cursor S I) (row : List I)
    (d' : Decoder.Cursor S I) (h : Yields Decoder.next d row d') :
    presentVecRow (start + row.length) ⟨ends, start, d⟩ = (.ok row, ⟨ends, start + row.length, d'⟩) := by
  simp only [presentVecRow, Nat.add_sub_cancel_left, takeCollect_of_yields h]

end VecRow

section OptBitVec
variable {S I : Type} [Decoder S I]

/-- A mask and a data cursor together yield the optional items they were split into. -/
theorem optBitVec_yields {xs : List (Option I)} {c c' : Decoder.Cursor S I} (fill : Bits)
    (h : Yields Decoder.next c (somes xs) c') :
    Yields nextOptBitVec (xs.map Option.isSome ++ fill, c) xs (fill, c') := by
  induction xs generalizing c with
  | nil =>
    have hc : c = c' := h
    rw [hc]
    rfl
  | cons x xs ih =>
    cases x with
    | none => exact ⟨(xs.map Option.isSome ++ fill, c), rfl, ih h⟩
    | some x =>
      obtain ⟨d, hx, h⟩ := h
      refine ⟨(xs.map Option.isSome ++ fill, d), ?_, ih h⟩
      simp only [List.map_cons, Option.isSome_some, List.cons_append, nextOptBitVec, hx]
      rfl

end OptBitVec
end Msca
