import Msca.Chain

/-! Filters over an unwrapped option. The one item of a compact buffer of options stands behind the mask that says it
is present; a filter stacked on the unwrapped option reads its bytes from the start and tests the header of that mask. -/
namespace Msca
set_option autoImplicit false
open Checked

/-- The region that says that one item is present. -/
def presence : Bytes := [1, 0, 0, 0, 0, 0, 0, 0, 1, 0, 0, 0, 0, 0, 0, 0]

/-- What such a region reads as. -/
def misread (p : Plain) : (Prim.plain p).Val where
  bits := if (Prim.plain p).size = 16 then 2 ^ 64 + 1 else 1
  lt := by
    rcases p with w | w | _ | _ <;> try cases w
    all_goals decide
  valid := trivial

theorem misread_bytes (p : Plain) : Fixed.toLe (misread p) = presence.take (Prim.plain p).size := by
  rcases p with w | w | _ | _ <;> try cases w
  all_goals decide

theorem presence_image {p : Plain} (y : (Prim.plain p).Val) :
    ∃ rest, (Item.option (.prim (.plain p))).image [some y] = presence ++ rest := by
  have hmask : frame (enc (List.map Option.isSome [some y])) = presence := by
    change frame (Bytes.packBits [true]) = presence
    decide
  rw [image_optPlain, partsEnc, hmask]
  exact ⟨_, rfl⟩

/-- Read as the item itself, a present item is the header before it. -/
theorem readOne_present {p : Plain} (y : (Prim.plain p).Val) :
    @readOne (Prim.plain p).Val ((Item.prim (.plain p)).decode rfl) ((Item.option (.prim (.plain p))).image [some y]) =
      .ok (misread p) := by
  obtain ⟨rest, himage⟩ := presence_image y
  have hsplit : presence ++ rest = Fixed.toLe (misread p) ++ (presence.drop (Prim.plain p).size ++ rest) := by
    rw [misread_bytes, ← List.append_assoc, List.take_append_drop]
  rw [himage, hsplit]
  exact congrArg Prod.fst (deserialize_append (misread p) _)

namespace Unwrap
variable {p : Plain} {mmap : Bytes} {buf : Manifest.Buffer} {xs : List (Option (Prim.plain p).Val)}

/-- A buffer of options is compact, where a test over the unwrapped item sees the wrong one, or has items that differ. -/
theorem cases (hw : Written (.option (.prim (.plain p))) xs mmap buf) (hlive : ∃ x ∈ xs, x.isSome = true) :
    (∃ y, (∀ x ∈ xs, x = some y) ∧ (∀ keep, @itemTest _ ((Item.prim (.plain p)).decode rfl) keep buf mmap =
        .ok (keep (misread p))) ∧ ∀ (J : Type) (_ : Deserialize J) keep (op : J → J → Res Bool),
          @spanTest _ J ((Item.prim (.plain p)).decode rfl) _ keep op buf mmap = .ok (keep (misread p))) ∨
      ((∃ x ∈ xs, ∃ x' ∈ xs, x' ≠ x) ∧ ∀ sector count, buf ≠ .compact sector count) := by
  obtain ⟨sector, count, ⟨x, hx, hall, rfl, hslice, hm⟩ | ⟨hdiffer, hdesc, -⟩⟩ := hw.cases
  · obtain ⟨x', hx', hsome⟩ := hlive
    rw [hall x' hx'] at hsome
    obtain ⟨y, rfl⟩ := Option.isSome_iff_exists.mp hsome
    refine Or.inl ⟨y, hall, fun keep => ?_, fun J _ keep op => ?_⟩
    · show (do return keep (← @readOne _ ((Item.prim (.plain p)).decode rfl) (← sector.slice mmap)) : Res Bool) = _
      rw [hslice, ok_bind, readOne_present]
      rfl
    · show (do return keep (← @readOne _ ((Item.prim (.plain p)).decode rfl) (← sector.slice mmap)) : Res Bool) = _
      rw [hslice, ok_bind, readOne_present]
      rfl
  · refine Or.inr ⟨hdiffer, ?_⟩
    rcases (Item.option (.prim (.plain p))).lawfulDescribe.1.describe_eq hdesc with rfl | ⟨min, max, rfl⟩
    · exact fun _ _ h => by cases h
    · exact fun _ _ h => by cases h

/-- The options of a column, unwrapped. -/
def present (p : Plain) (src : Src) : Adapter .mask (.prim (.plain p)) :=
  .isSome (.column src (.option (.prim (.plain p))) rfl)

/-- No compact buffer has an item that passes while its header does not. -/
def Shown (keep : (Prim.plain p).Val → Bool) (column : List (List (Option (Prim.plain p).Val))) : Prop :=
  ∀ xs ∈ column, ∀ y, (∀ x ∈ xs, x = some y) → keep y = true → keep (misread p) = true

section
variable {src : Src} {column : List (List (Option (Prim.plain p).Val))} {keep : (Prim.plain p).Val → Bool}
  {q : Adapter .iter (.prim (.plain p)) × Mask}

/-- A filter that tests the header of each compact buffer loses nothing exactly when no header hides an item. -/
theorem retained_iff
    (h : @Clears (.option (.prim (.plain p))) (.prim (.plain p)) src column (fun x => x) (fun x => x) src.mask q)
    (hcol : src.Holds (.option (.prim (.plain p))) column) {test : Adapter.BufferTest}
    (htest : ∀ xs ∈ column, ∀ buf, Written (.option (.prim (.plain p))) xs src.mmap buf → (∃ x ∈ xs, x.isSome = true) →
      ∃ b, test buf src.mmap = .ok b ∧ ((∃ y, (∀ x ∈ xs, x = some y) ∧ b = keep (misread p)) ∨
        ((∃ x ∈ xs, ∃ x' ∈ xs, x' ≠ x) ∧ (b = false → ∀ x ∈ xs, x.filter keep = none)))) :
    ∃ kept, q.1.src.tryExclude q.2 test = .ok kept ∧
      ((retain kept.2 column).flatMap (fun xs => xs.filterMap (Option.filter keep)) =
        column.flatMap (fun xs => xs.filterMap (Option.filter keep)) ↔ Shown keep column) := by
  obtain ⟨kept, hkept, hlen, -, hbits⟩ := h.tryExclude hcol htest
  have hsize : kept.2.length = column.length := by rw [hlen, Src.mask, List.length_replicate, hcol.length_eq]
  have hall : ∀ (i : Nat) (xs : List (Option (Prim.plain p).Val)), column[i]? = some xs → src.mask.Includes i := by
    intro i xs hxs
    have hlt := (List.getElem?_eq_some_iff.mp hxs).1
    rw [hcol.length_eq] at hlt
    unfold Mask.Includes Src.mask
    rw [List.getElem?_replicate, if_pos hlt]
  refine ⟨kept, hkept, ?_⟩
  rw [Retain.flatMap_eq_iff hsize]
  constructor
  · intro hnone xs hxs y hy hk
    obtain ⟨i, hi⟩ := List.mem_iff_getElem?.mp hxs
    obtain ⟨buf, -, hw⟩ := Clears.written hcol hi
    obtain ⟨x, hx⟩ := List.exists_mem_of_ne_nil xs hw.ne_nil
    -- the buffer has an item that passes, so it is still there and its header decided
    have hlost : ¬ List.filterMap (Option.filter keep) xs = [] := by
      rw [List.filterMap_eq_nil_iff]
      intro hnil
      have hxnil := hnil x hx
      rw [hy x hx] at hxnil
      simp [Option.filter, hk] at hxnil
    have hin : kept.2.Includes i := by
      by_contra hnot
      exact hlost (hnone i xs hi hnot)
    have hq : q.2.Includes i := by
      by_contra hnot
      have hxnil := h.lost i xs (hall i xs hi) hnot hi x hx
      rw [hy x hx] at hxnil
      cases hxnil
    obtain ⟨b, hb, hiff⟩ := hbits i xs hq hi
    have htrue := hiff.mp hin
    rcases hb with ⟨-, -, rfl⟩ | ⟨⟨x₁, h₁, x₂, h₂, hne⟩, -⟩
    · exact htrue
    · exact absurd ((hy x₂ h₂).trans (hy x₁ h₁).symm) hne
  · intro hshown i xs hi hnot
    rw [List.filterMap_eq_nil_iff]
    intro x hx
    by_cases hq : q.2.Includes i
    · obtain ⟨b, hb, hiff⟩ := hbits i xs hq hi
      have hfalse : b = false := Bool.eq_false_iff.mpr fun htrue => hnot (hiff.mpr htrue)
      rcases hb with ⟨y, hy, rfl⟩ | ⟨-, hnone⟩
      · rw [hy x hx, Option.filter_eq_none_iff]
        intro z hz hk
        cases hz
        rw [hshown xs (List.mem_of_getElem? hi) y hy hk] at hfalse
        cases hfalse
      · exact hnone hfalse x hx
    · rw [h.lost i xs (hall i xs hi) hq hi x hx]
      rfl

theorem present_clears (hcol : src.Holds (.option (.prim (.plain p))) column) :
    ∃ q, (present p src).resolve src.mask = .ok q ∧
      @Clears (.option (.prim (.plain p))) (.prim (.plain p)) src column (fun x => x) (fun x => x) src.mask q := by
  have hsafe : (present p src).Safe := trivial
  obtain ⟨q, hq, h⟩ := Adapter.resolve_clears hsafe hcol (fun _ _ => rfl) src.mask
  have hvalue : (present p src).value = fun x => x := by
    funext x
    cases x <;> rfl
  rw [hvalue] at h
  exact ⟨q, hq, h⟩

theorem probe_read [Outcomes] [LawfulOutcomes] (a : Probe (.prim (.plain p)))
    (hcol : src.Holds (.option (.prim (.plain p))) column) {mask : Mask} {r : Adapter .iter (.prim (.plain p)) × Mask}
    (h : (a.mask (present p src) (.whole _)).resolve mask = .ok r) (m : Mask) :
    (r.1.read m).filterMap Outcome.included? =
      (retain m column).flatMap fun xs => xs.filterMap (Option.filter a.keep) := by
  cases a with
  | bitMatch item =>
    have hread := Adapter.read_included h hcol (fun _ _ => rfl) m
    have hsame : (fun i => BitMatch.eq i item) = (Probe.bitMatch item : Probe (.prim (.plain p))).keep := by
      funext i
      rw [Bool.eq_iff_iff]
      exact (LawfulBitMatch.eq_iff i item).trans (eq_comm.trans (LawfulBitMatch.eq_iff item i).symm)
    rw [← hsame]
    exact hread
  | _ => exact Adapter.read_included h hcol (fun _ _ => rfl) m

theorem flatten_filterMap (keep : (Prim.plain p).Val → Bool) : column.flatten.filterMap (Option.filter keep) =
    column.flatMap fun xs => xs.filterMap (Option.filter keep) := by
  rw [List.filterMap_flatten, List.flatMap_def]

theorem filter_exact_iff [Outcomes] [LawfulOutcomes] (hcol : src.Holds (.option (.prim (.plain p))) column)
    (keep : (Prim.plain p).Val → Bool) :
    ∃ r, (Adapter.filter (present p src) (.whole (.prim (.plain p))) keep).resolve src.mask = .ok r ∧
      ((r.1.read r.2).filterMap Outcome.included? = column.flatten.filterMap (Option.filter keep) ↔ Shown keep column) := by
  obtain ⟨q, hq, h⟩ := present_clears hcol
  have htest : ∀ xs ∈ column, ∀ buf, Written (.option (.prim (.plain p))) xs src.mmap buf →
      (∃ x ∈ xs, x.isSome = true) → ∃ b, @itemTest _ ((Item.prim (.plain p)).decode rfl) keep buf src.mmap = .ok b ∧
        ((∃ y, (∀ x ∈ xs, x = some y) ∧ b = keep (misread p)) ∨
          ((∃ x ∈ xs, ∃ x' ∈ xs, x' ≠ x) ∧ (b = false → ∀ x ∈ xs, x.filter keep = none))) := by
    intro xs _ buf hw hlive
    rcases Unwrap.cases hw hlive with ⟨y, hall, hitem, -⟩ | ⟨hdiffer, hne⟩
    · exact ⟨_, hitem keep, Or.inl ⟨y, hall, rfl⟩⟩
    · refine ⟨true, ?_, Or.inr ⟨hdiffer, fun h => absurd h.symm Bool.false_ne_true⟩⟩
      cases buf with
      | compact sector count => exact absurd rfl (hne sector count)
      | basic sector count => rfl
      | detailed sector count min max => rfl
  obtain ⟨kept, hkept, hiff⟩ := retained_iff h hcol htest
  have hres : (Adapter.filter (present p src) (.whole (.prim (.plain p))) keep).resolve src.mask =
      .ok (.filter q.1 (.whole _) keep, kept.2) :=
    bind_eq_ok.mpr ⟨q, hq, bind_eq_ok.mpr ⟨kept, hkept, rfl⟩⟩
  have hread : ((Adapter.filter q.1 (.whole (.prim (.plain p))) keep).read kept.2).filterMap Outcome.included? =
      (retain kept.2 column).flatMap fun xs => xs.filterMap (Option.filter keep) :=
    Adapter.read_included hres hcol (fun _ _ => rfl) kept.2
  exact ⟨_, hres, by rw [flatten_filterMap, ← hiff, hread]⟩

theorem probe_exact_iff [Outcomes] [LawfulOutcomes] (hcol : src.Holds (.option (.prim (.plain p))) column)
    (a : Probe (.prim (.plain p))) (ha : a.Safe) :
    ∃ r, (a.mask (present p src) (.whole _)).resolve src.mask = .ok r ∧
      ((r.1.read r.2).filterMap Outcome.included? = column.flatten.filterMap (Option.filter a.keep) ↔
        Shown a.keep column) := by
  obtain ⟨q, hq, h⟩ := present_clears hcol
  have htest : ∀ xs ∈ column, ∀ buf, Written (.option (.prim (.plain p))) xs src.mmap buf →
      (∃ x ∈ xs, x.isSome = true) → ∃ b, a.verdict (.whole _) q.1.decodable buf src.mmap = .ok b ∧
        ((∃ y, (∀ x ∈ xs, x = some y) ∧ b = a.keep (misread p)) ∨
          ((∃ x ∈ xs, ∃ x' ∈ xs, x' ≠ x) ∧ (b = false → ∀ x ∈ xs, x.filter a.keep = none))) := by
    intro xs _ buf hw hlive
    rcases Unwrap.cases hw hlive with ⟨y, hall, -, hspan⟩ | ⟨hdiffer, hne⟩
    · exact ⟨_, hspan _ _ a.keep a.op, Or.inl ⟨y, hall, rfl⟩⟩
    · obtain ⟨b, hb, hfalse⟩ := ha.verdict (.inner (.prim (.plain p))) rfl hw
      refine ⟨b, ?_, Or.inr ⟨hdiffer, fun hbfalse x hx => ?_⟩⟩
      · rw [← hb]
        cases buf with
        | compact sector count => exact absurd rfl (hne sector count)
        | basic sector count => rfl
        | detailed sector count min max => rfl
      · have hnone := hfalse hbfalse x hx
        cases x with
        | none => rfl
        | some y =>
          rw [Option.filter_eq_none_iff]
          intro z hz hk
          cases hz
          exact absurd hk (Bool.eq_false_iff.mp hnone)
  obtain ⟨kept, hkept, hiff⟩ := retained_iff h hcol htest
  have hkept : q.1.withMinMax (.whole _) q.2 a.keep a.op = .ok kept := hkept
  have hres : (a.mask (present p src) (.whole _)).resolve src.mask = .ok (a.iter q.1 (.whole _), kept.2) := by
    rw [a.resolve_eq _ hq, hkept]
    rfl
  exact ⟨_, hres, by rw [flatten_filterMap, ← hiff, probe_read a hcol hres kept.2]⟩

end

/-- A filter stacked on an unwrapped option of a plain number, be it a closure or a test of statistics, yields all that
it should exactly when every compact buffer whose item passes also has a header that passes when read as that number. -/
theorem exact_iff [Outcomes] [LawfulOutcomes] {src : Src} {column : List (List (Option (Prim.plain p).Val))}
    (hcol : src.Holds (.option (.prim (.plain p))) column) :
    (∀ keep : (Prim.plain p).Val → Bool, ∃ r,
      (Adapter.filter (present p src) (.whole (.prim (.plain p))) keep).resolve src.mask = .ok r ∧
        ((r.1.read r.2).filterMap Outcome.included? = column.flatten.filterMap (Option.filter keep) ↔
          Shown keep column)) ∧
      ∀ a : Probe (.prim (.plain p)), a.Safe → ∃ r, (a.mask (present p src) (.whole _)).resolve src.mask = .ok r ∧
        ((r.1.read r.2).filterMap Outcome.included? = column.flatten.filterMap (Option.filter a.keep) ↔
          Shown a.keep column) :=
  ⟨filter_exact_iff hcol, probe_exact_iff hcol⟩

section
attribute [local instance] documented documented_lawful

/-- Twice the word two: a test for one is right to find none, and a test for two finds neither. -/
theorem exact_iff_pair : ∃ (src : Src) (column : List (List (Option (Prim.plain (.uint .b4)).Val))),
    column = [[some (word 2), some (word 2)]] ∧ (∃ r,
      (Adapter.bitMatch (s := .prim (.plain (.uint .b4))) (present _ src) (.whole _) (word 1)).resolve [true] = .ok r ∧
        (r.1.read r.2).filterMap Outcome.included? = []) ∧ ∃ r,
      (Adapter.bitMatch (s := .prim (.plain (.uint .b4))) (present _ src) (.whole _) (word 2)).resolve [true] = .ok r ∧
        (r.1.read r.2).filterMap Outcome.included? ≠ [word 2, word 2] := by
  let src : Src := .sole (Bytes.zeros 8 ++ presence ++ Bytes.leBytes 8 4 ++ Bytes.leBytes 8 2)
    (.compact ⟨8, 32, by decide, by decide, by decide⟩ ⟨2, by decide, by decide⟩)
  have hcol : src.Holds (.option (.prim (.plain (.uint .b4)))) [[some (word 2), some (word 2)]] :=
    .cons ⟨⟨0, ⟨8, 32, by decide, by decide, by decide⟩, rfl, rfl⟩, by decide, show 2 < 2 ^ 61 by decide⟩ .nil
  have hsafe (x : (Prim.plain (.uint .b4)).Val) : (Probe.bitMatch x : Probe (.prim (.plain (.uint .b4)))).Safe :=
    ⟨Or.inr rfl, fun y hy => by cases hy⟩
  obtain ⟨r, hr, hone⟩ := (exact_iff hcol).2 (.bitMatch (word 1)) (hsafe _)
  obtain ⟨u, hu, htwo⟩ := (exact_iff hcol).2 (.bitMatch (word 2)) (hsafe _)
  refine ⟨src, _, rfl, ⟨r, hr, hone.mpr fun xs hxs y hy hk => ?_⟩, u, hu, fun hread => ?_⟩
  · rw [List.mem_singleton.mp hxs] at hy
    cases hy _ List.mem_cons_self
    exact absurd hk (by decide)
  · have hshown := htwo.mp hread _ List.mem_cons_self (word 2) (by simp) (by decide)
    exact absurd hshown (by decide)

end
end Unwrap
end Msca
