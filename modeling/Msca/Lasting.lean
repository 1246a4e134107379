import Msca.Snapshot

/-! Indices that last. The rows that a call has numbered stay where they are while segments join behind them, so every
later call, and every map of the rows, finds an item under the index that it was given first. -/
namespace Msca
set_option autoImplicit false
open Checked Numbering

section
variable {I : Type} [BEq I] [Unfiltered I] {w : Width}

/-- `Query::into_hash_map`. -/
def Query.intoHashMap (query : Query) : Except GetError (HashMap I (Unsigned w)) := do
  let rows ← Unfiltered.iter query
  intern rows HashMap.empty (Unsigned.ofNat? 0)

theorem Query.Yields.intoHashMap [EquivBEq I] {q : Query} {rows : List I} (hq : q.Yields rows) {m : HashMap I (Unsigned w)}
    (h : q.intoHashMap = .ok m) : Numbers m rows := by
  obtain ⟨yielded, hyielded, h⟩ := GetError.bind_eq_ok.mp h
  rw [hq.iter] at hyielded
  cases hyielded
  have hspec := intern_spec (Numbers.empty (I := I) (w := w)) rows (Nat.zero_le _)
  rw [List.nil_append, List.length_nil, Nat.zero_add, h] at hspec
  rcases hspec with ⟨-, m', hm', hnumbers⟩ | ⟨-, herror⟩
  · cases hm'
    exact hnumbers
  · cases herror

end

/-! ## Rows that stay -/

theorem Column.Grows.types {cs ds : List Column} (h : List.Forall₂ Column.Grows cs ds) : ds.map Column.ty = cs.map Column.ty := by
  induction h with
  | nil => rfl
  | cons hcol _ ih => rw [List.map_cons, List.map_cons, ih, hcol.ty]

theorem Registered.grows {m m' : Manifest} {name : String} {fs : Fields} (h : Registered m name fs) (hg : m.Grows m') :
    Registered m' name fs := by
  obtain ⟨e, he, hshape⟩ := h
  obtain ⟨e', he', hgrows⟩ := hg.schemas name e he
  exact ⟨e', he', hgrows.keys.trans hshape.keys, (Column.Grows.types hgrows.values).trans hshape.types⟩

section
variable [Extern] [Fs]

theorem Session.Step.commits {s t : Session} {e : Event} (h : Step s e t) : s.commits <+: t.commits := by
  cases h with
  | done => exact List.prefix_append _ _
  | refused => exact List.prefix_refl _

theorem Session.Reached.run {s t : Session} {es : List Event} (h : s.Reached) (hrun : Run Session.Step s es t) :
    t.Reached ∧ s.commits <+: t.commits := by
  obtain ⟨o, before, hstart, hbefore⟩ := h
  refine ⟨⟨o, before ++ es, hstart, Run.append_iff.mpr ⟨s, hbefore, hrun⟩⟩, ?_⟩
  refine hrun.invariant (I := fun r : Session => s.commits <+: r.commits) ?_ (List.prefix_refl _)
  exact fun _ _ _ hr hstep => hr.trans hstep.commits

variable {I : Type} [BEq I] [Unfiltered I] {w : Width} {contents : Commit → List I} {s : Session} {name : String}

omit [BEq I] [Unfiltered I] in
theorem Session.rows_prefix {t : Session} (h : s.commits <+: t.commits) : s.rows contents name <+: t.rows contents name := by
  obtain ⟨cs, hcs⟩ := h
  refine ⟨(cs.filter fun c => c.seg.feeds name).flatMap contents, ?_⟩
  rw [Session.rows, Session.rows, Session.fed, Session.fed, ← hcs, List.filter_append, List.flatMap_append]

variable [LawfulFs]

section
variable [EquivBEq I] [LawfulExtern] {items : List I} {order : List (I × Unsigned w) → List (I × Unsigned w)}
  {out : List (Unsigned w)} {d : Dataset}

/-- A call that returns numbers the requested items behind the committed rows and the unseen items. -/
theorem Contents.numbered (hc : Contents contents) (h : s.Reached) (horder : ∀ l, (order l).Perm l)
    (hrun : Dataset.getOrInsert order name items s.dataset = (.ok out, d)) :
    List.Forall₂ (fun x i => first (s.rows contents name ++ unseen (s.rows contents name) items) x = some i.val) items out := by
  obtain ⟨a, d₁, q, r, n, hschema, hq, hr, -, rfl⟩ := Dataset.getOrInsert_ok.mp hrun
  have hreached := h.schema hschema
  have hfresh := (Session.Consistent.reached hreached).fresh _ (List.mem_append_right _ (List.mem_singleton_self _))
  have hyields := hc.yields hreached (Dataset.schema_name hschema ▸ hfresh.1) hq
  rw [Session.rows, s.fed_schema, ← Session.rows] at hyields
  exact (hyields.plan horder hr).2.1

/-- A call that returns is a run: a registration, and the commit of the recovered items. -/
theorem Contents.performed (hc : Contents contents) (h : s.Reached) (horder : ∀ l, (order l).Perm l)
    (hlt : (unseen (s.rows contents name) items).length < 2 ^ 64)
    (hbits : BitsFit ((unseen (s.rows contents name) items).map Unfiltered.row))
    (hrun : Dataset.getOrInsert order name items s.dataset = (.ok out, d)) :
    ∃ es t, Run Session.Step s es t ∧ t.dataset = d := by
  obtain ⟨a, d₁, q, r, n, hschema, hq, hr, hwrite, rfl⟩ := Dataset.getOrInsert_ok.mp hrun
  have hreached := h.schema hschema
  have hmem : (⟨_, a⟩ : Handle) ∈ s.handles ++ [⟨_, a⟩] := List.mem_append_right _ (List.mem_singleton_self _)
  have hreg := ((Session.Consistent.reached hreached).fresh _ hmem).1
  rw [Dataset.schema_name hschema] at hreg
  have hyields := hc.yields hreached hreg hq
  rw [Session.rows, s.fed_schema, ← Session.rows] at hyields
  have hsub := recovered_sublist (hyields.plan horder hr).2.2
  have hitems : (r.2.map fun e => Unfiltered.row e.1) = (r.2.map Prod.fst).map (Unfiltered.row (I := I)) := by
    rw [List.map_map]
    rfl
  rw [hitems] at hwrite
  obtain ⟨acc, hpushed, hwrite⟩ := Accumulator.commit_ok hwrite
  have hobtained : Obtained (s.handles ++ [⟨_, a⟩]) acc ((r.2.map Prod.fst).map Unfiltered.row) :=
    .pushes hmem (by simpa using Nat.lt_of_le_of_lt hsub.length_le hlt) (hbits.mono (hsub.map _)) hpushed
  have hregister : Session.Step s ⟨.schema _ name, s.dataset.file.stream.script⟩ _ :=
    .done trivial (Eff.bind_ok hschema : Dataset.perform (.schema _ name) s.dataset = (.ok (.handle a), d₁))
  exact ⟨_, _, .cons hregister
    (.cons (.done (e := ⟨.data _, d₁.file.stream.script⟩) ⟨_, hobtained⟩ (Eff.bind_ok hwrite)) (.nil _)), rfl⟩

/-- After a call that returns, the requested items are numbered among the committed rows. -/
theorem Contents.settled (hc : Contents contents) (h : s.Reached) (horder : ∀ l, (order l).Perm l)
    (hlt : (unseen (s.rows contents name) items).length < 2 ^ 64)
    (hbits : BitsFit ((unseen (s.rows contents name) items).map Unfiltered.row))
    (hrun : Dataset.getOrInsert order name items s.dataset = (.ok out, d))
    (hword : (s.rows contents name).length + (unseen (s.rows contents name) items).length < 2 ^ 64) {t : Session}
    (ht : t.Reached) (hd : t.dataset = d) : Registered d.file.manifest name (Unfiltered.fields I) ∧
      List.Forall₂ (fun x i => first (t.rows contents name) x = some i.val) items out := by
  obtain ⟨t', fresh, ht', rfl, hreg, hrows, -, hall, hfresh⟩ := hc.returned h horder hlt hbits hrun
  have hsame : t.rows contents name = t'.rows contents name := by
    -- both are what a query yields
    have ⟨e, he, _⟩ := hreg
    obtain ⟨q, hq⟩ : ∃ q, t'.dataset.query name = .ok q := ⟨⟨t'.dataset.mmap, e⟩, by rw [Dataset.query, he]⟩
    have hiter := (hc.yields ht' hreg hq).iter
    rw [← hd] at hq
    rw [(hc.yields ht (hd ▸ hreg) hq).iter] at hiter
    exact List.map_injective_iff.mpr (fun _ _ h => Except.ok.inj h) (Except.ok.inj hiter)
  have hequal : List.Forall₂ (fun x y => (x == y) = true) (t.rows contents name)
      (s.rows contents name ++ unseen (s.rows contents name) items) := by
    rw [hsame, hrows]
    exact List.rel_append (List.forall₂_same.mpr fun _ _ => BEq.rfl) (hfresh hword)
  exact ⟨hreg, hall.imp fun x i hx => (first_of_forall₂ hequal x).trans hx⟩

end

/-! ## Indices over a run -/

/-- In `u` the indices `out` are still those of `items`: the rows there are equal to the items, no later call gives an
equal item another index or another item the same one, and a map of the rows holds the indices. -/
structure Lasting (name : String) (items : List I) (out : List (Unsigned w)) (u : Session) : Prop where
  rows : ∃ q, ∃ rows : List I, u.dataset.query name = .ok q ∧ Unfiltered.iter q = .ok (rows.map .ok) ∧
    List.Forall₂ (fun x i => ∃ y, rows[i.val]? = some y ∧ (y == x) = true) items out
  calls : ∀ {v : Width} (order : List (I × Unsigned v) → List (I × Unsigned v)) (others : List I) (indices : List (Unsigned v))
    (d : Dataset), (∀ l, (order l).Perm l) → Dataset.getOrInsert order name others u.dataset = (.ok indices, d) →
      ∀ (j k : Nat) (x y : I) (m : Unsigned w) (n : Unsigned v), items[j]? = some x → others[k]? = some y →
        out[j]? = some m → indices[k]? = some n → (m.val = n.val ↔ (x == y) = true)
  maps : ∀ {v : Width} (q : Query) (map : HashMap I (Unsigned v)), u.dataset.query name = .ok q → q.intoHashMap = .ok map →
    List.Forall₂ (fun x i => ∃ n, map.get? x = some n ∧ n.val = i.val) items out

variable [EquivBEq I] [LawfulExtern] {items : List I} {order : List (I × Unsigned w) → List (I × Unsigned w)}
  {out : List (Unsigned w)} {d : Dataset}

theorem Contents.lasting (hc : Contents contents) (h : s.Reached)
    (hreg : Registered s.dataset.file.manifest name (Unfiltered.fields I))
    (hall : List.Forall₂ (fun x i => first (s.rows contents name) x = some i.val) items out) : Lasting name items out s := by
  obtain ⟨e, he, hshape⟩ := hreg
  have hquery : s.dataset.query name = .ok ⟨s.dataset.mmap, e⟩ := by rw [Dataset.query, he]
  have hyields := hc.yields h ⟨e, he, hshape⟩ hquery
  refine ⟨⟨_, _, hquery, hyields.iter, hall.imp fun x i hx => first_eq_some hx⟩, ?_, ?_⟩
  · intro v order others indices d horder hrun j k x y m n hx hy hm hn
    have hlater := hc.numbered h horder hrun
    exact first_eq_iff (first_append (forall₂_getElem? hall hx hm) _) (forall₂_getElem? hlater hy hn)
  · intro v q map hq hmap
    rw [hquery] at hq
    cases hq
    refine hall.imp fun x i hx => ?_
    have hget := (hyields.intoHashMap hmap).get x
    rw [hx] at hget
    exact Option.map_eq_some_iff.mp hget

/-- However a session goes on after a call that returns, the indices the call gave last. -/
theorem getOrInsert_lasting (hc : Contents contents) (h : s.Reached) (horder : ∀ l, (order l).Perm l)
    (hlt : (unseen (s.rows contents name) items).length < 2 ^ 64)
    (hbits : BitsFit ((unseen (s.rows contents name) items).map Unfiltered.row))
    (hrun : Dataset.getOrInsert order name items s.dataset = (.ok out, d))
    (hword : (s.rows contents name).length + (unseen (s.rows contents name) items).length < 2 ^ 64) :
    ∃ es t, Run Session.Step s es t ∧ t.dataset = d ∧ ∀ es u, Run Session.Step t es u → Lasting name items out u := by
  obtain ⟨es, t, hcall, rfl⟩ := hc.performed h horder hlt hbits hrun
  obtain ⟨ht, -⟩ := h.run hcall
  obtain ⟨hreg, hall⟩ := hc.settled h horder hlt hbits hrun hword ht rfl
  refine ⟨es, t, hcall, rfl, fun es u hrun => ?_⟩
  obtain ⟨hu, hcommits⟩ := ht.run hrun
  have hgrows := (Session.Consistent.reached ht).grows (.reached hu) hcommits
  have hprefix : t.rows contents name <+: u.rows contents name := Session.rows_prefix hcommits
  obtain ⟨more, hmore⟩ := hprefix
  refine hc.lasting hu (hreg.grows hgrows) (hall.imp fun x i hx => ?_)
  rw [← hmore]
  exact first_append hx more

end

/-! ## A note behind two records -/

section
attribute [local instance] reference reference_lawful buffered buffered_lawful

theorem octets_note_launches :
    (Dataset.launch (pushOctets [octetOf 1, octetOf 2] >>= fun _ => Dataset.write noteBin)).isSome = true := by
  decide +kernel

/-- The indices of two records last when a note is written behind them. -/
theorem getOrInsert_lasting_note : ∃ (s t u : Session) (out : List (Unsigned .b4)), s.Reached ∧
    Dataset.getOrInsert id "s" [octetOf 1, octetOf 2, octetOf 1] s.dataset = (.ok out, t.dataset) ∧
      (∃ φ, Session.Step t ⟨.bin noteBin, φ⟩ u) ∧ Lasting "s" [octetOf 1, octetOf 2, octetOf 1] out u := by
  obtain ⟨⟨n, d₃⟩, hx⟩ := Option.isSome_iff_exists.mp octets_note_launches
  obtain ⟨d, hreached, hrun⟩ := Dataset.launch_eq_some hx
  obtain ⟨m, d₂, hpush, hnote⟩ := Eff.bind_eq_ok hrun
  obtain ⟨a, d₁, hschema, hwrite⟩ := Eff.bind_eq_ok hpush
  have hrows : Session.rows ⟨d, [], []⟩ Commit.octets "s" = [] := rfl
  have hunseen : unseen [] [octetOf 1, octetOf 2, octetOf 1] = [octetOf 1, octetOf 2] := by decide
  obtain ⟨out, hout⟩ := contents_octets.returns (w := .b4) hreached [octetOf 1, octetOf 2, octetOf 1] id
    (fun l => List.Perm.refl l) (by rw [hrows]; decide) (by rw [hrows]; decide) (by rw [hrows, hunseen]; decide) hschema hwrite
  obtain ⟨es, t, -, rfl, hlast⟩ := getOrInsert_lasting contents_octets hreached (fun l => List.Perm.refl l)
    (by rw [hrows, hunseen]; decide) (single_bitsFit _) hout (by rw [hrows, hunseen]; decide)
  have hstep : Session.Step t ⟨.bin noteBin, t.dataset.file.stream.script⟩ _ :=
    .done ⟨_, noteBin.obtained⟩ (Eff.bind_ok hnote : Dataset.perform (.bin noteBin) t.dataset = (.ok (.count n), d₃))
  exact ⟨_, t, _, out, hreached, hout, ⟨_, hstep⟩, hlast _ _ (.cons hstep (.nil _))⟩

end
end Msca
