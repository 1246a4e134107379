import Msca.Table

/-! Joins across schemas. The keys of a join are what another chain yields, over a column of any schema of any dataset; the
join keeps the items that meet one of them, and the opposite join those that meet none, whatever the statistics of either
column say. -/
namespace Msca
set_option autoImplicit false
open Checked

/-- Some key compares equal with the item. -/
def meets {s : Scalar} (keys : List s.Val) (item : s.Val) : Bool :=
  keys.any fun key => PartialOrd.partialCmp key item == some .eq

/-- `Adapter::into_btree_set`: `found` is the set of the items that the chain yields, if it yields no error. -/
def Adapter.Collects [Outcomes] {s : Scalar} (keys : Adapter .mask s.item) (found : Res (BTreeSet s.Val)) : Prop :=
  ∀ r, keys.resolve keys.src.mask = .ok r → (∀ o ∈ r.1.read r.2, ∀ e, o ≠ .error e) →
    ∃ set, found = .ok set ∧ ∀ item, set.contains item = meets ((r.1.read r.2).filterMap Outcome.included?) item

/-- The chain yields no absent item. -/
def Adapter.Present {s : Scalar} (keys : Adapter .mask s.item) : Prop := ∀ y, s.present y = false → keys.accepts y = false

theorem Scalar.present_of_meets {s : Scalar} {key item : s.Val} (h : (PartialOrd.partialCmp key item == some .eq) = true)
    (hkey : s.present key = true) : s.present item = true := by
  cases s with
  | prim p => rfl
  | string => rfl
  | niche p =>
    cases key with
    | none => cases hkey
    | some key =>
      cases item with
      | none => cases h
      | some item => rfl

namespace Adapter
variable [Outcomes] [LawfulOutcomes] {t : Item} {s : Scalar} {source : Adapter .mask t} {keys : Adapter .mask s.item}
  {found : Res (BTreeSet s.Val)} {column : List (List source.base.Val)} {keyColumn : List (List keys.base.Val)}

/-- The keys of a join are the items that the other chain accepts, wherever they stand in its column. -/
theorem Collects.contains_eq (h : keys.Collects found) (hs : keys.Safe) (hcol : keys.src.Holds keys.base keyColumn)
    (hr : ∀ xs ∈ keyColumn, keys.base.regular xs = true) :
    ∃ set, found = .ok set ∧ ∀ item, set.contains item = meets (keyColumn.flatten.filterMap keys.value) item := by
  obtain ⟨r, hres, hread, herror⟩ := keys.read_exact hs hcol hr
  rw [← hread]
  exact h r hres herror

omit [LawfulOutcomes] [Outcomes] in
/-- Keys without absent ones admit no absent item. -/
theorem Present.meets_eq_false (h : keys.Present) {item : s.Val} (habsent : s.present item = false) :
    meets (keyColumn.flatten.filterMap keys.value) item = false := by
  rw [← Bool.not_eq_true, meets, List.any_eq_true]
  rintro ⟨key, hkey, hmeets⟩
  obtain ⟨x, -, hx⟩ := List.mem_filterMap.mp hkey
  have haccepts := (Option.filter_eq_some_iff.mp hx).2
  have hpresent : s.present key = true := by
    rw [← Bool.not_eq_false]
    intro hnot
    rw [h key hnot] at haccepts
    cases haccepts
  rw [Scalar.present_of_meets hmeets hpresent] at habsent
  cases habsent

/-- A join over a written column yields the items of its chain that meet a key. -/
theorem read_semiJoin (hs : source.Safe) (hin : source.InPlace) (hcol : source.src.Holds source.base column)
    (hr : ∀ xs ∈ column, source.base.regular xs = true) (hk : keys.Safe) (hpresent : keys.Present)
    (hkeyCol : keys.src.Holds keys.base keyColumn) (hkr : ∀ xs ∈ keyColumn, keys.base.regular xs = true)
    (hfound : keys.Collects found) (e : Evaluate t s.item) (ord : s.item.ord = true) :
    ∃ r, (Adapter.semiJoin source e ord found).resolve source.src.mask = .ok r ∧
      (r.1.read r.2).filterMap Outcome.included? = (column.flatten.filterMap source.value).filter (fun item =>
        e.evaluate item (meets (keyColumn.flatten.filterMap keys.value))) ∧ ∀ o ∈ r.1.read r.2, ∀ e, o ≠ .error e := by
  obtain ⟨set, rfl, hcontains⟩ := hfound.contains_eq hk hkeyCol hkr
  have hsafe : (Adapter.semiJoin source e ord (.ok set) : Adapter .mask t).Safe := by
    refine ⟨hs, hin, set, rfl, Or.inl rfl, fun y hy => ?_⟩
    exact (hcontains y).trans (hpresent.meets_eq_false hy)
  obtain ⟨r, hres, hread, herror⟩ := (Adapter.semiJoin source e ord (.ok set)).read_exact hsafe hcol hr
  refine ⟨r, hres, hread.trans ?_, herror⟩
  rw [List.filter_filterMap, ← funext hcontains]
  exact congrArg (fun f => List.filterMap f _) filter_value.symm

/-- The opposite join yields the items of its chain that meet no key. -/
theorem read_antiJoin (hs : source.Safe) (hin : source.InPlace) (hcol : source.src.Holds source.base column)
    (hr : ∀ xs ∈ column, source.base.regular xs = true) (hk : keys.Safe)
    (hkeyCol : keys.src.Holds keys.base keyColumn) (hkr : ∀ xs ∈ keyColumn, keys.base.regular xs = true)
    (hfound : keys.Collects found) (e : Evaluate t s.item) (ord : s.item.ord = true) :
    ∃ r, (Adapter.antiJoin source e ord found).resolve source.src.mask = .ok r ∧
      (r.1.read r.2).filterMap Outcome.included? = (column.flatten.filterMap source.value).filter (fun item =>
        e.evaluate item fun i => !meets (keyColumn.flatten.filterMap keys.value) i) ∧ ∀ o ∈ r.1.read r.2, ∀ e, o ≠ .error e := by
  obtain ⟨set, rfl, hcontains⟩ := hfound.contains_eq hk hkeyCol hkr
  have hsafe : (Adapter.antiJoin source e ord (.ok set) : Adapter .mask t).Safe := ⟨hs, hin, set, rfl⟩
  obtain ⟨r, hres, hread, herror⟩ := (Adapter.antiJoin source e ord (.ok set)).read_exact hsafe hcol hr
  refine ⟨r, hres, hread.trans ?_, herror⟩
  rw [List.filter_filterMap, ← funext hcontains]
  exact congrArg (fun f => List.filterMap f _) filter_value.symm

end Adapter

section
variable [Extern] [Fs] [LawfulFs]

/-- `column` holds, segment by segment, the fields under `label` of the pushed records. -/
def Pushes.Fields (pushes : Pushes) (label : String) (t : Item) (column : List (List t.Val)) : Prop :=
  List.Forall₂ (fun p xs => p.2.map (fun row => row.field? label t p.1.columns.keys) = xs.map some) pushes column

/-- Over the committed records of two schemas, of one session or of two, a join yields the items of its chain whose operand
meets an item of the key chain, and the opposite join those whose operand meets none, in commit order and without error. -/
theorem Session.joins [LawfulExtern] [Outcomes] [LawfulOutcomes] {a b : Session} (ha : a.Reached) (hb : b.Reached)
    {name keyName : String} {p q : Query} (hp : a.dataset.query name = .ok p) (hq : b.dataset.query keyName = .ok q)
    {pushes keyPushes : Pushes} (hpushes : List.Forall₂ Commit.Filled (a.fed name) pushes)
    (hkeyPushes : List.Forall₂ Commit.Filled (b.fed keyName) keyPushes)
    (hdec : ∀ c ∈ a.fed name, ∀ j, c.Decodable j) (hkeyDec : ∀ c ∈ b.fed keyName, ∀ j, c.Decodable j) {t : Item} {s : Scalar}
    {source : Adapter .mask t} {keys : Adapter .mask s.item} {label keyLabel : String} (hopen : source.Opened p label)
    (hkeyOpen : keys.Opened q keyLabel) (hsimple : source.base.simple = true) (hkeySimple : keys.base.simple = true)
    (hsafe : source.Safe) (hin : source.InPlace) (hkeySafe : keys.Safe) {found : Res (BTreeSet s.Val)}
    (hfound : keys.Collects found) (e : Evaluate t s.item) (ord : s.item.ord = true) :
    ∃ column keyColumn, pushes.Fields label source.base column ∧ keyPushes.Fields keyLabel keys.base keyColumn ∧
      (keys.Present → ∃ r, (Adapter.semiJoin source e ord found).resolve source.src.mask = .ok r ∧
        (r.1.read r.2).filterMap Outcome.included? = (column.flatten.filterMap source.value).filter (fun item =>
          e.evaluate item (meets (keyColumn.flatten.filterMap keys.value))) ∧ ∀ o ∈ r.1.read r.2, ∀ e, o ≠ .error e) ∧
      ∃ r, (Adapter.antiJoin source e ord found).resolve source.src.mask = .ok r ∧
        (r.1.read r.2).filterMap Outcome.included? = (column.flatten.filterMap source.value).filter (fun item =>
          e.evaluate item fun i => !meets (keyColumn.flatten.filterMap keys.value) i) ∧
            ∀ o ∈ r.1.read r.2, ∀ e, o ≠ .error e := by
  obtain ⟨column, hcol, hfields⟩ := (Consistent.reached ha).opened_holds hp hpushes hdec hopen
  obtain ⟨keyColumn, hkeyCol, hkeyFields⟩ := (Consistent.reached hb).opened_holds hq hkeyPushes hkeyDec hkeyOpen
  have hr : ∀ xs ∈ column, source.base.regular xs = true := fun xs _ => Item.regular_of_simple hsimple xs
  have hkr : ∀ xs ∈ keyColumn, keys.base.regular xs = true := fun xs _ => Item.regular_of_simple hkeySimple xs
  exact ⟨column, keyColumn, hfields, hkeyFields,
    fun hpresent => Adapter.read_semiJoin hsafe hin hcol hr hkeySafe hpresent hkeyCol hkr hfound e ord,
    Adapter.read_antiJoin hsafe hin hcol hr hkeySafe hkeyCol hkr hfound e ord⟩

end

/-! ## Names -/

section
attribute [local instance] reference reference_lawful buffered buffered_lawful documented documented_lawful

def namedRows : List (Row flagged.types) :=
  [.cons true (.cons (some "ab") .nil), .cons false (.cons none .nil), .cons true (.cons (some "cd") .nil)]

def namedTable : Eff Fault Dataset Unit := do
  let a ← Dataset.schema flagged "s"
  let _ ← a.commit namedRows
  return ()

theorem namedTable_column : (Dataset.launch namedTable).map (fun p => (p.2.file.manifest.schemas.get? "s").map fun e =>
    (e.columns.get? "name").map Column.ty) = some (some (some (.option .string))) := by
  decide +kernel

theorem names_decodable : (Item.option .string).decodable = true := rfl

/-- The names from `"b"` on. -/
def lateNames (src : Src) : Adapter .mask .string :=
  .range (s := .string) (.isSome (.column src (.option .string) names_decodable)) (.whole _) ⟨.included "b", .unbounded⟩

theorem named_table : ∃ (s : Session) (q : Query) (src : Src), s.Reached ∧ s.dataset.query "s" = .ok q ∧
    q.column (.option .string) rfl "name" = .ok (.column src _ rfl) ∧
      List.Forall₂ Commit.Filled (s.fed "s") [⟨flagged, namedRows⟩] ∧ ∀ c ∈ s.fed "s", ∀ j, c.Decodable j := by
  obtain ⟨d, t, _, d', hnew, hrun, hcolumn⟩ := Dataset.launch_map namedTable_column
  have hreached := Session.Reached.launched hnew
  obtain ⟨a, d₁, hschema, hrun⟩ := Eff.bind_eq_ok hrun
  obtain ⟨m, d₂, hdata, hrun⟩ := Eff.bind_eq_ok hrun
  cases hrun
  have hname : a.name = "s" := Dataset.schema_name hschema
  have hbits : BitsFit namedRows := by
    rintro ⟨_ | _ | j, hj⟩
    · exact (by decide : 3 < 2 ^ 61)
    · exact trivial
    · exact absurd hj (by change ¬ j + 2 < 2; omega)
  obtain ⟨s, hs, hd, -, hfed⟩ := (hreached.schema hschema).pushed (List.mem_singleton_self _) (by decide) (by decide) hbits hdata
  have hpushes := hfed [] (by rw [Session.fed_schema]; exact .nil)
  rw [hname] at hpushes
  subst hd
  obtain ⟨e, he, hentry⟩ := Option.map_eq_some_iff.mp hcolumn
  obtain ⟨col, hcol, hty⟩ := Option.map_eq_some_iff.mp hentry
  refine ⟨s, ⟨s.dataset.mmap, e⟩, _, hs, by rw [Dataset.query, he], Query.column_eq rfl hcol hty, hpushes, ?_⟩
  intro c hc j
  obtain ⟨c', cs, ⟨a', hseg, -⟩, hrest, hfeds⟩ := List.forall₂_cons_right_iff.mp hpushes
  cases List.forall₂_nil_right_iff.mp hrest
  rw [hfeds, List.mem_singleton] at hc
  subst hc
  rw [Commit.Decodable, hseg]
  intro hj
  rcases j with _ | _ | j
  · rfl
  · rfl
  · exact absurd hj (by change ¬ j + 2 < 2; omega)

theorem named_column {column : List (List (Option String))}
    (h : Pushes.Fields [⟨flagged, namedRows⟩] "name" (.option .string) column) : column = [[some "ab", none, some "cd"]] := by
  cases h with
  | cons hfirst hrest =>
    cases hrest
    have hinj := List.map_injective_iff.mpr (Option.some_injective (Option String))
    exact congrArg (fun xs => [xs]) (hinj hfirst.symm)

/-- The names that are among those from `"b"` on, and the names that are not. -/
theorem Session.joins_names : ∃ (s : Session) (src : Src) (found : Res (@BTreeSet String stringPartialOrd)) (r r' : _), s.Reached ∧
    (lateNames src).Collects (s := .string) found ∧
      (Adapter.semiJoin (s := .string) (.column src (.option .string) rfl) (.inner _) rfl found).resolve src.mask = .ok r ∧
      (Adapter.antiJoin (j := .string) (.column src (.option .string) rfl) (.inner _) rfl found).resolve src.mask = .ok r' ∧
        (r.1.read r.2).filterMap Outcome.included? = [some "cd"] ∧
          (r'.1.read r'.2).filterMap Outcome.included? = [some "ab"] := by
  obtain ⟨s, q, src, h, hq, hopen, hpushes, hdec⟩ := named_table
  have hsafe : (lateNames src).Safe := ⟨trivial, Or.inr rfl, Or.inl rfl, fun y hy => by cases hy⟩
  have hkeys : (lateNames src).Opened q "name" := hopen
  have hcollects : (lateNames src).Collects (s := .string) (.ok (Scalar.key .string "cd")) := by
    intro r hr _
    obtain ⟨column, hcol, hfields⟩ := (Session.Consistent.reached h).opened_holds hq hpushes hdec hkeys
    obtain ⟨r', hr', hread, -⟩ := (lateNames src).read_exact hsafe hcol fun _ _ => rfl
    cases hr.symm.trans hr'
    rw [hread, named_column hfields]
    exact ⟨_, rfl, fun item => rfl⟩
  have hsource : (Adapter.column src (.option .string) rfl : Adapter .mask _).Opened q "name" := hopen
  have hpresent : (lateNames src).Present (s := .string) := fun y hy => by cases hy
  obtain ⟨column, keyColumn, hfields, hkeyFields, hjoin, r', hr', hanti, -⟩ :=
    Session.joins h h hq hq hpushes hpushes hdec hdec hsource hkeys rfl rfl trivial (Or.inl rfl) hsafe hcollects (.inner _) rfl
  obtain ⟨r, hr, hsemi, -⟩ := hjoin hpresent
  rw [named_column hfields, named_column hkeyFields] at hsemi hanti
  exact ⟨s, src, _, r, r', h, hcollects, hr, hr', hsemi, hanti⟩

end
end Msca
