import Msca.Table

/-! Columns written with options stacked on options. The manifest records one level of optionality however many are
declared, and the accumulator of a stack keeps an item that is there at every level, so such a column reads back at the
type with every stack collapsed. -/
namespace Msca
set_option autoImplicit false
open Checked

/-! ## Stacked options -/

/-- The option of an item type, which an option already is. -/
def Item.flatOption : Item → Item
  | .option t => .option t
  | t => .option t

/-- The item type with every stack of options collapsed into one. -/
def Item.collapse : Item → Item
  | .bool => .bool
  | .prim p => .prim p
  | .string => .string
  | .option t => t.collapse.flatOption
  | .vec t => .vec t.collapse

/-- `Option::flatten`, where there are two levels to flatten. -/
def Item.flatSome : (t : Item) → Option t.Val → t.flatOption.Val
  | .bool, x => x
  | .prim _, x => x
  | .string, x => x
  | .option _, x => x.join
  | .vec _, x => x

/-- What a value collapses to: an item is there if it is there at every level. -/
def Item.collapsed : (t : Item) → t.Val → t.collapse.Val
  | .bool, x => x
  | .prim _, x => x
  | .string, x => x
  | .option t, x => t.collapse.flatSome (x.map t.collapsed)
  | .vec t, xs => xs.map t.collapsed

theorem Item.decodable_flatOption {t : Item} (h : t.decodable = true) : t.flatOption.decodable = true := by
  cases t <;> first | rfl | exact h

theorem Item.decodable_collapse (t : Item) : t.collapse.decodable = true := by
  induction t with
  | bool => rfl
  | prim p => rfl
  | string => rfl
  | option t ih => exact decodable_flatOption ih
  | vec t ih => exact ih

theorem Item.type_flatOption (t : Item) : t.flatOption.type = t.type.flatOption := by
  cases t with
  | option t =>
    rw [flatOption, type]
    cases t.type <;> rfl
  | _ => rfl

/-- The recorded type does not tell a type from what it collapses to. -/
theorem Item.type_collapse (t : Item) : t.collapse.type = t.type := by
  induction t with
  | bool => rfl
  | prim p => rfl
  | string => rfl
  | option t ih => rw [collapse, type_flatOption, ih, type]
  | vec t ih => rw [collapse, type, ih, type]

/-! ## The bytes of a stack -/

theorem partsEnc_collapse {H : Type} [Serialize H] [LawfulSerialize H] (head : H) {t : Item} {ys : List t.Val}
    (h : t.image ys = t.collapse.image (ys.map t.collapsed)) :
    partsEnc head (t.acc ys) = partsEnc head (t.collapse.acc (ys.map t.collapsed)) := by
  have henc : enc (t.acc ys) = enc (t.collapse.acc (ys.map t.collapsed)) := h
  have hempty : Acc.isEmpty (t.acc ys) = Acc.isEmpty (t.collapse.acc (ys.map t.collapsed)) := by
    rw [Item.acc, Item.acc, LawfulAcc.isEmpty_collect, LawfulAcc.isEmpty_collect, List.isEmpty_map]
  rw [partsEnc, partsEnc, henc, hempty]

theorem map_eq_self {α : Type} {f : α → α} (h : ∀ x, f x = x) (xs : List α) : xs.map f = xs := by
  rw [show f = id from funext h, List.map_id]

/-- Two levels over one are as much as one. -/
theorem image_flatSome {α : Type} (t : Item) (f : α → t.Val) (xs : List (Option (Option α))) :
    t.flatOption.image ((xs.map Option.join).map fun x => t.flatSome (x.map f)) =
      t.flatOption.flatOption.image (xs.map fun x => t.flatOption.flatSome (x.map fun y => t.flatSome (y.map f))) := by
  rw [List.map_map]
  cases t <;> refine congrArg _ (List.map_congr_left fun x _ => ?_) <;> rcases x with _ | (_ | x) <;> rfl

/-- The accumulator of a type writes what that of the collapsed type would. -/
theorem Item.image_collapse : (t : Item) → (xs : List t.Val) → t.image xs = t.collapse.image (xs.map t.collapsed)
  | .bool, xs => congrArg Item.bool.image (map_eq_self (fun _ => rfl) xs).symm
  | .prim p, xs => congrArg (Item.prim p).image (map_eq_self (fun _ => rfl) xs).symm
  | .string, xs => congrArg Item.string.image (map_eq_self (fun _ => rfl) xs).symm
  | .option .bool, xs => congrArg (Item.option .bool).image (map_eq_self (fun x => by cases x <;> rfl) xs).symm
  | .option (.prim p), xs => congrArg (Item.option (.prim p)).image (map_eq_self (fun x => by cases x <;> rfl) xs).symm
  | .option .string, xs => congrArg (Item.option .string).image (map_eq_self (fun x => by cases x <;> rfl) xs).symm
  | .option (.option t), xs => by
    have hflat : (Item.option (.option t)).image xs = (Item.option t).image (xs.map Option.join) :=
      congrArg (enc (α := Flatten (OptAcc t.Val))) (flatten_collect xs)
    rw [hflat, (Item.option t).image_collapse]
    exact image_flatSome t.collapse t.collapsed xs
  | .option (.vec t), xs => by
    have hvals : xs.map (Item.option (.vec t)).collapsed = xs.map (Option.map (List.map t.collapsed)) := rfl
    have hlens : (xs.map (Option.map (List.map t.collapsed))).map (Option.map List.length) = xs.map (Option.map List.length) := by
      rw [List.map_map]
      exact List.map_congr_left fun x _ => by cases x <;> simp
    rw [image_optVec, partsEnc_collapse _ (t.image_collapse _), hvals]
    refine Eq.trans ?_ (image_optVec t.collapse _).symm
    rw [hlens, somes_map, List.map_flatten]
  | .vec t, xs => by
    have hlens : (xs.map (List.map t.collapsed)).map List.length = xs.map List.length := by
      rw [List.map_map]
      exact List.map_congr_left fun x _ => List.length_map _
    rw [image_vec, partsEnc_collapse _ (t.image_collapse _)]
    refine Eq.trans ?_ (image_vec t.collapse _).symm
    rw [show xs.map (Item.vec t).collapsed = xs.map (List.map t.collapsed) from rfl, hlens, List.map_flatten]

/-! ## Reading a collapsed column -/

/-- What a buffer of these items reads as: each of them, or one error if some level below a sequence is not there. -/
def Item.reads (t : Item) (xs : List t.Val) : Res (List t.Val) := if t.regular xs then .ok xs else .error (truncated 8 0)

/-- The outcomes in the place of a buffer. -/
def yielded {I : Type} : Res (List I) → List (Res I)
  | .ok xs => xs.map .ok
  | .error e => [.error e]

namespace Item
variable (t : Item) (h : t.decodable = true)

theorem readItems_image {xs : List t.Val} (hne : xs ≠ []) (hm : t.InMemory xs) :
    @readItems t.Val (t.decode h) xs.length (t.image xs) = (t.reads xs).map (List.map .ok) := by
  rw [reads]
  cases hr : t.regular xs with
  | true =>
    obtain ⟨c, c', hc, hy⟩ := t.opens_of_inMemory h hne hm hr
    rw [readItems, hc, ok_bind, takeItems_of_yields hy]
    rfl
  | false =>
    obtain ⟨n, hn⟩ := Item.size_acc hne hm
    rw [readItems, t.fails h xs n hn hr]
    rfl

theorem readOne_reads {x : t.Val} (hm : t.InMemory [x]) :
    @readOne t.Val (t.decode h) (t.image [x]) = if t.regular [x] then .ok x else .error (truncated 8 0) := by
  cases hr : t.regular [x] with
  | true => exact t.readOne_image h hm hr
  | false =>
    obtain ⟨n, hn⟩ := Item.size_acc (by simp) hm
    exact @readOne_eq_error t.Val (t.decode h) _ _ (t.one_fails h [x] hr) (t.fails h [x] n hn hr)

end Item

/-- A written buffer reads as the items its items collapse to. -/
theorem Written.collapses {t : Item} {xs : List t.Val} {mmap : Bytes} {buf : Manifest.Buffer} (hw : Written t xs mmap buf)
    (hfit : t.collapse.BitsFit (xs.map t.collapsed)) :
    @Src.buffer t.collapse.Val (t.collapse.decode t.decodable_collapse) mmap buf =
      yielded (t.collapse.reads (xs.map t.collapsed)) := by
  obtain ⟨offset, sector, hdesc, hslice⟩ := hw.described
  have hlt := hw.length_lt
  obtain ⟨count, hcount, hdescribe⟩ := Buffer.descriptor_eq_ok hdesc
  rw [Buffer.count_collect] at hcount
  have hbody : @Src.body t.collapse.Val (t.collapse.decode t.decodable_collapse) buf (enc (Buffer.collect xs)) =
      (t.collapse.reads (xs.map t.collapsed)).map (List.map .ok) := by
    rcases Buffer.collect_cases xs with ⟨rfl, heq⟩ | ⟨item, hitem, hall, heq⟩ | ⟨hdiffer, heq⟩
    · rw [heq] at hdescribe
      cases hdescribe
    · rw [heq] at hdescribe hlt ⊢
      cases hdescribe
      have himage : t.image [item] = t.collapse.image [t.collapsed item] := t.image_collapse [item]
      have hrep : xs.map t.collapsed = List.replicate count.get (t.collapsed item) := by
        rw [List.eq_replicate_iff.mpr ⟨hcount.symm, hall⟩, List.map_replicate]
      have hsub : [t.collapsed item].Sublist (xs.map t.collapsed) := List.singleton_sublist.mpr (List.mem_map_of_mem hitem)
      have hm : t.collapse.InMemory [t.collapsed item] := ⟨himage ▸ hlt, t.collapse.bitsFit_mono hsub hfit⟩
      have hsame : t.collapse.regular [t.collapsed item] = t.collapse.regular (xs.map t.collapsed) := by
        refine t.collapse.regular_congr fun y => ?_
        rw [hrep, List.mem_singleton, List.mem_replicate]
        exact ⟨fun hy => ⟨by have := count.pos; omega, hy⟩, fun hy => hy.2⟩
      change (do return List.replicate count.get (.ok (← @readOne t.collapse.Val (t.collapse.decode t.decodable_collapse)
        (t.image [item]))) : Res (List (Res t.collapse.Val))) = _
      rw [himage, t.collapse.readOne_reads t.decodable_collapse hm, hsame, Item.reads]
      cases t.collapse.regular (xs.map t.collapsed) with
      | true =>
        rw [hrep]
        exact congrArg Except.ok List.map_replicate.symm
      | false => rfl
    · obtain ⟨x, hx, -⟩ := hdiffer
      rw [heq] at hdescribe hlt ⊢
      have himage : t.image xs = t.collapse.image (xs.map t.collapsed) := t.image_collapse xs
      have hsome : xs.map t.collapsed ≠ [] := List.ne_nil_of_mem (List.mem_map_of_mem hx)
      have hitems := t.collapse.readItems_image t.decodable_collapse hsome ⟨himage ▸ hlt, hfit⟩
      rw [List.length_map, ← hcount, ← himage] at hitems
      rcases t.lawfulDescribe.1.describe_eq hdescribe with rfl | ⟨min, max, rfl⟩
      · exact hitems
      · exact hitems
  rw [Src.buffer, Item.describe_sector hdescribe, hslice, ok_bind, hbody]
  cases t.collapse.reads (xs.map t.collapsed) <;> rfl

/-! ## Columns of a dataset -/

/-- A record with its fields collapsed. -/
def Each.collapsed : {ts : List Item} → Row ts → Row (ts.map Item.collapse)
  | _, .nil => .nil
  | _, .cons x row => .cons (Item.collapsed _ x) row.collapsed

theorem Each.field?_collapsed {name : String} {t : Item} {keys : List String} (hkeys : keys.Nodup) {us : List Item} (row : Row us)
    {j : Nat} (hkey : keys[j]? = some name) (hj : j < us.length) (ht : (us.get ⟨j, hj⟩).collapse = t) :
    row.collapsed.field? name t keys = some (ht ▸ (us.get ⟨j, hj⟩).collapsed (row.get ⟨j, hj⟩)) := by
  induction row generalizing keys j with
  | nil => exact absurd hj (Nat.not_lt_zero j)
  | @cons u us x row ih =>
    cases keys with
    | nil => cases hkey
    | cons k keys =>
      obtain ⟨hk, hkeys⟩ := List.nodup_cons.mp hkeys
      cases j with
      | zero =>
        cases hkey
        subst ht
        rw [collapsed, field?, if_pos rfl]
        exact dif_pos rfl
      | succ j =>
        have hne : k ≠ name := fun h => hk (h ▸ List.mem_of_getElem? hkey)
        rw [collapsed, field?, if_neg hne]
        exact ih hkeys hkey (Nat.lt_of_succ_lt_succ hj) ht

section
variable [Extern] [Fs] [LawfulFs]

/-- `column` holds, segment by segment, what the fields under `label` collapse to. -/
def Pushes.Collapse (pushes : Pushes) (label : String) (t : Item) (column : List (List t.Val)) : Prop :=
  List.Forall₂ (fun p xs => p.2.map (fun row => row.collapsed.field? label t p.1.columns.keys) = xs.map some) pushes column

namespace Session.Consistent
variable {s : Session} {name : String} {e : Manifest.Schema}

theorem collapsed_block (h : s.Consistent) (he : s.dataset.file.manifest.schemas.get? name = some e) {c : Commit}
    (hc : c ∈ s.fed name) {p : (fs : Fields) × List (Row fs.types)} (hp : c.Filled p) {j : Nat} {label : String}
    (hkey : e.columns.keys[j]? = some label) {col : Column} (hcol : e.columns.values[j]? = some col) {t : Item}
    (ht : t.decodable = true) (hty : col.ty = t.type) {b : Manifest.Buffer} (hb : c.Column j b) :
    ∃ xs, p.2.map (fun row => row.collapsed.field? label t p.1.columns.keys) = xs.map some ∧
      (t.BitsFit xs → @Src.buffer t.Val (t.decode ht) s.dataset.mmap b = yielded (t.reads xs)) := by
  have hshape := h.shaped he hc hp
  have htypes := congrArg (fun l : List Ty => l[j]?) hshape.types
  have hj : j < p.1.types.length := by
    have hlen := congrArg List.length hshape.types
    have hlt := (List.getElem?_eq_some_iff.mp hcol).1
    simp only [List.length_map] at hlen
    omega
  simp only [List.getElem?_map, hcol, List.getElem?_eq_getElem hj, Option.map_some, Option.some.injEq] at htypes
  have htype : (p.1.types.get ⟨j, hj⟩).collapse.type = t.type :=
    (Item.type_collapse _).trans (htypes.symm.trans hty)
  have hsame := Item.type_inj _ _ (Item.decodable_collapse _) ht htype
  subst hsame
  have hnodup : p.1.columns.keys.Nodup := p.1.columns.keys_sorted.imp fun h => ne_of_lt h
  refine ⟨(p.2.map fun row => row.get ⟨j, hj⟩).map (p.1.types.get ⟨j, hj⟩).collapsed, ?_, fun hfit => ?_⟩
  · rw [List.map_map, List.map_map]
    exact List.map_congr_left fun row _ => Each.field?_collapsed hnodup row (hshape.keys ▸ hkey) hj rfl
  · exact (h.buffer_written (List.mem_filter.mp hc).1 hp hj hb).collapses hfit

/-- A column lists, segment by segment, buffers of what its fields collapse to. -/
theorem collapsed_column (h : s.Consistent) (he : s.dataset.file.manifest.schemas.get? name = some e)
    {pushes : Pushes} (hpushes : List.Forall₂ Commit.Filled (s.fed name) pushes) {j : Nat} {label : String}
    (hkey : e.columns.keys[j]? = some label) {col : Column} (hcol : e.columns.values[j]? = some col) {t : Item}
    (ht : t.decodable = true) (hty : col.ty = t.type) :
    ∃ column, pushes.Collapse label t column ∧ List.Forall₂ (fun xs b => t.BitsFit xs →
      @Src.buffer t.Val (t.decode ht) s.dataset.mmap b = yielded (t.reads xs)) column col.buffers.items := by
  have hblocks : ∀ {cs : List Commit}, (∀ c ∈ cs, c ∈ s.fed name) → ∀ {bs : List Manifest.Buffer},
      List.Forall₂ (Commit.Column j) cs bs → ∀ {ps : Pushes}, List.Forall₂ Commit.Filled cs ps →
        ∃ column, ps.Collapse label t column ∧ List.Forall₂ (fun xs b => t.BitsFit xs →
          @Src.buffer t.Val (t.decode ht) s.dataset.mmap b = yielded (t.reads xs)) column bs := by
    intro cs hcs bs hbs
    induction hbs with
    | nil =>
      intro ps hps
      cases hps
      exact ⟨[], .nil, .nil⟩
    | @cons c b cs bs hb _ ih =>
      intro ps hps
      cases hps with
      | cons hp hps =>
        obtain ⟨column, hcolumn, hreads⟩ := ih (fun c hc => hcs c (List.mem_cons_of_mem _ hc)) hps
        obtain ⟨xs, hxs, hread⟩ := h.collapsed_block he (hcs c List.mem_cons_self) hp hkey hcol ht hty hb
        exact ⟨xs :: column, .cons hxs hcolumn, .cons hread hreads⟩
  exact hblocks (fun _ hc => hc) (h.index.columns name e he j col hcol) hpushes

end Session.Consistent

omit [Extern] [LawfulFs] in
/-- The column of a registered field has the recorded type of the field. -/
theorem Registered.column {d : Dataset} {name : String} {fs : Fields} (h : Registered d.file.manifest name fs) {q : Query}
    (hq : d.query name = .ok q) {label : String} {u : Item} (hu : (label, u) ∈ fs.columns.items) :
    ∃ (j : Nat) (col : Column), q.schema.columns.keys[j]? = some label ∧ q.schema.columns.values[j]? = some col ∧
      q.schema.columns.get? label = some col ∧ col.ty = u.type := by
  obtain ⟨e, he, hshape⟩ := h
  obtain ⟨hget, -⟩ := Dataset.query_eq_ok hq
  cases he.symm.trans hget
  obtain ⟨j, hj⟩ := List.mem_iff_getElem?.mp hu
  have hkey : q.schema.columns.keys[j]? = some label := by
    rw [hshape.keys, OrdMap.keys, List.getElem?_map, hj]
    rfl
  have htype : (q.schema.columns.values.map Column.ty)[j]? = some u.type := by
    rw [hshape.types, Fields.types, OrdMap.values, List.getElem?_map, List.getElem?_map, hj]
    rfl
  rw [List.getElem?_map] at htype
  obtain ⟨col, hcol, hty⟩ := Option.map_eq_some_iff.mp htype
  exact ⟨j, col, hkey, hcol, OrdMap.get?_of_getElem? hkey hcol, hty⟩

/-- A column opens at the type its fields collapse to and at no other. There it reads, in commit order, what the fields
collapse to, and a segment that leaves some level below a sequence empty gives one error in the place of its items. -/
theorem Session.reads_collapsed [LawfulExtern] [Outcomes] {s : Session} (h : s.Reached) {name : String} {fs : Fields}
    (hreg : Registered s.dataset.file.manifest name fs) {q : Query} (hq : s.dataset.query name = .ok q) {label : String}
    {u : Item} (hu : (label, u) ∈ fs.columns.items) {pushes : Pushes} (hpushes : List.Forall₂ Commit.Filled (s.fed name) pushes) :
    (∀ (t : Item) (ht : t.decodable = true), t ≠ u.collapse → q.read t ht label = .error (.type t.type u.type)) ∧
      ∃ column, pushes.Collapse label u.collapse column ∧ ((∀ xs ∈ column, u.collapse.BitsFit xs) →
        q.read u.collapse u.decodable_collapse label =
          .ok (column.flatMap fun xs => (yielded (u.collapse.reads xs)).map Outcomes.ofResult)) := by
  obtain ⟨j, col, hkey, hcol, hget, hty⟩ := hreg.column hq hu
  obtain ⟨he, hmmap⟩ := Dataset.query_eq_ok hq
  constructor
  · intro t ht hne
    have hother : col.ty ≠ t.type := by
      intro heq
      exact hne (Item.type_inj _ _ ht u.decodable_collapse (heq.symm.trans (hty.trans u.type_collapse.symm)))
    unfold Query.read
    rw [hget]
    change (col.exact t >>= _) = _
    rw [Column.exact, if_neg hother, hty]
    rfl
  · obtain ⟨column, hcollapse, hbuffers⟩ := (Consistent.reached h).collapsed_column he hpushes hkey hcol u.decodable_collapse
      (hty.trans u.type_collapse.symm)
    refine ⟨column, hcollapse, fun hfit => Query.read_eq_ok.mpr ⟨col, hget, hty.trans u.type_collapse.symm, ?_⟩⟩
    rw [Src.intoIter, hmmap]
    clear hcollapse hcol hget
    generalize col.buffers.items = bs at hbuffers
    induction hbuffers with
    | nil => rfl
    | @cons xs b column bs hread _ ih =>
      have htail := ih fun ys hys => hfit ys (List.mem_cons_of_mem _ hys)
      rw [List.flatMap_cons, List.flatMap_cons, List.map_append, ← htail, hread (hfit xs List.mem_cons_self)]

end

/-! ## Flags in stacks -/

/-- Records of a flag under two options and a sequence of such flags. -/
def stacked : Fields where
  columns := ⟨[("deep", .option (.option .bool)), ("list", .vec (.option (.option .bool)))], by decide⟩
  ne := by simp

def stackedRows : List (Row stacked.types) :=
  [.cons (some none) (.cons [some none, none] .nil), .cons (some (some true)) (.cons [some (some true)] .nil)]

/-- A record without any flag. -/
def hollowRows : List (Row stacked.types) := [.cons none (.cons [] .nil)]

theorem stacked_bitsFit (rows : List (Row stacked.types)) : BitsFit rows := by
  rintro ⟨_ | _ | j, hj⟩
  · exact trivial
  · exact trivial
  · exact absurd hj (by change ¬ j + 2 < 2; omega)

section
variable [Extern] [Fs] [LawfulFs]

def stackedProgram : Eff Fault Dataset Unit := do
  let a ← Dataset.schema stacked "s"
  let _ ← a.commit stackedRows
  let _ ← a.commit hollowRows
  return ()

end

section
attribute [local instance] reference reference_lawful buffered buffered_lawful documented documented_lawful

theorem stacked_launches : (Dataset.launch stackedProgram).isSome = true := by
  decide +kernel

/-- Two segments of stacked flags, the second without any; and the first of them alone. -/
theorem stacked_sessions : ∃ s t : Session, s.Reached ∧ t.Reached ∧ Registered s.dataset.file.manifest "s" stacked ∧
    Registered t.dataset.file.manifest "s" stacked ∧ List.Forall₂ Commit.Filled (s.fed "s") [⟨stacked, stackedRows⟩] ∧
      List.Forall₂ Commit.Filled (t.fed "s") [⟨stacked, stackedRows⟩, ⟨stacked, hollowRows⟩] := by
  obtain ⟨⟨_, d⟩, hx⟩ := Option.isSome_iff_exists.mp stacked_launches
  obtain ⟨d₀, hreached, hrun⟩ := Dataset.launch_eq_some hx
  obtain ⟨a, d₁, hschema, hrun⟩ := Eff.bind_eq_ok hrun
  obtain ⟨m, d₂, hfirst, hrun⟩ := Eff.bind_eq_ok hrun
  obtain ⟨n, d₃, hsecond, -⟩ := Eff.bind_eq_ok hrun
  have h := hreached.schema hschema
  have hname : a.name = "s" := Dataset.schema_name hschema
  have hhandle : (⟨stacked, a⟩ : Handle) ∈ ([] ++ [⟨stacked, a⟩] : List Handle) := List.mem_singleton_self _
  obtain ⟨s, hs, hd, hhandles, hfed⟩ := h.pushed hhandle (by decide) (by decide) (stacked_bitsFit stackedRows) hfirst
  subst hd
  have hkept : (⟨stacked, a⟩ : Handle) ∈ s.handles := hhandles ▸ hhandle
  obtain ⟨t, ht, -, hhandles', hfed'⟩ := hs.pushed hkept (by decide) (by decide) (stacked_bitsFit hollowRows) hsecond
  have hnone := hfed [] (by rw [Session.fed_schema]; exact .nil)
  have hfresh := ((Session.Consistent.reached hs).fresh _ hkept).1
  have hfresh' := ((Session.Consistent.reached ht).fresh _ (hhandles' ▸ hkept)).1
  have hboth := hfed' _ hnone
  rw [hname] at hnone hboth hfresh hfresh'
  exact ⟨s, t, hs, ht, hfresh, hfresh', hnone, hboth⟩

/-- The lists of two records, and an error in the place of one that lists nothing. -/
theorem Session.reads_collapsed_stacked : ∃ (s : Session) (q : Query), s.Reached ∧ s.dataset.query "s" = .ok q ∧
    q.read (.vec (.option .bool)) rfl "list" =
      .ok [.included [none, none], .included [some true], .error (truncated 8 0)] := by
  obtain ⟨-, s, -, h, -, hreg, -, hpushes⟩ := stacked_sessions
  obtain ⟨e, he, hshape⟩ := hreg
  have hq : s.dataset.query "s" = .ok ⟨s.dataset.mmap, e⟩ := by rw [Dataset.query, he]
  have hmem : ("list", Item.vec (.option (.option .bool))) ∈ stacked.columns.items :=
    List.mem_cons_of_mem _ (List.mem_singleton_self _)
  obtain ⟨-, column, hcolumn, hread⟩ := Session.reads_collapsed h ⟨e, he, hshape⟩ hq hmem hpushes
  have hlists : column = [[[none, none], [some true]], [[]]] := by
    cases hcolumn with
    | cons hfirst hrest =>
      cases hrest with
      | cons hsecond hrest =>
        cases hrest
        have hinj := List.map_injective_iff.mpr (Option.some_injective (List (Option Bool)))
        exact congrArg₂ (fun xs ys => [xs, ys]) (hinj hfirst.symm) (hinj hsecond.symm)
  refine ⟨s, _, h, hq, (hread fun xs hxs => ?_).trans ?_⟩
  · rw [hlists] at hxs
    rcases List.mem_pair.mp hxs with rfl | rfl
    · exact (by decide : 3 < 2 ^ 61)
    · exact (by decide : 0 < 2 ^ 61)
  · rw [hlists]
    rfl

end
end Msca
