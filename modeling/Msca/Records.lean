import Msca.Collapse

/-! Unfiltered reads of records, as `#[derive(Read)]` expands them. Every named column is opened with nothing attached, and
the conjunction of all of them is read through the same composite a filtered read goes through. -/
namespace Msca
set_option autoImplicit false
open Checked

/-- The named fields of a record type behind the first, opened one after another and joined as they come. -/
def Query.legs (q : Query) : (fields : List (String × Item)) → (∀ f ∈ fields, f.2.decodable = true) →
    Except QueryError (Legs .mask (fields.map Prod.snd))
  | [], _ => .ok .nil
  | f :: fields, h => do
    let leg ← q.column f.2 (h f List.mem_cons_self) f.1
    let legs ← q.legs fields fun g hg => h g (List.mem_cons_of_mem _ hg)
    return .cons (.conjunct, leg) legs

/-- `Unfiltered::unfiltered`. What the composite makes of the opened columns is the inner result. -/
def Query.unfiltered [Outcomes] [Combine] (q : Query) (field : String × Item) (fields : List (String × Item))
    (h : ∀ f ∈ field :: fields, f.2.decodable = true) :
    Except QueryError (Res (Reader (field.2 :: fields.map Prod.snd))) := do
  let head ← q.column field.2 (h field List.mem_cons_self) field.1
  let legs ← q.legs fields fun g hg => h g (List.mem_cons_of_mem _ hg)
  return (⟨head, legs⟩ : Combination .mask field.2 (fields.map Prod.snd)).new

/-- Every level below a sequence is there in each column of the records. -/
def Regular {ts : List Item} (rows : List (Row ts)) : Prop :=
  ∀ j : Fin ts.length, (ts.get j).regular (rows.map fun row => row.get j) = true

theorem Regular.head {t : Item} {ts : List Item} {rows : List (Row (t :: ts))} (h : Regular rows) :
    t.regular (rows.map Each.head) = true := by
  refine Eq.trans (congrArg _ (List.map_congr_left fun row _ => ?_)) (h ⟨0, by simp⟩)
  cases row
  rfl

theorem Regular.tail {t : Item} {ts : List Item} {rows : List (Row (t :: ts))} (h : Regular rows) :
    Regular (rows.map Each.tail) := by
  intro j
  refine Eq.trans (congrArg _ ?_) (h j.succ)
  rw [List.map_map]
  refine List.map_congr_left fun row _ => ?_
  cases row
  rfl

theorem BitsFit.head {t : Item} {ts : List Item} {rows : List (Row (t :: ts))} (h : BitsFit rows) :
    t.BitsFit (rows.map Each.head) := by
  refine Eq.mp (congrArg _ (List.map_congr_left fun row _ => ?_)) (h ⟨0, by simp⟩)
  cases row
  rfl

theorem BitsFit.tail {t : Item} {ts : List Item} {rows : List (Row (t :: ts))} (h : BitsFit rows) :
    BitsFit (rows.map Each.tail) := by
  intro j
  refine Eq.mp (congrArg _ ?_) (h j.succ)
  rw [List.map_map]
  refine List.map_congr_left fun row _ => ?_
  cases row
  rfl

/-! ## One stream -/

section
variable [Outcomes] [LawfulOutcomes]

/-- A column whose buffers all read gives every item included. -/
theorem Src.read_column {t : Item} (h : t.decodable = true) {src : Src} {column : List (List t.Val)}
    (hreads : List.Forall₂ (fun xs b => @Src.buffer t.Val (t.decode h) src.mmap b = xs.map .ok) column src.buffers.items) :
    (Adapter.column src t h : Adapter .iter t).read src.mask = column.flatten.map Outcome.included := by
  rw [Adapter.read, Src.retained_mask]
  have hiter : @Src.intoIter t.Val (t.decode h) src.buffers.items src.mmap = column.flatten.map .ok := by
    generalize src.buffers.items = bs at hreads
    induction hreads with
    | nil => rfl
    | @cons xs b column bs hread _ ih =>
      rw [Src.intoIter, List.flatMap_cons, hread, List.flatten_cons, List.map_append]
      exact congrArg _ ih
  rw [hiter, List.map_map]
  exact List.map_congr_left fun x _ => LawfulOutcomes.ofResult_ok x

end

/-! ## All streams -/

/-- The slots of a record whose fields are all included. -/
def Each.included {ts : List Item} (row : Row ts) : Slots ts := row.map fun _ x => .included x

theorem Each.rebuild_included {R : Type} {ts : List Item} (row : Row ts) :
    (Each.included row).rebuild (R := R) = .ok (List.replicate ts.length true, row) := by
  induction row with
  | nil => rfl
  | cons x row ih =>
    rw [included, map, Slots.rebuild,
      show Slots.rebuild (Each.map (fun _ y => Outcome.included y) row) = (_ : Except (Outcome R) _) from ih]
    rfl

theorem Streams.gather_included {t : Item} {ts : List Item} (rows : List (Row (t :: ts))) :
    Streams.gather (t :: ts) (rows.map Each.included) =
      .cons ((rows.map Each.head).map .included) (Streams.gather ts ((rows.map Each.tail).map Each.included)) := by
  rw [gather, List.map_map, List.map_map, List.map_map, List.map_map]
  have hhead : Each.head ∘ Each.included = Outcome.included ∘ (Each.head : Row (t :: ts) → t.Val) := by
    funext row
    cases row
    rfl
  have htail : Each.tail ∘ Each.included = Each.included ∘ (Each.tail : Row (t :: ts) → Row ts) := by
    funext row
    cases row
    rfl
  rw [hhead, htail]

/-- Conjunctions hold where all their children do. -/
theorem Reader.verdict_conjunct [Combine] [LawfulCombine] (m n : Nat) :
    Reader.verdict (List.replicate m (Combine.combine .conjunct)) (List.replicate n true) = true := by
  have hfold : ∀ (m n : Nat), ((List.replicate m (Combine.combine .conjunct)).zip (List.replicate n true)).foldl
      (fun folded step => step.1 folded step.2) true = true := by
    have hand : Combine.combine .conjunct true true = true := by rw [LawfulCombine.combine_eq]; rfl
    intro m
    induction m with
    | zero => exact fun n => rfl
    | succ m ih =>
      intro n
      cases n with
      | zero => rfl
      | succ n =>
        rw [List.replicate_succ, List.replicate_succ, List.zip_cons_cons, List.foldl_cons]
        change List.foldl _ (Combine.combine .conjunct true true) _ = true
        rw [hand]
        exact ih n
  cases n with
  | zero => rfl
  | succ n => exact hfold m n

/-- The named fields of the records, collapsed, segment by segment. -/
def Pushes.Pick (pushes : Pushes) (names : List String) {ts : List Item} (blocks : List (List (Row ts))) : Prop :=
  List.Forall₂ (fun p rows => p.2.map (fun row => row.collapsed.pick p.1.columns.keys ts names) = rows.map some) pushes blocks

theorem Pushes.Collapse.cons {pushes : Pushes} {t : Item} {ts : List Item} {name : String} {names : List String}
    {column : List (List t.Val)} {rest : List (List (Row ts))} (hcolumn : pushes.Collapse name t column)
    (hrest : pushes.Pick names rest) : ∃ blocks : List (List (Row (t :: ts))), pushes.Pick (name :: names) blocks ∧
      blocks.map (List.map Each.head) = column ∧ blocks.map (List.map Each.tail) = rest := by
  induction hcolumn generalizing rest with
  | nil =>
    cases hrest
    exact ⟨[], .nil, rfl, rfl⟩
  | cons hxs _ ih =>
    cases hrest with
    | cons hfields hrest =>
      obtain ⟨blocks, hblocks, rfl, rfl⟩ := ih hrest
      rw [← Function.comp_def (fun row => Each.field? _ _ _ row), ← List.map_map] at hxs
      rw [← Function.comp_def (fun row => Each.pick _ row _ _), ← List.map_map] at hfields
      obtain ⟨rows, hrows, rfl, rfl⟩ := Each.pick_cons hxs hfields
      rw [List.map_map] at hrows
      exact ⟨rows :: blocks, .cons hrows hblocks, rfl, rfl⟩

section
variable [Extern] [Fs] [LawfulFs] [Outcomes] [LawfulOutcomes] {s : Session} {name : String} {fs : Fields} {q : Query}
  {pushes : Pushes}

/-- The column of a registered field opens, offers one buffer for each segment, and reads what its fields collapse to. -/
theorem Session.Consistent.field_collapsed (h : s.Consistent) (hreg : Registered s.dataset.file.manifest name fs)
    (hq : s.dataset.query name = .ok q) (hpushes : List.Forall₂ Commit.Filled (s.fed name) pushes) {label : String} {t : Item}
    (ht : t.decodable = true) (hfield : ∃ u, (label, u) ∈ fs.columns.items ∧ u.collapse = t) :
    ∃ src column, q.column t ht label = .ok (.column src t ht) ∧ src.mask = List.replicate pushes.length true ∧
      pushes.Collapse label t column ∧ ((∀ xs ∈ column, t.BitsFit xs ∧ t.regular xs = true) →
        (Adapter.column src t ht : Adapter .iter t).read src.mask = column.flatten.map .included) := by
  obtain ⟨u, hu, rfl⟩ := hfield
  obtain ⟨he, hmmap⟩ := Dataset.query_eq_ok hq
  obtain ⟨j, col, hkey, hcol, hget, hty⟩ := hreg.column hq hu
  have hty := hty.trans u.type_collapse.symm
  obtain ⟨column, hcollapse, hbuffers⟩ := h.collapsed_column he hpushes hkey hcol ht hty
  refine ⟨_, column, Query.column_eq ht hget hty, ?_, hcollapse, fun hall => Src.read_column ht ?_⟩
  · have hlen : pushes.length = col.buffers.items.length := hcollapse.length_eq.trans hbuffers.length_eq
    rw [Src.mask, hlen]
  · refine List.forall₂_iff_get.mpr ⟨hbuffers.length_eq, fun i hi hi' => ?_⟩
    obtain ⟨hfit, hregular⟩ := hall _ (List.getElem_mem hi)
    have hread := (List.forall₂_iff_get.mp hbuffers).2 i hi hi' hfit
    change @Src.buffer u.collapse.Val (u.collapse.decode ht) q.mmap _ = _
    rw [hmmap, hread]
    change yielded (u.collapse.reads column[i]) = _
    rw [Item.reads, if_pos hregular]
    rfl

/-- Opened fields leave the selection as it is; read over all segments they move through the records together. -/
theorem Session.Consistent.legs_collapsed (h : s.Consistent) (hreg : Registered s.dataset.file.manifest name fs)
    (hq : s.dataset.query name = .ok q) (hpushes : List.Forall₂ Commit.Filled (s.fed name) pushes)
    {fields : List (String × Item)} (hd : ∀ f ∈ fields, f.2.decodable = true)
    (hfields : ∀ f ∈ fields, ∃ u, (f.1, u) ∈ fs.columns.items ∧ u.collapse = f.2) :
    ∃ legs blocks, q.legs fields hd = .ok legs ∧ pushes.Pick (fields.map Prod.fst) blocks ∧
      ∀ mask before, ∃ r, legs.resolve mask before = .ok (r, before) ∧
        r.ops = List.replicate fields.length .conjunct ∧ ((∀ rows ∈ blocks, BitsFit rows ∧ Regular rows) →
          (r.map fun _ leg => leg.2.read (List.replicate pushes.length true)) =
            Streams.gather (fields.map Prod.snd) (blocks.flatten.map Each.included)) := by
  induction fields with
  | nil =>
    refine ⟨.nil, pushes.map fun p => p.2.map fun _ => .nil, rfl, ?_, fun mask before => ⟨.nil, rfl, rfl, fun _ => rfl⟩⟩
    unfold Pushes.Pick
    rw [List.forall₂_map_right_iff, List.forall₂_same]
    intro p _
    rw [List.map_map]
    rfl
  | cons f fields ih =>
    have hf := hd f List.mem_cons_self
    obtain ⟨src, column, hopen, hmask, hcolumn, hread⟩ :=
      h.field_collapsed hreg hq hpushes hf (hfields f List.mem_cons_self)
    obtain ⟨legs, tails, hlegs, htails, hresolve⟩ := ih (fun g hg => hd g (List.mem_cons_of_mem _ hg))
      fun g hg => hfields g (List.mem_cons_of_mem _ hg)
    obtain ⟨blocks, hblocks, rfl, rfl⟩ := hcolumn.cons htails
    refine ⟨.cons (.conjunct, .column src f.2 hf) legs, blocks, ?_, hblocks, fun mask before => ?_⟩
    · rw [Query.legs, hopen]
      change (q.legs fields _ >>= _) = _
      rw [hlegs]
      rfl
    obtain ⟨r, hr, hops, hreads⟩ := hresolve mask before
    refine ⟨.cons (.conjunct, .column src f.2 hf) r, bind_eq_ok.mpr ⟨_, rfl, bind_eq_ok.mpr ⟨_, hr, rfl⟩⟩, ?_, fun hall => ?_⟩
    · rw [Legs.ops, hops]
      rfl
    · have hhead := hread fun xs hxs => by
        obtain ⟨rows, hrows, rfl⟩ := List.mem_map.mp hxs
        exact ⟨(hall rows hrows).1.head, (hall rows hrows).2.head⟩
      have htail := hreads fun ys hys => by
        obtain ⟨rows, hrows, rfl⟩ := List.mem_map.mp hys
        exact ⟨(hall rows hrows).1.tail, (hall rows hrows).2.tail⟩
      rw [← List.map_flatten] at hhead htail
      rw [hmask] at hhead
      rw [Each.map, hhead, htail]
      exact (Streams.gather_included blocks.flatten).symm

/-- An unfiltered read yields, in commit order, every record committed for the schema and nothing else, with the fields that
the record type names, whatever stacks of options they were written with. -/
theorem Session.reads_records [LawfulExtern] [Combine] [LawfulCombine] (h : s.Reached)
    (hreg : Registered s.dataset.file.manifest name fs) (hq : s.dataset.query name = .ok q)
    (hpushes : List.Forall₂ Commit.Filled (s.fed name) pushes) {field : String × Item} {fields : List (String × Item)}
    {hd : ∀ f ∈ field :: fields, f.2.decodable = true}
    (hfields : ∀ f ∈ field :: fields, ∃ u, (f.1, u) ∈ fs.columns.items ∧ u.collapse = f.2) :
    ∃ blocks, pushes.Pick ((field :: fields).map Prod.fst) blocks ∧ ((∀ rows ∈ blocks, BitsFit rows ∧ Regular rows) →
      ∃ reader, q.unfiltered field fields hd = .ok (.ok reader) ∧ ∀ n, reader.nth n = (blocks.flatten[n]?).map .included) := by
  have hs := Consistent.reached h
  have hhead := hd field List.mem_cons_self
  obtain ⟨src, column, hopen, hmask, hcolumn, hread⟩ :=
    hs.field_collapsed hreg hq hpushes hhead (hfields field List.mem_cons_self)
  obtain ⟨legs, tails, hlegs, htails, hresolve⟩ := hs.legs_collapsed hreg hq hpushes
    (fun g hg => hd g (List.mem_cons_of_mem _ hg)) fun g hg => hfields g (List.mem_cons_of_mem _ hg)
  obtain ⟨blocks, hblocks, rfl, rfl⟩ := hcolumn.cons htails
  obtain ⟨r, hr, hops, hreads⟩ := hresolve src.mask src.mask
  refine ⟨blocks, hblocks, fun hall => ?_⟩
  have hfirst := hread fun xs hxs => by
    obtain ⟨rows, hrows, rfl⟩ := List.mem_map.mp hxs
    exact ⟨(hall rows hrows).1.head, (hall rows hrows).2.head⟩
  have hrest := hreads fun ys hys => by
    obtain ⟨rows, hrows, rfl⟩ := List.mem_map.mp hys
    exact ⟨(hall rows hrows).1.tail, (hall rows hrows).2.tail⟩
  rw [← List.map_flatten] at hfirst hrest
  let combination : Combination .iter field.2 (fields.map Prod.snd) := ⟨.column src field.2 hhead, r⟩
  have hnew : (⟨.column src field.2 hhead, legs⟩ : Combination .mask field.2 (fields.map Prod.snd)).new =
      .ok (combination.reader src.mask) :=
    bind_eq_ok.mpr ⟨_, bind_eq_ok.mpr ⟨_, rfl, bind_eq_ok.mpr ⟨_, hr, rfl⟩⟩, rfl⟩
  refine ⟨combination.reader src.mask, ?_, fun n => ?_⟩
  · rw [Query.unfiltered, hopen]
    change (q.legs fields _ >>= _) = _
    rw [hlegs, ← hnew]
    rfl
  · have hreader : combination.reader src.mask =
        ⟨Streams.gather _ (blocks.flatten.map Each.included), List.replicate fields.length (Combine.combine .conjunct)⟩ := by
      rw [Combination.reader, hfirst, hmask, hrest, hops, List.map_replicate, Streams.gather_included]
    rw [hreader, Reader.nth_gather, List.getElem?_map, Option.map_map]
    refine congrArg (fun f => Option.map f _) (funext fun row => ?_)
    rw [Function.comp_apply, Reader.assemble, Each.rebuild_included]
    exact if_pos (Reader.verdict_conjunct _ _)

end

section
attribute [local instance] reference reference_lawful buffered buffered_lawful documented documented_lawful nodes nodes_lawful

theorem stacked_decodable : ∀ f ∈ [("deep", Item.option .bool), ("list", .vec (.option .bool))], f.2.decodable = true := by
  decide

/-- Two records of stacked flags come back with their stacks collapsed. -/
theorem Session.reads_records_stacked : ∃ (s : Session) (q : Query) (reader : Reader [.option .bool, .vec (.option .bool)]),
    s.Reached ∧ s.dataset.query "s" = .ok q ∧
      q.unfiltered ("deep", .option .bool) [("list", .vec (.option .bool))] stacked_decodable = .ok (.ok reader) ∧
        ∀ n, reader.nth n = ([.cons none (.cons [none, none] .nil), .cons (some true) (.cons [some true] .nil)][n]?).map
          .included := by
  obtain ⟨s, -, h, -, hreg, -, hpushes, -⟩ := stacked_sessions
  obtain ⟨e, he, hshape⟩ := hreg
  have hq : s.dataset.query "s" = .ok ⟨s.dataset.mmap, e⟩ := by rw [Dataset.query, he]
  have hfields : ∀ f ∈ [("deep", Item.option .bool), ("list", .vec (.option .bool))],
      ∃ u, (f.1, u) ∈ stacked.columns.items ∧ u.collapse = f.2 := by
    intro f hf
    rcases List.mem_pair.mp hf with rfl | rfl
    · exact ⟨.option (.option .bool), List.mem_cons_self, rfl⟩
    · exact ⟨.vec (.option (.option .bool)), List.mem_cons_of_mem _ (List.mem_singleton_self _), rfl⟩
  obtain ⟨blocks, hblocks, hread⟩ := Session.reads_records h ⟨e, he, hshape⟩ hq hpushes hfields
  have hrows : blocks = [[.cons none (.cons [none, none] .nil), .cons (some true) (.cons [some true] .nil)]] := by
    cases hblocks with
    | cons hfirst hrest =>
      cases hrest
      have hinj := List.map_injective_iff.mpr (Option.some_injective (Row [.option .bool, .vec (.option .bool)]))
      exact congrArg (fun rows => [rows]) (hinj hfirst.symm)
  obtain ⟨reader, hreader, hnth⟩ := hread fun rows hrows' => by
    rw [hrows, List.mem_singleton] at hrows'
    subst hrows'
    constructor
    · rintro ⟨_ | _ | j, hj⟩
      · exact (by decide : 2 < 2 ^ 61)
      · exact (by decide : 3 < 2 ^ 61)
      · exact absurd hj (by change ¬ j + 2 < 2; omega)
    · rintro ⟨_ | _ | j, hj⟩
      · rfl
      · rfl
      · exact absurd hj (by change ¬ j + 2 < 2; omega)
  rw [hrows] at hnth
  exact ⟨s, _, reader, h, hq, hreader, hnth⟩

end
end Msca
