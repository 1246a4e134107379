import Msca.Coordinate
import Msca.Source

/-! What a dataset reads back: the items of a column are those pushed into the accumulators committed
for its schema, in commit order, and a binary segment is the bytes pushed into it. -/
namespace Msca
set_option autoImplicit false
open Checked

/-! ## Column types -/

/-- Fixed-width primitives, text, sequences of fixed-width items, and options of these. -/
def Item.simple : Item → Bool
  | .bool => true
  | .prim _ => true
  | .string => true
  | .vec t => t.flat
  | .option .bool => true
  | .option (.prim _) => true
  | .option .string => true
  | .option (.vec t) => t.flat
  | .option (.option _) => false

theorem Item.decodable_of_flat {t : Item} (h : t.flat = true) : t.decodable = true := by
  rcases t with _ | _ | _ | (_ | (_ | _) | _ | _ | _) | _ <;> first | rfl | cases h

theorem Item.decodable_of_simple {t : Item} (h : t.simple = true) : t.decodable = true := by
  rcases t with _ | _ | _ | (_ | _ | _ | _ | t) | t
  all_goals first | rfl | cases h | exact decodable_of_flat (t := t) h

theorem Item.regular_of_simple {t : Item} (h : t.simple = true) (xs : List t.Val) : t.regular xs = true := by
  rcases t with _ | _ | _ | (_ | _ | _ | _ | t) | t
  all_goals first | rfl | cases h | exact Bool.or_eq_true_iff.mpr (Or.inl h)

theorem Width.bytes_inj {v w : Width} (h : v.bytes.toUInt8 = w.bytes.toUInt8) : v = w := by
  cases v <;> cases w <;> first | rfl | exact absurd h (by decide)

theorem Prim.type_inj {p q : Prim} (h : p.type = q.type) : p = q := by
  rcases p with (v | v | _ | _) | (v | v | _) <;> rcases q with (w | w | _ | _) | (w | w | _)
  all_goals simp only [Prim.type, Ty.number.injEq, Number.mk.injEq, reduceCtorEq, true_and, false_and] at h
  all_goals first | rfl | rw [Width.bytes_inj h] | exact absurd h (by decide)

theorem Item.type_option {t : Item} (h : (Item.option t).decodable = true) : (Item.option t).type = .option t.type := by
  rcases t with _ | ((v | v | _ | _) | (v | v | _)) | _ | _ | _ <;> first | rfl | cases h

theorem Item.decodable_of_option {t : Item} (h : (Item.option t).decodable = true) : t.decodable = true := by
  rcases t with _ | _ | _ | _ | _ <;> first | rfl | exact h | cases h

/-- The kind of a recorded type. -/
def Ty.kind : Ty → Nat
  | .bool => 0
  | .char => 1
  | .number _ => 1
  | .option _ => 2
  | .string => 3
  | .sequence _ => 4

def Item.kind : Item → Nat
  | .bool => 0
  | .prim _ => 1
  | .option _ => 2
  | .string => 3
  | .vec _ => 4

theorem Item.kind_type {t : Item} (h : t.decodable = true) : t.type.kind = t.kind := by
  cases t with
  | bool => rfl
  | prim p => rcases p with (v | v | _ | _) | (v | v | _) <;> rfl
  | string => rfl
  | option t => rw [Item.type_option h, Ty.kind, Item.kind]
  | vec t => rfl

/-- A recorded type belongs to one decodable item type. -/
theorem Item.type_inj (t : Item) : ∀ u : Item, t.decodable = true → u.decodable = true → t.type = u.type → t = u := by
  have hkind : ∀ t u : Item, t.decodable = true → u.decodable = true → t.type = u.type → t.kind = u.kind := by
    intro t u ht hu h
    rw [← kind_type ht, ← kind_type hu, h]
  induction t with
  | bool =>
    intro u ht hu h
    cases u with
    | bool => rfl
    | _ => cases hkind _ _ ht hu h
  | prim p =>
    intro u ht hu h
    cases u with
    | prim q => rw [Prim.type_inj (show p.type = q.type from h)]
    | _ => cases hkind _ _ ht hu h
  | string =>
    intro u ht hu h
    cases u with
    | string => rfl
    | _ => cases hkind _ _ ht hu h
  | option t ih =>
    intro u ht hu h
    cases u with
    | option u =>
      rw [type_option ht, type_option hu] at h
      rw [ih u (decodable_of_option ht) (decodable_of_option hu) (Ty.option.inj h)]
    | _ => cases hkind _ _ ht hu h
  | vec t ih =>
    intro u ht hu h
    cases u with
    | vec u => rw [ih u ht hu (Ty.sequence.inj h)]
    | _ => cases hkind _ _ ht hu h

section
variable [Extern] [Fs] [LawfulFs]

/-! ## Through the map -/

namespace Session.Consistent
variable {s : Session}

theorem slice (h : s.Consistent) {c : Commit} (hc : c ∈ s.commits) (hpay : c.seg.payload = true) {sector : Sector}
    (habove : c.start ≤ sector.offset + HEADER)
    (hinside : sector.offset + HEADER - c.start + sector.size + 8 ≤ c.image.length) :
    sector.slice s.dataset.mmap = .ok (Bytes.slice c.image (sector.offset + HEADER - c.start) sector.size) := by
  have hbelow := h.stored.below
  have hlimit := h.stored.end_lt
  have hmap := h.map_le
  have hstop := h.mapped c hc hpay
  have hstart := (h.bounds c hc).1
  rw [Commit.stop] at hstop
  rw [HEADER] at hmap hstop hstart habove hinside ⊢
  have hlen : s.dataset.mmap.length = s.dataset.map := Bytes.slice_length (by rw [HEADER]; omega)
  rw [Sector.slice_of_le (by omega) (by omega), Dataset.mmap, Bytes.slice_slice (by omega), HEADER,
    ← h.stored.stored c hc, Bytes.slice_slice (by omega)]
  congr 2
  omega

omit [LawfulFs] in
theorem registered (h : s.Consistent) {c : Commit} (hc : c ∈ s.commits) {fs : Fields} {a : Accumulator fs}
    (hseg : c.seg = .data a) : Registered s.dataset.file.manifest a.name fs := by
  have hkeep := h.journal.invariant_labels
    (I := fun cs u => HEADER ≤ u.1 ∧ ∀ c ∈ cs, ∀ (fs : Fields) (a : Accumulator fs), c.seg = .data a → Registered u.2 a.name fs)
    (k := []) ?_ ⟨Nat.le_refl _, by simp⟩
  · exact hkeep.2 c hc fs a hseg
  · rintro cs u c t ⟨hlo, hcs⟩ ⟨happend, hsound⟩
    refine ⟨Nat.le_trans hlo (Append.bounds (Run.cons happend (Run.nil t))).1, ?_⟩
    intro d hd fs a hseg
    rcases List.mem_append.mp hd with hd | hd
    · exact (hcs d hd fs a hseg).append happend hsound hlo
    · rw [List.mem_singleton.mp hd] at hseg
      have hdata := hsound
      rw [hseg] at hdata
      obtain ⟨e, -, he, hshape, -⟩ := hdata
      exact Registered.append ⟨e, he, hshape⟩ happend hsound hlo

end Session.Consistent

/-! ## Columns -/

namespace Commit

/-- The items pushed for column `j` into the committed accumulator. -/
def Pushed (j : Nat) (t : Item) (c : Commit) (items : List t.Val) : Prop :=
  match c.seg with
  | @Seg.data fs a => ∃ (rows : List (Row fs.types)) (hj : j < fs.types.length) (ht : fs.types.get ⟨j, hj⟩ = t),
      a.data = Composite.collect rows ∧ items = rows.map fun row => ht ▸ row.get ⟨j, hj⟩
  | _ => False

/-- The items of column `j` can be decoded. -/
def Decodable (j : Nat) (c : Commit) : Prop :=
  match c.seg with
  | @Seg.data fs _ => ∀ hj : j < fs.types.length, (fs.types.get ⟨j, hj⟩).decodable = true
  | _ => True

end Commit

namespace Session
variable {s : Session}

theorem Consistent.buffer_reads (h : s.Consistent) {name : String} {e : Manifest.Schema}
    (he : s.dataset.file.manifest.schemas.get? name = some e) {j : Nat} {col : Column}
    (hcol : e.columns.values[j]? = some col) {t : Item} (ht : t.simple = true) (hty : col.ty = t.type) {c : Commit}
    (hc : c ∈ s.fed name) (hdec : c.Decodable j) {b : Manifest.Buffer} (hb : c.Column j b) :
    ∃ items, c.Pushed j t items ∧
      @Src.buffer t.Val (t.decode (Item.decodable_of_simple ht)) s.dataset.mmap b = items.map .ok := by
  obtain ⟨hmem, hfeeds⟩ := List.mem_filter.mp hc
  obtain ⟨m, hsound⟩ := h.sound c hmem
  unfold Commit.Pushed
  unfold Commit.Column at hb
  unfold Commit.Decodable at hdec
  cases hseg : c.seg with
  | schema s' =>
    rw [hseg] at hfeeds
    cases hfeeds
  | bin b' =>
    rw [hseg] at hfeeds
    cases hfeeds
  | @data fs a =>
    rw [hseg] at hsound hb hdec hfeeds
    obtain ⟨-, rows, -, -, hdata, hne, -, hbits⟩ := hsound
    obtain ⟨hj, hdesc⟩ := hb
    obtain ⟨e', he', hshape⟩ := h.registered hmem hseg
    rw [beq_iff_eq.mp hfeeds, he] at he'
    cases he'
    have htype : (fs.types.get ⟨j, hj⟩).type = t.type := by
      have htypes := congrArg (fun l : List Ty => l[j]?) hshape.types
      simp only [List.getElem?_map, hcol, List.getElem?_eq_getElem hj, Option.map_some, Option.some.injEq] at htypes
      rw [← hty, htypes]
      rfl
    have hsame := Item.type_inj _ _ (hdec hj) (Item.decodable_of_simple ht) htype
    subst hsame
    refine ⟨rows.map fun row => row.get ⟨j, hj⟩, ⟨rows, hj, rfl, hdata, rfl⟩, ?_⟩
    have hcollect : a.data.get ⟨j, hj⟩ = Buffer.collect (rows.map fun row => row.get ⟨j, hj⟩) := by
      rw [hdata]
      exact Composite.get_collect rows ⟨j, hj⟩
    obtain ⟨offset, sector, hdescriptor⟩ := hdesc.described
    have hslice := h.slice hmem (by rw [hseg]; rfl) hdesc.above hdesc.inside
    have hstop := (h.bounds c hmem).2
    have hlimit := h.stored.end_lt
    have hinside := hdesc.inside
    have hlen : (Bytes.slice c.image (b.sector.offset + HEADER - c.start) b.sector.size).length = b.sector.size :=
      Bytes.slice_length (by omega)
    rw [Commit.stop] at hstop
    rw [hdesc.slice] at hslice hlen
    rw [hcollect] at hslice hlen hdescriptor
    have hbody := Item.body_collect _ (Item.decodable_of_simple ht) (by simpa using hne) hdescriptor (by omega)
      (hbits ⟨j, hj⟩) fun ys _ _ => Item.regular_of_simple ht ys
    rw [Src.buffer, hslice, ok_bind, hbody]

theorem Consistent.column_reads (h : s.Consistent) {name : String} {e : Manifest.Schema}
    (he : s.dataset.file.manifest.schemas.get? name = some e) {j : Nat} {col : Column}
    (hcol : e.columns.values[j]? = some col) {t : Item} (ht : t.simple = true) (hty : col.ty = t.type)
    {cs : List Commit} {bs : List Manifest.Buffer} (hall : List.Forall₂ (Commit.Column j) cs bs)
    (hcs : ∀ c ∈ cs, c ∈ s.fed name ∧ c.Decodable j) :
    ∃ items : List (List t.Val), List.Forall₂ (Commit.Pushed j t) cs items ∧
      @Src.intoIter t.Val (t.decode (Item.decodable_of_simple ht)) bs s.dataset.mmap = items.flatten.map .ok := by
  induction hall with
  | nil => exact ⟨[], List.Forall₂.nil, rfl⟩
  | @cons c b cs bs hb _ ih =>
    obtain ⟨hc, hdec⟩ := hcs c List.mem_cons_self
    obtain ⟨items, hpushed, hread⟩ := h.buffer_reads he hcol ht hty hc hdec hb
    obtain ⟨rest, hrest, hreads⟩ := ih fun d hd => hcs d (List.mem_cons_of_mem _ hd)
    refine ⟨items :: rest, List.Forall₂.cons hpushed hrest, ?_⟩
    rw [Src.intoIter, List.flatMap_cons, hread, List.flatten_cons, List.map_append, ← hreads]
    rfl

theorem Consistent.binary_reads (h : s.Consistent) {c : Commit} (hc : c ∈ s.commits) {b : Bin} (hseg : c.seg = .bin b)
    {chunks : List Bytes} (hb : b.Obtained chunks) : s.dataset.binary b.name = .ok chunks.flatten := by
  obtain ⟨sector, hget, b', hseg', -, habove, hinside, hdata⟩ := h.index.found c hc b hseg
  rw [hseg] at hseg'
  cases hseg'
  have hslice := h.slice hc (by rw [hseg]; rfl) habove hinside
  rw [Dataset.binary, hget, okOr_some, ok_bind, hslice, hdata, hb.data]

/-- Every simple column reads back what was pushed for it, and every binary segment the chunks pushed into it, from the
write that commits them on. -/
theorem read_back [LawfulExtern] (h : s.Reached) :
    (∀ (name : String) (e : Manifest.Schema), s.dataset.file.manifest.schemas.get? name = some e →
      ∀ (j : Nat) (col : Column), e.columns.values[j]? = some col → ∀ (t : Item) (ht : t.simple = true),
        col.ty = t.type → (∀ c ∈ s.fed name, c.Decodable j) →
          ∃ items : List (List t.Val), List.Forall₂ (Commit.Pushed j t) (s.fed name) items ∧
            @Src.intoIter t.Val (t.decode (Item.decodable_of_simple ht)) col.buffers.items s.dataset.mmap =
              items.flatten.map .ok) ∧
      (∀ c ∈ s.commits, ∀ b, c.seg = .bin b → ∀ chunks, b.Obtained chunks →
        s.dataset.binary b.name = .ok chunks.flatten) ∧
      ∀ (b : Bin) (chunks : List Bytes), b.Obtained chunks → chunks.flatten ≠ [] → ∀ n d,
        Dataset.write b s.dataset = (.ok n, d) → n = chunks.flatten.length ∧ d.binary b.name = .ok chunks.flatten := by
  have hs := Consistent.reached h
  have hindex := hs.index
  refine ⟨?_, fun c hc b hseg chunks hb => hs.binary_reads hc hseg hb, ?_⟩
  · intro name e he j col hcol t ht hty hdec
    exact hs.column_reads he hcol ht hty (hindex.columns name e he j col hcol) fun c hc => ⟨hc, hdec c hc⟩
  · intro b chunks hb hne n d hx
    have hempty : Pending.isEmpty b = false := by
      rw [← hb.data] at hne
      exact List.isEmpty_eq_false_iff.mpr hne
    have hop : Dataset.perform (.bin b) s.dataset = (.ok (.count n), d) := Eff.bind_ok hx
    have hwrites : (Op.bin b).seg? s.dataset = some (.bin b) := by simp [Op.seg?, hempty]
    obtain ⟨c, hcommitted, hseg, -⟩ := Op.committed_of_ok hop hwrites
    have ht := Consistent.reached (h.bin hb hx)
    refine ⟨?_, ht.binary_reads (List.mem_append_right _ ?_) hseg hb⟩
    · rw [← hb.data]
      exact Dataset.count_of_write hempty hx
    · rw [hcommitted]
      exact List.mem_singleton_self c

end Session
end

section
attribute [local instance] reference reference_lawful buffered buffered_lawful

theorem Item.eq_bool {t : Item} (h : t.type = .bool) : t = .bool := by
  cases t with
  | bool => rfl
  | prim p => rcases p with (v | v | _ | _) | (v | v | _) <;> cases h
  | string => cases h
  | option t =>
    change t.type.flatOption = .bool at h
    cases ht : t.type <;> rw [ht] at h <;> cases h
  | vec t => cases h

theorem noteBin_obtained : noteBin.Obtained [[1, 2], [3]] := ((Bin.Obtained.new "note").push [1, 2]).push [3]

/-- A column of flags and a note read back. -/
theorem Session.read_back_flagged : ∃ (s : Session) (col : Column), s.Reached ∧ col.count = .ok 2 ∧
    (∃ items : List (List Bool), List.Forall₂ (Commit.Pushed 0 .bool) (s.fed "s") items ∧
      @Src.intoIter Bool (Item.bool.decode rfl) col.buffers.items s.dataset.mmap = items.flatten.map .ok) ∧
    s.dataset.binary "note" = .ok [1, 2, 3] := by
  obtain ⟨s, e, h, he, hvalues, c, hc, hseg⟩ := flagged_session
  obtain ⟨hcolumns, hbins, -⟩ := Session.read_back h
  obtain ⟨col, cols, hcol, hhead, -⟩ := List.map_eq_cons_iff.mp hvalues
  obtain ⟨hty, hcounts⟩ := Prod.mk.inj hhead
  refine ⟨s, col, h, ?_, ?_, hbins c hc noteBin hseg _ noteBin_obtained⟩
  · rw [Column.count, hcounts]
    rfl
  · refine hcolumns "s" e he 0 col (by rw [hcol]; rfl) .bool rfl hty ?_
    intro c hc
    obtain ⟨hmem, hfeeds⟩ := List.mem_filter.mp hc
    unfold Commit.Decodable
    split
    next fs a hseg =>
      intro hj
      rw [hseg] at hfeeds
      obtain ⟨e', he', hshape⟩ := (Session.Consistent.reached h).registered hmem hseg
      rw [beq_iff_eq.mp hfeeds, he] at he'
      cases he'
      have htypes := congrArg (fun l : List Ty => l[0]?) hshape.types
      simp only [hcol, List.map_cons, List.getElem?_cons_zero, List.getElem?_map, List.getElem?_eq_getElem hj,
        Option.map_some, Option.some.injEq] at htypes
      rw [show fs.types.get ⟨0, hj⟩ = .bool from Item.eq_bool (htypes.symm.trans hty)]
      rfl
    next => exact trivial

end
end Msca
