import Msca.History

/-! The coordinate that the columns of a schema share: the `k`-th buffer of every column is cut from the
`k`-th data segment committed for the schema. -/
namespace Msca
set_option autoImplicit false
open Checked

section
variable [Extern] [Fs] [LawfulFs]

/-- The commit is a data segment of `n` records. -/
def Commit.Records (c : Commit) (n : Nat) : Prop :=
  match c.seg with
  | @Seg.data fs a => ∃ rows : List (Row fs.types), a.data = Composite.collect rows ∧ rows.length = n ∧ 0 < n
  | _ => False

namespace Session

/-- The data segments committed for the schema `name`, in commit order. -/
def fed (s : Session) (name : String) : List Commit := s.commits.filter fun c => c.seg.feeds name

namespace Consistent
variable {s : Session}

omit [LawfulFs] in
theorem sound (h : s.Consistent) : ∀ c ∈ s.commits, ∃ m, Sound m c.seg := by
  have hkeep := h.journal.invariant_labels (I := fun cs _ => ∀ c ∈ cs, ∃ m, Sound m c.seg) (k := []) (fun cs u c t hcs hstep => by
    intro d hd
    rcases List.mem_append.mp hd with hd | hd
    · exact hcs d hd
    · rw [List.mem_singleton.mp hd]
      exact ⟨u.2, hstep.2⟩) (by simp)
  rwa [List.nil_append] at hkeep

omit [LawfulFs] in
theorem records (h : s.Consistent) {name : String} {c : Commit} (hc : c ∈ s.fed name) : c.Records c.seg.rows := by
  obtain ⟨hc, hfeeds⟩ := List.mem_filter.mp hc
  obtain ⟨m, hsound⟩ := h.sound c hc
  unfold Commit.Records
  cases hseg : c.seg with
  | data a =>
    rw [hseg] at hsound
    obtain ⟨e, rows, -, -, hdata, hne, -⟩ := hsound
    have hcount := (Composite.lockstep_collect rows).count_eq ⟨0, Fields.types_pos _⟩
    refine ⟨rows, hdata, ?_, ?_⟩
    · rw [Seg.rows, hdata, hcount]
    · rw [Seg.rows, hdata, hcount]
      exact List.length_pos_iff.mpr hne
  | schema s' =>
    rw [hseg] at hfeeds
    cases hfeeds
  | bin b =>
    rw [hseg] at hfeeds
    cases hfeeds

omit [Fs] [LawfulFs] in
theorem count_of_column {j : Nat} {c : Commit} {b : Manifest.Buffer} (h : c.Column j b) : b.count = c.seg.rows := by
  unfold Commit.Column at h
  split at h
  next fs a hseg =>
    obtain ⟨hj, hdesc⟩ := h
    rw [hseg]
    exact hdesc.count
  next => exact h.elim

omit [Fs] [LawfulFs] in
theorem counts_of_columns {j : Nat} {cs : List Commit} {bs : List Manifest.Buffer} (h : List.Forall₂ (Commit.Column j) cs bs) :
    bs.map Manifest.Buffer.count = cs.map fun c => c.seg.rows := by
  induction h with
  | nil => rfl
  | cons hcol _ ih => rw [List.map_cons, List.map_cons, ih, count_of_column hcol]

omit [LawfulFs] in
/-- The count of a schema is the checked sum of the records committed for it. -/
theorem count_eq (h : s.Consistent) {name : String} {e : Manifest.Schema}
    (he : s.dataset.file.manifest.schemas.get? name = some e) : e.count = sum ((s.fed name).map fun c => c.seg.rows) := by
  have hindex := h.index
  obtain ⟨fs, hshape⟩ := hindex.shaped name e he
  have hlen := hshape.length
  have hpos := fs.types_pos
  unfold Manifest.Schema.count
  split
  next hnil =>
    rw [hnil] at hlen
    exact absurd hlen (by simp; omega)
  next col cols hcols =>
    exact congrArg sum (counts_of_columns (hindex.columns name e he 0 col (by rw [hcols]; rfl)))

end Consistent

/-- Every column of a schema has one buffer for each data segment committed for it, in commit order. -/
theorem columns_share_segments [LawfulExtern] {s : Session} (h : s.Reached) {name : String} {e : Manifest.Schema}
    (he : s.dataset.file.manifest.schemas.get? name = some e) :
    (∀ c ∈ s.fed name, c.Records c.seg.rows) ∧
      ((∀ n, e.count = .ok n → n = ((s.fed name).map fun c => c.seg.rows).sum) ∧
        (((s.fed name).map fun c => c.seg.rows).sum < 2 ^ 64 → e.count = .ok ((s.fed name).map fun c => c.seg.rows).sum)) ∧
      ∀ j col, e.columns.values[j]? = some col → col.buffers.items.length = (s.fed name).length ∧
        ∀ (k : Nat) (c : Commit) (b : Manifest.Buffer), (s.fed name)[k]? = some c → col.buffers.items[k]? = some b →
          c.Column j b ∧ b.count = c.seg.rows := by
  have hs := Consistent.reached h
  have hindex := hs.index
  refine ⟨fun c hc => hs.records hc, ?_, ?_⟩
  · rw [hs.count_eq he]
    exact ⟨fun n hn => (sum_eq_ok.mp hn).2, sum_of_lt⟩
  · intro j col hcol
    have hall := hindex.columns name e he j col hcol
    refine ⟨hall.length_eq.symm, ?_⟩
    intro k c b hc hb
    obtain ⟨hk, rfl⟩ := List.getElem?_eq_some_iff.mp hc
    obtain ⟨hk', rfl⟩ := List.getElem?_eq_some_iff.mp hb
    have hcolumn := hall.get hk hk'
    exact ⟨hcolumn, Consistent.count_of_column hcolumn⟩

end Session
end

section
attribute [local instance] reference reference_lawful buffered buffered_lawful

/-- Two records committed as one segment. -/
theorem Session.columns_share_segments_flagged : ∃ (s : Session) (e : Manifest.Schema), s.Reached ∧
    s.dataset.file.manifest.schemas.get? "s" = some e ∧ e.count = .ok 2 ∧ (s.fed "s").length = 1 ∧
    ∀ c ∈ s.fed "s", c.Records c.seg.rows := by
  obtain ⟨s, e, h, he, hvalues, -⟩ := flagged_session
  obtain ⟨hrecords, -, hcolumns⟩ := Session.columns_share_segments h he
  obtain ⟨col, cols, hcol, hhead, -⟩ := List.map_eq_cons_iff.mp hvalues
  have hitems : col.buffers.items.map Manifest.Buffer.count = [2] := (Prod.mk.inj hhead).2
  have hlen := (hcolumns 0 col (by rw [hcol]; rfl)).1
  refine ⟨s, e, h, he, ?_, ?_, hrecords⟩
  · rw [Manifest.Schema.count, hcol]
    change sum (col.buffers.items.map Manifest.Buffer.count) = .ok 2
    rw [hitems]
    rfl
  · have hone := congrArg List.length hitems
    rw [List.length_map] at hone
    exact hlen.symm.trans hone

end
end Msca
