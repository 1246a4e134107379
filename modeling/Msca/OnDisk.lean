import Msca.Dataset
import Msca.Decode
import Msca.Journal

/-! The file on disk beside what is held in memory: what a finished write leaves, and what opening the
file finds. -/
namespace Msca
set_option autoImplicit false
open Checked

/-! ## Reading the header -/

theorem word_run (n : U64) (rest : Bytes) :
    (deserialize (α := U64)).run (Bytes.leBytes 8 n.val ++ rest) = (.ok n, rest) := deserialize_append n rest

theorem nonZero_run (n : U64) {m : NonZero} {rest rest' : Bytes}
    (h : (deserialize (α := NonZero)).run (Bytes.leBytes 8 n.val ++ rest) = (.ok m, rest')) : m.get = n.val := by
  change (deserialize (α := U64) >>= fun k => Parse.lift (okOr convertError (NonZero.ofNat? k.val))).run _ = _ at h
  rw [run_bind_ok (word_run n rest), run_lift] at h
  exact NonZero.ofNat?_eq_some.mp (okOr_eq_ok.mp (congrArg Prod.fst h))

theorem Header.deserialize_serialize (h : Sector) (rest : Bytes) :
    Header.deserialize.run (MAGIC ++ [VERSION] ++ (Header.serialize h ++ rest)) = (.ok h, rest) := by
  have hget : (get : Parse Bytes).run (MAGIC ++ [VERSION] ++ (Header.serialize h ++ rest)) =
      (.ok (MAGIC ++ [VERSION] ++ (Header.serialize h ++ rest)), MAGIC ++ [VERSION] ++ (Header.serialize h ++ rest)) := rfl
  have hset : ∀ src : Bytes, (set (Header.serialize h ++ rest) : Parse PUnit).run src =
      (.ok ⟨⟩, Header.serialize h ++ rest) := fun _ => rfl
  have hlen : ¬ (MAGIC ++ [VERSION] ++ (Header.serialize h ++ rest)).length < Header.OFFSET := by
    rw [List.length_append]
    have h5 : (MAGIC ++ [VERSION]).length = Header.OFFSET := rfl
    omega
  have hmagic : ¬ (MAGIC ++ [VERSION] ++ (Header.serialize h ++ rest)).take 4 ≠ MAGIC := not_not_intro rfl
  have hversion : ¬ (MAGIC ++ [VERSION] ++ (Header.serialize h ++ rest)).getD 4 0 ≠ VERSION := not_not_intro rfl
  have hdrop : (MAGIC ++ [VERSION] ++ (Header.serialize h ++ rest)).drop Header.OFFSET = Header.serialize h ++ rest := rfl
  have hoffset := word_run ⟨h.offset, h.offset_lt⟩ (Bytes.leBytes 8 h.size ++ rest)
  have hsize := deserialize_nonZero ⟨h.size, h.size_pos, h.size_lt⟩ rest
  have hbytes : Header.serialize h ++ rest = Bytes.leBytes 8 h.offset ++ (Bytes.leBytes 8 h.size ++ rest) :=
    List.append_assoc _ _ _
  rw [Header.deserialize, run_bind_ok hget, if_neg hlen, if_neg hmagic, if_neg hversion, hdrop,
    run_bind_ok (hset _), hbytes, run_bind_ok hoffset, run_bind_ok hsize]
  rfl

theorem Header.deserialize_eq_ok {src rest : Bytes} {h : Sector} (hx : Header.deserialize.run src = (.ok h, rest))
    (hlen : Header.OFFSET + 16 ≤ src.length) : Bytes.slice src Header.OFFSET 16 = Header.serialize h := by
  have hget : (get : Parse Bytes).run src = (.ok src, src) := rfl
  have hset : ∀ src' : Bytes, (set (src.drop Header.OFFSET) : Parse PUnit).run src' = (.ok ⟨⟩, src.drop Header.OFFSET) :=
    fun _ => rfl
  have hword : ∀ off, off + 8 ≤ src.length →
      Bytes.leBytes 8 (Bytes.ofLe (Bytes.slice src off 8)) = Bytes.slice src off 8 := by
    intro off hoff
    have hbytes := Bytes.leBytes_ofLe (Bytes.slice src off 8)
    rwa [Bytes.slice_length hoff] at hbytes
  have hlt : ∀ off, off + 8 ≤ src.length → Bytes.ofLe (Bytes.slice src off 8) < 2 ^ 64 := by
    intro off hoff
    have hbound := Bytes.ofLe_lt (Bytes.slice src off 8)
    rwa [Bytes.slice_length hoff] at hbound
  rw [Header.OFFSET] at hlen
  have hdrop : src.drop Header.OFFSET = Bytes.leBytes 8 (Bytes.ofLe (Bytes.slice src 5 8)) ++
      (Bytes.leBytes 8 (Bytes.ofLe (Bytes.slice src 13 8)) ++ src.drop 21) := by
    rw [hword 5 (by omega), hword 13 (by omega), Header.OFFSET, Bytes.slice, Bytes.slice]
    conv_lhs => rw [← List.take_append_drop 8 (src.drop 5), List.drop_drop,
      ← List.take_append_drop 8 (src.drop (5 + 8)), List.drop_drop]
  have hoffset := word_run ⟨_, hlt 5 (by omega)⟩ (Bytes.leBytes 8 (Bytes.ofLe (Bytes.slice src 13 8)) ++ src.drop 21)
  have hregion : Bytes.slice src Header.OFFSET 16 = Bytes.leBytes 8 (Bytes.ofLe (Bytes.slice src 5 8)) ++
      Bytes.leBytes 8 (Bytes.ofLe (Bytes.slice src 13 8)) := by
    rw [hword 5 (by omega), hword 13 (by omega)]
    exact Bytes.slice_add src 5 8 8
  rw [Header.deserialize, run_bind_ok hget, if_neg (by rw [Header.OFFSET]; omega)] at hx
  split at hx
  · cases hx
  · split at hx
    · cases hx
    · rw [run_bind_ok (hset _), hdrop, run_bind_ok hoffset] at hx
      rcases hnz : (Msca.deserialize (α := NonZero)).run (Bytes.leBytes 8 (Bytes.ofLe (Bytes.slice src 13 8)) ++
          src.drop 21) with ⟨e | n, rest'⟩
      · rw [run_bind_error hnz] at hx
        cases hx
      · rw [run_bind_ok hnz] at hx
        cases hx
        have hn := nonZero_run ⟨_, hlt 13 (by omega)⟩ hnz
        exact hregion.trans (congrArg (fun m => Bytes.leBytes 8 _ ++ Bytes.leBytes 8 m) hn.symm)

section
variable [Extern] [Fs]

/-- The file has `header` and `manifest`, and the segments `cs` in front of the manifest. -/
structure OnDisk (bytes : Bytes) (header : Sector) (manifest : Manifest) (cs : List Commit) : Prop where
  magic : Bytes.slice bytes 0 5 = MAGIC ++ [VERSION]
  head : Bytes.slice bytes Header.OFFSET 16 = Header.serialize header
  stored : ∀ c ∈ cs, Bytes.slice bytes c.start c.image.length = c.image
  index : ∃ index, wrap manifest header.offset = .ok index ∧ header.size = index.length ∧
    Bytes.slice bytes header.offset header.size = index
  below : header.offset + header.size ≤ bytes.length
  limit : bytes.length ≤ Fs.limit
  start : HEADER ≤ header.offset

theorem OnDisk.end_lt [LawfulFs] {bytes : Bytes} {header : Sector} {manifest : Manifest} {cs : List Commit}
    (h : OnDisk bytes header manifest cs) : header.offset + header.size < 2 ^ 63 :=
  Nat.lt_of_le_of_lt (Nat.le_trans h.below h.limit) LawfulFs.limit_lt

omit [Fs] in
theorem index_ne_nil {m : Manifest} {o : Nat} {index : Bytes} (h : wrap m o = .ok index) : index ≠ [] := by
  rw [manifest_wrap_eq_ok h]
  exact List.ne_nil_of_length_pos (by rw [segment_length]; omega)

/-! ## Opening -/

omit [Extern] in
/-- Where nothing waits and nothing is written the file stays as it is. -/
theorem Stream.Given.still {s t : Stream} {n : Nat} (h : s.Given n [] t) (hq : s.queue = []) :
    t.bytes = s.bytes ∧ t.queue = [] := by
  have hlands := h.view.lands
  rw [show s.view.queue = [] from hq] at hlands
  exact hlands.of_nil

omit [Extern] in
theorem Stream.fits_of_nil {s : Stream} (hq : s.queue = []) : s.view.Fits := by
  intro w hw
  rw [show s.view.queue = [] from hq] at hw
  cases hw

theorem fromFile_eq_ok [LawfulFs] {s t : Stream} {header : Sector} {manifest : Manifest} (hq : s.queue = [])
    (h : Manifest.fromFile header s = (.ok manifest, t)) :
    (∃ n, s.Given n [] t) ∧ header.offset + header.size ≤ s.bytes.length := by
  unfold Manifest.fromFile at h
  obtain ⟨_, u, hseek, h⟩ := Eff.bind_eq_ok h
  obtain ⟨data, v, hread, h⟩ := Eff.bind_eq_ok h
  obtain ⟨hsought, hqueue, hcursor⟩ := (Stream.seek_triple s header.offset).ok rfl hseek
  obtain ⟨hgiven, -, hle, -, -⟩ := (Stream.readExact_triple u header.size).ok rfl hread
  rw [(hgiven.still hqueue).1, (hsought.still hq).1, hcursor] at hle
  obtain ⟨body, w, hverify, h⟩ := Eff.bind_eq_ok h
  obtain ⟨-, rfl⟩ := Prod.mk.inj hverify
  split at h
  · cases h
  · obtain ⟨-, rfl⟩ := Prod.mk.inj h
    exact ⟨⟨_, hsought.trans hgiven⟩, hle⟩

/-- Opening takes the sector of the manifest from the header region, and leaves the file alone. -/
theorem open_eq_ok [LawfulFs] {s t : Stream} {header : Sector} {manifest : Manifest} (hs : s.cursor = 0) (hq : s.queue = [])
    (h : File.open s = (.ok (header, manifest), t)) :
    (∃ n, s.Given n [] t) ∧ Bytes.slice s.bytes Header.OFFSET 16 = Header.serialize header ∧
      header.offset + header.size ≤ s.bytes.length := by
  unfold File.open at h
  obtain ⟨buf, u, hread, h⟩ := Eff.bind_eq_ok h
  obtain ⟨hgiven, hqueue, hle, rfl, -⟩ := (Stream.readExact_triple s HEADER).ok rfl hread
  have hstill := (hgiven.still hq).1
  obtain ⟨header', v, hheader, h⟩ := Eff.bind_eq_ok h
  obtain ⟨hparse, rfl⟩ := Prod.mk.inj hheader
  obtain ⟨manifest', w, hfrom, h⟩ := Eff.bind_eq_ok h
  cases h
  obtain ⟨⟨n, hthen⟩, hbelow⟩ := fromFile_eq_ok hqueue hfrom
  rw [hstill] at hbelow hparse hle
  rw [hs] at hle hparse
  have hlen : (Bytes.slice s.bytes 0 HEADER).length = HEADER := Bytes.slice_length hle
  have hregion := Header.deserialize_eq_ok (Prod.ext hparse rfl) (by rw [hlen, HEADER, Header.OFFSET]; decide)
  rw [Bytes.slice_slice (by rw [HEADER, Header.OFFSET]; decide), Nat.zero_add] at hregion
  exact ⟨⟨_, hgiven.trans hthen⟩, hregion, hbelow⟩

theorem fromFile_triple [LawfulExtern] [LawfulFs] {s : Stream} {header : Sector} {manifest : Manifest} {index : Bytes}
    (hq : s.queue = []) (hwrap : wrap manifest header.offset = .ok index) (hsize : header.size = index.length)
    (hslice : Bytes.slice s.bytes header.offset header.size = index)
    (hle : header.offset + header.size ≤ s.bytes.length) (hlimit : s.bytes.length ≤ Fs.limit) :
    Eff.Triple (fun t => t = s) (Manifest.fromFile header)
      (fun m t => m = manifest ∧ ∃ n, s.Given n [] t) fun _ _ => s.script.within 2 = true := by
  have hindex := manifest_wrap_eq_ok hwrap
  unfold Manifest.fromFile
  rintro s rfl
  rcases Stream.seek_triple s header.offset s rfl with ⟨_, u, hx, hsought, hqueue, hcursor⟩ | ⟨e, t, hx, hn, -⟩
  · have hstill := (hsought.still hq).1
    rw [Eff.bind_ok hx]
    rcases Stream.readExact_triple u header.size _ rfl with ⟨_, v, hx, hgiven, -, -, rfl, -⟩ | ⟨e, t, hx, hn, -⟩
    · have hsame : Bytes.slice v.bytes u.cursor header.size = index := by
        rw [(hgiven.still hqueue).1, hstill, hcursor]
        exact hslice
      rw [Eff.bind_ok hx]
      change (∃ a t, ((Eff.lift (verify (Bytes.slice v.bytes u.cursor header.size)) >>= _) _ = (Except.ok a, t)) ∧ _) ∨ _
      have hsealed : index = sealed (Variant.manifest.byte ::
          (Bytes.leBytes 8 (Extern.encodeManifest manifest).length ++ Extern.encodeManifest manifest)) := hindex
      rw [hsame, hsealed, verify_sealed, Eff.bind_lift_ok rfl]
      have hlen : (Variant.manifest.byte ::
          (Bytes.leBytes 8 (Extern.encodeManifest manifest).length ++ Extern.encodeManifest manifest)).length =
          9 + (Extern.encodeManifest manifest).length := by
        simp
        omega
      have hdrop : (Variant.manifest.byte :: (Bytes.leBytes 8 (Extern.encodeManifest manifest).length ++
          Extern.encodeManifest manifest)).drop Segment.HEADER = Extern.encodeManifest manifest := rfl
      rw [if_neg (by rw [hlen, Segment.HEADER]; omega), hdrop, LawfulExtern.decode_encode, okOr_some]
      exact Or.inl ⟨_, _, rfl, rfl, _, hsought.trans hgiven⟩
    · rw [Eff.bind_error hx]
      refine Or.inr ⟨e, t, rfl, ?_⟩
      by_contra hspared
      refine hn ⟨?_, Stream.fits_of_nil hqueue, ?_⟩
      · rw [hsought.within]
        simpa using hspared
      · rw [hqueue, hcursor, hstill]
        exact hle
  · rw [Eff.bind_error hx]
    refine Or.inr ⟨e, t, rfl, ?_⟩
    by_contra hspared
    exact hn ⟨Script.within_mono (by simpa using hspared) (by decide), Stream.fits_of_nil hq, by omega⟩

/-- Opening finds what a finished write left. -/
theorem open_triple [LawfulExtern] [LawfulFs] {s : Stream} {header : Sector} {manifest : Manifest} {cs : List Commit}
    (hs : s.cursor = 0) (hq : s.queue = []) (h : OnDisk s.bytes header manifest cs) :
    Eff.Triple (fun t => t = s) File.open (fun parts t => parts = (header, manifest) ∧ ∃ n, s.Given n [] t)
      fun _ _ => s.script.within 3 = true := by
  obtain ⟨index, hwrap, hsize, hslice⟩ := h.index
  have hstart := h.start
  have hbelow := h.below
  unfold File.open
  rintro s rfl
  rcases Stream.readExact_triple s HEADER s rfl with ⟨_, u, hx, hgiven, hqueue, -, rfl, -⟩ | ⟨e, t, hx, hn, -⟩
  · have hstill := (hgiven.still hq).1
    have hbuf : Bytes.slice u.bytes s.cursor HEADER = MAGIC ++ [VERSION] ++ (Header.serialize header ++
        Bytes.slice s.bytes 21 3) := by
      rw [hs, hstill]
      change Bytes.slice s.bytes 0 (5 + (16 + 3)) = _
      rw [Bytes.slice_add, Bytes.slice_add, h.magic, ← h.head]
      rfl
    have hread := fromFile_triple hqueue hwrap hsize (hstill ▸ hslice) (hstill ▸ hbelow) (hstill ▸ h.limit)
    rw [Eff.bind_ok hx, hbuf, Header.deserialize_serialize, Eff.bind_lift_ok rfl]
    rcases hread _ rfl with ⟨m, t, hx, rfl, n, hthen⟩ | ⟨e, t, hx, hfails⟩
    · rw [Eff.bind_ok hx]
      exact Or.inl ⟨_, t, rfl, rfl, _, hgiven.trans hthen⟩
    · rw [Eff.bind_error hx]
      rw [hgiven.within] at hfails
      exact Or.inr ⟨e, t, rfl, hfails⟩
  · rw [Eff.bind_error hx]
    refine Or.inr ⟨e, t, rfl, ?_⟩
    by_contra hspared
    refine hn ⟨Script.within_mono (by simpa using hspared) (by decide), Stream.fits_of_nil hq, ?_⟩
    rw [hs, hq]
    change 0 + HEADER ≤ s.bytes.length
    omega

theorem open_opened [LawfulExtern] [LawfulFs] {bytes : Bytes} {header : Sector} {manifest : Manifest} {cs : List Commit}
    (h : OnDisk bytes header manifest cs) (σ : Script) (log : List Bytes.Write) :
    Eff.Triple (fun t => t = ⟨Fs.opened bytes, σ, log⟩) File.open
      (fun parts t => parts = (header, manifest) ∧ t.bytes = bytes ∧ t.queue = []) fun _ _ => σ.within 3 = true := by
  have hopened := LawfulFs.opened bytes
  have hqueue : (Stream.mk (Fs.opened bytes) σ log).queue = [] := congrArg View.queue hopened
  have hbytes : (Stream.mk (Fs.opened bytes) σ log).bytes = bytes := congrArg View.bytes hopened
  refine (open_triple (congrArg View.cursor hopened) hqueue (by rw [hbytes]; exact h)).conseq (fun _ h => h) ?_ fun _ _ h => h
  rintro parts t ⟨hparts, n, hgiven⟩
  obtain ⟨hstill, hempty⟩ := hgiven.still hqueue
  exact ⟨hparts, hstill.trans hbytes, hempty⟩

/-! ## Writing -/

theorem OnDisk.put {bytes : Bytes} {header header' : Sector} {manifest manifest' : Manifest} {cs : List Commit}
    {image index : Bytes} (h : OnDisk bytes header manifest cs) (hcs : ∀ c ∈ cs, HEADER ≤ c.start ∧ c.stop ≤ header.offset)
    (hpub : File.Published manifest' (header.offset + image.length) index header')
    (hlimit : (Bytes.land bytes (File.records header.offset image index header')).length ≤ Fs.limit)
    {c : Commit} (hstart : c.start = header.offset) (himage : c.image = image) :
    OnDisk (Bytes.land bytes (File.records header.offset image index header')) header' manifest' (cs ++ [c]) := by
  have hoffset := hpub.offset
  have hsize := hpub.size
  have hbelow := h.below
  have hpos := header.size_pos
  have hstart' := h.start
  rw [HEADER] at hstart'
  have hlen : (Header.serialize header').length = 16 := File.header_serialize_length header'
  generalize hfirst : Bytes.overlay bytes header.offset image = first
  generalize hsecond : Bytes.overlay first (header.offset + image.length) index = second
  have hland : Bytes.land bytes (File.records header.offset image index header') =
      Bytes.overlay second Header.OFFSET (Header.serialize header') := by
    rw [← hsecond, ← hfirst]
    rfl
  have h1 : first.length = max bytes.length (header.offset + image.length) := hfirst ▸ Bytes.overlay_length image
  have h2 : second.length = max first.length (header.offset + image.length + index.length) :=
    hsecond ▸ Bytes.overlay_length index
  have hhead : ∀ off len, 21 ≤ off → Bytes.slice (Bytes.overlay second Header.OFFSET (Header.serialize header')) off len =
      Bytes.slice second off len := by
    intro off len hoff
    refine Bytes.slice_overlay_after ?_ ?_
    · rw [Header.OFFSET]
      omega
    · rw [hlen, Header.OFFSET]
      omega
  have hindex : ∀ off len, off + len ≤ header.offset + image.length → Bytes.slice second off len = Bytes.slice first off len :=
    fun off len hle => hsecond ▸ Bytes.slice_overlay_before (by omega) hle
  have himg : ∀ off len, off + len ≤ header.offset → Bytes.slice first off len = Bytes.slice bytes off len :=
    fun off len hle => hfirst ▸ Bytes.slice_overlay_before (by omega) hle
  rw [hland] at hlimit ⊢
  refine ⟨?_, ?_, ?_, ⟨index, ?_, hsize, ?_⟩, ?_, hlimit, ?_⟩
  · have hsame : Bytes.slice (Bytes.overlay second Header.OFFSET (Header.serialize header')) 0 5 = Bytes.slice second 0 5 :=
      Bytes.slice_overlay_before (by rw [Header.OFFSET]; omega) (by rw [Header.OFFSET])
    rw [hsame, hindex 0 5 (by omega), himg 0 5 (by omega), h.magic]
  · have hself : Bytes.slice (Bytes.overlay second Header.OFFSET (Header.serialize header')) Header.OFFSET
        (Header.serialize header').length = Header.serialize header' := Bytes.slice_overlay_self
    rwa [hlen] at hself
  · intro e he
    rcases List.mem_append.mp he with he | he
    · obtain ⟨hlo, hhi⟩ := hcs e he
      rw [HEADER] at hlo
      rw [Commit.stop] at hhi
      rw [hhead _ _ (by omega), hindex _ _ (by omega), himg _ _ hhi]
      exact h.stored e he
    · rw [List.mem_singleton.mp he, hstart, himage, hhead _ _ (by omega), hindex _ _ (Nat.le_refl _), ← hfirst]
      exact Bytes.slice_overlay_self
  · rw [hoffset]
    exact hpub.wrapped
  · rw [hoffset, hsize, hhead _ _ (by omega), ← hsecond]
    exact Bytes.slice_overlay_self
  · have h3 : (Bytes.overlay second Header.OFFSET (Header.serialize header')).length =
        max second.length (Header.OFFSET + (Header.serialize header').length) := Bytes.overlay_length _
    omega
  · rw [HEADER]
    omega

namespace File.Written
variable {S : Type} [Segment S] [Register S] {seg : S} {f t : File} {image index : Bytes} {sec : Sector}

/-- The three writes are in the file. -/
theorem bytes_eq (hw : Written seg f image sec index t) (hq : f.queue = []) :
    t.bytes = Bytes.land f.bytes (records f.header.offset image index t.header) := by
  have hbytes := hw.given.drained hw.drained
  rw [show f.stream.queue = [] from hq] at hbytes
  exact hbytes

theorem limit (hw : Written seg f image sec index t) (hle : f.bytes.length ≤ Fs.limit) : t.bytes.length ≤ Fs.limit :=
  Nat.le_trans hw.given.view.extent (Nat.max_le.mpr ⟨hle, Nat.le_refl _⟩)

/-- The manifest ends within the file. -/
theorem below (hw : Written seg f image sec index t) : t.header.offset + t.header.size ≤ t.bytes.length := by
  have hbytes : t.bytes = _ := hw.given.drained hw.drained
  have hlen : (Bytes.overlay (Bytes.land f.bytes (f.queue ++ [(f.header.offset, image)])) (f.header.offset + image.length)
      index).length = _ := Bytes.overlay_length index
  have hmore : (Bytes.overlay _ _ index).length ≤ (Bytes.overlay (Bytes.overlay (Bytes.land f.bytes
      (f.queue ++ [(f.header.offset, image)])) (f.header.offset + image.length) index) Header.OFFSET
        (Header.serialize t.header)).length := Bytes.length_le_overlay _ _ _
  rw [hbytes, Bytes.land_append, hw.published.offset, hw.published.size]
  rw [Bytes.land_append] at hlen hmore
  change _ ≤ (Bytes.overlay (Bytes.overlay (Bytes.overlay _ _ _) _ _) _ _).length
  exact Nat.le_trans (Nat.le_trans (Nat.le_max_right _ _) (Nat.le_of_eq hlen.symm)) hmore

end File.Written

/-- A write that returned left the file as it is in memory. -/
theorem OnDisk.written {S : Type} [Segment S] [Register S] {seg : S} {f t : File} {image index : Bytes} {sec : Sector}
    {cs : List Commit} {c : Commit} (h : OnDisk f.bytes f.header f.manifest cs) (hq : f.queue = [])
    (hcs : ∀ c ∈ cs, HEADER ≤ c.start ∧ c.stop ≤ f.header.offset) (hw : File.Written seg f image sec index t)
    (hstart : c.start = f.header.offset) (himage : c.image = image) : OnDisk t.bytes t.header t.manifest (cs ++ [c]) := by
  have hlimit := hw.limit h.limit
  rw [hw.bytes_eq hq] at hlimit ⊢
  rw [hw.manifest]
  exact h.put hcs hw.published hlimit hstart himage

/-! ## Writing where there is room -/

namespace File
variable {S : Type} [Segment S] [Register S] {seg : S} {f t : File}

/-- The image of the segment, and behind it that of the manifest which lists it, end below the limit of the file system. -/
def Bounded (seg : S) (f : File) : Prop :=
  ∀ image : Bytes, wrap seg f.header.offset = .ok image → f.header.offset + image.length ≤ Fs.limit ∧
    ∀ sec : Sector, sec.offset = f.header.offset → sec.size = image.length →
      ∃ index, wrap (register seg sec f.manifest).2 (f.header.offset + image.length) = .ok index ∧
        f.header.offset + image.length + index.length ≤ Fs.limit

theorem Written.bounded {image index : Bytes} {sec : Sector} (hw : Written seg f image sec index t)
    (hle : f.bytes.length ≤ Fs.limit) : Bounded seg f := by
  intro image' hwrap
  have himage : image' = image := Except.ok.inj (hwrap.symm.trans hw.wrapped)
  subst himage
  have hpub := hw.published
  have hend := Nat.le_trans hw.below (hw.limit hle)
  rw [hpub.offset, hpub.size] at hend
  refine ⟨by omega, fun sec' hoffset hsize => ?_⟩
  have hsec : sec' = sec := Sector.ext (hoffset.trans hw.offset.symm) (hsize.trans hw.size.symm)
  subst hsec
  exact ⟨index, hpub.wrapped, hend⟩

/-- Where the name is free and the segment has an image, the medium fails before that is taken, or in none of `n` calls. -/
def Timely (seg : S) (f : File) (n : Nat) : Prop :=
  entry seg f.manifest = .ok () → (∃ image, wrap seg f.header.offset = .ok image) →
    f.stream.script.within 2 = true ∨ f.stream.script.within n = false

omit [Extern] in
theorem Timely.mono {m n : Nat} (h : Timely seg f n) (hle : m ≤ n) : Timely seg f m :=
  fun hentry himage => (h hentry himage).imp_right fun hn => Script.within_mono hn hle

omit [Extern] in
/-- A segment that was taken met no failure. -/
theorem Timely.appended {n : Nat} (h : Timely seg f n) {image : Bytes} {sec : Sector} (happ : Appended seg f image sec) :
    f.stream.script.within n = false := by
  rcases h happ.reserved ⟨image, happ.wrapped⟩ with hfails | hn
  · rw [happ.spared] at hfails
    cases hfails
  · exact hn

/-- A segment that was taken completes where there is room and the medium does not fail. -/
theorem Appended.completes [LawfulFs] {seg : Seg} {image : Bytes} {sec : Sector} (happ : Appended seg f image sec)
    (hstart : HEADER ≤ f.header.offset) (heven : seg.Even f.manifest) (hbounded : Bounded seg f)
    (hspared : f.stream.script.within 7 = false) : Completes seg f image sec := by
  have hlimit := LawfulFs.limit_lt
  obtain ⟨index, hindex, hend⟩ := (hbounded image happ.wrapped).2 sec happ.offset happ.size
  have hwrap : wrap seg sec.offset = .ok image := by
    rw [happ.offset]
    exact happ.wrapped
  have hregister : (register seg sec f.manifest).1 = .ok () := by
    refine heven.register_ok happ.reserved ?_ hwrap ?_
    · rw [happ.offset]
      exact hstart
    · rw [happ.offset]
      omega
  exact ⟨hregister, hspared, ⟨index, hindex, index_ne_nil hindex, hend⟩, by omega⟩

/-- A write that stops has left header and manifest alone, when a segment that is taken completes. -/
theorem Stopped.spared (h : Stopped seg f t)
    (hcompletes : ∀ image sec, Appended seg f image sec → Completes seg f image sec) :
    t.header = f.header ∧ t.manifest = f.manifest ∧
      ∃ ws, f.stream.Broke ws t.stream ∧ ∀ w ∈ ws, ∃ image, wrap seg f.header.offset = .ok image ∧ w = (f.header.offset, image) := by
  cases h with
  | refused _ header manifest broke => exact ⟨header, manifest, broke⟩
  | registered happ unfit => exact absurd (hcompletes _ _ happ) unfit

/-- What such a write leaves to be written stays below the limit. -/
theorem Bounded.fits (hbounded : Bounded seg f) (hfits : f.stream.view.Fits) {s : Stream}
    (hbroke : ∃ ws, f.stream.Broke ws s ∧
      ∀ w ∈ ws, ∃ image, wrap seg f.header.offset = .ok image ∧ w = (f.header.offset, image)) : s.view.Fits := by
  obtain ⟨ws, hbroke, hws⟩ := hbroke
  refine hbroke.view.forall (Bytes.parted_within Fs.limit) hfits fun w hw => ?_
  obtain ⟨image, hwrap, rfl⟩ := hws w hw
  exact (hbounded image hwrap).1

end File

omit [Extern] [Fs] in
/-- A header region of 24 bytes behind a prelude of five, and the manifest behind it. -/
theorem create_bytes {front header index : Bytes} (hfront : front.length = 5) (hheader : header.length = 16) :
    let bytes := Bytes.overlay (Bytes.overlay (Bytes.overlay front 24 index) 5 header) 21 (Bytes.zeros 3)
    Bytes.slice bytes 0 5 = front ∧ Bytes.slice bytes 5 16 = header ∧ Bytes.slice bytes 24 index.length = index ∧
      24 + index.length ≤ bytes.length := by
  intro bytes
  have h1 : (Bytes.overlay front 24 index).length = max front.length (24 + index.length) := Bytes.overlay_length index
  have h2 : (Bytes.overlay (Bytes.overlay front 24 index) 5 header).length = max _ (5 + header.length) :=
    Bytes.overlay_length header
  have h3 : bytes.length = max _ (21 + (Bytes.zeros 3).length) := Bytes.overlay_length (Bytes.zeros 3)
  have hzeros : (Bytes.zeros 3).length = 3 := Bytes.zeros_length 3
  have hpadded : Bytes.overlay front 24 index = front ++ (Bytes.zeros 19 ++ index) := by
    rw [Bytes.overlay, hfront, List.take_of_length_le (by omega), List.drop_eq_nil_of_le (by omega), List.append_nil,
      List.append_assoc]
  refine ⟨?_, ?_, ?_, by omega⟩
  · rw [Bytes.slice_overlay_before (by omega) (by omega), Bytes.slice_overlay_before (by omega) (by omega), hpadded,
      Bytes.slice_append_left (by omega), Bytes.slice, List.drop_zero, List.take_of_length_le (by omega)]
  · rw [Bytes.slice_overlay_before (by omega) (by omega), ← hheader]
    exact Bytes.slice_overlay_self
  · rw [Bytes.slice_overlay_after (by omega) (by omega), Bytes.slice_overlay_after (by omega) (by omega)]
    exact Bytes.slice_overlay_self

theorem create_triple [LawfulFs] {s : Stream} (hs : s.cursor = 0) (hempty : s.bytes = []) (hq : s.queue = []) :
    Eff.Triple (fun t => t = s) File.create
      (fun parts t => parts.1.offset = HEADER ∧ parts.2 = Manifest.default ∧ OnDisk t.bytes parts.1 Manifest.default [] ∧
        t.queue = [])
      fun _ _ => True := by
  unfold File.create
  rintro s rfl
  rcases Stream.writeAll_triple s (by decide : MAGIC ≠ []) s rfl with ⟨_, s₁, hx, h₁, hc₁⟩ | ⟨e, t, hx, -⟩
  swap
  · exact Or.inr ⟨e, t, Eff.bind_error hx, trivial⟩
  rw [Eff.bind_ok hx]
  rcases Stream.writeAll_triple s₁ (List.cons_ne_nil VERSION []) _ rfl with ⟨_, s₂, hx, h₂, -⟩ | ⟨e, t, hx, -⟩
  swap
  · exact Or.inr ⟨e, t, Eff.bind_error hx, trivial⟩
  rw [Eff.bind_ok hx]
  rcases Segment.write_triple Manifest.default HEADER s₂ _ rfl with
    ⟨header, s₃, hx, index, hwrap, hne, hoffset, hsize, h₃⟩ | ⟨e, t, hx, -⟩
  swap
  · exact Or.inr ⟨e, t, Eff.bind_error hx, trivial⟩
  rw [Eff.bind_ok hx]
  rcases Stream.writeAt_triple s₃ Header.OFFSET (File.header_serialize_ne header) _ rfl with
    ⟨_, s₄, hx, h₄, hc₄⟩ | ⟨e, t, hx, -⟩
  swap
  · exact Or.inr ⟨e, t, Eff.bind_error hx, trivial⟩
  rw [Eff.bind_ok hx]
  rcases Stream.writeAll_triple s₄ (by decide : Bytes.zeros 3 ≠ []) _ rfl with ⟨_, s₅, hx, h₅, -⟩ | ⟨e, t, hx, -⟩
  swap
  · exact Or.inr ⟨e, t, Eff.bind_error hx, trivial⟩
  rw [Eff.bind_ok hx]
  rcases Stream.flush_triple s₅ _ rfl with ⟨_, s₆, hx, h₆, hqueue⟩ | ⟨e, t, hx, -⟩
  swap
  · exact Or.inr ⟨e, t, Eff.bind_error hx, trivial⟩
  rw [Eff.bind_ok hx]
  have hlen := File.header_serialize_length header
  have hgiven := ((((h₁.trans h₂).trans h₃.toGiven).trans h₄.toGiven).trans h₅).trans h₆
  have hbytes : s₆.bytes = Bytes.overlay (Bytes.overlay (Bytes.overlay (MAGIC ++ [VERSION]) 24 index) 5
      (Header.serialize header)) 21 (Bytes.zeros 3) := by
    rw [hgiven.drained hqueue, hq, hempty, hc₁, hc₄, hs, hlen]
    rfl
  have hlimit : s₆.bytes.length ≤ Fs.limit := by
    have hextent := hgiven.view.extent
    rw [show s.view.bytes = [] from hempty] at hextent
    exact Nat.le_trans hextent (Nat.max_le.mpr ⟨Nat.zero_le _, Nat.le_refl _⟩)
  obtain ⟨hmagic, hhead, hindex, hle⟩ := create_bytes (rfl : (MAGIC ++ [VERSION]).length = 5) hlen
  have hmain : OnDisk s₆.bytes header Manifest.default [] := by
    rw [hbytes] at hlimit ⊢
    refine ⟨hmagic, hhead, by simp, ⟨index, ?_, hsize, ?_⟩, ?_, hlimit, Nat.le_of_eq hoffset.symm⟩
    · rw [hoffset]
      exact hwrap
    · rw [hoffset, hsize]
      exact hindex
    · rw [hoffset, hsize]
      exact hle
  exact Or.inl ⟨_, _, rfl, hoffset, rfl, hmain, hqueue⟩

end
end Msca
