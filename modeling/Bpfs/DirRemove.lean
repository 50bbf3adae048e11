import Bpfs.DirCreate

/-! What the operations that take an entry away do: `fuse_unlink`, `fuse_rmdir` and `fuse_rename`. -/

namespace Bpfs.Dir
open Lib Dcache

attribute [local irreducible] wp

/-- The inode `i` has one link less, or it was freed with its last one. -/
structure Released (i : Nat) (v w : Volume) : Prop where
  mode : ∀ j, (w.inodes j).mode = (v.inodes j).mode
  nlinks : ∀ j, j ≠ i → (v.inodes j).isDir = false → (w.inodes j).nlinks = (v.inodes j).nlinks
  used : (w.used = v.used.erase i ∧ ((v.inodes i).isDir = false → (v.inodes i).nlinks = 1)) ∨
    (w.used = v.used ∧ (v.inodes i).isDir = false ∧ (w.inodes i).nlinks + 1 = (v.inodes i).nlinks)

section Release

variable {M : Entries} {v v' w w' : Volume} {i : Nat}

theorem Unlinked.released (before : Calm v v') (unlinked : Unlinked i v' w') (after : Stays w' w) : Released i v w := by
  have kind : (v'.inodes i).isDir = (v.inodes i).isDir := isDir_congr (before.mode i)
  cases unlinked with
  | freed last used inodes ninodes =>
    refine ⟨fun j => ?_, fun j _ plain => ?_, Or.inl ⟨?_, fun plain => ?_⟩⟩
    · rw [after.mode, inodes, before.mode]
    · rw [after.nlinks, inodes, before.nlinks j plain]
    · rw [after.used, used, before.used]
    · rw [kind, plain, before.nlinks i plain] at last
      exact last.resolve_right Bool.false_ne_true
  | kept more plain same =>
    subst same
    rw [kind] at plain
    refine ⟨fun j => ?_, fun j other file => ?_, Or.inr ⟨?_, plain, ?_⟩⟩
    · rw [after.mode, mode_setNlinks, before.mode]
    · rw [after.nlinks, inodes_setNlinks other, before.nlinks j file]
    · exact after.used.trans before.used
    · have := before.nlinks i plain
      rw [after.nlinks, nlinks_setNlinks]
      omega

theorem Released.dirs (released : Released i v w) : w.dirs = if (v.inodes i).isDir then v.dirs \ {i} else v.dirs := by
  have member : ∀ j, j ∈ w.dirs ↔ j ∈ w.used ∧ (v.inodes j).isDir = true := fun j => by
    rw [Volume.dirs, Set.mem_ofPred_eq, isDir_congr (released.mode j)]
  ext j
  rw [member]
  rcases released.used with ⟨used, -⟩ | ⟨used, plain, -⟩
  · rw [used, Finset.mem_erase, and_comm (a := j ≠ i), and_assoc, and_comm (a := j ≠ i), ← and_assoc]
    split
    · rfl
    · rename_i plain
      refine ⟨fun inside => inside.1, fun inside => ⟨inside, ?_⟩⟩
      rintro rfl
      exact plain inside.2
  · rw [used, plain]
    rfl

end Release

section Remove

variable {M : Entries} {v w : Volume} {d : Nat} {name : Name} {E : DirErr → Volume → Prop}

/-- The entry is gone, and its inode has one link less. -/
structure Removed (d : Nat) (n : List UInt8) (v w : Volume) (M M' : Entries) : Prop where
  entry : ∃ md, M d n = some md ∧ Released md.ino v w
  entries : M' = M.set d n none

theorem doUnlink_spec {c : List MDirectory} (rest : Rest v.dirs M { v with dcache := c }) (dir : d ∈ v.dirs) :
    wp (doUnlink d name) (fun _ w => ∃ M', Rest w.dirs M' w ∧ Removed d name.bytes v w M M') (fun _ _ => True)
      { v with dcache := c } := by
  have stops : Stops (fun _ _ => True) := fun _ _ _ => trivial
  rw [doUnlink, wp_bind]
  refine wp_deref rest (fun _ => trivial) fun md found _ => ?_
  rw [wp_bind]
  refine wp_getInode stops fun _ => ?_
  rw [wp_bind, wp_assert]
  refine ⟨fun _ => ?_, fun _ => trivial⟩
  obtain ⟨r, live, -, -, entry⟩ := rest.record dir found
  have exposed := rest.expose dir found
  rw [insert_empty_eq] at exposed
  rw [wp_bind]
  refine wp_remDirent exposed dir dir.2 rfl live.1 stops fun w₁ inv noted record => ?_
  rw [wp_bind]
  refine wp_deref inv (fun _ => trivial) fun md' again _ => ?_
  obtain rfl := Option.some.inj (found.symm.trans again)
  rw [wp_bind]
  refine wp_doUnlinkInode inv stops fun w₂ unlinked inv _ => ?_
  rw [wp_bind]
  refine wp_deref inv (fun _ => trivial) fun md' again cached => ?_
  obtain rfl := Option.some.inj (found.symm.trans again)
  have blocks : (w₂.inodes d).blocks = (w₁.inodes d).blocks := by
    cases unlinked with
    | freed _ _ inodes _ => rw [inodes]
    | kept _ _ same => rw [same, blocks_setNlinks]
  have length : md.recLen = r.len := congrArg MDirent.recLen entry
  rw [wp_bind]
  refine wp_dcacheAddFree inv stops rfl (Or.inl ⟨{ r with ino := inoInvalid }, blocks.symm ▸ record, rfl, length.symm⟩) fun c inv _ => ?_
  refine wp_dcacheRemDirent inv stops fun _ c' inv _ => ?_
  have released := unlinked.released (Stays.dcache.calm.trans noted.toCalm) (Stays.dcache (c := c'))
  refine ⟨M.set d name.bytes none, ?_, ⟨md, found, released⟩, rfl⟩
  rw [Set.sdiff_self, isDir_congr (noted.mode md.ino)] at inv
  rw [show Volume.dirs { w₂ with dcache := c' } = _ from released.dirs]
  exact inv

theorem fuseUnlink_spec (rest : Rest v.dirs M v) (dir : d ∈ v.dirs) :
    wp (fuseUnlink d name) (fun _ w => ∃ M', Rest w.dirs M' w ∧ Removed d name.bytes v w M M') (fun _ _ => True) v := by
  rw [fuseUnlink, wp_bind]
  refine wp_mono (findDirent_spec rest dir) ?_ (fun _ _ => False.elim)
  rintro - - ⟨c, rfl, rest, -, -, -⟩
  rw [wp_ite]
  exact ⟨fun _ => doUnlink_spec rest dir, fun _ => wp_throw.mpr trivial⟩

/-- The test for emptiness changes nothing. -/
theorem wp_emptyLoop {b : Block} {n off : Nat} {Q : Bool → Volume → Prop} (stops : Stops E) (next : ∀ full, Q full v) :
    wp (emptyLoop d b n off) Q E v := by
  induction n generalizing off with
  | zero => exact wp_pure.mpr (next _)
  | succ n ih =>
    rw [emptyLoop, wp_ite]
    refine ⟨fun _ => ?_, fun _ => wp_pure.mpr (next _)⟩
    rw [wp_bind, wp_assert]
    refine ⟨fun _ => ?_, fun _ => stops _ _ (by decide)⟩
    rw [wp_ite]
    exact ⟨fun _ => ih, fun _ => wp_pure.mpr (next _)⟩

theorem wp_emptyBlocks {bs : List Block} {Q : Bool → Volume → Prop} (stops : Stops E) (next : ∀ full, Q full v) :
    wp (emptyBlocks d bs) Q E v := by
  induction bs with
  | nil => exact wp_pure.mpr (next _)
  | cons b bs ih =>
    rw [emptyBlocks, wp_bind]
    refine wp_emptyLoop stops fun full => ?_
    rw [wp_ite]
    exact ⟨fun _ => wp_pure.mpr (next _), fun _ => ih⟩

theorem fuseRmdir_spec (rest : Rest v.dirs M v) (dir : d ∈ v.dirs) :
    wp (fuseRmdir d name) (fun _ w => ∃ M', Rest w.dirs M' w ∧ Removed d name.bytes v w M M') (fun _ _ => True) v := by
  have stops : Stops (fun _ _ => True) := fun _ _ _ => trivial
  rw [fuseRmdir, wp_bind]
  refine wp_mono (findDirent_spec rest dir) ?_ (fun _ _ => False.elim)
  rintro - - ⟨c, rfl, rest, -, -, -⟩
  rw [wp_ite]
  refine ⟨fun _ => ?_, fun _ => wp_throw.mpr trivial⟩
  rw [wp_bind]
  refine wp_deref rest (fun _ => trivial) fun md found _ => ?_
  rw [wp_bind]
  refine wp_getInode stops fun _ => ?_
  rw [wp_bind]
  refine wp_emptyBlocks stops fun full => ?_
  rw [wp_ite]
  exact ⟨fun _ => wp_throw.mpr trivial, fun _ => doUnlink_spec rest dir⟩

end Remove

section Rename

variable {D : Set Nat} {X : Set (Nat × Nat)} {M C : Entries} {v : Volume} {srcParent dstParent p i : Nat}
  {srcName dstName : Name} {src : MDirent} {r : Rec} {E : DirErr → Volume → Prop}

/-- The record at `p` of the target directory, which loses its entry for the inode `i` or is new. -/
inductive Target (M : Entries) (dstParent : Nat) (dstName : List UInt8) (src : MDirent) (p i : Nat) (r : Rec) : Prop where
  | new (absent : M dstParent dstName = none) (none : i = inoInvalid) (type : r.type = src.fileType)
  | old {dst : MDirent} (found : M dstParent dstName = some dst) (place : p = dst.off) (ino : i = dst.ino)
      (live : i ≠ inoInvalid) (type : r.type = dst.fileType)

theorem renameTarget_spec {fresh : Option Block} (rest : Rest D M v) (source : M srcParent srcName.bytes = some src)
    (dir : dstParent ∈ D) (newest : Newest v.dcache srcParent) (stops : Stops E) :
    wp (renameTarget srcParent srcName dstParent dstName fresh) (fun place w => Stays v w ∧
      Inv D {(dstParent, place.1)} (M.set dstParent dstName.bytes none) M w ∧ srcParent ∈ w.dcache.map MDirectory.ino ∧
      ∃ r, At (w.inodes dstParent).blocks place.1 r ∧ r.name = dstName.bytes ∧
        Target M dstParent dstName.bytes src place.1 place.2 r) E v := by
  rw [renameTarget, wp_bind]
  refine wp_mono (findDirent_spec rest dir) ?_ (fun _ _ => False.elim)
  rintro - - ⟨c, rfl, rest, last, kept, rfl⟩
  have cached := kept srcParent newest
  rw [wp_ite]
  refine ⟨fun existed => ?_, fun missing => ?_⟩
  · rw [wp_bind]
    refine wp_deref rest (fun gone => ?_) fun dst found _ => ?_
    · rcases gone with none | absent
      · rw [none] at existed
        cases existed
      · exact absurd last.member absent
    rw [wp_bind]
    refine wp_getInode stops fun _ => ?_
    rw [wp_bind, wp_assert]
    refine ⟨fun _ => wp_pure.mpr ?_, fun _ => stops _ _ (by decide)⟩
    obtain ⟨r, live, -, title, entry⟩ := rest.record dir found
    have exposed := rest.expose dir found
    rw [insert_empty_eq] at exposed
    refine ⟨Stays.dcache, exposed, cached, r, live.1, title, .old found rfl rfl ?_ ?_⟩
    · rw [entry]
      exact live.2
    · exact (congrArg MDirent.fileType entry).symm
  · have absent : M dstParent dstName.bytes = none := by simpa using missing
    rw [wp_bind]
    refine wp_mono (allocDirent_spec rest dir stops) ?_ (fun _ _ => id)
    intro p w done
    obtain ⟨r, record, title⟩ := done.record
    rw [wp_bind]
    refine wp_deref done.inv (fun gone => ?_) fun md found _ => ?_
    · rcases gone with none | absent
      · rw [none] at source
        cases source
      · exact absurd (done.keeps cached) absent
    obtain rfl := Option.some.inj (source.symm.trans found)
    rw [wp_bind]
    refine wp_setDirentType done.inv dir rfl record stops fun w' inv stored record' => wp_pure.mpr ?_
    refine ⟨Stays.dcache.trans (done.toStays.trans stored.toStays), ?_, ?_, _, record', title, .new absent rfl rfl⟩
    · rw [Entries.set_same absent]
      exact inv
    · rw [stored.dcache]
      exact done.keeps cached

/-- The link counts of the parents, and nothing else, may change. -/
theorem wp_renameNlinks {dir existed : Bool} {Q : Unit → Volume → Prop} (inv : Inv D X M C v)
    (one : (v.inodes srcParent).isDir = true) (two : (v.inodes dstParent).isDir = true) (stops : Stops E)
    (next : ∀ w, Inv D X M C w → Calm v w → w.dcache = v.dcache → (∀ d, (w.inodes d).blocks = (v.inodes d).blocks) →
      Q ⟨⟩ w) : wp (renameNlinks srcParent dstParent dir existed) Q E v := by
  have same : Q ⟨⟩ v := next v inv Stays.refl.calm rfl (fun _ => rfl)
  rw [renameNlinks, wp_ite, wp_ite]
  refine ⟨fun _ => ⟨fun _ => ?_, fun _ => ?_⟩, fun _ => wp_pure.mpr same⟩
  · rw [wp_bind]
    refine wp_decNlinks stops fun _ => ?_
    rw [wp_ite, wp_pure]
    refine ⟨fun _ => next _ inv.setNlinks (calm_setNlinks one) rfl (fun _ => blocks_setNlinks), fun _ => ?_⟩
    refine wp_incNlinks stops (next _ inv.setNlinks.setNlinks ?_ rfl fun _ => blocks_setNlinks.trans blocks_setNlinks)
    exact (calm_setNlinks one).trans (calm_setNlinks ((isDir_congr mode_setNlinks).trans two))
  · rw [wp_ite, wp_pure]
    refine ⟨fun _ => ?_, fun _ => same⟩
    exact wp_decNlinks stops fun _ => next _ inv.setNlinks (calm_setNlinks two) rfl (fun _ => blocks_setNlinks)

/-- The directories in use once the inode `i` has lost its entry; 0 stands for no inode. -/
def without (D : Set Nat) (v : Volume) (i : Nat) : Set Nat :=
  if i ≠ inoInvalid ∧ (v.inodes i).isDir = true then D \ {i} else D

/-- What `renameUnlink` leaves of the inode. -/
def Dropped (i : Nat) (v w : Volume) : Prop :=
  (i = inoInvalid ∧ Calm v w) ∨ (i ≠ inoInvalid ∧ Released i v w)

theorem wp_renameUnlink {Q : Unit → Volume → Prop} {u : Volume} (inv : Inv D X M C v) (dir : dstParent ∈ D)
    (absent : i = inoInvalid → C dstParent dstName.bytes = none) (calm : Calm u v) (stops : Stops E)
    (next : ∀ w, Inv (without D u i) X M (C.set dstParent dstName.bytes none) w → dstParent ∈ without D u i →
      Dropped i u w → (∀ d, (w.inodes d).blocks = (v.inodes d).blocks) →
      (∀ x ∈ v.dcache.map MDirectory.ino, x ≠ i → x ∈ w.dcache.map MDirectory.ino) → Q ⟨⟩ w) :
    wp (renameUnlink dstParent dstName i) Q E v := by
  rw [renameUnlink, wp_ite]
  refine ⟨fun some => ?_, fun invalid => ?_⟩
  · rw [wp_bind]
    refine wp_doUnlinkInode inv stops fun w unlinked inv kept => ?_
    have kind : (if (v.inodes i).isDir then D \ {i} else D) = without D u i := by
      rw [without, isDir_congr (calm.mode i)]
      simp only [some, ne_eq, not_false_eq_true, true_and]
    rw [kind] at inv
    refine wp_dcacheRemDirent inv stops fun dir' c inv keeps => ?_
    refine next _ inv dir' (Or.inr ⟨some, unlinked.released calm Stays.dcache⟩) (fun d => ?_)
      fun x cached other => keeps (kept x cached other)
    cases unlinked with
    | freed _ _ inodes _ => exact congrArg (fun f => (f d).blocks) inodes
    | kept _ _ same =>
      subst same
      exact blocks_setNlinks
  · have zero : i = inoInvalid := by simpa using invalid
    have all : without D u i = D := if_neg fun both => both.1 zero
    rw [wp_pure]
    refine next v ?_ (all.symm ▸ dir) (Or.inl ⟨zero, calm⟩) (fun _ => rfl) fun x cached _ => cached
    rw [all, Entries.set_same (absent zero)]
    exact inv

/-- The entry moves; the inode that loses its entry loses a link. -/
structure Moved (srcParent : Nat) (srcName : List UInt8) (dstParent : Nat) (dstName : List UInt8) (v w : Volume)
    (M M' : Entries) : Prop where
  distinct : ¬(srcParent = dstParent ∧ srcName = dstName)
  dirs : srcParent ∈ w.dirs ∧ dstParent ∈ w.dirs
  entry : ∃ src md, M srcParent srcName = some src ∧ md.ino = src.ino ∧
    M' = ((M.set dstParent dstName none).set srcParent srcName none).set dstParent dstName (some md) ∧
    ((M dstParent dstName = none ∧ md.fileType = src.fileType ∧ Calm v w) ∨
      ∃ dst, M dstParent dstName = some dst ∧ md.fileType = dst.fileType ∧ Released dst.ino v w)

theorem Entries.set_none {d d' : Nat} {n n' : List UInt8} (absent : M d n = none) : M.set d' n' none d n = none := by
  by_cases same : d = d'
  · subst same
    rw [Entries.set_here, Function.update_apply]
    split
    · rfl
    · exact absent
  · rw [Entries.set_other same]
    exact absent

theorem Entries.set_apart {d d' : Nat} {n n' : List UInt8} {md : Option MDirent} (apart : ¬(d = d' ∧ n = n')) :
    M.set d' n' md d n = M d n := by
  by_cases same : d = d'
  · subst same
    rw [Entries.set_here, Function.update_of_ne fun eq => apart ⟨rfl, eq⟩]
  · rw [Entries.set_other same]

theorem dirs_dropped {w : Volume} (dropped : Dropped i v w) : w.dirs = without v.dirs v i := by
  rcases dropped with ⟨zero, calm⟩ | ⟨some, released⟩
  · rw [without, if_neg fun both => both.1 zero]
    exact dirs_congr calm.used calm.mode
  · rw [without, released.dirs]
    simp only [some, ne_eq, not_false_eq_true, true_and]

/-- A rename of an entry to itself stops: its record is out of use where the new one should be. -/
theorem renameEntries_self {u : Volume} {N : Entries} (inv : Inv D {(srcParent, p)} N M u) (dir : srcParent ∈ D)
    (source : M srcParent srcName.bytes = some src) (place : p = src.off) (small : src.ino < 2 ^ 64)
    (alive : src.ino ≠ inoInvalid) (record : At (u.inodes srcParent).blocks p r) (stops : Stops E)
    (cached : srcParent ∈ u.dcache.map MDirectory.ino) {Q : Unit → Volume → Prop} :
    wp (renameEntries srcParent srcName srcParent dstName p i) Q E u := by
  subst place
  rw [renameEntries, wp_bind]
  refine wp_deref inv (fun gone => ?_) fun md found _ => ?_
  · rcases gone with none | absent
    · rw [none] at source
      cases source
    · exact absurd cached absent
  obtain rfl := Option.some.inj (source.symm.trans found)
  rw [wp_bind]
  refine wp_setDirentIno inv dir rfl record small stops fun w inv _ record => ?_
  rw [wp_bind]
  refine wp_setDirentIno inv dir rfl record (by decide) stops fun w inv _ record => ?_
  rw [wp_bind]
  refine wp_getDirent record stops ?_
  rw [wp_bind, wp_assert]
  refine ⟨fun _ => ?_, fun _ => stops _ _ (by decide)⟩
  rw [wp_bind]
  refine wp_getDirent record stops ?_
  rw [wp_bind, wp_assert]
  exact ⟨fun same => absurd same.symm alive, fun _ => stops _ _ (by decide)⟩

/-- The last part of a rename: the old entry leaves the cache, and its record becomes free. -/
theorem rename_finish {u w : Volume} {rs : Rec} (inv : Inv (without u.dirs u i)
      (insert (srcParent, src.off) {(dstParent, p)}) ((M.set dstParent dstName.bytes none).set srcParent srcName.bytes none)
      (M.set dstParent dstName.bytes none) w)
    (dir : dstParent ∈ without u.dirs u i) (dropped : Dropped i u w)
    (apart : ¬(srcParent = dstParent ∧ srcName.bytes = dstName.bytes)) (source : M srcParent srcName.bytes = some src)
    (cached : srcParent ∉ w.dcache.map MDirectory.ino → E .dangling w)
    (old : At (w.inodes srcParent).blocks src.off { rs with ino := inoInvalid }) (length : src.recLen = rs.len)
    (new : At (w.inodes dstParent).blocks p r) (alive : r.ino ≠ inoInvalid) (title : r.name = dstName.bytes)
    (elsewhere : (srcParent, src.off) ∉ ({(dstParent, p)} : Set (Nat × Nat))) (stops : Stops E) {Q : Unit → Volume → Prop}
    (next : srcParent ∈ w.dirs ∧ dstParent ∈ w.dirs → ∀ c, Rest (Volume.dirs { w with dcache := c })
      (((M.set dstParent dstName.bytes none).set srcParent srcName.bytes none).set dstParent dstName.bytes
        (some (mdirent p r))) { w with dcache := c } → Q ⟨⟩ { w with dcache := c }) :
    wp (do
      let src ← deref srcParent srcName.bytes
      dcacheAddFree srcParent src.off src.recLen
      dcacheRemDirent srcParent srcName.bytes
      cacheDirent dstParent p dstName) Q E w := by
  rw [wp_bind]
  refine wp_deref inv (fun gone => ?_) fun md found _ => ?_
  · rcases gone with none | absent
    · rw [Entries.set_apart apart, source] at none
      cases none
    · exact cached absent
  rw [Entries.set_apart apart] at found
  obtain rfl := Option.some.inj (source.symm.trans found)
  rw [wp_bind]
  refine wp_dcacheAddFree inv stops (Or.inl rfl) (Or.inl ⟨{ rs with ino := inoInvalid }, old, rfl, length.symm⟩)
    fun c inv _ => ?_
  rw [Set.insert_sdiff_of_mem _ (Set.mem_singleton _), Set.sdiff_singleton_eq_self elsewhere] at inv
  rw [wp_bind]
  refine wp_dcacheRemDirent inv stops fun srcDir c inv _ => ?_
  refine wp_cacheDirent inv dir new alive title (Entries.set_none ?_) stops fun c inv => ?_
  · rw [Entries.set_here, Function.update_self]
  · rw [Set.sdiff_self] at inv
    have dirs := dirs_dropped dropped
    refine next ⟨dirs ▸ srcDir, dirs ▸ dir⟩ c ?_
    rw [show Volume.dirs { w with dcache := c } = w.dirs from rfl, dirs]
    exact inv

/-- From the two entries on, when they are not the same. -/
theorem renameEntries_spec {u : Volume} (inv : Inv v.dirs {(dstParent, p)} (M.set dstParent dstName.bytes none) M u)
    (stays : Stays v u) (srcDir : srcParent ∈ v.dirs) (dstDir : dstParent ∈ v.dirs)
    (source : M srcParent srcName.bytes = some src) (small : src.ino < 2 ^ 64) (alive : src.ino ≠ inoInvalid)
    (apart : ¬(srcParent = dstParent ∧ srcName.bytes = dstName.bytes))
    (cached : srcParent ∈ u.dcache.map MDirectory.ino) (record : At (u.inodes dstParent).blocks p r)
    (title : r.name = dstName.bytes) (target : Target M dstParent dstName.bytes src p i r) (stops : Stops E)
    (hang : i = srcParent → ∀ w, E .dangling w) :
    wp (renameEntries srcParent srcName dstParent dstName p i) (fun _ w => ∃ M', Rest w.dirs M' w ∧
      Moved srcParent srcName.bytes dstParent dstName.bytes v w M M') E u := by
  rw [renameEntries, wp_bind]
  refine wp_deref inv (fun gone => ?_) fun md found _ => ?_
  · rcases gone with none | absent
    · rw [none] at source
      cases source
    · exact absurd cached absent
  obtain rfl := Option.some.inj (source.symm.trans found)
  have listed : M.set dstParent dstName.bytes none srcParent srcName.bytes = some src :=
    (Entries.set_apart apart).trans source
  obtain ⟨rs, live, elsewhere, -, entry⟩ := inv.record srcDir listed
  have other : ¬(srcParent = dstParent ∧ src.off = p) := fun same => elsewhere (Prod.ext same.1 same.2)
  rw [wp_bind]
  refine wp_setDirentIno (inv.expose srcDir listed) dstDir (Or.inr rfl) record small stops
    fun w₁ inv stored₁ new₁ => ?_
  have old₁ := stored₁.record srcParent src.off rs other live.1
  rw [wp_bind]
  refine wp_setDirentIno inv srcDir (Or.inl rfl) old₁ (by decide) stops fun w₂ inv stored₂ old₂ => ?_
  have new₂ := stored₂.record dstParent p _ (fun same => other ⟨same.1.symm, same.2.symm⟩) new₁
  have before : Stays v w₂ := stays.trans (stored₁.toStays.trans stored₂.toStays)
  rw [wp_bind]
  refine wp_getDirent old₂ stops ?_
  rw [wp_bind, wp_assert]
  refine ⟨fun _ => ?_, fun _ => stops _ _ (by decide)⟩
  rw [wp_bind]
  refine wp_getDirent new₂ stops ?_
  rw [wp_bind, wp_assert]
  refine ⟨fun _ => ?_, fun _ => stops _ _ (by decide)⟩
  rw [wp_bind]
  refine wp_renameNlinks inv ((isDir_congr (before.mode _)).trans srcDir.2) ((isDir_congr (before.mode _)).trans dstDir.2)
    stops fun w₃ inv calm dcache blocks₃ => ?_
  rw [wp_bind]
  refine wp_renameUnlink inv dstDir (fun zero => ?_) (before.calm.trans calm) stops
    fun w₄ inv dir dropped blocks₄ kept => ?_
  · cases target with
    | new absent _ _ => exact absent
    | old _ _ _ live _ => exact absurd zero live
  have same : ∀ d, (w₄.inodes d).blocks = (w₂.inodes d).blocks := fun d => (blocks₄ d).trans (blocks₃ d)
  refine rename_finish (r := { r with ino := src.ino }) inv dir dropped apart source (fun absent => ?_) (same srcParent ▸ old₂)
    (congrArg MDirent.recLen entry) (same dstParent ▸ new₂) alive title elsewhere stops fun dirs c rest => ?_
  · refine hang (by_contra fun different => absent (kept srcParent ?_ fun eq => different eq.symm)) w₄
    rw [dcache, stored₂.dcache, stored₁.dcache]
    exact cached
  refine ⟨_, rest, apart, dirs, src, mdirent p { r with ino := src.ino }, source, rfl, rfl, ?_⟩
  cases target with
  | new absent none type =>
    refine Or.inl ⟨absent, type, ?_⟩
    exact (dropped.resolve_right fun wrong => wrong.1 none).2.trans Stays.dcache.calm
  | old found _ ino live type =>
    subst ino
    have released := (dropped.resolve_left fun wrong => live wrong.1).2
    exact Or.inr ⟨_, found, type, released.mode, released.nlinks, released.used⟩

theorem fuseRename_spec {fresh : Option Block} (rest : Rest v.dirs M v) (srcDir : srcParent ∈ v.dirs)
    (dstDir : dstParent ∈ v.dirs) (stops : Stops E)
    (hang : ∀ dst, M dstParent dstName.bytes = some dst → dst.ino = srcParent → ∀ w, E .dangling w) :
    wp (fuseRename srcParent srcName dstParent dstName fresh) (fun _ w => ∃ M', Rest w.dirs M' w ∧
      Moved srcParent srcName.bytes dstParent dstName.bytes v w M M') E v := by
  rw [fuseRename, wp_bind]
  refine wp_mono (findDirent_spec rest srcDir) ?_ (fun _ _ => False.elim)
  rintro - - ⟨c, rfl, rest, newest, -, rfl⟩
  rw [wp_ite]
  refine ⟨fun found => ?_, fun _ => wp_throw.mpr (stops _ _ (by decide))⟩
  rw [wp_bind]
  refine wp_deref rest (fun gone => ?_) fun src source _ => ?_
  · rcases gone with none | absent
    · rw [none] at found
      cases found
    · exact absurd newest.member absent
  rw [wp_bind]
  refine wp_getInode stops fun range => ?_
  rw [wp_bind, wp_assert]
  refine ⟨fun _ => ?_, fun _ => stops _ _ (by decide)⟩
  rw [wp_bind]
  refine wp_mono (renameTarget_spec rest source dstDir newest stops) ?_ (fun _ _ => id)
  rintro ⟨p, i⟩ w ⟨stays, inv, cached, r, record, title, target⟩
  have small : src.ino < 2 ^ 64 := range.2.trans_lt rest.small
  have alive : src.ino ≠ inoInvalid := Nat.one_le_iff_ne_zero.mp range.1
  dsimp only
  by_cases apart : srcParent = dstParent ∧ srcName.bytes = dstName.bytes
  · obtain ⟨rfl, names⟩ := apart
    cases target with
    | new absent _ _ =>
      rw [← names, source] at absent
      cases absent
    | old found place _ _ _ =>
      rw [← names, source] at found
      obtain rfl := Option.some.inj found
      exact renameEntries_self inv srcDir source place small alive record stops cached
  · refine renameEntries_spec inv (Stays.dcache.trans stays) srcDir dstDir source small alive apart cached record title
      target stops fun same => ?_
    cases target with
    | new _ none _ => exact absurd (none.symm.trans same) (Nat.one_le_iff_ne_zero.mp (rest.range _ srcDir).1).symm
    | old found _ ino _ _ => exact hang _ found (ino.symm.trans same)

end Rename

end Bpfs.Dir
