import Bpfs.DirRemove

/-! Runs of requests: the layout of the directories and the agreement of the cache with them hold in every volume that
is reached from a new file system. -/

namespace Bpfs.Dir
open Lib Dcache

attribute [local irreducible] wp

/-- What a request does to the entries and to the inodes. -/
def Effect (v w : Volume) (M M' : Entries) : Op → Prop
  | .lookup .. | .drop _ => M' = M ∧ Stays v w
  | .mknod d name _ ino .. | .mkdir d name _ ino .. | .symlink d name ino .. | .create d name _ ino .. =>
      Created d name.bytes ino v w M M'
  | .link ino d name _ => Linked d name.bytes ino v w M M'
  | .unlink d name | .rmdir d name => Removed d name.bytes v w M M'
  | .rename srcParent srcName dstParent dstName _ => Moved srcParent srcName.bytes dstParent dstName.bytes v w M M'

section Step

variable {M : Entries} {v w : Volume} {op : Op}

theorem mkbpfs_root (b : Block) (others : Nat → Inode) :
    (mkbpfs b others).inodes inoRoot = ⟨0x41FD, 2, [b.setRecLen 0 0]⟩ := by
  simp only [mkbpfs, Function.update_self]

theorem mkbpfs_rest (b : Block) (others : Nat → Inode) :
    Rest (mkbpfs b others).dirs (fun _ _ => none) (mkbpfs b others) := by
  have dirs : (mkbpfs b others).dirs = {inoRoot} := by
    ext d
    constructor
    · rintro ⟨used, -⟩
      exact Finset.mem_singleton.mp used
    · rintro rfl
      refine ⟨Finset.mem_singleton_self _, ?_⟩
      simp [mkbpfs_root, Inode.isDir]
  have vacant : ∀ b' ∈ ((mkbpfs b others).inodes inoRoot).blocks, b'.recs = [] := by
    rw [mkbpfs_root]
    intro b' member
    rw [List.mem_singleton.mp member]
    exact (Block.empty (Block.recLen_setRecLen (by decide))).1
  rw [dirs]
  refine ⟨show 64 < 2 ^ 64 by decide, ?_, ?_, fun m member => absurd member List.not_mem_nil, List.nodup_nil⟩
  · rintro d rfl
    exact ⟨le_refl 1, show 1 ≤ 64 by decide⟩
  · rintro d rfl
    refine ⟨fun b' member x record => ?_, fun n md => ⟨fun found => absurd found.symm (Option.some_ne_none _), ?_⟩,
      fun _ _ found => absurd found.symm (Option.some_ne_none _)⟩
    · rw [vacant b' member] at record
      cases record
    · rintro ⟨r, ⟨⟨b', there, record⟩, -⟩, -⟩
      rw [vacant b' (List.mem_of_getElem? there)] at record
      cases record

/-- A directory leaves the cache. -/
theorem Inv.drop {D : Set Nat} {X : Set (Nat × Nat)} {C : Entries} {ino : Nat} (inv : Inv D X M C v) :
    Inv D X M C { v with dcache := erase v.dcache ino } where
  small := inv.small
  range := inv.range
  lists := inv.lists
  caches m member := inv.caches m (List.mem_filter.mp member).1
  once := inv.once.sublist (List.filter_sublist.map _)

/-- Every request keeps the cache in step with the directories. -/
theorem perform_spec (rest : Rest v.dirs M v) (valid : op.Valid v) :
    wp (perform op) (fun _ w => ∃ M', Rest w.dirs M' w ∧ Effect v w M M' op) (fun _ _ => True) v := by
  have stops : Stops (fun _ _ => True) := fun _ _ _ => trivial
  cases op with
  | lookup d name =>
    rw [perform, wp_bind]
    refine wp_mono (findDirent_spec rest valid) ?_ (fun _ _ _ => trivial)
    rintro - - ⟨c, rfl, rest, -⟩
    exact wp_pure.mpr ⟨M, rest, rfl, Stays.dcache⟩
  | mknod d name mode ino fresh data =>
    rw [perform, fuseMknod, wp_ite]
    exact ⟨fun _ => wp_throw.mpr trivial, fun _ => createFile_spec rest valid stops⟩
  | mkdir d name mode ino fresh data =>
    rw [perform, fuseMkdir]
    exact createFile_spec rest valid stops
  | symlink d name ino fresh data =>
    rw [perform, fuseSymlink]
    exact createFile_spec rest valid stops
  | create d name mode ino fresh data =>
    rw [perform, fuseCreate]
    exact createFile_spec rest valid stops
  | link ino d name fresh =>
    rw [perform]
    exact fuseLink_spec rest valid.2 stops
  | unlink d name =>
    rw [perform]
    exact fuseUnlink_spec rest valid
  | rmdir d name =>
    rw [perform]
    exact fuseRmdir_spec rest valid
  | rename srcParent srcName dstParent dstName fresh =>
    rw [perform]
    exact fuseRename_spec rest valid.1 valid.2 stops fun _ _ _ _ => trivial
  | drop ino =>
    rw [perform, wp_modify]
    exact ⟨M, rest.drop, rfl, Stays.dcache⟩

theorem step_rest (rest : Rest v.dirs M v) (valid : op.Valid v) (run : perform op v = .ok ⟨⟩ w) :
    ∃ M', Rest w.dirs M' w ∧ Effect v w M M' op :=
  (wp_ok run).mp (perform_spec rest valid)

theorem Reaches.rest {P : Volume → Op → Prop} (reaches : Reaches P v) : ∃ M, Rest v.dirs M v := by
  induction reaches with
  | start b others => exact ⟨_, mkbpfs_rest b others⟩
  | step _ valid _ run ih =>
    obtain ⟨M, rest⟩ := ih
    obtain ⟨M', rest', -⟩ := step_rest rest valid run
    exact ⟨M', rest'⟩

end Step

/-- The records tile the blocks of the directory, the free list of the cache is right, and the names differ. -/
structure Layout (v : Volume) (d : Nat) : Prop where
  tiles : ∀ b ∈ (v.inodes d).blocks, Block.Scan b 0 b.recs b.scanEnd ∧ ∀ x ∈ b.recs, Block.Fits x.1 x.2
  free : ∀ m ∈ v.dcache, m.ino = d →
    (m.free.map Prod.fst).Nodup ∧ ∀ f ∈ m.free, Available (v.inodes d).blocks f.1 f.2
  names : ∀ p q r s, Live (v.inodes d).blocks p r → Live (v.inodes d).blocks q s → r.name = s.name → p = q

section Claims

variable {M : Entries} {v : Volume} {d : Nat}

theorem Inv.layout (rest : Rest v.dirs M v) (dir : d ∈ v.dirs) : Layout v d where
  tiles b member := ⟨b.scan_recs, (rest.lists d dir).tiled b member⟩
  free m member same := by
    subst same
    obtain ⟨-, caches⟩ := rest.caches m member
    exact ⟨caches.distinct, fun f inside => (caches.free f inside).2⟩
  names p q r s one two same := by
    have first := ((rest.lists d dir).entry r.name (mdirent p r)).mpr ⟨r, one, id, rfl, rfl⟩
    have second := ((rest.lists d dir).entry r.name (mdirent q s)).mpr ⟨s, two, id, same.symm, rfl⟩
    exact congrArg MDirent.off (Option.some.inj (first.symm.trans second))

/-- Where a request ends. -/
def outcome : EStateM.Result DirErr Volume Unit → Volume
  | .ok _ w | .error _ w => w

def succeeds : EStateM.Result DirErr Volume Unit → Bool
  | .ok _ _ => true
  | .error _ _ => false

theorem eq_ok {x : EStateM.Result DirErr Volume Unit} (good : succeeds x = true) : x = .ok ⟨⟩ (outcome x) := by
  cases x with
  | ok _ _ => rfl
  | error _ _ => cases good

/-- A new file system on memory full of zeros. -/
def blank : Volume := mkbpfs (fun _ => 0) (fun _ => ⟨0, 0, []⟩)

def nameA : Name := ⟨[97], by decide⟩
def nameB : Name := ⟨[98], by decide⟩

/-- The root directory has the regular file `a`. -/
def oneFile : Volume := outcome (perform (.create inoRoot nameA 0x81A4 2 none none) blank)

theorem root_blank : inoRoot ∈ blank.dirs := by
  refine ⟨Finset.mem_singleton_self _, ?_⟩
  rw [blank, mkbpfs_root]
  decide

theorem root_oneFile : inoRoot ∈ oneFile.dirs := ⟨by decide +kernel, by decide +kernel⟩

theorem reaches_oneFile (P : Volume → Op → Prop) (allowed : P blank (.create inoRoot nameA 0x81A4 2 none none)) :
    Reaches P oneFile := by
  have start : Reaches P blank := .start _ _
  have run : perform (.create inoRoot nameA 0x81A4 2 none none) blank = .ok ⟨⟩ oneFile := eq_ok (by decide +kernel)
  have valid : Op.Valid blank (.create inoRoot nameA 0x81A4 2 none none) := root_blank
  exact start.step valid allowed run

/-- The layout holds in every directory, and an allocation changes no byte of an entry; when it is for a new file, the
inode has been allocated before. -/
theorem directory_layout (reaches : Reaches (fun _ _ => True) v) (dir : d ∈ v.dirs) :
    Layout v d ∧ ∀ ninodes used name fresh p w, v.ninodes ≤ ninodes → ninodes < 2 ^ 64 →
      allocDirent d name fresh { v with ninodes := ninodes, used := used } = .ok p w →
      ∀ q s, Live (v.inodes d).blocks q s → ∀ k, q ≤ k → k < q + s.len →
        byteAt (w.inodes d).blocks k = byteAt (v.inodes d).blocks k := by
  obtain ⟨M, rest⟩ := reaches.rest
  refine ⟨rest.layout dir, fun ninodes used name fresh p w more small run => ?_⟩
  have inv : Rest v.dirs M { v with ninodes := ninodes, used := used } := rest.frame (fun _ _ => rfl) rfl more small
  exact ((wp_ok run).mp (allocDirent_spec (E := fun _ _ => True) inv dir fun _ _ _ => trivial)).bytes

theorem directory_layout_oneFile : Layout oneFile inoRoot :=
  (directory_layout (reaches_oneFile _ trivial) root_oneFile).1

/-- Looking a name up gives the entry that the blocks have; and a rename uses an entry that has left the cache only if
the one it replaces is the directory that it moves from. -/
theorem cache_agrees (reaches : Reaches (fun _ _ => True) v) :
    (∀ d ∈ v.dirs, ∀ name : Name, ∃ found w, findDirent d name v = .ok found w ∧ w.inodes = v.inodes ∧
      (found = true ↔ ∃ p r, Live (v.inodes d).blocks p r ∧ r.name = name.bytes) ∧
      ∀ p r, Live (v.inodes d).blocks p r → r.name = name.bytes →
        deref d name.bytes w = .ok ⟨p, r.ino, r.len, r.type⟩ w) ∧
    ∀ srcParent ∈ v.dirs, ∀ dstParent ∈ v.dirs, ∀ (srcName dstName : Name) fresh w,
      fuseRename srcParent srcName dstParent dstName fresh v = .error .dangling w →
      ∃ p r, Live (v.inodes dstParent).blocks p r ∧ r.name = dstName.bytes ∧ r.ino = srcParent := by
  obtain ⟨M, rest⟩ := reaches.rest
  refine ⟨fun d dir name => ?_, fun srcParent srcDir dstParent dstDir srcName dstName fresh w run => ?_⟩
  · have lookup : wp (findDirent d name) _ _ v := findDirent_spec rest dir
    obtain ⟨found, -, run, c, rfl, cached, newest, -, rfl⟩ := ok_of_wp lookup
    have entry := (rest.lists d dir).entry name.bytes
    refine ⟨_, _, run, rfl, ?_, fun p r live title => ?_⟩
    · rw [Option.isSome_iff_exists]
      constructor
      · rintro ⟨md, here⟩
        obtain ⟨r, live, -, title, -⟩ := (entry md).mp here
        exact ⟨md.off, r, live, title⟩
      · rintro ⟨p, r, live, title⟩
        exact ⟨mdirent p r, (entry (mdirent p r)).mpr ⟨r, live, id, title, rfl⟩⟩
    · have here := (entry (mdirent p r)).mpr ⟨r, live, id, title, rfl⟩
      obtain ⟨md, -, run, same, rfl⟩ := ok_of_wp (wp_deref (Q := fun md w => M d name.bytes = some md ∧ w = { v with dcache := c })
        cached (fun gone => gone.elim (fun none => by rw [none] at here; cases here) (fun out => out newest.member))
        fun md same _ => ⟨same, rfl⟩)
      rw [run, Option.some.inj (same.symm.trans here)]
      rfl
  · refine (wp_error run).mp (fuseRename_spec (E := fun e _ => e = .dangling →
      ∃ p r, Live (v.inodes dstParent).blocks p r ∧ r.name = dstName.bytes ∧ r.ino = srcParent) rest srcDir dstDir
      (fun e _ other same => absurd same other) fun dst found same _ _ => ?_) rfl
    obtain ⟨r, live, -, title, entry⟩ := rest.record dstDir found
    exact ⟨dst.off, r, live, title, (congrArg MDirent.ino entry).symm.trans same⟩

theorem cache_agrees_oneFile : ∃ found w, findDirent inoRoot nameA oneFile = .ok found w ∧
    (found = true ↔ ∃ p r, Live (oneFile.inodes inoRoot).blocks p r ∧ r.name = nameA.bytes) := by
  obtain ⟨found, w, run, -, same, -⟩ := (cache_agrees (reaches_oneFile _ trivial)).1 inoRoot root_oneFile nameA
  exact ⟨found, w, run, same⟩

end Claims

end Bpfs.Dir
