import Bpfs.DirOps

/-! What the operations that add an entry do: `create_file` and `fuse_link`. -/

namespace Bpfs.Dir
open Lib Dcache

attribute [local irreducible] wp

/-- No entries for one directory. -/
def Entries.clear (M : Entries) (d : Nat) : Entries := Function.update M d (fun _ => none)

/-- A new inode `ino` with an entry of its type. -/
structure Created (d : Nat) (n : List UInt8) (ino : Nat) (v w : Volume) (M M' : Entries) : Prop where
  fresh : ino ∉ v.used
  used : w.used = insert ino v.used
  mode : ∀ i, i ≠ ino → (w.inodes i).mode = (v.inodes i).mode
  nlinks : ∀ i, i ≠ ino → (v.inodes i).isDir = false → (w.inodes i).nlinks = (v.inodes i).nlinks
  linked : (w.inodes ino).isDir = false → 1 ≤ (w.inodes ino).nlinks
  absent : M d n = none
  entry : ∃ md, M' = (M.clear ino).set d n (some md) ∧ md.ino = ino ∧ f2bFiletype (w.inodes ino).mode = some md.fileType

/-- One more entry for the inode `i`. -/
structure Linked (d : Nat) (n : List UInt8) (i : Nat) (v w : Volume) (M M' : Entries) : Prop where
  plain : (v.inodes i).isDir = false
  used : w.used = v.used
  mode : ∀ j, (w.inodes j).mode = (v.inodes j).mode
  nlinks : ∀ j, j ≠ i → (w.inodes j).nlinks = (v.inodes j).nlinks
  linked : (w.inodes i).nlinks = (v.inodes i).nlinks + 1
  absent : M d n = none
  entry : ∃ md, M' = M.set d n (some md) ∧ md.ino = i ∧ f2bFiletype (v.inodes i).mode = some md.fileType

section Create

variable {D : Set Nat} {X : Set (Nat × Nat)} {M C : Entries} {v w : Volume} {d ino mode : Nat}
  {Q : Unit → Volume → Prop} {E : DirErr → Volume → Prop}

theorem f2bFiletype_mod : f2bFiletype (mode % 65536) = f2bFiletype mode := by
  rw [f2bFiletype, f2bFiletype, Nat.mod_mod]

theorem wp_allocInode (stops : Stops E)
    (next : ino ≠ inoInvalid → ino < 2 ^ 64 → ino ∉ v.used →
      Q ⟨⟩ { v with ninodes := max v.ninodes ino, used := insert ino v.used }) : wp (allocInode ino) Q E v := by
  rw [allocInode, wp_bind, wp_get, wp_ite, wp_modify, wp_throw]
  exact ⟨fun free => next free.1 free.2.1 free.2.2, fun _ => stops _ _ (by decide)⟩

theorem wp_initInode {data : Option Block} (stops : Stops E)
    (next : ∀ inode : Inode, inode.mode = mode % 65536 → 1 ≤ inode.nlinks →
      (inode.isDir = true → ∃ b : Block, inode.blocks = [b.setRecLen 0 0]) →
      Q ⟨⟩ { v with inodes := Function.update v.inodes ino inode }) :
    wp (initInode ino mode data) Q E v := by
  unfold initInode
  split
  · exact wp_modify.mpr (next _ rfl (Nat.le_succ 1) fun _ => ⟨_, rfl⟩)
  · exact wp_throw.mpr (stops _ _ (by decide))
  · exact wp_throw.mpr (stops _ _ (by decide))
  · rename_i block _ _ full bare _
    refine wp_modify.mpr (next _ rfl (le_refl _) fun dir => ?_)
    have kind : mode % 65536 / 4096 = 4 := by simpa [Inode.isDir] using dir
    cases block with
    | none => exact absurd rfl (bare kind)
    | some b => exact absurd rfl (full b kind)

/-- A new inode comes into account, if it is a directory. -/
theorem Inv.grow {inode : Inode} (inv : Inv D X M C v) (new : ino ∉ D) (range : 1 ≤ ino ∧ ino ≤ v.ninodes)
    (first : inode.isDir = true → ∃ b : Block, inode.blocks = [b.setRecLen 0 0]) :
    Inv (if inode.isDir then insert ino D else D) X (M.clear ino) (C.clear ino)
      { v with inodes := Function.update v.inodes ino inode } := by
  have other : ∀ d ∈ D, d ≠ ino := fun d dir same => new (same ▸ dir)
  have members : ∀ d, d ∈ (if inode.isDir then insert ino D else D) → d ∈ D ∨ (d = ino ∧ inode.isDir = true) := by
    intro d inside
    split at inside
    · exact inside.elim (fun same => Or.inr ⟨same, ‹_›⟩) Or.inl
    · exact Or.inl inside
  have old : ∀ d ∈ D, d ∈ (if inode.isDir then insert ino D else D) := by
    intro d inside
    split
    · exact Or.inr inside
    · exact inside
  refine ⟨inv.small, fun d inside => ?_, fun d inside => ?_, fun m member => ?_, inv.once⟩
  · rcases members d inside with dir | ⟨rfl, -⟩
    · exact inv.range d dir
    · exact range
  · dsimp only
    rcases members d inside with dir | ⟨rfl, kind⟩
    · rw [Function.update_of_ne (other d dir), Entries.clear, Function.update_of_ne (other d dir)]
      exact inv.lists d dir
    · rw [Function.update_self, Entries.clear, Function.update_self]
      obtain ⟨b, only⟩ := first kind
      obtain ⟨none, -⟩ := Block.empty (show (b.setRecLen 0 0).recLen 0 = 0 from Block.recLen_setRecLen (by decide))
      have vacant : ∀ b' ∈ inode.blocks, b'.recs = [] := by
        rw [only]
        intro b' member
        rw [List.mem_singleton.mp member]
        exact none
      refine ⟨fun b' member x record => ?_, fun n md => ⟨(nomatch ·), ?_⟩, fun _ _ => (nomatch ·)⟩
      · rw [vacant b' member] at record
        cases record
      · rintro ⟨r, ⟨⟨b', there, record⟩, -⟩, -⟩
        rw [vacant b' (List.mem_of_getElem? there)] at record
        cases record
  · obtain ⟨dir, caches⟩ := inv.caches m member
    dsimp only
    rw [Function.update_of_ne (other _ dir), Entries.clear, Function.update_of_ne (other _ dir)]
    exact ⟨old _ dir, caches⟩

/-- The directories in use after an inode came into use. -/
theorem dirs_insert {inode : Inode} (used : w.used = insert ino v.used) (fresh : ino ∉ v.used)
    (here : (w.inodes ino).mode = inode.mode) (rest : ∀ i, i ≠ ino → (w.inodes i).mode = (v.inodes i).mode) :
    w.dirs = if inode.isDir then insert ino v.dirs else v.dirs := by
  have others : ∀ i, i ≠ ino → (i ∈ w.dirs ↔ i ∈ v.dirs) := by
    intro i other
    rw [Volume.dirs, Volume.dirs, Set.mem_ofPred_eq, Set.mem_ofPred_eq, used, Finset.mem_insert, isDir_congr (rest i other)]
    exact and_congr_left' (or_iff_right other)
  ext i
  by_cases same : i = ino
  · subst same
    have out : i ∉ v.dirs := fun inside => fresh inside.1
    have kind : i ∈ w.dirs ↔ inode.isDir = true := by
      rw [Volume.dirs, Set.mem_ofPred_eq, used, isDir_congr here]
      exact and_iff_right (Finset.mem_insert_self ..)
    rw [kind]
    split <;> simp [*]
  · rw [others i same]
    split
    · exact (or_iff_right same).symm
    · rfl

theorem createFile_spec {name : Name} {fresh data : Option Block} (rest : Rest v.dirs M v) (dir : d ∈ v.dirs)
    (stops : Stops E) :
    wp (createFile d name mode ino fresh data)
      (fun _ w => ∃ M', Rest w.dirs M' w ∧ Created d name.bytes ino v w M M') E v := by
  rw [createFile, wp_ite]
  refine ⟨fun _ => wp_throw.mpr (stops _ _ (by decide)), fun _ => ?_⟩
  rw [wp_bind]
  refine wp_getInode stops fun _ => ?_
  rw [wp_bind, wp_assert]
  refine ⟨fun _ => ?_, fun _ => stops _ _ (by decide)⟩
  rw [wp_bind, wp_assert]
  refine ⟨fun _ => ?_, fun _ => stops _ _ (by decide)⟩
  rw [wp_bind]
  refine wp_mono (findDirent_spec rest dir) ?_ (fun _ _ => False.elim)
  rintro - - ⟨c, rfl, rest, -, -, rfl⟩
  rw [wp_ite]
  refine ⟨fun _ => wp_throw.mpr (stops _ _ (by decide)), fun missing => ?_⟩
  have absent : M d name.bytes = none := by simpa using missing
  rw [wp_bind]
  refine wp_allocInode stops fun nonzero small unused => ?_
  have new : ino ∉ v.dirs := fun inside => unused inside.1
  have other : d ≠ ino := fun same => new (same ▸ dir)
  rw [wp_bind]
  refine wp_mono (allocDirent_spec (rest.frame (fun _ _ => rfl) rfl (le_max_left _ _) (max_lt rest.small small)) dir stops)
    ?_ (fun _ _ => id)
  intro p w₁ done
  obtain ⟨r, record, title⟩ := done.record
  split
  · exact wp_throw.mpr (stops _ _ (by decide))
  · rename_i kind type
    rw [wp_bind]
    refine wp_initInode stops fun inode permissions linked first => ?_
    have range : 1 ≤ ino ∧ ino ≤ w₁.ninodes := by
      rw [done.ninodes]
      exact ⟨Nat.one_le_iff_ne_zero.mpr nonzero, le_max_right ..⟩
    have inv := done.inv.grow new range first
    have dir' : d ∈ (if inode.isDir then insert ino v.dirs else v.dirs) := by
      split
      · exact Or.inr dir
      · exact dir
    have record₂ : At (Function.update w₁.inodes ino inode d).blocks p r := by
      rw [Function.update_of_ne other]
      exact record
    have kind₂ : (Function.update w₁.inodes ino inode d).isDir = true := by
      rw [Function.update_of_ne other, isDir_congr (done.mode d)]
      exact dir.2
    rw [wp_bind]
    refine wp_setDirentType inv dir' rfl record₂ stops fun w₃ inv stored record₃ => ?_
    rw [wp_bind]
    refine wp_addDirent inv dir' ((isDir_congr (stored.mode d)).trans kind₂) rfl record₃ small stops
      fun w₄ inv noted record₄ => ?_
    have calm := stored.toStays.calm.trans noted.toCalm
    refine wp_cacheDirent inv dir' record₄ nonzero title ?_ stops fun c inv => ?_
    · rw [Entries.clear, Function.update_of_ne other]
      exact absent
    have here : (w₄.inodes ino).mode = inode.mode := by
      rw [calm.mode]
      dsimp only
      rw [Function.update_self]
    have modes : ∀ i, i ≠ ino → (w₄.inodes i).mode = (v.inodes i).mode := by
      intro i other
      rw [calm.mode]
      dsimp only
      rw [Function.update_of_ne other, done.mode]
    have used : w₄.used = insert ino v.used := calm.used.trans done.used
    refine ⟨(M.clear ino).set d name.bytes (some (mdirent p { r with type := kind, ino := ino })), ?_, unused, used, modes,
      fun i other plain => ?_, fun plain => ?_, absent, _, rfl, rfl, ?_⟩
    · rw [Set.sdiff_self] at inv
      rw [show Volume.dirs { w₄ with dcache := c } = _ from dirs_insert used unused here modes]
      exact inv
    · have same : (Function.update w₁.inodes ino inode i).nlinks = (v.inodes i).nlinks := by
        rw [Function.update_of_ne other, done.nlinks]
      refine (calm.nlinks i ?_).trans same
      dsimp only
      rw [Function.update_of_ne other, isDir_congr (done.mode i)]
      exact plain
    · have plain₂ : (Function.update w₁.inodes ino inode ino).isDir = false := by
        rw [Function.update_self, ← isDir_congr here]
        exact plain
      refine le_of_le_of_eq linked ((calm.nlinks ino plain₂).trans ?_).symm
      dsimp only
      rw [Function.update_self]
    · dsimp only
      rw [here, permissions, f2bFiletype_mod]
      exact type

theorem dirs_congr (used : w.used = v.used) (mode : ∀ i, (w.inodes i).mode = (v.inodes i).mode) : w.dirs = v.dirs := by
  ext i
  rw [Volume.dirs, Volume.dirs, Set.mem_ofPred_eq, Set.mem_ofPred_eq, used, isDir_congr (mode i)]

theorem fuseLink_spec {name : Name} {fresh : Option Block} (rest : Rest v.dirs M v) (dir : d ∈ v.dirs) (stops : Stops E) :
    wp (fuseLink ino d name fresh) (fun _ w => ∃ M', Rest w.dirs M' w ∧ Linked d name.bytes ino v w M M') E v := by
  rw [fuseLink, wp_ite]
  refine ⟨fun _ => wp_throw.mpr (stops _ _ (by decide)), fun _ => ?_⟩
  rw [wp_bind]
  refine wp_getInode stops fun range => ?_
  rw [wp_bind, wp_assert]
  refine ⟨fun file => ?_, fun _ => stops _ _ (by decide)⟩
  have plain : (v.inodes ino).isDir = false := by simpa using file
  rw [wp_bind, wp_assert]
  refine ⟨fun _ => ?_, fun _ => stops _ _ (by decide)⟩
  rw [wp_ite]
  refine ⟨fun _ => wp_throw.mpr (stops _ _ (by decide)), fun _ => ?_⟩
  rw [wp_bind]
  refine wp_getInode stops fun _ => ?_
  rw [wp_bind, wp_assert]
  refine ⟨fun _ => ?_, fun _ => stops _ _ (by decide)⟩
  rw [wp_bind, wp_assert]
  refine ⟨fun _ => ?_, fun _ => stops _ _ (by decide)⟩
  rw [wp_bind]
  refine wp_mono (findDirent_spec rest dir) ?_ (fun _ _ => False.elim)
  rintro - - ⟨c, rfl, rest, -, -, rfl⟩
  rw [wp_ite]
  refine ⟨fun _ => wp_throw.mpr (stops _ _ (by decide)), fun missing => ?_⟩
  have absent : M d name.bytes = none := by simpa using missing
  rw [wp_bind]
  refine wp_mono (allocDirent_spec rest dir stops) ?_ (fun _ _ => id)
  intro p w₁ done
  obtain ⟨r, record, title⟩ := done.record
  rw [wp_bind]
  refine wp_incNlinks stops ?_
  split
  · exact wp_throw.mpr (stops _ _ (by decide))
  · rename_i kind type
    rw [wp_bind]
    refine wp_setDirentType done.inv.setNlinks dir rfl (blocks_setNlinks.symm ▸ record) stops
      fun w₃ inv stored record₃ => ?_
    rw [wp_bind]
    refine wp_setDirentIno inv dir rfl record₃ (range.2.trans_lt rest.small) stops fun w₄ inv stored' record₄ => ?_
    have stays := stored.toStays.trans stored'.toStays
    have modes : ∀ i, (w₄.inodes i).mode = (v.inodes i).mode := fun i =>
      (stays.mode i).trans (mode_setNlinks.trans (done.mode i))
    refine wp_cacheDirent inv dir record₄ (Nat.one_le_iff_ne_zero.mp range.1) title absent stops fun c inv => ?_
    refine ⟨M.set d name.bytes (some (mdirent p { r with type := kind, ino := ino })), ?_, plain,
      stays.used.trans done.used, modes, fun j other => ?_, ?_, absent, _, rfl, rfl, type⟩
    · rw [Set.sdiff_self] at inv
      rw [show Volume.dirs { w₄ with dcache := c } = _ from dirs_congr (stays.used.trans done.used) modes]
      exact inv
    · refine (stays.nlinks j).trans ?_
      rw [inodes_setNlinks other]
      exact done.nlinks j
    · refine (stays.nlinks ino).trans ?_
      rw [nlinks_setNlinks, done.nlinks]

end Create

end Bpfs.Dir
