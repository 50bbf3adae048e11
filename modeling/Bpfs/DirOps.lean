import Bpfs.DirAlloc

/-! What the parts of the operations do: link counts, the entry into the cache, the release of an inode. -/

namespace Bpfs.Dir
open Lib Dcache

attribute [local irreducible] wp

/-- The volume with another link count in one inode. -/
def Volume.setNlinks (v : Volume) (i k : Nat) : Volume :=
  { v with inodes := Function.update v.inodes i { v.inodes i with nlinks := k } }

/-- No inode differs but in its data, and the directories in their link counts. -/
structure Calm (v w : Volume) : Prop where
  ninodes : w.ninodes = v.ninodes
  used : w.used = v.used
  mode : ∀ i, (w.inodes i).mode = (v.inodes i).mode
  nlinks : ∀ i, (v.inodes i).isDir = false → (w.inodes i).nlinks = (v.inodes i).nlinks

section Frames

variable {D : Set Nat} {X : Set (Nat × Nat)} {M C : Entries} {v w u : Volume} {d i k : Nat}

theorem isDir_congr {a b : Inode} (same : a.mode = b.mode) : a.isDir = b.isDir := by
  rw [Inode.isDir, Inode.isDir, same]

theorem Stays.calm (stays : Stays v w) : Calm v w := ⟨stays.ninodes, stays.used, stays.mode, fun i _ => stays.nlinks i⟩

theorem Calm.trans (first : Calm v w) (second : Calm w u) : Calm v u where
  ninodes := second.ninodes.trans first.ninodes
  used := second.used.trans first.used
  mode i := (second.mode i).trans (first.mode i)
  nlinks i plain := (second.nlinks i ((isDir_congr (first.mode i)).trans plain)).trans (first.nlinks i plain)

theorem blocks_setNlinks : ((v.setNlinks i k).inodes d).blocks = (v.inodes d).blocks := by
  by_cases same : d = i <;> simp [Volume.setNlinks, Function.update, same]

theorem mode_setNlinks : ((v.setNlinks i k).inodes d).mode = (v.inodes d).mode := by
  by_cases same : d = i <;> simp [Volume.setNlinks, Function.update, same]

theorem nlinks_setNlinks : ((v.setNlinks i k).inodes i).nlinks = k := by
  simp [Volume.setNlinks]

theorem inodes_setNlinks (other : d ≠ i) : (v.setNlinks i k).inodes d = v.inodes d := Function.update_of_ne other ..

theorem Inv.setNlinks (inv : Inv D X M C v) : Inv D X M C (v.setNlinks i k) :=
  inv.frame (fun _ _ => blocks_setNlinks) rfl (le_refl _) inv.small

theorem calm_setNlinks (dir : (v.inodes i).isDir = true) : Calm v (v.setNlinks i k) where
  ninodes := rfl
  used := rfl
  mode _ := mode_setNlinks
  nlinks j plain := by
    have other : j ≠ i := by
      rintro rfl
      rw [dir] at plain
      cases plain
    rw [inodes_setNlinks other]

end Frames

section Parts

variable {D : Set Nat} {X : Set (Nat × Nat)} {M C : Entries} {v : Volume} {d p i : Nat} {r : Rec}
  {Q : Unit → Volume → Prop} {E : DirErr → Volume → Prop}

theorem wp_incNlinks (stops : Stops E) (next : Q ⟨⟩ (v.setNlinks i ((v.inodes i).nlinks + 1))) :
    wp (incNlinks i) Q E v := by
  rw [incNlinks, wp_bind]
  refine wp_getInode stops fun _ => ?_
  rw [wp_ite, setInode, wp_modify, wp_throw]
  exact ⟨fun _ => stops _ _ (by decide), fun _ => next⟩

theorem wp_decNlinks (stops : Stops E)
    (next : 1 ≤ (v.inodes i).nlinks → Q ⟨⟩ (v.setNlinks i ((v.inodes i).nlinks - 1))) : wp (decNlinks i) Q E v := by
  rw [decNlinks, wp_bind]
  refine wp_getInode stops fun _ => ?_
  rw [wp_bind, wp_assert, setInode, wp_modify]
  exact ⟨next, fun _ => stops _ _ (by decide)⟩

/-- `w` differs from `v` in the record at `p` of the directory and in the link count of the directory. -/
structure Noted (v w : Volume) (d p : Nat) : Prop extends Calm v w where
  dcache : w.dcache = v.dcache
  record : ∀ d' q s, ¬(d' = d ∧ q = p) → At (v.inodes d').blocks q s → At (w.inodes d').blocks q s

theorem Stored.noted {w : Volume} (stored : Stored v w d p) : Noted v w d p :=
  ⟨stored.toStays.calm, stored.dcache, stored.record⟩

/-- The link count of the directory changes, then the inode number in the record. -/
theorem wp_setNlinks_setDirentIno {k ino : Nat} (inv : Inv D X M C v) (dir : d ∈ D) (kind : (v.inodes d).isDir = true)
    (pending : (d, p) ∈ X) (record : At (v.inodes d).blocks p r) (small : ino < 2 ^ 64) (stops : Stops E)
    (next : ∀ w, Inv D X M C w → Noted v w d p → At (w.inodes d).blocks p { r with ino := ino } → Q ⟨⟩ w) :
    wp (setDirentIno d p ino) Q E (v.setNlinks d k) := by
  refine wp_setDirentIno inv.setNlinks dir pending (blocks_setNlinks.symm ▸ record) small stops fun w inv stored new => ?_
  refine next w inv ⟨(calm_setNlinks kind).trans stored.toStays.calm, stored.dcache, fun d' q s other old => ?_⟩ new
  exact stored.record d' q s other (blocks_setNlinks.symm ▸ old)

theorem wp_addDirent {ino : Nat} {dirs : Bool} (inv : Inv D X M C v) (dir : d ∈ D) (kind : (v.inodes d).isDir = true)
    (pending : (d, p) ∈ X) (record : At (v.inodes d).blocks p r) (small : ino < 2 ^ 64) (stops : Stops E)
    (next : ∀ w, Inv D X M C w → Noted v w d p → At (w.inodes d).blocks p { r with ino := ino } → Q ⟨⟩ w) :
    wp (addDirent d p ino dirs) Q E v := by
  rw [addDirent, wp_bind]
  refine wp_getInode stops fun _ => ?_
  rw [wp_ite, wp_ite]
  refine ⟨fun _ => ⟨fun _ => wp_throw.mpr (stops _ _ (by decide)), fun _ => ?_⟩, fun _ => ?_⟩
  · rw [wp_bind, wp_assert]
    refine ⟨fun _ => ?_, fun _ => stops _ _ (by decide)⟩
    rw [wp_bind, setInode, wp_modify]
    exact wp_setNlinks_setDirentIno inv dir kind pending record small stops next
  · exact wp_setDirentIno inv dir pending record small stops fun w inv stored => next w inv stored.noted

theorem wp_remDirent {dirs : Bool} (inv : Inv D X M C v) (dir : d ∈ D) (kind : (v.inodes d).isDir = true)
    (pending : (d, p) ∈ X) (record : At (v.inodes d).blocks p r) (stops : Stops E)
    (next : ∀ w, Inv D X M C w → Noted v w d p → At (w.inodes d).blocks p { r with ino := inoInvalid } → Q ⟨⟩ w) :
    wp (remDirent d p dirs) Q E v := by
  have small : inoInvalid < 2 ^ 64 := by decide
  rw [remDirent, wp_bind]
  refine wp_getInode stops fun _ => ?_
  rw [wp_ite]
  refine ⟨fun _ => ?_, fun _ => ?_⟩
  · rw [wp_bind, wp_assert]
    refine ⟨fun _ => ?_, fun _ => stops _ _ (by decide)⟩
    rw [wp_bind, setInode, wp_modify]
    exact wp_setNlinks_setDirentIno inv dir kind pending record small stops next
  · exact wp_setDirentIno inv dir pending record small stops fun w inv stored => next w inv stored.noted

theorem wp_getDirent {Q : Rec → Volume → Prop} (record : At (v.inodes d).blocks p r) (stops : Stops E) (next : Q r v) :
    wp (getDirent d p) Q E v := by
  rw [getDirent, wp_bind]
  refine wp_getInode stops fun _ => ?_
  rw [wp_bind, wp_assert]
  refine ⟨fun _ => ?_, fun _ => stops _ _ (by decide)⟩
  rw [wp_bind, wp_assert]
  refine ⟨fun _ => ?_, fun _ => stops _ _ (by decide)⟩
  rw [wp_bind]
  refine wp_getBlock stops fun b here => ?_
  rw [wp_bind, wp_assert]
  refine ⟨fun _ => ?_, fun _ => stops _ _ (by decide)⟩
  obtain ⟨b', there, member⟩ := record
  obtain rfl := Option.some.inj (here.symm.trans there)
  rw [wp_pure, ← (b.scan_recs.bounds.2 _ member).2.2.1]
  exact next

/-- The record at a place out of account becomes an entry, of the blocks and of the cache. -/
theorem wp_cacheDirent {name : Name} (inv : Inv D X M C v) (dir : d ∈ D) (record : At (v.inodes d).blocks p r)
    (live : r.ino ≠ inoInvalid) (title : r.name = name.bytes) (fresh : M d name.bytes = none) (stops : Stops E)
    (next : ∀ c, Inv D (X \ {(d, p)}) (M.set d name.bytes (some (mdirent p r))) (C.set d name.bytes (some (mdirent p r)))
      { v with dcache := c } → Q ⟨⟩ { v with dcache := c }) :
    wp (cacheDirent d p name) Q E v := by
  rw [cacheDirent, wp_bind]
  refine wp_getDirent record stops ?_
  rw [wp_bind, mdirentInit, wp_bind]
  refine wp_getInode stops fun number => ?_
  have published := inv.publish dir record live number.2 (title.symm ▸ fresh)
  rw [title] at published
  rw [wp_pure]
  exact wp_dcacheAddDirent published stops fun c inv _ => next c inv

/-- Directories are no longer in account. -/
theorem Inv.forget {c : List MDirectory} {used : Finset Nat} (inv : Inv D X M C v) (sub : c.Sublist v.dcache)
    (other : i ∉ c.map MDirectory.ino) : Inv (D \ {i}) X M C { v with used := used, dcache := c } where
  small := inv.small
  range d dir := inv.range d dir.1
  lists d dir := inv.lists d dir.1
  caches m member := by
    obtain ⟨dir, caches⟩ := inv.caches m (sub.subset member)
    exact ⟨⟨dir, fun same => other (List.mem_map.mpr ⟨m, member, same⟩)⟩, caches⟩
  once := inv.once.sublist (sub.map _)

theorem mem_erase {c : List MDirectory} {x : Nat} :
    x ∈ (erase c i).map MDirectory.ino ↔ x ∈ c.map MDirectory.ino ∧ x ≠ i := by
  constructor
  · intro inside
    obtain ⟨m, member, rfl⟩ := List.mem_map.mp inside
    obtain ⟨old, other⟩ := List.mem_filter.mp member
    exact ⟨List.mem_map_of_mem old, by simpa using other⟩
  · rintro ⟨inside, other⟩
    obtain ⟨m, member, rfl⟩ := List.mem_map.mp inside
    exact List.mem_map_of_mem (List.mem_filter.mpr ⟨member, by simpa using other⟩)

/-- The inode loses a link: it is freed, or it has others. -/
inductive Unlinked (i : Nat) (v w : Volume) : Prop where
  | freed (last : (v.inodes i).nlinks = 1 ∨ (v.inodes i).isDir = true) (used : w.used = v.used.erase i)
      (inodes : w.inodes = v.inodes) (ninodes : w.ninodes = v.ninodes)
  | kept (more : 2 ≤ (v.inodes i).nlinks) (plain : (v.inodes i).isDir = false)
      (same : w = v.setNlinks i ((v.inodes i).nlinks - 1))

theorem wp_doUnlinkInode (inv : Inv D X M C v) (stops : Stops E)
    (next : ∀ w, Unlinked i v w → Inv (if (v.inodes i).isDir then D \ {i} else D) X M C w →
      (∀ x ∈ v.dcache.map MDirectory.ino, x ≠ i → x ∈ w.dcache.map MDirectory.ino) → Q ⟨⟩ w) :
    wp (doUnlinkInode i) Q E v := by
  rw [doUnlinkInode, wp_bind]
  refine wp_getInode stops fun _ => ?_
  rw [wp_bind, wp_assert]
  refine ⟨fun some => ?_, fun _ => stops _ _ (by decide)⟩
  rw [wp_ite]
  refine ⟨fun last => ?_, fun more => ?_⟩
  · rw [wp_bind, wp_assert]
    refine ⟨fun _ => ?_, fun _ => stops _ _ (by decide)⟩
    rw [wp_bind, freeInode, wp_bind, wp_get, wp_bind, wp_assert]
    refine ⟨fun _ => ?_, fun _ => stops _ _ (by decide)⟩
    rw [wp_modify]
    cases kind : (v.inodes i).isDir with
    | false =>
      rw [if_neg Bool.false_ne_true, wp_pure]
      refine next _ (.freed last rfl rfl rfl) ?_ fun x cached _ => cached
      rw [kind, if_neg Bool.false_ne_true]
      exact inv.frame (fun _ _ => rfl) rfl (le_refl _) inv.small
    | true =>
      rw [if_pos rfl, forgetDir, wp_bind, dcacheHasDir, wp_bind, wp_get, wp_pure, wp_ite]
      rw [kind, if_pos rfl] at next
      refine ⟨fun has => ?_, fun missing => ?_⟩
      · rw [dcacheRemDir, wp_bind]
        refine wp_findDir (fun _ => stops _ _ (by decide)) fun _ _ _ => ?_
        rw [wp_modify]
        refine next _ (.freed last rfl rfl rfl) (inv.forget List.filter_sublist fun inside => (mem_erase.mp inside).2 rfl) ?_
        exact fun x cached other => mem_erase.mpr ⟨cached, other⟩
      · have absent : i ∉ v.dcache.map MDirectory.ino := find_none (by simpa using missing)
        rw [wp_pure]
        exact next _ (.freed last rfl rfl rfl) (inv.forget (List.Sublist.refl _) absent) fun x cached _ => cached
  · have kind : (v.inodes i).isDir = false := by
      cases same : (v.inodes i).isDir with
      | false => rfl
      | true => exact absurd (Or.inr same) more
    rw [kind, if_neg Bool.false_ne_true] at next
    refine wp_decNlinks stops fun _ => ?_
    exact next _ (.kept (by omega) kind rfl) inv.setNlinks fun x cached _ => cached

end Parts

end Bpfs.Dir
