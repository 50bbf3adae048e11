import Bpfs.StillCrawl
import Bpfs.LeafCrawl
import Bpfs.InodeCrawl

/-! Reading crawls (`COMMIT_NONE`) of a whole tree, of an inode and of the data of an inode, over the
operations that `crawl_indir` is given and an arbitrary state that has the file system in it. The state
can so hold what the callback's `user` argument points at. -/

namespace Bpfs.Walk
open Lib

variable {σ : Type}

/-- `crawl_callback_inode` over any state. -/
abbrev CallbackInode (σ : Type) := BlockPtr → Nat → Commit → Nat → EStateM Err σ (Nat × Nat)

section Model

variable (ops : Ops σ) (fs : σ → Fs)

/-- `crawl_leaf` on the only leaf of a tree. -/
def crawlOnlyLeaf (callback : Callback σ) (crawlStart prevBlockno off size valid : Nat) :
    EStateM Err σ (Nat × Nat) := do
  check .crawlLeaf (crawlStart / blockSize ≤ 0)
  check .crawlLeaf (off < blockSize)
  check .crawlLeaf (off + size ≤ blockSize)
  check .crawlLeaf (valid ≤ blockSize)
  let block ← (if prevBlockno = blocknoInvalid then pure .zeroBlock
    else BlockPtr.bpram <$> ops.getBlock prevBlockno)
  callback 0 block off size valid crawlStart .none prevBlockno

/-- The crawl below the root. -/
def crawlBelow (callback : Callback σ) (height maxNblocks addr off size valid : Nat) : EStateM Err σ (Nat × Nat) :=
  if height = 0 then
    if size ≠ 0 then crawlOnlyLeaf ops callback off addr off size valid else pure (0, addr)
  else crawlIndir ops callback off height maxNblocks addr (off / blockSize) off size valid .none

/-- `crawl_tree`. -/
def crawlTree (root : Root) (off size : Nat) (callback : Callback σ) (prevBlockno : Nat) :
    EStateM Err σ (Nat × Nat) := do
  let s ← get
  let nbytes := rootNbytes (fs s).bpram root
  let off := if off = bpfsEof then nbytes else off
  check .crawlTreeRef (size ≠ bpfsEof ∨ off ≤ nbytes)
  let size := if size = bpfsEof then nbytes - off else size
  check .crawlTreeRef (off + size ≤ nbytes)
  let maxNblocks := treeMaxNblocks (haHeight (fs s).bpram root)
  let maxNbytes := nbytesOfBlocks maxNblocks
  let childSize := min size (usub maxNbytes off)
  let (r, childNewBlockno) ← crawlBelow ops callback (haHeight (fs s).bpram root) maxNblocks
    (treeRootAddr (fs s).bpram root) off childSize (min nbytes maxNbytes)
  let t ← get
  check .crawlTreeRef (treeRootAddr (fs t).bpram root = childNewBlockno ∧ off + size ≤ rootNbytes (fs t).bpram root)
  if r = 0 then
    let r ← crawlHole callback off ((off + childSize) / blockSize) childSize (size - childSize) nbytes
    pure (r, prevBlockno)
  else pure (r, prevBlockno)

/-- `get_inode_root`. -/
def getInodeRoot : EStateM Err σ Root := do
  let s ← get
  let blk ← ops.getBlock (superInodeRootAddr (fs s).bpram)
  pure ⟨.bpram blk, 0⟩

/-- `crawl_inodes`. -/
def crawlInodes (off size : Nat) (callback : Callback σ) : EStateM Err σ Nat := do
  let root ← getInodeRoot ops fs
  let s ← get
  let (r, childBlockno) ← crawlTree ops fs root off size callback (superInodeRootAddr (fs s).bpram)
  let t ← get
  -- a crawl that reads may not change the address
  if childBlockno ≠ superInodeRootAddr (fs t).bpram then throw (.assertion .crawlInodes)
  pure r

/-- `get_inode_offset`. -/
def getInodeOffset (ino : Nat) : EStateM Err σ Nat := do
  check .getInodeOffset (ino ≠ 0)
  let s ← get
  check .getInodeOffset (ino - 1 < (fs s).inodeAlloc.ntotal)
  let root ← getInodeRoot ops fs
  let s ← get
  check .getInodeOffset ((ino - 1) * inodeSize + inodeSize ≤ rootNbytes (fs s).bpram root)
  pure ((ino - 1) * inodeSize)

/-- `callback_crawl_inode`. -/
def callbackCrawlInode (callback : CallbackInode σ) : Callback σ :=
  fun _ block off size _ _ commit blockno => do
    check .callbackCrawlInode (size = inodeSize)
    callback block off commit blockno

/-- `crawl_inode`. -/
def crawlInode (ino : Nat) (callback : CallbackInode σ) : EStateM Err σ Nat := do
  let inoOff ← getInodeOffset ops fs ino
  crawlInodes ops fs inoOff inodeSize (callbackCrawlInode callback)

/-- `callback_crawl_data`. -/
def callbackCrawlData (dataOff size : Nat) (callback : Callback σ) : CallbackInode σ :=
  fun block off _ blockno => crawlTree ops fs (rootOfInode block off) dataOff size callback blockno

/-- `crawl_data`. -/
def crawlData (ino off size : Nat) (callback : Callback σ) : EStateM Err σ Nat :=
  crawlInode ops fs ino (callbackCrawlData ops fs off size callback)

end Model

section FileSystem

-- the rules for `wp` are all that is used of it
attribute [local irreducible] wp

variable (callback : CrawlCallback)

theorem fs_crawlOnlyLeaf (addr off size valid : Nat) :
    Bpfs.crawlLeaf (some callback) none off none addr 0 off size valid .none =
      crawlOnlyLeaf fsOps callback off addr off size valid := by
  apply eq_of_wp
  intro Q E s
  simp only [Bpfs.crawlLeaf, crawlOnlyLeaf, ← fs_check, wp_bind, wp_check, wp_ite, wp_pure, ne_eq, not_true_eq_false,
    false_and, if_false, and_true, if_true, fsOps]

theorem fs_crawlTree (root : Root) (off size prevBlockno : Nat) :
    Bpfs.crawlTree root off size .none callback prevBlockno =
      crawlTree fsOps id root off size callback prevBlockno := by
  apply eq_of_wp
  intro Q E s
  simp only [Bpfs.crawlTree, Bpfs.crawlTreeRef, crawlTree, crawlBelow, ← fs_check, wp_bind, wp_get, wp_check, wp_ite,
    wp_pure, ne_eq, not_true_eq_false, false_and, if_false, and_true, if_true, false_or, fs_crawlOnlyLeaf,
    fs_crawlIndir, fs_crawlHole, id_eq, reduceCtorEq, forall_const, false_imp_iff, true_and]

theorem fs_crawlInodes (off size : Nat) :
    Bpfs.crawlInodes off size .none callback = crawlInodes fsOps id off size callback := by
  apply eq_of_wp
  intro Q E s
  simp only [Bpfs.crawlInodes, crawlInodes, Bpfs.getInodeRoot, getInodeRoot, fs_crawlTree, wp_bind, wp_get,
    wp_check, wp_ite, wp_pure, wp_throw, id_eq, ne_eq, reduceCtorEq, or_self, false_imp_iff, not_false_eq_true, forall_const,
    true_and]
  rfl

theorem fs_getInodeRoot : Bpfs.getInodeRoot = getInodeRoot fsOps id := rfl

theorem fs_getInodeOffset (ino : Nat) : Bpfs.getInodeOffset ino = getInodeOffset fsOps id ino := by
  apply eq_of_wp
  intro Q E s
  simp only [Bpfs.getInodeOffset, getInodeOffset, ← fs_getInodeRoot, ← fs_check, wp_bind, wp_get, wp_check, wp_pure, id_eq]

/-- The file system's crawl of an inode is the one over its operations. -/
theorem fs_crawlInode (ino : Nat) (callback : CrawlCallbackInode) :
    Bpfs.crawlInode ino .none callback = crawlInode fsOps id ino callback := by
  unfold Bpfs.crawlInode crawlInode
  simp only [fs_getInodeOffset, fs_crawlInodes]
  rfl

end FileSystem

section Rules

variable {ops : Ops σ} {fs : σ → Fs} {callback : Callback σ} {I : Nat → σ → Prop} {Q : σ → Prop} {s : σ}

attribute [local irreducible] wp

theorem wp_test {site : Site} {c : Prop} {dec : Decidable c} {post : Unit → σ → Prop} {E : Err → σ → Prop} :
    wp (check site c) post E s ↔ (c → post () s) ∧ (¬c → E (.assertion site) s) := by
  unfold check
  rw [wp_ite, wp_pure, wp_throw]

theorem enter_zero (lo : Nat) : enter lo 0 = lo := by simp [enter, base]

theorem leave_zero {hi h : Nat} (fits : hi ≤ span h) : leave hi h 0 = hi := by
  rw [leave, base, Nat.mul_zero, Nat.zero_add, Nat.min_eq_left fits]

theorem validIn_zero (g h : Nat) : validIn g h 0 = min g (span h) := by
  rw [validIn, base, Nat.mul_zero, Nat.sub_zero]

/-- The crawl below the root of a tree with the whole file in it. -/
theorem crawlBelow_reads {c : Pass} (reads : c.commit = .none) (runs : c.Runs ops callback I Q) {h p : Nat}
    (low : h ≤ 5) (fits : c.g ≤ span h) (under : c.Under h 0 p) (here : I c.lo s) :
    wp (crawlBelow ops callback h (512 ^ h) p c.lo (c.hi - c.lo) c.g) (Ends I Q p c.hi) (fun _ _ => False) s := by
  have less := c.less
  have valid := c.valid
  have meets : enter c.lo 0 < leave c.hi h 0 := by
    rw [enter_zero, leave_zero (by omega)]
    exact less
  have whole : validIn c.g h 0 = c.g := by rw [validIn_zero, Nat.min_eq_left fits]
  unfold crawlBelow
  cases h with
  | zero =>
    obtain ⟨inside, number, small⟩ := under.leaf meets
    rw [span_zero] at fits
    have call := runs.call 0
    rw [enter_zero, leave_zero (by rw [span_zero]; omega), ← number, reads, whole, base, Nat.mul_zero, Nat.sub_zero] at call
    rw [if_pos rfl, if_pos (by omega)]
    unfold crawlOnlyLeaf
    refine wp_holds ?_ (wp_holds ?_ (wp_holds ?_ (wp_holds fits ?_)))
    · rw [Nat.div_eq_of_lt (by omega)]
    · omega
    · omega
    · by_cases hole : p = blocknoInvalid
      · rw [if_pos hole, pure_bind]
        rw [leafPtr, if_pos hole] at call
        exact call s inside here
      · rw [if_neg hole, wp_bind, wp_map]
        rw [leafPtr, if_neg hole] at call
        refine wp_mono ((runs.quiet _ less).getBlock p s hole small here) ?_ (fun _ _ never => never)
        rintro _ t ⟨rfl, there⟩
        exact call t inside there
  | succ n =>
    have crawl := Pass.crawlIndir_still runs n 0 p s (by omega) under meets (by rwa [enter_zero])
    rw [enter_zero, leave_zero (by omega), whole, base, Nat.mul_zero, Nat.sub_zero, reads] at crawl
    rw [if_neg (Nat.succ_ne_zero n)]
    exact crawl

/-- `crawl_tree` over bytes of a file that is whole in its tree. -/
theorem crawlTree_reads {c : Pass} (reads : c.commit = .none) (runs : c.Runs ops callback I Q) {R o h p size prev : Nat}
    (low : h ≤ 5) (fits : c.g ≤ span h) (under : c.Under h 0 p)
    (rooted : ∀ t, I c.lo t ∨ I c.hi t ∨ Q t → RootIs (fs t).bpram R o h p c.g)
    (asked : size = c.hi - c.lo ∨ size = bpfsEof ∧ c.hi = c.g) (here : I c.lo s) :
    wp (crawlTree ops fs ⟨.bpram R, o⟩ c.lo size callback prev) (Ends I Q prev c.hi) (fun _ _ => False) s := by
  have less := c.less
  have valid := c.valid
  have wide : span h ≤ span 5 := span_mono low
  have most : span 5 = 2 ^ 57 := by decide
  have root := rooted s (.inl here)
  have bytes : nbytesOfBlocks (512 ^ h) = span h := nbytesOfBlocks_eq low
  have notEof : ¬c.lo = bpfsEof := by
    unfold bpfsEof
    omega
  have length : (if size = bpfsEof then c.g - c.lo else size) = c.hi - c.lo := by
    rcases asked with part | ⟨eof, all⟩
    · rw [if_neg, part]
      unfold bpfsEof
      omega
    · rw [if_pos eof, all]
  have room : min (c.hi - c.lo) (usub (span h) c.lo) = c.hi - c.lo := by
    rw [usub_eq (by omega) (by omega)]
    omega
  unfold crawlTree
  simp only [wp_bind, wp_get, wp_test, root.nbytes, root.height, root.addr, treeMaxNblocks_eq (show h ≤ 6 by omega),
    bytes, if_neg notEof, length, room, Nat.min_eq_left fits]
  refine ⟨fun _ => ⟨fun _ => ?_, fun exceeds => absurd (by omega) exceeds⟩, fun early => absurd (.inr (by omega)) early⟩
  refine wp_mono (crawlBelow_reads reads runs low fits under here) ?_ (fun _ _ never => never)
  rintro ⟨r, b⟩ t ⟨same, ending⟩
  have root' : RootIs (fs t).bpram R o h p c.g := by
    rcases ending with ⟨-, after⟩ | ⟨-, stopped⟩
    · exact rooted t (.inr (.inl after))
    · exact rooted t (.inr (.inr stopped))
  dsimp only at same ending ⊢
  rw [root'.addr, root'.nbytes, same]
  refine ⟨fun _ => ?_, fun wrong => absurd ⟨rfl, by omega⟩ wrong⟩
  rcases ending with ⟨zero, after⟩ | ⟨one, stopped⟩
  · rw [if_pos zero, Nat.sub_self, wp_bind]
    apply crawlHole_empty callback
    · exact Nat.div_le_div_right (by omega)
    · omega
    · rw [wp_pure]
      exact ⟨rfl, .inl ⟨rfl, after⟩⟩
  · rw [if_neg (by rw [one]; decide), wp_pure]
    exact ⟨rfl, .inr ⟨one, stopped⟩⟩

/-- `crawl_tree` from the end of a file of whole blocks on: there is nothing to read. -/
theorem crawlTree_empty {m : Mem} {J : σ → Prop} (quiet : Quiet ops m J) (callback : Callback σ) {R o h p n prev : Nat}
    (low : h ≤ 5) (some : 0 < n) (aligned : n % blockSize = 0) (fits : n ≤ span h)
    (small : ∀ b ∈ treePath m h p (n - 1), b < 2 ^ 63) (rooted : ∀ t, J t → RootIs (fs t).bpram R o h p n)
    (here : J s) :
    wp (crawlTree ops fs ⟨.bpram R, o⟩ n bpfsEof callback prev) (fun r t => r = (0, prev) ∧ J t) (fun _ _ => False) s := by
  have wide : span h ≤ span 5 := span_mono low
  have most : span 5 = 2 ^ 57 := by decide
  have root := rooted s here
  have bytes : nbytesOfBlocks (512 ^ h) = span h := nbytesOfBlocks_eq low
  have notEof : ¬n = bpfsEof := by
    unfold bpfsEof
    omega
  have below : wp (crawlBelow ops callback h (512 ^ h) p n 0 n) (fun r t => r = (0, p) ∧ J t) (fun _ _ => False) s := by
    unfold crawlBelow
    cases h with
    | zero =>
      rw [if_pos rfl, if_neg (not_not.mpr rfl), wp_pure]
      exact ⟨rfl, here⟩
    | succ k =>
      rw [if_neg (Nat.succ_ne_zero k)]
      exact crawlIndir_empty quiet callback n k p _ n n s (by omega) le_rfl some aligned fits le_rfl small here
  unfold crawlTree
  simp only [wp_bind, wp_get, wp_test, root.nbytes, root.height, root.addr, treeMaxNblocks_eq (show h ≤ 6 by omega),
    bytes, if_neg notEof, if_true, Nat.sub_self, Nat.zero_min, Nat.min_eq_left fits]
  refine ⟨fun _ => ⟨fun _ => ?_, fun exceeds => absurd (by omega) exceeds⟩, fun early => absurd (.inr le_rfl) early⟩
  refine wp_mono below ?_ (fun _ _ never => never)
  rintro _ t ⟨rfl, after⟩
  have root' := rooted t after
  dsimp only
  rw [root'.addr, root'.nbytes]
  refine ⟨fun _ => ?_, fun wrong => absurd ⟨rfl, by omega⟩ wrong⟩
  rw [if_pos rfl, wp_bind]
  apply crawlHole_empty callback le_rfl (Nat.zero_le _)
  rw [wp_pure]
  exact ⟨rfl, after⟩

end Rules

section Tree

variable {m : Mem} {h p y y' : Nat}

theorem div_span (y h : Nat) : y / span h = y / blockSize / 512 ^ h := (Nat.div_div_eq_div_mul _ _ _).symm

theorem mod_span (y h : Nat) : y % span h / blockSize = y / blockSize % 512 ^ h := Nat.mod_mul_right_div_self _ _ _

/-- Bytes of one block are in one leaf. -/
theorem leafAt_block (same : y / blockSize = y' / blockSize) : leafAt m h p y = leafAt m h p y' := by
  induction h generalizing p y y' with
  | zero => rfl
  | succ h ih =>
    by_cases hole : p = 0
    · rw [hole, leafAt_hole, leafAt_hole]
    · rw [leafAt_succ hole, leafAt_succ hole, div_span, div_span, same]
      apply ih
      rw [mod_span, mod_span, same]

theorem treePath_block (same : y / blockSize = y' / blockSize) : treePath m h p y = treePath m h p y' := by
  induction h generalizing p y y' with
  | zero => rfl
  | succ h ih =>
    by_cases hole : p = 0
    · rw [hole, treePath_hole, treePath_hole]
    · rw [treePath_succ hole, treePath_succ hole, div_span, div_span, same]
      congr 1
      apply ih
      rw [mod_span, mod_span, same]

theorem mem_treePath_leaf (present : leafAt m h p y ≠ 0) : leafAt m h p y ∈ treePath m h p y := by
  induction h generalizing p y with
  | zero => exact mem_treePath_self present
  | succ h ih =>
    have there : p ≠ 0 := by
      rintro rfl
      exact present (leafAt_hole _ _ _)
    rw [leafAt_succ there] at present ⊢
    rw [treePath_succ there]
    exact List.mem_cons_of_mem _ (ih present)

theorem leafAt_congr {m' : Mem} (same : ∀ b ∈ treePath m h p y, m' b = m b) : leafAt m' h p y = leafAt m h p y := by
  induction h generalizing p y with
  | zero => rfl
  | succ h ih =>
    by_cases hole : p = 0
    · rw [hole, leafAt_hole, leafAt_hole]
    rw [treePath_succ hole] at same
    rw [leafAt_succ hole, leafAt_succ hole, addrAt_congr (same p List.mem_cons_self)]
    exact ih fun b member => same b (List.mem_cons_of_mem _ member)

/-- The bytes of a leaf are the same where its way is the same. -/
theorem leaf_contents_congr {m' : Mem} (same : ∀ b ∈ treePath m h p y, m' b = m b) :
    (leafPtr (leafAt m' h p y)).contents m' = (leafPtr (leafAt m h p y)).contents m := by
  rw [leafAt_congr same]
  by_cases hole : leafAt m h p y = blocknoInvalid
  · rw [hole]
    rfl
  · rw [leafPtr, if_neg hole]
    exact same _ (mem_treePath_leaf hole)

/-- A byte of the tree is one of its leaf's bytes. -/
theorem treeByte_leafAt (inside : y < span h) : treeByte m h p y = (leafPtr (leafAt m h p y)).contents m (y % blockSize) := by
  induction h generalizing p y with
  | zero =>
    rw [span_zero] at inside
    rw [treeByte, leafAt, leafPtr, Nat.mod_eq_of_lt inside]
    by_cases hole : p = 0
    · rw [if_pos hole, if_pos (show p = blocknoInvalid from hole)]
      rfl
    · rw [if_neg hole, if_neg (show ¬p = blocknoInvalid from hole)]
      rfl
  | succ h ih =>
    by_cases hole : p = 0
    · rw [hole, treeByte_hole, leafAt_hole]
      rfl
    · rw [treeByte_succ hole, leafAt_succ hole, ih (Nat.mod_lt _ (span_pos h)), span, Nat.mod_mul_right_mod]

/-- The crawl of the bytes from `lo` to `hi` of the tree of height `h` at `p`, which holds `g` bytes. -/
def treePass (m : Mem) (h p g lo hi : Nat) (commit : Commit) (less : lo < hi) (valid : hi ≤ g) (bounded : g < 2 ^ 64)
    (mode : commit = .none ∨ (commit = .atomic ∧ lo / blockSize = (hi - 1) / blockSize ∧ leafAt m h p lo ≠ blocknoInvalid))
    (whole : lo % blockSize = 0 ∨ leafAt m h p lo ≠ blocknoInvalid ∨ hi ≤ base (lo / blockSize + 1)) : Pass where
  g := g
  lo := lo
  hi := hi
  commit := commit
  m := m
  num j := leafAt m h p (base j)
  less := less
  valid := valid
  bounded := bounded
  mode := by
    rwa [leafAt_block (show base (lo / blockSize) / blockSize = lo / blockSize from Nat.mul_div_cancel_left _ (by decide))]
  whole := by
    rwa [leafAt_block (show base (lo / blockSize) / blockSize = lo / blockSize from Nat.mul_div_cancel_left _ (by decide))]

theorem treePass_under {g lo hi : Nat} {commit : Commit} {less valid bounded mode whole}
    (small : ∀ y, lo ≤ y → y < hi → ∀ b ∈ treePath m h p y, b < 2 ^ 63) :
    (treePass m h p g lo hi commit less valid bounded mode whole).Under h 0 p where
  leaves j _ _ _ := by
    rw [base, base, Nat.mul_zero, Nat.sub_zero]
    rfl
  small y _ after before := by
    rw [base, Nat.mul_zero, Nat.zero_add] at after before
    exact small y after before

end Tree

section Inodes

/-- Inode `ino` is in block `B`. The inode file has its root in block `R`, and its tree, of height `h` at
`p`, holds all its `n` bytes. -/
structure InodeAt (m : Mem) (ino R h p n B : Nat) : Prop where
  number : ino ≠ 0
  super : superInodeRootAddr m = R
  block : R ≠ 0 ∧ R < 2 ^ 63
  root : RootIs m R 0 h p n
  low : h ≤ 5
  fits : n ≤ span h
  inside : (ino - 1) * inodeSize + inodeSize ≤ n
  small : ∀ b ∈ treePath m h p ((ino - 1) * inodeSize), b < 2 ^ 63
  leaf : leafAt m h p ((ino - 1) * inodeSize) = B
  present : B ≠ 0

/-- `J` up to `hi`, `K` from there on. -/
def phase (hi : Nat) (J K : σ → Prop) (y : Nat) : σ → Prop := if y < hi then J else K

theorem phase_before {hi y : Nat} {J K : σ → Prop} (early : y < hi) : phase hi J K y = J := if_pos early

theorem phase_end {hi : Nat} {J K : σ → Prop} : phase hi J K hi = K := if_neg (lt_irrefl _)

/-- The offset of an inode in its block. -/
def inodeOff (ino : Nat) : Nat := (ino - 1) * inodeSize % blockSize

/-- An inode lies in one block. -/
theorem inode_block (ino : Nat) : (ino - 1) * inodeSize / blockSize = ((ino - 1) * inodeSize + inodeSize - 1) / blockSize ∧
    inodeOff ino + inodeSize ≤ blockSize := by
  unfold inodeOff inodeSize blockSize
  omega

namespace InodeAt

attribute [local irreducible] wp

variable {m : Mem} {ino R h p n B : Nat} (inode : InodeAt m ino R h p n B)

include inode

/-- The crawl of the inode's bytes. -/
def pass (commit : Commit) (mode : commit = .none ∨ commit = .atomic) : Pass :=
  treePass m h p n ((ino - 1) * inodeSize) ((ino - 1) * inodeSize + inodeSize) commit
    (Nat.lt_add_of_pos_right (by decide)) inode.inside (lt_of_le_of_lt inode.fits (span_lt inode.low))
    (mode.imp id fun atomic => ⟨atomic, (inode_block ino).1, inode.leaf ▸ inode.present⟩)
    (.inr (.inl (inode.leaf ▸ inode.present)))

theorem pass_under (commit : Commit) (mode : commit = .none ∨ commit = .atomic) : (inode.pass commit mode).Under h 0 p := by
  apply treePass_under
  intro y after before b member
  apply inode.small
  have block := (inode_block ino).1
  have same : y / blockSize = (ino - 1) * inodeSize / blockSize := by
    have lower := Nat.div_le_div_right (c := blockSize) after
    have upper : y / blockSize ≤ ((ino - 1) * inodeSize + inodeSize - 1) / blockSize := Nat.div_le_div_right (by omega)
    omega
  rwa [← treePath_block same]

/-- The crawl calls back once, on the block with the inode. -/
theorem pass_call (commit : Commit) (mode : commit = .none ∨ commit = .atomic) {j : Nat}
    (meets : (inode.pass commit mode).Meets j) :
    enter ((ino - 1) * inodeSize) j = (ino - 1) * inodeSize ∧
      leave ((ino - 1) * inodeSize + inodeSize) 0 j = (ino - 1) * inodeSize + inodeSize ∧
      (ino - 1) * inodeSize - base j = inodeOff ino ∧ (inode.pass commit mode).num j = B := by
  obtain ⟨low, high⟩ := meets
  change (ino - 1) * inodeSize < base (j + 1) at low
  change base j < (ino - 1) * inodeSize + inodeSize at high
  have index : j = (ino - 1) * inodeSize / blockSize := by
    unfold inodeSize at *
    simp only [base, blockSize] at *
    omega
  have number : (inode.pass commit mode).num j = B := by
    refine Eq.trans (leafAt_block ?_) inode.leaf
    rw [← index]
    exact Nat.mul_div_cancel_left _ (by decide)
  refine ⟨?_, ?_, ?_, number⟩
  all_goals
    simp only [enter, leave, inodeOff, span_zero, inodeSize, base, blockSize] at *
    omega

theorem getInodeRoot_reads {ops : Ops σ} {fs : σ → Fs} {J : σ → Prop} {s : σ} (quiet : Quiet ops m J)
    (same : ∀ t, J t → (fs t).bpram = m) (here : J s) :
    wp (getInodeRoot ops fs) (fun r t => r = ⟨.bpram R, 0⟩ ∧ J t) (fun _ _ => False) s := by
  unfold getInodeRoot
  rw [wp_bind, wp_get, same s here, inode.super]
  refine wp_seq (quiet.getBlock R s inode.block.1 inode.block.2 here) ?_
  rintro _ t ⟨rfl, there⟩
  exact wp_pure.mpr ⟨rfl, there⟩

theorem getInodeOffset_reads {ops : Ops σ} {fs : σ → Fs} {J : σ → Prop} {s : σ} (quiet : Quiet ops m J)
    (same : ∀ t, J t → (fs t).bpram = m) (known : ∀ t, J t → ino - 1 < (fs t).inodeAlloc.ntotal) (here : J s) :
    wp (getInodeOffset ops fs ino) (fun r t => r = (ino - 1) * inodeSize ∧ J t) (fun _ _ => False) s := by
  unfold getInodeOffset
  refine wp_holds inode.number ?_
  rw [wp_bind, wp_get]
  refine wp_holds (known s here) (wp_seq (inode.getInodeRoot_reads quiet same here) ?_)
  rintro _ t ⟨rfl, there⟩
  rw [wp_bind, wp_get]
  refine wp_holds ?_ (wp_pure.mpr ⟨rfl, there⟩)
  rw [same t there, inode.root.nbytes]
  exact inode.inside

/-- The one call of the crawl takes `J` to `K`. -/
theorem runs {ops : Ops σ} {callback : CallbackInode σ} {J K Q : σ → Prop} {commit : Commit}
    (mode : commit = .none ∨ commit = .atomic) (quiet : Quiet ops m J)
    (call : ∀ t, J t → wp (callback (.bpram B) (inodeOff ino) commit B)
      (fun r u => r.2 = B ∧ (r.1 = 0 ∧ K u ∨ r.1 = 1 ∧ Q u)) (fun _ _ => False) t) :
    (inode.pass commit mode).Runs ops (callbackCrawlInode callback)
      (phase ((ino - 1) * inodeSize + inodeSize) J K) Q where
  quiet y early := by
    change y < (ino - 1) * inodeSize + inodeSize at early
    rw [phase_before early]
    exact quiet
  call j t meets ready := by
    obtain ⟨first, last, place, number⟩ := inode.pass_call _ _ meets
    change phase _ J K (enter ((ino - 1) * inodeSize) j) t at ready
    rw [first, phase_before (Nat.lt_add_of_pos_right (by decide))] at ready
    rw [number, leafPtr, if_neg (show ¬B = blocknoInvalid from inode.present)]
    change wp (callbackCrawlInode callback j _ (enter ((ino - 1) * inodeSize) j - base j)
      (leave ((ino - 1) * inodeSize + inodeSize) 0 j - enter ((ino - 1) * inodeSize) j) _ _ _ _)
      (Ends _ Q B (leave ((ino - 1) * inodeSize + inodeSize) 0 j)) _ t
    rw [first, last, place]
    refine wp_holds (Nat.add_sub_cancel_left _ _) (wp_mono (call t ready) ?_ (fun _ _ never => never))
    rintro r u ⟨kept, ending⟩
    rw [Ends, phase_end]
    exact ⟨kept, ending⟩

/-- `crawl_inode`, reading: one call on the inode. -/
theorem crawlInode_reads {ops : Ops σ} {fs : σ → Fs} {callback : CallbackInode σ} {J K Q : σ → Prop} {s : σ}
    (quiet : Quiet ops m J) (same : ∀ t, J t ∨ K t ∨ Q t → (fs t).bpram = m)
    (known : ∀ t, J t → ino - 1 < (fs t).inodeAlloc.ntotal)
    (call : ∀ t, J t → wp (callback (.bpram B) (inodeOff ino) .none B)
      (fun r u => r.2 = B ∧ (r.1 = 0 ∧ K u ∨ r.1 = 1 ∧ Q u)) (fun _ _ => False) t) (here : J s) :
    wp (crawlInode ops fs ino callback) (fun r t => r = 0 ∧ K t ∨ r = 1 ∧ Q t) (fun _ _ => False) s := by
  have before : phase ((ino - 1) * inodeSize + inodeSize) J K ((ino - 1) * inodeSize) = J :=
    phase_before (Nat.lt_add_of_pos_right (by decide))
  have rooted : ∀ t, phase ((ino - 1) * inodeSize + inodeSize) J K ((ino - 1) * inodeSize) t ∨
      phase ((ino - 1) * inodeSize + inodeSize) J K ((ino - 1) * inodeSize + inodeSize) t ∨ Q t →
      RootIs (fs t).bpram R 0 h p n := by
    intro t known
    rw [before, phase_end] at known
    rw [same t known]
    exact inode.root
  unfold crawlInode
  refine wp_seq (inode.getInodeOffset_reads quiet (fun t ready => same t (.inl ready)) known here) ?_
  rintro _ t ⟨rfl, there⟩
  unfold crawlInodes
  refine wp_seq (inode.getInodeRoot_reads quiet (fun t ready => same t (.inl ready)) there) ?_
  rintro _ u ⟨rfl, ready⟩
  rw [wp_bind, wp_get]
  refine wp_seq (crawlTree_reads (c := inode.pass .none (.inl rfl)) rfl (inode.runs (.inl rfl) quiet call) inode.low inode.fits
    (inode.pass_under .none (.inl rfl)) rooted (.inl (Nat.add_sub_cancel_left _ _).symm) ?_) ?_
  · exact before.symm ▸ ready
  · rintro ⟨r, b⟩ v ⟨kept, ending⟩
    rw [show (inode.pass .none (.inl rfl)).hi = (ino - 1) * inodeSize + inodeSize from rfl, phase_end] at ending
    have memory : (fs v).bpram = m := by
      rcases ending with ⟨-, after⟩ | ⟨-, stopped⟩
      · exact same v (.inr (.inl after))
      · exact same v (.inr (.inr stopped))
    dsimp only at kept ending ⊢
    rw [wp_bind, wp_get, memory, kept, same u (.inl ready), if_neg (not_not.mpr rfl), wp_pure]
    exact ending

end InodeAt

end Inodes

end Bpfs.Walk
