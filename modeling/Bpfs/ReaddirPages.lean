import Bpfs.Readdir

/-! The pages of `fuse_readdir` put together. Every call crawls the directory anew from the offset it
is given; together the replies are the directory's entries, each once and in order. -/

namespace Bpfs.Readdir
open Lib Walk

/-- Where a directory is: the block with the root of the inode file, that file's tree, the block with
the inode, and the directory's tree. -/
structure Place where
  root : Nat
  inodeHeight : Nat
  inodeTop : Nat
  inodeBytes : Nat
  block : Nat
  height : Nat
  top : Nat

/-- The directory `ino` has the blocks `B`. It is in NVM with all of the way to it, and nothing of it is
in the block with its inode, which a listing stores to. A tree of height 5 is enough for `2 ^ 57` bytes. -/
structure DirAt (s : Fs) (ino : Nat) (l : Place) (B : List Block) : Prop where
  inode : InodeAt s.bpram ino l.root l.inodeHeight l.inodeTop l.inodeBytes l.block
  known : ino - 1 < s.inodeAlloc.ntotal
  way : (treePath s.bpram l.inodeHeight l.inodeTop ((ino - 1) * inodeSize)).Nodup
  apart : l.block ≠ l.root ∧ l.block ≠ blocknoSuper
  idle : s.blockAlloc.frees = [] ∧ s.inodeAlloc.frees = []
  links : halfAt s.bpram l.block (inodeOff ino + 20) ≠ 0
  isDir : sIsDir (halfAt s.bpram l.block (inodeOff ino + 16)) = true
  root : RootIs s.bpram l.block (inodeOff ino + 32) l.height l.top (base B.length)
  low : l.height ≤ 5
  fits : base B.length ≤ span l.height
  nonempty : 0 < B.length
  path : ∀ y < base B.length, ∀ b ∈ treePath s.bpram l.height l.top y, b < 2 ^ 63 ∧ b ≠ l.block
  data : ∀ j b, B[j]? = some b → (leafPtr (leafAt s.bpram l.height l.top (base j))).contents s.bpram = b
  listable : Listable B

-- the rules for `wp` are all that is used of it
attribute [local irreducible] wp

section Crawl

variable {stop : Err} {direntSize : List UInt8 → Nat} {s : Fs} {ino x : Nat} {l : Place} {B : List Block}

/-- The state when the listing has come to byte `y` of the directory. -/
def Reading (direntSize : List UInt8 → Nat) (s : Fs) (params : Params) (B : List Block) (x y : Nat) (t : Fs × Params) :
    Prop :=
  Alike s t.1 ∧ t.2 = fill direntSize params (upTo B x (y / blockSize))

/-- The state when the listing was stopped. -/
def Full (direntSize : List UInt8 → Nat) (s : Fs) (params : Params) (B : List Block) (x : Nat) (t : Fs × Params) : Prop :=
  Alike s t.1 ∧ Stops direntSize params (rest B x) t.2

theorem recs_hole {m : Mem} : Block.recs (BlockPtr.zeroBlock.contents m) = [] := by
  rw [Block.recs, show blockSize = 4095 + 1 from rfl, Block.recsLoop, if_neg]
  rintro ⟨-, some⟩
  exact some rfl

theorem reading_quiet (params : Params) (y : Nat) : Quiet (userOps Params) s.bpram (Reading direntSize s params B x y) :=
  user_quiet (fun _ _ _ reading noted => ⟨reading.1.trans (alike_noted noted), reading.2⟩) fun _ reading => reading.1.bpram

variable (dir : DirAt s ino l B)

include dir

/-- A page does not start in the middle of a hole. -/
theorem DirAt.whole (boundary : Boundary B x) (inside : x < base B.length) :
    x % blockSize = 0 ∨ leafAt s.bpram l.height l.top x ≠ blocknoInvalid ∨ base B.length ≤ base (x / blockSize + 1) := by
  by_cases aligned : x % blockSize = 0
  · exact .inl aligned
  refine .inr (.inl fun hole => ?_)
  have short : x / blockSize < B.length := by
    simp only [base, blockSize] at *
    omega
  have block := List.getElem?_eq_getElem short
  have data := dir.data _ _ block
  rw [leafAt_block (show base (x / blockSize) / blockSize = x / blockSize from Nat.mul_div_cancel_left _ (by decide)), hole,
    leafPtr, if_pos rfl] at data
  apply boundary.used _ block aligned
  rw [← data, recs_hole]

/-- The crawl of the directory from `x` on. -/
def DirAt.pass (boundary : Boundary B x) (inside : x < base B.length) : Pass :=
  treePass s.bpram l.height l.top (base B.length) x (base B.length) .none inside le_rfl
    (lt_of_le_of_lt dir.fits (span_lt dir.low)) (.inl rfl) (dir.whole boundary inside)

/-- The callback lists a block. -/
theorem DirAt.runs (boundary : Boundary B x) (inside : x < base B.length) (params : Params) :
    (dir.pass boundary inside).Runs (userOps Params) (callbackReadDir stop direntSize)
      (Reading direntSize s params B x) (Full direntSize s params B x) where
  quiet y _ := reading_quiet params y
  call j t meets reading := by
    obtain ⟨low, high⟩ := meets
    change x < base (j + 1) at low
    change base j < base B.length at high
    have short : j < B.length := by
      simp only [base, blockSize] at *
      omega
    have later : x / blockSize ≤ j := by
      simp only [base, blockSize] at *
      omega
    have first : enter x j / blockSize = j ∧ enter x j - base j = x - base j := by
      simp only [enter, base, blockSize] at *
      omega
    have last : leave (base B.length) 0 j = base (j + 1) := by
      simp only [leave, span_zero, base, blockSize] at *
      omega
    have length : x - base j + (base (j + 1) - enter x j) = blockSize := by
      simp only [enter, base, blockSize] at *
      omega
    have aligned : (x - base j) % direntAlign = 0 := by
      have start := boundary.aligned
      simp only [direntAlign, base, blockSize] at *
      omega
    have block := List.getElem?_eq_getElem short
    have member := List.mem_of_getElem? block
    have suffix := boundary.suffix later block
    have data := dir.data _ _ block
    have listed := upTo_succ (B := B) later
    have split := rest_split (B := B) (x := x) (show x / blockSize ≤ j + 1 by omega) short
    rw [part_some block] at listed
    generalize B[j] = b at block member suffix data listed
    obtain ⟨u, filled⟩ := t
    obtain ⟨alike, reading⟩ := reading
    change Alike s u at alike
    change filled = fill direntSize params (upTo B x (enter x j / blockSize)) at reading
    change wp (callbackReadDir stop direntSize j (leafPtr (leafAt s.bpram l.height l.top (base j))) (enter x j - base j)
        (leave (base B.length) 0 j - enter x j) _ _ _ _)
      (Ends _ _ _ (leave (base B.length) 0 j)) _ (u, filled)
    unfold callbackReadDir
    rw [wp_bind, wp_get]
    dsimp only
    rw [alike.bpram, data, first.2, last, length, reading, first.1]
    refine wp_seq (readDirLoop_page (b.scan_loop (Nat.le_add_left _ _))
      (fun y inside => dir.listable.sound b member y (suffix.subset inside))
      (fun y inside => dir.listable.types b member y (suffix.subset inside)) aligned (Nat.le_add_left _ _)) ?_
    rintro r ⟨v, params'⟩ ⟨rfl, page⟩
    refine wp_pure.mpr ⟨rfl, ?_⟩
    rcases page with ⟨zero, all⟩ | ⟨one, stops⟩
    · refine .inl ⟨zero, alike, ?_⟩
      dsimp only at all ⊢
      rw [all, fill_fill, ← listed, base, Nat.mul_div_cancel_left _ (by decide)]
    · refine .inr ⟨one, alike, ?_⟩
      rw [split, listed]
      exact stops.prepend.append _

/-- `read_dir` lists what there is from `x` on, or as much of it as fits. -/
theorem DirAt.readDir_page (boundary : Boundary B x) (params : Params) :
    wp (readDir stop direntSize ino x)
      (fun r t => Alike s t.1 ∧ Listed direntSize params (rest B x) r t.2) (fun _ _ => False) (s, params) := by
  have start : Reading direntSize s params B x x (s, params) := by
    refine ⟨.refl s, ?_⟩
    rw [upTo_start, fill_nil]
  have finish : Reading direntSize s params B x (base B.length) =
      fun t => Alike s t.1 ∧ t.2 = fill direntSize params (rest B x) := by
    unfold Reading
    rw [base, Nat.mul_div_cancel_left _ (by decide)]
    rfl
  have memory : ∀ t : Fs × Params, Reading direntSize s params B x x t ∨ Reading direntSize s params B x (base B.length) t ∨
      Full direntSize s params B x t → t.1.bpram = s.bpram := by
    rintro t (early | late | stopped)
    · exact early.1.bpram
    · exact late.1.bpram
    · exact stopped.1.bpram
  have rooted : ∀ t : Fs × Params, Reading direntSize s params B x x t ∨ Reading direntSize s params B x (base B.length) t ∨
      Full direntSize s params B x t →
      RootIs t.1.bpram l.block (inodeOff ino + 32) l.height l.top (base B.length) := fun t known =>
    (memory t known).symm ▸ dir.root
  have crawl : wp (readDir stop direntSize ino x)
      (fun r t => r = 0 ∧ Reading direntSize s params B x (base B.length) t ∨ r = 1 ∧ Full direntSize s params B x t)
      (fun _ _ => False) (s, params) := by
    refine dir.inode.crawlInode_reads (reading_quiet params x) memory ?_ ?_ start
    · intro t early
      rw [early.1.inodeAlloc]
      exact dir.known
    · intro t early
      change wp (Walk.crawlTree (userOps Params) Prod.fst ⟨.bpram l.block, inodeOff ino + 32⟩ x bpfsEof
        (callbackReadDir stop direntSize) l.block) _ _ t
      rcases Nat.lt_or_eq_of_le boundary.inside with inside | rfl
      · exact crawlTree_reads (c := dir.pass boundary inside) rfl (dir.runs boundary inside params) dir.low dir.fits
          (treePass_under fun y _ before b member => (dir.path y before b member).1) rooted (.inr ⟨rfl, rfl⟩) early
      · have some : 0 < base B.length := by
          have := dir.nonempty
          simp only [base, blockSize]
          omega
        refine wp_mono (crawlTree_empty (reading_quiet params _) _ dir.low some (Nat.mul_mod_right _ _) dir.fits
          (fun b member => (dir.path _ (Nat.sub_lt some Nat.one_pos) b member).1)
          (fun t here => rooted t (.inl here)) early) ?_ (fun _ _ never => never)
        rintro _ u ⟨rfl, after⟩
        exact ⟨rfl, .inl ⟨rfl, after⟩⟩
  refine wp_mono crawl ?_ (fun _ _ never => never)
  rintro r t (⟨zero, all⟩ | ⟨one, stopped⟩)
  · rw [finish] at all
    exact ⟨all.1, .inl ⟨zero, all.2⟩⟩
  · exact ⟨stopped.1, .inr ⟨one, stopped.2⟩⟩

end Crawl

section Dots

variable {stop : Err} {direntSize : List UInt8 → Nat}

/-- The entries that no record stands for. -/
def dots (ino parentIno : Nat) : List Entry := [⟨[46], ino, sIfdir, 1⟩, ⟨[46, 46], parentIno, sIfdir, 2⟩]

/-- The entries from the offset `off` of a request on. -/
def remaining (ino parentIno : Nat) (B : List Block) (off : Nat) : List Entry :=
  (dots ino parentIno).drop off ++ rest B (off - firstPersistentOffset)

/-- All entries: `.`, `..`, and the records in use, block by block. -/
def listing (ino parentIno : Nat) (B : List Block) : List Entry := remaining ino parentIno B 0

/-- The buffer of a request holds the next entry, and both `.` and `..` while these are to come. -/
def FitsNext (direntSize : List UInt8 → Nat) (B : List Block) (off maxSize : Nat) : Prop :=
  if off < firstPersistentOffset then direntSize [46] + direntSize [46, 46] ≤ maxSize
  else ∀ e ∈ (rest B (off - firstPersistentOffset)).head?, direntSize e.name ≤ maxSize

theorem wp_addDots_done {ino parentIno n off : Nat} (done : firstPersistentOffset ≤ off)
    {Q : Nat → Fs × Params → Prop} {E : Err → Fs × Params → Prop} {t : Fs × Params} :
    wp (addDots stop direntSize ino parentIno n off) Q E t ↔ Q off t := by
  cases n with
  | zero => rw [addDots, wp_pure]
  | succ n => rw [addDots, if_neg (Nat.not_lt.mpr done), wp_pure]

/-- One round of the loop. -/
theorem wp_addDots_next {ino parentIno n off : Nat} {e : Entry} {s : Fs} {params : Params}
    (entry : (dots ino parentIno)[off]? = some e) (room : params.totalSize + direntSize e.name ≤ params.maxSize)
    {Q : Nat → Fs × Params → Prop} {E : Err → Fs × Params → Prop} :
    wp (addDots stop direntSize ino parentIno (n + 1) off) Q E (s, params) ↔
      wp (addDots stop direntSize ino parentIno n (off + 1)) Q E (s, fill direntSize params [e]) := by
  have added : ({ params with totalSize := params.totalSize + direntSize e.name, buf := params.buf ++ [e] } : Params) =
      fill direntSize params [e] := by simp [fill]
  have more : off < firstPersistentOffset := (List.getElem?_eq_some_iff.mp entry).1
  rw [addDots, if_pos more]
  have this : Entry.mk (if off = 0 then [46] else [46, 46]) (if off = 0 then ino else parentIno) sIfdir (off + 1) = e := by
    obtain rfl | rfl : off = 0 ∨ off = 1 := by
      unfold firstPersistentOffset at more
      omega
    all_goals exact Option.some.inj entry
  generalize Entry.mk (if off = 0 then [46] else [46, 46]) (if off = 0 then ino else parentIno) sIfdir (off + 1) = e' at this
  subst this
  dsimp only
  rw [wp_bind, wp_get]
  dsimp only
  rw [if_neg (Nat.not_lt.mpr room), addEntry, wp_bind, wp_modify]
  dsimp only
  rw [added]

theorem addDots_lists {ino parentIno off maxSize : Nat} (s : Fs)
    (room : off < firstPersistentOffset → direntSize [46] + direntSize [46, 46] ≤ maxSize) :
    wp (addDots stop direntSize ino parentIno 2 off)
      (fun r t => t = (s, fill direntSize ⟨maxSize, 0, []⟩ ((dots ino parentIno).drop off)) ∧
        r - firstPersistentOffset = off - firstPersistentOffset)
      (fun _ _ => False) (s, ⟨maxSize, 0, []⟩) := by
  rcases off with _ | _ | off
  · have both := room (by decide)
    rw [wp_addDots_next rfl, wp_addDots_next rfl, wp_addDots_done (show _ ≤ 2 from le_rfl), fill_fill]
    · exact ⟨rfl, rfl⟩
    · simpa [fill] using both
    · dsimp only
      omega
  · have both := room (by decide)
    rw [wp_addDots_next rfl, wp_addDots_done (show _ ≤ 2 from le_rfl)]
    · exact ⟨rfl, rfl⟩
    · dsimp only
      omega
  · rw [wp_addDots_done (show 2 ≤ off + 2 from Nat.le_add_left _ _)]
    exact ⟨by simp [dots], rfl⟩

end Dots

section Request

variable {stop : Err} {direntSize : List UInt8 → Nat} {s t : Fs} {ino : Nat} {l : Place} {B : List Block}

theorem wp_caught {σ α : Type} {x : EStateM Err σ α} {Q : α → σ → Prop} {s : σ}
    (returns : wp x Q (fun _ _ => False) s) :
    wp (caught x) (fun r t => ∃ a, r = some a ∧ Q a t) (fun _ _ => False) s := by
  obtain ⟨a, t, run, holds⟩ := ok_of_wp returns
  have caughtRun : caught x s = .ok (some a) t := by
    unfold caught
    rw [run]
  exact (wp_ok caughtRun).mpr ⟨a, rfl, holds⟩

/-- A directory stays one when no byte but those of its access time changes. -/
theorem DirAt.stays (dir : DirAt s ino l B)
    (same : ∀ c k, ¬(c = l.block ∧ inodeOff ino + 48 ≤ k ∧ k < inodeOff ino + 48 + 4) → t.bpram c k = s.bpram c k)
    (idle : t.blockAlloc.frees = [] ∧ t.inodeAlloc.frees = []) (total : t.inodeAlloc.ntotal = s.inodeAlloc.ntotal) :
    DirAt t ino l B := by
  have others : ∀ b, b ≠ l.block → t.bpram b = s.bpram b := fun b other => by
    funext k
    exact same b k fun inside => other inside.1
  have before : ∀ k, k < inodeOff ino + 48 → t.bpram l.block k = s.bpram l.block k := fun k early =>
    same _ k fun inside => by omega
  have field : ∀ k, k ≤ 44 → halfAt t.bpram l.block (inodeOff ino + k) = halfAt s.bpram l.block (inodeOff ino + k) :=
    fun k early => leValue_congr fun i inside => before _ (by omega)
  have way := leafAt_apart dir.way fun b other => others b (dir.inode.leaf ▸ other)
  have paths : ∀ y < base B.length, treePath t.bpram l.height l.top y = treePath s.bpram l.height l.top y :=
    fun y inside => treePath_congr fun b member => others b (dir.path y inside b member).2
  exact
    { inode := dir.inode.stays dir.apart dir.way others
      known := total ▸ dir.known
      way := way.2 ▸ dir.way
      apart := dir.apart
      idle := idle
      links := field 20 (by decide) ▸ dir.links
      isDir := field 16 (by decide) ▸ dir.isDir
      root := dir.root.congr fun k _ inside => before k (by omega)
      low := dir.low
      fits := dir.fits
      nonempty := dir.nonempty
      path := fun y inside => (paths y inside).symm ▸ dir.path y inside
      data := fun j b block => by
        rw [← dir.data j b block]
        have inside : base j < base B.length := by
          have short := (List.getElem?_eq_some_iff.mp block).1
          simp only [base, blockSize]
          omega
        exact leaf_contents_congr fun c member => others c (dir.path _ inside c member).2
      listable := dir.listable }

theorem DirAt.alike (dir : DirAt s ino l B) (alike : Alike s t) : DirAt t ino l B :=
  dir.stays (fun c k _ => by rw [alike.bpram]) (by rw [alike.blockAlloc, alike.inodeAlloc]; exact dir.idle)
    (by rw [alike.inodeAlloc])

/-- What a request gets: some of the entries that are left, and none only if there are none. -/
def Page (l reply : List Entry) : Prop := reply <+: l ∧ (reply = [] → l = [])

theorem commit_idle {bm : Bitmap} (idle : bm.frees = []) :
    bm.commit = some { bm with allocs := [], frees := [], prevNtotal := 0 } := by
  rw [Bitmap.commit, idle]
  rfl

theorem orEnospc_returns {α : Type} {x : M α} {Q : α → Fs → Prop} (returns : wp x Q (fun _ _ => False) s) :
    wp (orEnospc x) (fun r t => ∃ a, r = some a ∧ Q a t) (fun _ _ => False) s := by
  have same : orEnospc x = caught x := by
    funext s
    unfold orEnospc caught
    rcases x s with ⟨a, t⟩ | ⟨_ | _ | _, t⟩ <;> rfl
  rw [same]
  exact wp_caught returns

/-- `bpfs_commit` when no block and no inode is to be freed. -/
theorem DirAt.bpfsCommit_keeps (dir : DirAt s ino l B) :
    wp bpfsCommit (fun _ t => DirAt t ino l B) (fun _ _ => False) s := by
  unfold bpfsCommit
  rw [wp_bind, wp_get, commit_idle dir.idle.1, commit_idle dir.idle.2]
  exact wp_modify.mpr (dir.stays (fun _ _ _ => rfl) ⟨rfl, rfl⟩ rfl)

theorem page_of_listed {parentIno off maxSize r : Nat} {params : Params} (room : FitsNext direntSize B off maxSize)
    (listed : Listed direntSize (fill direntSize ⟨maxSize, 0, []⟩ ((dots ino parentIno).drop off))
      (rest B (off - firstPersistentOffset)) r params) :
    Page (remaining ino parentIno B off) params.buf := by
  rcases listed with ⟨-, rfl⟩ | ⟨-, before, e, after, split, rfl, exceeds⟩
  · rw [fill_fill]
    exact ⟨List.prefix_refl _, id⟩
  · rw [fill_fill] at *
    refine ⟨?_, fun none => ?_⟩
    · rw [remaining, split, ← List.append_assoc]
      exact List.prefix_append _ _
    · obtain ⟨noDots, rfl⟩ := List.append_eq_nil_iff.mp (show (dots ino parentIno).drop off ++ before = [] from none)
      have late : ¬off < firstPersistentOffset := Nat.not_lt.mpr (List.drop_eq_nil_iff.mp noDots)
      rw [FitsNext, if_neg late, split] at room
      have fits := room e rfl
      have exceeds : maxSize < direntSize e.name := by simpa [fill, noDots] using exceeds
      exact absurd fits (Nat.not_le.mpr exceeds)

/-- A request at an offset that goes with an entry is answered with the next entries. -/
theorem DirAt.fuseReaddirBody_page (dir : DirAt s ino l B) {parentIno maxSize off : Nat} (now : Nat)
    (boundary : Boundary B (off - firstPersistentOffset)) (room : FitsNext direntSize B off maxSize) :
    wp (fuseReaddirBody stop direntSize ino parentIno off now)
      (fun r t => ∃ reply, r = .buf reply ∧ Page (remaining ino parentIno B off) reply ∧ DirAt t.1 ino l B)
      (fun _ _ => False) (s, ⟨maxSize, 0, []⟩) := by
  unfold fuseReaddirBody
  refine wp_seq (lift_keeps _ (dir.inode.getInode_reads dir.known)) ?_
  rintro _ ⟨t, params⟩ ⟨⟨rfl, alike⟩, rfl⟩
  have links : ¬ptrHalf t.bpram (.bpram l.block) (inodeOff ino + 20) = 0 := alike.bpram ▸ dir.links
  have isDir : ¬sIsDir (ptrHalf t.bpram (.bpram l.block) (inodeOff ino + 16)) = false := by
    rw [alike.bpram]
    exact Bool.not_eq_false _ |>.mpr dir.isDir
  have dir' : DirAt t ino l B := dir.alike alike
  dsimp only
  rw [wp_bind, wp_get]
  dsimp only
  rw [if_neg links, if_neg isDir]
  refine wp_seq (addDots_lists t fun early => ?_) ?_
  · rwa [FitsNext, if_pos early] at room
  rintro from' _ ⟨rfl, onward⟩
  rw [onward]
  refine wp_seq (wp_caught (dir'.readDir_page boundary _)) ?_
  rintro _ ⟨u, params⟩ ⟨r, rfl, alike', listed⟩
  have dir'' : DirAt u ino l B := dir'.alike alike'
  have page := page_of_listed room listed
  dsimp only at page ⊢
  refine wp_seq (lift_keeps _ (orEnospc_returns (dir''.inode.setTime_stamps dir''.known dir''.apart dir''.way 48 now))) ?_
  rintro _ ⟨v, params⟩ ⟨⟨_, rfl, -, stamped⟩, rfl⟩
  have stays : DirAt v ino l B := dir''.stays stamped.others (by rw [stamped.blockAlloc, stamped.inodeAlloc]; exact dir''.idle)
    (by rw [stamped.inodeAlloc])
  dsimp only
  refine wp_seq (lift_keeps _ stays.bpfsCommit_keeps) ?_
  rintro _ ⟨w, params⟩ ⟨done, rfl⟩
  rw [wp_bind, wp_get]
  exact wp_pure.mpr ⟨_, rfl, page, done⟩

end Request

section Pages

variable {stop : Err} {direntSize : List UInt8 → Nat} {ino parentIno off : Nat} {B : List Block}

/-- Behind `.` comes `..`, and both come before the records. -/
theorem dots_after {before after : List Entry} {e : Entry} (split : (dots ino parentIno).drop off = before ++ e :: after) :
    after = (dots ino parentIno).drop e.off ∧ off - firstPersistentOffset = 0 ∧ e.off - firstPersistentOffset = 0 := by
  rcases off with _ | _ | off
  · rcases before with _ | ⟨_, _ | ⟨_, _ | _⟩⟩
    · obtain ⟨rfl, rfl⟩ := List.cons.inj split
      exact ⟨rfl, rfl, rfl⟩
    · obtain ⟨-, tail⟩ := List.cons.inj split
      obtain ⟨rfl, rfl⟩ := List.cons.inj tail
      exact ⟨rfl, rfl, rfl⟩
    all_goals simp [dots] at split
  · rcases before with _ | ⟨_, _ | _⟩
    · obtain ⟨rfl, rfl⟩ := List.cons.inj split
      exact ⟨rfl, rfl, rfl⟩
    all_goals simp [dots] at split
  · simp [dots] at split

/-- Behind an entry comes what is left from its offset on. -/
theorem remaining_after {before after : List Entry} {e : Entry} (listable : Listable B)
    (boundary : Boundary B (off - firstPersistentOffset)) (split : remaining ino parentIno B off = before ++ e :: after) :
    after = remaining ino parentIno B e.off ∧ Boundary B (e.off - firstPersistentOffset) := by
  have record : ∀ c, rest B (off - firstPersistentOffset) = c ++ e :: after →
      after = remaining ino parentIno B e.off ∧ Boundary B (e.off - firstPersistentOffset) := by
    intro c here
    obtain ⟨late, next, boundary'⟩ := rest_after listable boundary here
    refine ⟨?_, boundary'⟩
    rw [remaining, List.drop_eq_nil_iff.mpr late, List.nil_append]
    exact next
  rcases List.append_eq_append_iff.mp split with ⟨c, -, here⟩ | ⟨_ | ⟨e', c⟩, here, there⟩
  · exact record c here
  · exact record [] there.symm
  · obtain ⟨rfl, rfl⟩ := List.cons.inj there
    obtain ⟨next, early, after⟩ := dots_after here
    rw [remaining, after, ← early, next]
    exact ⟨rfl, boundary⟩

/-- No entry is in the listing twice. -/
theorem listing_increasing (listable : Listable B) : (listing ino parentIno B).Pairwise fun e e' => e.off < e'.off := by
  refine List.pairwise_append.mpr ⟨?_, rest_increasing listable (boundary_zero B), ?_⟩
  · exact .cons (fun e member => by simp_all) (List.pairwise_singleton _ _)
  · intro e early e' late
    have before : e.off ≤ firstPersistentOffset := by
      rcases List.mem_cons.mp early with rfl | second
      · exact Nat.le_succ 1
      · rw [List.mem_singleton.mp second]
        exact Nat.le_refl 2
    obtain ⟨i, index, member⟩ := List.mem_flatMap.mp late
    have after := (part_off listable (boundary_zero B) (Nat.zero_le i) member).1
    omega

variable (stop direntSize ino parentIno B) in
/-- Requests one after the other, each at the offset of the last entry of the one before. Between two
of them the file system may do anything that leaves the directory with its blocks. -/
inductive Run : List Entry → Nat → Prop
  | start : Run [] 0
  | page {got reply : List Entry} {off maxSize now : Nat} {s t : Fs} {l : Place} {e : Entry} (run : Run got off)
      (dir : DirAt s ino l B) (room : FitsNext direntSize B off maxSize)
      (answer : fuseReaddir stop direntSize ino parentIno maxSize off now s = .ok (.buf reply) t)
      (last : reply.getLast? = some e) : Run (got ++ reply) e.off

theorem fuseReaddir_page (stop : Err) {s : Fs} {l : Place} {maxSize : Nat} (now : Nat) (dir : DirAt s ino l B)
    (boundary : Boundary B (off - firstPersistentOffset)) (room : FitsNext direntSize B off maxSize) :
    ∃ reply t, fuseReaddir stop direntSize ino parentIno maxSize off now s = .ok (.buf reply) t ∧
      Page (remaining ino parentIno B off) reply ∧ DirAt t ino l B := by
  obtain ⟨_, t, run, reply, rfl, page, kept⟩ := ok_of_wp (dir.fuseReaddirBody_page now boundary room)
  refine ⟨reply, t.1, ?_, page, kept⟩
  unfold fuseReaddir
  rw [run]

/-- What was listed and what is left is always everything. -/
theorem Run.invariant {got : List Entry} (run : Run stop direntSize ino parentIno B got off) :
    listing ino parentIno B = got ++ remaining ino parentIno B off ∧ Boundary B (off - firstPersistentOffset) := by
  induction run with
  | start => exact ⟨rfl, boundary_zero B⟩
  | @page got reply off maxSize now s t l e run dir room answer last ih =>
    obtain ⟨whole, boundary⟩ := ih
    obtain ⟨reply', t', answer', ⟨⟨more, split⟩, -⟩, -⟩ := fuseReaddir_page stop now dir boundary room
    obtain ⟨⟨⟨⟩⟩, -⟩ := EStateM.Result.ok.inj (answer.symm.trans answer')
    obtain ⟨before, rfl⟩ := List.getLast?_eq_some_iff.mp last
    rw [List.append_assoc] at split
    obtain ⟨rfl, boundary'⟩ := remaining_after dir.listable boundary split.symm
    refine ⟨?_, boundary'⟩
    rw [whole, ← split]
    simp

/-- However the entries are split over requests: each request is answered with the next entries, and
the first empty answer comes when every entry was listed, once and in order. -/
theorem paged_readdir {got : List Entry} (run : Run stop direntSize ino parentIno B got off) {s : Fs} {l : Place}
    {maxSize : Nat} (now : Nat) (dir : DirAt s ino l B) (room : FitsNext direntSize B off maxSize) :
    ∃ reply t, fuseReaddir stop direntSize ino parentIno maxSize off now s = .ok (.buf reply) t ∧ DirAt t ino l B ∧
      got ++ reply <+: listing ino parentIno B ∧ (reply = [] → got = listing ino parentIno B) ∧
      (listing ino parentIno B).Pairwise fun e e' => e.off < e'.off := by
  obtain ⟨whole, boundary⟩ := run.invariant
  obtain ⟨reply, t, answer, ⟨⟨more, split⟩, done⟩, kept⟩ := fuseReaddir_page stop now dir boundary room
  refine ⟨reply, t, answer, kept, ⟨more, ?_⟩, fun none => ?_, listing_increasing dir.listable⟩
  · rw [whole, ← split, List.append_assoc]
  · rw [whole, done none, List.append_nil]

end Pages

section Example

/-- A block with a dead record and one for the file `a`. -/
def oneFile : Block := fun k =>
  if k = 8 ∨ k = 24 then 16 else if k = 16 then 7 else if k = 26 then typeFile else if k = 27 then 2
  else if k = 28 then 97 else 0

/-- A root directory of one block: the inodes are in block 4, the records in block 5. -/
def oneBlock : Fs where
  bpram b k :=
    if b = blocknoSuper then if k = 32 then 3 else 0
    else if b = 3 then if k = 0 then 32 else if k = 9 then 16 else 0
    else if b = 4 then if k = 17 then 64 else if k = 20 then 2 else if k = 32 then 40 else if k = 41 then 16 else 0
    else if b = 5 then oneFile k
    else 0
  blockAlloc := ⟨fun _ => 0, 64, 59, [], [], 0⟩
  inodeAlloc := ⟨fun _ => 0, 32, 31, [], [], 0⟩
  disk := ⟨fun _ => 0, blockSize, 8, 1, blockSize, [], fun _ => none, fun _ => none, 0, fun _ => 0, 0⟩
  indirMapping _ := 0
  currentIndirPointer := 0
  treeNblocksNblocks := 0
  iov := []
  inode := (.zeroBlock, 0)
  writes := []
  allocFailures := 0
  cacheCalls := []
  mappingAccesses := []

theorem oneFile_recs : oneFile.recs = [(0, ⟨16, 0, 0, 0, []⟩), (16, ⟨16, 7, typeFile, 2, [97]⟩)] := by decide +kernel

theorem oneBlock_dir : DirAt oneBlock inoRoot ⟨3, 0, 4, blockSize, 4, 0, 5⟩ [oneFile] where
  inode :=
    { number := by decide
      super := by decide
      block := by decide
      root := ⟨by decide, by decide, by decide⟩
      low := by decide
      fits := by decide
      inside := by decide
      small := by decide
      leaf := rfl
      present := by decide }
  known := by decide
  way := by decide
  apart := by decide
  idle := ⟨rfl, rfl⟩
  links := by decide
  isDir := by decide
  root := ⟨by decide, by decide, by decide⟩
  low := by decide
  fits := by decide
  nonempty := by decide
  path y _ b member := by
    rw [List.mem_singleton.mp member]
    decide
  data j b block := by
    cases j with
    | zero =>
      rw [← Option.some.inj block]
      rfl
    | succ j => cases block
  listable := by
    constructor
    all_goals
      intro b first
      rw [List.mem_singleton.mp first, oneFile_recs]
    · intro x member
      rcases List.mem_cons.mp member with rfl | member
      · exact ⟨by decide, by decide, by decide, by decide⟩
      · rw [List.mem_singleton.mp member]
        exact ⟨by decide, by decide, by decide, by decide⟩
    · decide

theorem paged_readdir_oneBlock : ∃ reply t,
    fuseReaddir .sigsegv (fun name => 24 + name.length) inoRoot inoRoot 80 0 9 oneBlock = .ok (.buf reply) t ∧
      DirAt t inoRoot ⟨3, 0, 4, blockSize, 4, 0, 5⟩ [oneFile] ∧ [] ++ reply <+: listing inoRoot inoRoot [oneFile] ∧
      (reply = [] → [] = listing inoRoot inoRoot [oneFile]) ∧
      (listing inoRoot inoRoot [oneFile]).Pairwise fun e e' => e.off < e'.off :=
  paged_readdir .start 9 oneBlock_dir (show 25 + 26 ≤ 80 by decide)

example : listing inoRoot inoRoot [oneFile] =
    [⟨[46], 1, sIfdir, 1⟩, ⟨[46, 46], 1, sIfdir, 2⟩, ⟨[97], 7, 8 * 4096, 34⟩] := by decide +kernel

end Example

end Bpfs.Readdir
