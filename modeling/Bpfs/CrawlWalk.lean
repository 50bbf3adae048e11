import Bpfs.Crawler

/-! The crawler over the operations it calls. `crawl_indir` and `crawl_leaf` do nothing to
the file system themselves: they compute ranges, and leave every effect to the allocator, to
the loads and stores of block numbers and to the callback. Here these are parameters over an
arbitrary state, and the crawler of the file system is the one instance that matters. -/

namespace Bpfs.Walk

variable {σ : Type}

/-- What `crawl_indir` and `crawl_leaf` call. `loadAddr` is told whether the number it loads
is that of a leaf; `getIndir` is `get_block` on an indirect block. -/
structure Ops (σ : Type) where
  cowBlockHole : Nat → Nat → Nat → EStateM Err σ Nat
  cowBlockEntire : Nat → EStateM Err σ Nat
  getBlock : Nat → EStateM Err σ Nat
  getIndir : Nat → EStateM Err σ Nat
  getBlockFromDisk : Nat → Nat → EStateM Err σ Nat
  loadAddr : Bool → Nat → Nat → EStateM Err σ Nat
  storeAddr : Nat → Nat → Nat → EStateM Err σ Unit
  noteIndir : Nat → Nat → EStateM Err σ Unit

/-- `crawl_callback` over any state. -/
abbrev Callback (σ : Type) := Nat → BlockPtr → Nat → Nat → Nat → Nat → Commit → Nat → EStateM Err σ (Nat × Nat)

abbrev Child (σ : Type) := Nat → Nat → Nat → Nat → Nat → Nat → Commit → EStateM Err σ (Nat × Nat)

def check (site : Site) (c : Prop) [Decidable c] : EStateM Err σ Unit :=
  if c then pure () else throw (.assertion site)

variable (ops : Ops σ) (callback : Callback σ) (crawlStart : Nat)

/-- `crawl_leaf` under an indirect block. -/
def crawlLeaf (indirBlockno prevBlockno blockoff off size valid : Nat) (commit : Commit) :
    EStateM Err σ (Nat × Nat) := do
  check .crawlLeaf (crawlStart / blockSize ≤ blockoff)
  check .crawlLeaf (off < blockSize)
  check .crawlLeaf (off + size ≤ blockSize)
  check .crawlLeaf (valid ≤ blockSize)
  let blockno ← (if commit ≠ .none ∧ prevBlockno = blocknoInvalid then ops.cowBlockHole off size valid
    else pure prevBlockno)
  ops.noteIndir blockno indirBlockno
  let isHole := prevBlockno = blocknoInvalid ∧ commit = .none
  let childCommit := if blockno = prevBlockno then commit else .free
  let block ← (if isHole then pure .zeroBlock else BlockPtr.bpram <$> ops.getBlock blockno)
  callback blockoff block off size valid crawlStart childCommit blockno

/-- The loop of `crawl_hole`. -/
def crawlHoleLoop (fin valid : Nat) : Nat → Nat → Nat → Nat → EStateM Err σ Nat
  | 0, _, _, _ => pure 0
  | n + 1, blockoff, offBlock, off =>
      if off < fin then do
        let childOff := off % blockSize
        let childSize := min (fin - off) blockSize
        let childValid := min (usub valid offBlock) blockSize
        let (r, childBlockno) ← callback blockoff .zeroBlock childOff childSize childValid crawlStart
          .none blocknoInvalid
        check .crawlHole (childBlockno = blocknoInvalid)
        let next := offBlock + blockSize
        if r ≠ 0 then pure r else crawlHoleLoop fin valid n (blockoff + 1) next next
      else pure 0

/-- `crawl_hole`. -/
def crawlHole (blockoff off size valid : Nat) : EStateM Err σ Nat := do
  check .crawlHole (crawlStart / blockSize ≤ blockoff)
  check .crawlHole (off + size ≤ valid)
  crawlHoleLoop callback crawlStart (off + size) valid (size / blockSize + 2) blockoff (off - off % blockSize) off

/-- The number of the child as the loop of `crawl_indir` starts on it. -/
def indirChild (c : IndirCrawl) (leaves : Bool) (blockno no : Nat) : EStateM Err σ Nat := do
  let childBlockno ← (if c.childValid no = 0 ∨ c.inHole then pure blocknoInvalid
    else ops.loadAddr leaves blockno no)
  if leaves ∧ childBlockno.testBit 63 then ops.getBlockFromDisk childBlockno blockno
  else pure childBlockno

/-- The block that takes a child's new number. -/
def indirTarget (c : IndirCrawl) (blockno no r : Nat) : EStateM Err σ Nat :=
  if c.prevBlockno ≠ blockno ∨ (c.commit = .atomic ∧ (c.firstno = c.lastno ∨ r = 1)) ∨ c.childValid no = 0 then
    pure blockno
  else do
    check .crawlIndirCow (¬(c.commit = .atomic ∧ c.onlyInvalid))
    ops.cowBlockEntire blockno

/-- Put a child's new number in the indirect block. -/
def indirLink (c : IndirCrawl) (blockno no r childNewBlockno : Nat) : EStateM Err σ Nat := do
  check .crawlIndir (c.commit ≠ .none)
  let blockno ← indirTarget ops c blockno no r
  ops.storeAddr blockno no childNewBlockno
  pure blockno

/-- What the loop of `crawl_indir` does with the outcome of a child's crawl. -/
def indirSettle (c : IndirCrawl) (blockno no childBlockno r childNewBlockno : Nat) :
    EStateM Err σ (Nat × Nat) := do
  let blockno ← (if childBlockno ≠ childNewBlockno ∨ c.inHole then
      indirLink ops c blockno no r childNewBlockno
    else pure blockno)
  (if r = 1 then check .crawlIndir (¬c.inHole) else pure ())
  pure (r, blockno)

/-- One round of the loop of `crawl_indir`. -/
def indirStep (c : IndirCrawl) (leaves : Bool) (child : Child σ) (blockno no : Nat) :
    EStateM Err σ (Nat × Nat) := do
  check .crawlIndir (c.blockoff ≤ c.childBlockoff no)
  check .crawlIndir (c.childSize no ≤ c.size)
  check .crawlIndir (c.childSize no ≤ c.childMaxNbytes)
  let childBlockno ← indirChild ops c leaves blockno no
  let (r, childNewBlockno) ← child blockno childBlockno (c.childBlockoff no) (c.childOff no)
    (c.childSize no) (c.childValid no) c.childCommit
  indirSettle ops c blockno no childBlockno r childNewBlockno

/-- The loop of `crawl_indir`, for `n` more children from `no` on. -/
def indirLoop (c : IndirCrawl) (leaves : Bool) (child : Child σ) : Nat → Nat → Nat → EStateM Err σ (Nat × Nat)
  | 0, _, blockno => pure (0, blockno)
  | n + 1, no, blockno => do
      let (r, blockno) ← indirStep ops c leaves child blockno no
      if r = 1 then pure (1, blockno) else indirLoop c leaves child n (no + 1) blockno

/-- The body of `crawl_indir` when there is a callback. -/
def crawlIndirNode (leaves : Bool) (child : Child σ) (maxNblocks : Nat)
    (prevBlockno blockoff off size valid : Nat) (commit : Commit) : EStateM Err σ (Nat × Nat) :=
  let childMaxNblocks := maxNblocks / blocknosPerIndir
  let childMaxNbytes := nbytesOfBlocks childMaxNblocks
  let inHole := prevBlockno = blocknoInvalid
  let c : IndirCrawl := ⟨prevBlockno, blockoff, off, size, valid, commit, childMaxNblocks,
    childMaxNbytes, inHole⟩
  if childMaxNbytes = 0 then throw .sigfpe
  else if inHole ∧ commit = .none then do
    let r ← crawlHole callback crawlStart blockoff off size valid
    pure (r, prevBlockno)
  else do
    let blockno ← (if inHole then
        ops.cowBlockHole (c.firstno * 8) ((c.lastno + 1 - c.firstno) * 8) (c.validno * 8)
      else pure prevBlockno)
    let blockno ← ops.getIndir blockno
    indirLoop ops c leaves child (c.lastno + 1 - c.firstno) c.firstno blockno

/-- `crawl_indir` at the given height. -/
def crawlIndir : Nat → Nat → Nat → Nat → Nat → Nat → Nat → Commit → EStateM Err σ (Nat × Nat)
  | 0, _, _, _, _, _, _, _ => throw .stackOverflow
  | height + 1, maxNblocks, prevBlockno, blockoff, off, size, valid, commit =>
      crawlIndirNode ops callback crawlStart (height = 0)
        (if height = 0 then crawlLeaf ops callback crawlStart
          else fun _ => crawlIndir height (maxNblocks / blocknosPerIndir))
        maxNblocks prevBlockno blockoff off size valid commit

section FileSystem

/-- The operations of the file system. -/
def fsOps : Ops Fs where
  cowBlockHole := Bpfs.cowBlockHole
  cowBlockEntire := Bpfs.cowBlockEntire
  getBlock := Bpfs.getBlock
  getIndir := Bpfs.getBlock
  getBlockFromDisk := Bpfs.getBlockFromDisk
  loadAddr _ := Bpfs.loadAddr
  storeAddr := Bpfs.storeAddr
  noteIndir := Bpfs.noteIndir

variable (callback : CrawlCallback) (crawlStart : Nat)

theorem ite_next {α β : Type} {c : Prop} {dec : Decidable c} (x y : EStateM Err σ α) (f : α → EStateM Err σ β) :
    (if c then x else y) >>= f = if c then x >>= f else y >>= f := by
  split <;> rfl

theorem fs_crawlLeaf (indir prevBlockno blockoff off size valid : Nat) (commit : Commit) :
    Bpfs.crawlLeaf (some callback) none crawlStart (some indir) prevBlockno blockoff off size valid commit =
      crawlLeaf fsOps callback crawlStart indir prevBlockno blockoff off size valid commit := by
  unfold crawlLeaf
  simp only [ite_next]
  rfl

theorem fs_indirChild (c : IndirCrawl) (leaves : Bool) (blockno no : Nat) :
    Bpfs.indirChild c leaves blockno no = indirChild fsOps c leaves blockno no := by
  unfold indirChild
  simp only [ite_next]
  rfl

theorem fs_indirSettle (c : IndirCrawl) (blockno no childBlockno r childNewBlockno : Nat) :
    Bpfs.indirSettle c blockno no childBlockno r childNewBlockno =
      indirSettle fsOps c blockno no childBlockno r childNewBlockno := by
  have link : Bpfs.indirLink c blockno no r childNewBlockno = indirLink fsOps c blockno no r childNewBlockno := by
    unfold indirLink indirTarget
    simp only [ite_next, bind_assoc]
    rfl
  unfold indirSettle
  simp only [← link, ite_next]
  rfl

theorem fs_indirLoop (c : IndirCrawl) (leaves : Bool) {child child' : ChildCrawl} (same : child = child')
    (n no blockno : Nat) :
    Bpfs.indirLoop c leaves child n no blockno = indirLoop fsOps c leaves child' n no blockno := by
  subst same
  have step : ∀ blockno no,
      Bpfs.indirStep c leaves child blockno no = indirStep fsOps c leaves child blockno no := by
    intro blockno no
    unfold Bpfs.indirStep indirStep
    simp only [fs_indirChild, fs_indirSettle]
    rfl
  induction n generalizing no blockno with
  | zero => rfl
  | succ n ih =>
    unfold Bpfs.indirLoop indirLoop
    simp only [step, ih]

theorem fs_check (site : Site) (c : Prop) {dec : Decidable c} : Bpfs.check site c = check site c := rfl

theorem fs_crawlHole (blockoff off size valid : Nat) :
    Bpfs.crawlHole callback crawlStart blockoff off size valid =
      crawlHole callback crawlStart blockoff off size valid := by
  have loop : ∀ n blockoff offBlock start,
      Bpfs.crawlHoleLoop callback crawlStart (off + size) valid n blockoff offBlock start =
        crawlHoleLoop callback crawlStart (off + size) valid n blockoff offBlock start := by
    intro n
    induction n with
    | zero => intros; rfl
    | succ n ih =>
      intro blockoff offBlock start
      simp only [Bpfs.crawlHoleLoop, crawlHoleLoop, ih, fs_check]
  simp only [Bpfs.crawlHole, crawlHole, loop, fs_check]

theorem fs_start (c : IndirCrawl) (leaves : Bool) (child : ChildCrawl) (blockno : Nat) :
    (Bpfs.getBlock blockno >>= fun blockno =>
        Bpfs.indirLoop c leaves child (c.lastno + 1 - c.firstno) c.firstno blockno) =
      (fsOps.getIndir blockno >>= fun blockno =>
        indirLoop fsOps c leaves child (c.lastno + 1 - c.firstno) c.firstno blockno) := by
  have loops : Bpfs.indirLoop c leaves child (c.lastno + 1 - c.firstno) c.firstno =
      indirLoop fsOps c leaves child (c.lastno + 1 - c.firstno) c.firstno :=
    funext (fs_indirLoop c leaves rfl _ _)
  have get : fsOps.getIndir = Bpfs.getBlock := rfl
  rw [get, loops]

theorem fs_crawlIndirNode (leaves : Bool) (child : ChildCrawl)
    (maxNblocks prevBlockno blockoff off size valid : Nat) (commit : Commit) :
    Bpfs.crawlIndirNode (some callback) none crawlStart leaves child maxNblocks prevBlockno blockoff off size
        valid commit =
      crawlIndirNode fsOps callback crawlStart leaves child maxNblocks prevBlockno blockoff off size valid
        commit := by
  have hole : fsOps.cowBlockHole = Bpfs.cowBlockHole := rfl
  rw [crawlIndirNode, hole]
  simp only [← fs_start, ← fs_crawlHole]
  rw [Bpfs.crawlIndirNode]
  by_cases zero : nbytesOfBlocks (maxNblocks / blocknosPerIndir) = 0
  · rw [if_pos zero, if_pos zero]
    rfl
  rw [if_neg zero, if_neg zero]
  by_cases blank : prevBlockno = blocknoInvalid ∧ commit = .none
  · rw [if_pos blank, if_neg (by simp), if_pos blank]
  rw [if_neg blank, if_neg (by simp), if_neg blank]
  by_cases absent : prevBlockno = blocknoInvalid
  · rw [if_pos absent, if_pos absent]
  · rw [if_neg absent, if_neg absent]
/-- The crawler of the file system is the crawler over the file system's operations. -/
theorem fs_crawlIndir (h maxNblocks prevBlockno blockoff off size valid : Nat) (commit : Commit) :
    Bpfs.crawlIndir (some callback) none crawlStart h maxNblocks prevBlockno blockoff off size valid commit =
      crawlIndir fsOps callback crawlStart h maxNblocks prevBlockno blockoff off size valid commit := by
  induction h generalizing maxNblocks prevBlockno blockoff off size valid commit with
  | zero => rfl
  | succ h ih =>
    have child : (if h = 0 then fun parent => Bpfs.crawlLeaf (some callback) none crawlStart (some parent)
          else fun _ => Bpfs.crawlIndir (some callback) none crawlStart h (maxNblocks / blocknosPerIndir)) =
        if h = 0 then crawlLeaf fsOps callback crawlStart
          else fun _ => crawlIndir fsOps callback crawlStart h (maxNblocks / blocknosPerIndir) := by
      split
      · funext parent prev blockoff off size valid commit
        exact fs_crawlLeaf callback crawlStart parent prev blockoff off size valid commit
      · funext parent prev blockoff off size valid commit
        exact ih _ prev blockoff off size valid commit
    rw [Bpfs.crawlIndir, crawlIndir, child]
    exact fs_crawlIndirNode callback crawlStart _ _ maxNblocks prevBlockno blockoff off size valid commit

end FileSystem

end Bpfs.Walk
