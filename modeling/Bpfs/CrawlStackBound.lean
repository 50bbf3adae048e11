import Bpfs.CrawlStack

/-! How deep the stack of parent blocks gets. A piece of the crawl is balanced with `k` when it never has
more than `k` blocks of its own on the stack and leaves the stack as it found it. -/

namespace Bpfs.CrawlStack
open Lib

variable {W α β : Type}

/-- With room for `k` more blocks the stack neither overflows nor is popped wrongly, and is as before on every return. -/
def Balanced (k : Nat) (x : CrawlM W α) : Prop :=
  ∀ s, s.stack.length + k ≤ parentStackSize →
    wp x (fun _ t => t.stack = s.stack) (fun e _ => e ≠ .overflow ∧ e ≠ .mismatch) s

variable {j k : Nat} {x : CrawlM W α} {m : Memory W}

theorem balanced_pure (a : α) : Balanced k (pure a : CrawlM W α) := fun _ _ => rfl

theorem balanced_lift (act : Act W α) : Balanced k (lift act) := by
  intro s _
  unfold wp lift
  cases act s.stack s.world with
  | none => exact ⟨nofun, nofun⟩
  | some r => rfl

theorem balanced_sigfpe : Balanced k (throw .sigfpe : CrawlM W α) := fun _ _ => ⟨nofun, nofun⟩

theorem Balanced.mono (balanced : Balanced j x) (less : j ≤ k) : Balanced k x := by
  intro s room
  exact balanced s (by omega)

theorem Balanced.bind {f : α → CrawlM W β} (first : Balanced k x) (next : ∀ a, Balanced k (f a)) : Balanced k (x >>= f) := by
  intro s room
  rw [wp_bind]
  refine wp_mono (first s room) (fun a t same => ?_) (fun _ _ stops => stops)
  rw [← same] at room ⊢
  exact next a t room

theorem Balanced.map (f : α → β) (balanced : Balanced k x) : Balanced k (f <$> x) := by
  intro s room
  rw [wp_map]
  exact balanced s room

theorem Balanced.split {c : Prop} {dec : Decidable c} {y : CrawlM W α} (yes : c → Balanced k x) (no : ¬c → Balanced k y) :
    Balanced k (if c then x else y) := by
  by_cases holds : c
  · rw [if_pos holds]
    exact yes holds
  · rw [if_neg holds]
    exact no holds

theorem Balanced.ite {c : Prop} {dec : Decidable c} {y : CrawlM W α} (yes : Balanced k x) (no : Balanced k y) :
    Balanced k (if c then x else y) := Balanced.split (fun _ => yes) (fun _ => no)

/-- Below a pushed block there is room for one block less. -/
theorem Balanced.below {blockno : Nat} (balanced : Balanced k x) : Balanced (k + 1) (CrawlStack.below m blockno x) := by
  intro s room
  rw [CrawlStack.below, push, wp_bind, wp_bind]
  refine wp_mono (balanced_lift (m.record blockno) s room) (fun _ t same => ?_) (fun _ _ stops => stops)
  have fits : ¬parentStackSize < (blockno :: t.stack).length := by
    rw [List.length_cons, same]
    omega
  have room' : (blockno :: t.stack).length + k ≤ parentStackSize := by
    rw [List.length_cons, same]
    omega
  rw [wp_bind, wp_modify, wp_bind, wp_get, if_neg fits, wp_pure, wp_bind]
  refine wp_mono (balanced _ room') (fun a u back => ?_) (fun _ _ stops => stops)
  rw [pop, wp_bind, wp_bind, wp_get, back]
  dsimp only
  rw [if_pos rfl, wp_modify, wp_pure]
  exact same

section Crawl

variable {callback : Callback W} {crawlStart : Nat}

/-- The callback uses at most `k` blocks of the stack. -/
def Quiet (k : Nat) (callback : Callback W) : Prop :=
  ∀ blockoff off size valid crawlStart commit blockno,
    Balanced k (callback blockoff off size valid crawlStart commit blockno)

theorem balanced_crawlLeaf (quiet : Quiet k callback) (prevBlockno blockoff off size valid : Nat) (commit : Write) :
    Balanced k (crawlLeaf m callback crawlStart prevBlockno blockoff off size valid commit) := by
  refine Balanced.bind (Balanced.ite (balanced_lift _) (balanced_pure _)) fun blockno => ?_
  refine Balanced.ite (balanced_pure _) ?_
  exact (quiet _ _ _ _ _ _ _).bind fun r => balanced_pure _

theorem balanced_indirSettle (c : IndirCrawl) (blockno no childBlockno : Nat) (r : Int) (childNewBlockno : Nat) :
    Balanced k (indirSettle m c blockno no childBlockno r childNewBlockno) := by
  refine Balanced.ite (balanced_pure _) (Balanced.ite ?_ (balanced_pure _))
  refine Balanced.bind (Balanced.ite (balanced_pure _) (balanced_lift _)) fun copy => ?_
  exact Balanced.ite (balanced_pure _) ((balanced_lift _).bind fun _ => balanced_pure _)

theorem balanced_indirStep {child : ChildCrawl W} {c : IndirCrawl} {leaves : Bool} {commit : Write} {blockno no : Nat}
    (quiet : ∀ prevBlockno blockoff off size valid commit,
      Balanced k (child c.childMaxNblocks prevBlockno blockoff off size valid commit)) :
    Balanced (k + 1) (indirStep m c leaves child commit blockno no) := by
  refine Balanced.bind (Balanced.ite (balanced_pure _) (balanced_lift _)) fun listed => ?_
  refine Balanced.bind (Balanced.below ?_) fun r => balanced_indirSettle _ _ _ _ _ _
  refine Balanced.bind (Balanced.ite (balanced_lift _) (balanced_pure _)) fun childBlockno => ?_
  exact (quiet _ _ _ _ _ _).bind fun r => balanced_pure _

theorem balanced_indirLoop {child : ChildCrawl W} {c : IndirCrawl} {leaves : Bool} {commit : Write}
    (quiet : ∀ prevBlockno blockoff off size valid commit,
      Balanced k (child c.childMaxNblocks prevBlockno blockoff off size valid commit)) (n no blockno : Nat) :
    Balanced (k + 1) (indirLoop m c leaves child commit n no blockno) := by
  induction n generalizing no blockno with
  | zero => exact balanced_pure _
  | succ n ih =>
    refine (balanced_indirStep quiet).bind fun r => ?_
    exact Balanced.ite (balanced_pure _) (ih _ _)

theorem balanced_crawlIndirNode {child : ChildCrawl W} {leaves : Bool} {maxNblocks : Nat}
    (quiet : nbytesOfBlocks (maxNblocks / blocknosPerIndir) ≠ 0 → ∀ prevBlockno blockoff off size valid commit,
      Balanced k (child (maxNblocks / blocknosPerIndir) prevBlockno blockoff off size valid commit))
    (prevBlockno blockoff off size valid : Nat) (commit : Write) :
    Balanced (k + 1) (crawlIndirNode m leaves child maxNblocks prevBlockno blockoff off size valid commit) := by
  rw [crawlIndirNode]
  refine Balanced.split (fun _ => balanced_sigfpe) fun some => ?_
  refine Balanced.bind (Balanced.ite (balanced_lift _) (balanced_pure _)) fun blockno => ?_
  refine Balanced.ite (balanced_pure _) ?_
  exact (balanced_indirLoop (quiet some) _ _ _).bind fun r => balanced_pure _

/-- One level down the capacity is that of a tree one lower. -/
theorem child_capacity {height : Nat} (low : height < treeMaxHeight) :
    treeMaxNblocks (height + 1) / blocknosPerIndir = treeMaxNblocks height := by
  have all : ∀ h : Fin 7, treeMaxNblocks (h + 1) / blocknosPerIndir = treeMaxNblocks h := by decide
  exact all ⟨height, low⟩

/-- The bytes below an entry of a tree of the greatest height are 0 in 64 bits, and the crawl divides by them. -/
theorem top_capacity : nbytesOfBlocks (treeMaxNblocks treeMaxHeight / blocknosPerIndir) = 0 := by decide

theorem eq_top {height : Fin 8} (high : ¬height.val < treeMaxHeight) : height.val = treeMaxHeight := by
  have bound := height.isLt
  rw [treeMaxHeight] at high ⊢
  omega

theorem balanced_crawlHeight (quiet : Quiet k callback) (height : Nat) (low : height < treeMaxHeight)
    (prevBlockno blockoff off size valid : Nat) (commit : Write) :
    Balanced (k + height) (crawlHeight m callback crawlStart height (treeMaxNblocks height) prevBlockno blockoff off size
      valid commit) := by
  induction height generalizing prevBlockno blockoff off size valid commit with
  | zero => exact balanced_crawlLeaf quiet _ _ _ _ _ _
  | succ height ih =>
    refine balanced_crawlIndirNode (fun _ prevBlockno blockoff off size valid commit => ?_) _ _ _ _ _ _
    rw [child_capacity (by omega)]
    exact ih (by omega) _ _ _ _ _ _

/-- A tree never takes more than six blocks of the stack: a crawl at height seven ends before its first push. -/
theorem balanced_crawl (quiet : Quiet k callback) (height : Fin 8) (prevBlockno blockoff off size valid : Nat)
    (commit : Write) : Balanced (k + 6) (crawlHeight m callback crawlStart height (treeMaxNblocks height) prevBlockno blockoff
      off size valid commit) := by
  by_cases low : height.val < treeMaxHeight
  · refine (balanced_crawlHeight quiet height.val low _ _ _ _ _ _).mono ?_
    rw [treeMaxHeight] at low
    omega
  · rw [eq_top low]
    exact balanced_crawlIndirNode (k := k + 5) (fun some => absurd top_capacity some) _ _ _ _ _ _

end Crawl

theorem balanced_clearEntries (blockno n no : Nat) : Balanced k (clearEntries m blockno n no) := by
  induction n generalizing no with
  | zero => exact balanced_pure _
  | succ n ih =>
    refine (balanced_lift _).bind fun addr => ?_
    exact (Balanced.ite (balanced_lift _) (balanced_pure _)).bind fun _ => ih _

theorem balanced_truncateHeight (height : Nat) (low : height < treeMaxHeight) (prevBlockno start fin : Nat) :
    Balanced height (truncateHeight m height (treeMaxNblocks height) prevBlockno start fin) := by
  induction height generalizing prevBlockno start fin with
  | zero =>
    refine (balanced_lift _).bind fun blockno => ?_
    exact Balanced.ite (balanced_pure _) (balanced_pure _)
  | succ height ih =>
    rw [truncateHeight, child_capacity (by omega)]
    refine Balanced.ite balanced_sigfpe ?_
    refine (balanced_lift _).bind fun blockno => ?_
    refine Balanced.ite (balanced_pure _) ?_
    refine (balanced_clearEntries _ _ _).bind fun _ => ?_
    refine Balanced.ite ((balanced_lift _).bind fun _ => balanced_pure _) ?_
    refine (balanced_lift _).bind fun addr => ?_
    refine Balanced.ite (balanced_pure _) ?_
    refine (ih (by omega) _ _ _).below.bind fun r => ?_
    refine Balanced.ite (balanced_pure _) ?_
    exact (Balanced.ite (balanced_lift _) (balanced_pure _)).bind fun _ => balanced_pure _

theorem balanced_treeRootHeight (root : RootPtr) : Balanced k (treeRootHeight m root) :=
  (balanced_lift _).bind fun _ => Balanced.ite (balanced_pure _) (balanced_lift _)

theorem balanced_treeRootAddr (root : RootPtr) : Balanced k (treeRootAddr m root) :=
  (balanced_lift _).bind fun _ => Balanced.ite (balanced_pure _) (balanced_lift _)

theorem balanced_truncateBelow (height : Fin 8) (low : height.val < treeMaxHeight) (newBlockno childBlockno start fin : Nat) :
    Balanced 7 (truncateBelow m height newBlockno childBlockno start fin) := by
  refine Balanced.ite (balanced_pure _) (Balanced.below ?_)
  refine (balanced_truncateHeight height.val low _ _ _).mono ?_
  rw [treeMaxHeight] at low
  omega

theorem balanced_truncateBlockZero (root : RootPtr) (start fin blockno : Nat) :
    Balanced 7 (truncateBlockZero m root start fin blockno) := by
  refine (balanced_treeRootHeight root).bind fun height => ?_
  refine (balanced_lift _).bind fun nbytes => ?_
  refine (balanced_treeRootAddr root).bind fun childBlockno => ?_
  refine Balanced.split (fun _ => balanced_pure _) fun inside => ?_
  -- at the greatest height the capacity is 0 in 64 bits, and nothing is done
  have low : height.val < treeMaxHeight := by
    by_contra high
    have none : nbytesOfBlocks (treeMaxNblocks treeMaxHeight) = 0 := by decide
    rw [eq_top high, none] at inside
    exact inside (Or.inl (Nat.zero_le _))
  refine (balanced_lift _).bind fun newBlockno => ?_
  refine Balanced.ite (balanced_pure _) ?_
  refine (balanced_truncateBelow height low _ _ _ _).bind fun r => ?_
  exact Balanced.ite (balanced_pure _) ((balanced_lift _).bind fun _ => balanced_pure _)

theorem balanced_crawlTreePrepare (root : RootPtr) (off fin prevBlockno : Nat) :
    Balanced 7 (crawlTreePrepare m root off fin prevBlockno) := by
  refine (balanced_lift _).bind fun nbytes => ?_
  refine (balanced_treeRootHeight root).bind fun height => ?_
  have grows : Balanced 7 (growTree m root (max height.val (treeHeight (nblocksForNbytes fin))) prevBlockno) :=
    (balanced_treeRootHeight root).bind fun _ => Balanced.ite (balanced_lift _) (balanced_pure _)
  refine grows.bind fun r => ?_
  refine Balanced.ite (balanced_pure _) ?_
  exact Balanced.ite (balanced_truncateBlockZero _ _ _ _) (balanced_pure _)

theorem balanced_crawlTreeFinish (root : RootPtr) (fin prevBlockno newBlockno childNewBlockno : Nat) (commit : Write)
    (refed : Bool) (r : Int) :
    Balanced k (crawlTreeFinish m root fin prevBlockno newBlockno childNewBlockno commit refed r) := by
  refine (balanced_treeRootAddr _).bind fun addr => ?_
  refine (balanced_lift _).bind fun nbytes => ?_
  refine Balanced.ite (balanced_pure _) (Balanced.ite ?_ (balanced_pure _))
  refine (Balanced.ite (balanced_pure _) (balanced_lift _)).bind fun copy => ?_
  exact Balanced.ite (balanced_pure _) ((balanced_lift _).bind fun _ => balanced_pure _)

/-- The crawl of a tree takes seven blocks of the stack, and what its callback takes. -/
theorem balanced_crawlTreeRef {callback : Callback W} (quiet : Quiet k callback) (root : RootPtr) (off size : Nat)
    (commit : Write) (prevBlockno : Nat) (refed : Bool) :
    Balanced (k + 7) (crawlTreeRef m root off size commit callback prevBlockno refed) := by
  refine (balanced_lift _).bind fun nbytes => ?_
  refine ((balanced_crawlTreePrepare _ _ _ _).mono (Nat.le_add_left _ _)).bind fun r => ?_
  refine Balanced.ite (balanced_pure _) ?_
  have crawls : ∀ off size newBlockno, Balanced (k + 7) (crawlTreeBelow m root off size commit callback newBlockno) := by
    intro off size newBlockno
    refine (balanced_treeRootAddr _).bind fun addr => ?_
    refine (balanced_lift _).bind fun height => ?_
    refine (balanced_lift _).bind fun nbytes => ?_
    exact Balanced.below (Balanced.ite (balanced_pure _) (balanced_crawl quiet height _ _ _ _ _ _))
  exact (crawls _ _ _).bind fun r => balanced_crawlTreeFinish _ _ _ _ _ _ _ _

theorem balanced_crawlInodes {callback : Callback W} (quiet : Quiet k callback) (off size : Nat) (commit : Write) :
    Balanced (k + 8) (crawlInodes m off size commit callback) := by
  refine (balanced_lift _).bind fun superBlockno => ?_
  refine (balanced_lift _).bind fun addr => ?_
  refine (balanced_crawlTreeRef quiet _ _ _ _ _ _).below.bind fun r => ?_
  exact Balanced.ite ((balanced_lift _).bind fun _ => balanced_pure _) (balanced_pure _)

theorem quiet_plain (act : LeafAct W) : Quiet k (plain act) := fun _ _ _ _ _ _ _ => balanced_lift _

/-- The callback of an inode uses at most `k` blocks of the stack. -/
def QuietInode (k : Nat) (callback : InodeCallback W) : Prop := ∀ off commit blockno, Balanced k (callback off commit blockno)

theorem balanced_crawlInode {callback : InodeCallback W} (quiet : QuietInode k callback) (inoOff : Nat) (commit : Write) :
    Balanced (k + 8) (crawlInode m inoOff commit callback) :=
  balanced_crawlInodes (fun _ _ _ _ _ _ _ => quiet _ _ _) _ _ _

theorem quiet_callbackSetattr (copied : Bool) (size : Option Nat) (attrs : Nat → Act W Unit) :
    QuietInode 7 (callbackSetattr m copied size attrs) := by
  intro off commit blockno
  refine (Balanced.ite (balanced_lift _) (balanced_pure _)).bind fun newBlockno => ?_
  refine Balanced.ite (balanced_pure _) ?_
  refine (balanced_lift _).bind fun nbytes => ?_
  have resizes : ∀ root, Balanced 7 (resize m root nbytes newBlockno size) := by
    intro root
    cases size with
    | none => exact balanced_pure _
    | some size =>
      refine Balanced.ite ((balanced_truncateBlockZero _ _ _ _).map _) ?_
      exact Balanced.ite ((balanced_lift _).map _) (balanced_pure _)
  refine (resizes _).bind fun r => ?_
  exact Balanced.ite (balanced_pure _) ((balanced_lift _).bind fun _ => balanced_pure _)

theorem quiet_callbackAddremDirent (dir : Bool) (direntOff : Nat) (nlinks : Nat → Act W Unit) (act : LeafAct W) :
    QuietInode 7 (callbackAddremDirent m dir direntOff nlinks act) := by
  intro off commit blockno
  refine (Balanced.ite (balanced_lift _) (balanced_pure _)).bind fun newBlockno => ?_
  refine Balanced.ite (balanced_pure _) ?_
  refine (Balanced.ite (balanced_lift _) (balanced_pure _)).bind fun _ => ?_
  exact (balanced_crawlTreeRef (quiet_plain act) _ _ _ _ _ _).bind fun r => balanced_pure _

theorem quiet_callbackCrawlData2Tree (d0 d1 : DataWrite W) : Quiet k (callbackCrawlData2Tree d0 d1) := by
  intro blockoff off size valid crawlStart commit prevBlockno
  refine (Balanced.ite (balanced_lift _) (balanced_pure _)).bind fun r => ?_
  refine Balanced.ite (balanced_pure _) ?_
  exact (Balanced.ite (balanced_lift _) (balanced_pure _)).bind fun r => balanced_pure _

-- the arithmetic of the offsets does not matter here
attribute [local irreducible] usub inodeSize

theorem quiet_callbackCrawlData2 (d0 d1 : DataWrite W) : Quiet 7 (callbackCrawlData2 m d0 d1) := by
  have crawls : ∀ (d : DataWrite W) root off size commit blockno refed,
      Balanced 7 (crawlTreeRef m root off size commit d.callback blockno refed) :=
    fun d root off size commit blockno refed => balanced_crawlTreeRef (quiet_plain d.act) root off size commit blockno refed
  have both : ∀ root off size commit blockno,
      Balanced 7 (crawlTree m root off size commit (callbackCrawlData2Tree d0 d1) blockno) :=
    fun root off size commit blockno =>
      balanced_crawlTreeRef (quiet_callbackCrawlData2Tree d0 d1) root off size commit blockno true
  intro blockoff off size valid crawlStart commit blockno
  refine Balanced.ite (Balanced.ite (both _ _ _ _ _) ?_) (Balanced.ite (crawls d0 _ _ _ _ _ _)
    (Balanced.ite (crawls d1 _ _ _ _ _ _) (balanced_pure _)))
  refine (crawls d0 _ _ _ _ _ _).bind fun r => ?_
  exact Balanced.ite (balanced_pure _) (crawls d1 _ _ _ _ _ _)

theorem Call.balanced (call : Call W) : Balanced 15 (call.run m) := by
  cases call with
  | inodes off size commit act => exact (balanced_crawlInodes (quiet_plain act) _ _ _).mono (by decide : 0 + 8 ≤ 15)
  | plainInode inoOff commit act =>
    exact (balanced_crawlInode (fun _ _ _ => balanced_lift _) _ _).mono (by decide : 0 + 8 ≤ 15)
  | setattr inoOff commit copied size attrs => exact balanced_crawlInode (quiet_callbackSetattr _ _ _) _ _
  | addremDirent inoOff commit dir direntOff nlinks act =>
    exact balanced_crawlInode (quiet_callbackAddremDirent _ _ _ _) _ _
  | data inoOff off size commit act =>
    exact balanced_crawlInode (fun _ _ _ => balanced_crawlTreeRef (quiet_plain act) _ _ _ _ _ _) _ _
  | data2 d0 d1 commit => exact balanced_crawlInodes (quiet_callbackCrawlData2 d0 d1) _ _ _

/-- Whatever the memory answers, a writing crawl never pushes more blocks than the stack holds, pops each block it pushed,
and leaves the stack empty on every return. -/
theorem parent_stack_bounded (m : Memory W) (call : Call W) (world : W) :
    match call.run m ⟨world, []⟩ with
    | .ok _ t => t.stack = []
    | .error e _ => e ≠ .overflow ∧ e ≠ .mismatch := by
  have room : (0 : Nat) + 15 ≤ parentStackSize := by decide
  have bounded := Call.balanced (m := m) call ⟨world, []⟩ room
  cases run : call.run m ⟨world, []⟩ with
  | ok a t => exact (wp_ok run).mp bounded
  | error e t => exact (wp_error run).mp bounded

end Bpfs.CrawlStack
