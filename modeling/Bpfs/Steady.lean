import Bpfs.Allocation
import Bpfs.Crawler

/-! The count of failed allocations never goes down. A disk fetch does not notice that
its allocation failed; the count is what tells such a run from one in which every
allocation succeeded. -/

namespace Bpfs
open Lib

/-- `x` never lowers the count of failed allocations. -/
def Steady {α : Type} (x : M α) : Prop := ∀ s : Fs,
  wp x (fun _ t => s.allocFailures ≤ t.allocFailures) (fun _ t => s.allocFailures ≤ t.allocFailures) s

variable {α β : Type}

theorem steady_pure (a : α) : Steady (pure a : M α) := fun _ => le_refl _

theorem steady_throw (e : Err) : Steady (throw e : M α) := fun _ => le_refl _

theorem steady_get : Steady (get : M Fs) := fun _ => le_refl _

theorem steady_modify {f : Fs → Fs} (keeps : ∀ s, s.allocFailures ≤ (f s).allocFailures) :
    Steady (modify f : M Unit) := keeps

theorem steady_bind {x : M α} {f : α → M β} (first : Steady x) (second : ∀ a, Steady (f a)) :
    Steady (x >>= f) := by
  intro s
  rw [wp_bind]
  refine wp_mono (first s) (fun a t le => ?_) (fun _ _ le => le)
  exact wp_mono (second a t) (fun _ _ le' => le.trans le') (fun _ _ le' => le.trans le')

theorem steady_map {x : M α} {f : α → β} (first : Steady x) : Steady (f <$> x) := by
  intro s
  rw [wp_map]
  exact first s

theorem steady_ite {c : Prop} {dec : Decidable c} {x y : M α} (yes : Steady x) (no : Steady y) :
    Steady (if c then x else y) := by
  split
  · exact yes
  · exact no

theorem steady_check {site : Site} {c : Prop} {dec : Decidable c} : Steady (check site c) :=
  steady_ite (steady_pure _) (steady_throw _)

theorem steady_storeNvm (w : Write) : Steady (storeNvm w) := steady_modify (fun _ => le_refl _)

theorem steady_memcpy (blk off len : Nat) (src : Nat → UInt8) : Steady (memcpy blk off len src) :=
  steady_storeNvm _

theorem steady_memset (blk off len : Nat) : Steady (memset blk off len) := steady_storeNvm _

theorem steady_storeWord (blk off value : Nat) : Steady (storeWord blk off value) := steady_storeNvm _

theorem steady_storeAddr (blk no value : Nat) : Steady (storeAddr blk no value) := steady_storeNvm _

theorem steady_loadAddr (blk no : Nat) : Steady (loadAddr blk no) :=
  steady_ite (steady_throw _) (steady_bind steady_get fun _ => steady_pure _)

theorem steady_allocBlock : Steady allocBlock := by
  refine steady_bind steady_get fun s => ?_
  refine steady_ite (steady_bind (steady_modify fun _ => Nat.le_succ _) fun _ => steady_pure _) ?_
  exact steady_bind (steady_modify fun _ => le_refl _) fun _ => steady_bind steady_check fun _ => steady_pure _

theorem steady_freeBlock (blockno : Nat) : Steady (freeBlock blockno) := by
  unfold freeBlock
  refine steady_ite (steady_pure _) (steady_bind steady_check fun _ => steady_bind steady_check fun _ =>
    steady_bind steady_get fun s => ?_)
  split
  · exact steady_throw _
  · exact steady_modify fun _ => le_refl _

theorem steady_readDisk (blockNumber : Nat) : Steady (readDisk blockNumber) := by
  unfold readDisk
  refine steady_bind steady_get fun s => ?_
  split
  · exact steady_throw _
  · exact steady_bind (steady_modify fun _ => le_refl _) fun _ => steady_pure _

theorem steady_installBlock {site : Site} {blockno new : Nat} {buf : Nat → UInt8} {indir : M Nat}
    (inner : Steady indir) : Steady (installBlock site blockno new buf indir) := by
  unfold installBlock
  refine steady_bind (steady_memcpy _ _ _ _) fun _ => steady_bind inner fun indir => ?_
  intro s
  rw [wp_bind, wp_get]
  cases findAddr s.bpram indir blockno blocknosPerIndir 0 <;> exact le_refl _

theorem steady_fetchBlock {site : Site} {blockno : Nat} {indir : M Nat} (inner : Steady indir) :
    Steady (fetchBlock site blockno indir) := by
  unfold fetchBlock
  exact steady_bind (steady_readDisk _) fun _ => steady_bind steady_allocBlock fun _ => steady_installBlock inner

theorem steady_getBlock (blockno : Nat) : Steady (getBlock blockno) := by
  have nvm : ∀ b, Steady (getNvmBlock b) := fun _ => steady_bind steady_check fun _ => steady_pure _
  refine steady_bind steady_check fun _ => steady_ite (steady_bind steady_get fun s => ?_) (steady_pure _)
  refine steady_bind (steady_fetchBlock ?_) fun _ =>
    steady_bind (steady_modify fun _ => le_refl _) fun _ => steady_pure _
  exact steady_ite (steady_bind (steady_throw _) fun _ => nvm _) (nvm _)

theorem steady_getBlockFromDisk (blockno indir : Nat) : Steady (getBlockFromDisk blockno indir) :=
  steady_ite (steady_fetchBlock (steady_getBlock _)) (steady_pure _)

/-- The way the copy-on-write primitives begin. -/
theorem steady_take {next : Nat → M α} (rest : ∀ b, Steady (next b)) :
    Steady (do
      let b ← allocBlock
      if b = blocknoInvalid then throw .enospc
      next b) :=
  steady_bind steady_allocBlock fun _ => steady_ite (steady_bind (steady_throw _) fun _ => rest _) (rest _)

theorem steady_cowBlock (old off size valid : Nat) : Steady (cowBlock old off size valid) := by
  have release : ∀ b : Nat, Steady (do freeBlock old; pure b) :=
    fun _ => steady_bind (steady_freeBlock _) fun _ => steady_pure _
  refine steady_bind steady_check fun _ => steady_bind steady_check fun _ => steady_take fun _ => ?_
  refine steady_bind (steady_getBlock _) fun _ => steady_bind (steady_getBlock _) fun _ =>
    steady_bind steady_get fun s => steady_bind (steady_memcpy _ _ _ _) fun _ => ?_
  exact steady_ite (steady_bind (steady_memcpy _ _ _ _) fun _ => release _) (release _)

theorem steady_cowBlockHole (off size valid : Nat) : Steady (cowBlockHole off size valid) := by
  refine steady_bind steady_check fun _ => steady_bind steady_check fun _ => steady_take fun _ => ?_
  refine steady_bind (steady_getBlock _) fun _ => steady_bind (steady_memset _ _ _) fun _ => ?_
  exact steady_ite (steady_bind (steady_memset _ _ _) fun _ => steady_pure _) (steady_pure _)

theorem steady_cowBlockEntire (old : Nat) : Steady (cowBlockEntire old) := by
  refine steady_take fun _ => steady_bind (steady_getBlock _) fun _ => steady_bind (steady_getBlock _) fun _ =>
    steady_bind steady_get fun s => steady_bind (steady_memcpy _ _ _ _) fun _ => ?_
  exact steady_bind (steady_freeBlock _) fun _ => steady_pure _

theorem steady_noteIndir (child indir : Nat) : Steady (noteIndir child indir) := by
  have last : Steady (if child.testBit 63 then
      modify fun s => { s with currentIndirPointer := indir } else pure () : M Unit) :=
    steady_ite (steady_modify fun _ => le_refl _) (steady_pure _)
  exact steady_bind steady_get fun s =>
    steady_ite (steady_bind (steady_modify fun _ => le_refl _) fun _ => last) last

theorem steady_indirChild (c : IndirCrawl) (leaves : Bool) (blockno no : Nat) :
    Steady (indirChild c leaves blockno no) := by
  have fetch : ∀ child, Steady (if leaves ∧ child.testBit 63 then getBlockFromDisk child blockno
      else pure child) := fun _ => steady_ite (steady_getBlockFromDisk _ _) (steady_pure _)
  exact steady_ite (steady_bind (steady_pure _) fun _ => fetch _) (steady_bind (steady_loadAddr _ _) fun _ => fetch _)

theorem steady_indirLink (c : IndirCrawl) (blockno no r child : Nat) :
    Steady (indirLink c blockno no r child) := by
  unfold indirLink
  have store : ∀ b, Steady (do storeAddr b no child; pure b) :=
    fun _ => steady_bind (steady_storeAddr _ _ _) fun _ => steady_pure _
  refine steady_bind steady_check fun _ => steady_ite (steady_bind (steady_pure _) fun _ => store _) ?_
  exact steady_bind steady_check fun _ => steady_bind (steady_cowBlockEntire _) fun _ => store _

/-- A child crawl that is steady whatever its arguments. -/
def SteadyCrawl (child : ChildCrawl) : Prop :=
  ∀ parent p blockoff off size valid commit, Steady (child parent p blockoff off size valid commit)

theorem steady_indirSettle (c : IndirCrawl) (blockno no childBlockno r new : Nat) :
    Steady (indirSettle c blockno no childBlockno r new) := by
  have last : ∀ b : Nat, Steady (do
      if r = 1 then check .crawlIndir (¬c.inHole)
      pure (r, b)) :=
    fun _ => steady_ite (steady_bind steady_check fun _ => steady_pure _) (steady_pure _)
  exact steady_ite (steady_bind (steady_indirLink _ _ _ _ _) fun _ => last _)
    (steady_bind (steady_pure _) fun _ => last _)

theorem steady_indirStep {child : ChildCrawl} (inner : SteadyCrawl child) (c : IndirCrawl) (leaves : Bool)
    (blockno no : Nat) : Steady (indirStep c leaves child blockno no) := by
  unfold indirStep
  refine steady_bind steady_check fun _ => steady_bind steady_check fun _ => steady_bind steady_check fun _ => ?_
  refine steady_bind (steady_indirChild _ _ _ _) fun _ => ?_
  exact steady_bind (inner _ _ _ _ _ _ _) fun _ => steady_indirSettle _ _ _ _ _ _

theorem steady_indirLoop {child : ChildCrawl} (inner : SteadyCrawl child) (c : IndirCrawl) (leaves : Bool)
    (n no blockno : Nat) : Steady (indirLoop c leaves child n no blockno) := by
  induction n generalizing no blockno with
  | zero => exact steady_pure _
  | succ n ih =>
    exact steady_bind (steady_indirStep inner _ _ _ _) fun _ => steady_ite (steady_pure _) (ih _ _)

/-- A callback that is steady whatever its arguments. -/
def SteadyCallback (cb : CrawlCallback) : Prop :=
  ∀ blockoff block off size valid start commit b, Steady (cb blockoff block off size valid start commit b)

variable {cb : CrawlCallback} (calls : SteadyCallback cb)

include calls

theorem steady_crawlHoleLoop (start fin valid n blockoff offBlock off : Nat) :
    Steady (crawlHoleLoop cb start fin valid n blockoff offBlock off) := by
  induction n generalizing blockoff offBlock off with
  | zero => exact steady_pure _
  | succ n ih =>
    refine steady_ite (steady_bind (calls _ _ _ _ _ _ _ _) fun _ => steady_bind steady_check fun _ => ?_)
      (steady_pure _)
    exact steady_ite (steady_pure _) (ih _ _ _)

theorem steady_crawlHole (start blockoff off size valid : Nat) :
    Steady (crawlHole cb start blockoff off size valid) :=
  steady_bind steady_check fun _ => steady_bind steady_check fun _ => steady_crawlHoleLoop calls _ _ _ _ _ _ _

theorem steady_crawlLeaf (start : Nat) (indir : Option Nat) (p blockoff off size valid : Nat) (commit : Commit) :
    Steady (crawlLeaf (some cb) none start indir p blockoff off size valid commit) := by
  have call : ∀ b : Nat, Steady (do
      let block ← if p = blocknoInvalid ∧ commit = .none then pure .zeroBlock else BlockPtr.bpram <$> getBlock b
      cb blockoff block off size valid start (if b = p then commit else .free) b) :=
    fun _ => steady_ite (steady_bind (steady_pure _) fun _ => calls _ _ _ _ _ _ _ _)
      (steady_bind (steady_map (steady_getBlock _)) fun _ => calls _ _ _ _ _ _ _ _)
  unfold crawlLeaf
  refine steady_bind steady_check fun _ => steady_bind steady_check fun _ => steady_bind steady_check fun _ =>
    steady_bind steady_check fun _ => ?_
  cases indir with
  | none =>
    exact steady_ite (steady_bind (steady_cowBlockHole _ _ _) fun _ => call _)
      (steady_bind (steady_pure _) fun _ => call _)
  | some indir =>
    exact steady_ite
      (steady_bind (steady_cowBlockHole _ _ _) fun _ => steady_bind (steady_noteIndir _ _) fun _ => call _)
      (steady_bind (steady_pure _) fun _ => steady_bind (steady_noteIndir _ _) fun _ => call _)

theorem steady_crawlIndirNode {child : ChildCrawl} (inner : SteadyCrawl child) (start : Nat) (leaves : Bool)
    (maxNblocks p blockoff off size valid : Nat) (commit : Commit) :
    Steady (crawlIndirNode (some cb) none start leaves child maxNblocks p blockoff off size valid commit) := by
  have loop : ∀ (c : IndirCrawl) (b : Nat), Steady (do
      let b ← getBlock b
      indirLoop c leaves child (c.lastno + 1 - c.firstno) c.firstno b) :=
    fun _ _ => steady_bind (steady_getBlock _) fun _ => steady_indirLoop inner _ _ _ _ _
  unfold crawlIndirNode
  dsimp only
  refine steady_ite (steady_bind (steady_throw _) fun _ => ?_) ?_
  all_goals
    refine steady_ite (steady_pure _) (steady_ite ?_ ?_)
    · exact steady_bind (steady_crawlHole calls _ _ _ _ _) fun _ => steady_pure _
    · exact steady_ite (steady_bind (steady_cowBlockHole _ _ _) fun _ => loop _ _)
        (steady_bind (steady_pure _) fun _ => loop _ _)

theorem steady_crawlIndir (start height maxNblocks : Nat) :
    SteadyCrawl (fun _ => crawlIndir (some cb) none start height maxNblocks) := by
  induction height generalizing maxNblocks with
  | zero => exact fun _ _ _ _ _ _ _ => steady_throw _
  | succ height ih =>
    intro _ p blockoff off size valid commit
    refine steady_crawlIndirNode calls ?_ _ _ _ _ _ _ _ _ _
    split
    · exact fun _ _ _ _ _ _ _ => steady_crawlLeaf calls _ _ _ _ _ _ _ _
    · exact ih _

end Bpfs
