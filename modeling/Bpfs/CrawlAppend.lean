import Bpfs.CrawlTiles
import Bpfs.FileOps

/-! When the calls of a crawl are the tiles of its range. An append that starts behind the valid
bytes of a leaf and reaches the next leaf moves the first one if it is a hole; the assertion in
`crawl_indir` rules this case out, and the crawl ends there. -/

namespace Bpfs.Walk
open Lib

/-- A crawl of `crawl_indir` at height `h + 1`: the capacity and the leaf indices do not wrap,
the range is not empty and lies in the capacity, a crawl that reads stays in the valid bytes, and
the root of a tree with valid bytes is not missing. -/
structure Request where
  h : Nat
  off : Nat
  size : Nat
  valid : Nat
  blockoff : Nat
  crawlStart : Nat
  prevBlockno : Nat
  commit : Commit
  capacity : span (h + 1) < 2 ^ 64
  indices : blockoff + 512 ^ (h + 1) ≤ 2 ^ 64
  pos : 0 < size
  inside : off + size ≤ span (h + 1)
  held : valid ≤ span (h + 1)
  read : commit = .none → off + size ≤ valid
  rooted : 0 < valid → prevBlockno ≠ blocknoInvalid

namespace Request

variable (r : Request)

theorem low : r.h ≤ 4 := by
  have capacity := r.capacity
  by_contra tall
  have more : span 6 ≤ span (r.h + 1) := Nat.mul_le_mul_left _ (Nat.pow_le_pow_right (by decide) (by omega))
  have : span 6 = 2 ^ 66 := by decide
  omega

theorem low_root : r.h + 1 ≤ 6 := by
  have := r.low
  omega

theorem bounded : r.off + r.size < 2 ^ 64 := lt_of_le_of_lt r.inside r.capacity

theorem meets : enter r.off 0 < leave (r.off + r.size) (r.h + 1) 0 := by
  have pos := r.pos
  have inside := r.inside
  simp only [enter, leave, base]
  omega

/-- The whole crawl as the visit of the root. -/
def visit : Visit where
  g := r.valid
  lo := r.off
  hi := r.off + r.size
  h := r.h
  i := 0
  low := r.low_root
  bounded := r.bounded
  meets := r.meets

theorem enter_root : enter r.off 0 = r.off := by simp [enter, base]

theorem leave_root : leave (r.off + r.size) (r.h + 1) 0 = r.off + r.size := by
  have inside := r.inside
  simp only [leave, base]
  omega

theorem validIn_root : validIn r.valid (r.h + 1) 0 = r.valid := by
  have held := r.held
  simp only [validIn, base]
  omega

/-- The crawl the request makes. -/
def run {σ : Type} (ops : Ops σ) (callback : Callback σ) : EStateM Err σ (Nat × Nat) :=
  crawlIndir ops callback r.crawlStart (r.h + 1) (treeMaxNblocks (r.h + 1)) r.prevBlockno r.blockoff r.off r.size
    r.valid r.commit

theorem run_eq {σ : Type} (ops : Ops σ) (callback : Callback σ) :
    r.run ops callback = crawlIndir ops callback r.crawlStart (r.h + 1) (512 ^ (r.h + 1)) r.prevBlockno
      (indexOf r.off r.blockoff (enter r.off 0 / blockSize)) (enter r.off 0 - base 0)
      (leave (r.off + r.size) (r.h + 1) 0 - enter r.off 0) (validIn r.valid (r.h + 1) 0) r.commit := by
  have low := r.low
  rw [run, treeMaxNblocks_eq (by omega), r.leave_root, r.enter_root, r.validIn_root]
  simp [indexOf, base]

/-- Every run makes the calls of the tiles, in order, and stops early only where an operation does. -/
def Tiled : Prop :=
  ∀ {σ : Type} (Good : σ → Prop) (log : σ → List Call) (stops : Err → Prop) (ops : Ops σ) (callback : Callback σ),
    World Good log stops ops callback → ∀ s, Good s →
    wp (r.run ops callback)
      (fun result t => result.1 = 0 ∧ log t = log s ++ tiles r.valid r.off (r.off + r.size) r.blockoff)
      (fun e _ => stops e) s

theorem placed : Placed r.visit r.prevBlockno r.commit := by
  refine ⟨fun held => r.rooted ?_, r.read, Nat.dvd_zero _⟩
  have value : validIn r.visit.g (r.visit.h + 1) r.visit.i = r.valid := r.validIn_root
  omega

theorem tiled_of_calm (start : r.crawlStart / blockSize ≤ r.blockoff)
    (calm : ¬Appends r.valid r.off (r.off + r.size) r.commit) : r.Tiled := by
  intro σ Good log stops ops callback world s good
  rw [r.run_eq]
  apply wp_mono (crawlIndir_calls world r.blockoff start r.h r.visit r.prevBlockno r.commit s rfl r.low
    ⟨r.placed, calm⟩ good) _ (fun _ _ stopped => stopped)
  rintro result t ⟨zero, _, _, logged⟩
  refine ⟨zero, logged.trans ?_⟩
  change log s ++ nodeTiles r.valid r.off (r.off + r.size) r.blockoff (r.h + 1) 0 = _
  rw [nodeTiles, r.enter_root, r.leave_root, tiles]

end Request

section Moving

/-- Operations that always succeed: every block number there is is 1. -/
def quiet : Ops (List Call) where
  cowBlockHole _ _ _ := pure 1
  cowBlockEntire _ := pure 1
  getBlock b := pure b
  getIndir b := pure b
  getBlockFromDisk _ _ := pure 1
  loadAddr _ _ _ := pure 1
  storeAddr _ _ _ := pure ()
  noteIndir _ _ := pure ()

/-- A callback that logs its call and, when it may write, moves the leaf. -/
def moving : Callback (List Call) := fun blockoff _ off size valid _ commit b => do
  modify (· ++ [⟨blockoff, off, size, valid⟩])
  pure (0, if commit = .none then b else b + 1)

theorem quiet_world (stops : Err → Prop) : World (fun _ => True) id stops quiet moving where
  cowBlockHole _ _ _ := keeps_pure (by decide)
  cowBlockEntire _ := keeps_pure trivial
  getBlock _ := keeps_pure trivial
  getIndir _ := keeps_pure rfl
  getBlockFromDisk _ _ := keeps_pure trivial
  loadIndir _ _ := keeps_pure (by decide)
  loadLeaf _ _ := keeps_pure trivial
  storeAddr _ _ _ := keeps_pure trivial
  noteIndir _ _ := keeps_pure trivial
  callback blockoff block off size valid start commit b s _ := by
    unfold moving
    rw [wp_bind, wp_modify, wp_pure]
    exact ⟨rfl, fun read => if_pos read, trivial, rfl⟩

variable {σ α : Type} {s : σ}

theorem wp_const {x : EStateM Err σ α} {fact : Prop} (holds : fact) :
    wp x (fun _ _ => fact) (fun _ _ => True) s := by
  unfold wp
  split
  · exact holds
  · trivial

theorem wp_past_check {site : Site} {c : Prop} {dec : Decidable c} {f : Unit → EStateM Err σ α} {Q : α → σ → Prop}
    (next : c → wp (f ()) Q (fun _ _ => True) s) : wp (check site c >>= f) Q (fun _ _ => True) s := by
  unfold check
  split
  · exact next ‹_›
  · exact trivial

variable (w : Visit) (blockoff : Nat) {p : Nat} {commit : Commit} {calls : List Call}

/-- A fact that the first child's crawl establishes is established by the whole crawl. -/
theorem crawlIndirNode_first (calls : List Call) (low : w.h ≤ 4) (reading : ¬(p = blocknoInvalid ∧ commit = .none))
    {leaves : Bool} {child : Child (List Call)} (crawlStart : Nat) {fact : Prop}
    (first : ∀ calls, wp (indirStep quiet (shifted w blockoff p commit) leaves child
      (if p = blocknoInvalid then 1 else p) w.firstno) (fun _ _ => fact) (fun _ _ => True) calls) :
    wp (crawlIndirNode quiet moving crawlStart leaves child (512 ^ (w.h + 1)) p
        (indexOf w.lo blockoff (enter w.lo w.i / blockSize)) (enter w.lo w.i - base w.i)
        (leave w.hi (w.h + 1) w.i - enter w.lo w.i) (validIn w.g (w.h + 1) w.i) commit)
      (fun _ _ => fact) (fun _ _ => True) calls := by
  have loop : wp (indirLoop quiet (shifted w blockoff p commit) leaves child (w.lastno - w.firstno + 1) w.firstno
      (if p = blocknoInvalid then 1 else p)) (fun _ _ => fact) (fun _ _ => True) calls := by
    rw [indirLoop, wp_bind]
    exact wp_mono (first calls) (fun _ _ holds => wp_const holds) (fun _ _ _ => trivial)
  rw [crawlIndirNode_eq w blockoff low reading]
  by_cases absent : p = blocknoInvalid
  · rw [if_pos absent] at loop ⊢
    exact loop
  · rw [if_neg absent] at loop ⊢
    exact loop

/-- The leaf that holds the start of an appending write has valid bytes, and is not the last leaf
of the range under its indirect block. -/
theorem Appends.first_leaf (append : Appends w.g w.lo w.hi commit) (leaf : w.h = 0) (here : base w.i ≤ w.lo)
    (aligned : 512 ^ (w.h + 1) ∣ w.i) :
    validIn w.g w.h (w.kid w.firstno) ≠ 0 ∧ w.firstno ≠ w.lastno := by
  obtain ⟨_, beyond, partly, room, more⟩ := append
  obtain ⟨q, start⟩ := aligned
  have first := w.firstno_bounds
  have last := w.lastno_bounds
  have meets := w.meets
  have kid : w.kid w.firstno = w.i + w.firstno := by simp [Visit.kid, Bpfs.kid, leaf]
  have size : span w.h = 4096 := by rw [leaf]; rfl
  have size1 : span (w.h + 1) = 512 * 4096 := by rw [leaf]; rfl
  rw [leaf] at start
  rw [kid]
  rw [size] at first last
  simp only [validIn, enter, leave, size, size1, base, blockSize] at *
  omega

/-- The callback moves the leaf, and the assertion does not let the indirect block follow. -/
theorem indirSettle_stops (append : Appends w.g w.lo w.hi commit) (here : base w.i ≤ w.lo)
    (held : validIn w.g w.h (w.kid w.firstno) ≠ 0) (more : w.firstno ≠ w.lastno) {old new : Nat}
    (moved : old ≠ new) {fact : Prop} :
    wp (indirSettle quiet (shifted w blockoff p commit) p w.firstno old 0 new) (fun _ _ => fact)
      (fun _ _ => True) calls := by
  have small := w.visited_lt ⟨le_rfl, w.firstno_le_lastno⟩
  have beyond : (shifted w blockoff p commit).onlyInvalid := by
    rw [shifted_onlyInvalid, enter, Nat.max_eq_left here]
    exact append.2.1
  have valid : (shifted w blockoff p commit).childValid w.firstno ≠ 0 := by
    rw [show (shifted w blockoff p commit).childValid w.firstno = _ from w.crawl_childValid small p commit]
    exact held
  have copies : ¬((shifted w blockoff p commit).prevBlockno ≠ p ∨
      ((shifted w blockoff p commit).commit = .atomic ∧
        ((shifted w blockoff p commit).firstno = (shifted w blockoff p commit).lastno ∨ 0 = 1)) ∨
      (shifted w blockoff p commit).childValid w.firstno = 0) := by
    rintro (other | ⟨_, single | one⟩ | none)
    · exact other rfl
    · exact more (single.trans (shifted_lastno w blockoff p commit))
    · exact absurd one (by decide)
    · exact valid none
  have refused : ¬¬((shifted w blockoff p commit).commit = .atomic ∧ (shifted w blockoff p commit).onlyInvalid) :=
    not_not.mpr ⟨append.1, beyond⟩
  unfold indirSettle
  rw [if_pos (.inl moved), wp_bind, indirLink]
  apply wp_past_check
  intro _
  rw [wp_bind, indirTarget, if_neg copies, check, if_neg refused]
  exact trivial

/-- At the leaves, the first child's crawl stops if its index is below the crawl's start, and the
round stops if the write appends. -/
theorem leafStep_stops (leaf : w.h = 0) (here : base w.i ≤ w.lo)
    (placed : Placed w p commit) (crawlStart : Nat) :
    wp (indirStep quiet (shifted w blockoff p commit) true (crawlLeaf quiet moving crawlStart)
        (if p = blocknoInvalid then 1 else p) w.firstno)
      (fun _ _ => crawlStart / blockSize ≤ blockoff ∧ ¬Appends w.g w.lo w.hi commit) (fun _ _ => True) calls := by
  have visited : w.firstno ≤ w.firstno ∧ w.firstno ≤ w.lastno := ⟨le_rfl, w.firstno_le_lastno⟩
  have index : (shifted w blockoff p commit).childBlockoff w.firstno = blockoff := by
    rw [shifted_childBlockoff w blockoff p commit visited, tiles_begin, enter, Nat.max_eq_left here]
    simp [indexOf]
  unfold indirStep
  apply wp_past_check; intro _
  apply wp_past_check; intro _
  apply wp_past_check; intro _
  rw [index]
  by_cases append : Appends w.g w.lo w.hi commit
  · obtain ⟨held, more⟩ := append.first_leaf w leaf here placed.aligned
    have small := w.visited_lt visited
    have there := placed.present (validIn_kid_ne w small held)
    have atomic : (shifted w blockoff p commit).childCommit = .atomic := by
      have beyond : w.g ≤ enter w.lo w.i := append.2.1.trans (Nat.le_max_left _ _)
      rw [append.1]
      exact childCommit_append w blockoff beyond
    have valid : ¬((shifted w blockoff p commit).childValid w.firstno = 0 ∨ (shifted w blockoff p commit).inHole) := by
      rw [show (shifted w blockoff p commit).childValid w.firstno = _ from w.crawl_childValid small p commit]
      simpa [shifted, Visit.crawl, held, blocknoInvalid] using there
    have child : indirChild quiet (shifted w blockoff p commit) true p w.firstno = pure 1 := by
      unfold indirChild
      rw [if_neg valid]
      rfl
    rw [if_neg there, child, atomic, pure_bind, wp_bind]
    unfold crawlLeaf
    apply wp_past_check; intro _
    apply wp_past_check; intro _
    apply wp_past_check; intro _
    apply wp_past_check; intro _
    exact indirSettle_stops w blockoff append here held more (by decide)
  · rw [wp_bind]
    apply wp_mono (wp_const trivial) _ (fun _ _ _ => trivial)
    rintro b t -
    rw [wp_bind]
    unfold crawlLeaf
    apply wp_past_check
    intro start
    apply wp_mono (wp_const trivial) _ (fun _ _ _ => trivial)
    rintro r u -
    exact wp_const ⟨start, append⟩

/-- The same one level up, where the first child is an indirect block. -/
theorem indirStep_stops (placed : Placed w p commit)
    (crawlStart : Nat) (child : Child (List Call))
    (first : ∀ parent b calls, (validIn w.g w.h (w.kid w.firstno) ≠ 0 → b ≠ blocknoInvalid) →
      wp (child parent b (indexOf w.lo blockoff (enter w.lo (w.kid w.firstno) / blockSize))
          (enter w.lo (w.kid w.firstno) - base (w.kid w.firstno))
          (leave w.hi w.h (w.kid w.firstno) - enter w.lo (w.kid w.firstno))
          (validIn w.g w.h (w.kid w.firstno)) (shifted w blockoff p commit).childCommit)
        (fun _ _ => crawlStart / blockSize ≤ blockoff ∧
          ¬Appends w.g w.lo w.hi (shifted w blockoff p commit).childCommit) (fun _ _ => True) calls) :
    wp (indirStep quiet (shifted w blockoff p commit) false child (if p = blocknoInvalid then 1 else p) w.firstno)
      (fun _ _ => crawlStart / blockSize ≤ blockoff ∧ ¬Appends w.g w.lo w.hi commit) (fun _ _ => True) calls := by
  have visited : w.firstno ≤ w.firstno ∧ w.firstno ≤ w.lastno := ⟨le_rfl, w.firstno_le_lastno⟩
  have small := w.visited_lt visited
  have passed : ¬Appends w.g w.lo w.hi (shifted w blockoff p commit).childCommit → ¬Appends w.g w.lo w.hi commit := by
    intro calm append
    have beyond : w.g ≤ enter w.lo w.i := append.2.1.trans (Nat.le_max_left _ _)
    obtain ⟨atomic, rest⟩ := append
    subst atomic
    exact calm ⟨childCommit_append w blockoff beyond, rest⟩
  unfold indirStep
  apply wp_past_check; intro _
  apply wp_past_check; intro _
  apply wp_past_check; intro _
  apply wp_keeps (indirChild_keeps (quiet_world fun _ => True) w blockoff small false _ placed.present) trivial
  intro old t here _ _
  rw [shifted_childBlockoff w blockoff p commit visited,
    show (shifted w blockoff p commit).childOff w.firstno = _ from w.crawl_childOff visited p commit,
    show (shifted w blockoff p commit).childSize w.firstno = _ from w.crawl_childSize visited p commit,
    show (shifted w blockoff p commit).childValid w.firstno = _ from w.crawl_childValid small p commit, wp_bind]
  apply wp_mono (first _ old t (here rfl)) _ (fun _ _ _ => trivial)
  rintro r u ⟨start, calm⟩
  exact wp_const ⟨start, passed calm⟩

/-- The first leaf's crawl decides whether the whole crawl goes through. -/
theorem crawlIndir_stops (crawlStart n : Nat) : ∀ (w : Visit) (p : Nat) (commit : Commit) (calls : List Call),
    w.h = n → n ≤ 4 → Placed w p commit → base w.i ≤ w.lo →
    wp (crawlIndir quiet moving crawlStart (n + 1) (512 ^ (n + 1)) p
        (indexOf w.lo blockoff (enter w.lo w.i / blockSize)) (enter w.lo w.i - base w.i)
        (leave w.hi (n + 1) w.i - enter w.lo w.i) (validIn w.g (n + 1) w.i) commit)
      (fun _ _ => crawlStart / blockSize ≤ blockoff ∧ ¬Appends w.g w.lo w.hi commit) (fun _ _ => True) calls := by
  induction n with
  | zero =>
    intro w p commit calls leaf low placed here
    have node := crawlIndirNode_first w blockoff calls (by omega) (placed.reading w) crawlStart
      (fun calls => leafStep_stops w blockoff leaf here placed crawlStart)
    rw [leaf] at node
    exact node
  | succ n ih =>
    intro w p commit calls height low placed here
    have visited : w.firstno ≤ w.firstno ∧ w.firstno ≤ w.lastno := ⟨le_rfl, w.firstno_le_lastno⟩
    have blocks : 512 ^ (n + 2) / blocknosPerIndir = 512 ^ (n + 1) := by
      rw [Nat.pow_succ]
      exact Nat.mul_div_cancel _ (by decide)
    have below : base (w.kid w.firstno) ≤ w.lo := by
      have first := w.firstno_bounds.1
      rw [w.base_kid]
      rwa [enter, Nat.max_eq_left here] at first
    have node := crawlIndirNode_first w blockoff calls (by omega) (placed.reading w) crawlStart
      (fun calls => indirStep_stops w blockoff placed crawlStart
        (fun _ => crawlIndir quiet moving crawlStart (n + 1) (512 ^ (n + 2) / blocknosPerIndir))
        (fun parent b calls present => by
          rw [height] at present ⊢
          rw [blocks]
          exact ih (kidVisit w height visited) b _ calls rfl (by omega)
            (placed.kid w blockoff height visited present) below))
    rw [height] at node
    exact node

end Moving

/-- 10000 bytes from byte 5000 on, in a file of height 2 with 6000 valid bytes. -/
def overwrite : Request where
  h := 1
  off := 5000
  size := 10000
  valid := 6000
  blockoff := 1
  crawlStart := 5000
  prevBlockno := 3
  commit := .atomic
  capacity := by decide
  indices := by decide
  pos := by decide
  inside := by decide
  held := by decide
  read := by decide
  rooted := by decide

/-- A file system in which block 3 is an indirect block of holes. -/
def holes : Fs where
  bpram b o := if b = blocknoSuper ∧ o = 24 then 64 else 0
  blockAlloc := ⟨fun k => if k = 0 then 7 else 0, 64, 61, [], [], 0⟩
  inodeAlloc := ⟨fun _ => 0, 0, 0, [], [], 0⟩
  disk := DiskManager.initializeDiskManager (8 * blockSize) blockSize (fun _ => 0) 0
  indirMapping _ := 0
  currentIndirPointer := 0
  treeNblocksNblocks := 0
  iov := []
  inode := (.zeroBlock, 0)
  writes := []
  allocFailures := 0
  cacheCalls := []
  mappingAccesses := []

/-- How a call ends, if it does not return. -/
def errorOf {α : Type} : EStateM.Result Err Fs α → Option Err
  | .ok _ _ => none
  | .error e _ => some e

end Bpfs.Walk
