import Bpfs.SweepLinks

/-! The code of `crawl_indir` sweeps a subtree, given that what it calls on each child
does. The loop is first followed while nothing it does can be seen; the one way in which
it becomes visible, a switch in place, is treated apart. -/

namespace Bpfs
open Lib

/-- `crawl_indir` as a write runs it. -/
theorem crawlIndirNode_write {cb : CrawlCallback} {start : Nat} {leaves : Bool} {op : ChildCrawl} {h : Nat}
    (low : h + 1 ≤ 6) {p blockoff off size valid : Nat} {commit : Commit} (mode : commit ≠ .none) :
    crawlIndirNode (some cb) none start leaves op (512 ^ (h + 1)) p blockoff off size valid commit =
      (do
        let c : IndirCrawl := ⟨p, blockoff, off, size, valid, commit, 512 ^ h, span h, decide (p = blocknoInvalid)⟩
        let blockno ←
          if p = blocknoInvalid then cowBlockHole (c.firstno * 8) ((c.lastno + 1 - c.firstno) * 8) (c.validno * 8)
          else pure p
        let blockno ← getBlock blockno
        indirLoop c leaves op (c.lastno + 1 - c.firstno) c.firstno blockno) := by
  have width : 512 ^ (h + 1) / blocknosPerIndir = 512 ^ h := by
    rw [Nat.pow_succ]
    exact Nat.mul_div_cancel _ (by decide)
  have pos : ¬span h = 0 := (span_pos h).ne'
  unfold crawlIndirNode
  dsimp only
  rw [width, nbytesOfBlocks_eq (show h ≤ 5 by omega), if_neg pos, if_neg (fun both => by cases both.2),
    if_neg (fun both => mode both.2)]

namespace Sweep

/-- `crawl_indir` is called on the subtree of height `h + 1` at leaf `i`. -/
structure Call (W : Sweep) (s0 : Fs) (h i p : Nat) (commit : Commit) : Prop where
  low : h + 1 ≤ 6
  meets : enter W.lo i < leave W.hi (h + 1) i
  ready : W.Ready s0 (h + 1) i p
  mode : commit = .copy ∨ commit = .atomic
  trips : commit = .atomic → W.Trips s0.bpram (h + 1) i p → W.errors (.assertion .crawlIndirCow)

variable {W : Sweep} {s0 s t : Fs} {h i p b k : Nat} {q : Nat → Nat} {commit : Commit}

theorem enter_le_kid (lo h i k : Nat) : enter lo i ≤ enter lo (kid h i k) := by
  have := base_le_kid h i k
  simp only [enter]
  omega

namespace Call

/-- First and last child the loop visits, and what it works with. -/
def first (call : W.Call s0 h i p commit) : Nat := (W.visit h i call.low call.meets).firstno

def last (call : W.Call s0 h i p commit) : Nat := (W.visit h i call.low call.meets).lastno

def crawl (call : W.Call s0 h i p commit) : IndirCrawl := (W.visit h i call.low call.meets).crawl p commit

variable (call : W.Call s0 h i p commit)

theorem visits_iff : (call.first ≤ k ∧ k ≤ call.last) ↔
    (k < 512 ∧ enter W.lo (kid h i k) < leave W.hi h (kid h i k)) :=
  (W.visit h i call.low call.meets).visits_iff

theorem first_le_last : call.first ≤ call.last := (W.visit h i call.low call.meets).firstno_le_lastno

theorem last_lt : call.last < 512 := (W.visit h i call.low call.meets).lastno_lt

theorem first_bounds : base i + call.first * span h ≤ enter W.lo i ∧
    enter W.lo i < base i + call.first * span h + span h :=
  (W.visit h i call.low call.meets).firstno_bounds

theorem last_bounds : base i + call.last * span h < leave W.hi (h + 1) i ∧
    leave W.hi (h + 1) i ≤ base i + call.last * span h + span h :=
  (W.visit h i call.low call.meets).lastno_bounds

theorem childValid (small : k < 512) : call.crawl.childValid k = validIn W.g h (kid h i k) :=
  (W.visit h i call.low call.meets).crawl_childValid small p commit

section Child

variable (visited : call.first ≤ k ∧ k ≤ call.last)

include visited

theorem childBlockoff : call.crawl.childBlockoff k = enter W.lo (kid h i k) / blockSize :=
  (W.visit h i call.low call.meets).crawl_childBlockoff visited p commit

theorem childOff : call.crawl.childOff k = enter W.lo (kid h i k) - base (kid h i k) :=
  (W.visit h i call.low call.meets).crawl_childOff visited p commit

theorem childSize : call.crawl.childSize k = leave W.hi h (kid h i k) - enter W.lo (kid h i k) :=
  (W.visit h i call.low call.meets).crawl_childSize visited p commit

end Child

theorem onlyInvalid : call.crawl.onlyInvalid ↔ W.g ≤ enter W.lo i :=
  (W.visit h i call.low call.meets).crawl_onlyInvalid p commit

theorem firstno : call.crawl.firstno = call.first := rfl

theorem lastno : call.crawl.lastno = call.last := (W.visit h i call.low call.meets).crawl_lastno p commit

theorem childCommit_copy (copy : commit = .copy) : call.crawl.childCommit = .copy := by
  subst copy
  rfl

theorem childCommit_atomic (atomic : commit = .atomic) (whole : call.first = call.last ∨ W.g ≤ enter W.lo i) :
    call.crawl.childCommit = .atomic := by
  have only : call.crawl.firstno = call.crawl.lastno ∨ call.crawl.onlyInvalid := by
    rwa [call.onlyInvalid, call.lastno, call.firstno]
  subst atomic
  exact if_pos only

theorem childCommit_split (atomic : commit = .atomic) (split : call.first ≠ call.last)
    (valid : enter W.lo i < W.g) : call.crawl.childCommit = .copy := by
  have only : ¬(call.crawl.firstno = call.crawl.lastno ∨ call.crawl.onlyInvalid) := by
    rw [call.onlyInvalid, call.lastno, call.firstno]
    rintro (same | behind)
    · exact split same
    · omega
  subst atomic
  exact if_neg only

/-- The first child is entered where the subtree is. -/
theorem enter_first : enter W.lo (kid h i call.first) = enter W.lo i := by
  have bounds := call.first_bounds
  simp only [enter, base_kid] at *
  omega

/-- A visited child that starts before a point in the range's first child is that child. -/
theorem eq_first (from_first : call.first ≤ k) (before : base (kid h i k) ≤ enter W.lo i) : k = call.first := by
  have bounds := call.first_bounds
  by_contra ne
  have step : call.first * span h + span h ≤ k * span h := by
    rw [← Nat.succ_mul]
    exact Nat.mul_le_mul_right _ (by omega)
  rw [base_kid] at before
  omega

/-- An entry behind the last child that counts after the sweep counted before. -/
theorem born_of_late (late : call.last < k) (some : validIn (max W.g W.hi) h (kid h i k) ≠ 0) (small : k < 512) :
    base (kid h i k) < W.g := by
  have bounds := call.last_bounds
  have room := mul_span_le (h := h) small
  have step : call.last * span h + span h ≤ k * span h := by
    rw [← Nat.succ_mul]
    exact Nat.mul_le_mul_right _ late
  have total := span_succ h
  simp only [validIn, leave, base_kid] at *
  omega

theorem no_eq_first (start : base i ≤ W.lo) : (W.lo - base i) / span h = call.first := by
  unfold first Visit.firstno visit
  rw [show enter W.lo i = W.lo from Nat.max_eq_left start]

end Call

/-- A subtree that trips contains the start of the range. -/
theorem Trips.inside {m : Mem} (trips : W.Trips m h i p) : base i ≤ W.lo ∧ W.lo < base i + span h ∧ p ≠ 0 := by
  cases h with
  | zero => exact trips.elim
  | succ h => exact ⟨trips.2.1, trips.2.2.1, trips.1⟩

/-- Only the first child can trip. -/
theorem Call.trips_first (call : W.Call s0 h i p commit) {m : Mem} {p' : Nat} (from_first : call.first ≤ k)
    (trips : W.Trips m h (kid h i k) p') : k = call.first := by
  apply call.eq_first from_first
  have := trips.inside.1
  simp only [enter]
  omega

/-- The loop is about to visit child `k` and nothing it did can be seen yet. Every entry
of the new block that counts is in block `b`, except for children yet to be visited that
the file's end leaves out. -/
structure Loop (call : W.Call s0 h i p commit) (q : Nat → Nat) (b k : Nat) (s : Fs) : Prop where
  mid : W.Mid s0 h i p q b k s
  from_first : call.first ≤ k
  stored : ∀ j, j < 512 → (j < k ∨ call.last < j ∨ (p ≠ 0 ∧ base (kid h i j) < W.g)) →
    validIn (max W.g W.hi) h (kid h i j) ≠ 0 → q j = addrAt s.bpram b j
  pending : ∀ j, k ≤ j → j ≤ call.last → (p = 0 ∨ W.g ≤ base (kid h i j)) → q j = 0
  stays : commit = .atomic → W.g ≤ enter W.lo i → p ≠ 0 → b = p
  moves : W.moving → commit = .copy → enter W.lo i < W.g → call.first < k → b ≠ p
  /-- only a fetch comes before the first child -/
  begins : k = call.first → p ≠ 0 → (s = s0 ∧ b = p) ∨ (h = 0 ∧ q k ≠ 0)
  /-- a loop that will trip is still where it began -/
  trips : commit = .atomic → W.Trips s0.bpram (h + 1) i p → k = call.first ∧ s = s0 ∧ b = p

variable {call : W.Call s0 h i p commit}

theorem Loop.born (loop : Loop call q b k s) (high : k ≤ call.last) (present : q k ≠ 0) :
    p ≠ 0 ∧ base (kid h i k) < W.g := by
  constructor
  · intro hole
    exact present (loop.pending k (le_refl _) high (Or.inl hole))
  · by_contra behind
    exact present (loop.pending k (le_refl _) high (Or.inr (by omega)))

theorem valid_of_born {n : Nat} (born : base i < n) : validIn n h i ≠ 0 := by
  have := span_pos h
  simp only [validIn]
  omega

/-- The entry of a child that the old file has is in the block. -/
theorem Loop.entry (loop : Loop call q b k s) (high : k ≤ call.last) (present : p ≠ 0)
    (born : base (kid h i k) < W.g) : q k = addrAt s.bpram b k := by
  have visited := call.visits_iff.mp ⟨loop.from_first, high⟩
  exact loop.stored k visited.1 (Or.inr (Or.inr ⟨present, born⟩)) (valid_of_born (by omega))

/-- The child is as it was before the sweep. -/
theorem Loop.child_holds (loop : Loop call q b k s) (high : k ≤ call.last) :
    W.Holds W.lo (max W.g W.lo) s.bpram h (kid h i k) (q k) := by
  obtain ⟨small, meets⟩ := call.visits_iff.mp ⟨loop.from_first, high⟩
  have tree := loop.mid.kids.ok k small
  rw [share_validIn _ _ _ _ small, valid_before meets] at tree
  exact tree.clamp (clamp_before meets)

theorem Loop.ready (loop : Loop call q b k s) (high : k ≤ call.last) (nvm : q k < 2 ^ 63) :
    W.Ready s h (kid h i k) (q k) := by
  obtain ⟨small, meets⟩ := call.visits_iff.mp ⟨loop.from_first, high⟩
  exact {
    ok := loop.mid.ok
    disk := loop.mid.disk
    tree := loop.child_holds high
    live := by
      rw [← kidOwned_mine small meets]
      exact loop.mid.live k small
    unborn := fun behind => loop.pending k (le_refl _) high (Or.inr behind)
    nvm := nvm }

/-- No earlier entry of the block has the value of a child's entry. -/
theorem Loop.entry_unique (loop : Loop call q b k s) (leaf : h = 0) (high : k ≤ call.last) (present : q k ≠ 0)
    {j : Nat} (before : j < k) : addrAt s.bpram b j ≠ q k := by
  obtain ⟨small, -⟩ := call.visits_iff.mp ⟨loop.from_first, high⟩
  subst leaf
  obtain ⟨-, born⟩ := loop.born high present
  have earlier : base (kid 0 i j) < W.g := by
    have := Nat.mul_le_mul_right (span 0) (show j ≤ k by omega)
    rw [base_kid] at *
    omega
  have same := loop.stored j (by omega) (Or.inl before) (valid_of_born (by omega))
  have mem : ∀ l, l < 512 → base (kid 0 i l) < W.g → q l ≠ 0 →
      q l ∈ W.kidOwned (W.reach 0 i k) s.bpram 0 i q l := by
    intro l smallL bornL someL
    rw [W.kidOwned_eq smallL]
    simp only [owned, treeBlocks]
    rw [if_neg (valid_of_born (by omega))]
    exact W.owns someL
  intro equal
  rw [← same] at equal
  exact loop.mid.kids.apart j k (by omega) small (by omega) (q j)
    (mem j (by omega) earlier (by rw [equal]; exact present)) (equal ▸ mem k small born present)

/-- A child on disk is read into a block that takes its place. -/
theorem Loop.fetch (loop : Loop call q b k s) (leaf : h = 0) (high : k ≤ call.last) (far : 2 ^ 63 ≤ q k) :
    W.Runs (getBlockFromDisk (q k) b) s
      (fun nb t => nb < 2 ^ 61 ∧ Loop call (moved q k nb) b k t) (fun _ _ => False) := by
  obtain ⟨small, meets⟩ := call.visits_iff.mp ⟨loop.from_first, high⟩
  have unique := fun j => loop.entry_unique leaf high (show q k ≠ 0 by omega) (j := j)
  subst leaf
  obtain ⟨present, born⟩ := loop.born high (show q k ≠ 0 by omega)
  have entry := loop.entry high present born
  have node := loop.mid.node
  have some : validIn (max W.g W.lo) 0 (kid 0 i k) ≠ 0 := valid_of_born (by omega)
  have leaf := loop.child_holds high some
  have away : ¬W.resident := fun resident => by
    have := W.resident_ok resident some meets leaf
    omega
  have top : q k < 2 ^ 64 := by
    rcases W.pointer some leaf with zero | nvm | disk <;> omega
  obtain ⟨buf, dm, read, disk, -⟩ := W.fetch loop.mid.disk some far leaf
  have reads : ∀ x v (m' : Mem) nb, v ≠ 0 → W.leaves.ok x s.bpram (kid 0 i k) (q k) v → 3 ≤ nb → nb < 2 ^ 61 →
      (∀ o, o < blockSize → m' nb o = buf o) →
      W.leaves.ok x m' (kid 0 i k) nb v ∧ W.leaves.blocks m' (kid 0 i k) nb v = {nb} := by
    intro x v m' nb someV ok low top same
    obtain ⟨buf', dm', read', -, back⟩ := W.fetch loop.mid.disk someV far ok
    rw [read] at read'
    cases read'
    exact back m' nb low top same
  have flag : (q k).testBit 63 = true := by
    rw [Nat.testBit_eq_decide_div_mod_eq, decide_eq_true_eq]
    omega
  unfold getBlockFromDisk fetchBlock readDisk
  simp only [flag, if_true, bind_assoc]
  refine runs_get ?_
  simp only [read]
  have disked := loop.mid.setDisk disk
  change W.Runs (allocBlock >>= _) { s with disk := dm } _ _
  refine (runs_alloc disked.ok away).bind ?_ (fun _ _ => id)
    (fun _ => steady_installBlock (steady_getBlock _))
  rintro nb t ⟨fresh, memory⟩
  have low := fresh.unused.1
  have below := fresh.unused.lt disked.ok
  have ne : b ≠ nb := fun same => fresh.unused.2.2 (same ▸ loop.mid.used.1)
  unfold installBlock
  refine runs_store ?_
  have fresh' := fresh.store (w := ⟨false, nb, 0, blockSize, buf⟩) rfl
  have filled : ∀ o, o < blockSize → (t.store ⟨false, nb, 0, blockSize, buf⟩).bpram nb o = buf o :=
    fun o inside => apply_covered ⟨rfl, Nat.zero_le _, by simpa using inside⟩
  generalize t.store ⟨false, nb, 0, blockSize, buf⟩ = u at fresh' filled ⊢
  have root : ∀ j, addrAt u.bpram b j = addrAt s.bpram b j := fun j => by
    simp only [addrAt, wordAt, fresh'.through.last b ne]
  have found : findAddr u.bpram b (q k) blocknosPerIndir 0 = Option.some k :=
    findAddr_some (Nat.zero_le _) (by simpa [blocknosPerIndir] using small) (by rw [root, entry])
      (fun j before => by rw [root]; exact unique j before)
  rw [Runs, wp_bind, wp_getBlock (by omega) (by omega), wp_bind, wp_get]
  simp only [found]
  change u.allocFailures ≤ u.allocFailures ∧ (_ → nb < 2 ^ 61 ∧ Loop call (moved q k nb) b k (u.store (slotWrite b k nb)))
  have mid := disked.fetched small fresh'
    (fun x v someV ok => reads x v u.bpram nb someV ok low below filled)
  have stored : W.Mid s0 0 i p (moved q k nb) b k (u.store (slotWrite b k nb)) := by
    by_cases same : b = p
    · subst same
      have linked := mid.relink small (by rw [moved_self]; omega) ?_
      · rwa [moved_self] at linked
      · rw [moved_self]
        intro someG
        refine (reads W.lo _ u.bpram nb someG ?_ low below filled).1
        exact W.leaves.mono_ok (validIn_mono (Nat.le_max_left _ _)) leaf
    · exact mid.store small (by omega) (Or.inl same)
  refine ⟨le_refl _, fun _ => ⟨below, stored, loop.from_first, ?_, ?_, loop.stays, loop.moves, ?_, ?_⟩⟩
  · intro j smallJ known someJ
    by_cases this : j = k
    · rw [this, moved_self]
      exact (addrAt_slotWrite (by omega)).symm
    · rw [moved_other this, store_bpram, addrAt_slotWrite_other (Or.inr this), root]
      exact loop.stored j smallJ known someJ
  · intro j later before unseen
    by_cases this : j = k
    · subst this
      rcases unseen with hole | behind
      · exact absurd hole present
      · omega
    · rw [moved_other this]
      exact loop.pending j later before unseen
  · exact fun _ _ => Or.inr ⟨rfl, by rw [moved_self]; omega⟩
  · intro atomic trips
    obtain ⟨start, same, root⟩ := loop.trips atomic trips
    obtain ⟨-, begins, -, -, -, ⟨hole, -⟩ | ⟨-, never⟩⟩ := trips
    · rw [call.no_eq_first begins, ← start, ← same, ← root, ← entry] at hole
      omega
    · exact never.elim

theorem testBit_disk {v : Nat} (flag : v.testBit 63 = true) : 2 ^ 63 ≤ v := by
  by_contra small
  rw [not_testBit_of_lt (by omega)] at flag
  cases flag

theorem Loop.child_nvm (loop : Loop call q b k s) (high : k ≤ call.last)
    (near : ¬(decide (h = 0) = true ∧ (q k).testBit 63 = true)) : q k < 2 ^ 63 := by
  by_cases hole : q k = 0
  · omega
  obtain ⟨-, born⟩ := loop.born high hole
  have some : validIn (max W.g W.lo) h (kid h i k) ≠ 0 := valid_of_born (by omega)
  have tree := loop.child_holds high
  cases h with
  | zero =>
    rcases W.pointer some (tree some) with zero | nvm | disk
    · omega
    · omega
    · have flag : (q k).testBit 63 = true := by
        rw [Nat.testBit_eq_decide_div_mod_eq, decide_eq_true_eq]
        omega
      exact absurd ⟨rfl, flag⟩ near
  | succ h =>
    have := (tree some).1.resolve_left hole
    omega

/-- What the loop takes for the child's number is its number in the new block. -/
theorem Loop.load (loop : Loop call q b k s) (high : k ≤ call.last) :
    W.Runs (indirChild call.crawl (decide (h = 0)) b k) s
      (fun child t => ∃ q', Loop call q' b k t ∧ child = q' k ∧ q' k < 2 ^ 63) (fun _ _ => False) := by
  obtain ⟨small, -⟩ := call.visits_iff.mp ⟨loop.from_first, high⟩
  have rest : W.Runs (if decide (h = 0) = true ∧ (q k).testBit 63 = true then getBlockFromDisk (q k) b
      else pure (q k)) s (fun child t => ∃ q', Loop call q' b k t ∧ child = q' k ∧ q' k < 2 ^ 63)
      (fun _ _ => False) := by
    refine runs_ite (fun far => ?_) (fun near => runs_pure ⟨q, loop, rfl, loop.child_nvm high near⟩)
    refine (loop.fetch (of_decide_eq_true far.1) high (testBit_disk far.2)).mono ?_ (fun _ _ => id)
    rintro nb t ⟨below, loop'⟩
    exact ⟨moved q k nb, loop', (moved_self q k nb).symm, by rw [moved_self]; omega⟩
  unfold indirChild
  refine runs_ite (fun unseen => ?_) (fun seen => ?_)
  · have hole : q k = 0 := by
      refine loop.pending k (le_refl _) high ?_
      rcases unseen with none | hole
      · right
        by_contra born
        rw [call.childValid small] at none
        exact valid_of_born (by omega) none
      · exact Or.inl (of_decide_eq_true hole)
    rw [show q k = blocknoInvalid from hole] at rest
    exact runs_pure_bind rest
  · obtain ⟨some, present⟩ := not_or.mp seen
    have entry := loop.entry high (fun hole => present (decide_eq_true hole)) (by
      by_contra behind
      apply some
      rw [call.childValid small]
      simp only [validIn]
      omega)
    rw [entry] at rest
    exact runs_load small rest

/-! ### Linking a child that was swept unseen -/

/-- Nothing the loop does can be seen before it ends. -/
def Call.Quiet (call : W.Call s0 h i p commit) : Prop :=
  commit = .copy ∨ W.g ≤ enter W.lo i ∨ call.first ≠ call.last ∨ p = 0

variable {p' : Nat}

theorem Loop.still (loop : Loop call q b k s) (high : k ≤ call.last) (quiet : call.Quiet)
    (done : W.Done s h (kid h i k) (q k) call.crawl.childCommit p' t) :
    Through (fun m => Keeps s (W.mine s h (kid h i k) (q k)) m ∧ W.OldAt s t h (kid h i k) (q k) m) s t := by
  refine done.crash.mono (fun m seen => ⟨seen.1, seen.2.resolve_right ?_⟩)
  rintro ⟨atomic, valid, same, -⟩
  have later := enter_le_kid W.lo h i k
  have copied : call.crawl.childCommit ≠ .copy := by rw [atomic]; decide
  rcases quiet with copy | behind | split | hole
  · exact copied (call.childCommit_copy copy)
  · omega
  · rcases call.mode with copy | atomic
    · exact copied (call.childCommit_copy copy)
    · exact copied (call.childCommit_split atomic split (by omega))
  · have := loop.pending k (le_refl _) high (Or.inl hole)
    have := done.nvm.1
    omega

/-- Sweeping a child leaves the block with the entries alone. -/
theorem Loop.block_kept (loop : Loop call q b k s) (high : k ≤ call.last) {m : Mem}
    (keeps : Keeps s (W.mine s h (kid h i k) (q k)) m) (j : Nat) : addrAt m b j = addrAt s.bpram b j := by
  obtain ⟨small, meets⟩ := call.visits_iff.mp ⟨loop.from_first, high⟩
  have same := keeps b (Or.inl loop.mid.used.1) (kidOwned_mine small meets ▸ (loop.mid.away k small).1)
  simp only [addrAt, wordAt, same]

/-- The child's new number is in its place and the loop goes on. -/
theorem Loop.next (loop : Loop call q b k s) {b' : Nat} {u : Fs}
    (mid : W.Mid s0 h i p (moved q k p') b' (k + 1) u) (here : addrAt u.bpram b' k = p')
    (others : ∀ j, j < 512 → j ≠ k → addrAt u.bpram b' j = addrAt s.bpram b j)
    (stays : commit = .atomic → W.g ≤ enter W.lo i → p ≠ 0 → b' = p)
    (moves : W.moving → commit = .copy → enter W.lo i < W.g → b' ≠ p)
    (calm : ¬(commit = .atomic ∧ W.Trips s0.bpram (h + 1) i p)) : Loop call (moved q k p') b' (k + 1) u where
  mid := mid
  from_first := loop.from_first.trans (Nat.le_succ _)
  stored := by
    intro j small known some
    by_cases this : j = k
    · rw [this, moved_self, here]
    · rw [moved_other this, others j small this]
      refine loop.stored j small ?_ some
      rcases known with before | rest
      · exact Or.inl (by omega)
      · exact Or.inr rest
  pending := by
    intro j later before unseen
    rw [moved_other (by omega)]
    exact loop.pending j (by omega) before unseen
  stays := stays
  moves := fun moving copy valid _ => moves moving copy valid
  begins := by
    intro start
    have := loop.from_first
    omega
  trips := fun atomic trips => absurd ⟨atomic, trips⟩ calm

/-- A loop that will trip has come to a missing child. -/
theorem Loop.trips_hole (loop : Loop call q b k s) (atomic : commit = .atomic)
    (trips : W.Trips s0.bpram (h + 1) i p)
    (child : ¬(call.crawl.childCommit = .atomic ∧ W.Trips s.bpram h (kid h i k) (q k))) :
    k = call.first ∧ b = p ∧ q k = 0 ∧ W.g ≤ enter W.lo i ∧ base (kid h i k) < W.g ∧ call.first ≠ call.last := by
  obtain ⟨start, same, root⟩ := loop.trips atomic trips
  obtain ⟨present, begins, -, behind, born, rest⟩ := trips
  rw [call.no_eq_first begins] at born rest
  have entry := loop.entry (start ▸ call.first_le_last) present (start ▸ born)
  have covered : W.g ≤ enter W.lo i := by simp only [enter]; omega
  rw [start, same, root] at entry
  rcases rest with ⟨hole, more⟩ | ⟨-, below⟩
  · refine ⟨start, root, ?_, covered, start ▸ born, fun equal => ?_⟩
    · rw [start, entry, hole]
    · have bound := call.last_bounds.2
      rw [base_kid, equal] at more
      omega
  · refine absurd ⟨call.childCommit_atomic atomic (Or.inr covered), ?_⟩ child
    rw [start, same, entry]
    exact below

/-- The assertion on the copy that "should not occur" fails only if the subtree trips. -/
theorem Loop.trips_of_link (loop : Loop call q b k s) (behind : W.g ≤ enter W.lo i) (present : p ≠ 0) (born : base (kid h i k) < W.g)
    (split : call.first ≠ call.last) (hole : q k = 0) : W.Trips s0.bpram (h + 1) i p := by
  have start : k = call.first := call.eq_first loop.from_first (by omega)
  have below := base_le_kid h i k
  have inside : W.g ≤ W.lo ∧ base i ≤ W.lo := by
    simp only [enter] at behind
    omega
  have within : W.lo < base i + span (h + 1) := by
    have range := call.meets
    simp only [enter, leave] at range
    omega
  have empty : addrAt s0.bpram p k = 0 := by
    rcases loop.begins start present with ⟨rfl, rfl⟩ | ⟨-, full⟩
    · rw [← hole]
      exact (loop.entry (start ▸ call.first_le_last) present born).symm
    · exact absurd hole full
  refine ⟨present, inside.2, within, inside.1, ?_⟩
  rw [call.no_eq_first inside.2]
  refine ⟨start ▸ born, Or.inl ⟨start ▸ empty, ?_⟩⟩
  have step : call.first * span h + span h ≤ call.last * span h := by
    rw [← Nat.succ_mul]
    exact Nat.mul_le_mul_right _ (by have := call.first_le_last; omega)
  have bound := call.last_bounds.1
  rw [base_kid]
  omega

/-- A subtree trips if its first child does. -/
theorem Loop.trips_of_child (loop : Loop call q b k s) (high : k ≤ call.last)
    (trips : W.Trips s.bpram h (kid h i k) (q k)) : W.Trips s0.bpram (h + 1) i p := by
  obtain ⟨small, -⟩ := call.visits_iff.mp ⟨loop.from_first, high⟩
  have start := call.trips_first loop.from_first trips
  obtain ⟨low, top, present⟩ := trips.inside
  obtain ⟨root, born⟩ := loop.born high present
  have below := base_le_kid h i k
  have room := mul_span_le (h := h) small
  have entry := loop.entry high root born
  have inside : base i ≤ W.lo ∧ W.lo < base i + span (h + 1) := by
    rw [base_kid] at *
    omega
  rcases loop.begins start root with ⟨rfl, rfl⟩ | ⟨rfl, -⟩
  · have behind : W.g ≤ W.lo := by
      cases h with
      | zero => exact trips.elim
      | succ h => exact trips.2.2.2.1
    refine ⟨root, inside.1, inside.2, behind, ?_⟩
    rw [call.no_eq_first inside.1, ← start, ← entry]
    exact ⟨born, Or.inr ⟨present, trips⟩⟩
  · exact trips.elim

/-- The loop stops between two stores. -/
theorem Mid.stop {no : Nat} {e : Err} (mid : W.Mid s0 h i p q b no s) (error : W.errors e) (grow : Grow s t)
    (writes : t.writes = s.writes) (memory : t.bpram = s.bpram)
    (space : e = .enospc → s.allocFailures < t.allocFailures) : W.Failed s0 (h + 1) i p e t where
  grow := mid.grow.trans grow
  error := error
  space := fun full => lt_of_le_of_lt mid.grow.failures (space full)
  crash := (mid.crash.mono (fun _ seen => ⟨seen.1, seen.2.later grow⟩)).trans
    (Through.still writes memory ⟨mid.crash.last.1, mid.crash.last.2.later grow⟩)

theorem Ready.stop {e : Err} (ready : W.Ready s h i p) (error : W.errors e) (grow : Grow s t)
    (writes : t.writes = s.writes) (memory : t.bpram = s.bpram)
    (space : e = .enospc → s.allocFailures < t.allocFailures) : W.Failed s h i p e t where
  grow := grow
  error := error
  space := space
  crash := Through.still writes memory ⟨fun _ _ _ => rfl, ready.tree.mono (validIn_mono (Nat.le_max_left _ _)),
    fun _ member => Or.inl (treeBlocks_mono (validIn_mono (Nat.le_max_left _ _)) member)⟩

/-- Before the range, the swept subtree reads as the old one. -/
theorem Holds.early {x n : Nat} {m : Mem} (holds : TreeOk W.leaves x m h i p n) (before : base i + n ≤ W.lo) :
    TreeOk W.leaves W.lo m h i p n := by
  induction h generalizing i p n with
  | zero => exact fun some => W.early before (holds some)
  | succ h ih =>
    refine treeOk_node.mpr (fun some => ?_)
    obtain ⟨pointer, kids, away⟩ := treeOk_node.mp holds some
    refine ⟨pointer, ⟨fun k small => ?_, kids.apart⟩, away⟩
    by_cases none : share h n k = 0
    · rw [none]
      exact treeOk_empty ..
    · apply ih (kids.ok k small)
      change base (kid h i k) + _ ≤ _
      rw [base_kid]
      unfold share at none ⊢
      omega

/-- A child swept behind the file's end reads as before, as far as the old file goes. -/
theorem Done.old_part (done : W.Done s h (kid h i k) p commit p' t) (behind : W.g ≤ enter W.lo i) :
    W.Holds W.lo W.g t.bpram h (kid h i k) p' := by
  unfold Holds
  by_cases none : validIn W.g h (kid h i k) = 0
  · rw [none]
    exact treeOk_empty ..
  · have below := base_le_kid h i k
    refine Holds.early (done.new.1.mono (validIn_mono (Nat.le_max_left _ _))) ?_
    simp only [validIn, enter] at *
    omega

/-- Linking a child that was swept unseen. -/
theorem Loop.link (loop : Loop call q b k s) (high : k ≤ call.last) (quiet : call.Quiet)
    (done : W.Done s h (kid h i k) (q k) call.crawl.childCommit p' t)
    (child : ¬(call.crawl.childCommit = .atomic ∧ W.Trips s.bpram h (kid h i k) (q k)))
    (changed : q k ≠ p' ∨ p = 0) :
    W.Runs (indirLink call.crawl b k 0 p') t (fun b' u => Loop call (moved q k p') b' (k + 1) u)
      (fun e u => W.Failed s0 (h + 1) i p e u) := by
  obtain ⟨small, meets⟩ := call.visits_iff.mp ⟨loop.from_first, high⟩
  have still := loop.still high quiet done
  have mid := loop.mid.child small meets done still
  have kept := loop.block_kept high still.last.1
  have fits : p' < 2 ^ 64 := by have := done.nvm.2; omega
  -- a loop that trips does not get past this point
  have calm : b ≠ p ∨ call.first = call.last ∨ validIn W.g h (kid h i k) = 0 ∨ ¬W.g ≤ enter W.lo i →
      ¬(commit = .atomic ∧ W.Trips s0.bpram (h + 1) i p) := by
    rintro safe ⟨atomic, trips⟩
    obtain ⟨-, root, -, behind, born, split⟩ := loop.trips_hole atomic trips child
    rcases safe with other | whole | none | valid
    · exact other root
    · exact split whole
    · exact valid_of_born born none
    · exact valid behind
  have store : ∀ c u, W.Mid s0 h i p (moved q k p') c (k + 1) (u.store (slotWrite c k p')) →
      (∀ j, j < 512 → j ≠ k → addrAt u.bpram c j = addrAt t.bpram b j) →
      (commit = .atomic → W.g ≤ enter W.lo i → p ≠ 0 → c = p) →
      (W.moving → commit = .copy → enter W.lo i < W.g → c ≠ p) →
      ¬(commit = .atomic ∧ W.Trips s0.bpram (h + 1) i p) →
      W.Runs (storeAddr c k p' >>= fun _ => pure c) u (fun b' u => Loop call (moved q k p') b' (k + 1) u)
        (fun e u => W.Failed s0 (h + 1) i p e u) := by
    intro c u mid' same stays moves calm
    refine runs_store (runs_pure (loop.next mid' (addrAt_slotWrite fits) ?_ stays moves calm))
    intro j smallJ ne
    rw [← kept j, ← same j smallJ ne]
    exact addrAt_slotWrite_other (Or.inr ne)
  unfold indirLink
  refine runs_check (by rcases call.mode with copy | atomic <;> simp [Call.crawl, Visit.crawl, *]) ?_
  refine runs_ite (fun inplace => ?_) (fun copied => ?_)
  · change p ≠ b ∨ (commit = .atomic ∧ (call.crawl.firstno = call.crawl.lastno ∨ 0 = 1)) ∨
      call.crawl.childValid k = 0 at inplace
    rw [call.childValid small, call.firstno, call.lastno] at inplace
    refine store b t ?_ (fun _ _ _ => rfl) loop.stays (fun moving copy valid => ?_) (calm ?_)
    · by_cases same : b = p
      · rcases inplace with other | ⟨atomic, whole⟩ | none
        · exact absurd same.symm other
        · subst same
          have linked := mid.relink small (by rw [moved_self]; exact fits) ?_
          · rwa [moved_self] at linked
          · rw [moved_self]
            have behind : W.g ≤ enter W.lo i := by
              rcases quiet with copy | behind | split | hole
              · rw [atomic] at copy
                cases copy
              · exact behind
              · omega
              · have := mid.node.1
                omega
            exact done.old_part behind
        · exact mid.store small fits (Or.inr none)
      · exact mid.store small fits (Or.inl same)
    · rcases inplace with other | ⟨atomic, -⟩ | none
      · exact other.symm
      · rw [atomic] at copy
        cases copy
      · refine loop.moves moving copy valid (lt_of_le_of_ne loop.from_first (fun start => ?_))
        refine valid_of_born (h := h) (i := kid h i k) ?_ none
        have begins := call.enter_first
        have := Nat.le_max_right W.lo (base (kid h i k))
        rw [start] at begins
        simp only [enter] at *
        omega
    · rcases inplace with other | ⟨-, whole⟩ | none
      · exact Or.inl other.symm
      · exact Or.inr (Or.inl (by omega))
      · exact Or.inr (Or.inr (Or.inl none))
  · change ¬(p ≠ b ∨ (commit = .atomic ∧ (call.crawl.firstno = call.crawl.lastno ∨ 0 = 1)) ∨
      call.crawl.childValid k = 0) at copied
    rw [call.childValid small, call.firstno, call.lastno] at copied
    obtain ⟨same, several, some⟩ : p = b ∧ (commit = .atomic → call.first ≠ call.last) ∧
        validIn W.g h (kid h i k) ≠ 0 := by
      simp only [not_or, not_and] at copied
      exact ⟨not_not.mp copied.1, fun atomic => (copied.2.1 atomic).1, copied.2.2⟩
    subst same
    have present : p ≠ 0 := by have := mid.node.1; omega
    have born : base (kid h i k) < W.g := by
      simp only [validIn] at some
      omega
    by_cases trip : commit = .atomic ∧ W.g ≤ enter W.lo i
    · obtain ⟨atomic, behind⟩ := trip
      have hole : q k = 0 := by
        by_contra full
        have later := enter_le_kid W.lo h i k
        rcases changed with ne | none
        · exact ne (done.stays (call.childCommit_atomic atomic (Or.inr behind)) (by omega) full).symm
        · exact present none
      have trips := loop.trips_of_link behind present born (several atomic) hole
      have fails : ¬¬(commit = .atomic ∧ call.crawl.onlyInvalid) :=
        not_not.mpr ⟨atomic, call.onlyInvalid.mpr behind⟩
      rw [Runs, wp_bind, wp_check]
      refine ⟨fun holds => absurd holds fails, fun _ => ⟨le_refl _, fun _ => ?_⟩⟩
      exact mid.stop (call.trips atomic trips) (.refl t) rfl rfl (fun full => by cases full)
    · refine runs_check (fun both => trip ⟨both.1, call.onlyInvalid.mp both.2⟩) ?_
      refine (runs_of_wp (cowBlockEntire_spec mid.ok mid.node.1 mid.used.1 mid.used.2)
        (steady_cowBlockEntire _)).bind ?_ ?_ (fun _ => steady_bind (steady_storeAddr _ _ _) fun _ => steady_pure _)
      · rintro c u ⟨fresh, copy⟩
        obtain ⟨mid', entries⟩ := mid.copy fresh copy
        have other : c ≠ p := fun same => fresh.unused.2.2 (same ▸ mid.used.1)
        refine store c u (mid'.store small fits (Or.inl other)) (fun j smallJ _ => entries j smallJ)
          (fun atomic behind => absurd ⟨atomic, behind⟩ trip) (fun _ _ _ => other) ?_
        rintro ⟨atomic, trips⟩
        exact trip ⟨atomic, (loop.trips_hole atomic trips child).2.2.2.1⟩
      · rintro e u ⟨rfl, full⟩
        exact mid.stop W.errors_enospc full.grow full.writes full.bpram (fun _ => full.failures)

theorem Loop.settle (loop : Loop call q b k s) (high : k ≤ call.last) (quiet : call.Quiet)
    (done : W.Done s h (kid h i k) (q k) call.crawl.childCommit p' t)
    (child : ¬(call.crawl.childCommit = .atomic ∧ W.Trips s.bpram h (kid h i k) (q k))) :
    W.Runs (indirSettle call.crawl b k (q k) 0 p') t
      (fun result u => result.1 = 0 ∧ ∃ q', Loop call q' result.2 (k + 1) u)
      (fun e u => W.Failed s0 (h + 1) i p e u) := by
  obtain ⟨small, meets⟩ := call.visits_iff.mp ⟨loop.from_first, high⟩
  unfold indirSettle
  refine runs_ite (fun changed => ?_) (fun same => ?_)
  · refine (loop.link high quiet done child (changed.imp_right of_decide_eq_true)).bind ?_ (fun _ _ => id)
      (fun _ => steady_pure _)
    exact fun c u loop' => runs_pure ⟨rfl, _, loop'⟩
  · obtain ⟨equal, present⟩ := not_or.mp same
    replace present : p ≠ 0 := fun hole => present (decide_eq_true hole)
    have number : q k = p' := not_not.mp equal
    obtain ⟨-, born⟩ := loop.born high (number ▸ done.nvm.1)
    have still := loop.still high quiet done
    refine runs_pure_bind (runs_pure ⟨rfl, _, loop.next (loop.mid.child small meets done still) ?_
      (fun j _ _ => loop.block_kept high still.last.1 j) loop.stays ?_ ?_⟩)
    · rw [loop.block_kept high still.last.1, ← loop.entry high present born, number]
    · intro moving copy valid
      refine loop.moves moving copy valid (lt_of_le_of_ne loop.from_first (fun start => ?_))
      refine done.moves moving (call.childCommit_copy copy) ?_ number.symm
      rw [← start, call.enter_first]
      exact valid
    · rintro ⟨atomic, trips⟩
      have hole := (loop.trips_hole atomic trips child).2.2.1
      exact done.nvm.1 (number ▸ hole)

variable {op : ChildCrawl}

/-- One round of the loop, up to the child's crawl. -/
theorem Loop.visit (loop : Loop call q b k s) (high : k ≤ call.last) (steady : SteadyCrawl op)
    (inner : W.Sweeps h (kid h i k) call.crawl.childCommit op) {Q : Nat × Nat → Fs → Prop}
    (rest : ∀ q' s' p' t, Loop call q' b k s' →
      ¬(call.crawl.childCommit = .atomic ∧ W.Trips s'.bpram h (kid h i k) (q' k)) →
      W.Done s' h (kid h i k) (q' k) call.crawl.childCommit p' t →
      W.Runs (indirSettle call.crawl b k (q' k) 0 p') t Q (fun e u => W.Failed s0 (h + 1) i p e u)) :
    W.Runs (indirStep call.crawl (decide (h = 0)) op b k) s Q (fun e u => W.Failed s0 (h + 1) i p e u) := by
  have visited : call.first ≤ k ∧ k ≤ call.last := ⟨loop.from_first, high⟩
  obtain ⟨small, meets⟩ := call.visits_iff.mp visited
  have later := enter_le_kid W.lo h i k
  have room := mul_span_le (h := h) small
  have range := call.meets
  unfold indirStep
  rw [call.childBlockoff visited, call.childOff visited, call.childSize visited, call.childValid small]
  refine runs_check (Nat.div_le_div_right later) (runs_check ?_ (runs_check ?_ ?_))
  · change _ ≤ leave W.hi (h + 1) i - enter W.lo i
    simp only [enter, leave, base_kid] at *
    omega
  · change _ ≤ span h
    simp only [enter, leave, base_kid] at *
    omega
  refine (loop.load high).bind ?_ (fun _ _ impossible => impossible.elim)
    (fun _ => steady_bind (steady _ _ _ _ _ _ _) fun _ => steady_indirSettle _ _ _ _ _ _)
  rintro _ s' ⟨q', loop', rfl, nvm⟩
  have trips : call.crawl.childCommit = .atomic → W.Trips s'.bpram h (kid h i k) (q' k) →
      W.errors (.assertion .crawlIndirCow) := by
    intro atomic trips
    rcases call.mode with copy | whole
    · rw [call.childCommit_copy copy] at atomic
      cases atomic
    · exact call.trips whole (loop'.trips_of_child high trips)
  refine (inner b (q' k) s' (loop'.ready high nvm) trips).bind ?_
    (fun e t failed => loop'.mid.failed small meets failed) (fun _ => steady_indirSettle _ _ _ _ _ _)
  rintro ⟨r, p'⟩ t ⟨calm, zero, done⟩
  cases zero
  exact rest q' s' p' t loop' calm done

/-- The rounds of the loop that are left, while nothing can be seen. -/
theorem Loop.run {n : Nat} (loop : Loop call q b k s) (count : k + n = call.last + 1) (quiet : call.Quiet)
    (steady : SteadyCrawl op)
    (inner : ∀ k, call.first ≤ k → k ≤ call.last → W.Sweeps h (kid h i k) call.crawl.childCommit op) :
    W.Runs (indirLoop call.crawl (decide (h = 0)) op n k b) s
      (fun result u => result.1 = 0 ∧ ∃ q', Loop call q' result.2 (call.last + 1) u)
      (fun e u => W.Failed s0 (h + 1) i p e u) := by
  induction n generalizing k q b s with
  | zero => exact runs_pure ⟨rfl, q, by rw [← count]; exact loop⟩
  | succ n ih =>
    have high : k ≤ call.last := by omega
    refine (loop.visit high steady (inner k loop.from_first high)
      (fun q' s' p' t loop' calm done => loop'.settle high quiet done calm)).bind ?_ (fun _ _ => id)
      (fun _ => steady_ite (steady_pure _) (steady_indirLoop steady _ _ _ _ _))
    rintro ⟨r, b'⟩ u ⟨zero, q', loop'⟩
    cases zero
    exact ih loop' (by omega)

/-! ### A switch in place -/

/-- The only child was swept in place: the node, as it is, is the new subtree. -/
theorem Loop.new_at (loop : Loop call q p k s) (high : k ≤ call.last) (only : call.first = call.last)
    (born : base (kid h i k) < W.g) (grow : Grow s t) {m : Mem}
    (keeps : Keeps s (W.mine s h (kid h i k) (q k)) m) (new : W.NewAt s t h (kid h i k) (q k) (q k) m) :
    W.NewAt s0 t (h + 1) i p p m ∧
      ∀ y ∈ W.owned (max W.g W.hi) m (h + 1) i p, y = p ∨
        ∃ j, j < 512 ∧ y ∈ W.kidOwned (W.reach h i (k + 1)) m h i (moved q k (q k)) j := by
  obtain ⟨small, meets⟩ := call.visits_iff.mp ⟨loop.from_first, high⟩
  have final : k = call.last := by have := loop.from_first; omega
  have present : p ≠ 0 := by have := loop.mid.node.1; omega
  obtain ⟨kids, -, -, away⟩ := loop.mid.kids_at small meets keeps new
  have apart := away p (loop.mid.held_pointer present) (fun j smallJ => (loop.mid.away j smallJ).2)
  have stored : ∀ j, j < 512 → validIn (max W.g W.hi) h (kid h i j) ≠ 0 → moved q k (q k) j = addrAt m p j := by
    intro j smallJ some
    rw [loop.block_kept high keeps]
    by_cases this : j = k
    · rw [this, moved_self]
      exact loop.entry high present born
    · rw [moved_other this]
      exact loop.stored j smallJ (by omega) some
  subst final
  obtain ⟨holds, owned⟩ := holds_of_kids call.low call.meets loop.mid.node kids apart stored
  refine ⟨⟨holds, fun y member => ?_⟩, owned⟩
  rcases owned y member with root | ⟨j, smallJ, below⟩
  · exact Or.inl (root ▸ (loop.mid.pointer.resolve_left present).2)
  · exact loop.mid.child_blocks small meets grow keeps new smallJ below

theorem Loop.done_in_place (loop : Loop call q p k s) (high : k ≤ call.last) (only : call.first = call.last)
    (atomic : commit = .atomic) (valid : enter W.lo i < W.g)
    (done : W.Done s h (kid h i k) (q k) call.crawl.childCommit (q k) t) :
    W.Done s0 (h + 1) i p commit p t := by
  obtain ⟨small, meets⟩ := call.visits_iff.mp ⟨loop.from_first, high⟩
  have born : base (kid h i k) < W.g := by
    have start : k = call.first := by have := loop.from_first; omega
    have begins := call.enter_first
    rw [← start] at begins
    simp only [enter] at *
    omega
  have new := loop.new_at high only born done.grow done.crash.last.1 done.new
  exact {
    grow := loop.mid.grow.trans done.grow
    disk := done.disk
    new := new.1
    live := fun y member => by
      rcases new.2 y member with root | ⟨j, smallJ, below⟩
      · rw [root]
        exact Or.inl (loop.mid.child_used small meets done)
      · exact loop.mid.child_live small meets done smallJ y below
    freed := fun y gone => loop.mid.child_freed small meets done gone
    crash := by
      refine (loop.mid.crash.mono (fun m seen => ⟨seen.1, Or.inl (seen.2.later done.grow)⟩)).trans
        (done.crash.mono (fun m seen => ?_))
      rcases seen.2 with old | ⟨-, -, -, switched⟩
      · have node := (loop.mid.old_at small meets done.grow seen.1 old).1
        exact ⟨node.1, Or.inl node.2⟩
      · refine ⟨?_, Or.inr ⟨atomic, valid, rfl, (loop.new_at high only born done.grow seen.1 switched).1⟩⟩
        exact loop.mid.keeps_child small meets seen.1
    nvm := ⟨by have := loop.mid.node.1; omega, loop.mid.node.2⟩
    stays := fun _ _ _ => rfl
    moves := fun _ copy => by
      rw [atomic] at copy
      cases copy }

/-- The only child moved, and one store puts its new number in the old block. -/
theorem Loop.done_switch (loop : Loop call q p k s) (high : k ≤ call.last) (only : call.first = call.last)
    (atomic : commit = .atomic) (valid : enter W.lo i < W.g)
    (done : W.Done s h (kid h i k) (q k) call.crawl.childCommit p' t) (changed : q k ≠ p') :
    W.Done s0 (h + 1) i p commit p (t.store (slotWrite p k p')) := by
  obtain ⟨small, meets⟩ := call.visits_iff.mp ⟨loop.from_first, high⟩
  have final : k = call.last := by have := loop.from_first; omega
  have fits : p' < 2 ^ 64 := by have := done.nvm.2; omega
  have still := done.crash.mono (fun m seen => And.intro seen.1
    (seen.2.resolve_right (fun switched => changed switched.2.2.1.symm)))
  have mid := loop.mid.child small meets done still
  have present : p ≠ 0 := by have := mid.node.1; omega
  have rootMine := (mid.pointer.resolve_left present).2
  obtain ⟨kids, blocks⟩ : Kids W.leaves _ (t.store (slotWrite p k p')).bpram h i _ _ ∧ _ := mid.kids.congr
    (fun j smallJ y member => apply_other (fun (same : y = p) => (mid.away j smallJ).2 (same ▸ member)))
  have blocks' : ∀ j, j < 512 → W.kidOwned (W.reach h i (k + 1)) (t.store (slotWrite p k p')).bpram h i
    (moved q k p') j = W.kidOwned (W.reach h i (k + 1)) t.bpram h i (moved q k p') j := blocks
  have stored : ∀ j, j < 512 → validIn (max W.g W.hi) h (kid h i j) ≠ 0 →
      moved q k p' j = addrAt (t.store (slotWrite p k p')).bpram p j := by
    intro j smallJ some
    by_cases this : j = k
    · rw [this, moved_self]
      exact (addrAt_slotWrite fits).symm
    · rw [moved_other this, store_bpram, addrAt_slotWrite_other (Or.inr this),
        loop.block_kept high still.last.1]
      exact loop.stored j smallJ (by omega) some
  have away : ∀ j, j < 512 → p ∉ W.kidOwned (W.reach h i (k + 1)) (t.store (slotWrite p k p')).bpram h i
      (moved q k p') j := by
    intro j smallJ
    rw [blocks' j smallJ]
    exact (mid.away j smallJ).2
  have keeps : Keeps s0 (W.mine s0 (h + 1) i p) (t.store (slotWrite p k p')).bpram := by
    intro y held outside
    rw [store_bpram, apply_other (fun (same : y = p) => outside (same ▸ rootMine))]
    exact mid.crash.last.1 y held outside
  subst final
  obtain ⟨holds, owned⟩ := holds_of_kids call.low call.meets mid.node kids away stored
  have new : W.NewAt s0 (t.store (slotWrite p call.last p')) (h + 1) i p p
      (t.store (slotWrite p call.last p')).bpram := by
    refine ⟨holds, fun y member => ?_⟩
    rcases owned y member with root | ⟨j, smallJ, below⟩
    · exact Or.inl (root ▸ rootMine)
    · exact mid.blocks j smallJ y (blocks' j smallJ ▸ below)
  exact {
    grow := mid.grow.trans (grow_store _)
    disk := mid.disk
    new := new
    live := fun y member => by
      rcases owned y member with root | ⟨j, smallJ, below⟩
      · rw [root]
        exact Or.inl mid.used
      · exact mid.live j smallJ y (blocks' j smallJ ▸ below)
    freed := mid.freed
    crash := (mid.crash.mono (fun m seen => ⟨seen.1, Or.inl (seen.2.later (grow_store _))⟩)).trans
      (through_store ⟨mid.crash.last.1, Or.inl (mid.crash.last.2.later (grow_store _))⟩
        ⟨keeps, Or.inr ⟨atomic, valid, rfl, new⟩⟩ (fun loose => by cases loose))
    nvm := ⟨present, mid.node.2⟩
    stays := fun _ _ _ => rfl
    moves := fun _ copy => by
      rw [atomic] at copy
      cases copy }

/-- The end of a loop of one round whose effect is seen at once. -/
theorem Loop.settle_visible (loop : Loop call q p k s) (high : k ≤ call.last) (only : call.first = call.last)
    (atomic : commit = .atomic) (valid : enter W.lo i < W.g)
    (done : W.Done s h (kid h i k) (q k) call.crawl.childCommit p' t) :
    W.Runs (indirSettle call.crawl p k (q k) 0 p') t
      (fun result u => result.1 = 0 ∧ W.Done s0 (h + 1) i p commit result.2 u)
      (fun e u => W.Failed s0 (h + 1) i p e u) := by
  have present : p ≠ 0 := by have := loop.mid.node.1; omega
  unfold indirSettle
  refine runs_ite (fun changed => ?_) (fun same => ?_)
  · have moved : q k ≠ p' := changed.resolve_right (fun hole => present (of_decide_eq_true hole))
    have inplace : call.crawl.prevBlockno ≠ p ∨ (call.crawl.commit = .atomic ∧
        (call.crawl.firstno = call.crawl.lastno ∨ 0 = 1)) ∨ call.crawl.childValid k = 0 :=
      Or.inr (Or.inl ⟨atomic, Or.inl (by rw [call.firstno, call.lastno, only])⟩)
    have link : W.Runs (indirLink call.crawl p k 0 p') t (fun b u => W.Done s0 (h + 1) i p commit b u)
        (fun e u => W.Failed s0 (h + 1) i p e u) := by
      unfold indirLink
      refine runs_check (by rw [show call.crawl.commit = commit from rfl, atomic]; decide) ?_
      rw [if_pos inplace]
      exact runs_pure_bind (runs_store (runs_pure (loop.done_switch high only atomic valid done moved)))
    exact link.bind (fun b u done => runs_pure ⟨rfl, done⟩) (fun _ _ => id) (fun _ => steady_pure _)
  · have equal : q k = p' := not_not.mp (not_or.mp same).1
    subst equal
    exact runs_pure_bind (runs_pure ⟨rfl, loop.done_in_place high only atomic valid done⟩)

/-! ### The whole node -/

theorem Call.begin (call : W.Call s0 h i p commit) (present : p ≠ 0) :
    Loop call (W.firstEntries s0.bpram h i p call.first) p call.first s0 where
  mid := Mid.begin call.ready present call.low call.meets
  from_first := le_refl _
  stored := by
    intro j small known some
    apply if_neg
    rintro ⟨later, behind⟩
    rcases known with before | late | born
    · omega
    · have := call.born_of_late late some small
      omega
    · omega
  pending := by
    intro j later _ unseen
    exact if_pos ⟨later, unseen.resolve_left present⟩
  stays := fun _ _ _ => rfl
  moves := fun _ _ _ more => absurd more (lt_irrefl _)
  begins := fun _ _ => Or.inl ⟨rfl, rfl⟩
  trips := fun _ _ => ⟨rfl, rfl, rfl⟩

theorem Call.lt_validno (call : W.Call s0 h i p commit) (small : k < 512) (born : base (kid h i k) < W.g) :
    k < call.crawl.validno := by
  have room := mul_span_le (h := h) small
  have pos := span_pos h
  change k < (validIn W.g (h + 1) i + span h - 1) / span h
  rw [Nat.lt_iff_add_one_le, Nat.le_div_iff_mul_le pos, Nat.succ_mul]
  simp only [validIn, base_kid] at *
  omega

theorem Call.beginHole (call : W.Call s0 h i 0 commit) (fresh : Fresh s0 b ∅ t)
    (zero : ∀ o, o < call.first * 8 ∨ ((call.last + 1) * 8 ≤ o ∧ o < call.crawl.validno * 8) → t.bpram b o = 0) :
    Loop call (fun _ => 0) b call.first t where
  mid := Mid.beginHole call.ready call.low call.meets fresh
  from_first := le_refl _
  stored := by
    intro j small known some
    refine (leValue_zero (fun n inside => zero _ ?_)).symm
    rcases known with before | late | ⟨present, -⟩
    · left
      omega
    · right
      have := call.lt_validno small (call.born_of_late late some small)
      omega
    · exact absurd rfl present
  pending := fun _ _ _ _ => rfl
  stays := fun _ _ present => absurd rfl present
  moves := fun _ _ _ more => absurd more (lt_irrefl _)
  begins := fun _ present => absurd rfl present
  trips := fun _ trips => absurd rfl trips.inside.2.2

theorem Call.childMode (call : W.Call s0 h i p commit) :
    call.crawl.childCommit = .copy ∨ call.crawl.childCommit = .atomic := by
  rcases call.mode with copy | atomic
  · exact Or.inl (call.childCommit_copy copy)
  · by_cases whole : call.first = call.last ∨ W.g ≤ enter W.lo i
    · exact Or.inr (call.childCommit_atomic atomic whole)
    · exact Or.inl (call.childCommit_split atomic (fun same => whole (Or.inl same))
        (Nat.lt_of_not_le (fun behind => whole (Or.inr behind))))

/-- What a loop leaves that nobody noticed. -/
theorem Loop.done (loop : Loop call q b (call.last + 1) s) :
    ¬(commit = .atomic ∧ W.Trips s0.bpram (h + 1) i p) ∧ W.Done s0 (h + 1) i p commit b s := by
  have new := Mid.finish call.low call.meets loop.mid
    (fun k small some => loop.stored k small (by
      by_cases before : k < call.last + 1
      · exact Or.inl before
      · exact Or.inr (Or.inl (by omega))) some)
  have order := call.first_le_last
  refine ⟨fun both => ?_, {
    grow := loop.mid.grow
    disk := loop.mid.disk
    new := new.1
    live := new.2
    freed := loop.mid.freed
    crash := loop.mid.crash.mono (fun m seen => ⟨seen.1, Or.inl seen.2⟩)
    nvm := ⟨by have := loop.mid.node.1; omega, loop.mid.node.2⟩
    stays := loop.stays
    moves := fun moving copy valid => loop.moves moving copy valid (by omega) }⟩
  have := (loop.trips both.1 both.2).1
  omega

/-- The loop of `crawl_indir` on a block that exists. -/
theorem Call.run (call : W.Call s0 h i p commit) (steady : SteadyCrawl op)
    (inner : ∀ k, call.first ≤ k → k ≤ call.last → W.Sweeps h (kid h i k) call.crawl.childCommit op)
    (present : p ≠ 0) :
    W.Runs (indirLoop call.crawl (decide (h = 0)) op (call.last + 1 - call.first) call.first p) s0
      (fun result t => ¬(commit = .atomic ∧ W.Trips s0.bpram (h + 1) i p) ∧ result.1 = 0 ∧
        W.Done s0 (h + 1) i p commit result.2 t)
      (fun e t => W.Failed s0 (h + 1) i p e t) := by
  have order := call.first_le_last
  by_cases quiet : call.Quiet
  · refine ((call.begin present).run (by omega) quiet steady inner).mono ?_ (fun _ _ => id)
    rintro result t ⟨zero, q, loop⟩
    exact ⟨loop.done.1, zero, loop.done.2⟩
  · simp only [Quiet, not_or, not_not, not_le] at quiet
    obtain ⟨copied, valid, only, -⟩ := quiet
    have atomic := call.mode.resolve_left copied
    have calm : ¬W.Trips s0.bpram (h + 1) i p := by
      rintro ⟨-, -, -, behind, -⟩
      simp only [enter] at valid
      omega
    rw [show call.last + 1 - call.first = 0 + 1 by omega]
    refine ((call.begin present).visit order steady (inner _ (le_refl _) order)
      (fun q' s' p' t loop' _ done => loop'.settle_visible order only atomic valid done)).bind ?_ (fun _ _ => id)
      (fun _ => steady_ite (steady_pure _) (steady_indirLoop steady _ _ _ _ _))
    rintro ⟨r, b⟩ t ⟨zero, done⟩
    cases zero
    exact runs_pure ⟨fun both => calm both.2, rfl, done⟩

/-- `crawl_indir` sweeps a subtree if what it calls sweeps its children. -/
theorem sweeps_node {cb : CrawlCallback} {start : Nat} (low : h + 1 ≤ 6)
    (meets : enter W.lo i < leave W.hi (h + 1) i) (mode : commit = .copy ∨ commit = .atomic)
    (steady : SteadyCrawl op)
    (inner : ∀ k commit', commit' = .copy ∨ commit' = .atomic → k < 512 →
      enter W.lo (kid h i k) < leave W.hi h (kid h i k) → W.Sweeps h (kid h i k) commit' op) :
    W.Sweeps (h + 1) i commit
      (fun _ => crawlIndirNode (some cb) none start (decide (h = 0)) op (512 ^ (h + 1))) := by
  intro parent p s ready trips
  have call : W.Call s h i p commit := ⟨low, meets, ready, mode, trips⟩
  have order := call.first_le_last
  have within := call.last_lt
  have inner' : ∀ k, call.first ≤ k → k ≤ call.last → W.Sweeps h (kid h i k) call.crawl.childCommit op :=
    fun k first last => inner k _ call.childMode (call.visits_iff.mp ⟨first, last⟩).1
      (call.visits_iff.mp ⟨first, last⟩).2
  dsimp only
  rw [crawlIndirNode_write low (by rcases mode with rfl | rfl <;> decide)]
  change W.Runs (if p = blocknoInvalid then cowBlockHole (call.crawl.firstno * 8)
      ((call.crawl.lastno + 1 - call.crawl.firstno) * 8) (call.crawl.validno * 8) >>= fun b =>
        getBlock b >>= fun b => indirLoop call.crawl (decide (h = 0)) op
          (call.crawl.lastno + 1 - call.crawl.firstno) call.crawl.firstno b
    else pure p >>= fun b => getBlock b >>= fun b => indirLoop call.crawl (decide (h = 0)) op
          (call.crawl.lastno + 1 - call.crawl.firstno) call.crawl.firstno b) s _ _
  rw [call.firstno, call.lastno]
  refine runs_ite (fun hole => ?_) (fun present => ?_)
  · change p = 0 at hole
    subst hole
    have slots : call.crawl.validno ≤ 512 := by
      change (validIn W.g (h + 1) i + span h - 1) / span h ≤ 512
      have pos := span_pos h
      have total := span_succ h
      rw [← Nat.lt_succ_iff, Nat.div_lt_iff_lt_mul pos, Nat.succ_mul]
      simp only [validIn]
      omega
    refine (runs_of_wp (cowBlockHole_spec ready.ok (by simp only [blockSize]; omega)
      (by simp only [blockSize]; omega)) (steady_cowBlockHole _ _ _)).bind ?_ ?_
      (fun _ => steady_bind (steady_getBlock _) fun _ => steady_indirLoop steady _ _ _ _ _)
    · rintro b t ⟨fresh, zero⟩
      have low := fresh.unused.1
      have high := fresh.unused.lt ready.ok
      have quiet : call.Quiet := Or.inr (Or.inr (Or.inr rfl))
      refine runs_getBlock (by omega) (by omega) ?_
      refine ((call.beginHole fresh (fun o inside => zero o (by omega))).run (by omega) quiet steady inner').mono
        ?_ (fun _ _ => id)
      rintro result u ⟨ok, q, loop⟩
      exact ⟨loop.done.1, ok, loop.done.2⟩
    · rintro e t ⟨rfl, full⟩
      exact ready.stop W.errors_enospc full.grow full.writes full.bpram (fun _ => full.failures)
  · refine runs_pure_bind (runs_getBlock present ready.nvm ?_)
    exact call.run steady inner' present

end Sweep

end Bpfs
