import Bpfs.Capacity
import Bpfs.TreeRoot

/-! `tree_height`, and how `tree_change_height` makes a tree taller: one new indirect
block per level, with the old tree as its first child and nothing else. -/

namespace Bpfs
open Lib

/-! ### Heights -/

/-- `tree_height` is the least height that is enough, for as many blocks as five levels hold. -/
theorem treeHeight_spec {n : Nat} (fits : n ≤ 512 ^ 5) :
    treeHeight n ≤ 5 ∧ n ≤ 512 ^ treeHeight n ∧ ∀ j, j < treeHeight n → 512 ^ j < n := by
  obtain ⟨-, least⟩ := treeHeight_least (le_trans fits (Nat.pow_le_pow_right (by decide) (by decide)))
  refine ⟨?_, least.enough, least.least⟩
  by_contra tall
  have below := least.least 5 (by omega)
  omega

/-- A tree of the height that `tree_height` asks for has room for all bytes. -/
theorem le_span_treeHeight {n : Nat} (fits : n ≤ 2 ^ 57) :
    treeHeight (nblocksForNbytes n) ≤ 5 ∧ n ≤ span (treeHeight (nblocksForNbytes n)) := by
  have blocks : nblocksForNbytes n ≤ 512 ^ 5 := by
    rw [nblocksForNbytes_eq (by omega), blockSize]
    omega
  obtain ⟨low, enough, -⟩ := treeHeight_spec blocks
  refine ⟨low, ?_⟩
  have room := Nat.mul_le_mul_left blockSize enough
  rw [nblocksForNbytes_eq (by omega)] at room ⊢
  rw [span]
  refine le_trans ?_ room
  rw [blockSize]
  omega

theorem capacity_eq {h : Nat} (low : h ≤ 5) : u64 (blockSize * treeMaxNblocks h) = span h := by
  rw [treeMaxNblocks_eq (by omega), ← span]
  exact Nat.mod_eq_of_lt (span_lt low)

theorem maxNbytes_eq {h : Nat} (low : h ≤ 5) : nbytesOfBlocks (treeMaxNblocks h) = span h := by
  rw [treeMaxNblocks_eq (by omega), nbytesOfBlocks_eq low]

theorem span_mono {h h' : Nat} (le : h ≤ h') : span h ≤ span h' :=
  Nat.mul_le_mul_left _ (Nat.pow_le_pow_right (by decide) le)

/-! ### One more level -/

variable {L : Leaves}

/-- The leaves of a missing subtree may be missing. -/
theorem TreeOk.holes {x : Nat} {m : Mem} {h i v : Nat} (tree : TreeOk L x m h i 0 v) {j n : Nat} (first : i ≤ j)
    (last : j < i + 512 ^ h) (some : n ≠ 0) (inside : base j + n ≤ base i + v) (one : n ≤ blockSize) :
    L.ok x m j 0 n := by
  induction h generalizing i v with
  | zero =>
    have same : j = i := by
      rw [Nat.pow_zero] at last
      omega
    subst same
    exact L.mono_ok (by omega) (tree (by omega))
  | succ h ih =>
    have order : base i ≤ base j := Nat.mul_le_mul_left _ first
    obtain ⟨-, kids, -⟩ := treeOk_node.mp tree (by omega)
    have pos : 0 < 512 ^ h := Nat.pow_pos (by decide)
    have split := Nat.div_add_mod (j - i) (512 ^ h)
    have rest := Nat.mod_lt (j - i) pos
    have small : (j - i) / 512 ^ h < 512 := by
      rw [Nat.div_lt_iff_lt_mul pos, Nat.mul_comm, ← Nat.pow_succ]
      omega
    rw [Nat.mul_comm] at split
    have child := kids.ok _ small
    rw [show slot m 0 ((j - i) / 512 ^ h) = 0 by simp [slot]] at child
    refine ih child (by omega) (by omega) ?_
    have start := base_kid h i ((j - i) / 512 ^ h)
    have below : base (kid h i ((j - i) / 512 ^ h)) ≤ base j := Nat.mul_le_mul_left _ (by unfold kid; omega)
    have above : base j + blockSize ≤ base (kid h i ((j - i) / 512 ^ h)) + span h := by
      have := Nat.mul_le_mul_left blockSize (show j + 1 ≤ kid h i ((j - i) / 512 ^ h) + 512 ^ h by unfold kid; omega)
      simp only [base, span, Nat.mul_add] at *
      omega
    change base j + n ≤ base (kid h i ((j - i) / 512 ^ h)) + _
    unfold share
    omega

/-- A new block whose first entry is the old tree and whose other entries are missing. -/
theorem TreeOk.grow {x g : Nat} {m m' : Mem} {h p b : Nat} (tree : TreeOk L x m h 0 p (validIn g h 0))
    (beyond : ∀ i v, span h ≤ base i → base i + v ≤ g → L.ok x m i 0 v) (nvm : 3 ≤ b ∧ b < 2 ^ 61)
    (same : ∀ y ∈ treeBlocks L m h 0 p (validIn g h 0), m' y = m y)
    (new : b ∉ treeBlocks L m h 0 p (validIn g h 0)) (first : addrAt m' b 0 = p)
    (others : ∀ k, 1 ≤ k → k < 512 → k * span h < g → addrAt m' b k = 0) :
    TreeOk L x m' (h + 1) 0 b (validIn g (h + 1) 0) ∧
      ∀ y ∈ treeBlocks L m' (h + 1) 0 b (validIn g (h + 1) 0), y = b ∨ y ∈ treeBlocks L m h 0 p (validIn g h 0) := by
  have present : b ≠ 0 := by omega
  have share0 : share h (validIn g (h + 1) 0) 0 = validIn g h 0 := by
    rw [share_validIn _ _ _ _ (by decide)]
    simp [kid]
  have entry : ∀ k, k < 512 → k ≠ 0 → share h (validIn g (h + 1) 0) k ≠ 0 → slot m' b k = 0 := by
    intro k small ne some
    rw [slot, if_neg present]
    refine others k (by omega) small ?_
    rw [share_validIn _ _ _ _ small] at some
    have start := base_kid h 0 k
    simp only [validIn] at some
    simp only [base, Nat.mul_zero, Nat.zero_add] at *
    omega
  have blocks0 : kidBlocks L m' h 0 (slot m' b) (validIn g (h + 1) 0) 0 = treeBlocks L m h 0 p (validIn g h 0) := by
    rw [kidBlocks, share0, slot, if_neg present, first, Nat.zero_mul, Nat.zero_add]
    exact treeBlocks_congr same
  have blocks : ∀ k, k < 512 → k ≠ 0 → kidBlocks L m' h 0 (slot m' b) (validIn g (h + 1) 0) k = ∅ := by
    intro k small ne
    unfold kidBlocks
    by_cases none : share h (validIn g (h + 1) 0) k = 0
    · rw [none, treeBlocks_empty]
    · rw [entry k small ne none, treeBlocks_hole]
  have member : ∀ k, k < 512 → ∀ y ∈ kidBlocks L m' h 0 (slot m' b) (validIn g (h + 1) 0) k,
      k = 0 ∧ y ∈ treeBlocks L m h 0 p (validIn g h 0) := by
    intro k small y inside
    by_cases zero : k = 0
    · subst zero
      exact ⟨rfl, blocks0 ▸ inside⟩
    · rw [blocks k small zero] at inside
      cases inside
  refine ⟨treeOk_node.mpr (fun _ => ⟨Or.inr nvm, ⟨fun k small => ?_, ?_⟩, fun k small inside => ?_⟩), ?_⟩
  · by_cases zero : k = 0
    · subst zero
      rw [share0, slot, if_neg present, first, Nat.zero_mul, Nat.zero_add]
      exact tree.congr same
    · by_cases none : share h (validIn g (h + 1) 0) k = 0
      · rw [none]
        exact treeOk_empty ..
      · rw [entry k small zero none]
        refine treeOk_of_holes (Nat.min_le_right _ _) (fun j n later _ _ short => ?_)
        refine Leaves.hole_ok (beyond j n ?_ ?_)
        · have step : span h ≤ k * span h := Nat.le_mul_of_pos_left _ (by omega)
          have start := base_kid h 0 k
          have := Nat.mul_le_mul_left blockSize later
          simp only [base, kid, Nat.mul_zero, Nat.zero_add] at *
          omega
        · have start := base_kid h 0 k
          rw [share_validIn _ _ _ _ small] at short none
          simp only [validIn, base, kid, Nat.mul_zero, Nat.zero_add] at *
          omega
  · intro j k smallJ small ne y inJ inK
    have := (member j smallJ y inJ).1
    have := (member k small y inK).1
    omega
  · exact new (member k small b inside).2
  · intro y inside
    by_cases none : validIn g (h + 1) 0 = 0
    · rw [none, treeBlocks_empty] at inside
      cases inside
    rcases (mem_treeBlocks_succ none present).mp inside with root | ⟨k, small, below⟩
    · exact Or.inl root
    · exact Or.inr (member k small y below).2

/-- The loop that marks entries as sparse, on a block that was just taken. -/
theorem markSparse_spec {s0 s : Fs} {b : Nat} {gone : Set Nat} (fresh : Fresh s0 b gone s)
    (step next n i valid : Nat) :
    wp (markSparse b step next n i valid)
      (fun _ t => Fresh s0 b gone t ∧
        ∀ k, (k < i → addrAt t.bpram b k = addrAt s.bpram b k) ∧
          (i ≤ k → k < i + n → valid + (k - i) * step < next → addrAt t.bpram b k = 0))
      (fun _ _ => False) s := by
  induction n generalizing i valid s with
  | zero => exact ⟨fresh, fun k => ⟨fun _ => rfl, fun _ _ _ => by omega⟩⟩
  | succ n ih =>
    unfold markSparse
    by_cases more : valid < next
    · rw [if_pos more, wp_bind, wp_storeAddr]
      refine wp_mono (ih (s := s.store (slotWrite b i blocknoInvalid)) (fresh.store rfl) (i + 1) (valid + step)) ?_
        (fun _ _ never => never)
      rintro - t ⟨fresh', entries⟩
      refine ⟨fresh', fun k => ⟨fun before => ?_, fun first last inside => ?_⟩⟩
      · rw [(entries k).1 (by omega)]
        exact addrAt_slotWrite_other (Or.inr (by omega))
      · by_cases this : k = i
        · rw [this, (entries i).1 (by omega)]
          exact addrAt_slotWrite (by decide)
        · apply (entries k).2 (by omega) (by omega)
          obtain ⟨d, rfl⟩ : ∃ d, k = i + 1 + d := ⟨k - (i + 1), by omega⟩
          rw [show i + 1 + d - i = d + 1 by omega, Nat.succ_mul] at inside
          rw [show i + 1 + d - (i + 1) = d by omega]
          omega
    · rw [if_neg more]
      refine ⟨fresh, fun k => ⟨fun _ => rfl, fun _ _ inside => ?_⟩⟩
      omega

/-- `n` levels of blocks above the tree of height `h` at `p`, each with the tree below as its
first child and with no other child that a file of `g` bytes would have. -/
def Chain (m : Mem) (g h p : Nat) : Nat → Nat → Prop
  | 0, p' => p' = p
  | n + 1, p' => p' ≠ 0 ∧ (∀ k, 1 ≤ k → k < 512 → k * span (h + n) < g → addrAt m p' k = 0) ∧
      Chain m g h p n (addrAt m p' 0)

theorem Chain.below {m : Mem} {g h p b n p' : Nat} (chain : Chain m g (h + 1) b n p') (present : b ≠ 0)
    (first : addrAt m b 0 = p) (others : ∀ k, 1 ≤ k → k < 512 → k * span h < g → addrAt m b k = 0) :
    Chain m g h p (n + 1) p' := by
  induction n generalizing p' with
  | zero =>
    change p' = b at chain
    subst chain
    exact ⟨present, others, first⟩
  | succ n ih =>
    obtain ⟨top, zero, rest⟩ := chain
    refine ⟨top, ?_, ih rest⟩
    rw [show h + (n + 1) = h + 1 + n by omega]
    exact zero

theorem Chain.congr {m m' : Mem} {g h p n p' : Nat} (chain : Chain m g h p n p') (some : g ≠ 0)
    (same : ∀ y ∈ treeBlocks L m (h + n) 0 p' (validIn g (h + n) 0), m' y = m y) : Chain m' g h p n p' := by
  induction n generalizing p' with
  | zero => exact chain
  | succ n ih =>
    obtain ⟨top, zero, rest⟩ := chain
    have valid : validIn g (h + n + 1) 0 ≠ 0 := by
      have := span_pos (h + n + 1)
      simp only [validIn, base]
      omega
    have kept : ∀ k, addrAt m' p' k = addrAt m p' k :=
      addrAt_congr (same p' ((mem_treeBlocks_succ valid top).mpr (Or.inl rfl)))
    refine ⟨top, fun k low small inside => by rw [kept]; exact zero k low small inside, ?_⟩
    rw [kept]
    refine ih rest (fun y member => same y ((mem_treeBlocks_succ valid top).mpr (Or.inr ⟨0, by decide, ?_⟩)))
    change y ∈ treeBlocks L m (h + n) (kid (h + n) 0 0) (slot m p' 0) (share (h + n) (validIn g (h + n + 1) 0) 0)
    rw [slot, if_neg top, share_validIn _ _ _ _ (by decide)]
    simpa [kid] using member

/-- From `s` to `t` a tree with `g` bytes was put under `n` new blocks that nobody knows
yet; it was of height `h` and at `p`, and is now at `p'`. -/
structure Grown (L : Leaves) (x g : Nat) (s : Fs) (h p n p' : Nat) (t : Fs) : Prop where
  grow : Grow s t
  still : Through (fun m => ∀ y, Held s y → m y = s.bpram y) s t
  freed : ∀ y, Freed t y ↔ Freed s y
  disk : t.disk = s.disk
  failures : t.allocFailures = s.allocFailures
  nvm : 3 ≤ p' ∧ p' < 2 ^ 61
  tree : TreeOk L x t.bpram (h + n) 0 p' (validIn g (h + n) 0)
  blocks : ∀ y ∈ treeBlocks L t.bpram (h + n) 0 p' (validIn g (h + n) 0),
    y ∈ treeBlocks L s.bpram h 0 p (validIn g h 0) ∨ Taken s t y
  chain : Chain t.bpram g h p n p'

/-- The growing loop of `tree_change_height`. -/
theorem growTree_spec {x g R o n h p : Nat} {s : Fs} (ok : s.Ok) (low : h + n ≤ 5) (held : Held s R)
    (nbytes : rootNbytes s.bpram ⟨.bpram R, o⟩ = g) (nvm : 3 ≤ p ∧ p < 2 ^ 61)
    (tree : TreeOk L x s.bpram h 0 p (validIn g h 0))
    (beyond : ∀ i v, span h ≤ base i → base i + v ≤ g → L.ok x s.bpram i 0 v)
    (live : Live s (treeBlocks L s.bpram h 0 p (validIn g h 0))) :
    wp (growTree ⟨.bpram R, o⟩ n (span h) p)
      (fun p' t => Grown L x g s h p n p' t)
      (fun e t => e = .enospc ∧ Grow s t ∧ Through (fun m => ∀ y, Held s y → m y = s.bpram y) s t ∧
        s.allocFailures < t.allocFailures ∧ t.disk = s.disk) s := by
  induction n generalizing h p s with
  | zero =>
    exact ⟨.refl s, Through.still rfl rfl (fun _ _ => rfl), fun _ => Iff.rfl, rfl, rfl, nvm, tree,
      fun y member => Or.inl member, rfl⟩
  | succ n ih =>
    have wide : u64 (blocknosPerIndir * span h) = span (h + 1) := by
      rw [show blocknosPerIndir = 512 from rfl, ← span_succ]
      exact Nat.mod_eq_of_lt (span_lt (by omega))
    unfold growTree
    rw [wide]
    refine wp_take ok ?_ ?_
    · intro b t fresh memory positive small
      have other : ∀ y, Held s y → y ≠ b := fun y heldY same => fresh.unused.not_held ok (same ▸ heldY)
      have nvm' : 3 ≤ b ∧ b < 2 ^ 61 := ⟨fresh.unused.1, fresh.unused.lt ok⟩
      have linked := fresh.store (w := slotWrite b 0 p) rfl
      have entry : addrAt (t.store (slotWrite b 0 p)).bpram b 0 = p := addrAt_slotWrite (by omega)
      have length : rootNbytes (t.store (slotWrite b 0 p)).bpram ⟨.bpram R, o⟩ = g := by
        rw [← nbytes]
        exact rootNbytes_congr (linked.through.last R (other R held))
      -- the rest of the loop runs on the tree that is one level taller
      have rest : ∀ u, Fresh s b ∅ u → addrAt u.bpram b 0 = p →
          (∀ k, 1 ≤ k → k < 512 → k * span h < g → addrAt u.bpram b k = 0) →
          wp (growTree ⟨.bpram R, o⟩ n (span (h + 1)) b)
            (fun p' t => Grown L x g s h p (n + 1) p' t)
            (fun e t => e = .enospc ∧ Grow s t ∧ Through (fun m => ∀ y, Held s y → m y = s.bpram y) s t ∧
              s.allocFailures < t.allocFailures ∧ t.disk = s.disk) u := by
        intro u freshU first others
        have same : ∀ y, Held s y → u.bpram y = s.bpram y := fun y heldY =>
          freshU.through.last y (other y heldY)
        obtain ⟨taller, blocks⟩ := tree.grow beyond nvm' (fun y member => same y (live.held member))
          (fun member => other b (live.held member) rfl) first others
        have taken : Taken s u b := ⟨freshU.unused, (freshU.allocated b).mpr (Or.inr rfl)⟩
        have freedU : ∀ y, Freed u y ↔ Freed s y := fun y => by rw [freshU.freed]; simp
        have stillU : Through (fun m => ∀ y, Held s y → m y = s.bpram y) s u :=
          freshU.through.mono (fun m agree y heldY => agree y (other y heldY))
        have liveU : Live u (treeBlocks L u.bpram (h + 1) 0 b (validIn g (h + 1) 0)) := by
          intro y member
          rcases blocks y member with root | below
          · rw [root]
            exact Or.inl ⟨taken.2, freshU.not_freed ok (fun _ never => absurd never (Set.notMem_empty _))⟩
          · exact (live y below).imp_left (fun used => ⟨freshU.grow.allocated used.1, by rw [freedU]; exact used.2⟩)
        have lengthU : rootNbytes u.bpram ⟨.bpram R, o⟩ = g := by
          rw [← nbytes]
          exact rootNbytes_congr (same R held)
        refine wp_mono (ih (freshU.grow.ok ok) (by omega) (freshU.grow.held held) lengthU nvm' taller
          (fun i v late early => Leaves.hole_ok (beyond i v (le_trans (span_mono (Nat.le_succ h)) late) early)) liveU)
          ?_ ?_
        · intro p' v grown
          exact {
            grow := freshU.grow.trans grown.grow
            still := stillU.trans (grown.still.mono (fun m agree y heldY => by
              rw [agree y (freshU.grow.held heldY), same y heldY]))
            freed := fun y => (grown.freed y).trans (freedU y)
            disk := grown.disk.trans freshU.disk
            failures := grown.failures.trans freshU.failures
            nvm := grown.nvm
            tree := by
              rw [show h + (n + 1) = h + 1 + n by omega]
              exact grown.tree
            blocks := fun y member => by
              rw [show h + (n + 1) = h + 1 + n by omega] at member
              rcases grown.blocks y member with inside | late
              · rcases blocks y inside with root | below
                · exact Or.inr (freshU.grow.taken grown.grow (Or.inl (root ▸ taken)))
                · exact Or.inl below
              · exact Or.inr (freshU.grow.taken grown.grow (Or.inr late))
            chain := by
              have kept := grown.still.last b (Or.inl taken.2)
              refine grown.chain.below (by omega) ?_ ?_
              · rw [addrAt_congr kept, first]
              · intro k low small inside
                rw [addrAt_congr kept]
                exact others k low small inside }
        · rintro e v ⟨rfl, growV, stillV, failures, disk⟩
          refine ⟨rfl, freshU.grow.trans growV, stillU.trans (stillV.mono (fun m agree y heldY => by
            rw [agree y (freshU.grow.held heldY), same y heldY])), ?_, disk.trans freshU.disk⟩
          rw [← freshU.failures]
          exact failures
      rw [wp_bind, wp_getBlock positive small, wp_bind, wp_storeAddr, wp_bind, wp_get, length, wp_ite]
      constructor
      · intro sparse
        rw [wp_bind]
        refine wp_mono (markSparse_spec linked _ _ _ _ _) ?_ (fun _ _ never => never.elim)
        rintro - u ⟨freshU, entries⟩
        refine rest u freshU (((entries 0).1 (by decide)).trans entry) (fun k first last inside => ?_)
        refine (entries k).2 first (by simp only [blocknosPerIndir]; omega) ?_
        obtain ⟨d, rfl⟩ : ∃ d, k = d + 1 := ⟨k - 1, by omega⟩
        have room := mul_span_le (h := h) last
        have pos := span_pos h
        rw [Nat.succ_mul] at *
        rw [Nat.add_sub_cancel]
        omega
      · intro full
        refine rest _ linked entry (fun k first last inside => ?_)
        have := Nat.le_mul_of_pos_left (span h) first
        omega
    · intro t full
      exact ⟨rfl, full.grow, Through.still full.writes full.bpram (fun _ _ => rfl), full.failures, full.disk⟩

/-! ### The whole change of height -/

/-- A file without a tree is also right under a root of another height. -/
theorem RootOk.raise_hole {x g : Nat} {m : Mem} {R o h : Nat} (ok : RootOk L x g m R o h 0) (h' : Nat) :
    TreeOk L x m h' 0 0 (validIn g h' 0) := by
  refine treeOk_of_holes (Nat.min_le_right _ _) (fun j n _ some one inside => ?_)
  have bound : base j + n ≤ validIn g h' 0 := by simpa [base] using inside
  by_cases low : j < 512 ^ h
  · refine ok.tree.holes (Nat.zero_le _) (by omega) some ?_ one
    have room := Nat.mul_le_mul_left blockSize (show j + 1 ≤ 512 ^ h from low)
    rw [Nat.mul_succ] at room
    simp only [validIn, base, span] at *
    omega
  · refine ok.beyond j n (Nat.mul_le_mul_left _ (by omega)) ?_
    simp only [validIn, base] at *
    omega

/-- From `s` to `t` the tree behind the root at `R` was made taller. -/
structure Raised (L : Leaves) (x g : Nat) (s : Fs) (R o h p h' p' : Nat) (t : Fs) : Prop where
  grow : Grow s t
  freed : ∀ y, Freed t y ↔ Freed s y
  disk : t.disk = s.disk
  failures : t.allocFailures = s.allocFailures
  root : RootOk L x g t.bpram R o h' p'
  blocks : ∀ y ∈ rootBlocks L g t.bpram h' p', y ∈ rootBlocks L g s.bpram h p ∨ Taken s t y
  crash : Through (fun m => (∀ y, Held s y → y ≠ R → m y = s.bpram y) ∧
    (∀ k, k < o ∨ o + 16 ≤ k → m R k = s.bpram R k) ∧
    RootWithin L x g m R o {y | y ∈ rootBlocks L g s.bpram h p ∨ Taken s t y}) s t
  hole : p = 0 → p' = 0
  chain : p ≠ 0 → h ≤ h' ∧ Chain t.bpram g h p (h' - h) p'

/-- One store puts the new height and address in the root. -/
theorem Raised.of_store {x g : Nat} {s t : Fs} {R o h p h' p' : Nat} (ok : RootOk L x g s.bpram R o h p)
    (used : Allocated s R) (grow : Grow s t) (still : Through (fun m => ∀ y, Held s y → m y = s.bpram y) s t)
    (freed : ∀ y, Freed t y ↔ Freed s y) (disk : t.disk = s.disk) (failures : t.allocFailures = s.allocFailures)
    {v : Nat} (root : RootIs (t.store (wordWrite R o v)).bpram R o h' p' g)
    (tree : TreeOk L x t.bpram h' 0 p' (validIn g h' 0))
    (beyond : ∀ i v, span h' ≤ base i → base i + v ≤ g → L.ok x s.bpram i 0 v)
    (new : rootBlocks L g t.bpram h' p' ⊆ {y | y ∈ rootBlocks L g s.bpram h p ∨ Taken s t y})
    (live : Live s (rootBlocks L g s.bpram h p)) (hole : p = 0 → p' = 0)
    (chain : p ≠ 0 → h ≤ h' ∧ Chain t.bpram g h p (h' - h) p') :
    Raised L x g s R o h p h' p' (t.store (wordWrite R o v)) := by
  have other : ∀ y ∈ rootBlocks L g t.bpram h' p', y ≠ R := by
    rintro y member rfl
    rcases new member with old | taken
    · exact ok.away old
    · exact taken.1.2.2 used
  have same : ∀ y ∈ rootBlocks L g t.bpram h' p', (t.store (wordWrite R o v)).bpram y = t.bpram y :=
    fun y member => apply_other (other y member)
  have blocks : rootBlocks L g (t.store (wordWrite R o v)).bpram h' p' = rootBlocks L g t.bpram h' p' := treeBlocks_congr same
  have root' : RootOk L x g (t.store (wordWrite R o v)).bpram R o h' p' :=
    ⟨root, tree.congr same, fun i v late inside => Leaves.hole_ok (beyond i v late inside),
      fun member => other R (blocks ▸ member) rfl⟩
  have within : RootWithin L x g (t.store (wordWrite R o v)).bpram R o {y | y ∈ rootBlocks L g s.bpram h p ∨ Taken s t y} :=
    root'.within (by rw [blocks]; exact new)
  have heldR : Held s R := Or.inl used
  have before : ∀ m, (∀ y, Held s y → m y = s.bpram y) → (∀ y, Held s y → y ≠ R → m y = s.bpram y) ∧
      (∀ k, k < o ∨ o + 16 ≤ k → m R k = s.bpram R k) ∧
      RootWithin L x g m R o {y | y ∈ rootBlocks L g s.bpram h p ∨ Taken s t y} := by
    intro m kept
    obtain ⟨old, oldBlocks⟩ : RootOk L x g m R o h p ∧ _ := ok.congr (fun k _ _ => by rw [kept R heldR])
      (fun y member => kept y (live.held member)) ok.away
    exact ⟨fun y held _ => kept y held, fun k _ => by rw [kept R heldR],
      old.within (by rw [oldBlocks]; exact fun y member => Or.inl member)⟩
  have kept := still.last
  have keptR : t.bpram R = s.bpram R := kept R heldR
  refine ⟨grow.trans (grow_store _), freed, disk, failures, root', ?_, ?_, hole, fun present => ?_⟩
  · rw [blocks]
    exact new
  · refine (still.mono before).trans (through_store (before _ kept) ⟨?_, ?_, within⟩ (fun loose => by cases loose))
    · intro y held ne
      rw [apply_other (show y ≠ (wordWrite R o v).blk from ne)]
      exact kept y held
    · intro k out
      rw [apply_uncovered (fun inside => by
        obtain ⟨-, low, high⟩ := inside
        change o ≤ k at low
        change k < o + 8 at high
        omega), keptR]
  · obtain ⟨le, built⟩ := chain present
    refine ⟨le, built.congr (L := L) (fun none => ?_) ?_⟩
    · subst none
      exact present ok.root.hole
    · rw [Nat.add_sub_cancel' le]
      exact same

/-- `tree_change_height` as a write uses it: to make room. -/
theorem treeChangeHeight_grow {x g R o h p h' : Nat} {s : Fs} (ok : s.Ok) (used : Allocated s R)
    (root : RootOk L x g s.bpram R o h p) (low : h' ≤ 5) (taller : (if g = 0 then 0 else h) < h')
    (pointer : p = 0 ∨ (3 ≤ p ∧ p < 2 ^ 61)) (live : Live s (rootBlocks L g s.bpram h p)) :
    wp (treeChangeHeight ⟨.bpram R, o⟩ h' .atomic R)
      (fun r t => r = R ∧ ∃ p', Raised L x g s R o h p h' p' t)
      (fun e t => e = .enospc ∧ Grow s t ∧ Through (fun m => ∀ y, Held s y → m y = s.bpram y) s t ∧
        s.allocFailures < t.allocFailures ∧ t.disk = s.disk) s := by
  have height := root.root.treeRootHeight
  have beyond' : ∀ i v, span h' ≤ base i → base i + v ≤ g → L.ok x s.bpram i 0 v := by
    intro i v late inside
    by_cases none : g = 0
    · have := span_pos h'
      omega
    · rw [if_neg none] at taller
      exact root.beyond i v (le_trans (span_mono (le_of_lt taller)) late) inside
  have atomic : Commit.atomic ≠ .none ∧ Commit.atomic ≠ .copy := by decide
  unfold treeChangeHeight
  simp only [wp_bind, wp_get, wp_check, height, root.root.nbytes, root.root.addr, if_neg (ne_of_lt taller),
    if_pos taller, if_neg atomic.2]
  refine ⟨fun _ => ?_, fun wrong => absurd atomic.1 wrong⟩
  rw [wp_ite]
  refine ⟨fun whole => ?_, fun whole => ?_⟩
  · obtain ⟨some, present⟩ := whole
    rw [if_neg some] at taller ⊢
    have nvm := pointer.resolve_left present
    rw [capacity_eq (show h ≤ 5 by omega), wp_bind]
    refine wp_mono (growTree_spec ok (by omega) (Or.inl used) root.root.nbytes nvm root.tree root.beyond live)
      (fun p' t grown => ?_) (fun e t fails => fails)
    rw [wp_bind, wp_haSet (by omega) grown.nvm.2]
    have sum : h + (h' - h) = h' := by omega
    have tree := grown.tree
    have blocks := grown.blocks
    rw [sum] at tree blocks
    refine ⟨rfl, p', .of_store root used grown.grow grown.still grown.freed grown.disk grown.failures ?_ tree beyond'
      blocks live (fun hole => absurd hole present) (fun _ => ⟨le_of_lt taller, grown.chain⟩)⟩
    have kept : RootIs t.bpram R o h p g := root.root.congr (fun k _ _ => by rw [grown.still.last R (Or.inl used)])
    exact kept.setHa (by omega) grown.nvm.2 some
  · have hole : p = 0 := by
      by_cases none : g = 0
      · subst none
        exact root.root.hole
      · by_contra present
        exact whole ⟨none, present⟩
    subst hole
    rw [wp_bind, wp_pure, wp_bind, wp_haSet (by omega) (by decide)]
    refine ⟨rfl, 0, .of_store root used (.refl s) (Through.still rfl rfl (fun _ _ => rfl)) (fun _ => Iff.rfl) rfl rfl ?_
      (root.raise_hole h') beyond' (fun y member => ?_) live (fun _ => rfl) (fun present => absurd rfl present)⟩
    · by_cases none : g = 0
      · subst none
        exact root.root.setHa_empty (by omega) (by decide)
      · exact root.root.setHa (by omega) (by decide) none
    · rw [rootBlocks, treeBlocks_hole] at member
      cases member

end Bpfs
