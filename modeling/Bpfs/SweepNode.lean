import Bpfs.Sweep

/-! A sweep at one indirect block. While the loop of `crawl_indir` runs, the old block
and the one that will replace it exist side by side; `Mid` says how they are related
after some of the children have been visited. -/

namespace Bpfs
open Lib

namespace Sweep

variable (W : Sweep)

/-- How far the sweep has come when the loop is about to visit child `no`. -/
def reach (h i no : Nat) : Nat := min W.hi (max W.lo (base i + no * span h))

/-- The blocks under child `k` of the block that is being built, behind the pointers `q`. -/
def kidOwned (x : Nat) (m : Mem) (h i : Nat) (q : Nat → Nat) (k : Nat) : Set Nat :=
  kidBlocks W.leaves m h i q (validIn (max W.g x) (h + 1) i) k

/-- The blocks under child `k` of the old block `p`. -/
def oldKid (m : Mem) (h i p k : Nat) : Set Nat := kidBlocks W.leaves m h i (slot m p) (validIn W.g (h + 1) i) k

/-- The loop is about to visit child `no`. The entries it has built hang off `q` and are
kept in block `b`, which is the old block `p` itself or one taken for this purpose. -/
structure Mid (s0 : Fs) (h i p : Nat) (q : Nat → Nat) (b no : Nat) (s : Fs) : Prop where
  start : s0.Ok
  grow : Grow s0 s
  disk : W.disk s.disk
  node : 3 ≤ b ∧ b < 2 ^ 61
  used : Allocated s b ∧ ¬Freed s b
  own : b = p ∨ Taken s0 s b
  pointer : p = 0 ∨ (Allocated s p ∧ p ∈ W.mine s0 (h + 1) i p)
  kids : Kids W.leaves (W.reach h i no) s.bpram h i q (validIn (max W.g (W.reach h i no)) (h + 1) i)
  away : ∀ k, k < 512 → b ∉ W.kidOwned (W.reach h i no) s.bpram h i q k ∧
    p ∉ W.kidOwned (W.reach h i no) s.bpram h i q k
  live : ∀ k, k < 512 → Live s (W.kidOwned (W.reach h i no) s.bpram h i q k)
  blocks : ∀ k, k < 512 → ∀ y ∈ W.kidOwned (W.reach h i no) s.bpram h i q k,
    y ∈ W.mine s0 (h + 1) i p ∨ Taken s0 s y
  freed : ∀ y, Freed s y → Freed s0 y ∨ y ∈ W.mine s0 (h + 1) i p ∨ Taken s0 s y
  crash : Through (fun m => Keeps s0 (W.mine s0 (h + 1) i p) m ∧ W.OldAt s0 s (h + 1) i p m) s0 s
  old_held : ∀ y ∈ W.owned W.g s.bpram (h + 1) i p, Held s y
  old_away : b ≠ p → b ∉ W.owned W.g s.bpram (h + 1) i p
  /-- a child yet to be visited is the old child, or was fetched from disk for the new block -/
  old_same : p ≠ 0 → ∀ k, k < 512 → no ≤ k → validIn W.g h (kid h i k) ≠ 0 → q k = addrAt s.bpram p k ∨
    ∀ y ∈ W.oldKid s.bpram h i p k, y ∉ W.kidOwned (W.reach h i no) s.bpram h i q k
  old_apart : p ≠ 0 → ∀ j k, j < 512 → k < 512 → j ≠ k →
    ∀ y ∈ W.oldKid s.bpram h i p j, y ∉ W.kidOwned (W.reach h i no) s.bpram h i q k

section Arithmetic

variable {W} {h i k : Nat}

theorem reach_of_visited (meets : enter W.lo (kid h i k) < leave W.hi h (kid h i k)) :
    W.reach h i k = enter W.lo (kid h i k) ∧ W.reach h i (k + 1) = leave W.hi h (kid h i k) := by
  have ordered := W.ordered
  simp only [reach, enter, leave, base_kid, Nat.succ_mul] at *
  omega

/-- A child that is about to be visited is as it was before the sweep. -/
theorem valid_before (meets : enter W.lo (kid h i k) < leave W.hi h (kid h i k)) :
    validIn (max W.g (W.reach h i k)) h (kid h i k) = validIn (max W.g W.lo) h (kid h i k) := by
  rw [(reach_of_visited meets).1]
  simp only [validIn, enter]
  omega

/-- A child that has just been visited is as it will be after the sweep. -/
theorem valid_after (meets : enter W.lo (kid h i k) < leave W.hi h (kid h i k)) :
    validIn (max W.g (W.reach h i (k + 1))) h (kid h i k) = validIn (max W.g W.hi) h (kid h i k) := by
  rw [(reach_of_visited meets).2]
  simp only [validIn, leave]
  omega

theorem clamp_before (meets : enter W.lo (kid h i k) < leave W.hi h (kid h i k)) :
    clampTo (W.reach h i k) (base (kid h i k)) (base (kid h i k) + span h) =
      clampTo W.lo (base (kid h i k)) (base (kid h i k) + span h) := by
  rw [(reach_of_visited meets).1]
  simp only [clampTo, enter]
  omega

theorem clamp_after (meets : enter W.lo (kid h i k) < leave W.hi h (kid h i k)) :
    clampTo W.hi (base (kid h i k)) (base (kid h i k) + span h) =
      clampTo (W.reach h i (k + 1)) (base (kid h i k)) (base (kid h i k) + span h) := by
  rw [(reach_of_visited meets).2]
  simp only [clampTo, leave]
  omega

/-- Visiting one child does not concern the others. -/
theorem valid_other {j : Nat} (meets : enter W.lo (kid h i k) < leave W.hi h (kid h i k)) (ne : j ≠ k) :
    validIn (max W.g (W.reach h i (k + 1))) h (kid h i j) = validIn (max W.g (W.reach h i k)) h (kid h i j) := by
  have pos := span_pos h
  rw [(reach_of_visited meets).1, (reach_of_visited meets).2]
  rcases Nat.lt_or_gt_of_ne ne with less | more
  · have step : j * span h + span h ≤ k * span h := by
      rw [← Nat.succ_mul]
      exact Nat.mul_le_mul_right _ less
    simp only [validIn, enter, leave, base_kid] at *
    omega
  · have step : k * span h + span h ≤ j * span h := by
      rw [← Nat.succ_mul]
      exact Nat.mul_le_mul_right _ more
    simp only [validIn, enter, leave, base_kid] at *
    omega

theorem clamp_other {j : Nat} (meets : enter W.lo (kid h i k) < leave W.hi h (kid h i k)) (ne : j ≠ k) :
    clampTo (W.reach h i k) (base (kid h i j)) (base (kid h i j) + span h) =
      clampTo (W.reach h i (k + 1)) (base (kid h i j)) (base (kid h i j) + span h) := by
  have pos := span_pos h
  rw [(reach_of_visited meets).1, (reach_of_visited meets).2]
  rcases Nat.lt_or_gt_of_ne ne with less | more
  · have step : j * span h + span h ≤ k * span h := by
      rw [← Nat.succ_mul]
      exact Nat.mul_le_mul_right _ less
    simp only [clampTo, enter, leave, base_kid] at *
    omega
  · have step : k * span h + span h ≤ j * span h := by
      rw [← Nat.succ_mul]
      exact Nat.mul_le_mul_right _ more
    simp only [clampTo, enter, leave, base_kid] at *
    omega

end Arithmetic

theorem kidOwned_eq {x : Nat} {m : Mem} {h i k : Nat} {q : Nat → Nat} (small : k < 512) :
    W.kidOwned x m h i q k = W.owned (max W.g x) m h (kid h i k) (q k) := by
  unfold kidOwned kidBlocks owned
  rw [share_validIn _ _ _ _ small]
  rfl

theorem oldKid_eq {m : Mem} {h i p k : Nat} (small : k < 512) :
    W.oldKid m h i p k = W.owned W.g m h (kid h i k) (slot m p k) := by
  unfold oldKid kidBlocks owned
  rw [share_validIn _ _ _ _ small]
  rfl

variable {W} {s0 s t : Fs} {h i p b k : Nat} {q : Nat → Nat}

/-- The blocks of the child about to be visited are what it owned before the sweep. -/
theorem kidOwned_mine (small : k < 512) (meets : enter W.lo (kid h i k) < leave W.hi h (kid h i k)) :
    W.kidOwned (W.reach h i k) s.bpram h i q k = W.mine s h (kid h i k) (q k) := by
  rw [W.kidOwned_eq small, mine, owned, owned, valid_before meets]

theorem Mid.ok (mid : W.Mid s0 h i p q b k s) : s.Ok := mid.grow.ok mid.start

theorem Mid.held_pointer (mid : W.Mid s0 h i p q b k s) (present : p ≠ 0) : Held s p :=
  Or.inl (mid.pointer.resolve_left present).1

theorem owned_some {m : Mem} {y : Nat} (member : y ∈ W.owned W.g m (h + 1) i p) :
    validIn W.g (h + 1) i ≠ 0 ∧ p ≠ 0 := by
  constructor
  · intro none
    simp [owned, none] at member
  · intro hole
    simp [owned, hole] at member

/-- What the old subtree owns is the old block and what its children own. -/
theorem mem_owned_old {m : Mem} {y : Nat} (some : validIn W.g (h + 1) i ≠ 0) (present : p ≠ 0) :
    y ∈ W.owned W.g m (h + 1) i p ↔ y = p ∨ ∃ j, j < 512 ∧ y ∈ W.oldKid m h i p j :=
  mem_treeBlocks_succ some present

theorem oldKid_empty {m : Mem} {j : Nat} (none : validIn W.g (h + 1) i = 0) : W.oldKid m h i p j = ∅ := by
  simp [oldKid, kidBlocks, none, share_zero]

theorem oldKid_some {m : Mem} {j y : Nat} (member : y ∈ W.oldKid m h i p j) : validIn W.g (h + 1) i ≠ 0 := by
  intro none
  rw [oldKid_empty none] at member
  cases member

/-- The old block and its other children do not change while child `k` is swept. -/
theorem Mid.old_after (mid : W.Mid s0 h i p q b k s) (present : p ≠ 0) (small : k < 512)
    (meets : enter W.lo (kid h i k) < leave W.hi h (kid h i k)) {m : Mem}
    (keeps : Keeps s (W.mine s h (kid h i k) (q k)) m) (old : W.OldAt s t h (kid h i k) (q k) m) :
    m p = s.bpram p ∧ W.Holds W.lo W.g m (h + 1) i p ∧
      (∀ j, j < 512 → j ≠ k → W.oldKid m h i p j = W.oldKid s.bpram h i p j) ∧
      ∀ y ∈ W.oldKid m h i p k, y ∈ W.mine s h (kid h i k) (q k) ∨ Taken s t y ∨
        y ∈ W.oldKid s.bpram h i p k := by
  have mineK := kidOwned_mine (W := W) (s := s) (q := q) small meets
  have root : m p = s.bpram p := keeps p (mid.held_pointer present) (mineK ▸ (mid.away k small).2)
  have slots : slot m p = slot s.bpram p := slot_congr root
  refine ⟨root, ?_⟩
  by_cases none : validIn W.g (h + 1) i = 0
  · refine ⟨?_, fun j _ _ => by rw [oldKid_empty none, oldKid_empty none], fun y member => ?_⟩
    · unfold Holds
      rw [none]
      exact treeOk_empty ..
    · rw [oldKid_empty none] at member
      cases member
  obtain ⟨pointer, kids, away⟩ := treeOk_node.mp mid.crash.last.2.1 none
  have share : share h (validIn W.g (h + 1) i) k = validIn W.g h (kid h i k) := share_validIn _ _ _ _ small
  have childOld : TreeOk W.leaves W.lo m h (i + k * 512 ^ h) (slot m p k)
        (Bpfs.share h (validIn W.g (h + 1) i) k) ∧
      ∀ y ∈ W.oldKid m h i p k, y ∈ W.mine s h (kid h i k) (q k) ∨ Taken s t y ∨
        y ∈ W.oldKid s.bpram h i p k := by
    rw [W.oldKid_eq small, slots, share]
    by_cases none : validIn W.g h (kid h i k) = 0
    · rw [none, owned, none]
      exact ⟨treeOk_empty .., fun y member => by simp at member⟩
    rcases mid.old_same present k small (le_refl _) none with same | detached
    · rw [show slot s.bpram p k = q k by rw [same, slot, if_neg present]]
      exact ⟨old.1, fun y member => (old.2 y member).imp_right Or.inl⟩
    · rw [mineK] at detached
      have held : ∀ y ∈ W.oldKid s.bpram h i p k, m y = s.bpram y := fun y member =>
        keeps y (mid.old_held y ((mem_owned_old (by assumption) present).mpr (Or.inr ⟨k, small, member⟩)))
          (detached y member)
      have tree := kids.ok k small
      rw [share] at tree
      rw [W.oldKid_eq small] at held
      refine ⟨tree.congr held, fun y member => Or.inr (Or.inr ?_)⟩
      rw [W.oldKid_eq small]
      rwa [show W.owned W.g m h (kid h i k) (slot s.bpram p k) =
        W.owned W.g s.bpram h (kid h i k) (slot s.bpram p k) from treeBlocks_congr held] at member
  obtain ⟨child, childBlocks⟩ := childOld
  have heldOther : ∀ j, j < 512 → j ≠ k → ∀ y ∈ W.oldKid s.bpram h i p j,
      Held s y ∧ y ∉ W.mine s h (kid h i k) (q k) := by
    intro j smallJ ne y member
    refine ⟨mid.old_held y ((mem_treeBlocks_succ none present).mpr (Or.inr ⟨j, smallJ, member⟩)), ?_⟩
    rw [← mineK]
    exact mid.old_apart present j k smallJ small ne y member
  obtain ⟨kids', blocks⟩ := kids.replace W.lo (validIn W.g (h + 1) i) m (slot m p) k
    (fun j smallJ ne y member => keeps y (heldOther j smallJ ne y member).1 (heldOther j smallJ ne y member).2)
    (fun j _ _ => by rw [slots]) (fun _ _ _ => rfl) (fun _ _ _ => rfl) child
    (fun j smallJ ne y member inside => by
      rcases childBlocks y inside with before | taken | same
      · exact (heldOther j smallJ ne y member).2 before
      · exact taken.1.not_held mid.ok (heldOther j smallJ ne y member).1
      · exact kids.apart j k smallJ small ne y member same)
  refine ⟨treeOk_node.mpr (fun _ => ⟨pointer, kids', fun j smallJ member => ?_⟩), blocks, childBlocks⟩
  by_cases this : j = k
  · subst this
    rcases childBlocks p member with before | taken | same
    · rw [← mineK] at before
      exact (mid.away j small).2 before
    · exact taken.1.not_held mid.ok (mid.held_pointer present)
    · exact away j small same
  · rw [blocks j smallJ this] at member
    exact away j smallJ member

/-- The pointers after child `k` moved to `p'`. -/
def moved (q : Nat → Nat) (k p' : Nat) : Nat → Nat := fun j => if j = k then p' else q j

theorem moved_self (q : Nat → Nat) (k p' : Nat) : moved q k p' k = p' := if_pos rfl

theorem moved_other {q : Nat → Nat} {j k p' : Nat} (ne : j ≠ k) : moved q k p' j = q j := if_neg ne

/-- What is outside the child's blocks is outside the node's. -/
theorem Mid.keeps_child (mid : W.Mid s0 h i p q b k s) (small : k < 512)
    (meets : enter W.lo (kid h i k) < leave W.hi h (kid h i k)) {m : Mem}
    (keeps : Keeps s (W.mine s h (kid h i k) (q k)) m) : Keeps s0 (W.mine s0 (h + 1) i p) m := by
  intro y held outside
  rw [keeps y (mid.grow.held held) ?_]
  · exact mid.crash.last.1 y held outside
  · intro inside
    rw [← kidOwned_mine small meets] at inside
    rcases mid.blocks k small y inside with before | taken
    · exact outside before
    · exact taken.1.not_held mid.start held

/-- What a memory seen while child `k` is swept says about the whole old subtree. -/
theorem Mid.old_at (mid : W.Mid s0 h i p q b k s) (small : k < 512)
    (meets : enter W.lo (kid h i k) < leave W.hi h (kid h i k)) (grow : Grow s t) {m : Mem}
    (keeps : Keeps s (W.mine s h (kid h i k) (q k)) m) (old : W.OldAt s t h (kid h i k) (q k) m) :
    (Keeps s0 (W.mine s0 (h + 1) i p) m ∧ W.OldAt s0 t (h + 1) i p m) ∧
      ∀ y ∈ W.owned W.g m (h + 1) i p, y = p ∨ (∃ j, j < 512 ∧ y ∈ W.oldKid s.bpram h i p j) ∨
        y ∈ W.mine s h (kid h i k) (q k) ∨ Taken s t y := by
  have mineK := kidOwned_mine (W := W) (s := s) (q := q) small meets
  have kept := mid.keeps_child small meets keeps
  by_cases present : p = 0
  · subst present
    have empty : ∀ n m', W.owned n m' (h + 1) i 0 = ∅ := fun n m' => treeBlocks_hole _ _ _ _
    refine ⟨⟨kept, ?_, fun y member => ?_⟩, fun y member => ?_⟩
    · exact mid.crash.first.2.1.congr (fun y member => by
        rw [show treeBlocks W.leaves s0.bpram (h + 1) i 0 (validIn W.g (h + 1) i) = ∅ from empty _ _] at member
        cases member)
    · rw [empty] at member
      cases member
    · rw [empty] at member
      cases member
  obtain ⟨-, holds, others, child⟩ := mid.old_after present small meets keeps old
  have parts : ∀ y ∈ W.owned W.g m (h + 1) i p, y = p ∨
      (∃ j, j < 512 ∧ y ∈ W.oldKid s.bpram h i p j) ∨
        y ∈ W.mine s h (kid h i k) (q k) ∨ Taken s t y := by
    intro y member
    rcases (mem_owned_old (owned_some member).1 present).mp member with root | ⟨j, smallJ, below⟩
    · exact Or.inl root
    · by_cases this : j = k
      · subst this
        rcases child y below with inside | taken | same
        · exact Or.inr (Or.inr (Or.inl inside))
        · exact Or.inr (Or.inr (Or.inr taken))
        · exact Or.inr (Or.inl ⟨j, smallJ, same⟩)
      · rw [others j smallJ this] at below
        exact Or.inr (Or.inl ⟨j, smallJ, below⟩)
  refine ⟨⟨kept, holds, fun y member => ?_⟩, parts⟩
  have some := (owned_some member).1
  rcases parts y member with root | ⟨j, smallJ, below⟩ | inside | taken
  · left
    have wider : validIn (max W.g W.lo) (h + 1) i ≠ 0 := by
      simp only [validIn] at some ⊢
      omega
    exact (mem_treeBlocks_succ wider present).mpr (Or.inl root)
  · rcases mid.crash.last.2.2 y ((mem_owned_old some present).mpr (Or.inr ⟨j, smallJ, below⟩)) with
      before | taken
    · exact Or.inl before
    · exact Or.inr (mid.grow.taken grow (Or.inl taken))
  · rw [← mineK] at inside
    rcases mid.blocks k small y inside with before | taken
    · exact Or.inl before
    · exact Or.inr (mid.grow.taken grow (Or.inl taken))
  · exact Or.inr (mid.grow.taken grow (Or.inr taken))

theorem OldAt.later {m : Mem} (old : W.OldAt s0 s h i p m) (grow : Grow s t) : W.OldAt s0 t h i p m :=
  ⟨old.1, fun y member => (old.2 y member).imp_right (fun taken => ⟨taken.1, grow.allocated taken.2⟩)⟩

theorem Mid.crash_child (mid : W.Mid s0 h i p q b k s) (small : k < 512)
    (meets : enter W.lo (kid h i k) < leave W.hi h (kid h i k)) (grow : Grow s t)
    (still : Through (fun m => Keeps s (W.mine s h (kid h i k) (q k)) m ∧
      W.OldAt s t h (kid h i k) (q k) m) s t) :
    Through (fun m => Keeps s0 (W.mine s0 (h + 1) i p) m ∧ W.OldAt s0 t (h + 1) i p m) s0 t :=
  (mid.crash.mono (fun _ seen => ⟨seen.1, seen.2.later grow⟩)).trans
    (still.mono (fun _ seen => (mid.old_at small meets grow seen.1 seen.2).1))

/-- A child's failure is the node's failure. -/
theorem Mid.failed (mid : W.Mid s0 h i p q b k s) (small : k < 512)
    (meets : enter W.lo (kid h i k) < leave W.hi h (kid h i k)) {e : Err}
    (failed : W.Failed s h (kid h i k) (q k) e t) : W.Failed s0 (h + 1) i p e t :=
  ⟨mid.grow.trans failed.grow, failed.error, fun full => lt_of_le_of_lt mid.grow.failures (failed.space full),
    mid.crash_child small meets failed.grow failed.crash⟩

/-- The other children while child `k` is swept. -/
theorem Mid.other_kids (mid : W.Mid s0 h i p q b k s) (small : k < 512)
    (meets : enter W.lo (kid h i k) < leave W.hi h (kid h i k)) {j y : Nat} (smallJ : j < 512) (ne : j ≠ k)
    (member : y ∈ W.kidOwned (W.reach h i k) s.bpram h i q j) :
    Held s y ∧ y ∉ W.mine s h (kid h i k) (q k) := by
  refine ⟨(mid.live j smallJ).held member, ?_⟩
  rw [← kidOwned_mine small meets]
  exact mid.kids.apart j k smallJ small ne y member

/-- What the swept child owns is nothing that was in use elsewhere. -/
theorem Mid.foreign (mid : W.Mid s0 h i p q b k s) {m : Mem} {p' y : Nat}
    (new : W.NewAt s t h (kid h i k) (q k) p' m) (held : Held s y) (outside : y ∉ W.mine s h (kid h i k) (q k)) :
    y ∉ W.owned (max W.g W.hi) m h (kid h i k) p' := by
  intro inside
  rcases new.2 y inside with before | taken
  · exact outside before
  · exact taken.1.not_held mid.ok held

/-- The children in a memory in which child `k` has been swept. -/
theorem Mid.kids_at (mid : W.Mid s0 h i p q b k s) (small : k < 512)
    (meets : enter W.lo (kid h i k) < leave W.hi h (kid h i k)) {m : Mem} {p' : Nat}
    (keeps : Keeps s (W.mine s h (kid h i k) (q k)) m) (new : W.NewAt s t h (kid h i k) (q k) p' m) :
    Kids W.leaves (W.reach h i (k + 1)) m h i (moved q k p')
        (validIn (max W.g (W.reach h i (k + 1))) (h + 1) i) ∧
      (∀ j, j < 512 → j ≠ k → W.kidOwned (W.reach h i (k + 1)) m h i (moved q k p') j =
        W.kidOwned (W.reach h i k) s.bpram h i q j) ∧
      W.kidOwned (W.reach h i (k + 1)) m h i (moved q k p') k =
        W.owned (max W.g W.hi) m h (kid h i k) p' ∧
      ∀ y, Held s y → (∀ j, j < 512 → y ∉ W.kidOwned (W.reach h i k) s.bpram h i q j) →
        ∀ j, j < 512 → y ∉ W.kidOwned (W.reach h i (k + 1)) m h i (moved q k p') j := by
  have newBlocks : W.kidOwned (W.reach h i (k + 1)) m h i (moved q k p') k =
      W.owned (max W.g W.hi) m h (kid h i k) p' := by
    rw [W.kidOwned_eq small, moved_self, owned, owned, valid_after meets]
  have other := fun j smallJ ne y member => mid.other_kids small meets (j := j) (y := y) smallJ ne member
  obtain ⟨kids, blocks⟩ := mid.kids.replace (W.reach h i (k + 1))
    (validIn (max W.g (W.reach h i (k + 1))) (h + 1) i) m (moved q k p') k
    (fun j smallJ ne y member => keeps y (other j smallJ ne y member).1 (other j smallJ ne y member).2)
    (fun j _ ne => moved_other ne)
    (fun j smallJ ne => by
      rw [share_validIn _ _ _ _ smallJ, share_validIn _ _ _ _ smallJ]
      exact valid_other meets ne)
    (fun j _ ne => clamp_other meets ne)
    (by
      rw [moved_self, share_validIn _ _ _ _ small, valid_after meets]
      exact new.1.clamp (clamp_after meets))
    (fun j smallJ ne y member inside => by
      change y ∈ W.kidOwned (W.reach h i (k + 1)) m h i (moved q k p') k at inside
      rw [newBlocks] at inside
      exact mid.foreign new (other j smallJ ne y member).1 (other j smallJ ne y member).2 inside)
  refine ⟨kids, blocks, newBlocks, fun y held outside j smallJ inside => ?_⟩
  by_cases this : j = k
  · subst this
    rw [newBlocks] at inside
    exact mid.foreign new held (kidOwned_mine small meets ▸ outside j small) inside
  · rw [show W.kidOwned (W.reach h i (k + 1)) m h i (moved q k p') j =
      W.kidOwned (W.reach h i k) s.bpram h i q j from blocks j smallJ this] at inside
    exact outside j smallJ inside

section Swept

variable (mid : W.Mid s0 h i p q b k s) (small : k < 512)
  (meets : enter W.lo (kid h i k) < leave W.hi h (kid h i k)) {commit : Commit} {p' : Nat}
  (done : W.Done s h (kid h i k) (q k) commit p' t)

include mid done

/-- A block in use that is none of the child's stays in use. -/
theorem Mid.child_kept {y : Nat} (held : Held s y) (outside : y ∉ W.mine s h (kid h i k) (q k))
    (kept : ¬Freed s y) : ¬Freed t y := by
  intro gone
  rcases done.freed y gone with before | inside | taken
  · exact kept before
  · exact outside inside
  · exact taken.1.not_held mid.ok held

include small meets

theorem Mid.child_live {j : Nat} (smallJ : j < 512) :
    Live t (W.kidOwned (W.reach h i (k + 1)) t.bpram h i (moved q k p') j) := by
  obtain ⟨-, blocks, newBlocks, -⟩ := mid.kids_at small meets done.crash.last.1 done.new
  by_cases this : j = k
  · subst this
    rw [newBlocks]
    exact done.live
  · intro y member
    rw [blocks j smallJ this] at member
    obtain ⟨held, outside⟩ := mid.other_kids small meets smallJ this member
    exact (mid.live j smallJ y member).imp_left
      (fun inUse => ⟨done.grow.allocated inUse.1, mid.child_kept done held outside inUse.2⟩)

theorem Mid.child_freed {y : Nat} (gone : Freed t y) :
    Freed s0 y ∨ y ∈ W.mine s0 (h + 1) i p ∨ Taken s0 t y := by
  rcases done.freed y gone with before | inside | taken
  · exact (mid.freed y before).imp_right
      (Or.imp_right (fun taken => mid.grow.taken done.grow (Or.inl taken)))
  · rw [← kidOwned_mine small meets] at inside
    exact Or.inr ((mid.blocks k small y inside).imp_right
      (fun taken => mid.grow.taken done.grow (Or.inl taken)))
  · exact Or.inr (Or.inr (mid.grow.taken done.grow (Or.inr taken)))

theorem Mid.child_used : Allocated t b ∧ ¬Freed t b :=
  ⟨done.grow.allocated mid.used.1, mid.child_kept done (Or.inl mid.used.1)
    (kidOwned_mine small meets ▸ (mid.away k small).1) mid.used.2⟩

omit done

theorem Mid.child_blocks (grow : Grow s t) {m : Mem} (keeps : Keeps s (W.mine s h (kid h i k) (q k)) m)
    (new : W.NewAt s t h (kid h i k) (q k) p' m) {j y : Nat} (smallJ : j < 512)
    (member : y ∈ W.kidOwned (W.reach h i (k + 1)) m h i (moved q k p') j) :
    y ∈ W.mine s0 (h + 1) i p ∨ Taken s0 t y := by
  obtain ⟨-, blocks, newBlocks, -⟩ := mid.kids_at small meets keeps new
  by_cases this : j = k
  · subst this
    rw [newBlocks] at member
    rcases new.2 y member with inside | taken
    · rw [← kidOwned_mine small meets] at inside
      exact (mid.blocks j small y inside).imp_right (fun taken => mid.grow.taken grow (Or.inl taken))
    · exact Or.inr (mid.grow.taken grow (Or.inr taken))
  · rw [blocks j smallJ this] at member
    exact (mid.blocks j smallJ y member).imp_right (fun taken => mid.grow.taken grow (Or.inl taken))

end Swept

/-- A child that was swept without anyone noticing. -/
theorem Mid.child (mid : W.Mid s0 h i p q b k s) (small : k < 512)
    (meets : enter W.lo (kid h i k) < leave W.hi h (kid h i k)) {commit : Commit} {p' : Nat}
    (done : W.Done s h (kid h i k) (q k) commit p' t)
    (still : Through (fun m => Keeps s (W.mine s h (kid h i k) (q k)) m ∧
      W.OldAt s t h (kid h i k) (q k) m) s t) :
    W.Mid s0 h i p (moved q k p') b (k + 1) t := by
  have mineK := kidOwned_mine (W := W) (s := s) (q := q) small meets
  have keeps := still.last.1
  have oldParts := (mid.old_at small meets done.grow keeps still.last.2).2
  have other := fun j smallJ ne y member => mid.other_kids small meets (j := j) (y := y) smallJ ne member
  obtain ⟨kids, blocks, newBlocks, away⟩ := mid.kids_at small meets keeps done.new
  have heldB : Held s b := Or.inl mid.used.1
  refine {
    start := mid.start
    grow := mid.grow.trans done.grow
    disk := done.disk
    node := mid.node
    used := mid.child_used small meets done
    own := mid.own.imp_right (fun taken => mid.grow.taken done.grow (Or.inl taken))
    pointer := mid.pointer.imp_right (And.imp_left done.grow.allocated)
    kids := kids
    away := fun j smallJ => ⟨away b heldB (fun j smallJ => (mid.away j smallJ).1) j smallJ, ?_⟩
    live := fun j smallJ => mid.child_live small meets done smallJ
    blocks := fun j smallJ y member => mid.child_blocks small meets done.grow keeps done.new smallJ member
    freed := fun y gone => mid.child_freed small meets done gone
    crash := mid.crash_child small meets done.grow still
    old_held := fun y member => ?_
    old_away := fun ne member => ?_
    old_same := fun present j smallJ later some => ?_
    old_apart := fun present j l smallJ smallL ne y member => ?_ }
  · by_cases present : p = 0
    · intro member
      rcases mid.child_live small meets done smallJ p member with inUse | disk
      · have := inUse.1.1
        omega
      · omega
    · exact away p (mid.held_pointer present) (fun j smallJ => (mid.away j smallJ).2) j smallJ
  · have some := owned_some member
    rcases oldParts y member with root | ⟨j, smallJ, below⟩ | inside | taken
    · rw [root]
      exact done.grow.held (mid.held_pointer some.2)
    · exact done.grow.held (mid.old_held y
        ((mem_owned_old some.1 some.2).mpr (Or.inr ⟨j, smallJ, below⟩)))
    · rw [← mineK] at inside
      exact done.grow.held ((mid.live k small).held inside)
    · exact Or.inl taken.2
  · have some := owned_some member
    rcases oldParts b member with root | ⟨j, smallJ, below⟩ | inside | taken
    · exact ne root
    · exact mid.old_away ne ((mem_owned_old some.1 some.2).mpr (Or.inr ⟨j, smallJ, below⟩))
    · rw [← mineK] at inside
      exact (mid.away k small).1 inside
    · exact taken.1.not_held mid.ok heldB
  · have jne : j ≠ k := by omega
    obtain ⟨root, -, others, -⟩ := mid.old_after present small meets keeps still.last.2
    rw [moved_other jne, others j smallJ jne, blocks j smallJ jne]
    rw [show addrAt t.bpram p j = addrAt s.bpram p j by simp only [addrAt, wordAt, root]]
    exact mid.old_same present j smallJ (by omega) some
  · obtain ⟨-, -, others, childOld⟩ := mid.old_after present small meets keeps still.last.2
    intro inside
    by_cases final : l = k
    · subst final
      rw [others j smallJ ne] at member
      rw [newBlocks] at inside
      exact mid.foreign done.new (mid.old_held y ((mem_owned_old (oldKid_some member) present).mpr
        (Or.inr ⟨j, smallJ, member⟩))) (mineK ▸ mid.old_apart present j l smallJ smallL ne y member) inside
    · rw [blocks l smallL final] at inside
      by_cases this : j = k
      · subst this
        obtain ⟨held, outside⟩ := other l smallL final y inside
        rcases childOld y member with before | taken | same
        · exact outside before
        · exact taken.1.not_held mid.ok held
        · exact mid.old_apart present j l smallJ smallL ne y same inside
      · rw [others j smallJ this] at member
        exact mid.old_apart present j l smallJ smallL ne y member inside

variable {no : Nat}

/-- The old block's entry for child `l` is not visible, so overwriting it changes nothing. -/
theorem old_overwrite {m : Mem} {l v : Nat} (small : l < 512) (fits : v < 2 ^ 64)
    (unseen : validIn W.g h (kid h i l) = 0) (old : W.Holds W.lo W.g m (h + 1) i p) (present : p ≠ 0) :
    W.Holds W.lo W.g (m.apply (slotWrite p l v)) (h + 1) i p ∧
      (∀ j, j < 512 → W.oldKid (m.apply (slotWrite p l v)) h i p j = W.oldKid m h i p j) ∧
      W.owned W.g (m.apply (slotWrite p l v)) (h + 1) i p = W.owned W.g m (h + 1) i p := by
  by_cases none : validIn W.g (h + 1) i = 0
  · refine ⟨?_, fun j _ => by rw [oldKid_empty none, oldKid_empty none], ?_⟩
    · unfold Holds
      rw [none]
      exact treeOk_empty ..
    · simp [owned, none]
  have share : share h (validIn W.g (h + 1) i) l = 0 := (share_validIn _ _ _ _ small).trans unseen
  obtain ⟨pointer, kids, away⟩ := treeOk_node.mp old none
  have relinked := TreeOk.relink (v := v) old none present small fits (by rw [share]; exact treeOk_empty ..)
    (fun y member => by rw [share] at member; simp at member)
  have blocks : ∀ j, j < 512 → W.oldKid (m.apply (slotWrite p l v)) h i p j = W.oldKid m h i p j := by
    intro j smallJ
    by_cases this : j = l
    · subst this
      simp [oldKid, kidBlocks, share]
    · unfold oldKid kidBlocks
      rw [slot, slot, if_neg present, if_neg present, addrAt_slotWrite_other (Or.inr this)]
      have entry : addrAt m p j = slot m p j := by rw [slot, if_neg present]
      rw [entry]
      exact treeBlocks_congr (fun y member => apply_other (fun (same : y = p) => away j smallJ (same ▸ member)))
  refine ⟨relinked.1, blocks, ?_⟩
  ext y
  rw [mem_owned_old none present, mem_owned_old none present]
  constructor
  · rintro (root | ⟨j, smallJ, below⟩)
    · exact Or.inl root
    · exact Or.inr ⟨j, smallJ, blocks j smallJ ▸ below⟩
  · rintro (root | ⟨j, smallJ, below⟩)
    · exact Or.inl root
    · exact Or.inr ⟨j, smallJ, (blocks j smallJ).symm ▸ below⟩

/-- An entry is stored where the old subtree does not see it. -/
theorem Mid.store (mid : W.Mid s0 h i p q b no s) {l v : Nat} (small : l < 512) (fits : v < 2 ^ 64)
    (unseen : b ≠ p ∨ validIn W.g h (kid h i l) = 0) :
    W.Mid s0 h i p q b no (s.store (slotWrite b l v)) := by
  have other : ∀ y, y ≠ b → (s.store (slotWrite b l v)).bpram y = s.bpram y := fun y ne => apply_other ne
  have sameKids : ∀ k, k < 512 → ∀ y ∈ W.kidOwned (W.reach h i no) s.bpram h i q k,
      (s.store (slotWrite b l v)).bpram y = s.bpram y :=
    fun k smallK y member => other y (fun same => (mid.away k smallK).1 (same ▸ member))
  obtain ⟨kids, blocks⟩ := mid.kids.congr sameKids
  have blocks' : ∀ k, k < 512 → W.kidOwned (W.reach h i no) (s.store (slotWrite b l v)).bpram h i q k =
    W.kidOwned (W.reach h i no) s.bpram h i q k := blocks
  have old : W.Holds W.lo W.g (s.store (slotWrite b l v)).bpram (h + 1) i p ∧
      (p ≠ 0 → ∀ j, j < 512 → W.oldKid (s.store (slotWrite b l v)).bpram h i p j = W.oldKid s.bpram h i p j) ∧
      W.owned W.g (s.store (slotWrite b l v)).bpram (h + 1) i p = W.owned W.g s.bpram (h + 1) i p := by
    by_cases copy : b = p
    · subst copy
      have result := old_overwrite (v := v) small fits (unseen.resolve_left (fun ne => ne rfl)) mid.crash.last.2.1
        (show b ≠ 0 by have := mid.node.1; omega)
      exact ⟨result.1, fun _ => result.2.1, result.2.2⟩
    · have away := mid.old_away copy
      have same : ∀ y ∈ W.owned W.g s.bpram (h + 1) i p, (s.store (slotWrite b l v)).bpram y = s.bpram y :=
        fun y member => other y (fun equal => away (equal ▸ member))
      refine ⟨mid.crash.last.2.1.congr same, fun present j smallJ => ?_, treeBlocks_congr same⟩
      by_cases none : validIn W.g (h + 1) i = 0
      · rw [oldKid_empty none, oldKid_empty none]
      have root : slot (s.store (slotWrite b l v)).bpram p = slot s.bpram p :=
        slot_congr (other p (fun equal => copy equal.symm))
      unfold oldKid kidBlocks
      rw [root]
      exact treeBlocks_congr (fun y member =>
        same y ((mem_treeBlocks_succ none present).mpr (Or.inr ⟨j, smallJ, member⟩)))
  have kept : Keeps s0 (W.mine s0 (h + 1) i p) (s.store (slotWrite b l v)).bpram := by
    intro y held outside
    rw [other y ?_]
    · exact mid.crash.last.1 y held outside
    · rintro rfl
      rcases mid.own with same | taken
      · have present : p ≠ 0 := by have := mid.node.1; omega
        exact outside (same.symm ▸ (mid.pointer.resolve_left present).2)
      · exact taken.1.not_held mid.start held
  have root : p ≠ 0 → ∀ k, k < 512 → validIn W.g h (kid h i k) ≠ 0 →
      addrAt (s.store (slotWrite b l v)).bpram p k = addrAt s.bpram p k := by
    intro present k smallK some
    apply addrAt_slotWrite_other
    by_cases copy : p = b
    · right
      rintro rfl
      exact some (unseen.resolve_left (fun ne => ne copy.symm))
    · exact Or.inl copy
  exact {
    start := mid.start
    grow := mid.grow.trans (grow_store _)
    disk := mid.disk
    node := mid.node
    used := mid.used
    own := mid.own
    pointer := mid.pointer
    kids := kids
    away := fun k smallK => by rw [blocks' k smallK]; exact mid.away k smallK
    live := fun k smallK => by rw [blocks' k smallK]; exact mid.live k smallK
    blocks := fun k smallK => by rw [blocks' k smallK]; exact mid.blocks k smallK
    freed := mid.freed
    crash := mid.crash.trans (through_store ⟨mid.crash.last.1, mid.crash.last.2⟩
      ⟨kept, old.1, fun y member => mid.crash.last.2.2 y (old.2.2 ▸ member)⟩ (fun loose => by cases loose))
    old_held := fun y member => mid.old_held y (old.2.2 ▸ member)
    old_away := fun ne => by rw [old.2.2]; exact mid.old_away ne
    old_same := fun present k smallK later some => by
      rw [root present k smallK some, old.2.1 present k smallK, blocks' k smallK]
      exact mid.old_same present k smallK later some
    old_apart := fun present j k smallJ smallK ne => by
      rw [old.2.1 present j smallJ, blocks' k smallK]
      exact mid.old_apart present j k smallJ smallK ne }

end Sweep

end Bpfs
