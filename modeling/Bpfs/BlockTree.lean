import Bpfs.Allocation

/-! Trees of indirect blocks as they lie in memory. A tree of height `h` whose first
leaf has index `i` hangs off the pointer `p`, and only its first `v` bytes count:
entries and bytes beyond them may hold anything. What a leaf means is a parameter,
so that the same theory serves file data and the inode tree. -/

namespace Bpfs
open Lib

/-- Bytes under a tree of height `h`. -/
def span (h : Nat) : Nat := blockSize * 512 ^ h

theorem span_zero : span 0 = blockSize := by simp [span]

theorem span_succ (h : Nat) : span (h + 1) = 512 * span h := by
  simp only [span, Nat.pow_succ]
  rw [Nat.mul_comm (512 ^ h) 512, Nat.mul_left_comm]

theorem span_pos (h : Nat) : 0 < span h := by
  simp only [span, blockSize]
  exact Nat.mul_pos (by decide) (Nat.pow_pos (by decide))

theorem start_kid (i k h : Nat) : blockSize * (i + k * 512 ^ h) = blockSize * i + k * span h := by
  simp only [span, Nat.mul_add]
  rw [Nat.mul_left_comm]

/-- Entry `k` of the indirect block `p`; a missing block has only missing children. -/
def slot (m : Mem) (p k : Nat) : Nat := if p = 0 then 0 else addrAt m p k

/-- How many of the first `v` bytes lie under child `k` of a tree of height `h + 1`. -/
def share (h v k : Nat) : Nat := min (v - k * span h) (span h)

theorem share_mono {h v v' k : Nat} (le : v' ≤ v) : share h v' k ≤ share h v k := by
  unfold share
  omega

theorem share_zero (h k : Nat) : share h 0 k = 0 := by simp [share]

/-- The point of the interval from `a` to `b` that is closest to `x`. -/
def clampTo (x a b : Nat) : Nat := max a (min x b)

theorem clampTo_sub {x y a b c d : Nat} (same : clampTo x a b = clampTo y a b) (low : a ≤ c)
    (mid : c ≤ d) (high : d ≤ b) : clampTo x c d = clampTo y c d := by
  unfold clampTo at *
  omega

/-- What the leaves of a kind of tree mean. `ok x m i q v` says that in memory `m` the
leaf of index `i` behind pointer `q` is as it should be on its first `v` bytes, in a
sweep over the tree that has come as far as byte `x`; `blocks` are the blocks that
belong to the leaf. -/
structure Leaves where
  blocks : Mem → Nat → Nat → Nat → Set Nat
  ok : Nat → Mem → Nat → Nat → Nat → Prop
  hole_blocks : ∀ m i v, blocks m i 0 v = ∅
  local_blocks : ∀ {m m' : Mem} {i q v : Nat}, (∀ b ∈ blocks m i q v, m' b = m b) →
    blocks m' i q v = blocks m i q v
  local_ok : ∀ {x : Nat} {m m' : Mem} {i q v : Nat}, (∀ b ∈ blocks m i q v, m' b = m b) →
    ok x m i q v → ok x m' i q v
  mono_blocks : ∀ {m : Mem} {i q v v' : Nat}, v' ≤ v → blocks m i q v' ⊆ blocks m i q v
  mono_ok : ∀ {x : Nat} {m : Mem} {i q v v' : Nat}, v' ≤ v → ok x m i q v → ok x m i q v'
  clamp_ok : ∀ {x y : Nat} {m : Mem} {i q v : Nat},
    clampTo x (blockSize * i) (blockSize * i + blockSize) =
      clampTo y (blockSize * i) (blockSize * i + blockSize) → ok x m i q v → ok y m i q v

variable {L : Leaves}

/-- The blocks that belong to a tree. -/
def treeBlocks (L : Leaves) (m : Mem) : Nat → Nat → Nat → Nat → Set Nat
  | 0, i, p, v => if v = 0 then ∅ else L.blocks m i p v
  | h + 1, i, p, v =>
      if v = 0 ∨ p = 0 then ∅
      else {b | b = p ∨ ∃ k, k < 512 ∧ b ∈ treeBlocks L m h (i + k * 512 ^ h) (addrAt m p k) (share h v k)}

/-- The blocks under child `k`, when the children hang off the pointers `q`. -/
def kidBlocks (L : Leaves) (m : Mem) (h i : Nat) (q : Nat → Nat) (v k : Nat) : Set Nat :=
  treeBlocks L m h (i + k * 512 ^ h) (q k) (share h v k)

/-- Blocks of different children are different. -/
def Apart (B : Nat → Set Nat) : Prop := ∀ j k, j < 512 → k < 512 → j ≠ k → ∀ b ∈ B j, b ∉ B k

/-- The tree is well formed and its leaves mean what they should. -/
def TreeOk (L : Leaves) (x : Nat) (m : Mem) : Nat → Nat → Nat → Nat → Prop
  | 0, i, p, v => v ≠ 0 → L.ok x m i p v
  | h + 1, i, p, v => v ≠ 0 → (p = 0 ∨ (3 ≤ p ∧ p < 2 ^ 61)) ∧
      (∀ k, k < 512 → TreeOk L x m h (i + k * 512 ^ h) (slot m p k) (share h v k)) ∧
      (∀ k, k < 512 → p ∉ kidBlocks L m h i (slot m p) v k) ∧ Apart (kidBlocks L m h i (slot m p) v)

/-- The children that hang off the pointers `q` are well formed and apart. -/
structure Kids (L : Leaves) (x : Nat) (m : Mem) (h i : Nat) (q : Nat → Nat) (v : Nat) : Prop where
  ok : ∀ k, k < 512 → TreeOk L x m h (i + k * 512 ^ h) (q k) (share h v k)
  apart : Apart (kidBlocks L m h i q v)

theorem treeOk_node {x : Nat} {m : Mem} {h i p v : Nat} :
    TreeOk L x m (h + 1) i p v ↔ (v ≠ 0 → (p = 0 ∨ (3 ≤ p ∧ p < 2 ^ 61)) ∧
      Kids L x m h i (slot m p) v ∧ ∀ k, k < 512 → p ∉ kidBlocks L m h i (slot m p) v k) := by
  constructor
  · intro tree some
    obtain ⟨pointer, kids, away, apart⟩ := tree some
    exact ⟨pointer, ⟨kids, apart⟩, away⟩
  · intro node some
    obtain ⟨pointer, kids, away⟩ := node some
    exact ⟨pointer, kids.ok, away, kids.apart⟩

@[simp] theorem treeBlocks_empty (m : Mem) (h i p : Nat) : treeBlocks L m h i p 0 = ∅ := by
  cases h <;> simp [treeBlocks]

@[simp] theorem treeBlocks_hole (m : Mem) (h i v : Nat) : treeBlocks L m h i 0 v = ∅ := by
  cases h with
  | zero => simp [treeBlocks, L.hole_blocks]
  | succ h => simp [treeBlocks]

theorem treeOk_empty (x : Nat) (m : Mem) (h i p : Nat) : TreeOk L x m h i p 0 := by
  cases h <;> exact fun none => absurd rfl none

theorem mem_treeBlocks_succ {m : Mem} {h i p v b : Nat} (some : v ≠ 0) (present : p ≠ 0) :
    b ∈ treeBlocks L m (h + 1) i p v ↔ b = p ∨ ∃ k, k < 512 ∧ b ∈ kidBlocks L m h i (slot m p) v k := by
  simp only [treeBlocks, some, present, or_self, if_false, Set.mem_ofPred_eq, kidBlocks, slot]

theorem treeBlocks_mono {m : Mem} {h i p v v' : Nat} (le : v' ≤ v) :
    treeBlocks L m h i p v' ⊆ treeBlocks L m h i p v := by
  induction h generalizing i p v v' with
  | zero =>
    intro b member
    by_cases none : v' = 0
    · rw [none] at member; simp at member
    · simp only [treeBlocks, none, show v ≠ 0 by omega, if_false] at member ⊢
      exact L.mono_blocks le member
  | succ h ih =>
    intro b member
    by_cases none : v' = 0
    · rw [none] at member; simp at member
    by_cases hole : p = 0
    · rw [hole] at member; simp at member
    rw [mem_treeBlocks_succ none hole] at member
    rw [mem_treeBlocks_succ (show v ≠ 0 by omega) hole]
    rcases member with root | ⟨k, small, below⟩
    · exact Or.inl root
    · exact Or.inr ⟨k, small, ih (share_mono le) below⟩

theorem addrAt_congr {m m' : Mem} {p : Nat} (same : m' p = m p) (k : Nat) : addrAt m' p k = addrAt m p k := by
  simp only [addrAt, wordAt, same]

theorem slot_congr {m m' : Mem} {p : Nat} (same : m' p = m p) : slot m' p = slot m p := by
  funext k
  simp only [slot, addrAt, wordAt, same]

theorem treeBlocks_congr {m m' : Mem} {h i p v : Nat} (same : ∀ b ∈ treeBlocks L m h i p v, m' b = m b) :
    treeBlocks L m' h i p v = treeBlocks L m h i p v := by
  induction h generalizing i p v with
  | zero =>
    by_cases none : v = 0
    · simp [none]
    · simp only [treeBlocks, none, if_false] at same ⊢
      exact L.local_blocks same
  | succ h ih =>
    by_cases none : v = 0
    · simp [none]
    by_cases hole : p = 0
    · simp [hole]
    have root : slot m' p = slot m p := slot_congr (same p ((mem_treeBlocks_succ none hole).mpr (Or.inl rfl)))
    have kids : ∀ k, k < 512 → kidBlocks L m' h i (slot m' p) v k = kidBlocks L m h i (slot m p) v k := by
      intro k small
      rw [root]
      exact ih (fun b member => same b ((mem_treeBlocks_succ none hole).mpr (Or.inr ⟨k, small, member⟩)))
    ext b
    rw [mem_treeBlocks_succ none hole, mem_treeBlocks_succ none hole]
    constructor
    · rintro (rfl | ⟨k, small, below⟩)
      · exact Or.inl rfl
      · exact Or.inr ⟨k, small, by rwa [← kids k small]⟩
    · rintro (rfl | ⟨k, small, below⟩)
      · exact Or.inl rfl
      · exact Or.inr ⟨k, small, by rwa [kids k small]⟩

theorem TreeOk.congr {x : Nat} {m m' : Mem} {h i p v : Nat} (tree : TreeOk L x m h i p v)
    (same : ∀ b ∈ treeBlocks L m h i p v, m' b = m b) : TreeOk L x m' h i p v := by
  induction h generalizing i p v with
  | zero =>
    intro some
    have leaf := tree some
    simp only [treeBlocks, some, if_false] at same
    exact L.local_ok same leaf
  | succ h ih =>
    refine treeOk_node.mpr (fun some => ?_)
    obtain ⟨pointer, kids, away⟩ := treeOk_node.mp tree some
    have root : slot m' p = slot m p := by
      by_cases hole : p = 0
      · funext k; simp [slot, hole]
      · exact slot_congr (same p ((mem_treeBlocks_succ some hole).mpr (Or.inl rfl)))
    have below : ∀ k, k < 512 → ∀ b ∈ kidBlocks L m h i (slot m p) v k, m' b = m b := by
      intro k small b member
      by_cases hole : p = 0
      · simp [kidBlocks, slot, hole] at member
      · exact same b ((mem_treeBlocks_succ some hole).mpr (Or.inr ⟨k, small, member⟩))
    have blocks : ∀ k, k < 512 → kidBlocks L m' h i (slot m p) v k = kidBlocks L m h i (slot m p) v k :=
      fun k small => treeBlocks_congr (below k small)
    refine ⟨pointer, ⟨?_, ?_⟩, ?_⟩
    · intro k small
      rw [root]
      exact ih (kids.ok k small) (below k small)
    · rw [root]
      intro j k smallJ smallK ne b member
      rw [blocks j smallJ] at member
      rw [blocks k smallK]
      exact kids.apart j k smallJ smallK ne b member
    · intro k small
      rw [root, blocks k small]
      exact away k small

theorem TreeOk.mono {x : Nat} {m : Mem} {h i p v v' : Nat} (tree : TreeOk L x m h i p v) (le : v' ≤ v) :
    TreeOk L x m h i p v' := by
  induction h generalizing i p v v' with
  | zero => exact fun some => L.mono_ok le (tree (by omega))
  | succ h ih =>
    refine treeOk_node.mpr (fun some => ?_)
    obtain ⟨pointer, kids, away⟩ := treeOk_node.mp tree (show v ≠ 0 by omega)
    have blocks : ∀ k, kidBlocks L m h i (slot m p) v' k ⊆ kidBlocks L m h i (slot m p) v k :=
      fun k => treeBlocks_mono (share_mono le)
    refine ⟨pointer, ⟨?_, ?_⟩, ?_⟩
    · exact fun k small => ih (kids.ok k small) (share_mono le)
    · exact fun j k smallJ smallK ne b member other =>
        kids.apart j k smallJ smallK ne b (blocks j member) (blocks k other)
    · exact fun k small member => away k small (blocks k member)

theorem TreeOk.clamp {x y : Nat} {m : Mem} {h i p v : Nat} (tree : TreeOk L x m h i p v)
    (same : clampTo x (blockSize * i) (blockSize * i + span h) =
      clampTo y (blockSize * i) (blockSize * i + span h)) : TreeOk L y m h i p v := by
  induction h generalizing i p v with
  | zero => exact fun some => L.clamp_ok (by rwa [span_zero] at same) (tree some)
  | succ h ih =>
    refine treeOk_node.mpr (fun some => ?_)
    obtain ⟨pointer, kids, away⟩ := treeOk_node.mp tree some
    refine ⟨pointer, ⟨fun k small => ih (kids.ok k small) ?_, kids.apart⟩, away⟩
    have inside : k * span h + span h ≤ span (h + 1) := by
      rw [span_succ, ← Nat.succ_mul]
      exact Nat.mul_le_mul_right _ small
    rw [start_kid]
    exact clampTo_sub same (by omega) (by omega) (by omega)

/-- The store of one aligned 64-bit field. -/
def wordWrite (b off v : Nat) : Write := ⟨true, b, off, 8, leByte v⟩

theorem wordAt_wordWrite {m : Mem} {b off v : Nat} (small : v < 2 ^ 64) :
    wordAt (m.apply (wordWrite b off v)) b off = v := by
  have bytes : ∀ n, n < 8 → m.apply (wordWrite b off v) b (off + n) = leByte v n := by
    intro n inside
    have covered : (wordWrite b off v).covers b (off + n) :=
      ⟨rfl, Nat.le_add_right _ _, Nat.add_lt_add_left inside _⟩
    rw [apply_covered covered]
    change leByte v (off + n - off) = _
    rw [Nat.add_sub_cancel_left]
  rw [wordAt, leValue_congr bytes, leValue_leByte]
  exact Nat.mod_eq_of_lt small

theorem wordAt_wordWrite_other {m : Mem} {b c off off' v : Nat}
    (other : c ≠ b ∨ off + 8 ≤ off' ∨ off' + 8 ≤ off) :
    wordAt (m.apply (wordWrite b off v)) c off' = wordAt m c off' := by
  unfold wordAt
  apply leValue_congr
  intro n inside
  apply apply_uncovered
  rintro ⟨block, low, high⟩
  simp only [wordWrite] at block low high
  omega

theorem wordAt_congr {m m' : Mem} {b off : Nat} (same : ∀ k, off ≤ k → k < off + 8 → m' b k = m b k) :
    wordAt m' b off = wordAt m b off := by
  unfold wordAt
  apply leValue_congr
  intro n inside
  exact same _ (Nat.le_add_right _ _) (by omega)

theorem wordAt_lt (m : Mem) (b off : Nat) : wordAt m b off < 2 ^ 64 := leValue_lt _ 8

/-- The store that puts `v` in entry `k` of block `b`. -/
def slotWrite (b k v : Nat) : Write := wordWrite b (8 * k) v

theorem addrAt_slotWrite {m : Mem} {b k v : Nat} (small : v < 2 ^ 64) :
    addrAt (m.apply (slotWrite b k v)) b k = v := wordAt_wordWrite small

theorem addrAt_slotWrite_other {m : Mem} {b c j k v : Nat} (other : c ≠ b ∨ j ≠ k) :
    addrAt (m.apply (slotWrite b k v)) c j = addrAt m c j :=
  wordAt_wordWrite_other (by omega)

theorem wp_storeWord {s : Fs} {b off v : Nat} {Q : Unit → Fs → Prop} {E : Err → Fs → Prop} :
    wp (storeWord b off v) Q E s ↔ Q () (s.store (wordWrite b off v)) := Iff.rfl

theorem wp_storeAddr {s : Fs} {b k v : Nat} {Q : Unit → Fs → Prop} {E : Err → Fs → Prop} :
    wp (storeAddr b k v) Q E s ↔ Q () (s.store (slotWrite b k v)) := Iff.rfl

theorem findAddr_some {m : Mem} {b v n j k : Nat} (from_j : j ≤ k) (inside : k < j + n)
    (here : addrAt m b k = v) (before : ∀ l, l < k → addrAt m b l ≠ v) : findAddr m b v n j = some k := by
  induction n generalizing j with
  | zero => omega
  | succ n ih =>
    unfold findAddr
    by_cases this : j = k
    · rw [if_pos (this ▸ here), this]
    · rw [if_neg (before j (by omega))]
      exact ih (by omega) (by omega)

theorem findAddr_found {m : Mem} {b v n j k : Nat} (found : findAddr m b v n j = some k) :
    j ≤ k ∧ k < j + n ∧ addrAt m b k = v ∧ ∀ l, j ≤ l → l < k → addrAt m b l ≠ v := by
  induction n generalizing j with
  | zero => cases found
  | succ n ih =>
    unfold findAddr at found
    split at found
    · next here =>
      cases found
      exact ⟨le_refl _, by omega, here, fun l low high => by omega⟩
    · next other =>
      obtain ⟨low, high, here, before⟩ := ih found
      refine ⟨by omega, by omega, here, fun l from_j below => ?_⟩
      by_cases first : l = j
      · rw [first]
        exact other
      · exact before l (by omega) below

theorem findAddr_exists {m : Mem} {b v n j k : Nat} (from_j : j ≤ k) (inside : k < j + n) (here : addrAt m b k = v) :
    ∃ l, findAddr m b v n j = some l := by
  induction n generalizing j with
  | zero => omega
  | succ n ih =>
    unfold findAddr
    by_cases first : addrAt m b j = v
    · exact ⟨j, if_pos first⟩
    · rw [if_neg first]
      have later : j ≠ k := fun same => first (same ▸ here)
      exact ih (by omega) (by omega)

/-- One child is replaced; the others keep their pointers, their blocks and their meaning. -/
theorem Kids.replace {x : Nat} {m : Mem} {h i v : Nat} {q : Nat → Nat} (kids : Kids L x m h i q v)
    (x' v' : Nat) (m' : Mem) (q' : Nat → Nat) (k : Nat)
    (same : ∀ j, j < 512 → j ≠ k → ∀ b ∈ kidBlocks L m h i q v j, m' b = m b)
    (pointers : ∀ j, j < 512 → j ≠ k → q' j = q j)
    (shares : ∀ j, j < 512 → j ≠ k → share h v' j = share h v j)
    (clamps : ∀ j, j < 512 → j ≠ k →
      clampTo x (blockSize * (i + j * 512 ^ h)) (blockSize * (i + j * 512 ^ h) + span h) =
        clampTo x' (blockSize * (i + j * 512 ^ h)) (blockSize * (i + j * 512 ^ h) + span h))
    (child : TreeOk L x' m' h (i + k * 512 ^ h) (q' k) (share h v' k))
    (apart : ∀ j, j < 512 → j ≠ k → ∀ b ∈ kidBlocks L m h i q v j, b ∉ kidBlocks L m' h i q' v' k) :
    Kids L x' m' h i q' v' ∧
      ∀ j, j < 512 → j ≠ k → kidBlocks L m' h i q' v' j = kidBlocks L m h i q v j := by
  have blocks : ∀ j, j < 512 → j ≠ k → kidBlocks L m' h i q' v' j = kidBlocks L m h i q v j := by
    intro j small ne
    unfold kidBlocks
    rw [pointers j small ne, shares j small ne]
    exact treeBlocks_congr (same j small ne)
  refine ⟨⟨fun j small => ?_, fun j l smallJ smallL ne b member other => ?_⟩, blocks⟩
  · by_cases this : j = k
    · rw [this]
      exact child
    · rw [pointers j small this, shares j small this]
      exact ((kids.ok j small).congr (same j small this)).clamp (clamps j small this)
  · by_cases left : j = k
    · subst left
      rw [blocks l smallL (Ne.symm ne)] at other
      exact apart l smallL (Ne.symm ne) b other member
    · rw [blocks j smallJ left] at member
      by_cases right : l = k
      · subst right
        exact apart j smallJ left b member other
      · rw [blocks l smallL right] at other
        exact kids.apart j l smallJ smallL ne b member other

/-- Memory that agrees on all children's blocks leaves the children as they are. -/
theorem Kids.congr {x : Nat} {m m' : Mem} {h i v : Nat} {q : Nat → Nat} (kids : Kids L x m h i q v)
    (same : ∀ k, k < 512 → ∀ b ∈ kidBlocks L m h i q v k, m' b = m b) :
    Kids L x m' h i q v ∧ ∀ k, k < 512 → kidBlocks L m' h i q v k = kidBlocks L m h i q v k := by
  have blocks : ∀ k, k < 512 → kidBlocks L m' h i q v k = kidBlocks L m h i q v k :=
    fun k small => treeBlocks_congr (same k small)
  refine ⟨⟨fun k small => (kids.ok k small).congr (same k small), ?_⟩, blocks⟩
  intro j k smallJ smallK ne b member
  rw [blocks j smallJ] at member
  rw [blocks k smallK]
  exact kids.apart j k smallJ smallK ne b member

/-- A node whose entry for child `k` was overwritten in place. -/
theorem TreeOk.relink {x : Nat} {m : Mem} {h i p n : Nat} (tree : TreeOk L x m (h + 1) i p n)
    (some : n ≠ 0) (present : p ≠ 0) {k v : Nat} (small : k < 512) (fits : v < 2 ^ 64)
    (child : TreeOk L x (m.apply (slotWrite p k v)) h (i + k * 512 ^ h) v (share h n k))
    (apart : ∀ y ∈ treeBlocks L (m.apply (slotWrite p k v)) h (i + k * 512 ^ h) v (share h n k),
      y ≠ p ∧ ∀ j, j < 512 → j ≠ k → y ∉ kidBlocks L m h i (slot m p) n j) :
    TreeOk L x (m.apply (slotWrite p k v)) (h + 1) i p n ∧
      ∀ y ∈ treeBlocks L (m.apply (slotWrite p k v)) (h + 1) i p n,
        y = p ∨ (∃ j, j < 512 ∧ j ≠ k ∧ y ∈ kidBlocks L m h i (slot m p) n j) ∨
          y ∈ treeBlocks L (m.apply (slotWrite p k v)) h (i + k * 512 ^ h) v (share h n k) := by
  obtain ⟨pointer, kids, away⟩ := treeOk_node.mp tree some
  have entry : slot (m.apply (slotWrite p k v)) p k = v := by
    rw [slot, if_neg present, addrAt_slotWrite fits]
  have entries : ∀ j, j ≠ k → slot (m.apply (slotWrite p k v)) p j = slot m p j := by
    intro j ne
    rw [slot, slot, if_neg present, if_neg present, addrAt_slotWrite_other (Or.inr ne)]
  have childBlocks : kidBlocks L (m.apply (slotWrite p k v)) h i (slot (m.apply (slotWrite p k v)) p) n k =
      treeBlocks L (m.apply (slotWrite p k v)) h (i + k * 512 ^ h) v (share h n k) := by
    rw [kidBlocks, entry]
  obtain ⟨kids', blocks⟩ := kids.replace x n (m.apply (slotWrite p k v))
    (slot (m.apply (slotWrite p k v)) p) k
    (fun j smallJ ne y member => apply_other (fun (same : y = p) => away j smallJ (same ▸ member)))
    (fun j _ ne => entries j ne) (fun _ _ _ => rfl) (fun _ _ _ => rfl) (by rwa [entry])
    (fun j smallJ ne y member inside => by
      rw [childBlocks] at inside
      exact (apart y inside).2 j smallJ ne member)
  refine ⟨treeOk_node.mpr (fun _ => ⟨pointer, kids', fun j smallJ member => ?_⟩), fun y member => ?_⟩
  · by_cases this : j = k
    · subst this
      rw [childBlocks] at member
      exact (apart p member).1 rfl
    · rw [blocks j smallJ this] at member
      exact away j smallJ member
  · rcases (mem_treeBlocks_succ some present).mp member with root | ⟨j, smallJ, below⟩
    · exact Or.inl root
    · by_cases this : j = k
      · subst this
        rw [childBlocks] at below
        exact Or.inr (Or.inr below)
      · rw [blocks j smallJ this] at below
        exact Or.inr (Or.inl ⟨j, smallJ, this, below⟩)

/-- A node stays well formed when its children do and own no more than before. -/
theorem treeOk_of_kids {x x' : Nat} {m m' : Mem} {h i p v v' : Nat} (tree : TreeOk L x m (h + 1) i p v) (some : v ≠ 0)
    (present : p ≠ 0)
    (kids : ∀ k, k < 512 → TreeOk L x' m' h (i + k * 512 ^ h) (slot m' p k) (share h v' k) ∧
      kidBlocks L m' h i (slot m' p) v' k ⊆ kidBlocks L m h i (slot m p) v k) :
    TreeOk L x' m' (h + 1) i p v' ∧ treeBlocks L m' (h + 1) i p v' ⊆ treeBlocks L m (h + 1) i p v := by
  obtain ⟨pointer, old, away⟩ := treeOk_node.mp tree some
  refine ⟨treeOk_node.mpr (fun _ => ⟨pointer, ⟨fun k small => (kids k small).1, ?_⟩, ?_⟩), ?_⟩
  · exact fun j k smallJ smallK ne b member other =>
      old.apart j k smallJ smallK ne b ((kids j smallJ).2 member) ((kids k smallK).2 other)
  · exact fun k small member => away k small ((kids k small).2 member)
  · intro b member
    by_cases none : v' = 0
    · rw [none, treeBlocks_empty] at member
      cases member
    · rw [mem_treeBlocks_succ none present] at member
      rw [mem_treeBlocks_succ some present]
      rcases member with root | ⟨k, small, below⟩
      · exact Or.inl root
      · exact Or.inr ⟨k, small, (kids k small).2 below⟩

/-- A missing subtree is all right when its leaves may be missing. -/
theorem treeOk_of_holes {x : Nat} {m : Mem} {h i v : Nat} (fits : v ≤ span h)
    (holes : ∀ j n, i ≤ j → n ≠ 0 → n ≤ blockSize → blockSize * j + n ≤ blockSize * i + v → L.ok x m j 0 n) :
    TreeOk L x m h i 0 v := by
  induction h generalizing i v with
  | zero => exact fun some => holes i v (le_refl _) some (by rwa [span_zero] at fits) (le_refl _)
  | succ h ih =>
    refine treeOk_node.mpr (fun some => ⟨Or.inl rfl, ⟨fun k small => ?_, ?_⟩, ?_⟩)
    · rw [show slot m 0 k = 0 by simp [slot]]
      by_cases none : share h v k = 0
      · rw [none]
        exact treeOk_empty ..
      · refine ih (Nat.min_le_right _ _) (fun j n first some' one last => ?_)
        apply holes j n (le_trans (Nat.le_add_right _ _) first) some' one
        rw [start_kid] at last
        unfold share at last none
        omega
    · intro j k smallJ smallK ne b member
      simp [kidBlocks, slot] at member
    · intro k small member
      simp [kidBlocks, slot] at member

end Bpfs
