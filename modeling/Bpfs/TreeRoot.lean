import Bpfs.CrawlRange

/-! A tree with its root: the block and the offset where height, address and length are
kept, and what makes the tree that hangs off them well formed. -/

namespace Bpfs
open Lib

theorem rootNbytes_congr {m m' : Mem} {R o : Nat} (same : m' R = m R) :
    rootNbytes m' ⟨.bpram R, o⟩ = rootNbytes m ⟨.bpram R, o⟩ := by
  simp only [rootNbytes, ptrWord, BlockPtr.contents, same]

/-- The three fields of the root at offset `o` of block `R`. -/
structure RootIs (m : Mem) (R o h p n : Nat) : Prop where
  height : haHeight m ⟨.bpram R, o⟩ = h
  addr : treeRootAddr m ⟨.bpram R, o⟩ = p
  nbytes : rootNbytes m ⟨.bpram R, o⟩ = n

theorem rootIs_self (m : Mem) (R o : Nat) :
    RootIs m R o (haHeight m ⟨.bpram R, o⟩) (treeRootAddr m ⟨.bpram R, o⟩) (rootNbytes m ⟨.bpram R, o⟩) :=
  ⟨rfl, rfl, rfl⟩

theorem RootIs.congr {m m' : Mem} {R R' o h p n : Nat} (root : RootIs m R o h p n)
    (same : ∀ k, o ≤ k → k < o + 16 → m' R' k = m R k) : RootIs m' R' o h p n := by
  have word : wordAt m' R' o = wordAt m R o := by
    unfold wordAt
    apply leValue_congr
    intro k inside
    exact same _ (Nat.le_add_right _ _) (by omega)
  have length : wordAt m' R' (o + 8) = wordAt m R (o + 8) := by
    unfold wordAt
    apply leValue_congr
    intro k inside
    exact same _ (by omega) (by omega)
  obtain ⟨height, addr, nbytes⟩ := root
  refine ⟨?_, ?_, ?_⟩
  · change wordAt m' R' o % 8 = h
    rw [word]
    exact height
  · change (if wordAt m' R' (o + 8) = 0 then blocknoInvalid else wordAt m' R' o / 8) = p
    rw [word, length]
    exact addr
  · change wordAt m' R' (o + 8) = n
    rw [length]
    exact nbytes

theorem RootIs.addr_lt {m : Mem} {R o h p n : Nat} (root : RootIs m R o h p n) : p < 2 ^ 61 := by
  have small := wordAt_lt m R o
  rw [← root.addr]
  change (if _ then blocknoInvalid else wordAt m R o / 8) < _
  split
  · decide
  · exact Nat.div_lt_of_lt_mul small

theorem RootIs.hole {m : Mem} {R o h p : Nat} (root : RootIs m R o h p 0) : p = 0 := by
  rw [← root.addr, treeRootAddr, if_pos root.nbytes]
  rfl

theorem RootIs.nbytes_lt {m : Mem} {R o h p n : Nat} (root : RootIs m R o h p n) : n < 2 ^ 64 := by
  rw [← root.nbytes]
  exact wordAt_lt m R (o + 8)

theorem RootIs.height_lt {m : Mem} {R o h p n : Nat} (root : RootIs m R o h p n) : h < 8 := by
  rw [← root.height]
  exact Nat.mod_lt _ (by decide)

/-- `tree_root_height`. -/
theorem RootIs.treeRootHeight {m : Mem} {R o h p n : Nat} (root : RootIs m R o h p n) :
    treeRootHeight m ⟨.bpram R, o⟩ = if n = 0 then 0 else h := by
  unfold Bpfs.treeRootHeight
  rw [root.nbytes, root.height]

section Stores

variable {s : Fs} {R o : Nat} {Q : Unit → Fs → Prop} {E : Err → Fs → Prop}

theorem wp_storeRoot {off v : Nat} :
    wp (storeRoot ⟨.bpram R, o⟩ off v) Q E s ↔ Q () (s.store (wordWrite R (o + off) v)) := Iff.rfl

theorem wp_haSet {h p : Nat} (low : h < 8) (small : p < 2 ^ 61) :
    wp (haSet ⟨.bpram R, o⟩ h p) Q E s ↔ Q () (s.store (wordWrite R o (8 * p + h))) := by
  have one : h ≤ treeMaxHeight := Nat.le_of_lt_succ low
  have two : p ≤ treeRootMaxAddr := Nat.le_of_lt_succ small
  simp only [haSet, wp_bind, wp_check, one, two, wp_storeRoot, Nat.add_zero, forall_const, not_true, false_implies,
    and_true]

theorem wp_haSetAddr {h p n p' : Nat} (root : RootIs s.bpram R o h p n) (small : p' < 2 ^ 61) :
    wp (haSetAddr ⟨.bpram R, o⟩ p') Q E s ↔ Q () (s.store (wordWrite R o (8 * p' + h))) := by
  have two : p' ≤ treeRootMaxAddr := Nat.le_of_lt_succ small
  simp only [haSetAddr, wp_bind, wp_get, wp_check, two, wp_storeRoot, Nat.add_zero, forall_const, not_true,
    false_implies, and_true, root.height]

theorem wp_setNbytes {n : Nat} :
    wp (setNbytes ⟨.bpram R, o⟩ n) Q E s ↔ Q () (s.store (wordWrite R (o + 8) n)) := Iff.rfl

end Stores

/-- The root after a new height and address were stored. -/
theorem RootIs.setHa {m : Mem} {R o h p n : Nat} (root : RootIs m R o h p n) {h' p' : Nat} (low : h' < 8)
    (small : p' < 2 ^ 61) (some : n ≠ 0) : RootIs (m.apply (wordWrite R o (8 * p' + h'))) R o h' p' n := by
  have word : wordAt (m.apply (wordWrite R o (8 * p' + h'))) R o = 8 * p' + h' := wordAt_wordWrite (by omega)
  have length : wordAt (m.apply (wordWrite R o (8 * p' + h'))) R (o + 8) = wordAt m R (o + 8) :=
    wordAt_wordWrite_other (Or.inr (Or.inl (le_refl _)))
  have nbytes : wordAt m R (o + 8) = n := root.nbytes
  refine ⟨?_, ?_, length.trans nbytes⟩
  · change wordAt _ R o % 8 = h'
    rw [word]
    omega
  · change (if wordAt _ R (o + 8) = 0 then blocknoInvalid else wordAt _ R o / 8) = p'
    rw [length, nbytes, if_neg some, word]
    omega

/-- The same, in an empty file, where no address counts. -/
theorem RootIs.setHa_empty {m : Mem} {R o h p : Nat} (root : RootIs m R o h p 0) {h' p' : Nat} (low : h' < 8)
    (small : p' < 2 ^ 61) : RootIs (m.apply (wordWrite R o (8 * p' + h'))) R o h' 0 0 := by
  have word : wordAt (m.apply (wordWrite R o (8 * p' + h'))) R o = 8 * p' + h' := wordAt_wordWrite (by omega)
  have length : wordAt (m.apply (wordWrite R o (8 * p' + h'))) R (o + 8) = wordAt m R (o + 8) :=
    wordAt_wordWrite_other (Or.inr (Or.inl (le_refl _)))
  have nbytes : wordAt m R (o + 8) = 0 := root.nbytes
  refine ⟨?_, ?_, length.trans nbytes⟩
  · change wordAt _ R o % 8 = h'
    rw [word]
    omega
  · change (if wordAt _ R (o + 8) = 0 then blocknoInvalid else wordAt _ R o / 8) = 0
    rw [length, nbytes, if_pos rfl]
    rfl

/-- The root after a new length was stored. -/
theorem RootIs.setNbytes {m : Mem} {R o h p n : Nat} (root : RootIs m R o h p n) {n' : Nat} (small : n' < 2 ^ 64)
    (some : n' ≠ 0) (kept : n ≠ 0 ∨ haAddr m ⟨.bpram R, o⟩ = p) :
    RootIs (m.apply (wordWrite R (o + 8) n')) R o h p n' := by
  have word : wordAt (m.apply (wordWrite R (o + 8) n')) R o = wordAt m R o :=
    wordAt_wordWrite_other (Or.inr (Or.inr (le_refl _)))
  have length : wordAt (m.apply (wordWrite R (o + 8) n')) R (o + 8) = n' := wordAt_wordWrite small
  obtain ⟨height, addr, nbytes⟩ := root
  refine ⟨?_, ?_, length⟩
  · change wordAt _ R o % 8 = h
    rw [word]
    exact height
  · change (if wordAt _ R (o + 8) = 0 then blocknoInvalid else wordAt _ R o / 8) = p
    rw [length, if_neg some, word]
    rcases kept with before | same
    · rw [← addr, treeRootAddr, if_neg (by rw [nbytes]; exact before)]
      rfl
    · exact same

variable {L : Leaves}

/-- The blocks of the tree of height `h` at `p` that a file of `n` bytes has. -/
def rootBlocks (L : Leaves) (n : Nat) (m : Mem) (h p : Nat) : Set Nat := treeBlocks L m h 0 p (validIn n h 0)

/-- The tree behind the root at offset `o` of block `R` is right for a file of `n` bytes:
of height `h` and at `p`, and with nothing but holes beyond its capacity. -/
structure RootOk (L : Leaves) (x n : Nat) (m : Mem) (R o h p : Nat) : Prop where
  root : RootIs m R o h p n
  tree : TreeOk L x m h 0 p (validIn n h 0)
  beyond : ∀ i v, span h ≤ base i → base i + v ≤ n → L.ok x m i 0 v
  away : R ∉ rootBlocks L n m h p

/-- There is a right tree behind the root, and all its blocks are among `B`. -/
def RootWithin (L : Leaves) (x n : Nat) (m : Mem) (R o : Nat) (B : Set Nat) : Prop :=
  ∃ h p, RootOk L x n m R o h p ∧ rootBlocks L n m h p ⊆ B

theorem RootOk.within {x n : Nat} {m : Mem} {R o h p : Nat} {B : Set Nat} (ok : RootOk L x n m R o h p)
    (inside : rootBlocks L n m h p ⊆ B) : RootWithin L x n m R o B := ⟨h, p, ok, inside⟩

theorem RootWithin.mono {x n : Nat} {m : Mem} {R o : Nat} {B B' : Set Nat} (within : RootWithin L x n m R o B)
    (larger : B ⊆ B') : RootWithin L x n m R o B' := by
  obtain ⟨h, p, ok, inside⟩ := within
  exact ⟨h, p, ok, inside.trans larger⟩

theorem Leaves.hole_ok {x : Nat} {m m' : Mem} {i v : Nat} (ok : L.ok x m i 0 v) : L.ok x m' i 0 v :=
  L.local_ok (fun b member => by rw [L.hole_blocks] at member; cases member) ok

/-- The tree and the root's two words are all that counts. -/
theorem RootOk.congr {x n : Nat} {m m' : Mem} {R R' o h p : Nat} (ok : RootOk L x n m R o h p)
    (words : ∀ k, o ≤ k → k < o + 16 → m' R' k = m R k) (same : ∀ y ∈ rootBlocks L n m h p, m' y = m y)
    (away : R' ∉ rootBlocks L n m h p) :
    RootOk L x n m' R' o h p ∧ rootBlocks L n m' h p = rootBlocks L n m h p := by
  have blocks : rootBlocks L n m' h p = rootBlocks L n m h p := treeBlocks_congr same
  exact ⟨⟨ok.root.congr words, ok.tree.congr same, fun i v late inside => Leaves.hole_ok (ok.beyond i v late inside),
    by rwa [blocks]⟩, blocks⟩

end Bpfs
