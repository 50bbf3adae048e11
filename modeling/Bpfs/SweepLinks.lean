import Bpfs.SweepNode

/-! How the loop of a sweep begins and ends, and the ways in which it moves from one
block to the next: copying the old block, filling a hole in it, fetching a child from
disk. -/

namespace Bpfs
open Lib

namespace Sweep

variable {W : Sweep} {s0 s t : Fs} {h i p b k no : Nat} {q : Nat → Nat}

/-- The old subtree in a memory that agrees with it. -/
theorem old_congr {m m' : Mem} (old : W.Holds W.lo W.g m (h + 1) i p)
    (same : ∀ y ∈ W.owned W.g m (h + 1) i p, m' y = m y) :
    W.Holds W.lo W.g m' (h + 1) i p ∧ W.owned W.g m' (h + 1) i p = W.owned W.g m (h + 1) i p ∧
      (p ≠ 0 → ∀ j, j < 512 → W.oldKid m' h i p j = W.oldKid m h i p j) := by
  refine ⟨old.congr same, treeBlocks_congr same, fun present j smallJ => ?_⟩
  by_cases none : validIn W.g (h + 1) i = 0
  · rw [oldKid_empty none, oldKid_empty none]
  have root : slot m' p = slot m p := slot_congr (same p ((mem_owned_old none present).mpr (Or.inl rfl)))
  unfold oldKid kidBlocks
  rw [root]
  exact treeBlocks_congr (fun y member => same y ((mem_owned_old none present).mpr (Or.inr ⟨j, smallJ, member⟩)))

/-- The old block is copied, and the copy takes over. -/
theorem Mid.copy (mid : W.Mid s0 h i p q p no s) {b' : Nat} (fresh : Fresh s b' {p} t)
    (copied : ∀ o, o < blockSize → t.bpram b' o = s.bpram p o) :
    W.Mid s0 h i p q b' no t ∧ ∀ k, k < 512 → addrAt t.bpram b' k = addrAt s.bpram p k := by
  have present : p ≠ 0 := by have := mid.node.1; omega
  have new : ∀ y, Held s y → y ≠ b' := fun y held same => fresh.unused.not_held mid.ok (same ▸ held)
  have same : ∀ y, Held s y → t.bpram y = s.bpram y := fun y held => fresh.through.last y (new y held)
  obtain ⟨kids, blocks⟩ := mid.kids.congr
    (fun k small y member => same y ((mid.live k small).held member))
  have blocks' : ∀ k, k < 512 → W.kidOwned (W.reach h i no) t.bpram h i q k =
    W.kidOwned (W.reach h i no) s.bpram h i q k := blocks
  have old := fun (m : Mem) (agree : ∀ y, y ≠ b' → m y = s.bpram y) =>
    old_congr mid.crash.last.2.1 (fun y member => agree y (new y (mid.old_held y member)))
  obtain ⟨-, oldOwned, oldKids⟩ := old t.bpram fresh.through.last
  have taken : Taken s t b' := ⟨fresh.unused, (fresh.allocated b').mpr (Or.inr rfl)⟩
  have freed : ∀ y, Freed t y → Freed s y ∨ y = p := fun y gone => (fresh.freed y).mp gone
  refine ⟨{
    start := mid.start
    grow := mid.grow.trans fresh.grow
    disk := fresh.disk.symm ▸ mid.disk
    node := ⟨fresh.unused.1, fresh.unused.lt mid.ok⟩
    used := ⟨taken.2, fresh.not_freed mid.ok (fun y equal => equal ▸ mid.used.1)⟩
    own := Or.inr (mid.grow.taken fresh.grow (Or.inr taken))
    pointer := mid.pointer.imp_right (And.imp_left fresh.grow.allocated)
    kids := kids
    away := fun k small => by
      rw [blocks' k small]
      exact ⟨fun member => new b' ((mid.live k small).held member) rfl, (mid.away k small).2⟩
    live := fun k small y member => by
      rw [blocks' k small] at member
      refine (mid.live k small y member).imp_left (fun inUse => ⟨fresh.grow.allocated inUse.1, fun gone => ?_⟩)
      rcases freed y gone with before | root
      · exact inUse.2 before
      · exact (mid.away k small).2 (root ▸ member)
    blocks := fun k small y member => by
      rw [blocks' k small] at member
      exact (mid.blocks k small y member).imp_right (fun early => mid.grow.taken fresh.grow (Or.inl early))
    freed := fun y gone => by
      rcases freed y gone with before | root
      · exact (mid.freed y before).imp_right
          (Or.imp_right (fun early => mid.grow.taken fresh.grow (Or.inl early)))
      · exact Or.inr (Or.inl (root ▸ (mid.pointer.resolve_left present).2))
    crash := (mid.crash.mono (fun m seen => ⟨seen.1, seen.2.later fresh.grow⟩)).trans
      (fresh.through.mono (fun m agree => ⟨fun y held outside => by
        rw [agree y (new y (mid.grow.held held))]
        exact mid.crash.last.1 y held outside, (old m agree).1, fun y member => by
          rw [(old m agree).2.1] at member
          exact (mid.crash.last.2.later fresh.grow).2 y member⟩))
    old_held := fun y member => by
      rw [oldOwned] at member
      exact fresh.grow.held (mid.old_held y member)
    old_away := fun _ member => by
      rw [oldOwned] at member
      exact new b' (mid.old_held b' member) rfl
    old_same := fun _ k small later some => by
      rw [oldKids present k small, blocks' k small,
        show addrAt t.bpram p k = addrAt s.bpram p k by
          simp only [addrAt, wordAt, same p (mid.held_pointer present)]]
      exact mid.old_same present k small later some
    old_apart := fun _ j k smallJ small ne => by
      rw [oldKids present j smallJ, blocks' k small]
      exact mid.old_apart present j k smallJ small ne }, fun k small => ?_⟩
  unfold addrAt wordAt
  apply leValue_congr
  intro n inside
  apply copied
  simp only [blockSize]
  omega

theorem validIn_mono {n n' h i : Nat} (le : n ≤ n') : validIn n h i ≤ validIn n' h i := by
  simp only [validIn]
  omega

/-- The old block's entry for child `l` is overwritten with the child that has been built
for it; as far as the old file goes the two read the same. -/
theorem Mid.relink (mid : W.Mid s0 h i p q p no s) {l : Nat} (small : l < 512) (fits : q l < 2 ^ 64)
    (reads : W.Holds W.lo W.g s.bpram h (kid h i l) (q l)) :
    W.Mid s0 h i p q p no (s.store (slotWrite p l (q l))) := by
  have present : p ≠ 0 := by have := mid.node.1; omega
  obtain ⟨usedP, rootMine⟩ := mid.pointer.resolve_left present
  have other : ∀ y, y ≠ p → (s.store (slotWrite p l (q l))).bpram y = s.bpram y := fun y ne => apply_other ne
  have sameKids : ∀ k, k < 512 → ∀ y ∈ W.kidOwned (W.reach h i no) s.bpram h i q k,
      (s.store (slotWrite p l (q l))).bpram y = s.bpram y :=
    fun k smallK y member => other y (fun same => (mid.away k smallK).2 (same ▸ member))
  obtain ⟨kids, blocks⟩ := mid.kids.congr sameKids
  have blocks' : ∀ k, k < 512 → W.kidOwned (W.reach h i no) (s.store (slotWrite p l (q l))).bpram h i q k =
    W.kidOwned (W.reach h i no) s.bpram h i q k := blocks
  -- what the entry is replaced by is part of what child `l` owns in the new block
  have part : W.owned W.g s.bpram h (kid h i l) (q l) ⊆ W.kidOwned (W.reach h i no) s.bpram h i q l := by
    rw [W.kidOwned_eq small]
    exact treeBlocks_mono (validIn_mono (Nat.le_max_left _ _))
  have untouched : ∀ y ∈ W.owned W.g s.bpram h (kid h i l) (q l),
      (s.store (slotWrite p l (q l))).bpram y = s.bpram y := fun y member => sameKids l small y (part member)
  have entry : slot (s.store (slotWrite p l (q l))).bpram p l = q l := by
    rw [slot, if_neg present]
    exact addrAt_slotWrite fits
  have newKid : W.oldKid (s.store (slotWrite p l (q l))).bpram h i p l =
      W.owned W.g s.bpram h (kid h i l) (q l) := by
    rw [W.oldKid_eq small, entry]
    exact W.owned_congr untouched
  have otherKid : ∀ j, j < 512 → j ≠ l →
      W.oldKid (s.store (slotWrite p l (q l))).bpram h i p j = W.oldKid s.bpram h i p j := by
    intro j smallJ ne
    by_cases none : validIn W.g (h + 1) i = 0
    · rw [oldKid_empty none, oldKid_empty none]
    obtain ⟨-, -, away⟩ := treeOk_node.mp mid.crash.last.2.1 none
    have keep : slot (s.store (slotWrite p l (q l))).bpram p j = slot s.bpram p j := by
      rw [slot, slot, if_neg present, if_neg present]
      exact addrAt_slotWrite_other (Or.inr ne)
    unfold oldKid kidBlocks
    rw [keep]
    exact treeBlocks_congr (fun y member => other y (fun same => away j smallJ (same ▸ member)))
  have holds : W.Holds W.lo W.g (s.store (slotWrite p l (q l))).bpram (h + 1) i p := by
    by_cases none : validIn W.g (h + 1) i = 0
    · unfold Holds
      rw [none]
      exact treeOk_empty ..
    refine (TreeOk.relink mid.crash.last.2.1 none present small fits ?_ ?_).1
    · rw [share_validIn _ _ _ _ small]
      exact reads.congr untouched
    · intro y member
      rw [share_validIn _ _ _ _ small] at member
      replace member : y ∈ W.owned W.g s.bpram h (kid h i l) (q l) := by
        rw [← W.owned_congr untouched]
        exact member
      refine ⟨fun same => (mid.away l small).2 (same ▸ part member), fun j smallJ ne inside => ?_⟩
      exact mid.old_apart present j l smallJ small ne y inside (part member)
  have owned : ∀ y ∈ W.owned W.g (s.store (slotWrite p l (q l))).bpram (h + 1) i p,
      y = p ∨ y ∈ W.owned W.g s.bpram (h + 1) i p ∨ y ∈ W.kidOwned (W.reach h i no) s.bpram h i q l := by
    intro y member
    have some := (owned_some member).1
    rcases (mem_owned_old some present).mp member with root | ⟨j, smallJ, below⟩
    · exact Or.inl root
    · by_cases this : j = l
      · subst this
        rw [newKid] at below
        exact Or.inr (Or.inr (part below))
      · rw [otherKid j smallJ this] at below
        exact Or.inr (Or.inl ((mem_owned_old some present).mpr (Or.inr ⟨j, smallJ, below⟩)))
  have kept : Keeps s0 (W.mine s0 (h + 1) i p) (s.store (slotWrite p l (q l))).bpram := by
    intro y held outside
    rw [other y (fun same => outside (same ▸ rootMine))]
    exact mid.crash.last.1 y held outside
  exact {
    start := mid.start
    grow := mid.grow.trans (grow_store _)
    disk := mid.disk
    node := mid.node
    used := mid.used
    own := mid.own
    pointer := mid.pointer
    kids := kids
    away := fun k smallK => by rw [blocks' k smallK]; exact mid.away k smallK
    live := fun k smallK => by rw [blocks' k smallK]; exact mid.live k smallK
    blocks := fun k smallK => by rw [blocks' k smallK]; exact mid.blocks k smallK
    freed := mid.freed
    crash := mid.crash.trans (through_store ⟨mid.crash.last.1, mid.crash.last.2⟩
      ⟨kept, holds, fun y member => by
        rcases owned y member with root | before | inside
        · exact Or.inl (root ▸ rootMine)
        · exact mid.crash.last.2.2 y before
        · exact mid.blocks l small y inside⟩ (fun loose => by cases loose))
    old_held := fun y member => by
      rcases owned y member with root | before | inside
      · rw [root]
        exact Or.inl usedP
      · exact mid.old_held y before
      · exact (mid.live l small).held inside
    old_away := fun ne => absurd rfl ne
    old_same := fun _ k smallK later some => by
      by_cases this : k = l
      · subst this
        exact Or.inl (addrAt_slotWrite fits).symm
      · rw [otherKid k smallK this, blocks' k smallK,
          show addrAt (s.store (slotWrite p l (q l))).bpram p k = addrAt s.bpram p k from
            addrAt_slotWrite_other (Or.inr this)]
        exact mid.old_same present k smallK later some
    old_apart := fun _ j k smallJ smallK ne y member => by
      rw [blocks' k smallK]
      by_cases this : j = l
      · subst this
        rw [newKid] at member
        exact mid.kids.apart j k smallJ smallK ne y (part member)
      · rw [otherKid j smallJ this] at member
        exact mid.old_apart present j k smallJ smallK ne y member }

theorem Mid.setDisk (mid : W.Mid s0 h i p q b no s) {dm : DiskManager} (disk : W.disk dm) :
    W.Mid s0 h i p q b no { s with disk := dm } :=
  { mid with
    grow := mid.grow.trans ⟨.refl _, le_refl _, rfl, rfl, rfl⟩
    disk := disk
    crash := mid.crash.trans (Through.still rfl rfl mid.crash.last) }

/-- A leaf on disk was read into block `nb`, which stands in for it from now on. -/
theorem Mid.fetched (mid : W.Mid s0 0 i p q b k s) (small : k < 512) {nb : Nat} (fresh : Fresh s nb ∅ t)
    (reads : ∀ x v, v ≠ 0 → W.leaves.ok x s.bpram (kid 0 i k) (q k) v →
      W.leaves.ok x t.bpram (kid 0 i k) nb v ∧ W.leaves.blocks t.bpram (kid 0 i k) nb v = {nb}) :
    W.Mid s0 0 i p (moved q k nb) b k t := by
  have new : ∀ y, Held s y → y ≠ nb := fun y held same => fresh.unused.not_held mid.ok (same ▸ held)
  have same : ∀ y, Held s y → t.bpram y = s.bpram y := fun y held => fresh.through.last y (new y held)
  have taken : Taken s t nb := ⟨fresh.unused, (fresh.allocated nb).mpr (Or.inr rfl)⟩
  have freed : ∀ y, Freed t y → Freed s y := fun y gone => by
    rcases (fresh.freed y).mp gone with before | nothing
    · exact before
    · cases nothing
  have newKid : ∀ y ∈ W.kidOwned (W.reach 0 i k) t.bpram 0 i (moved q k nb) k, y = nb := by
    intro y member
    rw [W.kidOwned_eq small, moved_self] at member
    by_cases none : validIn (max W.g (W.reach 0 i k)) 0 (kid 0 i k) = 0
    · simp [owned, none] at member
    · have leaf := mid.kids.ok k small
      rw [share_validIn _ _ _ _ small] at leaf
      simp only [owned, treeBlocks, none, if_false] at member
      rw [(reads _ _ none (leaf none)).2] at member
      exact member
  obtain ⟨kids, blocks⟩ := mid.kids.replace (W.reach 0 i k) (validIn (max W.g (W.reach 0 i k)) (0 + 1) i)
    t.bpram (moved q k nb) k
    (fun j smallJ _ y member => same y ((mid.live j smallJ).held member))
    (fun j _ ne => moved_other ne) (fun _ _ _ => rfl) (fun _ _ _ => rfl)
    (by
      have leaf := mid.kids.ok k small
      rw [moved_self]
      exact fun some => (reads _ _ some (leaf some)).1)
    (fun j smallJ _ y member inside => new y ((mid.live j smallJ).held member) (newKid y inside))
  have blocks' : ∀ j, j < 512 → j ≠ k → W.kidOwned (W.reach 0 i k) t.bpram 0 i (moved q k nb) j =
    W.kidOwned (W.reach 0 i k) s.bpram 0 i q j := blocks
  have old := fun (m : Mem) (agree : ∀ y, y ≠ nb → m y = s.bpram y) =>
    old_congr mid.crash.last.2.1 (fun y member => agree y (new y (mid.old_held y member)))
  obtain ⟨-, oldOwned, oldKids⟩ := old t.bpram fresh.through.last
  have heldB : Held s b := Or.inl mid.used.1
  have pAway : p ≠ nb := by
    rcases mid.pointer with hole | inUse
    · have := fresh.unused.1
      omega
    · exact new p (Or.inl inUse.1)
  exact {
    start := mid.start
    grow := mid.grow.trans fresh.grow
    disk := fresh.disk.symm ▸ mid.disk
    node := mid.node
    used := ⟨fresh.grow.allocated mid.used.1, fun gone => mid.used.2 (freed b gone)⟩
    own := mid.own.imp_right (fun early => mid.grow.taken fresh.grow (Or.inl early))
    pointer := mid.pointer.imp_right (And.imp_left fresh.grow.allocated)
    kids := kids
    away := fun j smallJ => by
      by_cases this : j = k
      · subst this
        exact ⟨fun member => new b heldB (newKid b member), fun member => pAway (newKid p member)⟩
      · rw [blocks' j smallJ this]
        exact mid.away j smallJ
    live := fun j smallJ y member => by
      by_cases this : j = k
      · subst this
        rw [newKid y member]
        exact Or.inl ⟨taken.2, fresh.not_freed mid.ok (fun _ nothing => by cases nothing)⟩
      · rw [blocks' j smallJ this] at member
        exact (mid.live j smallJ y member).imp_left
          (fun inUse => ⟨fresh.grow.allocated inUse.1, fun gone => inUse.2 (freed y gone)⟩)
    blocks := fun j smallJ y member => by
      by_cases this : j = k
      · subst this
        rw [newKid y member]
        exact Or.inr (mid.grow.taken fresh.grow (Or.inr taken))
      · rw [blocks' j smallJ this] at member
        exact (mid.blocks j smallJ y member).imp_right (fun early => mid.grow.taken fresh.grow (Or.inl early))
    freed := fun y gone => (mid.freed y (freed y gone)).imp_right
      (Or.imp_right (fun early => mid.grow.taken fresh.grow (Or.inl early)))
    crash := (mid.crash.mono (fun m seen => ⟨seen.1, seen.2.later fresh.grow⟩)).trans
      (fresh.through.mono (fun m agree => ⟨fun y held outside => by
        rw [agree y (new y (mid.grow.held held))]
        exact mid.crash.last.1 y held outside, (old m agree).1, fun y member => by
          rw [(old m agree).2.1] at member
          exact (mid.crash.last.2.later fresh.grow).2 y member⟩))
    old_held := fun y member => by
      rw [oldOwned] at member
      exact fresh.grow.held (mid.old_held y member)
    old_away := fun ne member => by
      rw [oldOwned] at member
      exact mid.old_away ne member
    old_same := fun present j smallJ later some => by
      rw [oldKids present j smallJ]
      by_cases this : j = k
      · subst this
        exact Or.inr (fun y member inside => new y (mid.old_held y ((mem_owned_old (oldKid_some member)
          present).mpr (Or.inr ⟨j, smallJ, member⟩))) (newKid y inside))
      · rw [blocks' j smallJ this, moved_other this,
          show addrAt t.bpram p j = addrAt s.bpram p j by
            simp only [addrAt, wordAt, same p (mid.held_pointer present)]]
        exact mid.old_same present j smallJ later some
    old_apart := fun present j l smallJ smallL ne y member => by
      rw [oldKids present j smallJ] at member
      by_cases this : l = k
      · subst this
        exact fun inside => new y (mid.old_held y ((mem_owned_old (oldKid_some member) present).mpr
          (Or.inr ⟨j, smallJ, member⟩))) (newKid y inside)
      · rw [blocks' l smallL this]
        exact mid.old_apart present j l smallJ smallL ne y member }

/-! ### Beginning and end of the loop -/

/-- The visit of the indirect block of height `h + 1` at leaf `i`. -/
def visit (W : Sweep) (h i : Nat) (low : h + 1 ≤ 6) (meets : enter W.lo i < leave W.hi (h + 1) i) : Visit :=
  ⟨W.g, W.lo, W.hi, h, i, low, W.bounded, meets⟩

section Ends

variable (low : h + 1 ≤ 6) (meets : enter W.lo i < leave W.hi (h + 1) i)

theorem reach_first : W.reach h i (W.visit h i low meets).firstno = enter W.lo i := by
  have first := (W.visit h i low meets).firstno_bounds
  change base i + _ * span h ≤ enter W.lo i ∧ enter W.lo i < base i + _ * span h + span h at first
  have range := meets
  simp only [reach, enter, leave] at first range ⊢
  omega

theorem valid_first : validIn (max W.g (enter W.lo i)) (h + 1) i = validIn (max W.g W.lo) (h + 1) i := by
  simp only [validIn, enter]
  omega

theorem clamp_first : clampTo W.lo (base i) (base i + span (h + 1)) =
    clampTo (enter W.lo i) (base i) (base i + span (h + 1)) := by
  simp only [clampTo, enter]
  omega

theorem reach_last : clampTo (W.reach h i ((W.visit h i low meets).lastno + 1)) (base i) (base i + span (h + 1)) =
      clampTo W.hi (base i) (base i + span (h + 1)) ∧
    validIn (max W.g (W.reach h i ((W.visit h i low meets).lastno + 1))) (h + 1) i =
      validIn (max W.g W.hi) (h + 1) i := by
  have last := (W.visit h i low meets).lastno_bounds
  have room := mul_span_le (h := h) (W.visit h i low meets).lastno_lt
  have ordered := W.ordered
  change base i + _ * span h < leave W.hi (h + 1) i ∧ leave W.hi (h + 1) i ≤ base i + _ * span h + span h at last
  simp only [reach, leave, clampTo, validIn, Nat.succ_mul] at *
  omega

end Ends

theorem base_le_kid (h i k : Nat) : base i ≤ base (kid h i k) := by
  rw [base_kid]
  omega

/-- A child behind the file's end may be taken for missing. -/
theorem holds_missing {m : Mem} {x : Nat} (first : x = enter W.lo i) (behind : W.g ≤ base (kid h i k)) :
    TreeOk W.leaves x m h (kid h i k) 0 (validIn (max W.g x) h (kid h i k)) := by
  by_cases none : validIn (max W.g x) h (kid h i k) = 0
  · rw [none]
    exact treeOk_empty ..
  have inside := base_le_kid h i k
  have start : x = W.lo := by
    simp only [validIn, enter] at *
    omega
  subst start
  refine treeOk_of_holes (Nat.min_le_right _ _) (fun j n later _ _ short => W.gap m j n ?_ ?_)
  · have := Nat.mul_le_mul_left blockSize later
    simp only [base] at *
    omega
  · simp only [validIn, base] at *
    omega

/-- The entries as the loop takes them: behind the file's end nothing is looked at. -/
def firstEntries (W : Sweep) (m : Mem) (h i p first : Nat) : Nat → Nat :=
  fun k => if first ≤ k ∧ W.g ≤ base (kid h i k) then 0 else addrAt m p k

/-- The loop begins on an indirect block that exists. -/
theorem Mid.begin (ready : W.Ready s (h + 1) i p) (present : p ≠ 0) (low : h + 1 ≤ 6)
    (meets : enter W.lo i < leave W.hi (h + 1) i) :
    W.Mid s h i p (W.firstEntries s.bpram h i p (W.visit h i low meets).firstno) p
      (W.visit h i low meets).firstno s := by
  have born : base i < W.g := by
    by_contra behind
    exact present (ready.unborn (by omega))
  have pos := span_pos (h + 1)
  have some : validIn (max W.g W.lo) (h + 1) i ≠ 0 := by
    simp only [validIn]
    omega
  have visible : validIn W.g (h + 1) i ≠ 0 := by
    simp only [validIn]
    omega
  obtain ⟨pointer, kids, away⟩ := treeOk_node.mp ready.tree some
  have rootMine : p ∈ W.mine s (h + 1) i p := (mem_treeBlocks_succ some present).mpr (Or.inl rfl)
  have below : ∀ k, k < 512 → ∀ y ∈ kidBlocks W.leaves s.bpram h i (slot s.bpram p)
      (validIn (max W.g W.lo) (h + 1) i) k, y ∈ W.mine s (h + 1) i p :=
    fun k small y member => (mem_treeBlocks_succ some present).mpr (Or.inr ⟨k, small, member⟩)
  obtain ⟨usedP, keptP⟩ : Allocated s p ∧ ¬Freed s p := by
    rcases ready.live p rootMine with inUse | disk
    · exact inUse
    · have := pointer.resolve_left present
      omega
  have start := reach_first (W := W) low meets
  -- each child is the one in memory, or one taken for missing that owns nothing
  have blocks : ∀ k, k < 512 → W.kidOwned (W.reach h i (W.visit h i low meets).firstno) s.bpram h i
      (W.firstEntries s.bpram h i p (W.visit h i low meets).firstno) k ⊆
      kidBlocks W.leaves s.bpram h i (slot s.bpram p) (validIn (max W.g W.lo) (h + 1) i) k := by
    intro k small y member
    unfold kidOwned kidBlocks firstEntries at member
    rw [start, valid_first] at member
    split at member
    · simp at member
    · rw [kidBlocks, slot, if_neg present]
      exact member
  refine {
    start := ready.ok
    grow := .refl s
    disk := ready.disk
    node := pointer.resolve_left present
    used := ⟨usedP, keptP⟩
    own := Or.inl rfl
    pointer := Or.inr ⟨usedP, rootMine⟩
    kids := ⟨fun k small => ?_, fun j k smallJ small ne y member inside => ?_⟩
    away := fun k small => ⟨fun member => away k small (blocks k small member),
      fun member => away k small (blocks k small member)⟩
    live := fun k small y member => ready.live y (below k small y (blocks k small member))
    blocks := fun k small y member => Or.inl (below k small y (blocks k small member))
    freed := fun y gone => Or.inl gone
    crash := Through.still rfl rfl ⟨fun _ _ _ => rfl, ready.tree.mono (validIn_mono (Nat.le_max_left _ _)),
      fun y member => Or.inl (treeBlocks_mono (validIn_mono (Nat.le_max_left _ _)) member)⟩
    old_held := fun y member => ready.live.held
      (treeBlocks_mono (validIn_mono (Nat.le_max_left _ _)) member)
    old_away := fun ne => absurd rfl ne
    old_same := fun _ k small later seen => Or.inl ?_
    old_apart := fun _ j k smallJ small ne y member inside => ?_ }
  · rw [start, valid_first]
    unfold firstEntries
    split
    · next missing =>
      have hole := holds_missing (W := W) (m := s.bpram) (x := enter W.lo i) rfl missing.2
      rwa [← share_validIn _ _ _ _ small, valid_first] at hole
    · have tree := kids.ok k small
      rw [slot, if_neg present] at tree
      have inside := mul_span_le (h := h) small
      refine tree.clamp (clampTo_sub (clamp_first (h := h)) ?_ ?_ ?_)
      all_goals
        have := base_kid h i k
        simp only [base, kid] at *
        omega
  · exact kids.apart j k smallJ small ne y (blocks j smallJ member) (blocks k small inside)
  · unfold firstEntries
    rw [if_neg]
    rintro ⟨-, behind⟩
    simp only [validIn] at seen
    omega
  · exact kids.apart j k smallJ small ne y
      (treeBlocks_mono (share_mono (validIn_mono (Nat.le_max_left _ _))) member) (blocks k small inside)

/-- The loop begins on a new block that stands for a missing one. -/
theorem Mid.beginHole (ready : W.Ready s (h + 1) i 0) (low : h + 1 ≤ 6)
    (meets : enter W.lo i < leave W.hi (h + 1) i) (fresh : Fresh s b ∅ t) :
    W.Mid s h i 0 (fun _ => 0) b (W.visit h i low meets).firstno t := by
  have start := reach_first (W := W) low meets
  have nothing : ∀ n m, W.owned n m (h + 1) i 0 = ∅ := fun n m => treeBlocks_hole _ _ _ _
  have noKids : ∀ x m k, W.kidOwned x m h i (fun _ => 0) k = ∅ := fun x m k => treeBlocks_hole _ _ _ _
  have taken : Taken s t b := ⟨fresh.unused, (fresh.allocated b).mpr (Or.inr rfl)⟩
  have hole : ∀ m, W.Holds W.lo (max W.g W.lo) m (h + 1) i 0 := fun m =>
    ready.tree.congr (fun y member => by
      rw [show treeBlocks W.leaves s.bpram (h + 1) i 0 (validIn (max W.g W.lo) (h + 1) i) = ∅ from
        nothing _ _] at member
      cases member)
  refine {
    start := ready.ok
    grow := fresh.grow
    disk := fresh.disk.symm ▸ ready.disk
    node := ⟨fresh.unused.1, fresh.unused.lt ready.ok⟩
    used := ⟨taken.2, fresh.not_freed ready.ok (fun _ nothing => by cases nothing)⟩
    own := Or.inr taken
    pointer := Or.inl rfl
    kids := ⟨fun k small => ?_, fun j k _ _ _ y member => ?_⟩
    away := fun k _ => by rw [noKids]; exact ⟨Set.notMem_empty _, Set.notMem_empty _⟩
    live := fun k _ y member => by rw [noKids] at member; cases member
    blocks := fun k _ y member => by rw [noKids] at member; cases member
    freed := fun y gone => by
      rcases (fresh.freed y).mp gone with before | none
      · exact Or.inl before
      · cases none
    crash := fresh.through.mono (fun m agree => ⟨fun y held _ => agree y (fun same =>
        fresh.unused.not_held ready.ok (same ▸ held)),
      (hole m).mono (validIn_mono (Nat.le_max_left _ _)), fun y member => by rw [nothing] at member; cases member⟩)
    old_held := fun y member => by rw [nothing] at member; cases member
    old_away := fun _ member => by rw [nothing] at member; cases member
    old_same := fun present => absurd rfl present
    old_apart := fun present => absurd rfl present }
  · rw [start, valid_first]
    by_cases none : validIn (max W.g W.lo) (h + 1) i = 0
    · rw [none, share_zero]
      exact treeOk_empty ..
    obtain ⟨-, kids, -⟩ := treeOk_node.mp (hole t.bpram) none
    have tree := kids.ok k small
    rw [slot, if_pos rfl] at tree
    have inside := mul_span_le (h := h) small
    refine tree.clamp (clampTo_sub (clamp_first (h := h)) ?_ ?_ ?_)
    all_goals
      have := base_kid h i k
      simp only [base, kid] at *
      omega
  · rw [show kidBlocks W.leaves t.bpram h i (fun _ => 0) _ j = ∅ from treeBlocks_hole _ _ _ _] at member
    cases member

/-- When the loop is through, and every entry that counts is in block `b`, the block is
the new subtree. -/
theorem holds_of_kids (low : h + 1 ≤ 6) (meets : enter W.lo i < leave W.hi (h + 1) i) {m : Mem}
    (node : 3 ≤ b ∧ b < 2 ^ 61)
    (kids : Kids W.leaves (W.reach h i ((W.visit h i low meets).lastno + 1)) m h i q
      (validIn (max W.g (W.reach h i ((W.visit h i low meets).lastno + 1))) (h + 1) i))
    (away : ∀ k, k < 512 → b ∉ W.kidOwned (W.reach h i ((W.visit h i low meets).lastno + 1)) m h i q k)
    (stored : ∀ k, k < 512 → validIn (max W.g W.hi) h (kid h i k) ≠ 0 → q k = addrAt m b k) :
    W.Holds W.hi (max W.g W.hi) m (h + 1) i b ∧
      ∀ y ∈ W.owned (max W.g W.hi) m (h + 1) i b, y = b ∨
        ∃ k, k < 512 ∧ y ∈ W.kidOwned (W.reach h i ((W.visit h i low meets).lastno + 1)) m h i q k := by
  obtain ⟨clamp, valid⟩ := reach_last (W := W) low meets
  have present : b ≠ 0 := by omega
  have entry : ∀ k, k < 512 → validIn (max W.g W.hi) h (kid h i k) ≠ 0 → slot m b k = q k := by
    intro k small some
    rw [slot, if_neg present, stored k small some]
  have blocks : ∀ k, k < 512 → kidBlocks W.leaves m h i (slot m b) (validIn (max W.g W.hi) (h + 1) i) k =
      W.kidOwned (W.reach h i ((W.visit h i low meets).lastno + 1)) m h i q k := by
    intro k small
    unfold kidOwned kidBlocks
    rw [valid, share_validIn _ _ _ _ small]
    by_cases none : validIn (max W.g W.hi) h (kid h i k) = 0
    · rw [none, treeBlocks_empty, treeBlocks_empty]
    · rw [entry k small none]
  refine ⟨treeOk_node.mpr (fun some => ⟨Or.inr node, ⟨fun k small => ?_, ?_⟩, fun k small => ?_⟩), ?_⟩
  · have tree := kids.ok k small
    rw [valid, share_validIn _ _ _ _ small] at tree
    rw [share_validIn _ _ _ _ small]
    by_cases none : validIn (max W.g W.hi) h (kid h i k) = 0
    · rw [none]
      exact treeOk_empty ..
    · rw [entry k small none]
      have inside := mul_span_le (h := h) small
      refine tree.clamp (clampTo_sub clamp ?_ ?_ ?_)
      all_goals
        have := base_kid h i k
        simp only [base, kid] at *
        omega
  · intro j k smallJ small ne y member
    rw [blocks j smallJ] at member
    rw [blocks k small]
    exact kids.apart j k smallJ small ne y member
  · rw [blocks k small]
    exact away k small
  · intro y member
    by_cases none : validIn (max W.g W.hi) (h + 1) i = 0
    · simp [owned, none] at member
    rcases (mem_treeBlocks_succ none present).mp member with root | ⟨k, small, below⟩
    · exact Or.inl root
    · exact Or.inr ⟨k, small, by rwa [← blocks k small]⟩

/-- The end of a loop nobody has noticed. -/
theorem Mid.finish (low : h + 1 ≤ 6) (meets : enter W.lo i < leave W.hi (h + 1) i)
    (mid : W.Mid s0 h i p q b ((W.visit h i low meets).lastno + 1) s)
    (stored : ∀ k, k < 512 → validIn (max W.g W.hi) h (kid h i k) ≠ 0 → q k = addrAt s.bpram b k) :
    W.NewAt s0 s (h + 1) i p b s.bpram ∧ Live s (W.owned (max W.g W.hi) s.bpram (h + 1) i b) := by
  obtain ⟨holds, owned⟩ := holds_of_kids low meets mid.node mid.kids (fun k small => (mid.away k small).1) stored
  refine ⟨⟨holds, fun y member => ?_⟩, fun y member => ?_⟩
  · rcases owned y member with root | ⟨k, small, inside⟩
    · rcases mid.own with same | taken
      · have present : p ≠ 0 := by have := mid.node.1; omega
        left
        rw [root, same]
        exact (mid.pointer.resolve_left present).2
      · exact Or.inr (root ▸ taken)
    · exact mid.blocks k small y inside
  · rcases owned y member with root | ⟨k, small, inside⟩
    · rw [root]
      exact Or.inl mid.used
    · exact mid.live k small y inside

end Sweep

end Bpfs
