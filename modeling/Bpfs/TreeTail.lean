import Bpfs.TreeHeights

/-! `truncate_block_zero`: before a file grows, the rest of its last block is zeroed and the entries
behind it are dropped, so that stale bytes and pointers beyond the old end do not come back. -/

namespace Bpfs
open Lib

variable {s t u : Fs} {B B' : Nat → Prop}

/-- From `s` to `t` there were only stores to blocks of `B`. -/
def Touched (B : Nat → Prop) (s t : Fs) : Prop :=
  ∃ ws, t.writes = s.writes ++ ws ∧ t.bpram = s.bpram.applyAll ws ∧ ∀ w ∈ ws, B w.blk

namespace Touched

theorem refl (s : Fs) : Touched B s s := by
  refine ⟨[], by rw [List.append_nil], rfl, fun w never => ?_⟩
  cases never

theorem store {w : Write} (inside : B w.blk) : Touched B s (s.store w) := by
  refine ⟨[w], rfl, rfl, fun v member => ?_⟩
  rw [List.mem_singleton.mp member]
  exact inside

theorem trans (first : Touched B s t) (second : Touched B t u) : Touched B s u := by
  obtain ⟨ws, log, memory, inside⟩ := first
  obtain ⟨vs, log', memory', inside'⟩ := second
  refine ⟨ws ++ vs, by rw [log', log, List.append_assoc], by rw [memory', memory, applyAll_append], ?_⟩
  intro w member
  rcases List.mem_append.mp member with early | late
  · exact inside w early
  · exact inside' w late

theorem mono (touched : Touched B s t) (larger : ∀ b, B b → B' b) : Touched B' s t := by
  obtain ⟨ws, log, memory, inside⟩ := touched
  exact ⟨ws, log, memory, fun w member => larger w.blk (inside w member)⟩

theorem other (touched : Touched B s t) {b : Nat} (outside : ¬B b) : t.bpram b = s.bpram b := by
  obtain ⟨ws, -, memory, inside⟩ := touched
  rw [memory]
  clear memory
  generalize s.bpram = m
  induction ws generalizing m with
  | nil => rfl
  | cons w ws ih =>
    rw [applyAll_cons, ih (fun v member => inside v (List.mem_cons_of_mem _ member))]
    apply apply_other
    rintro rfl
    exact outside (inside w List.mem_cons_self)

end Touched

/-- No block is on the way to two bytes below `v` in two places. -/
def Unshared (m : Mem) : Nat → Nat → Nat → Prop
  | 0, _, _ => True
  | h + 1, p, v => v ≠ 0 → p ≠ 0 →
      (∀ y, y < v → p ∉ treePath m h (addrAt m p (y / span h)) (y % span h)) ∧
      (∀ y z, y < v → z < v → y / span h ≠ z / span h → ∀ b ∈ treePath m h (addrAt m p (y / span h)) (y % span h),
        b ∉ treePath m h (addrAt m p (z / span h)) (z % span h)) ∧
      ∀ k, k < 512 → Unshared m h (addrAt m p k) (share h v k)

theorem share_lt {h v k y : Nat} (below : y < share h v k) : k * span h + y < v ∧ y < span h := by
  unfold share at below
  omega

theorem Unshared.congr {m m' : Mem} {h p v : Nat} (unshared : Unshared m h p v) (whole : v ≤ span h)
    (same : ∀ y, y < v → ∀ b ∈ treePath m h p y, m' b = m b) : Unshared m' h p v := by
  induction h generalizing p v with
  | zero => trivial
  | succ h ih =>
    intro some present
    obtain ⟨away, apart, kids⟩ := unshared some present
    have root : ∀ k, addrAt m' p k = addrAt m p k :=
      addrAt_congr (same 0 (by omega) p (mem_treePath_self present))
    have paths : ∀ y, y < v → treePath m' h (addrAt m p (y / span h)) (y % span h) =
        treePath m h (addrAt m p (y / span h)) (y % span h) := by
      intro y below
      apply treePath_congr
      intro b member
      apply same y below
      rw [treePath_succ present]
      exact List.mem_cons_of_mem _ member
    refine ⟨?_, ?_, ?_⟩
    · intro y below
      rw [root, paths y below]
      exact away y below
    · intro y z below below' differ b member
      rw [root, paths y below] at member
      rw [root, paths z below']
      exact apart y z below below' differ b member
    · intro k small
      rw [root]
      apply ih (kids k small) (Nat.min_le_right _ _)
      intro y below b member
      obtain ⟨inside, short⟩ := share_lt below
      obtain ⟨index, rest⟩ := kid_byte (k := k) short
      apply same _ inside
      rw [treePath_succ present, index, rest]
      exact List.mem_cons_of_mem _ member

/-- The loop over the entries behind the one that `start` falls in. -/
theorem clearAddrs_spec {b n no : Nat} (room : no + n ≤ 512) :
    wp (clearAddrs b n no)
      (fun _ t => Touched (· = b) s t ∧ (∀ k, no ≤ k → k < no + n → addrAt t.bpram b k = 0) ∧
        ∀ k, k < no ∨ no + n ≤ k → addrAt t.bpram b k = addrAt s.bpram b k)
      (fun _ _ => False) s := by
  induction n generalizing no s with
  | zero => exact ⟨.refl s, fun k low high => by omega, fun _ _ => rfl⟩
  | succ n ih =>
    have rest : ∀ u, Touched (· = b) s u → addrAt u.bpram b no = 0 →
        (∀ k, k ≠ no → addrAt u.bpram b k = addrAt s.bpram b k) →
        wp (clearAddrs b n (no + 1))
          (fun _ t => Touched (· = b) s t ∧ (∀ k, no ≤ k → k < no + (n + 1) → addrAt t.bpram b k = 0) ∧
            ∀ k, k < no ∨ no + (n + 1) ≤ k → addrAt t.bpram b k = addrAt s.bpram b k)
          (fun _ _ => False) u := by
      intro u touched cleared others
      refine wp_mono (ih (s := u) (by omega)) ?_ (fun _ _ never => never)
      rintro - t ⟨later, zeros, kept⟩
      refine ⟨touched.trans later, fun k low high => ?_, fun k outside => ?_⟩
      · by_cases this : k = no
        · rw [this, kept no (by omega), cleared]
        · exact zeros k (by omega) (by omega)
      · rw [kept k (by omega), others k (by omega)]
    unfold clearAddrs
    rw [wp_bind, wp_loadAddr (by omega), wp_ite]
    constructor
    · intro _
      rw [wp_bind, wp_storeAddr]
      exact rest _ (.store rfl) (addrAt_slotWrite (by decide)) (fun k other => addrAt_slotWrite_other (.inr other))
    · intro zero
      exact rest s (.refl s) (not_not.mp zero) (fun _ _ => rfl)

/-- The byte before an unaligned one is under the same child. -/
theorem before_unaligned {h b : Nat} (loose : b % span h ≠ 0) :
    (b - 1) / span h = b / span h ∧ (b - 1) % span h = b % span h - 1 := by
  have whole := Nat.div_add_mod b (span h)
  have inside := Nat.mod_lt b (span_pos h)
  have split : b - 1 = b / span h * span h + (b % span h - 1) := by
    rw [Nat.mul_comm] at whole
    omega
  rw [split]
  exact kid_byte (by omega)

/-- The blocks on the way to byte `b` that are also on the way to the byte before. -/
def trunk (m : Mem) : Nat → Nat → Nat → List Nat
  | 0, p, _ => if p = 0 then [] else [p]
  | h + 1, p, b => if p = 0 then []
      else p :: if b % span h = 0 then [] else trunk m h (addrAt m p (b / span h)) (b % span h)

theorem mem_trunk_self {m : Mem} {h p b : Nat} (present : p ≠ 0) : p ∈ trunk m h p b := by
  cases h with
  | zero => simp [trunk, present]
  | succ h => simp [trunk, present]

theorem mem_trunk_succ {m : Mem} {h p b x : Nat} (present : p ≠ 0) : x ∈ trunk m (h + 1) p b ↔
    x = p ∨ (b % span h ≠ 0 ∧ x ∈ trunk m h (addrAt m p (b / span h)) (b % span h)) := by
  rw [trunk, if_neg present, List.mem_cons]
  by_cases aligned : b % span h = 0
  · simp [aligned]
  · simp [aligned]

theorem trunk_subset {m : Mem} {h p b x : Nat} (member : x ∈ trunk m h p b) :
    x ∈ treePath m h p b ∧ x ∈ treePath m h p (b - 1) := by
  induction h generalizing p b with
  | zero => exact ⟨member, member⟩
  | succ h ih =>
    by_cases hole : p = 0
    · simp [trunk, hole] at member
    rcases (mem_trunk_succ hole).mp member with rfl | ⟨loose, below⟩
    · exact ⟨mem_treePath_self hole, mem_treePath_self hole⟩
    · obtain ⟨there, before⟩ := ih below
      rw [treePath_succ hole, treePath_succ hole, (before_unaligned loose).1, (before_unaligned loose).2]
      exact ⟨List.mem_cons_of_mem _ there, List.mem_cons_of_mem _ before⟩

theorem trunk_congr {m m' : Mem} {h p b : Nat} (same : ∀ x ∈ treePath m h p (b - 1), m' x = m x) :
    trunk m' h p b = trunk m h p b := by
  induction h generalizing p b with
  | zero => rfl
  | succ h ih =>
    by_cases hole : p = 0
    · simp [trunk, hole]
    have root : ∀ k, addrAt m' p k = addrAt m p k := addrAt_congr (same p (mem_treePath_self hole))
    rw [trunk, trunk, if_neg hole, if_neg hole, root]
    by_cases aligned : b % span h = 0
    · rw [if_pos aligned, if_pos aligned]
    rw [if_neg aligned, if_neg aligned, ih]
    intro x member
    apply same
    rw [treePath_succ hole, (before_unaligned aligned).1, (before_unaligned aligned).2]
    exact List.mem_cons_of_mem _ member

/-- From `s` to `t` the bytes from `start` to `fin` of the tree were zeroed, with stores only on the
way to `start`. -/
structure Zeroed (s : Fs) (h p start fin : Nat) (t : Fs) : Prop where
  touched : Touched (· ∈ trunk s.bpram h p start) s t
  below : ∀ y, y < start → treeByte t.bpram h p y = treeByte s.bpram h p y
  zeros : ∀ y, start ≤ y → y < fin → treeByte t.bpram h p y = 0

/-- `truncate_block_zero_leaf`. -/
theorem truncateBlockZeroLeaf_spec {p start fin : Nat} (present : p ≠ 0) (small : p < 2 ^ 63) (less : start < fin)
    (fits : fin ≤ blockSize) :
    wp (truncateBlockZeroLeaf p start fin start) (fun r t => r = p ∧ Zeroed s 0 p start fin t) (fun _ _ => False) s := by
  unfold truncateBlockZeroLeaf
  refine wp_checked le_rfl (wp_checked less (wp_checked fits ?_))
  rw [wp_bind, wp_getBlock present small, wp_bind, memset, wp_storeNvm, wp_pure]
  refine ⟨rfl, .store (mem_trunk_self present), fun y early => ?_, fun y late inside => ?_⟩
  · simp only [treeByte, if_neg present, store_bpram]
    apply apply_uncovered
    rintro ⟨-, low, -⟩
    exact absurd early (Nat.not_lt.mpr low)
  · simp only [treeByte, if_neg present, store_bpram]
    rw [apply_covered ⟨rfl, late, by change y < start + (fin - start); omega⟩]

section Node

variable {h p b e : Nat}

/-- Put together from the entries and from what happened under the child that `b` falls in. -/
theorem Zeroed.of_kid {v : Fs} (some : 0 < b) (present : p ≠ 0) (unshared : Unshared s.bpram (h + 1) p b)
    (touched : Touched (· ∈ trunk s.bpram (h + 1) p b) s v)
    (before : ∀ j, j < b / span h → addrAt v.bpram p j = addrAt s.bpram p j)
    (behind : ∀ j, b / span h < j → j * span h < e → addrAt v.bpram p j = 0)
    (kidBelow : ∀ y, y < b → y / span h = b / span h →
      treeByte v.bpram h (addrAt v.bpram p (b / span h)) (y % span h) =
        treeByte s.bpram h (addrAt s.bpram p (b / span h)) (y % span h))
    (kidZero : ∀ y, b ≤ y → y < e → y / span h = b / span h →
      treeByte v.bpram h (addrAt v.bpram p (b / span h)) (y % span h) = 0) :
    Zeroed s (h + 1) p b e v := by
  obtain ⟨away, apart, -⟩ := unshared (by omega) present
  refine ⟨touched, fun y early => ?_, fun y late inside => ?_⟩
  · rw [treeByte_succ present, treeByte_succ present]
    have le : y / span h ≤ b / span h := Nat.div_le_div_right early.le
    by_cases same : y / span h = b / span h
    · rw [same]
      exact kidBelow y early same
    rw [before _ (by omega)]
    apply treeByte_congr
    intro x member
    apply touched.other
    intro stored
    rcases (mem_trunk_succ present).mp stored with rfl | ⟨loose, below⟩
    · exact away y early member
    · obtain ⟨index, rest⟩ := before_unaligned loose
      refine apart y (b - 1) early (by omega) (by omega) x member ?_
      rw [index, rest]
      exact (trunk_subset below).2
  · rw [treeByte_succ present]
    have le : b / span h ≤ y / span h := Nat.div_le_div_right late
    by_cases same : y / span h = b / span h
    · rw [same]
      exact kidZero y late inside same
    · have start := Nat.div_mul_le_self y (span h)
      rw [behind _ (by omega) (by omega), treeByte_hole]

/-- The entries behind the boundary that the loop clears are those with bytes before `e`. -/
theorem endno_bounds (less : b < e) (fits : e ≤ span (h + 1)) :
    b / span h < 512 ∧ b / span h + 1 + ((e + span h - 1) / span h - (b / span h + 1)) ≤ 512 ∧
      ∀ j, b / span h < j → j * span h < e → b / span h + 1 ≤ j ∧
        j < b / span h + 1 + ((e + span h - 1) / span h - (b / span h + 1)) := by
  have pos := span_pos h
  have first : b / span h < 512 := by
    rw [Nat.div_lt_iff_lt_mul pos, ← span_succ]
    omega
  have last : (e + span h - 1) / span h ≤ 512 := by
    rw [← Nat.lt_succ_iff, Nat.div_lt_iff_lt_mul pos, Nat.succ_mul, ← span_succ]
    omega
  refine ⟨first, by omega, fun j later inside => ?_⟩
  have under : j < (e + span h - 1) / span h := by
    rw [← Nat.succ_le_iff, Nat.le_div_iff_mul_le pos, Nat.succ_mul]
    omega
  omega

/-- An unaligned end of file is in the last entry that is valid, and all of its child up to there is. -/
theorem unaligned_child (loose : b % span h ≠ 0) :
    b / span h + 1 = (b + span h - 1) / span h ∧ b - b / span h * span h = b % span h ∧
      min (b - b / span h * span h) (span h) = b % span h := by
  have pos := span_pos h
  have inside := Nat.mod_lt b pos
  have whole := Nat.div_add_mod b (span h)
  rw [Nat.mul_comm] at whole
  refine ⟨?_, by omega, by omega⟩
  have split : b + span h - 1 = (b / span h + 1) * span h + (b % span h - 1) := by
    rw [Nat.succ_mul]
    omega
  rw [split]
  exact (kid_byte (by omega)).1.symm

/-- What zeroing does to a subtree of height `h`. -/
def ZeroesTail (h : Nat) (child : Nat → Nat → Nat → Nat → Nat → M Nat) : Prop :=
  ∀ s q b e, q ≠ 0 → (∀ y, y < b → ∀ x ∈ treePath s.bpram h q y, x < 2 ^ 63) → 0 < b → b < e → e ≤ span h →
    Unshared s.bpram h q b →
    wp (child q b e b (512 ^ h)) (fun r t => r = q ∧ Zeroed s h q b e t) (fun _ _ => False) s

theorem truncateBlockZeroNode_spec {child : Nat → Nat → Nat → Nat → Nat → M Nat} (low : h + 1 ≤ 5)
    (zeroes : ZeroesTail h child) : ZeroesTail (h + 1) (truncateBlockZeroNode child) := by
  intro s p b e present resident some less fits unshared
  have small : p < 2 ^ 63 := resident 0 some p (mem_treePath_self present)
  have blocks : 512 ^ (h + 1) / blocknosPerIndir = 512 ^ h := by
    rw [Nat.pow_succ]
    exact Nat.mul_div_cancel _ (by decide)
  have bytes : u64 (blockSize * 512 ^ h) = span h := Nat.mod_eq_of_lt (span_lt (by omega))
  have whole : nbytesOfBlocks (512 ^ (h + 1)) = span (h + 1) := nbytesOfBlocks_eq low
  have pos := span_pos h
  unfold truncateBlockZeroNode
  rw [wp_bind, wp_getBlock present small]
  simp only [blocks, bytes, if_neg pos.ne']
  obtain ⟨first, room, cleared⟩ := endno_bounds less fits
  refine wp_checked le_rfl (wp_checked less (wp_checked (by rw [whole]; exact fits) ?_))
  rw [wp_bind]
  refine wp_mono (clearAddrs_spec room) ?_ (fun _ _ never => never)
  rintro - u ⟨touched, zeros, kept⟩
  have behind : ∀ j, b / span h < j → j * span h < e → addrAt u.bpram p j = 0 := fun j later inside =>
    zeros j (cleared j later inside).1 (cleared j later inside).2
  have before : ∀ j, j ≤ b / span h → addrAt u.bpram p j = addrAt s.bpram p j := fun j early => kept j (by omega)
  have root : Touched (· ∈ trunk s.bpram (h + 1) p b) s u :=
    touched.mono fun x same => by rw [same]; exact mem_trunk_self present
  by_cases aligned : b % span h = 0
  · rw [if_pos aligned, wp_bind, wp_storeAddr, wp_pure]
    have entry : addrAt (u.store (slotWrite p (b / span h) blocknoInvalid)).bpram p (b / span h) = 0 :=
      addrAt_slotWrite (by decide)
    have others : ∀ j, j ≠ b / span h →
        addrAt (u.store (slotWrite p (b / span h) blocknoInvalid)).bpram p j = addrAt u.bpram p j :=
      fun j other => addrAt_slotWrite_other (.inr other)
    refine ⟨rfl, Zeroed.of_kid some present unshared (root.trans (.store (mem_trunk_self present))) ?_ ?_ ?_ ?_⟩
    · intro j early
      rw [others j early.ne, before j early.le]
    · intro j later inside
      rw [others j later.ne', behind j later inside]
    · intro y early same
      have start := Nat.div_mul_le_self y (span h)
      have whole := Nat.div_add_mod b (span h)
      rw [aligned, Nat.add_zero, Nat.mul_comm] at whole
      rw [same] at start
      omega
    · intro y _ _ _
      rw [entry, treeByte_hole]
  · rw [if_neg aligned, wp_bind, wp_loadAddr first, before _ le_rfl, wp_ite]
    obtain ⟨valid, offset, held⟩ := unaligned_child aligned
    constructor
    · intro there
      have there : addrAt s.bpram p (b / span h) ≠ 0 := there
      obtain ⟨away, -, kids⟩ := unshared some.ne' present
      have whole := Nat.div_add_mod b (span h)
      rw [Nat.mul_comm] at whole
      have part := Nat.mod_lt b pos
      -- the child's own bytes below the boundary, as bytes of this subtree
      have kidPath : ∀ y, y < b % span h → ∀ x ∈ treePath s.bpram h (addrAt s.bpram p (b / span h)) y,
          x ≠ p ∧ x < 2 ^ 63 := by
        intro y early x member
        obtain ⟨index, rest⟩ := kid_byte (k := b / span h) (show y < span h by omega)
        have inside : b / span h * span h + y < b := by omega
        constructor
        · rintro rfl
          have free := away _ inside
          rw [index, rest] at free
          exact free member
        · apply resident _ inside
          rw [treePath_succ present, index, rest]
          exact List.mem_cons_of_mem _ member
      have same : ∀ y, y < b % span h → ∀ x ∈ treePath s.bpram h (addrAt s.bpram p (b / span h)) y,
          u.bpram x = s.bpram x := fun y early x member => touched.other (kidPath y early x member).1
      have shareEq : share h b (b / span h) = b % span h := by
        unfold share
        omega
      have kidUnshared : Unshared u.bpram h (addrAt s.bpram p (b / span h)) (b % span h) := by
        have kid := kids (b / span h) first
        rw [shareEq] at kid
        exact kid.congr part.le same
      rw [if_pos valid, wp_bind, wp_pure, wp_bind, held, offset]
      refine wp_mono (zeroes u _ (b % span h) _ there ?_ (by omega) ?_ (Nat.min_le_right _ _) kidUnshared) ?_
        (fun _ _ never => never)
      · intro y early x member
        rw [treePath_congr (same y early)] at member
        exact (kidPath y early x member).2
      · omega
      · rintro r v ⟨rfl, zeroed⟩
        have below : Touched (· ∈ trunk s.bpram h (addrAt s.bpram p (b / span h)) (b % span h)) u v := by
          have steps := zeroed.touched
          rwa [trunk_congr (same _ (by omega))] at steps
        have rootV : v.bpram p = u.bpram p := by
          apply below.other
          intro member
          exact (kidPath _ (by omega) p (trunk_subset member).2).1 rfl
        have entryV : ∀ j, addrAt v.bpram p j = addrAt u.bpram p j := addrAt_congr rootV
        rw [wp_bind, wp_loadAddr first, entryV, before _ le_rfl, if_neg (fun differ => differ rfl), wp_pure]
        refine ⟨rfl, Zeroed.of_kid some present unshared (root.trans (below.mono fun x member => ?_)) ?_ ?_ ?_ ?_⟩
        · exact (mem_trunk_succ present).mpr (.inr ⟨aligned, member⟩)
        · intro j early
          rw [entryV, before j early.le]
        · intro j later inside
          rw [entryV, behind j later inside]
        · intro y early index
          have position := Nat.div_add_mod y (span h)
          rw [Nat.mul_comm, index] at position
          rw [entryV, before _ le_rfl, zeroed.below _ (by omega)]
          exact treeByte_congr (same _ (by omega))
        · intro y late inside index
          have position := Nat.div_add_mod y (span h)
          have under := Nat.mod_lt y pos
          rw [Nat.mul_comm, index] at position
          rw [entryV, before _ le_rfl]
          exact zeroed.zeros _ (by omega) (by omega)
    · intro hole
      have hole : addrAt s.bpram p (b / span h) = 0 := not_not.mp hole
      rw [wp_pure]
      have entry : addrAt u.bpram p (b / span h) = 0 := (before _ le_rfl).trans hole
      refine ⟨rfl, Zeroed.of_kid some present unshared root (fun j early => before j early.le) behind ?_ ?_⟩
      · intro y _ _
        rw [entry, hole, treeByte_hole, treeByte_hole]
      · intro y _ _ _
        rw [entry, treeByte_hole]

end Node

theorem truncateBlockZeroIndir_spec {h : Nat} (low : h + 1 ≤ 5) : ZeroesTail (h + 1) (truncateBlockZeroIndir (h + 1)) := by
  induction h with
  | zero =>
    apply truncateBlockZeroNode_spec low
    intro s q b e present resident some less fits _
    exact truncateBlockZeroLeaf_spec present (resident 0 some q (mem_treePath_self present)) less
      (by rwa [span_zero] at fits)
  | succ h ih => exact truncateBlockZeroNode_spec low (ih (by omega))

/-- A rooted file in whose tree no block is used twice. What lies beyond its end is arbitrary. -/
structure TailRooted (s : Fs) (R o h p n : Nat) : Prop extends Rooted s R o h p n where
  unshared : Unshared s.bpram h p (min n (span h))

/-- Zeroing from the end of the file up to `fin`: the file stays as it is, the bytes from its end on
would read as zeros up to `fin` or the tree's capacity, and only blocks on the way to the end are
stored to. -/
def TailZeroed (s : Fs) (R o h p n fin : Nat) : Prop :=
  wp (truncateBlockZero ⟨.bpram R, o⟩ n fin n R)
    (fun r t => r = R ∧ RootIs t.bpram R o h p n ∧ Reads t.bpram R o n (rootByte s.bpram R o) ∧
      (∀ y, n ≤ y → y < span h → y < 2 ^ 64 → (fin = bpfsEof ∨ y < fin) → fileByte t.bpram h p y = 0) ∧
      Touched (fun b => b ∈ treePath s.bpram h p n ∧ b ∈ treePath s.bpram h p (n - 1)) s t)
    (fun _ _ => False) s

namespace TailRooted

variable {R o h p n fin : Nat} (rooted : TailRooted s R o h p n)

include rooted

/-- What the zeroing of the tree means for the file. -/
theorem of_zeroed (inside : n < span h) (some : 0 < n) {last : Nat} {t : Fs} (zeroed : Zeroed s h p n last t)
    (reach : ∀ y, y < span h → (fin = bpfsEof ∨ y < fin) → y < last) :
    RootIs t.bpram R o h p n ∧ Reads t.bpram R o n (rootByte s.bpram R o) ∧
      (∀ y, n ≤ y → y < span h → y < 2 ^ 64 → (fin = bpfsEof ∨ y < fin) → fileByte t.bpram h p y = 0) ∧
      Touched (fun b => b ∈ treePath s.bpram h p n ∧ b ∈ treePath s.bpram h p (n - 1)) s t := by
  have root : RootIs t.bpram R o h p n := by
    apply rooted.root.congr
    intro k _ _
    rw [zeroed.touched.other]
    intro stored
    exact (rooted.resident (n - 1) (by omega) (by omega) R (trunk_subset stored).2).2 rfl
  refine ⟨root, root.reads ?_, ?_, zeroed.touched.mono fun b stored => trunk_subset stored⟩
  · intro y below
    rw [rooted.rootByte_eq below, fileByte, fileByte, if_pos (by omega), if_pos (by omega), zeroed.below y below]
  · intro y late under _ limit
    rw [fileByte, if_pos under]
    exact zeroed.zeros y late (reach y under limit)

/-- The zeroing from the root's child on. The subtree keeps its root block, so the address in the root
needs no store. -/
theorem finish {last : Nat} {program : M Nat} (inside : n < span h) (some : 0 < n)
    (reach : ∀ y, y < span h → (fin = bpfsEof ∨ y < fin) → y < last)
    (below : wp program (fun r t => r = p ∧ Zeroed s h p n last t) (fun _ _ => False) s) :
    wp (do
      let child ← program
      let u ← get
      if treeRootAddr u.bpram ⟨.bpram R, o⟩ ≠ child then do
        haSetAddr ⟨.bpram R, o⟩ child
        pure R
      else pure R)
      (fun r t => r = R ∧ RootIs t.bpram R o h p n ∧ Reads t.bpram R o n (rootByte s.bpram R o) ∧
        (∀ y, n ≤ y → y < span h → y < 2 ^ 64 → (fin = bpfsEof ∨ y < fin) → fileByte t.bpram h p y = 0) ∧
        Touched (fun b => b ∈ treePath s.bpram h p n ∧ b ∈ treePath s.bpram h p (n - 1)) s t)
      (fun _ _ => False) s := by
  rw [wp_bind]
  refine wp_mono below ?_ (fun _ _ never => never)
  intro r t result
  have done := rooted.of_zeroed inside some result.2 reach
  rw [result.1, wp_bind, wp_get, if_neg (fun differ => differ done.1.addr), wp_pure]
  exact ⟨rfl, done⟩

theorem resident_small (inside : n < span h) : ∀ y, y < n → ∀ b ∈ treePath s.bpram h p y, b < 2 ^ 63 := by
  intro y early b member
  have held := (rooted.resident y early (by omega) b member).1
  have small := rooted.ok.small
  have bound := held.2.1
  omega

theorem unshared_end (inside : n < span h) : Unshared s.bpram h p n := by
  have unshared := rooted.unshared
  rwa [Nat.min_eq_left inside.le] at unshared

theorem tailZeroed (low : h ≤ 5) (some : 0 < n) (less : n < fin) : TailZeroed s R o h p n fin := by
  have height := rooted.root.treeRootHeight
  rw [if_neg some.ne'] at height
  have blocks : treeMaxNblocks h = 512 ^ h := treeMaxNblocks_eq (by omega)
  have bytes : nbytesOfBlocks (512 ^ h) = span h := nbytesOfBlocks_eq low
  have now := rooted.same_of_held (fun _ _ => rfl)
  have wide := span_lt low
  unfold TailZeroed truncateBlockZero
  simp only [wp_bind, wp_get, height, rooted.root.nbytes, rooted.root.addr, blocks, bytes]
  rw [wp_ite]
  constructor
  · intro full
    rw [wp_pure]
    exact ⟨rfl, rooted.root, now, fun y late under => absurd under (by omega), .refl s⟩
  · intro notFull
    have inside : n < span h := by omega
    have notEof : ¬n = bpfsEof := by
      unfold bpfsEof
      omega
    have later : n < if fin = bpfsEof then span h else fin := by split <;> omega
    have reach : ∀ y, y < span h → (fin = bpfsEof ∨ y < fin) →
        y < min (if fin = bpfsEof then span h else fin) (span h) := by
      intro y under limit
      rcases limit with whole | early
      · rw [if_pos whole, Nat.min_self]
        exact under
      · split <;> omega
    simp only [if_neg notEof]
    refine wp_checked (by rw [if_neg notEof]) (wp_checked (by rwa [height, blocks, bytes]) ?_)
    generalize (if fin = bpfsEof then span h else fin) = last at later reach ⊢
    rw [if_neg (by omega), wp_ite]
    constructor
    · intro hole
      have hole : p = 0 := hole
      rw [wp_pure]
      refine ⟨rfl, rooted.root, now, fun y _ _ _ _ => ?_, .refl s⟩
      rw [hole, fileByte_hole]
    · intro present
      have present : p ≠ 0 := present
      rw [if_neg some.ne', wp_ite]
      constructor
      · intro leaf
        subst leaf
        apply rooted.finish inside some reach
        apply truncateBlockZeroLeaf_spec present (rooted.resident_small inside 0 some p (mem_treePath_self present))
        · omega
        · rw [← span_zero]
          exact Nat.min_le_right _ _
      · intro inner
        cases h with
        | zero => exact absurd rfl inner
        | succ k =>
          apply rooted.finish inside some reach
          apply truncateBlockZeroIndir_spec low s p n _ present (rooted.resident_small inside) some
          · omega
          · exact Nat.min_le_right _ _
          · exact rooted.unshared_end inside

end TailRooted

section Chain

/-- A file of `n` bytes with its root in block 3 and a tree that has only the blocks on the way to
byte `n`, from block 4 on. The leaf is full of ones. -/
def chain (n h : Nat) : Fs where
  __ := stale n h
  bpram b k :=
    if b < 4 then (stale n h).bpram b k
    else if b < 4 + h then if k / 8 = n / span (3 + h - b) % 512 then leByte (b + 1) (k % 8) else 0
    else 1
  blockAlloc := ⟨fun k => if k < 2 then 255 else 0, 64, 48, [], [], 0⟩

variable {n h : Nat}

theorem chain_bitmap : (chain n h).blockAlloc = ⟨fun k => if k < 2 then 255 else 0, 64, 48, [], [], 0⟩ := rfl

theorem chain_bit (k : Nat) : (chain n h).blockAlloc.bit k = decide (k < 16) := by
  have byte : ∀ j, j < 8 → (255 : UInt8).toNat.testBit j = true := by decide
  change (if k / 8 < 2 then (255 : UInt8) else 0).toNat.testBit (k % 8) = _
  by_cases first : k / 8 < 2
  · rw [if_pos first, byte _ (Nat.mod_lt _ (by decide)), decide_eq_true (by omega)]
  · rw [if_neg first, show decide (k < 16) = false from decide_eq_false (by omega)]
    exact Nat.zero_testBit _

theorem chain_ok : (chain n h).Ok where
  wf := by
    rw [chain_bitmap]
    exact ⟨rfl, fun _ member => absurd member List.not_mem_nil, List.nodup_nil,
      fun _ member => absurd member List.not_mem_nil, List.nodup_nil⟩
  small := by
    rw [chain_bitmap]
    decide
  reserved := by
    rw [chain_bit, chain_bit]
    decide

theorem chain_allocated {b : Nat} : Allocated (chain n h) b ↔ 1 ≤ b ∧ b ≤ 16 := by
  rw [Allocated, chain_bit, decide_eq_true_eq, chain_bitmap]
  change 1 ≤ b ∧ b ≤ 64 ∧ b - 1 < 16 ↔ _
  omega

theorem chain_root (small : n < 2 ^ 64) (low : h < 8) (some : n ≠ 0) : RootIs (chain n h).bpram 3 0 h 4 n :=
  (stale_root small low some).congr fun _ _ _ => rfl

/-- A block of the chain has one entry. -/
theorem chain_entry {j b : Nat} (low : h < 8) (level : b + j = 3 + h) (inner : 4 ≤ b) (k : Nat) :
    addrAt (chain n h).bpram b k = if k = n / span j % 512 then b + 1 else 0 := by
  have zeros : ∀ i, i < 8 → (0 : UInt8) = leByte 0 i := by decide
  rw [addrAt, wordAt, leValue_congr (g := leByte (if k = n / span j % 512 then b + 1 else 0)), leValue_leByte]
  · apply Nat.mod_eq_of_lt
    split <;> omega
  · intro i inside
    change (if b < 4 then _ else if b < 4 + h then
      if (8 * k + i) / 8 = n / span (3 + h - b) % 512 then leByte (b + 1) ((8 * k + i) % 8) else 0 else 1) = _
    rw [if_neg (by omega), if_pos (by omega), show 3 + h - b = j by omega, show (8 * k + i) / 8 = k by omega,
      show (8 * k + i) % 8 = i by omega]
    split
    · rfl
    · exact zeros i inside

theorem chain_path {j b y x : Nat} (low : h < 8) (level : b + j = 4 + h) (inner : 4 ≤ b)
    (member : x ∈ treePath (chain n h).bpram j b y) : b ≤ x ∧ x ≤ 4 + h := by
  induction j generalizing b y with
  | zero =>
    rw [treePath, if_neg (by omega), List.mem_singleton] at member
    omega
  | succ j ih =>
    rw [treePath_succ (by omega), List.mem_cons, chain_entry low (j := j) (by omega) inner] at member
    rcases member with rfl | below
    · omega
    · split at below
      · have rest := ih (by omega) (by omega) below
        omega
      · rw [treePath_hole] at below
        exact absurd below List.not_mem_nil

theorem chain_unshared {j b v : Nat} (low : h < 8) (level : b + j = 4 + h) (inner : 4 ≤ b) :
    Unshared (chain n h).bpram j b v := by
  induction j generalizing b v with
  | zero => trivial
  | succ j ih =>
    intro _ _
    have entry := chain_entry (n := n) low (j := j) (b := b) (by omega) inner
    have below : ∀ k y x, x ∈ treePath (chain n h).bpram j (addrAt (chain n h).bpram b k) y →
        k = n / span j % 512 ∧ b < x := by
      intro k y x member
      rw [entry] at member
      split at member
      · rename_i index
        have rest := chain_path low (by omega) (by omega) member
        exact ⟨index, by omega⟩
      · rw [treePath_hole] at member
        exact absurd member List.not_mem_nil
    refine ⟨?_, ?_, ?_⟩
    · intro y _ member
      exact absurd (below _ _ _ member).2 (lt_irrefl b)
    · intro y z _ _ differ x member member'
      exact differ ((below _ _ _ member).1.trans (below _ _ _ member').1.symm)
    · intro k _
      rw [entry]
      split
      · exact ih (by omega) (by omega)
      · cases j with
        | zero => trivial
        | succ j => exact fun _ present => absurd rfl present

theorem chain_byte {j b : Nat} (low : h < 8) (level : b + j = 4 + h) (inner : 4 ≤ b) :
    treeByte (chain n h).bpram j b (n % span j) = 1 := by
  induction j generalizing b with
  | zero =>
    rw [treeByte, if_neg (by omega)]
    change (if b < 4 then _ else if b < 4 + h then _ else 1) = _
    rw [if_neg (by omega), if_neg (by omega)]
  | succ j ih =>
    have index : n % span (j + 1) / span j = n / span j % 512 := by
      rw [span_succ, Nat.mul_comm, Nat.mod_mul_right_div_self]
    have rest : n % span (j + 1) % span j = n % span j := by
      rw [span_succ, Nat.mod_mul_left_mod]
    rw [treeByte_succ (by omega), index, rest, chain_entry low (j := j) (by omega) inner, if_pos rfl]
    exact ih (by omega) (by omega)

theorem chain_rooted (small : n < 2 ^ 64) (low : h < 8) (some : n ≠ 0) : TailRooted (chain n h) 3 0 h 4 n where
  ok := chain_ok
  root := chain_root small low some
  inside := by decide
  block := ⟨le_refl 3, chain_allocated.mpr (by decide), fun gone => absurd gone.2 List.not_mem_nil⟩
  resident y _ _ b member := by
    have range := chain_path low (by omega) (le_refl 4) member
    rw [chain_allocated]
    omega
  unshared := chain_unshared low (by omega) (le_refl 4)

end Chain

/-- At the heights where the capacity no longer fits in 64 bits, the function returns at once. -/
theorem RootIs.truncateBlockZero_returns {R o h p n fin : Nat} (root : RootIs s.bpram R o h p n) (high : 5 < h)
    (some : n ≠ 0) : wp (truncateBlockZero ⟨.bpram R, o⟩ n fin n R) (fun _ t => t = s) (fun _ _ => False) s := by
  have height := root.treeRootHeight
  rw [if_neg some] at height
  have low := root.height_lt
  have wraps : nbytesOfBlocks (treeMaxNblocks h) = 0 := by
    obtain rfl | rfl : h = 6 ∨ h = 7 := by omega
    all_goals decide
  unfold truncateBlockZero
  rw [wp_bind, wp_get]
  simp only [height, wraps, Nat.zero_le, if_true, wp_pure]

attribute [local irreducible] truncateBlockZero

theorem RootIs.not_tailZeroed {R o h p n fin : Nat} (root : RootIs s.bpram R o h p n) (high : 5 < h) (some : n ≠ 0)
    (less : n < fin) (stays : fileByte s.bpram h p n ≠ 0) : ¬TailZeroed s R o h p n fin := by
  intro zeroed
  have returns : wp (truncateBlockZero ⟨.bpram R, o⟩ n fin n R) _ _ s := root.truncateBlockZero_returns high some
  obtain ⟨r, t, run, same⟩ := ok_of_wp returns
  have result := (wp_ok run).mp zeroed
  have small := root.nbytes_lt
  have zero := result.2.2.2.1 n le_rfl (span_six_gt small high) small (.inr less)
  rw [same] at zero
  exact stays zero

theorem chain_not_zeroed {n h fin : Nat} (some : 0 < n) (less : n < fin) (small : n < 2 ^ 64) (low : h < 8)
    (high : 5 < h) : ¬TailZeroed (chain n h) 3 0 h 4 n fin := by
  apply (chain_root small low some.ne').not_tailZeroed high some.ne' less
  have inside := span_six_gt small high
  have byte := chain_byte (n := n) low (j := h) (b := 4) rfl (le_refl 4)
  rw [Nat.mod_eq_of_lt inside] at byte
  rw [fileByte, if_pos inside, byte]
  decide

/-- Zeroing from the end of every file of `n` bytes whose tree has height `h` clears what lies beyond
its end and nothing else, exactly if the capacity of the tree fits in 64 bits. -/
theorem tail_zeroed_iff {n h fin : Nat} (some : 0 < n) (less : n < fin) (bounded : fin < 2 ^ 64) (low : h < 8) :
    (∀ s R o p, TailRooted s R o h p n → TailZeroed s R o h p n fin) ↔ h ≤ 5 := by
  constructor
  · intro zeroes
    by_contra high
    have small : n < 2 ^ 64 := less.trans bounded
    have rooted : TailRooted (chain n h) 3 0 h 4 n := chain_rooted small low some.ne'
    exact chain_not_zeroed some less small low (by omega) (zeroes _ 3 0 4 rooted)
  · intro short s R o p rooted
    exact rooted.tailZeroed short some less

theorem tail_zeroed_iff_block : TailRooted (chain 5000 1) 3 0 1 4 5000 ∧
    ((∀ s R o p, TailRooted s R o 1 p 5000 → TailZeroed s R o 1 p 5000 8192) ↔ 1 ≤ 5) :=
  ⟨chain_rooted (by decide) (by decide) (by decide), tail_zeroed_iff (by decide) (by decide) (by decide) (by decide)⟩

/-- A file in a tree of height 6: the byte behind its end keeps its stale value. -/
theorem sixth_level_keeps_tail : TailRooted (chain 5000 6) 3 0 6 4 5000 ∧
    ¬TailZeroed (chain 5000 6) 3 0 6 4 5000 bpfsEof :=
  ⟨chain_rooted (by decide) (by decide) (by decide),
    chain_not_zeroed (by decide) (by decide) (by decide) (by decide) (by decide)⟩

end Bpfs
