import Bpfs.LruInvariant

/-! One eviction pass over the list of recently used blocks. The loop takes a node out
before it looks at its bound, so the node it took out last is dropped: it is neither in
the list any more nor among the blocks that are passed to the disk. -/

namespace Bpfs
open Lib

namespace Lru

variable {s : Lru} {l : List Nat} {a v : Nat}

/-- What an eviction pass does: the numbers it stores in the array for the disk, the length
it gives for that array, and the count it returns. -/
structure Pass where
  blockNumArr : List Nat
  size : Nat
  returned : Int
  deriving DecidableEq, Repr

/-- The loop of `anti_cache_manager_evict_blocks`, with the node that was taken out last. -/
def evictLoop : Nat → Nat → LruM (List Nat)
  | 0, _ => pure []
  | count + 1, node =>
      if node = 0 then pure []
      else do
        let n ← loadNode node
        freeNode node
        let next ← lruPop
        let rest ← evictLoop count next
        pure (n.value :: rest)

/-- `anti_cache_manager_evict_blocks`, with bulk eviction. The count is returned as an `int`. -/
def evictBlocks (threshold : Nat) : LruM Pass := do
  let s ← get
  if threshold < s.numElements then
    let evictedBlocksCount := s.numElements - threshold
    let node ← lruPop
    let blockNumArr ← evictLoop evictedBlocksCount node
    pure ⟨blockNumArr, evictedBlocksCount, Int.bmod evictedBlocksCount (2 ^ 32)⟩
  else pure ⟨[], 0, 0⟩

/-- `ANTI_CACHE_EVICTION_THRESHOLD`. -/
def evictionThreshold : Nat := 1 * 10 * 1024

/-! ### Taking nodes out at the end -/

/-- The nodes at `l` are what the links, the two ends and the count describe. The hash map
is left aside: it keeps the key of a node that was taken out as the only one. -/
structure Chained (s : Lru) (l : List Nat) : Prop where
  linked : Linked s.heap 0 l 0
  nodup : l.Nodup
  present : ∀ a ∈ l, a ≠ 0 ∧ a < 2 ^ 64
  null : s.heap 0 = none
  head : s.head = l.headD 0
  tail : s.tail = l.getLastD 0
  count : s.numElements = l.length

theorem Describes.chained (holds : s.Describes l) (count : s.numElements = l.length) : s.Chained l :=
  ⟨holds.linked, holds.nodup, holds.present, holds.null, holds.head, holds.tail, count⟩

/-- The list has the blocks `bs`, most recently used first. -/
def Holds (s : Lru) (bs : List Nat) : Prop := ∃ l, s.Chained l ∧ l.map s.heap.valueAt = bs.map some

theorem Holds.count {bs : List Nat} (holds : s.Holds bs) : s.numElements = bs.length := by
  obtain ⟨l, chained, values⟩ := holds
  rw [chained.count, ← List.length_map s.heap.valueAt, values, List.length_map]

theorem Inv.holds (inv : s.Inv) : ∃ bs, s.Holds bs := by
  obtain ⟨bs, l, describes, count, values⟩ := inv_iff_recent.mp inv
  exact ⟨bs, l, describes.chained count, values⟩

/-- `lru_pop` takes the last node out, and every node keeps its block number. -/
theorem lruPop_chained {front : List Nat} {p : Nat} (chained : s.Chained (front ++ [p])) :
    wp lruPop (fun node t => node = p ∧ t.Chained front ∧ ∀ c, t.heap.valueAt c = s.heap.valueAt c)
      (fun _ _ => False) s := by
  have tail : s.tail = p := by rw [chained.tail, List.getLastD_concat]
  have count : s.numElements = front.length + 1 := by rw [chained.count, List.length_append, List.length_singleton]
  have apart := List.nodup_append.mp chained.nodup
  simp only [lruPop, wp_bind, wp_get, count]
  rw [if_neg (Nat.succ_ne_zero _)]
  rcases List.eq_nil_or_concat' front with rfl | ⟨init, q, rfl⟩
  · rw [if_pos (by rfl), wp_bind, wp_setTail, wp_bind, wp_setHead, wp_bind, wp_modify, wp_pure]
    exact ⟨tail, ⟨trivial, List.nodup_nil, by simp, chained.null, rfl, rfl, rfl⟩, fun _ => rfl⟩
  · obtain ⟨v, here⟩ := chained.linked.node
    rw [List.getLastD_concat] at here
    have inside : q ∈ init ++ [q] := List.mem_append_right _ (List.mem_singleton_self q)
    have other : q ≠ p := apart.2.2 q inside p (List.mem_singleton_self p)
    have nonzero : q ≠ 0 := (chained.present q (List.mem_append_left _ inside)).1
    have present : p ≠ 0 := (chained.present p (by simp)).1
    have live : s.heap q ≠ none := chained.linked.live (List.mem_append_left _ inside)
    have again : s.heap.setNext q 0 p = some ⟨v, q, 0⟩ := by
      rw [Heap.setNext_other _ _ (Ne.symm other)]
      exact here
    rw [if_neg (by simp), tail, wp_bind, wp_loadNode present here, wp_bind, wp_setTail, wp_bind]
    refine (wp_storeNext nonzero ?_).mpr ?_
    · exact live
    rw [wp_bind]
    refine (wp_loadNode present again).mpr ?_
    rw [wp_bind, wp_hashMapErase, wp_bind, wp_countDown, wp_pure]
    refine ⟨rfl, ⟨?_, apart.1, fun c member => chained.present c (List.mem_append_left _ member), ?_, ?_, ?_, ?_⟩, ?_⟩
    · have single := List.nodup_append.mp apart.1
      exact (Linked.append.mp chained.linked).1.setNext_last
        (fun member => single.2.2 q member q (List.mem_singleton_self q) rfl)
    · exact (Heap.setNext_eq_none _ _).mpr chained.null
    · change s.head = _
      rw [chained.head]
      cases init <;> rfl
    · exact (List.getLastD_concat ..).symm
    · change usub s.numElements 1 = _
      have bound := length_lt chained.nodup chained.present
      rw [count, usub]
      rw [List.length_append, List.length_singleton] at bound
      omega
    · exact fun c => Heap.valueAt_setNext _ q 0 c

theorem lruPop_empty (holds : s.Holds []) : wp lruPop (fun node t => node = 0 ∧ t = s) (fun _ _ => False) s := by
  have none : s.numElements = 0 := holds.count
  simp only [lruPop, wp_bind, wp_get]
  rw [if_pos none, wp_pure]
  exact ⟨rfl, rfl⟩

/-- The list has the blocks `bs`, and the node at `p`, for block `b`, was taken out of it and
is not freed yet. -/
def TakenOut (s : Lru) (bs : List Nat) (p b : Nat) : Prop :=
  ∃ l, s.Chained l ∧ l.map s.heap.valueAt = bs.map some ∧ s.heap.valueAt p = some b ∧ p ≠ 0 ∧ p ∉ l

theorem lruPop_holds {bs : List Nat} {b : Nat} (holds : s.Holds (bs ++ [b])) :
    wp lruPop (fun p t => t.TakenOut bs p b) (fun _ _ => False) s := by
  obtain ⟨l, chained, values⟩ := holds
  obtain ⟨front, p, rfl⟩ := (List.eq_nil_or_concat' l).resolve_left (by rintro rfl; simp at values)
  rw [List.map_append, List.map_append] at values
  obtain ⟨before, last⟩ := List.append_inj' values rfl
  have apart := List.nodup_append.mp chained.nodup
  refine wp_mono (lruPop_chained chained) (fun node t popped => ?_) (fun _ _ never => never)
  obtain ⟨rfl, shorter, same⟩ := popped
  refine ⟨front, shorter, ?_, (same node).trans (List.singleton_inj.mp last), (chained.present node (by simp)).1, ?_⟩
  · rw [← before]
    exact List.map_congr_left (fun c _ => same c)
  · exact fun member => apart.2.2 node member node (List.mem_singleton_self node) rfl

theorem TakenOut.free {bs : List Nat} {p b : Nat} (taken : s.TakenOut bs p b) :
    ({ s with heap := s.heap.set p none } : Lru).Holds bs := by
  obtain ⟨l, chained, values, -, present, out⟩ := taken
  have same : ∀ c ∈ l, s.heap.set p none c = s.heap c := by
    intro c member
    exact Heap.set_other _ _ (fun here => out (here ▸ member))
  refine ⟨l, ⟨chained.linked.congr same, chained.nodup, chained.present, ?_, chained.head, chained.tail,
    chained.count⟩, ?_⟩
  · exact (Heap.set_other _ _ (Ne.symm present)).trans chained.null
  · rw [← values]
    exact List.map_congr_left (fun c member => congrArg (Option.map Node.value) (same c member))

/-- From the node that was taken out last, `count` rounds pass that node and the last
`count - 1` nodes of the list on, and they take one more node out of the list. -/
theorem evictLoop_spec {p b count : Nat} {bs : List Nat} (taken : s.TakenOut bs p b) (enough : count ≤ bs.length + 1) :
    wp (evictLoop count p) (fun arr t => arr = (b :: bs.reverse).take count ∧ t.Holds (bs.take (bs.length - count)))
      (fun _ _ => False) s := by
  -- the invariant of a round: the node at `p` is out of the list and not freed yet
  induction count generalizing s p b bs with
  | zero =>
    obtain ⟨l, chained, values, -⟩ := taken
    refine ⟨rfl, l, chained, ?_⟩
    rw [Nat.sub_zero, List.take_length, values]
  | succ count ih =>
    have freed := taken.free
    obtain ⟨l, -, -, value, present, -⟩ := taken
    obtain ⟨node, here, rfl⟩ := Option.map_eq_some_iff.mp value
    have live : s.heap p ≠ none := by rw [here]; exact Option.some_ne_none _
    simp only [evictLoop, if_neg present, wp_bind]
    rw [wp_loadNode present here, wp_freeNode present live]
    rcases List.eq_nil_or_concat' bs with rfl | ⟨bs, b, rfl⟩
    · have last : count = 0 := by simpa using enough
      subst last
      refine wp_mono (lruPop_empty freed) (fun next t popped => ?_) (fun _ _ never => never)
      rw [popped.2]
      exact ⟨rfl, freed⟩
    · rw [List.length_append, List.length_singleton] at enough
      refine wp_mono (lruPop_holds freed) (fun next t taken => ?_) (fun _ _ never => never)
      refine wp_mono (ih taken (by omega)) (fun arr u rest => ?_) (fun _ _ never => never)
      obtain ⟨rfl, holds⟩ := rest
      refine ⟨by simp, ?_⟩
      rw [List.length_append, List.length_singleton, Nat.add_sub_add_right, List.take_append_of_le_length (by omega)]
      exact holds

/-- A pass over more than `threshold` blocks passes on just the ones that are too many,
least recently used first, and leaves one block less than it should. -/
theorem evictBlocks_spec {threshold : Nat} {bs : List Nat} (holds : s.Holds bs) (above : threshold < bs.length) :
    wp (evictBlocks threshold)
      (fun pass t => pass = ⟨(bs.drop threshold).reverse, bs.length - threshold,
        Int.bmod (bs.length - threshold : Nat) (2 ^ 32)⟩ ∧ t.Holds (bs.take (threshold - 1)))
      (fun _ _ => False) s := by
  have count := holds.count
  simp only [evictBlocks, wp_bind, wp_get, count]
  rw [if_pos above, wp_bind]
  obtain ⟨bs, b, rfl⟩ := (List.eq_nil_or_concat' bs).resolve_left (by rintro rfl; simp at above)
  refine wp_mono (lruPop_holds holds) (fun node t taken => ?_) (fun _ _ never => never)
  rw [List.length_append, List.length_singleton] at above ⊢
  rw [wp_bind]
  refine wp_mono (evictLoop_spec taken (by omega)) (fun arr u rest => ?_) (fun _ _ never => never)
  obtain ⟨rfl, left⟩ := rest
  rw [wp_pure]
  constructor
  · have array : (b :: bs.reverse).take (bs.length + 1 - threshold) = ((bs ++ [b]).drop threshold).reverse := by
      have reversed : b :: bs.reverse = (bs ++ [b]).reverse := by simp
      have rest : bs.length + 1 - (bs.length + 1 - threshold) = threshold := by omega
      rw [reversed, List.take_reverse, List.length_append, List.length_singleton, rest]
    rw [array]
  · have rest : bs.length - (bs.length + 1 - threshold) = threshold - 1 := by omega
    rw [List.take_append_of_le_length (by omega), ← rest]
    exact left

/-- What a pass should do: it passes on the blocks that are too many, least recently used
first, fills the whole array, returns their number, and leaves the others as they are. -/
def EvictsExactly (s : Lru) (threshold : Nat) : Prop :=
  ∃ bs, s.Holds bs ∧ ∃ pass t, evictBlocks threshold s = .ok pass t ∧
    pass.blockNumArr = (bs.drop threshold).reverse ∧ pass.size = pass.blockNumArr.length ∧
    pass.returned = pass.blockNumArr.length ∧ t.Holds (bs.take threshold)

/-- The list after a pass is too short, if there is to be a list at all. -/
theorem EvictsExactly.threshold_eq {threshold : Nat} (exactly : s.EvictsExactly threshold)
    (above : threshold < s.numElements) : threshold = 0 := by
  obtain ⟨bs, holds, pass, t, done, -, -, -, left⟩ := exactly
  rw [holds.count] at above
  have spec := ((wp_ok done).mp (evictBlocks_spec holds above)).2
  have same := left.count.symm.trans spec.count
  rw [List.length_take, List.length_take] at same
  omega

/-- An eviction pass does what it should just when nothing is to be kept and the count fits
an `int`; with every other threshold one block leaves the list and is not passed on. -/
theorem evict_pass_iff {threshold : Nat} (inv : s.Inv) (above : threshold < s.numElements) :
    s.EvictsExactly threshold ↔ threshold = 0 ∧ s.numElements < 2 ^ 31 := by
  obtain ⟨bs, holds⟩ := inv.holds
  rw [holds.count] at above ⊢
  obtain ⟨pass, t, done, rfl, left⟩ := ok_of_wp (evictBlocks_spec holds above)
  have count : ((bs.drop threshold).reverse).length = bs.length - threshold := by
    rw [List.length_reverse, List.length_drop]
  constructor
  · intro exactly
    have zero := exactly.threshold_eq (by rwa [holds.count])
    obtain ⟨bs', holds', pass', t', done', array, size, returned, -⟩ := exactly
    cases done.symm.trans done'
    refine ⟨zero, ?_⟩
    have below := Int.bmod_lt (x := (bs.length - threshold : Nat)) (show 0 < 2 ^ 32 by decide)
    dsimp only at returned
    rw [returned, count] at below
    omega
  · rintro ⟨rfl, small⟩
    refine ⟨bs, holds, _, t, done, rfl, count.symm, ?_, left⟩
    dsimp only
    rw [count, Int.bmod_eq_of_le (by omega) (by omega)]

/-- The blocks 1 to `n` were used, the first one last, and each has the node at its own number. -/
def filled (n : Nat) : Lru where
  heap a := if a = 0 ∨ n < a then none else some ⟨a, a - 1, if a = n then 0 else a + 1⟩
  numElements := n
  head := if n = 0 then 0 else 1
  tail := n
  hashMap b := if b = 0 ∨ n < b then none else some b

theorem filled_linked {n a k : Nat} (last : a + k = n) :
    Linked (filled n).heap a (List.range' (a + 1) k) 0 := by
  induction k generalizing a with
  | zero => trivial
  | succ k ih =>
    refine ⟨⟨a + 1, ?_⟩, ih (by omega)⟩
    cases k with
    | zero =>
      simp only [filled]
      rw [if_neg (by omega), if_pos (by omega)]
      rfl
    | succ k =>
      simp only [filled]
      rw [if_neg (by omega), if_neg (by omega)]
      rfl

theorem filled_inv {n : Nat} (small : n < 2 ^ 64) : (filled n).Inv := by
  refine inv_iff.mpr ⟨List.range' 1 n, ⟨filled_linked (Nat.zero_add n), List.nodup_range', fun a member => ?_, ?_, ?_, ?_,
    fun b a => ?_⟩, List.length_range'.symm⟩
  · rw [List.mem_range'_1] at member
    omega
  · simp [filled]
  · cases n <;> rfl
  · cases n with
    | zero => rfl
    | succ n =>
      rw [List.range'_concat, List.getLastD_concat]
      simp [filled, Nat.add_comm]
  · rw [List.mem_range'_1]
    simp only [filled, Heap.valueAt]
    by_cases inside : b = 0 ∨ n < b
    · rw [if_pos inside]
      refine iff_of_false (by simp) ?_
      rintro ⟨bound, value⟩
      rw [if_neg (by omega), Option.map_some, Option.some.injEq] at value
      have same : a = b := value
      omega
    · rw [if_neg inside, Option.some.injEq]
      constructor
      · rintro rfl
        rw [if_neg inside]
        exact ⟨by omega, rfl⟩
      · rintro ⟨bound, value⟩
        rw [if_neg (by omega), Option.map_some, Option.some.injEq] at value
        exact value.symm

theorem evict_pass_iff_filled : (filled 10241).EvictsExactly evictionThreshold ↔
    evictionThreshold = 0 ∧ (filled 10241).numElements < 2 ^ 31 :=
  evict_pass_iff (filled_inv (by decide)) (by decide)

/-- With 10241 blocks in the list and the threshold of the source, the one block too many is
passed on and a second one is lost. -/
theorem evict_drops_block : (filled 10241).Inv ∧ evictionThreshold < (filled 10241).numElements ∧
    ¬(filled 10241).EvictsExactly evictionThreshold :=
  ⟨filled_inv (by decide), by decide, fun exactly => absurd (exactly.threshold_eq (by decide)) (by decide)⟩

end Lru

end Bpfs
