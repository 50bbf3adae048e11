import Bpfs.Lru
import Bpfs.Lib.Recency
import Mathlib.Data.Finset.Card
import Mathlib.Order.Interval.Finset.Nat

/-! What the list of recently used blocks should be at all times, and exactly which calls
keep it so: taking out the last element leaves its key in the hash map, and deleting
entries does not change the count. -/

namespace Bpfs
open Lib

namespace Lru

variable {s : Lru} {l : List Nat} {a v : Nat}

/-- The nodes at `l`, head first, are what the links, the two ends and the hash map all
describe. -/
structure Describes (s : Lru) (l : List Nat) : Prop where
  linked : Linked s.heap 0 l 0
  nodup : l.Nodup
  present : ∀ a ∈ l, a ≠ 0 ∧ a < 2 ^ 64
  null : s.heap 0 = none
  head : s.head = l.headD 0
  tail : s.tail = l.getLastD 0
  keys : ∀ b a, s.hashMap b = some a ↔ a ∈ l ∧ s.heap.valueAt a = some b

/-- The representation invariant. -/
def Inv (s : Lru) : Prop :=
  ∃ l, s.Describes l ∧ s.numElements = l.length ∧ (l.map s.heap.valueAt).Nodup

theorem Describes.value (holds : s.Describes l) (member : a ∈ l) : ∃ b, s.heap.valueAt a = some b := by
  obtain ⟨node, here⟩ := Option.ne_none_iff_exists'.mp (holds.linked.live member)
  exact ⟨node.value, by rw [Heap.valueAt, here]; rfl⟩

/-- Two nodes of the list never carry the same block number: the hash map has one of them. -/
theorem Describes.distinct (holds : s.Describes l) : (l.map s.heap.valueAt).Nodup := by
  refine List.Nodup.map_on (fun a first a' second same => ?_) holds.nodup
  obtain ⟨b, value⟩ := holds.value first
  have one := (holds.keys b a).mpr ⟨first, value⟩
  have two := (holds.keys b a').mpr ⟨second, by rw [← same]; exact value⟩
  exact Option.some.inj (one.symm.trans two)

theorem inv_iff : s.Inv ↔ ∃ l, s.Describes l ∧ s.numElements = l.length :=
  ⟨fun ⟨l, holds, count, _⟩ => ⟨l, holds, count⟩, fun ⟨l, holds, count⟩ => ⟨l, holds, count, holds.distinct⟩⟩

/-- The invariant holds, and the list has the blocks `bs`, most recently used first. -/
def Recent (s : Lru) (bs : List Nat) : Prop :=
  ∃ l, s.Describes l ∧ s.numElements = l.length ∧ l.map s.heap.valueAt = bs.map some

theorem inv_iff_recent : s.Inv ↔ ∃ bs, s.Recent bs := by
  rw [inv_iff]
  constructor
  · rintro ⟨l, holds, count⟩
    obtain ⟨bs, values⟩ := holds.linked.values
    exact ⟨bs, l, holds, count, values⟩
  · rintro ⟨bs, l, holds, count, -⟩
    exact ⟨l, holds, count⟩

theorem Recent.nodup {bs : List Nat} (recent : s.Recent bs) : bs.Nodup := by
  obtain ⟨l, holds, -, values⟩ := recent
  have distinct := holds.distinct
  rw [values] at distinct
  exact distinct.of_map some

/-- Addresses are 64-bit numbers, so a count of nodes never wraps. -/
theorem length_lt (nodup : l.Nodup) (present : ∀ a ∈ l, a ≠ 0 ∧ a < 2 ^ 64) : l.length < 2 ^ 64 := by
  have inside : l.toFinset ⊆ Finset.Ioo 0 (2 ^ 64) := by
    intro a member
    have bound := present a (List.mem_toFinset.mp member)
    exact Finset.mem_Ioo.mpr ⟨Nat.pos_of_ne_zero bound.1, bound.2⟩
  have count := Finset.card_le_card inside
  rw [List.toFinset_card_of_nodup nodup, Nat.card_Ioo] at count
  omega

theorem Describes.length_lt (holds : s.Describes l) : l.length < 2 ^ 64 := Lru.length_lt holds.nodup holds.present

/-- Nothing but the links of nodes outside the list changed. -/
theorem Describes.frame {t : Lru} (holds : s.Describes l) (same : ∀ a ∈ l, t.heap a = s.heap a)
    (null : t.heap 0 = none) (head : t.head = s.head) (tail : t.tail = s.tail) (keys : t.hashMap = s.hashMap) :
    t.Describes l := by
  refine ⟨holds.linked.congr same, holds.nodup, holds.present, null, head.trans holds.head, tail.trans holds.tail,
    fun b a => ?_⟩
  rw [keys, holds.keys]
  refine and_congr_right (fun member => ?_)
  rw [Heap.valueAt, Heap.valueAt, same a member]

/-! ### The pointer operations -/

section Rules

variable {Q : Unit → Lru → Prop} {E : LruErr → Lru → Prop}

theorem wp_loadNode {Q : Node Nat → Lru → Prop} {node : Node Nat} (present : a ≠ 0) (here : s.heap a = some node) :
    wp (loadNode a) Q E s ↔ Q node s := by
  simp only [loadNode, wp_bind, wp_get, if_neg present, here, wp_pure]

theorem wp_storeNext (present : a ≠ 0) (live : s.heap a ≠ none) :
    wp (storeNext a v) Q E s ↔ Q () { s with heap := s.heap.setNext a v } := by
  obtain ⟨node, here⟩ := Option.ne_none_iff_exists'.mp live
  simp only [storeNext, wp_bind, wp_loadNode present here, wp_modify]

theorem wp_storePrev (present : a ≠ 0) (live : s.heap a ≠ none) :
    wp (storePrev a v) Q E s ↔ Q () { s with heap := s.heap.setPrev a v } := by
  obtain ⟨node, here⟩ := Option.ne_none_iff_exists'.mp live
  simp only [storePrev, wp_bind, wp_loadNode present here, wp_modify]

theorem wp_freeNode (present : a ≠ 0) (live : s.heap a ≠ none) :
    wp (freeNode a) Q E s ↔ Q () { s with heap := s.heap.set a none } := by
  obtain ⟨node, here⟩ := Option.ne_none_iff_exists'.mp live
  simp only [freeNode, wp_bind, wp_loadNode present here, wp_modify]

theorem wp_setHead : wp (setHead a) Q E s ↔ Q () { s with head := a } := Iff.rfl

theorem wp_setTail : wp (setTail a) Q E s ↔ Q () { s with tail := a } := Iff.rfl

theorem wp_hashMapErase {b : Nat} : wp (hashMapErase b) Q E s ↔
    Q () { s with hashMap := fun c => if c = b then none else s.hashMap c } := Iff.rfl

theorem wp_countUp : wp countUp Q E s ↔ Q () { s with numElements := u64 (s.numElements + 1) } := Iff.rfl

theorem wp_countDown : wp countDown Q E s ↔ Q () { s with numElements := usub s.numElements 1 } := Iff.rfl

end Rules

/-- A node that is not in the list becomes its head. -/
theorem pushFront_spec {first : Nat} {rest : List Nat} (linked : Linked s.heap 0 (first :: rest) 0)
    (nodup : (first :: rest).Nodup) (head : s.head = first) (nonzero : first ≠ 0) (present : a ≠ 0)
    (live : s.heap a ≠ none) (new : a ∉ first :: rest) :
    wp (pushFront a)
      (fun _ t => ∃ heap, t = { s with heap := heap, head := a } ∧ Linked heap 0 (a :: first :: rest) 0 ∧
        (∀ b, heap.valueAt b = s.heap.valueAt b) ∧ ∀ b, b ≠ a → b ≠ first → heap b = s.heap b)
      (fun _ _ => False) s := by
  have firstLive : s.heap first ≠ none := linked.live (List.mem_cons_self ..)
  simp only [pushFront, wp_bind, wp_get, setHead, wp_modify, head]
  rw [wp_storeNext present live, wp_storePrev nonzero, wp_storePrev present]
  · refine ⟨_, rfl, linked.cons nodup live new, by simp, fun b here away => ?_⟩
    exact (Heap.setPrev_other _ _ here).trans ((Heap.setPrev_other _ _ away).trans (Heap.setNext_other _ _ here))
  · simpa only [ne_eq, Heap.setNext_eq_none, Heap.setPrev_eq_none] using live
  · simpa only [ne_eq, Heap.setNext_eq_none] using firstLive

section Middle

variable {front back : List Nat} {p : Nat}

theorem Describes.node (holds : s.Describes (front ++ p :: back)) :
    ∃ v, s.heap p = some ⟨v, front.getLastD 0, back.headD 0⟩ := holds.linked.node

theorem Describes.notMem (holds : s.Describes (front ++ p :: back)) : p ∉ front ++ back := by
  have split := List.nodup_middle.mp holds.nodup
  exact (List.nodup_cons.mp split).1

/-- The neighbours of a node are in the list, or there are none. -/
theorem Describes.last (holds : s.Describes (front ++ p :: back)) (some : front ≠ []) :
    front.getLastD 0 ∈ front ∧ front.getLastD 0 ≠ 0 ∧ front.getLastD 0 ≠ p := by
  obtain ⟨init, q, rfl⟩ := (List.eq_nil_or_concat' front).resolve_left some
  have member : q ∈ init ++ [q] := List.mem_append_right _ (List.mem_singleton_self _)
  rw [List.getLastD_concat]
  exact ⟨member, (holds.present q (List.mem_append_left _ member)).1,
    fun same => holds.notMem (List.mem_append_left _ (same ▸ member))⟩

theorem Describes.next (holds : s.Describes (front ++ p :: back)) (some : back ≠ []) :
    back.headD 0 ∈ back ∧ back.headD 0 ≠ 0 ∧ back.headD 0 ≠ p := by
  obtain ⟨r, rest, rfl⟩ := List.exists_cons_of_ne_nil some
  have member : r ∈ r :: rest := List.mem_cons_self ..
  exact ⟨member, (holds.present r (List.mem_append_right _ (List.mem_cons_of_mem _ member))).1,
    fun same => holds.notMem (List.mem_append_right _ (same ▸ member))⟩

/-- A node that is not the last one does not count for the tail. -/
theorem Describes.tail_eq (holds : s.Describes (front ++ p :: back)) (some : back ≠ []) :
    s.tail = (front ++ back).getLastD 0 := by
  rw [holds.tail]
  obtain ⟨init, r, rfl⟩ := (List.eq_nil_or_concat' back).resolve_left some
  rw [← List.append_assoc, List.getLastD_concat, ← List.cons_append, ← List.append_assoc, List.getLastD_concat]

theorem Describes.head_eq (holds : s.Describes (front ++ p :: back)) (some : front ≠ []) :
    s.head = (front ++ back).headD 0 := by
  obtain ⟨first, rest, rfl⟩ := List.exists_cons_of_ne_nil some
  exact holds.head

/-- The heap in which the neighbours of a node are linked to each other. -/
def bypass (heap : Heap Nat) (front back : List Nat) : Heap Nat :=
  (heap.setNext (front.getLastD 0) (back.headD 0)).setPrev (back.headD 0) (front.getLastD 0)

@[simp] theorem valueAt_bypass (heap : Heap Nat) (b : Nat) : (bypass heap front back).valueAt b = heap.valueAt b := by
  simp [bypass]

theorem bypass_eq_none (heap : Heap Nat) (b : Nat) : bypass heap front back b = none ↔ heap b = none := by
  simp [bypass, Heap.setNext_eq_none, Heap.setPrev_eq_none]

theorem bypass_nil_left {heap : Heap Nat} (null : heap 0 = none) (back : List Nat) :
    bypass heap [] back = heap.setPrev (back.headD 0) 0 := by
  change (heap.setNext 0 _).setPrev _ 0 = _
  rw [Heap.setNext_none _ _ null]

theorem bypass_nil_right {heap : Heap Nat} (null : heap 0 = none) (front : List Nat) :
    bypass heap front [] = heap.setNext (front.getLastD 0) 0 :=
  Heap.setPrev_none _ _ ((Heap.setNext_eq_none _ _).mpr null)

/-- Only the neighbours change. -/
theorem bypass_other {heap : Heap Nat} {c : Nat} (null : heap 0 = none) (out : c ∉ front ++ back) :
    bypass heap front back c = heap c := by
  by_cases zero : c = 0
  · rw [zero, (bypass_eq_none heap 0).mpr null, null]
  have before : c ≠ front.getLastD 0 := by
    rcases List.eq_nil_or_concat' front with rfl | ⟨init, q, rfl⟩
    · exact zero
    · rw [List.getLastD_concat]
      exact fun same => out (by simp [same])
  have behind : c ≠ back.headD 0 := by
    cases back with
    | nil => exact zero
    | cons r rest => exact fun same => out (by simp [same])
  rw [bypass, Heap.setPrev_other _ _ behind, Heap.setNext_other _ _ before]

theorem Describes.linked_bypass (holds : s.Describes (front ++ p :: back)) :
    Linked (bypass s.heap front back) 0 (front ++ back) 0 :=
  holds.linked.unlink holds.nodup (fun b member => (holds.present b member).1)

/-- Taking a node that is not the head out of its place. -/
theorem takeOut_spec (holds : s.Describes (front ++ p :: back)) (inside : front ≠ []) :
    wp (takeOut p)
      (fun _ t => t = { s with heap := bypass s.heap front back, tail := (front ++ back).getLastD 0 })
      (fun _ _ => False) s := by
  obtain ⟨v, here⟩ := holds.node
  obtain ⟨member, nonzero, other⟩ := holds.last inside
  have present : p ≠ 0 := (holds.present p (by simp)).1
  have live : s.heap (front.getLastD 0) ≠ none := holds.linked.live (List.mem_append_left _ member)
  have again : (s.heap.setNext (front.getLastD 0) (back.headD 0)) p = some ⟨v, front.getLastD 0, back.headD 0⟩ := by
    rw [Heap.setNext_other _ _ (Ne.symm other)]
    exact here
  simp only [takeOut, wp_bind]
  rw [wp_loadNode present here]
  simp only [if_neg nonzero, wp_bind]
  rw [wp_storeNext nonzero live, wp_loadNode present again, wp_ite]
  refine ⟨fun some => ?_, fun none => ?_⟩
  · have filled : back ≠ [] := fun empty => some (by rw [empty]; rfl)
    have nextLive : s.heap (back.headD 0) ≠ none := holds.linked.live
      (List.mem_append_right _ (List.mem_cons_of_mem _ (holds.next filled).1))
    rw [wp_storePrev some (by simpa only [ne_eq, Heap.setNext_eq_none] using nextLive)]
    rw [← holds.tail_eq filled]
    rfl
  · have empty : back = [] := by
      by_contra filled
      exact none (holds.next filled).2.1
    subst empty
    simp only [setTail, wp_modify, List.append_nil]
    rw [bypass_nil_right holds.null]
    rfl

end Middle

/-! ### The three calls -/

theorem clearLinks {heap : Heap Nat} {b : Nat} (value : heap.valueAt a = some b) :
    (heap.setPrev a 0).setNext a 0 = heap.set a (some ⟨b, 0, 0⟩) := by
  obtain ⟨node, here, rfl⟩ := Option.map_eq_some_iff.mp value
  funext c
  by_cases same : c = a
  · simp [same, Heap.setNext, Heap.setPrev, here]
  · rw [Heap.setNext_other _ _ same, Heap.setPrev_other _ _ same, Heap.set_other _ _ same]

/-- A node outside the list is changed. -/
theorem Describes.outside (holds : s.Describes l) {b : Nat} (new : a ∉ l) (present : a ≠ 0) :
    ({ s with heap := s.heap.set a (some ⟨b, 0, 0⟩) } : Lru).Describes l := by
  refine holds.frame (fun c member => ?_) ?_ rfl rfl rfl
  · exact Heap.set_other _ _ (fun same => new (same ▸ member))
  · exact (Heap.set_other _ _ (Ne.symm present)).trans holds.null

/-- The new key is inserted for a node that became the head. -/
theorem Describes.insert {t : Lru} {b : Nat} (holds : s.Describes l) (new : a ∉ l) (bound : a ≠ 0 ∧ a < 2 ^ 64)
    (value : s.heap.valueAt a = some b) (free : s.hashMap b = none)
    (linked : Linked t.heap 0 (a :: l) 0) (values : ∀ c, t.heap.valueAt c = s.heap.valueAt c)
    (null : t.heap 0 = none) (head : t.head = a) (tail : t.tail = (a :: l).getLastD 0)
    (map : t.hashMap = fun c => if c = b then some ((s.hashMap c).getD a) else s.hashMap c) :
    t.Describes (a :: l) := by
  refine ⟨linked, List.nodup_cons.mpr ⟨new, holds.nodup⟩, ?_, null, head, tail, fun c d => ?_⟩
  · rintro c (_ | ⟨_, member⟩)
    · exact bound
    · exact holds.present c member
  · rw [values, List.mem_cons, map]
    by_cases same : c = b
    · subst same
      simp only [if_true, free, Option.getD_none, Option.some.injEq]
      constructor
      · rintro rfl
        exact ⟨Or.inl rfl, value⟩
      · rintro ⟨rfl | member, found⟩
        · rfl
        · rw [(holds.keys c d).mpr ⟨member, found⟩] at free
          cases free
    · simp only [if_neg same, holds.keys]
      constructor
      · exact fun both => ⟨Or.inr both.1, both.2⟩
      · rintro ⟨rfl | member, found⟩
        · exact absurd (Option.some.inj (found.symm.trans value)) same
        · exact ⟨member, found⟩

/-- A node that was taken out, freed and erased from the hash map is gone. -/
theorem Describes.remove {t : Lru} {front back : List Nat} {p b : Nat} (holds : s.Describes (front ++ p :: back))
    (value : s.heap.valueAt p = some b) (heap : t.heap = (bypass s.heap front back).set p none)
    (map : t.hashMap = fun c => if c = b then none else s.hashMap c) (head : t.head = (front ++ back).headD 0)
    (tail : t.tail = (front ++ back).getLastD 0) : t.Describes (front ++ back) := by
  have out := holds.notMem
  have others : ∀ c, c ∈ front ++ back → c ≠ p := fun c member same => out (same ▸ member)
  refine ⟨?_, (List.nodup_cons.mp (List.nodup_middle.mp holds.nodup)).2, fun c member => ?_, ?_, head, tail, fun c d => ?_⟩
  · rw [heap]
    exact holds.linked_bypass.congr (fun c member => Heap.set_other _ _ (others c member))
  · exact holds.present c (List.perm_middle.mem_iff.mpr (List.mem_cons_of_mem _ member))
  · rw [heap, Heap.set_other _ _ (Ne.symm (holds.present p (by simp)).1), bypass_eq_none]
    exact holds.null
  · have values : ∀ c, c ≠ p → t.heap.valueAt c = s.heap.valueAt c := by
      intro c other
      rw [heap, Heap.valueAt, Heap.set_other _ _ other]
      exact valueAt_bypass _ c
    rw [map]
    by_cases same : c = b
    · simp only [if_pos same, reduceCtorEq, false_iff, not_and]
      intro member found
      rw [values d (others d member), same] at found
      have one := (holds.keys b d).mpr ⟨List.perm_middle.mem_iff.mpr (List.mem_cons_of_mem _ member), found⟩
      have two := (holds.keys b p).mpr ⟨by simp, value⟩
      exact others d member (Option.some.inj (one.symm.trans two))
    · simp only [if_neg same, holds.keys]
      constructor
      · rintro ⟨member, found⟩
        have other : d ≠ p := by
          rintro rfl
          exact same (Option.some.inj (found.symm.trans value))
        rw [values d other]
        exact ⟨(List.mem_cons.mp (List.perm_middle.mem_iff.mp member)).resolve_left other, found⟩
      · rintro ⟨member, found⟩
        rw [values d (others d member)] at found
        exact ⟨List.perm_middle.mem_iff.mpr (List.mem_cons_of_mem _ member), found⟩

/-- A use of a known block moves its node to the front. -/
theorem Describes.touch_middle {front back : List Nat} {p b : Nat} (holds : s.Describes (front ++ p :: back))
    (value : s.heap.valueAt p = some b) :
    touch (some b) ((front ++ p :: back).map s.heap.valueAt) = (p :: (front ++ back)).map s.heap.valueAt := by
  have distinct := holds.distinct
  rw [List.map_append, List.map_cons, value] at distinct ⊢
  rw [Lib.touch_middle distinct, List.map_cons, value, List.map_append]

/-- A use of a new block puts its node in front. -/
theorem Describes.touch_missing {b : Nat} (holds : s.Describes l) (free : s.hashMap b = none)
    (value : s.heap.valueAt a = some b) : touch (some b) (l.map s.heap.valueAt) = (a :: l).map s.heap.valueAt := by
  rw [List.map_cons, value]
  refine touch_new (fun member => ?_)
  obtain ⟨c, inside, here⟩ := List.mem_map.mp member
  rw [(holds.keys b c).mpr ⟨inside, here⟩] at free
  cases free

/-- What `lru_push` does with the node at `a` for block `b`: the block moves to the front,
every node keeps its block number, and no other node outside the list changes. -/
structure Pushed (s : Lru) (l : List Nat) (a b : Nat) (t : Lru) (l' : List Nat) : Prop where
  describes : t.Describes l'
  count : t.numElements = l'.length
  order : l'.map s.heap.valueAt = touch (some b) (l.map s.heap.valueAt)
  values : ∀ c, t.heap.valueAt c = s.heap.valueAt c
  inside : ∀ c ∈ l', c = a ∨ c ∈ l
  frame : ∀ c, c ≠ a → c ∉ l → t.heap c = s.heap c

theorem lruPush_spec {b : Nat} (holds : s.Describes l) (count : s.numElements = l.length)
    (bound : a ≠ 0 ∧ a < 2 ^ 64) (new : a ∉ l) (value : s.heap.valueAt a = some b) :
    wp (lruPush a) (fun _ t => ∃ l', Pushed s l a b t l') (fun _ _ => False) s := by
  have present := bound.1
  have live : s.heap a ≠ none := fun none => by simp [Heap.valueAt, none] at value
  -- with its links cleared the node is as `malloc` made it
  have holds' := holds.outside (b := b) new present
  have here : (s.heap.set a (some ⟨b, 0, 0⟩)) a = some ⟨b, 0, 0⟩ := Heap.set_self _ _ _
  have live' : (s.heap.set a (some ⟨b, 0, 0⟩)) a ≠ none := by rw [here]; exact Option.some_ne_none _
  have same : ∀ c, (s.heap.set a (some ⟨b, 0, 0⟩)).valueAt c = s.heap.valueAt c := by
    intro c
    rw [← clearLinks value, Heap.valueAt_setNext, Heap.valueAt_setPrev]
  have other : ∀ c, c ≠ a → (s.heap.set a (some ⟨b, 0, 0⟩)) c = s.heap c := fun c => Heap.set_other _ _
  simp only [lruPush, wp_bind]
  rw [wp_storePrev present live, wp_storeNext present (by simpa only [ne_eq, Heap.setPrev_eq_none] using live)]
  simp only [wp_get, clearLinks value]
  rw [wp_loadNode present here]
  simp only [wp_ite, hashMapInsert, setHead, setTail, countUp, wp_bind, wp_modify]
  refine ⟨fun none => ?_, fun some => ⟨fun found => ?_, fun missing => ?_⟩⟩
  · have empty : l = [] := List.length_eq_zero_iff.mp (count.symm.trans none)
    subst empty
    have free : s.hashMap b = .none := by
      cases key : s.hashMap b with
      | none => rfl
      | some c => exact absurd ((holds.keys b c).mp key).1 List.not_mem_nil
    refine ⟨[a], holds'.insert new bound ((same a).trans value) free ⟨⟨b, here⟩, trivial⟩ (fun _ => rfl) holds'.null rfl
      rfl rfl, by rw [none]; rfl, ?_, same, fun c member => Or.inl (List.mem_singleton.mp member), fun c away _ => ?_⟩
    · rw [List.map_singleton, value]
      rfl
    · exact other c away
  · -- the block is known: its node moves to the front
    obtain ⟨p, key⟩ : ∃ p, s.hashMap b = .some p := by
      cases key : s.hashMap b with
      | none => exact absurd (by simp [hashMapFind, key]) found
      | some p => exact ⟨p, rfl⟩
    have find : hashMapFind { s with heap := s.heap.set a (.some ⟨b, 0, 0⟩) } b = p := by simp [hashMapFind, key]
    rw [find]
    obtain ⟨member, known⟩ := (holds.keys b p).mp key
    obtain ⟨front, back, rfl⟩ := List.append_of_mem member
    have order := (holds.touch_middle known).symm
    refine ⟨fun apart => ?_, fun first => ?_⟩
    · have inside : front ≠ [] := by
        rintro rfl
        exact apart (by rw [holds.head]; rfl)
      obtain ⟨first, rest, rfl⟩ := List.exists_cons_of_ne_nil inside
      refine wp_mono (takeOut_spec holds' inside) (fun _ t taken => ?_) (fun _ _ never => never)
      subst taken
      have nodup := List.nodup_cons.mp (List.nodup_middle.mp holds.nodup)
      have nonzero : p ≠ 0 := (holds.present p member).1
      refine wp_mono (pushFront_spec holds'.linked_bypass nodup.2
        (by rw [holds.head]; rfl) (holds.present first (by simp)).1 nonzero ?_ nodup.1) ?_ (fun _ _ never => never)
      · rw [ne_eq, bypass_eq_none]
        exact holds'.linked.live member
      · rintro - t ⟨heap, rfl, linked, values, frame⟩
        have null : heap 0 = none := by
          rw [frame 0 (Ne.symm nonzero) (Ne.symm (holds.present first (by simp)).1), bypass_eq_none]
          exact holds'.null
        refine ⟨p :: (first :: rest ++ back), ⟨linked, List.nodup_cons.mpr nodup, fun c inside => ?_, null, rfl, ?_,
          fun c d => ?_⟩, ?_, order, fun c => ?_, fun c inside => ?_, fun c away out => ?_⟩
        · exact holds.present c (List.perm_middle.mem_iff.mpr inside)
        · change (first :: (rest ++ back)).getLastD 0 = (p :: first :: (rest ++ back)).getLastD 0
          simp only [List.getLastD_cons]
        · rw [values, valueAt_bypass, ← List.perm_middle.mem_iff]
          exact holds'.keys c d
        · rw [← List.perm_middle.length_eq]
          exact count
        · rw [values, valueAt_bypass]
          exact same c
        · exact Or.inr (List.perm_middle.mem_iff.mpr inside)
        · have out' : c ∉ p :: (first :: rest ++ back) := fun inside => out (List.perm_middle.mem_iff.mpr inside)
          have same := frame c (fun same => out (same ▸ member)) (fun same => out (same ▸ by simp))
          have away' := bypass_other holds'.null (fun inside => out' (List.mem_cons_of_mem _ inside))
          exact same.trans (away'.trans (other c away))
    · -- it is the head already
      have empty : front = [] := by
        by_contra inside
        have head := holds.head_eq inside
        obtain ⟨first', rest, rfl⟩ := List.exists_cons_of_ne_nil inside
        refine holds.notMem ?_
        rw [not_not.mp first]
        rw [head]
        exact List.mem_cons_self ..
      subst empty
      exact ⟨p :: back, holds', count, order, same, fun c => Or.inr, fun c away _ => other c away⟩
  · have free : s.hashMap b = none := by
      cases key : s.hashMap b with
      | none => rfl
      | some p =>
        exfalso
        apply missing
        simp only [hashMapFind, key, Option.getD_some]
        exact (holds.present p ((holds.keys b p).mp key).1).1
    obtain ⟨first, rest, rfl⟩ := List.exists_cons_of_ne_nil (fun empty => some (by rw [count, empty]; rfl) : l ≠ [])
    have nonzero : first ≠ 0 := (holds.present first (by simp)).1
    refine wp_mono (pushFront_spec holds'.linked holds.nodup holds.head nonzero present live' new) ?_
      (fun _ _ never => never)
    rintro - t ⟨heap, rfl, linked, values, frame⟩
    have null : heap 0 = .none := (frame 0 (Ne.symm present) (Ne.symm nonzero)).trans holds'.null
    have done : Describes ⟨heap, u64 (s.numElements + 1), a, s.tail,
        fun c => if c = b then .some ((s.hashMap c).getD a) else s.hashMap c⟩ (a :: first :: rest) :=
      holds'.insert new bound ((same a).trans value) free linked values null rfl
        (by simp only [List.getLastD_cons, holds.tail]) rfl
    refine ⟨a :: first :: rest, done, ?_, ?_, fun c => (values c).trans (same c), fun c => List.mem_cons.mp, ?_⟩
    · change u64 (s.numElements + 1) = _
      rw [count, u64]
      exact Nat.mod_eq_of_lt done.length_lt
    · exact (holds.touch_missing free value).symm
    · intro c away out
      exact (frame c away (fun same => out (same ▸ List.mem_cons_self ..))).trans (other c away)

theorem push_spec {b : Nat} (holds : s.Describes l) (count : s.numElements = l.length)
    (fresh : (Op.push a b).Fresh s) :
    wp (Op.push a b).step (fun _ t => ∃ l', t.Describes l' ∧ t.numElements = l'.length) (fun _ _ => False) s := by
  obtain ⟨present, small, unused⟩ := fresh
  have new : a ∉ l := fun member => holds.linked.live member unused
  have value : (s.heap.set a (some ⟨b, 0, 0⟩)).valueAt a = some b := by rw [Heap.valueAt, Heap.set_self]; rfl
  simp only [Op.step, mallocNode, wp_bind, wp_modify]
  refine wp_mono (lruPush_spec (holds.outside new present) count ⟨present, small⟩ new value) ?_ (fun _ _ never => never)
  rintro - t ⟨l', pushed⟩
  exact ⟨l', pushed.describes, pushed.count⟩

/-- `lru_pop` and the `free` of its result take out the last of two or more nodes. -/
theorem pop_spec (holds : s.Describes l) (count : s.numElements = l.length) (several : l.length ≠ 1) :
    wp Op.pop.step (fun _ t => ∃ l', t.Describes l' ∧ t.numElements = l'.length) (fun _ _ => False) s := by
  simp only [Op.step, lruPop, wp_bind, wp_get, count]
  rw [wp_ite]
  refine ⟨fun _ => ?_, fun some => ?_⟩
  · simp only [wp_pure, ne_eq, not_true, if_false]
    exact ⟨l, holds, count⟩
  rw [if_neg several]
  obtain ⟨front, p, rfl⟩ := (List.eq_nil_or_concat' l).resolve_left (fun empty => some (by rw [empty]; rfl))
  have inside : front ≠ [] := by
    rintro rfl
    exact several rfl
  obtain ⟨v, here⟩ := holds.node
  obtain ⟨member, nonzero, other⟩ := holds.last inside
  have present : p ≠ 0 := (holds.present p (by simp)).1
  have tail : s.tail = p := by rw [holds.tail, List.getLastD_concat]
  have live : s.heap (front.getLastD 0) ≠ none := holds.linked.live (List.mem_append_left _ member)
  have again : (s.heap.setNext (front.getLastD 0) 0) p = .some ⟨v, front.getLastD 0, 0⟩ := by
    rw [Heap.setNext_other _ _ (Ne.symm other)]
    exact here
  have less : usub s.numElements 1 = front.length := by
    have bound := holds.length_lt
    rw [count, usub]
    rw [List.length_append, List.length_singleton] at bound ⊢
    omega
  rw [tail, wp_bind, wp_loadNode present here, wp_bind, wp_setTail, wp_bind]
  refine (wp_storeNext nonzero ?_).mpr ?_
  · exact live
  rw [wp_bind]
  refine (wp_loadNode present again).mpr ?_
  rw [wp_bind, wp_hashMapErase, wp_bind, wp_countDown, wp_pure, if_pos present]
  refine (wp_freeNode present ?_).mpr ?_
  · exact fun empty => Option.some_ne_none _ (again.symm.trans empty)
  have unlinked := bypass_nil_right holds.null front
  refine ⟨front ++ [], holds.remove (b := v) (by rw [Heap.valueAt, here]; rfl) (by rw [unlinked]) rfl ?_ ?_, ?_⟩
  · exact holds.head_eq inside
  · rw [List.append_nil]
  · rw [List.append_nil]
    exact less

/-- The list is determined by the state up to its order. -/
theorem Describes.mem_iff (holds : s.Describes l) : a ∈ l ↔ ∃ b, s.hashMap b = some a := by
  constructor
  · intro member
    obtain ⟨b, value⟩ := holds.value member
    exact ⟨b, (holds.keys b a).mpr ⟨member, value⟩⟩
  · rintro ⟨b, key⟩
    exact ((holds.keys b a).mp key).1

theorem Describes.length_eq {l' : List Nat} (holds : s.Describes l) (holds' : s.Describes l') : l.length = l'.length :=
  ((List.perm_ext_iff_of_nodup holds.nodup holds'.nodup).mpr
    (fun _ => holds.mem_iff.trans holds'.mem_iff.symm)).length_eq

/-- Taking out the only node leaves its key behind. -/
theorem pop_last (holds : s.Describes l) (count : s.numElements = l.length) (single : l.length = 1) :
    wp Op.pop.step (fun _ t => ¬t.Inv) (fun _ _ => False) s := by
  obtain ⟨p, rfl⟩ := List.length_eq_one_iff.mp single
  have present : p ≠ 0 := (holds.present p (by simp)).1
  have tail : s.tail = p := holds.tail
  have live := holds.linked.live (List.mem_singleton_self p)
  simp only [Op.step, lruPop, wp_bind, wp_get, count]
  rw [if_neg (by simp), if_pos single, wp_bind, wp_setTail, wp_bind, wp_setHead, wp_bind, wp_modify, wp_pure, tail,
    if_pos present]
  refine (wp_freeNode present ?_).mpr ?_
  · exact live
  intro inv
  obtain ⟨l', holds', -⟩ := inv_iff.mp inv
  obtain ⟨b, value⟩ := holds.value (List.mem_singleton_self p)
  have member := ((holds'.keys b p).mp ((holds.keys b p).mpr ⟨List.mem_singleton_self p, value⟩)).1
  have head := holds'.head
  cases l' with
  | nil => cases member
  | cons first rest => exact (holds'.present first (List.mem_cons_self ..)).1 head.symm

theorem deleteLruEntry_spec {b : Nat} (holds : s.Describes l) :
    wp (deleteLruEntry b)
      (fun _ t => t.numElements = s.numElements ∧ (t.hashMap = fun c => if c = b then none else s.hashMap c) ∧
        ∃ l', t.Describes l' ∧ (if s.hashMap b = none then l'.length = l.length else l'.length < l.length))
      (fun _ _ => False) s := by
  unfold deleteLruEntry
  rw [wp_bind, wp_get]
  cases key : s.hashMap b with
  | none =>
    have missing : s.hashMapFind b = 0 := by simp [hashMapFind, key]
    simp only [missing]
    rw [if_neg (not_not.mpr rfl), wp_pure]
    refine ⟨rfl, ?_, l, holds, if_pos trivial ▸ rfl⟩
    funext c
    by_cases same : c = b
    · rw [if_pos same, same, key]
    · rw [if_neg same]
  | some p =>
    have found : s.hashMapFind b = p := by simp [hashMapFind, key]
    obtain ⟨member, value⟩ := (holds.keys b p).mp key
    obtain ⟨front, back, rfl⟩ := List.append_of_mem member
    obtain ⟨v, here⟩ := holds.node
    have present : p ≠ 0 := (holds.present p member).1
    have live : bypass s.heap front back p ≠ none := by
      rw [ne_eq, bypass_eq_none, here]
      exact Option.some_ne_none _
    -- every branch ends with the same heap
    have finish : ∀ t : Lru, t = ⟨bypass s.heap front back, s.numElements, (front ++ back).headD 0,
        (front ++ back).getLastD 0, s.hashMap⟩ →
        wp (do
          freeNode p
          hashMapErase b)
          (fun _ t => t.numElements = s.numElements ∧ (t.hashMap = fun c => if c = b then none else s.hashMap c) ∧
            ∃ l', t.Describes l' ∧ (if some p = none then l'.length = (front ++ p :: back).length
              else l'.length < (front ++ p :: back).length)) (fun _ _ => False) t := by
      rintro t rfl
      rw [wp_bind]
      refine (wp_freeNode present live).mpr ?_
      rw [wp_hashMapErase]
      refine ⟨rfl, rfl, front ++ back, holds.remove value rfl rfl rfl rfl, ?_⟩
      simp
    simp only [found]
    rw [if_pos present, wp_bind, wp_loadNode present here]
    dsimp only
    have null : s.heap 0 = none := holds.null
    by_cases first : front = []
    · subst first
      by_cases last : back = []
      · subst last
        rw [if_pos ⟨rfl, rfl⟩, wp_bind, wp_setHead, wp_bind, wp_setTail]
        refine finish _ ?_
        have same : bypass s.heap [] [] = s.heap := (bypass_nil_left null []).trans (Heap.setPrev_none _ _ null)
        rw [same]
        rfl
      · obtain ⟨inside, nonzero, other⟩ := holds.next last
        rw [if_neg (fun both => nonzero both.2), if_pos (show ([] : List Nat).getLastD 0 = 0 from rfl), wp_bind]
        have back_live : s.heap (back.headD 0) ≠ none := holds.linked.live (List.mem_cons_of_mem _ inside)
        refine (wp_storePrev nonzero back_live).mpr ?_
        rw [wp_bind, wp_setHead]
        refine finish _ ?_
        rw [bypass_nil_left null, ← holds.tail_eq last]
        rfl
    · obtain ⟨inside, nonzero, other⟩ := holds.last first
      have front_live : s.heap (front.getLastD 0) ≠ none := holds.linked.live (List.mem_append_left _ inside)
      by_cases last : back = []
      · subst last
        rw [if_neg (fun both => nonzero both.1), if_neg nonzero,
          if_pos (show ([] : List Nat).headD 0 = 0 from rfl), wp_bind]
        refine (wp_storeNext nonzero front_live).mpr ?_
        rw [wp_bind, wp_setTail]
        refine finish _ ?_
        rw [bypass_nil_right null, ← holds.head_eq first, List.append_nil]
      · obtain ⟨inside', nonzero', other'⟩ := holds.next last
        have again : (s.heap.setNext (front.getLastD 0) (back.headD 0)) p =
            some ⟨v, front.getLastD 0, back.headD 0⟩ := by
          rw [Heap.setNext_other _ _ (Ne.symm other)]
          exact here
        have back_live : s.heap (back.headD 0) ≠ none :=
          holds.linked.live (List.mem_append_right _ (List.mem_cons_of_mem _ inside'))
        rw [if_neg (fun both => nonzero both.1), if_neg nonzero, if_neg nonzero', wp_bind]
        refine (wp_storeNext nonzero front_live).mpr ?_
        rw [wp_bind]
        refine (wp_loadNode present again).mpr ?_
        rw [wp_bind]
        refine (wp_storePrev nonzero' ?_).mpr (finish _ ?_)
        · exact fun empty => back_live ((Heap.setNext_eq_none _ _).mp empty)
        · rw [bypass, ← holds.head_eq first, ← holds.tail_eq last]

/-- Deleting entries takes their nodes out of the list but leaves the count as it is. -/
theorem deleteLruEntries_spec {blockNums : List Nat} (holds : s.Describes l) :
    wp (deleteLruEntries blockNums)
      (fun _ t => t.numElements = s.numElements ∧ ∃ l', t.Describes l' ∧ l'.length ≤ l.length ∧
        (l'.length = l.length ↔ ∀ b ∈ blockNums, s.hashMap b = none))
      (fun _ _ => False) s := by
  induction blockNums generalizing s l with
  | nil => exact ⟨rfl, l, holds, le_refl _, by simp⟩
  | cons b rest ih =>
    unfold deleteLruEntries
    rw [wp_bind]
    refine wp_mono (deleteLruEntry_spec holds) (fun _ t first => ?_) (fun _ _ never => never)
    obtain ⟨count, map, l', holds', size⟩ := first
    refine wp_mono (ih holds') (fun _ u second => ?_) (fun _ _ never => never)
    obtain ⟨count', l'', holds'', shorter, exact'⟩ := second
    refine ⟨count'.trans count, l'', holds'', ?_, ?_⟩
    · split at size <;> omega
    · by_cases free : s.hashMap b = none
      · have same : t.hashMap = s.hashMap := by
          funext c
          rw [map]
          dsimp only
          split
          · next key => rw [key, free]
          · rfl
        rw [if_pos free] at size
        rw [← size, exact', same]
        simp [free]
      · rw [if_neg free] at size
        simp only [List.mem_cons, forall_eq_or_imp, free, false_and, iff_false]
        omega

/-! ### Which calls keep the invariant -/

/-- A call that keeps the count, the list and the hash map together: it neither takes out
the only element nor deletes an entry that is there. -/
def Op.Keeps (s : Lru) : Op → Prop
  | .push _ _ => True
  | .pop => s.numElements ≠ 1
  | .delete blockNums => ∀ b ∈ blockNums, s.hashMap b = none

/-- From a right state every call runs through, and it leaves a right state just when it
is one of those that keep the three structures together. -/
theorem step_spec {op : Op} (inv : s.Inv) (fresh : op.Fresh s) :
    wp op.step (fun _ t => t.Inv ↔ op.Keeps s) (fun _ _ => False) s := by
  obtain ⟨l, holds, count⟩ := inv_iff.mp inv
  cases op with
  | push a b =>
    refine wp_mono (push_spec holds count fresh) (fun _ t after => ?_) (fun _ _ never => never)
    exact iff_of_true (inv_iff.mpr after) trivial
  | pop =>
    by_cases single : l.length = 1
    · refine wp_mono (pop_last holds count single) (fun _ t after => ?_) (fun _ _ never => never)
      exact iff_of_false after (fun keeps => keeps (count.trans single))
    · refine wp_mono (pop_spec holds count single) (fun _ t after => ?_) (fun _ _ never => never)
      exact iff_of_true (inv_iff.mpr after) (fun one => single (count.symm.trans one))
  | delete blockNums =>
    refine wp_mono (deleteLruEntries_spec holds) (fun _ t after => ?_) (fun _ _ never => never)
    obtain ⟨count', l', holds', -, exact'⟩ := after
    rw [inv_iff]
    refine Iff.trans ⟨?_, fun same => ⟨l', holds', ?_⟩⟩ exact'
    · rintro ⟨l'', holds'', length⟩
      rw [holds'.length_eq holds'', ← length, count', count]
    · rw [count', count, same]

/-- Every call of a run gets a fresh node and keeps the three structures together, in the
state in which it is made. -/
def Kept : Lru → List Op → Prop
  | _, [] => True
  | s, op :: ops => op.Fresh s ∧ op.Keeps s ∧ ∀ t, op.step s = .ok () t → Kept t ops

theorem run_kept {ops : List Op} (inv : s.Inv) (kept : Kept s ops) :
    wp (run ops) (fun _ t => t.Inv) (fun _ _ => False) s := by
  induction ops generalizing s with
  | nil => exact inv
  | cons op ops ih =>
    obtain ⟨fresh, keeps, later⟩ := kept
    have first := step_spec inv fresh
    unfold run
    rw [wp_bind]
    cases outcome : op.step s with
    | ok u t =>
      rw [wp_ok outcome] at first ⊢
      exact ih (first.mpr keeps) (later t outcome)
    | error e t =>
      rw [wp_error outcome] at first
      exact first.elim

theorem lruInit_inv_iff {garbage : Nat} : (lruInit garbage).Inv ↔ garbage = 0 := by
  have empty : (lruInit garbage).Describes [] :=
    ⟨trivial, List.nodup_nil, by simp, rfl, rfl, rfl, fun b a => by simp [lruInit]⟩
  rw [inv_iff]
  constructor
  · rintro ⟨l, holds, count⟩
    exact count.trans (holds.length_eq empty)
  · rintro rfl
    exact ⟨[], empty, rfl⟩

/-- The state after `lru_init` is right just when the memory for the count happened to
be zero; a call in a right state always runs through and leaves a right state just when
it keeps the three structures together; and so does a run of such calls. -/
theorem lru_inv_iff (garbage : Nat) (s : Lru) (inv : s.Inv) (op : Op) (fresh : op.Fresh s) (ops : List Op) :
    ((lruInit garbage).Inv ↔ garbage = 0) ∧
    (∃ t, op.step s = .ok () t ∧ (t.Inv ↔ op.Keeps s)) ∧
    (Kept s ops → ∃ t, run ops s = .ok () t ∧ t.Inv) := by
  refine ⟨lruInit_inv_iff, ?_, fun kept => ?_⟩
  · have spec := step_spec inv fresh
    cases outcome : op.step s with
    | ok u t => exact ⟨t, rfl, (wp_ok outcome).mp spec⟩
    | error e t => exact ((wp_error outcome).mp spec).elim
  · have spec := run_kept inv kept
    cases outcome : run ops s with
    | ok u t => exact ⟨t, rfl, (wp_ok outcome).mp spec⟩
    | error e t => exact ((wp_error outcome).mp spec).elim

/-- A block is used for the first time. -/
theorem lru_inv_iff_push :
    (∃ t, (Op.push 1 5).step (lruInit 0) = .ok () t ∧ (t.Inv ↔ (Op.push 1 5).Keeps (lruInit 0))) ∧
    ∃ t, run [.push 1 5] (lruInit 0) = .ok () t ∧ t.Inv := by
  have fresh : (Op.push 1 5).Fresh (lruInit 0) := ⟨by decide, by decide, rfl⟩
  have all := lru_inv_iff 0 (lruInit 0) (lruInit_inv_iff.mpr rfl) (.push 1 5) fresh [.push 1 5]
  exact ⟨all.2.1, all.2.2 ⟨fresh, trivial, fun _ _ => trivial⟩⟩

/-- How a run ended. -/
def failure {α : Type} : EStateM.Result LruErr Lru α → Option LruErr
  | .ok _ _ => none
  | .error e _ => some e

/-- A block is used, taken out as the only one and used twice again: the last call follows
a pointer to the node that was freed when it was taken out. -/
theorem lru_pop_last_dangles : (lruInit 0).Inv ∧
    failure (run [.push 1 5, .pop, .push 2 5, .push 3 5] (lruInit 0)) = some .dangling :=
  ⟨lruInit_inv_iff.mpr rfl, by decide +kernel⟩

end Lru

end Bpfs
