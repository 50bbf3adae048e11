import Bpfs.HashMap
import Mathlib.Data.Finmap

/-! What each part of the hash map does to the chains. -/

namespace Bpfs
open Lib

namespace HashMap

/-- What a key stands for: an address, or the string there. -/
inductive KeyName where
  | ptr (p : Nat)
  | str (s : List UInt8)
  deriving DecidableEq, Repr

variable {strings : Nat → List UInt8} {hm hm' : HashMap} {s t : ChainStore} {heap heap' : Heap HashMapElt}
  {type : KeyType} {chains : Nat → List Nat} {l l' : List Nat} {a i k n v : Nat} {e : HashMapElt}

def keyName (strings : Nat → List UInt8) (type : KeyType) (k : Nat) : KeyName :=
  match type with
  | .ptr => .ptr k
  | .str => .str (strings k)

theorem sameKey_iff {j : Nat} :
    sameKey strings type j k = true ↔ keyName strings type j = keyName strings type k := by
  cases type <;> simp [sameKey, keyName]

theorem hash_congr {j : Nat} (same : keyName strings hm.type j = keyName strings hm.type k) :
    hm.hash strings j = hm.hash strings k := by
  unfold hash keyName at *
  cases type : hm.type <;> rw [type] at same <;> simp_all

theorem hash_lt (positive : 0 < hm.buckets) : hm.hash strings k < hm.buckets := by
  unfold hash
  cases hm.type <;> exact Nat.mod_lt _ positive

/-! ### The pointer operations -/

section Rules

variable {Q : Unit → ChainStore → Prop} {E : HashErr → ChainStore → Prop}

theorem wp_loadElt {Q : Node HashMapElt → ChainStore → Prop} {node : Node HashMapElt} (present : a ≠ 0)
    (here : s.heap a = some node) : wp (loadElt a) Q E s ↔ Q node s := by
  simp only [loadElt, wp_bind, wp_get, if_neg present, here, wp_pure]

theorem wp_storeNext (present : a ≠ 0) (live : s.heap a ≠ none) :
    wp (storeNext a v) Q E s ↔ Q () { s with heap := s.heap.setNext a v } := by
  obtain ⟨node, here⟩ := Option.ne_none_iff_exists'.mp live
  simp only [storeNext, wp_bind, wp_loadElt present here, wp_modify]

theorem wp_storePrev (present : a ≠ 0) (live : s.heap a ≠ none) :
    wp (storePrev a v) Q E s ↔ Q () { s with heap := s.heap.setPrev a v } := by
  obtain ⟨node, here⟩ := Option.ne_none_iff_exists'.mp live
  simp only [storePrev, wp_bind, wp_loadElt present here, wp_modify]

theorem wp_storeElt {node : Node HashMapElt} (present : a ≠ 0) (here : s.heap a = some node) :
    wp (storeElt a e) Q E s ↔ Q () { s with heap := s.heap.set a (some { node with value := e }) } := by
  simp only [storeElt, wp_bind, wp_loadElt present here, wp_modify]

theorem wp_chainEltDestroy (present : a ≠ 0) (live : s.heap a ≠ none) :
    wp (chainEltDestroy a) Q E s ↔ Q () { s with heap := s.heap.set a none, freeList := a :: s.freeList } := by
  obtain ⟨node, here⟩ := Option.ne_none_iff_exists'.mp live
  simp only [chainEltDestroy, wp_bind, wp_loadElt present here, wp_modify]

end Rules

/-- Whether the element at `a` has the key looked for. -/
def matchesKey (strings : Nat → List UInt8) (heap : Heap HashMapElt) (type : KeyType) (k a : Nat) : Bool :=
  (heap.valueAt a).any fun e => sameKey strings type e.key k

theorem matchesKey_iff (value : heap.valueAt a = some e) :
    matchesKey strings heap type k a = true ↔ keyName strings type e.key = keyName strings type k := by
  rw [matchesKey, value, ← sameKey_iff]
  rfl

theorem chainSearch_spec {p : Nat} (linked : Linked s.heap p l 0) (present : ∀ a ∈ l, a ≠ 0) (enough : l.length ≤ n) :
    wp (chainSearch strings type k n (l.headD 0))
      (fun r t => t = s ∧ r = (l.find? (matchesKey strings s.heap type k)).getD 0) (fun _ _ => False) s := by
  induction l generalizing n p with
  | nil => cases n <;> exact ⟨rfl, rfl⟩
  | cons a l ih =>
    obtain ⟨⟨e, here⟩, rest⟩ := linked
    obtain ⟨nonzero, others⟩ := List.forall_mem_cons.mp present
    have value : s.heap.valueAt a = some e := by rw [Heap.valueAt, here]; rfl
    cases n with
    | zero => exact absurd enough (Nat.not_succ_le_zero _)
    | succ n =>
      rw [List.headD_cons, chainSearch, if_neg nonzero, wp_bind, wp_loadElt nonzero here, wp_ite]
      refine ⟨fun same => ⟨rfl, ?_⟩, fun differ => ?_⟩
      · rw [List.find?_cons_of_pos ((matchesKey_iff value).mpr (sameKey_iff.mp same))]
        rfl
      · rw [List.find?_cons_of_neg (fun same => differ (sameKey_iff.mpr ((matchesKey_iff value).mp same)))]
        exact ih rest others (Nat.le_of_succ_le_succ enough)

/-- The pool: elements that are free are not in use, and no address behind its pages is. -/
structure Pool (s : ChainStore) : Prop where
  null : s.heap 0 = none
  fresh : ∀ a, s.brk ≤ a → s.heap a = none
  free : ∀ a ∈ s.freeList, s.heap a = none ∧ a ≠ 0 ∧ a < s.brk
  nodup : s.freeList.Nodup
  positive : 0 < s.brk

theorem Pool.nonzero (pool : Pool s) (live : s.heap a ≠ none) : a ≠ 0 := fun zero => live (zero ▸ pool.null)

theorem Pool.present {p : Nat} (pool : Pool s) (linked : Linked s.heap p l v) : ∀ a ∈ l, a ≠ 0 :=
  fun _ member => pool.nonzero (linked.live member)

/-- Only elements in use are changed. -/
theorem Pool.unused (pool : Pool s) (unused : ∀ b, s.heap b = none → heap' b = none) : Pool { s with heap := heap' } :=
  ⟨unused 0 pool.null, fun a high => unused a (pool.fresh a high),
    fun a member => ⟨unused a (pool.free a member).1, (pool.free a member).2⟩, pool.nodup, pool.positive⟩

/-- Only links are changed. -/
theorem Pool.links (pool : Pool s) (same : ∀ b, heap'.valueAt b = s.heap.valueAt b) : Pool { s with heap := heap' } :=
  pool.unused fun b none => by rw [← Heap.valueAt_eq_none, same, Heap.valueAt_eq_none, none]

/-- A chain has no more elements than there are addresses. -/
theorem Pool.length_le {p : Nat} (pool : Pool s) (linked : Linked s.heap p l v) (nodup : l.Nodup) : l.length ≤ s.brk := by
  have below : ∀ a ∈ l, a ∈ List.range s.brk := by
    intro a member
    rw [List.mem_range]
    by_contra high
    exact linked.live member (pool.fresh a (by omega))
  have count := (List.subperm_of_subset nodup below).length_le
  rwa [List.length_range] at count

theorem chainSearchKey_spec (pool : Pool s) (linked : Linked s.heap 0 l 0) (nodup : l.Nodup) :
    wp (chainSearchKey strings hm (l.headD 0) k)
      (fun r t => t = s ∧ r = (l.find? (matchesKey strings s.heap hm.type k)).getD 0) (fun _ _ => False) s := by
  rw [chainSearchKey, wp_bind, wp_get]
  exact chainSearch_spec linked (pool.present linked) (pool.length_le linked nodup)

theorem linkElt_spec (pool : Pool s) (linked : Linked s.heap 0 l 0) (nodup : l.Nodup) (head : hm.tbl i = l.headD 0)
    (here : s.heap a = some ⟨e, 0, 0⟩) (new : a ∉ l) :
    wp (hm.linkElt i a) (fun r t => r = hm.eltSet i a ∧ ∃ heap, t = { s with heap := heap } ∧
      Linked heap 0 (a :: l) 0 ∧ (∀ b, heap.valueAt b = s.heap.valueAt b) ∧ ∀ b, b ∉ a :: l → heap b = s.heap b)
      (fun _ _ => False) s := by
  have live : s.heap a ≠ none := by rw [here]; exact Option.some_ne_none _
  simp only [linkElt, head]
  rw [wp_ite]
  constructor
  · intro some
    cases l with
    | nil => exact absurd rfl some
    | cons first rest =>
      have nonzero : first ≠ 0 := some
      have firstLive : s.heap.setNext a first first ≠ none := by
        rw [ne_eq, Heap.setNext_eq_none]
        exact linked.live (List.mem_cons_self ..)
      rw [wp_bind, List.headD_cons, wp_storeNext (pool.nonzero live) live, wp_bind, wp_storePrev nonzero firstLive]
      refine ⟨rfl, _, rfl, linked.push nodup here new, by simp, fun b out => ?_⟩
      obtain ⟨other, away⟩ := List.ne_and_not_mem_of_not_mem_cons out
      exact (Heap.setPrev_other _ _ (List.ne_of_not_mem_cons away)).trans (Heap.setNext_other _ _ other)
  · intro none
    have empty : l = [] := by
      cases l with
      | nil => rfl
      | cons first rest => exact absurd (pool.present linked first (List.mem_cons_self ..)) none
    subst empty
    exact ⟨rfl, s.heap, rfl, ⟨⟨e, here⟩, trivial⟩, fun _ => rfl, fun _ _ => rfl⟩

theorem eltSet_same (same : hm.tbl i = a) : hm.eltSet i a = hm := by
  have table : (fun j => if j = i then a else hm.tbl j) = hm.tbl := by
    funext j
    split
    · next here => rw [here, same]
    · rfl
  rw [eltSet, table]

theorem unlinkElt_spec (pool : Pool s) (linked : Linked s.heap 0 (l ++ a :: l') 0) (nodup : (l ++ a :: l').Nodup)
    (head : hm.tbl i = (l ++ a :: l').headD 0) :
    wp (hm.unlinkElt i a) (fun r t => r = hm.eltSet i ((l ++ l').headD 0) ∧ ∃ heap, t = { s with heap := heap } ∧
      Linked heap 0 (l ++ l') 0 ∧ (∀ b, heap.valueAt b = s.heap.valueAt b) ∧ ∀ b, b ∉ l ++ l' → heap b = s.heap b)
      (fun _ _ => False) s := by
  have present := pool.present linked
  obtain ⟨e, here⟩ := linked.node
  have nonzero : a ≠ 0 := present a (by simp)
  have apart : a ∉ l ∧ a ∉ l' := by
    have parts := List.nodup_append.mp nodup
    exact ⟨fun member => parts.2.2 a member a (List.mem_cons_self ..) rfl, (List.nodup_cons.mp parts.2.1).1⟩
  have last : l.getLastD 0 = 0 ∨ l.getLastD 0 ∈ l := by
    rcases List.eq_nil_or_concat' l with rfl | ⟨init, b, rfl⟩
    · exact Or.inl rfl
    · exact Or.inr (by simp)
  have first : l'.headD 0 = 0 ∨ l'.headD 0 ∈ l' := by
    cases l' with
    | nil => exact Or.inl rfl
    | cons b l' => exact Or.inr (List.mem_cons_self ..)
  let heap1 := s.heap.setNext (l.getLastD 0) (l'.headD 0)
  have here1 : heap1 a = some ⟨e, l.getLastD 0, l'.headD 0⟩ := by
    rw [← here]
    refine Heap.setNext_other _ _ (fun same => ?_)
    rcases last with zero | member
    · exact nonzero (same.trans zero)
    · exact apart.1 (same ▸ member)
  have null1 : heap1 0 = none := (Heap.setNext_eq_none _ _).mpr pool.null
  -- the successor, if there is one, gets the predecessor
  have after : ∀ hm' : HashMap, wp (do
        let n ← loadElt a
        if n.next ≠ 0 then storePrev n.next n.prev
        pure hm')
      (fun r t => r = hm' ∧ t = { s with heap := heap1.setPrev (l'.headD 0) (l.getLastD 0) }) (fun _ _ => False)
      { s with heap := heap1 } := by
    intro hm'
    rw [wp_bind, wp_loadElt nonzero here1, wp_ite]
    refine ⟨fun some => ?_, fun none => ?_⟩
    · have live : heap1 (l'.headD 0) ≠ none := by
        rw [ne_eq, Heap.setNext_eq_none]
        exact linked.live (List.mem_append_right _ (List.mem_cons_of_mem _ (first.resolve_left some)))
      rw [wp_bind, wp_storePrev some live]
      exact ⟨rfl, rfl⟩
    · have zero : l'.headD 0 = 0 := not_not.mp none
      rw [Heap.setPrev_none _ _ (by rw [zero]; exact null1)]
      exact ⟨rfl, rfl⟩
  have done : ∀ t, t = { s with heap := heap1.setPrev (l'.headD 0) (l.getLastD 0) } →
      ∃ heap, t = { s with heap := heap } ∧ Linked heap 0 (l ++ l') 0 ∧
        (∀ b, heap.valueAt b = s.heap.valueAt b) ∧ ∀ b, b ∉ l ++ l' → heap b = s.heap b := by
    rintro t rfl
    refine ⟨_, rfl, linked.unlink nodup present, by simp [heap1], fun b out => ?_⟩
    obtain ⟨before, behind⟩ := not_or.mp (fun member => out (List.mem_append.mpr member))
    have far : l'.headD 0 = 0 ∨ b ≠ l'.headD 0 := first.imp_right fun member same => behind (by rw [same]; exact member)
    have far' : l.getLastD 0 = 0 ∨ b ≠ l.getLastD 0 := last.imp_right fun member same => before (by rw [same]; exact member)
    exact (Heap.setPrev_or _ null1 far).trans (Heap.setNext_or _ pool.null far')
  simp only [unlinkElt]
  rw [wp_bind, wp_loadElt nonzero here, wp_ite]
  refine ⟨fun some => ?_, fun none => ?_⟩
  · have live : s.heap (l.getLastD 0) ≠ none := linked.live (List.mem_append_left _ (last.resolve_left some))
    rw [wp_bind, wp_storeNext some live]
    refine wp_mono (after _) (fun r t ends => ⟨?_, done t ends.2⟩) (fun _ _ fails => fails)
    rw [ends.1, if_pos some, eltSet_same]
    cases l with
    | nil => exact absurd rfl some
    | cons b l => exact head
  · have zero : l.getLastD 0 = 0 := not_not.mp none
    have same : heap1 = s.heap := Heap.setNext_none _ _ (by rw [zero]; exact pool.null)
    have empty : l = [] := by
      rcases List.eq_nil_or_concat' l with rfl | ⟨init, b, rfl⟩
      · rfl
      · refine absurd ?_ none
        rw [List.getLastD_concat]
        exact present b (by simp)
    have rest := after (if l.getLastD 0 ≠ 0 then hm else hm.eltSet i (l'.headD 0))
    rw [same] at rest
    refine wp_mono rest (fun r t ends => ⟨?_, done t (by rw [ends.2, same])⟩) (fun _ _ fails => fails)
    rw [ends.1, if_neg none, empty]
    rfl

/-! ### The chains of a map -/

/-- The buckets' chains, each linked both ways and with the elements whose keys hash to it. -/
structure Chains (strings : Nat → List UInt8) (heap : Heap HashMapElt) (hm : HashMap) (chains : Nat → List Nat) : Prop where
  positive : 0 < hm.buckets
  heads : ∀ i, i < hm.buckets → hm.tbl i = (chains i).headD 0
  linked : ∀ i, Linked heap 0 (chains i) 0
  nodup : ∀ i, (chains i).Nodup
  placed : ∀ i, ∀ a ∈ chains i, ∀ e, heap.valueAt a = some e → hm.hash strings e.key = i

theorem Chains.value (holds : Chains strings heap hm chains) (member : a ∈ chains i) : ∃ e, heap.valueAt a = some e := by
  obtain ⟨node, here⟩ := Option.ne_none_iff_exists'.mp ((holds.linked i).live member)
  exact ⟨node.value, by rw [Heap.valueAt, here]; rfl⟩

theorem Chains.inside (holds : Chains strings heap hm chains) (member : a ∈ chains i) : i < hm.buckets := by
  obtain ⟨e, value⟩ := holds.value member
  rw [← holds.placed i a member e value]
  exact hash_lt holds.positive

/-- An element is in one chain only. -/
theorem Chains.apart (holds : Chains strings heap hm chains) {j : Nat} (member : a ∈ chains i) (member' : a ∈ chains j) :
    i = j := by
  obtain ⟨e, value⟩ := holds.value member
  exact (holds.placed i a member e value).symm.trans (holds.placed j a member' e value)

/-- The table is as large and hashes as before. -/
structure SameShape (hm hm' : HashMap) : Prop where
  buckets : hm'.buckets = hm.buckets
  type : hm'.type = hm.type
  autoResize : hm'.autoResize = hm.autoResize

theorem SameShape.trans {hm'' : HashMap} (first : SameShape hm hm') (second : SameShape hm' hm'') : SameShape hm hm'' :=
  ⟨second.buckets.trans first.buckets, second.type.trans first.type, second.autoResize.trans first.autoResize⟩

theorem SameShape.hash (shape : SameShape hm hm') (k : Nat) : hm'.hash strings k = hm.hash strings k := by
  unfold HashMap.hash
  rw [shape.type, shape.buckets]

/-- The chain of bucket `i` becomes `l`; no other chain, no key and no value changes. -/
structure Rechained (strings : Nat → List UInt8) (s : ChainStore) (hm : HashMap) (chains : Nat → List Nat) (i : Nat)
    (l : List Nat) (t : ChainStore) (hm' : HashMap) : Prop where
  holds : Chains strings t.heap hm' (Function.update chains i l)
  values : ∀ b, t.heap.valueAt b = s.heap.valueAt b
  frame : ∀ b, b ∉ chains i → b ∉ l → t.heap b = s.heap b
  freeList : t.freeList = s.freeList
  brk : t.brk = s.brk
  shape : SameShape hm hm'

theorem Rechained.pool (done : Rechained strings s hm chains i l t hm') (pool : Pool s) : Pool t := by
  have same := pool.links done.values
  obtain ⟨heap, freeList, brk⟩ := t
  obtain rfl : freeList = s.freeList := done.freeList
  obtain rfl : brk = s.brk := done.brk
  exact same

/-- The chain of bucket `i` becomes `l` and the elements of the others stay. -/
theorem Chains.update (holds : Chains strings heap hm chains) (shape : SameShape hm hm')
    (table : ∀ j, j ≠ i → hm'.tbl j = hm.tbl j) (head : hm'.tbl i = l.headD 0) (linked : Linked heap' 0 l 0)
    (nodup : l.Nodup) (placed : ∀ a ∈ l, ∀ e, heap'.valueAt a = some e → hm.hash strings e.key = i)
    (frame : ∀ j, j ≠ i → ∀ b ∈ chains j, heap' b = heap b) : Chains strings heap' hm' (Function.update chains i l) := by
  refine ⟨?_, fun j inside => ?_, fun j => ?_, fun j => ?_, fun j a member e value => ?_⟩
  · rw [shape.buckets]
    exact holds.positive
  · rw [shape.buckets] at inside
    by_cases same : j = i
    · subst same
      rw [Function.update_self, head]
    · rw [Function.update_of_ne same, table j same, holds.heads j inside]
  · by_cases same : j = i
    · subst same
      rw [Function.update_self]
      exact linked
    · rw [Function.update_of_ne same]
      exact (holds.linked j).congr (frame j same)
  · by_cases same : j = i
    · subst same
      rw [Function.update_self]
      exact nodup
    · rw [Function.update_of_ne same]
      exact holds.nodup j
  · rw [shape.hash]
    by_cases same : j = i
    · subst same
      rw [Function.update_self] at member
      exact placed a member e value
    · rw [Function.update_of_ne same] at member
      rw [Heap.valueAt, frame j same a member] at value
      exact holds.placed j a member e value

theorem Chains.rechain (holds : Chains strings s.heap hm chains) (shape : SameShape hm hm')
    (table : ∀ j, j ≠ i → hm'.tbl j = hm.tbl j) (head : hm'.tbl i = l.headD 0) (linked : Linked t.heap 0 l 0)
    (nodup : l.Nodup) (placed : ∀ a ∈ l, ∀ e, t.heap.valueAt a = some e → hm.hash strings e.key = i)
    (values : ∀ b, t.heap.valueAt b = s.heap.valueAt b) (frame : ∀ b, b ∉ chains i → b ∉ l → t.heap b = s.heap b)
    (freeList : t.freeList = s.freeList) (brk : t.brk = s.brk) : Rechained strings s hm chains i l t hm' := by
  refine ⟨holds.update shape table head linked nodup placed (fun j other b member => frame b ?_ ?_), values, frame,
    freeList, brk, shape⟩
  · exact fun inside => other (holds.apart member inside)
  · intro new
    obtain ⟨e, value⟩ := holds.value member
    exact other ((holds.placed j b member e value).symm.trans (placed b new e ((values b).trans value)))

/-- Nothing of the map but its counters changes. -/
theorem Chains.record (holds : Chains strings heap hm chains) (shape : SameShape hm hm') (table : hm'.tbl = hm.tbl) :
    Chains strings heap hm' chains := by
  refine ⟨?_, fun j inside => ?_, holds.linked, holds.nodup, fun j a member e value => ?_⟩
  · rw [shape.buckets]
    exact holds.positive
  · rw [shape.buckets] at inside
    rw [table]
    exact holds.heads j inside
  · rw [shape.hash]
    exact holds.placed j a member e value

theorem Rechained.record {hm'' : HashMap} (done : Rechained strings s hm chains i l t hm') (shape : SameShape hm' hm'')
    (table : hm''.tbl = hm'.tbl) : Rechained strings s hm chains i l t hm'' :=
  ⟨done.holds.record shape table, done.values, done.frame, done.freeList, done.brk, done.shape.trans shape⟩

theorem Chains.congr (holds : Chains strings heap hm chains) (same : ∀ j, ∀ b ∈ chains j, heap' b = heap b) :
    Chains strings heap' hm chains := by
  refine ⟨holds.positive, holds.heads, fun j => (holds.linked j).congr (same j), holds.nodup, fun j b member e value => ?_⟩
  rw [Heap.valueAt, same j b member] at value
  exact holds.placed j b member e value

/-- An element outside the chains may change. -/
theorem Chains.outside (holds : Chains strings heap hm chains) (out : ∀ j, a ∉ chains j)
    (other : ∀ b, b ≠ a → heap' b = heap b) : Chains strings heap' hm chains :=
  holds.congr fun j b member => other b fun here => out j (here ▸ member)

/-- An element that its own chain has no more is in no chain. -/
theorem Chains.notMem_update (holds : Chains strings heap hm chains) (member : a ∈ chains i) (out : a ∉ l) (j : Nat) :
    a ∉ Function.update chains i l j := by
  by_cases same : j = i
  · subst same
    rw [Function.update_self]
    exact out
  · rw [Function.update_of_ne same]
    exact fun inside => same (holds.apart inside member)

theorem Rechained.outside (done : Rechained strings s hm chains i l t hm') (holds : Chains strings s.heap hm chains)
    (member : a ∈ chains i) (out : a ∉ l) (other : ∀ b, b ≠ a → heap' b = t.heap b)
    (values : ∀ b, heap'.valueAt b = t.heap.valueAt b) :
    Rechained strings s hm chains i l { t with heap := heap' } hm' := by
  have far := holds.notMem_update member out
  refine ⟨done.holds.outside far other, fun b => (values b).trans (done.values b), fun b old new => ?_, done.freeList,
    done.brk, done.shape⟩
  exact (other b fun here => old (here ▸ member)).trans (done.frame b old new)

theorem eltSet_shape : SameShape hm (hm.eltSet i a) := ⟨rfl, rfl, rfl⟩

theorem linkElt_chains (pool : Pool s) (holds : Chains strings s.heap hm chains) (here : s.heap a = some ⟨e, 0, 0⟩)
    (new : ∀ i, a ∉ chains i) :
    wp (hm.linkElt (hm.hash strings e.key) a)
      (fun r t => Rechained strings s hm chains (hm.hash strings e.key) (a :: chains (hm.hash strings e.key)) t r ∧
        r.size = hm.size) (fun _ _ => False) s := by
  have value : s.heap.valueAt a = some e := by rw [Heap.valueAt, here]; rfl
  have inside : hm.hash strings e.key < hm.buckets := hash_lt holds.positive
  refine wp_mono (linkElt_spec pool (holds.linked _) (holds.nodup _) (holds.heads _ inside) here (new _)) ?_
    (fun _ _ fails => fails)
  rintro r t ⟨rfl, heap, rfl, linked, values, frame⟩
  refine ⟨holds.rechain eltSet_shape (fun j other => if_neg other) (if_pos rfl) linked
    (List.nodup_cons.mpr ⟨new _, holds.nodup _⟩) (fun b member e' value' => ?_) values
    (fun b _ out => frame b out) rfl rfl, rfl⟩
  change heap.valueAt b = some e' at value'
  rw [values] at value'
  rcases List.mem_cons.mp member with rfl | old
  · rw [value] at value'
    cases value'
    rfl
  · exact holds.placed _ b old e' value'

theorem unlinkElt_chains (pool : Pool s) (holds : Chains strings s.heap hm chains) (split : chains i = l ++ a :: l') :
    wp (hm.unlinkElt i a)
      (fun r t => Rechained strings s hm chains i (l ++ l') t r ∧ t.heap a = s.heap a ∧ r.size = hm.size ∧
        r.version = hm.version ∧ r.looseVersion = hm.looseVersion) (fun _ _ => False) s := by
  have linked := holds.linked i
  have nodup := holds.nodup i
  have member : a ∈ chains i := by simp [split]
  have heads := holds.heads i (holds.inside member)
  have old : ∀ b ∈ l ++ l', b ∈ chains i := by
    intro b inside
    rw [split]
    rcases List.mem_append.mp inside with front | back
    · exact List.mem_append_left _ front
    · exact List.mem_append_right _ (List.mem_cons_of_mem _ back)
  have parts : (l ++ l').Nodup ∧ a ∉ l ++ l' := by
    rw [split, List.nodup_middle, List.nodup_cons] at nodup
    exact nodup.symm
  rw [split] at linked heads
  refine wp_mono (unlinkElt_spec pool linked (split ▸ holds.nodup i) heads) ?_ (fun _ _ fails => fails)
  rintro r t ⟨rfl, heap, rfl, linked', values, frame⟩
  refine ⟨holds.rechain eltSet_shape (fun j other => if_neg other) (if_pos rfl) linked' parts.1
    (fun b inside e value => holds.placed i b (old b inside) e ((values b).symm.trans value)) values
    (fun b _ out => frame b out) rfl rfl, frame a parts.2, rfl, rfl, rfl⟩

/-! ### Searching, taking out and putting in -/

/-- The element at `r`, in the chain of `k`, has the key `k`. -/
structure Holds (strings : Nat → List UInt8) (heap : Heap HashMapElt) (hm : HashMap) (chains : Nat → List Nat) (k r : Nat)
    (e : HashMapElt) : Prop where
  member : r ∈ chains (hm.hash strings k)
  value : heap.valueAt r = some e
  key : keyName strings hm.type e.key = keyName strings hm.type k

/-- No element has the key `k`. -/
def Lacks (strings : Nat → List UInt8) (heap : Heap HashMapElt) (hm : HashMap) (chains : Nat → List Nat) (k : Nat) : Prop :=
  ∀ i, ∀ a ∈ chains i, ∀ e, heap.valueAt a = some e → keyName strings hm.type e.key ≠ keyName strings hm.type k

theorem findInternal_spec (pool : Pool s) (holds : Chains strings s.heap hm chains) :
    wp (hm.findInternal strings k) (fun r t => t = s ∧ (r = 0 ∧ Lacks strings s.heap hm chains k ∨
      r ≠ 0 ∧ ∃ e, Holds strings s.heap hm chains k r e)) (fun _ _ => False) s := by
  have inside : hm.hash strings k < hm.buckets := hash_lt holds.positive
  have linked := holds.linked (hm.hash strings k)
  have searched : wp (hm.findInternal strings k)
      (fun r t => t = s ∧ r = ((chains (hm.hash strings k)).find? (matchesKey strings s.heap hm.type k)).getD 0)
      (fun _ _ => False) s := by
    simp only [findInternal]
    rw [holds.heads _ inside, wp_ite]
    refine ⟨fun none => ⟨rfl, ?_⟩, fun _ => chainSearchKey_spec pool linked (holds.nodup _)⟩
    cases chain : chains (hm.hash strings k) with
    | nil => rfl
    | cons a l =>
      rw [chain] at none linked
      exact absurd none (pool.present linked a (List.mem_cons_self ..))
  refine wp_mono searched ?_ (fun _ _ fails => fails)
  rintro r t ⟨rfl, rfl⟩
  refine ⟨rfl, ?_⟩
  cases found : (chains (hm.hash strings k)).find? (matchesKey strings t.heap hm.type k) with
  | none =>
    refine Or.inl ⟨rfl, fun i a member e value same => ?_⟩
    have here : a ∈ chains (hm.hash strings k) := by
      rw [← hash_congr same, holds.placed i a member e value]
      exact member
    exact List.find?_eq_none.mp found a here ((matchesKey_iff value).mpr same)
  | some a =>
    have member := List.mem_of_find?_eq_some found
    obtain ⟨e, value⟩ := holds.value member
    exact Or.inr ⟨pool.present linked a member, e, member, value, (matchesKey_iff value).mp (List.find?_some found)⟩

theorem insertChainElt_spec (pool : Pool s) (holds : Chains strings s.heap hm chains) (here : s.heap a = some ⟨e, 0, 0⟩)
    (new : ∀ i, a ∉ chains i) :
    wp (hm.insertChainElt strings a)
      (fun r t => Rechained strings s hm chains (hm.hash strings e.key) (a :: chains (hm.hash strings e.key)) t r ∧
        r.size = hm.size + 1) (fun _ _ => False) s := by
  have live : s.heap a ≠ none := by rw [here]; exact Option.some_ne_none _
  rw [insertChainElt, wp_bind, wp_loadElt (pool.nonzero live) here, wp_bind]
  refine wp_mono (linkElt_chains pool holds here new) ?_ (fun _ _ fails => fails)
  rintro r t ⟨done, size⟩
  exact ⟨done.record ⟨rfl, rfl, rfl⟩ rfl, congrArg (· + 1) size⟩

theorem eraseChainElt_spec (pool : Pool s) (holds : Chains strings s.heap hm chains) :
    wp (hm.eraseChainElt strings k) (fun r t => (r = (hm, 0) ∧ t = s ∧ Lacks strings s.heap hm chains k) ∨
      r.2 ≠ 0 ∧ ∃ e l l', Holds strings s.heap hm chains k r.2 e ∧ chains (hm.hash strings k) = l ++ r.2 :: l' ∧
        Rechained strings s hm chains (hm.hash strings k) (l ++ l') t r.1 ∧ t.heap r.2 = some ⟨e, 0, 0⟩ ∧
        r.1.size = hm.size - 1 ∧ r.1.looseVersion = hm.looseVersion) (fun _ _ => False) s := by
  rw [eraseChainElt, wp_bind]
  refine wp_mono (findInternal_spec pool holds) ?_ (fun _ _ fails => fails)
  rintro a t ⟨rfl, ⟨rfl, lacks⟩ | ⟨nonzero, e, found⟩⟩
  · exact Or.inl ⟨rfl, rfl, lacks⟩
  obtain ⟨l, l', split⟩ := List.append_of_mem found.member
  rw [if_neg nonzero, wp_bind]
  refine wp_mono (unlinkElt_chains pool holds split) ?_ (fun _ _ fails => fails)
  rintro r u ⟨done, kept, size, -, loose⟩
  have out : a ∉ l ++ l' := by
    have nodup := holds.nodup (hm.hash strings k)
    rw [split, List.nodup_middle, List.nodup_cons] at nodup
    exact nodup.1
  obtain ⟨node, here⟩ := Option.ne_none_iff_exists'.mp ((holds.linked _).live found.member)
  have element : node.value = e := by
    have value := found.value
    rw [Heap.valueAt, here] at value
    exact Option.some.inj value
  have live : u.heap a ≠ none := by
    rw [kept, here]
    exact Option.some_ne_none _
  rw [wp_bind, wp_storeNext nonzero live, wp_bind, wp_storePrev nonzero (by rw [ne_eq, Heap.setNext_eq_none]; exact live)]
  have cleared : Rechained strings t hm chains (hm.hash strings k) (l ++ l')
      { u with heap := (u.heap.setNext a 0).setPrev a 0 } r :=
    done.outside holds found.member out
      (fun b other => (Heap.setPrev_other _ _ other).trans (Heap.setNext_other _ _ other)) (by simp)
  refine Or.inr ⟨nonzero, e, l, l', found, split, cleared.record ⟨rfl, rfl, rfl⟩ rfl, ?_, congrArg (· - 1) size, loose⟩
  change (u.heap.setNext a 0).setPrev a 0 a = _
  rw [Heap.setPrev, Heap.set_self, Heap.setNext, Heap.set_self, kept, here, ← element]
  rfl

end HashMap

end Bpfs
