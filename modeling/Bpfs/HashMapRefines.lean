import Bpfs.HashMapChains
import Bpfs.Lib.FiniteMap

/-! The hash map is a finite map. -/

namespace Bpfs
open Lib

namespace HashMap

variable {strings : Nat → List UInt8} {hm hm' : HashMap} {s t : ChainStore} {heap heap' : Heap HashMapElt}
  {type : KeyType} {chains : Nat → List Nat} {l l' : List Nat} {a i k n v : Nat} {e : HashMapElt}

/-- The finite maps: from what a key stands for to the value. -/
abbrev FiniteMap := Finmap fun _ : KeyName => Nat

/-- What an element stands for. -/
def entryOf (strings : Nat → List UInt8) (type : KeyType) (e : HashMapElt) : Sigma fun _ : KeyName => Nat :=
  ⟨keyName strings type e.key, e.val⟩

def entryAt (strings : Nat → List UInt8) (heap : Heap HashMapElt) (type : KeyType) (a : Nat) :
    Option (Sigma fun _ : KeyName => Nat) :=
  (heap.valueAt a).map (entryOf strings type)

/-- The addresses of all elements, in the order of the buckets. -/
def elements (hm : HashMap) (chains : Nat → List Nat) : List Nat := (List.range hm.buckets).flatMap chains

def entries (strings : Nat → List UInt8) (heap : Heap HashMapElt) (type : KeyType) (l : List Nat) :
    Multiset (Sigma fun _ : KeyName => Nat) :=
  (l.filterMap (entryAt strings heap type) : List _)

variable {m : FiniteMap}

/-- The chains have the entries of the finite map, each once. -/
structure Represents (strings : Nat → List UInt8) (s : ChainStore) (hm : HashMap) (chains : Nat → List Nat)
    (m : FiniteMap) : Prop where
  pool : Pool s
  holds : Chains strings s.heap hm chains
  entries : m.entries = entries strings s.heap hm.type (hm.elements chains)

theorem entries_perm (perm : l.Perm l') : entries strings heap type l = entries strings heap type l' :=
  Multiset.coe_eq_coe.mpr (perm.filterMap _)

theorem entries_append : entries strings heap type (l ++ l') = entries strings heap type l + entries strings heap type l' := by
  rw [entries, List.filterMap_append]
  rfl

theorem entries_cons (value : heap.valueAt a = some e) :
    entries strings heap type (a :: l) = ⟨keyName strings type e.key, e.val⟩ ::ₘ entries strings heap type l := by
  have here : entryAt strings heap type a = some ⟨keyName strings type e.key, e.val⟩ := by rw [entryAt, value]; rfl
  rw [entries, List.filterMap_cons_some here]
  rfl

theorem entries_congr (same : ∀ a ∈ l, heap'.valueAt a = heap.valueAt a) :
    entries strings heap' type l = entries strings heap type l := by
  have all : l.filterMap (entryAt strings heap' type) = l.filterMap (entryAt strings heap type) := by
    refine List.filterMap_congr fun a member => ?_
    rw [entryAt, entryAt, same a member]
  rw [entries, entries, all]

/-- The elements of the other buckets. -/
def others (hm : HashMap) (chains : Nat → List Nat) (i : Nat) : List Nat := hm.elements (Function.update chains i [])

theorem elements_perm (inside : i < hm.buckets) : (hm.elements chains).Perm (chains i ++ hm.others chains i) :=
  flatMap_range_perm chains inside

theorem elements_update_perm (inside : i < hm.buckets) :
    (hm.elements (Function.update chains i l)).Perm (l ++ hm.others chains i) := by
  have perm : (hm.elements (Function.update chains i l)).Perm _ := elements_perm inside
  rw [others, Function.update_idem, Function.update_self] at perm
  exact perm

theorem mem_elements (holds : Chains strings heap hm chains) : a ∈ hm.elements chains ↔ ∃ i, a ∈ chains i := by
  rw [elements, List.mem_flatMap]
  constructor
  · rintro ⟨i, -, member⟩
    exact ⟨i, member⟩
  · rintro ⟨i, member⟩
    exact ⟨i, List.mem_range.mpr (holds.inside member), member⟩

/-- An entry is in the map if an element has it. -/
theorem Represents.mem_entries (rep : Represents strings s hm chains m) {entry : Sigma fun _ : KeyName => Nat} :
    entry ∈ m.entries ↔ ∃ i, ∃ a ∈ chains i, ∃ e, s.heap.valueAt a = some e ∧
      entry = entryOf strings hm.type e := by
  rw [rep.entries, HashMap.entries, Multiset.mem_coe, List.mem_filterMap]
  simp only [entryAt, Option.map_eq_some_iff]
  constructor
  · rintro ⟨a, member, e, value, same⟩
    obtain ⟨i, inside⟩ := (mem_elements rep.holds).mp member
    exact ⟨i, a, inside, e, value, same.symm⟩
  · rintro ⟨i, a, inside, e, value, same⟩
    exact ⟨a, (mem_elements rep.holds).mpr ⟨i, inside⟩, e, value, same.symm⟩

theorem Represents.lookup (rep : Represents strings s hm chains m) (found : Holds strings s.heap hm chains k a e) :
    m.lookup (keyName strings hm.type k) = some e.val := by
  rw [Finmap.lookup_eq_some_iff, rep.mem_entries]
  exact ⟨_, a, found.member, e, found.value, by rw [entryOf, found.key]⟩

theorem Represents.notMem (rep : Represents strings s hm chains m) (lacks : Lacks strings s.heap hm chains k) :
    keyName strings hm.type k ∉ m := by
  rw [Finmap.mem_iff]
  rintro ⟨v, found⟩
  obtain ⟨i, a, member, e, value, same⟩ := rep.mem_entries.mp (Finmap.lookup_eq_some_iff.mp found)
  exact lacks i a member e value (congrArg Sigma.fst same).symm

theorem findVal_spec (rep : Represents strings s hm chains m) :
    wp (hm.hashMapFindVal strings k) (fun r t => t = s ∧ r = (m.lookup (keyName strings hm.type k)).getD 0)
      (fun _ _ => False) s := by
  rw [hashMapFindVal, wp_bind]
  refine wp_mono (findInternal_spec rep.pool rep.holds) ?_ (fun _ _ fails => fails)
  rintro r t ⟨rfl, ⟨rfl, lacks⟩ | ⟨nonzero, e, found⟩⟩
  · refine ⟨rfl, ?_⟩
    rw [Finmap.lookup_eq_none.mpr (rep.notMem lacks)]
    rfl
  · obtain ⟨node, here⟩ := Option.ne_none_iff_exists'.mp ((rep.holds.linked _).live found.member)
    rw [if_neg nonzero, wp_bind, wp_loadElt nonzero here]
    refine ⟨rfl, ?_⟩
    have value := found.value
    rw [Heap.valueAt, here] at value
    rw [rep.lookup found, ← Option.some.inj value]
    rfl

/-! ### Taking out -/

theorem entries_take (inside : i < hm.buckets) (split : chains i = l ++ a :: l') (value : heap.valueAt a = some e) :
    entries strings heap type (hm.elements chains) = ⟨keyName strings type e.key, e.val⟩ ::ₘ
      entries strings heap type (hm.elements (Function.update chains i (l ++ l'))) := by
  have middle : (l ++ a :: l' ++ hm.others chains i).Perm (a :: (l ++ l' ++ hm.others chains i)) := by
    rw [List.append_assoc, List.cons_append, List.append_assoc]
    exact List.perm_middle
  rw [entries_perm (elements_perm inside), split, entries_perm middle, entries_cons value,
    entries_perm (elements_update_perm inside)]

theorem entries_put (inside : i < hm.buckets) (value : heap.valueAt a = some e) :
    entries strings heap type (hm.elements (Function.update chains i (a :: chains i))) =
      ⟨keyName strings type e.key, e.val⟩ ::ₘ entries strings heap type (hm.elements chains) := by
  rw [entries_perm (elements_update_perm inside), List.cons_append, entries_cons value, entries_perm (elements_perm inside)]

/-- No two elements have the same key. -/
theorem Chains.unique (holds : Chains strings heap hm chains)
    (keys : (entries strings heap hm.type (hm.elements chains)).NodupKeys) {b : Nat} {e' : HashMapElt} (first : a ∈ chains i)
    (second : b ∈ chains i) (value : heap.valueAt a = some e) (value' : heap.valueAt b = some e')
    (same : keyName strings hm.type e.key = keyName strings hm.type e'.key) : a = b := by
  by_contra differ
  obtain ⟨l, l', split⟩ := List.append_of_mem first
  have rest : b ∈ Function.update chains i (l ++ l') i := by
    rw [Function.update_self]
    rw [split, List.mem_append, List.mem_cons] at second
    rcases second with front | here | back
    · exact List.mem_append_left _ front
    · exact absurd here.symm differ
    · exact List.mem_append_right _ back
  obtain ⟨j, j', split'⟩ := List.append_of_mem rest
  have inside := holds.inside first
  rw [entries_take inside split value, entries_take inside split' value', same] at keys
  rw [← Multiset.nodup_keys, Multiset.keys_cons, Multiset.keys_cons, Multiset.nodup_cons] at keys
  exact keys.1 (Multiset.mem_cons_self _ _)

theorem Represents.nodupKeys (rep : Represents strings s hm chains m) :
    (HashMap.entries strings s.heap hm.type (hm.elements chains)).NodupKeys := rep.entries ▸ m.nodupKeys

/-- An element that is taken out of its chain goes back to the pool. -/
theorem Pool.freed (pool : Pool s) (live : s.heap a ≠ none) :
    Pool { s with heap := s.heap.set a none, freeList := a :: s.freeList } := by
  have unused : ∀ b, s.heap b = none → s.heap.set a none b = none := by
    intro b none
    unfold Heap.set
    split
    · rfl
    · exact none
  have inside : a < s.brk := by
    by_contra high
    exact live (pool.fresh a (by omega))
  refine ⟨unused 0 pool.null, fun b high => unused b (pool.fresh b high), ?_, ?_, pool.positive⟩
  · exact List.forall_mem_cons.mpr ⟨⟨Heap.set_self _ _ _, pool.nonzero live, inside⟩,
      fun b member => ⟨unused b (pool.free b member).1, (pool.free b member).2⟩⟩
  · exact List.nodup_cons.mpr ⟨fun member => live (pool.free a member).1, pool.nodup⟩

/-- The chains without the elements that have a key. -/
def without (strings : Nat → List UInt8) (heap : Heap HashMapElt) (type : KeyType) (k : Nat) (chains : Nat → List Nat)
    (j : Nat) : List Nat :=
  (chains j).filter fun b => !matchesKey strings heap type k b

theorem filter_keeps {q : Nat → Bool} (none : ∀ b ∈ l, q b = false) : l.filter (fun b => !q b) = l :=
  List.filter_eq_self.mpr fun b member => by rw [none b member]; rfl

theorem without_of_lacks (holds : Chains strings heap hm chains) (lacks : Lacks strings heap hm chains k) :
    without strings heap hm.type k chains = chains := by
  funext j
  refine filter_keeps fun b member => ?_
  obtain ⟨e, value⟩ := holds.value member
  exact Bool.eq_false_iff.mpr fun same => lacks j b member e value ((matchesKey_iff value).mp same)

theorem without_of_holds (rep : Represents strings s hm chains m) (found : Holds strings s.heap hm chains k a e)
    (split : chains (hm.hash strings k) = l ++ a :: l') :
    without strings s.heap hm.type k chains = Function.update chains (hm.hash strings k) (l ++ l') := by
  -- the element found is the only one with its key
  have only : ∀ j, ∀ b ∈ chains j, b ≠ a → matchesKey strings s.heap hm.type k b = false := by
    intro j b member other
    obtain ⟨e', value⟩ := rep.holds.value member
    refine Bool.eq_false_iff.mpr fun matched => other ?_
    have key := (matchesKey_iff value).mp matched
    have here : b ∈ chains (hm.hash strings k) := by
      rw [← hash_congr key, rep.holds.placed j b member e' value]
      exact member
    exact rep.holds.unique rep.nodupKeys here found.member value found.value (key.trans found.key.symm)
  funext j
  by_cases same : j = hm.hash strings k
  · subst same
    have nodup := rep.holds.nodup (hm.hash strings k)
    rw [split, List.nodup_middle, List.nodup_cons] at nodup
    have away : ∀ b ∈ l ++ l', matchesKey strings s.heap hm.type k b = false := by
      intro b member
      refine only (hm.hash strings k) b ?_ (fun here => nodup.1 (here ▸ member))
      rw [split, List.mem_append, List.mem_cons]
      exact (List.mem_append.mp member).imp_right Or.inr
    obtain ⟨front, back⟩ := List.forall_mem_append.mp away
    have matched : matchesKey strings s.heap hm.type k a = true := (matchesKey_iff found.value).mpr found.key
    rw [Function.update_self, without, split, List.filter_append, List.filter_cons, matched, filter_keeps front,
      filter_keeps back]
    rfl
  · rw [Function.update_of_ne same]
    refine filter_keeps fun b member => only j b member fun here => same ?_
    exact rep.holds.apart (here ▸ member) found.member

theorem elements_shape (shape : SameShape hm hm') : hm'.elements chains = hm.elements chains := by
  rw [elements, elements, shape.buckets]

theorem notMem_middle (nodup : (l ++ a :: l').Nodup) : a ∉ l ++ l' := by
  rw [List.nodup_middle, List.nodup_cons] at nodup
  exact nodup.1

section Take

variable {u w : ChainStore} (rep : Represents strings s hm chains m) (found : Holds strings s.heap hm chains k a e)
  (split : chains (hm.hash strings k) = l ++ a :: l')
  (done : Rechained strings s hm chains (hm.hash strings k) (l ++ l') u hm') (other : ∀ b, b ≠ a → w.heap b = u.heap b)

include rep found split

theorem Represents.notMem_taken (j : Nat) : a ∉ Function.update chains (hm.hash strings k) (l ++ l') j :=
  rep.holds.notMem_update found.member (notMem_middle (split ▸ rep.holds.nodup _)) j

theorem Represents.entries_taken : m.entries = ⟨keyName strings hm.type k, e.val⟩ ::ₘ
    HashMap.entries strings s.heap hm.type (hm.elements (Function.update chains (hm.hash strings k) (l ++ l'))) := by
  rw [rep.entries, entries_take (rep.holds.inside found.member) split found.value, found.key]

include done other

/-- The elements that stay have their values, whatever becomes of the one taken out. -/
theorem Represents.values_taken (j : Nat) {b : Nat} (member : b ∈ Function.update chains (hm.hash strings k) (l ++ l') j) :
    w.heap.valueAt b = s.heap.valueAt b := by
  have away : b ≠ a := fun same => rep.notMem_taken found split j (same ▸ member)
  rw [Heap.valueAt, other b away]
  exact done.values b

theorem Represents.take (pool : Pool w) : Represents strings w hm' (Function.update chains (hm.hash strings k) (l ++ l'))
    (m.erase (keyName strings hm.type k)) := by
  refine ⟨pool, done.holds.outside (rep.notMem_taken found split) other, ?_⟩
  rw [entries_erase (rep.entries_taken found split), elements_shape done.shape, done.shape.type]
  refine (entries_congr fun b member => ?_).symm
  obtain ⟨j, -, kept⟩ := List.mem_flatMap.mp member
  exact rep.values_taken found split done other j kept

end Take

/-- What an erasure does to the chains, the map and the values that stay. -/
structure Erased (strings : Nat → List UInt8) (s : ChainStore) (hm : HashMap) (chains : Nat → List Nat) (m : FiniteMap)
    (k : Nat) (t : ChainStore) (hm' : HashMap) : Prop where
  rep : Represents strings t hm' (without strings s.heap hm.type k chains) (m.erase (keyName strings hm.type k))
  values : ∀ j, ∀ b ∈ without strings s.heap hm.type k chains j, t.heap.valueAt b = s.heap.valueAt b
  shape : SameShape hm hm'
  size : hm.size = Multiset.card m.entries → hm'.size = Multiset.card (m.erase (keyName strings hm.type k)).entries
  loose : hm'.looseVersion = hm.looseVersion

theorem hashMapErase_spec (rep : Represents strings s hm chains m) :
    wp (hm.hashMapErase strings k) (fun r t => r.2 = (m.lookup (keyName strings hm.type k)).getD 0 ∧
      Erased strings s hm chains m k t r.1) (fun _ _ => False) s := by
  rw [hashMapErase, wp_bind]
  refine wp_mono (eraseChainElt_spec rep.pool rep.holds) ?_ (fun _ _ fails => fails)
  rintro ⟨hm', a⟩ t (⟨same, rfl, lacks⟩ | ⟨nonzero, e, l, l', found, split, done, here, size, loose⟩)
  · cases same
    have none := rep.notMem lacks
    have erased := erase_absent none
    refine ⟨?_, ?_, ?_, ⟨rfl, rfl, rfl⟩, ?_, rfl⟩
    · rw [Finmap.lookup_eq_none.mpr none]
      rfl
    · rw [without_of_lacks rep.holds lacks, erased]
      exact rep
    · exact fun _ _ _ => rfl
    · rw [erased]
      exact id
  · have live : t.heap a ≠ none := by
      rw [here]
      exact Option.some_ne_none _
    let w : ChainStore := { t with heap := t.heap.set a none, freeList := a :: t.freeList }
    have other : ∀ b, b ≠ a → w.heap b = t.heap b := fun b away => Heap.set_other _ _ away
    dsimp only
    rw [if_neg nonzero, wp_bind, wp_loadElt nonzero here, wp_bind, wp_chainEltDestroy nonzero live]
    refine ⟨?_, ?_, ?_, done.shape, fun right => ?_, loose⟩
    · rw [rep.lookup found]
      rfl
    · rw [without_of_holds rep found split]
      exact rep.take found split done other ((done.pool rep.pool).freed live)
    · rw [without_of_holds rep found split]
      exact fun j b member => rep.values_taken found split done other j member
    · have whole := rep.entries_taken found split
      rw [entries_erase whole, size, right, whole, Multiset.card_cons, Nat.add_sub_cancel]

/-! ### Putting in -/

/-- A free element is used from now on. -/
theorem Pool.used {node : Node HashMapElt} {free : List Nat} {brk : Nat} (pool : Pool s) (nonzero : a ≠ 0) (inside : a < brk)
    (larger : s.brk ≤ brk) (new : a ∉ free) (nodup : free.Nodup) (all : ∀ b ∈ free, s.heap b = none ∧ b ≠ 0 ∧ b < brk) :
    Pool ⟨s.heap.set a (some node), free, brk⟩ := by
  refine ⟨(Heap.set_other _ _ (Ne.symm nonzero)).trans pool.null, fun b high => ?_, fun b member => ?_, nodup,
    Nat.lt_of_lt_of_le pool.positive larger⟩
  · have above : brk ≤ b := high
    exact (Heap.set_other _ _ (by omega)).trans (pool.fresh b (by omega))
  · obtain ⟨unused, rest⟩ := all b member
    have other : b ≠ a := fun same => new (same ▸ member)
    exact ⟨(Heap.set_other _ _ other).trans unused, rest⟩

/-- A new element comes from the pool; no chain has it. -/
theorem chainEltCreate_spec (pool : Pool s) :
    wp (chainEltCreate k v) (fun a t => s.heap a = none ∧ t.heap = s.heap.set a (some ⟨⟨k, v⟩, 0, 0⟩) ∧ Pool t)
      (fun _ _ => False) s := by
  have positive := pool.positive
  rw [chainEltCreate, wp_bind, chainEltAlloc, wp_bind, wp_get]
  cases list : s.freeList with
  | cons a rest =>
    have free := pool.free
    have nodup := pool.nodup
    rw [list] at free nodup
    obtain ⟨⟨unused, nonzero, inside⟩, all⟩ := List.forall_mem_cons.mp free
    obtain ⟨new, nodup⟩ := List.nodup_cons.mp nodup
    exact ⟨unused, rfl, pool.used nonzero inside (Nat.le_refl _) new nodup all⟩
  | nil =>
    have page : ∀ b ∈ (List.range (poolSize - 1)).reverse.map (s.brk + ·), s.brk ≤ b ∧ b < s.brk + (poolSize - 1) := by
      intro b member
      obtain ⟨j, inside, rfl⟩ := List.mem_map.mp member
      rw [List.mem_reverse, List.mem_range] at inside
      omega
    have large : 0 < poolSize := by decide
    have done : Pool ⟨s.heap.set (s.brk + (poolSize - 1)) (some ⟨⟨k, v⟩, 0, 0⟩),
        (List.range (poolSize - 1)).reverse.map (s.brk + ·), s.brk + poolSize⟩ := by
      refine pool.used (by omega) (by omega) (by omega) (fun member => ?_) ?_ (fun b member => ?_)
      · have bound := page _ member
        omega
      · exact (List.nodup_reverse.mpr List.nodup_range).map (fun x y same => Nat.add_left_cancel same)
      · have bound := page b member
        exact ⟨pool.fresh b bound.1, by omega, by omega⟩
    exact ⟨pool.fresh _ (Nat.le_add_right _ _), rfl, done⟩

theorem Represents.put (rep : Represents strings s hm chains m) (here : s.heap a = some ⟨e, 0, 0⟩)
    (absent : keyName strings hm.type e.key ∉ m)
    (done : Rechained strings s hm chains (hm.hash strings e.key) (a :: chains (hm.hash strings e.key)) t hm') :
    Represents strings t hm' (Function.update chains (hm.hash strings e.key) (a :: chains (hm.hash strings e.key)))
      (m.insert (keyName strings hm.type e.key) e.val) := by
  have value : t.heap.valueAt a = some e := by
    rw [done.values, Heap.valueAt, here]
    rfl
  have inside : hm.hash strings e.key < hm.buckets := hash_lt rep.holds.positive
  refine ⟨done.pool rep.pool, done.holds, ?_⟩
  rw [Finmap.entries_insert_of_notMem absent, rep.entries, elements_shape done.shape, done.shape.type,
    entries_put inside value, entries_congr fun b _ => done.values b]

/-- The value of a key that is there is replaced. -/
theorem Represents.replace {node : Node HashMapElt} (rep : Represents strings s hm chains m)
    (found : Holds strings s.heap hm chains k a e) (here : s.heap a = some node) :
    Represents strings { s with heap := s.heap.set a (some { node with value := ⟨node.value.key, v⟩ }) } hm chains
      (m.insert (keyName strings hm.type k) v) := by
  have value : node.value = e := by
    have value := found.value
    rw [Heap.valueAt, here] at value
    exact Option.some.inj value
  obtain ⟨heap', stored⟩ : ∃ heap', heap' = s.heap.set a (some { node with value := ⟨node.value.key, v⟩ }) := ⟨_, rfl⟩
  have away : ∀ b, b ≠ a → heap' b = s.heap b := fun b other => by rw [stored, Heap.set_other _ _ other]
  have now : heap'.valueAt a = some ⟨e.key, v⟩ := by
    rw [stored, Heap.valueAt, Heap.set_self, value]
    rfl
  rw [← stored]
  obtain ⟨l, l', split⟩ := List.append_of_mem found.member
  refine ⟨?_, ⟨rep.holds.positive, rep.holds.heads, fun j => ?_, rep.holds.nodup, fun j b member e' value' => ?_⟩, ?_⟩
  · refine rep.pool.unused fun b none => ?_
    rw [away b fun same => ?_, none]
    rw [same, here] at none
    cases none
  · rw [stored]
    exact (rep.holds.linked j).store here
  · by_cases same : b = a
    · subst same
      rw [now] at value'
      cases value'
      exact rep.holds.placed j b member e found.value
    · change (heap' b).map Node.value = some e' at value'
      rw [away b same] at value'
      exact rep.holds.placed j b member e' value'
  · rw [entries_insert (rep.entries_taken found split), entries_take (rep.holds.inside found.member) split now, found.key]
    refine congrArg _ (entries_congr fun b member => ?_).symm
    obtain ⟨j, -, kept⟩ := List.mem_flatMap.mp member
    rw [Heap.valueAt, away b fun same => rep.notMem_taken found split j (same ▸ kept)]
    rfl

end HashMap

end Bpfs
