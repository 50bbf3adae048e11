import Bpfs.HashMapRuns
import Mathlib.Data.List.Range

/-! Iterating over a hash map while elements that were returned are erased. -/

namespace Bpfs
open Lib

/-- The iterator: the current entry, and where the next one is. -/
structure HashMapIt2 where
  key : Nat
  val : Nat
  nextBucket : Nat
  nextElt : Nat
  looseVersion : Nat

namespace HashMap

/-- The loop over the buckets, for `n` of them from `i` on: the first with an element. -/
def firstBucket (hm : HashMap) : Nat → Nat → Option (Nat × Nat)
  | 0, _ => none
  | n + 1, i => if hm.tbl i ≠ 0 then some (i, hm.tbl i) else firstBucket hm n (i + 1)

/-- `hash_map_it2_create`. -/
def it2Create (hm : HashMap) : HashMapIt2 :=
  let it : HashMapIt2 := ⟨0, 0, 0, 0, hm.looseVersion⟩
  match hm.firstBucket hm.buckets 0 with
  | some (i, head) => { it with nextBucket := i, nextElt := head }
  | none => it

/-- `hash_map_it2_next`. -/
def it2Next (hm : HashMap) (it : HashMapIt2) : ChainM (HashMapIt2 × Bool) := do
  if it.looseVersion ≠ hm.looseVersion then throw .assertion
  else if it.nextElt = 0 then pure (it, false)
  else
    let n ← loadElt it.nextElt
    let it := { it with key := n.value.key, val := n.value.val }
    if n.next ≠ 0 then pure ({ it with nextElt := n.next }, true)
    else match hm.firstBucket (hm.buckets - (it.nextBucket + 1)) (it.nextBucket + 1) with
      | some (i, head) => pure ({ it with nextBucket := i, nextElt := head }, true)
      | none => pure ({ it with nextElt := 0 }, true)

def eraseAll (strings : Nat → List UInt8) : List Nat → HashMap → ChainM HashMap
  | [], hm => pure hm
  | k :: ks, hm => do
      let (hm, _) ← hm.hashMapErase strings k
      eraseAll strings ks hm

/-- A loop of at most `n` steps. After each entry that the iterator returns, the keys that `erasures` picks for the
entries so far are erased. -/
def iterate (strings : Nat → List UInt8) (erasures : List HashMapElt → List Nat) :
    Nat → HashMap → HashMapIt2 → List HashMapElt → ChainM (HashMap × List HashMapElt)
  | 0, _, _, _ => throw .endless
  | n + 1, hm, it, seen => do
      let (it, more) ← hm.it2Next it
      if more then
        let seen := seen ++ [⟨it.key, it.val⟩]
        let hm ← eraseAll strings (erasures seen) hm
        iterate strings erasures n hm it seen
      else pure (hm, seen)

variable {strings : Nat → List UInt8} {hm hm' : HashMap} {s t : ChainStore} {heap : Heap HashMapElt}
  {chains : Nat → List Nat} {m : FiniteMap} {it : HashMapIt2} {pending : List Nat} {todo : List HashMapElt} {i k n : Nat}

/-- The elements of the buckets from `i` on. -/
def elementsFrom (hm : HashMap) (chains : Nat → List Nat) (i : Nat) : List Nat :=
  (List.range' i (hm.buckets - i)).flatMap chains

/-- The elements at `pending` are still to come: the rest of a chain and the chains behind it. -/
def Ahead (hm : HashMap) (chains : Nat → List Nat) (it : HashMapIt2) (pending : List Nat) : Prop :=
  it.nextElt = pending.headD 0 ∧ (pending = [] ∨ ∃ before a rest, chains it.nextBucket = before ++ a :: rest ∧
    pending = a :: rest ++ hm.elementsFrom chains (it.nextBucket + 1))

theorem elementsFrom_succ (inside : i < hm.buckets) :
    hm.elementsFrom chains i = chains i ++ hm.elementsFrom chains (i + 1) := by
  rw [elementsFrom, elementsFrom, show hm.buckets - i = (hm.buckets - (i + 1)) + 1 by omega, List.range'_succ,
    List.flatMap_cons]

theorem firstBucket_spec (pool : Pool s) (holds : Chains strings s.heap hm chains) (inside : i ≤ hm.buckets) :
    (hm.firstBucket (hm.buckets - i) i = none ∧ hm.elementsFrom chains i = []) ∨
    ∃ j a rest, hm.firstBucket (hm.buckets - i) i = some (j, a) ∧ chains j = a :: rest ∧
      hm.elementsFrom chains i = a :: rest ++ hm.elementsFrom chains (j + 1) := by
  obtain ⟨n, left⟩ : ∃ n, hm.buckets - i = n := ⟨_, rfl⟩
  induction n generalizing i with
  | zero =>
    refine Or.inl ⟨by rw [left]; rfl, ?_⟩
    rw [elementsFrom, left]
    rfl
  | succ n ih =>
    have next : hm.buckets - (i + 1) = n := by omega
    have heads := holds.heads i (by omega)
    rw [elementsFrom_succ (by omega), left, firstBucket, ← next]
    cases chain : chains i with
    | nil =>
      rw [chain] at heads
      rw [if_neg (fun some => some heads)]
      exact ih (by omega) next
    | cons a rest =>
      have nonzero : a ≠ 0 := pool.present (holds.linked i) a (by rw [chain]; exact List.mem_cons_self ..)
      rw [chain, List.headD_cons] at heads
      rw [heads, if_pos nonzero]
      exact Or.inr ⟨i, a, rest, rfl, chain, rfl⟩

theorem ahead_create (pool : Pool s) (holds : Chains strings s.heap hm chains) :
    Ahead hm chains hm.it2Create (hm.elements chains) ∧ hm.it2Create.looseVersion = hm.looseVersion := by
  have whole : hm.elements chains = hm.elementsFrom chains 0 := by
    rw [elements, elementsFrom, Nat.sub_zero, List.range_eq_range']
  rw [whole, it2Create]
  rcases firstBucket_spec pool holds (Nat.zero_le _) with ⟨none, empty⟩ | ⟨j, a, rest, some, chain, split⟩
  · rw [Nat.sub_zero] at none
    rw [none, empty]
    exact ⟨⟨rfl, Or.inl rfl⟩, rfl⟩
  · rw [Nat.sub_zero] at some
    rw [some, split]
    exact ⟨⟨rfl, Or.inr ⟨[], a, rest, chain, rfl⟩⟩, rfl⟩

/-- The iterator stands before an element: it returns that one and moves on. -/
theorem Ahead.next {a : Nat} {e : HashMapElt} (ahead : Ahead hm chains it (a :: pending)) (pool : Pool s)
    (holds : Chains strings s.heap hm chains) (loose : it.looseVersion = hm.looseVersion)
    (value : s.heap.valueAt a = some e) :
    wp (hm.it2Next it) (fun r t => t = s ∧ r.2 = true ∧ r.1.key = e.key ∧ r.1.val = e.val ∧
      r.1.looseVersion = hm.looseVersion ∧ Ahead hm chains r.1 pending) (fun _ _ => False) s := by
  obtain ⟨here, empty | ⟨before, c, rest, chain, split⟩⟩ := ahead
  · cases empty
  obtain ⟨rfl, rfl⟩ : a = c ∧ pending = rest ++ hm.elementsFrom chains (it.nextBucket + 1) := by
    rw [List.cons_append, List.cons.injEq] at split
    exact split
  have member : a ∈ chains it.nextBucket := by simp [chain]
  have nonzero := pool.present (holds.linked _) a member
  have inside := holds.inside member
  have linked := holds.linked it.nextBucket
  rw [chain] at linked
  obtain ⟨v, node⟩ := linked.node
  have element : v = e := by
    rw [Heap.valueAt, node] at value
    exact Option.some.inj value
  rw [List.headD_cons] at here
  simp only [it2Next]
  rw [if_neg (not_not.mpr loose), here, if_neg nonzero, wp_bind, wp_loadElt nonzero node, element]
  cases rest with
  | cons d rest =>
    have nonzero' : d ≠ 0 := pool.present (holds.linked it.nextBucket) d (by simp [chain])
    rw [if_pos (by exact nonzero')]
    exact ⟨rfl, rfl, rfl, rfl, loose, rfl, Or.inr ⟨before ++ [a], d, rest, by simp [chain], rfl⟩⟩
  | nil =>
    rw [if_neg (by exact fun some => some rfl), List.nil_append]
    rcases firstBucket_spec pool holds inside with ⟨none, empty⟩ | ⟨j, d, rest, some, chain', split'⟩
    · rw [none, empty]
      exact ⟨rfl, rfl, rfl, rfl, loose, rfl, Or.inl rfl⟩
    · rw [some, split']
      exact ⟨rfl, rfl, rfl, rfl, loose, rfl, Or.inr ⟨[], d, rest, chain', rfl⟩⟩

theorem Ahead.mem {b : Nat} (ahead : Ahead hm chains it pending) (member : b ∈ pending) : ∃ j, b ∈ chains j := by
  obtain ⟨-, empty | ⟨before, a, rest, chain, rfl⟩⟩ := ahead
  · rw [empty] at member
    exact absurd member List.not_mem_nil
  · rcases List.mem_append.mp member with here | later
    · exact ⟨it.nextBucket, by rw [chain]; exact List.mem_append_right _ here⟩
    · obtain ⟨j, -, inside⟩ := List.mem_flatMap.mp later
      exact ⟨j, inside⟩

/-- What is still to come stays so when other elements are erased. -/
theorem Ahead.without (ahead : Ahead hm chains it pending) (shape : SameShape hm hm')
    (keep : ∀ b ∈ pending, matchesKey strings heap hm.type k b = false) :
    Ahead hm' (HashMap.without strings heap hm.type k chains) it pending := by
  obtain ⟨here, empty | ⟨before, a, rest, chain, rfl⟩⟩ := ahead
  · exact ⟨here, Or.inl empty⟩
  obtain ⟨front, back⟩ := List.forall_mem_append.mp keep
  refine ⟨here, Or.inr ⟨before.filter fun b => !matchesKey strings heap hm.type k b, a, rest, ?_, ?_⟩⟩
  · rw [HashMap.without, chain, List.filter_append, filter_keeps front]
  · have later : hm'.elementsFrom (HashMap.without strings heap hm.type k chains) (it.nextBucket + 1) =
        (hm.elementsFrom chains (it.nextBucket + 1)).filter fun b => !matchesKey strings heap hm.type k b := by
      rw [elementsFrom, elementsFrom, shape.buckets, List.filter_flatMap]
      rfl
    rw [later, filter_keeps back]

/-- A map under iteration, with the entries that are still to come. -/
def Midway (strings : Nat → List UInt8) (s : ChainStore) (hm : HashMap) (it : HashMapIt2) (todo : List HashMapElt) : Prop :=
  ∃ chains m pending, Represents strings s hm chains m ∧ Ahead hm chains it pending ∧
    pending.map s.heap.valueAt = todo.map some ∧ it.looseVersion = hm.looseVersion

theorem Midway.next {e : HashMapElt} (midway : Midway strings s hm it (e :: todo)) :
    wp (hm.it2Next it) (fun r t => t = s ∧ r.2 = true ∧ (⟨r.1.key, r.1.val⟩ : HashMapElt) = e ∧
      Midway strings s hm r.1 todo) (fun _ _ => False) s := by
  obtain ⟨chains, m, pending, rep, ahead, values, loose⟩ := midway
  cases pending with
  | nil => cases values
  | cons a pending =>
    rw [List.map_cons, List.map_cons, List.cons.injEq] at values
    refine wp_mono (ahead.next rep.pool rep.holds loose values.1) ?_ (fun _ _ fails => fails)
    rintro r t ⟨same, more, key, val, loose', ahead'⟩
    exact ⟨same, more, by rw [key, val], chains, m, pending, rep, ahead', values.2, loose'⟩

theorem Midway.ends (midway : Midway strings s hm it []) :
    wp (hm.it2Next it) (fun r t => t = s ∧ r.2 = false) (fun _ _ => False) s := by
  obtain ⟨chains, m, pending, rep, ahead, values, loose⟩ := midway
  have empty : pending = [] := List.map_eq_nil_iff.mp values
  have none : it.nextElt = 0 := by rw [ahead.1, empty]; rfl
  rw [it2Next, if_neg (not_not.mpr loose), if_pos none]
  exact ⟨rfl, rfl⟩

theorem Midway.erase (midway : Midway strings s hm it todo)
    (other : ∀ e ∈ todo, keyName strings hm.type e.key ≠ keyName strings hm.type k) :
    wp (hm.hashMapErase strings k) (fun r t => r.1.type = hm.type ∧ Midway strings t r.1 it todo) (fun _ _ => False) s := by
  obtain ⟨chains, m, pending, rep, ahead, values, loose⟩ := midway
  have keep : ∀ b ∈ pending, matchesKey strings s.heap hm.type k b = false := by
    intro b member
    have value : s.heap.valueAt b ∈ todo.map some := by
      rw [← values]
      exact List.mem_map_of_mem member
    obtain ⟨e, inside, here⟩ := List.mem_map.mp value
    exact Bool.eq_false_iff.mpr fun matched => other e inside ((matchesKey_iff here.symm).mp matched)
  refine wp_mono (hashMapErase_spec rep) ?_ (fun _ _ fails => fails)
  rintro ⟨r, v⟩ t ⟨-, erased⟩
  refine ⟨erased.shape.type, _, _, pending, erased.rep, ahead.without erased.shape keep, ?_,
    loose.trans erased.loose.symm⟩
  rw [← values]
  refine List.map_congr_left fun b member => ?_
  obtain ⟨j, inside⟩ := ahead.mem member
  exact erased.values j b (List.mem_filter.mpr ⟨inside, by rw [keep b member]; rfl⟩)

theorem Midway.eraseAll {ks : List Nat} (midway : Midway strings s hm it todo)
    (other : ∀ k ∈ ks, ∀ e ∈ todo, keyName strings hm.type e.key ≠ keyName strings hm.type k) :
    wp (eraseAll strings ks hm) (fun r t => r.type = hm.type ∧ Midway strings t r it todo) (fun _ _ => False) s := by
  induction ks generalizing hm s with
  | nil => exact ⟨rfl, midway⟩
  | cons k ks ih =>
    obtain ⟨first, rest⟩ := List.forall_mem_cons.mp other
    rw [HashMap.eraseAll, wp_bind]
    refine wp_mono (midway.erase first) ?_ (fun _ _ fails => fails)
    rintro ⟨r, v⟩ t ⟨type, midway'⟩
    dsimp only at type midway' ⊢
    rw [← type] at rest
    refine wp_mono (ih midway' rest) ?_ (fun _ _ fails => fails)
    rintro q u ⟨type', done⟩
    exact ⟨type'.trans type, done⟩

/-- The rest of the loop returns what is still to come, in order, and ends. -/
theorem iterate_spec {erasures : List HashMapElt → List Nat} {seen : List HashMapElt}
    (midway : Midway strings s hm it todo) (enough : todo.length < n)
    (distinct : ((seen ++ todo).map fun e => keyName strings hm.type e.key).Nodup)
    (returned : ∀ seen, ∀ k ∈ erasures seen, ∃ e ∈ seen, keyName strings hm.type e.key = keyName strings hm.type k) :
    wp (iterate strings erasures n hm it seen) (fun r _ => r.2 = seen ++ todo) (fun _ _ => False) s := by
  induction n generalizing hm it todo seen s with
  | zero => exact absurd enough (Nat.not_lt_zero _)
  | succ n ih =>
    rw [iterate, wp_bind]
    cases todo with
    | nil =>
      refine wp_mono midway.ends ?_ (fun _ _ fails => fails)
      rintro ⟨it', more⟩ t ⟨-, rfl⟩
      exact (List.append_nil seen).symm
    | cons e todo =>
      refine wp_mono midway.next ?_ (fun _ _ fails => fails)
      rintro ⟨it', more⟩ t ⟨rfl, rfl, same, midway'⟩
      have whole : seen ++ e :: todo = seen ++ [e] ++ todo := by simp
      rw [whole] at distinct ⊢
      dsimp only at same ⊢
      rw [if_pos rfl, same, wp_bind]
      have other : ∀ k ∈ erasures (seen ++ [e]), ∀ e' ∈ todo,
          keyName strings hm.type e'.key ≠ keyName strings hm.type k := by
        intro k member e' later equal
        obtain ⟨e'', earlier, key⟩ := returned _ k member
        rw [List.map_append] at distinct
        exact (List.nodup_append.mp distinct).2.2 _ (List.mem_map_of_mem earlier) _ (List.mem_map_of_mem later)
          (key.trans equal.symm)
      refine wp_mono (midway'.eraseAll other) ?_ (fun _ _ fails => fails)
      rintro r u ⟨type, midway''⟩
      refine ih midway'' (Nat.lt_of_succ_lt_succ enough) ?_ ?_
      · rw [type]
        exact distinct
      · rw [type]
        exact returned

theorem exists_values {l : List Nat} (live : ∀ a ∈ l, ∃ e, heap.valueAt a = some e) :
    ∃ es : List HashMapElt, l.map heap.valueAt = es.map some := by
  induction l with
  | nil => exact ⟨[], rfl⟩
  | cons a l ih =>
    obtain ⟨⟨e, value⟩, rest⟩ := List.forall_mem_cons.mp live
    obtain ⟨es, values⟩ := ih rest
    exact ⟨e :: es, by rw [List.map_cons, List.map_cons, value, values]⟩

theorem entries_of_values {l : List Nat} {es : List HashMapElt} {type : KeyType}
    (values : l.map heap.valueAt = es.map some) :
    entries strings heap type l = (es.map (entryOf strings type) : List _) := by
  have all : l.filterMap (entryAt strings heap type) = (l.map heap.valueAt).filterMap (Option.map (entryOf strings type)) :=
    (List.filterMap_map ..).symm
  rw [entries, all, values, List.filterMap_map]
  exact congrArg _ (congrFun (List.filterMap_eq_map ..) es)

/-- A loop over any map, with any erasures of elements that were returned before, ends and returns each entry of the map
as it was at the start once. -/
theorem iterate_visits {erasures : List HashMapElt → List Nat} (refines : Refines strings s hm m)
    (returned : ∀ seen, ∀ k ∈ erasures seen, ∃ e ∈ seen, keyName strings hm.type e.key = keyName strings hm.type k)
    (enough : hm.size < n) :
    ∃ hm' visited t, iterate strings erasures n hm hm.it2Create [] s = .ok (hm', visited) t ∧
      m.entries = (visited.map (entryOf strings hm.type) : List _) := by
  obtain ⟨⟨chains, rep⟩, size⟩ := refines
  obtain ⟨es, values⟩ : ∃ es : List HashMapElt, (hm.elements chains).map s.heap.valueAt = es.map some :=
    exists_values fun a member => (mem_elements rep.holds).mp member |>.elim fun _ inside => rep.holds.value inside
  have whole : m.entries = (es.map (entryOf strings hm.type) : List _) := rep.entries.trans (entries_of_values values)
  have distinct : (es.map fun e => keyName strings hm.type e.key).Nodup := by
    have keys := m.nodupKeys
    rw [whole, Multiset.coe_nodupKeys, List.NodupKeys, List.keys, List.map_map] at keys
    exact keys
  obtain ⟨ahead, loose⟩ := ahead_create rep.pool rep.holds
  have count : es.length < n := by
    rw [size, whole, Multiset.coe_card, List.length_map] at enough
    exact enough
  have midway : Midway strings s hm hm.it2Create es := ⟨chains, m, _, rep, ahead, values, loose⟩
  have loop : wp (iterate strings erasures n hm hm.it2Create []) (fun r _ => r.2 = [] ++ es) (fun _ _ => False) s :=
    iterate_spec midway count distinct returned
  obtain ⟨⟨hm', visited⟩, t, done, rfl⟩ := ok_of_wp loop
  exact ⟨hm', _, t, done, whole⟩

/-- Two keys in one bucket, and every element is erased when it has been returned. -/
theorem iterate_visits_two : ∃ hm t m, Refines (fun _ => []) t hm m ∧ m.keys.card = 2 ∧ ∃ hm' visited u,
    iterate (fun _ => []) (List.map HashMapElt.key) 3 hm hm.it2Create [] t = .ok (hm', visited) u ∧
      m.entries = (visited.map (entryOf (fun _ => []) hm.type) : List _) := by
  have start : Refines (fun _ => []) emptyStore (create 1 true .ptr) ∅ := by
    refine ⟨⟨_, emptyStore_pool, chains_create, ?_⟩, rfl⟩
    rw [elements_nil]
    rfl
  have ran : wp (run (fun _ => []) [.insert 3 7, .insert 56 8] (create 1 true .ptr)) _ _ emptyStore := run_spec start
  obtain ⟨⟨hm, answers⟩, t, -, type, -, refines⟩ := ok_of_wp ran
  have two : (specRun (keyName (fun _ => []) .ptr) [.insert 3 7, .insert 56 8] ∅).2.keys.card = 2 := by decide
  refine ⟨hm, t, _, refines, two, iterate_visits refines (fun seen k member => ?_) ?_⟩
  · obtain ⟨e, inside, same⟩ := List.mem_map.mp member
    exact ⟨e, inside, by rw [same]⟩
  · have count := refines.2
    rw [← card_keys] at count
    exact lt_of_eq_of_lt (count.trans two) (by decide)

end HashMap

end Bpfs
