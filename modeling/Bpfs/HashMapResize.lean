import Bpfs.HashMapRefines

/-! Emptying a hash map, and moving its elements to a table of another size. -/

namespace Bpfs
open Lib

namespace HashMap

variable {strings : Nat → List UInt8} {hm hm' : HashMap} {s t : ChainStore} {heap heap' : Heap HashMapElt}
  {type : KeyType} {chains chains' : Nat → List Nat} {l : List Nat} {a i k n v : Nat} {e : HashMapElt} {m : FiniteMap}

/-! ### Emptying -/

theorem destroyChain_spec {p : Nat} (pool : Pool s) (linked : Linked s.heap p l 0) (nodup : l.Nodup)
    (enough : l.length ≤ n) :
    wp (destroyChain n (l.headD 0)) (fun _ t => Pool t ∧ ∀ b, b ∉ l → t.heap b = s.heap b) (fun _ _ => False) s := by
  induction l generalizing n p s with
  | nil => cases n <;> exact ⟨pool, fun _ _ => rfl⟩
  | cons a l ih =>
    have live := linked.live (List.mem_cons_self ..)
    have nonzero := pool.nonzero live
    obtain ⟨⟨e, here⟩, rest⟩ := linked
    obtain ⟨new, others⟩ := List.nodup_cons.mp nodup
    cases n with
    | zero => exact absurd enough (Nat.not_succ_le_zero _)
    | succ n =>
      rw [List.headD_cons, destroyChain, if_neg nonzero, wp_bind, wp_loadElt nonzero here, wp_bind,
        wp_chainEltDestroy nonzero live]
      have away : ∀ b, b ≠ a → s.heap.set a none b = s.heap b := fun b other => Heap.set_other _ _ other
      have rest' : Linked (s.heap.set a none) a l 0 := rest.congr fun b member => away b fun same => new (same ▸ member)
      refine wp_mono (ih (pool.freed live) rest' others (Nat.le_of_succ_le_succ enough)) ?_ (fun _ _ fails => fails)
      rintro _ t ⟨pool', frame⟩
      refine ⟨pool', fun b out => ?_⟩
      obtain ⟨other, far⟩ := List.ne_and_not_mem_of_not_mem_cons out
      exact (frame b far).trans (away b other)

theorem cleared_none : (fun j => if i ≤ j ∧ j < i + 0 then [] else chains j) = chains := by
  funext j
  exact if_neg (by omega)

theorem cleared_succ : (fun j => if i + 1 ≤ j ∧ j < i + 1 + n then [] else Function.update chains i [] j) =
    fun j => if i ≤ j ∧ j < i + (n + 1) then [] else chains j := by
  funext j
  by_cases here : j = i
  · subst here
    rw [if_neg (by omega), if_pos (by omega), Function.update_self]
  · rw [Function.update_of_ne here]
    split <;> split <;> first | rfl | omega

/-- Every bucket is cleared. -/
theorem cleared_all (holds : Chains strings heap hm chains) :
    (fun j => if 0 ≤ j ∧ j < 0 + hm.buckets then [] else chains j) = fun _ => [] := by
  funext j
  split
  · rfl
  · next high =>
    refine List.eq_nil_iff_forall_not_mem.mpr fun b member => high ?_
    have bound := holds.inside member
    omega

theorem clearBuckets_spec (pool : Pool s) (holds : Chains strings s.heap hm chains) (inside : i + n ≤ hm.buckets) :
    wp (clearBuckets n i hm) (fun r t => Pool t ∧ SameShape hm r ∧ (∀ b, (∀ j, b ∉ chains j) → t.heap b = s.heap b) ∧
      Chains strings t.heap r (fun j => if i ≤ j ∧ j < i + n then [] else chains j)) (fun _ _ => False) s := by
  induction n generalizing i hm s chains with
  | zero =>
    rw [cleared_none]
    exact ⟨pool, ⟨rfl, rfl, rfl⟩, fun _ _ => rfl, holds⟩
  | succ n ih =>
    rw [clearBuckets, wp_bind, wp_get, holds.heads i (by omega), wp_bind]
    refine wp_mono (destroyChain_spec pool (holds.linked i) (holds.nodup i) (pool.length_le (holds.linked i) (holds.nodup i)))
      ?_ (fun _ _ fails => fails)
    rintro _ t ⟨pool', frame⟩
    have emptied : Chains strings t.heap (hm.eltSet i 0) (Function.update chains i []) :=
      holds.update eltSet_shape (fun j other => if_neg other) (if_pos rfl) trivial List.nodup_nil
        (fun a member => absurd member List.not_mem_nil)
        (fun j other b member => frame b fun inside => other (holds.apart member inside))
    refine wp_mono (ih pool' emptied (by change i + 1 + n ≤ hm.buckets; omega)) ?_ (fun _ _ fails => fails)
    rintro r u ⟨pool'', shape, frame', chained⟩
    refine ⟨pool'', ⟨shape.buckets, shape.type, shape.autoResize⟩, fun b out => ?_, ?_⟩
    · refine (frame' b fun j => ?_).trans (frame b (out i))
      by_cases same : j = i
      · subst same
        rw [Function.update_self]
        exact List.not_mem_nil
      · rw [Function.update_of_ne same]
        exact out j
    · rw [← cleared_succ]
      exact chained

/-- `hash_map_clear` frees the elements and leaves all chains empty. -/
theorem hashMapClear_spec (pool : Pool s) (holds : Chains strings s.heap hm chains) :
    wp hm.hashMapClear (fun r t => Pool t ∧ SameShape hm r ∧ r.size = 0 ∧
      (∀ b, (∀ j, b ∉ chains j) → t.heap b = s.heap b) ∧ Chains strings t.heap r fun _ => []) (fun _ _ => False) s := by
  rw [hashMapClear, wp_bind]
  refine wp_mono (clearBuckets_spec pool holds (by omega)) ?_ (fun _ _ fails => fails)
  rintro r t ⟨pool', shape, frame, chained⟩
  rw [cleared_all holds] at chained
  exact ⟨pool', ⟨shape.buckets, shape.type, shape.autoResize⟩, rfl, frame, chained.record ⟨rfl, rfl, rfl⟩ rfl⟩

/-! ### Moving -/

/-- While the elements are moved: both maps are well formed, have no element in common and have the entries of the finite
map together. -/
structure Moving (strings : Nat → List UInt8) (s : ChainStore) (hm : HashMap) (chains : Nat → List Nat) (hm' : HashMap)
    (chains' : Nat → List Nat) (m : FiniteMap) : Prop where
  pool : Pool s
  old : Chains strings s.heap hm chains
  new : Chains strings s.heap hm' chains'
  apart : ∀ i j a, a ∈ chains i → a ∉ chains' j
  type : hm'.type = hm.type
  entries : m.entries = entries strings s.heap hm.type (hm.elements chains) +
    entries strings s.heap hm.type (hm'.elements chains')
  size : hm'.size = Multiset.card (HashMap.entries strings s.heap hm.type (hm'.elements chains'))

theorem Moving.nodupKeys (moving : Moving strings s hm chains hm' chains' m) :
    (HashMap.entries strings s.heap hm.type (hm.elements chains)).NodupKeys := by
  have keys := m.nodupKeys
  rw [moving.entries, ← Multiset.nodup_keys] at keys
  rw [← Multiset.nodup_keys]
  exact Multiset.nodup_of_le (Multiset.map_le_map (Multiset.le_add_right _ _)) keys

/-- The first element of a chain is taken out of the old map. -/
theorem Moving.erase (moving : Moving strings s hm chains hm' chains' m) (chain : chains i = a :: l)
    (value : s.heap.valueAt a = some e) :
    wp (hm.eraseChainElt strings e.key) (fun r t => r.2 = a ∧ a ≠ 0 ∧ Rechained strings s hm chains i l t r.1 ∧
      t.heap a = some ⟨e, 0, 0⟩) (fun _ _ => False) s := by
  have member : a ∈ chains i := by rw [chain]; exact List.mem_cons_self ..
  have place : hm.hash strings e.key = i := moving.old.placed i a member e value
  refine wp_mono (eraseChainElt_spec moving.pool moving.old) ?_ (fun _ _ fails => fails)
  rintro ⟨r, b⟩ t (⟨-, -, lacks⟩ | ⟨nonzero, e', l₁, l₂, found, split, done, here, -, -⟩)
  · exact absurd rfl (lacks i a member e value)
  · have inside := found.member
    rw [place] at inside split done
    -- keys are unique, so it is the first element that is found
    have same : b = a := moving.old.unique moving.nodupKeys inside member found.value value found.key
    dsimp only at nonzero split done here
    subst same
    have first : l₁ = [] := by
      have nodup := moving.old.nodup i
      cases l₁ with
      | nil => rfl
      | cons c l₁ =>
        rw [chain, List.cons_append, List.cons.injEq] at split
        rw [chain, List.nodup_cons, split.2] at nodup
        exact absurd (List.mem_append_right _ (List.mem_cons_self ..)) nodup.1
    subst first
    rw [chain, List.nil_append, List.cons.injEq] at split
    rw [List.nil_append, ← split.2] at done
    have element : e' = e := Option.some.inj (found.value.symm.trans value)
    exact ⟨rfl, nonzero, done, element ▸ here⟩

/-- It is put in the new one. -/
theorem Moving.insert {r : HashMap} {t : ChainStore} (moving : Moving strings s hm chains hm' chains' m)
    (chain : chains i = a :: l) (value : s.heap.valueAt a = some e) (taken : Rechained strings s hm chains i l t r)
    (here : t.heap a = some ⟨e, 0, 0⟩) :
    wp (hm'.insertChainElt strings a) (fun r' u => SameShape hm' r' ∧
      ∃ chains'', Moving strings u r (Function.update chains i l) r' chains'' m) (fun _ _ => False) t := by
  have member : a ∈ chains i := by rw [chain]; exact List.mem_cons_self ..
  have tail : ∀ b ∈ l, b ∈ chains i := fun b inside => by rw [chain]; exact List.mem_cons_of_mem _ inside
  have nodup := moving.old.nodup i
  rw [chain, List.nodup_cons] at nodup
  have pool := taken.pool moving.pool
  have new : Chains strings t.heap hm' chains' := by
    refine moving.new.congr fun j b inside => taken.frame b ?_ ?_
    · exact fun other => moving.apart i j b other inside
    · exact fun other => moving.apart i j b (tail b other) inside
  -- what is left in the old map
  have left : ∀ j, ∀ b ∈ Function.update chains i l j, b ≠ a ∧ ∃ j', b ∈ chains j' := by
    intro j b inside
    refine ⟨fun same => moving.old.notMem_update member nodup.1 j (same ▸ inside), ?_⟩
    by_cases same : j = i
    · subst same
      rw [Function.update_self] at inside
      exact ⟨j, tail b inside⟩
    · rw [Function.update_of_ne same] at inside
      exact ⟨j, inside⟩
  refine wp_mono (insertChainElt_spec pool new here fun j => moving.apart i j a member) ?_ (fun _ _ fails => fails)
  rintro r' u ⟨put, size⟩
  have values : ∀ b, u.heap.valueAt b = s.heap.valueAt b := fun b => (put.values b).trans (taken.values b)
  have unchanged : ∀ l, HashMap.entries strings u.heap r.type l = HashMap.entries strings s.heap hm.type l := by
    intro l
    rw [taken.shape.type]
    exact entries_congr fun b _ => values b
  have shrunk : HashMap.entries strings s.heap hm.type (hm.elements chains) = ⟨keyName strings hm.type e.key, e.val⟩ ::ₘ
      HashMap.entries strings s.heap hm.type (r.elements (Function.update chains i l)) := by
    rw [elements_shape taken.shape]
    exact entries_take (l := []) (moving.old.inside member) chain value
  have grown : HashMap.entries strings s.heap hm.type
      (r'.elements (Function.update chains' (hm'.hash strings e.key) (a :: chains' (hm'.hash strings e.key)))) =
      ⟨keyName strings hm.type e.key, e.val⟩ ::ₘ HashMap.entries strings s.heap hm.type (hm'.elements chains') := by
    rw [elements_shape put.shape]
    exact entries_put (hash_lt new.positive) value
  refine ⟨put.shape, _, put.pool pool, ?_, put.holds, ?_, ?_, ?_, ?_⟩
  · refine taken.holds.congr fun j b inside => ?_
    obtain ⟨other, j', old⟩ := left j b inside
    have out := moving.apart j' (hm'.hash strings e.key) b old
    exact put.frame b out fun mem => (List.mem_cons.mp mem).elim other out
  · intro j j' b inside
    obtain ⟨other, j'', old⟩ := left j b inside
    by_cases same : j' = hm'.hash strings e.key
    · subst same
      rw [Function.update_self]
      exact fun mem => (List.mem_cons.mp mem).elim other (moving.apart j'' _ b old)
    · rw [Function.update_of_ne same]
      exact moving.apart j'' j' b old
  · rw [put.shape.type, taken.shape.type, moving.type]
  · rw [unchanged, unchanged, grown, moving.entries, shrunk, Multiset.cons_add, Multiset.add_cons]
  · rw [unchanged, grown, size, moving.size, Multiset.card_cons]

/-- The chain of a bucket is moved to the end. -/
theorem moveChain_spec (moving : Moving strings s hm chains hm' chains' m) (enough : (chains i).length ≤ n) :
    wp (moveChain strings n ((chains i).headD 0) hm hm') (fun r t => SameShape hm r.1 ∧ SameShape hm' r.2 ∧
      ∃ chains'', Moving strings t r.1 (Function.update chains i []) r.2 chains'' m) (fun _ _ => False) s := by
  obtain ⟨l, chain⟩ : ∃ l, chains i = l := ⟨_, rfl⟩
  rw [chain] at enough ⊢
  induction l generalizing n s hm hm' chains chains' with
  | nil =>
    have same : Function.update chains i [] = chains := by rw [← chain, Function.update_eq_self]
    rw [same]
    cases n <;> exact ⟨⟨rfl, rfl, rfl⟩, ⟨rfl, rfl, rfl⟩, chains', moving⟩
  | cons a l ih =>
    have member : a ∈ chains i := by rw [chain]; exact List.mem_cons_self ..
    have live := (moving.old.linked i).live member
    have nonzero := moving.pool.nonzero live
    have linked := moving.old.linked i
    rw [chain] at linked
    obtain ⟨⟨e, here⟩, -⟩ := linked
    have value : s.heap.valueAt a = some e := by rw [Heap.valueAt, here]; rfl
    cases n with
    | zero => exact absurd enough (Nat.not_succ_le_zero _)
    | succ n =>
      rw [List.headD_cons, moveChain, if_neg nonzero, wp_bind, wp_loadElt nonzero here, wp_bind]
      refine wp_mono (moving.erase chain value) ?_ (fun _ _ fails => fails)
      rintro ⟨r, b⟩ t ⟨same, -, taken, there⟩
      dsimp only at same taken ⊢
      rw [same, if_neg nonzero, wp_bind]
      refine wp_mono (moving.insert chain value taken there) ?_ (fun _ _ fails => fails)
      rintro r' u ⟨shape', chains'', moved⟩
      have rest := ih moved (Nat.le_of_succ_le_succ enough) (Function.update_self ..)
      refine wp_mono rest ?_ (fun _ _ fails => fails)
      rintro ⟨q, q'⟩ w ⟨first, second, chains''', done⟩
      rw [Function.update_idem] at done
      exact ⟨taken.shape.trans first, shape'.trans second, chains''', done⟩

theorem moveBuckets_spec (moving : Moving strings s hm chains hm' chains' m) (inside : i + n ≤ hm.buckets) :
    wp (moveBuckets strings n i hm hm') (fun r t => SameShape hm r.1 ∧ SameShape hm' r.2 ∧ ∃ chains'',
      Moving strings t r.1 (fun j => if i ≤ j ∧ j < i + n then [] else chains j) r.2 chains'' m) (fun _ _ => False) s := by
  induction n generalizing i hm hm' s chains chains' with
  | zero =>
    rw [cleared_none]
    exact ⟨⟨rfl, rfl, rfl⟩, ⟨rfl, rfl, rfl⟩, chains', moving⟩
  | succ n ih =>
    rw [moveBuckets, wp_bind, wp_get, moving.old.heads i (by omega), wp_bind]
    refine wp_mono (moveChain_spec moving (moving.pool.length_le (moving.old.linked i) (moving.old.nodup i))) ?_
      (fun _ _ fails => fails)
    rintro ⟨r, r'⟩ t ⟨shape, shape', chains'', moved⟩
    refine wp_mono (ih moved (by rw [shape.buckets]; omega)) ?_ (fun _ _ fails => fails)
    rintro ⟨q, q'⟩ u ⟨first, second, chains''', done⟩
    rw [cleared_succ] at done
    exact ⟨shape.trans first, shape'.trans second, chains''', done⟩

theorem nextSize_mem (n : Nat) : nextSize n ∈ primeList := by
  unfold nextSize
  cases found : primeList.find? fun p => ¬p < n with
  | none => decide
  | some p => exact List.mem_of_find?_eq_some found

theorem nextSize_pos (n : Nat) : 0 < nextSize n := by
  have positive : ∀ p ∈ primeList, 0 < p := by decide
  exact positive _ (nextSize_mem n)

theorem chains_create {auto : Bool} : Chains strings heap (create n auto type) fun _ => [] :=
  ⟨nextSize_pos n, fun _ _ => rfl, fun _ => trivial, fun _ => List.nodup_nil, fun _ _ member => absurd member List.not_mem_nil⟩

theorem elements_nil : hm.elements (fun _ => []) = [] := List.flatMap_eq_nil_iff.mpr fun _ _ => rfl

/-- `hash_map_resize` keeps the finite map. -/
theorem hashMapResize_spec (rep : Represents strings s hm chains m) :
    wp (hm.hashMapResize strings n) (fun r t => r.1.type = hm.type ∧
      (hm.size = Multiset.card m.entries → r.1.size = Multiset.card m.entries) ∧
      ∃ chains', Represents strings t r.1 chains' m) (fun _ _ => False) s := by
  simp only [hashMapResize]
  rw [wp_ite]
  refine ⟨fun _ => ⟨rfl, id, chains, rep⟩, fun _ => ?_⟩
  have start : Moving strings s hm chains (create (nextSize n) hm.autoResize hm.type) (fun _ => []) m := by
    refine ⟨rep.pool, rep.holds, chains_create, fun _ _ _ _ => List.not_mem_nil, rfl, ?_, ?_⟩
    · rw [elements_nil]
      exact rep.entries.trans (add_zero _).symm
    · rw [elements_nil]
      rfl
  rw [wp_bind]
  refine wp_mono (moveBuckets_spec start (by omega)) ?_ (fun _ _ fails => fails)
  rintro ⟨r, r'⟩ t ⟨shape, shape', chains', moved⟩
  rw [cleared_all rep.holds] at moved
  rw [wp_bind]
  refine wp_mono (hashMapClear_spec moved.pool moved.old) ?_ (fun _ _ fails => fails)
  rintro q u ⟨pool, same, -, frame, -⟩
  have kept : u.heap = t.heap := funext fun b => frame b fun _ => List.not_mem_nil
  have whole := moved.entries
  rw [elements_nil] at whole
  have entries : m.entries = HashMap.entries strings t.heap hm.type (r'.elements chains') := by
    rw [whole, shape.type]
    exact zero_add _
  have type : q.type = hm.type := same.type.trans shape.type
  refine ⟨type, fun _ => ?_, chains', pool, ?_, ?_⟩
  · change r'.size = _
    rw [moved.size, entries, shape.type]
  · rw [kept]
    exact moved.new.record ⟨rfl, type.trans shape'.type.symm,
      (same.autoResize.trans shape.autoResize).trans shape'.autoResize.symm⟩ rfl
  · change m.entries = HashMap.entries strings u.heap q.type (r'.elements chains')
    rw [kept, type, entries]

end HashMap

end Bpfs
