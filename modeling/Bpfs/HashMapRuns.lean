import Bpfs.HashMapResize

/-! Whole runs of the hash map: whatever the calls are, it answers as the finite map does. -/

namespace Bpfs
open Lib

namespace HashMap

variable {strings : Nat → List UInt8} {hm hm' : HashMap} {s t : ChainStore} {type : KeyType} {chains : Nat → List Nat}
  {k n v : Nat} {m : FiniteMap}

/-- The map is well formed, has the entries of the finite map and counts them. -/
def Refines (strings : Nat → List UInt8) (s : ChainStore) (hm : HashMap) (m : FiniteMap) : Prop :=
  (∃ chains, Represents strings s hm chains m) ∧ hm.size = Multiset.card m.entries

theorem hashMapInsert_spec (refines : Refines strings s hm m) :
    wp (hm.hashMapInsert strings k v) (fun r t => r.1.type = hm.type ∧
      r.2 = (if keyName strings hm.type k ∈ m then 1 else 0) ∧
      Refines strings t r.1 (m.insert (keyName strings hm.type k) v)) (fun _ _ => False) s := by
  obtain ⟨⟨chains, rep⟩, size⟩ := refines
  rw [hashMapInsert, wp_bind]
  refine wp_mono (findInternal_spec rep.pool rep.holds) ?_ (fun _ _ fails => fails)
  rintro a t ⟨rfl, ⟨rfl, lacks⟩ | ⟨nonzero, e, found⟩⟩
  · have absent := rep.notMem lacks
    rw [if_neg (not_not.mpr rfl), wp_bind]
    refine wp_mono (chainEltCreate_spec rep.pool) ?_ (fun _ _ fails => fails)
    rintro a u ⟨unused, heap, pool⟩
    have out : ∀ j, a ∉ chains j := fun j member => (rep.holds.linked j).live member unused
    have other : ∀ b, b ≠ a → u.heap b = t.heap b := fun b away => by rw [heap, Heap.set_other _ _ away]
    have here : u.heap a = some ⟨⟨k, v⟩, 0, 0⟩ := by rw [heap, Heap.set_self]
    have rep' : Represents strings u hm chains m := by
      refine ⟨pool, rep.holds.outside out other, ?_⟩
      rw [rep.entries]
      refine (entries_congr fun b member => ?_).symm
      obtain ⟨j, -, inside⟩ := List.mem_flatMap.mp member
      rw [Heap.valueAt, other b fun same => out j (same ▸ inside)]
      rfl
    rw [wp_bind]
    refine wp_mono (linkElt_chains pool rep'.holds here out) ?_ (fun _ _ fails => fails)
    rintro r w ⟨done, count⟩
    have counted : Rechained strings u hm chains _ _ w { r with size := r.size + 1 }.changed :=
      done.record ⟨rfl, rfl, rfl⟩ rfl
    have rep'' := rep'.put here absent counted
    have size' : r.size + 1 = Multiset.card (m.insert (keyName strings hm.type k) v).entries := by
      rw [Finmap.entries_insert_of_notMem absent, Multiset.card_cons, count, size]
    rw [if_neg absent]
    dsimp only
    rw [wp_ite]
    refine ⟨fun _ => ?_, fun _ => ⟨done.shape.type, rfl, ⟨_, rep''⟩, size'⟩⟩
    rw [wp_bind]
    refine wp_mono (hashMapResize_spec rep'') ?_ (fun _ _ fails => fails)
    rintro q x ⟨same, keeps, chains', moved⟩
    exact ⟨same.trans done.shape.type, rfl, ⟨chains', moved⟩, keeps size'⟩
  · obtain ⟨node, here⟩ := Option.ne_none_iff_exists'.mp ((rep.holds.linked _).live found.member)
    have present : keyName strings hm.type k ∈ m := Finmap.mem_iff.mpr ⟨_, rep.lookup found⟩
    obtain ⟨l, l', split⟩ := List.append_of_mem found.member
    have whole := rep.entries_taken found split
    rw [if_pos nonzero, wp_bind, wp_loadElt nonzero here, wp_bind, wp_storeElt nonzero here, if_pos present]
    refine ⟨rfl, rfl, ⟨chains, ?_⟩, ?_⟩
    · have replaced := rep.replace (v := v) found here
      exact ⟨replaced.pool, replaced.holds.record ⟨rfl, rfl, rfl⟩ rfl, replaced.entries⟩
    · rw [entries_insert whole, Multiset.card_cons]
      exact size.trans (by rw [whole, Multiset.card_cons])

/-- What `hash_map_change_key` answers and makes of the finite map. -/
def changeKey (m : FiniteMap) (oldk newk : KeyName) : Int × FiniteMap :=
  if newk ∈ m then (-eexist, m)
  else match m.lookup oldk with
    | none => (-enoent, m)
    | some v => (0, (m.erase oldk).insert newk v)

/-- An element gets another key and another place. -/
theorem rekey {a oldk newk : Nat} {e : HashMapElt} {l l' : List Nat} {r : HashMap} {node : Node HashMapElt}
    (rep : Represents strings s hm chains m) (found : Holds strings s.heap hm chains oldk a e)
    (split : chains (hm.hash strings oldk) = l ++ a :: l')
    (done : Rechained strings s hm chains (hm.hash strings oldk) (l ++ l') t r) (count : r.size = hm.size)
    (here : t.heap a = some node) (value : node.value = e) (free : keyName strings hm.type newk ∉ m)
    (size : hm.size = Multiset.card m.entries) :
    wp (do
        let n ← loadElt a
        storeElt a ⟨newk, n.value.val⟩
        storePrev a 0
        storeNext a 0
        let hm ← r.linkElt (r.hash strings newk) a
        pure (hm.changed, (0 : Int)))
      (fun r t => r.1.type = hm.type ∧
        ∃ m', changeKey m (keyName strings hm.type oldk) (keyName strings hm.type newk) = (r.2, m') ∧
          Refines strings t r.1 m') (fun _ _ => False) t := by
  have live : t.heap a ≠ none := by
    rw [here]
    exact Option.some_ne_none _
  have nonzero := (done.pool rep.pool).nonzero live
  obtain ⟨heap', stored⟩ : ∃ heap', heap' =
    ((t.heap.set a (some { node with value := ⟨newk, node.value.val⟩ })).setPrev a 0).setNext a 0 := ⟨_, rfl⟩
  have now : heap' a = some ⟨⟨newk, e.val⟩, 0, 0⟩ := by
    rw [stored, Heap.setNext, Heap.set_self, Heap.setPrev, Heap.set_self, Heap.set_self, value]
    rfl
  have other : ∀ b, b ≠ a → heap' b = t.heap b := fun b away => by
    rw [stored, Heap.setNext_other _ _ away, Heap.setPrev_other _ _ away, Heap.set_other _ _ away]
  have pool : Pool { t with heap := heap' } :=
    (done.pool rep.pool).unused fun b none => by
      rw [other b fun same => live (same ▸ none), none]
  have stays : t.heap.set a (some { node with value := ⟨newk, node.value.val⟩ }) a ≠ none := by
    rw [Heap.set_self]
    exact Option.some_ne_none _
  rw [wp_bind, wp_loadElt nonzero here, wp_bind, wp_storeElt nonzero here, wp_bind, wp_storePrev nonzero stays, wp_bind,
    wp_storeNext nonzero (by rw [ne_eq, Heap.setPrev_eq_none]; exact stays), wp_bind, ← stored]
  have taken : Represents strings { t with heap := heap' } r _ _ := rep.take found split done other pool
  refine wp_mono (linkElt_chains pool taken.holds now (rep.notMem_taken found split)) ?_ (fun _ _ fails => fails)
  rintro q w ⟨put, count'⟩
  have whole := rep.entries_taken found split
  have absent : keyName strings r.type newk ∉ m.erase (keyName strings hm.type oldk) := by
    rw [done.shape.type, Finmap.mem_erase]
    exact fun both => free both.2
  have final := taken.put now absent put
  rw [done.shape.type] at final absent
  refine ⟨put.shape.type.trans done.shape.type, (m.erase (keyName strings hm.type oldk)).insert
    (keyName strings hm.type newk) e.val, ?_, ⟨_, final.pool, final.holds.record ⟨rfl, rfl, rfl⟩ rfl, final.entries⟩, ?_⟩
  · rw [changeKey, if_neg free, rep.lookup found]
  · rw [Finmap.entries_insert_of_notMem absent, entries_erase whole, Multiset.card_cons]
    refine (count'.trans (count.trans size)).trans ?_
    rw [whole, Multiset.card_cons]

theorem hashMapChangeKey_spec {oldk newk : Nat} (refines : Refines strings s hm m) :
    wp (hm.hashMapChangeKey strings oldk newk) (fun r t => r.1.type = hm.type ∧
      ∃ m', changeKey m (keyName strings hm.type oldk) (keyName strings hm.type newk) = (r.2, m') ∧
        Refines strings t r.1 m') (fun _ _ => False) s := by
  obtain ⟨⟨chains, rep⟩, size⟩ := refines
  rw [hashMapChangeKey, wp_bind]
  refine wp_mono (findInternal_spec rep.pool rep.holds) ?_ (fun _ _ fails => fails)
  rintro used t ⟨rfl, ⟨rfl, lacks⟩ | ⟨nonzero, e, found⟩⟩
  · have free := rep.notMem lacks
    rw [if_neg (not_not.mpr rfl), wp_bind]
    refine wp_mono (findInternal_spec rep.pool rep.holds) ?_ (fun _ _ fails => fails)
    rintro a u ⟨rfl, ⟨rfl, missing⟩ | ⟨nonzero, e, found⟩⟩
    · rw [if_pos rfl]
      refine ⟨rfl, m, ?_, ⟨chains, rep⟩, size⟩
      rw [changeKey, if_neg free, Finmap.lookup_eq_none.mpr (rep.notMem missing)]
    · obtain ⟨l, l', split⟩ := List.append_of_mem found.member
      rw [if_neg nonzero, wp_bind]
      refine wp_mono (unlinkElt_chains rep.pool rep.holds split) ?_ (fun _ _ fails => fails)
      rintro r t ⟨done, kept, count, -⟩
      obtain ⟨node, here⟩ := Option.ne_none_iff_exists'.mp ((rep.holds.linked _).live found.member)
      have value : node.value = e := by
        have value := found.value
        rw [Heap.valueAt, here] at value
        exact Option.some.inj value
      rw [← kept] at here
      exact rekey rep found split done count here value free size
  · rw [if_pos nonzero]
    refine ⟨rfl, m, ?_, ⟨chains, rep⟩, size⟩
    rw [changeKey, if_pos (Finmap.mem_iff.mpr ⟨_, rep.lookup found⟩)]

/-! ### Runs -/

inductive Op where
  | insert (k v : Nat)
  | erase (k : Nat)
  | changeKey (oldk newk : Nat)
  | resize (n : Nat)
  | clear
  deriving DecidableEq, Repr

/-- A call, with its answer if that is about the entries. -/
def Op.step (strings : Nat → List UInt8) (hm : HashMap) : Op → ChainM (HashMap × Option Int)
  | .insert k v => (fun r => (r.1, some (r.2 : Int))) <$> hm.hashMapInsert strings k v
  | .erase k => (fun r => (r.1, some (r.2 : Int))) <$> hm.hashMapErase strings k
  | .changeKey oldk newk => (fun r => (r.1, some r.2)) <$> hm.hashMapChangeKey strings oldk newk
  | .resize n => (fun r => (r.1, none)) <$> hm.hashMapResize strings n
  | .clear => (fun r => (r, none)) <$> hm.hashMapClear

def run (strings : Nat → List UInt8) : List Op → HashMap → ChainM (HashMap × List (Option Int))
  | [], hm => pure (hm, [])
  | op :: ops, hm => do
      let (hm, answer) ← op.step strings hm
      let (hm, answers) ← run strings ops hm
      pure (hm, answer :: answers)

/-- The same call on the finite map. -/
def Op.spec (name : Nat → KeyName) (m : FiniteMap) : Op → Option Int × FiniteMap
  | .insert k v => (some (if name k ∈ m then 1 else 0), m.insert (name k) v)
  | .erase k => (some ((m.lookup (name k)).getD 0 : Nat), m.erase (name k))
  | .changeKey oldk newk => ((some (HashMap.changeKey m (name oldk) (name newk)).1),
      (HashMap.changeKey m (name oldk) (name newk)).2)
  | .resize _ => (none, m)
  | .clear => (none, ∅)

def specRun (name : Nat → KeyName) : List Op → FiniteMap → List (Option Int) × FiniteMap
  | [], m => ([], m)
  | op :: ops, m =>
      let (answers, m') := specRun name ops (op.spec name m).2
      ((op.spec name m).1 :: answers, m')

theorem Op.step_spec {op : Op} (refines : Refines strings s hm m) :
    wp (op.step strings hm) (fun r t => r.1.type = hm.type ∧ r.2 = (op.spec (keyName strings hm.type) m).1 ∧
      Refines strings t r.1 (op.spec (keyName strings hm.type) m).2) (fun _ _ => False) s := by
  cases op with
  | insert k v =>
    rw [Op.step, wp_map]
    refine wp_mono (hashMapInsert_spec refines) ?_ (fun _ _ fails => fails)
    rintro r t ⟨type, code, done⟩
    refine ⟨type, ?_, done⟩
    rw [code, Op.spec]
    split <;> rfl
  | erase k =>
    obtain ⟨⟨chains, rep⟩, size⟩ := refines
    rw [Op.step, wp_map]
    refine wp_mono (hashMapErase_spec rep) ?_ (fun _ _ fails => fails)
    rintro r t ⟨code, erased⟩
    exact ⟨erased.shape.type, by rw [code]; rfl, ⟨_, erased.rep⟩, erased.size size⟩
  | changeKey oldk newk =>
    rw [Op.step, wp_map]
    refine wp_mono (hashMapChangeKey_spec refines) ?_ (fun _ _ fails => fails)
    rintro r t ⟨type, m', code, done⟩
    refine ⟨type, ?_, ?_⟩
    · rw [Op.spec, code]
    · rw [Op.spec, code]
      exact done
  | resize n =>
    obtain ⟨⟨chains, rep⟩, size⟩ := refines
    rw [Op.step, wp_map]
    refine wp_mono (hashMapResize_spec rep) ?_ (fun _ _ fails => fails)
    rintro r t ⟨type, keeps, moved⟩
    exact ⟨type, rfl, moved, keeps size⟩
  | clear =>
    obtain ⟨⟨chains, rep⟩, -⟩ := refines
    rw [Op.step, wp_map]
    refine wp_mono (hashMapClear_spec rep.pool rep.holds) ?_ (fun _ _ fails => fails)
    rintro r t ⟨pool, shape, size, -, empty⟩
    refine ⟨shape.type, rfl, ⟨_, pool, empty, ?_⟩, size⟩
    rw [elements_nil]
    rfl

theorem run_spec {ops : List Op} (refines : Refines strings s hm m) :
    wp (run strings ops hm) (fun r t => r.1.type = hm.type ∧ r.2 = (specRun (keyName strings hm.type) ops m).1 ∧
      Refines strings t r.1 (specRun (keyName strings hm.type) ops m).2) (fun _ _ => False) s := by
  induction ops generalizing s hm m with
  | nil => exact ⟨rfl, rfl, refines⟩
  | cons op ops ih =>
    rw [run, wp_bind]
    refine wp_mono (Op.step_spec refines) ?_ (fun _ _ fails => fails)
    rintro ⟨hm', answer⟩ t ⟨type, rfl, done⟩
    dsimp only at type done ⊢
    rw [wp_bind]
    refine wp_mono (ih done) ?_ (fun _ _ fails => fails)
    rintro ⟨q, answers⟩ u ⟨same, rfl, final⟩
    rw [type] at same final
    refine ⟨same, ?_, final⟩
    rw [type]
    rfl

/-- Every chain is linked both ways and has the elements that hash to its bucket, and no two elements have the same key. -/
def WellFormed (strings : Nat → List UInt8) (s : ChainStore) (hm : HashMap) : Prop :=
  ∃ chains, Chains strings s.heap hm chains ∧ ∀ i j a b e e', a ∈ chains i → b ∈ chains j → s.heap.valueAt a = some e →
    s.heap.valueAt b = some e' → keyName strings hm.type e.key = keyName strings hm.type e'.key → a = b

theorem Represents.wellFormed (rep : Represents strings s hm chains m) : WellFormed strings s hm := by
  refine ⟨chains, rep.holds, fun i j a b e e' first second value value' same => ?_⟩
  have place : i = j := by
    rw [← rep.holds.placed i a first e value, ← rep.holds.placed j b second e' value', hash_congr same]
  subst place
  exact rep.holds.unique rep.nodupKeys first second value value' same

/-- After any calls on a new map, the answers, the values found and the size are those of the finite map, and the
chains are well formed. -/
theorem hash_map_refines (strings : Nat → List UInt8) (type : KeyType) (ops : List Op) (pool : Pool s) :
    ∃ hm t, run strings ops (create 1 true type) s = .ok (hm, (specRun (keyName strings type) ops ∅).1) t ∧
      WellFormed strings t hm ∧ hm.size = (specRun (keyName strings type) ops ∅).2.keys.card ∧
      ∀ k, hm.hashMapFindVal strings k t =
        .ok (((specRun (keyName strings type) ops ∅).2.lookup (keyName strings type k)).getD 0) t := by
  have start : Refines strings s (create 1 true type) ∅ := by
    refine ⟨⟨_, pool, chains_create, ?_⟩, rfl⟩
    rw [elements_nil]
    rfl
  have ran : wp (run strings ops (create 1 true type)) _ _ s := run_spec start
  obtain ⟨⟨hm, answers⟩, t, done, sameType, rfl, ⟨chains, rep⟩, size⟩ := ok_of_wp ran
  refine ⟨hm, t, done, rep.wellFormed, by rw [card_keys]; exact size, fun k => ?_⟩
  obtain ⟨v, u, found, rfl, rfl⟩ := ok_of_wp (findVal_spec (k := k) rep)
  rw [found, sameType]
  rfl

/-- A pool without pages. -/
def emptyStore : ChainStore := ⟨fun _ => none, [], 1⟩

theorem emptyStore_pool : Pool emptyStore :=
  ⟨rfl, fun _ _ => rfl, fun _ member => absurd member List.not_mem_nil, List.nodup_nil, Nat.one_pos⟩

theorem hash_map_refines_empty : Pool emptyStore ∧ ∃ hm t,
    run (fun _ => []) [.insert 3 7, .changeKey 3 56, .erase 56] (create 1 true .ptr) emptyStore =
      .ok (hm, [some 0, some 0, some 7]) t := by
  refine ⟨emptyStore_pool, ?_⟩
  obtain ⟨hm, t, done, -⟩ := hash_map_refines (fun _ => []) .ptr [.insert 3 7, .changeKey 3 56, .erase 56] emptyStore_pool
  exact ⟨hm, t, done⟩

end HashMap

end Bpfs
