import Mathlib.Algebra.Ring.Nat
import Mathlib.Data.List.Induction
import Mathlib.Data.List.Nodup

/-! Queues in a heap whose nodes point back at links. The `back` field of a node is the
place that holds the pointer to the node: the queue's first pointer, or the `next` field of
the node before it. -/

namespace Bpfs.Lib

variable {α : Type}

/-- A place that holds a pointer to a node. -/
inductive Link where
  | first
  | after (a : Nat)
  deriving DecidableEq, Repr

structure QueueNode (α : Type) where
  value : α
  back : Link
  next : Option Nat

structure LinkQueue (α : Type) where
  node : Nat → Option (QueueNode α)
  first : Option Nat
  last : Option Nat

namespace LinkQueue

variable (q : LinkQueue α)

/-- Change the node at `a`, if there is one. -/
def update (a : Nat) (f : QueueNode α → QueueNode α) : LinkQueue α :=
  { q with node := Function.update q.node a ((q.node a).map f) }

def load : Link → Option Nat
  | .first => q.first
  | .after a => (q.node a).bind QueueNode.next

def store : Link → Option Nat → LinkQueue α
  | .first, v => { q with first := v }
  | .after a, v => q.update a fun n => { n with next := v }

def setBack (a : Nat) (l : Link) : LinkQueue α := q.update a fun n => { n with back := l }

def setLast (v : Option Nat) : LinkQueue α := { q with last := v }

def backOf (a : Nat) : Option Link := (q.node a).map QueueNode.back

def valueOf (a : Nat) : Option α := (q.node a).map QueueNode.value

/-- The link can be written. -/
def Live : Link → Prop
  | .first => True
  | .after a => (q.node a).isSome

@[simp] theorem store_last (l : Link) (v : Option Nat) : (q.store l v).last = q.last := by
  cases l <;> rfl

@[simp] theorem load_setLast (v : Option Nat) (l : Link) : (q.setLast v).load l = q.load l := by
  cases l <;> rfl

variable {q} in
theorem setLast_self {v : Option Nat} (same : q.last = v) : q.setLast v = q := by
  rw [← same]
  rfl

@[simp] theorem setBack_last (a : Nat) (l : Link) : (q.setBack a l).last = q.last := rfl

theorem node_update (a b : Nat) (f : QueueNode α → QueueNode α) :
    (q.update a f).node b = if b = a then (q.node b).map f else q.node b := by
  by_cases same : b = a
  · subst same
    simp [update]
  · simp [update, same]

@[simp] theorem isSome_store (l : Link) (v : Option Nat) (a : Nat) :
    ((q.store l v).node a).isSome = (q.node a).isSome := by
  cases l with
  | first => rfl
  | after b => rw [store, node_update]; split <;> simp

@[simp] theorem isSome_setBack (l : Link) (a b : Nat) : ((q.setBack b l).node a).isSome = (q.node a).isSome := by
  rw [setBack, node_update]
  split <;> simp

@[simp] theorem backOf_store (l : Link) (v : Option Nat) (a : Nat) : (q.store l v).backOf a = q.backOf a := by
  cases l with
  | first => rfl
  | after b => rw [store, backOf, node_update]; split <;> simp [backOf, Function.comp_def]

@[simp] theorem valueOf_store (l : Link) (v : Option Nat) (a : Nat) : (q.store l v).valueOf a = q.valueOf a := by
  cases l with
  | first => rfl
  | after b => rw [store, valueOf, node_update]; split <;> simp [valueOf, Function.comp_def]

@[simp] theorem valueOf_setBack (l : Link) (a b : Nat) : (q.setBack b l).valueOf a = q.valueOf a := by
  rw [setBack, valueOf, node_update]
  split <;> simp [valueOf, Function.comp_def]

@[simp] theorem load_setBack (a : Nat) (l m : Link) : (q.setBack a l).load m = q.load m := by
  cases m with
  | first => rfl
  | after b => rw [setBack, load, node_update]; split <;> simp [load, Option.bind_map, Function.comp_def]

variable {q}

theorem load_store (l : Link) (v : Option Nat) (live : q.Live l) : (q.store l v).load l = v := by
  cases l with
  | first => rfl
  | after a =>
    obtain ⟨n, here⟩ := Option.isSome_iff_exists.mp live
    rw [store, load, node_update, if_pos rfl, here]
    rfl

theorem load_store_other {l m : Link} (v : Option Nat) (other : m ≠ l) : (q.store l v).load m = q.load m := by
  cases l with
  | first =>
    cases m with
    | first => exact absurd rfl other
    | after b => rfl
  | after a =>
    cases m with
    | first => rfl
    | after b =>
      have apart : b ≠ a := fun same => other (congrArg Link.after same)
      rw [store, load, node_update, if_neg apart]
      rfl

theorem Live.setBack {l : Link} (live : q.Live l) (a : Nat) (m : Link) : (q.setBack a m).Live l := by
  cases l with
  | first => exact trivial
  | after b => exact (isSome_setBack q m b a).trans live

theorem backOf_setBack {a : Nat} (l : Link) (live : (q.node a).isSome) : (q.setBack a l).backOf a = some l := by
  obtain ⟨n, here⟩ := Option.isSome_iff_exists.mp live
  rw [setBack, backOf, node_update, if_pos rfl, here]
  rfl

theorem backOf_setBack_other {a b : Nat} (l : Link) (other : b ≠ a) : (q.setBack a l).backOf b = q.backOf b := by
  rw [setBack, backOf, node_update, if_neg other]
  rfl

theorem node_eq {a : Nat} {x : α} {l : Link} {v : Option Nat} (value : q.valueOf a = some x) (back : q.backOf a = some l)
    (next : q.load (.after a) = v) : q.node a = some ⟨x, l, v⟩ := by
  obtain ⟨n, here, rfl⟩ := Option.map_eq_some_iff.mp value
  rw [backOf, here, Option.map_some] at back
  rw [load, here, Option.bind_some] at next
  rw [here, ← Option.some.inj back, ← next]

/-- The link behind the nodes `as`, which start at the link `l`. -/
def endOf : Link → List Nat → Link
  | l, [] => l
  | _, a :: as => endOf (.after a) as

theorem endOf_append (l : Link) (as bs : List Nat) : endOf l (as ++ bs) = endOf (endOf l as) bs := by
  induction as generalizing l with
  | nil => rfl
  | cons a as ih => exact ih (.after a)

theorem endOf_mem (l : Link) (as : List Nat) : endOf l as ∈ l :: as.map Link.after := by
  induction as generalizing l with
  | nil => exact List.mem_singleton_self l
  | cons a as ih => exact List.mem_cons_of_mem _ (ih (.after a))

theorem endOf_first (as : List Nat) : endOf .first as = as.getLast?.elim .first Link.after := by
  rcases List.eq_nil_or_concat' as with rfl | ⟨as, a, rfl⟩
  · rfl
  · rw [endOf_append, List.getLast?_concat]
    rfl

/-- The nodes `as` follow each other from the link `l` on, and each points back at its link. -/
def Chained (q : LinkQueue α) : Link → List Nat → Prop
  | _, [] => True
  | l, a :: as => q.load l = some a ∧ q.backOf a = some l ∧ Chained q (.after a) as

theorem chained_append {l : Link} {as bs : List Nat} :
    q.Chained l (as ++ bs) ↔ q.Chained l as ∧ q.Chained (endOf l as) bs := by
  induction as generalizing l with
  | nil => simp only [List.nil_append, Chained, endOf, true_and]
  | cons a as ih =>
    simp only [List.cons_append, Chained, endOf, ih, and_assoc]

theorem Chained.live {l : Link} {as : List Nat} (chained : q.Chained l as) {a : Nat} (member : a ∈ as) :
    (q.node a).isSome := by
  induction as generalizing l with
  | nil => exact absurd member List.not_mem_nil
  | cons b as ih =>
    rcases List.mem_cons.mp member with rfl | rest
    · have here := chained.2.1
      rw [backOf, Option.map_eq_some_iff] at here
      obtain ⟨n, there, -⟩ := here
      rw [there]
      rfl
    · exact ih chained.2.2 rest

theorem Chained.congr {q q' : LinkQueue α} {l : Link} {as : List Nat} (chained : q.Chained l as)
    (loads : ∀ m ∈ l :: as.map Link.after, q'.load m = q.load m) (backs : ∀ a ∈ as, q'.backOf a = q.backOf a) :
    q'.Chained l as := by
  induction as generalizing l with
  | nil => exact trivial
  | cons a as ih =>
    obtain ⟨here, back, rest⟩ := chained
    refine ⟨(loads l List.mem_cons_self).trans here, (backs a List.mem_cons_self).trans back, ?_⟩
    apply ih rest
    · intro m member
      exact loads m (List.mem_cons_of_mem _ member)
    · intro b member
      exact backs b (List.mem_cons_of_mem _ member)

/-- The link behind the nodes is not one of the links between them. -/
theorem Chained.store_end {l : Link} {as : List Nat} (v : Option Nat) (chained : q.Chained l as)
    (nodup : (l :: as.map Link.after).Nodup) : (q.store (endOf l as) v).Chained l as := by
  induction as generalizing l with
  | nil => exact trivial
  | cons a as ih =>
    obtain ⟨here, back, rest⟩ := chained
    obtain ⟨apart, nodup⟩ := List.nodup_cons.mp nodup
    have other : l ≠ endOf (.after a) as := fun same => apart (same ▸ endOf_mem _ _)
    refine ⟨(load_store_other v other).trans here, (backOf_store q _ _ _).trans back, ih rest nodup⟩

theorem Chained.store_out {l m : Link} {as : List Nat} (v : Option Nat) (chained : q.Chained l as)
    (out : m ∉ l :: as.map Link.after) : (q.store m v).Chained l as := by
  apply chained.congr
  · intro m' member
    exact load_store_other v fun same => out (same ▸ member)
  · intro a _
    exact backOf_store q _ _ _

theorem Chained.setBack_out {l m : Link} {as : List Nat} {a : Nat} (chained : q.Chained l as) (out : a ∉ as) :
    (q.setBack a m).Chained l as := by
  apply chained.congr
  · intro m' _
    exact load_setBack q _ _ _
  · intro b member
    exact backOf_setBack_other m fun same => out (same ▸ member)

theorem Chained.setLast {l : Link} {as : List Nat} (v : Option Nat) (chained : q.Chained l as) :
    (q.setLast v).Chained l as := chained.congr (fun _ _ => load_setLast q v _) (fun _ _ => rfl)

theorem nodup_links {as : List Nat} (nodup : as.Nodup) : (Link.first :: as.map Link.after).Nodup := by
  refine List.nodup_cons.mpr ⟨?_, nodup.map fun a b same => Link.after.inj same⟩
  intro member
  obtain ⟨a, -, same⟩ := List.mem_map.mp member
  exact nomatch same

/-- The queue has the nodes `as`, the first one first. -/
structure Has (q : LinkQueue α) (as : List Nat) : Prop where
  chained : q.Chained .first as
  ends : q.load (endOf .first as) = none
  last : q.last = as.getLast?
  nodup : as.Nodup

theorem Has.congr {q q' : LinkQueue α} {as : List Nat} (has : q.Has as) (first : q'.first = q.first)
    (nexts : ∀ a ∈ as, q'.load (.after a) = q.load (.after a)) (backs : ∀ a ∈ as, q'.backOf a = q.backOf a)
    (last : q'.last = q.last) : q'.Has as := by
  have loads : ∀ m ∈ Link.first :: as.map Link.after, q'.load m = q.load m := by
    intro m member
    rcases List.mem_cons.mp member with rfl | after
    · exact first
    · obtain ⟨a, inside, rfl⟩ := List.mem_map.mp after
      exact nexts a inside
  exact ⟨has.chained.congr loads backs, (loads _ (endOf_mem .first as)).trans has.ends, last.trans has.last, has.nodup⟩

/-- The node at `a` is freed or filled. -/
def put (q : LinkQueue α) (a : Nat) (n : Option (QueueNode α)) : LinkQueue α :=
  { q with node := Function.update q.node a n }

theorem node_put_other {a b : Nat} (n : Option (QueueNode α)) (other : b ≠ a) : (q.put a n).node b = q.node b :=
  Function.update_of_ne other _ _

theorem Has.put {as : List Nat} {a : Nat} (has : q.Has as) (n : Option (QueueNode α)) (out : a ∉ as) :
    (q.put a n).Has as := by
  have nodes : ∀ b ∈ as, (q.put a n).node b = q.node b := by
    intro b member
    exact node_put_other n fun same => out (same ▸ member)
  refine has.congr rfl ?_ ?_ rfl
  · intro b member
    rw [load, nodes b member]
    rfl
  · intro b member
    rw [backOf, nodes b member]
    rfl

theorem valueOf_put_other {a b : Nat} (n : Option (QueueNode α)) (other : b ≠ a) :
    (q.put a n).valueOf b = q.valueOf b := by
  rw [valueOf, node_put_other n other]
  rfl

def setValue (q : LinkQueue α) (a : Nat) (x : α) : LinkQueue α := q.update a fun n => { n with value := x }

theorem Has.setValue {as : List Nat} (has : q.Has as) (a : Nat) (x : α) : (q.setValue a x).Has as := by
  refine has.congr rfl ?_ ?_ rfl
  · intro b _
    rw [LinkQueue.setValue, load, node_update]
    split <;> simp [load, Option.bind_map, Function.comp_def]
  · intro b _
    rw [LinkQueue.setValue, backOf, node_update]
    split <;> simp [backOf, Function.comp_def]

theorem valueOf_setValue {a : Nat} (x : α) (live : (q.node a).isSome) : (q.setValue a x).valueOf a = some x := by
  obtain ⟨n, here⟩ := Option.isSome_iff_exists.mp live
  rw [LinkQueue.setValue, valueOf, node_update, if_pos rfl, here]
  rfl

theorem valueOf_setValue_other {a b : Nat} (x : α) (other : b ≠ a) : (q.setValue a x).valueOf b = q.valueOf b := by
  rw [LinkQueue.setValue, valueOf, node_update, if_neg other]
  rfl

theorem Has.end_eq {as : List Nat} (has : q.Has as) : endOf .first as = q.last.elim .first Link.after := by
  rw [endOf_first, has.last]

theorem Has.live_end {as : List Nat} (has : q.Has as) : q.Live (endOf .first as) := by
  rw [endOf_first]
  cases found : as.getLast? with
  | none => exact trivial
  | some a => exact has.chained.live (List.mem_of_getLast? found)

/-- Take the node out whose link is `l` and whose successor is `next`. -/
def unlink (q : LinkQueue α) (l : Link) : Option Nat → LinkQueue α
  | none => q.store l none
  | some b => (q.setBack b l).store l (some b)

/-- Put the node at `a` behind the link `l`, as the last one. -/
def append (q : LinkQueue α) (a : Nat) (l : Link) : LinkQueue α :=
  (((q.setBack a l).store l (some a)).store (.after a) none).setLast (some a)

@[simp] theorem valueOf_unlink (l : Link) (next : Option Nat) (a : Nat) : (q.unlink l next).valueOf a = q.valueOf a := by
  cases next with
  | none => exact valueOf_store q _ _ _
  | some b => exact (valueOf_store _ _ _ _).trans (valueOf_setBack q _ _ _)

@[simp] theorem unlink_last (l : Link) (next : Option Nat) : (q.unlink l next).last = q.last := by
  cases next with
  | none => exact store_last q _ _
  | some b => exact store_last _ _ _

@[simp] theorem valueOf_append (a : Nat) (l : Link) (b : Nat) : (q.append a l).valueOf b = q.valueOf b := by
  change (((q.setBack a l).store l (some a)).store (.after a) none).valueOf b = _
  rw [valueOf_store, valueOf_store, valueOf_setBack]

section Remove

variable {front rest : List Nat} {a : Nat}

theorem Has.back (has : q.Has (front ++ a :: rest)) : q.backOf a = some (endOf .first front) :=
  (chained_append.mp has.chained).2.2.1

theorem Has.next (has : q.Has (front ++ a :: rest)) : q.load (.after a) = rest.head? := by
  have chained := (chained_append.mp has.chained).2.2.2
  cases rest with
  | nil =>
    have ends := has.ends
    rw [endOf_append] at ends
    exact ends
  | cons b rest => exact chained.1

/-- The links of the nodes behind `a` are not the link of `a`. -/
theorem Has.apart (has : q.Has (front ++ a :: rest)) : endOf .first front ∉ rest.map Link.after := by
  intro member
  obtain ⟨b, inside, same⟩ := List.mem_map.mp member
  have links := endOf_mem .first front
  rw [← same] at links
  obtain ⟨c, before, equal⟩ := List.mem_map.mp ((List.mem_cons.mp links).resolve_left nofun)
  rw [Link.after.inj equal] at before
  exact (List.nodup_append.mp has.nodup).2.2 b before b (List.mem_cons_of_mem a inside) rfl

theorem Has.live_back (has : q.Has (front ++ a :: rest)) : q.Live (endOf .first front) := by
  rw [endOf_first]
  cases found : front.getLast? with
  | none => exact trivial
  | some c => exact has.chained.live (List.mem_append_left _ (List.mem_of_getLast? found))

theorem Has.unlink_chained (has : q.Has (front ++ a :: rest)) :
    (q.unlink (endOf .first front) rest.head?).Chained .first (front ++ rest) := by
  have nodup := has.nodup
  have links := nodup_links (List.nodup_append.mp nodup).1
  obtain ⟨before, -, -, behind⟩ := chained_append.mp has.chained
  cases rest with
  | nil =>
    rw [List.append_nil]
    exact before.store_end none links
  | cons b rest =>
    obtain ⟨-, -, behind⟩ := behind
    have apart := has.apart
    have inFront : b ∉ front := fun inside => (List.nodup_append.mp nodup).2.2 b inside b (by simp) rfl
    have inRest : b ∉ rest := by
      have rests := (List.nodup_cons.mp (List.nodup_append.mp nodup).2.1).2
      exact (List.nodup_cons.mp rests).1
    have live : (q.node b).isSome := has.chained.live (by simp)
    refine chained_append.mpr ⟨(before.setBack_out inFront).store_end (some b) links, ?_, ?_, ?_⟩
    · exact load_store _ _ (has.live_back.setBack b _)
    · exact (backOf_store _ _ _ _).trans (backOf_setBack _ live)
    · exact (behind.setBack_out inRest).store_out (some b) apart

theorem Has.unlink_ends (has : q.Has (front ++ a :: rest)) :
    (q.unlink (endOf .first front) rest.head?).load (endOf .first (front ++ rest)) = none := by
  cases rest with
  | nil =>
    rw [List.append_nil]
    exact load_store _ none has.live_back
  | cons b rest =>
    have ends := has.ends
    have apart := has.apart
    rw [endOf_append] at ends ⊢
    have other : endOf (.after b) rest ≠ endOf .first front := fun same => apart (same ▸ endOf_mem (.after b) rest)
    exact (load_store_other (some b) other).trans ((load_setBack q _ _ _).trans ends)

/-- A queue without one of its nodes. -/
theorem Has.unlink (has : q.Has (front ++ a :: rest)) :
    ((q.unlink (endOf .first front) rest.head?).setLast (front ++ rest).getLast?).Has (front ++ rest) where
  chained := has.unlink_chained.setLast _
  ends := (load_setLast _ _ _).trans has.unlink_ends
  last := rfl
  nodup := (List.nodup_cons.mp (List.nodup_middle.mp has.nodup)).2

end Remove

theorem Has.append {as : List Nat} {a : Nat} (has : q.Has as) (out : a ∉ as) (live : (q.node a).isSome) :
    (q.append a (endOf .first as)).Has (as ++ [a]) := by
  have apart : Link.after a ∉ Link.first :: as.map Link.after := by
    intro member
    obtain ⟨b, inside, same⟩ := List.mem_map.mp ((List.mem_cons.mp member).resolve_left nofun)
    exact out (Link.after.inj same ▸ inside)
  have other : endOf .first as ≠ .after a := fun same => apart (same ▸ endOf_mem .first as)
  refine ⟨chained_append.mpr ⟨?_, ?_, ?_, trivial⟩, ?_, ?_, ?_⟩
  · have before := (has.chained.setBack_out (m := endOf .first as) out).store_end (some a) (nodup_links has.nodup)
    exact (before.store_out none apart).setLast _
  · rw [LinkQueue.append, load_setLast, load_store_other none other]
    exact load_store _ _ (has.live_end.setBack a _)
  · change (((q.setBack a _).store _ (some a)).store (.after a) none).backOf a = _
    rw [backOf_store, backOf_store, backOf_setBack _ live]
  · rw [endOf_append, LinkQueue.append, load_setLast]
    refine load_store (.after a) none ?_
    exact (isSome_store _ _ _ _).trans ((isSome_setBack q _ a a).trans live)
  · rw [List.getLast?_concat]
    rfl
  · rw [List.nodup_append]
    refine ⟨has.nodup, List.nodup_singleton a, fun b inside c single same => ?_⟩
    exact out (List.mem_singleton.mp single ▸ same ▸ inside)

end LinkQueue

end Bpfs.Lib
