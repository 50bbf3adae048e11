import Mathlib.Algebra.Ring.Nat
import Mathlib.Data.List.Nodup

/-! Doubly linked lists in a heap. A node is known by its address, and address 0 is the
null pointer. `Linked heap p l e` holds when the nodes at the addresses `l` are chained
in that order, from a predecessor `p` to a successor `e`. -/

namespace Bpfs.Lib

variable {α : Type}

structure Node (α : Type) where
  value : α
  prev : Nat
  next : Nat
  deriving DecidableEq, Repr

abbrev Heap (α : Type) := Nat → Option (Node α)

namespace Heap

variable (heap : Heap α)

def set (a : Nat) (node : Option (Node α)) : Heap α := fun b => if b = a then node else heap b

/-- Change the `next` field of the node at `a`, if there is one. -/
def setNext (a v : Nat) : Heap α := heap.set a ((heap a).map fun node => { node with next := v })

/-- Change the `prev` field of the node at `a`, if there is one. -/
def setPrev (a v : Nat) : Heap α := heap.set a ((heap a).map fun node => { node with prev := v })

def valueAt (a : Nat) : Option α := (heap a).map Node.value

@[simp] theorem set_self (a : Nat) (node : Option (Node α)) : heap.set a node a = node := if_pos rfl

theorem set_other {a b : Nat} (node : Option (Node α)) (other : b ≠ a) : heap.set a node b = heap b := if_neg other

@[simp] theorem valueAt_setNext (a v b : Nat) : (heap.setNext a v).valueAt b = heap.valueAt b := by
  unfold valueAt setNext set
  split
  · next same => rw [same, Option.map_map]; rfl
  · rfl

@[simp] theorem valueAt_setPrev (a v b : Nat) : (heap.setPrev a v).valueAt b = heap.valueAt b := by
  unfold valueAt setPrev set
  split
  · next same => rw [same, Option.map_map]; rfl
  · rfl

/-- A change to a node that is not there does nothing. -/
theorem setNext_none {a : Nat} (v : Nat) (none : heap a = none) : heap.setNext a v = heap := by
  funext b
  by_cases same : b = a
  · rw [same, setNext, set_self, none]
    rfl
  · exact set_other _ _ same

theorem setPrev_none {a : Nat} (v : Nat) (none : heap a = none) : heap.setPrev a v = heap := by
  funext b
  by_cases same : b = a
  · rw [same, setPrev, set_self, none]
    rfl
  · exact set_other _ _ same

theorem setNext_eq_none {a b : Nat} (v : Nat) : heap.setNext a v b = none ↔ heap b = none := by
  unfold setNext set
  split
  · next same => rw [same, Option.map_eq_none_iff]
  · rfl

theorem setPrev_eq_none {a b : Nat} (v : Nat) : heap.setPrev a v b = none ↔ heap b = none := by
  unfold setPrev set
  split
  · next same => rw [same, Option.map_eq_none_iff]
  · rfl

theorem valueAt_eq_none {a : Nat} : heap.valueAt a = none ↔ heap a = none := Option.map_eq_none_iff

theorem setNext_other {a b : Nat} (v : Nat) (other : b ≠ a) : heap.setNext a v b = heap b := set_other _ _ other

theorem setPrev_other {a b : Nat} (v : Nat) (other : b ≠ a) : heap.setPrev a v b = heap b := set_other _ _ other

/-- A change through the null pointer or at another node. -/
theorem setNext_or {a b v : Nat} (null : heap 0 = none) (out : a = 0 ∨ b ≠ a) : heap.setNext a v b = heap b := by
  rcases out with rfl | other
  · rw [heap.setNext_none v null]
  · exact heap.setNext_other v other

theorem setPrev_or {a b v : Nat} (null : heap 0 = none) (out : a = 0 ∨ b ≠ a) : heap.setPrev a v b = heap b := by
  rcases out with rfl | other
  · rw [heap.setPrev_none v null]
  · exact heap.setPrev_other v other

end Heap

/-- The nodes at `l` are chained from a predecessor `p` to a successor `e`. -/
def Linked (heap : Heap α) : Nat → List Nat → Nat → Prop
  | _, [], _ => True
  | p, a :: l, e => (∃ v, heap a = some ⟨v, p, l.headD e⟩) ∧ Linked heap a l e

namespace Linked

variable {heap heap' : Heap α} {p e a v : Nat} {l l' : List Nat}

theorem congr (linked : Linked heap p l e) (same : ∀ a ∈ l, heap' a = heap a) : Linked heap' p l e := by
  induction l generalizing p with
  | nil => trivial
  | cons a l ih =>
    obtain ⟨node, rest⟩ := linked
    exact ⟨by rwa [same a (List.mem_cons_self ..)], ih rest (fun b member => same b (List.mem_cons_of_mem _ member))⟩

theorem append : Linked heap p (l ++ l') e ↔ Linked heap p l (l'.headD e) ∧ Linked heap (l.getLastD p) l' e := by
  induction l generalizing p with
  | nil => simp [Linked]
  | cons a l ih =>
    have first : (l ++ l').headD e = l.headD (l'.headD e) := by cases l <;> rfl
    have last : (a :: l).getLastD p = l.getLastD a := List.getLastD_cons ..
    simp only [List.cons_append, Linked, first, ih, last, and_assoc]

theorem node (linked : Linked heap p (l ++ a :: l') e) :
    ∃ v, heap a = some ⟨v, l.getLastD p, l'.headD e⟩ := (append.mp linked).2.1

theorem live (linked : Linked heap p l e) (member : a ∈ l) : heap a ≠ none := by
  obtain ⟨before, after, rfl⟩ := List.append_of_mem member
  obtain ⟨v, here⟩ := linked.node
  rw [here]
  exact Option.some_ne_none _

/-- The values of a chain, in its order. -/
theorem values (linked : Linked heap p l e) : ∃ vs : List α, l.map heap.valueAt = vs.map some := by
  induction l generalizing p with
  | nil => exact ⟨[], rfl⟩
  | cons a l ih =>
    obtain ⟨⟨v, here⟩, rest⟩ := linked
    obtain ⟨vs, later⟩ := ih rest
    have value : heap.valueAt a = some v := by rw [Heap.valueAt, here]; rfl
    exact ⟨v :: vs, by rw [List.map_cons, List.map_cons, value, later]⟩

/-- The last node gets another successor. -/
theorem setNext_last (linked : Linked heap p (l ++ [a]) e) (new : a ∉ l) :
    Linked (heap.setNext a v) p (l ++ [a]) v := by
  obtain ⟨front, ⟨value, here⟩, -⟩ := append.mp linked
  refine append.mpr ⟨front.congr (fun b member => Heap.setNext_other _ _ (fun same => new (same ▸ member))), ?_, trivial⟩
  exact ⟨value, by rw [Heap.setNext, Heap.set_self, here]; rfl⟩

/-- The first node gets another predecessor. -/
theorem setPrev_first (linked : Linked heap p (a :: l) e) (new : a ∉ l) : Linked (heap.setPrev a v) v (a :: l) e := by
  obtain ⟨⟨value, here⟩, rest⟩ := linked
  refine ⟨⟨value, by rw [Heap.setPrev, Heap.set_self, here]; rfl⟩, ?_⟩
  exact rest.congr (fun b member => Heap.setPrev_other _ _ (fun same => new (same ▸ member)))

theorem setNext_outside (linked : Linked heap p l e) (out : a ∉ l) : Linked (heap.setNext a v) p l e :=
  linked.congr (fun _ member => Heap.setNext_other _ _ (fun same => out (same ▸ member)))

theorem setPrev_outside (linked : Linked heap p l e) (out : a ∉ l) : Linked (heap.setPrev a v) p l e :=
  linked.congr (fun _ member => Heap.setPrev_other _ _ (fun same => out (same ▸ member)))

/-- The value of a node may change. -/
theorem store {node : Node α} {value : α} (linked : Linked heap p l e) (here : heap a = some node) :
    Linked (heap.set a (some { node with value := value })) p l e := by
  induction l generalizing p with
  | nil => trivial
  | cons b l ih =>
    obtain ⟨⟨old, there⟩, rest⟩ := linked
    refine ⟨?_, ih rest⟩
    by_cases same : b = a
    · subst same
      rw [here] at there
      cases there
      exact ⟨value, Heap.set_self ..⟩
    · exact ⟨old, by rw [Heap.set_other _ _ same, there]⟩

/-- Taking one node out: its predecessor and its successor are linked to each other. -/
theorem unlink (linked : Linked heap 0 (l ++ a :: l') 0) (nodup : (l ++ a :: l').Nodup)
    (present : ∀ b ∈ l ++ a :: l', b ≠ 0) :
    Linked ((heap.setNext (l.getLastD 0) (l'.headD 0)).setPrev (l'.headD 0) (l.getLastD 0)) 0 (l ++ l') 0 := by
  obtain ⟨front, -, back⟩ := append.mp linked
  have apart := List.nodup_append.mp nodup
  have inner := List.nodup_cons.mp apart.2.1
  refine append.mpr ⟨?_, ?_⟩
  · -- the front part: only its last node changes
    have step : Linked (heap.setNext (l.getLastD 0) (l'.headD 0)) 0 l (l'.headD 0) := by
      rcases List.eq_nil_or_concat' l with rfl | ⟨init, last, rfl⟩
      · trivial
      · have single := List.nodup_append.mp apart.1
        have new : last ∉ init := fun member => single.2.2 last member last (List.mem_singleton_self _) rfl
        simpa using front.setNext_last new
    refine step.setPrev_outside (fun member => ?_)
    cases l' with
    | nil => exact present 0 (List.mem_append_left _ member) rfl
    | cons b l' => exact apart.2.2 b member b (List.mem_cons_of_mem _ (List.mem_cons_self ..)) rfl
  · cases l' with
    | nil => trivial
    | cons b l' =>
      have single := List.nodup_cons.mp inner.2
      refine (Linked.setNext_outside back (fun member => ?_)).setPrev_first single.1
      rcases List.eq_nil_or_concat' l with rfl | ⟨init, last, rfl⟩
      · exact present 0 (List.mem_append_right _ (List.mem_cons_of_mem _ member)) rfl
      · refine apart.2.2 last (by simp) last (List.mem_cons_of_mem _ ?_) rfl
        simpa using member

/-- Putting a node in front of a list that is not empty. -/
theorem cons (linked : Linked heap 0 (a :: l) 0) (nodup : (a :: l).Nodup) {b : Nat} (live : heap b ≠ none)
    (new : b ∉ a :: l) : Linked (((heap.setNext b a).setPrev a b).setPrev b 0) 0 (b :: a :: l) 0 := by
  have single := List.nodup_cons.mp nodup
  have other : b ≠ a := fun same => new (same ▸ List.mem_cons_self ..)
  refine ⟨?_, ((linked.setNext_outside new).setPrev_first single.1).setPrev_outside new⟩
  obtain ⟨node, here⟩ := Option.ne_none_iff_exists'.mp live
  refine ⟨node.value, ?_⟩
  rw [Heap.setPrev, Heap.set_self, Heap.setPrev_other _ _ other, Heap.setNext, Heap.set_self, here]
  rfl

/-- Putting a node without a predecessor in front of a list that is not empty. -/
theorem push {b : Nat} {value : α} {q : Nat} (linked : Linked heap 0 (a :: l) 0) (nodup : (a :: l).Nodup)
    (here : heap b = some ⟨value, 0, q⟩) (new : b ∉ a :: l) :
    Linked ((heap.setNext b a).setPrev a b) 0 (b :: a :: l) 0 := by
  have single := List.nodup_cons.mp nodup
  have other : b ≠ a := fun same => new (same ▸ List.mem_cons_self ..)
  refine ⟨⟨value, ?_⟩, (linked.setNext_outside new).setPrev_first single.1⟩
  rw [Heap.setPrev_other _ _ other, Heap.setNext, Heap.set_self, here]
  rfl

/-- Putting a new node after the last one. -/
theorem snoc {b : Nat} {value : α} {q : Nat} (linked : Linked heap 0 (l ++ [a]) 0) (nodup : (l ++ [a]).Nodup)
    (here : heap b = some ⟨value, q, 0⟩) (new : b ∉ l ++ [a]) :
    Linked ((heap.setNext a b).setPrev b a) 0 (l ++ [a] ++ [b]) 0 := by
  have single := List.nodup_append.mp nodup
  have last : a ∉ l := fun member => single.2.2 a member a (List.mem_singleton_self a) rfl
  have other : b ≠ a := fun same => new (by simp [same])
  refine append.mpr ⟨(linked.setNext_last last).setPrev_outside new, ?_, trivial⟩
  refine ⟨value, ?_⟩
  rw [List.getLastD_concat, Heap.setPrev, Heap.set_self, Heap.setNext_other _ _ other, here]
  rfl

/-- Taking the first node off. -/
theorem tail {b : Nat} (linked : Linked heap 0 (a :: b :: l) 0) (nodup : (b :: l).Nodup) :
    Linked (heap.setPrev b 0) 0 (b :: l) 0 :=
  linked.2.setPrev_first (List.nodup_cons.mp nodup).1

end Linked

end Bpfs.Lib
