import Mathlib.Algebra.Ring.Nat
import Mathlib.Data.List.Count
import Mathlib.Data.List.Nodup
import Mathlib.Logic.Function.Basic

/-! Depth-first traversal of a graph by marking. An inner node is entered when it is marked and must
not be met again; other nodes may be met any number of times. -/

namespace Bpfs.Lib

variable {α : Type} {kids : α → List α} {inner : α → Prop}

/-- A path from `root` along the children of inner nodes. -/
inductive Reaches (kids : α → List α) (inner : α → Prop) (root : α) : α → Prop where
  | refl : Reaches kids inner root root
  | step {d i : α} (path : Reaches kids inner root d) (enters : inner d) (child : i ∈ kids d) :
      Reaches kids inner root i

theorem Reaches.trans {a b c : α} (first : Reaches kids inner a b) (second : Reaches kids inner b c) :
    Reaches kids inner a c := by
  induction second with
  | refl => exact first
  | step _ enters child ih => exact ih.step enters child

/-- What the calls on the nodes `calls` do to the marks: `order` lists the inner nodes that were entered. -/
structure Traversed [DecidableEq α] (kids : α → List α) (inner : α → Prop) (before after : α → Bool)
    (calls order : List α) : Prop where
  grows : ∀ i, before i = true → after i = true
  called : ∀ i ∈ calls, after i = true
  closed : ∀ d ∈ order, ∀ i ∈ kids d, after i = true
  fresh : ∀ d ∈ order, inner d ∧ before d = false ∧ after d = true
  distinct : order.Nodup
  covers : ∀ d, inner d → after d = true → before d = true ∨ d ∈ order
  counts : ∀ d, inner d → (calls ++ order.flatMap kids).count d + (before d).toNat = (after d).toNat
  reached : ∀ i, after i = true → before i = true ∨ ∃ c ∈ calls, Reaches kids inner c i

namespace Traversed

variable [DecidableEq α] {before middle after : α → Bool}

theorem none : Traversed kids inner before before [] [] where
  grows _ marked := marked
  called _ member := absurd member List.not_mem_nil
  closed _ member := absurd member List.not_mem_nil
  fresh _ member := absurd member List.not_mem_nil
  distinct := List.nodup_nil
  covers _ _ marked := Or.inl marked
  counts _ _ := Nat.zero_add _
  reached _ marked := Or.inl marked

theorem trans {calls calls' order order' : List α} (first : Traversed kids inner before middle calls order)
    (second : Traversed kids inner middle after calls' order') :
    Traversed kids inner before after (calls ++ calls') (order ++ order') where
  grows i marked := second.grows i (first.grows i marked)
  called i member := by
    rcases List.mem_append.mp member with early | late
    · exact second.grows i (first.called i early)
    · exact second.called i late
  closed d member i child := by
    rcases List.mem_append.mp member with early | late
    · exact second.grows i (first.closed d early i child)
    · exact second.closed d late i child
  fresh d member := by
    rcases List.mem_append.mp member with early | late
    · obtain ⟨enters, clear, marked⟩ := first.fresh d early
      exact ⟨enters, clear, second.grows d marked⟩
    · obtain ⟨enters, clear, marked⟩ := second.fresh d late
      refine ⟨enters, ?_, marked⟩
      cases old : before d with
      | false => rfl
      | true =>
        rw [first.grows d old] at clear
        cases clear
  distinct := by
    refine List.nodup_append.mpr ⟨first.distinct, second.distinct, ?_⟩
    rintro d early _ late rfl
    have marked := (first.fresh d early).2.2
    rw [(second.fresh d late).2.1] at marked
    cases marked
  covers d enters marked := by
    rcases second.covers d enters marked with old | late
    · rcases first.covers d enters old with older | early
      · exact Or.inl older
      · exact Or.inr (List.mem_append_left _ early)
    · exact Or.inr (List.mem_append_right _ late)
  counts d enters := by
    have one := first.counts d enters
    have two := second.counts d enters
    simp only [List.flatMap_append, List.count_append] at one two ⊢
    omega
  reached i marked := by
    rcases second.reached i marked with old | ⟨c, member, path⟩
    · rcases first.reached i old with older | ⟨c, member, path⟩
      · exact Or.inl older
      · exact Or.inr ⟨c, List.mem_append_left _ member, path⟩
    · exact Or.inr ⟨c, List.mem_append_right _ member, path⟩

/-- A call on a node that is not entered marks it. -/
theorem leaf {i : α} (outer : ¬inner i) : Traversed kids inner before (Function.update before i true) [i] [] where
  grows j marked := by
    by_cases same : j = i
    · rw [same, Function.update_self]
    · rw [Function.update_of_ne same, marked]
  called j member := by rw [List.mem_singleton.mp member, Function.update_self]
  closed _ member := absurd member List.not_mem_nil
  fresh _ member := absurd member List.not_mem_nil
  distinct := List.nodup_nil
  covers d enters marked := by
    have other : d ≠ i := fun same => outer (same ▸ enters)
    rw [Function.update_of_ne other] at marked
    exact Or.inl marked
  counts d enters := by
    have other : d ≠ i := fun same => outer (same ▸ enters)
    rw [Function.update_of_ne other, List.flatMap_nil, List.append_nil, List.count_singleton, if_neg, Nat.zero_add]
    simpa using other.symm
  reached j marked := by
    by_cases same : j = i
    · exact Or.inr ⟨i, List.mem_singleton_self i, same ▸ .refl⟩
    · rw [Function.update_of_ne same] at marked
      exact Or.inl marked

/-- A call on an inner node that is not marked yet marks it and calls on its children. -/
theorem node {i : α} {order : List α} (enters : inner i) (new : before i = false)
    (below : Traversed kids inner (Function.update before i true) after (kids i) order) :
    Traversed kids inner before after [i] (i :: order) where
  grows j marked := by
    apply below.grows
    by_cases same : j = i
    · rw [same, Function.update_self]
    · rw [Function.update_of_ne same, marked]
  called j member := by
    rw [List.mem_singleton.mp member]
    exact below.grows i (Function.update_self ..)
  closed d member j child := by
    rcases List.mem_cons.mp member with rfl | later
    · exact below.called j child
    · exact below.closed d later j child
  fresh d member := by
    rcases List.mem_cons.mp member with rfl | later
    · exact ⟨enters, new, below.grows d (Function.update_self ..)⟩
    · obtain ⟨inside, clear, marked⟩ := below.fresh d later
      have other : d ≠ i := by
        rintro rfl
        rw [Function.update_self] at clear
        cases clear
      rw [Function.update_of_ne other] at clear
      exact ⟨inside, clear, marked⟩
  distinct := by
    refine List.nodup_cons.mpr ⟨fun later => ?_, below.distinct⟩
    have clear := (below.fresh i later).2.1
    rw [Function.update_self] at clear
    cases clear
  covers d inside marked := by
    rcases below.covers d inside marked with old | later
    · by_cases same : d = i
      · exact Or.inr (same ▸ List.mem_cons_self ..)
      · rw [Function.update_of_ne same] at old
        exact Or.inl old
    · exact Or.inr (List.mem_cons_of_mem _ later)
  counts d inside := by
    have rest := below.counts d inside
    rw [List.count_append] at rest
    rw [List.flatMap_cons, List.count_append, List.count_append, List.count_singleton]
    by_cases same : d = i
    · subst same
      rw [Function.update_self] at rest
      rw [new, if_pos (beq_self_eq_true d)]
      simp only [Bool.toNat_true, Bool.toNat_false] at rest ⊢
      omega
    · rw [Function.update_of_ne same] at rest
      rw [if_neg (by simpa using fun eq => same eq.symm)]
      omega
  reached j marked := by
    rcases below.reached j marked with old | ⟨c, child, path⟩
    · by_cases same : j = i
      · exact Or.inr ⟨i, List.mem_singleton_self i, same ▸ .refl⟩
      · rw [Function.update_of_ne same] at old
        exact Or.inl old
    · exact Or.inr ⟨i, List.mem_singleton_self i, (Reaches.refl.step enters child).trans path⟩

section Whole

variable {root : α} {order : List α} (walk : Traversed kids inner (fun _ => false) after [root] order)

include walk

/-- A whole traversal marks what is reachable. -/
theorem marks_iff (i : α) : after i = true ↔ Reaches kids inner root i := by
  constructor
  · intro marked
    rcases walk.reached i marked with old | ⟨c, member, path⟩
    · cases old
    · rwa [List.mem_singleton.mp member] at path
  · intro path
    induction path with
    | refl => exact walk.called root (List.mem_singleton_self root)
    | step _ enters child ih =>
      rcases walk.covers _ enters ih with old | entered
      · cases old
      · exact walk.closed _ entered _ child

theorem entered_iff (d : α) : d ∈ order ↔ inner d ∧ after d = true := by
  constructor
  · intro entered
    obtain ⟨inside, -, marked⟩ := walk.fresh d entered
    exact ⟨inside, marked⟩
  · rintro ⟨inside, marked⟩
    exact (walk.covers d inside marked).resolve_left Bool.false_ne_true

/-- An inner node is a child of exactly one, the root of none. -/
theorem count_entered {d : α} (entered : d ∈ order) : (order.flatMap kids).count d = if d = root then 0 else 1 := by
  obtain ⟨inside, marked⟩ := (walk.entered_iff d).mp entered
  have count := walk.counts d inside
  rw [List.count_append, List.count_singleton, marked] at count
  simp only [Bool.toNat_true, Bool.toNat_false] at count
  by_cases same : d = root
  · rw [if_pos same]
    rw [if_pos (by simpa using same.symm)] at count
    omega
  · rw [if_neg same]
    rw [if_neg (by simpa using fun eq => same eq.symm)] at count
    omega

end Whole

end Traversed

end Bpfs.Lib
