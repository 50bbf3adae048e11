import Mathlib.Algebra.Ring.Nat
import Mathlib.Data.Finset.Card

/-! Places that name targets, and a count for each target that is at least the number of places that name it. -/

namespace Bpfs.Lib

variable {P T : Type}

/-- No target is named by more places than its limit. -/
def Bounded (names : P → T → Prop) (limit : T → Nat) : Prop :=
  ∀ t (s : Finset P), (∀ x ∈ s, names x t) → s.card ≤ limit t

variable {names names' : P → T → Prop} {limit limit' : T → Nat} {x y : P} {t : T}

theorem Bounded.mono (bounded : Bounded names limit) (fewer : ∀ z u, names' z u → names z u)
    (more : ∀ u, limit u ≤ limit' u) : Bounded names' limit' := fun u s all =>
  (bounded u s fun z inside => fewer z u (all z inside)).trans (more u)

variable [DecidableEq P]

/-- A target with a limit of 1 is named by no second place. -/
theorem Bounded.only (bounded : Bounded names limit) (here : names x t) (one : limit t ≤ 1)
    (also : names y t) : y = x := by
  by_contra other
  have two := bounded t {y, x} fun z inside => by
    rcases Finset.mem_insert.mp inside with rfl | last
    · exact also
    · rw [Finset.mem_singleton.mp last]
      exact here
  rw [Finset.card_pair other] at two
  omega

/-- A place that no longer names its target leaves room for a limit less by one. -/
theorem Bounded.remove (bounded : Bounded names limit) (here : names x t) (gone : ¬names' x t)
    (fewer : ∀ z u, names' z u → names z u) (more : ∀ u, u ≠ t → limit u ≤ limit' u)
    (less : limit t ≤ limit' t + 1) : Bounded names' limit' := by
  intro u s all
  by_cases same : u = t
  · subst same
    have out : x ∉ s := fun inside => gone (all x inside)
    have bound := bounded u (insert x s) fun z inside => by
      rcases Finset.mem_insert.mp inside with rfl | old
      · exact here
      · exact fewer z u (all z old)
    rw [Finset.card_insert_of_notMem out] at bound
    omega
  · exact (bounded u s fun z inside => fewer z u (all z inside)).trans (more u same)

/-- One more place names a target whose new limit has room for it. -/
theorem Bounded.add (bounded : Bounded names limit) (new : ∀ u, names' x u → u = t)
    (old : ∀ z u, z ≠ x → names' z u → names z u) (more : ∀ u, u ≠ t → limit u ≤ limit' u)
    (room : ∀ s : Finset P, (∀ z ∈ s, names z t) → s.card + 1 ≤ limit' t) : Bounded names' limit' := by
  intro u s all
  by_cases same : u = t
  · subst same
    have bound := room (s.erase x) fun z inside => old z u (Finset.ne_of_mem_erase inside) (all z (Finset.mem_of_mem_erase inside))
    have := Finset.pred_card_le_card_erase (s := s) (a := x)
    omega
  · refine (bounded u s fun z inside => old z u (fun here => same ?_) (all z inside)).trans (more u same)
    exact new u (here ▸ all z inside)

/-- A place takes over from another. -/
theorem Bounded.move (bounded : Bounded names limit) (here : names x t) (gone : ¬names' x t)
    (new : ∀ u, names' y u → u = t) (old : ∀ z u, z ≠ y → names' z u → names z u) :
    Bounded names' limit := by
  intro u s all
  by_cases same : u = t
  · subst same
    have out : x ∉ s.erase y := fun inside => gone (all x (Finset.mem_of_mem_erase inside))
    have bound := bounded u (insert x (s.erase y)) fun z inside => by
      rcases Finset.mem_insert.mp inside with rfl | rest
      · exact here
      · exact old z u (Finset.ne_of_mem_erase rest) (all z (Finset.mem_of_mem_erase rest))
    rw [Finset.card_insert_of_notMem out] at bound
    have := Finset.pred_card_le_card_erase (s := s) (a := y)
    omega
  · refine bounded u s fun z inside => old z u (fun here => same ?_) (all z inside)
    exact new u (here ▸ all z inside)

end Bpfs.Lib
