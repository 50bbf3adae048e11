import Mathlib.Algebra.Ring.Nat
import Mathlib.Data.Set.Basic
import Mathlib.Order.Disjoint

/-! Weakest preconditions for stateful code that may stop early. The error
postcondition sees the state at the stop, so that what a failed run leaves
behind can be specified like the result of a finished one. -/

namespace Bpfs.Lib

variable {ε σ α β : Type}

/-- Every way `x` can end when it starts in `s` is allowed by `Q` or by `E`. -/
def wp (x : EStateM ε σ α) (Q : α → σ → Prop) (E : ε → σ → Prop) (s : σ) : Prop :=
  match x s with
  | .ok a t => Q a t
  | .error e t => E e t

theorem wp_ok {x : EStateM ε σ α} {Q : α → σ → Prop} {E : ε → σ → Prop} {s t : σ} {a : α}
    (run : x s = .ok a t) : wp x Q E s ↔ Q a t := by
  simp only [wp, run]

theorem wp_error {x : EStateM ε σ α} {Q : α → σ → Prop} {E : ε → σ → Prop} {s t : σ} {e : ε}
    (run : x s = .error e t) : wp x Q E s ↔ E e t := by
  simp only [wp, run]

theorem ok_of_wp {x : EStateM ε σ α} {Q : α → σ → Prop} {s : σ} (safe : wp x Q (fun _ _ => False) s) :
    ∃ a t, x s = .ok a t ∧ Q a t := by
  unfold wp at safe
  split at safe
  · exact ⟨_, _, ‹_›, safe⟩
  · exact safe.elim

theorem wp_mono {x : EStateM ε σ α} {Q Q' : α → σ → Prop} {E E' : ε → σ → Prop} {s : σ}
    (base : wp x Q E s) (post : ∀ a t, Q a t → Q' a t) (fail : ∀ e t, E e t → E' e t) :
    wp x Q' E' s := by
  unfold wp at base ⊢
  split <;> rename_i run <;> simp only [run] at base
  · exact post _ _ base
  · exact fail _ _ base

@[simp] theorem wp_pure {a : α} {Q : α → σ → Prop} {E : ε → σ → Prop} {s : σ} :
    wp (pure a) Q E s ↔ Q a s := Iff.rfl

@[simp] theorem wp_throw {e : ε} {Q : α → σ → Prop} {E : ε → σ → Prop} {s : σ} :
    wp (throw e) Q E s ↔ E e s := Iff.rfl

@[simp] theorem wp_get {Q : σ → σ → Prop} {E : ε → σ → Prop} {s : σ} :
    wp get Q E s ↔ Q s s := Iff.rfl

@[simp] theorem wp_modify {f : σ → σ} {Q : PUnit → σ → Prop} {E : ε → σ → Prop} {s : σ} :
    wp (modify f) Q E s ↔ Q ⟨⟩ (f s) := Iff.rfl

@[simp] theorem wp_bind {x : EStateM ε σ α} {f : α → EStateM ε σ β} {Q : β → σ → Prop}
    {E : ε → σ → Prop} {s : σ} :
    wp (x >>= f) Q E s ↔ wp x (fun a t => wp (f a) Q E t) E s := by
  change wp (EStateM.bind x f) Q E s ↔ _
  unfold wp EStateM.bind
  cases x s <;> rfl

theorem wp_bind_of_forall {x : EStateM ε σ α} {f : α → EStateM ε σ β} {Q : β → σ → Prop} {E : ε → σ → Prop} {s : σ}
    (next : ∀ a t, wp (f a) Q E t) (stop : ∀ e t, E e t) : wp (x >>= f) Q E s := by
  rw [wp_bind, wp]
  split
  · exact next _ _
  · exact stop _ _

/-- The rule for two runs in a row of which the first cannot fail. -/
theorem wp_seq {x : EStateM ε σ α} {f : α → EStateM ε σ β} {P : α → σ → Prop} {Q : β → σ → Prop} {E : ε → σ → Prop}
    {s : σ} (first : wp x P (fun _ _ => False) s) (next : ∀ a t, P a t → wp (f a) Q E t) : wp (x >>= f) Q E s := by
  rw [wp_bind]
  exact wp_mono first next fun _ _ never => never.elim

@[simp] theorem wp_map {x : EStateM ε σ α} {f : α → β} {Q : β → σ → Prop}
    {E : ε → σ → Prop} {s : σ} :
    wp (f <$> x) Q E s ↔ wp x (fun a t => Q (f a) t) E s := by
  change wp (EStateM.map f x) Q E s ↔ _
  unfold wp EStateM.map
  cases x s <;> rfl

theorem wp_ite {c : Prop} {dec : Decidable c} {x y : EStateM ε σ α} {Q : α → σ → Prop}
    {E : ε → σ → Prop} {s : σ} :
    wp (if c then x else y) Q E s ↔ (c → wp x Q E s) ∧ (¬c → wp y Q E s) := by
  by_cases holds : c <;> simp [holds]

/-- Two things known of one run are known together. -/
theorem wp_and {x : EStateM ε σ α} {Q Q' : α → σ → Prop} {E E' : ε → σ → Prop} {s : σ}
    (first : wp x Q E s) (second : wp x Q' E' s) :
    wp x (fun a t => Q a t ∧ Q' a t) (fun e t => E e t ∧ E' e t) s := by
  unfold wp at first second ⊢
  split <;> rename_i run <;> simp only [run] at first second <;> exact ⟨first, second⟩

/-- Two programs of whose runs the same is known are the same. -/
theorem eq_of_wp {x y : EStateM ε σ α} (same : ∀ Q E s, wp x Q E s ↔ wp y Q E s) : x = y := by
  funext s
  cases run : y s with
  | ok a t =>
    have known := (same (fun b u => b = a ∧ u = t) (fun _ _ => False) s).mpr ((wp_ok run).mpr ⟨rfl, rfl⟩)
    obtain ⟨b, u, run', rfl, rfl⟩ := ok_of_wp known
    exact run'
  | error e t =>
    have known := (same (fun _ _ => False) (fun e' u => e' = e ∧ u = t) s).mpr ((wp_error run).mpr ⟨rfl, rfl⟩)
    cases run' : x s with
    | ok a u => exact ((wp_ok run').mp known).elim
    | error e' u =>
      obtain ⟨rfl, rfl⟩ := (wp_error run').mp known
      rfl

end Bpfs.Lib
