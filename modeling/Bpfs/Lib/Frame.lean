import Bpfs.Lib.Wp

/-! What a computation leaves as it is, however it ends. -/

namespace Bpfs.Lib

variable {ε σ α β γ : Type} {f : σ → γ}

/-- However `x` ends, `f` of the state is as it was. -/
def Frames (f : σ → γ) (x : EStateM ε σ α) : Prop :=
  ∀ s, wp x (fun _ t => f t = f s) (fun _ t => f t = f s) s

theorem frames_pure (a : α) : Frames f (pure a : EStateM ε σ α) := fun _ => rfl

theorem frames_throw (e : ε) : Frames f (throw e : EStateM ε σ α) := fun _ => rfl

theorem frames_get : Frames f (get : EStateM ε σ σ) := fun _ => rfl

theorem frames_modify {g : σ → σ} (same : ∀ s, f (g s) = f s) : Frames f (modify g : EStateM ε σ PUnit) :=
  fun s => same s

theorem Frames.bind {x : EStateM ε σ α} {k : α → EStateM ε σ β} (first : Frames f x) (next : ∀ a, Frames f (k a)) :
    Frames f (x >>= k) := by
  intro s
  rw [wp_bind]
  refine wp_mono (first s) (fun a t same => ?_) (fun _ _ same => same)
  exact wp_mono (next a t) (fun _ _ same' => same'.trans same) (fun _ _ same' => same'.trans same)

theorem frames_ite {c : Prop} {dec : Decidable c} {x y : EStateM ε σ α} (yes : Frames f x) (no : Frames f y) :
    Frames f (if c then x else y) := by
  by_cases holds : c
  · rw [if_pos holds]
    exact yes
  · rw [if_neg holds]
    exact no

end Bpfs.Lib
