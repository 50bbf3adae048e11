import Mathlib.Algebra.Ring.Nat
import Mathlib.Data.List.Nodup

/-! Lists in the order of the last use. `touch b l` is the list after a use of `b`; using
the elements of a list one after the other gives the distinct elements in the order of
their last use. -/

namespace Bpfs.Lib

variable {α : Type} [DecidableEq α]

def touch (b : α) (l : List α) : List α := b :: l.filter (· != b)

theorem touch_new {b : α} {l : List α} (out : b ∉ l) : touch b l = b :: l := by
  have kept : l.filter (· != b) = l := by
    refine List.filter_eq_self.mpr (fun c member => ?_)
    have other : c ≠ b := fun same => out (same ▸ member)
    simp [other]
  rw [touch, kept]

theorem touch_middle {b : α} {front back : List α} (nodup : (front ++ b :: back).Nodup) :
    touch b (front ++ b :: back) = b :: (front ++ back) := by
  have out := (List.nodup_cons.mp (List.nodup_middle.mp nodup)).1
  have rest : (front ++ b :: back).filter (· != b) = (front ++ back).filter (· != b) := by
    simp [List.filter_append]
  rw [touch, rest]
  exact touch_new out

theorem touch_map {β : Type} [DecidableEq β] {f : α → β} (injective : ∀ a b, f a = f b → a = b) (b : α) (l : List α) :
    touch (f b) (l.map f) = (touch b l).map f := by
  rw [touch, touch, List.map_cons, List.filter_map]
  congr 2
  refine List.filter_congr (fun a _ => ?_)
  by_cases same : a = b
  · simp [same]
  · have other : f a ≠ f b := fun equal => same (injective a b equal)
    exact (bne_iff_ne.mpr other).trans (bne_iff_ne.mpr same).symm

theorem filter_eraseDups (keep : α → Bool) (l : List α) : (l.filter keep).eraseDups = l.eraseDups.filter keep := by
  -- `eraseDups` goes on with a filtered list, so the induction is on the length
  induction size : l.length using Nat.strongRecOn generalizing l with
  | _ n ih =>
    cases l with
    | nil => rfl
    | cons a l =>
      have shorter : (l.filter fun b => !b == a).length < n := by
        have bound := List.length_filter_le (fun b => !b == a) l
        rw [← size, List.length_cons]
        omega
      rw [List.eraseDups_cons]
      cases kept : keep a with
      | true =>
        rw [List.filter_cons_of_pos kept, List.filter_cons_of_pos kept, List.eraseDups_cons, ← ih _ shorter _ rfl,
          List.filter_comm]
      | false =>
        have dropped : ¬keep a = true := by rw [kept]; exact Bool.false_ne_true
        have same : (l.filter fun b => !b == a).filter keep = l.filter keep := by
          rw [List.filter_filter]
          refine List.filter_congr (fun b _ => ?_)
          by_cases here : b = a
          · rw [here, kept]
            rfl
          · simp [here]
        rw [List.filter_cons_of_neg dropped, List.filter_cons_of_neg dropped, ← ih _ shorter _ rfl, same]

theorem touch_eraseDups (b : α) (l : List α) : touch b l.eraseDups = (b :: l).eraseDups := by
  rw [List.eraseDups_cons, touch, filter_eraseDups]
  rfl

theorem eraseDups_of_nodup {l : List α} (nodup : l.Nodup) : l.eraseDups = l := by
  induction l with
  | nil => rfl
  | cons a l ih =>
    obtain ⟨new, rest⟩ := List.nodup_cons.mp nodup
    rw [← touch_eraseDups, ih rest, touch_new new]

/-- The elements of `l` stand in the order of their last use, where `uses` has the last use first. -/
def OldestFirst (uses l : List α) : Prop := l.Pairwise fun older newer => uses.idxOf newer < uses.idxOf older

variable {uses l l' : List α} {b : α}

theorem OldestFirst.sublist (order : OldestFirst uses l) (sub : l'.Sublist l) : OldestFirst uses l' :=
  List.Pairwise.sublist sub order

/-- A use of something else keeps the order. -/
theorem OldestFirst.cons (order : OldestFirst uses l) (out : b ∉ l) : OldestFirst (b :: uses) l := by
  refine List.Pairwise.imp_of_mem ?_ order
  intro older newer first second before
  have other : b ≠ older := fun same => out (same ▸ first)
  have other' : b ≠ newer := fun same => out (same ▸ second)
  rw [List.idxOf_cons_ne uses other', List.idxOf_cons_ne uses other]
  exact Nat.succ_lt_succ before

/-- What is used moves to the end. -/
theorem OldestFirst.use (order : OldestFirst uses l) (out : b ∉ l) : OldestFirst (b :: uses) (l ++ [b]) := by
  refine List.pairwise_append.mpr ⟨order.cons out, List.pairwise_singleton _ _, ?_⟩
  intro older inside newer single
  have other : b ≠ older := fun same => out (same ▸ inside)
  rw [List.mem_singleton.mp single, List.idxOf_cons_self, List.idxOf_cons_ne uses other]
  exact Nat.succ_pos _

end Bpfs.Lib
