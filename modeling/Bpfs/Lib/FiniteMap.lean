import Mathlib.Algebra.Ring.Nat
import Mathlib.Data.Finmap

/-! Finite maps by their entries. -/

namespace Bpfs.Lib

variable {κ : Type} [DecidableEq κ] {β : κ → Type} {m : Finmap β} {c : κ} {v w : β c} {rest : Multiset (Sigma β)}

theorem lookup_of_entries (entries : m.entries = ⟨c, v⟩ ::ₘ rest) : m.lookup c = some v :=
  Finmap.lookup_eq_some_iff.mpr (entries ▸ Multiset.mem_cons_self _ _)

/-- What is erased can be put back. -/
theorem insert_erase (found : m.lookup c = some v) : (m.erase c).insert c v = m := by
  apply Finmap.ext_lookup
  intro x
  by_cases same : x = c
  · subst same
    rw [Finmap.lookup_insert, found]
  · rw [Finmap.lookup_insert_of_ne _ same, Finmap.lookup_erase_ne same]

theorem erase_absent (absent : c ∉ m) : m.erase c = m := by
  apply Finmap.ext_lookup
  intro x
  by_cases same : x = c
  · subst same
    rw [Finmap.lookup_erase, Finmap.lookup_eq_none.mpr absent]
  · rw [Finmap.lookup_erase_ne same]

theorem entries_erase (entries : m.entries = ⟨c, v⟩ ::ₘ rest) : (m.erase c).entries = rest := by
  have whole : ⟨c, v⟩ ::ₘ (m.erase c).entries = ⟨c, v⟩ ::ₘ rest := by
    rw [← Finmap.entries_insert_of_notMem Finmap.notMem_erase_self, insert_erase (lookup_of_entries entries), entries]
  exact (Multiset.cons_inj_right _).mp whole

/-- A new value takes the place of the old one. -/
theorem entries_insert (entries : m.entries = ⟨c, v⟩ ::ₘ rest) : (m.insert c w).entries = ⟨c, w⟩ ::ₘ rest := by
  have same : m.insert c w = (m.erase c).insert c w := by
    apply Finmap.ext_lookup
    intro x
    by_cases same : x = c
    · subst same
      rw [Finmap.lookup_insert, Finmap.lookup_insert]
    · rw [Finmap.lookup_insert_of_ne _ same, Finmap.lookup_insert_of_ne _ same, Finmap.lookup_erase_ne same]
  rw [same, Finmap.entries_insert_of_notMem Finmap.notMem_erase_self, entries_erase entries]

omit [DecidableEq κ] in
theorem card_keys (m : Finmap β) : m.keys.card = Multiset.card m.entries := Multiset.card_map _ _

/-- The lists of all buckets together, with one of them in front. -/
theorem flatMap_range_perm {α : Type} (f : Nat → List α) {i n : Nat} (inside : i < n) :
    ((List.range n).flatMap f).Perm (f i ++ (List.range n).flatMap (Function.update f i [])) := by
  induction n with
  | zero => exact absurd inside (Nat.not_lt_zero _)
  | succ n ih =>
    rw [List.range_succ, List.flatMap_append, List.flatMap_append, List.flatMap_singleton, List.flatMap_singleton]
    by_cases last : i = n
    · subst last
      have front : (List.range i).flatMap (Function.update f i []) = (List.range i).flatMap f := by
        refine List.flatMap_congr fun j member => ?_
        rw [Function.update_of_ne (Nat.ne_of_lt (List.mem_range.mp member))]
      rw [front, Function.update_self, List.append_nil]
      exact List.perm_append_comm
    · rw [Function.update_of_ne (fun same => last same.symm), ← List.append_assoc]
      exact (ih (by omega)).append_right _

end Bpfs.Lib
