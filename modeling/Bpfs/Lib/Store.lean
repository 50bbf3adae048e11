import Bpfs.Lib.LittleEndian
import Mathlib.Order.Disjoint

/-! Block-addressed memory that survives a crash. Stores persist in program
order. A store issued as one word is atomic; a longer copy can be cut after any
number of its bytes. `Cut m ws` holds of exactly the memories a crash can leave
while the stores `ws` are being issued, starting from `m`. -/

namespace Bpfs.Lib

/-- Block number, then offset in the block. -/
abbrev Mem := Nat → Nat → UInt8

structure Write where
  atomic : Bool
  blk : Nat
  off : Nat
  len : Nat
  data : Nat → UInt8

/-- Whether the byte at `o` of block `b` is one that `w` writes. -/
def Write.covers (w : Write) (b o : Nat) : Prop := b = w.blk ∧ w.off ≤ o ∧ o < w.off + w.len

instance (w : Write) (b o : Nat) : Decidable (w.covers b o) := by
  unfold Write.covers; infer_instance

def Mem.apply (m : Mem) (w : Write) : Mem :=
  fun b o => if w.covers b o then w.data (o - w.off) else m b o

def Mem.applyAll (m : Mem) (ws : List Write) : Mem := ws.foldl Mem.apply m

def Cut : Mem → List Write → Mem → Prop
  | m, [], m' => m' = m
  | m, w :: ws, m' =>
      m' = m ∨ (w.atomic = false ∧ ∃ n, n ≤ w.len ∧ m' = m.apply { w with len := n }) ∨
        Cut (m.apply w) ws m'

@[simp] theorem applyAll_nil (m : Mem) : m.applyAll [] = m := rfl

@[simp] theorem applyAll_cons (m : Mem) (w : Write) (ws : List Write) :
    m.applyAll (w :: ws) = (m.apply w).applyAll ws := rfl

theorem applyAll_append (m : Mem) (ws vs : List Write) :
    m.applyAll (ws ++ vs) = (m.applyAll ws).applyAll vs := by
  simp [Mem.applyAll, List.foldl_append]

theorem apply_covered {m : Mem} {w : Write} {b o : Nat} (inside : w.covers b o) :
    m.apply w b o = w.data (o - w.off) := by
  simp only [Mem.apply, if_pos inside]

theorem apply_uncovered {m : Mem} {w : Write} {b o : Nat} (outside : ¬w.covers b o) :
    m.apply w b o = m b o := by
  simp only [Mem.apply, if_neg outside]

theorem apply_other {m : Mem} {w : Write} {b : Nat} (other : b ≠ w.blk) : m.apply w b = m b := by
  funext o
  exact apply_uncovered (fun inside => other inside.1)

/-- A crash leaves the memory before or after the stores, or somewhere between. -/
theorem Cut.start (m : Mem) (ws : List Write) : Cut m ws m := by
  cases ws with
  | nil => rfl
  | cons w ws => exact Or.inl rfl

theorem Cut.finish (m : Mem) (ws : List Write) : Cut m ws (m.applyAll ws) := by
  induction ws generalizing m with
  | nil => rfl
  | cons w ws ih => exact Or.inr (Or.inr (ih (m.apply w)))

theorem cut_append {m m' : Mem} {ws vs : List Write} :
    Cut m (ws ++ vs) m' ↔ Cut m ws m' ∨ Cut (m.applyAll ws) vs m' := by
  induction ws generalizing m with
  | nil =>
    constructor
    · exact Or.inr
    · rintro (same | later)
      · cases same
        exact Cut.start _ _
      · exact later
  | cons w ws ih =>
    simp only [List.cons_append, Cut, applyAll_cons, ih, or_assoc]

/-- Every memory a crash during `ws` can leave differs from the start only where
some store of `ws` writes. -/
theorem Cut.agree {m m' : Mem} {ws : List Write} {b o : Nat} (crash : Cut m ws m')
    (untouched : ∀ w ∈ ws, ¬w.covers b o) : m' b o = m b o := by
  induction ws generalizing m with
  | nil => rw [crash]
  | cons w ws ih =>
    have first := untouched w (List.mem_cons_self ..)
    rcases crash with same | ⟨-, n, short, partly⟩ | later
    · rw [same]
    · rw [partly]
      apply apply_uncovered
      rintro ⟨block, low, high⟩
      exact first ⟨block, low, by simp only at high; omega⟩
    · rw [ih later (fun v member => untouched v (List.mem_cons_of_mem _ member)),
        apply_uncovered first]

theorem Cut.agree_block {m m' : Mem} {ws : List Write} {b : Nat} (crash : Cut m ws m')
    (untouched : ∀ w ∈ ws, w.blk ≠ b) : m' b = m b := by
  funext o
  exact crash.agree (fun w member inside => untouched w member inside.1.symm)

end Bpfs.Lib
