import Bpfs.FileLeaves
import Bpfs.FileOps

/-! `callback_write` sweeps a leaf: in place where nobody can see it or one store does it,
and in a copy otherwise. -/

namespace Bpfs
open Lib

theorem noteAccess_spec {s : Fs} {b : Nat} :
    wp (noteAccess b) (fun _ t => Noted s t) (fun _ _ => False) s := by
  simp only [noteAccess, antiCacheManagerAccess, wp_bind, wp_get, wp_ite, wp_modify, wp_pure]
  exact ⟨fun _ => ⟨fun _ => ⟨s.indirMapping, _, _, rfl⟩, fun _ => ⟨s.indirMapping, _, s.cacheCalls, rfl⟩⟩,
    fun _ => ⟨s.indirMapping, s.mappingAccesses, s.cacheCalls, rfl⟩⟩

/-- The store with which `callback_write` puts its bytes in block `b`. -/
def leafWrite (buf : Nat → UInt8) (b off size skip : Nat) : Write :=
  ⟨canAtomicWrite off size, b, off, size, fun i => buf (skip + i)⟩

section Callback

variable {buf : Nat → UInt8} {blockoff off size valid start b : Nat} {commit : Commit} {s : Fs}
  {Q : Nat × Nat → Fs → Prop} {E : Err → Fs → Prop}

theorem callbackWrite_inplace
    (inplace : commit = .free ∨ (commit = .atomic ∧ (canAtomicWrite off size ∨ valid ≤ off)))
    (post : ∀ u, Noted (s.store (leafWrite buf b off size (blockoff * blockSize + off - start))) u → Q (0, b) u) :
    wp (callbackWrite buf blockoff (.bpram b) off size valid start commit b) Q E s := by
  unfold callbackWrite
  dsimp only
  refine wp_checked (by rcases inplace with rfl | ⟨rfl, -⟩ <;> decide) ?_
  rw [if_pos inplace]
  simp only [wp_bind, wp_pure, writable, wp_storeNvm]
  exact wp_mono noteAccess_spec (fun _ u noted => post u noted) (fun _ _ never => never.elim)

theorem callbackWrite_copy (ok : s.Ok) (first : 3 ≤ b) (used : Allocated s b) (kept : ¬Freed s b)
    (fits : off + size ≤ blockSize) (short : valid ≤ blockSize) (writes : commit ≠ .none)
    (copy : ¬(commit = .free ∨ (commit = .atomic ∧ (canAtomicWrite off size ∨ valid ≤ off))))
    (post : ∀ nb t u, Fresh s nb {b} t →
      (∀ o, o < off ∨ (off + size ≤ o ∧ o < valid) → t.bpram nb o = s.bpram b o) →
      Noted (t.store (leafWrite buf nb off size (blockoff * blockSize + off - start))) u → Q (0, nb) u)
    (full : ∀ t, NoSpace s t → E .enospc t) :
    wp (callbackWrite buf blockoff (.bpram b) off size valid start commit b) Q E s := by
  unfold callbackWrite
  dsimp only
  refine wp_checked writes ?_
  rw [if_neg copy, wp_bind]
  refine wp_mono (cowBlock_spec ok first used kept fits short) ?_ (fun e t failed => failed.1 ▸ full t failed.2)
  rintro nb t ⟨fresh, copied⟩
  have low := fresh.unused.1
  have high := fresh.unused.lt ok
  simp only [wp_bind, wp_getBlock (show nb ≠ 0 by omega) (show nb < 2 ^ 63 by omega), wp_pure, writable, wp_storeNvm]
  exact wp_mono noteAccess_spec (fun _ u noted => post nb t u fresh copied noted) (fun _ _ never => never.elim)

theorem steady_noteAccess (b : Nat) : Steady (noteAccess b) :=
  steady_bind steady_get fun _ => steady_ite
    (steady_bind (steady_modify fun _ => le_refl _) fun _ =>
      steady_ite (steady_modify fun _ => le_refl _) (steady_pure _)) (steady_pure _)

theorem steady_writable (block : BlockPtr) : Steady (writable block) := by
  cases block with
  | zeroBlock => exact steady_throw _
  | bpram no => exact steady_pure _

theorem steady_callbackWrite (buf : Nat → UInt8) : SteadyCallback (callbackWrite buf) := by
  intro blockoff block off size valid start commit b
  have last : ∀ (block : BlockPtr) (nb : Nat), Steady (do
      let dst ← writable block
      storeNvm ⟨canAtomicWrite off size, dst, off, size, fun i => buf (blockoff * blockSize + off - start + i)⟩
      noteAccess nb
      pure (0, nb)) :=
    fun _ _ => steady_bind (steady_writable _) fun _ => steady_bind (steady_storeNvm _) fun _ =>
      steady_bind (steady_noteAccess _) fun _ => steady_pure _
  unfold callbackWrite
  refine steady_bind steady_check fun _ => steady_ite (steady_bind (steady_pure _) fun _ => last _ _) ?_
  exact steady_bind (steady_cowBlock _ _ _ _) fun _ => steady_bind (steady_getBlock _) fun _ =>
    steady_bind (steady_pure _) fun _ => last _ _

end Callback

namespace FileWrite

variable {F : FileWrite} {buf : Nat → UInt8} {s t : Fs} {i p b : Nat}

theorem leafWrite_puts (data : ∀ b, F.lo ≤ b → b < F.hi → F.new b = buf (b - F.lo))
    (meets : enter F.lo i < leave F.hi 0 i) :
    F.Puts i b (leafWrite buf b (enter F.lo i - base i) (leave F.hi 0 i - enter F.lo i)
      (i * blockSize + (enter F.lo i - base i) - F.lo)) := by
  rw [show i * blockSize = base i from Nat.mul_comm _ _]
  have low := Nat.le_max_left F.lo (base i)
  have below := Nat.le_max_right F.lo (base i)
  have high := Nat.min_le_left F.hi (base i + span 0)
  refine ⟨rfl, ?_, ?_, fun k inside => ?_⟩
  · simp only [leafWrite, enter]
    omega
  · simp only [leafWrite]
    omega
  · simp only [leafWrite, enter, leave] at *
    rw [data _ (by omega) (by omega)]
    congr 1
    omega

/-- `callback_write`, called through `crawl_leaf`, sweeps a leaf. -/
theorem sweeps_leaf (data : ∀ b, F.lo ≤ b → b < F.hi → F.new b = buf (b - F.lo)) {commit : Commit}
    (mode : commit = .copy ∨ commit = .atomic) (meets : enter F.lo i < leave F.hi 0 i) (indir : Nat → Option Nat) :
    F.sweep.Sweeps 0 i commit (fun parent => crawlLeaf (some (callbackWrite buf)) none F.lo (indir parent)) := by
  intro parent p s ready _
  have below := Nat.le_max_right F.lo (base i)
  have span : leave F.hi 0 i ≤ base i + blockSize := by
    simp only [leave, span_zero]
    omega
  have index : enter F.lo i / blockSize = i := by
    apply Nat.div_eq_of_lt_le
    · rw [Nat.mul_comm]
      exact below
    · rw [Nat.succ_mul, Nat.mul_comm]
      exact lt_of_lt_of_le meets span
  refine Sweep.runs_of_wp ?_ (steady_crawlLeaf (steady_callbackWrite buf) _ _ _ _ _ _ _ _)
  change wp (crawlLeaf (some (callbackWrite buf)) none F.lo (indir parent) p (enter F.lo i / blockSize)
    (enter F.lo i - base i) (leave F.hi 0 i - enter F.lo i) (validIn F.g 0 i) commit) _ _ s
  rw [index]
  have puts := fun b => leafWrite_puts (b := b) data meets
  have short : validIn F.g 0 i ≤ blockSize := Nat.le_trans (Nat.min_le_right _ _) (le_of_eq span_zero)
  have fits : enter F.lo i - base i + (leave F.hi 0 i - enter F.lo i) ≤ blockSize := by
    simp only [enter] at *
    omega
  have writes : commit ≠ .none := by rcases mode with rfl | rfl <;> decide
  refine crawlLeaf_write ready.ok ?_ (by omega) fits short mode ready.nvm ?_ ?_ ?_
  · rw [← index]
    exact Nat.div_le_div_right (Nat.le_max_left _ _)
  · intro present t noted
    have ready' := ready.noted noted
    obtain ⟨mine, low, high, used, kept⟩ := leaf_live ready' present
    by_cases inplace : commit = .free ∨ (commit = .atomic ∧
        (canAtomicWrite (enter F.lo i - base i) (leave F.hi 0 i - enter F.lo i) ∨
          validIn F.g 0 i ≤ enter F.lo i - base i))
    · refine callbackWrite_inplace inplace (fun u noted' => ⟨fun both => both.2, rfl, ?_⟩)
      have atomic := inplace.resolve_left (by rcases mode with rfl | rfl <;> decide)
      refine (done_inplace ready' present atomic.1 (puts p) ?_).noted noted noted'
      rcases atomic.2 with can | behind
      · exact Or.inl (decide_eq_true can)
      · right
        have := Nat.le_max_right F.lo (base i)
        simp only [validIn, enter, span_zero] at *
        omega
    · refine callbackWrite_copy ready'.ok low used kept fits short writes inplace (fun nb v u fresh copied noted' =>
        ⟨fun both => both.2, rfl, ?_⟩) (fun u full => ?_)
      · refine (done_fresh ready' (fresh.store rfl) (fun y member => ⟨member, present⟩)
          ((puts nb).filled (fun o out => ?_)) (fun atomic behind => ?_)).noted noted noted'
        · rw [copied o out, leafByte_nvm ⟨low, high⟩]
        · refine absurd (Or.inr ⟨atomic, Or.inr ?_⟩) inplace
          simp only [validIn]
          omega
      · exact (ready'.stop F.sweep.errors_enospc full.grow full.writes full.bpram (fun _ => full.failures)).noted noted
  · intro hole b t u fresh zero noted
    subst hole
    refine callbackWrite_inplace (Or.inl rfl) (fun v noted' => ⟨fun both => both.2, rfl, ?_⟩)
    obtain ⟨_, _, _, rfl⟩ := noted
    refine (done_fresh ready (fresh.store rfl) (fun y member => absurd member (Set.notMem_empty _))
      ((puts b).filled (fun o out => ?_)) (fun _ _ => rfl)).noted ⟨_, _, _, rfl⟩ ?_
    · rw [zero o out, leafByte_hole]
    · obtain ⟨_, _, _, rfl⟩ := noted'
      exact ⟨_, _, _, rfl⟩
  · intro hole t full
    exact ready.stop F.sweep.errors_enospc full.grow full.writes full.bpram (fun _ => full.failures)

end FileWrite

end Bpfs
