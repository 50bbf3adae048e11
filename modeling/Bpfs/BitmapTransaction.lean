import Bpfs.BitmapRuns

/-! One transaction on an allocation bitmap: what an abort undoes and what a commit applies. -/

namespace Bpfs
open Lib

namespace Bitmap

variable {bm bm' start : Bitmap} {no : Nat} {loop : Bool}

/-- A bitmap between transactions: whole scan words, nothing staged and no growth to undo. -/
structure Idle (bm : Bitmap) : Prop where
  allocs : bm.allocs = []
  frees : bm.frees = []
  prev : bm.prevNtotal = 0
  aligned : bm.ntotal % 64 = 0
  small : bm.ntotal < 2 ^ 64
  room : bm.nfree < 2 ^ 64

/-- The calls of a transaction. -/
def Op.Within : Op → Prop
  | .alloc | .free _ | .unfree _ | .unalloc _ | .grow _ => True
  | _ => False

/-- The bits before the transaction, with clear ones in the part that is added. -/
def before (start : Bitmap) (k : Nat) : Bool := decide (k < start.ntotal) && start.bit k

/-- In a transaction the marks are the old ones and the staged allocations, which are new. -/
structure Underway (start bm : Bitmap) : Prop where
  total : start.ntotal ≤ bm.ntotal
  aligned : bm.ntotal % 64 = 0
  small : bm.ntotal < 2 ^ 64
  room : bm.nfree < 2 ^ 64
  bits : ∀ k, k < bm.ntotal → bm.bit k = (start.before k || decide (k ∈ bm.allocs))
  new : ∀ k ∈ bm.allocs, k < bm.ntotal ∧ start.before k = false
  nodup : bm.allocs.Nodup
  frees : Marked bm.bit bm.ntotal bm.frees
  nfree : u64 (bm.nfree + bm.allocs.length) = u64 (start.nfree + (bm.ntotal - start.ntotal))
  prev : bm.prevNtotal % 64 = 0 ∧ bm.prevNtotal ≤ bm.ntotal
  recorded : start.ntotal ≠ 0 → (if bm.prevNtotal = 0 then bm.ntotal else bm.prevNtotal) = start.ntotal

theorem Idle.underway (idle : start.Idle) : Underway start start := by
  refine ⟨le_refl _, idle.aligned, idle.small, idle.room, fun k below => ?_, ?_, ?_, ?_, ?_, ?_, fun _ => if_pos idle.prev⟩
  · simp [before, below, idle.allocs]
  · rw [idle.allocs]
    simp
  · rw [idle.allocs]
    exact List.nodup_nil
  · rw [idle.frees]
    exact ⟨List.nodup_nil, by simp⟩
  · rw [idle.allocs, Nat.sub_self]
    rfl
  · rw [idle.prev]
    exact ⟨rfl, Nat.zero_le _⟩

theorem Underway.allocs (way : Underway start bm) : Marked bm.bit bm.ntotal bm.allocs := by
  refine ⟨way.nodup, fun k member => ?_⟩
  obtain ⟨below, -⟩ := way.new k member
  rw [way.bits k below, decide_eq_true member, Bool.or_true]
  exact ⟨below, rfl⟩

/-- What a call of the transaction makes of the lists, if it keeps the size. -/
theorem Underway.becomes {bits : Nat → Bool} {nfree : Nat} {allocs frees : List Nat} (way : Underway start bm)
    (becomes : Becomes bm bm' bits nfree allocs frees) (room : nfree < 2 ^ 64)
    (marks : ∀ k, k < bm.ntotal → bits k = (start.before k || decide (k ∈ allocs)))
    (new : ∀ k ∈ allocs, k < bm.ntotal ∧ start.before k = false) (nodup : allocs.Nodup)
    (marked : Marked bits bm.ntotal frees) (count : u64 (nfree + allocs.length) = u64 (bm.nfree + bm.allocs.length)) :
    Underway start bm' := by
  obtain ⟨same, amount, list, list', total, prev⟩ := becomes
  have all : bm'.bit = bits := funext same
  refine ⟨?_, ?_, ?_, ?_, ?_, ?_, ?_, ?_, ?_, ?_, ?_⟩
  · rw [total]; exact way.total
  · rw [total]; exact way.aligned
  · rw [total]; exact way.small
  · rw [amount]; exact room
  · rw [total, all, list]; exact marks
  · rw [list, total]; exact new
  · rw [list]; exact nodup
  · rw [all, total, list']; exact marked
  · rw [amount, list, total, count]; exact way.nfree
  · rw [prev, total]; exact way.prev
  · rw [prev, total]; exact way.recorded

theorem Underway.alloc (way : Underway start bm) (inside : no < bm.ntotal) (clear : bm.bit no = false)
    (becomes : Becomes bm bm' (bm.withSet no) (usub bm.nfree 1) (no :: bm.allocs) bm.frees) : Underway start bm' := by
  have unused := clear
  rw [way.bits no inside, Bool.or_eq_false_iff, decide_eq_false_iff_not] at unused
  refine way.becomes becomes (Nat.mod_lt _ (by decide)) (fun k below => ?_) ?_
    (List.nodup_cons.mpr ⟨unused.2, way.nodup⟩) way.frees.withSet ?_
  · rw [withSet, way.bits k below]
    simp only [List.mem_cons, Bool.decide_or]
    exact Bool.or_left_comm ..
  · exact List.forall_mem_cons.mpr ⟨⟨inside, unused.1⟩, way.new⟩
  · have room := way.room
    rw [List.length_cons, usub, u64, u64]
    omega

theorem Underway.unalloc (way : Underway start bm) (member : no ∈ bm.allocs) (kept : no ∉ bm.frees)
    (becomes : Becomes bm bm' (bm.without [no]) (u64 (bm.nfree + 1)) (bm.allocs.erase no) bm.frees) :
    Underway start bm' := by
  have erased : ∀ k, k ∈ bm.allocs.erase no ↔ k ≠ no ∧ k ∈ bm.allocs := fun k => way.nodup.mem_erase_iff
  refine way.becomes becomes (Nat.mod_lt _ (by decide)) (fun k below => ?_) (fun k inside => ?_) (way.nodup.erase no)
    ⟨way.frees.1, fun k inside => ?_⟩ ?_
  · rw [without, way.bits k below]
    by_cases same : k = no
    · simp [same, erased, (way.new no member).2]
    · simp [same, erased]
  · exact way.new k ((erased k).mp inside).2
  · have apart : k ≠ no := fun same => kept (same ▸ inside)
    simpa [without, apart] using way.frees.2 k inside
  · have size := List.length_erase_of_mem member
    have some := List.length_pos_of_mem member
    rw [size, u64, u64, u64]
    omega

theorem Underway.grow {ntotal : Nat} (way : Underway start bm) (more : bm.ntotal < ntotal) (small : ntotal < 2 ^ 64)
    (aligned : ntotal % 64 = 0) (grown : Grown bm bm' ntotal) : Underway start bm' := by
  obtain ⟨bits, amount, list, list', total, prev⟩ := grown
  have above := way.total
  have old : ∀ k, k < bm.ntotal → bm'.bit k = bm.bit k := by
    intro k below
    rw [bits k (by omega), decide_eq_true below, Bool.true_and]
  refine ⟨?_, ?_, ?_, ?_, ?_, ?_, ?_, ?_, ?_, ?_, ?_⟩
  · omega
  · rw [total]; exact aligned
  · rw [total]; exact small
  · rw [amount]; exact Nat.mod_lt _ (by decide)
  · rw [total, list]
    intro k below
    by_cases here : k < bm.ntotal
    · rw [old k here, way.bits k here]
    · have out : k ∉ bm.allocs := fun member => here (way.new k member).1
      have late : ¬k < start.ntotal := by omega
      rw [bits k below]
      simp [here, out, late, before]
  · rw [list, total]
    intro k member
    obtain ⟨below, clear⟩ := way.new k member
    exact ⟨by omega, clear⟩
  · rw [list]; exact way.nodup
  · rw [total, list']
    refine ⟨way.frees.1, fun k member => ?_⟩
    obtain ⟨below, set⟩ := way.frees.2 k member
    exact ⟨by omega, (old k below).trans set⟩
  · have count := way.nfree
    rw [amount, list, total]
    unfold u64 at count ⊢
    omega
  · have whole := way.aligned
    have record := way.prev
    rw [prev, total]
    split <;> omega
  · intro some
    have record := way.recorded some
    rw [prev, record, if_neg some]

theorem Underway.step {op : Op} (way : Underway start bm) (within : op.Within) (allowed : op.Allowed bm)
    (aligned : op.Aligned) (done : op.step loop bm = some bm') : Underway start bm' := by
  cases op with
  | alloc =>
    cases done
    rcases alloc_effect way.aligned with ⟨no, inside, clear, -, -, becomes⟩ | ⟨-, none⟩
    · exact way.alloc inside clear becomes
    · rw [none]
      exact way
  | free no =>
    obtain ⟨inside, set, new, becomes⟩ := free_effect done
    refine way.becomes becomes way.room way.bits way.new way.nodup ⟨List.nodup_cons.mpr ⟨new, way.frees.1⟩, ?_⟩ rfl
    exact List.forall_mem_cons.mpr ⟨⟨inside, set⟩, way.frees.2⟩
  | unfree no =>
    obtain ⟨-, becomes⟩ := unfree_effect done
    refine way.becomes becomes way.room way.bits way.new way.nodup ⟨way.frees.1.erase no, fun k member => ?_⟩ rfl
    exact way.frees.2 k (List.mem_of_mem_erase member)
  | unalloc no =>
    obtain ⟨-, -, member, becomes⟩ := unalloc_effect done
    exact way.unalloc member allowed becomes
  | grow ntotal =>
    rcases Nat.eq_or_lt_of_le allowed.1 with rfl | more
    · rw [resizeWith_same done]
      exact way
    · have whole : ntotal % 64 = 0 := aligned
      have before := way.aligned
      exact way.grow more allowed.2 whole (resizeWith_grow more (by omega) (by omega) done)
  | set | ensureSet | commit | abort => exact within.elim

theorem Underway.run {ops : List Op} (way : Underway start bm) (within : ∀ op ∈ ops, op.Within ∧ op.Aligned)
    (allowed : AllAllowed loop bm ops) (done : run loop ops bm = some bm') : Underway start bm' := by
  induction ops generalizing bm with
  | nil =>
    cases done
    exact way
  | cons op ops ih =>
    obtain ⟨mid, first, rest⟩ := Option.bind_eq_some_iff.mp done
    obtain ⟨here, later⟩ := allowed
    obtain ⟨⟨kind, whole⟩, others⟩ := List.forall_mem_cons.mp within
    exact ih (way.step kind here whole first) others (later mid first) rest

/-- The size, the bits and the count are as before, and nothing is staged. -/
structure Restored (start bm : Bitmap) : Prop where
  total : bm.ntotal = start.ntotal
  bits : ∀ k, k < start.ntotal → bm.bit k = start.bit k
  nfree : bm.nfree = start.nfree
  allocs : bm.allocs = []
  frees : bm.frees = []

/-- The bits are the old ones and the staged allocations without the staged frees. -/
structure Applied (start bm bm' : Bitmap) : Prop where
  total : bm'.ntotal = bm.ntotal
  bits : ∀ k, k < bm.ntotal → bm'.bit k = ((start.before k || decide (k ∈ bm.allocs)) && decide (k ∉ bm.frees))
  nfree : u64 (bm'.nfree + bm.allocs.length) = u64 (start.nfree + (bm.ntotal - start.ntotal) + bm.frees.length)
  room : bm'.nfree < 2 ^ 64
  allocs : bm'.allocs = []
  frees : bm'.frees = []

theorem Underway.abort (way : Underway start bm) (room : start.nfree < 2 ^ 64) :
    ∃ bm', bm.abortWith false = some bm' ∧ (Restored start bm' ↔ start.ntotal ≠ 0 ∨ bm.ntotal = 0) := by
  have marked := way.allocs
  obtain ⟨shape, bm', done⟩ := abortWith_spec marked.1 marked.2 way.room way.aligned way.prev
  obtain ⟨bits, total, nfree, allocs, frees, -⟩ := shape bm' done
  have record := way.recorded
  have known := way.prev
  have above := way.total
  refine ⟨bm', done, fun restored => ?_, fun some => ?_⟩
  · -- a growth from nothing leaves no record of the old size
    by_contra none
    have size := restored.total
    rw [total] at size
    split at size <;> omega
  · have size : bm'.ntotal = start.ntotal := by
      rw [total]
      rcases some with nonempty | empty
      · exact record nonempty
      · split <;> omega
    refine ⟨size, fun k below => ?_, ?_, allocs, frees⟩
    · rw [bits, without, way.bits k (by omega)]
      by_cases member : k ∈ bm.allocs
      · have clear := (way.new k member).2
        simp only [before, below, decide_true, Bool.true_and] at clear
        simp [member, clear]
      · simp [member, before, below]
    · have count := way.nfree
      have small := way.small
      rw [nfree, size, count]
      unfold usub u64
      omega

theorem Underway.commit (way : Underway start bm) : ∃ bm', bm.commit = some bm' ∧ Applied start bm bm' := by
  obtain ⟨bm', done, -, total, bits, nfree, allocs, frees⟩ := commit_spec way.frees.1 way.frees.2 way.room
  refine ⟨bm', done, total, fun k below => ?_, ?_, ?_, allocs, frees⟩
  · rw [bits, without, way.bits k below, Bool.and_comm]
  · have count := way.nfree
    rw [nfree]
    unfold u64 at count ⊢
    omega
  · rw [nfree]
    exact Nat.mod_lt _ (by decide)

/-- After any calls of one transaction, an abort goes through and restores the bitmap just
when there was a bitmap or there still is none; a commit goes through and applies what is
left staged. The debug loop of `bitmap_resize` is left out. -/
theorem transaction_ends {ops : List Op} (idle : start.Idle) (within : ∀ op ∈ ops, op.Within ∧ op.Aligned)
    (allowed : AllAllowed false start ops) (done : run false ops start = some bm) :
    (∃ bm', bm.abortWith false = some bm' ∧ (Restored start bm' ↔ start.ntotal ≠ 0 ∨ bm.ntotal = 0)) ∧
    ∃ bm', bm.commit = some bm' ∧ Applied start bm bm' := by
  have way := idle.underway.run within allowed done
  exact ⟨way.abort idle.room, way.commit⟩

/-- A bit is allocated and freed again in a bitmap that grew. -/
theorem transaction_ends_grow : ∃ bm, run false [.grow 128, .alloc, .free 0] (fresh (fun _ => 0) 64) = some bm ∧
    (∃ bm', bm.abortWith false = some bm' ∧
      (Restored (fresh (fun _ => 0) 64) bm' ↔ (fresh (fun _ => 0) 64).ntotal ≠ 0 ∨ bm.ntotal = 0)) ∧
    ∃ bm', bm.commit = some bm' ∧ Applied (fresh (fun _ => 0) 64) bm bm' := by
  obtain ⟨bm, done⟩ : ∃ bm, run false [.grow 128, .alloc, .free 0] (fresh (fun _ => 0) 64) = some bm :=
    Option.isSome_iff_exists.mp (by decide +kernel)
  have idle : (fresh (fun _ => 0) 64).Idle := ⟨rfl, rfl, rfl, rfl, by decide, by decide⟩
  have allowed : AllAllowed false (fresh (fun _ => 0) 64) [.grow 128, .alloc, .free 0] :=
    ⟨⟨by decide, by decide⟩, fun _ _ => ⟨trivial, fun _ _ => ⟨trivial, fun _ _ => trivial⟩⟩⟩
  exact ⟨bm, done, transaction_ends idle (by simp [Op.Within, Op.Aligned, scanBits]) allowed done⟩

/-- A bitmap without bits grows; the abort does not take the growth back. -/
theorem abort_keeps_growth : (fresh (fun _ => 0) 0).Idle ∧ AllAllowed false (fresh (fun _ => 0) 0) [.grow 64] ∧
    ∃ bm bm', run false [.grow 64] (fresh (fun _ => 0) 0) = some bm ∧ bm.abortWith false = some bm' ∧
      bm'.ntotal = 64 ∧ ¬Restored (fresh (fun _ => 0) 0) bm' :=
  ⟨⟨rfl, rfl, rfl, rfl, by decide, by decide⟩, ⟨⟨by decide, by decide⟩, fun _ _ => trivial⟩, _, _, rfl, rfl, rfl,
    fun restored => absurd restored.total (by decide)⟩

end Bitmap

end Bpfs
