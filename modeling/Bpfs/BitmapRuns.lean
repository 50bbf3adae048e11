import Bpfs.Bitmap
import Bpfs.Lib.BitCount

/-! The allocation bitmaps over whole runs: the count of clear bits, the staged lists and
the index that an allocation takes. -/

namespace Bpfs
open Lib

namespace Bitmap

variable {bm bm' : Bitmap} {no : Nat}

/-- A bitmap of `ntotal` clear bits. The bytes behind it are as `malloc` and `realloc` leave them. -/
def fresh (memory : Nat → UInt8) (ntotal : Nat) : Bitmap where
  bitmap k := if k < ntotal / 8 then 0 else memory k
  ntotal := ntotal
  nfree := ntotal
  allocs := []
  frees := []
  prevNtotal := 0

/-- `bitmap_init`. -/
def init (memory : Nat → UInt8) (ntotal : Nat) : Option Bitmap :=
  if ntotal % scanBits = 0 then some (fresh memory ntotal) else none

inductive Op where
  | alloc
  | set (no : Nat)
  | ensureSet (no : Nat)
  | free (no : Nat)
  | unfree (no : Nat)
  | unalloc (no : Nat)
  | grow (ntotal : Nat)
  | commit
  | abort
  deriving DecidableEq, Repr

/-- A call, with or without the debug loop of `bitmap_resize`. It has no result if one of
its assertions fails. -/
def Op.step (loop : Bool) (bm : Bitmap) : Op → Option Bitmap
  | .alloc => some bm.alloc.2
  | .set no => bm.set no
  | .ensureSet no => (bm.ensureSet no).map Prod.snd
  | .free no => bm.free no
  | .unfree no => bm.unfree no
  | .unalloc no => bm.unalloc no
  | .grow ntotal => bm.resizeWith loop ntotal
  | .commit => bm.commit
  | .abort => bm.abortWith loop

def run (loop : Bool) : List Op → Bitmap → Option Bitmap
  | [], bm => some bm
  | op :: ops, bm => do run loop ops (← op.step loop bm)

/-! ### What each call does -/

/-- What a call makes of the bits, the count and the lists; the size stays. -/
structure Becomes (bm bm' : Bitmap) (bits : Nat → Bool) (nfree : Nat) (allocs frees : List Nat) : Prop where
  bits : ∀ k, bm'.bit k = bits k
  nfree : bm'.nfree = nfree
  allocs : bm'.allocs = allocs
  frees : bm'.frees = frees
  total : bm'.ntotal = bm.ntotal
  prev : bm'.prevNtotal = bm.prevNtotal

/-- The bits with `no` set. -/
def withSet (bm : Bitmap) (no k : Nat) : Bool := decide (k = no) || bm.bit k

/-- The bits with those in `l` clear. -/
def without (bm : Bitmap) (l : List Nat) (k : Nat) : Bool := decide (k ∉ l) && bm.bit k

theorem clear_spec (inside : no < bm.ntotal) (set : bm.bit no = true) :
    ∃ bm', bm.clear no = some bm' ∧
      Becomes bm bm' (fun k => decide (k ≠ no) && bm.bit k) (u64 (bm.nfree + 1)) bm.allocs bm.frees :=
  ⟨_, if_pos ⟨inside, set⟩, bm.bit_clearBit no, rfl, rfl, rfl, rfl, rfl⟩

theorem u64_add (a b : Nat) : u64 (u64 a + b) = u64 (a + b) := Nat.mod_add_mod ..

/-- Clearing a list of different set bits goes through. -/
theorem clearAll_spec {l : List Nat} (nodup : l.Nodup) (inside : ∀ no ∈ l, no < bm.ntotal ∧ bm.bit no = true)
    (small : bm.nfree < 2 ^ 64) :
    ∃ bm', bm.clearAll l = some bm' ∧
      Becomes bm bm' (bm.without l) (u64 (bm.nfree + l.length)) bm.allocs bm.frees := by
  induction l generalizing bm with
  | nil =>
    refine ⟨bm, rfl, fun k => ?_, ?_, rfl, rfl, rfl, rfl⟩
    · simp [without]
    · exact (Nat.mod_eq_of_lt small).symm
  | cons no l ih =>
    obtain ⟨new, rest⟩ := List.nodup_cons.mp nodup
    obtain ⟨here, set⟩ := inside no (List.mem_cons_self ..)
    obtain ⟨mid, first, cleared⟩ := clear_spec here set
    have later : ∀ k ∈ l, k < mid.ntotal ∧ mid.bit k = true := by
      intro k member
      obtain ⟨below, marked⟩ := inside k (List.mem_cons_of_mem _ member)
      have other : k ≠ no := fun same => new (same ▸ member)
      rw [cleared.total, cleared.bits]
      exact ⟨below, by simp [other, marked]⟩
    have room : mid.nfree < 2 ^ 64 := by
      rw [cleared.nfree]
      exact Nat.mod_lt _ (by decide)
    obtain ⟨bm', done, becomes⟩ := ih rest later room
    refine ⟨bm', by rw [clearAll, first]; exact done, fun k => ?_, ?_, becomes.allocs.trans cleared.allocs,
      becomes.frees.trans cleared.frees, becomes.total.trans cleared.total, becomes.prev.trans cleared.prev⟩
    · rw [becomes.bits, without, without, cleared.bits]
      simp [Bool.and_left_comm, Bool.and_assoc]
    · rw [becomes.nfree, cleared.nfree, u64_add, List.length_cons, Nat.add_assoc, Nat.add_comm 1]

theorem set_effect (done : bm.set no = some bm') :
    bm.bit no = false ∧ Becomes bm bm' (bm.withSet no) (usub bm.nfree 1) bm.allocs bm.frees := by
  unfold set at done
  split at done
  · cases done
  · next clear =>
    cases done
    exact ⟨by simpa using clear, fun k => bm.bit_setBit_with no k _ _, rfl, rfl, rfl, rfl, rfl⟩

/-- A bit that is set stays as it is. -/
theorem withSet_of_set (set : bm.bit no = true) (k : Nat) : bm.withSet no k = bm.bit k := by
  unfold withSet
  by_cases same : k = no
  · rw [same, set, Bool.or_true]
  · simp [same]

theorem ensureSet_effect (done : (bm.ensureSet no).map Prod.snd = some bm') : no < bm.ntotal ∧
    ((bm.bit no = true ∧ Becomes bm bm' bm.bit bm.nfree bm.allocs bm.frees) ∨
      (bm.bit no = false ∧ Becomes bm bm' (bm.withSet no) (usub bm.nfree 1) bm.allocs bm.frees)) := by
  unfold ensureSet at done
  split at done
  · next inside =>
    refine ⟨inside, ?_⟩
    split at done
    · next set =>
      cases done
      exact Or.inl ⟨set, fun k => (bm.bit_setBit no k).trans (withSet_of_set set k), rfl, rfl, rfl, rfl, rfl⟩
    · next clear =>
      cases done
      exact Or.inr ⟨by simpa using clear, fun k => bm.bit_setBit_with no k _ _, rfl, rfl, rfl, rfl, rfl⟩
  · cases done

theorem free_effect (done : bm.free no = some bm') : no < bm.ntotal ∧ bm.bit no = true ∧ no ∉ bm.frees ∧
    Becomes bm bm' bm.bit bm.nfree bm.allocs (no :: bm.frees) := by
  unfold free at done
  split at done
  · next holds =>
    cases done
    exact ⟨holds.1, holds.2.1, holds.2.2, fun _ => rfl, rfl, rfl, rfl, rfl, rfl⟩
  · cases done

theorem unfree_effect (done : bm.unfree no = some bm') : no ∈ bm.frees ∧
    Becomes bm bm' bm.bit bm.nfree bm.allocs (bm.frees.erase no) := by
  unfold unfree at done
  split at done
  · next holds =>
    cases done
    exact ⟨holds.2.2, fun k => (bm.bit_setBit no k).trans (withSet_of_set holds.2.1 k), rfl, rfl, rfl, rfl, rfl⟩
  · cases done

theorem unalloc_effect (done : bm.unalloc no = some bm') : no < bm.ntotal ∧ bm.bit no = true ∧ no ∈ bm.allocs ∧
    Becomes bm bm' (bm.without [no]) (u64 (bm.nfree + 1)) (bm.allocs.erase no) bm.frees := by
  unfold unalloc at done
  split at done
  · next holds =>
    unfold clear at done
    split at done
    · cases done
      refine ⟨holds.1, holds.2.1, holds.2.2, fun k => ?_, rfl, rfl, rfl, rfl, rfl⟩
      refine (bit_clearBit _ no k).trans ?_
      simp [without, bit]
    · cases done
  · cases done

theorem alloc_effect (aligned : bm.ntotal % 64 = 0) :
    (∃ no, no < bm.ntotal ∧ bm.bit no = false ∧ (∀ k, k < no → bm.bit k = true) ∧ bm.alloc.1 = no ∧
      Becomes bm bm.alloc.2 (bm.withSet no) (usub bm.nfree 1) (no :: bm.allocs) bm.frees) ∨
    ((∀ no, no < bm.ntotal → bm.bit no = true) ∧ bm.alloc = (bm.ntotal, bm)) := by
  have words : 64 * ((bm.ntotal + scanBits - 1) / scanBits) = bm.ntotal := by
    simp only [scanBits]
    omega
  unfold alloc
  cases result : bm.scan ((bm.ntotal + scanBits - 1) / scanBits) 0 with
  | some no =>
    obtain ⟨-, high, clear⟩ := scan_some rfl result
    have least := scan_least rfl result
    exact Or.inl ⟨no, by omega, clear, fun k below => least k (Nat.zero_le k) below, rfl,
      fun k => bm.bit_setBit_with no k _ _, rfl, rfl, rfl, rfl, rfl⟩
  | none =>
    have full := scan_none rfl result
    exact Or.inr ⟨fun no small => full no (Nat.zero_le _) (by omega), rfl⟩

/-- What a growth of whole bytes does: the new bits are clear. -/
structure Grown (bm bm' : Bitmap) (ntotal : Nat) : Prop where
  bits : ∀ k, k < ntotal → bm'.bit k = (decide (k < bm.ntotal) && bm.bit k)
  nfree : bm'.nfree = u64 (bm.nfree + (ntotal - bm.ntotal))
  allocs : bm'.allocs = bm.allocs
  frees : bm'.frees = bm.frees
  total : bm'.ntotal = ntotal
  prev : bm'.prevNtotal = if bm.prevNtotal = 0 then bm.ntotal else bm.prevNtotal

theorem resizeWith_grow {loop : Bool} {ntotal : Nat} (more : bm.ntotal < ntotal) (whole : bm.ntotal % 8 = 0)
    (whole' : ntotal % 8 = 0) (done : bm.resizeWith loop ntotal = some bm') : Grown bm bm' ntotal := by
  simp only [resizeWith, if_neg (Nat.ne_of_lt more), if_pos more] at done
  cases done
  refine ⟨fun k below => ?_, rfl, rfl, rfl, rfl, rfl⟩
  unfold bit
  by_cases old : k < bm.ntotal
  · simp only [old, decide_true, Bool.true_and]
    rw [if_neg (by omega)]
  · simp only [old, decide_false, Bool.false_and]
    rw [if_pos (by omega)]
    simp

theorem resizeWith_same {loop : Bool} (done : bm.resizeWith loop bm.ntotal = some bm') : bm' = bm := by
  rw [resizeWith, if_pos rfl] at done
  exact (Option.some.inj done).symm

/-- A shrinking resize changes the size and the count only. -/
theorem resizeWith_shrink {l : Bool} {ntotal : Nat} (less : ntotal < bm.ntotal) (aligned : bm.ntotal % 64 = 0)
    (aligned' : ntotal % 64 = 0) (allocs : bm.allocs = []) (frees : bm.frees = []) :
    (∀ bm', bm.resizeWith l ntotal = some bm' → (∀ k, bm'.bit k = bm.bit k) ∧ bm'.ntotal = ntotal ∧
      bm'.nfree = usub bm.nfree (bm.ntotal - ntotal) ∧ bm'.allocs = [] ∧ bm'.frees = []) ∧
    ∃ bm', bm.resizeWith false ntotal = some bm' := by
  simp only [resizeWith, if_neg (Nat.ne_of_gt less), if_neg (Nat.not_lt_of_gt less)]
  constructor
  · intro bm' done
    split at done
    · cases done
      exact ⟨fun _ => rfl, rfl, rfl, allocs, frees⟩
    · cases done
  · rw [if_pos ⟨aligned', aligned, fun never => absurd never Bool.false_ne_true, allocs, frees⟩]
    exact ⟨_, rfl⟩

/-- `bitmap_commit`: the freed bits are cleared. -/
theorem commit_spec (nodup : bm.frees.Nodup) (inside : ∀ no ∈ bm.frees, no < bm.ntotal ∧ bm.bit no = true)
    (small : bm.nfree < 2 ^ 64) :
    ∃ bm', bm.commit = some bm' ∧ bm'.prevNtotal = 0 ∧ bm'.ntotal = bm.ntotal ∧
      (∀ k, bm'.bit k = bm.without bm.frees k) ∧ bm'.nfree = u64 (bm.nfree + bm.frees.length) ∧
      bm'.allocs = [] ∧ bm'.frees = [] := by
  obtain ⟨cleared, done, becomes⟩ := clearAll_spec nodup inside small
  refine ⟨{ cleared with allocs := [], frees := [], prevNtotal := 0 }, ?_, rfl, becomes.total, becomes.bits,
    becomes.nfree, rfl, rfl⟩
  rw [commit, done]
  rfl

/-- What `bitmap_abort` leaves. -/
structure Aborted (bm bm' : Bitmap) : Prop where
  bits : ∀ k, bm'.bit k = bm.without bm.allocs k
  total : bm'.ntotal = if bm.prevNtotal = 0 then bm.ntotal else bm.prevNtotal
  nfree : bm'.nfree = usub (u64 (bm.nfree + bm.allocs.length)) (bm.ntotal - bm'.ntotal)
  allocs : bm'.allocs = []
  frees : bm'.frees = []
  prev : bm'.prevNtotal = 0

theorem usub_zero_of_lt {n : Nat} (small : n < 2 ^ 64) : usub n 0 = n := by
  unfold usub
  omega

/-- `bitmap_abort` clears what is staged, and then shrinks if there is a growth to undo. -/
theorem abortWith_eq (nodup : bm.allocs.Nodup) (inside : ∀ no ∈ bm.allocs, no < bm.ntotal ∧ bm.bit no = true)
    (small : bm.nfree < 2 ^ 64) :
    ∃ mid, Becomes bm mid (bm.without bm.allocs) (u64 (bm.nfree + bm.allocs.length)) [] [] ∧
      ∀ loop, bm.abortWith loop = if bm.prevNtotal ≠ 0 ∧ bm.ntotal ≠ bm.prevNtotal
        then (mid.resizeWith loop bm.prevNtotal).bind fun b => some { b with prevNtotal := 0 }
        else some { mid with prevNtotal := 0 } := by
  obtain ⟨cleared, done, becomes⟩ := clearAll_spec nodup inside small
  refine ⟨{ cleared with allocs := [], frees := [] }, ⟨becomes.bits, becomes.nfree, rfl, rfl, becomes.total, becomes.prev⟩,
    fun loop => ?_⟩
  rw [abortWith, done, ← becomes.total, ← becomes.prev]
  rfl

/-- `bitmap_abort` has a result if the debug loop lets it pass, and always the same one. -/
theorem abortWith_spec {loop : Bool} (nodup : bm.allocs.Nodup)
    (inside : ∀ no ∈ bm.allocs, no < bm.ntotal ∧ bm.bit no = true) (small : bm.nfree < 2 ^ 64)
    (aligned : bm.ntotal % 64 = 0) (before : bm.prevNtotal % 64 = 0 ∧ bm.prevNtotal ≤ bm.ntotal) :
    (∀ bm', bm.abortWith loop = some bm' → Aborted bm bm') ∧ ∃ bm', bm.abortWith false = some bm' := by
  obtain ⟨mid, ⟨bits, nfree, allocs, frees, total, -⟩, ends⟩ := abortWith_eq nodup inside small
  have room : u64 (bm.nfree + bm.allocs.length) < 2 ^ 64 := Nat.mod_lt _ (by decide)
  simp only [ends]
  by_cases shrinks : bm.prevNtotal ≠ 0 ∧ bm.ntotal ≠ bm.prevNtotal
  · simp only [if_pos shrinks]
    have less : bm.prevNtotal < mid.ntotal := by omega
    have shape : ∀ loop, _ ∧ ∃ bm', mid.resizeWith false bm.prevNtotal = some bm' :=
      fun loop => resizeWith_shrink (l := loop) less (by rw [total]; exact aligned) before.1 allocs frees
    constructor
    · intro bm' ended
      obtain ⟨small', shrunk, last⟩ := Option.bind_eq_some_iff.mp ended
      cases last
      obtain ⟨kept, size, count, none, none'⟩ := (shape loop).1 small' shrunk
      refine ⟨fun k => (kept k).trans (bits k), ?_, ?_, none, none', rfl⟩
      · rw [if_neg shrinks.1]
        exact size
      · rw [← nfree, ← total]
        exact count.trans (by rw [← size])
    · obtain ⟨small', shrunk⟩ := (shape loop).2
      exact ⟨_, by rw [shrunk]; rfl⟩
  · simp only [if_neg shrinks]
    have size : bm.ntotal = if bm.prevNtotal = 0 then bm.ntotal else bm.prevNtotal := by
      split
      · rfl
      · next some => exact not_not.mp (fun differ => shrinks ⟨some, differ⟩)
    refine ⟨fun bm' ended => ?_, _, rfl⟩
    cases ended
    refine ⟨bits, total.trans size, ?_, allocs, frees, rfl⟩
    change mid.nfree = usub _ (bm.ntotal - mid.ntotal)
    rw [total, Nat.sub_self, usub_zero_of_lt room, nfree]

/-! ### The invariant -/

/-- Between calls: the bitmap is whole scan words, the count is right, staged indices are
different and marked, and the part added by a growth has only staged marks. -/
structure Good (bm : Bitmap) : Prop where
  wf : bm.Wf
  small : bm.ntotal < 2 ^ 64
  nfree : bm.nfree = clearBits bm.bit bm.ntotal
  prev : bm.prevNtotal % 64 = 0 ∧ bm.prevNtotal ≤ bm.ntotal
  added : bm.prevNtotal ≠ 0 → ∀ no, bm.prevNtotal ≤ no → no < bm.ntotal → bm.bit no = true → no ∈ bm.allocs

/-- The conditions a call is made under: indices are below the size, a growth grows, an index
staged as freed is not unallocated, and a part that was added in this transaction is marked
by allocations only. -/
def Op.Allowed (bm : Bitmap) : Op → Prop
  | .set no | .ensureSet no => no < bm.ntotal ∧ (bm.prevNtotal = 0 ∨ no < bm.prevNtotal)
  | .unalloc no => no ∉ bm.frees
  | .grow ntotal => bm.ntotal ≤ ntotal ∧ ntotal < 2 ^ 64
  | _ => True

/-- A growth is to whole scan words. -/
def Op.Aligned : Op → Prop
  | .grow ntotal => ntotal % scanBits = 0
  | _ => True

theorem Good.room (good : bm.Good) : bm.nfree < 2 ^ 64 := by
  have bound := good.small
  have most : clearBits bm.bit bm.ntotal ≤ bm.ntotal := clearBits_le
  rw [good.nfree]
  omega

theorem usub_one {n : Nat} (positive : 0 < n) (small : n < 2 ^ 64) : usub n 1 = n - 1 := by
  unfold usub
  omega

/-- Different indices of marked bits. -/
def Marked (bits : Nat → Bool) (ntotal : Nat) (l : List Nat) : Prop :=
  l.Nodup ∧ ∀ no ∈ l, no < ntotal ∧ bits no = true

theorem Good.becomes {bits : Nat → Bool} {nfree : Nat} {allocs frees : List Nat} (good : bm.Good)
    (becomes : Becomes bm bm' bits nfree allocs frees) (count : nfree = clearBits bits bm.ntotal)
    (marked : Marked bits bm.ntotal allocs) (marked' : Marked bits bm.ntotal frees)
    (added : bm.prevNtotal ≠ 0 → ∀ no, bm.prevNtotal ≤ no → no < bm.ntotal → bits no = true → no ∈ allocs) :
    bm'.Good := by
  obtain ⟨same, amount, list, list', total, prev⟩ := becomes
  have all : bm'.bit = bits := funext same
  refine ⟨⟨?_, ?_, ?_, ?_, ?_⟩, ?_, ?_, ?_, ?_⟩
  · rw [total]; exact good.wf.aligned
  · rw [list', total, all]; exact marked'.2
  · rw [list']; exact marked'.1
  · rw [list, total, all]; exact marked.2
  · rw [list]; exact marked.1
  · rw [total]; exact good.small
  · rw [amount, total, all]; exact count
  · rw [prev, total]; exact good.prev
  · rw [prev, total, all, list]; exact added

theorem Good.allocs (good : bm.Good) : Marked bm.bit bm.ntotal bm.allocs := ⟨good.wf.allocs_nodup, good.wf.allocs⟩

theorem Good.frees (good : bm.Good) : Marked bm.bit bm.ntotal bm.frees := ⟨good.wf.frees_nodup, good.wf.frees⟩

theorem Marked.withSet {l : List Nat} (marked : Marked bm.bit bm.ntotal l) : Marked (bm.withSet no) bm.ntotal l :=
  ⟨marked.1, fun k member => ⟨(marked.2 k member).1, by rw [Bitmap.withSet, (marked.2 k member).2, Bool.or_true]⟩⟩

/-- A clear bit is marked: its index is staged, or it is not in a part that was just added. -/
theorem Good.mark {allocs : List Nat} (good : bm.Good) (inside : no < bm.ntotal) (clear : bm.bit no = false)
    (becomes : Becomes bm bm' (bm.withSet no) (usub bm.nfree 1) allocs bm.frees)
    (staged : allocs = no :: bm.allocs ∨ allocs = bm.allocs ∧ (bm.prevNtotal = 0 ∨ no < bm.prevNtotal)) :
    bm'.Good := by
  have count : clearBits (bm.withSet no) bm.ntotal + 1 = clearBits bm.bit bm.ntotal := clearBits_set inside clear
  have fresh : no ∉ bm.allocs := fun member => by
    rw [(good.wf.allocs no member).2] at clear
    cases clear
  have old : ∀ k ∈ bm.allocs, k ∈ allocs := by
    intro k member
    rcases staged with rfl | ⟨rfl, -⟩
    · exact List.mem_cons_of_mem _ member
    · exact member
  refine good.becomes becomes ?_ ?_ good.frees.withSet (fun grown k low high set => ?_)
  · rw [usub_one (by rw [good.nfree]; omega) good.room, good.nfree]
    omega
  · rcases staged with rfl | ⟨rfl, -⟩
    · refine ⟨List.nodup_cons.mpr ⟨fresh, good.allocs.1⟩, fun k member => ?_⟩
      rcases List.mem_cons.mp member with rfl | later
      · exact ⟨inside, by simp [Bitmap.withSet]⟩
      · exact good.allocs.withSet.2 k later
    · exact good.allocs.withSet
  · rcases Bool.or_eq_true_iff.mp set with same | before
    · have here : k = no := of_decide_eq_true same
      rcases staged with rfl | ⟨-, none | below⟩
      · rw [here]
        exact List.mem_cons_self ..
      · exact absurd none grown
      · omega
    · exact old k (good.added grown k low high before)

theorem Good.unmark (good : bm.Good) (inside : no < bm.ntotal) (set : bm.bit no = true) (kept : no ∉ bm.frees)
    (becomes : Becomes bm bm' (bm.without [no]) (u64 (bm.nfree + 1)) (bm.allocs.erase no) bm.frees) : bm'.Good := by
  have count : clearBits (bm.without [no]) bm.ntotal = clearBits bm.bit bm.ntotal + 1 :=
    clearBits_clearAll (List.nodup_singleton no) (List.forall_mem_singleton.mpr ⟨inside, set⟩)
  have most : clearBits (bm.without [no]) bm.ntotal ≤ bm.ntotal := clearBits_le
  have bound := good.small
  have other : ∀ k, k ≠ no → bm.without [no] k = bm.bit k := by
    intro k apart
    simp [without, apart]
  refine good.becomes becomes ?_ ⟨good.allocs.1.erase no, fun k inside' => ?_⟩ ⟨good.frees.1, fun k inside' => ?_⟩
    (fun grown k low high marked => ?_)
  · rw [good.nfree, u64, Nat.mod_eq_of_lt (by omega)]
    omega
  · obtain ⟨apart, old⟩ := (good.allocs.1.mem_erase_iff).mp inside'
    rw [other k apart]
    exact good.allocs.2 k old
  · rw [other k (fun same => kept (same ▸ inside'))]
    exact good.frees.2 k inside'
  · have apart : k ≠ no := fun same => by simp [without, same] at marked
    rw [other k apart] at marked
    exact (good.allocs.1.mem_erase_iff).mpr ⟨apart, good.added grown k low high marked⟩

theorem Good.grown {ntotal : Nat} (good : bm.Good) (more : bm.ntotal < ntotal) (small : ntotal < 2 ^ 64)
    (aligned : ntotal % 64 = 0) (grown : Grown bm bm' ntotal) : bm'.Good := by
  obtain ⟨bits, amount, list, list', total, prev⟩ := grown
  have old : ∀ k, k < bm.ntotal → bm'.bit k = bm.bit k := by
    intro k below
    rw [bits k (by omega), decide_eq_true below, Bool.true_and]
  have new : ∀ k, bm.ntotal ≤ k → k < ntotal → bm'.bit k = false := by
    intro k low high
    rw [bits k high, decide_eq_false (by omega), Bool.false_and]
  have count : clearBits bm'.bit ntotal = clearBits bm.bit bm.ntotal + (ntotal - bm.ntotal) := by
    rw [clearBits_extend (Nat.le_of_lt more) new, clearBits_congr old]
  have most : clearBits bm'.bit ntotal ≤ ntotal := clearBits_le
  have kept : ∀ l, Marked bm.bit bm.ntotal l → Marked bm'.bit ntotal l := by
    intro l marked
    refine ⟨marked.1, fun k member => ?_⟩
    obtain ⟨below, set⟩ := marked.2 k member
    exact ⟨by omega, (old k below).trans set⟩
  refine ⟨⟨?_, ?_, ?_, ?_, ?_⟩, ?_, ?_, ?_, ?_⟩
  · rw [total]; exact aligned
  · rw [list', total]; exact (kept _ good.frees).2
  · rw [list']; exact good.frees.1
  · rw [list, total]; exact (kept _ good.allocs).2
  · rw [list]; exact good.allocs.1
  · rw [total]; exact small
  · rw [amount, total, good.nfree, u64, Nat.mod_eq_of_lt (by omega), count]
  · have before := good.prev
    have whole := good.wf.aligned
    rw [prev, total]
    split <;> omega
  · -- marks in the part that is there now are in the part that was there before
    rw [prev, total, list]
    intro some k low high set
    by_cases below : k < bm.ntotal
    · rw [old k below] at set
      split at low
      · omega
      · next recorded => exact good.added recorded k low below set
    · rw [new k (by omega) high] at set
      cases set

theorem Good.cleared {l : List Nat} (good : bm.Good) (marked : Marked bm.bit bm.ntotal l) :
    u64 (bm.nfree + l.length) = clearBits (bm.without l) bm.ntotal := by
  have count : clearBits (bm.without l) bm.ntotal = clearBits bm.bit bm.ntotal + l.length :=
    clearBits_clearAll marked.1 marked.2
  have most : clearBits (bm.without l) bm.ntotal ≤ bm.ntotal := clearBits_le
  have bound := good.small
  rw [count, good.nfree, u64, Nat.mod_eq_of_lt (by omega)]

/-- Between transactions nothing is staged. -/
theorem good_of_idle (aligned : bm.ntotal % 64 = 0) (small : bm.ntotal < 2 ^ 64)
    (nfree : bm.nfree = clearBits bm.bit bm.ntotal) (allocs : bm.allocs = []) (frees : bm.frees = [])
    (prev : bm.prevNtotal = 0) : bm.Good := by
  refine ⟨⟨aligned, ?_, ?_, ?_, ?_⟩, small, nfree, ?_, fun some => absurd prev some⟩
  · rw [frees]; simp
  · rw [frees]; exact List.nodup_nil
  · rw [allocs]; simp
  · rw [allocs]; exact List.nodup_nil
  · rw [prev]; exact ⟨rfl, Nat.zero_le _⟩

theorem Good.commit (good : bm.Good) (done : bm.commit = some bm') : bm'.Good := by
  obtain ⟨last, ended, prev, total, bits, nfree, allocs, frees⟩ := commit_spec good.frees.1 good.frees.2 good.room
  cases ended.symm.trans done
  have all : bm'.bit = bm.without bm.frees := funext bits
  refine good_of_idle ?_ ?_ ?_ allocs frees prev
  · rw [total]; exact good.wf.aligned
  · rw [total]; exact good.small
  · rw [nfree, all, total]; exact good.cleared good.frees

theorem Good.abort {loop : Bool} (good : bm.Good) (done : bm.abortWith loop = some bm') : bm'.Good := by
  obtain ⟨bits, total, nfree, allocs, frees, prev⟩ :=
    (abortWith_spec good.allocs.1 good.allocs.2 good.room good.wf.aligned good.prev).1 bm' done
  have all : bm'.bit = bm.without bm.allocs := funext bits
  have before := good.prev
  have whole := good.wf.aligned
  have bound := good.small
  have less : bm'.ntotal ≤ bm.ntotal := by
    rw [total]
    split <;> omega
  have none : ∀ k, bm'.ntotal ≤ k → k < bm.ntotal → bm.without bm.allocs k = false := by
    intro k low high
    rw [total] at low
    by_contra set
    rw [Bool.not_eq_false, without, Bool.and_eq_true, decide_eq_true_eq] at set
    split at low
    · omega
    · next some => exact set.1 (good.added some k low high set.2)
  have count := clearBits_extend less none
  have most : clearBits (bm.without bm.allocs) bm.ntotal ≤ bm.ntotal := clearBits_le
  refine good_of_idle ?_ (by omega) ?_ allocs frees prev
  · rw [total]
    split <;> omega
  · rw [nfree, all, good.cleared good.allocs, usub]
    omega

theorem Good.step {loop : Bool} {op : Op} (good : bm.Good) (allowed : op.Allowed bm) (aligned : op.Aligned)
    (done : op.step loop bm = some bm') : bm'.Good := by
  cases op with
  | alloc =>
    cases done
    rcases alloc_effect good.wf.aligned with ⟨no, inside, clear, -, -, becomes⟩ | ⟨-, none⟩
    · exact good.mark inside clear becomes (Or.inl rfl)
    · rw [none]
      exact good
  | set no =>
    obtain ⟨clear, becomes⟩ := set_effect done
    exact good.mark allowed.1 clear becomes (Or.inr ⟨rfl, allowed.2⟩)
  | ensureSet no =>
    obtain ⟨inside, ⟨-, becomes⟩ | ⟨clear, becomes⟩⟩ := ensureSet_effect done
    · exact good.becomes becomes good.nfree good.allocs good.frees good.added
    · exact good.mark inside clear becomes (Or.inr ⟨rfl, allowed.2⟩)
  | free no =>
    obtain ⟨inside, set, new, becomes⟩ := free_effect done
    refine good.becomes becomes good.nfree good.allocs ⟨List.nodup_cons.mpr ⟨new, good.frees.1⟩, ?_⟩ good.added
    exact List.forall_mem_cons.mpr ⟨⟨inside, set⟩, good.frees.2⟩
  | unfree no =>
    obtain ⟨-, becomes⟩ := unfree_effect done
    refine good.becomes becomes good.nfree good.allocs ⟨good.frees.1.erase no, fun k member => ?_⟩ good.added
    exact good.frees.2 k (List.mem_of_mem_erase member)
  | unalloc no =>
    obtain ⟨inside, set, -, becomes⟩ := unalloc_effect done
    exact good.unmark inside set allowed becomes
  | grow ntotal =>
    rcases Nat.eq_or_lt_of_le allowed.1 with rfl | more
    · rw [resizeWith_same done]
      exact good
    · have whole : ntotal % 64 = 0 := aligned
      have before := good.wf.aligned
      exact good.grown more allowed.2 whole (resizeWith_grow more (by omega) (by omega) done)
  | commit => exact good.commit done
  | abort => exact good.abort done

theorem bit_fresh {memory : Nat → UInt8} {ntotal k : Nat} (whole : ntotal % 8 = 0) (below : k < ntotal) :
    (fresh memory ntotal).bit k = false := by
  unfold bit
  have byte : (fresh memory ntotal).bitmap (k / 8) = 0 := if_pos (by omega)
  rw [byte]
  exact Nat.zero_testBit _

theorem init_good {memory : Nat → UInt8} {ntotal : Nat} (small : ntotal < 2 ^ 64)
    (made : init memory ntotal = some bm) : bm.Good := by
  unfold init at made
  split at made
  · next aligned =>
    have whole : ntotal % 64 = 0 := aligned
    cases made
    refine good_of_idle whole small ?_ rfl rfl rfl
    have count : clearBits (fresh memory ntotal).bit ntotal = 0 + (ntotal - 0) :=
      clearBits_extend (Nat.zero_le ntotal) (fun k _ below => bit_fresh (by omega) below)
    exact (count.trans (Nat.zero_add ntotal)).symm
  · cases made

/-- Every call of a run is made under its conditions. -/
def AllAllowed (loop : Bool) : Bitmap → List Op → Prop
  | _, [] => True
  | bm, op :: ops => op.Allowed bm ∧ ∀ bm', op.step loop bm = some bm' → AllAllowed loop bm' ops

theorem Good.run {loop : Bool} {ops : List Op} (good : bm.Good) (allowed : AllAllowed loop bm ops)
    (aligned : ∀ op ∈ ops, op.Aligned) (done : run loop ops bm = some bm') : bm'.Good := by
  induction ops generalizing bm with
  | nil =>
    cases done
    exact good
  | cons op ops ih =>
    obtain ⟨mid, first, rest⟩ := Option.bind_eq_some_iff.mp done
    obtain ⟨here, later⟩ := allowed
    obtain ⟨whole, wholes⟩ := List.forall_mem_cons.mp aligned
    exact ih (good.step here whole first) (later mid first) wholes rest

/-- Over every run from `bitmap_init` whose growths are to whole scan words, the count is the
number of clear bits, the staged lists have different indices of marked bits, and an
allocation takes the least clear bit, which is not one staged as freed. -/
theorem bitmap_runs {loop : Bool} {memory : Nat → UInt8} {ntotal : Nat} {ops : List Op} {start : Bitmap}
    (small : ntotal < 2 ^ 64) (made : init memory ntotal = some start) (allowed : AllAllowed loop start ops)
    (aligned : ∀ op ∈ ops, op.Aligned) (done : run loop ops start = some bm) :
    bm.nfree = clearBits bm.bit bm.ntotal ∧ Marked bm.bit bm.ntotal bm.allocs ∧ Marked bm.bit bm.ntotal bm.frees ∧
      (∀ k, k < bm.alloc.1 → bm.bit k = true) ∧ bm.alloc.1 ≤ bm.ntotal ∧
      (bm.alloc.1 < bm.ntotal → bm.bit bm.alloc.1 = false) ∧ bm.alloc.1 ∉ bm.frees := by
  have good := (init_good small made).run allowed aligned done
  refine ⟨good.nfree, good.allocs, good.frees, ?_⟩
  rcases alloc_effect good.wf.aligned with ⟨no, inside, clear, least, here, -⟩ | ⟨full, none⟩
  · rw [here]
    refine ⟨least, Nat.le_of_lt inside, fun _ => clear, fun member => ?_⟩
    rw [(good.frees.2 no member).2] at clear
    cases clear
  · rw [none]
    exact ⟨full, le_refl _, fun never => absurd never (Nat.lt_irrefl _),
      fun member => Nat.lt_irrefl _ (good.frees.2 _ member).1⟩

/-- The bitmap grows, and a bit is allocated and freed again. -/
theorem bitmap_runs_grow : ∃ bm, run true [.grow 128, .alloc, .free 0] (fresh (fun _ => 0) 64) = some bm ∧
    bm.nfree = clearBits bm.bit bm.ntotal ∧ Marked bm.bit bm.ntotal bm.allocs ∧ Marked bm.bit bm.ntotal bm.frees ∧
      (∀ k, k < bm.alloc.1 → bm.bit k = true) ∧ bm.alloc.1 ≤ bm.ntotal ∧
      (bm.alloc.1 < bm.ntotal → bm.bit bm.alloc.1 = false) ∧ bm.alloc.1 ∉ bm.frees := by
  obtain ⟨bm, done⟩ : ∃ bm, run true [.grow 128, .alloc, .free 0] (fresh (fun _ => 0) 64) = some bm :=
    Option.isSome_iff_exists.mp (by decide +kernel)
  have allowed : AllAllowed true (fresh (fun _ => 0) 64) [.grow 128, .alloc, .free 0] :=
    ⟨⟨by decide, by decide⟩, fun _ _ => ⟨trivial, fun _ _ => ⟨trivial, fun _ _ => trivial⟩⟩⟩
  exact ⟨bm, done, bitmap_runs (show 64 < 2 ^ 64 by decide) rfl allowed (by simp [Op.Aligned, scanBits]) done⟩

/-- A growth to 65 bits does not clear the new bit, which is as `realloc` left it. -/
theorem grow_one_bit : AllAllowed true (fresh (fun _ => 255) 64) [.grow 65] ∧
    ∃ bm, init (fun _ => 255) 64 = some (fresh (fun _ => 255) 64) ∧
      run true [.grow 65] (fresh (fun _ => 255) 64) = some bm ∧ bm.nfree = 65 ∧ clearBits bm.bit bm.ntotal = 64 :=
  ⟨⟨⟨by decide, by decide⟩, fun _ _ => trivial⟩, _, rfl, rfl, rfl, by decide +kernel⟩

end Bitmap

end Bpfs
