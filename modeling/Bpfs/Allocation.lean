import Bpfs.State
import Mathlib.Data.Set.Insert

/-! What the block layer does to allocation and memory: which blocks are in use,
how a run may extend them, and what each primitive leaves behind. -/

namespace Bpfs
open Lib

/-- The bitmap marks block `b` as in use. -/
def Allocated (s : Fs) (b : Nat) : Prop :=
  1 ≤ b ∧ b ≤ s.blockAlloc.ntotal ∧ s.blockAlloc.bit (b - 1) = true

/-- Block `b` is to be released by the next commit. -/
def Freed (s : Fs) (b : Nat) : Prop := 1 ≤ b ∧ b - 1 ∈ s.blockAlloc.frees

/-- Block `b` is one that `alloc_block` can still hand out. -/
def Unused (s : Fs) (b : Nat) : Prop := 3 ≤ b ∧ b ≤ s.blockAlloc.ntotal ∧ ¬Allocated s b

structure Fs.Ok (s : Fs) : Prop where
  wf : s.blockAlloc.Wf
  small : s.blockAlloc.ntotal < 2 ^ 61
  reserved : s.blockAlloc.bit 0 = true ∧ s.blockAlloc.bit 1 = true

/-- The run's own stores cannot surprise the owner of `b`: it is in use, or it is the
number of a disk block. -/
def Held (s : Fs) (b : Nat) : Prop := Allocated s b ∨ 2 ^ 63 ≤ b

/-- Every number in `B` is a block in use that stays in use, or a disk block number. -/
def Live (s : Fs) (B : Set Nat) : Prop := ∀ b ∈ B, (Allocated s b ∧ ¬Freed s b) ∨ 2 ^ 63 ≤ b

/-- Block `b` was handed out between `s` and `t`. -/
def Taken (s t : Fs) (b : Nat) : Prop := Unused s b ∧ Allocated t b

/-- Memory `m` is that of `s` outside of the blocks `B` and the blocks not in use. -/
def Keeps (s : Fs) (B : Set Nat) (m : Mem) : Prop := ∀ b, Held s b → b ∉ B → m b = s.bpram b

/-! ### Stores -/

/-- From `s` to `t` the memory only changed by recorded stores, and every memory a crash
could have left on the way satisfies `I`. -/
def Through (I : Mem → Prop) (s t : Fs) : Prop :=
  ∃ ws, t.writes = s.writes ++ ws ∧ t.bpram = s.bpram.applyAll ws ∧ ∀ m, Cut s.bpram ws m → I m

namespace Through

variable {I J : Mem → Prop} {s t u : Fs}

theorem first (through : Through I s t) : I s.bpram := by
  obtain ⟨ws, -, -, cuts⟩ := through
  exact cuts _ (Cut.start _ _)

theorem last (through : Through I s t) : I t.bpram := by
  obtain ⟨ws, -, memory, cuts⟩ := through
  rw [memory]
  exact cuts _ (Cut.finish _ _)

theorem mono (through : Through I s t) (weaker : ∀ m, I m → J m) : Through J s t := by
  obtain ⟨ws, log, memory, cuts⟩ := through
  exact ⟨ws, log, memory, fun m crash => weaker m (cuts m crash)⟩

theorem still (log : t.writes = s.writes) (memory : t.bpram = s.bpram) (holds : I s.bpram) :
    Through I s t := by
  refine ⟨[], by rw [log, List.append_nil], memory, fun m crash => ?_⟩
  rw [crash]
  exact holds

theorem trans (before : Through I s t) (after : Through I t u) : Through I s u := by
  obtain ⟨ws, log, memory, cuts⟩ := before
  obtain ⟨vs, log', memory', cuts'⟩ := after
  refine ⟨ws ++ vs, by rw [log', log, List.append_assoc], by rw [memory', memory, applyAll_append], ?_⟩
  intro m crash
  rcases cut_append.mp crash with early | late
  · exact cuts m early
  · exact cuts' m (by rw [memory]; exact late)

theorem and (left : Through I s t) (right : Through J s t) : Through (fun m => I m ∧ J m) s t := by
  obtain ⟨ws, log, memory, cuts⟩ := left
  obtain ⟨vs, log', -, cuts'⟩ := right
  have same : vs = ws := List.append_cancel_left (log'.symm.trans log)
  subst same
  exact ⟨vs, log, memory, fun m crash => ⟨cuts m crash, cuts' m crash⟩⟩

end Through

/-! ### Growth -/

/-- The block layer's part of the state may have changed in this way between `s` and `t`. -/
structure Grow (s t : Fs) : Prop where
  staged : s.blockAlloc.Staged t.blockAlloc
  failures : s.allocFailures ≤ t.allocFailures
  inodes : t.inodeAlloc = s.inodeAlloc
  pointer : t.currentIndirPointer = s.currentIndirPointer
  counter : t.treeNblocksNblocks = s.treeNblocksNblocks

namespace Grow

variable {s t u : Fs}

theorem refl (s : Fs) : Grow s s := ⟨.refl _, le_refl _, rfl, rfl, rfl⟩

theorem trans (first : Grow s t) (second : Grow t u) : Grow s u :=
  ⟨first.staged.trans second.staged, first.failures.trans second.failures,
    second.inodes.trans first.inodes, second.pointer.trans first.pointer,
    second.counter.trans first.counter⟩

theorem total (grow : Grow s t) : t.blockAlloc.ntotal = s.blockAlloc.ntotal := grow.staged.total

theorem allocated (grow : Grow s t) {b : Nat} (used : Allocated s b) : Allocated t b :=
  ⟨used.1, by rw [grow.total]; exact used.2.1, grow.staged.bit used.2.2⟩

theorem freed (grow : Grow s t) {b : Nat} (gone : Freed s b) : Freed t b :=
  ⟨gone.1, grow.staged.mem_frees gone.2⟩

theorem unused (grow : Grow s t) {b : Nat} (free : Unused t b) : Unused s b :=
  ⟨free.1, by rw [← grow.total]; exact free.2.1, fun used => free.2.2 (grow.allocated used)⟩

theorem ok (grow : Grow s t) (ok : s.Ok) : t.Ok :=
  ⟨grow.staged.wf ok.wf, by rw [grow.total]; exact ok.small, grow.staged.bit ok.reserved.1,
    grow.staged.bit ok.reserved.2⟩

end Grow

theorem Unused.lt {s : Fs} {b : Nat} (ok : s.Ok) (free : Unused s b) : b < 2 ^ 61 :=
  lt_of_le_of_lt free.2.1 ok.small

theorem Allocated.lt {s : Fs} {b : Nat} (ok : s.Ok) (used : Allocated s b) : b < 2 ^ 61 :=
  lt_of_le_of_lt used.2.1 ok.small

theorem Freed.allocated {s : Fs} {b : Nat} (ok : s.Ok) (gone : Freed s b) : Allocated s b := by
  have staged := ok.wf.frees _ gone.2
  exact ⟨gone.1, by have := gone.1; omega, staged.2⟩

theorem Live.held {s : Fs} {B : Set Nat} (live : Live s B) {b : Nat} (member : b ∈ B) : Held s b :=
  (live b member).imp And.left id

theorem Unused.not_held {s : Fs} {b : Nat} (ok : s.Ok) (free : Unused s b) : ¬Held s b := by
  rintro (used | disk)
  · exact free.2.2 used
  · have := free.lt ok
    omega

theorem Grow.held {s t : Fs} (grow : Grow s t) {b : Nat} (held : Held s b) : Held t b :=
  held.imp grow.allocated id

theorem Grow.taken {s t u : Fs} (first : Grow s t) (second : Grow t u) {b : Nat}
    (taken : Taken s t b ∨ Taken t u b) : Taken s u b := by
  rcases taken with early | late
  · exact ⟨early.1, second.allocated early.2⟩
  · exact ⟨first.unused late.1, late.2⟩

theorem not_testBit_of_lt {b : Nat} (small : b < 2 ^ 63) : b.testBit 63 = false :=
  Nat.testBit_lt_two_pow small

/-! ### Rules for the primitives -/

variable {s : Fs}

@[simp] theorem wp_check {site : Site} {c : Prop} {dec : Decidable c} {Q : Unit → Fs → Prop}
    {E : Err → Fs → Prop} :
    wp (check site c) Q E s ↔ (c → Q () s) ∧ (¬c → E (.assertion site) s) := by
  unfold check
  rw [wp_ite]
  rfl

theorem wp_checked {α : Type} {site : Site} {c : Prop} {dec : Decidable c} {f : Unit → M α} {Q : α → Fs → Prop}
    {E : Err → Fs → Prop} (holds : c) (next : wp (f ()) Q E s) : wp (check site c >>= f) Q E s := by
  rw [wp_bind, wp_check]
  exact ⟨fun _ => next, fun fails => absurd holds fails⟩

/-- The state after one store. -/
def Fs.store (s : Fs) (w : Write) : Fs :=
  { s with bpram := s.bpram.apply w, writes := s.writes ++ [w] }

@[simp] theorem wp_storeNvm {w : Write} {Q : Unit → Fs → Prop} {E : Err → Fs → Prop} :
    wp (storeNvm w) Q E s ↔ Q () (s.store w) := Iff.rfl

@[simp] theorem store_bpram (w : Write) : (s.store w).bpram = s.bpram.apply w := rfl
@[simp] theorem store_blockAlloc (w : Write) : (s.store w).blockAlloc = s.blockAlloc := rfl
@[simp] theorem store_disk (w : Write) : (s.store w).disk = s.disk := rfl
@[simp] theorem store_allocFailures (w : Write) : (s.store w).allocFailures = s.allocFailures := rfl

theorem grow_store (w : Write) : Grow s (s.store w) := ⟨.refl _, le_refl _, rfl, rfl, rfl⟩

theorem through_store {I : Mem → Prop} {w : Write} (before : I s.bpram) (after : I (s.bpram.apply w))
    (cut : w.atomic = false → ∀ n, n ≤ w.len → I (s.bpram.apply { w with len := n })) :
    Through I s (s.store w) := by
  refine ⟨[w], rfl, rfl, fun m crash => ?_⟩
  rcases crash with same | ⟨loose, n, short, partly⟩ | done
  · rw [same]; exact before
  · rw [partly]; exact cut loose n short
  · rw [done]; exact after

/-- A store leaves the other blocks alone, wherever it is cut. -/
theorem through_store_block (w : Write) :
    Through (fun m => ∀ x, x ≠ w.blk → m x = s.bpram x) s (s.store w) := by
  apply through_store
  · exact fun x _ => rfl
  · exact fun x other => apply_other other
  · exact fun _ n _ x other => apply_other other

theorem wp_loadAddr {s : Fs} {b k : Nat} (small : k < 512) {Q : Nat → Fs → Prop} {E : Err → Fs → Prop} :
    wp (loadAddr b k) Q E s ↔ Q (addrAt s.bpram b k) s := by
  rw [loadAddr, if_neg (show ¬blocknosPerIndir ≤ k from Nat.not_le.mpr small)]
  exact Iff.rfl

theorem wp_getBlock {b : Nat} (positive : b ≠ 0) (small : b < 2 ^ 63) {Q : Nat → Fs → Prop}
    {E : Err → Fs → Prop} : wp (getBlock b) Q E s ↔ Q b s := by
  simp only [getBlock, wp_bind, wp_check, not_testBit_of_lt small, Bool.false_eq_true, if_false, wp_pure]
  exact ⟨fun both => both.1 positive, fun post => ⟨fun _ => post, fun zero => absurd positive zero⟩⟩

/-- The run from `s` to `t` took the unused block `b`, staged the blocks of `gone` to be
released, and stored nothing outside `b`. -/
structure Fresh (s : Fs) (b : Nat) (gone : Set Nat) (t : Fs) : Prop where
  unused : Unused s b
  grow : Grow s t
  allocated : ∀ x, Allocated t x ↔ Allocated s x ∨ x = b
  freed : ∀ x, Freed t x ↔ Freed s x ∨ x ∈ gone
  through : Through (fun m => ∀ x, x ≠ b → m x = s.bpram x) s t
  failures : t.allocFailures = s.allocFailures
  disk : t.disk = s.disk

/-- The run from `s` to `t` found no free block and changed nothing. -/
structure NoSpace (s t : Fs) : Prop where
  grow : Grow s t
  writes : t.writes = s.writes
  bpram : t.bpram = s.bpram
  disk : t.disk = s.disk
  failures : s.allocFailures < t.allocFailures

theorem allocBlock_spec (ok : s.Ok) :
    wp allocBlock
      (fun b t => (Fresh s b ∅ t ∧ t.bpram = s.bpram ∧ t.writes = s.writes) ∨ (b = 0 ∧ NoSpace s t))
      (fun _ _ => False) s := by
  simp only [allocBlock, wp_bind, wp_get, wp_ite, wp_modify, wp_check, wp_pure]
  rcases Bitmap.alloc_cases ok.wf.aligned with ⟨no, small, clear, result⟩ | ⟨-, result⟩
  · have first : 3 ≤ no + 1 := by
      have zero : no ≠ 0 := by
        rintro rfl
        rw [ok.reserved.1] at clear
        cases clear
      have one : no ≠ 1 := by
        rintro rfl
        rw [ok.reserved.2] at clear
        cases clear
      omega
    have unused : Unused s (no + 1) := by
      refine ⟨first, small, fun used => ?_⟩
      have set := used.2.2
      rw [Nat.add_sub_cancel, clear] at set
      cases set
    simp only [result, blocknoFirstAlloc]
    refine ⟨fun full => by omega, fun _ => ⟨fun _ => Or.inl ⟨⟨unused, ?_, ?_, ?_, ?_, rfl, rfl⟩, trivial, trivial⟩,
      fun low => absurd first low⟩⟩
    · exact ⟨Bitmap.staged_alloc small clear, le_refl _, rfl, rfl, rfl⟩
    · intro x
      have bits : ∀ k, ({ s.blockAlloc.setBit no with
          allocs := no :: s.blockAlloc.allocs, nfree := usub s.blockAlloc.nfree 1 } : Bitmap).bit k =
          (decide (k = no) || s.blockAlloc.bit k) := fun k => Bitmap.bit_setBit_with ..
      simp only [Allocated, bits, Bool.or_eq_true, decide_eq_true_eq]
      have total : (s.blockAlloc.setBit no).ntotal = s.blockAlloc.ntotal := rfl
      rw [total]
      constructor
      · rintro ⟨low, high, same | old⟩
        · exact Or.inr (by omega)
        · exact Or.inl ⟨low, high, old⟩
      · rintro (⟨low, high, old⟩ | same)
        · exact ⟨low, high, Or.inr old⟩
        · exact ⟨by omega, by omega, Or.inl (by omega)⟩
    · intro x
      simp only [Set.mem_empty_iff_false, or_false]
      rfl
    · exact Through.still rfl rfl (fun x _ => rfl)
  · simp only [result]
    exact ⟨fun _ => Or.inr ⟨rfl, ⟨.refl _, Nat.le_succ _, rfl, rfl, rfl⟩, rfl, rfl, rfl, Nat.lt_succ_self _⟩,
      fun other => absurd trivial other⟩

theorem freeBlock_spec {b : Nat} (ok : s.Ok) (first : 3 ≤ b) (used : Allocated s b) (kept : ¬Freed s b) :
    wp (freeBlock b)
      (fun _ t => t = { s with
        blockAlloc := { s.blockAlloc with frees := (b - 1) :: s.blockAlloc.frees },
        cacheCalls := s.cacheCalls ++ [.deleteLruEntry b] })
      (fun _ _ => False) s := by
  have small := used.lt ok
  have inside : b - 1 < s.blockAlloc.ntotal := by have := used.2.1; omega
  have once : b - 1 ∉ s.blockAlloc.frees := fun member => kept ⟨used.1, member⟩
  have staged : s.blockAlloc.free (b - 1) =
      some { s.blockAlloc with frees := (b - 1) :: s.blockAlloc.frees } :=
    if_pos ⟨inside, used.2.2, once⟩
  simp only [freeBlock, not_testBit_of_lt (show b < 2 ^ 63 by omega), Bool.false_eq_true, if_false, wp_bind,
    wp_check, wp_get, staged, wp_modify]
  exact ⟨fun _ => ⟨fun _ => trivial, fun low => low first⟩, fun zero => zero (by omega : b ≠ 0)⟩

/-- `Grow` and the rest of what staging one release does. -/
theorem Fresh.release {b old : Nat} {t u : Fs} (fresh : Fresh s b ∅ t) (used : Allocated s old)
    (kept : ¬Freed s old)
    (after : u = { t with
      blockAlloc := { t.blockAlloc with frees := (old - 1) :: t.blockAlloc.frees },
      cacheCalls := t.cacheCalls ++ [.deleteLruEntry old] }) : Fresh s b {old} u := by
  have used' := fresh.grow.allocated used
  have kept' : ¬Freed t old := by
    rw [fresh.freed]
    simpa using kept
  have inside : old - 1 < t.blockAlloc.ntotal := by have := used'.2.1; have := used'.1; omega
  have staged := Bitmap.staged_free inside used'.2.2 (fun member => kept' ⟨used'.1, member⟩)
  subst after
  refine ⟨fresh.unused, fresh.grow.trans ⟨staged, le_refl _, rfl, rfl, rfl⟩, fresh.allocated, ?_,
    fresh.through, fresh.failures, fresh.disk⟩
  intro x
  rw [show Freed s x ↔ Freed t x by rw [fresh.freed]; simp]
  simp only [Freed, List.mem_cons, Set.mem_singleton_iff]
  have low := used.1
  constructor
  · rintro ⟨positive, same | before⟩
    · exact Or.inr (by omega)
    · exact Or.inl ⟨positive, before⟩
  · rintro (⟨positive, before⟩ | same)
    · exact ⟨positive, Or.inr before⟩
    · exact ⟨by omega, Or.inl (by rw [same])⟩

/-- A store into a block that was just taken. -/
theorem Fresh.store {b : Nat} {gone : Set Nat} {t : Fs} (fresh : Fresh s b gone t) {w : Write}
    (inside : w.blk = b) : Fresh s b gone (t.store w) := by
  refine ⟨fresh.unused, fresh.grow.trans (grow_store w), fresh.allocated, fresh.freed, ?_, fresh.failures,
    fresh.disk⟩
  apply fresh.through.trans
  apply (through_store_block w).mono
  intro m same x other
  rw [same x (by rw [inside]; exact other)]
  exact fresh.through.last x other

theorem Fresh.not_freed {b : Nat} {t : Fs} {gone : Set Nat} (fresh : Fresh s b gone t) (ok : s.Ok)
    (used : ∀ x ∈ gone, Allocated s x) : ¬Freed t b := by
  rw [fresh.freed]
  rintro (before | member)
  · exact fresh.unused.2.2 (before.allocated ok)
  · exact fresh.unused.2.2 (used b member)

/-- `alloc_block` and the test of its result that all callers but the disk fetches make. -/
theorem wp_take {α : Type} (ok : s.Ok) {next : Nat → M α} {Q : α → Fs → Prop} {E : Err → Fs → Prop}
    (taken : ∀ b t, Fresh s b ∅ t → t.bpram = s.bpram → b ≠ 0 → b < 2 ^ 63 → wp (next b) Q E t)
    (full : ∀ t, NoSpace s t → E .enospc t) :
    wp (do
      let b ← allocBlock
      if b = blocknoInvalid then throw .enospc
      next b) Q E s := by
  simp only [wp_bind]
  refine wp_mono (allocBlock_spec ok) ?_ (fun _ _ impossible => impossible.elim)
  rintro b t (⟨fresh, memory, -⟩ | ⟨rfl, noSpace⟩)
  · have low := fresh.unused.1
    have high := fresh.unused.lt ok
    have positive : b ≠ blocknoInvalid := by simp only [blocknoInvalid]; omega
    simp only [if_neg positive]
    exact taken b t fresh memory positive (by omega)
  · simp only [blocknoInvalid, if_true, wp_bind, wp_throw]
    exact full t noSpace

theorem wp_release {b old : Nat} {t : Fs} (fresh : Fresh s b ∅ t) (ok : s.Ok) (first : 3 ≤ old)
    (used : Allocated s old) (kept : ¬Freed s old) {Q : Unit → Fs → Prop} {E : Err → Fs → Prop}
    (post : ∀ u, Fresh s b {old} u → u.bpram = t.bpram → Q () u) : wp (freeBlock old) Q E t := by
  have kept' : ¬Freed t old := by
    rw [fresh.freed]
    simpa using kept
  refine wp_mono (freeBlock_spec (fresh.grow.ok ok) first (fresh.grow.allocated used) kept') ?_
    (fun _ _ impossible => impossible.elim)
  rintro - u rfl
  exact post _ (fresh.release used kept rfl) rfl

theorem cowBlockEntire_spec {old : Nat} (ok : s.Ok) (first : 3 ≤ old) (used : Allocated s old)
    (kept : ¬Freed s old) :
    wp (cowBlockEntire old)
      (fun b t => Fresh s b {old} t ∧ ∀ o, o < blockSize → t.bpram b o = s.bpram old o)
      (fun e t => e = .enospc ∧ NoSpace s t) s := by
  have small := used.lt ok
  unfold cowBlockEntire
  refine wp_take ok ?_ (fun t full => ⟨rfl, full⟩)
  intro b t fresh memory positive high
  simp only [wp_bind, wp_getBlock (show old ≠ 0 by omega) (show old < 2 ^ 63 by omega),
    wp_getBlock positive high, wp_get, memcpy, wp_storeNvm, wp_pure]
  have stored := fresh.store (w := ⟨false, b, 0, blockSize, t.bpram old⟩) rfl
  refine wp_release stored ok first used kept (fun u fresh' same => ⟨fresh', fun o inside => ?_⟩)
  rw [same, store_bpram, apply_covered ⟨rfl, Nat.zero_le _, by simpa using inside⟩, memory]
  rfl

/-- `cow_block` copies what is before and after the range that will be overwritten. -/
theorem cowBlock_spec {old off size valid : Nat} (ok : s.Ok) (first : 3 ≤ old) (used : Allocated s old)
    (kept : ¬Freed s old) (fits : off + size ≤ blockSize) (short : valid ≤ blockSize) :
    wp (cowBlock old off size valid)
      (fun b t => Fresh s b {old} t ∧
        ∀ o, o < off ∨ (off + size ≤ o ∧ o < valid) → t.bpram b o = s.bpram old o)
      (fun e t => e = .enospc ∧ NoSpace s t) s := by
  have small := used.lt ok
  simp only [cowBlock]
  refine wp_checked fits (wp_checked short (wp_take ok ?_ (fun t full => ⟨rfl, full⟩)))
  intro b t fresh memory positive high
  simp only [wp_bind, wp_getBlock (show old ≠ 0 by omega) (show old < 2 ^ 63 by omega),
    wp_getBlock positive high, wp_get, memcpy, wp_storeNvm, wp_pure, wp_ite]
  have head := fresh.store (w := ⟨false, b, 0, off, t.bpram old⟩) rfl
  constructor
  · intro tail
    have both := head.store (w := ⟨false, b, off + size, valid - (off + size),
      fun i => t.bpram old (off + size + i)⟩) rfl
    refine wp_release both ok first used kept (fun u fresh' same => ⟨fresh', fun o inside => ?_⟩)
    rw [same, store_bpram, store_bpram, ← memory]
    rcases inside with low | ⟨above, below⟩
    · rw [apply_uncovered (fun inside => by have := inside.2.1; simp only at this; omega),
        apply_covered ⟨rfl, Nat.zero_le _, by simpa using low⟩]
      rfl
    · rw [apply_covered ⟨rfl, above, by simp only; omega⟩]
      simp only
      rw [show off + size + (o - (off + size)) = o by omega]
  · intro none
    refine wp_release head ok first used kept (fun u fresh' same => ⟨fresh', fun o inside => ?_⟩)
    rcases inside with low | ⟨above, below⟩
    · rw [same, store_bpram, apply_covered ⟨rfl, Nat.zero_le _, by simpa using low⟩, memory]
      rfl
    · omega

/-- `cow_block_hole` zeroes what is before and after the range that will be written. -/
theorem cowBlockHole_spec {off size valid : Nat} (ok : s.Ok) (fits : off + size ≤ blockSize)
    (short : valid ≤ blockSize) :
    wp (cowBlockHole off size valid)
      (fun b t => Fresh s b ∅ t ∧ ∀ o, o < off ∨ (off + size ≤ o ∧ o < valid) → t.bpram b o = 0)
      (fun e t => e = .enospc ∧ NoSpace s t) s := by
  simp only [cowBlockHole]
  refine wp_checked fits (wp_checked short (wp_take ok ?_ (fun t full => ⟨rfl, full⟩)))
  intro b t fresh memory positive high
  simp only [wp_bind, wp_getBlock positive high, memset, wp_storeNvm, wp_pure, wp_ite]
  have head := fresh.store (w := ⟨false, b, 0, off, fun _ => 0⟩) rfl
  constructor
  · intro tail
    refine ⟨head.store rfl, fun o inside => ?_⟩
    rw [store_bpram, store_bpram]
    rcases inside with low | ⟨above, below⟩
    · rw [apply_uncovered (fun inside => by have := inside.2.1; simp only at this; omega),
        apply_covered ⟨rfl, Nat.zero_le _, by simpa using low⟩]
    · rw [apply_covered ⟨rfl, above, by simp only; omega⟩]
  · intro none
    refine ⟨head, fun o inside => ?_⟩
    rcases inside with low | ⟨above, below⟩
    · rw [store_bpram, apply_covered ⟨rfl, Nat.zero_le _, by simpa using low⟩]
    · omega

end Bpfs
