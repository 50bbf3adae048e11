import Bpfs.CrawlRange
import Bpfs.Steady

/-! A sweep is a crawl that changes the bytes from `lo` to `hi` of a tree, leaf by leaf.
This module says what such a crawl does to one subtree: what it may assume, what it
leaves when it succeeds or fails, and what a crash finds at every instant. -/

namespace Bpfs
open Lib

/-- One sweep: the meaning of the leaves as a function of how far it has come, the size
of the file, the range, and what the whole sweep may rely on. -/
structure Sweep where
  leaves : Leaves
  g : Nat
  lo : Nat
  hi : Nat
  ordered : lo < hi
  bounded : hi < 2 ^ 64
  /-- what holds of the disk manager throughout -/
  disk : DiskManager → Prop
  /-- no leaf in the range is on disk -/
  resident : Prop
  /-- the errors the sweep may end with -/
  errors : Err → Prop
  /-- a leaf that is swept in copy mode always moves -/
  moving : Prop
  errors_enospc : errors .enospc
  /-- the gap between the file's end and the range reads as a hole -/
  gap : ∀ m i v, g ≤ base i → base i + v ≤ lo → leaves.ok lo m i 0 v
  /-- bytes before the range do not notice the sweep -/
  early : ∀ {x : Nat} {m : Mem} {i q v : Nat}, base i + v ≤ lo → leaves.ok x m i q v → leaves.ok lo m i q v
  pointer : ∀ {x : Nat} {m : Mem} {i q v : Nat}, v ≠ 0 → leaves.ok x m i q v →
    q = 0 ∨ (3 ≤ q ∧ q < 2 ^ 61) ∨ (2 ^ 63 ≤ q ∧ q < 2 ^ 64)
  owns : ∀ {m : Mem} {i q v : Nat}, q ≠ 0 → q ∈ leaves.blocks m i q v
  resident_ok : resident → ∀ {x : Nat} {m : Mem} {i q v : Nat}, v ≠ 0 → enter lo i < leave hi 0 i →
    leaves.ok x m i q v → q < 2 ^ 63
  /-- a leaf on disk can be read back, and is the same leaf then -/
  fetch : ∀ {dm : DiskManager} {x : Nat} {m : Mem} {i q v : Nat}, disk dm → v ≠ 0 → 2 ^ 63 ≤ q →
    leaves.ok x m i q v → ∃ buf dm', dm.load (q ^^^ diskFlag) = some (buf, dm') ∧
      disk dm' ∧ ∀ (m' : Mem) (b : Nat), 3 ≤ b → b < 2 ^ 61 → (∀ o, o < blockSize → m' b o = buf o) →
        leaves.ok x m' i b v ∧ leaves.blocks m' i b v = {b}

namespace Sweep

variable (W : Sweep)

/-- The subtree at `p` is right for a sweep that has come to `x`, in a file of `n` bytes. -/
def Holds (x n : Nat) (m : Mem) (h i p : Nat) : Prop := TreeOk W.leaves x m h i p (validIn n h i)

/-- The blocks that belong to the subtree at `p` in a file of `n` bytes. -/
def owned (n : Nat) (m : Mem) (h i p : Nat) : Set Nat := treeBlocks W.leaves m h i p (validIn n h i)

theorem owned_congr {n : Nat} {m m' : Mem} {h i p : Nat} (same : ∀ y ∈ W.owned n m h i p, m' y = m y) :
    W.owned n m' h i p = W.owned n m h i p := treeBlocks_congr same

/-- What the subtree owns before the sweep. -/
def mine (s : Fs) (h i p : Nat) : Set Nat := W.owned (max W.g W.lo) s.bpram h i p

structure Ready (s : Fs) (h i p : Nat) : Prop where
  ok : s.Ok
  disk : W.disk s.disk
  tree : W.Holds W.lo (max W.g W.lo) s.bpram h i p
  live : Live s (W.mine s h i p)
  unborn : W.g ≤ base i → p = 0
  nvm : p < 2 ^ 63

/-- In memory `m` the subtree at `p` reads as before the sweep, and what it owns it owned
before or took since. -/
def OldAt (s t : Fs) (h i p : Nat) (m : Mem) : Prop :=
  W.Holds W.lo W.g m h i p ∧ ∀ b ∈ W.owned W.g m h i p, b ∈ W.mine s h i p ∨ Taken s t b

/-- In memory `m` the subtree, now at `p'`, reads as after the sweep. -/
def NewAt (s t : Fs) (h i p p' : Nat) (m : Mem) : Prop :=
  W.Holds W.hi (max W.g W.hi) m h i p' ∧
    ∀ b ∈ W.owned (max W.g W.hi) m h i p', b ∈ W.mine s h i p ∨ Taken s t b

/-- The sweep of the subtree ended well in `t`, with the subtree now at `p'`. -/
structure Done (s : Fs) (h i p : Nat) (commit : Commit) (p' : Nat) (t : Fs) : Prop where
  grow : Grow s t
  disk : W.disk t.disk
  new : W.NewAt s t h i p p' t.bpram
  live : Live t (W.owned (max W.g W.hi) t.bpram h i p')
  freed : ∀ b, Freed t b → Freed s b ∨ b ∈ W.mine s h i p ∨ Taken s t b
  /-- a crash finds the old subtree, or the new one if it was switched in place -/
  crash : Through (fun m => Keeps s (W.mine s h i p) m ∧ (W.OldAt s t h i p m ∨
    (commit = .atomic ∧ enter W.lo i < W.g ∧ p' = p ∧ W.NewAt s t h i p p m))) s t
  nvm : p' ≠ 0 ∧ p' < 2 ^ 61
  stays : commit = .atomic → W.g ≤ enter W.lo i → p ≠ 0 → p' = p
  moves : W.moving → commit = .copy → enter W.lo i < W.g → p' ≠ p

/-- The sweep of the subtree stopped in `t`: what can be seen is still the old subtree. -/
structure Failed (s : Fs) (h i p : Nat) (e : Err) (t : Fs) : Prop where
  grow : Grow s t
  error : W.errors e
  space : e = .enospc → s.allocFailures < t.allocFailures
  crash : Through (fun m => Keeps s (W.mine s h i p) m ∧ W.OldAt s t h i p m) s t

/-- In atomic mode a write beyond the file's end that comes to a missing child, part of
which is before the end, and goes on to the next child fails the assertion on the copy
that "should not occur". -/
def Trips (m : Mem) : Nat → Nat → Nat → Prop
  | 0, _, _ => False
  | h + 1, i, p =>
      let no := (W.lo - base i) / span h
      p ≠ 0 ∧ base i ≤ W.lo ∧ W.lo < base i + span (h + 1) ∧ W.g ≤ W.lo ∧ base (kid h i no) < W.g ∧
        ((addrAt m p no = 0 ∧ base (kid h i no) + span h < leave W.hi (h + 1) i) ∨
          (addrAt m p no ≠ 0 ∧ Trips m h (kid h i no) (addrAt m p no)))

/-- Blocks that an unnoticed allocation failure would spoil are all right. -/
def Sound (s t : Fs) : Prop := W.resident ∨ t.allocFailures = s.allocFailures

/-- What `x` does from `s` on, as long as no allocation failure goes unnoticed. -/
def Runs {α : Type} (x : M α) (s : Fs) (Q : α → Fs → Prop) (E : Err → Fs → Prop) : Prop :=
  wp x (fun a t => s.allocFailures ≤ t.allocFailures ∧ (W.Sound s t → Q a t))
    (fun e t => s.allocFailures ≤ t.allocFailures ∧ (W.Sound s t → E e t)) s

/-- `op`, called on the subtree of height `h` at leaf `i`, sweeps it. -/
def Sweeps (h i : Nat) (commit : Commit) (op : ChildCrawl) : Prop :=
  ∀ parent p s, W.Ready s h i p →
    (commit = .atomic → W.Trips s.bpram h i p → W.errors (.assertion .crawlIndirCow)) →
    W.Runs (op parent p (enter W.lo i / blockSize) (enter W.lo i - base i) (leave W.hi h i - enter W.lo i)
        (validIn W.g h i) commit) s
      (fun result t => ¬(commit = .atomic ∧ W.Trips s.bpram h i p) ∧ result.1 = 0 ∧
        W.Done s h i p commit result.2 t)
      (fun e t => W.Failed s h i p e t)

section Rules

variable {W} {α β : Type} {s : Fs} {Q : α → Fs → Prop} {E : Err → Fs → Prop}

theorem runs_of_wp {x : M α} (run : wp x Q E s) (steady : Steady x) : W.Runs x s Q E :=
  wp_mono (wp_and (steady s) run) (fun _ _ both => ⟨both.1, fun _ => both.2⟩)
    (fun _ _ both => ⟨both.1, fun _ => both.2⟩)

theorem Runs.mono {x : M α} {Q' : α → Fs → Prop} {E' : Err → Fs → Prop} (run : W.Runs x s Q E)
    (post : ∀ a t, Q a t → Q' a t) (fail : ∀ e t, E e t → E' e t) : W.Runs x s Q' E' :=
  wp_mono run (fun a t both => ⟨both.1, fun sound => post a t (both.2 sound)⟩)
    (fun e t both => ⟨both.1, fun sound => fail e t (both.2 sound)⟩)

theorem runs_pure {a : α} (post : Q a s) : W.Runs (pure a) s Q E := ⟨le_refl _, fun _ => post⟩

theorem runs_throw {e : Err} (fail : E e s) : W.Runs (throw e) s Q E := ⟨le_refl _, fun _ => fail⟩

/-- What follows a failure that went unnoticed only has to keep the count. -/
theorem Runs.bind {x : M α} {f : α → M β} {Q' : β → Fs → Prop} {E' : Err → Fs → Prop}
    (run : W.Runs x s Q E) (next : ∀ a t, Q a t → W.Runs (f a) t Q' E') (fail : ∀ e t, E e t → E' e t)
    (steady : ∀ a, Steady (f a)) : W.Runs (x >>= f) s Q' E' := by
  unfold Runs at *
  rw [wp_bind]
  refine wp_mono run (fun a t first => ?_) (fun e t first => ⟨first.1, fun sound => fail e t (first.2 sound)⟩)
  have sound : ∀ u : Fs, t.allocFailures ≤ u.allocFailures → W.Sound s u → W.Sound s t ∧ W.Sound t u := by
    rintro u later (resident | same)
    · exact ⟨Or.inl resident, Or.inl resident⟩
    · have := first.1
      exact ⟨Or.inr (by omega), Or.inr (by omega)⟩
  by_cases noticed : W.Sound s t
  · refine wp_mono (next a t (first.2 noticed)) (fun b u second => ?_) (fun e u second => ?_)
    · exact ⟨first.1.trans second.1, fun whole => second.2 (sound u second.1 whole).2⟩
    · exact ⟨first.1.trans second.1, fun whole => second.2 (sound u second.1 whole).2⟩
  · refine wp_mono (steady a t) (fun b u later => ?_) (fun e u later => ?_)
    · exact ⟨first.1.trans later, fun whole => absurd (sound u later whole).1 noticed⟩
    · exact ⟨first.1.trans later, fun whole => absurd (sound u later whole).1 noticed⟩

theorem runs_get {f : Fs → M α} (next : W.Runs (f s) s Q E) : W.Runs (get >>= f) s Q E := next

theorem runs_check {site : Site} {c : Prop} {dec : Decidable c} {f : Unit → M α} (holds : c)
    (next : W.Runs (f ()) s Q E) : W.Runs (check site c >>= f) s Q E := by
  unfold Runs at *
  rw [wp_bind, wp_check]
  exact ⟨fun _ => next, fun not => absurd holds not⟩

theorem runs_store {w : Write} {f : Unit → M α} (next : W.Runs (f ()) (s.store w) Q E) :
    W.Runs (storeNvm w >>= f) s Q E := next

theorem runs_load {b k : Nat} {f : Nat → M α} (small : k < 512) (next : W.Runs (f (addrAt s.bpram b k)) s Q E) :
    W.Runs (loadAddr b k >>= f) s Q E := by
  unfold Runs at *
  rw [wp_bind, wp_loadAddr small]
  exact next

theorem runs_pure_bind {a : β} {f : β → M α} (next : W.Runs (f a) s Q E) : W.Runs (pure a >>= f) s Q E := next

theorem runs_getBlock {b : Nat} {f : Nat → M α} (positive : b ≠ 0) (small : b < 2 ^ 63)
    (next : W.Runs (f b) s Q E) : W.Runs (getBlock b >>= f) s Q E := by
  unfold Runs at *
  rwa [wp_bind, wp_getBlock positive small]

/-- An allocation that the caller does not check. -/
theorem runs_alloc (ok : s.Ok) (away : ¬W.resident) :
    W.Runs allocBlock s (fun b t => Fresh s b ∅ t ∧ t.bpram = s.bpram) (fun _ _ => False) := by
  refine wp_mono (allocBlock_spec ok) ?_ (fun _ _ impossible => impossible.elim)
  rintro b t (⟨fresh, memory, -⟩ | ⟨-, full⟩)
  · exact ⟨fresh.grow.failures, fun _ => ⟨fresh, memory⟩⟩
  · refine ⟨full.grow.failures, fun sound => ?_⟩
    have := full.failures
    rcases sound with resident | same
    · exact absurd resident away
    · omega

theorem runs_ite {c : Prop} {dec : Decidable c} {x y : M α} (yes : c → W.Runs x s Q E)
    (no : ¬c → W.Runs y s Q E) : W.Runs (if c then x else y) s Q E := by
  split
  · next holds => exact yes holds
  · next fails => exact no fails

end Rules

end Sweep

end Bpfs
