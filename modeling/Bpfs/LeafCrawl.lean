import Bpfs.SweepCrawl

/-! `crawl_leaf` around a callback that writes, and `crawl_indir` over all heights: a
crawl sweeps a tree as soon as its callback sweeps a leaf. -/

namespace Bpfs
open Lib

/-- From `s` to `t` only the records about accesses to blocks changed. -/
def Noted (s t : Fs) : Prop := ∃ mapping accesses calls,
  t = { s with indirMapping := mapping, mappingAccesses := accesses, cacheCalls := calls }

theorem noted_bpram {t u : Fs} (noted : Noted t u) : u.bpram = t.bpram := by
  obtain ⟨mapping, accesses, calls, rfl⟩ := noted
  rfl

theorem noted_blockAlloc {t u : Fs} (noted : Noted t u) : u.blockAlloc = t.blockAlloc := by
  obtain ⟨mapping, accesses, calls, rfl⟩ := noted
  rfl

theorem noteIndir_spec {s : Fs} {b indir : Nat} (small : b < 2 ^ 63) :
    wp (noteIndir b indir) (fun _ t => Noted s t) (fun _ _ => False) s := by
  simp only [noteIndir, not_testBit_of_lt small, Bool.false_eq_true, if_false, wp_bind, wp_get, wp_ite, wp_modify,
    wp_pure]
  exact ⟨fun _ => ⟨_, _, s.cacheCalls, rfl⟩, fun _ => ⟨s.indirMapping, s.mappingAccesses, s.cacheCalls, rfl⟩⟩

/-- `crawl_leaf` for a write: a hole gets a block first, which the callback may then
change freely. -/
theorem crawlLeaf_write {cb : CrawlCallback} {start p blockoff off size valid : Nat} {indir : Option Nat}
    {commit : Commit} {s : Fs} {Q : Nat × Nat → Fs → Prop} {E : Err → Fs → Prop} (ok : s.Ok)
    (begins : start / blockSize ≤ blockoff) (positive : 0 < size) (fits : off + size ≤ blockSize)
    (short : valid ≤ blockSize) (mode : commit = .copy ∨ commit = .atomic) (nvm : p < 2 ^ 63)
    (full : p ≠ 0 → ∀ t, Noted s t → wp (cb blockoff (.bpram p) off size valid start commit p) Q E t)
    (hole : p = 0 → ∀ b t u, Fresh s b ∅ t → (∀ o, o < off ∨ (off + size ≤ o ∧ o < valid) → t.bpram b o = 0) →
      Noted t u → wp (cb blockoff (.bpram b) off size valid start .free b) Q E u)
    (noSpace : p = 0 → ∀ t, NoSpace s t → E .enospc t) :
    wp (crawlLeaf (some cb) none start indir p blockoff off size valid commit) Q E s := by
  have writes : commit ≠ .none := by rcases mode with rfl | rfl <;> decide
  have notHole : ¬(p = blocknoInvalid ∧ commit = .none) := fun both => writes both.2
  -- what follows once there is a block
  have call : ∀ (b : Nat) (t : Fs), b ≠ 0 → b < 2 ^ 63 →
      wp (cb blockoff (.bpram b) off size valid start (if b = p then commit else .free) b) Q E t →
      wp (if p = blocknoInvalid ∧ commit = .none then pure .zeroBlock >>= fun block =>
          cb blockoff block off size valid start (if b = p then commit else .free) b
        else BlockPtr.bpram <$> getBlock b >>= fun block =>
          cb blockoff block off size valid start (if b = p then commit else .free) b) Q E t := by
    intro b t present small next
    rwa [if_neg notHole, wp_bind, wp_map, wp_getBlock present small]
  unfold crawlLeaf
  dsimp only
  refine wp_checked begins (wp_checked (by omega) (wp_checked fits (wp_checked short ?_)))
  by_cases missing : p = 0
  · have fresh : commit ≠ .none ∧ p = blocknoInvalid := ⟨writes, missing⟩
    rw [if_pos fresh, wp_bind]
    refine wp_mono (cowBlockHole_spec ok fits short) ?_ (fun e t failed => failed.1 ▸ noSpace missing t failed.2)
    rintro b t ⟨taken, zero⟩
    have low := taken.unused.1
    have high := taken.unused.lt ok
    have run : ∀ u, Noted t u →
        wp (cb blockoff (.bpram b) off size valid start (if b = p then commit else .free) b) Q E u := by
      intro u noted
      rw [if_neg (by omega)]
      exact hole missing b t u taken zero noted
    cases indir with
    | none => exact call b t (by omega) (by omega) (run t ⟨_, _, _, rfl⟩)
    | some indir =>
      dsimp only
      rw [wp_bind]
      exact wp_mono (noteIndir_spec (by omega)) (fun _ u noted => call b u (by omega) (by omega) (run u noted))
        (fun _ _ never => never.elim)
  · have old : ¬(commit ≠ .none ∧ p = blocknoInvalid) := fun both => missing both.2
    rw [if_neg old, wp_bind, wp_pure]
    have run : ∀ u, Noted s u →
        wp (cb blockoff (.bpram p) off size valid start (if p = p then commit else .free) p) Q E u := by
      intro u noted
      rw [if_pos rfl]
      exact full missing u noted
    cases indir with
    | none => exact call p s missing nvm (run s ⟨_, _, _, rfl⟩)
    | some indir =>
      dsimp only
      rw [wp_bind]
      exact wp_mono (noteIndir_spec nvm) (fun _ u noted => call p u missing nvm (run u noted))
        (fun _ _ never => never.elim)

namespace Sweep

variable {W : Sweep} {cb : CrawlCallback} {start : Nat}

/-! Records about accesses do not matter to a sweep. -/

section Noted

variable {s s' t t' : Fs} {h i p p' : Nat} {commit : Commit} {e : Err}

theorem Ready.noted (ready : W.Ready s h i p) (noted : Noted s s') : W.Ready s' h i p := by
  obtain ⟨_, _, _, rfl⟩ := noted
  exact ⟨⟨ready.ok.wf, ready.ok.small, ready.ok.reserved⟩, ready.disk, ready.tree, ready.live, ready.unborn, ready.nvm⟩

theorem Done.noted (done : W.Done s' h i p commit p' t) (before : Noted s s') (after : Noted t t') :
    W.Done s h i p commit p' t' := by
  obtain ⟨_, _, _, rfl⟩ := before
  obtain ⟨_, _, _, rfl⟩ := after
  exact ⟨⟨done.grow.staged, done.grow.failures, done.grow.inodes, done.grow.pointer, done.grow.counter⟩, done.disk,
    done.new, done.live, done.freed, done.crash, done.nvm, done.stays, done.moves⟩

theorem Failed.noted (failed : W.Failed s' h i p e t) (before : Noted s s') : W.Failed s h i p e t := by
  obtain ⟨_, _, _, rfl⟩ := before
  exact ⟨⟨failed.grow.staged, failed.grow.failures, failed.grow.inodes, failed.grow.pointer, failed.grow.counter⟩,
    failed.error, failed.space, failed.crash⟩

end Noted

/-- `crawl_indir` sweeps trees of every height if `crawl_leaf` sweeps the leaves. -/
theorem sweeps_indir (calls : SteadyCallback cb)
    (leaf : ∀ i commit, commit = .copy ∨ commit = .atomic → enter W.lo i < leave W.hi 0 i →
      W.Sweeps 0 i commit (fun parent => crawlLeaf (some cb) none start (some parent)))
    {h i : Nat} {commit : Commit} (low : h + 1 ≤ 6) (mode : commit = .copy ∨ commit = .atomic)
    (meets : enter W.lo i < leave W.hi (h + 1) i) :
    W.Sweeps (h + 1) i commit (fun _ => crawlIndir (some cb) none start (h + 1) (512 ^ (h + 1))) := by
  induction h generalizing i commit with
  | zero =>
    have body : crawlIndir (some cb) none start (0 + 1) (512 ^ (0 + 1)) = crawlIndirNode (some cb) none start
        (decide (0 = 0)) (fun parent => crawlLeaf (some cb) none start (some parent)) (512 ^ (0 + 1)) := rfl
    rw [body]
    exact sweeps_node low meets mode (fun _ _ _ _ _ _ _ => steady_crawlLeaf calls _ _ _ _ _ _ _ _)
      (fun k commit' mode' _ meets' => leaf _ _ mode' meets')
  | succ h ih =>
    have width : 512 ^ (h + 1 + 1) / blocknosPerIndir = 512 ^ (h + 1) := by
      rw [Nat.pow_succ]
      exact Nat.mul_div_cancel _ (by decide)
    have body : crawlIndir (some cb) none start (h + 1 + 1) (512 ^ (h + 1 + 1)) = crawlIndirNode (some cb) none start
        (decide (h + 1 = 0)) (fun _ => crawlIndir (some cb) none start (h + 1) (512 ^ (h + 1)))
        (512 ^ (h + 1 + 1)) := by
      rw [← width]
      rfl
    rw [body]
    exact sweeps_node low meets mode (steady_crawlIndir calls _ _ _)
      (fun k commit' mode' _ meets' => ih (by omega) mode' meets')

end Sweep

end Bpfs
