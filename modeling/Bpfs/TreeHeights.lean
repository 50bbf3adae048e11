import Bpfs.DiskFull
import Bpfs.TreeBytes
import Mathlib.Data.List.Perm.Subperm

/-! `tree_change_height` and the contents of the file, for every height a root can have. The
capacity of six and more levels does not fit in 64 bits, and the loop that marks the entries of a
new block as sparse then stops before its first round. -/

namespace Bpfs
open Lib

variable {s : Fs}

/-- Capacity of a tree as the code computes it. -/
def capacity (h : Nat) : Nat := u64 (span h)

theorem capacity_of_low {h : Nat} (low : h ≤ 5) : capacity h = span h := Nat.mod_eq_of_lt (span_lt low)

theorem capacity_of_high {h : Nat} (high : 6 ≤ h) : capacity h = 0 := by
  have split : span h = 2 ^ 66 * 512 ^ (h - 6) := by
    rw [span, ← Nat.sub_add_cancel high, Nat.pow_add, Nat.add_sub_cancel, blockSize]
    omega
  rw [capacity, split, u64]
  omega

theorem capacity_succ (h : Nat) : u64 (blocknosPerIndir * capacity h) = capacity (h + 1) := by
  simp only [capacity, span_succ, u64, blocknosPerIndir]
  omega

theorem treeMaxNblocks_capacity {h : Nat} (low : h < 8) : u64 (blockSize * treeMaxNblocks h) = capacity h := by
  by_cases short : h ≤ 6
  · rw [treeMaxNblocks_eq short]
    rfl
  · obtain rfl : h = 7 := by omega
    decide

theorem span_six_gt {n h : Nat} (small : n < 2 ^ 64) (high : 6 ≤ h) : n < span h := by
  have more : span 6 ≤ span h := span_mono high
  have : span 6 = 2 ^ 66 := by decide
  omega

/-- In memory `m`, blocks of `N` lead from `p'` down to the tree of height `h` at `p`: each has the
tree below as its first entry, no other entry that a file of `g` bytes would have while five
levels are enough, and above that the entries it had in `old`. -/
def Lifted (N : Nat → Prop) (old m : Mem) (g : Nat) : Nat → Nat → Nat → Nat → Prop
  | _, p, 0, p' => p' = p
  | h, p, n + 1, p' => ∃ b, N b ∧ addrAt m b 0 = p ∧
      (h ≤ 4 → ∀ k, 1 ≤ k → k < 512 → k * span h < g → addrAt m b k = 0) ∧
      (5 ≤ h → ∀ k, 1 ≤ k → k < 512 → addrAt m b k = addrAt old b k) ∧ Lifted N old m g (h + 1) b n p'

section Lifted

variable {N : Nat → Prop} {old m : Mem} {g h p n p' y : Nat}

theorem Lifted.rebase {N' : Nat → Prop} {old' : Mem} (lifted : Lifted N old m g h p n p') (larger : ∀ x, N x → N' x)
    (memory : ∀ x, N x → old x = old' x) : Lifted N' old' m g h p n p' := by
  induction n generalizing h p with
  | zero => exact lifted
  | succ n ih =>
    obtain ⟨b, new, first, sparse, stale, rest⟩ := lifted
    refine ⟨b, larger b new, first, sparse, ?_, ih rest⟩
    intro high k one small
    rw [stale high k one small]
    exact addrAt_congr (memory b new) k

theorem Lifted.congr {m' : Mem} (lifted : Lifted N old m g h p n p') (same : ∀ x, N x → m' x = m x) :
    Lifted N old m' g h p n p' := by
  induction n generalizing h p with
  | zero => exact lifted
  | succ n ih =>
    obtain ⟨b, new, first, sparse, stale, rest⟩ := lifted
    have kept := addrAt_congr (same b new)
    refine ⟨b, new, by rw [kept, first], ?_, ?_, ih rest⟩
    · intro low k one small inside
      rw [kept]
      exact sparse low k one small inside
    · intro high k one small
      rw [kept]
      exact stale high k one small

theorem Lifted.top (lifted : Lifted N old m g h p (n + 1) p') : N p' := by
  induction n generalizing h p with
  | zero =>
    obtain ⟨b, new, _, _, _, rest⟩ := lifted
    have top : p' = b := rest
    rwa [top]
  | succ n ih =>
    obtain ⟨b, _, _, _, _, rest⟩ := lifted
    exact ih rest

/-- Beyond the tree below, a new block has nothing but holes in the file, unless the entries that
six levels make valid were left as they were. -/
theorem sparse_beyond {b : Nat} (sparse : h ≤ 4 → ∀ k, 1 ≤ k → k < 512 → k * span h < g → addrAt m b k = 0)
    (small : g < 2 ^ 64) (narrow : h ≠ 5 ∨ g ≤ span 5) (below : y < g) (late : span h ≤ y) (under : y < span (h + 1)) :
    addrAt m b (y / span h) = 0 := by
  have low : h ≤ 4 := by
    by_contra high
    rcases narrow with other | short
    · have := span_six_gt (lt_trans below small) (show 6 ≤ h by omega)
      omega
    · have : span 5 ≤ span h := span_mono (by omega)
      omega
  have index : y / span h < 512 := by
    rw [Nat.div_lt_iff_lt_mul (span_pos h), ← span_succ]
    exact under
  have later : 1 ≤ y / span h := (Nat.one_le_div_iff (span_pos h)).mpr late
  exact sparse low _ later index (lt_of_le_of_lt (Nat.div_mul_le_self _ _) below)

theorem fileByte_lift {b : Nat} (present : b ≠ 0) (first : addrAt m b 0 = p)
    (sparse : h ≤ 4 → ∀ k, 1 ≤ k → k < 512 → k * span h < g → addrAt m b k = 0)
    (small : g < 2 ^ 64) (narrow : h ≠ 5 ∨ g ≤ span 5) (below : y < g) :
    fileByte m (h + 1) b y = fileByte m h p y := by
  have wider : span h ≤ span (h + 1) := span_mono (Nat.le_succ h)
  by_cases inside : y < span h
  · rw [fileByte, fileByte, if_pos inside, if_pos (lt_of_lt_of_le inside wider), treeByte_first present inside, first]
  rw [fileByte, fileByte, if_neg inside]
  split
  · next under =>
    rw [treeByte_succ present, sparse_beyond sparse small narrow below (by omega) under, treeByte_hole]
  · rfl

theorem Lifted.fileByte (lifted : Lifted N old m g h p n p') (nonzero : ∀ x, N x → x ≠ 0) (small : g < 2 ^ 64)
    (narrow : h + n ≤ 5 ∨ g ≤ span 5 ∨ 6 ≤ h) (below : y < g) : fileByte m (h + n) p' y = fileByte m h p y := by
  induction n generalizing h p with
  | zero =>
    have same : p' = p := lifted
    rw [same]
    rfl
  | succ n ih =>
    obtain ⟨b, new, first, sparse, _, rest⟩ := lifted
    have step := fileByte_lift (nonzero b new) first sparse small (by omega) below
    rw [← step, ← ih rest (by omega), show h + (n + 1) = h + 1 + n by omega]

/-- The way to a byte leads through the new blocks into the old tree. -/
theorem Lifted.path (lifted : Lifted N old m g h p n p') (nonzero : ∀ x, N x → x ≠ 0) (small : g < 2 ^ 64)
    (narrow : h + n ≤ 5 ∨ g ≤ span 5 ∨ 6 ≤ h) (below : y < g) {b : Nat} (member : b ∈ treePath m (h + n) p' y)
    (inside : y < span (h + n)) : N b ∨ (y < span h ∧ b ∈ treePath m h p y) := by
  induction n generalizing h p with
  | zero =>
    have same : p' = p := lifted
    rw [same] at member
    exact .inr ⟨inside, member⟩
  | succ n ih =>
    obtain ⟨c, new, first, sparse, _, rest⟩ := lifted
    rw [show h + (n + 1) = h + 1 + n by omega] at member inside
    rcases ih rest (by omega) member inside with found | ⟨under, member⟩
    · exact .inl found
    by_cases early : y < span h
    · rw [treePath_first (nonzero c new) early, first] at member
      rcases List.mem_cons.mp member with rfl | later
      · exact .inl new
      · exact .inr ⟨early, later⟩
    rw [treePath_succ (nonzero c new), sparse_beyond sparse small (by omega) below (by omega) under,
      treePath_hole] at member
    rcases List.mem_cons.mp member with rfl | never
    · exact .inl new
    · cases never

end Lifted

/-- `alloc_block` and the test of its result, when it is also known why it fails. -/
theorem wp_take_or {α : Type} (ok : s.Ok) {next : Nat → M α} {Q : α → Fs → Prop} {E : Err → Fs → Prop}
    (taken : ∀ b t, Fresh s b ∅ t → t.bpram = s.bpram → b ≠ 0 → b < 2 ^ 63 → wp (next b) Q E t)
    (full : ∀ t, NoSpace s t → (¬∃ x, Unused s x) → E .enospc t) :
    wp (do
      let b ← allocBlock
      if b = blocknoInvalid then throw .enospc
      next b) Q E s := by
  simp only [wp_bind]
  by_cases free : ∃ x, Unused s x
  · apply wp_mono (allocBlock_free ok free) _ (fun _ _ impossible => impossible.elim)
    rintro b t ⟨fresh, memory, -⟩
    have low := fresh.unused.1
    have high := fresh.unused.lt ok
    have positive : b ≠ blocknoInvalid := by simp only [blocknoInvalid]; omega
    simp only [if_neg positive]
    exact taken b t fresh memory positive (by omega)
  · apply wp_mono (allocBlock_full ok free) _ (fun _ _ impossible => impossible.elim)
    rintro b t ⟨rfl, noSpace⟩
    simp only [blocknoInvalid, if_true, wp_bind, wp_throw]
    exact full t noSpace free

/-- From `s` to `t`, `n` levels were put on the tree of height `h` at `p`, which is now at `p'`. -/
structure Lift (s : Fs) (g h p n p' : Nat) (t : Fs) : Prop where
  grow : Grow s t
  still : Through (fun m => ∀ y, Held s y → m y = s.bpram y) s t
  freed : ∀ y, Freed t y ↔ Freed s y
  lifted : Lifted (Taken s t) s.bpram t.bpram g h p n p'

/-- `n` levels could not be put on the tree, as there were fewer than `n` blocks to be had. -/
structure Refused (s : Fs) (n : Nat) (e : Err) (t : Fs) : Prop where
  error : e = .enospc
  still : Through (fun m => ∀ y, Held s y → m y = s.bpram y) s t
  few : ∃ l : List Nat, l.length < n ∧ ∀ x, Unused s x → x ∈ l

/-- What is known of the new block of one level before the next. -/
structure Level (s : Fs) (g h p b : Nat) (u : Fs) : Prop where
  fresh : Fresh s b ∅ u
  first : addrAt u.bpram b 0 = p
  sparse : h ≤ 4 → ∀ k, 1 ≤ k → k < 512 → k * span h < g → addrAt u.bpram b k = 0
  stale : 5 ≤ h → ∀ k, 1 ≤ k → k < 512 → addrAt u.bpram b k = addrAt s.bpram b k

namespace Level

variable {g h p b n p' : Nat} {u t : Fs} (level : Level s g h p b u) (ok : s.Ok)

include level ok

theorem other {y : Nat} (held : Held s y) : y ≠ b := by
  rintro rfl
  exact level.fresh.unused.not_held ok held

theorem still : Through (fun m => ∀ y, Held s y → m y = s.bpram y) s u :=
  level.fresh.through.mono fun _ agree y held => agree y (level.other ok held)

/-- The levels above, built from here on, are above the tree as it was before. -/
theorem still_trans (above : Through (fun m => ∀ y, Held u y → m y = u.bpram y) u t) :
    Through (fun m => ∀ y, Held s y → m y = s.bpram y) s t := by
  apply (level.still ok).trans
  apply above.mono
  intro m agree y held
  rw [agree y (level.fresh.grow.held held)]
  exact (level.still ok).last y held

theorem lift (above : Lift u g (h + 1) b n p' t) : Lift s g h p (n + 1) p' t where
  grow := level.fresh.grow.trans above.grow
  still := level.still_trans ok above.still
  freed y := by
    rw [above.freed, level.fresh.freed]
    simp
  lifted := by
    have used : Allocated u b := (level.fresh.allocated b).mpr (.inr rfl)
    have kept := addrAt_congr (above.still.last b (.inl used))
    have memory : ∀ x, Taken u t x → u.bpram x = s.bpram x := by
      intro x taken
      apply level.fresh.through.last
      rintro rfl
      exact taken.1.2.2 used
    refine ⟨b, ⟨level.fresh.unused, above.grow.allocated used⟩, by rw [kept, level.first], ?_, ?_, ?_⟩
    · intro low k one small inside
      rw [kept]
      exact level.sparse low k one small inside
    · intro high k one small
      rw [kept]
      exact level.stale high k one small
    · exact above.lifted.rebase (fun x taken => level.fresh.grow.taken above.grow (.inr taken)) memory

theorem refused {e : Err} (above : Refused u n e t) : Refused s (n + 1) e t where
  error := above.error
  still := level.still_trans ok above.still
  few := by
    obtain ⟨l, short, all⟩ := above.few
    refine ⟨b :: l, by rw [List.length_cons]; omega, fun x unused => ?_⟩
    by_cases same : x = b
    · rw [same]
      exact List.mem_cons_self
    · apply List.mem_cons_of_mem
      apply all
      refine ⟨unused.1, by rw [level.fresh.grow.total]; exact unused.2.1, fun used => ?_⟩
      rcases (level.fresh.allocated x).mp used with old | new
      · exact unused.2.2 old
      · exact same new

end Level

theorem markSparse_none {b step next : Nat} (none : next = 0) (n i valid : Nat) :
    markSparse b step next n i valid = pure () := by
  subst none
  cases n with
  | zero => rfl
  | succ n => rw [markSparse, if_neg (Nat.not_lt_zero _)]

/-- The growing loop of `tree_change_height`, at any height. -/
theorem growTree_lifts {g R o n h p : Nat} (ok : s.Ok) (held : Held s R) (nbytes : rootNbytes s.bpram ⟨.bpram R, o⟩ = g)
    (word : p < 2 ^ 64) :
    wp (growTree ⟨.bpram R, o⟩ n (capacity h) p) (fun p' t => Lift s g h p n p' t) (fun e t => Refused s n e t) s := by
  induction n generalizing h p s with
  | zero => exact ⟨.refl s, Through.still rfl rfl (fun _ _ => rfl), fun _ => Iff.rfl, rfl⟩
  | succ n ih =>
    unfold growTree
    rw [capacity_succ]
    refine wp_take_or ok ?_ ?_
    · intro b t fresh memory positive small
      have linked := fresh.store (w := slotWrite b 0 p) rfl
      have entry : addrAt (t.store (slotWrite b 0 p)).bpram b 0 = p := addrAt_slotWrite word
      have other : R ≠ b := by
        rintro rfl
        exact fresh.unused.not_held ok held
      have length : rootNbytes (t.store (slotWrite b 0 p)).bpram ⟨.bpram R, o⟩ = g := by
        rw [← nbytes]
        exact rootNbytes_congr (linked.through.last R other)
      have rest : ∀ u, Level s g h p b u → wp (growTree ⟨.bpram R, o⟩ n (capacity (h + 1)) b)
          (fun p' t => Lift s g h p (n + 1) p' t) (fun e t => Refused s (n + 1) e t) u := by
        intro u level
        have lengthU : rootNbytes u.bpram ⟨.bpram R, o⟩ = g := by
          rw [← nbytes]
          exact rootNbytes_congr ((level.still ok).last R held)
        refine wp_mono (ih (level.fresh.grow.ok ok) (level.fresh.grow.held held) lengthU (by omega)) ?_ ?_
        · exact fun p' v above => level.lift ok above
        · exact fun e v above => level.refused ok above
      rw [wp_bind, wp_getBlock positive small, wp_bind, wp_storeAddr, wp_bind, wp_get, length, wp_ite]
      have stale : ∀ k, 1 ≤ k → addrAt (t.store (slotWrite b 0 p)).bpram b k = addrAt s.bpram b k := by
        intro k one
        rw [store_bpram, addrAt_slotWrite_other (.inr (by omega)), memory]
      constructor
      · intro sparse
        rw [wp_bind]
        by_cases low : h ≤ 4
        · rw [capacity_of_low (show h ≤ 5 by omega), capacity_of_low (show h + 1 ≤ 5 by omega)]
          refine wp_mono (markSparse_spec linked _ _ _ _ _) ?_ (fun _ _ never => never.elim)
          rintro - u ⟨freshU, entries⟩
          rw [← capacity_of_low (show h + 1 ≤ 5 by omega)]
          refine rest u ⟨freshU, ((entries 0).1 (by decide)).trans entry, ?_, fun high => absurd low (by omega)⟩
          intro _ k first last inside
          refine (entries k).2 first (by simp only [blocknosPerIndir]; omega) ?_
          obtain ⟨d, rfl⟩ : ∃ d, k = d + 1 := ⟨k - 1, by omega⟩
          have room := mul_span_le (h := h) last
          have pos := span_pos h
          rw [Nat.succ_mul] at *
          rw [Nat.add_sub_cancel]
          omega
        · -- the capacity of six levels is 0 modulo 2^64: the loop has no round
          rw [markSparse_none (show min g (capacity (h + 1)) = 0 by rw [capacity_of_high (by omega), Nat.min_zero]),
            wp_pure]
          exact rest _ ⟨linked, entry, fun short => absurd short low, fun _ k one _ => stale k one⟩
      · intro full
        refine rest _ ⟨linked, entry, fun low k first last inside => ?_, fun _ k one _ => stale k one⟩
        rw [capacity_of_low (show h ≤ 5 by omega)] at full
        have := Nat.le_mul_of_pos_left (span h) first
        omega
    · intro t full none
      exact ⟨rfl, Through.still full.writes full.bpram (fun _ _ => rfl), [], Nat.succ_pos n, fun x unused => absurd ⟨x, unused⟩ none⟩

/-- The tree that shrinking ends at: the first `span h` bytes are the same, in the same blocks. -/
structure Follows (m : Mem) (h p h' q : Nat) : Prop where
  bytes : ∀ y, y < span h' → treeByte m h p y = treeByte m h' q y
  path : ∀ y, y < span h' → ∀ b ∈ treePath m h' q y, b ∈ treePath m h p y
  small : q < 2 ^ 61

/-- The shrinking loop of `tree_change_height`. -/
theorem shrinkTree_spec {h' n p : Nat} (small : p < 2 ^ 61)
    (resident : ∀ b ∈ treePath s.bpram (h' + n) p 0, b < 2 ^ 61) :
    wp (shrinkTree n p) (fun q t => t = s ∧ Follows s.bpram (h' + n) p h' q) (fun _ _ => False) s := by
  induction n generalizing p with
  | zero => exact ⟨rfl, fun _ _ => rfl, fun _ _ _ member => member, small⟩
  | succ n ih =>
    unfold shrinkTree
    by_cases hole : p = 0
    · rw [if_pos (show p = blocknoInvalid from hole), wp_pure, hole]
      exact ⟨rfl, fun y _ => by simp, fun y _ b member => by simp at member, by decide⟩
    have tall : h' + (n + 1) = h' + n + 1 := by omega
    rw [tall, treePath_first hole (span_pos _)] at resident
    have next : addrAt s.bpram p 0 < 2 ^ 61 := by
      by_cases absent : addrAt s.bpram p 0 = 0
      · omega
      · exact resident _ (List.mem_cons_of_mem _ (mem_treePath_self absent))
    rw [if_neg (show ¬p = blocknoInvalid from hole), wp_bind, wp_getBlock hole (by omega), wp_bind, wp_loadAddr (by decide)]
    refine wp_mono (ih next fun b member => resident b (List.mem_cons_of_mem _ member)) ?_ (fun _ _ never => never)
    rintro q t ⟨rfl, follows⟩
    have wider : span h' ≤ span (h' + n) := span_mono (by omega)
    refine ⟨rfl, fun y below => ?_, fun y below b member => ?_, follows.small⟩
    · rw [tall, treeByte_first hole (lt_of_lt_of_le below wider)]
      exact follows.bytes y below
    · rw [tall, treePath_first hole (lt_of_lt_of_le below wider)]
      exact List.mem_cons_of_mem _ (follows.path y below b member)

/-- A file of `n` bytes with its root at offset `o` of block `R` and its tree, of height `h` and at
`p`, in NVM. Nothing is asked of what lies beyond the `n` bytes. -/
structure Rooted (s : Fs) (R o h p n : Nat) : Prop where
  ok : s.Ok
  root : RootIs s.bpram R o h p n
  inside : o + 16 ≤ blockSize
  block : 3 ≤ R ∧ Allocated s R ∧ ¬Freed s R
  resident : ∀ y, y < n → y < span h → ∀ b ∈ treePath s.bpram h p y, Allocated s b ∧ b ≠ R

/-- The memory `m` has the file of `s`. -/
def SameFile (s : Fs) (R o n : Nat) (m : Mem) : Prop := Reads m R o n (rootByte s.bpram R o)

namespace Rooted

variable {R o h p n : Nat} (rooted : Rooted s R o h p n)

include rooted

theorem rootByte_eq {y : Nat} (below : y < n) : rootByte s.bpram R o y = fileByte s.bpram h p y :=
  rooted.root.rootByte (by omega) y

/-- Stores to blocks that are not in use do not reach the file. -/
theorem same_of_held {m : Mem} (kept : ∀ y, Held s y → m y = s.bpram y) : SameFile s R o n m := by
  have root : RootIs m R o h p n := rooted.root.congr fun k _ _ => by rw [kept R (.inl rooted.block.2.1)]
  apply root.reads
  intro y below
  rw [rooted.rootByte_eq below]
  exact fileByte_congr fun inside b member => kept b (.inl (rooted.resident y below inside b member).1)

end Rooted

/-- From `s` to `u` a tree of height `h'` at `q` with the same file was made out of unused blocks. -/
structure Replaced (s : Fs) (R h p n h' q : Nat) (u : Fs) : Prop where
  grow : Grow s u
  still : Through (fun m => ∀ y, Held s y → m y = s.bpram y) s u
  freed : ∀ y, Freed u y ↔ Freed s y
  small : q < 2 ^ 61
  bytes : ∀ y, y < n → fileByte u.bpram h' q y = fileByte s.bpram h p y
  path : ∀ y, y < n → y < span h' → ∀ b ∈ treePath u.bpram h' q y, Allocated u b ∧ b ≠ R

namespace Replaced

variable {R o h p n h' q : Nat} {u : Fs} (rooted : Rooted s R o h p n) (replaced : Replaced s R h p n h' q u)

include rooted replaced

theorem root : RootIs u.bpram R o h p n :=
  rooted.root.congr fun k _ _ => by rw [replaced.still.last R (.inl rooted.block.2.1)]

/-- The new height and address, stored in a root block that is not part of the tree, give the same file. -/
theorem reads_of_store {m : Mem} {R' : Nat} (low : h' < 8) (root : RootIs m R' o h p n)
    (same : ∀ b, Allocated u b → b ≠ R → m b = u.bpram b) (apart : ∀ b, Allocated u b → b ≠ R → b ≠ R') :
    Reads (m.apply (wordWrite R' o (8 * q + h'))) R' o n (rootByte s.bpram R o) := by
  by_cases none : n = 0
  · subst none
    exact ⟨(root.setHa_empty low replaced.small).nbytes, fun y never => absurd never (Nat.not_lt_zero y)⟩
  apply (root.setHa low replaced.small none).reads
  intro y below
  rw [rooted.rootByte_eq below, ← replaced.bytes y below]
  apply fileByte_congr
  intro inside b member
  obtain ⟨used, other⟩ := replaced.path y below inside b member
  rw [apply_other (show b ≠ (wordWrite R' o (8 * q + h')).blk from apart b used other)]
  exact same b used other

/-- The end of `tree_change_height`. -/
theorem finish {commit : Commit} (low : h' < 8) :
    wp (if commit = .copy then do
          let newBlockno ← cowBlockEntire R
          haSet ⟨.bpram newBlockno, o⟩ h' q
          pure newBlockno
        else do
          haSet ⟨.bpram R, o⟩ h' q
          pure R)
      (fun R' t => Reads t.bpram R' o n (rootByte s.bpram R o) ∧ Through (SameFile s R o n) s t)
      (fun e t => e = .enospc ∧ Through (SameFile s R o n) s t) u := by
  have before : Through (SameFile s R o n) s u := replaced.still.mono fun m kept => rooted.same_of_held kept
  have usedR := replaced.grow.allocated rooted.block.2.1
  rw [wp_ite]
  constructor
  · intro _
    rw [wp_bind]
    have keptR : ¬Freed u R := by
      rw [replaced.freed]
      exact rooted.block.2.2
    refine wp_mono (cowBlockEntire_spec (replaced.grow.ok rooted.ok) rooted.block.1 usedR keptR) ?_ ?_
    · rintro b t ⟨fresh, copied⟩
      rw [wp_bind, wp_haSet low replaced.small, wp_pure]
      have apart : ∀ x, Allocated u x → x ≠ b := by
        rintro x used rfl
        exact fresh.unused.2.2 used
      have inside := rooted.inside
      constructor
      · apply replaced.reads_of_store rooted low
        · exact (replaced.root rooted).congr fun k _ above => copied k (by omega)
        · exact fun x used _ => fresh.through.last x (apart x used)
        · exact fun x used _ => apart x used
      · have later := (fresh.store (w := wordWrite b o (8 * q + h')) rfl).through
        apply before.trans
        apply later.mono
        intro m agree
        apply rooted.same_of_held
        intro y held
        rw [agree y, replaced.still.last y held]
        rintro rfl
        exact fresh.unused.not_held (replaced.grow.ok rooted.ok) (replaced.grow.held held)
    · rintro e t ⟨enospc, full⟩
      exact ⟨enospc, before.trans (Through.still full.writes full.bpram before.last)⟩
  · intro _
    rw [wp_bind, wp_haSet low replaced.small, wp_pure]
    have after := replaced.reads_of_store rooted low (replaced.root rooted) (fun _ _ _ => rfl) (fun _ _ other => other)
    exact ⟨after, before.trans (through_store before.last after fun loose => by cases loose)⟩

end Replaced

/-- Changing the height of the file's tree to `h'` keeps the file, at the end and in every memory a
crash could leave on the way; it may fail for want of blocks. -/
def Preserves (s : Fs) (R o n h' : Nat) (commit : Commit) : Prop :=
  wp (treeChangeHeight ⟨.bpram R, o⟩ h' commit R)
    (fun R' t => Reads t.bpram R' o n (rootByte s.bpram R o) ∧ Through (SameFile s R o n) s t)
    (fun e t => e = .enospc ∧ Through (SameFile s R o n) s t) s

/-- Growing past five levels leaves entries of the sixth as they were when the file has more bytes
than five levels hold. -/
def Overgrows (n h h' : Nat) : Prop := h ≤ 5 ∧ 5 < h' ∧ 2 ^ 57 < n

namespace Rooted

variable {R o h p n h' q : Nat} {t : Fs} (rooted : Rooted s R o h p n)

include rooted

theorem replaced_lift (taller : h ≤ h') (narrow : ¬Overgrows n h h') (lift : Lift s n h p (h' - h) q t) :
    Replaced s R h p n h' q t := by
  have total : h + (h' - h) = h' := by omega
  have top : span 5 = 2 ^ 57 := by decide
  have small := rooted.root.nbytes_lt
  have limits : h + (h' - h) ≤ 5 ∨ n ≤ span 5 ∨ 6 ≤ h := by
    unfold Overgrows at narrow
    omega
  have nonzero : ∀ x, Taken s t x → x ≠ 0 := by
    rintro x taken rfl
    exact absurd taken.1.1 (by decide)
  have old : ∀ y, y < n → y < span h → ∀ b ∈ treePath s.bpram h p y, t.bpram b = s.bpram b :=
    fun y below inside b member => lift.still.last b (.inl (rooted.resident y below inside b member).1)
  refine ⟨lift.grow, lift.still, lift.freed, ?_, ?_, ?_⟩
  · cases levels : h' - h with
    | zero =>
      have same := lift.lifted
      rw [levels] at same
      have same : q = p := same
      rw [same]
      exact rooted.root.addr_lt
    | succ k =>
      have built := lift.lifted
      rw [levels] at built
      exact built.top.1.lt rooted.ok
  · intro y below
    have kept := lift.lifted.fileByte nonzero small limits below
    rw [total] at kept
    rw [kept]
    exact fileByte_congr fun inside b member => old y below inside b member
  · intro y below inside b member
    rw [← total] at member inside
    rcases lift.lifted.path nonzero small limits below member inside with taken | ⟨early, inner⟩
    · refine ⟨taken.2, ?_⟩
      rintro rfl
      exact taken.1.2.2 rooted.block.2.1
    · rw [treePath_congr (old y below early)] at inner
      obtain ⟨used, other⟩ := rooted.resident y below early b inner
      exact ⟨lift.grow.allocated used, other⟩

omit rooted in
theorem replaced_hole (hole : n = 0 ∨ p = 0) : Replaced s R h p n h' 0 s := by
  refine ⟨.refl s, Through.still rfl rfl (fun _ _ => rfl), fun _ => Iff.rfl, by decide, ?_, ?_⟩
  · intro y below
    rw [hole.resolve_left (by omega), fileByte_hole, fileByte_hole]
  · intro y _ _ b member
    rw [treePath_hole] at member
    cases member

theorem replaced_shrink (fits : n ≤ span h') (shorter : h' ≤ h) (follows : Follows s.bpram h p h' q) :
    Replaced s R h p n h' q s := by
  have wider := span_mono shorter
  refine ⟨.refl s, Through.still rfl rfl (fun _ _ => rfl), fun _ => Iff.rfl, follows.small, ?_, ?_⟩
  · intro y below
    rw [fileByte, fileByte, if_pos (by omega), if_pos (by omega)]
    exact (follows.bytes y (by omega)).symm
  · intro y below inside b member
    exact rooted.resident y below (by omega) b (follows.path y inside b member)

theorem preserves {commit : Commit} (writes : commit ≠ .none) (low : h' < 8)
    (fits : n ≠ 0 → h' < h → n ≤ span h') (narrow : ¬Overgrows n h h') : Preserves s R o n h' commit := by
  have height := rooted.root.treeRootHeight
  have tall := rooted.root.height_lt
  have addr := rooted.root.addr_lt
  unfold Preserves treeChangeHeight
  simp only [wp_bind, wp_get, wp_check, height, rooted.root.nbytes, rooted.root.addr]
  refine ⟨fun _ => ?_, fun wrong => absurd writes wrong⟩
  by_cases same : (if n = 0 then 0 else h) = h'
  · rw [if_pos same, wp_pure]
    have now := rooted.same_of_held (fun _ _ => rfl)
    exact ⟨now, Through.still rfl rfl now⟩
  rw [if_neg same]
  by_cases taller : (if n = 0 then 0 else h) < h'
  · rw [if_pos taller]
    by_cases whole : n ≠ 0 ∧ p ≠ blocknoInvalid
    · rw [if_neg whole.1] at taller
      rw [if_pos whole, if_neg whole.1, treeMaxNblocks_capacity tall, wp_bind]
      refine wp_mono (growTree_lifts rooted.ok (.inl rooted.block.2.1) rooted.root.nbytes (by omega)) ?_ ?_
      · intro q t lift
        exact (rooted.replaced_lift taller.le narrow lift).finish rooted low
      · intro e t refused
        exact ⟨refused.error, refused.still.mono fun m kept => rooted.same_of_held kept⟩
    · rw [if_neg whole, wp_bind, wp_pure]
      have hole : n = 0 ∨ p = 0 := by
        by_contra neither
        exact whole ⟨fun none => neither (.inl none), fun none => neither (.inr none)⟩
      exact (replaced_hole hole).finish rooted low
  · rw [if_neg taller, wp_bind]
    have some : n ≠ 0 := by
      rintro rfl
      rw [if_pos rfl] at same taller
      omega
    rw [if_neg some] at same taller ⊢
    have resident : ∀ b ∈ treePath s.bpram (h' + (h - h')) p 0, b < 2 ^ 61 := by
      rw [show h' + (h - h') = h by omega]
      intro b member
      exact (rooted.resident 0 (by omega) (span_pos h) b member).1.lt rooted.ok
    refine wp_mono (shrinkTree_spec addr resident) ?_ (fun _ _ never => never.elim)
    rintro q t ⟨rfl, follows⟩
    rw [show h' + (h - h') = h by omega] at follows
    exact (rooted.replaced_shrink (fits some (by omega)) (by omega) follows).finish rooted low

end Rooted

/-- A block whose entries are all its own number reads as that number at every height. -/
theorem treeByte_loop {m : Mem} (entry : addrAt m 5 0 = 5) (byte : m 5 0 = 5) (h : Nat) : treeByte m h 5 0 = 5 := by
  induction h with
  | zero => rw [treeByte, if_neg (by decide), byte]
  | succ h ih => rw [treeByte_first (by decide) (span_pos h), entry, ih]

/-- The sixth level shows what its block held before. -/
theorem Lifted.shows_stale {N : Nat → Prop} {old m : Mem} {g h p n p' : Nat} (lifted : Lifted N old m g h p n p')
    (nonzero : ∀ x, N x → x ≠ 0) (small : g < 2 ^ 64) (low : h ≤ 5) (high : 5 < h + n) (more : 2 ^ 57 < g)
    (numbers : ∀ x, N x → addrAt old x 1 = 5) (entry : addrAt m 5 0 = 5) (byte : m 5 0 = 5) :
    Bpfs.fileByte m (h + n) p' (2 ^ 57) = 5 := by
  induction n generalizing h p with
  | zero => omega
  | succ n ih =>
    obtain ⟨b, new, first, sparse, left, rest⟩ := lifted
    rw [show h + (n + 1) = h + 1 + n by omega]
    by_cases top : h = 5
    · subst top
      rw [rest.fileByte nonzero small (.inr (.inr (by decide))) more, Bpfs.fileByte, if_pos (by decide),
        treeByte_succ (nonzero b new), show 2 ^ 57 / span 5 = 1 by decide, show 2 ^ 57 % span 5 = 0 by decide,
        left (by decide) 1 (by decide) (by decide), numbers b new, treeByte_loop entry byte]
    · exact ih rest (by omega) (by omega)

/-- The file changes when its tree grows past five levels, if the blocks that are not in use lead to
block 5 and there are enough of them. -/
theorem Rooted.overgrown {R o h p n h' y : Nat} (last : y = 2 ^ 57) (rooted : Rooted s R o h p n) (present : p ≠ 0) (low' : h' < 8)
    (overgrows : Overgrows n h h') (used : Allocated s 5) (other : 5 ≠ R) (entry : addrAt s.bpram 5 0 = 5)
    (byte : s.bpram 5 0 = 5) (numbers : ∀ x, Unused s x → addrAt s.bpram x 1 = 5)
    (room : ∀ k e t, k ≤ 7 → ¬Refused s k e t) :
    wp (treeChangeHeight ⟨.bpram R, o⟩ h' .atomic R) (fun _ t => rootByte t.bpram R o y = 5) (fun _ _ => False) s := by
  have low := overgrows.1
  have high := overgrows.2.1
  have more := overgrows.2.2
  have some : n ≠ 0 := by omega
  have height := rooted.root.treeRootHeight
  have addr := rooted.root.addr_lt
  have tall := rooted.root.height_lt
  have atomic : Commit.atomic ≠ .none ∧ Commit.atomic ≠ .copy := by decide
  rw [if_neg some] at height
  unfold treeChangeHeight
  simp only [wp_bind, wp_get, wp_check, height, rooted.root.nbytes, rooted.root.addr, if_neg atomic.2]
  refine ⟨fun _ => ?_, fun wrong => absurd atomic.1 wrong⟩
  rw [if_neg (show ¬h = h' by omega), if_pos (show h < h' by omega), if_pos ⟨some, present⟩,
    treeMaxNblocks_capacity tall, wp_bind]
  refine wp_mono (growTree_lifts rooted.ok (.inl rooted.block.2.1) rooted.root.nbytes (by omega)) ?_ ?_
  · intro q t lift
    have total : h + (h' - h) = h' := by omega
    have apart : ∀ x, Taken s t x → x ≠ R := by
      rintro x taken rfl
      exact taken.1.2.2 rooted.block.2.1
    have nonzero : ∀ x, Taken s t x → x ≠ 0 := by
      rintro x taken rfl
      exact absurd taken.1.1 (by decide)
    have small : q < 2 ^ 61 := by
      have built := lift.lifted
      rw [show h' - h = h' - h - 1 + 1 by omega] at built
      exact built.top.1.lt rooted.ok
    have rootT : RootIs t.bpram R o h p n :=
      rooted.root.congr fun k _ _ => by rw [lift.still.last R (.inl rooted.block.2.1)]
    rw [wp_bind, wp_haSet low' small, wp_pure, store_bpram, (rootT.setHa low' small some).rootByte some]
    have away : ∀ x, x ≠ R → t.bpram.apply (wordWrite R o (8 * q + h')) x = t.bpram x := fun x ne => apply_other ne
    have five : t.bpram.apply (wordWrite R o (8 * q + h')) 5 = s.bpram 5 :=
      (away 5 other).trans (lift.still.last 5 (.inl used))
    have built := lift.lifted.congr fun x taken => away x (apart x taken)
    have shown := built.shows_stale nonzero rooted.root.nbytes_lt low (by omega) more
      (fun x taken => numbers x taken.1) (by rw [addrAt_congr five, entry]) (by rw [five, byte])
    rwa [total, ← last] at shown
  · intro e t refused
    exact room _ e t (by omega) refused

section Stale

/-- A file of `n` bytes with its root in block 3 and a tree of holes at block 4. Block 5 and every
block that is not in use are full of the number 5. -/
def stale (n h : Nat) : Fs where
  bpram b k :=
    if b = 3 then if k < 8 then leByte (8 * 4 + h) k else if k < 16 then leByte n (k - 8) else 0
    else if b = 4 then 0
    else if k % 8 = 0 then 5 else 0
  blockAlloc := ⟨fun k => if k = 0 then 31 else 0, 64, 59, [], [], 0⟩
  inodeAlloc := ⟨fun _ => 0, 0, 0, [], [], 0⟩
  disk := DiskManager.initializeDiskManager (8 * blockSize) blockSize (fun _ => 0) 0
  indirMapping _ := 0
  currentIndirPointer := 0
  treeNblocksNblocks := 0
  iov := []
  inode := (.zeroBlock, 0)
  writes := []
  allocFailures := 0
  cacheCalls := []
  mappingAccesses := []

variable {n h : Nat}

theorem stale_bitmap : (stale n h).blockAlloc = ⟨fun k => if k = 0 then 31 else 0, 64, 59, [], [], 0⟩ := rfl

theorem stale_bit (k : Nat) : (stale n h).blockAlloc.bit k = decide (k < 5) := by
  have byte : ∀ j, j < 8 → (31 : UInt8).toNat.testBit j = decide (j < 5) := by decide
  change (if k / 8 = 0 then (31 : UInt8) else 0).toNat.testBit (k % 8) = _
  by_cases first : k / 8 = 0
  · rw [if_pos first, byte _ (Nat.mod_lt _ (by decide)), Nat.mod_eq_of_lt (by omega)]
  · rw [if_neg first, show decide (k < 5) = false from decide_eq_false (by omega)]
    exact Nat.zero_testBit _

theorem stale_ok : (stale n h).Ok where
  wf := by
    rw [stale_bitmap]
    exact ⟨rfl, fun _ member => absurd member List.not_mem_nil, List.nodup_nil,
      fun _ member => absurd member List.not_mem_nil, List.nodup_nil⟩
  small := by
    rw [stale_bitmap]
    decide
  reserved := by
    rw [stale_bit, stale_bit]
    decide

theorem stale_allocated {b : Nat} : Allocated (stale n h) b ↔ 1 ≤ b ∧ b ≤ 5 := by
  rw [Allocated, stale_bit, decide_eq_true_eq, stale_bitmap]
  change 1 ≤ b ∧ b ≤ 64 ∧ b - 1 < 5 ↔ _
  omega

theorem stale_root (small : n < 2 ^ 64) (low : h < 8) (some : n ≠ 0) : RootIs (stale n h).bpram 3 0 h 4 n := by
  have word : wordAt (stale n h).bpram 3 0 = 8 * 4 + h := by
    rw [wordAt, leValue_congr (g := leByte (8 * 4 + h)), leValue_leByte]
    · exact Nat.mod_eq_of_lt (by omega)
    · intro k inside
      change (if 0 + k < 8 then _ else _) = _
      rw [if_pos (by omega), Nat.zero_add]
  have length : wordAt (stale n h).bpram 3 8 = n := by
    rw [wordAt, leValue_congr (g := leByte n), leValue_leByte]
    · exact Nat.mod_eq_of_lt small
    · intro k inside
      change (if 8 + k < 8 then _ else if 8 + k < 16 then leByte n (8 + k - 8) else 0) = _
      rw [if_neg (by omega), if_pos (by omega), Nat.add_sub_cancel_left]
  refine ⟨?_, ?_, length⟩
  · change wordAt (stale n h).bpram 3 0 % 8 = h
    omega
  · change (if wordAt (stale n h).bpram 3 8 = 0 then blocknoInvalid else wordAt (stale n h).bpram 3 0 / 8) = 4
    rw [length, if_neg some, word]
    omega

theorem stale_entry {b : Nat} (other : b ≠ 3 ∧ b ≠ 4) (k : Nat) : addrAt (stale n h).bpram b k = 5 := by
  have bytes : ∀ i, i < 8 → (if i = 0 then (5 : UInt8) else 0) = leByte 5 i := by decide
  have same : addrAt (stale n h).bpram b k = leValue (leByte 5) 8 := by
    apply leValue_congr
    intro i inside
    change (if b = 3 then _ else if b = 4 then 0 else if (8 * k + i) % 8 = 0 then 5 else 0) = _
    rw [if_neg other.1, if_neg other.2, Nat.mul_add_mod, Nat.mod_eq_of_lt inside, bytes i inside]
  exact same.trans (by decide)

theorem stale_hole (k : Nat) : addrAt (stale n h).bpram 4 k = 0 := by
  apply leValue_zero
  intro i _
  rfl

theorem stale_rooted (small : n < 2 ^ 64) (low : h < 8) (some : n ≠ 0) : Rooted (stale n h) 3 0 h 4 n where
  ok := stale_ok
  root := stale_root small low some
  inside := by decide
  block := ⟨le_refl 3, stale_allocated.mpr (by decide), fun gone => absurd gone.2 List.not_mem_nil⟩
  resident y _ _ b member := by
    have only : b = 4 := by
      cases h with
      | zero => simpa [treePath] using member
      | succ h =>
        rw [treePath_succ (by decide), stale_hole, treePath_hole] at member
        exact List.mem_singleton.mp member
    rw [only, stale_allocated]
    decide

theorem stale_byte (y : Nat) : fileByte (stale n h).bpram h 4 y = 0 := by
  have zeros : treeByte (stale n h).bpram h 4 y = 0 := by
    cases h with
    | zero => rfl
    | succ h => rw [treeByte_succ (by decide), stale_hole, treeByte_hole]
  rw [fileByte, zeros, ite_self]

theorem stale_unused {b : Nat} : Unused (stale n h) b ↔ 6 ≤ b ∧ b ≤ 64 := by
  rw [Unused, stale_allocated, stale_bitmap]
  change 3 ≤ b ∧ b ≤ 64 ∧ _ ↔ _
  omega

/-- There are more free blocks than a tree has levels. -/
theorem stale_room {k : Nat} (short : k ≤ 7) {e : Err} {t : Fs} (refused : Refused (stale n h) k e t) : False := by
  obtain ⟨l, few, all⟩ := refused.few
  have nodup : (List.range' 6 7).Nodup := List.nodup_range'
  have within : List.range' 6 7 ⊆ l := by
    intro x member
    apply all
    rw [stale_unused]
    have := List.mem_range'_1.mp member
    omega
  have length := (nodup.subperm within).length_le
  rw [List.length_range'] at length
  omega

end Stale

-- what follows only uses what is known of the function, and must not evaluate it
attribute [local irreducible] treeChangeHeight

/-- A tree that overgrows can change its file. -/
theorem Rooted.not_preserves {R o h p n h' : Nat} (rooted : Rooted s R o h p n) (zero : fileByte s.bpram h p (2 ^ 57) = 0)
    (overgrows : Overgrows n h h')
    (changed : wp (treeChangeHeight ⟨.bpram R, o⟩ h' .atomic R) (fun _ t => rootByte t.bpram R o (2 ^ 57) = 5)
      (fun _ _ => False) s) : ¬Preserves s R o n h' .atomic := by
  intro preserves
  obtain ⟨R', t, run, byte⟩ := ok_of_wp changed
  have kept := (wp_ok run).mp preserves
  have same := kept.2.last.bytes (2 ^ 57) overgrows.2.2
  rw [rooted.rootByte_eq overgrows.2.2, zero, byte] at same
  exact absurd same (by decide)

theorem stale_five {n h : Nat} : (stale n h).bpram 5 0 = 5 := rfl

theorem stale_overgrown {n h h' : Nat} (small : n < 2 ^ 64) (low' : h' < 8) (overgrows : Overgrows n h h') :
    ¬Preserves (stale n h) 3 0 n h' .atomic := by
  have more := overgrows.2.2
  have short := overgrows.1
  have rooted := stale_rooted small (show h < 8 by omega) (show n ≠ 0 by omega)
  have numbers : ∀ x, Unused (stale n h) x → addrAt (stale n h).bpram x 1 = 5 := by
    intro x unused
    have := stale_unused.mp unused
    exact stale_entry ⟨by omega, by omega⟩ 1
  have used : Allocated (stale n h) 5 := stale_allocated.mpr (by decide)
  have entry : addrAt (stale n h).bpram 5 0 = 5 := stale_entry (by decide) 0
  have room : ∀ k e t, k ≤ 7 → ¬Refused (stale n h) k e t := fun k e t few => stale_room few
  exact rooted.not_preserves (stale_byte _) overgrows
    (rooted.overgrown rfl (by decide) low' overgrows used (by decide) entry stale_five numbers room)

end Bpfs
