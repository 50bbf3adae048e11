import Bpfs.CrawlTiles
import Bpfs.TreeBytes

/-! Crawls that leave every block under the number it had: those that only read, and those that
store into one block in place. Such a crawl is a loop over the leaves of its range. What the
callback does to the state is followed from one position in the file to the next. -/

namespace Bpfs.Walk
open Lib

/-- The number of the leaf with byte `y` of the tree of height `h` at `p`. -/
def leafAt (m : Mem) : Nat → Nat → Nat → Nat
  | 0, p, _ => p
  | h + 1, p, y => if p = 0 then 0 else leafAt m h (addrAt m p (y / span h)) (y % span h)

@[simp] theorem leafAt_hole (m : Mem) (h y : Nat) : leafAt m h 0 y = 0 := by
  cases h <;> simp [leafAt]

theorem leafAt_succ {m : Mem} {h p y : Nat} (present : p ≠ 0) :
    leafAt m (h + 1) p y = leafAt m h (addrAt m p (y / span h)) (y % span h) := by
  rw [leafAt, if_neg present]

/-- What the callback is given for the leaf `b`. -/
def leafPtr (b : Nat) : BlockPtr := if b = blocknoInvalid then .zeroBlock else .bpram b

/-- The crawler's own operations keep `J`, under which the indirect blocks are those of `m`. -/
structure Quiet {σ : Type} (ops : Ops σ) (m : Mem) (J : σ → Prop) : Prop where
  getBlock : ∀ b s, b ≠ 0 → b < 2 ^ 63 → J s →
    wp (ops.getBlock b) (fun r t => r = b ∧ J t) (fun _ _ => False) s
  getIndir : ∀ b s, b ≠ 0 → b < 2 ^ 63 → J s →
    wp (ops.getIndir b) (fun r t => r = b ∧ J t) (fun _ _ => False) s
  loadAddr : ∀ leaves b k s, k < 512 → J s →
    wp (ops.loadAddr leaves b k) (fun r t => r = addrAt m b k ∧ J t) (fun _ _ => False) s
  noteIndir : ∀ b indir s, b < 2 ^ 63 → J s → wp (ops.noteIndir b indir) (fun _ t => J t) (fun _ _ => False) s

/-- A crawl of the bytes from `lo` to `hi` of a file of `g` bytes in the memory `m`, whose leaf `j`
is the block `num j`. It reads, or it stores in one leaf that is there. A hole that it starts in the
middle of is the only leaf it comes to: `crawl_hole` passes a wrong size for one that is not. -/
structure Pass where
  g : Nat
  lo : Nat
  hi : Nat
  commit : Commit
  m : Mem
  num : Nat → Nat
  less : lo < hi
  valid : hi ≤ g
  bounded : g < 2 ^ 64
  mode : commit = .none ∨
    (commit = .atomic ∧ lo / blockSize = (hi - 1) / blockSize ∧ num (lo / blockSize) ≠ blocknoInvalid)
  whole : lo % blockSize = 0 ∨ num (lo / blockSize) ≠ blocknoInvalid ∨ hi ≤ base (lo / blockSize + 1)

/-- A crawl of the subtree at `p` goes on at `z` or was stopped by its callback. -/
def Ends {σ : Type} (I : Nat → σ → Prop) (Q : σ → Prop) (p z : Nat) (r : Nat × Nat) (t : σ) : Prop :=
  r.2 = p ∧ (r.1 = 0 ∧ I z t ∨ r.1 = 1 ∧ Q t)

-- the rules for `wp` are all that is used of it
attribute [local irreducible] wp

namespace Pass

/-- Leaf `j` has bytes of the range. -/
def Meets (c : Pass) (j : Nat) : Prop := c.lo < base (j + 1) ∧ base j < c.hi

/-- The subtree of height `h` from leaf `i` on has its root at `p`. -/
structure Under (c : Pass) (h i p : Nat) : Prop where
  leaves : ∀ j, c.Meets j → base i ≤ base j → base j < base i + span h → leafAt c.m h p (base j - base i) = c.num j
  small : ∀ y, y < span h → c.lo ≤ base i + y → base i + y < c.hi → ∀ b ∈ treePath c.m h p y, b < 2 ^ 63

/-- `I y` holds before the callback on the leaf with byte `y`, and `Q` holds if the callback stops the
crawl. -/
structure Runs {σ : Type} (c : Pass) (ops : Ops σ) (callback : Callback σ) (I : Nat → σ → Prop) (Q : σ → Prop) :
    Prop where
  quiet : ∀ y, y < c.hi → Quiet ops c.m (I y)
  call : ∀ j s, c.Meets j → I (enter c.lo j) s →
    wp (callback j (leafPtr (c.num j)) (enter c.lo j - base j) (leave c.hi 0 j - enter c.lo j) (validIn c.g 0 j)
        c.lo c.commit (c.num j))
      (Ends I Q (c.num j) (leave c.hi 0 j)) (fun _ _ => False) s

section Arithmetic

variable {c : Pass} {h i p j : Nat}

theorem base_succ (j : Nat) : base (j + 1) = base j + blockSize := Nat.mul_succ _ _

theorem Meets.enters (meets : c.Meets j) :
    enter c.lo j / blockSize = j ∧ enter c.lo j < leave c.hi 0 j ∧ base j ≤ enter c.lo j ∧
      leave c.hi 0 j ≤ base j + blockSize ∧ enter c.lo j < c.hi := by
  obtain ⟨low, high⟩ := meets
  have less := c.less
  simp only [enter, leave, span_zero, base, blockSize] at *
  omega

/-- Of a store's range there is only one leaf, and it is not a hole. -/
theorem Meets.present (meets : c.Meets j) (writes : c.commit ≠ .none) : c.num j ≠ blocknoInvalid := by
  rcases c.mode with reads | ⟨-, single, present⟩
  · exact absurd reads writes
  · have only : j = c.lo / blockSize := by
      obtain ⟨low, high⟩ := meets
      have less := c.less
      simp only [base, blockSize] at *
      omega
    rwa [only]

end Arithmetic

section Rules

variable {σ : Type} {c : Pass} {ops : Ops σ} {callback : Callback σ} {I : Nat → σ → Prop} {Q : σ → Prop}
  (runs : c.Runs ops callback I Q) {s : σ}

include runs

/-- `crawl_leaf`, from the check of its arguments to the callback. -/
theorem crawlLeaf_still {j indir : Nat} (meets : c.Meets j) (small : c.num j < 2 ^ 63) (here : I (enter c.lo j) s) :
    wp (crawlLeaf ops callback c.lo indir (c.num j) (enter c.lo j / blockSize) (enter c.lo j - base j)
        (leave c.hi 0 j - enter c.lo j) (validIn c.g 0 j) c.commit)
      (Ends I Q (c.num j) (leave c.hi 0 j)) (fun _ _ => False) s := by
  obtain ⟨index, some, start, fits, early⟩ := meets.enters
  have begins : c.lo / blockSize ≤ enter c.lo j / blockSize := Nat.div_le_div_right (Nat.le_max_left _ _)
  have held : validIn c.g 0 j ≤ blockSize := (Nat.min_le_right _ _).trans_eq span_zero
  have there : ¬(c.commit ≠ .none ∧ c.num j = blocknoInvalid) := fun both => meets.present both.1 both.2
  unfold crawlLeaf
  refine wp_holds begins (wp_holds (by omega) (wp_holds (by omega) (wp_holds held ?_)))
  rw [if_neg there, index, wp_bind, wp_pure]
  refine wp_seq ((runs.quiet _ early).noteIndir _ _ _ small here) fun _ t noted => ?_
  dsimp only
  rw [if_pos rfl]
  by_cases hole : c.num j = blocknoInvalid
  · have reads : c.commit = .none := by
      by_contra writes
      exact there ⟨writes, hole⟩
    have call := runs.call j t meets noted
    rw [leafPtr, if_pos hole] at call
    rw [if_pos ⟨hole, reads⟩, wp_bind, wp_pure]
    exact call
  · have call := fun u => runs.call j u meets
    rw [leafPtr, if_neg hole] at call
    rw [if_neg (fun both => hole both.1), wp_bind, wp_map]
    refine wp_mono ((runs.quiet _ early).getBlock _ _ hole small noted) ?_ (fun _ _ never => never)
    rintro _ u ⟨rfl, after⟩
    exact call u after

omit runs in
/-- What `crawl_hole` computes for leaf `j` of the hole of height `h` from leaf `i` on. -/
theorem hole_piece {h i j : Nat} (meets : c.Meets j) (within : base i ≤ base j ∧ base j < base i + span h)
    (whole : c.lo ≤ base j ∨ c.hi ≤ base (j + 1)) :
    (enter c.lo j - base i) % blockSize = enter c.lo j - base j ∧
      min (leave c.hi h i - base i - (enter c.lo j - base i)) blockSize = leave c.hi 0 j - enter c.lo j ∧
      min (usub (validIn c.g h i) (base j - base i)) blockSize = validIn c.g 0 j ∧
      enter c.lo j - base i < leave c.hi h i - base i := by
  obtain ⟨low, high⟩ := meets
  have less := c.less
  have valid := c.valid
  have bounded := c.bounded
  have held : usub (validIn c.g h i) (base j - base i) = validIn c.g h i - (base j - base i) := by
    apply usub_eq
    · simp only [validIn]
      omega
    · simp only [validIn]
      omega
  rw [held]
  simp only [enter, leave, validIn, span, base, blockSize] at *
  generalize 512 ^ h = leaves at *
  refine ⟨?_, ?_, ?_, ?_⟩ <;> omega

omit runs in
/-- The next leaf of a hole, if the range goes on there. -/
theorem hole_next {h i j : Nat} (meets : c.Meets j) (within : base i ≤ base j ∧ base j < base i + span h) :
    (leave c.hi h i ≤ base (j + 1) ∧ leave c.hi 0 j = leave c.hi h i) ∨
      (c.Meets (j + 1) ∧ base (j + 1) < leave c.hi h i ∧ leave c.hi 0 j = enter c.lo (j + 1) ∧
        enter c.lo (j + 1) = base (j + 1)) := by
  obtain ⟨low, high⟩ := meets
  simp only [Meets, enter, leave, span, base, blockSize] at *
  generalize 512 ^ h = leaves at *
  omega

theorem crawlHoleLoop_still {h i : Nat} (reads : c.commit = .none)
    (hole : ∀ j, c.Meets j → base i ≤ base j → base j < base i + span h → c.num j = blocknoInvalid) (n : Nat) :
    ∀ j s, c.Meets j → base i ≤ base j ∧ base j < base i + span h → (c.lo ≤ base j ∨ c.hi ≤ base (j + 1)) →
      leave c.hi h i ≤ base (j + n) → I (enter c.lo j) s →
      wp (crawlHoleLoop callback c.lo (leave c.hi h i - base i) (validIn c.g h i) n j (base j - base i)
          (enter c.lo j - base i))
        (fun r t => r = 0 ∧ I (leave c.hi h i) t ∨ r = 1 ∧ Q t) (fun _ _ => False) s := by
  induction n with
  | zero =>
    intro j s meets within _ enough here
    obtain ⟨-, -, -, inside⟩ := hole_piece meets within (h := h) (i := i) (by assumption)
    have start := meets.enters.2.2.1
    rw [Nat.add_zero] at enough
    omega
  | succ n ih =>
    intro j s meets within single enough here
    obtain ⟨offset, size, valid, inside⟩ := hole_piece meets within single
    have missing := hole j meets within.1 within.2
    have call := runs.call j s meets here
    rw [leafPtr, if_pos missing, missing, reads] at call
    rw [crawlHoleLoop, if_pos inside]
    dsimp only
    rw [offset, size, valid]
    refine wp_seq call ?_
    rintro ⟨r, b⟩ t ⟨same, ending⟩
    refine wp_holds same ?_
    rcases ending with ⟨zero, after⟩ | ⟨one, stopped⟩
    · have next : base j - base i + blockSize = base (j + 1) - base i := by
        have := base_succ j
        omega
      rw [if_neg (not_not.mpr zero), next]
      rcases hole_next meets within with ⟨done, last⟩ | ⟨meets', more, first, aligned⟩
      · have exceeds : ¬base (j + 1) - base i < leave c.hi h i - base i := by omega
        rw [last] at after
        cases n with
        | zero =>
          rw [crawlHoleLoop, wp_pure]
          exact .inl ⟨rfl, after⟩
        | succ n =>
          rw [crawlHoleLoop, if_neg exceeds, wp_pure]
          exact .inl ⟨rfl, after⟩
      · rw [first] at after
        have rest := ih (j + 1) t meets' ⟨within.1.trans (Nat.mul_le_mul_left _ (Nat.le_succ j)), ?_⟩ (.inl ?_) ?_ after
        · rwa [aligned] at rest
        · exact lt_of_lt_of_le more (Nat.min_le_right _ _)
        · exact (Nat.le_max_left _ _).trans_eq aligned
        · rwa [Nat.add_right_comm]
    · rw [if_pos (by rw [one]; decide), wp_pure]
      exact .inr ⟨one, stopped⟩

omit runs in
/-- The leaf at which `crawl_hole` starts. -/
theorem hole_start {h i : Nat} (meets : enter c.lo i < leave c.hi h i) :
    c.Meets (enter c.lo i / blockSize) ∧
      (base i ≤ base (enter c.lo i / blockSize) ∧ base (enter c.lo i / blockSize) < base i + span h) ∧
      enter c.lo (enter c.lo i / blockSize) = enter c.lo i ∧
      enter c.lo i - base i - (enter c.lo i - base i) % blockSize = base (enter c.lo i / blockSize) - base i ∧
      enter c.lo i - base i + (leave c.hi h i - enter c.lo i) = leave c.hi h i - base i ∧
      leave c.hi h i ≤ base (enter c.lo i / blockSize + ((leave c.hi h i - enter c.lo i) / blockSize + 2)) := by
  simp only [Meets, enter, leave, base, blockSize] at *
  generalize span h = bytes at *
  refine ⟨?_, ?_, ?_, ?_, ?_, ?_⟩ <;> omega

/-- `crawl_hole` calls back on every leaf that is missing. -/
theorem crawlHole_still {h i : Nat} (reads : c.commit = .none) (meets : enter c.lo i < leave c.hi h i)
    (hole : ∀ j, c.Meets j → base i ≤ base j → base j < base i + span h → c.num j = blocknoInvalid)
    (here : I (enter c.lo i) s) :
    wp (crawlHole callback c.lo (enter c.lo i / blockSize) (enter c.lo i - base i) (leave c.hi h i - enter c.lo i)
        (validIn c.g h i))
      (fun r t => r = 0 ∧ I (leave c.hi h i) t ∨ r = 1 ∧ Q t) (fun _ _ => False) s := by
  have begins : c.lo / blockSize ≤ enter c.lo i / blockSize := Nat.div_le_div_right (Nat.le_max_left _ _)
  obtain ⟨first, within, same, rounded, total, enough⟩ := hole_start meets
  have single : c.lo ≤ base (enter c.lo i / blockSize) ∨ c.hi ≤ base (enter c.lo i / blockSize + 1) := by
    by_cases inner : c.lo ≤ base i
    · left
      simp only [enter, base, blockSize] at *
      omega
    · have lead : enter c.lo i = c.lo := Nat.max_eq_left (by omega)
      have missing := hole _ first within.1 within.2
      rw [lead] at missing ⊢
      rcases c.whole with aligned | present | only
      · left
        simp only [base, blockSize] at *
        omega
      · exact absurd missing present
      · exact .inr only
  have room : enter c.lo i - base i + (leave c.hi h i - enter c.lo i) ≤ validIn c.g h i := by
    have valid := c.valid
    simp only [leave, validIn] at *
    omega
  unfold crawlHole
  refine wp_holds begins (wp_holds room ?_)
  rw [total, rounded]
  have loop := crawlHoleLoop_still runs reads hole _ _ s first within single enough (same.symm ▸ here)
  rwa [same] at loop

end Rules

section Node

variable {c : Pass}

/-- The crawl comes to an indirect block. -/
def visit (c : Pass) {h i : Nat} (low : h ≤ 5) (meets : enter c.lo i < leave c.hi (h + 1) i) : Visit where
  g := c.g
  lo := c.lo
  hi := c.hi
  h := h
  i := i
  low := by omega
  bounded := lt_of_le_of_lt c.valid c.bounded
  meets := meets

theorem Under.small_root {h i p : Nat} (under : c.Under h i p) (meets : enter c.lo i < leave c.hi h i) (present : p ≠ 0) :
    p < 2 ^ 63 := by
  have first : base i ≤ enter c.lo i := Nat.le_max_right _ _
  have start : c.lo ≤ enter c.lo i := Nat.le_max_left _ _
  have last : leave c.hi h i ≤ c.hi := Nat.min_le_left _ _
  have inside : leave c.hi h i ≤ base i + span h := Nat.min_le_right _ _
  exact under.small (enter c.lo i - base i) (by omega) (by omega) (by omega) p (mem_treePath_self present)

theorem Under.kid {h i p k : Nat} (under : c.Under (h + 1) i p) (present : p ≠ 0) (small : k < 512) :
    c.Under h (Bpfs.kid h i k) (addrAt c.m p k) where
  leaves j meets after before := by
    have room := mul_span_le (h := h) small
    have found := under.leaves j meets
    rw [base_kid] at after before
    obtain ⟨index, rest⟩ := kid_byte (h := h) (k := k) (y := base j - (base i + k * span h)) (by omega)
    rw [leafAt_succ present, show base j - base i = k * span h + (base j - (base i + k * span h)) by omega, index,
      rest] at found
    rw [base_kid]
    exact found (by omega) (by omega)
  small y below after before b member := by
    have room := mul_span_le (h := h) small
    rw [base_kid] at after before
    obtain ⟨index, rest⟩ := kid_byte (k := k) below
    apply under.small (k * span h + y) (by omega) (by omega) (by omega)
    rw [treePath_succ present, index, rest]
    exact List.mem_cons_of_mem _ member

/-- A subtree of height 0 is a leaf. -/
theorem Under.leaf {j b : Nat} (under : c.Under 0 j b) (meets : enter c.lo j < leave c.hi 0 j) :
    c.Meets j ∧ b = c.num j ∧ b < 2 ^ 63 := by
  have inside : c.Meets j := by
    simp only [Meets, enter, leave, span_zero, base_succ] at *
    omega
  refine ⟨inside, under.leaves j inside le_rfl (Nat.lt_add_of_pos_right (span_pos 0)), ?_⟩
  by_cases hole : b = 0
  · rw [hole]
    decide
  · exact under.small_root meets hole

/-- Below a missing block there are only missing leaves. -/
theorem Under.hole {h i : Nat} (under : c.Under h i 0) :
    ∀ j, c.Meets j → base i ≤ base j → base j < base i + span h → c.num j = blocknoInvalid := by
  intro j meets after before
  rw [← under.leaves j meets after before, leafAt_hole]
  rfl

/-- A store does not come to a missing block. -/
theorem Under.reads {h i : Nat} (under : c.Under h i 0) (meets : enter c.lo i < leave c.hi h i) : c.commit = .none := by
  by_contra writes
  obtain ⟨first, within, -⟩ := hole_start meets
  exact first.present writes (under.hole _ first within.1 within.2)

end Node

section Indir

variable {σ : Type} {c : Pass} {ops : Ops σ} {callback : Callback σ} {I : Nat → σ → Prop} {Q : σ → Prop}
  (runs : c.Runs ops callback I Q) {s : σ} {h i p : Nat}

/-- What the crawl of a child has to do. -/
def ChildStill (c : Pass) (I : Nat → σ → Prop) (Q : σ → Prop) (h : Nat) (child : Child σ) : Prop :=
  ∀ parent b i s, c.Under h i b → enter c.lo i < leave c.hi h i → I (enter c.lo i) s →
    wp (child parent b (enter c.lo i / blockSize) (enter c.lo i - base i) (leave c.hi h i - enter c.lo i)
        (validIn c.g h i) c.commit)
      (Ends I Q b (leave c.hi h i)) (fun _ _ => False) s

variable (low : h ≤ 5) (meets : enter c.lo i < leave c.hi (h + 1) i)

theorem single_child (writes : c.commit ≠ .none) : (c.visit low meets).firstno = (c.visit low meets).lastno := by
  rcases c.mode with reads | ⟨-, single, -⟩
  · exact absurd reads writes
  · have le := (c.visit low meets).firstno_le_lastno
    by_contra differ
    have more := (c.visit low meets).mul_lt (show (c.visit low meets).firstno < (c.visit low meets).lastno by omega)
    have first : enter c.lo i < base i + (c.visit low meets).firstno * span h + span h :=
      (c.visit low meets).firstno_bounds.2
    have last : base i + (c.visit low meets).lastno * span h < leave c.hi (h + 1) i :=
      (c.visit low meets).lastno_bounds.1
    have start : c.lo ≤ enter c.lo i := Nat.le_max_left _ _
    have final : leave c.hi (h + 1) i ≤ c.hi := Nat.min_le_left _ _
    -- a block starts between the two ends of the range
    have border := Bpfs.base_kid h i (c.visit low meets).lastno
    change (c.visit low meets).firstno * span h + span h ≤ (c.visit low meets).lastno * span h at more
    rw [← border] at last
    have early : c.lo < base (Bpfs.kid h i (c.visit low meets).lastno) := by omega
    have late : base (Bpfs.kid h i (c.visit low meets).lastno) < c.hi := by omega
    generalize Bpfs.kid h i (c.visit low meets).lastno = j at early late
    simp only [base, blockSize] at early late single
    omega

theorem childCommit_still : ((c.visit low meets).crawl p c.commit).childCommit = c.commit := by
  rcases c.mode with reads | ⟨atomic, -, -⟩
  · rw [reads]
    rfl
  · have single := single_child low meets (by rw [atomic]; decide)
    have same : ((c.visit low meets).crawl p c.commit).firstno = ((c.visit low meets).crawl p c.commit).lastno := by
      rw [Visit.crawl_firstno, Visit.crawl_lastno, single]
    rw [atomic] at same ⊢
    exact if_pos (.inl same)

include runs

theorem indirStep_still {k : Nat} {leaves : Bool} {child : Child σ} (under : c.Under (h + 1) i p) (present : p ≠ 0)
    (visited : (c.visit low meets).firstno ≤ k ∧ k ≤ (c.visit low meets).lastno)
    (still : c.ChildStill I Q h child) (here : I (enter c.lo (Bpfs.kid h i k)) s) :
    wp (indirStep ops ((c.visit low meets).crawl p c.commit) leaves child p k)
      (Ends I Q p (leave c.hi h (Bpfs.kid h i k))) (fun _ _ => False) s := by
  have small := (c.visit low meets).visited_lt visited
  have some : enter c.lo (Bpfs.kid h i k) < leave c.hi h (Bpfs.kid h i k) := (c.visit low meets).visited_meets visited
  have off := (c.visit low meets).crawl_childOff visited p c.commit
  have size := (c.visit low meets).crawl_childSize visited p c.commit
  have index := (c.visit low meets).crawl_childBlockoff visited p c.commit
  have valid := (c.visit low meets).crawl_childValid small p c.commit
  have commit := childCommit_still (p := p) low meets
  have kid := under.kid present small
  have start : enter c.lo i ≤ enter c.lo (Bpfs.kid h i k) := enter_mono c.lo (Nat.le_add_right _ _)
  have last : leave c.hi h (Bpfs.kid h i k) ≤ leave c.hi (h + 1) i := by
    have room := mul_span_le (h := h) small
    simp only [leave, base_kid]
    omega
  have early : enter c.lo (Bpfs.kid h i k) < c.hi := lt_of_lt_of_le some (Nat.min_le_left _ _)
  have inside : ¬(((c.visit low meets).crawl p c.commit).childValid k = 0 ∨
      ((c.visit low meets).crawl p c.commit).inHole = true) := by
    rintro (nothing | hole)
    · have pos := span_pos h
      have more := c.valid
      rw [valid] at nothing
      change min (c.g - base (Bpfs.kid h i k)) (span h) = 0 at nothing
      have := Nat.le_max_right c.lo (base (Bpfs.kid h i k))
      unfold enter at early
      omega
    · exact present (of_decide_eq_true hole)
  have nvm : addrAt c.m p k < 2 ^ 63 := by
    by_cases hole : addrAt c.m p k = 0
    · rw [hole]
      decide
    · exact kid.small_root some hole
  have flag : ¬(leaves = true ∧ (addrAt c.m p k).testBit 63 = true) := by
    rw [not_testBit_of_lt nvm]
    exact fun both => absurd both.2 (by decide)
  unfold indirStep
  refine wp_holds ?_ (wp_holds ?_ (wp_holds ?_ ?_))
  · rw [index]
    exact Nat.div_le_div_right start
  · rw [size]
    change leave c.hi h (Bpfs.kid h i k) - enter c.lo (Bpfs.kid h i k) ≤ leave c.hi (h + 1) i - enter c.lo i
    omega
  · rw [size]
    change min c.hi (base (Bpfs.kid h i k) + span h) - max c.lo (base (Bpfs.kid h i k)) ≤ span h
    omega
  · unfold indirChild
    rw [if_neg inside, bind_assoc]
    refine wp_seq ((runs.quiet _ early).loadAddr leaves p k _ small here) ?_
    rintro _ t ⟨rfl, there⟩
    rw [if_neg flag, pure_bind, off, size, index, valid, commit]
    refine wp_seq (still p _ _ t kid some there) ?_
    rintro ⟨r, b⟩ u ⟨same, ending⟩
    have calm : ¬(addrAt c.m p k ≠ b ∨ ((c.visit low meets).crawl p c.commit).inHole = true) := by
      rintro (moved | hole)
      · exact moved same.symm
      · exact present (of_decide_eq_true hole)
    have full : ¬((c.visit low meets).crawl p c.commit).inHole = true := fun hole => calm (.inr hole)
    unfold indirSettle
    dsimp only at same ending ⊢
    rw [if_neg calm, pure_bind]
    rcases ending with ⟨zero, after⟩ | ⟨one, stopped⟩
    · rw [if_neg (by rw [zero]; decide), pure_bind, wp_pure]
      exact ⟨rfl, .inl ⟨zero, after⟩⟩
    · rw [if_pos one]
      refine wp_holds full ?_
      rw [wp_pure]
      exact ⟨rfl, .inr ⟨one, stopped⟩⟩

omit runs in
/-- One child ends where the next begins. -/
theorem leave_eq_enter {k : Nat} (visited : (c.visit low meets).firstno ≤ k) (more : k < (c.visit low meets).lastno) :
    leave c.hi h (Bpfs.kid h i k) = enter c.lo (Bpfs.kid h i (k + 1)) := by
  have last : base i + (c.visit low meets).lastno * span h < leave c.hi (h + 1) i :=
    (c.visit low meets).lastno_bounds.1
  have first : enter c.lo i < base i + (c.visit low meets).firstno * span h + span h :=
    (c.visit low meets).firstno_bounds.2
  have upper : k * span h + span h ≤ (c.visit low meets).lastno * span h := (c.visit low meets).mul_lt more
  have lower := Nat.mul_le_mul_right (span h) visited
  have reach : leave c.hi (h + 1) i ≤ c.hi := Nat.min_le_left _ _
  have start : c.lo ≤ enter c.lo i := Nat.le_max_left _ _
  rw [leave, enter, base_kid, base_kid, Nat.succ_mul, Nat.min_eq_right (by omega), Nat.max_eq_right (by omega)]
  omega

theorem indirLoop_still {leaves : Bool} {child : Child σ} (under : c.Under (h + 1) i p) (present : p ≠ 0)
    (still : c.ChildStill I Q h child) (n : Nat) : ∀ k s, (c.visit low meets).firstno ≤ k →
      k + n = (c.visit low meets).lastno → I (enter c.lo (Bpfs.kid h i k)) s →
      wp (indirLoop ops ((c.visit low meets).crawl p c.commit) leaves child (n + 1) k p)
        (Ends I Q p (leave c.hi (h + 1) i)) (fun _ _ => False) s := by
  induction n with
  | zero =>
    intro k s first last here
    have final : leave c.hi h (Bpfs.kid h i k) = leave c.hi (h + 1) i := by
      rw [show k = (c.visit low meets).lastno by omega]
      exact tiles_end (c.visit low meets)
    rw [indirLoop]
    refine wp_seq (indirStep_still runs low meets under present ⟨first, by omega⟩ still here) ?_
    rintro ⟨r, b⟩ t ⟨same, ending⟩
    dsimp only at same ending ⊢
    rw [final] at ending
    rcases ending with ⟨zero, after⟩ | ⟨one, stopped⟩
    · rw [if_neg (by rw [zero]; decide), indirLoop, wp_pure]
      exact ⟨same, .inl ⟨rfl, after⟩⟩
    · rw [if_pos one, wp_pure]
      exact ⟨same, .inr ⟨rfl, stopped⟩⟩
  | succ n ih =>
    intro k s first last here
    rw [indirLoop]
    refine wp_seq (indirStep_still runs low meets under present ⟨first, by omega⟩ still here) ?_
    rintro ⟨r, b⟩ t ⟨same, ending⟩
    dsimp only at same ending ⊢
    rcases ending with ⟨zero, after⟩ | ⟨one, stopped⟩
    · rw [leave_eq_enter low meets first (by omega)] at after
      rw [if_neg (by rw [zero]; decide), same]
      exact ih (k + 1) t (by omega) (by omega) after
    · rw [if_pos one, wp_pure]
      exact ⟨same, .inr ⟨rfl, stopped⟩⟩

omit runs in
theorem indexOf_self (lo i : Nat) : indexOf lo (lo / blockSize) (enter lo i / blockSize) = enter lo i / blockSize := by
  have later : lo / blockSize ≤ enter lo i / blockSize := Nat.div_le_div_right (Nat.le_max_left _ _)
  unfold indexOf
  omega

/-- An indirect block, or a hole in the place of one. -/
theorem crawlIndirNode_still {leaves : Bool} {child : Child σ} (short : h ≤ 4) (under : c.Under (h + 1) i p)
    (still : c.ChildStill I Q h child) (meets : enter c.lo i < leave c.hi (h + 1) i) (here : I (enter c.lo i) s) :
    wp (crawlIndirNode ops callback c.lo leaves child (512 ^ (h + 1)) p (enter c.lo i / blockSize)
        (enter c.lo i - base i) (leave c.hi (h + 1) i - enter c.lo i) (validIn c.g (h + 1) i) c.commit)
      (Ends I Q p (leave c.hi (h + 1) i)) (fun _ _ => False) s := by
  have low : h ≤ 5 := by omega
  by_cases hole : p = 0
  · subst hole
    have reads := under.reads meets
    have wide : ¬nbytesOfBlocks (512 ^ (h + 1) / blocknosPerIndir) = 0 := by
      have blocks : 512 ^ (h + 1) / blocknosPerIndir = 512 ^ h := by
        rw [Nat.pow_succ]
        exact Nat.mul_div_cancel _ (by decide)
      rw [blocks, nbytesOfBlocks_eq low]
      exact (span_pos h).ne'
    unfold crawlIndirNode
    dsimp only
    rw [if_neg wide, if_pos ⟨rfl, reads⟩]
    refine wp_seq (crawlHole_still runs reads meets under.hole here) fun r t ending => ?_
    rw [wp_pure]
    exact ⟨rfl, ending⟩
  · have reading : ¬(p = blocknoInvalid ∧ c.commit = .none) := fun both => hole both.1
    have node : crawlIndirNode ops callback c.lo leaves child _ p _ _ _ _ c.commit = _ :=
      crawlIndirNode_eq (c.visit low meets) (c.lo / blockSize) short reading leaves child c.lo
    have same : shifted (c.visit low meets) (c.lo / blockSize) p c.commit = (c.visit low meets).crawl p c.commit := by
      unfold shifted
      rw [show (c.visit low meets).lo = c.lo from rfl, indexOf_self]
      rfl
    rw [same, show (c.visit low meets).lo = c.lo from rfl, indexOf_self, if_neg (show ¬p = blocknoInvalid from hole),
      pure_bind] at node
    change crawlIndirNode ops callback c.lo leaves child (512 ^ (h + 1)) p (enter c.lo i / blockSize)
      (enter c.lo i - base i) (leave c.hi (h + 1) i - enter c.lo i) (validIn c.g (h + 1) i) c.commit = _ at node
    rw [node]
    have early : enter c.lo i < c.hi := lt_of_lt_of_le meets (Nat.min_le_left _ _)
    refine wp_seq ((runs.quiet _ early).getIndir _ _ hole (under.small_root meets hole) here) ?_
    rintro _ t ⟨rfl, there⟩
    have le := (c.visit low meets).firstno_le_lastno
    have first : enter c.lo (Bpfs.kid h i (c.visit low meets).firstno) = enter c.lo i := tiles_begin (c.visit low meets)
    apply indirLoop_still runs low meets under hole still _ _ _ le_rfl (by omega)
    rwa [first]

/-- `crawl_indir` over a subtree. -/
theorem crawlIndir_still (n : Nat) : ∀ (i p : Nat) (s : σ), n ≤ 4 → c.Under (n + 1) i p →
    enter c.lo i < leave c.hi (n + 1) i → I (enter c.lo i) s →
    wp (crawlIndir ops callback c.lo (n + 1) (512 ^ (n + 1)) p (enter c.lo i / blockSize) (enter c.lo i - base i)
        (leave c.hi (n + 1) i - enter c.lo i) (validIn c.g (n + 1) i) c.commit)
      (Ends I Q p (leave c.hi (n + 1) i)) (fun _ _ => False) s := by
  induction n with
  | zero =>
    intro i p s short under meets here
    have leaves : c.ChildStill I Q 0 (crawlLeaf ops callback c.lo) := by
      intro parent b j t below meets' there
      obtain ⟨inside, number, small⟩ := below.leaf meets'
      subst number
      exact crawlLeaf_still runs inside small there
    exact crawlIndirNode_still runs short under leaves meets here
  | succ n ih =>
    intro i p s short under meets here
    have blocks : 512 ^ (n + 2) / blocknosPerIndir = 512 ^ (n + 1) := by
      rw [Nat.pow_succ]
      exact Nat.mul_div_cancel _ (by decide)
    have kids : c.ChildStill I Q (n + 1)
        (fun _ => crawlIndir ops callback c.lo (n + 1) (512 ^ (n + 2) / blocknosPerIndir)) := by
      intro parent b j t below meets' there
      rw [blocks]
      exact ih j b t (by omega) below meets' there
    exact crawlIndirNode_still runs short under kids meets here

end Indir

end Pass

section Empty

variable {σ : Type} {ops : Ops σ} {m : Mem} {J : σ → Prop} (quiet : Quiet ops m J) (callback : Callback σ)

/-- `crawl_hole` over no bytes makes no call. -/
theorem crawlHole_empty {start blockoff o v : Nat} {post : Nat → σ → Prop} {E : Err → σ → Prop} {s : σ}
    (begins : start / blockSize ≤ blockoff) (valid : o ≤ v) (done : post 0 s) :
    wp (crawlHole callback start blockoff o 0 v) post E s := by
  unfold crawlHole
  refine wp_holds begins (wp_holds valid ?_)
  rw [crawlHoleLoop, if_neg (by omega), wp_pure]
  exact done

/-- The first and the last child of an empty range that ends at `o`. -/
theorem empty_children {h o : Nat} (some : 0 < o) (small : o < 2 ^ 64) :
    (o % span h = 0 ∧ usub (o + 0) 1 / span h + 1 = o / span h) ∨
      (o % span h ≠ 0 ∧ usub (o + 0) 1 / span h = o / span h ∧ (o - 1) % span h = o % span h - 1) := by
  have last : usub (o + 0) 1 = o - 1 := usub_eq some small
  have whole := Nat.div_add_mod o (span h)
  have under := Nat.mod_lt o (span_pos h)
  rw [last]
  by_cases aligned : o % span h = 0
  · left
    refine ⟨aligned, ?_⟩
    have more : o / span h ≠ 0 := by
      intro none
      rw [none, aligned] at whole
      omega
    obtain ⟨q, index⟩ := Nat.exists_eq_succ_of_ne_zero more
    rw [index, aligned, Nat.mul_succ] at whole
    have before : (o - 1) / span h = q := by
      rw [show o - 1 = span h * q + (span h - 1) by omega, Nat.mul_add_div (span_pos h),
        Nat.div_eq_of_lt (by omega), Nat.add_zero]
    rw [before, index]
  · right
    have split : o - 1 = span h * (o / span h) + (o % span h - 1) := by omega
    have part : (o % span h - 1) / span h = 0 := Nat.div_eq_of_lt (by omega)
    refine ⟨aligned, ?_, ?_⟩
    · rw [split, Nat.mul_add_div (span_pos h), part, Nat.add_zero]
    · rw [split, Nat.mul_add_mod, Nat.mod_eq_of_lt (by omega)]

include quiet

/-- An indirect block on the way to an empty range. -/
theorem crawlIndirNode_empty {h start p blockoff o v : Nat} {leaves : Bool} {child : Child σ} {s : σ} (low : h ≤ 4)
    (begins : start / blockSize ≤ blockoff) (some : 0 < o) (inside : o ≤ span (h + 1)) (valid : o ≤ v)
    (small : ∀ b ∈ treePath m (h + 1) p (o - 1), b < 2 ^ 63) (here : J s)
    (below : o % span h ≠ 0 → leaves = false ∧ ∀ parent q t,
      (∀ b ∈ treePath m h q (o % span h - 1), b < 2 ^ 63) → J t →
      wp (child parent q blockoff (o % span h) 0 (min (v - o / span h * span h) (span h)) .none)
        (fun r u => r = (0, q) ∧ J u) (fun _ _ => False) t) :
    wp (crawlIndirNode ops callback start leaves child (512 ^ (h + 1)) p blockoff o 0 v .none)
      (fun r t => r = (0, p) ∧ J t) (fun _ _ => False) s := by
  have blocks : 512 ^ (h + 1) / blocknosPerIndir = 512 ^ h := by
    rw [Nat.pow_succ]
    exact Nat.mul_div_cancel _ (by decide)
  have bytes : nbytesOfBlocks (512 ^ (h + 1) / blocknosPerIndir) = span h := by
    rw [blocks]
    exact nbytesOfBlocks_eq (by omega)
  have wide : ¬nbytesOfBlocks (512 ^ (h + 1) / blocknosPerIndir) = 0 := by
    rw [bytes]
    exact (span_pos h).ne'
  have short : o < 2 ^ 64 := lt_of_le_of_lt inside (span_lt (by omega))
  unfold crawlIndirNode
  dsimp only
  rw [if_neg wide]
  by_cases hole : p = 0
  · rw [if_pos ⟨hole, rfl⟩]
    rw [wp_bind]
    apply crawlHole_empty callback begins valid
    rw [wp_pure, hole]
    exact ⟨rfl, here⟩
  · rw [if_neg (fun both => hole both.1), bytes, blocks, if_neg (show ¬p = blocknoInvalid from hole), pure_bind]
    refine wp_seq (quiet.getIndir p s hole (small p (mem_treePath_self hole)) here) ?_
    intro b t loaded
    have there := loaded.2
    rw [loaded.1]
    obtain ⟨w, is⟩ : ∃ w : IndirCrawl, w = ⟨p, blockoff, o, 0, v, .none, 512 ^ h, span h, decide (p = blocknoInvalid)⟩ :=
      ⟨_, rfl⟩
    rw [← is]
    have first : w.firstno = o / span h := by rw [is]; rfl
    have last : w.lastno = usub (o + 0) 1 / span h := by rw [is]; rfl
    rcases empty_children (h := h) some short with ⟨aligned, count⟩ | ⟨unaligned, count, rest⟩
    · rw [first, last, count, Nat.sub_self, indirLoop, wp_pure]
      exact ⟨rfl, there⟩
    · obtain ⟨indirect, crawl⟩ := below unaligned
      have whole := Nat.div_add_mod o (span h)
      rw [Nat.mul_comm] at whole
      have index : w.childBlockoff (o / span h) = blockoff := by rw [is]; exact if_pos rfl
      have off : w.childOff (o / span h) = o % span h := by rw [is]; exact if_pos rfl
      have size : w.childSize (o / span h) = 0 := by
        rw [IndirCrawl.childSize, last, count, if_pos rfl, off, is]
        change o + 0 - (o / span h * span h + o % span h) = 0
        omega
      have part : w.childValid (o / span h) = min (v - o / span h * span h) (span h) := by
        rw [childValid_eq _ (by rw [is]; exact span_pos h), is]
      have room : o / span h < 512 := by
        apply Nat.div_lt_of_lt_mul
        rw [span_succ] at inside
        have strict : o ≠ 512 * span h := by
          rintro rfl
          exact unaligned (Nat.mul_mod_left _ _)
        rw [Nat.mul_comm]
        omega
      have full : ¬(w.childValid (o / span h) = 0 ∨ w.inHole = true) := by
        rintro (nothing | missing)
        · have := span_pos h
          rw [part] at nothing
          omega
        · rw [is] at missing
          exact hole (of_decide_eq_true missing)
      have path : ∀ b ∈ treePath m h (addrAt m p (o / span h)) (o % span h - 1), b < 2 ^ 63 := by
        intro b member
        apply small
        have before : (o - 1) / span h = o / span h := by rw [← count, Nat.add_zero, usub_eq (Nat.succ_le_of_lt some) short]
        rw [treePath_succ hole, before, rest]
        exact List.mem_cons_of_mem _ member
      have none : w.childCommit = .none := by rw [is]; rfl
      rw [first, last, count, Nat.add_sub_cancel_left, indirLoop, indirStep, indirChild]
      simp only [bind_assoc]
      refine wp_holds (by rw [index, is]) (wp_holds (by rw [size]; exact Nat.zero_le _)
        (wp_holds (by rw [size]; exact Nat.zero_le _) ?_))
      rw [if_neg full]
      refine wp_seq (quiet.loadAddr leaves p _ t room there) fun q u found => ?_
      rw [if_neg (fun both => absurd (indirect.symm.trans both.1) (by decide)), pure_bind, index, off, size, part, none,
        found.1]
      refine wp_seq (crawl p _ u path found.2) fun r x ending => ?_
      have same : ¬(addrAt m p (o / span h) ≠ r.2 ∨ w.inHole = true) := by
        rintro (moved | missing)
        · exact moved (by rw [ending.1])
        · exact full (.inr missing)
      rw [indirSettle, if_neg same, ending.1]
      simp only [pure_bind]
      rw [if_neg Nat.zero_ne_one, pure_bind, pure_bind, if_neg Nat.zero_ne_one, indirLoop, wp_pure]
      exact ⟨rfl, ending.2⟩

/-- `crawl_indir` over an empty range that ends at a block's end makes no call. -/
theorem crawlIndir_empty (start n : Nat) : ∀ (p blockoff o v : Nat) (s : σ), n ≤ 4 → start / blockSize ≤ blockoff →
    0 < o → o % blockSize = 0 → o ≤ span (n + 1) → o ≤ v → (∀ b ∈ treePath m (n + 1) p (o - 1), b < 2 ^ 63) → J s →
    wp (crawlIndir ops callback start (n + 1) (512 ^ (n + 1)) p blockoff o 0 v .none)
      (fun r t => r = (0, p) ∧ J t) (fun _ _ => False) s := by
  induction n with
  | zero =>
    intro p blockoff o v s short begins some aligned inside valid small here
    apply crawlIndirNode_empty quiet callback short begins some inside valid small here
    rw [span_zero]
    exact fun unaligned => absurd aligned unaligned
  | succ n ih =>
    intro p blockoff o v s short begins some aligned inside valid small here
    have blocks : 512 ^ (n + 2) / blocknosPerIndir = 512 ^ (n + 1) := by
      rw [Nat.pow_succ]
      exact Nat.mul_div_cancel _ (by decide)
    apply crawlIndirNode_empty quiet callback short begins some inside valid small here
    intro unaligned
    refine ⟨decide_eq_false (Nat.succ_ne_zero n), fun parent q t path there => ?_⟩
    have start := Nat.div_mul_le_self o (span (n + 1))
    have under := Nat.mod_lt o (span_pos (n + 1))
    have split := Nat.mod_add_div o (span (n + 1))
    rw [Nat.mul_comm] at split
    have rounded : o % span (n + 1) % blockSize = 0 := by
      rw [span, Nat.mod_mul_right_mod, aligned]
    rw [if_neg (Nat.succ_ne_zero n), blocks]
    exact ih q blockoff _ _ t (by omega) begins (by omega) rounded under.le (by omega) path there

end Empty

end Bpfs.Walk
