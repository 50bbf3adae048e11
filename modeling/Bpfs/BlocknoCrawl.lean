import Bpfs.LeafCrawl
import Bpfs.TreeRoot

/-! The read-only crawl over block numbers (`crawl_blocknos`): which blocks it passes to its
callback, and in which order. -/

namespace Bpfs
open Lib

/-- A block number and whether it is a leaf, as they are passed to the callback. -/
abbrev BlockCall := Nat × Bool

/-- The calls that a crawl of the bytes from `lo` to `hi` makes in the subtree of height `h` that
starts at leaf `i` and hangs off `p`: a block comes after its children, and an indirect block only
if the crawl has all of it. -/
def crawlCalls (m : Mem) (lo hi : Nat) : Nat → Nat → Nat → List BlockCall
  | 0, _, p => if p = 0 then [] else [(p, true)]
  | h + 1, i, p =>
      if p = 0 then []
      else
        let first := (enter lo i - base i) / span h
        let last := (leave hi (h + 1) i - base i - 1) / span h
        (List.range' first (last + 1 - first)).flatMap (fun k => crawlCalls m lo hi h (kid h i k) (addrAt m p k)) ++
          if lo ≤ base i then [(p, false)] else []

theorem validIn_ne_zero {lo hi h i : Nat} (meets : enter lo i < leave hi h i) : validIn hi h i ≠ 0 := by
  simp only [enter, leave, validIn] at *
  omega

/-- No leaf is on disk. -/
def Leaves.Nvm (L : Leaves) : Prop := ∀ {x : Nat} {m : Mem} {i q v : Nat}, v ≠ 0 → L.ok x m i q v → q < 2 ^ 63

section Rule

/- The rule for a crawl: `I l t` describes the state after the calls `l`, while memory is still `m`. -/
variable {L : Leaves} {cb : CrawlBlocknoCallback} {m : Mem} {T : List BlockCall} {I : List BlockCall → Fs → Prop}
  {E : Err → Fs → Prop}

/-- What the callback has to do for the rule: keep the memory, and take the state from one call to the next. -/
structure CallRule (cb : CrawlBlocknoCallback) (m : Mem) (T : List BlockCall) (I : List BlockCall → Fs → Prop)
    (E : Err → Fs → Prop) : Prop where
  memory : ∀ {l : List BlockCall} {t : Fs}, I l t → t.bpram = m
  noted : ∀ {l : List BlockCall} {t u : Fs}, I l t → Noted t u → I l u
  call : ∀ {l : List BlockCall} {b : Nat} {leaf : Bool} {t : Fs}, l ++ [(b, leaf)] <+: T → I l t →
    wp (cb b leaf) (fun _ u => I (l ++ [(b, leaf)]) u) E t

variable (rule : CallRule cb m T I E)

include rule

theorem crawlLeaf_calls {s : Fs} {start p blockoff off size valid : Nat} {indir : Option Nat} {l : List BlockCall}
    (begins : start / blockSize ≤ blockoff) (inside : off < blockSize) (fits : off + size ≤ blockSize)
    (short : valid ≤ blockSize) (nvm : p < 2 ^ 63) (part : l ++ (if p = 0 then [] else [(p, true)]) <+: T)
    (here : I l s) :
    wp (crawlLeaf none (some cb) start indir p blockoff off size valid .none)
      (fun r t => r = (0, p) ∧ I (l ++ if p = 0 then [] else [(p, true)]) t) E s := by
  have rest : ∀ t, I l t → wp (if p = blocknoInvalid ∧ Commit.none = Commit.none then pure (0, p)
      else do
        check .crawlLeaf (p = p)
        cb p true
        pure (0, p) : M (Nat × Nat)) (fun r t => r = (0, p) ∧ I (l ++ if p = 0 then [] else [(p, true)]) t) E t := by
    intro t there
    by_cases hole : p = 0
    · rw [if_pos ⟨hole, rfl⟩, wp_pure, if_pos hole, List.append_nil]
      exact ⟨rfl, there⟩
    · rw [if_neg (fun both => hole both.1)]
      refine wp_checked rfl ?_
      rw [if_neg hole] at part ⊢
      rw [wp_bind]
      exact wp_mono (rule.call part there) (fun _ u after => ⟨rfl, after⟩) (fun _ _ fails => fails)
  unfold crawlLeaf
  dsimp only
  refine wp_checked begins (wp_checked inside (wp_checked fits (wp_checked short ?_)))
  rw [if_neg (fun both => both.1 rfl), wp_bind, wp_pure]
  cases indir with
  | none => exact rest s here
  | some indir =>
    dsimp only
    rw [wp_bind]
    exact wp_mono (noteIndir_spec nvm) (fun _ t noted => rest t (rule.noted here noted)) (fun _ _ never => never.elim)

/-- What a crawl from `lo` to `hi` is asked to do with the subtree of height `h` at leaf `i` and pointer `p`. -/
def Walks (m : Mem) (T : List BlockCall) (I : List BlockCall → Fs → Prop) (E : Err → Fs → Prop) (lo hi h i p : Nat)
    (op : ChildCrawl) : Prop :=
  ∀ (parent : Nat) (s : Fs) (l : List BlockCall), l ++ crawlCalls m lo hi h i p <+: T → I l s →
    wp (op parent p (enter lo i / blockSize) (enter lo i - base i) (leave hi h i - enter lo i) (validIn hi h i) .none)
      (fun r t => r = (0, p) ∧ I (l ++ crawlCalls m lo hi h i p) t) E s

variable (w : Visit) (whole : w.g = w.hi) {p : Nat} {leaves : Bool} {op : ChildCrawl}

include whole

/-- One round of the loop. -/
theorem indirStep_calls {s : Fs} {k q : Nat} {l : List BlockCall} (present : p ≠ 0)
    (visited : w.firstno ≤ k ∧ k ≤ w.lastno) (entry : addrAt m p k = q) (nvm : leaves = true → q < 2 ^ 63)
    (walks : Walks m T I E w.lo w.hi w.h (w.kid k) q op)
    (part : l ++ crawlCalls m w.lo w.hi w.h (w.kid k) q <+: T) (here : I l s) :
    wp (indirStep (w.crawl p .none) leaves op p k)
      (fun r t => r = (0, p) ∧ I (l ++ crawlCalls m w.lo w.hi w.h (w.kid k) q) t) E s := by
  have meets := w.visited_meets visited
  have below : w.i ≤ w.kid k := Nat.le_add_right _ _
  have order : enter w.lo w.i ≤ enter w.lo (w.kid k) := by
    simp only [enter, base]
    have := Nat.mul_le_mul_left blockSize below
    omega
  have within : leave w.hi w.h (w.kid k) ≤ leave w.hi (w.h + 1) w.i := by
    have room := mul_span_le (h := w.h) (w.visited_lt visited)
    simp only [leave, w.base_kid]
    omega
  have notInHole : (w.crawl p .none).inHole = false := decide_eq_false present
  have valid : ¬validIn w.g w.h (w.kid k) = 0 := by
    rw [whole]
    exact validIn_ne_zero meets
  have memory : addrAt s.bpram p k = q := by rw [rule.memory here, entry]
  have far : ¬(leaves = true ∧ q.testBit 63 = true) := by
    rintro ⟨low, high⟩
    rw [not_testBit_of_lt (nvm low)] at high
    cases high
  unfold indirStep
  refine wp_checked ?_ (wp_checked ?_ (wp_checked ?_ ?_))
  · rw [w.crawl_childBlockoff visited]
    exact Nat.div_le_div_right order
  · rw [w.crawl_childSize visited]
    change _ ≤ leave w.hi (w.h + 1) w.i - enter w.lo w.i
    omega
  · rw [w.crawl_childSize visited]
    change _ ≤ span w.h
    simp only [leave, enter] at *
    omega
  unfold indirChild
  rw [w.crawl_childValid (w.visited_lt visited), notInHole, if_neg (by simpa using valid)]
  simp only [wp_bind, wp_loadAddr (w.visited_lt visited), wp_pure, memory, far, if_false]
  rw [w.crawl_childBlockoff visited, w.crawl_childOff visited, w.crawl_childSize visited, whole]
  refine wp_mono (walks p s l part here) ?_ (fun _ _ fails => fails)
  rintro r t ⟨rfl, after⟩
  have settled : ¬(q ≠ q ∨ (w.crawl p .none).inHole = true) := by
    rw [notInHole]
    simp
  simp only [indirSettle, if_neg settled, wp_bind, wp_pure]
  exact ⟨rfl, after⟩

theorem indirLoop_calls {s : Fs} {n no : Nat} {l : List BlockCall} (present : p ≠ 0) (from_first : w.firstno ≤ no)
    (count : no + n = w.lastno + 1) (nvm : ∀ k, k < 512 → w.firstno ≤ k ∧ k ≤ w.lastno → leaves = true → addrAt m p k < 2 ^ 63)
    (walks : ∀ k, k < 512 → w.firstno ≤ k ∧ k ≤ w.lastno → Walks m T I E w.lo w.hi w.h (w.kid k) (addrAt m p k) op)
    (part : l ++ (List.range' no n).flatMap (fun k => crawlCalls m w.lo w.hi w.h (w.kid k) (addrAt m p k)) <+: T)
    (here : I l s) :
    wp (indirLoop (w.crawl p .none) leaves op n no p) (fun r t => r = (0, p) ∧
      I (l ++ (List.range' no n).flatMap (fun k => crawlCalls m w.lo w.hi w.h (w.kid k) (addrAt m p k))) t) E s := by
  induction n generalizing no l s with
  | zero =>
    rw [indirLoop, wp_pure, List.range'_zero, List.flatMap_nil, List.append_nil]
    exact ⟨rfl, here⟩
  | succ n ih =>
    have visited : w.firstno ≤ no ∧ no ≤ w.lastno := ⟨from_first, by omega⟩
    have small := w.visited_lt visited
    rw [List.range'_succ, List.flatMap_cons, ← List.append_assoc] at part ⊢
    rw [indirLoop, wp_bind]
    refine wp_mono (indirStep_calls rule w whole present visited rfl (nvm no small visited) (walks no small visited)
      ((List.prefix_append _ _).trans part) here) ?_ (fun _ _ fails => fails)
    rintro r t ⟨rfl, after⟩
    exact ih (by omega) (by omega) part after

/-- `crawl_indir` over block numbers makes the calls it should if what it calls on each child does. -/
theorem walks_node {start : Nat} (nvm : p < 2 ^ 63)
    (resident : p ≠ 0 → ∀ k, k < 512 → w.firstno ≤ k ∧ k ≤ w.lastno → leaves = true → addrAt m p k < 2 ^ 63)
    (walks : p ≠ 0 → ∀ k, k < 512 → w.firstno ≤ k ∧ k ≤ w.lastno →
      Walks m T I E w.lo w.hi w.h (w.kid k) (addrAt m p k) op) :
    Walks m T I E w.lo w.hi (w.h + 1) w.i p
      (fun _ => crawlIndirNode none (some cb) start leaves op (512 ^ (w.h + 1))) := by
  intro parent s l part here
  have low := w.low
  have width : 512 ^ (w.h + 1) / blocknosPerIndir = 512 ^ w.h := by
    rw [Nat.pow_succ]
    exact Nat.mul_div_cancel _ (by decide)
  have pos : ¬span w.h = 0 := (span_pos w.h).ne'
  unfold crawlIndirNode
  dsimp only
  rw [width, nbytesOfBlocks_eq (show w.h ≤ 5 by omega), if_neg pos]
  by_cases hole : p = 0
  · rw [if_pos ⟨hole, rfl⟩, wp_pure]
    rw [crawlCalls, if_pos hole, List.append_nil]
    exact ⟨rfl, here⟩
  have crawl : (⟨p, enter w.lo w.i / blockSize, enter w.lo w.i - base w.i, leave w.hi (w.h + 1) w.i - enter w.lo w.i,
      validIn w.hi (w.h + 1) w.i, .none, 512 ^ w.h, span w.h, decide (p = blocknoInvalid)⟩ : IndirCrawl) =
      w.crawl p .none := by
    rw [Visit.crawl, whole]
    rfl
  rw [if_neg (fun both => hole both.1), if_neg (fun both => hole both.1), if_neg (show ¬p = blocknoInvalid from hole),
    wp_bind, wp_pure, wp_bind, wp_getBlock hole nvm, wp_bind, crawl, w.crawl_lastno, w.crawl_firstno]
  rw [crawlCalls, if_neg hole, ← List.append_assoc] at part ⊢
  refine wp_mono (indirLoop_calls rule w whole hole (le_refl w.firstno)
    (show w.firstno + (w.lastno + 1 - w.firstno) = _ by have := w.firstno_le_lastno; omega) (resident hole) (walks hole) ((List.prefix_append _ _).trans part) here) ?_
    (fun _ _ fails => fails)
  rintro r t ⟨rfl, after⟩
  dsimp only
  by_cases all : w.lo ≤ base w.i
  · have start : enter w.lo w.i - base w.i = 0 := by
      simp only [enter]
      omega
    rw [if_pos start]
    refine wp_checked rfl (wp_checked rfl ?_)
    rw [if_pos all] at part ⊢
    rw [wp_bind]
    exact wp_mono (rule.call part after) (fun _ u last => ⟨rfl, last⟩) (fun _ _ fails => fails)
  · have start : ¬enter w.lo w.i - base w.i = 0 := by
      simp only [enter]
      omega
    rw [if_neg start, wp_pure, if_neg all, List.append_nil]
    exact ⟨rfl, after⟩

omit whole

theorem walks_leaf {lo hi i p x : Nat} (nvm : L.Nvm) (meets : enter lo i < leave hi 0 i)
    (tree : TreeOk L x m 0 i p (validIn hi 0 i)) :
    Walks m T I E lo hi 0 i p (fun parent => crawlLeaf none (some cb) lo (some parent)) := by
  intro parent s l part here
  have valid := validIn_ne_zero meets
  have size := span_zero
  refine crawlLeaf_calls rule (Nat.div_le_div_right (Nat.le_max_left _ _)) ?_ ?_ ?_ (nvm valid (tree valid)) part here
  · simp only [enter, leave] at *
    omega
  · simp only [enter, leave] at *
    omega
  · simp only [validIn]
    omega

omit rule in
/-- What a well-formed tree says of an indirect block and of the subtrees under it. -/
theorem TreeOk.parts {hi h i p x : Nat} (tree : TreeOk L x m (h + 1) i p (validIn hi (h + 1) i))
    (some : validIn hi (h + 1) i ≠ 0) : p < 2 ^ 63 ∧
      (p ≠ 0 → ∀ k, k < 512 → TreeOk L x m h (kid h i k) (addrAt m p k) (validIn hi h (kid h i k))) := by
  obtain ⟨pointer, kids, -⟩ := treeOk_node.mp tree some
  refine ⟨by omega, fun present k small => ?_⟩
  have sub := kids.ok k small
  rwa [share_validIn _ _ _ _ small, slot, if_neg present] at sub

/-- `crawl_indir` over block numbers makes the calls it should in trees of every height. -/
theorem walks_indir {lo hi h i p x : Nat} (nvm : L.Nvm) (low : h + 1 ≤ 6) (bounded : hi < 2 ^ 64)
    (meets : enter lo i < leave hi (h + 1) i) (tree : TreeOk L x m (h + 1) i p (validIn hi (h + 1) i)) :
    Walks m T I E lo hi (h + 1) i p (fun _ => crawlIndir none (some cb) lo (h + 1) (512 ^ (h + 1))) := by
  induction h generalizing i p with
  | zero =>
    let w : Visit := ⟨hi, lo, hi, 0, i, low, bounded, meets⟩
    obtain ⟨small, kids⟩ := tree.parts (validIn_ne_zero meets)
    have body : crawlIndir none (Option.some cb) lo (0 + 1) (512 ^ (0 + 1)) = crawlIndirNode none (Option.some cb) lo
        (decide (0 = 0)) (fun parent => crawlLeaf none (Option.some cb) lo (Option.some parent)) (512 ^ (0 + 1)) := rfl
    rw [body]
    refine walks_node rule w rfl small (fun present k inside visited _ => ?_)
      (fun present k inside visited => walks_leaf rule nvm (w.visited_meets visited) (kids present k inside))
    have valid : validIn hi 0 (kid 0 i k) ≠ 0 := validIn_ne_zero (w.visited_meets visited)
    exact nvm valid (kids present k inside valid)
  | succ h ih =>
    let w : Visit := ⟨hi, lo, hi, h + 1, i, low, bounded, meets⟩
    obtain ⟨small, kids⟩ := tree.parts (validIn_ne_zero meets)
    have width : 512 ^ (h + 1 + 1) / blocknosPerIndir = 512 ^ (h + 1) := by
      rw [Nat.pow_succ]
      exact Nat.mul_div_cancel _ (by decide)
    have body : crawlIndir none (Option.some cb) lo (h + 1 + 1) (512 ^ (h + 1 + 1)) = crawlIndirNode none (Option.some cb)
        lo (decide (h + 1 = 0)) (fun _ => crawlIndir none (Option.some cb) lo (h + 1) (512 ^ (h + 1)))
        (512 ^ (h + 1 + 1)) := by
      rw [← width]
      rfl
    rw [body]
    exact walks_node rule w rfl small (fun _ _ _ _ inner => by cases inner)
      (fun present k inside visited => ih (by omega) (w.visited_meets visited) (kids present k inside))

omit w in
/-- `crawl_blocknos` from `off` to the end of the file. -/
theorem crawlBlocknos_calls {s : Fs} {R o h p n off x : Nat} {l : List BlockCall} (nvm : L.Nvm)
    (root : RootIs s.bpram R o h p n) (low : h ≤ 5) (before : off < min n (span h))
    (tree : TreeOk L x m h 0 p (validIn (min n (span h)) h 0))
    (part : l ++ (if h = 0 ∧ off ≠ 0 then [] else crawlCalls m off (min n (span h)) h 0 p) <+: T) (here : I l s) :
    wp (crawlBlocknos ⟨.bpram R, o⟩ off bpfsEof cb)
      (fun _ t => I (l ++ if h = 0 ∧ off ≠ 0 then [] else crawlCalls m off (min n (span h)) h 0 p) t) E s := by
  have some : n ≠ 0 := by omega
  have small := root.nbytes_lt
  have height : treeRootHeight s.bpram ⟨.bpram R, o⟩ = h := by rw [root.treeRootHeight, if_neg some]
  have capacity : nbytesOfBlocks (treeMaxNblocks h) = span h := by
    rw [treeMaxNblocks_eq (by omega), nbytesOfBlocks_eq low]
  have bytes := span_lt low
  have notEof : ¬off = bpfsEof := by unfold bpfsEof; omega
  have zero : base 0 = 0 := Nat.mul_zero _
  have starts : enter off 0 = off := by simp [enter, zero]
  have ends : leave (min n (span h)) h 0 = min n (span h) := by simp [leave, zero]
  have meets : enter off 0 < leave (min n (span h)) h 0 := by rw [starts, ends]; exact before
  have size : min (n - off) (usub (span h) off) = leave (min n (span h)) h 0 - enter off 0 := by
    rw [starts, ends, usub_eq (by omega) bytes]
    omega
  have valid : min n (span h) = validIn (min n (span h)) h 0 := by simp [validIn, zero]
  unfold crawlBlocknos
  rw [wp_bind, wp_get]
  dsimp only
  rw [height, root.nbytes, root.addr, capacity, if_neg notEof, if_pos rfl]
  refine wp_checked (by omega) (wp_checked (by omega) ?_)
  rw [if_neg (show ¬off + (n - off) = 0 by omega), size]
  cases h with
  | zero =>
    by_cases first : off = 0
    · subst first
      have calls : (if 0 = 0 ∧ 0 ≠ 0 then [] else crawlCalls m 0 (min n (span 0)) 0 0 p) =
          crawlCalls m 0 (min n (span 0)) 0 0 p := if_neg (by simp)
      have fits := span_zero
      rw [calls] at part ⊢
      simp only [if_true]
      rw [wp_bind]
      refine wp_mono (crawlLeaf_calls rule (Nat.zero_le _) (by decide) ?_ ?_ ?_ part here) (fun r t done => done.2)
        (fun _ _ fails => fails)
      · rw [starts, ends]
        omega
      · omega
      · have nonzero := validIn_ne_zero meets
        exact nvm nonzero (tree nonzero)
    · have calls : (if 0 = 0 ∧ off ≠ 0 then [] else crawlCalls m off (min n (span 0)) 0 0 p) = [] :=
        if_pos ⟨rfl, first⟩
      rw [calls, List.append_nil] at part ⊢
      simp only [if_true, first, if_false]
      exact here
  | succ h =>
    have calls : (if h + 1 = 0 ∧ off ≠ 0 then [] else crawlCalls m off (min n (span (h + 1))) (h + 1) 0 p) =
        crawlCalls m off (min n (span (h + 1))) (h + 1) 0 p := if_neg (fun both => Nat.succ_ne_zero h both.1)
    rw [calls] at part ⊢
    rw [if_neg (Nat.succ_ne_zero h), wp_bind, treeMaxNblocks_eq (show h + 1 ≤ 6 by omega)]
    have walk := walks_indir rule nvm (show h + 1 ≤ 6 by omega) (by omega) meets tree 0 s l part here
    rw [starts, ← valid] at walk
    rw [starts]
    exact wp_mono walk (fun r t done => done.2) (fun _ _ fails => fails)

end Rule

end Bpfs
