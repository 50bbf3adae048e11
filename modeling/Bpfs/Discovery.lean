import Bpfs.BlocknoCrawl
import Bpfs.FileLeaves
import Mathlib.Data.List.Nodup
import Mathlib.Data.List.Perm.Basic

/-! The walk at mount time that marks the blocks of a tree as in use
(`discover_tree_allocations`), compared with the crawler's walk over the same tree. -/

namespace Bpfs
open Lib

/-- `set_block`. A disk block number is ignored. -/
def setBlock (blockno : Nat) : M Unit := do
  if blockno.testBit 63 then pure ()
  else
    check .setBlock (blockno ≠ blocknoInvalid)
    let s ← get
    match s.blockAlloc.set (blockno - 1) with
    | none => throw (.assertion .bitmapSet)
    | some bm => modify fun s => { s with blockAlloc := bm }

/-- The loop of `discover_indir_allocations` over `n` entries from `no` on; `below` is what it does
with a child and the child's valid bytes. -/
def discoverLoop (below : Nat → Nat → M Unit) (indir childMaxNbytes lastno valid : Nat) : Nat → Nat → M Unit
  | 0, _ => pure ()
  | n + 1, no => do
      let addr ← loadAddr indir no
      if addr ≠ blocknoInvalid then
        setBlock addr
        below addr (if no < lastno then childMaxNbytes else usub valid (no * childMaxNbytes))
      discoverLoop below indir childMaxNbytes lastno valid n (no + 1)

/-- `discover_indir_allocations` at the given height. -/
def discoverIndirAllocations : Nat → Nat → Nat → Nat → M Unit
  | 0, _, _, _ => pure ()
  | height + 1, indir, maxNblocks, valid => do
      let childMaxNblocks := maxNblocks / blocknosPerIndir
      let childMaxNbytes := nbytesOfBlocks childMaxNblocks
      if childMaxNbytes = 0 then throw .sigfpe
      let lastno := usub valid 1 / childMaxNbytes
      discoverLoop
        (fun addr childValid =>
          if height = 0 then pure ()
          else do
            let childIndir ← getBlock addr
            discoverIndirAllocations height childIndir childMaxNblocks childValid)
        indir childMaxNbytes lastno valid (lastno + 1) 0

/-- `discover_tree_allocations`. -/
def discoverTreeAllocations (root : Root) : M Unit := do
  let s ← get
  let addr := treeRootAddr s.bpram root
  let height := treeRootHeight s.bpram root
  if addr = blocknoInvalid then pure ()
  else
    setBlock addr
    if height ≠ 0 then
      let indir ← getBlock addr
      discoverIndirAllocations height indir (treeMaxNblocks height) (rootNbytes s.bpram root)

/-- The calls of `set_block` for the tree of height `h` at `p` with `v` valid bytes: a block comes
before its children. -/
def discoverCalls (m : Mem) : Nat → Nat → Nat → List BlockCall
  | 0, p, _ => if p = 0 then [] else [(p, true)]
  | h + 1, p, v =>
      if p = 0 then []
      else (p, false) :: (List.range' 0 ((v - 1) / span h + 1)).flatMap
        (fun k => discoverCalls m h (addrAt m p k) (share h v k))

/-- The children that the walk looks at: those with valid bytes. -/
theorem discover_visits {h v k : Nat} (some : v ≠ 0) (fits : v ≤ span (h + 1)) (visited : k ≤ (v - 1) / span h) :
    k < 512 ∧ share h v k ≠ 0 := by
  have pos := span_pos h
  have before : k * span h ≤ v - 1 := (Nat.le_div_iff_mul_le pos).mp visited
  rw [span_succ] at fits
  refine ⟨?_, by simp only [share]; omega⟩
  by_contra large
  have := Nat.mul_le_mul_right (span h) (show 512 ≤ k by omega)
  omega

section Calls

variable {m : Mem} {D : DiskImage} {c : Nat → UInt8}

/-- The walk only calls `set_block` on blocks of the tree. -/
theorem discoverCalls_sub {h i p v : Nat} (some : v ≠ 0) (fits : v ≤ span h) {call : BlockCall}
    (called : call ∈ discoverCalls m h p v) : call.1 ∈ treeBlocks (dataLeaves D c) m h i p v := by
  induction h generalizing i p v with
  | zero =>
    by_cases hole : p = 0
    · rw [discoverCalls, if_pos hole] at called
      cases called
    · rw [discoverCalls, if_neg hole, List.mem_singleton] at called
      rw [treeBlocks, if_neg some, called]
      exact ⟨rfl, hole⟩
  | succ h ih =>
    by_cases hole : p = 0
    · rw [discoverCalls, if_pos hole] at called
      cases called
    rw [discoverCalls, if_neg hole] at called
    rw [mem_treeBlocks_succ some hole]
    rcases List.mem_cons.mp called with rfl | below
    · exact Or.inl rfl
    · obtain ⟨k, inside, member⟩ := List.mem_flatMap.mp below
      rw [List.mem_range'_1] at inside
      obtain ⟨small, valid⟩ := discover_visits some fits (show k ≤ _ by omega)
      refine Or.inr ⟨k, small, ?_⟩
      rw [kidBlocks, slot, if_neg hole]
      exact ih valid (Nat.min_le_right _ _) member

theorem discoverCalls_nvm {x h i p v : Nat} (some : v ≠ 0) (fits : v ≤ span h)
    (tree : TreeOk (dataLeaves (fun _ => none) c) x m h i p v) {call : BlockCall}
    (called : call ∈ discoverCalls m h p v) : 3 ≤ call.1 ∧ call.1 < 2 ^ 61 := by
  induction h generalizing i p v with
  | zero =>
    by_cases hole : p = 0
    · rw [discoverCalls, if_pos hole] at called
      cases called
    · rw [discoverCalls, if_neg hole, List.mem_singleton] at called
      rw [called]
      rcases (dataLeaves_ok.mp (tree some)).1 with zero | nvm | ⟨-, -, onDisk⟩
      · exact absurd zero hole
      · exact nvm
      · exact absurd rfl onDisk
  | succ h ih =>
    by_cases hole : p = 0
    · rw [discoverCalls, if_pos hole] at called
      cases called
    obtain ⟨pointer, kids, -⟩ := treeOk_node.mp tree some
    rw [discoverCalls, if_neg hole] at called
    rcases List.mem_cons.mp called with rfl | below
    · exact pointer.resolve_left hole
    · obtain ⟨k, inside, member⟩ := List.mem_flatMap.mp below
      rw [List.mem_range'_1] at inside
      obtain ⟨small, valid⟩ := discover_visits some fits (show k ≤ _ by omega)
      have sub := kids.ok k small
      rw [slot, if_neg hole] at sub
      exact ih valid (Nat.min_le_right _ _) sub member

/-- No block is marked twice. -/
theorem discoverCalls_nodup {x h i p v : Nat} (some : v ≠ 0) (fits : v ≤ span h)
    (tree : TreeOk (dataLeaves D c) x m h i p v) : ((discoverCalls m h p v).map Prod.fst).Nodup := by
  induction h generalizing i p v with
  | zero =>
    rw [discoverCalls]
    split <;> simp
  | succ h ih =>
    by_cases hole : p = 0
    · rw [discoverCalls, if_pos hole]
      exact List.nodup_nil
    obtain ⟨-, kids, away⟩ := treeOk_node.mp tree some
    have below : ∀ k, k ∈ List.range' 0 ((v - 1) / span h + 1) → k < 512 ∧ share h v k ≠ 0 := by
      intro k inside
      rw [List.mem_range'_1] at inside
      exact discover_visits some fits (by omega)
    have within : ∀ k, k < 512 → share h v k ≠ 0 → ∀ b ∈ (discoverCalls m h (addrAt m p k) (share h v k)).map Prod.fst,
        b ∈ kidBlocks (dataLeaves D c) m h i (slot m p) v k := by
      intro k small valid b member
      obtain ⟨call, called, rfl⟩ := List.mem_map.mp member
      rw [kidBlocks, slot, if_neg hole]
      exact discoverCalls_sub valid (Nat.min_le_right _ _) called
    rw [discoverCalls, if_neg hole, List.map_cons, List.map_flatMap, List.nodup_cons, List.nodup_flatMap]
    refine ⟨?_, ?_, ?_⟩
    · rw [List.mem_flatMap]
      rintro ⟨k, inside, member⟩
      obtain ⟨small, valid⟩ := below k inside
      exact away k small (within k small valid p member)
    · intro k inside
      obtain ⟨small, valid⟩ := below k inside
      have sub := kids.ok k small
      rw [slot, if_neg hole] at sub
      exact ih valid (Nat.min_le_right _ _) sub
    · refine List.Pairwise.imp_of_mem ?_ List.nodup_range'
      intro j k first second other b left right
      obtain ⟨smallJ, validJ⟩ := below j first
      obtain ⟨smallK, validK⟩ := below k second
      exact kids.apart j k smallJ smallK other b (within j smallJ validJ b left) (within k smallK validK b right)

/-- Both walks call on the same blocks; only the order differs. -/
theorem crawlCalls_perm {hi h i p : Nat} (some : validIn hi h i ≠ 0) :
    (crawlCalls m 0 hi h i p).Perm (discoverCalls m h p (validIn hi h i)) := by
  induction h generalizing i p with
  | zero => rfl
  | succ h ih =>
    by_cases hole : p = 0
    · rw [crawlCalls, discoverCalls, if_pos hole, if_pos hole]
    have first : (enter 0 i - base i) / span h = 0 := by simp [enter]
    have last : leave hi (h + 1) i - base i - 1 = validIn hi (h + 1) i - 1 := by
      simp only [leave, validIn]
      omega
    rw [crawlCalls, discoverCalls, if_neg hole, if_neg hole]
    dsimp only
    rw [first, last, if_pos (Nat.zero_le _), Nat.sub_zero]
    refine (List.perm_append_singleton _ _).trans (List.Perm.cons _ ?_)
    apply List.Perm.flatMap_left
    intro k inside
    rw [List.mem_range'_1] at inside
    obtain ⟨small, valid⟩ := discover_visits some (Nat.min_le_right _ _) (show k ≤ _ by omega)
    rw [share_validIn _ _ _ _ small] at valid ⊢
    exact ih valid

end Calls

section Rule

variable {m : Mem} {T : List BlockCall} {I : List BlockCall → Fs → Prop} {E : Err → Fs → Prop}

/-- What is asked of the walk below the marked block `p` at height `h` with `v` valid bytes. -/
structure Marks (m : Mem) (T : List BlockCall) (I : List BlockCall → Fs → Prop) (E : Err → Fs → Prop) (h p v : Nat)
    (below : Nat → Nat → M Unit) : Prop where
  run : ∀ (s : Fs) (l : List BlockCall), l ++ discoverCalls m h p v <+: T → I (l ++ [(p, decide (h = 0))]) s →
    wp (below p v) (fun _ t => I (l ++ discoverCalls m h p v) t) E s

theorem discoverCalls_cons {h p v : Nat} (present : p ≠ 0) :
    ∃ rest, discoverCalls m h p v = (p, decide (h = 0)) :: rest := by
  cases h with
  | zero => exact ⟨[], by rw [discoverCalls, if_neg present]; rfl⟩
  | succ h => exact ⟨_, by rw [discoverCalls, if_neg present]; rfl⟩

variable (rule : CallRule (fun b _ => setBlock b) m T I E)

include rule

theorem discoverLoop_calls {s : Fs} {h p v n no : Nat} {l : List BlockCall} {below : Nat → Nat → M Unit}
    (some : v ≠ 0) (fits : v ≤ span (h + 1)) (bounded : v < 2 ^ 64) (count : no + n = (v - 1) / span h + 1)
    (marks : ∀ k q, k ≤ (v - 1) / span h → addrAt m p k = q → q ≠ 0 → Marks m T I E h q (share h v k) below)
    (part : l ++ (List.range' no n).flatMap (fun k => discoverCalls m h (addrAt m p k) (share h v k)) <+: T)
    (here : I l s) :
    wp (discoverLoop below p (span h) ((v - 1) / span h) v n no)
      (fun _ t => I (l ++ (List.range' no n).flatMap (fun k => discoverCalls m h (addrAt m p k) (share h v k))) t) E s := by
  induction n generalizing no l s with
  | zero =>
    rw [discoverLoop, wp_pure, List.range'_zero, List.flatMap_nil, List.append_nil]
    exact here
  | succ n ih =>
    have visited : no ≤ (v - 1) / span h := by omega
    obtain ⟨small, valid⟩ := discover_visits some fits visited
    have before : no * span h ≤ v - 1 := (Nat.le_div_iff_mul_le (span_pos h)).mp visited
    have bytes : (if no < (v - 1) / span h then span h else usub v (no * span h)) = share h v no := by
      split
      · have next := Nat.mul_le_mul_right (span h) (show no + 1 ≤ (v - 1) / span h by omega)
        have end_ := Nat.div_mul_le_self (v - 1) (span h)
        rw [Nat.add_mul, Nat.one_mul] at next
        simp only [share]
        omega
      · have last : no = (v - 1) / span h := by omega
        have rest := Nat.lt_div_mul_add (span_pos h) (a := v - 1)
        rw [← last] at rest
        rw [usub_eq (by omega) bounded, share]
        omega
    rw [List.range'_succ, List.flatMap_cons, ← List.append_assoc] at part ⊢
    rw [discoverLoop, bytes, wp_bind, wp_loadAddr small, rule.memory here]
    dsimp only
    generalize entry : addrAt m p no = q at part ⊢
    rcases Nat.eq_zero_or_pos q with hole | present
    · have none : discoverCalls m h q (share h v no) = [] := by
        rw [hole]
        cases h <;> rw [discoverCalls, if_pos rfl]
      rw [none, List.append_nil] at part ⊢
      rw [if_neg (show ¬q ≠ blocknoInvalid from not_not.mpr hole)]
      exact ih (by omega) part here
    · have hole := present.ne'
      obtain ⟨rest, calls⟩ := discoverCalls_cons (m := m) (h := h) (v := share h v no) hole
      have first : l ++ [(q, decide (h = 0))] <+: T := by
        refine List.IsPrefix.trans ?_ part
        rw [calls, List.append_assoc]
        exact (List.prefix_append_right_inj l).mpr ⟨_, rfl⟩
      rw [if_pos (show q ≠ blocknoInvalid from hole), wp_bind]
      refine wp_mono (rule.call first here) (fun _ t marked => ?_) (fun _ _ fails => fails)
      rw [wp_bind]
      exact wp_mono ((marks no q visited entry hole).run t l ((List.prefix_append _ _).trans part) marked)
        (fun _ u after => ih (by omega) part after) (fun _ _ fails => fails)

theorem discoverNode_calls {h p v : Nat} (low : h ≤ 5) (some : v ≠ 0) (fits : v ≤ span (h + 1)) (bounded : v < 2 ^ 64)
    (present : p ≠ 0)
    (marks : ∀ k q, k ≤ (v - 1) / span h → addrAt m p k = q → q ≠ 0 → Marks m T I E h q (share h v k)
      (fun addr childValid => if h = 0 then pure () else do
        let childIndir ← getBlock addr
        discoverIndirAllocations h childIndir (512 ^ h) childValid)) :
    Marks m T I E (h + 1) p v (fun p v => discoverIndirAllocations (h + 1) p (512 ^ (h + 1)) v) := by
  refine ⟨fun s l part here => ?_⟩
  have width : 512 ^ (h + 1) / blocknosPerIndir = 512 ^ h := by
    rw [Nat.pow_succ]
    exact Nat.mul_div_cancel _ (by decide)
  rw [discoverCalls, if_neg present, List.append_cons] at part ⊢
  unfold discoverIndirAllocations
  dsimp only
  rw [width, nbytesOfBlocks_eq low, if_neg (span_pos h).ne', usub_eq (show 1 ≤ v by omega) bounded]
  generalize rounds : (v - 1) / span h + 1 = n at part ⊢
  exact discoverLoop_calls rule some fits bounded (rounds ▸ Nat.zero_add _) marks part here

/-- `discover_indir_allocations` marks the blocks below an indirect block of every height. -/
theorem discoverIndirAllocations_calls {L : Leaves} {x h i p v : Nat} (low : h ≤ 5) (some : v ≠ 0)
    (fits : v ≤ span (h + 1)) (bounded : v < 2 ^ 64) (present : p ≠ 0) (tree : TreeOk L x m (h + 1) i p v) :
    Marks m T I E (h + 1) p v (fun p v => discoverIndirAllocations (h + 1) p (512 ^ (h + 1)) v) := by
  induction h generalizing i p v with
  | zero =>
    refine discoverNode_calls rule low some fits bounded present (fun k q visited entry nonzero => ⟨fun s l part here => ?_⟩)
    rw [discoverCalls, if_neg nonzero]
    exact here
  | succ h ih =>
    refine discoverNode_calls rule low some fits bounded present (fun k q visited entry nonzero => ⟨fun s l part here => ?_⟩)
    obtain ⟨small, valid⟩ := discover_visits some fits visited
    have child := (treeOk_node.mp tree some).2.1.ok k small
    rw [slot, if_neg present, entry] at child
    have pointer := (treeOk_node.mp child valid).1
    rw [if_neg (Nat.succ_ne_zero h), wp_bind, wp_getBlock nonzero (by omega)]
    exact (ih (by omega) valid (Nat.min_le_right _ _) (lt_of_le_of_lt (Nat.min_le_left _ _) (by omega)) nonzero
      child).run s l part here

/-- `discover_tree_allocations` marks the blocks of a tree that holds all of its file. -/
theorem discoverTreeAllocations_calls {L : Leaves} {s : Fs} {R o h p n x : Nat} (root : RootIs s.bpram R o h p n)
    (low : h ≤ 6) (some : n ≠ 0) (fits : p = 0 ∨ h = 0 ∨ n ≤ span h) (tree : TreeOk L x m h 0 p (validIn n h 0))
    (part : discoverCalls m h p n <+: T) (here : I [] s) :
    wp (discoverTreeAllocations ⟨.bpram R, o⟩) (fun _ t => I (discoverCalls m h p n) t) E s := by
  unfold discoverTreeAllocations
  rw [wp_bind, wp_get]
  dsimp only
  rw [root.addr, root.treeRootHeight, root.nbytes, if_neg some]
  rcases Nat.eq_zero_or_pos p with hole | positive
  · have none : discoverCalls m h p n = [] := by cases h <;> rw [discoverCalls, if_pos hole]
    rw [if_pos (show p = blocknoInvalid from hole), wp_pure, none]
    exact here
  have present := positive.ne'
  have small := root.addr_lt
  obtain ⟨rest, calls⟩ := discoverCalls_cons (m := m) (h := h) (v := n) present
  have first : [] ++ [(p, decide (h = 0))] <+: T := List.IsPrefix.trans (calls ▸ ⟨rest, rfl⟩) part
  rw [if_neg (show ¬p = blocknoInvalid from present), wp_bind]
  refine wp_mono (rule.call first here) (fun _ t marked => ?_) (fun _ _ fails => fails)
  cases h with
  | zero =>
    rw [discoverCalls, if_neg present]
    exact marked
  | succ h =>
    have bytes : n ≤ span (h + 1) := by omega
    have whole : validIn n (h + 1) 0 = n := by simp [validIn, base, bytes]
    rw [whole] at tree
    rw [if_pos (Nat.succ_ne_zero h), wp_bind, wp_getBlock present (by omega), treeMaxNblocks_eq low]
    exact (discoverIndirAllocations_calls rule (by omega) some bytes root.nbytes_lt present tree).run t [] part marked

end Rule

/-! ### The two walks side by side -/

/-- The callback is called on `calls`, in this order, on the way from `s` to `t`. -/
inductive Passes (cb : CrawlBlocknoCallback) (s : Fs) : List BlockCall → Fs → Prop where
  | start : Passes cb s [] s
  | noted {l : List BlockCall} {t u : Fs} (before : Passes cb s l t) (step : Noted t u) : Passes cb s l u
  | call {l : List BlockCall} {t u : Fs} {b : Nat} {leaf : Bool} (before : Passes cb s l t)
      (step : cb b leaf t = .ok () u) : Passes cb s (l ++ [(b, leaf)]) u

/-- A callback that keeps the memory and does not stop the crawl. -/
def Plain (cb : CrawlBlocknoCallback) : Prop :=
  ∀ (b : Nat) (leaf : Bool) (s : Fs), ∃ t, cb b leaf s = .ok () t ∧ t.bpram = s.bpram

/-- `discover_tree_allocations` marks, each once, the blocks that `crawl_blocknos` passes to its callback. -/
def SameBlocks (s : Fs) (root : Root) : Prop :=
  ∃ marked passed : List BlockCall,
    (∃ t, discoverTreeAllocations root s = .ok () t ∧ Passes (fun b _ => setBlock b) s marked t) ∧
    (∀ cb, Plain cb → ∃ t, crawlBlocknos root 0 bpfsEof cb s = .ok () t ∧ Passes cb s passed t) ∧
    (marked.map Prod.fst).Nodup ∧ (passed.map Prod.fst).Perm (marked.map Prod.fst)

theorem Plain.rule {cb : CrawlBlocknoCallback} (plain : Plain cb) (s : Fs) (T : List BlockCall) :
    CallRule cb s.bpram T (fun l t => t.bpram = s.bpram ∧ Passes cb s l t) (fun _ _ => False) where
  memory here := here.1
  noted here step := ⟨(noted_bpram step).trans here.1, here.2.noted step⟩
  call {l b leaf t} _ here := by
    obtain ⟨u, run, same⟩ := plain b leaf t
    rw [wp_ok run]
    exact ⟨same.trans here.1, here.2.call run⟩

/-- `set_block` on a block of NVM whose bit is clear. -/
theorem setBlock_spec {s : Fs} {b : Nat} (nvm : 3 ≤ b ∧ b < 2 ^ 61) (clear : s.blockAlloc.bit (b - 1) = false) :
    wp (setBlock b) (fun _ t => t.bpram = s.bpram ∧
      ∀ k, t.blockAlloc.bit k = (decide (k = b - 1) || s.blockAlloc.bit k)) (fun _ _ => False) s := by
  have result : s.blockAlloc.set (b - 1) =
      some { s.blockAlloc.setBit (b - 1) with nfree := usub s.blockAlloc.nfree 1 } := by
    rw [Bitmap.set, clear, if_neg Bool.false_ne_true]
  have low : ¬b.testBit 63 = true := by
    rw [not_testBit_of_lt (by omega)]
    exact Bool.false_ne_true
  unfold setBlock
  rw [if_neg low]
  refine wp_checked (show b ≠ blocknoInvalid by unfold blocknoInvalid; omega) ?_
  rw [wp_bind, wp_get, result]
  exact ⟨rfl, fun k => s.blockAlloc.bit_setBit_with (b - 1) k _ _⟩

/-- The walk's rule when the bits of the blocks it will mark are clear. -/
theorem setBlock_rule {s : Fs} {T : List BlockCall} (distinct : (T.map Prod.fst).Nodup)
    (nvm : ∀ call ∈ T, 3 ≤ call.1 ∧ call.1 < 2 ^ 61) :
    CallRule (fun b _ => setBlock b) s.bpram T (fun l t => t.bpram = s.bpram ∧ Passes (fun b _ => setBlock b) s l t ∧
      ∀ call ∈ T, call.1 ∉ l.map Prod.fst → t.blockAlloc.bit (call.1 - 1) = false) (fun _ _ => False) where
  memory here := here.1
  noted here step := by
    refine ⟨(noted_bpram step).trans here.1, here.2.1.noted step, ?_⟩
    rw [noted_blockAlloc step]
    exact here.2.2
  call {l b leaf t} part here := by
    have member : (b, leaf) ∈ T := part.subset (by simp)
    have new : b ∉ l.map Prod.fst := by
      have prefix_ := (part.map Prod.fst).sublist.nodup distinct
      rw [List.map_append, List.nodup_append] at prefix_
      exact fun old => prefix_.2.2 b old b (by simp) rfl
    obtain ⟨_, u, run, same, bits⟩ := ok_of_wp (setBlock_spec (nvm _ member) (here.2.2 _ member new))
    rw [wp_ok run]
    refine ⟨same.trans here.1, here.2.1.call run, fun call inside other => ?_⟩
    rw [List.map_append, List.mem_append, not_or] at other
    have apart : call.1 ≠ b := by simpa using other.2
    have left := nvm _ inside
    have right := nvm _ member
    rw [bits, here.2.2 call inside other.1, Bool.or_false, decide_eq_false_iff_not]
    omega

section Edges

variable {s : Fs} {R o h p n : Nat} {cb : CrawlBlocknoCallback}

theorem discoverTreeAllocations_hole (root : RootIs s.bpram R o h 0 n) :
    discoverTreeAllocations ⟨.bpram R, o⟩ s = .ok () s := by
  obtain ⟨_, t, run, same⟩ := ok_of_wp (x := discoverTreeAllocations ⟨.bpram R, o⟩) (Q := fun _ t => t = s) (s := s) (by
    unfold discoverTreeAllocations
    rw [wp_bind, wp_get]
    dsimp only
    rw [root.addr, if_pos (show 0 = blocknoInvalid from rfl), wp_pure])
  rw [run, same]

theorem crawlBlocknos_empty (root : RootIs s.bpram R o h p 0) :
    crawlBlocknos ⟨.bpram R, o⟩ 0 bpfsEof cb s = .ok () s := by
  obtain ⟨_, t, run, same⟩ := ok_of_wp (x := crawlBlocknos ⟨.bpram R, o⟩ 0 bpfsEof cb) (Q := fun _ t => t = s) (s := s) (by
    unfold crawlBlocknos
    rw [wp_bind, wp_get]
    dsimp only
    rw [root.nbytes, if_neg (show ¬0 = bpfsEof by decide), if_pos rfl]
    refine wp_checked (Or.inl rfl) (wp_checked (le_refl _) ?_)
    rw [if_pos rfl, wp_pure])
  rw [run, same]

/-- At heights 6 and 7 the crawler's arithmetic on the tree's capacity overflows. -/
theorem nbytesOfBlocks_wraps : nbytesOfBlocks (treeMaxNblocks 6) = 0 ∧ nbytesOfBlocks (treeMaxNblocks 7) = 0 ∧
    nbytesOfBlocks (treeMaxNblocks 6 / blocknosPerIndir) = 2 ^ 57 ∧
    nbytesOfBlocks (treeMaxNblocks 7 / blocknosPerIndir) = 0 := by decide

/-- What `crawl_blocknos` comes down to at these heights. -/
theorem crawlBlocknos_high {Q : Unit → Fs → Prop} {E : Err → Fs → Prop} (root : RootIs s.bpram R o h p n) (some : n ≠ 0)
    (high : h = 6 ∨ h = 7) (node : wp (crawlIndir none (Option.some cb) 0 h (treeMaxNblocks h) p 0 0 0 0 .none)
      (fun _ t => Q () t) E s) :
    wp (crawlBlocknos ⟨.bpram R, o⟩ 0 bpfsEof cb) Q E s := by
  have wraps : nbytesOfBlocks (treeMaxNblocks h) = 0 := by
    rcases high with rfl | rfl
    · exact nbytesOfBlocks_wraps.1
    · exact nbytesOfBlocks_wraps.2.1
  have height : treeRootHeight s.bpram ⟨.bpram R, o⟩ = h := by rw [root.treeRootHeight, if_neg some]
  unfold crawlBlocknos
  rw [wp_bind, wp_get]
  dsimp only
  rw [root.nbytes, height, root.addr, wraps, if_neg (show ¬0 = bpfsEof by decide), if_pos rfl]
  refine wp_checked (Or.inl rfl) (wp_checked (by omega) ?_)
  rw [if_neg (show ¬0 + (n - 0) = 0 by omega), if_neg (show ¬h = 0 by omega),
    show min (n - 0) (usub 0 0) = 0 from Nat.min_zero _, show min n 0 = 0 from Nat.min_zero _, wp_bind]
  exact node

theorem crawlIndir_six {Q : Nat × Nat → Fs → Prop} {E : Err → Fs → Prop} (hole : p = 0 → Q (0, p) s)
    (stop : p ≠ 0 → ∀ t, E (.assertion .crawlIndir) t) (small : p < 2 ^ 61) :
    wp (crawlIndir none (some cb) 0 6 (treeMaxNblocks 6) p 0 0 0 0 .none) Q E s := by
  unfold crawlIndir crawlIndirNode
  dsimp only
  rw [nbytesOfBlocks_wraps.2.2.1, if_neg (by decide)]
  rcases Nat.eq_zero_or_pos p with zero | present
  · rw [if_pos ⟨zero, rfl⟩, wp_pure]
    exact hole zero
  have nonzero := present.ne'
  rw [if_neg (fun both => nonzero both.1), if_neg (fun both => nonzero both.1),
    if_neg (show ¬p = blocknoInvalid from nonzero), wp_bind, wp_pure, wp_bind, wp_getBlock nonzero (by omega), wp_bind]
  -- no byte of the tree counts, so the last child is taken for number 127 and the first is too large
  generalize crawl : (⟨p, 0, 0, 0, 0, .none, _, 2 ^ 57, _⟩ : IndirCrawl) = c
  have last : c.lastno = 127 := by
    rw [← crawl]
    change usub (0 + 0) 1 / 2 ^ 57 = 127
    decide
  have first : c.firstno = 0 := by
    rw [← crawl]
    exact Nat.zero_div _
  have begins : c.blockoff = 0 := by rw [← crawl]
  have size : c.childSize 0 = 2 ^ 57 := by
    rw [IndirCrawl.childSize, last, if_neg (by decide), IndirCrawl.childOff, first, if_pos rfl, ← crawl]
    change 2 ^ 57 - 0 % 2 ^ 57 = 2 ^ 57
    rw [Nat.zero_mod, Nat.sub_zero]
  have room : c.size = 0 := by rw [← crawl]
  rw [last, first]
  change wp (indirLoop c _ _ (127 + 1) 0 p) _ _ _
  rw [indirLoop, wp_bind]
  unfold indirStep
  refine wp_checked (show c.blockoff ≤ _ by rw [begins]; exact Nat.zero_le _) ?_
  rw [wp_bind, wp_check, size, room]
  exact ⟨fun fits => absurd fits (by decide), fun _ => stop nonzero s⟩

theorem crawlIndir_seven : wp (crawlIndir none (some cb) 0 7 (treeMaxNblocks 7) p 0 0 0 0 .none) (fun _ _ => False)
    (fun _ _ => True) s := by
  unfold crawlIndir crawlIndirNode
  dsimp only
  rw [nbytesOfBlocks_wraps.2.2.2, if_pos rfl]
  trivial

/-- Past the last entry of an indirect block the walk reads what is not its. -/
theorem discoverLoop_overruns {below : Nat → Nat → M Unit} {size last v k no : Nat} (inside : no ≤ 512)
    (beyond : 512 < no + k) :
    wp (discoverLoop below p size last v k no) (fun _ _ => False) (fun _ _ => True) s := by
  induction k generalizing no s with
  | zero => omega
  | succ k ih =>
    rw [discoverLoop, wp_bind]
    by_cases end_ : no = 512
    · rw [end_, loadAddr, if_pos (show blocknosPerIndir ≤ 512 from le_refl _)]
      trivial
    rw [wp_loadAddr (by omega)]
    generalize addrAt s.bpram p no = q
    have rest : ∀ t, wp (discoverLoop below p size last v k (no + 1)) (fun _ _ => False) (fun _ _ => True) t :=
      fun t => ih (by omega) (by omega)
    dsimp only
    split
    · exact wp_bind_of_forall (fun _ t => wp_bind_of_forall (fun _ u => rest u) (fun _ _ => trivial))
        (fun _ _ => trivial)
    · exact rest s

/-- `discover_tree_allocations` on a file that is longer than its tree can hold. -/
theorem discoverTreeAllocations_overruns (root : RootIs s.bpram R o (h + 1) p n) (low : h ≤ 5) (present : p ≠ 0)
    (long : span (h + 1) < n) :
    wp (discoverTreeAllocations ⟨.bpram R, o⟩) (fun _ _ => False) (fun _ _ => True) s := by
  have pos := span_pos h
  have bounded := root.nbytes_lt
  have small := root.addr_lt
  have width : 512 ^ (h + 1) / blocknosPerIndir = 512 ^ h := by
    rw [Nat.pow_succ]
    exact Nat.mul_div_cancel _ (by decide)
  have many : 512 ≤ (n - 1) / span h := by
    rw [span_succ] at long
    rw [Nat.le_div_iff_mul_le pos]
    omega
  unfold discoverTreeAllocations
  rw [wp_bind, wp_get]
  dsimp only
  rw [root.addr, root.treeRootHeight, root.nbytes, if_neg (show ¬n = 0 by omega),
    if_neg (show ¬p = blocknoInvalid from present), if_pos (Nat.succ_ne_zero h)]
  refine wp_bind_of_forall (fun _ t => ?_) (fun _ _ => trivial)
  rw [wp_bind, wp_getBlock present (by omega), treeMaxNblocks_eq (by omega)]
  unfold discoverIndirAllocations
  dsimp only
  rw [width, nbytesOfBlocks_eq low, if_neg pos.ne', usub_eq (show 1 ≤ n by omega) bounded]
  generalize rounds : (n - 1) / span h + 1 = k
  exact discoverLoop_overruns (Nat.zero_le _) (by omega)

end Edges

section Fit

-- the rules say all there is to say about the two walks
attribute [local irreducible] discoverTreeAllocations crawlBlocknos

variable {s : Fs} {R o h p n x : Nat} {c : Nat → UInt8}

theorem dataLeaves_nvm : (dataLeaves (fun _ => none) c).Nvm := by
  intro x m i q v _ leaf
  rcases (dataLeaves_ok.mp leaf).1 with zero | nvm | ⟨-, -, onDisk⟩
  · omega
  · omega
  · exact absurd rfl onDisk

/-- What `crawl_blocknos` passes to its callback. -/
theorem crawlBlocknos_passes {cb : CrawlBlocknoCallback} (plain : Plain cb) (root : RootIs s.bpram R o h p n)
    (tree : TreeOk (dataLeaves (fun _ => none) c) x s.bpram h 0 p (validIn n h 0)) (low : h ≤ 5) (some : n ≠ 0) :
    ∃ t, crawlBlocknos ⟨.bpram R, o⟩ 0 bpfsEof cb s = .ok () t ∧
      Passes cb s (crawlCalls s.bpram 0 (min n (span h)) h 0 p) t := by
  have pos := span_pos h
  have cut : validIn n h 0 = validIn (min n (span h)) h 0 := by simp [validIn, base]
  have whole : (if h = 0 ∧ 0 ≠ 0 then [] else crawlCalls s.bpram 0 (min n (span h)) h 0 p) =
      crawlCalls s.bpram 0 (min n (span h)) h 0 p := if_neg (fun both => both.2 rfl)
  have rule := plain.rule s (crawlCalls s.bpram 0 (min n (span h)) h 0 p)
  obtain ⟨_, t, run, -, passes⟩ := ok_of_wp (crawlBlocknos_calls rule dataLeaves_nvm root low (show 0 < _ by omega)
    (cut ▸ tree) (by rw [whole]; exact List.prefix_refl _) ⟨rfl, .start⟩)
  rw [whole] at passes
  exact ⟨t, run, passes⟩

/-- A tree that holds all of its file. -/
theorem sameBlocks_of_fit (root : RootIs s.bpram R o h p n)
    (tree : TreeOk (dataLeaves (fun _ => none) c) x s.bpram h 0 p (validIn n h 0))
    (clear : ∀ b ∈ rootBlocks (dataLeaves (fun _ => none) c) n s.bpram h p, s.blockAlloc.bit (b - 1) = false)
    (low : h ≤ 5) (some : n ≠ 0) (fits : h = 0 ∨ n ≤ span h) : SameBlocks s ⟨.bpram R, o⟩ := by
  have pos := span_pos h
  have valid : validIn n h 0 = min n (span h) := by simp [validIn, base]
  have nonzero : validIn n h 0 ≠ 0 := by omega
  have small : validIn n h 0 ≤ span h := by omega
  have marks : discoverCalls s.bpram h p n = discoverCalls s.bpram h p (validIn n h 0) := by
    cases h with
    | zero => rfl
    | succ h => rw [valid, Nat.min_eq_left (by omega)]
  have distinct := discoverCalls_nodup nonzero small tree
  have rule := setBlock_rule (s := s) distinct (fun call called => discoverCalls_nvm nonzero small tree called)
  obtain ⟨_, t, run, -, passes, -⟩ := ok_of_wp (discoverTreeAllocations_calls rule root (by omega) some (by omega) tree
    (marks ▸ List.prefix_refl _)
    ⟨rfl, .start, fun call called _ => clear _ (discoverCalls_sub nonzero small called)⟩)
  refine ⟨_, _, ⟨t, run, marks ▸ passes⟩, fun cb plain => crawlBlocknos_passes plain root tree low some, distinct, ?_⟩
  have cut : validIn n h 0 = validIn (min n (span h)) h 0 := by simp [validIn, base]
  rw [cut]
  exact (crawlCalls_perm (cut ▸ nonzero)).map _

/-- A tree without a block. -/
theorem sameBlocks_of_hole (root : RootIs s.bpram R o h 0 n)
    (tree : TreeOk (dataLeaves (fun _ => none) c) x s.bpram h 0 0 (validIn n h 0)) (low : n = 0 ∨ h ≤ 6) :
    SameBlocks s ⟨.bpram R, o⟩ := by
  refine ⟨[], [], ⟨s, discoverTreeAllocations_hole root, .start⟩, fun cb plain => ?_, List.nodup_nil, List.Perm.refl _⟩
  by_cases empty : n = 0
  · subst empty
    exact ⟨s, crawlBlocknos_empty root, .start⟩
  by_cases top : h = 6
  · subst top
    have walk : wp (crawlBlocknos ⟨.bpram R, o⟩ 0 bpfsEof cb) (fun _ t => t = s) (fun _ _ => False) s :=
      crawlBlocknos_high root empty (Or.inl rfl)
        (crawlIndir_six (fun _ => rfl) (fun present => absurd rfl present) (by decide))
    obtain ⟨_, t, run, same⟩ := ok_of_wp walk
    exact ⟨t, run, same ▸ .start⟩
  · have passes := crawlBlocknos_passes plain root tree (by omega) empty
    have none : crawlCalls s.bpram 0 (min n (span h)) h 0 0 = [] := by cases h <;> rw [crawlCalls, if_pos rfl]
    rwa [none] at passes

/-- A file that is longer than its tree can hold. -/
theorem not_sameBlocks_of_long (root : RootIs s.bpram R o (h + 1) p n) (low : h ≤ 5) (present : p ≠ 0)
    (long : span (h + 1) < n) : ¬SameBlocks s ⟨.bpram R, o⟩ := by
  rintro ⟨-, -, ⟨t, marks, -⟩, -⟩
  exact (wp_ok marks).mp (discoverTreeAllocations_overruns root low present long)

/-- The walk at mount time sees the blocks that the crawler sees exactly if the tree's capacity fits in 64 bits
and the file is no longer than that capacity, unless there is no indirect block to walk. -/
theorem sameBlocks_iff (root : RootIs s.bpram R o h p n)
    (tree : TreeOk (dataLeaves (fun _ => none) c) x s.bpram h 0 p (validIn n h 0))
    (clear : ∀ b ∈ rootBlocks (dataLeaves (fun _ => none) c) n s.bpram h p, s.blockAlloc.bit (b - 1) = false) :
    SameBlocks s ⟨.bpram R, o⟩ ↔ n = 0 ∨ h = 0 ∨ (p = 0 ∧ h ≤ 6) ∨ (h ≤ 5 ∧ n ≤ span h) := by
  constructor
  · intro same
    have ⟨_, _, _, walks, _, _⟩ := same
    by_contra other
    simp only [not_or, not_and_or] at other
    obtain ⟨some, indirect, hole, fits⟩ := other
    obtain ⟨u, walk, -⟩ := walks (fun _ _ => pure ()) (fun _ _ s => ⟨s, rfl, rfl⟩)
    have top := root.height_lt
    by_cases seven : h = 7
    · subst seven
      exact (wp_ok walk).mp (crawlBlocknos_high (Q := fun _ _ => False) root some (Or.inr rfl) crawlIndir_seven)
    have present : p ≠ 0 := by omega
    by_cases six : h = 6
    · subst six
      exact (wp_ok walk).mp (crawlBlocknos_high (Q := fun _ _ => False) (E := fun _ _ => True) root some (Or.inl rfl)
        (crawlIndir_six (fun zero => absurd zero present) (fun _ _ => trivial) root.addr_lt))
    · obtain ⟨h, rfl⟩ : ∃ k, h = k + 1 := ⟨h - 1, by omega⟩
      exact not_sameBlocks_of_long root (by omega) present (by omega) same
  · intro holds
    by_cases empty : n = 0
    · subst empty
      obtain rfl := root.hole
      exact sameBlocks_of_hole root tree (Or.inl rfl)
    rcases holds with none | leaf | ⟨hole, low⟩ | ⟨low, fits⟩
    · exact absurd none empty
    · exact sameBlocks_of_fit root tree clear (by omega) empty (Or.inl leaf)
    · subst hole
      exact sameBlocks_of_hole root tree (Or.inr low)
    · exact sameBlocks_of_fit root tree clear low empty (Or.inr fits)

end Fit

/-- A file whose root is at the start of block 3: one byte longer than its tree of height 1, an indirect block
without entries, can hold. -/
def stretched : Fs where
  bpram b o := if b = 3 then (if o = 0 then 33 else if o = 8 then 1 else if o = 10 then 32 else 0) else 0
  blockAlloc := ⟨fun _ => 0, 64, 64, [], [], 0⟩
  inodeAlloc := ⟨fun _ => 0, 0, 0, [], [], 0⟩
  disk := DiskManager.initializeDiskManager (8 * blockSize) blockSize (fun _ => 0) 0
  indirMapping _ := 0
  currentIndirPointer := 0
  treeNblocksNblocks := 0
  iov := []
  inode := (.zeroBlock, 0)
  writes := []
  allocFailures := 0
  cacheCalls := []
  mappingAccesses := []

theorem stretched_root : RootIs stretched.bpram 3 0 1 4 (2 ^ 21 + 1) := ⟨by decide, by decide, by decide⟩

theorem stretched_tree (x v : Nat) :
    TreeOk (dataLeaves (fun _ => none) (fun _ => 0)) x stretched.bpram 1 0 4 v := by
  have entries : ∀ k, slot stretched.bpram 4 k = 0 := by
    intro k
    change leValue (fun _ => 0) 8 = 0
    decide
  refine treeOk_node.mpr (fun _ => ⟨Or.inr (by decide), ⟨fun k _ _ => ?_, fun j k _ _ _ b member => ?_⟩, fun k _ => ?_⟩)
  · rw [entries]
    exact dataLeaves_ok.mpr ⟨Or.inl rfl, fun o _ _ => leafByte_hole⟩
  · rw [kidBlocks, entries, treeBlocks_hole] at member
    exact member.elim
  · rw [kidBlocks, entries, treeBlocks_hole]
    exact id

theorem stretched_clear (b : Nat) : stretched.blockAlloc.bit b = false := Nat.zero_testBit _

theorem sameBlocks_iff_stretched : RootIs stretched.bpram 3 0 1 4 (2 ^ 21 + 1) ∧
    (SameBlocks stretched ⟨.bpram 3, 0⟩ ↔
      2 ^ 21 + 1 = 0 ∨ 1 = 0 ∨ (4 = 0 ∧ 1 ≤ 6) ∨ (1 ≤ 5 ∧ 2 ^ 21 + 1 ≤ span 1)) :=
  ⟨stretched_root, sameBlocks_iff (x := 0) stretched_root (stretched_tree _ _) (fun _ _ => stretched_clear _)⟩

/-- Here the walk at mount time runs off the end of the indirect block. -/
theorem stretched_overruns : ¬SameBlocks stretched ⟨.bpram 3, 0⟩ :=
  not_sameBlocks_of_long stretched_root (by decide) (by decide) (by decide)

end Bpfs
