import Bpfs.Eviction
import Bpfs.FileOps
import Bpfs.Lib.Frame

/-! The table of parents, `indir_mapping`. It has `nblocks` entries and is indexed with
block numbers, which start at 1; the uses of the table check for `<= nblocks` or not at all. -/

namespace Bpfs
open Lib

/-- The table as it is indexed. -/
abbrev accesses (s : Fs) : List Nat := s.mappingAccesses

theorem frames_check {site : Site} {c : Prop} [Decidable c] : Frames accesses (check site c) :=
  frames_ite (frames_pure _) (frames_throw _)

theorem frames_storeNvm {w : Write} : Frames accesses (storeNvm w) := frames_modify fun _ => by rfl

theorem frames_allocBlock : Frames accesses allocBlock := by
  simp only [allocBlock]
  with_reducible refine Frames.bind frames_get fun s => frames_ite ?_ ?_
  · exact (frames_modify fun _ => by rfl).bind fun _ => frames_pure _
  · exact (frames_modify fun _ => by rfl).bind fun _ => frames_check.bind fun _ => frames_pure _

theorem frames_freeBlock {b : Nat} : Frames accesses (freeBlock b) := by
  refine frames_ite (frames_pure _) (frames_check.bind fun _ => frames_check.bind fun _ => ?_)
  with_reducible refine Frames.bind frames_get fun s => ?_
  cases s.blockAlloc.free (b - 1) with
  | none => exact frames_throw _
  | some bm => exact frames_modify fun _ => by rfl

theorem frames_readDisk {no : Nat} : Frames accesses (readDisk no) := by
  unfold readDisk
  with_reducible refine Frames.bind frames_get fun s => ?_
  cases s.disk.load no with
  | none => exact frames_throw _
  | some loaded => exact (frames_modify fun _ => by rfl).bind fun _ => frames_pure _

theorem frames_installBlock {site : Site} {b new : Nat} {buf : Nat → UInt8} {indir : M Nat} (inner : Frames accesses indir) :
    Frames accesses (installBlock site b new buf indir) := by
  unfold installBlock
  refine frames_storeNvm.bind fun _ => inner.bind fun parent => ?_
  with_reducible refine Frames.bind frames_get fun s => ?_
  cases findAddr s.bpram parent b blocknosPerIndir 0 with
  | none => exact frames_throw _
  | some j => exact frames_storeNvm.bind fun _ => frames_pure _

theorem frames_fetchBlock {site : Site} {b : Nat} {indir : M Nat} (inner : Frames accesses indir) :
    Frames accesses (fetchBlock site b indir) :=
  frames_readDisk.bind fun _ => frames_allocBlock.bind fun _ => frames_installBlock inner

theorem frames_getBlock {b : Nat} : Frames accesses (getBlock b) := by
  refine frames_check.bind fun _ => frames_ite (frames_get.bind fun s => ?_) (frames_pure _)
  refine (frames_fetchBlock ?_).bind fun newBlock => Frames.bind ?_ fun _ => frames_pure _
  · exact frames_ite (frames_throw _) (frames_check.bind fun _ => frames_pure _)
  · exact frames_modify fun _ => by rfl

theorem frames_cowBlock {b off size valid : Nat} : Frames accesses (cowBlock b off size valid) := by
  refine frames_check.bind fun _ => frames_check.bind fun _ => frames_allocBlock.bind fun newBlockno =>
    frames_ite (frames_throw _) ?_
  refine frames_getBlock.bind fun oldBlock => frames_getBlock.bind fun newBlock => frames_get.bind fun s =>
    frames_storeNvm.bind fun _ => frames_ite ?_ ?_
  · exact frames_storeNvm.bind fun _ => frames_freeBlock.bind fun _ => frames_pure _
  · exact frames_freeBlock.bind fun _ => frames_pure _

/-! ### Indices -/

/-- From `s` to `t` the table was accessed at the indices `l`. -/
def Accessed (s : Fs) (l : List Nat) (t : Fs) : Prop := accesses t = accesses s ++ l

/-- From `s` to `t` every access to the table was to one of its `nblocks` entries. -/
def InBounds (nblocks : Nat) (s t : Fs) : Prop := ∃ l, Accessed s l t ∧ ∀ i ∈ l, i < nblocks

theorem Accessed.inBounds_iff {s t : Fs} {l : List Nat} {n : Nat} (accessed : Accessed s l t) :
    InBounds n s t ↔ ∀ i ∈ l, i < n := by
  constructor
  · rintro ⟨l', accessed', bound⟩
    have same : l = l' := List.append_cancel_left (accessed.symm.trans accessed')
    rw [same]
    exact bound
  · exact fun bound => ⟨l, accessed, bound⟩

theorem Accessed.trans {s t u : Fs} {l l' : List Nat} (first : Accessed s l t) (second : Accessed t l' u) :
    Accessed s (l ++ l') u := by
  rw [Accessed] at *
  rw [second, first, List.append_assoc]

theorem accessed_loadMapping (s : Fs) (b : Nat) :
    Accessed s [b] { s with mappingAccesses := s.mappingAccesses ++ [b] } := rfl

/-- However `x` ends, it accesses the table at indices in `P` only. -/
def Touches {α : Type} (P : Nat → Prop) (x : M α) : Prop :=
  ∀ s, wp x (fun _ t => ∃ l, Accessed s l t ∧ ∀ i ∈ l, P i) (fun _ t => ∃ l, Accessed s l t ∧ ∀ i ∈ l, P i) s

variable {P : Nat → Prop}

theorem touches_of_frames {α : Type} {x : M α} (frames : Frames accesses x) : Touches P x := by
  intro s
  have none : ∀ t, accesses t = accesses s → ∃ l, Accessed s l t ∧ ∀ i ∈ l, P i := by
    intro t same
    exact ⟨[], same.trans (List.append_nil _).symm, by simp⟩
  exact wp_mono (frames s) (fun _ => none) (fun _ => none)

theorem Touches.bind {α β : Type} {x : M α} {k : α → M β} (first : Touches P x) (next : ∀ a, Touches P (k a)) :
    Touches P (x >>= k) := by
  intro s
  rw [wp_bind]
  refine wp_mono (first s) (fun a t early => ?_) (fun _ _ early => early)
  obtain ⟨l, accessed, inside⟩ := early
  have both : ∀ u, (∃ l', Accessed t l' u ∧ ∀ i ∈ l', P i) → ∃ l', Accessed s l' u ∧ ∀ i ∈ l', P i := by
    rintro u ⟨l', accessed', inside'⟩
    exact ⟨l ++ l', accessed.trans accessed', List.forall_mem_append.mpr ⟨inside, inside'⟩⟩
  exact wp_mono (next a t) (fun _ => both) (fun _ => both)

theorem touches_get {β : Type} {k : Fs → M β} (next : ∀ s, Touches P (k s)) : Touches P (get >>= k) :=
  Touches.bind (touches_of_frames frames_get) next

theorem touches_loadMapping {b : Nat} (inside : P b) : Touches P (loadMapping b) :=
  fun _ => ⟨[b], rfl, List.forall_mem_singleton.mpr inside⟩

theorem touches_moveToDisk {b : Nat} (inside : P b) : Touches P (moveToDisk b) := by
  unfold moveToDisk
  with_reducible refine Touches.bind (touches_of_frames frames_getBlock) fun buf => ?_
  -- unfolding `writeBlock` to unify is costly
  with_reducible refine touches_get fun s => ?_
  cases s.disk.writeBlock (s.bpram buf) with
  | none => exact touches_of_frames (frames_throw _)
  | some written =>
    with_reducible refine (touches_of_frames (frames_modify fun _ => by rfl)).bind fun _ =>
      (touches_of_frames frames_check).bind fun _ => (touches_loadMapping inside).bind fun parent =>
        touches_of_frames (frames_getBlock.bind fun indir => frames_get.bind fun t => ?_)
    cases findAddr t.bpram indir b blocknosPerIndir 0 with
    | none => exact frames_pure _
    | some j => exact frames_storeNvm.bind fun _ => frames_freeBlock

theorem touches_throw {α : Type} (e : Err) : Touches P (throw e : M α) := touches_of_frames (frames_throw e)

theorem touches_pure {α : Type} (a : α) : Touches P (pure a : M α) := touches_of_frames (frames_pure a)

theorem touches_ite {α : Type} {c : Prop} {dec : Decidable c} {x y : M α} (yes : Touches P x) (no : Touches P y) :
    Touches P (if c then x else y) := by
  by_cases holds : c
  · rw [if_pos holds]
    exact yes
  · rw [if_neg holds]
    exact no

/-- `anti_cache_manager_evict_to_disk` looks its block up, whatever its number is, and nothing else. -/
theorem evictToDisk_inBounds (s : Fs) (b n : Nat) :
    wp (antiCacheManagerEvictToDisk b) (fun _ t => InBounds n s t ↔ throughInt b < n)
      (fun _ t => InBounds n s t ↔ throughInt b < n) s := by
  have rest : ∀ parent, Touches (· = throughInt b) (if 2 ^ 31 ≤ throughInt b then throw .sigsegv
      else if parent ≠ 0 then moveToDisk (throughInt b) else pure () : M Unit) := fun parent =>
    touches_ite (touches_throw _) (touches_ite (touches_moveToDisk rfl) (touches_pure _))
  have both : ∀ t, (∃ l, Accessed { s with mappingAccesses := s.mappingAccesses ++ [throughInt b] } l t ∧
      ∀ i ∈ l, i = throughInt b) → (InBounds n s t ↔ throughInt b < n) := by
    rintro t ⟨l, accessed, same⟩
    rw [((accessed_loadMapping s _).trans accessed).inBounds_iff, List.singleton_append, List.forall_mem_cons]
    exact ⟨And.left, fun below => ⟨below, fun i member => same i member ▸ below⟩⟩
  simp only [antiCacheManagerEvictToDisk]
  rw [wp_bind, wp_loadMapping]
  exact wp_mono (rest _ _) (fun _ => both) (fun _ => both)

theorem touches_swapPointers {numbers : Nat → Nat} {arr : List Nat} {i : Nat} (inside : ∀ b ∈ arr, P b) :
    Touches P (swapPointers numbers arr i) := by
  induction arr generalizing i with
  | nil => exact touches_pure _
  | cons b rest ih =>
    have later := fun i => ih (i := i) fun c member => inside c (List.mem_cons_of_mem b member)
    rw [swapPointers]
    with_reducible refine (touches_loadMapping (inside b List.mem_cons_self)).bind fun parent =>
      (touches_of_frames frames_getBlock).bind fun indir => ?_
    with_reducible refine touches_get fun s => ?_
    cases findAddr s.bpram indir b blocknosPerIndir 0 with
    | none => exact later (i + 1)
    | some j => exact (touches_of_frames frames_storeNvm).bind fun _ => later (i + 1)

/-- The first loop of the bulk eviction looks every block up. -/
theorem collectBlocks_accesses (s : Fs) (arr : List Nat) :
    wp (collectBlocks arr) (fun _ t => Accessed s arr t) (fun _ t => ∃ l, Accessed s l t ∧ ∀ i ∈ l, i ∈ arr) s := by
  induction arr generalizing s with
  | nil => exact (List.append_nil _).symm
  | cons b rest ih =>
    have early : ∀ t, Accessed s [b] t → ∃ l, Accessed s l t ∧ ∀ i ∈ l, i ∈ b :: rest :=
      fun t looked => ⟨[b], looked, by simp⟩
    rw [collectBlocks, wp_bind, wp_loadMapping, wp_bind]
    refine wp_mono (frames_check _) (fun _ t same => ?_) (fun _ => early)
    rw [wp_bind]
    refine wp_mono (frames_getBlock t) (fun buf u same' => ?_) (fun _ u same' => early u (same'.trans same))
    have looked : Accessed s [b] u := same'.trans same
    rw [wp_bind, wp_get, wp_bind]
    refine wp_mono (ih u) (fun bufs v accessed => looked.trans accessed) ?_
    rintro _ v ⟨l, accessed, inside⟩
    exact ⟨b :: l, looked.trans accessed, List.forall_mem_cons.mpr
      ⟨List.mem_cons_self, fun i member => List.mem_cons_of_mem b (inside i member)⟩⟩

theorem bulkEvict_inBounds (s : Fs) (arr : List Nat) (garbage : Nat → Nat) (n : Nat) :
    wp (antiCacheManagerBulkEvictToDisk arr garbage) (fun _ t => InBounds n s t ↔ ∀ b ∈ arr, b < n)
      (fun _ t => (∀ b ∈ arr, b < n) → InBounds n s t) s := by
  unfold antiCacheManagerBulkEvictToDisk
  rw [wp_bind]
  refine wp_mono (collectBlocks_accesses s arr) (fun bufs u collected => ?_) ?_
  · have both : ∀ t, (∃ l, Accessed u l t ∧ ∀ i ∈ l, i ∈ arr) → (InBounds n s t ↔ ∀ b ∈ arr, b < n) := by
      rintro t ⟨l, accessed, inside⟩
      rw [(collected.trans accessed).inBounds_iff, List.forall_mem_append]
      exact ⟨And.left, fun below => ⟨below, fun i member => below i (inside i member)⟩⟩
    refine wp_mono (touches_get (fun s => ?_) u) (fun _ => both) (fun _ t later => (both t later).mpr)
    cases s.disk.writeBlocksInBulk garbage bufs 0 with
    | none => exact touches_throw _
    | some written => exact (touches_of_frames (frames_modify fun _ => by rfl)).bind fun _ =>
        touches_swapPointers fun _ member => member
  · rintro _ t ⟨l, accessed, inside⟩ below
    exact ⟨l, accessed, fun i member => below i (inside i member)⟩

/-! ### The uses that check -/

/-- What a use of the table guarded by `<= nblocks` accesses. -/
def guarded (s : Fs) (b : Nat) : List Nat := if b ≤ superNblocks s.bpram then [b] else []

theorem Accessed.guarded_iff {s u t : Fs} {b : Nat} (accessed : Accessed s (guarded u b) t) :
    InBounds (superNblocks u.bpram) s t ↔ b ≠ superNblocks u.bpram := by
  rw [accessed.inBounds_iff, guarded]
  by_cases small : b ≤ superNblocks u.bpram
  · rw [if_pos small, List.forall_mem_singleton]
    omega
  · rw [if_neg small]
    simp only [List.not_mem_nil, false_implies, implies_true, true_iff]
    omega

theorem noteIndir_accesses (s : Fs) (b indir : Nat) :
    wp (noteIndir b indir) (fun _ t => Accessed s (guarded s b) t) (fun _ _ => False) s := by
  simp only [noteIndir, guarded, wp_bind, wp_get, wp_ite, wp_modify, wp_pure]
  refine ⟨fun small => ?_, fun large => ?_⟩
  · rw [if_pos small]
    exact ⟨fun _ => rfl, fun _ => rfl⟩
  · rw [if_neg large]
    exact ⟨fun _ => (List.append_nil _).symm, fun _ => (List.append_nil _).symm⟩

theorem noteAccess_accesses (s : Fs) (b : Nat) :
    wp (noteAccess b) (fun _ t => t.bpram = s.bpram ∧ Accessed s (guarded s b) t) (fun _ _ => False) s := by
  simp only [noteAccess, antiCacheManagerAccess, guarded, wp_bind, wp_get, wp_ite, wp_modify, wp_pure]
  refine ⟨fun small => ?_, fun large => ?_⟩
  · rw [if_pos small]
    exact ⟨fun _ => ⟨trivial, rfl⟩, fun _ => ⟨trivial, rfl⟩⟩
  · rw [if_neg large]
    exact ⟨trivial, (List.append_nil _).symm⟩

/-- The block `callback_write` writes to. -/
def writeTarget (s : Fs) (off size valid : Nat) (commit : Commit) (prevBlockno : Nat) : Nat :=
  if commit = .free ∨ (commit = .atomic ∧ (canAtomicWrite off size ∨ valid ≤ off)) then prevBlockno
  else s.blockAlloc.alloc.1 + 1

theorem allocBlock_number {s : Fs} :
    wp allocBlock (fun no _ => no ≠ blocknoInvalid → no = s.blockAlloc.alloc.1 + 1) (fun _ _ => True) s := by
  simp only [allocBlock, wp_bind, wp_get, wp_ite, wp_modify, wp_pure, wp_check]
  exact ⟨fun _ nonzero => absurd rfl nonzero, fun _ => ⟨fun _ _ => trivial, fun _ => trivial⟩⟩

theorem cowBlock_number {s : Fs} {b off size valid : Nat} :
    wp (cowBlock b off size valid) (fun no _ => no = s.blockAlloc.alloc.1 + 1) (fun _ _ => True) s := by
  simp only [cowBlock]
  rw [wp_bind, wp_check]
  refine ⟨fun _ => ?_, fun _ => trivial⟩
  rw [wp_bind, wp_check]
  refine ⟨fun _ => ?_, fun _ => trivial⟩
  rw [wp_bind]
  refine wp_mono allocBlock_number (fun no t number => ?_) (fun _ _ done => done)
  rw [wp_ite]
  refine ⟨fun _ => trivial, fun nonzero => ?_⟩
  refine wp_bind_of_forall (fun old u => wp_bind_of_forall (fun new v => ?_) fun _ _ => trivial) fun _ _ => trivial
  rw [wp_bind, wp_get]
  refine wp_bind_of_forall (fun _ u => ?_) fun _ _ => trivial
  rw [wp_ite]
  refine ⟨fun _ => wp_bind_of_forall (fun _ v => ?_) fun _ _ => trivial, fun _ => ?_⟩
  · exact wp_bind_of_forall (fun _ v => number nonzero) fun _ _ => trivial
  · exact wp_bind_of_forall (fun _ v => number nonzero) fun _ _ => trivial

theorem callbackRead_inBounds (s : Fs) (blockoff : Nat) (block : BlockPtr) (off size valid start : Nat) (commit : Commit)
    (b : Nat) : wp (callbackRead blockoff block off size valid start commit b)
      (fun _ t => InBounds (superNblocks s.bpram) s t ↔ b ≠ superNblocks s.bpram) (fun _ _ => False) s := by
  rw [callbackRead, wp_bind]
  refine wp_mono (noteAccess_accesses s b) (fun _ t noted => ?_) (fun _ _ fails => fails)
  exact Accessed.guarded_iff noted.2

theorem frames_writable {block : BlockPtr} : Frames accesses (writable block) := by
  cases block with
  | zeroBlock => exact frames_throw _
  | bpram no => exact frames_pure _

theorem inBounds_of_same {s t : Fs} {n : Nat} (same : accesses t = accesses s) : InBounds n s t :=
  ⟨[], same.trans (List.append_nil _).symm, by simp⟩

/-- The end of `callback_write`, once it has its block. -/
theorem writeBlock_inBounds {s t : Fs} {block : BlockPtr} {no n : Nat} {w : Nat → Write} (same : accesses t = accesses s) :
    wp (do
        let dst ← writable block
        storeNvm (w dst)
        noteAccess no
        pure (0, no) : M (Nat × Nat))
      (fun _ v => superNblocks v.bpram = n → (InBounds n s v ↔ no ≠ n)) (fun _ v => InBounds n s v) t := by
  have kept : ∀ u, accesses u = accesses t → accesses u = accesses s := fun _ same' => same'.trans same
  rw [wp_bind]
  refine wp_mono (frames_writable t) (fun dst u writable => ?_) (fun _ u writable => inBounds_of_same (kept u writable))
  rw [wp_bind]
  refine wp_mono (frames_storeNvm u) (fun _ v stored => ?_) (fun _ v stored =>
    inBounds_of_same (kept v (stored.trans writable)))
  rw [wp_bind]
  refine wp_mono (noteAccess_accesses v no) (fun _ x noted count => ?_) (fun _ _ fails => fails.elim)
  have before : Accessed s [] v := (kept v (stored.trans writable)).trans (List.append_nil _).symm
  rw [← count, noted.1]
  exact Accessed.guarded_iff (before.trans noted.2)

theorem callbackWrite_inBounds (buf : Nat → UInt8) (s : Fs) (blockoff : Nat) (block : BlockPtr) (off size valid start : Nat)
    (commit : Commit) (b n : Nat) : wp (callbackWrite buf blockoff block off size valid start commit b)
      (fun _ t => superNblocks t.bpram = n → (InBounds n s t ↔ writeTarget s off size valid commit b ≠ n))
      (fun _ t => InBounds n s t) s := by
  simp only [callbackWrite]
  rw [wp_bind, wp_check]
  refine ⟨fun _ => ?_, fun _ => inBounds_of_same rfl⟩
  rw [wp_ite]
  refine ⟨fun inPlace => ?_, fun copied => ?_⟩
  · rw [wp_bind, wp_pure, writeTarget, if_pos inPlace]
    exact writeBlock_inBounds rfl
  · rw [wp_bind, writeTarget, if_neg copied]
    refine wp_mono (wp_and (frames_cowBlock s) cowBlock_number) (fun no t done => ?_)
      (fun _ _ done => inBounds_of_same done.1)
    rw [wp_bind, ← done.2]
    refine wp_mono (frames_getBlock t) (fun _ u same => ?_) (fun _ _ same => inBounds_of_same (same.trans done.1))
    rw [wp_bind, wp_pure]
    exact writeBlock_inBounds (same.trans done.1)

/-- The callbacks of a crawl do not use the table themselves. -/
def NoAccesses (callback : Option CrawlCallback) (bcallback : Option CrawlBlocknoCallback) : Prop :=
  (∀ call, callback = some call → ∀ blockoff block off size valid start commit no,
    Frames accesses (call blockoff block off size valid start commit no)) ∧
  ∀ call, bcallback = some call → ∀ no leaf, Frames accesses (call no leaf)

/-- The access `crawl_leaf` makes itself, for a pointer found in a tree. -/
theorem crawlLeaf_inBounds (s : Fs) {callback : Option CrawlCallback} {bcallback : Option CrawlBlocknoCallback}
    {start indir p blockoff off size valid : Nat} {commit : Commit} (quiet : NoAccesses callback bcallback)
    (found : commit = .none ∨ p ≠ blocknoInvalid) :
    wp (crawlLeaf callback bcallback start (some indir) p blockoff off size valid commit)
      (fun _ t => InBounds (superNblocks s.bpram) s t ↔ p ≠ superNblocks s.bpram)
      (fun _ t => p ≠ superNblocks s.bpram → InBounds (superNblocks s.bpram) s t) s := by
  have early : p ≠ superNblocks s.bpram → InBounds (superNblocks s.bpram) s s := fun _ => inBounds_of_same rfl
  simp only [crawlLeaf]
  rw [wp_bind, wp_check]
  refine ⟨fun _ => ?_, fun _ => early⟩
  rw [wp_bind, wp_check]
  refine ⟨fun _ => ?_, fun _ => early⟩
  rw [wp_bind, wp_check]
  refine ⟨fun _ => ?_, fun _ => early⟩
  rw [wp_bind, wp_check]
  refine ⟨fun _ => ?_, fun _ => early⟩
  rw [if_neg (fun hole => found.elim hole.1 (fun other => other hole.2)), wp_bind, wp_pure, wp_bind]
  refine wp_mono (noteIndir_accesses s p indir) (fun _ t noted => ?_) (fun _ _ fails => fails.elim)
  have both : ∀ u, accesses u = accesses t → (InBounds (superNblocks s.bpram) s u ↔ p ≠ superNblocks s.bpram) :=
    fun u same => Accessed.guarded_iff (same.trans noted)
  have rest : ∀ (x : M (Nat × Nat)), Frames accesses x → wp x
      (fun _ u => InBounds (superNblocks s.bpram) s u ↔ p ≠ superNblocks s.bpram)
      (fun _ u => p ≠ superNblocks s.bpram → InBounds (superNblocks s.bpram) s u) t :=
    fun x frames => wp_mono (frames t) (fun _ => both) (fun _ u same => (both u same).mpr)
  cases callback with
  | some call =>
    refine rest _ ?_
    by_cases hole : p = blocknoInvalid ∧ commit = .none
    · simp only [if_pos hole]
      exact (frames_pure _).bind fun _ => quiet.1 call rfl _ _ _ _ _ _ _ _
    · simp only [if_neg hole]
      exact (Frames.bind frames_getBlock fun _ => frames_pure _).bind fun _ => quiet.1 call rfl _ _ _ _ _ _ _ _
  | none =>
    refine rest _ (frames_ite (frames_pure _) (frames_check.bind fun _ => ?_))
    cases bcallback with
    | some call => exact (quiet.2 call rfl _ _).bind fun _ => frames_pure _
    | none => exact (frames_throw _).bind fun _ => frames_pure _

/-- Each use of the table stays inside it unless it is given the number of blocks, or more where nothing is
checked: for a leaf just allocated, a leaf met in a tree, a read, a write and the two evictions. -/
theorem mapping_in_bounds_iff (s : Fs) (n : Nat) (nblocks : superNblocks s.bpram = n) :
    (∀ indir b, wp (noteIndir b indir) (fun _ t => InBounds n s t ↔ b ≠ n) (fun _ _ => False) s) ∧
    (∀ callback bcallback start indir b blockoff off size valid commit, NoAccesses callback bcallback →
      (commit = .none ∨ b ≠ blocknoInvalid) →
      wp (crawlLeaf callback bcallback start (some indir) b blockoff off size valid commit)
        (fun _ t => InBounds n s t ↔ b ≠ n) (fun _ t => b ≠ n → InBounds n s t) s) ∧
    (∀ blockoff block off size valid start commit b, wp (callbackRead blockoff block off size valid start commit b)
      (fun _ t => InBounds n s t ↔ b ≠ n) (fun _ _ => False) s) ∧
    (∀ buf blockoff block off size valid start commit b,
      wp (callbackWrite buf blockoff block off size valid start commit b)
        (fun _ t => superNblocks t.bpram = n → (InBounds n s t ↔ writeTarget s off size valid commit b ≠ n))
        (fun _ t => InBounds n s t) s) ∧
    (∀ b, wp (antiCacheManagerEvictToDisk b) (fun _ t => InBounds n s t ↔ throughInt b < n)
      (fun _ t => InBounds n s t ↔ throughInt b < n) s) ∧
    (∀ arr garbage, wp (antiCacheManagerBulkEvictToDisk arr garbage) (fun _ t => InBounds n s t ↔ ∀ b ∈ arr, b < n)
      (fun _ t => (∀ b ∈ arr, b < n) → InBounds n s t) s) := by
  subst nblocks
  refine ⟨fun indir b => ?_, fun callback bcallback start indir b blockoff off size valid commit quiet found =>
    crawlLeaf_inBounds s quiet found, callbackRead_inBounds s, fun buf blockoff block off size valid start commit b =>
    callbackWrite_inBounds buf s blockoff block off size valid start commit b _,
    fun b => evictToDisk_inBounds s b _, fun arr garbage => bulkEvict_inBounds s arr garbage _⟩
  exact wp_mono (noteIndir_accesses s b indir) (fun _ _ noted => noted.guarded_iff) (fun _ _ fails => fails)

/-- A file system of 64 blocks, of which only the last is free. -/
def lastFree : Fs where
  bpram b o := if b = blocknoSuper ∧ o = 24 then 64 else 0
  blockAlloc := ⟨fun k => if k < 7 then 255 else 127, 64, 1, [], [], 0⟩
  inodeAlloc := ⟨fun _ => 0, 0, 0, [], [], 0⟩
  disk := DiskManager.initializeDiskManager (8 * blockSize) blockSize (fun _ => 0) 0
  indirMapping _ := 0
  currentIndirPointer := 0
  treeNblocksNblocks := 0
  iov := []
  inode := (.zeroBlock, 0)
  writes := []
  allocFailures := 0
  cacheCalls := []
  mappingAccesses := []

theorem mapping_in_bounds_iff_64 : superNblocks lastFree.bpram = 64 ∧
    wp (noteIndir 64 5) (fun _ t => InBounds 64 lastFree t ↔ 64 ≠ 64) (fun _ _ => False) lastFree :=
  ⟨by decide +kernel, (mapping_in_bounds_iff lastFree 64 (by decide +kernel)).1 5 64⟩

/-- The indices a call accesses, if it returns. -/
def accessesOf {α : Type} : EStateM.Result Err Fs α → Option (List Nat)
  | .ok _ t => some t.mappingAccesses
  | .error _ _ => none

/-- A write to a hole of a file gets block 64 and notes its parent at index 64 of a table of 64. -/
theorem write_past_table : superNblocks lastFree.bpram = 64 ∧
    accessesOf (crawlLeaf (some (callbackWrite fun _ => 7)) none 0 (some 5) blocknoInvalid 0 0 8 8 .atomic lastFree) =
      some [64, 64] := by
  decide +kernel

end Bpfs
