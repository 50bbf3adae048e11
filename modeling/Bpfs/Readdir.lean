import Bpfs.InodeTouch
import Bpfs.DirRead
import Bpfs.InodeDiscovery

/-! `fuse_readdir`: a directory is listed in pages. A page starts at the offset that came with the last
entry of the page before, which is where that entry's record ends, and stops at the first entry that
does not fit. -/

namespace Bpfs.Readdir
open Lib Walk

/-- One entry of the reply, as `fuse_add_direntry` gets it. -/
structure Entry where
  name : List UInt8
  ino : Nat
  mode : Nat
  off : Nat
  deriving DecidableEq, Repr

/-- `struct readdir_params`; the buffer is the list of the entries in it. -/
structure Params where
  maxSize : Nat
  totalSize : Nat
  buf : List Entry
  deriving DecidableEq, Repr

/-- `DIRENT_FIRST_PERSISTENT_OFFSET`. -/
def firstPersistentOffset : Nat := 2

def sIfdir : Nat := 4 * 4096

/-- `b2f_filetype`; there is no mode for other values. -/
def b2fFiletype (type : UInt8) : Option Nat :=
  if type = typeSock then some (12 * 4096)
  else if type = typeFile then some (8 * 4096)
  else if type = typeBlkdev then some (6 * 4096)
  else if type = typeDir then some sIfdir
  else if type = typeChrdev then some (2 * 4096)
  else if type = typeFifo then some 4096
  else if type = typeSymlink then some (10 * 4096)
  else none

inductive Reply where
  | enotdir
  | enospc
  | buf (entries : List Entry)
  deriving DecidableEq, Repr

/-! ### The model -/

section Model

/-! `stop` is the error of a failed check of the directory code, and `direntSize` the size that
`fuse_add_direntry` reports for a name. -/

variable (stop : Err) (direntSize : List UInt8 → Nat)

/-- `fuse_add_direntry` and the growth of the buffer for it. -/
def addEntry (e : Entry) : EStateM Err (Fs × Params) Unit :=
  modify fun (s, params) =>
    (s, { params with totalSize := params.totalSize + direntSize e.name, buf := params.buf ++ [e] })

/-- `read_dir_readdir` on the entry at `off` of the block `b`. -/
def readDirReaddir (b : Block) (blockoff off : Nat) : EStateM Err (Fs × Params) Nat :=
  match b2fFiletype (b.fileType off) with
  | none => throw stop
  | some mode => do
      let (_, params) ← get
      if params.maxSize < params.totalSize + direntSize (b.name off) then pure 1
      else do
        addEntry direntSize ⟨b.name off, b.ino off, mode,
          firstPersistentOffset + blockoff * blockSize + (off + b.recLen off)⟩
        pure 0

/-- `callback_read_dir`. -/
def callbackReadDir : Callback (Fs × Params) := fun blockoff block off size _ _ _ blockno => do
  let (s, _) ← get
  let b : Block := block.contents s.bpram
  let r ← readDirLoop stop (readDirReaddir stop direntSize b blockoff) b (off + size) blockSize off
  pure (r, blockno)

/-- `read_dir`. -/
def readDir (ino off : Nat) : EStateM Err (Fs × Params) Nat :=
  Walk.crawlData (userOps Params) Prod.fst ino off bpfsEof (callbackReadDir stop direntSize)

/-- The loop over `.` and `..`, for at most `n` rounds; it gives the offset to go on at. -/
def addDots (ino parentIno : Nat) : Nat → Nat → EStateM Err (Fs × Params) Nat
  | 0, off => pure off
  | n + 1, off =>
      if off < firstPersistentOffset then do
        let e : Entry := ⟨if off = 0 then [46] else [46, 46], if off = 0 then ino else parentIno, sIfdir, off + 1⟩
        let (_, params) ← get
        if params.maxSize < params.totalSize + direntSize e.name then throw stop
        else do
          addEntry direntSize e
          addDots ino parentIno n (off + 1)
      else pure off

/-- A call whose `-ENOSPC` the caller handles. -/
def caught {σ α : Type} (x : EStateM Err σ α) : EStateM Err σ (Option α) := fun s =>
  match x s with
  | .ok a t => .ok (some a) t
  | .error .enospc t => .ok none t
  | .error e t => .error e t

/-- The body of `fuse_readdir`, beside its parameters. -/
def fuseReaddirBody (ino parentIno off timeNow : Nat) : EStateM Err (Fs × Params) Reply := do
  let (block, inodeOff) ← lift (getInode ino)
  let (s, _) ← get
  if ptrHalf s.bpram block (inodeOff + 20) = 0 then throw stop
  else if sIsDir (ptrHalf s.bpram block (inodeOff + 16)) = false then do
    lift bpfsAbort
    pure .enotdir
  else do
    let off ← addDots stop direntSize ino parentIno 2 off
    match ← caught (readDir stop direntSize ino (off - firstPersistentOffset)) with
    | none =>
        lift bpfsAbort
        pure .enospc
    | some _ =>
        match ← lift (orEnospc (Bpfs.crawlInode ino .atomic (callbackSetAtime timeNow))) with
        | none =>
            lift bpfsAbort
            pure .enospc
        | some _ =>
            lift bpfsCommit
            let (_, params) ← get
            pure (.buf params.buf)

/-- `fuse_readdir` when `realloc` succeeds. -/
def fuseReaddir (ino parentIno maxSize off timeNow : Nat) : M Reply := fun s =>
  match fuseReaddirBody stop direntSize ino parentIno off timeNow (s, ⟨maxSize, 0, []⟩) with
  | .ok reply t => .ok reply t.1
  | .error e t => .error e t.1

end Model

/-! ### What there is to list -/

/-- The entry of the record at offset `x.1` of block `i`. -/
def entryOf (i : Nat) (x : Nat × Rec) : Entry :=
  ⟨x.2.name, x.2.ino, (b2fFiletype x.2.type).getD 0, firstPersistentOffset + i * blockSize + (x.1 + x.2.len)⟩

/-- The entries of the records in use. -/
def liveEntries (i : Nat) (l : List (Nat × Rec)) : List Entry :=
  (l.filter fun x => x.2.ino != inoInvalid).map (entryOf i)

theorem liveEntries_dead {i off : Nat} {r : Rec} (l : List (Nat × Rec)) (dead : r.ino = inoInvalid) :
    liveEntries i ((off, r) :: l) = liveEntries i l := by
  simp [liveEntries, dead]

theorem liveEntries_live {i off : Nat} {r : Rec} (l : List (Nat × Rec)) (live : r.ino ≠ inoInvalid) :
    liveEntries i ((off, r) :: l) = entryOf i (off, r) :: liveEntries i l := by
  simp [liveEntries, live]

section Page

variable (direntSize : List UInt8 → Nat)

/-- The parameters with more entries in the buffer. -/
def fill (params : Params) (l : List Entry) : Params :=
  { params with totalSize := params.totalSize + (l.map fun e => direntSize e.name).sum, buf := params.buf ++ l }

@[simp] theorem fill_nil (params : Params) : fill direntSize params [] = params := by
  simp [fill]

@[simp] theorem fill_fill (params : Params) (l l' : List Entry) :
    fill direntSize (fill direntSize params l) l' = fill direntSize params (l ++ l') := by
  simp [fill, Nat.add_assoc]

/-- A page stops before the first entry that does not fit. -/
def Stops (params : Params) (l : List Entry) (params' : Params) : Prop :=
  ∃ before e after, l = before ++ e :: after ∧ params' = fill direntSize params before ∧
    params.maxSize < params'.totalSize + direntSize e.name

variable {direntSize}

theorem Stops.append {params params' : Params} {l : List Entry} (stops : Stops direntSize params l params')
    (more : List Entry) : Stops direntSize params (l ++ more) params' := by
  obtain ⟨before, e, after, rfl, filled, exceeds⟩ := stops
  exact ⟨before, e, after ++ more, by simp, filled, exceeds⟩

theorem Stops.prepend {params params' : Params} {first l : List Entry}
    (stops : Stops direntSize (fill direntSize params first) l params') :
    Stops direntSize params (first ++ l) params' := by
  obtain ⟨before, e, after, rfl, filled, exceeds⟩ := stops
  exact ⟨first ++ before, e, after, by simp, by rw [filled, fill_fill], exceeds⟩

/-- What listing `l` leaves: all of it, or what fits. -/
def Listed (direntSize : List UInt8 → Nat) (params : Params) (l : List Entry) (r : Nat) (params' : Params) : Prop :=
  r = 0 ∧ params' = fill direntSize params l ∨ r = 1 ∧ Stops direntSize params l params'

-- the rules for `wp` are all that is used of it
attribute [local irreducible] wp

variable {stop : Err}

/-- The scan of a block from a record on. -/
theorem readDirLoop_page {b : Block} {l : List (Nat × Rec)} {i off fin n : Nat} {s : Fs} {params : Params}
    (scan : Block.Scan b off l fin) (sound : ∀ x ∈ l, Dir.Sound x.1 x.2)
    (types : ∀ x ∈ l, x.2.ino ≠ inoInvalid → (b2fFiletype x.2.type).isSome) (aligned : off % direntAlign = 0)
    (enough : blockSize ≤ off + n) :
    wp (readDirLoop stop (readDirReaddir stop direntSize b i) b blockSize n off)
      (fun r t => t.1 = s ∧ Listed direntSize params (liveEntries i l) r t.2) (fun _ _ => False) (s, params) := by
  have least : direntMinLen = 16 := rfl
  induction n generalizing off l params with
  | zero =>
    cases scan with
    | stop done => exact wp_pure.mpr ⟨rfl, .inl ⟨rfl, (fill_nil direntSize params).symm⟩⟩
    | next more rest =>
      have := more.1
      omega
  | succ n ih =>
    rw [readDirLoop]
    cases scan with
    | stop done =>
      have nothing : params = fill direntSize params (liveEntries i []) := (fill_nil direntSize params).symm
      by_cases room : fin + direntMinLen ≤ blockSize
      · have zero : b.recLen fin = 0 := by
          by_contra some
          exact done ⟨room, some⟩
        rw [if_pos room, if_neg (not_not.mpr aligned), if_pos zero]
        exact wp_pure.mpr ⟨rfl, .inl ⟨rfl, nothing⟩⟩
      · rw [if_neg room]
        exact wp_pure.mpr ⟨rfl, .inl ⟨rfl, nothing⟩⟩
    | @next _ _ l more rest =>
      have here := sound _ (List.mem_cons_self ..)
      have bound : off + b.recLen off ≤ blockSize := here.inside
      have whole : b.recLen off % direntAlign = 0 := here.aligned
      have onward : ∀ params, wp (readDirLoop stop (readDirReaddir stop direntSize b i) b blockSize n (off + b.recLen off))
          (fun r t => t.1 = s ∧ Listed direntSize params (liveEntries i l) r t.2) (fun _ _ => False) (s, params) := by
        intro params
        refine ih rest (fun x inside => sound x (List.mem_cons_of_mem _ inside))
          (fun x inside => types x (List.mem_cons_of_mem _ inside)) ?_ ?_
        · unfold direntAlign at *
          omega
        · have := more.2
          omega
      rw [if_pos more.1, if_neg (not_not.mpr aligned), if_neg more.2, if_neg (Nat.not_lt.mpr bound)]
      by_cases dead : b.ino off = inoInvalid
      · rw [if_pos dead, liveEntries_dead l (show (b.decode off).ino = inoInvalid from dead)]
        exact onward params
      · have long : direntLen (b.nameLen off).toNat ≤ b.recLen off := here.name dead
        obtain ⟨mode, type⟩ := Option.isSome_iff_exists.mp (types _ (List.mem_cons_self ..) dead)
        change b2fFiletype (b.fileType off) = some mode at type
        have entry : entryOf i (off, b.decode off) = ⟨b.name off, b.ino off, mode,
            firstPersistentOffset + i * blockSize + (off + b.recLen off)⟩ := by
          unfold entryOf
          change Entry.mk _ _ ((b2fFiletype (b.fileType off)).getD 0) _ = _
          rw [type]
          rfl
        rw [if_neg dead, if_neg (Nat.not_lt.mpr long), liveEntries_live l (show (b.decode off).ino ≠ inoInvalid from dead),
          entry, readDirReaddir, type]
        dsimp only
        generalize hentry : Entry.mk (b.name off) (b.ino off) mode
          (firstPersistentOffset + i * blockSize + (off + b.recLen off)) = e
        have named : e.name = b.name off := by rw [← hentry]
        rw [bind_assoc, wp_bind, wp_get]
        dsimp only
        by_cases exceeds : params.maxSize < params.totalSize + direntSize (b.name off)
        · rw [if_pos exceeds, pure_bind, if_pos (by decide)]
          refine wp_pure.mpr ⟨rfl, .inr ⟨rfl, [], e, liveEntries i l, rfl, (fill_nil direntSize params).symm, ?_⟩⟩
          rwa [named]
        · rw [if_neg exceeds, bind_assoc, addEntry, wp_bind, wp_modify, pure_bind, if_neg (by decide)]
          have added : ({ params with totalSize := params.totalSize + direntSize e.name, buf := params.buf ++ [e] } : Params) =
              fill direntSize params [e] := by simp [fill]
          dsimp only
          rw [added]
          refine wp_mono (onward _) ?_ (fun _ _ never => never)
          rintro r t ⟨same, ⟨zero, all⟩ | ⟨one, stops⟩⟩
          · refine ⟨same, .inl ⟨zero, ?_⟩⟩
            rw [all, fill_fill]
            rfl
          · exact ⟨same, .inr ⟨one, stops.prepend⟩⟩

end Page

/-! ### Positions -/

section Positions

/-- The records of every block can be read: the checks of the reader pass at each of them. -/
structure Listable (B : List Block) : Prop where
  sound : ∀ b ∈ B, ∀ x ∈ b.recs, Dir.Sound x.1 x.2
  types : ∀ b ∈ B, ∀ x ∈ b.recs, x.2.ino ≠ inoInvalid → (b2fFiletype x.2.type).isSome

/-- The entries of block `i` whose records start at position `x` of the directory or later. -/
def part (B : List Block) (x i : Nat) : List Entry :=
  match B[i]? with
  | none => []
  | some b => liveEntries i (b.recsLoop blockSize (x - base i))

/-- The entries from position `x` up to block `j`. -/
def upTo (B : List Block) (x j : Nat) : List Entry :=
  (List.range' (x / blockSize) (j - x / blockSize)).flatMap (part B x)

/-- The entries from position `x` on. -/
def rest (B : List Block) (x : Nat) : List Entry := upTo B x B.length

variable {B : List Block} {x i j : Nat} {b : Block}

theorem part_some (block : B[i]? = some b) : part B x i = liveEntries i (b.recsLoop blockSize (x - base i)) := by
  rw [part, block]

@[simp] theorem upTo_start (B : List Block) (x : Nat) : upTo B x (x / blockSize) = [] := by
  simp [upTo]

theorem upTo_succ (later : x / blockSize ≤ j) : upTo B x (j + 1) = upTo B x j ++ part B x j := by
  have split : List.range' (x / blockSize) (j + 1 - x / blockSize) =
      List.range' (x / blockSize) (j - x / blockSize) ++ [j] := by
    rw [show j + 1 - x / blockSize = j - x / blockSize + 1 by omega, List.range'_concat]
    congr 2
    omega
  rw [upTo, split, List.flatMap_append, List.flatMap_singleton, upTo]

/-- The entries before a block are the first of all. -/
theorem rest_split (later : x / blockSize ≤ j) (inside : j ≤ B.length) :
    rest B x = upTo B x j ++ (List.range' j (B.length - j)).flatMap (part B x) := by
  have split : List.range' (x / blockSize) (B.length - x / blockSize) =
      List.range' (x / blockSize) (j - x / blockSize) ++ List.range' j (B.length - j) := by
    obtain ⟨k, rfl⟩ := Nat.exists_eq_add_of_le later
    rw [Nat.add_sub_cancel_left, List.range'_append_1]
    congr 1
    omega
  rw [rest, upTo, split, List.flatMap_append, upTo]

/-- The entries of the blocks behind a position do not depend on it. -/
theorem flatMap_part (before : x ≤ base i) (n : Nat) :
    (List.range' i n).flatMap (part B x) = (List.range' i n).flatMap (part B 0) := by
  apply List.flatMap_congr
  intro j member
  have later : i ≤ j := (List.mem_range'_1.mp member).1
  have offset : x - base j = 0 - base j := by
    simp only [base, blockSize] at *
    omega
  rw [part, part, offset]

/-- The block of a position and the blocks behind it. -/
theorem rest_cons (here : x / blockSize = i) (inside : i < B.length) :
    rest B x = part B x i ++ (List.range' (i + 1) (B.length - (i + 1))).flatMap (part B 0) := by
  have before : x ≤ base (i + 1) := by
    simp only [base, blockSize] at *
    omega
  rw [rest, upTo, here, show B.length - i = B.length - (i + 1) + 1 by omega, List.range'_succ, List.flatMap_cons,
    flatMap_part before]

/-- A position at which a page may start. -/
structure Boundary (B : List Block) (x : Nat) : Prop where
  inside : x ≤ base B.length
  aligned : x % direntAlign = 0
  records : ∀ b, B[x / blockSize]? = some b → b.recsLoop blockSize (x % blockSize) <:+ b.recs
  used : ∀ b, B[x / blockSize]? = some b → x % blockSize ≠ 0 → b.recs ≠ []

/-- From a boundary on, the records of a block are the last of its records. -/
theorem Boundary.suffix (boundary : Boundary B x) (later : x / blockSize ≤ i) (block : B[i]? = some b) :
    b.recsLoop blockSize (x - base i) <:+ b.recs := by
  by_cases first : i = x / blockSize
  · subst first
    have offset : x - base (x / blockSize) = x % blockSize := by
      simp only [base, blockSize]
      omega
    rw [offset]
    exact boundary.records b block
  · have offset : x - base i = 0 := by
      simp only [base, blockSize] at *
      omega
    rw [offset]
    exact List.suffix_refl _

theorem boundary_zero (B : List Block) : Boundary B 0 where
  inside := Nat.zero_le _
  aligned := rfl
  records _ _ := List.suffix_refl _
  used _ _ inner := absurd rfl inner

theorem recsLoop_end (b : Block) (n : Nat) : b.recsLoop n blockSize = [] := by
  cases n with
  | zero => rfl
  | succ n => exact if_neg fun more => absurd more.1 (by decide)

/-- Behind a record the scan goes on with the records after it. -/
theorem Scan.after {off fin o : Nat} {r : Rec} {before after : List (Nat × Rec)}
    (scan : Block.Scan b off (before ++ (o, r) :: after) fin) : b.recsLoop blockSize (o + r.len) = after := by
  induction before generalizing off with
  | nil =>
    cases scan with
    | next more rest => exact (Block.Scan.unique (b.scan_loop (Nat.le_add_left _ _)) rest).1
  | cons y before ih =>
    cases scan with
    | next more rest => exact ih rest

theorem flatMap_split {α β : Type} {f : α → List β} {l : List α} {before after : List β} {e : β}
    (split : l.flatMap f = before ++ e :: after) : ∃ l₁ a l₂ p q, l = l₁ ++ a :: l₂ ∧ f a = p ++ e :: q ∧
      before = l₁.flatMap f ++ p ∧ after = q ++ l₂.flatMap f := by
  induction l generalizing before with
  | nil => simp at split
  | cons a l ih =>
    rw [List.flatMap_cons] at split
    rcases List.append_eq_append_iff.mp split with ⟨c, early, late⟩ | ⟨c, early, late⟩
    · obtain ⟨l₁, a', l₂, p, q, rfl, here, rfl, rfl⟩ := ih late
      exact ⟨a :: l₁, a', l₂, p, q, rfl, here, by rw [early, List.flatMap_cons, List.append_assoc], rfl⟩
    · cases c with
      | nil =>
        have late : l.flatMap f = [] ++ e :: after := late.symm
        obtain ⟨l₁, a', l₂, p, q, rfl, here, nothing, rfl⟩ := ih late
        rw [List.append_nil] at early
        refine ⟨a :: l₁, a', l₂, p, q, rfl, here, ?_, rfl⟩
        rw [List.flatMap_cons, List.append_assoc, ← nothing, List.append_nil, early]
      | cons e' c =>
        obtain ⟨rfl, rfl⟩ := List.cons.inj late
        exact ⟨[], a, l, before, c, rfl, early, by simp, rfl⟩

/-- Where an entry of a block's records comes from. -/
theorem liveEntries_split {l : List (Nat × Rec)} {before after : List Entry} {e : Entry}
    (split : liveEntries i l = before ++ e :: after) : ∃ l₁ o r l₂, l = l₁ ++ (o, r) :: l₂ ∧ r.ino ≠ inoInvalid ∧
      e = entryOf i (o, r) ∧ after = liveEntries i l₂ := by
  obtain ⟨m₁, m₂, kept, -, ends⟩ := List.map_eq_append_iff.mp split
  obtain ⟨⟨o, r⟩, m₃, rfl, rfl, rfl⟩ := List.map_eq_cons_iff.mp ends
  obtain ⟨l₁, l', rfl, -, kept'⟩ := List.filter_eq_append_iff.mp kept
  obtain ⟨l₂, l₃, rfl, -, live, rfl⟩ := List.filter_eq_cons_iff.mp kept'
  exact ⟨l₁ ++ l₂, o, r, l₃, by simp, by simpa using live, rfl, rfl⟩

/-- Behind an entry comes what is listed from the position that is its offset. -/
theorem rest_after {before after : List Entry} {e : Entry} (listable : Listable B) (boundary : Boundary B x)
    (split : rest B x = before ++ e :: after) :
    firstPersistentOffset ≤ e.off ∧ after = rest B (e.off - firstPersistentOffset) ∧
      Boundary B (e.off - firstPersistentOffset) := by
  obtain ⟨l₁, i, l₂, p, q, range, here, -, rfl⟩ := flatMap_split split
  obtain ⟨k, -, -, tail⟩ := List.range'_eq_append_iff.mp range
  obtain ⟨index, some, rfl⟩ := List.range'_eq_cons_iff.mp tail.symm
  rw [Nat.mul_one] at index
  have later : x / blockSize ≤ i := by omega
  have block := List.getElem?_eq_getElem (show i < B.length by omega)
  generalize B[i] = b at block
  rw [part_some block] at here
  obtain ⟨m₁, o, r, m₂, records, -, rfl, rfl⟩ := liveEntries_split here
  -- the record lies in its block, and the scan goes on behind it
  have suffix := boundary.suffix later block
  have member : (o, r) ∈ b.recs := suffix.subset (by rw [records]; simp)
  have sound : Dir.Sound o r := listable.sound b (List.mem_of_getElem? block) _ member
  have inside := sound.inside
  have scan : Block.Scan b (x - base i) (b.recsLoop blockSize (x - base i)) _ := b.scan_loop (Nat.le_add_left _ _)
  rw [records] at scan
  have onward := Scan.after scan
  have position : (entryOf i (o, r)).off - firstPersistentOffset = base i + (o + r.len) := by
    simp only [entryOf, base]
    rw [Nat.mul_comm i, Nat.add_assoc, Nat.add_sub_cancel_left]
  have before : x ≤ base (i + 1) := by
    simp only [base, blockSize] at *
    omega
  have count : B.length - x / blockSize - k - 1 = B.length - (i + 1) := by omega
  rw [position, flatMap_part before, count]
  have first : firstPersistentOffset ≤ (entryOf i (o, r)).off := Nat.le_add_right _ _ |>.trans (Nat.le_add_right _ _)
  by_cases last : o + r.len = blockSize
  · have next : base i + (o + r.len) = base (i + 1) := by
      simp only [base, blockSize] at *
      omega
    have nothing : m₂ = [] := by rw [← onward, last, recsLoop_end]
    have index : base (i + 1) / blockSize = i + 1 := Nat.mul_div_cancel_left _ (by decide)
    have aligned : base (i + 1) % blockSize = 0 := Nat.mul_mod_right _ _
    rw [next, nothing]
    refine ⟨first, ?_, ?_, ?_, ?_, ?_⟩
    · rw [rest, upTo, index, flatMap_part (Nat.le_refl _)]
      rfl
    · simp only [base, blockSize] at *
      omega
    · simp only [base, blockSize, direntAlign] at *
      omega
    · intro b' _
      rw [aligned]
      exact List.suffix_refl _
    · intro b' _ inner
      exact absurd aligned inner
  · have index : (base i + (o + r.len)) / blockSize = i := by
      simp only [base, blockSize] at *
      omega
    have offset : (base i + (o + r.len)) % blockSize = o + r.len := by
      simp only [base, blockSize] at *
      omega
    refine ⟨first, ?_, ?_, ?_, ?_, ?_⟩
    · rw [rest_cons index (by omega), part_some block, Nat.add_sub_cancel_left, onward]
    · simp only [base, blockSize] at *
      omega
    · have start := sound.start
      have aligned := sound.aligned
      simp only [base, blockSize, direntAlign] at *
      omega
    · intro b' block'
      rw [index, block, Option.some.injEq] at block'
      rw [← block', offset, onward]
      exact (List.suffix_append_of_suffix (List.suffix_cons _ _)).trans (records ▸ suffix)
    · intro b' block' _ none
      rw [index, block, Option.some.injEq] at block'
      rw [block', none] at member
      cases member

/-- One record ends before the next does. -/
theorem Scan.increasing {off fin : Nat} {l : List (Nat × Rec)} (scan : Block.Scan b off l fin) :
    l.Pairwise fun y z => y.1 + y.2.len < z.1 + z.2.len := by
  induction scan with
  | stop done => exact .nil
  | @next off e l more rest ih =>
    refine .cons (fun z member => ?_) ih
    obtain ⟨after, -, -, -, some⟩ := rest.bounds.2 z member
    have ends : (b.decode off).len = b.recLen off := rfl
    dsimp only
    omega

/-- The offset of an entry of block `i` is behind the start of the block and not behind its end. -/
theorem part_off (listable : Listable B) (boundary : Boundary B x) (later : x / blockSize ≤ i) {e : Entry}
    (member : e ∈ part B x i) : firstPersistentOffset + base i < e.off ∧ e.off ≤ firstPersistentOffset + base (i + 1) := by
  cases block : B[i]? with
  | none =>
    rw [part, block] at member
    cases member
  | some b =>
    rw [part_some block] at member
    obtain ⟨⟨o, r⟩, kept, rfl⟩ := List.mem_map.mp member
    have record := (boundary.suffix later block).subset (List.mem_filter.mp kept).1
    have some := (b.scan_recs.bounds.2 _ record).2.2.2.2
    have inside := (listable.sound b (List.mem_of_getElem? block) _ record).inside
    simp only [entryOf, base, blockSize] at *
    omega

/-- The offsets of the entries increase. -/
theorem rest_increasing (listable : Listable B) (boundary : Boundary B x) :
    (rest B x).Pairwise fun e e' => e.off < e'.off := by
  refine List.pairwise_flatMap.mpr ⟨fun i member => ?_, ?_⟩
  · cases block : B[i]? with
    | none =>
      rw [part, block]
      exact .nil
    | some b =>
      rw [part_some block]
      have scan : Block.Scan b (x - base i) (b.recsLoop blockSize (x - base i)) _ := b.scan_loop (Nat.le_add_left _ _)
      refine List.pairwise_map.mpr ((Scan.increasing scan).filter _ |>.imp fun less => ?_)
      exact Nat.add_lt_add_left less _
  · refine List.Pairwise.imp_of_mem ?_ List.pairwise_lt_range'
    intro i j first second less e early e' late
    have before := (part_off listable boundary (List.mem_range'_1.mp first).1 early).2
    have after := (part_off listable boundary (List.mem_range'_1.mp second).1 late).1
    simp only [base, blockSize] at *
    omega

end Positions

end Bpfs.Readdir
