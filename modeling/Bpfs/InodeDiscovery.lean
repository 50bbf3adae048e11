import Bpfs.Dirent
import Bpfs.Lib.Traversal
import Mathlib.Data.Finset.Card
import Mathlib.Order.Interval.Finset.Nat

/-! The walk at mount time over the inodes (`discover_inode_allocations`), on an image with arbitrary
directories: what it has found when it returns, and when it does not end. -/

namespace Bpfs
open Lib

/-- `BPFS_S_ISDIR`. -/
def sIsDir (mode : Nat) : Bool := mode % 65536 / 4096 == 4

/-- What the inode table says: how many inodes there are, their modes and their lengths. -/
structure Table where
  ninodes : Nat
  mode : Nat → Nat
  nbytes : Nat → Nat
  ninodes_lt : ninodes < 2 ^ 64
  nbytes_lt : ∀ ino, nbytes ino < 2 ^ 64

namespace Table

variable (t : Table)

/-- The inode number passes the checks of `get_inode_offset`. -/
def Valid (ino : Nat) : Prop := 1 ≤ ino ∧ ino ≤ t.ninodes

instance (ino : Nat) : Decidable (t.Valid ino) := by unfold Valid; infer_instance

def isDir (ino : Nat) : Bool := sIsDir (t.mode ino)

def nblocks (ino : Nat) : Nat := (t.nbytes ino + 4095) / blockSize

end Table

/-- The image: the data of each inode, block by block and with zeros for holes, and whether
`discover_tree_allocations` gets through its tree. The crawler stops at a check where there is no block. -/
structure Image extends Table where
  block : Nat → Nat → Option Block
  marks : Nat → Bool

inductive Stop where
  | check
  | outOfFuel
  deriving DecidableEq, Repr

/-- The inode bitmap, the link counts, and the directories scanned so far. -/
structure Walk where
  bit : Nat → Bool
  nlinks : Nat → Nat
  scanned : List Nat

abbrev Walking := EStateM Stop Walk

def require (c : Prop) [Decidable c] : Walking Unit := if c then pure () else throw .check

/-- `set_inode`, with whether the bit was set before. -/
def setInode (ino : Nat) : Walking Bool := do
  let w ← get
  modify fun w => { w with bit := Function.update w.bit ino true }
  pure (w.bit ino)

/-- `inode->nlinks++` and the check that it did not wrap. -/
def countLink (ino : Nat) : Walking Unit := do
  modify fun w => { w with nlinks := Function.update w.nlinks ino ((w.nlinks ino + 1) % 2 ^ 32) }
  let w ← get
  require (w.nlinks ino ≠ 0)

/-- `crawl_data` from offset 0 to the end, without writing. Beyond the tree, `crawl_hole` goes on block by block
with a 64-bit offset, which may wrap; it then sees zeros. -/
def crawlDataLoop (img : Image) (ino : Nat) (callback : Block → Nat → Walking Nat) : Nat → Nat → Nat → Walking Nat
  | 0, _, _ => throw .outOfFuel
  | n + 1, blockoff, off =>
      if off < img.nbytes ino then
        match (if blockoff < 2 ^ 52 then img.block ino blockoff else some (fun _ => 0)) with
        | none => throw .check
        | some b => do
            let r ← callback b (min (img.nbytes ino - off) blockSize)
            if r ≠ 0 then pure r else crawlDataLoop img ino callback n (blockoff + 1) (u64 (off + blockSize))
      else pure 0

/-- `read_dir` from offset 0. -/
def readDir (img : Image) (fuel ino : Nat) (callback : Block → Nat → Walking Nat) : Walking Nat :=
  crawlDataLoop img ino (fun b size => callbackReadDir .check (callback b) b size) fuel 0 0

/-- The link count of an inode that the walk has come to, counted anew or checked;
`recount` is `mounting && !ephemeral_valid`. -/
def discoverLinks (img : Image) (recount : Bool) (ino : Nat) : Walking Unit :=
  if recount then do
    countLink ino
    if img.isDir ino then countLink ino else pure ()
  else do
    let w ← get
    require ((if img.isDir ino then 2 else 1) ≤ w.nlinks ino)

/-- A subdirectory's `..` counts for its parent. -/
def discoverParentLink (recount : Bool) (ino : Nat) (fileType : UInt8) : Walking Unit :=
  if recount ∧ fileType = typeDir then countLink ino else pure ()

/-- `discover_inode_allocations`, with `read_dir_callback_discover_inodes`. -/
def discoverInodeAllocations (img : Image) (recount : Bool) : Nat → Nat → Walking Unit
  | 0, _ => throw .outOfFuel
  | fuel + 1, ino => do
      require (img.Valid ino)
      let wasSet ← setInode ino
      require (¬(img.isDir ino ∧ wasSet))
      discoverLinks img recount ino
      if wasSet then pure ()
      else do
        require (img.marks ino)
        if img.isDir ino then do
          modify fun w => { w with scanned := w.scanned ++ [ino] }
          let _ ← readDir img fuel ino (fun b off => do
            discoverInodeAllocations img recount fuel (b.ino off)
            discoverParentLink recount ino (b.fileType off)
            pure 0)
          pure ()
        else pure ()

/-- The inode numbers in the live entries of `k` blocks from block `i` on, in the order of the scan. -/
def Image.entriesFrom (img : Image) (ino i k : Nat) : List Nat :=
  (List.range' i k).flatMap fun i =>
    match img.block ino i with
    | none => []
    | some b => (b.live (min (img.nbytes ino - i * blockSize) blockSize) blockSize 0).map b.ino

/-- The inode numbers in the live entries of a directory. -/
def Image.entries (img : Image) (ino : Nat) : List Nat := img.entriesFrom ino 0 (img.nblocks ino)

/-- What holds when the walk from the root has returned. -/
structure Found (img : Image) (w : Walk) : Prop where
  bitmap : ∀ i, w.bit i = true ↔ Reaches img.entries (fun d => img.isDir d = true) inoRoot i
  once : w.scanned.Nodup
  all : ∀ d, d ∈ w.scanned ↔ img.isDir d = true ∧ w.bit d = true
  named : ∀ d ∈ w.scanned, (w.scanned.flatMap img.entries).count d = if d = inoRoot then 0 else 1

/-- The walk ends, at a check or by returning, and has then found a tree. -/
def Discovers (img : Image) : Prop :=
  ∀ (recount : Bool) (nlinks : Nat → Nat),
    (∃ enough, ∀ fuel, enough ≤ fuel → ∀ w,
      discoverInodeAllocations img recount fuel inoRoot ⟨fun _ => false, nlinks, []⟩ ≠ .error .outOfFuel w) ∧
    ∀ fuel w, discoverInodeAllocations img recount fuel inoRoot ⟨fun _ => false, nlinks, []⟩ = .ok () w → Found img w

attribute [local irreducible] wp

section Walk

variable {img : Image} {w : Walk}

theorem wp_require {c : Prop} {dec : Decidable c} {Q : Unit → Walk → Prop} {E : Stop → Walk → Prop} :
    wp (require c) Q E w ↔ (c → Q () w) ∧ (¬c → E .check w) := by
  unfold require
  rw [wp_ite, wp_pure, wp_throw]

theorem wp_setInode {ino : Nat} {Q : Bool → Walk → Prop} {E : Stop → Walk → Prop} :
    wp (setInode ino) Q E w ↔ Q (w.bit ino) { w with bit := Function.update w.bit ino true } := by
  unfold setInode
  rw [wp_bind, wp_get, wp_bind, wp_modify, wp_pure]

theorem countLink_spec {ino : Nat} {E : Stop → Walk → Prop} (fails : ∀ u, E .check u) :
    wp (countLink ino) (fun _ u => u.bit = w.bit ∧ u.scanned = w.scanned) E w := by
  unfold countLink
  rw [wp_bind, wp_modify, wp_bind, wp_get, wp_require]
  exact ⟨fun _ => ⟨rfl, rfl⟩, fun _ => fails _⟩

/-- A scan of a directory whose length does not make the offset wrap calls on the entries in their order. -/
theorem crawlDataLoop_calls {ino : Nat} {callback : Block → Nat → Walking Nat} {T : List Nat}
    {I : List Nat → Walk → Prop} {E : Stop → Walk → Prop} (short : img.nbytes ino ≤ 2 ^ 64 - 4096)
    (fails : ∀ u, E .check u) (call : ∀ l b off u, l ++ [b.ino off] <+: T → I l u → wp (callback b off) (fun r v => r = 0 ∧ I (l ++ [b.ino off]) v) E u)
    {n i : Nat} (reached : i ≤ img.nblocks ino) (enough : (∀ u, E .outOfFuel u) ∨ img.nblocks ino < i + n) {l : List Nat}
    {u : Walk} (part : l ++ img.entriesFrom ino i (img.nblocks ino - i) <+: T) (here : I l u) :
    wp (crawlDataLoop img ino (fun b size => callbackReadDir .check (callback b) b size) n i (i * blockSize))
      (fun r v => r = 0 ∧ I (l ++ img.entriesFrom ino i (img.nblocks ino - i)) v) E u := by
  have count : img.nblocks ino = (img.nbytes ino + 4095) / 4096 := rfl
  have size : blockSize = 4096 := rfl
  induction n generalizing i l u with
  | zero =>
    rw [crawlDataLoop, wp_throw]
    rcases enough with endless | more
    · exact endless u
    · omega
  | succ n ih =>
    have place : i * blockSize = i * 4096 := rfl
    unfold crawlDataLoop
    by_cases inside : i * blockSize < img.nbytes ino
    swap
    · have done : img.nblocks ino - i = 0 := by omega
      rw [if_neg inside, wp_pure, done, Image.entriesFrom, List.range'_zero, List.flatMap_nil, List.append_nil]
      exact ⟨rfl, here⟩
    have rest : img.nblocks ino - i = img.nblocks ino - (i + 1) + 1 := by omega
    rw [rest, Image.entriesFrom, List.range'_succ, List.flatMap_cons, ← List.append_assoc] at part ⊢
    rw [if_pos inside, if_pos (show i < 2 ^ 52 by omega)]
    cases content : img.block ino i with
    | none =>
      dsimp only
      rw [wp_throw]
      exact fails u
    | some b =>
      rw [content] at part
      dsimp only at part ⊢
      rw [wp_bind]
      have scan : wp (readDirLoop Stop.check (callback b) b (min (img.nbytes ino - i * blockSize) blockSize) blockSize 0)
          (fun r v => r = 0 ∧ I (l ++ ([] ++ b.live (min (img.nbytes ino - i * blockSize) blockSize) blockSize 0).map b.ino) v)
          E u := by
        refine readDirLoop_calls (I := fun offs v => I (l ++ offs.map b.ino) v) fails (fun offs off v early there => ?_)
          (List.prefix_refl _) ?_
        · have whole : l ++ offs.map b.ino ++ [b.ino off] <+: T := by
            refine List.IsPrefix.trans ?_ ((List.prefix_append _ _).trans part)
            rw [List.append_assoc]
            have mapped := early.map b.ino
            rw [List.nil_append, List.map_append] at mapped
            exact (List.prefix_append_right_inj l).mpr mapped
          have after := call (l ++ offs.map b.ino) b off v whole there
          rw [List.append_assoc] at after
          rw [List.map_append]
          exact after
        · rw [List.map_nil, List.append_nil]
          exact here
      refine wp_mono scan ?_ (fun _ _ error => error)
      rintro r v ⟨rfl, after⟩
      have next : u64 (i * blockSize + blockSize) = (i + 1) * blockSize := by
        change (i * 4096 + 4096) % 2 ^ 64 = (i + 1) * 4096
        omega
      rw [if_neg (not_not.mpr rfl), next]
      refine ih (by omega) ?_ part after
      rcases enough with endless | more
      · exact Or.inl endless
      · exact Or.inr (by omega)

theorem discoverLinks_spec {recount : Bool} {ino : Nat} {E : Stop → Walk → Prop} (fails : ∀ u, E .check u) :
    wp (discoverLinks img recount ino) (fun _ u => u.bit = w.bit ∧ u.scanned = w.scanned) E w := by
  unfold discoverLinks
  rw [wp_ite]
  refine ⟨fun _ => ?_, fun _ => ?_⟩
  · rw [wp_bind]
    refine wp_mono (countLink_spec fails) ?_ (fun _ _ error => error)
    intro _ u ⟨bits, scans⟩
    rw [wp_ite, wp_pure]
    refine ⟨fun _ => wp_mono (countLink_spec fails) ?_ (fun _ _ error => error), fun _ => ⟨bits, scans⟩⟩
    intro _ v ⟨bits', scans'⟩
    exact ⟨bits'.trans bits, scans'.trans scans⟩
  · rw [wp_bind, wp_get, wp_require]
    exact ⟨fun _ => ⟨rfl, rfl⟩, fun _ => fails _⟩

theorem discoverParentLink_spec {recount : Bool} {ino : Nat} {fileType : UInt8} {E : Stop → Walk → Prop}
    (fails : ∀ u, E .check u) :
    wp (discoverParentLink recount ino fileType) (fun _ u => u.bit = w.bit ∧ u.scanned = w.scanned) E w := by
  unfold discoverParentLink
  rw [wp_ite, wp_pure]
  exact ⟨fun _ => countLink_spec fails, fun _ => ⟨rfl, rfl⟩⟩

/-- How many inodes are not marked. -/
def Table.unset (t : Table) (bit : Nat → Bool) : Nat :=
  ((Finset.Icc 1 t.ninodes).filter (fun i => bit i = false)).card

theorem Table.unset_mono {t : Table} {bit bit' : Nat → Bool} (grows : ∀ i, bit i = true → bit' i = true) :
    t.unset bit' ≤ t.unset bit := by
  apply Finset.card_le_card
  intro i member
  rw [Finset.mem_filter] at member ⊢
  refine ⟨member.1, ?_⟩
  cases old : bit i with
  | false => rfl
  | true =>
    rw [grows i old] at member
    exact absurd member.2 Bool.true_eq_false.mp

theorem Table.unset_update {t : Table} {bit : Nat → Bool} {i : Nat} (valid : t.Valid i) (new : bit i = false) :
    t.unset (Function.update bit i true) < t.unset bit := by
  apply Finset.card_lt_card
  refine ⟨fun j member => ?_, fun back => ?_⟩
  · rw [Finset.mem_filter] at member ⊢
    refine ⟨member.1, ?_⟩
    by_cases same : j = i
    · rw [same]
      exact new
    · rw [Function.update_of_ne same] at member
      exact member.2
  · have member := back (Finset.mem_filter.mpr ⟨Finset.mem_Icc.mpr valid, new⟩)
    rw [Finset.mem_filter, Function.update_self] at member
    exact absurd member.2 Bool.true_eq_false.mp

/-- One entry of the directory `ino`, given what a call on an inode does. -/
theorem discoverEntry_spec {recount : Bool} {fuel ino off : Nat} {b : Block} {l : List Nat} {v : Walk}
    (path : Reaches img.entries (fun d => img.isDir d = true) inoRoot ino) (dir : img.isDir ino = true)
    (fewer : img.unset (Function.update w.bit ino true) < img.unset w.bit)
    (ih : ∀ {i : Nat} {w : Walk}, Reaches img.entries (fun d => img.isDir d = true) inoRoot i →
      wp (discoverInodeAllocations img recount fuel i)
        (fun _ u => ∃ order, u.scanned = w.scanned ++ order ∧
          Traversed img.entries (fun d => img.isDir d = true) w.bit u.bit [i] order)
        (fun e _ => e = .outOfFuel → fuel < img.unset w.bit + 2 ^ 52 + 2) w)
    (part : l ++ [b.ino off] <+: img.entries ino)
    (here : ∃ order, v.scanned = w.scanned ++ [ino] ++ order ∧
      Traversed img.entries (fun d => img.isDir d = true) (Function.update w.bit ino true) v.bit l order) :
    wp (do
        discoverInodeAllocations img recount fuel (b.ino off)
        discoverParentLink recount ino (b.fileType off)
        pure 0)
      (fun r u => r = 0 ∧ ∃ order, u.scanned = w.scanned ++ [ino] ++ order ∧
        Traversed img.entries (fun d => img.isDir d = true) (Function.update w.bit ino true) u.bit (l ++ [b.ino off]) order)
      (fun e _ => e = .outOfFuel → fuel + 1 < img.unset w.bit + 2 ^ 52 + 2) v := by
  obtain ⟨order, lists, walk⟩ := here
  have child : b.ino off ∈ img.entries ino := part.subset (List.mem_append_right _ (List.mem_singleton_self _))
  have left := img.unset_mono walk.grows
  rw [wp_bind]
  refine wp_mono (ih (path.step dir child)) ?_ ?_
  · rintro _ u ⟨more, lists', walk'⟩
    rw [wp_bind]
    refine wp_mono (discoverParentLink_spec (fun _ never => by cases never)) ?_ (fun _ _ error => error)
    rintro _ x ⟨bits, scans⟩
    rw [wp_pure]
    refine ⟨rfl, order ++ more, ?_, ?_⟩
    · rw [scans, lists', lists, List.append_assoc]
    · rw [bits]
      exact walk.trans walk'
  · intro e u fails out
    have := fails out
    omega

/-- What a call on `ino` does; it only runs out of fuel if there is too little for the inodes that are left. -/
theorem discoverInodeAllocations_spec {recount : Bool}
    (short : ∀ d, Reaches img.entries (fun d => img.isDir d = true) inoRoot d → img.Valid d → img.isDir d = true →
      img.nbytes d ≤ 2 ^ 64 - 4096) {fuel ino : Nat}
    (path : Reaches img.entries (fun d => img.isDir d = true) inoRoot ino) :
    wp (discoverInodeAllocations img recount fuel ino)
      (fun _ u => ∃ order, u.scanned = w.scanned ++ order ∧
        Traversed img.entries (fun d => img.isDir d = true) w.bit u.bit [ino] order)
      (fun e _ => e = .outOfFuel → fuel < img.unset w.bit + 2 ^ 52 + 2) w := by
  induction fuel generalizing ino w with
  | zero =>
    rw [discoverInodeAllocations, wp_throw]
    intro _
    omega
  | succ fuel ih =>
    unfold discoverInodeAllocations
    have stops : ∀ (c : Prop), (Stop.check = Stop.outOfFuel → c) := fun c never => by cases never
    rw [wp_bind, wp_require]
    refine ⟨fun valid => ?_, fun _ => stops _⟩
    rw [wp_bind, wp_setInode, wp_bind, wp_require]
    refine ⟨fun once => ?_, fun _ => stops _⟩
    rw [wp_bind]
    refine wp_mono (discoverLinks_spec (fun _ => stops _)) ?_ (fun _ _ error => error)
    rintro _ u ⟨bits, scans⟩
    dsimp only at bits scans
    cases old : w.bit ino with
    | true =>
      have outer : ¬img.isDir ino = true := fun dir => once ⟨dir, old⟩
      rw [if_pos rfl, wp_pure]
      refine ⟨[], by rw [scans, List.append_nil], ?_⟩
      rw [bits]
      exact Traversed.leaf outer
    | false =>
      rw [if_neg Bool.false_ne_true, wp_bind, wp_require]
      refine ⟨fun _ => ?_, fun _ => stops _⟩
      by_cases dir : img.isDir ino = true
      swap
      · rw [if_neg dir, wp_pure]
        refine ⟨[], by rw [scans, List.append_nil], ?_⟩
        rw [bits]
        exact Traversed.leaf dir
      have fewer := img.unset_update valid old
      have blocks : img.nblocks ino = (img.nbytes ino + 4095) / 4096 := rfl
      have length := short ino path valid dir
      rw [if_pos dir, wp_bind, wp_modify, wp_bind]
      have scan := crawlDataLoop_calls (i := 0) (n := fuel) (T := img.entries ino)
        (I := fun l v => ∃ order, v.scanned = w.scanned ++ [ino] ++ order ∧
          Traversed img.entries (fun d => img.isDir d = true) (Function.update w.bit ino true) v.bit l order)
        (E := fun e _ => e = .outOfFuel → fuel + 1 < img.unset w.bit + 2 ^ 52 + 2)
        (u := { u with scanned := u.scanned ++ [ino] }) length (fun _ => stops _) (l := [])
        (fun l b off v part here => discoverEntry_spec path dir fewer ih part here) (Nat.zero_le _)
        (by
          by_cases enough : fuel + 1 < img.unset w.bit + 2 ^ 52 + 2
          · exact Or.inl (fun _ _ => enough)
          · exact Or.inr (by omega))
        (List.prefix_refl _) ⟨[], by rw [scans, List.append_nil], bits ▸ Traversed.none⟩
      rw [Nat.zero_mul] at scan
      refine wp_mono scan ?_ (fun _ _ error => error)
      rintro _ v ⟨-, order, lists, walk⟩
      rw [wp_pure]
      refine ⟨ino :: order, by rw [lists, List.append_assoc]; rfl, Traversed.node dir old walk⟩

/-- On an image without such long directories the walk ends, and finds a tree. -/
theorem discovers_of_short
    (short : ∀ d, Reaches img.entries (fun d => img.isDir d = true) inoRoot d → img.Valid d → img.isDir d = true →
      img.nbytes d ≤ 2 ^ 64 - 4096) : Discovers img := by
  intro recount nlinks
  have spec : ∀ fuel, wp (discoverInodeAllocations img recount fuel inoRoot)
      (fun _ u => ∃ order, u.scanned = [] ++ order ∧
        Traversed img.entries (fun d => img.isDir d = true) (fun _ => false) u.bit [inoRoot] order)
      (fun e _ => e = .outOfFuel → fuel < img.unset (fun _ => false) + 2 ^ 52 + 2) ⟨fun _ => false, nlinks, []⟩ :=
    fun fuel => @discoverInodeAllocations_spec img ⟨fun _ => false, nlinks, []⟩ recount short fuel inoRoot .refl
  refine ⟨⟨img.ninodes + 2 ^ 52 + 2, fun fuel enough u run => ?_⟩, fun fuel u run => ?_⟩
  · have out := (wp_error run).mp (spec fuel) rfl
    have all : img.unset (fun _ => false) ≤ img.ninodes := by
      have card := Finset.card_filter_le (Finset.Icc 1 img.ninodes) (fun _ => (false : Bool) = false)
      rw [Nat.card_Icc, Nat.add_sub_cancel] at card
      exact card
    omega
  · obtain ⟨order, lists, walk⟩ := (wp_ok run).mp (spec fuel)
    rw [List.nil_append] at lists
    rw [← lists] at walk
    exact ⟨walk.marks_iff, walk.distinct, walk.entered_iff, fun d entered => walk.count_entered entered⟩

theorem live_nil {b : Block} {fin n off : Nat} (end_ : fin < off + direntMinLen) : b.live fin n off = [] := by
  cases n with
  | zero => rfl
  | succ n => rw [Block.live, if_neg (by omega)]

/-- Only a directory with room for an entry has one. -/
theorem nbytes_of_entry {d i : Nat} (child : i ∈ img.entries d) : direntMinLen ≤ img.nbytes d := by
  by_contra short
  obtain ⟨k, -, member⟩ := List.mem_flatMap.mp child
  cases content : img.block d k with
  | none =>
    rw [content] at member
    cases member
  | some b =>
    rw [content] at member
    dsimp only at member
    rw [live_nil (by omega), List.map_nil] at member
    cases member

end Walk

/-- The walk can be led to the inode by an entry in the root directory. -/
def Table.LedTo (t : Table) (d : Nat) : Prop :=
  d = inoRoot ∨ (t.isDir inoRoot = true ∧ direntMinLen ≤ t.nbytes inoRoot)

theorem ledTo_of_reaches {img : Image} {d : Nat}
    (path : Reaches img.entries (fun d => img.isDir d = true) inoRoot d) : img.LedTo d := by
  induction path with
  | refl => exact Or.inl rfl
  | step _ enters child ih =>
    rcases ih with rfl | room
    · exact Or.inr ⟨enters, nbytes_of_entry child⟩
    · exact Or.inr room

section Endless

variable {img : Image} {d : Nat}

/-- The scan of a long directory without entries does not end. -/
theorem crawlDataLoop_endless {callback : Block → Nat → Walking Nat} (long : 2 ^ 64 - 4096 < img.nbytes d)
    (zero : ∀ i, img.block d i = some (fun _ => 0)) {n i off : Nat} (small : off < 2 ^ 64) (aligned : off % 4096 = 0)
    {w : Walk} :
    wp (crawlDataLoop img d (fun b size => callbackReadDir .check (callback b) b size) n i off) (fun _ _ => False)
      (fun e _ => e = .outOfFuel) w := by
  induction n generalizing i off w with
  | zero => rw [crawlDataLoop, wp_throw]
  | succ n ih =>
    have content : (if i < 2 ^ 52 then img.block d i else some (fun _ => 0)) = some (fun _ => 0) := by
      rw [zero, ite_self]
    have empty : ∀ size, callbackReadDir Stop.check (callback (fun _ => 0)) (fun _ => 0) size = pure 0 := by
      intro size
      have none : Block.recLen (fun _ => 0) 0 = 0 := rfl
      change readDirLoop _ _ _ _ (4095 + 1) 0 = _
      rw [readDirLoop, if_neg (not_not.mpr (Nat.zero_mod _)), if_pos none, ite_self]
    unfold crawlDataLoop
    rw [if_pos (by omega), content]
    dsimp only
    rw [empty, wp_bind, wp_pure, if_neg (not_not.mpr rfl)]
    refine ih ?_ ?_
    · exact Nat.mod_lt _ (by decide)
    · change (off + 4096) % 2 ^ 64 % 4096 = 0
      omega

/-- On an unmarked directory with links the walk comes to the scan. -/
theorem discover_enters (valid : img.Valid d) (dir : img.isDir d = true) (marks : img.marks d = true) {w : Walk}
    (new : w.bit d = false) (links : 2 ≤ w.nlinks d) {fuel : Nat} {E : Stop → Walk → Prop}
    (scan : wp (readDir img fuel d (fun b off => do
        discoverInodeAllocations img false fuel (b.ino off)
        discoverParentLink false d (b.fileType off)
        pure 0)) (fun _ _ => False) E ⟨Function.update w.bit d true, w.nlinks, w.scanned ++ [d]⟩) :
    wp (discoverInodeAllocations img false (fuel + 1) d) (fun _ _ => False) E w := by
  unfold discoverInodeAllocations discoverLinks
  rw [wp_bind, wp_require]
  refine ⟨fun _ => ?_, fun invalid => absurd valid invalid⟩
  rw [wp_bind, wp_setInode, wp_bind, wp_require, new]
  refine ⟨fun _ => ?_, fun twice => absurd (fun both => Bool.false_ne_true both.2) twice⟩
  rw [wp_bind, if_neg Bool.false_ne_true, wp_bind, wp_get, wp_require, if_pos dir]
  refine ⟨fun _ => ?_, fun few => absurd links few⟩
  rw [if_neg Bool.false_ne_true, wp_bind, wp_require]
  refine ⟨fun _ => ?_, fun bad => absurd marks bad⟩
  rw [if_pos dir, wp_bind, wp_modify, wp_bind]
  exact wp_mono scan (fun _ _ never => never.elim) (fun _ _ error => error)

theorem discover_endless (valid : img.Valid d) (dir : img.isDir d = true) (marks : img.marks d = true)
    (long : 2 ^ 64 - 4096 < img.nbytes d) (zero : ∀ i, img.block d i = some (fun _ => 0)) {w : Walk}
    (new : w.bit d = false) (links : 2 ≤ w.nlinks d) {fuel : Nat} :
    wp (discoverInodeAllocations img false fuel d) (fun _ _ => False) (fun e _ => e = .outOfFuel) w := by
  cases fuel with
  | zero => rw [discoverInodeAllocations, wp_throw]
  | succ fuel =>
    exact discover_enters valid dir marks new links (crawlDataLoop_endless long zero (by decide) (by decide))

/-- A block with one entry, which names `d`. -/
def entryBlock (d : Nat) : Block := fun k => if k < 8 then leByte d k else if k = 8 then 16 else 0

theorem entryBlock_ino {d : Nat} (small : d < 2 ^ 64) : (entryBlock d).ino 0 = d := by
  have bytes : (entryBlock d).ino 0 = leValue (leByte d) 8 :=
    leValue_congr (fun k inside => by rw [Nat.zero_add, entryBlock, if_pos inside])
  rw [bytes, leValue_leByte]
  exact Nat.mod_eq_of_lt small

/-- An entry in the root directory leads the walk to the long directory. -/
theorem discover_root_endless (valid : img.Valid d) (dir : img.isDir d = true) (marks : ∀ i, img.marks i = true)
    (long : 2 ^ 64 - 4096 < img.nbytes d) (zero : ∀ i, img.block d i = some (fun _ => 0)) (other : d ≠ inoRoot)
    (rootDir : img.isDir inoRoot = true) (room : direntMinLen ≤ img.nbytes inoRoot)
    (entry : img.block inoRoot 0 = some (entryBlock d)) {fuel : Nat} :
    wp (discoverInodeAllocations img false fuel inoRoot) (fun _ _ => False) (fun e _ => e = .outOfFuel)
      ⟨fun _ => false, fun _ => 2, []⟩ := by
  have bound := img.ninodes_lt
  have least : direntMinLen = 16 := rfl
  have size : blockSize = 4096 := rfl
  cases fuel with
  | zero => rw [discoverInodeAllocations, wp_throw]
  | succ fuel =>
    refine discover_enters (d := inoRoot) ⟨le_refl _, valid.1.trans valid.2⟩ rootDir (marks _) rfl (le_refl _) ?_
    unfold readDir
    cases fuel with
    | zero => rw [crawlDataLoop, wp_throw]
    | succ fuel =>
      have number : (entryBlock d).ino 0 = d := entryBlock_ino (by have := valid.2; omega)
      have length : (entryBlock d).recLen 0 = 16 := rfl
      have name : (entryBlock d).nameLen 0 = 0 := rfl
      have new : Function.update (fun _ => false) inoRoot true d = false := Function.update_of_ne other ..
      unfold crawlDataLoop
      rw [if_pos (by omega), if_pos (by decide), entry]
      dsimp only
      rw [wp_bind]
      change wp (readDirLoop _ _ _ _ (4095 + 1) 0) _ _ _
      rw [readDirLoop, if_pos (by omega), if_neg (not_not.mpr (Nat.zero_mod _)), length, if_neg (by decide),
        if_neg (by decide), if_neg (by rw [number]; have := valid.1; unfold inoInvalid; omega), name, if_neg (by decide),
        number, wp_bind, wp_bind]
      refine wp_mono (discover_endless valid dir (marks _) long zero new (le_refl _))
        (fun _ _ never => never.elim) (fun _ _ error => error)

theorem not_discovers (endless : ∀ fuel, wp (discoverInodeAllocations img false fuel inoRoot) (fun _ _ => False)
    (fun e _ => e = .outOfFuel) ⟨fun _ => false, fun _ => 2, []⟩) : ¬Discovers img := by
  intro finds
  obtain ⟨⟨enough, ends⟩, -⟩ := finds false (fun _ => 2)
  cases run : discoverInodeAllocations img false enough inoRoot ⟨fun _ => false, fun _ => 2, []⟩ with
  | ok _ w => exact (wp_ok run).mp (endless enough)
  | error e w =>
    have out := (wp_error run).mp (endless enough)
    exact ends enough (le_refl _) w (out ▸ run)

end Endless

/-- A single inode, the root directory: a hole of 2^64 - 1 bytes. -/
def hugeRoot : Image where
  ninodes := 1
  mode _ := 0x41ED
  nbytes _ := 2 ^ 64 - 1
  ninodes_lt := by decide
  nbytes_lt _ := by decide
  block _ _ := some (fun _ => 0)
  marks _ := true

end Bpfs
