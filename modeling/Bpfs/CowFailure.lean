import Bpfs.BitmapRuns
import Bpfs.IndirectCow

/-! What a copy on write leaves behind when an allocation fails inside `indirect_cow_block_cow`. -/

namespace Bpfs.IndirectCow
open Lib

/-- The block bitmap, the hash maps and the lists of children are as before, and no list has a freed record. -/
structure Restored (s t : CowState) : Prop where
  bits : ∀ no, t.blockAlloc.bit no = s.blockAlloc.bit no
  nfree : t.blockAlloc.nfree = s.blockAlloc.nfree
  allocs : t.blockAlloc.allocs = s.blockAlloc.allocs
  frees : t.blockAlloc.frees = s.blockAlloc.frees
  orig : t.blknoMapOrig = s.blknoMapOrig
  cow : t.blknoMapCow = s.blknoMapCow
  lists : ∀ block b, s.blocks block = some b → ∃ c, t.blocks block = some c ∧ c.childrenAll = b.childrenAll ∧
    c.childAllNext = b.childAllNext ∧ c.childrenCow = b.childrenCow ∧ c.childCowNext = b.childCowNext
  live : ∀ block b, t.blocks block = some b → ∀ child,
    some child ∈ [b.childrenAll, b.childAllNext, b.childrenCow, b.childCowNext] → (t.blocks child).isSome

/-- Either the copy is made, or the block number is invalid and nothing else has changed. -/
def CopiesOrRestores (s : CowState) (x : CowM Nat) : Prop :=
  (∃ newBlockno t, x s = .ok newBlockno t ∧ newBlockno ≠ blocknoInvalid) ∨
    ∃ t, x s = .ok blocknoInvalid t ∧ Restored s t

/-- Every allocation that the copy makes succeeds. -/
def CowMem.Succeeds (mem : CowMem) (s : CowState) (oldBlockno : Nat) : Prop :=
  mem.dram.isSome ∧ mem.cow ∧ ((s.blknoMapOrig.lookup oldBlockno).isNone → mem.record.isSome ∧ mem.orig)

/-- The number of the block that is allocated next. -/
def nextBlockno (s : CowState) : Nat := s.blockAlloc.alloc.1 + 1

/-- What the code asserts of the superblock when a child of it is copied. -/
def ParentReady (s : CowState) (oldBlockno : Nat) : Prop :=
  match s.parentStack.head? with
  | none => oldBlockno = blocknoSuper
  | some parent => oldBlockno ≠ blocknoSuper ∧ ∃ p, s.blocks parent = some p ∧
      (p.origBlkno ≠ blocknoSuper ∨ p.childrenCow = none ∧
        ((s.blknoMapOrig.lookup oldBlockno).isNone → p.childrenAll = none))

/-- What the code asserts of the record of the block, if there is one. -/
def RecordReady (s : CowState) (oldBlockno : Nat) : Prop :=
  match s.blknoMapOrig.lookup oldBlockno with
  | none => s.blknoMapCow.lookup oldBlockno = none
  | some block => ∃ b, s.blocks block = some b ∧ b.cowBlkno = blocknoInvalid ∧ b.childCowNext = none ∧
      b.parent = s.parentStack.head? ∧ b.origBlkno = oldBlockno

/-- A block is to be copied that was not allocated since the last commit, there is a free block, and what the code asserts
holds. -/
structure Ready (s : CowState) (oldBlockno : Nat) : Prop where
  old : oldBlockno - 1 ∉ s.blockAlloc.allocs
  valid : oldBlockno ≠ blocknoInvalid
  second : oldBlockno ≠ blocknoSuper2
  freeable : oldBlockno.testBit 63 = false → (oldBlockno = blocknoSuper ∨ blocknoFirstAlloc ≤ oldBlockno) ∧
    oldBlockno - 1 < s.blockAlloc.ntotal ∧ s.blockAlloc.bit (oldBlockno - 1) ∧ oldBlockno - 1 ∉ s.blockAlloc.frees
  room : s.blockAlloc.alloc.1 ≠ s.blockAlloc.ntotal
  first : blocknoFirstAlloc ≤ nextBlockno s
  new : s.blknoMapCow.lookup (nextBlockno s) = none ∧ s.blknoMapOrig.lookup (nextBlockno s) = none
  parent : ParentReady s oldBlockno
  record : RecordReady s oldBlockno

variable {s t : CowState} {α : Type} {Q : α → CowState → Prop} {E : CowErr → CowState → Prop} {block old new : Nat}
  {mem : CowMem}

theorem wp_assert {c : Prop} [Decidable c] {Q : Unit → CowState → Prop} (holds : c → Q ⟨⟩ s)
    (fails : ¬c → E .assertion s) : wp (assert c) Q E s := by
  rw [assert, wp_ite]
  exact ⟨holds, fails⟩

theorem wp_deref {Q : CowBlock → CowState → Prop} (found : ∀ b, s.blocks block = some b → Q b s)
    (missing : s.blocks block = none → E .segfault s) : wp (deref block) Q E s := by
  rw [deref, wp_bind, wp_get]
  cases here : s.blocks block with
  | none => exact missing here
  | some b => exact found b here

/-! ### When every allocation succeeds -/

/-- The bitmap and the maps are as before, and the record is there. -/
structure Entered (s t : CowState) (block : Nat) : Prop where
  bitmap : t.blockAlloc = s.blockAlloc
  orig : t.blknoMapOrig = s.blknoMapOrig
  cow : t.blknoMapCow = s.blknoMapCow
  live : (t.blocks block).isSome

theorem blockGetEither_none (orig : s.blknoMapOrig.lookup old = none) (cow : s.blknoMapCow.lookup old = none)
    {Q : Option Nat → CowState → Prop} : wp (blockGetEither old) Q E s ↔ Q none s := by
  rw [blockGetEither, wp_bind, wp_get, cow, orig]
  exact wp_pure

theorem update_isSome {a b : Nat} {c : CowBlock} (live : (s.blocks b).isSome) :
    (Function.update s.blocks a (some c) b).isSome := by
  by_cases same : b = a
  · rw [same, Function.update_self]
    rfl
  · rw [Function.update_of_ne same]
    exact live

theorem wp_deref_live {Q : CowBlock → CowState → Prop} (live : (s.blocks block).isSome)
    (found : ∀ b, s.blocks block = some b → Q b s) : wp (deref block) Q E s :=
  wp_deref found fun missing => absurd live (by rw [missing]; exact Bool.false_ne_true)

theorem blockCreate_succeeds (parent : ParentReady s old) (orig : s.blknoMapOrig.lookup old = none)
    (cow : s.blknoMapCow.lookup old = none) (new' : s.blknoMapCow.lookup new = none ∧ s.blknoMapOrig.lookup new = none) :
    wp (blockCreate old new (some block)) (fun r t => ∃ block, r = some block ∧ Entered s t block) (fun _ _ => False) s := by
  rw [blockCreate, wp_bind, parentGet, wp_bind, wp_get, wp_pure, wp_bind, blockGetEither_none orig cow, wp_bind]
  refine wp_assert (fun _ => ?_) (fun never => never rfl)
  rw [wp_bind, blockGetEither_none new'.2 new'.1, wp_bind]
  refine wp_assert (fun _ => ?_) (fun never => never rfl)
  rw [ParentReady, orig] at parent
  cases top : s.parentStack.head? with
  | none =>
    rw [top] at parent
    dsimp only
    rw [wp_bind]
    refine wp_assert (fun _ => ?_) (fun never => never parent)
    rw [wp_bind, put, wp_modify, wp_pure]
    exact ⟨block, rfl, rfl, rfl, rfl, by simp⟩
  | some q =>
    rw [top] at parent
    obtain ⟨other, p, there, sole⟩ := parent
    dsimp only
    rw [wp_bind]
    refine wp_assert (fun _ => ?_) (fun never => never other)
    rw [wp_bind]
    refine wp_deref_live (by rw [there]; rfl) fun b here => ?_
    obtain rfl : b = p := Option.some.inj (here.symm.trans there)
    rw [wp_bind]
    refine wp_assert (fun _ => ?_) (fun never => never (sole.imp id fun none => none.2 rfl))
    rw [wp_bind, put, wp_modify, wp_bind, put, wp_modify, wp_pure]
    exact ⟨block, rfl, rfl, rfl, rfl, update_isSome (s := { s with blocks := _ }) (by simp)⟩

theorem blockReuse_succeeds {b : CowBlock} (parent : ParentReady s old) (here : s.blocks block = some b)
    (copy : b.cowBlkno = blocknoInvalid) (next : b.childCowNext = none) (same : b.parent = s.parentStack.head?)
    (number : b.origBlkno = old) :
    wp (blockReuse block new) (fun r t => ∃ block, r = some block ∧ Entered s t block) (fun _ _ => False) s := by
  rw [blockReuse, wp_bind, parentGet, wp_bind, wp_get, wp_pure, wp_bind]
  refine wp_deref_live (by rw [here]; rfl) fun c there => ?_
  obtain rfl : c = b := Option.some.inj (there.symm.trans here)
  rw [wp_bind]
  refine wp_assert (fun _ => ?_) (fun never => never copy)
  rw [wp_bind]
  refine wp_assert (fun _ => ?_) (fun never => never next)
  rw [wp_bind, put, wp_modify, wp_bind]
  refine wp_assert (fun _ => ?_) (fun never => never same)
  rw [ParentReady] at parent
  cases top : s.parentStack.head? with
  | none => exact ⟨block, rfl, rfl, rfl, rfl, by simp⟩
  | some q =>
    rw [top] at parent
    obtain ⟨other, p, above, -⟩ := parent
    dsimp only
    rw [wp_bind]
    refine wp_assert (fun _ => ?_) (fun never => never (number ▸ other))
    rw [wp_bind]
    refine wp_deref_live (update_isSome (by rw [above]; rfl)) fun p' _ => ?_
    rw [wp_bind]
    refine wp_deref_live (by simp) fun b' _ => ?_
    rw [wp_bind, put, wp_modify, wp_bind]
    refine wp_deref_live (update_isSome (s := { s with blocks := _ }) (update_isSome (by rw [above]; rfl))) fun p'' _ => ?_
    rw [wp_bind, put, wp_modify, wp_pure]
    exact ⟨block, rfl, rfl, rfl, rfl, update_isSome (s := { s with blocks := _ }) (by simp)⟩

/-- The assertions on the numbers and the parent, before the first allocation. -/
structure Callable (s : CowState) (old new : Nat) : Prop where
  valid : old ≠ blocknoInvalid
  second : old ≠ blocknoSuper2
  first : blocknoFirstAlloc ≤ new
  parent : ParentReady s old

theorem checkParent_succeeds (parent : ParentReady s old) {Q : Unit → CowState → Prop} (next : Q ⟨⟩ s) :
    wp (checkParent s.parentStack.head?) Q E s := by
  rw [ParentReady] at parent
  cases top : s.parentStack.head? with
  | none => exact next
  | some q =>
    rw [top] at parent
    obtain ⟨-, p, there, sole⟩ := parent
    rw [checkParent, wp_bind]
    refine wp_deref_live (by rw [there]; rfl) fun b here => ?_
    obtain rfl : b = p := Option.some.inj (here.symm.trans there)
    exact wp_assert (fun _ => next) (fun never => absurd (sole.imp id fun none => none.1) never)

/-- `indirect_cow_block_cow` from its first allocation on. -/
def cowRecorded (old new : Nat) (mem : CowMem) (found : Option Nat) : CowM Int := do
  let block ← blockFor found old new mem.record
  match block, mem.dram with
  | some block, some dram => do
      let b ← deref block
      put block (some { b with dram := some dram })
      blockEnter block found.isNone old new mem
  | block, _ => abortCow block found.isNone old new

theorem wp_indirectCowBlockCow (callable : Callable s old new) {Q : Int → CowState → Prop} :
    wp (cowRecorded old new mem (s.blknoMapOrig.lookup old)) Q E s → wp (indirectCowBlockCow old new mem) Q E s := by
  intro rest
  have first := callable.first
  rw [blocknoFirstAlloc] at first
  have here : ∀ n, n < 3 → new ≠ n := fun n small same => by omega
  rw [indirectCowBlockCow, wp_bind, parentGet, wp_bind, wp_get, wp_pure, wp_bind, wp_get]
  dsimp only
  rw [wp_bind]
  refine wp_assert (fun _ => ?_) (fun never => absurd callable.valid never)
  rw [wp_bind]
  refine wp_assert (fun _ => ?_) (fun never => absurd (here 0 (by decide)) never)
  rw [wp_bind]
  refine wp_assert (fun _ => ?_) (fun never => absurd (here 1 (by decide)) never)
  rw [wp_bind]
  refine wp_assert (fun _ => ?_) (fun never => absurd callable.second never)
  rw [wp_bind]
  refine wp_assert (fun _ => ?_) (fun never => absurd (here 2 (by decide)) never)
  rw [wp_bind]
  exact checkParent_succeeds callable.parent rest

theorem blockEnter_succeeds {found : Option Nat} (orig : found = none → s.blknoMapOrig.lookup old = none)
    (cow : s.blknoMapCow.lookup new = none) (memory : found.isNone → mem.orig) (memory' : mem.cow) :
    wp (blockEnter block found.isNone old new mem) (fun r t => r = 0 ∧ t.blockAlloc = s.blockAlloc)
      (fun _ _ => False) s := by
  have enough : ¬(found.isNone && !mem.orig) = true := by
    cases none : found.isNone with
    | false => exact Bool.false_ne_true
    | true => rw [memory none]; exact Bool.false_ne_true
  rw [blockEnter, if_neg enough, if_pos memory', wp_bind, enterOrig, wp_ite]
  constructor
  · intro none
    rw [wp_bind, wp_get, wp_bind]
    refine wp_assert (fun _ => ?_) (fun never => never (orig (Option.isNone_iff_eq_none.mp none)))
    rw [wp_modify, wp_bind, enterCow, wp_bind, wp_get, wp_bind]
    exact wp_assert (fun _ => ⟨rfl, rfl⟩) (fun never => never cow)
  · intro _
    rw [wp_pure, wp_bind, enterCow, wp_bind, wp_get, wp_bind]
    exact wp_assert (fun _ => ⟨rfl, rfl⟩) (fun never => never cow)

theorem cowRecorded_succeeds (parent : ParentReady s old) (record : RecordReady s old)
    (new' : s.blknoMapCow.lookup new = none ∧ s.blknoMapOrig.lookup new = none) (memory : mem.Succeeds s old) :
    wp (cowRecorded old new mem (s.blknoMapOrig.lookup old)) (fun r t => r = 0 ∧ t.blockAlloc = s.blockAlloc)
      (fun _ _ => False) s := by
  obtain ⟨dram, cow, create⟩ := memory
  obtain ⟨d, buffer⟩ := Option.isSome_iff_exists.mp dram
  have made : wp (blockFor (s.blknoMapOrig.lookup old) old new mem.record)
      (fun r t => ∃ block, r = some block ∧ Entered s t block) (fun _ _ => False) s := by
    rw [RecordReady] at record
    cases found : s.blknoMapOrig.lookup old with
    | none =>
      rw [found] at record
      obtain ⟨p, address⟩ := Option.isSome_iff_exists.mp (create (by rw [found]; rfl)).1
      rw [address]
      exact blockCreate_succeeds parent found record new'
    | some block =>
      rw [found] at record
      obtain ⟨b, here, copy, next, same, number⟩ := record
      exact blockReuse_succeeds parent here copy next same number
  rw [cowRecorded, wp_bind]
  refine wp_mono made ?_ (fun _ _ fails => fails)
  rintro r t ⟨block, rfl, entered⟩
  rw [buffer]
  dsimp only
  rw [wp_bind]
  refine wp_deref_live entered.live fun b _ => ?_
  rw [wp_bind, put, wp_modify]
  refine wp_mono (blockEnter_succeeds ?_ ?_ (fun none => (create none).2) cow) ?_ (fun _ _ fails => fails)
  · intro none
    exact (congrArg (Finmap.lookup old) entered.orig).trans none
  · exact (congrArg (Finmap.lookup new) entered.cow).trans new'.1
  · rintro r u ⟨code, bitmap⟩
    exact ⟨code, bitmap.trans entered.bitmap⟩

/-! ### When an allocation fails -/

/-- The parent's list of children begins with the new record. -/
def Listed (blocks : Nat → Option CowBlock) (block : Nat) : Prop :=
  ∃ q c, q ≠ block ∧ blocks q = some c ∧ c.childrenAll = some block

/-- The record was put in front of the parent's list of copied children. -/
def Spliced (s : CowState) (blocks : Nat → Option CowBlock) (block : Nat) : Prop :=
  ∃ q p b c d, s.blocks q = some p ∧ s.blocks block = some b ∧ b.childCowNext = none ∧ blocks q = some c ∧
    blocks block = some d ∧ c.childrenCow = some block ∧ d.childCowNext = p.childrenCow

theorem Listed.update {blocks : Nat → Option CowBlock} (listed : Listed blocks block) (b : Option CowBlock) :
    Listed (Function.update blocks block b) block := by
  obtain ⟨q, c, other, there, child⟩ := listed
  exact ⟨q, c, other, (Function.update_of_ne other _ _).trans there, child⟩

/-- The links of the record stay when its other fields change. -/
theorem Spliced.update {blocks : Nat → Option CowBlock} {e f : CowBlock} (spliced : Spliced s blocks block)
    (here : blocks block = some e) (cow : f.childrenCow = e.childrenCow) (next : f.childCowNext = e.childCowNext) :
    Spliced s (Function.update blocks block (some f)) block := by
  obtain ⟨q, p, b, c, d, parent, old, none, there, here', child, rest⟩ := spliced
  obtain rfl : d = e := Option.some.inj (here'.symm.trans here)
  by_cases same : q = block
  · subst same
    obtain rfl : c = d := Option.some.inj (there.symm.trans here)
    exact ⟨q, p, b, f, f, parent, old, none, Function.update_self _ _ _, Function.update_self _ _ _, cow.trans child,
      next.trans rest⟩
  · exact ⟨q, p, b, c, f, parent, old, none, (Function.update_of_ne same _ _).trans there, Function.update_self _ _ _, child,
      next.trans rest⟩

/-- What the record that is left behind, or was, still hangs on. -/
def Hangs (s : CowState) (newBlock : Bool) (blocks : Nat → Option CowBlock) (block : Nat) : Prop :=
  if newBlock then Listed blocks block else Spliced s blocks block

theorem Hangs.update {newBlock : Bool} {blocks : Nat → Option CowBlock} {e f : CowBlock}
    (hangs : Hangs s newBlock blocks block) (here : blocks block = some e) (cow : f.childrenCow = e.childrenCow)
    (next : f.childCowNext = e.childCowNext) : Hangs s newBlock (Function.update blocks block (some f)) block := by
  cases newBlock with
  | true => exact Listed.update hangs _
  | false => exact Spliced.update hangs here cow next

/-- A list of children has a freed record, or one more than before. -/
def Scarred (s t : CowState) : Prop :=
  ∃ block newBlock, Hangs s newBlock t.blocks block ∧ (newBlock = true → t.blocks block = none)

theorem Scarred.not_restored (scarred : Scarred s t) : ¬Restored s t := by
  intro restored
  obtain ⟨block, newBlock, hangs, freed⟩ := scarred
  cases newBlock with
  | true =>
    obtain ⟨q, c, -, there, child⟩ := hangs
    have live := restored.live q c there block (by simp [child])
    rw [freed rfl] at live
    exact Bool.false_ne_true live
  | false =>
    obtain ⟨q, p, b, c, d, parent, old, none, there, here, child, rest⟩ := hangs
    obtain ⟨c', there', -, -, cow, -⟩ := restored.lists q p parent
    obtain ⟨d', here', -, -, -, next⟩ := restored.lists block b old
    rw [there] at there'
    rw [here] at here'
    rw [← Option.some.inj there', child] at cow
    rw [← Option.some.inj here', rest, none, ← cow] at next
    exact nomatch next

/-- What a failed `indirect_cow_block_cow` leaves. -/
structure Fallen (s t : CowState) (old : Nat) (r : Int) : Prop where
  code : r < 0
  bitmap : t.blockAlloc = s.blockAlloc
  scar : Scarred s t ∨ old = blocknoSuper

theorem abortCow_fallen {u : CowState} {newBlock : Bool} (bitmap : u.blockAlloc = s.blockAlloc)
    (hangs : Hangs s newBlock u.blocks block ∨ old = blocknoSuper) :
    wp (abortCow (some block) newBlock old new) (fun r t => Fallen s t old r) (fun _ _ => True) u := by
  rw [abortCow, wp_bind]
  refine wp_deref (fun b here => ?_) (fun _ => trivial)
  rw [wp_bind, put, wp_modify, wp_bind, wp_modify, wp_ite]
  constructor
  · intro created
    rw [wp_bind, wp_modify, wp_bind, put, wp_modify, wp_pure]
    refine ⟨by decide, bitmap, hangs.imp (fun hangs => ?_) id⟩
    rw [Hangs, if_pos created] at hangs
    exact ⟨block, true, (hangs.update _).update _, fun _ => Function.update_self _ _ _⟩
  · intro existing
    rw [wp_pure]
    refine ⟨by decide, bitmap, hangs.imp (fun hangs => ?_) id⟩
    exact ⟨block, newBlock, hangs.update here rfl rfl, fun created => absurd created existing⟩

theorem blockCreate_hangs {record : Option Nat} (fresh : ∀ p ∈ record, s.blocks p = none) :
    wp (blockCreate old new record) (fun r t => t.blockAlloc = s.blockAlloc ∧
      ∀ block, r = some block → record.isSome ∧ (Hangs s true t.blocks block ∨ old = blocknoSuper)) (fun _ _ => True) s := by
  have either : ∀ blkno {Q : Option Nat → CowState → Prop}, (∀ r, Q r s) → wp (blockGetEither blkno) Q (fun _ _ => True) s := by
    intro blkno Q next
    rw [blockGetEither, wp_bind, wp_get]
    split
    · exact next _
    · split
      · exact next _
      · rw [wp_bind]
        refine wp_deref (fun b _ => ?_) (fun _ => trivial)
        rw [wp_bind]
        exact wp_assert (fun _ => next _) (fun _ => trivial)
  rw [blockCreate, wp_bind, parentGet, wp_bind, wp_get, wp_pure, wp_bind]
  refine either old fun first => ?_
  rw [wp_bind]
  refine wp_assert (fun _ => ?_) (fun _ => trivial)
  rw [wp_bind]
  refine either new fun second => ?_
  rw [wp_bind]
  refine wp_assert (fun _ => ?_) (fun _ => trivial)
  cases record with
  | none => exact ⟨rfl, fun _ never => nomatch never⟩
  | some block =>
    cases s.parentStack.head? with
    | none =>
      dsimp only
      rw [wp_bind]
      refine wp_assert (fun super => ?_) (fun _ => trivial)
      exact ⟨rfl, fun _ _ => ⟨rfl, Or.inr super⟩⟩
    | some q =>
      dsimp only
      rw [wp_bind]
      refine wp_assert (fun _ => ?_) (fun _ => trivial)
      rw [wp_bind]
      refine wp_deref (fun p there => ?_) (fun _ => trivial)
      rw [wp_bind]
      refine wp_assert (fun _ => ?_) (fun _ => trivial)
      rw [wp_bind, put, wp_modify, wp_bind, put, wp_modify, wp_pure]
      refine ⟨rfl, fun block' same => ⟨rfl, Or.inl ?_⟩⟩
      obtain rfl := Option.some.inj same
      have other : q ≠ block := fun equal => by rw [equal, fresh block rfl] at there; exact nomatch there
      exact ⟨q, _, other, Function.update_self _ _ _, rfl⟩

theorem blockReuse_hangs (parent : ParentReady s old) :
    wp (blockReuse block new) (fun r t => t.blockAlloc = s.blockAlloc ∧
      ∀ block, r = some block → Hangs s false t.blocks block ∨ old = blocknoSuper) (fun _ _ => True) s := by
  rw [blockReuse, wp_bind, parentGet, wp_bind, wp_get, wp_pure, wp_bind]
  refine wp_deref (fun b here => ?_) (fun _ => trivial)
  rw [wp_bind]
  refine wp_assert (fun _ => ?_) (fun _ => trivial)
  rw [wp_bind]
  refine wp_assert (fun last => ?_) (fun _ => trivial)
  rw [wp_bind, put, wp_modify, wp_bind]
  refine wp_assert (fun _ => ?_) (fun _ => trivial)
  rw [ParentReady] at parent
  cases top : s.parentStack.head? with
  | none =>
    rw [top] at parent
    exact ⟨rfl, fun _ _ => Or.inr parent⟩
  | some q =>
    rw [top] at parent
    obtain ⟨-, p, above, -⟩ := parent
    dsimp only
    rw [wp_bind]
    refine wp_assert (fun _ => ?_) (fun _ => trivial)
    rw [wp_bind]
    refine wp_deref (fun p' there' => ?_) (fun _ => trivial)
    rw [wp_bind]
    refine wp_deref (fun b' here' => ?_) (fun _ => trivial)
    rw [wp_bind, put, wp_modify, wp_bind]
    refine wp_deref (fun p'' there'' => ?_) (fun _ => trivial)
    rw [wp_bind, put, wp_modify, wp_pure]
    refine ⟨rfl, fun block' same => Or.inl ?_⟩
    obtain rfl := Option.some.inj same
    dsimp only at there' here' there''
    have list : p'.childrenCow = p.childrenCow := by
      by_cases same : q = block
      · subst same
        rw [Function.update_self] at there'
        rw [← Option.some.inj there', Option.some.inj (here.symm.trans above)]
      · rw [Function.update_of_ne same] at there'
        rw [Option.some.inj (there'.symm.trans above)]
    by_cases same : q = block
    · subst same
      rw [Function.update_self] at there''
      refine ⟨q, p, b, _, _, above, here, last, Function.update_self _ _ _, Function.update_self _ _ _, rfl, ?_⟩
      rw [← Option.some.inj there'']
      exact list
    · refine ⟨q, p, b, _, { b' with childCowNext := p'.childrenCow }, above, here, last, Function.update_self _ _ _, ?_,
        rfl, list⟩
      exact (Function.update_of_ne (Ne.symm same) _ _).trans (Function.update_self _ _ _)

theorem blockEnter_fallen {u : CowState} {found : Option Nat} (bitmap : u.blockAlloc = s.blockAlloc)
    (hangs : Hangs s found.isNone u.blocks block ∨ old = blocknoSuper) (short : ¬(mem.cow ∧ (found.isNone → mem.orig))) :
    wp (blockEnter block found.isNone old new mem) (fun r t => Fallen s t old r) (fun _ _ => True) u := by
  rw [blockEnter, wp_ite]
  refine ⟨fun _ => abortCow_fallen bitmap hangs, fun enough => ?_⟩
  have cow : ¬mem.cow = true := by
    intro cow
    refine short ⟨cow, fun none => ?_⟩
    rw [none, Bool.true_and, Bool.not_eq_true', Bool.not_eq_false] at enough
    exact enough
  rw [wp_bind, if_neg cow, enterOrig, wp_ite]
  constructor
  · intro _
    rw [wp_bind, wp_get, wp_bind]
    refine wp_assert (fun _ => ?_) (fun _ => trivial)
    exact abortCow_fallen bitmap hangs
  · intro _
    exact abortCow_fallen bitmap hangs

theorem cowRecorded_fallen (fresh : ∀ p ∈ mem.record, s.blocks p = none) (parent : ParentReady s old)
    (short : ¬mem.Succeeds s old) :
    wp (cowRecorded old new mem (s.blknoMapOrig.lookup old)) (fun r t => Fallen s t old r) (fun _ _ => True) s := by
  have made : wp (blockFor (s.blknoMapOrig.lookup old) old new mem.record) (fun r t => t.blockAlloc = s.blockAlloc ∧
      ∀ block, r = some block → ((s.blknoMapOrig.lookup old).isNone → mem.record.isSome) ∧
        (Hangs s (s.blknoMapOrig.lookup old).isNone t.blocks block ∨ old = blocknoSuper)) (fun _ _ => True) s := by
    cases s.blknoMapOrig.lookup old with
    | none =>
      refine wp_mono (blockCreate_hangs fresh) (fun r t made => ⟨made.1, fun block same => ?_⟩) (fun _ _ fails => fails)
      exact ⟨fun _ => (made.2 block same).1, (made.2 block same).2⟩
    | some block =>
      refine wp_mono (blockReuse_hangs parent) (fun r t made => ⟨made.1, fun block same => ?_⟩) (fun _ _ fails => fails)
      exact ⟨fun never => absurd never Bool.false_ne_true, made.2 block same⟩
  rw [cowRecorded, wp_bind]
  refine wp_mono made ?_ (fun _ _ fails => fails)
  rintro r t ⟨bitmap, hangs⟩
  cases r with
  | none => exact trivial
  | some block =>
    cases dram : mem.dram with
    | none => exact abortCow_fallen bitmap (hangs block rfl).2
    | some d =>
      dsimp only
      rw [wp_bind]
      refine wp_deref (fun b here => ?_) (fun _ => trivial)
      rw [wp_bind, put, wp_modify]
      refine blockEnter_fallen bitmap ((hangs block rfl).2.imp (fun hangs => hangs.update here rfl rfl) id) ?_
      rintro ⟨cow, orig⟩
      exact short ⟨by rw [dram]; rfl, cow, fun none => ⟨(hangs block rfl).1 none, orig none⟩⟩

/-! ### The callers -/

theorem bitmapStep_spec {f : Bitmap → Option Bitmap} {Q : Unit → CowState → Prop} :
    wp (bitmapStep f) Q E s ↔ match f s.blockAlloc with
      | none => E .assertion s
      | some bm => Q ⟨⟩ { s with blockAlloc := bm } := by
  rw [bitmapStep, wp_bind, wp_get]
  cases f s.blockAlloc <;> rfl

/-- The state once a block has been allocated. -/
def taken (s : CowState) : CowState := { s with blockAlloc := s.blockAlloc.alloc.2 }

theorem wp_allocBlock (room : s.blockAlloc.alloc.1 ≠ s.blockAlloc.ntotal) (first : blocknoFirstAlloc ≤ nextBlockno s)
    {Q : Nat → CowState → Prop} (next : Q (nextBlockno s) (taken s)) : wp allocBlock Q E s := by
  rw [allocBlock, wp_bind, wp_get]
  dsimp only
  rw [wp_bind, wp_modify, if_neg room, wp_bind]
  exact wp_assert (fun _ => next) (fun never => absurd first never)

/-- The caller up to the copy. -/
theorem wp_cowBlockWith (ready : Ready s old) {Q : Nat → CowState → Prop}
    (next : wp (cowRecorded old (nextBlockno s) mem ((taken s).blknoMapOrig.lookup old)) (fun r t =>
      wp (if r < 0 then do
          unallocBlock (nextBlockno s)
          setBlock old
          pure blocknoInvalid
        else do
          freeBlock old
          pure (nextBlockno s)) Q E t) E (taken s)) : wp (cowBlockWith old mem) Q E s := by
  have stale : ¬(s.blockAlloc.allocs.contains (old - 1)) = true := by
    rw [List.contains_iff_mem]
    exact ready.old
  have callable : Callable (taken s) old (nextBlockno s) := ⟨ready.valid, ready.second, ready.first, ready.parent⟩
  rw [cowBlockWith, wp_bind, blockFreshlyAlloced, wp_bind, wp_get, wp_pure, if_neg stale, wp_bind]
  refine wp_allocBlock ready.room ready.first ?_
  rw [if_neg (show nextBlockno s ≠ blocknoInvalid from Nat.succ_ne_zero _), wp_bind]
  exact wp_indirectCowBlockCow callable next

theorem alloc_taken (room : s.blockAlloc.alloc.1 ≠ s.blockAlloc.ntotal) :
    s.blockAlloc.bit s.blockAlloc.alloc.1 = false ∧ (taken s).blockAlloc.ntotal = s.blockAlloc.ntotal ∧
      (taken s).blockAlloc.frees = s.blockAlloc.frees ∧
      ∀ k, (taken s).blockAlloc.bit k = (decide (k = s.blockAlloc.alloc.1) || s.blockAlloc.bit k) := by
  unfold taken
  unfold Bitmap.alloc at room ⊢
  cases found : s.blockAlloc.scan ((s.blockAlloc.ntotal + Bitmap.scanBits - 1) / Bitmap.scanBits) 0 with
  | none =>
    rw [found] at room
    exact absurd rfl room
  | some no =>
    obtain ⟨-, -, clear⟩ := Bitmap.scan_some rfl found
    exact ⟨clear, rfl, rfl, fun k => Bitmap.bit_setBit_with _ _ _ _ _⟩

/-- The block that was to be copied is still marked, so marking it again fails. -/
theorem rollBack_fails {bitmap : Bitmap} (ready : Ready s old) (small : old.testBit 63 = false)
    (back : (taken s).blockAlloc.unalloc (nextBlockno s - 1) = some bitmap) : bitmap.set (old - 1) = none := by
  obtain ⟨clear, -, -, bits⟩ := alloc_taken ready.room
  obtain ⟨-, -, set, -⟩ := ready.freeable small
  have other : old - 1 ≠ s.blockAlloc.alloc.1 := by
    intro same
    rw [same, clear] at set
    exact Bool.false_ne_true set
  obtain ⟨-, -, -, becomes⟩ := Bitmap.unalloc_effect back
  have still : bitmap.bit (old - 1) = true := by
    rw [becomes.bits, Bitmap.without, bits, set]
    simpa [nextBlockno] using other
  rw [Bitmap.set, if_pos still]

theorem cowBlockWith_fails (fresh : ∀ p ∈ mem.record, s.blocks p = none) (ready : Ready s old)
    (short : ¬mem.Succeeds s old) :
    wp (cowBlockWith old mem) (fun r t => r = blocknoInvalid ∧ ¬Restored s t) (fun _ _ => True) s := by
  refine wp_cowBlockWith ready ?_
  have fallen : wp (cowRecorded old (nextBlockno s) mem ((taken s).blknoMapOrig.lookup old))
      (fun r t => Fallen (taken s) t old r) (fun _ _ => True) (taken s) := cowRecorded_fallen fresh ready.parent short
  refine wp_mono fallen (fun r t fallen => ?_) (fun _ _ fails => fails)
  rw [if_pos fallen.code, wp_bind, unallocBlock, wp_bind]
  refine wp_assert (fun _ => ?_) (fun _ => trivial)
  rw [wp_bind]
  refine wp_assert (fun _ => ?_) (fun _ => trivial)
  rw [bitmapStep_spec, fallen.bitmap]
  split
  · exact trivial
  · rename_i bitmap back
    rw [wp_bind, setBlock, wp_ite]
    constructor
    · intro onDisk
      have scarred : Scarred (taken s) t := fallen.scar.resolve_right fun super => by
        rw [super] at onDisk
        exact absurd onDisk (by decide)
      exact ⟨rfl, Scarred.not_restored (s := s) scarred⟩
    · intro small
      rw [wp_bind]
      refine wp_assert (fun _ => ?_) (fun _ => trivial)
      rw [bitmapStep_spec]
      dsimp only
      rw [rollBack_fails ready (by simpa using small) back]
      exact trivial

theorem cowBlockWith_succeeds (ready : Ready s old) (memory : mem.Succeeds s old) :
    wp (cowBlockWith old mem) (fun r _ => r ≠ blocknoInvalid) (fun _ _ => False) s := by
  refine wp_cowBlockWith ready ?_
  have done : wp (cowRecorded old (nextBlockno s) mem ((taken s).blknoMapOrig.lookup old))
      (fun r t => r = 0 ∧ t.blockAlloc = (taken s).blockAlloc) (fun _ _ => False) (taken s) :=
    cowRecorded_succeeds ready.parent ready.record ready.new memory
  refine wp_mono done ?_ (fun _ _ fails => fails)
  rintro r t ⟨rfl, bitmap⟩
  rw [if_neg (by decide), wp_bind, freeBlock, wp_ite]
  refine ⟨fun _ => Nat.succ_ne_zero _, fun small => ?_⟩
  obtain ⟨number, inside, set, kept⟩ := ready.freeable (by simpa using small)
  obtain ⟨-, ntotal, frees, bits⟩ := alloc_taken ready.room
  rw [wp_bind]
  refine wp_assert (fun _ => ?_) (fun never => never ready.valid)
  rw [wp_bind]
  refine wp_assert (fun _ => ?_) (fun never => never number)
  have freeable : old - 1 < t.blockAlloc.ntotal ∧ t.blockAlloc.bit (old - 1) ∧ old - 1 ∉ t.blockAlloc.frees := by
    rw [bitmap, ntotal, frees, bits, set, Bool.or_true]
    exact ⟨inside, rfl, kept⟩
  rw [bitmapStep_spec, Bitmap.free, if_pos freeable]
  exact Nat.succ_ne_zero _

theorem copiesOrRestores_iff (fresh : ∀ p ∈ mem.record, s.blocks p = none) (ready : Ready s old) :
    CopiesOrRestores s (cowBlockWith old mem) ↔ mem.Succeeds s old := by
  constructor
  · intro copies
    by_contra short
    have fails := cowBlockWith_fails fresh ready short
    rcases copies with ⟨new, t, done, valid⟩ | ⟨t, done, restored⟩
    · exact valid ((wp_ok done).mp fails).1
    · exact ((wp_ok done).mp fails).2 restored
  · intro memory
    obtain ⟨new, t, done, valid⟩ := ok_of_wp (cowBlockWith_succeeds ready memory)
    exact Or.inl ⟨new, t, done, valid⟩

/-- No failure inside `indirect_cow_block_cow` is rolled back: a copy on write leaves things right only when every
allocation succeeds. -/
theorem cow_failure_iff {off size valid : Nat} (fresh : ∀ p ∈ mem.record, s.blocks p = none) (ready : Ready s old)
    (range : off + size ≤ blockSize) (valid' : valid ≤ blockSize) :
    CopiesOrRestores s (cowBlock old off size valid mem) ∧ CopiesOrRestores s (cowBlockEntire old mem) ↔
      mem.Succeeds s old := by
  have same : CopiesOrRestores s (cowBlock old off size valid mem) ↔ CopiesOrRestores s (cowBlockWith old mem) := by
    rw [cowBlock, assert, if_pos range, assert, if_pos valid']
    rfl
  rw [same, cowBlockEntire, and_self]
  exact copiesOrRestores_iff fresh ready

/-- Block 4 is to be copied, below the visited block 3. -/
def visited : CowState where
  blockAlloc := ⟨fun k => if k = 0 then 31 else 0, 64, 59, [], [], 0⟩
  blocks := fun p => if p = 1 then some ⟨3, 0, none, false, none, none, none, none, none⟩ else none
  blknoMapOrig := (∅ : Finmap fun _ : Nat => Nat).insert 3 1
  blknoMapCow := ∅
  parentStack := [1]

theorem visited_ready : Ready visited 4 where
  old := by decide +kernel
  valid := by decide
  second := by decide
  freeable := by decide +kernel
  room := by decide +kernel
  first := by decide +kernel
  new := by decide +kernel
  parent := ⟨by decide, _, rfl, Or.inl (by decide)⟩
  record := by
    have none : visited.blknoMapOrig.lookup 4 = none := by decide +kernel
    rw [RecordReady, none]
    decide +kernel

theorem cow_failure_iff_visited : CopiesOrRestores visited (cowBlock 4 0 0 4096 ⟨some 2, some 9, true, true⟩) ∧
    CopiesOrRestores visited (cowBlockEntire 4 ⟨some 2, some 9, true, true⟩) :=
  (cow_failure_iff (by rintro p ⟨⟩; rfl) visited_ready (by decide) (by decide)).mpr ⟨rfl, rfl, fun _ => ⟨rfl, rfl⟩⟩

/-- Without memory for the buffer the roll-back marks the block a second time, which fails an assertion. -/
theorem no_buffer_asserts : ¬CopiesOrRestores visited (cowBlock 4 0 0 4096 ⟨some 2, none, true, true⟩) := by
  have ends : (match cowBlock 4 0 0 4096 ⟨some 2, none, true, true⟩ visited with
      | .ok _ _ => none
      | .error e _ => some e) = some CowErr.assertion := by decide +kernel
  rintro (⟨new, t, done, -⟩ | ⟨t, done, -⟩) <;> (rw [done] at ends; exact nomatch ends)

end Bpfs.IndirectCow
