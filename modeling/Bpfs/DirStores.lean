import Bpfs.DirRead
import Bpfs.DirRuns

/-! Creating a file, store by store: what a reader of the directory finds after a crash between any two of the stores
that `create_file` makes to durable memory in its commit mode of updates in place. The stores are those that a reader
can come to: the blocks that the trees of a directory and of the inodes are made of are not in account, and a block
that is added to a directory is there from the store of the new length on. -/

namespace Bpfs.Dir
open Lib Dcache

/-- A store of a few bytes into a block. -/
structure Write where
  off : Nat
  len : Nat
  bytes : Nat → UInt8

def writes (b : Block) (l : List Write) : Block := l.foldl (fun b w => b.write w.off w.len w.bytes) b

inductive Store where
  /-- to block number `i` of the directory -/
  | data (d i : Nat) (w : Write)
  /-- to the length of the directory, which then has one more block -/
  | extend (d : Nat) (b : Block)
  /-- to the inode, which is then `x` -/
  | inode (ino : Nat) (x : Inode)
  /-- to the link count of the directory -/
  | nlinks (d k : Nat)

def Store.apply (inodes : Nat → Inode) : Store → Nat → Inode
  | .data d i w => Function.update inodes d
      { inodes d with blocks := (inodes d).blocks.modify i fun b => b.write w.off w.len w.bytes }
  | .extend d b => Function.update inodes d { inodes d with blocks := (inodes d).blocks ++ [b] }
  | .inode ino x => Function.update inodes ino x
  | .nlinks d k => Function.update inodes d { inodes d with nlinks := k }

/-- What the stores leave. -/
def after (inodes : Nat → Inode) (l : List Store) : Nat → Inode := l.foldl Store.apply inodes

/-- `name_len`, then the bytes of the name with its terminating zero. -/
def nameWrites (o : Nat) (name : Name) : List Write :=
  ⟨o + 11, 1, fun _ => UInt8.ofNat name.len⟩ ::
    (List.range name.len).map fun k => ⟨o + 12 + k, 1, fun _ => name.bytes.getD k 0⟩

/-- The end of the records behind a new one. -/
def nextWrites (o : Nat) (name : Name) : List Write :=
  if o + direntLen name.len + direntMinLen ≤ blockSize then [⟨o + direntLen name.len + 8, 2, leByte 0⟩] else []

/-- The stores of `callback_dirent_plug` to the block `b`. -/
def plugWrites (b : Block) (o : Nat) (name : Name) : List Write :=
  if b.recLen o = 0 then
    nextWrites o name ++ [⟨o, 8, leByte inoInvalid⟩] ++ ⟨o + 8, 2, leByte (direntLen name.len)⟩ :: nameWrites o name
  else nameWrites o name

/-- The block that `callback_dirent_append` fills. -/
def appended (name : Name) (fresh : Block) : Block :=
  if direntLen name.len + direntMinLen ≤ blockSize then (fresh.setRecLen (direntLen name.len) 0).label 0 name.bytes
  else fresh.label 0 name.bytes

/-- Where the record for the new entry is; `taken` is the result of `dcache_take_free`. -/
def placeOf (B : List Block) (taken : Option Nat) : Nat := taken.getD (B.length * blockSize)

/-- The stores of `alloc_dirent`. -/
def allocStores (B : List Block) (d : Nat) (name : Name) (fresh : Block) : Option Nat → List Store
  | some p => (plugWrites (B.getD (p / blockSize) fresh) (p % blockSize) name).map (.data d (p / blockSize))
  | none => [.extend d (appended name fresh)]

/-- The stores of `create_file` for the record at `p` up to its inode number: the new inode, with `steps` while it is
written and `x` in the end; the type of the entry; for a new directory the link count of its parent. -/
def fillStores (v : Volume) (d p : Nat) (kind : UInt8) (ino : Nat) (steps : List Inode) (x : Inode) : List Store :=
  (steps ++ [x]).map (.inode ino) ++ [.data d (p / blockSize) ⟨p % blockSize + 10, 1, fun _ => kind⟩] ++
    if kind = typeDir then [.nlinks d ((v.inodes d).nlinks + 1)] else []

/-- The stores of `create_file`; the last one makes the entry valid. -/
def createStores (v : Volume) (d : Nat) (name : Name) (kind : UInt8) (ino : Nat) (taken : Option Nat) (fresh : Block)
    (steps : List Inode) (x : Inode) : List Store :=
  let p := placeOf (v.inodes d).blocks taken
  allocStores (v.inodes d).blocks d name fresh taken ++ fillStores v d p kind ino steps x ++
    [.data d (p / blockSize) ⟨p % blockSize, 8, leByte ino⟩]

/-- The free record that `create_file` takes from the cache, if it does. -/
def takenBy (v : Volume) (d : Nat) (name : Name) : Option Nat :=
  match (do
    let _ ← findDirent d name
    dcacheTakeFree d (direntLen name.len) : DirM (Option Nat)) v with
  | .ok taken _ => taken
  | .error _ _ => none

section Writes

variable {b : Block} {l m : List Write} {k o : Nat} {name : Name}

theorem writes_append : writes b (l ++ m) = writes (writes b l) m := List.foldl_append ..

theorem writes_outside (out : ∀ w ∈ l, k < w.off ∨ w.off + w.len ≤ k) : writes b l k = b k := by
  induction l generalizing b with
  | nil => rfl
  | cons w l ih =>
    refine (ih (b := b.write w.off w.len w.bytes) fun w' inside => out w' (List.mem_cons_of_mem _ inside)).trans ?_
    exact Block.write_outside (out w (List.mem_cons_self ..))

/-- Bytes stored one by one. -/
theorem writes_range {a : Nat} {g : Nat → UInt8} (n : Nat) :
    writes b ((List.range n).map fun k => ⟨a + k, 1, fun _ => g k⟩) = b.write a n g := by
  induction n with
  | zero =>
    funext k
    exact (Block.write_outside (by omega)).symm
  | succ n ih =>
    rw [List.range_succ, List.map_append, writes_append, ih]
    funext k
    change Block.write (b.write a n g) (a + n) 1 (fun _ => g n) k = _
    by_cases last : k = a + n
    · subst last
      rw [Block.write, if_pos (by omega), Block.write_inside (by omega)]
    · rw [Block.write_outside (by omega)]
      unfold Block.write
      by_cases inside : a ≤ k ∧ k < a + n
      · rw [if_pos inside, if_pos (by omega)]
      · rw [if_neg inside, if_neg (by omega)]

theorem writes_name : writes b (nameWrites o name) = b.putName o name.bytes := writes_range name.len

theorem nameWrites_bounds {w : Write} (member : w ∈ nameWrites o name) :
    o + 11 ≤ w.off ∧ w.off + w.len ≤ o + direntLen name.len := by
  have long := Block.le_direntLen name.len
  have some : 1 ≤ name.len := Nat.succ_pos _
  rcases List.mem_cons.mp member with rfl | inside
  · dsimp only
    omega
  · obtain ⟨k, small, rfl⟩ := List.mem_map.mp inside
    have := List.mem_range.mp small
    dsimp only
    omega

theorem prefix_split {α : Type} {l A C : List α} (part : l <+: A ++ C) : l <+: A ∨ ∃ l', l' <+: C ∧ l = A ++ l' := by
  rcases List.prefix_or_prefix_of_prefix part (List.prefix_append A C) with short | ⟨l', rfl⟩
  · exact Or.inl short
  · exact Or.inr ⟨l', (List.prefix_append_right_inj A).mp part, rfl⟩

/-- The stores to a record after its length and inode number, as far as they have come. -/
theorem quiet_bounds {kind : UInt8} {w : Write} (part : l <+: nameWrites o name ++ [⟨o + 10, 1, fun _ => kind⟩])
    (member : w ∈ l) : o + 10 ≤ w.off ∧ w.off + w.len ≤ o + direntLen name.len := by
  have long := Block.le_direntLen name.len
  rcases List.mem_append.mp (part.subset member) with inside | last
  · have := nameWrites_bounds inside
    omega
  · rw [List.mem_singleton.mp last]
    dsimp only
    omega

/-- A record out of use stays so while its name and type are written. -/
theorem placed_dead {r : Rec} {kind : UInt8} (tiled : b.Tiled) (member : (o, r) ∈ b.recs) (dead : r.ino = inoInvalid)
    (room : direntLen name.len ≤ r.len) (part : l <+: nameWrites o name ++ [⟨o + 10, 1, fun _ => kind⟩]) :
    ∃ s, Block.Placed b (writes b l) o s ∧ s.ino = inoInvalid ∧ s.len = r.len := by
  have old : r = b.decode o := (b.scan_recs.bounds.2 _ member).2.2.1
  have same : ∀ k, k < o + 10 ∨ o + r.len ≤ k → writes b l k = b k := fun k out =>
    writes_outside fun w inside => by
      have := quiet_bounds part inside
      omega
  have length : (writes b l).recLen o = r.len := by
    rw [old]
    exact Block.recLen_congr fun k _ near => same k (Or.inl near)
  refine ⟨_, Block.placed_edit tiled member (fun k out => same k (by omega)) length, ?_, length⟩
  rw [← dead, old]
  exact Block.ino_congr fun k _ near => same k (Or.inl (by omega))

theorem nextWrites_bounds {w : Write} (member : w ∈ nextWrites o name) : o + direntLen name.len + 8 ≤ w.off := by
  unfold nextWrites at member
  split at member
  · rw [List.mem_singleton.mp member]
  · cases member

/-- The end of the records of a block stays where it is until there is a length. -/
theorem tail_before (tiled : b.Tiled) (tail : b.scanEnd = o) (zero : b.recLen o = 0)
    (part : l <+: nextWrites o name ++ [⟨o, 8, leByte inoInvalid⟩]) : (writes b l).recs = b.recs ∧ (writes b l).scanEnd = o := by
  have long := Block.direntLen_mono (Nat.zero_le name.len)
  have least : direntLen 0 = 16 := rfl
  have same : ∀ k, k < o ∨ (o + 8 ≤ k ∧ k < o + 10) → writes b l k = b k := fun k out =>
    writes_outside fun w member => by
      rcases List.mem_append.mp (part.subset member) with old | last
      · have := nextWrites_bounds old
        omega
      · rw [List.mem_singleton.mp last]
        dsimp only
        omega
  have still : (writes b l).recLen o = 0 := (Block.recLen_congr fun k low high => same k (Or.inr ⟨low, high⟩)).trans zero
  subst tail
  exact (b.scan_recs.congr tiled (fun k _ near => same k (Or.inl near)) fun more => more.2 still).eq

/-- Then there is a record out of use, while its name and type are written. -/
theorem tail_behind {kind : UInt8} (tiled : b.Tiled) (tail : b.scanEnd = o) (inside : o + direntLen name.len ≤ blockSize)
    (part : l <+: nameWrites o name ++ [⟨o + 10, 1, fun _ => kind⟩]) :
    ∃ s, Block.Placed b (writes b (nextWrites o name ++ [⟨o, 8, leByte inoInvalid⟩] ++
      ⟨o + 8, 2, leByte (direntLen name.len)⟩ :: l)) o s ∧ s.ino = inoInvalid ∧ s.len = direntLen name.len := by
  have long := Block.direntLen_mono (Nat.zero_le name.len)
  have least : direntLen 0 = 16 := rfl
  have small : direntMinLen = 16 := rfl
  have size : blockSize = 4096 := rfl
  obtain ⟨c, moved⟩ : ∃ c, c = writes b (nextWrites o name) := ⟨_, rfl⟩
  have all : writes b (nextWrites o name ++ [⟨o, 8, leByte inoInvalid⟩] ++ ⟨o + 8, 2, leByte (direntLen name.len)⟩ :: l) =
      writes ((c.setIno o inoInvalid).setRecLen o (direntLen name.len)) l := by
    rw [writes_append, writes_append, ← moved]
    rfl
  rw [all]
  obtain ⟨b', new⟩ : ∃ b', b' = writes ((c.setIno o inoInvalid).setRecLen o (direntLen name.len)) l := ⟨_, rfl⟩
  rw [← new]
  have same : ∀ k, k < o + 10 ∨ o + direntLen name.len ≤ k →
      b' k = (c.setIno o inoInvalid).setRecLen o (direntLen name.len) k := fun k out => by
    rw [new]
    refine writes_outside fun w member => ?_
    have := quiet_bounds part member
    omega
  have length : b'.recLen o = direntLen name.len := by
    rw [Block.recLen_congr fun k _ near => same k (Or.inl near)]
    exact Block.recLen_setRecLen (by omega)
  have number : b'.ino o = inoInvalid := by
    have written : ((c.setIno o inoInvalid).setRecLen o (direntLen name.len)).ino o = (c.setIno o inoInvalid).ino o :=
      Block.ino_congr fun k _ near => Block.write_outside (by omega)
    rw [Block.ino_congr fun k _ near => same k (Or.inl (by omega)), written]
    exact Block.ino_setIno (by decide)
  have low : ∀ k, k < o → b' k = b k := fun k near => by
    rw [same k (Or.inl (by omega)), Block.setRecLen, Block.write_outside (by omega), Block.setIno,
      Block.write_outside (by omega), moved]
    exact writes_outside fun w member => by
      have := nextWrites_bounds member
      omega
  have last : ¬(o + b'.recLen o + direntMinLen ≤ blockSize ∧ b'.recLen (o + b'.recLen o) ≠ 0) := by
    rw [length]
    rintro ⟨room, more⟩
    refine more ?_
    have high : ∀ k, o + direntLen name.len + 8 ≤ k → b' k = c k := fun k far => by
      rw [same k (Or.inr (by omega)), Block.setRecLen, Block.write_outside (by omega), Block.setIno,
        Block.write_outside (by omega)]
    rw [Block.recLen_congr fun k far _ => high k far, moved, nextWrites, if_pos room]
    exact Block.recLen_setRecLen (by decide)
  exact ⟨_, (Block.placed_extend tiled tail (by omega) low (by omega) last).1, number, length⟩

/-- The end of the records of a block stays so until a record out of use is behind it. -/
theorem placed_tail {kind : UInt8} (tiled : b.Tiled) (tail : b.scanEnd = o) (zero : b.recLen o = 0)
    (inside : o + direntLen name.len ≤ blockSize) (part : l <+: plugWrites b o name ++ [⟨o + 10, 1, fun _ => kind⟩]) :
    ((writes b l).recs = b.recs ∧ (writes b l).scanEnd = o) ∨
      ∃ s, Block.Placed b (writes b l) o s ∧ s.ino = inoInvalid ∧ s.len = direntLen name.len := by
  rw [plugWrites, if_pos zero, List.append_assoc, List.cons_append] at part
  rcases prefix_split part with short | ⟨l', rest, rfl⟩
  · exact Or.inl (tail_before tiled tail zero short)
  · rcases List.prefix_cons_iff.mp rest with rfl | ⟨l'', rfl, further⟩
    · rw [List.append_nil]
      exact Or.inl (tail_before tiled tail zero (List.prefix_refl _))
    · exact Or.inr (tail_behind tiled tail inside further)

end Writes

end Bpfs.Dir
