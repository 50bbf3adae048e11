import Bpfs.DirLoad

/-! Stores to the records of directories, and the allocation of a record for a new entry. -/

namespace Bpfs.Dir
open Lib Dcache

attribute [local irreducible] wp

/-- The volume with other data in one directory. -/
def Volume.setBlocks (v : Volume) (d : Nat) (B : List Block) : Volume :=
  { v with inodes := Function.update v.inodes d { v.inodes d with blocks := B } }

/-- Nothing differs but the data of directories and the cache. -/
structure Stays (v w : Volume) : Prop where
  ninodes : w.ninodes = v.ninodes
  used : w.used = v.used
  mode : ∀ i, (w.inodes i).mode = (v.inodes i).mode
  nlinks : ∀ i, (w.inodes i).nlinks = (v.inodes i).nlinks

section Blocks

variable {v w u : Volume} {d d' : Nat} {B B' : List Block}

theorem Stays.refl : Stays v v := ⟨rfl, rfl, fun _ => rfl, fun _ => rfl⟩

theorem Stays.trans (first : Stays v w) (second : Stays w u) : Stays v u where
  ninodes := second.ninodes.trans first.ninodes
  used := second.used.trans first.used
  mode i := (second.mode i).trans (first.mode i)
  nlinks i := (second.nlinks i).trans (first.nlinks i)

theorem Stays.dcache {c : List MDirectory} : Stays v { v with dcache := c } := ⟨rfl, rfl, fun _ => rfl, fun _ => rfl⟩

@[simp] theorem blocks_setBlocks : ((v.setBlocks d B).inodes d).blocks = B := by
  rw [Volume.setBlocks]
  dsimp only
  rw [Function.update_self]

theorem inodes_setBlocks (other : d' ≠ d) : (v.setBlocks d B).inodes d' = v.inodes d' := Function.update_of_ne other ..

@[simp] theorem setBlocks_setBlocks : (v.setBlocks d B).setBlocks d B' = v.setBlocks d B' := by
  simp [Volume.setBlocks]

/-- A change of the cache and one of the data can be taken in either order. -/
theorem dcache_setBlocks {c : List MDirectory} :
    { v.setBlocks d B with dcache := c } = Volume.setBlocks { v with dcache := c } d B := rfl

theorem stays_setBlocks : Stays v (v.setBlocks d B) := by
  refine ⟨rfl, rfl, fun i => ?_, fun i => ?_⟩ <;>
    by_cases same : i = d <;> simp [Volume.setBlocks, Function.update, same]

end Blocks

section Stores

variable {D : Set Nat} {X : Set (Nat × Nat)} {M C : Entries} {v : Volume} {d p : Nat} {r : Rec} {Q : Unit → Volume → Prop}
  {E : DirErr → Volume → Prop}

theorem wp_getInode {Q : Inode → Volume → Prop} (stops : Stops E)
    (next : 1 ≤ d ∧ d ≤ v.ninodes → Q (v.inodes d) v) : wp (getInode d) Q E v := by
  rw [getInode, wp_bind, wp_get, wp_bind, wp_assert, wp_pure]
  exact ⟨next, fun _ => stops _ _ (by decide)⟩

theorem wp_editBlock {f : Block → Block} (stops : Stops E)
    (next : Q ⟨⟩ (v.setBlocks d ((v.inodes d).blocks.modify (p / blockSize) f))) : wp (editBlock d p f) Q E v := by
  rw [editBlock, wp_bind]
  refine wp_getInode stops fun _ => ?_
  rw [wp_bind, wp_assert, setInode, wp_modify]
  exact ⟨fun _ => next, fun _ => stops _ _ (by decide)⟩

/-- A record placed where one is out of account. -/
theorem Inv.setBlocks {B : List Block} (inv : Inv D X M C v) (pending : (d, p) ∈ X)
    (placed : Placed (v.inodes d).blocks B p r) (fits : Block.Fits (p % blockSize) r) : Inv D X M C (v.setBlocks d B) :=
  inv.edit pending placed fits blocks_setBlocks (fun _ other => congrArg Inode.blocks (inodes_setBlocks other)) rfl rfl

/-- `w` differs from `v` only in the record at `p` of the directory. -/
structure Stored (v w : Volume) (d p : Nat) : Prop extends Stays v w where
  dcache : w.dcache = v.dcache
  record : ∀ d' q s, ¬(d' = d ∧ q = p) → At (v.inodes d').blocks q s → At (w.inodes d').blocks q s

theorem stored_setBlocks {B : List Block} (placed : Placed (v.inodes d).blocks B p r) :
    Stored v (v.setBlocks d B) d p where
  toStays := stays_setBlocks
  dcache := rfl
  record d' q s other old := by
    by_cases same : d' = d
    · subst same
      rw [blocks_setBlocks, placed.record]
      exact Or.inr ⟨fun here => other ⟨rfl, here⟩, old⟩
    · rw [inodes_setBlocks same]
      exact old

theorem wp_setDirentIno {ino : Nat} (inv : Inv D X M C v) (dir : d ∈ D) (pending : (d, p) ∈ X)
    (record : At (v.inodes d).blocks p r) (small : ino < 2 ^ 64) (stops : Stops E)
    (next : ∀ w, Inv D X M C w → Stored v w d p → At (w.inodes d).blocks p { r with ino := ino } → Q ⟨⟩ w) :
    wp (setDirentIno d p ino) Q E v := by
  have tiled := (inv.lists d dir).tiled
  have placed := record.setIno tiled small
  rw [setDirentIno, wp_bind, wp_assert]
  refine ⟨fun _ => wp_editBlock stops ?_, fun _ => stops _ _ (by decide)⟩
  refine next _ (inv.setBlocks pending placed { record.fits tiled with }) (stored_setBlocks placed) ?_
  rw [blocks_setBlocks]
  exact placed.at

theorem wp_setDirentType {kind : UInt8} (inv : Inv D X M C v) (dir : d ∈ D) (pending : (d, p) ∈ X)
    (record : At (v.inodes d).blocks p r) (stops : Stops E)
    (next : ∀ w, Inv D X M C w → Stored v w d p → At (w.inodes d).blocks p { r with type := kind } → Q ⟨⟩ w) :
    wp (setDirentType d p kind) Q E v := by
  have tiled := (inv.lists d dir).tiled
  have placed := record.setType (v := kind) tiled
  rw [setDirentType]
  refine wp_editBlock stops ?_
  refine next _ (inv.setBlocks pending placed { record.fits tiled with }) (stored_setBlocks placed) ?_
  rw [blocks_setBlocks]
  exact placed.at

end Stores

/-! ### Allocation -/

/-- `w` is `v` with a record for the name at `p`, which is still out of account. -/
structure Allocated (D : Set Nat) (M : Entries) (v w : Volume) (d p : Nat) (name : Name) : Prop extends Stays v w where
  inv : Inv D {(d, p)} M M w
  keeps : Keeps v.dcache w.dcache
  record : ∃ r, At (w.inodes d).blocks p r ∧ r.name = name.bytes
  bytes : ∀ q s, Live (v.inodes d).blocks q s → ∀ k, q ≤ k → k < q + s.len →
    byteAt (w.inodes d).blocks k = byteAt (v.inodes d).blocks k
  others : ∀ d', d' ≠ d → (w.inodes d').blocks = (v.inodes d').blocks

section Allocation

variable {D : Set Nat} {M : Entries} {v : Volume} {d p len : Nat} {r : Rec} {name : Name} {B : List Block}
  {c : List MDirectory} {E : DirErr → Volume → Prop}

theorem allocated_of_placed (placed : Placed (v.inodes d).blocks B p r) (tiled : Tiled (v.inodes d).blocks)
    (vacant : ∀ s, ¬Live (v.inodes d).blocks p s) (title : r.name = name.bytes)
    (inv : Inv D {(d, p)} M M { v.setBlocks d B with dcache := c }) (keeps : Keeps v.dcache c) :
    Allocated D M v { v.setBlocks d B with dcache := c } d p name where
  toStays := stays_setBlocks.trans Stays.dcache
  inv := inv
  keeps := keeps
  record := ⟨r, (congrArg (At · p r) blocks_setBlocks).mpr placed.at, title⟩
  bytes q s live k first last := by
    dsimp only
    rw [blocks_setBlocks]
    exact placed.bytes q s k tiled live.1 (fun here => vacant s (here ▸ live)) first last
  others d' other := congrArg Inode.blocks (inodes_setBlocks other)

theorem At.nonzero (record : At B p r) : r.len ≠ 0 := by
  obtain ⟨b, -, member⟩ := record
  exact (b.scan_recs.bounds.2 _ member).2.2.2.2

theorem At.recLen {b : Block} (record : At B p r) (here : B[p / blockSize]? = some b) : b.recLen (p % blockSize) = r.len := by
  obtain ⟨b', there, member⟩ := record
  obtain rfl := Option.some.inj (here.symm.trans there)
  exact (congrArg Rec.len (b.scan_recs.bounds.2 _ member).2.2.1).symm

theorem TailAt.recLen {b : Block} (tail : TailAt B p) (here : B[p / blockSize]? = some b) : b.recLen (p % blockSize) = 0 := by
  obtain ⟨b', there, ends, room⟩ := tail
  obtain rfl := Option.some.inj (here.symm.trans there)
  by_contra more
  exact b.scan_recs.ends (ends.symm ▸ ⟨room, more⟩)

/-- Behind the end of the records of a block nothing is free. -/
theorem TailAt.nothing {k : Nat} (tail : TailAt B p) (later : 0 < k) (inside : p % blockSize + k < blockSize) :
    ¬Available B (p + k) len := by
  obtain ⟨b, here, ends, -⟩ := tail
  have block : (p + k) / blockSize = p / blockSize ∧ (p + k) % blockSize = p % blockSize + k := by
    have := place (i := p / blockSize) inside
    rwa [← Nat.add_assoc, place_self] at this
  rintro (⟨r, ⟨b', there, member⟩, -⟩ | ⟨⟨b', there, ends', -⟩, -⟩)
  · rw [block.1, here] at there
    obtain rfl := Option.some.inj there
    have := (b.scan_recs.bounds.2 _ member).2.1
    dsimp only at this
    omega
  · rw [block.1, here] at there
    obtain rfl := Option.some.inj there
    omega

theorem wp_getBlock {Q : Block → Volume → Prop} (stops : Stops E)
    (next : ∀ b, (v.inodes d).blocks[p / blockSize]? = some b → Q b v) : wp (getBlock d p) Q E v := by
  rw [getBlock, wp_bind]
  refine wp_getInode stops fun _ => ?_
  split
  · exact wp_throw.mpr (stops _ _ (by decide))
  · exact wp_pure.mpr (next _ ‹_›)

/-- A record out of use gets the name. -/
theorem allocated_dead (inv : Inv D {(d, p)} M M { v with dcache := c }) (dir : d ∈ D) (keeps : Keeps v.dcache c)
    (record : At (v.inodes d).blocks p r) (dead : r.ino = inoInvalid) (room : direntLen name.len ≤ r.len) :
    Allocated D M v { v.setBlocks d
      ((v.inodes d).blocks.modify (p / blockSize) fun b => b.putName (p % blockSize) name.bytes) with dcache := c } d p name := by
  have tiled := (inv.lists d dir).tiled
  have fits := record.fits tiled
  have placed := record.putName tiled room
  refine allocated_of_placed placed tiled (fun s live => live.2 (live.1.unique record ▸ dead)) rfl ?_ keeps
  exact inv.setBlocks (Set.mem_singleton _) placed { fits with
    name := room
    nameLen := (Block.direntLen_ofNat _).trans room }

theorem direntLen_pos (n : Nat) : 16 ≤ direntLen n := by
  have least : direntLen 0 = 16 := rfl
  exact least ▸ Block.direntLen_mono (Nat.zero_le n)

/-- The end of a block becomes a record with the name, and what is left of it the new end. -/
theorem allocated_tail {m : MDirectory} (inv : Inv D {(m.ino, p)} M M { v with dcache := c }) (dir : m.ino ∈ D)
    (keeps : Keeps v.dcache c) (member : m ∈ c) (tail : TailAt (v.inodes m.ino).blocks p)
    (aligned : p % blockSize % direntAlign = 0)
    (room : p % blockSize + direntLen name.len + direntMinLen ≤ blockSize) :
    Allocated D M v { v.setBlocks m.ino ((v.inodes m.ino).blocks.modify (p / blockSize) fun b =>
        ((b.setRecLen (p % blockSize + direntLen name.len) 0).setIno (p % blockSize) inoInvalid).label (p % blockSize) name.bytes)
      with dcache := put c { m with
        free := (p + direntLen name.len, blockSize - (p % blockSize + direntLen name.len)) :: m.free } } m.ino p name := by
  have tiled := (inv.lists m.ino dir).tiled
  have least : direntMinLen = 16 := rfl
  have long := direntLen_pos name.len
  have inside : p % blockSize + direntLen name.len < blockSize := by omega
  obtain ⟨b, placed, next⟩ := tail.plug
    (c := fun b => (b.setRecLen (p % blockSize + direntLen name.len) 0).setIno (p % blockSize) inoInvalid) tiled inside.le
    (fun b k near => by rw [Block.setIno, Block.write_outside (by omega), Block.setRecLen, Block.write_outside (by omega)])
    (fun b _ => by
      have before : ∀ k, p % blockSize + 8 ≤ k → Block.setIno (b.setRecLen (p % blockSize + direntLen name.len) 0)
        (p % blockSize) inoInvalid k = b.setRecLen (p % blockSize + direntLen name.len) 0 k :=
        fun k far => Block.write_outside (Or.inr far)
      rw [Block.recLen_congr fun k far _ => before k (by omega)]
      exact Block.recLen_setRecLen (by omega))
  have remainder : (p + direntLen name.len) % blockSize = p % blockSize + direntLen name.len := by
    have := (place (i := p / blockSize) inside).2
    rwa [← Nat.add_assoc, place_self] at this
  generalize List.modify _ _ _ = B at placed next ⊢
  refine allocated_of_placed placed tiled (fun s live => live.1.not_tail tail) rfl ?_ ?_
  · have stored := inv.setBlocks (Set.mem_singleton _) placed (Block.fits_labelled aligned inside.le)
    have free : Available ((Volume.setBlocks { v with dcache := c } m.ino B).inodes m.ino).blocks (p + direntLen name.len)
        (blockSize - (p + direntLen name.len) % blockSize) := by
      rw [blocks_setBlocks]
      exact Or.inr ⟨next room, rfl⟩
    have listed := stored.addFree member free (fun listed => by
      obtain ⟨f, old, same⟩ := List.mem_map.mp listed
      exact tail.nothing (by omega) inside (same ▸ ((inv.caches m member).2.free f old).2))
    rw [remainder, Set.sdiff_singleton_eq_self fun same => by
      have := congrArg Prod.snd (Set.mem_singleton_iff.mp same)
      dsimp only at this
      omega] at listed
    exact listed
  · exact fun x old => keeps_put (keeps old)

/-- The end of a block becomes a record with the name; what is left is too short for another. -/
theorem allocated_last (inv : Inv D {(d, p)} M M { v with dcache := c }) (dir : d ∈ D) (keeps : Keeps v.dcache c)
    (tail : TailAt (v.inodes d).blocks p) (aligned : p % blockSize % direntAlign = 0)
    (inside : p % blockSize + direntLen name.len ≤ blockSize)
    (full : ¬p % blockSize + direntLen name.len + direntMinLen ≤ blockSize) :
    Allocated D M v { v.setBlocks d ((v.inodes d).blocks.modify (p / blockSize) fun b =>
        (b.setIno (p % blockSize) inoInvalid).label (p % blockSize) name.bytes) with dcache := c } d p name := by
  have tiled := (inv.lists d dir).tiled
  obtain ⟨b, placed, -⟩ := tail.plug (c := fun b => b.setIno (p % blockSize) inoInvalid) tiled inside
    (fun b k near => Block.write_outside (by omega)) (fun b room => absurd room full)
  refine allocated_of_placed placed tiled (fun s live => live.1.not_tail tail) rfl ?_ keeps
  exact inv.setBlocks (Set.mem_singleton _) placed (Block.fits_labelled aligned inside)

theorem Available.inside (free : Available B p len) : p / blockSize < B.length := by
  rcases free with ⟨r, ⟨b, here, -⟩, -⟩ | ⟨⟨b, here, -⟩, -⟩ <;> exact (List.getElem?_eq_some_iff.mp here).1

/-- Behind its blocks a directory has nothing. -/
theorem Inv.unlisted {X : Set (Nat × Nat)} {C : Entries} {m : MDirectory} (inv : Inv D X M C v) (member : m ∈ v.dcache)
    (behind : (v.inodes m.ino).blocks.length ≤ p / blockSize) : p ∉ m.free.map Prod.fst := by
  intro listed
  obtain ⟨f, old, rfl⟩ := List.mem_map.mp listed
  have := ((inv.caches m member).2.free f old).2.inside
  omega

/-- The place behind the last block, taken out of account. -/
theorem Inv.behind (inv : Rest D M v) :
    (∀ s, ¬Live (v.inodes d).blocks ((v.inodes d).blocks.length * blockSize) s) ∧
      Inv D {(d, (v.inodes d).blocks.length * blockSize)} M M v := by
  have block : (v.inodes d).blocks.length * blockSize / blockSize = (v.inodes d).blocks.length :=
    Nat.mul_div_cancel _ (by decide)
  have vacant : ∀ s, ¬Live (v.inodes d).blocks ((v.inodes d).blocks.length * blockSize) s := by
    rintro s ⟨⟨b, here, -⟩, -⟩
    have := (List.getElem?_eq_some_iff.mp here).1
    omega
  refine ⟨vacant, ?_⟩
  rw [← insert_empty_eq]
  exact inv.reserve vacant fun m member same => same ▸ inv.unlisted member (same ▸ block.ge)

/-- A block is added that begins with a record with the name. -/
theorem allocated_append {b : Block} (inv : Rest D M v) (dir : d ∈ D) (inside : direntLen name.len ≤ blockSize)
    (full : ¬direntLen name.len + direntMinLen ≤ blockSize) :
    Allocated D M v (v.setBlocks d ((v.inodes d).blocks ++ [b.label 0 name.bytes])) d
      ((v.inodes d).blocks.length * blockSize) name := by
  obtain ⟨vacant, reserved⟩ := inv.behind (d := d)
  obtain ⟨placed, -⟩ := placed_fresh (B := (v.inodes d).blocks) (c := b) inside (fun room => absurd room full)
  refine allocated_of_placed (c := v.dcache) placed (inv.lists d dir).tiled vacant rfl ?_ (List.Subset.refl _)
  refine reserved.setBlocks (Set.mem_singleton _) placed ?_
  rw [Nat.mul_mod_left]
  exact Block.fits_labelled rfl ((Nat.zero_add _).trans_le inside)

/-- A block is added that begins with a record with the name, and the rest of it is its end. -/
theorem allocated_append_tail {b : Block} {m : MDirectory} (inv : Rest D M v) (dir : m.ino ∈ D) (member : m ∈ v.dcache)
    (room : direntLen name.len + direntMinLen ≤ blockSize) :
    Allocated D M v { v.setBlocks m.ino
        ((v.inodes m.ino).blocks ++ [(b.setRecLen (direntLen name.len) 0).label 0 name.bytes]) with
      dcache := put v.dcache { m with free := ((v.inodes m.ino).blocks.length * blockSize + direntLen name.len,
        blockSize - direntLen name.len) :: m.free } } m.ino ((v.inodes m.ino).blocks.length * blockSize) name := by
  have least : direntMinLen = 16 := rfl
  have long := direntLen_pos name.len
  have inside : direntLen name.len < blockSize := by omega
  obtain ⟨vacant, reserved⟩ := inv.behind (d := m.ino)
  obtain ⟨placed, next⟩ := placed_fresh (B := (v.inodes m.ino).blocks) (c := b.setRecLen (direntLen name.len) 0) inside.le
    (fun _ => Block.recLen_setRecLen (by omega))
  obtain ⟨block, remainder⟩ := place (i := (v.inodes m.ino).blocks.length) inside
  refine allocated_of_placed placed (inv.lists m.ino dir).tiled vacant rfl ?_ keeps_put
  have stored := reserved.setBlocks (Set.mem_singleton _) placed (by
    rw [Nat.mul_mod_left]
    exact Block.fits_labelled rfl ((Nat.zero_add _).trans_le inside.le))
  generalize (v.inodes m.ino).blocks ++ [_] = B at next stored ⊢
  have free : Available ((v.setBlocks m.ino B).inodes m.ino).blocks
      ((v.inodes m.ino).blocks.length * blockSize + direntLen name.len) (blockSize - direntLen name.len) := by
    rw [blocks_setBlocks]
    exact Or.inr ⟨next room, by rw [remainder]⟩
  have listed := stored.addFree (m := m) member free (inv.unlisted member block.ge)
  rw [Set.sdiff_singleton_eq_self fun same => by
    have := congrArg Prod.snd (Set.mem_singleton_iff.mp same)
    dsimp only at this
    omega] at listed
  exact listed

theorem callbackDirentPlug_spec (inv : Inv D {(d, p)} M M { v with dcache := c }) (dir : d ∈ D) (keeps : Keeps v.dcache c)
    (free : Available (v.inodes d).blocks p len) (stops : Stops E) :
    wp (callbackDirentPlug d (p / blockSize) (p % blockSize) name) (fun _ w => Allocated D M v w d p name) E
      { v with dcache := c } := by
  rw [callbackDirentPlug, place_self, wp_bind]
  refine wp_getBlock stops fun b here => ?_
  rw [wp_bind, wp_assert]
  refine ⟨fun aligned => ?_, fun _ => stops _ _ (by decide)⟩
  rw [wp_bind, wp_assert]
  refine ⟨fun inside => ?_, fun _ => stops _ _ (by decide)⟩
  rw [wp_bind, wp_assert]
  refine ⟨fun enough => ?_, fun _ => stops _ _ (by decide)⟩
  rw [wp_bind, wp_assert]
  refine ⟨fun _ => ?_, fun _ => stops _ _ (by decide)⟩
  rcases free with ⟨r, record, dead, -⟩ | ⟨tail, -⟩
  · have length := record.recLen here
    have some := record.nonzero
    rw [if_neg (by omega)]
    exact wp_editBlock stops (allocated_dead inv dir keeps record dead (by omega))
  · have next : p / blockSize * blockSize + (p % blockSize + direntLen name.len) = p + direntLen name.len := by
      rw [← Nat.add_assoc, place_self]
    rw [if_pos (tail.recLen here), plugTail, place_self, next, wp_bind, wp_ite]
    refine ⟨fun room => ?_, fun full => ?_⟩
    · rw [wp_bind]
      refine wp_editBlock stops ?_
      rw [wp_bind, dcacheAddFree, wp_bind]
      refine wp_findDir (fun _ => stops _ _ (by decide)) fun m member same => ?_
      subst same
      rw [putDir, wp_modify]
      refine wp_editBlock stops (wp_editBlock stops ?_)
      simp only [dcache_setBlocks, setBlocks_setBlocks, blocks_setBlocks, List.modify_modify_eq]
      exact allocated_tail inv dir keeps member tail aligned room
    · refine wp_editBlock stops (wp_editBlock stops ?_)
      rw [setBlocks_setBlocks, blocks_setBlocks, List.modify_modify_eq]
      exact allocated_last inv dir keeps tail aligned inside full

theorem callbackDirentAppend_spec {b : Block} (inv : Rest D M v) (dir : d ∈ D) (stops : Stops E) :
    wp (callbackDirentAppend d name b) (fun p w => Allocated D M v w d p name) E v := by
  rw [callbackDirentAppend, wp_bind]
  refine wp_getInode stops fun _ => ?_
  rw [wp_ite]
  refine ⟨fun room => ?_, fun full => ?_⟩
  · rw [wp_bind, dcacheAddFree, wp_bind]
    refine wp_findDir (fun _ => stops _ _ (by decide)) fun m member same => ?_
    subst same
    rw [putDir, wp_modify, wp_bind, setInode, wp_modify, wp_pure]
    exact allocated_append_tail inv dir member room
  · rw [wp_ite]
    refine ⟨fun _ => wp_throw.mpr (stops _ _ (by decide)), fun fits => ?_⟩
    rw [wp_bind, setInode, wp_modify, wp_pure]
    refine allocated_append inv dir ?_ full
    unfold direntLen direntAlign blockSize at *
    omega

theorem allocDirent_spec {fresh : Option Block} (inv : Rest D M v) (dir : d ∈ D) (stops : Stops E) :
    wp (allocDirent d name fresh) (fun p w => Allocated D M v w d p name) E v := by
  unfold allocDirent
  rw [wp_bind]
  refine wp_dcacheTakeFree inv stops ?_ fun p len c free _ taken keeps => ?_
  · cases fresh with
    | none => exact wp_throw.mpr (stops _ _ (by decide))
    | some b => exact callbackDirentAppend_spec inv dir stops
  · rw [insert_empty_eq] at taken
    dsimp only
    rw [wp_bind]
    refine wp_mono (callbackDirentPlug_spec taken dir keeps free stops) (fun _ w done => ?_) (fun _ _ => id)
    exact wp_pure.mpr done

end Allocation

end Bpfs.Dir
