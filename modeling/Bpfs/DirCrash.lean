import Bpfs.DirStores

/-! Crashes while a file is created: what the reader finds after any of the stores. -/

namespace Bpfs.Dir
open Lib Dcache

/-- A reader of the directory finds exactly these names and inode numbers. -/
def Reads (B : List Block) (S : Set (List UInt8 × Nat)) : Prop := ∃ l, readDir B [] = .ok 0 l ∧ { x | x ∈ l } = S

/-- The store may change block number `i` of the directory, and no other block of it. -/
def Store.Within (d i : Nat) : Store → Prop
  | .data d' i' _ => d' = d ∧ i' = i
  | .extend .. => False
  | .inode ino _ => ino ≠ d
  | .nlinks .. => True

def Store.write : Store → Option Write
  | .data _ _ w => some w
  | _ => none

/-- There is room for the name at `p`: in a record out of use, or at the end of a block. -/
def Vacant (B : List Block) (p : Nat) (name : Name) : Prop :=
  (∃ r, At B p r ∧ r.ino = inoInvalid ∧ direntLen name.len ≤ r.len) ∨
    (TailAt B p ∧ p % blockSize % direntAlign = 0 ∧ p % blockSize + direntLen name.len ≤ blockSize)

section Blocks

variable {B B' : List Block} {S : Set (List UInt8 × Nat)} {p i d : Nat} {r : Rec} {name : Name}

theorem Readable.reads (readable : Readable B) : Reads B (entries B) := readDir_spec readable

theorem Reads.unique {S' : Set (List UInt8 × Nat)} (one : Reads B S) (two : Reads B S') : S = S' := by
  obtain ⟨l, run, rfl⟩ := one
  obtain ⟨l', run', rfl⟩ := two
  rw [run] at run'
  cases run'
  rfl

theorem Tiled.readable (tiled : Tiled B) : Readable B := fun _ _ record => sound_of_fits (record.fits tiled)

theorem Placed.readable (placed : Placed B B' p r) (tiled : Tiled B) (sound : Sound (p % blockSize) r) : Readable B' := by
  intro q s record
  rcases (placed.record q s).mp record with ⟨rfl, rfl⟩ | ⟨-, old⟩
  · exact sound
  · exact tiled.readable q s old

/-- A record in use adds its entry. -/
theorem Placed.entries (placed : Placed B B' p r) (vacant : ∀ s, ¬Live B p s) :
    entries B' = { x | r.ino ≠ inoInvalid ∧ x = (r.name, r.ino) } ∪ entries B := by
  ext x
  constructor
  · rintro ⟨q, s, ⟨record, live⟩, rfl⟩
    rcases (placed.record q s).mp record with ⟨rfl, rfl⟩ | ⟨-, old⟩
    · exact Or.inl ⟨live, rfl⟩
    · exact Or.inr ⟨q, s, ⟨old, live⟩, rfl⟩
  · rintro (⟨live, rfl⟩ | ⟨q, s, there, rfl⟩)
    · exact ⟨p, r, ⟨placed.at, live⟩, rfl⟩
    · exact ⟨q, s, (placed.live fun here => vacant s (here ▸ there)).mpr there, rfl⟩

/-- A record out of use adds none. -/
theorem Placed.entries_dead (placed : Placed B B' p r) (vacant : ∀ s, ¬Live B p s) (dead : r.ino = inoInvalid) :
    Dir.entries B' = Dir.entries B := by
  rw [placed.entries vacant]
  refine Set.ext fun x => ⟨fun either => either.elim (fun new => absurd dead new.1) id, Or.inr⟩

/-- An edit that leaves the records of a block leaves those of the directory. -/
theorem at_modify {f : Block → Block} (same : ∀ b, B[i]? = some b → (f b).recs = b.recs) : At (B.modify i f) p r ↔ At B p r := by
  unfold At
  by_cases block : p / blockSize = i
  · rw [block, List.getElem?_modify_eq]
    cases here : B[i]? with
    | none => simp
    | some b => simp [same b here]
  · rw [List.getElem?_modify_ne f B fun eq => block eq.symm]

theorem Vacant.not_live (vacant : Vacant B p name) : ¬Live B p r := by
  rintro ⟨record, live⟩
  rcases vacant with ⟨s, dead, zero, -⟩ | ⟨tail, -⟩
  · exact live (record.unique dead ▸ zero)
  · exact record.not_tail tail

theorem direntLen_aligned (n : Nat) : direntLen n % direntAlign = 0 := by
  unfold direntLen direntAlign
  omega

/-- While a record is made from free space the entries stay as they are. -/
theorem Vacant.quiet {b : Block} {l : List Write} {kind : UInt8} (vacant : Vacant B p name) (tiled : Tiled B)
    (here : B[p / blockSize]? = some b)
    (part : l <+: plugWrites b (p % blockSize) name ++ [⟨p % blockSize + 10, 1, fun _ => kind⟩]) :
    Reads (B.modify (p / blockSize) fun b => writes b l) (entries B) := by
  have unused : ∀ s, ¬Live B p s := fun s => vacant.not_live
  have whole : Block.Tiled b := tiled b (List.mem_of_getElem? here)
  rcases vacant with ⟨r, record, dead, room⟩ | ⟨tail, aligned, inside⟩
  · have fits := record.fits tiled
    have length := record.recLen here
    have some := record.nonzero
    obtain ⟨b', there, member⟩ := record
    obtain rfl := Option.some.inj (here.symm.trans there)
    rw [plugWrites, if_neg (by omega)] at part
    obtain ⟨s, placed, zero, long⟩ := placed_dead whole member dead room part
    have whole := placed_modify (f := fun b => writes b l) here placed
    rw [← whole.entries_dead unused zero]
    exact (whole.readable tiled ⟨fits.start, long ▸ fits.aligned, long ▸ fits.inside, fun live => absurd zero live⟩).reads
  · have zero := tail.recLen here
    obtain ⟨b', there, ends, -⟩ := tail
    obtain rfl := Option.some.inj (here.symm.trans there)
    rcases placed_tail whole ends zero inside part with ⟨same, -⟩ | ⟨s, placed, dead, long⟩
    · have still : ∀ q s, At (B.modify (p / blockSize) fun b => writes b l) q s ↔ At B q s := fun q s =>
        at_modify fun c found => by
          obtain rfl := Option.some.inj (here.symm.trans found)
          exact same
      have readable : Readable (B.modify (p / blockSize) fun b => writes b l) := fun q s record =>
        tiled.readable q s ((still q s).mp record)
      have equal : entries (B.modify (p / blockSize) fun b => writes b l) = entries B := by
        unfold entries Live
        simp only [still]
      rw [← equal]
      exact readable.reads
    · have whole := placed_modify (f := fun b => writes b l) here placed
      rw [← whole.entries_dead unused dead]
      refine (whole.readable tiled ⟨aligned, ?_, long ▸ inside, fun live => absurd dead live⟩).reads
      rw [long]
      exact direntLen_aligned _

end Blocks

section Prefixes

variable {inodes : Nat → Inode} {B : List Block} {l : List Store} {d i : Nat}

theorem after_append {m : List Store} : after inodes (l ++ m) = after (after inodes l) m := List.foldl_append ..

/-- What stores within one block leave of the directory. -/
theorem after_blocks (inodes : Nat → Inode) (within : ∀ s ∈ l, s.Within d i) :
    (after inodes l d).blocks = (inodes d).blocks.modify i fun b => writes b (l.filterMap Store.write) := by
  induction l generalizing inodes with
  | nil => exact (List.modify_id i (inodes d).blocks).symm
  | cons s l ih =>
    have here := within s (List.mem_cons_self ..)
    refine (ih (s.apply inodes) fun s' member => within s' (List.mem_cons_of_mem _ member)).trans ?_
    cases s with
    | data d' i' w =>
      obtain ⟨rfl, rfl⟩ := here
      rw [Store.apply, Function.update_self]
      dsimp only
      rw [List.modify_modify_eq]
      rfl
    | extend d' b => exact here.elim
    | inode ino x =>
      rw [Store.apply, Function.update_of_ne (Ne.symm here), List.filterMap_cons_none rfl]
    | nlinks d' k =>
      rw [Store.apply, List.filterMap_cons_none rfl]
      by_cases same : d = d'
      · rw [same, Function.update_self]
      · rw [Function.update_of_ne same]

variable {v : Volume} {name : Name} {kind : UInt8} {ino p : Nat} {fresh : Block} {steps : List Inode} {x : Inode}

theorem fillStores_within {s : Store} (other : ino ≠ d) (member : s ∈ fillStores v d p kind ino steps x) :
    s.Within d (p / blockSize) := by
  rcases List.mem_append.mp member with inside | last
  · rcases List.mem_append.mp inside with first | second
    · obtain ⟨y, -, rfl⟩ := List.mem_map.mp first
      exact other
    · rw [List.mem_singleton.mp second]
      exact ⟨rfl, rfl⟩
  · split at last
    · rw [List.mem_singleton.mp last]
      trivial
    · cases last

theorem fillStores_writes : (fillStores v d p kind ino steps x).filterMap Store.write =
    [⟨p % blockSize + 10, 1, fun _ => kind⟩] := by
  have none : ((steps ++ [x]).map (Store.inode ino)).filterMap Store.write = [] := by
    rw [List.filterMap_map]
    exact List.filterMap_eq_nil_iff.mpr fun _ _ => rfl
  rw [fillStores, List.filterMap_append, List.filterMap_append, none]
  split <;> rfl

/-- A crash before the inode number is stored, when the record is made from free space. -/
theorem plug_quiet (vacant : Vacant (v.inodes d).blocks p name) (tiled : Tiled (v.inodes d).blocks) (other : ino ≠ d)
    (part : l <+: allocStores (v.inodes d).blocks d name fresh (some p) ++ fillStores v d p kind ino steps x) :
    Reads (after v.inodes l d).blocks (entries (v.inodes d).blocks) := by
  obtain ⟨b, here⟩ : ∃ b, (v.inodes d).blocks[p / blockSize]? = some b := by
    rcases vacant with ⟨r, ⟨b, here, -⟩, -⟩ | ⟨⟨b, here, -⟩, -⟩ <;> exact ⟨b, here⟩
  have block : (v.inodes d).blocks.getD (p / blockSize) fresh = b := by
    rw [List.getD_eq_getElem?_getD, here]
    rfl
  rw [allocStores, block] at part
  have within : ∀ s ∈ l, s.Within d (p / blockSize) := fun s member => by
    rcases List.mem_append.mp (part.subset member) with first | second
    · obtain ⟨w, -, rfl⟩ := List.mem_map.mp first
      exact ⟨rfl, rfl⟩
    · exact fillStores_within other second
  have stored := part.filterMap Store.write
  rw [List.filterMap_append, fillStores_writes, List.filterMap_map,
    show (Store.write ∘ Store.data d (p / blockSize)) = some from rfl, List.filterMap_some] at stored
  rw [after_blocks _ within]
  exact vacant.quiet tiled here stored

/-- The first word of the block becomes the inode number of the record. -/
theorem placed_appended (B : List Block) (fresh : Block) (inside : direntLen name.len ≤ blockSize) :
    ∃ r, Placed B (B ++ [appended name fresh]) (B.length * blockSize) r ∧ Block.Fits 0 r ∧ r.name = name.bytes ∧
      r.nameLen = UInt8.ofNat name.len ∧ r.ino = fresh.ino 0 := by
  have long := direntLen_pos name.len
  rw [appended]
  split
  · refine ⟨_, (placed_fresh inside fun _ => Block.recLen_setRecLen (by decide)).1,
      Block.fits_labelled rfl ((Nat.zero_add _).trans_le inside), rfl, rfl, ?_⟩
    exact Block.ino_congr fun k _ near => Block.write_outside (by omega)
  · rename_i full
    exact ⟨_, (placed_fresh inside fun room => absurd room full).1,
      Block.fits_labelled rfl ((Nat.zero_add _).trans_le inside), rfl, rfl, rfl⟩

/-- A crash before the inode number is stored, when a block has been added. -/
theorem append_quiet (fresh : Block) (tiled : Tiled (v.inodes d).blocks) (inside : direntLen name.len ≤ blockSize) (other : ino ≠ d)
    (part : l <+: fillStores v d ((v.inodes d).blocks.length * blockSize) kind ino steps x) :
    Reads (after v.inodes (.extend d (appended name fresh) :: l) d).blocks
      ({ y | fresh.ino 0 ≠ inoInvalid ∧ y = (name.bytes, fresh.ino 0) } ∪ entries (v.inodes d).blocks) := by
  obtain ⟨r, placed, fits, title, -, number⟩ := placed_appended (v.inodes d).blocks fresh inside
  have start : (v.inodes d).blocks.length * blockSize % blockSize = 0 := Nat.mul_mod_left ..
  rw [← start] at fits
  have vacant : ∀ s, ¬Live (v.inodes d).blocks ((v.inodes d).blocks.length * blockSize) s := by
    rintro s ⟨⟨b, here, -⟩, -⟩
    have := (List.getElem?_eq_some_iff.mp here).1
    rw [Nat.mul_div_cancel _ (by decide)] at this
    omega
  have grown : (Store.apply v.inodes (.extend d (appended name fresh)) d).blocks =
      (v.inodes d).blocks ++ [appended name fresh] := by
    rw [Store.apply, Function.update_self]
  have within : ∀ s ∈ l, s.Within d ((v.inodes d).blocks.length * blockSize / blockSize) := fun s member =>
    fillStores_within other (part.subset member)
  rw [show after v.inodes (.extend d (appended name fresh) :: l) = after (Store.apply v.inodes _) l from rfl,
    after_blocks _ within, grown]
  have stored := part.filterMap Store.write
  rw [fillStores_writes] at stored
  have done : ∃ kind', Placed (v.inodes d).blocks (((v.inodes d).blocks ++ [appended name fresh]).modify
      ((v.inodes d).blocks.length * blockSize / blockSize) fun b => writes b (l.filterMap Store.write))
      ((v.inodes d).blocks.length * blockSize) { r with type := kind' } := by
    rcases List.prefix_cons_iff.mp stored with empty | ⟨l', more, rest⟩
    · refine ⟨r.type, ?_⟩
      rw [empty, show (fun b => writes b []) = id from rfl, List.modify_id]
      exact placed
    · rw [List.prefix_nil.mp rest] at more
      rw [more]
      exact ⟨kind, placed.trans fits (placed.at.setType (placed.tiled tiled fits))⟩
  obtain ⟨kind', done⟩ := done
  have found := done.entries vacant
  dsimp only at found
  rw [title, number] at found
  rw [← found]
  exact (done.readable tiled (sound_of_fits { fits with })).reads

end Prefixes

/-! ### The stores are those of the run -/

attribute [local irreducible] wp

/-- The first free record in the cache that is long enough. -/
def firstFree (c : List MDirectory) (d least : Nat) : Option Nat :=
  (find c d).bind fun m => (m.free.find? fun f => least % 65536 ≤ f.2).map Prod.fst

/-- What `alloc_dirent` needs: room where the free record is, or a block. -/
def Ready (B : List Block) (name : Name) (fresh : Option Block) : Option Nat → Prop
  | some p => Vacant B p name
  | none => fresh ≠ none ∧ direntLen name.len ≤ blockSize

section Run

variable {D : Set Nat} {M : Entries} {u v w : Volume} {d ino p i : Nat} {name : Name} {c : List MDirectory}
  {E : DirErr → Volume → Prop}

theorem wp_dcacheTakeFree_first (d least : Nat) :
    wp (dcacheTakeFree d least) (fun taken _ => taken = firstFree v.dcache d least)
      (fun _ _ => firstFree v.dcache d least = none) v := by
  rw [dcacheTakeFree, wp_bind, findDir, wp_bind, wp_get, firstFree]
  cases find v.dcache d with
  | none => exact wp_throw.mpr rfl
  | some m =>
    dsimp only
    rw [wp_pure, Option.bind_some]
    cases m.free.find? fun f => least % 65536 ≤ f.2 with
    | none => exact wp_pure.mpr rfl
    | some f =>
      dsimp only
      rw [wp_bind, putDir, wp_modify, wp_pure]
      rfl

theorem takenBy_eq {found : Bool} (run : findDirent d name v = .ok found u) :
    takenBy v d name = firstFree u.dcache d (direntLen name.len) := by
  have result := wp_dcacheTakeFree_first (v := u) d (direntLen name.len)
  have onward : (findDirent d name >>= fun _ => dcacheTakeFree d (direntLen name.len)) v =
      dcacheTakeFree d (direntLen name.len) u := by
    change EStateM.bind _ _ v = _
    unfold EStateM.bind
    rw [run]
  unfold takenBy
  rw [onward]
  cases taking : dcacheTakeFree d (direntLen name.len) u with
  | ok taken u' => exact (wp_ok taking).mp result
  | error e u' => exact ((wp_error taking).mp result).symm

theorem after_data (inodes : Nat → Inode) (l : List Write) : after inodes (l.map (.data d i)) =
    Function.update inodes d { inodes d with blocks := (inodes d).blocks.modify i fun b => writes b l } := by
  induction l generalizing inodes with
  | nil =>
    rw [show (fun b => writes b []) = id from rfl, List.modify_id]
    exact (Function.update_eq_self d inodes).symm
  | cons w l ih =>
    refine (ih (Store.apply inodes (.data d i w))).trans ?_
    rw [Store.apply, Function.update_self, Function.update_idem]
    dsimp only
    rw [List.modify_modify_eq]
    rfl

theorem after_inode {inodes : Nat → Inode} {x : Inode} (steps : List Inode) :
    after inodes ((steps ++ [x]).map (.inode ino)) = Function.update inodes ino x := by
  induction steps generalizing inodes with
  | nil => rfl
  | cons y steps ih => exact ih.trans (Function.update_idem ..)

/-- A change of a block, as stores. -/
theorem setBlocks_stores {b : Block} {f : Block → Block} {l : List Write} (here : (v.inodes d).blocks[i]? = some b)
    (same : f b = writes b l) :
    (v.setBlocks d ((v.inodes d).blocks.modify i f)).inodes = after v.inodes (l.map (.data d i)) := by
  have equal : (v.inodes d).blocks.modify i f = (v.inodes d).blocks.modify i fun b => writes b l := by
    refine List.ext_getElem? fun j => ?_
    by_cases block : i = j
    · subst block
      rw [List.getElem?_modify_eq, List.getElem?_modify_eq, here]
      exact congrArg some same
    · rw [List.getElem?_modify_ne f _ block, List.getElem?_modify_ne _ _ block]
  rw [after_data, ← equal]
  rfl

theorem callbackDirentPlug_stores {len : Nat} {b : Block} (here : (v.inodes d).blocks[p / blockSize]? = some b)
    (free : Available (v.inodes d).blocks p len) :
    wp (callbackDirentPlug d (p / blockSize) (p % blockSize) name) (fun _ w => Vacant (v.inodes d).blocks p name ∧
      w.inodes = after v.inodes ((plugWrites b (p % blockSize) name).map (.data d (p / blockSize))))
      (fun _ _ => True) { v with dcache := c } := by
  have stops : Stops fun _ _ => True := fun _ _ _ => trivial
  rw [callbackDirentPlug, place_self, wp_bind]
  refine wp_getBlock stops fun b' there => ?_
  obtain rfl := Option.some.inj (here.symm.trans there)
  rw [wp_bind, wp_assert]
  refine ⟨fun aligned => ?_, fun _ => trivial⟩
  rw [wp_bind, wp_assert]
  refine ⟨fun inside => ?_, fun _ => trivial⟩
  rw [wp_bind, wp_assert]
  refine ⟨fun enough => ?_, fun _ => trivial⟩
  rw [wp_bind, wp_assert]
  refine ⟨fun _ => ?_, fun _ => trivial⟩
  rcases free with ⟨r, record, dead, -⟩ | ⟨tail, -⟩
  · have length := record.recLen here
    have some := record.nonzero
    rw [if_neg (by omega), plugWrites, if_neg (by omega)]
    refine wp_editBlock stops ⟨Or.inl ⟨r, record, dead, by omega⟩, ?_⟩
    exact setBlocks_stores here writes_name.symm
  · have zero := tail.recLen here
    have vacant : Vacant (v.inodes d).blocks p name := Or.inr ⟨tail, aligned, inside⟩
    rw [if_pos zero, plugTail, place_self, wp_bind, wp_ite, plugWrites, if_pos zero, nextWrites]
    refine ⟨fun room => ?_, fun full => ?_⟩
    · rw [if_pos room, wp_bind]
      refine wp_editBlock stops ?_
      rw [wp_bind, dcacheAddFree, wp_bind]
      refine wp_findDir (fun _ => trivial) fun m member same => ?_
      rw [putDir, wp_modify]
      refine wp_editBlock stops (wp_editBlock stops ⟨vacant, ?_⟩)
      simp only [dcache_setBlocks, setBlocks_setBlocks, blocks_setBlocks, List.modify_modify_eq]
      refine setBlocks_stores here ?_
      rw [writes_append]
      exact writes_name.symm
    · rw [if_neg full]
      refine wp_editBlock stops (wp_editBlock stops ⟨vacant, ?_⟩)
      rw [setBlocks_setBlocks, blocks_setBlocks, List.modify_modify_eq]
      refine setBlocks_stores here ?_
      rw [writes_append]
      exact writes_name.symm

theorem callbackDirentAppend_stores {b : Block} (sameInodes : u.inodes = v.inodes) :
    wp (callbackDirentAppend d name b) (fun p w => p = (v.inodes d).blocks.length * blockSize ∧
      direntLen name.len ≤ blockSize ∧ w.inodes = after v.inodes [.extend d (appended name b)]) (fun _ _ => True) u := by
  have stops : Stops fun _ _ => True := fun _ _ _ => trivial
  rw [callbackDirentAppend, wp_bind]
  refine wp_getInode stops fun _ => ?_
  rw [wp_ite, ← sameInodes]
  refine ⟨fun room => ?_, fun full => ?_⟩
  · rw [wp_bind, dcacheAddFree, wp_bind]
    refine wp_findDir (fun _ => trivial) fun m member same => ?_
    rw [putDir, wp_modify, wp_bind, setInode, wp_modify, wp_pure, appended, if_pos room]
    exact ⟨rfl, by omega, rfl⟩
  · rw [wp_ite]
    refine ⟨fun _ => wp_throw.mpr trivial, fun fits => ?_⟩
    rw [wp_bind, setInode, wp_modify, wp_pure, appended, if_neg full]
    refine ⟨rfl, ?_, rfl⟩
    unfold direntLen direntAlign blockSize at *
    omega

theorem allocDirent_stores {fresh : Option Block} (inv : Rest D M u) :
    wp (allocDirent d name fresh) (fun p w => ∃ taken, taken = firstFree u.dcache d (direntLen name.len) ∧
      Ready (u.inodes d).blocks name fresh taken ∧ p = placeOf (u.inodes d).blocks taken ∧
      w.inodes = after u.inodes (allocStores (u.inodes d).blocks d name (fresh.getD fun _ => 0) taken)) (fun _ _ => True) u := by
  have stops : Stops fun _ _ => True := fun _ _ _ => trivial
  unfold allocDirent
  rw [wp_bind]
  have take : wp (dcacheTakeFree d (direntLen name.len)) (fun taken w => w.inodes = u.inodes ∧
      ∀ p ∈ taken, ∃ len, Available (u.inodes d).blocks p len) (fun _ _ => True) u := by
    refine wp_dcacheTakeFree inv stops ⟨rfl, nofun⟩ fun p len c free _ _ _ => ⟨rfl, fun q same => ?_⟩
    obtain rfl := Option.some.inj same
    exact ⟨len, free⟩
  refine wp_mono (wp_and (wp_dcacheTakeFree_first d _) take) ?_ (fun _ _ _ => trivial)
  rintro taken u' ⟨first, same, free⟩
  cases taken with
  | none =>
    cases fresh with
    | none => exact wp_throw.mpr trivial
    | some b =>
      refine wp_mono (callbackDirentAppend_stores same) ?_ (fun _ _ => id)
      rintro p w ⟨here, inside, stored⟩
      exact ⟨none, first, ⟨nofun, inside⟩, here, stored⟩
  | some p =>
    obtain ⟨len, free⟩ := free p rfl
    obtain ⟨b, here⟩ : ∃ b, (u.inodes d).blocks[p / blockSize]? = some b :=
      ⟨_, List.getElem?_eq_getElem free.inside⟩
    have block : (u.inodes d).blocks.getD (p / blockSize) (fresh.getD fun _ => 0) = b := by
      rw [List.getD_eq_getElem?_getD, here]
      rfl
    dsimp only
    rw [wp_bind]
    rw [← same] at here free
    refine wp_mono (callbackDirentPlug_stores (v := u') (c := u'.dcache) here free) ?_ (fun _ _ => id)
    rintro - w ⟨vacant, stored⟩
    rw [same] at vacant stored
    refine wp_pure.mpr ⟨some p, first, vacant, rfl, ?_⟩
    rw [allocStores, block]
    exact stored

theorem wp_addDirent_stores {off : Nat} {dirs : Bool} :
    wp (addDirent d off ino dirs) (fun _ w => w.inodes = after u.inodes
      ((if dirs then [.nlinks d ((u.inodes d).nlinks + 1)] else []) ++
        [.data d (off / blockSize) ⟨off % blockSize, 8, leByte ino⟩])) (fun _ _ => True) u := by
  have stops : Stops fun _ _ => True := fun _ _ _ => trivial
  have store : ∀ u, wp (setDirentIno d off ino) (fun _ w => w.inodes = after u.inodes
      [.data d (off / blockSize) ⟨off % blockSize, 8, leByte ino⟩]) (fun _ _ => True) u := fun u => by
    rw [setDirentIno, wp_bind, wp_assert]
    exact ⟨fun _ => wp_editBlock stops rfl, fun _ => trivial⟩
  rw [addDirent, wp_bind]
  refine wp_getInode stops fun _ => ?_
  cases dirs with
  | false => exact store u
  | true =>
    rw [if_pos rfl, if_pos rfl, wp_ite]
    refine ⟨fun _ => wp_throw.mpr trivial, fun _ => ?_⟩
    rw [wp_bind, wp_assert]
    refine ⟨fun _ => ?_, fun _ => trivial⟩
    rw [wp_bind, setInode, wp_modify]
    exact wp_mono (store _) (fun _ w done => done) (fun _ _ => id)

theorem wp_cacheDirent_inodes {off : Nat} :
    wp (cacheDirent d off name) (fun _ w => w.inodes = u.inodes) (fun _ _ => True) u := by
  have stops : Stops fun _ _ => True := fun _ _ _ => trivial
  have read : wp (getDirent d off) (fun _ w => w = u) (fun _ _ => True) u := by
    rw [getDirent, wp_bind]
    refine wp_getInode stops fun _ => ?_
    rw [wp_bind, wp_assert]
    refine ⟨fun _ => ?_, fun _ => trivial⟩
    rw [wp_bind, wp_assert]
    refine ⟨fun _ => ?_, fun _ => trivial⟩
    rw [wp_bind]
    refine wp_getBlock stops fun b _ => ?_
    rw [wp_bind, wp_assert]
    exact ⟨fun _ => wp_pure.mpr rfl, fun _ => trivial⟩
  rw [cacheDirent, wp_bind]
  refine wp_mono read ?_ (fun _ _ => id)
  rintro r - rfl
  rw [wp_bind, mdirentInit, wp_bind]
  refine wp_getInode stops fun _ => ?_
  rw [wp_pure, dcacheAddDirent, wp_bind]
  refine wp_findDir (fun _ => trivial) fun m _ _ => ?_
  rw [wp_bind, wp_assert, touchDir, wp_modify]
  exact ⟨fun _ => rfl, fun _ => trivial⟩

theorem nlinks_allocStores {inodes : Nat → Inode} {B : List Block} {b : Block} {taken : Option Nat} :
    (after inodes (allocStores B d name b taken) d).nlinks = (inodes d).nlinks := by
  cases taken with
  | none => rw [allocStores, after, List.foldl_cons, List.foldl_nil, Store.apply, Function.update_self]
  | some p => rw [allocStores, after_data, Function.update_self]

/-- The stores that a run of `create_file` makes; `steps` is what the new inode has while it is written. -/
def storesOf (v w : Volume) (d : Nat) (name : Name) (mode ino : Nat) (fresh : Option Block) (steps : List Inode) :
    List Store :=
  createStores v d name ((f2bFiletype mode).getD 0) ino (takenBy v d name) (fresh.getD fun _ => 0) steps (w.inodes ino)

theorem createFile_stores {mode : Nat} {fresh data : Option Block} (rest : Rest v.dirs M v) (dir : d ∈ v.dirs)
    (run : createFile d name mode ino fresh data v = .ok ⟨⟩ w) :
    ino ≠ d ∧ Ready (v.inodes d).blocks name fresh (takenBy v d name) ∧
      ∀ steps, w.inodes = after v.inodes (storesOf v w d name mode ino fresh steps) := by
  have stops : Stops fun _ _ => True := fun _ _ _ => trivial
  suffices all : wp (createFile d name mode ino fresh data) (fun _ w => ino ≠ d ∧
      Ready (v.inodes d).blocks name fresh (takenBy v d name) ∧
      ∀ steps, w.inodes = after v.inodes (storesOf v w d name mode ino fresh steps)) (fun _ _ => True) v from
    (wp_ok run).mp all
  rw [createFile, wp_ite]
  refine ⟨fun _ => wp_throw.mpr trivial, fun _ => ?_⟩
  rw [wp_bind]
  refine wp_getInode stops fun _ => ?_
  rw [wp_bind, wp_assert]
  refine ⟨fun _ => ?_, fun _ => trivial⟩
  rw [wp_bind, wp_assert]
  refine ⟨fun _ => ?_, fun _ => trivial⟩
  have lookup : wp (findDirent d name) _ _ v := findDirent_spec rest dir
  obtain ⟨found, -, look, c, rfl, rest, -⟩ := ok_of_wp lookup
  have taken := takenBy_eq look
  rw [wp_bind, wp_ok look, wp_ite]
  refine ⟨fun _ => wp_throw.mpr trivial, fun _ => ?_⟩
  rw [wp_bind]
  refine wp_allocInode stops fun nonzero small unused => ?_
  have other : ino ≠ d := fun same => unused (same ▸ dir.1)
  rw [wp_bind]
  refine wp_mono (allocDirent_stores (rest.frame (fun _ _ => rfl) rfl (le_max_left _ _) (max_lt rest.small small)))
    ?_ (fun _ _ => id)
  rintro p w₁ ⟨-, rfl, ready, rfl, stored⟩
  dsimp only at ready stored
  rw [← taken] at ready stored ⊢
  split
  · exact wp_throw.mpr trivial
  · rename_i kind type
    rw [wp_bind]
    refine wp_initInode stops fun x _ _ _ => ?_
    rw [wp_bind, setDirentType]
    refine wp_editBlock stops ?_
    generalize third : Volume.setBlocks _ _ _ = w₃
    have typed : ∀ steps, w₃.inodes = after v.inodes
        (allocStores (v.inodes d).blocks d name (fresh.getD fun _ => 0) (takenBy v d name) ++
          (steps ++ [x]).map (.inode ino) ++ [.data d (placeOf (v.inodes d).blocks (takenBy v d name) / blockSize)
            ⟨placeOf (v.inodes d).blocks (takenBy v d name) % blockSize + 10, 1, fun _ => kind⟩]) := fun steps => by
      rw [after_append, after_append, ← stored, after_inode, ← third]
      rfl
    have count : (w₃.inodes d).nlinks = (v.inodes d).nlinks := by
      rw [← third, stays_setBlocks.nlinks]
      dsimp only
      rw [Function.update_of_ne other.symm, stored, nlinks_allocStores]
    have made : w₃.inodes ino = x := by
      rw [← third, inodes_setBlocks other]
      exact Function.update_self ..
    rw [wp_bind]
    refine wp_mono wp_addDirent_stores (fun _ w₄ added => ?_) (fun _ _ => id)
    refine wp_mono wp_cacheDirent_inodes (fun _ w₅ same => ⟨other, ready, fun steps => ?_⟩) (fun _ _ => id)
    rw [count] at added
    have last : w₅.inodes ino = x := by
      rw [same, added, ← made]
      by_cases dirs : kind = typeDir <;> simp [after, Store.apply, dirs, other]
    rw [storesOf, type, Option.getD_some, last, same, added, typed steps, ← after_append, createStores, fillStores]
    simp only [List.append_assoc, decide_eq_true_eq]

end Run

/-! ### Crashes -/

/-- After any of the stores a reader of the directory finds what it found before, or the new entry besides, and then
nothing is left to be stored to the inode of the entry. -/
def CrashAtomic (v : Volume) (d : Nat) (name : Name) (ino : Nat) (l : List Store) : Prop :=
  ∃ S, Reads (v.inodes d).blocks S ∧ ∀ k, Reads (after v.inodes (l.take k) d).blocks S ∨
    (Reads (after v.inodes (l.take k) d).blocks (insert (name.bytes, ino) S) ∧ ∀ x, Store.inode ino x ∉ l.drop k)

/-- A free record is taken from the cache, or the block that is added begins with a zero inode number. -/
def Guarded (v : Volume) (d : Nat) (name : Name) (fresh : Option Block) : Prop :=
  takenBy v d name ≠ none ∨ ∀ b, fresh = some b → b.ino 0 = inoInvalid

section Crash

variable {M M' : Entries} {v w : Volume} {d ino mode : Nat} {name : Name} {fresh data : Option Block}

theorem Lists.entries {ninodes : Nat} {B : List Block} {e : List UInt8 → Option MDirent} (lists : Lists ninodes B ∅ e) :
    Dir.entries B = { x | ∃ md, e x.1 = some md ∧ md.ino = x.2 } := by
  ext ⟨n, i⟩
  constructor
  · rintro ⟨p, r, live, same⟩
    obtain ⟨rfl, rfl⟩ := Prod.mk.inj same
    exact ⟨mdirent p r, (lists.entry r.name (mdirent p r)).mpr ⟨r, live, id, rfl, rfl⟩, rfl⟩
  · rintro ⟨md, found, rfl⟩
    obtain ⟨r, live, -, title, entry⟩ := (lists.entry n md).mp found
    exact ⟨md.off, r, live, Prod.ext title.symm (congrArg MDirent.ino entry)⟩

theorem Created.dir (created : Created d name.bytes ino v w M M') (dir : d ∈ v.dirs) : d ≠ ino ∧ d ∈ w.dirs := by
  have other : d ≠ ino := fun same => created.fresh (same ▸ dir.1)
  refine ⟨other, ?_, (isDir_congr (created.mode d other)).trans dir.2⟩
  rw [created.used]
  exact Finset.mem_insert_of_mem dir.1

/-- When all is done the new entry is there. -/
theorem Created.entries (created : Created d name.bytes ino v w M M') (before : Rest v.dirs M v) (after : Rest w.dirs M' w)
    (dir : d ∈ v.dirs) : Dir.entries (w.inodes d).blocks = insert (name.bytes, ino) (Dir.entries (v.inodes d).blocks) := by
  obtain ⟨other, dir'⟩ := created.dir dir
  obtain ⟨md, rfl, number, -⟩ := created.entry
  have absent := created.absent
  rw [(before.lists d dir).entries, (after.lists d dir').entries, Entries.set_here, Entries.clear, Function.update_of_ne other]
  ext ⟨n, i⟩
  rw [Set.mem_ofPred_eq, Set.mem_insert_iff, Set.mem_ofPred_eq, Prod.mk.injEq]
  dsimp only
  by_cases same : n = name.bytes
  · subst same
    simp [absent, number, eq_comm]
  · simp [same]

/-- A crash before the inode number of the entry is stored. -/
theorem Guarded.quiet {kind : UInt8} {steps : List Inode} {x : Inode} {l : List Store} (guarded : Guarded v d name fresh)
    (ready : Ready (v.inodes d).blocks name fresh (takenBy v d name)) (tiled : Tiled (v.inodes d).blocks) (other : ino ≠ d)
    (part : l <+: allocStores (v.inodes d).blocks d name (fresh.getD fun _ => 0) (takenBy v d name) ++
      fillStores v d (placeOf (v.inodes d).blocks (takenBy v d name)) kind ino steps x) :
    Reads (after v.inodes l d).blocks (Dir.entries (v.inodes d).blocks) := by
  unfold Guarded at guarded
  cases taken : takenBy v d name with
  | some p =>
    rw [taken] at ready part
    exact plug_quiet ready tiled other part
  | none =>
    rw [taken] at ready part guarded
    cases fresh with
    | none => exact absurd rfl ready.1
    | some b =>
      have zero := guarded.resolve_left (fun some => some rfl) b rfl
      rcases List.prefix_cons_iff.mp part with rfl | ⟨l', rfl, rest⟩
      · exact tiled.readable.reads
      · have reads := append_quiet b tiled ready.2 other rest
        have nothing : { y | b.ino 0 ≠ inoInvalid ∧ y = (name.bytes, b.ino 0) } = ∅ :=
          Set.eq_empty_of_forall_notMem fun _ new => new.1 zero
        rwa [nothing, Set.empty_union] at reads

/-- Without the guard a crash shows the entry with the bytes that were in the block before. -/
theorem guarded_of_atomic (rest : Rest v.dirs M v) (dir : d ∈ v.dirs)
    (run : createFile d name mode ino fresh data v = .ok ⟨⟩ w)
    (atomic : CrashAtomic v d name ino (storesOf v w d name mode ino fresh [])) : Guarded v d name fresh := by
  obtain ⟨other, ready, -⟩ := createFile_stores rest dir run
  have spec : wp (createFile d name mode ino fresh data) _ (fun _ _ => True) v :=
    createFile_spec rest dir fun _ _ _ => trivial
  obtain ⟨M', -, created⟩ := (wp_ok run).mp spec
  have lists := rest.lists d dir
  by_contra bare
  obtain ⟨taken, garbage⟩ := not_or.mp bare
  rw [not_not] at taken
  obtain ⟨b, garbage⟩ := not_forall.mp garbage
  obtain ⟨rfl, some⟩ := Classical.not_imp.mp garbage
  rw [taken] at ready
  have first := append_quiet b lists.tiled ready.2 other
    (List.nil_prefix : [] <+: fillStores v d _ 0 ino [] (w.inodes ino))
  obtain ⟨S, old, all⟩ := atomic
  rw [old.unique lists.tiled.readable.reads, storesOf, taken] at all
  rcases all 1 with same | ⟨-, done⟩
  · have inside : (name.bytes, b.ino 0) ∈ entries (v.inodes d).blocks :=
      Set.ext_iff.mp (same.unique first) _ |>.mpr (Or.inl ⟨some, rfl⟩)
    rw [lists.entries] at inside
    obtain ⟨md, found, -⟩ := inside
    rw [created.absent] at found
    cases found
  · exact done (w.inodes ino) (List.mem_cons_self ..)

end Crash

/-! A directory with a full block, and a free block with other bytes than zeros. -/

def longName (k : Fin 16) : Name where
  bytes := UInt8.ofNat (97 + k) :: List.replicate 254 97
  nonzero := by
    have first : ∀ k : Fin 16, (0 : UInt8) ≠ UInt8.ofNat (97 + k) := by decide
    exact List.not_mem_cons_of_ne_of_not_mem (first k) fun inside => absurd (List.eq_of_mem_replicate inside) (by decide)

/-- The request that creates file number `k`. -/
def createLong (k : Fin 16) (fresh : Option Block) : DirM Unit :=
  createFile inoRoot (longName k) 0x81A4 (k + 2) fresh none

def filled : Nat → Volume
  | 0 => blank
  | k + 1 => outcome (createLong (Fin.ofNat 16 k) none (filled k))

theorem filled_succeeds : ∀ k < 15, inoRoot ∈ (filled k).used ∧ ((filled k).inodes inoRoot).isDir = true ∧
    succeeds (createLong (Fin.ofNat 16 k) none (filled k)) = true := by
  decide +kernel

theorem reaches_filled {k : Nat} (few : k ≤ 15) : Reaches (fun _ _ => True) (filled k) := by
  induction k with
  | zero => exact .start _ _
  | succ k ih =>
    obtain ⟨used, dir, good⟩ := filled_succeeds k few
    have valid : Op.Valid (filled k) (.create inoRoot (longName (Fin.ofNat 16 k)) 0x81A4 (Fin.ofNat 16 k + 2) none none) :=
      ⟨used, dir⟩
    exact (ih (by omega)).step valid trivial (eq_ok good)

end Bpfs.Dir
