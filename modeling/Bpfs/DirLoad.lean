import Bpfs.DirCache

/-! Loading a directory into the cache: it always succeeds, and the cache then has the entries of the blocks. -/

namespace Bpfs.Dir
open Lib Dcache

attribute [local irreducible] wp

/-- The loop of the loader has come to offset `pos`. -/
structure Loaded (B : List Block) (pos : Nat) (m : MDirectory) : Prop where
  entry : ∀ n md, m.dirents n = some md ↔ ∃ r, Live B md.off r ∧ md.off < pos ∧ r.name = n ∧ md = mdirent md.off r
  free : ∀ f ∈ m.free, f.1 < pos ∧ Available B f.1 f.2
  distinct : (m.free.map Prod.fst).Nodup

section Steps

variable {ninodes pos next : Nat} {B : List Block} {e : List UInt8 → Option MDirent} {m : MDirectory} {r : Rec}

theorem Loaded.start {ino : Nat} : Loaded B 0 ⟨ino, fun _ => none, []⟩ where
  entry _ _ := ⟨(nomatch ·), fun ⟨_, _, before, _⟩ => absurd before (Nat.not_lt_zero _)⟩
  free _ member := absurd member List.not_mem_nil
  distinct := List.nodup_nil

/-- No entry is passed over. -/
theorem Loaded.skip (loaded : Loaded B pos m) (order : pos ≤ next) (none : ∀ q s, Live B q s → pos ≤ q → next ≤ q) :
    Loaded B next m where
  entry n md := by
    rw [loaded.entry]
    refine exists_congr fun s => and_congr_right fun live => and_congr_left fun _ => ?_
    refine ⟨fun before => before.trans_le order, fun before => ?_⟩
    by_contra late
    exact absurd (none md.off s live (Nat.le_of_not_lt late)) (Nat.not_le_of_lt before)
  free f member := ⟨(loaded.free f member).1.trans_le order, (loaded.free f member).2⟩
  distinct := loaded.distinct

/-- The records of different names before `pos` do not have the name of the one at `pos`. -/
theorem Loaded.fresh (loaded : Loaded B pos m) (lists : Lists ninodes B ∅ e) (live : Live B pos r) :
    m.dirents r.name = none := by
  by_contra present
  obtain ⟨md, found⟩ := Option.ne_none_iff_exists'.mp present
  obtain ⟨s, there, before, name, entry⟩ := (loaded.entry _ _).mp found
  have one := (lists.entry r.name md).mpr ⟨s, there, id, name, entry⟩
  have two := (lists.entry r.name (mdirent pos r)).mpr ⟨r, live, id, rfl, rfl⟩
  rw [one, Option.some.injEq] at two
  exact absurd (congrArg MDirent.off two) before.ne

theorem Loaded.add (loaded : Loaded B pos m) (lists : Lists ninodes B ∅ e) (live : Live B pos r) (order : pos < next)
    (only : ∀ q s, Live B q s → pos < q → next ≤ q) :
    Loaded B next { m with dirents := Function.update m.dirents r.name (some (mdirent pos r)) } where
  entry n md := by
    dsimp only
    by_cases same : n = r.name
    · subst same
      rw [Function.update_self, Option.some.injEq]
      constructor
      · rintro rfl
        exact ⟨r, live, order, rfl, rfl⟩
      · rintro ⟨s, there, -, name, entry⟩
        have one := (lists.entry r.name md).mpr ⟨s, there, id, name, entry⟩
        have two := (lists.entry r.name (mdirent pos r)).mpr ⟨r, live, id, rfl, rfl⟩
        exact Option.some.inj (two.symm.trans one)
    · rw [Function.update_of_ne same, loaded.entry]
      refine exists_congr fun s => and_congr_right fun there => and_congr_left fun ⟨name, _⟩ => ?_
      refine ⟨fun before => before.trans order, fun before => ?_⟩
      rcases Nat.lt_trichotomy md.off pos with early | here | late
      · exact early
      · exact absurd (name ▸ (here ▸ there).1.unique live.1 ▸ rfl) same
      · exact absurd (only md.off s there late) (Nat.not_le_of_lt before)
  free f member := ⟨(loaded.free f member).1.trans order, (loaded.free f member).2⟩
  distinct := loaded.distinct

theorem Loaded.tail {len : Nat} (loaded : Loaded B pos m) (free : Available B pos len) (order : pos < next)
    (none : ∀ q s, Live B q s → pos ≤ q → next ≤ q) : Loaded B next { m with free := (pos, len) :: m.free } where
  entry := (loaded.skip order.le none).entry
  free f member := by
    rcases List.mem_cons.mp member with rfl | old
    · exact ⟨order, free⟩
    · exact (loaded.skip order.le none).free f old
  distinct := by
    refine List.nodup_cons.mpr ⟨fun inside => ?_, loaded.distinct⟩
    obtain ⟨f, member, same⟩ := List.mem_map.mp inside
    exact (loaded.free f member).1.ne same

end Steps

section Last

variable {rest : List MDirectory} {m m' : MDirectory}

theorem find_last (other : m.ino ∉ rest.map MDirectory.ino) : find (rest ++ [m]) m.ino = some m := by
  have none : rest.find? (fun x => x.ino == m.ino) = none := by
    refine List.find?_eq_none.mpr fun x member same => other ?_
    exact List.mem_map.mpr ⟨x, member, by simpa using same⟩
  rw [find, List.find?_append, none, Option.none_or, List.find?_singleton]
  simp

theorem touch_last (other : m.ino ∉ rest.map MDirectory.ino) (same : m'.ino = m.ino) :
    Dcache.touch (rest ++ [m]) m' = rest ++ [m'] := by
  have kept : rest.filter (fun x => x.ino != m'.ino) = rest := by
    refine List.filter_eq_self.mpr fun x member => ?_
    simpa using fun eq : x.ino = m'.ino => other (List.mem_map.mpr ⟨x, member, eq.trans same⟩)
  rw [Dcache.touch, erase, List.filter_append, kept, List.filter_singleton]
  simp [same]

theorem put_last (other : m.ino ∉ rest.map MDirectory.ino) (same : m'.ino = m.ino) :
    put (rest ++ [m]) m' = rest ++ [m'] := by
  have kept : rest.map (fun x => if x.ino = m'.ino then m' else x) = rest := by
    refine (List.map_congr_left fun x member => if_neg fun eq => other ?_).trans (List.map_id _)
    exact List.mem_map.mpr ⟨x, member, eq.trans same⟩
  rw [put, List.map_append, kept, List.map_singleton, if_pos same.symm]

end Last

section Loops

variable {v : Volume} {d i : Nat} {B : List Block} {rest : List MDirectory} {e : List UInt8 → Option MDirent}

theorem Live.member {b : Block} {q : Nat} {s : Rec} (here : B[i]? = some b) (live : Live B q s) (first : i * blockSize ≤ q)
    (last : q < (i + 1) * blockSize) : (q - i * blockSize, s) ∈ b.recs := by
  obtain ⟨⟨b', there, member⟩, -⟩ := live
  have block : q / blockSize = i ∧ q % blockSize = q - i * blockSize := by
    unfold blockSize at *
    omega
  rw [block.1, here] at there
  rw [block.2, ← Option.some.inj there] at member
  exact member

theorem wp_dcacheAddFree_last {off len : Nat} {m : MDirectory} {Q : Unit → Volume → Prop} {E : DirErr → Volume → Prop}
    (other : m.ino ∉ rest.map MDirectory.ino) :
    wp (dcacheAddFree m.ino off len) Q E { v with dcache := rest ++ [m] } ↔
      Q ⟨⟩ { v with dcache := rest ++ [{ m with free := (off, len) :: m.free }] } := by
  simp only [dcacheAddFree, findDir, putDir, wp_bind, wp_get, wp_pure, wp_modify, find_last other, put_last other]

theorem wp_dcacheAddDirent_last {n : List UInt8} {md : MDirent} {m : MDirectory} {Q : Unit → Volume → Prop}
    {E : DirErr → Volume → Prop} (other : m.ino ∉ rest.map MDirectory.ino) (fresh : m.dirents n = none) :
    wp (dcacheAddDirent m.ino n md) Q E { v with dcache := rest ++ [m] } ↔
      Q ⟨⟩ { v with dcache := rest ++ [{ m with dirents := Function.update m.dirents n (some md) }] } := by
  simp only [dcacheAddDirent, findDir, touchDir, wp_bind, wp_get, wp_pure, wp_modify, wp_assert, fresh, find_last other,
    touch_last other, true_implies, not_true_eq_false, false_implies, and_true]

/-- The entries of the block that are not before `off` are among the records still to come. -/
theorem Live.later {b : Block} {l : List (Nat × Rec)} {q off : Nat} {s : Rec} (here : B[i]? = some b)
    (split : ∀ x ∈ b.recs, x.1 < off ∨ x ∈ l) (live : Live B q s) (first : i * blockSize + off ≤ q)
    (last : q < (i + 1) * blockSize) : (q - i * blockSize, s) ∈ l := by
  refine (split _ (live.member here (by omega) last)).resolve_left fun early => ?_
  dsimp only at early
  omega

/-- The loop over one block, from the record at `off` on. -/
theorem loadLoop_loads {b : Block} {l : List (Nat × Rec)} {off fin n : Nat} {m : MDirectory}
    (lists : Lists v.ninodes B ∅ e) (here : B[i]? = some b) (other : m.ino ∉ rest.map MDirectory.ino)
    (scan : Block.Scan b off l fin) (ends : b.scanEnd = fin) (aligned : off % direntAlign = 0)
    (split : ∀ x ∈ b.recs, x.1 < off ∨ x ∈ l) (part : l ⊆ b.recs) (enough : blockSize ≤ off + n) (inside : off ≤ blockSize)
    (loaded : Loaded B (i * blockSize + off) m) :
    wp (loadLoop m.ino i b n off) (fun _ w => ∃ m', w = { v with dcache := rest ++ [m'] } ∧ m'.ino = m.ino ∧
      Loaded B ((i + 1) * blockSize) m') (fun _ _ => False) { v with dcache := rest ++ [m] } := by
  have after : (i + 1) * blockSize = i * blockSize + blockSize := Nat.succ_mul _ _
  have least : direntMinLen = 16 := rfl
  induction n generalizing off l m with
  | zero =>
    rw [loadLoop, wp_pure]
    have order : i * blockSize + off ≤ (i + 1) * blockSize := by omega
    refine ⟨m, rfl, rfl, ?_⟩
    refine loaded.skip order fun q s live late => ?_
    omega
  | succ n ih =>
    rw [loadLoop]
    cases scan with
    | stop done =>
      have none : ∀ q s, Live B q s → i * blockSize + fin ≤ q → (i + 1) * blockSize ≤ q := by
        intro q s live late
        by_contra early
        exact absurd (live.later here split late (by omega)) List.not_mem_nil
      by_cases room : fin + direntMinLen ≤ blockSize
      · have zero : b.recLen fin = 0 := by
          by_contra some
          exact done ⟨room, some⟩
        rw [if_pos room, wp_bind, wp_assert, if_pos zero, wp_dcacheAddFree_last other]
        refine ⟨fun _ => ⟨_, rfl, rfl, loaded.tail (Or.inr ⟨tailAt_place here ends room, ?_⟩) (by omega) none⟩,
          fun wrong => wrong aligned⟩
        rw [(place (show fin < blockSize by omega)).2]
      · rw [if_neg room, wp_pure]
        exact ⟨m, rfl, rfl, loaded.skip (by omega) none⟩
    | @next _ _ l more scan =>
      have member := part (List.mem_cons_self ..)
      have fits := lists.tiled b (List.mem_of_getElem? here) _ member
      have bound : off + b.recLen off ≤ blockSize := fits.inside
      have some := more.2
      have record : At B (i * blockSize + off) (b.decode off) := at_place here (by omega) member
      have only : ∀ q s, Live B q s → i * blockSize + off < q → i * blockSize + (off + b.recLen off) ≤ q := by
        intro q s live late
        by_contra early
        rcases List.mem_cons.mp (live.later here split late.le (by omega)) with first | later
        · have := congrArg Prod.fst first
          dsimp only at this
          omega
        · have := (scan.bounds.2 _ later).1
          dsimp only at this
          omega
      -- the rest of the loop, with the directory as this record leaves it
      have onward : ∀ m' : MDirectory, m'.ino = m.ino → Loaded B (i * blockSize + (off + b.recLen off)) m' →
          wp (loadLoop m.ino i b n (off + b.recLen off)) (fun _ w => ∃ m', w = { v with dcache := rest ++ [m'] } ∧
            m'.ino = m.ino ∧ Loaded B ((i + 1) * blockSize) m') (fun _ _ => False) { v with dcache := rest ++ [m'] } := by
        intro m' same loaded
        rw [← same] at other ⊢
        refine ih other scan ?_ (fun x inside => ?_) (fun x inside => part (List.mem_cons_of_mem _ inside)) (by omega)
          bound loaded
        · have whole : b.recLen off % direntAlign = 0 := fits.aligned
          unfold direntAlign at *
          omega
        · rcases split x inside with early | here | later
          · exact Or.inl (by omega)
          · exact Or.inl (by dsimp only; omega)
          · exact Or.inr ‹_›
      rw [if_pos more.1, wp_bind, wp_assert, if_neg more.2, wp_bind, wp_assert]
      refine ⟨fun _ => ⟨fun _ => ?_, fun wrong => wrong bound⟩, fun wrong => wrong aligned⟩
      by_cases dead : b.ino off = inoInvalid
      · rw [if_pos dead]
        refine onward m rfl (loaded.skip (by omega) fun q s live late => ?_)
        rcases late.eq_or_lt with rfl | late
        · exact absurd ((congrArg Rec.ino (live.1.unique record)).trans dead) live.2
        · exact only q s live late
      · have live : Live B (i * blockSize + off) (b.decode off) := ⟨record, dead⟩
        have number := lists.number _ _ ((lists.entry _ (mdirent _ _)).mpr ⟨_, live, id, rfl, rfl⟩)
        rw [if_neg dead, wp_bind, wp_assert]
        refine ⟨fun _ => ?_, fun wrong => wrong fits.nameLen⟩
        rw [wp_bind, getInode, wp_bind, wp_get, wp_bind, wp_assert]
        refine ⟨fun _ => ?_, fun wrong => wrong ⟨Nat.one_le_iff_ne_zero.mpr dead, number⟩⟩
        have fresh : m.dirents (b.name off) = none := loaded.fresh lists live
        rw [wp_pure, wp_bind, wp_dcacheAddDirent_last other fresh]
        exact onward _ rfl (loaded.add lists live (by omega) only)

/-- The loop over the blocks, of which those before number `i` are done. -/
theorem loadBlocks_loads {bs : List Block} {m : MDirectory} (lists : Lists v.ninodes B ∅ e) (rest' : B.drop i = bs)
    (other : m.ino ∉ rest.map MDirectory.ino) (loaded : Loaded B (i * blockSize) m) :
    wp (loadBlocks m.ino i bs) (fun _ w => ∃ m', w = { v with dcache := rest ++ [m'] } ∧ m'.ino = m.ino ∧
      Loaded B ((i + bs.length) * blockSize) m') (fun _ _ => False) { v with dcache := rest ++ [m] } := by
  induction bs generalizing i m with
  | nil =>
    rw [loadBlocks, wp_pure]
    exact ⟨m, rfl, rfl, loaded⟩
  | cons b bs ih =>
    have here : B[i]? = some b := by
      rw [← List.head?_drop, rest', List.head?_cons]
    rw [loadBlocks, wp_bind]
    refine wp_mono (loadLoop_loads lists here other b.scan_recs rfl rfl (fun x inside => Or.inr inside)
      (List.Subset.refl _) (Nat.zero_add _).ge (Nat.zero_le _) (by rwa [Nat.add_zero])) ?_ (fun _ _ => id)
    rintro - - ⟨m', rfl, same, further⟩
    have tail : B.drop (i + 1) = bs := by
      rw [← List.tail_drop, rest', List.tail_cons]
    have count : i + (b :: bs).length = i + 1 + bs.length := by
      rw [List.length_cons]
      omega
    rw [← same] at other ⊢
    rw [count]
    exact ih tail other further

end Loops

section Find

variable {D : Set Nat} {M : Entries} {v : Volume} {d : Nat}

/-- A directory loaded to its end has all its entries. -/
theorem Loaded.caches {ninodes : Nat} {B : List Block} {m : MDirectory} {e : List UInt8 → Option MDirent}
    (loaded : Loaded B (B.length * blockSize) m) (lists : Lists ninodes B ∅ e) : Caches m B ∅ e where
  entries := by
    funext n
    refine Option.ext fun md => ?_
    rw [loaded.entry, lists.entry]
    refine exists_congr fun r => and_congr_right fun live => and_congr_left fun _ => ⟨fun _ => id, fun _ => ?_⟩
    obtain ⟨⟨b, here, -⟩, -⟩ := live
    have inside := (List.getElem?_eq_some_iff.mp here).1
    exact (Nat.div_lt_iff_lt_mul (by decide)).mp inside
  free f member := ⟨id, (loaded.free f member).2⟩
  distinct := loaded.distinct

theorem Dcache.Newest.tail {c : List MDirectory} {s : Nat} (newest : Newest c s) (long : 2 ≤ c.length) : Newest c.tail s := by
  obtain ⟨front, m, rfl, same⟩ := newest
  cases front with
  | nil =>
    rw [List.nil_append, List.length_singleton] at long
    omega
  | cons x front => exact ⟨front, m, rfl, same⟩

theorem Dcache.Newest.member {c : List MDirectory} {s : Nat} (newest : Newest c s) : s ∈ c.map MDirectory.ino := by
  obtain ⟨front, m, rfl, same⟩ := newest
  exact List.mem_map.mpr ⟨m, List.mem_append_right _ (List.mem_singleton_self _), same⟩

/-- The invariant between operations: the cache has the entries of the blocks. -/
abbrev Rest (D : Set Nat) (M : Entries) (v : Volume) : Prop := Inv D ∅ M M v

/-- A cache with the directory just loaded at its end. -/
theorem Inv.load {c : List MDirectory} {m : MDirectory} (inv : Rest D M v) (dir : m.ino ∈ D)
    (sub : c.Sublist v.dcache) (other : m.ino ∉ c.map MDirectory.ino)
    (loaded : Loaded (v.inodes m.ino).blocks ((v.inodes m.ino).blocks.length * blockSize) m) :
    Rest D M { v with dcache := c ++ [m] } := by
  refine inv.recache dir (loaded.caches (inv.lists _ dir)) (fun _ _ => rfl) (fun x member => ?_) ?_
  · rcases List.mem_append.mp member with old | new
    · exact Or.inr ⟨sub.subset old, fun same => other (List.mem_map.mpr ⟨x, old, same⟩)⟩
    · exact Or.inl (List.mem_singleton.mp new)
  · rw [List.map_append, List.nodup_append]
    refine ⟨inv.once.sublist (sub.map _), List.nodup_singleton _, fun a first b second => ?_⟩
    rw [List.mem_singleton.mp second]
    exact fun same => other (same ▸ first)

/-- The loaded directory is in the cache, and so is the one used last before. -/
theorem loadDirectory_spec (inv : Rest D M v) (dir : d ∈ D) :
    wp (loadDirectory d) (fun _ w => ∃ c, w = { v with dcache := c } ∧ Rest D M w ∧ d ∈ c.map MDirectory.ino ∧
      ∀ s, Newest v.dcache s → s ∈ c.map MDirectory.ino) (fun _ _ => False) v := by
  rw [loadDirectory, wp_bind, dcacheHasDir, wp_bind, wp_get, wp_pure, wp_ite]
  refine ⟨fun has => ?_, fun missing => ?_⟩
  · obtain ⟨m, found⟩ := Option.isSome_iff_exists.mp has
    rw [wp_pure]
    exact ⟨v.dcache, rfl, inv, List.mem_map.mpr ⟨m, find_some found⟩, fun s newest => newest.member⟩
  · have absent : find v.dcache d = none := by simpa using missing
    rw [wp_bind, dcacheAddDir, wp_bind, dcacheHasDir, wp_bind, wp_get, wp_pure, wp_bind, wp_assert, absent]
    refine ⟨fun _ => ?_, fun wrong => wrong rfl⟩
    rw [wp_modify, wp_bind, getInode, wp_bind, wp_get, wp_bind, wp_assert]
    refine ⟨fun _ => ?_, fun wrong => wrong (inv.range d dir)⟩
    rw [wp_pure]
    generalize front : (if v.dcache.length = nmdirsMax then v.dcache.tail else v.dcache) = c
    have sub : c.Sublist v.dcache := by
      rw [← front]
      split
      · exact List.tail_sublist _
      · exact List.Sublist.refl _
    have kept : ∀ s, Newest v.dcache s → s ∈ c.map MDirectory.ino := by
      intro s newest
      rw [← front]
      split
      · rename_i full
        exact (newest.tail (by rw [full]; decide)).member
      · exact newest.member
    have other : d ∉ c.map MDirectory.ino := fun inside => find_none absent ((sub.map _).subset inside)
    refine wp_mono (loadBlocks_loads (m := ⟨d, fun _ => none, []⟩) (inv.lists d dir) (List.drop_zero ..) other
      (by rw [Nat.zero_mul]; exact Loaded.start)) ?_ (fun _ _ => id)
    rintro - - ⟨m, rfl, rfl, loaded⟩
    rw [Nat.zero_add] at loaded
    refine ⟨c ++ [m], rfl, inv.load dir sub other loaded, ?_, fun s newest => ?_⟩
    · exact Newest.member ⟨c, m, rfl, rfl⟩
    · rw [List.map_append]
      exact List.mem_append_left _ (kept s newest)

theorem findDirent_spec {name : Name} (inv : Rest D M v) (dir : d ∈ D) :
    wp (findDirent d name) (fun found w => ∃ c, w = { v with dcache := c } ∧ Rest D M w ∧ Newest c d ∧
      (∀ s, Newest v.dcache s → s ∈ c.map MDirectory.ino) ∧ found = (M d name.bytes).isSome) (fun _ _ => False) v := by
  rw [findDirent, wp_bind]
  refine wp_mono (loadDirectory_spec inv dir) ?_ (fun _ _ => id)
  rintro - - ⟨c, rfl, inv, cached, kept⟩
  rw [wp_bind]
  refine wp_dcacheGetDirent inv (fun missing => missing cached) fun c' inv keeps newest => ?_
  rw [wp_pure]
  exact ⟨c', rfl, inv, newest, fun s last => keeps (kept s last), rfl⟩

end Find

end Bpfs.Dir
