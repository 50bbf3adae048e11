import Bpfs.DirInvariant

/-! What the operations of the directory entry cache do to the invariant. -/

namespace Bpfs.Dir
open Lib

attribute [local irreducible] wp

namespace Dcache

variable {c : List MDirectory} {m x : MDirectory} {d : Nat}

theorem find_some (found : find c d = some m) : m ∈ c ∧ m.ino = d :=
  ⟨List.mem_of_find?_eq_some found, by simpa using List.find?_some found⟩

theorem find_none (none : find c d = none) : d ∉ c.map MDirectory.ino := by
  intro inside
  obtain ⟨m, member, same⟩ := List.mem_map.mp inside
  exact List.find?_eq_none.mp none m member (by simpa using same)

/-- Every directory in the one is in the other. -/
def Keeps (c c' : List MDirectory) : Prop := c.map MDirectory.ino ⊆ c'.map MDirectory.ino

/-- The directory was used last. -/
def Newest (c : List MDirectory) (d : Nat) : Prop := ∃ rest m, c = rest ++ [m] ∧ m.ino = d

theorem mem_touch (member : x ∈ touch c m) : x = m ∨ x ∈ c ∧ x.ino ≠ m.ino := by
  rcases List.mem_append.mp member with old | new
  · obtain ⟨inside, other⟩ := List.mem_filter.mp old
    exact Or.inr ⟨inside, by simpa using other⟩
  · exact Or.inl (List.mem_singleton.mp new)

theorem once_touch (once : (c.map MDirectory.ino).Nodup) : ((touch c m).map MDirectory.ino).Nodup := by
  rw [touch, List.map_append, List.nodup_append]
  refine ⟨once.sublist (List.filter_sublist.map _), List.nodup_singleton _, fun a first b second => ?_⟩
  obtain ⟨x, member, rfl⟩ := List.mem_map.mp first
  rw [List.mem_singleton.mp second]
  simpa using (List.mem_filter.mp member).2

theorem keeps_touch : Keeps c (touch c m) := by
  intro d inside
  obtain ⟨x, member, rfl⟩ := List.mem_map.mp inside
  by_cases same : x.ino = m.ino
  · exact List.mem_map.mpr ⟨m, List.mem_append_right _ (List.mem_singleton_self _), same.symm⟩
  · exact List.mem_map.mpr ⟨x, List.mem_append_left _ (List.mem_filter.mpr ⟨member, by simpa using same⟩), rfl⟩

theorem newest_touch : Newest (touch c m) m.ino := ⟨_, m, rfl, rfl⟩

theorem inos_put : (put c m).map MDirectory.ino = c.map MDirectory.ino := by
  rw [put, List.map_map]
  refine List.map_congr_left fun x _ => ?_
  simp only [Function.comp_apply]
  split
  · exact Eq.symm ‹_›
  · rfl

theorem keeps_put : Keeps c (put c m) := by
  rw [Keeps, inos_put]
  exact List.Subset.refl _

theorem mem_put (member : x ∈ put c m) : x = m ∨ x ∈ c ∧ x.ino ≠ m.ino := by
  obtain ⟨y, old, rfl⟩ := List.mem_map.mp member
  split
  · exact Or.inl rfl
  · exact Or.inr ⟨old, ‹_›⟩

end Dcache

open Dcache

section Specs

variable {D : Set Nat} {X : Set (Nat × Nat)} {M C : Entries} {v : Volume} {d p len : Nat} {n : List UInt8} {md : MDirent}

theorem wp_assert {c : Prop} [Decidable c] {Q : Unit → Volume → Prop} {E : DirErr → Volume → Prop} :
    wp (assert c) Q E v ↔ (c → Q ⟨⟩ v) ∧ (¬c → E .assertion v) := by
  rw [assert, wp_ite, wp_pure, wp_throw]

/-- Every error other than a use of freed memory is allowed. -/
def Stops (E : DirErr → Volume → Prop) : Prop := ∀ e w, e ≠ .dangling → E e w

theorem wp_findDir {Q : MDirectory → Volume → Prop} {E : DirErr → Volume → Prop}
    (missing : d ∉ v.dcache.map MDirectory.ino → E .assertion v)
    (found : ∀ m ∈ v.dcache, m.ino = d → Q m v) : wp (findDir d) Q E v := by
  rw [findDir, wp_bind, wp_get]
  split
  · exact wp_throw.mpr (missing (find_none ‹_›))
  · rename_i m here
    exact wp_pure.mpr (found m (find_some here).1 (find_some here).2)

variable {Q : Unit → Volume → Prop} {E : DirErr → Volume → Prop}

/-- A cached directory is changed and becomes the newest. -/
theorem Inv.touch {C' : Entries} {m m' : MDirectory} (inv : Inv D X M C v) (member : m ∈ v.dcache) (same : m'.ino = m.ino)
    (free : m'.free = m.free) (entries : m'.dirents = C' m.ino) (agree : ∀ d, d ≠ m.ino → C' d = C d) :
    Inv D X M C' { v with dcache := Dcache.touch v.dcache m' } := by
  obtain ⟨dir, caches⟩ := inv.caches m member
  refine inv.recache (m := m') (same ▸ dir) ⟨same ▸ entries, ?_, ?_⟩ (same ▸ agree) (fun x => mem_touch)
    (once_touch inv.once)
  · rw [free, same]
    exact caches.free
  · rw [free]
    exact caches.distinct

theorem wp_dcacheAddDirent (inv : Inv D X M C v) (stops : Stops E)
    (next : ∀ c, Inv D X M (C.set d n (some md)) { v with dcache := c } → Keeps v.dcache c → Q ⟨⟩ { v with dcache := c }) :
    wp (dcacheAddDirent d n md) Q E v := by
  rw [dcacheAddDirent, wp_bind]
  refine wp_findDir (fun _ => stops _ _ (by decide)) fun m member same => ?_
  subst same
  rw [wp_bind, wp_assert]
  refine ⟨fun _ => ?_, fun _ => stops _ _ (by decide)⟩
  rw [touchDir, wp_modify]
  refine next _ (inv.touch member rfl rfl ?_ fun d other => Entries.set_other other) keeps_touch
  rw [Entries.set_here, (inv.caches m member).2.entries]

theorem wp_dcacheGetDirent {Q : Option MDirent → Volume → Prop} (inv : Inv D X M C v)
    (missing : d ∉ v.dcache.map MDirectory.ino → E .assertion v)
    (next : ∀ c, Inv D X M C { v with dcache := c } → Keeps v.dcache c → Newest c d → Q (C d n) { v with dcache := c }) :
    wp (dcacheGetDirent d n) Q E v := by
  rw [dcacheGetDirent, wp_bind]
  refine wp_findDir missing fun m member same => ?_
  subst same
  have entries := (inv.caches m member).2.entries
  rw [wp_bind, touchDir, wp_modify, wp_pure, entries]
  exact next _ (inv.touch member rfl rfl entries fun _ _ => rfl) keeps_touch newest_touch

theorem wp_dcacheRemDirent (inv : Inv D X M C v) (stops : Stops E)
    (next : d ∈ D → ∀ c, Inv D X M (C.set d n none) { v with dcache := c } → Keeps v.dcache c →
      Q ⟨⟩ { v with dcache := c }) :
    wp (dcacheRemDirent d n) Q E v := by
  rw [dcacheRemDirent, wp_bind]
  refine wp_findDir (fun _ => stops _ _ (by decide)) fun m member same => ?_
  subst same
  rw [wp_bind, touchDir, wp_modify, wp_ite, wp_throw, wp_pure]
  refine ⟨fun _ => stops _ _ (by decide), fun _ => ?_⟩
  refine next (inv.caches m member).1 _ (inv.touch member rfl rfl ?_ fun d other => Entries.set_other other) keeps_touch
  rw [Entries.set_here, (inv.caches m member).2.entries]

/-- A place that is free is entered into the free list. -/
theorem Inv.addFree {m : MDirectory} (inv : Inv D X M C v) (member : m ∈ v.dcache)
    (free : Available (v.inodes m.ino).blocks p len) (new : p ∉ m.free.map Prod.fst) :
    Inv D (X \ {(m.ino, p)}) M C { v with dcache := put v.dcache { m with free := (p, len) :: m.free } } := by
  have retired := inv.retire free
  obtain ⟨dir, caches⟩ := retired.caches m member
  refine retired.recache (m := { m with free := (p, len) :: m.free }) dir ⟨caches.entries, fun f inside => ?_, ?_⟩
    (fun _ _ => rfl) (fun x => mem_put) ?_
  · rcases List.mem_cons.mp inside with rfl | old
    · exact ⟨fun out => out.2 rfl, free⟩
    · exact caches.free f old
  · exact List.nodup_cons.mpr ⟨new, caches.distinct⟩
  · rw [inos_put]
    exact inv.once

theorem wp_dcacheAddFree (inv : Inv D X M C v) (stops : Stops E) (pending : (d, p) ∈ X)
    (free : Available (v.inodes d).blocks p len)
    (next : ∀ c, Inv D (X \ {(d, p)}) M C { v with dcache := c } → Keeps v.dcache c → Q ⟨⟩ { v with dcache := c }) :
    wp (dcacheAddFree d p len) Q E v := by
  rw [dcacheAddFree, wp_bind]
  refine wp_findDir (fun _ => stops _ _ (by decide)) fun m member same => ?_
  subst same
  rw [putDir, wp_modify]
  exact next _ (inv.addFree member free (inv.not_free pending member rfl)) keeps_put

/-- A place that is neither in use nor in the free list can be taken out of account. -/
theorem Inv.reserve (inv : Inv D X M C v) (vacant : ∀ r, ¬Live (v.inodes d).blocks p r)
    (unlisted : ∀ m ∈ v.dcache, m.ino = d → p ∉ m.free.map Prod.fst) : Inv D (insert (d, p) X) M C v where
  small := inv.small
  range := inv.range
  lists d' dir := by
    by_cases same : d' = d
    · subst same
      rw [within_insert]
      refine { inv.lists d' dir with entry := fun n md => ?_ }
      rw [(inv.lists d' dir).entry]
      refine exists_congr fun s => and_congr_right fun there => and_congr_left fun _ => not_congr ?_
      exact ⟨Or.inr, fun out => out.resolve_left fun here => vacant s (here ▸ there)⟩
    · rw [within_insert_other same]
      exact inv.lists d' dir
  caches m member := by
    obtain ⟨dir, caches⟩ := inv.caches m member
    refine ⟨dir, ?_⟩
    by_cases same : m.ino = d
    · subst same
      rw [within_insert]
      refine { caches with free := fun f inside => ⟨?_, (caches.free f inside).2⟩ }
      rintro (here | out)
      · exact unlisted m member rfl (List.mem_map.mpr ⟨f, inside, here⟩)
      · exact (caches.free f inside).1 out
    · rw [within_insert_other same]
      exact caches
  once := inv.once

/-- A free place is taken; it is then out of account. -/
theorem Inv.take {m : MDirectory} {f : Nat × Nat} (inv : Inv D X M C v) (member : m ∈ v.dcache) (inside : f ∈ m.free) :
    Inv D (insert (m.ino, f.1) X) M C { v with dcache := put v.dcache { m with free := m.free.erase f } } := by
  obtain ⟨dir, caches⟩ := inv.caches m member
  have apart : f.1 ∉ (m.free.erase f).map Prod.fst ∧ ((m.free.erase f).map Prod.fst).Nodup := by
    rw [← List.nodup_cons]
    exact ((List.perm_cons_erase inside).map Prod.fst).nodup_iff.mp caches.distinct
  have shorter : Inv D X M C { v with dcache := put v.dcache { m with free := m.free.erase f } } := by
    refine inv.recache (m := { m with free := m.free.erase f }) dir
      ⟨caches.entries, fun g kept => caches.free g (List.mem_of_mem_erase kept), apart.2⟩ (fun _ _ => rfl)
      (fun x => mem_put) ?_
    rw [inos_put]
    exact inv.once
  refine shorter.reserve (fun r => (caches.free f inside).2.not_live) fun x listed same => ?_
  rcases mem_put listed with rfl | ⟨-, other⟩
  · exact apart.1
  · exact absurd same other

theorem wp_dcacheTakeFree {least : Nat} {Q : Option Nat → Volume → Prop} (inv : Inv D X M C v) (stops : Stops E)
    (none : Q none v)
    (some : ∀ p len c, Available (v.inodes d).blocks p len → least % 65536 ≤ len →
      Inv D (insert (d, p) X) M C { v with dcache := c } → Keeps v.dcache c → Q (some p) { v with dcache := c }) :
    wp (dcacheTakeFree d least) Q E v := by
  rw [dcacheTakeFree, wp_bind]
  refine wp_findDir (fun _ => stops _ _ (by decide)) fun m member same => ?_
  subst same
  split
  · exact wp_pure.mpr none
  · rename_i f found
    have inside := List.mem_of_find?_eq_some found
    have long : least % 65536 ≤ f.2 := by simpa using List.find?_some found
    rw [wp_bind, putDir, wp_modify, wp_pure]
    exact some f.1 f.2 _ ((inv.caches m member).2.free f inside).2 long (inv.take member inside)
      keeps_put

theorem wp_deref {Q : MDirent → Volume → Prop} (inv : Inv D X M C v)
    (dangling : C d n = none ∨ d ∉ v.dcache.map MDirectory.ino → E .dangling v)
    (next : ∀ md, C d n = some md → d ∈ v.dcache.map MDirectory.ino → Q md v) : wp (deref d n) Q E v := by
  rw [deref, wp_bind, wp_get]
  cases here : find v.dcache d with
  | none =>
    rw [Option.bind_none]
    exact wp_throw.mpr (dangling (Or.inr (find_none here)))
  | some m =>
    obtain ⟨member, rfl⟩ := find_some here
    rw [Option.bind_some, (inv.caches m member).2.entries]
    cases entry : C m.ino n with
    | none => exact wp_throw.mpr (dangling (Or.inl entry))
    | some md => exact wp_pure.mpr (next md entry (List.mem_map_of_mem member))

end Specs

end Bpfs.Dir
