import Bpfs.DirLayout

/-! What holds between the blocks of the directories and the cache, also in the middle of an operation. The entries `M`
that the blocks have and the entries `C` that the cache has are given apart, and the records at the places `X`, which
an operation is about to enter or has taken out, count as neither entries nor free. -/

namespace Bpfs.Dir
open Lib

/-- The entries of each directory. -/
abbrev Entries := Nat → List UInt8 → Option MDirent

def Entries.set (M : Entries) (d : Nat) (n : List UInt8) (md : Option MDirent) : Entries :=
  Function.update M d (Function.update (M d) n md)

/-- The entry that a record at `p` is. -/
def mdirent (p : Nat) (r : Rec) : MDirent := ⟨p, r.ino, r.len, r.type⟩

/-- The blocks have exactly the entries `e`, apart from the records at `X`. -/
structure Lists (ninodes : Nat) (B : List Block) (X : Set Nat) (e : List UInt8 → Option MDirent) : Prop where
  tiled : Tiled B
  entry : ∀ n md, e n = some md ↔ ∃ r, Live B md.off r ∧ md.off ∉ X ∧ r.name = n ∧ md = mdirent md.off r
  number : ∀ n md, e n = some md → md.ino ≤ ninodes

/-- The cached directory has the entries `e`, and its free records are free in the blocks. -/
structure Caches (m : MDirectory) (B : List Block) (X : Set Nat) (e : List UInt8 → Option MDirent) : Prop where
  entries : m.dirents = e
  free : ∀ f ∈ m.free, f.1 ∉ X ∧ Available B f.1 f.2
  distinct : (m.free.map Prod.fst).Nodup

/-- The places of `X` that are in the directory. -/
def within (X : Set (Nat × Nat)) (d : Nat) : Set Nat := { p | (d, p) ∈ X }

structure Inv (D : Set Nat) (X : Set (Nat × Nat)) (M C : Entries) (v : Volume) : Prop where
  small : v.ninodes < 2 ^ 64
  range : ∀ d ∈ D, 1 ≤ d ∧ d ≤ v.ninodes
  lists : ∀ d ∈ D, Lists v.ninodes (v.inodes d).blocks (within X d) (M d)
  caches : ∀ m ∈ v.dcache, m.ino ∈ D ∧ Caches m (v.inodes m.ino).blocks (within X m.ino) (C m.ino)
  once : (v.dcache.map MDirectory.ino).Nodup

@[simp] theorem Entries.set_here (M : Entries) (d : Nat) (n : List UInt8) (md : Option MDirent) :
    M.set d n md d = Function.update (M d) n md := Function.update_self ..

theorem Entries.set_other {M : Entries} {d d' : Nat} {n : List UInt8} {md : Option MDirent} (other : d' ≠ d) :
    M.set d n md d' = M d' := Function.update_of_ne other ..

theorem Entries.set_same {M : Entries} {d : Nat} {n : List UInt8} {md : Option MDirent} (same : M d n = md) :
    M.set d n md = M := by
  subst same
  rw [Entries.set, Function.update_eq_self, Function.update_eq_self]

section Directory

variable {ninodes p : Nat} {B B' : List Block} {X : Set Nat} {e : List UInt8 → Option MDirent} {m : MDirectory}
  {n : List UInt8} {md : MDirent} {r : Rec}

theorem Available.not_live {len : Nat} (free : Available B p len) : ¬Live B p r := by
  rintro ⟨record, live⟩
  rcases free with ⟨s, dead, zero, -⟩ | ⟨tail, -⟩
  · exact live (record.unique dead ▸ zero)
  · exact record.not_tail tail

/-- An entry is taken out of account. -/
theorem Lists.expose (lists : Lists ninodes B X e) (found : e n = some md) :
    Lists ninodes B (insert md.off X) (Function.update e n none) := by
  obtain ⟨r, live, -, title, -⟩ := (lists.entry n md).mp found
  refine ⟨lists.tiled, fun n' md' => ?_, fun n' md' other => ?_⟩
  · by_cases same : n' = n
    · subst same
      rw [Function.update_self]
      refine ⟨(nomatch ·), ?_⟩
      rintro ⟨s, there, outside, name, entry⟩
      have again := (lists.entry n' md').mpr ⟨s, there, fun inside => outside (Or.inr inside), name, entry⟩
      rw [found] at again
      exact absurd (Or.inl (congrArg MDirent.off (Option.some.inj again)).symm) outside
    · rw [Function.update_of_ne same, lists.entry]
      refine exists_congr fun s => and_congr_right fun there => and_congr_left fun ⟨name, _⟩ => not_congr ?_
      refine ⟨Or.inr, fun inside => inside.resolve_left fun here => same ?_⟩
      rw [← name, ← title, there.1.unique (here ▸ live.1)]
  · by_cases same : n' = n
    · rw [same, Function.update_self] at other
      cases other
    · rw [Function.update_of_ne same] at other
      exact lists.number n' md' other

theorem Caches.expose (caches : Caches m B X e) (live : Live B p r) : Caches m B (insert p X) e := by
  refine ⟨caches.entries, fun f member => ?_, caches.distinct⟩
  obtain ⟨outside, free⟩ := caches.free f member
  refine ⟨?_, free⟩
  rintro (here | inside)
  · exact (here ▸ free).not_live live
  · exact outside inside

/-- The record at a place out of account is changed. -/
theorem Lists.edit (lists : Lists ninodes B X e) (pending : p ∈ X) (placed : Placed B B' p r)
    (fits : Block.Fits (p % blockSize) r) : Lists ninodes B' X e := by
  refine ⟨placed.tiled lists.tiled fits, fun n md => ?_, lists.number⟩
  rw [lists.entry]
  refine exists_congr fun s => ?_
  by_cases here : md.off = p
  · exact ⟨fun entry => absurd (here ▸ pending) entry.2.1, fun entry => absurd (here ▸ pending) entry.2.1⟩
  · rw [placed.live here]

theorem Caches.edit (caches : Caches m B X e) (pending : p ∈ X) (placed : Placed B B' p r) : Caches m B' X e := by
  refine ⟨caches.entries, fun f member => ?_, caches.distinct⟩
  obtain ⟨outside, free⟩ := caches.free f member
  exact ⟨outside, placed.available (fun here => outside (here ▸ pending)) free⟩

/-- The record at a place out of account becomes an entry. -/
theorem Lists.publish (lists : Lists ninodes B X e) (record : At B p r) (live : r.ino ≠ inoInvalid)
    (number : r.ino ≤ ninodes) (fresh : e r.name = none) :
    Lists ninodes B (X \ {p}) (Function.update e r.name (some (mdirent p r))) := by
  refine ⟨lists.tiled, fun n md => ?_, fun n md found => ?_⟩
  · by_cases same : n = r.name
    · subst same
      rw [Function.update_self, Option.some.injEq]
      constructor
      · rintro rfl
        exact ⟨r, ⟨record, live⟩, fun inside => inside.2 rfl, rfl, rfl⟩
      · rintro ⟨s, there, outside, name, entry⟩
        by_cases here : md.off = p
        · rw [entry, here, record.unique (here ▸ there.1)]
        · have old := (lists.entry r.name md).mpr ⟨s, there, fun inside => outside ⟨inside, here⟩, name, entry⟩
          rw [fresh] at old
          cases old
    · rw [Function.update_of_ne same, lists.entry]
      refine exists_congr fun s => and_congr_right fun there => and_congr_left fun ⟨name, _⟩ => not_congr ?_
      refine ⟨fun inside => ⟨inside, fun here => same ?_⟩, And.left⟩
      rw [← name, record.unique (here ▸ there.1)]
  · by_cases same : n = r.name
    · rw [same, Function.update_self, Option.some.injEq] at found
      rw [← found]
      exact number
    · rw [Function.update_of_ne same] at found
      exact lists.number n md found

/-- A place that is free can be counted again. -/
theorem Lists.retire {len : Nat} (lists : Lists ninodes B X e) (free : Available B p len) : Lists ninodes B (X \ {p}) e := by
  refine ⟨lists.tiled, fun n md => ?_, lists.number⟩
  rw [lists.entry]
  refine exists_congr fun s => and_congr_right fun there => and_congr_left fun _ => not_congr ?_
  exact ⟨fun inside => ⟨inside, fun here => (here ▸ free).not_live there⟩, And.left⟩

theorem Caches.smaller {X' : Set Nat} (caches : Caches m B X e) (smaller : X' ⊆ X) : Caches m B X' e :=
  ⟨caches.entries, fun f member => ⟨fun inside => (caches.free f member).1 (smaller inside), (caches.free f member).2⟩,
    caches.distinct⟩

end Directory

section Within

variable {X : Set (Nat × Nat)} {d d' p : Nat}

theorem within_insert : within (insert (d, p) X) d = insert p (within X d) := by
  ext q
  simp [within]

theorem within_insert_other (other : d' ≠ d) : within (insert (d, p) X) d' = within X d' := by
  ext q
  simp [within, other]

theorem within_remove : within (X \ {(d, p)}) d = within X d \ {p} := by
  ext q
  simp [within]

theorem within_remove_other (other : d' ≠ d) : within (X \ {(d, p)}) d' = within X d' := by
  ext q
  simp [within, other]

end Within

section Volume

variable {D : Set Nat} {X : Set (Nat × Nat)} {M C : Entries} {v w : Volume} {d p : Nat} {n : List UInt8} {md : MDirent}
  {r : Rec}

/-- The entry's record, as it is in the blocks. -/
theorem Inv.record (inv : Inv D X M C v) (dir : d ∈ D) (found : M d n = some md) :
    ∃ r, Live (v.inodes d).blocks md.off r ∧ (d, md.off) ∉ X ∧ r.name = n ∧ md = mdirent md.off r :=
  ((inv.lists d dir).entry n md).mp found

/-- Nothing the invariant is about changes, but for directories out of account. -/
theorem Inv.frame (inv : Inv D X M C v) (blocks : ∀ d ∈ D, (w.inodes d).blocks = (v.inodes d).blocks)
    (dcache : w.dcache = v.dcache) (more : v.ninodes ≤ w.ninodes) (small : w.ninodes < 2 ^ 64) : Inv D X M C w where
  small := small
  range d dir := ⟨(inv.range d dir).1, (inv.range d dir).2.trans more⟩
  lists d dir := by
    rw [blocks d dir]
    exact { inv.lists d dir with number := fun n md found => ((inv.lists d dir).number n md found).trans more }
  caches m member := by
    obtain ⟨dir, caches⟩ := inv.caches m (dcache ▸ member)
    exact ⟨dir, blocks m.ino dir ▸ caches⟩
  once := dcache ▸ inv.once

theorem Inv.expose (inv : Inv D X M C v) (dir : d ∈ D) (found : M d n = some md) :
    Inv D (insert (d, md.off) X) (M.set d n none) C v where
  small := inv.small
  range := inv.range
  lists d' dir' := by
    by_cases same : d' = d
    · subst same
      rw [within_insert, Entries.set_here]
      exact (inv.lists d' dir').expose found
    · rw [within_insert_other same, Entries.set_other same]
      exact inv.lists d' dir'
  caches m member := by
    obtain ⟨dir', caches⟩ := inv.caches m member
    refine ⟨dir', ?_⟩
    by_cases same : m.ino = d
    · subst same
      obtain ⟨r, live, -⟩ := inv.record dir found
      rw [within_insert]
      exact caches.expose live
    · rw [within_insert_other same]
      exact caches
  once := inv.once

theorem Inv.edit (inv : Inv D X M C v) (pending : (d, p) ∈ X) {B : List Block} (placed : Placed (v.inodes d).blocks B p r)
    (fits : Block.Fits (p % blockSize) r) (here : (w.inodes d).blocks = B)
    (rest : ∀ d', d' ≠ d → (w.inodes d').blocks = (v.inodes d').blocks) (dcache : w.dcache = v.dcache)
    (ninodes : w.ninodes = v.ninodes) : Inv D X M C w where
  small := ninodes ▸ inv.small
  range := ninodes ▸ inv.range
  lists d' dir := by
    rw [ninodes]
    by_cases same : d' = d
    · subst same
      rw [here]
      exact (inv.lists d' dir).edit pending placed fits
    · rw [rest d' same]
      exact inv.lists d' dir
  caches m member := by
    obtain ⟨dir, caches⟩ := inv.caches m (dcache ▸ member)
    refine ⟨dir, ?_⟩
    by_cases same : m.ino = d
    · subst same
      rw [here]
      exact caches.edit pending placed
    · rw [rest _ same]
      exact caches
  once := dcache ▸ inv.once

theorem Inv.publish (inv : Inv D X M C v) (dir : d ∈ D) (record : At (v.inodes d).blocks p r) (live : r.ino ≠ inoInvalid)
    (number : r.ino ≤ v.ninodes) (fresh : M d r.name = none) :
    Inv D (X \ {(d, p)}) (M.set d r.name (some (mdirent p r))) C v where
  small := inv.small
  range := inv.range
  lists d' dir' := by
    by_cases same : d' = d
    · subst same
      rw [within_remove, Entries.set_here]
      exact (inv.lists d' dir').publish record live number fresh
    · rw [within_remove_other same, Entries.set_other same]
      exact inv.lists d' dir'
  caches m member := ⟨(inv.caches m member).1, (inv.caches m member).2.smaller fun _ inside => inside.1⟩
  once := inv.once

theorem Inv.retire {len : Nat} (inv : Inv D X M C v) (free : Available (v.inodes d).blocks p len) :
    Inv D (X \ {(d, p)}) M C v where
  small := inv.small
  range := inv.range
  lists d' dir := by
    by_cases same : d' = d
    · subst same
      rw [within_remove]
      exact (inv.lists d' dir).retire free
    · rw [within_remove_other same]
      exact inv.lists d' dir
  caches m member := ⟨(inv.caches m member).1, (inv.caches m member).2.smaller fun _ inside => inside.1⟩
  once := inv.once

/-- A place out of account is not in the free list. -/
theorem Inv.not_free (inv : Inv D X M C v) (pending : (d, p) ∈ X) {m : MDirectory} (member : m ∈ v.dcache)
    (same : m.ino = d) : p ∉ m.free.map Prod.fst := by
  intro inside
  obtain ⟨f, free, rfl⟩ := List.mem_map.mp inside
  subst same
  exact ((inv.caches m member).2.free f free).1 pending

/-- One cached directory is replaced. -/
theorem Inv.recache {C' : Entries} {c : List MDirectory} {m : MDirectory} (inv : Inv D X M C v) (dir : m.ino ∈ D)
    (caches : Caches m (v.inodes m.ino).blocks (within X m.ino) (C' m.ino)) (agree : ∀ d, d ≠ m.ino → C' d = C d)
    (members : ∀ x ∈ c, x = m ∨ x ∈ v.dcache ∧ x.ino ≠ m.ino) (once : (c.map MDirectory.ino).Nodup) :
    Inv D X M C' { v with dcache := c } where
  small := inv.small
  range := inv.range
  lists := inv.lists
  caches x member := by
    rcases members x member with rfl | ⟨old, other⟩
    · exact ⟨dir, caches⟩
    · obtain ⟨dir', caches'⟩ := inv.caches x old
      rw [agree _ other]
      exact ⟨dir', caches'⟩
  once := once

end Volume

end Bpfs.Dir
