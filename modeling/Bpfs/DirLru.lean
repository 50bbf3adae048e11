import Bpfs.Directory
import Bpfs.Lib.FiniteMap
import Bpfs.Lib.LinkQueue

/-! The cache of directories as dcache.c has it: a hash map from inode numbers to directories, and
a queue through the directories in the order of their last use. The hash map is the finite map that
hash_map.c implements. -/

namespace Bpfs.DirLru
open Lib Dir

/-- `struct dcache`. In the queue `back` and `next` are `lru_polder` and `lru_newer`, and `first` and
`last` are `lru_oldest` and `lru_newest`. -/
structure Cache where
  directories : Finmap fun _ : Nat => Nat
  lru : LinkQueue MDirectory

inductive LruErr where
  | assertion
  /-- a null pointer or a freed directory is used -/
  | segfault
  deriving DecidableEq, Repr

abbrev LruM := EStateM LruErr Cache

def enomem : Int := 12

def einval : Int := 22

def deref (mdir : Nat) : LruM (QueueNode MDirectory) := do
  let c ← get
  match c.lru.node mdir with
  | none => throw .segfault
  | some n => pure n

def assert (b : Bool) : LruM Unit := if b then pure () else throw .assertion

/-- `mdir->lru_polder = l` -/
def setPolder (mdir : Nat) (l : Link) : LruM Unit := do
  let _ ← deref mdir
  modify fun c => { c with lru := c.lru.setBack mdir l }

/-- `*l = v` -/
def setLink (l : Link) (v : Option Nat) : LruM Unit :=
  match l with
  | .first => modify fun c => { c with lru := c.lru.store .first v }
  | .after mdir => do
      let _ ← deref mdir
      modify fun c => { c with lru := c.lru.store (.after mdir) v }

def setNewest (v : Option Nat) : LruM Unit := modify fun c => { c with lru := c.lru.setLast v }

/-- "Add mdir to the head of the LRU", at the link of the newest directory. -/
def addNewest (mdir : Nat) (polder : Link) : LruM Unit := do
  setPolder mdir polder
  setLink polder (some mdir)
  setLink (.after mdir) none
  setNewest (some mdir)

def mdirectoryTouch (mdir : Nat) : LruM Unit := do
  let c ← get
  assert (c.lru.last.isSome && c.lru.first.isSome)
  let n ← deref mdir
  match n.next with
  | none => pure ()
  | some newer => do
      setPolder newer n.back
      let n ← deref mdir
      setLink n.back n.next
      let c ← get
      match c.lru.last with
      | none => throw .segfault
      | some newest => addNewest mdir (.after newest)

/-- The directory behind the one that goes, or `lru_newest`, now follows the link `n.back`. -/
def closeGap (n : QueueNode MDirectory) : LruM Unit :=
  match n.next, n.back with
  | some newer, _ => setPolder newer n.back
  | none, .after older => setNewest (some older)
  | none, .first => setNewest none

/-- The entries and free records go with the directory. -/
def mdirectoryRem (mdir : Nat) : LruM Unit := do
  let n ← deref mdir
  modify fun c => { c with directories := c.directories.erase n.value.ino }
  closeGap n
  let n ← deref mdir
  setLink n.back n.next
  modify fun c => { c with lru := c.lru.put mdir none }

def setDirectory (mdir : Nat) (m : MDirectory) : LruM Unit :=
  modify fun c => { c with lru := c.lru.setValue mdir m }

/-- What the allocations of `mdirectory_add` return: the address of the directory, and whether the
hash map for its entries was made and the directory inserted. -/
structure AddMem where
  mdir : Option Nat
  dirents : Bool
  inserted : Bool
  deriving DecidableEq, Repr

def AddMem.succeeds (mem : AddMem) : Bool := mem.mdir.isSome && mem.dirents && mem.inserted

/-- The first step of `mdirectory_add`. -/
def makeRoom : LruM Unit := do
  let c ← get
  if c.directories.keys.card = nmdirsMax then
    match c.lru.first with
    | none => throw .segfault
    | some oldest => mdirectoryRem oldest
  else pure ()

/-- The links of the new directory are written before they are read. -/
def mdirectoryAdd (ino : Nat) (mem : AddMem) : LruM (Option Nat) := do
  makeRoom
  match mem.mdir with
  | none => pure none
  | some mdir =>
      if mem.dirents && mem.inserted then do
        modify fun c => { c with
          directories := c.directories.insert ino mdir
          lru := c.lru.put mdir (some ⟨⟨ino, fun _ => none, []⟩, .first, none⟩) }
        let c ← get
        addNewest mdir (match c.lru.last with
          | some newest => .after newest
          | none => .first)
        pure (some mdir)
      else pure none

def findDir (ino : Nat) : LruM Nat := do
  let c ← get
  match c.directories.lookup ino with
  | none => throw .assertion
  | some mdir => pure mdir

def dcacheAddDir (ino : Nat) (mem : AddMem) : LruM Int := do
  let c ← get
  assert (c.directories.lookup ino).isNone
  let mdir ← mdirectoryAdd ino mem
  pure (if mdir.isSome then 0 else -enomem)

def dcacheRemDir (ino : Nat) : LruM Unit := do
  let mdir ← findDir ino
  mdirectoryRem mdir

/-- `dup` and `inserted` say whether `mdirent_dup` and `hash_map_insert` have memory. -/
def dcacheAddDirent (parentIno : Nat) (name : List UInt8) (mdo : MDirent) (dup inserted : Bool) : LruM Int := do
  let mdir ← findDir parentIno
  mdirectoryTouch mdir
  if dup && inserted then do
    let n ← deref mdir
    assert (n.value.dirents name).isNone
    setDirectory mdir { n.value with dirents := Function.update n.value.dirents name (some mdo) }
    pure 0
  else pure (-enomem)

def dcacheGetDirent (parentIno : Nat) (name : List UInt8) : LruM (Option MDirent) := do
  let mdir ← findDir parentIno
  mdirectoryTouch mdir
  let n ← deref mdir
  pure (n.value.dirents name)

def dcacheRemDirent (parentIno : Nat) (name : List UInt8) : LruM Int := do
  let mdir ← findDir parentIno
  mdirectoryTouch mdir
  let n ← deref mdir
  match n.value.dirents name with
  | none => pure (-einval)
  | some _ => do
      setDirectory mdir { n.value with dirents := Function.update n.value.dirents name none }
      pure 0

/-! ### What the queue and the hash map hold -/

/-- The entry of the hash map for a directory at an address. -/
def entryOf (p : Nat × MDirectory) : Sigma fun _ : Nat => Nat := ⟨p.2.ino, p.1⟩

/-- The cache has the directories `l` at their addresses, the least recently used first. -/
structure Represents (c : Cache) (l : List (Nat × MDirectory)) : Prop where
  has : c.lru.Has (l.map Prod.fst)
  values : ∀ p ∈ l, c.lru.valueOf p.1 = some p.2
  entries : c.directories.entries = (l.map entryOf : Multiset _)

variable {c : Cache} {front rest l : List (Nat × MDirectory)} {a ino : Nat} {m : MDirectory}
  {Q : Unit → Cache → Prop} {E : LruErr → Cache → Prop}

theorem wp_deref {n : QueueNode MDirectory} {Q : QueueNode MDirectory → Cache → Prop} (here : c.lru.node a = some n) :
    wp (deref a) Q E c ↔ Q n c := by
  rw [deref, wp_bind, wp_get, here]
  exact wp_pure

theorem wp_setPolder {link : Link} (live : (c.lru.node a).isSome) :
    wp (setPolder a link) Q E c ↔ Q ⟨⟩ { c with lru := c.lru.setBack a link } := by
  obtain ⟨n, here⟩ := Option.isSome_iff_exists.mp live
  rw [setPolder, wp_bind, wp_deref here, wp_modify]

theorem wp_setLink {link : Link} {v : Option Nat} (live : c.lru.Live link) :
    wp (setLink link v) Q E c ↔ Q ⟨⟩ { c with lru := c.lru.store link v } := by
  cases link with
  | first => exact wp_modify
  | after b =>
    obtain ⟨n, here⟩ := Option.isSome_iff_exists.mp live
    rw [setLink, wp_bind, wp_deref here, wp_modify]

theorem wp_addNewest {as : List Nat} (has : c.lru.Has as) (live : (c.lru.node a).isSome) :
    wp (addNewest a (LinkQueue.endOf .first as)) Q E c ↔
      Q ⟨⟩ { c with lru := c.lru.append a (LinkQueue.endOf .first as) } := by
  rw [addNewest, wp_bind, wp_setPolder live, wp_bind, wp_setLink (has.live_end.setBack a _), wp_bind, wp_setLink,
    setNewest, wp_modify]
  · rfl
  · exact (LinkQueue.isSome_store _ _ _ _).trans ((LinkQueue.isSome_setBack _ _ a a).trans live)

namespace Represents

theorem node (rep : Represents c (front ++ (a, m) :: rest)) :
    c.lru.node a = some ⟨m, LinkQueue.endOf .first (front.map Prod.fst), (rest.map Prod.fst).head?⟩ := by
  have has := rep.has
  rw [List.map_append, List.map_cons] at has
  exact LinkQueue.node_eq (rep.values (a, m) (by simp)) has.back has.next

theorem live (rep : Represents c l) {p : Nat × MDirectory} (member : p ∈ l) : (c.lru.node p.1).isSome :=
  rep.has.chained.live (List.mem_map_of_mem member)

theorem nodup (rep : Represents c (front ++ (a, m) :: rest)) : a ∉ (front ++ rest).map Prod.fst := by
  have nodup := rep.has.nodup
  rw [List.map_append, List.map_cons, List.nodup_middle, List.nodup_cons, ← List.map_append] at nodup
  exact nodup.1

/-- The order of the queue does not matter to the hash map. -/
theorem moved (rep : Represents c (front ++ (a, m) :: rest)) :
    c.directories.entries = ((front ++ rest ++ [(a, m)]).map entryOf : Multiset _) := by
  rw [rep.entries, Multiset.coe_eq_coe]
  apply List.Perm.map
  rw [List.append_assoc]
  exact (List.perm_middle.trans (List.perm_append_singleton _ _).symm).trans (by rw [List.append_assoc])

end Represents

/-- The second half of a touch: the directory that was taken out becomes the newest. -/
theorem Represents.renewed {lru : LinkQueue MDirectory} (rep : Represents c (front ++ (a, m) :: rest))
    (has : lru.Has ((front ++ rest).map Prod.fst)) (last : lru.last.isSome)
    (values : ∀ b, lru.valueOf b = c.lru.valueOf b) :
    wp (match lru.last with
      | none => throw .segfault
      | some newest => addNewest a (.after newest))
      (fun _ t => Represents t (front ++ rest ++ [(a, m)])) (fun _ _ => False) { c with lru := lru } := by
  obtain ⟨newest, here⟩ := Option.isSome_iff_exists.mp last
  have link : Link.after newest = LinkQueue.endOf .first ((front ++ rest).map Prod.fst) := by
    rw [has.end_eq, here]
    rfl
  have value : lru.valueOf a = some m := (values a).trans (rep.values (a, m) (by simp))
  have live : (lru.node a).isSome := by
    obtain ⟨n, there, -⟩ := Option.map_eq_some_iff.mp value
    rw [there]
    rfl
  rw [here]
  change wp (addNewest a (.after newest)) _ _ _
  rw [link, wp_addNewest has live]
  refine ⟨?_, ?_, rep.moved⟩
  · rw [show (front ++ rest ++ [(a, m)]).map Prod.fst = (front ++ rest).map Prod.fst ++ [a] from List.map_append]
    exact has.append rep.nodup live
  · intro p member
    have old : p ∈ front ++ (a, m) :: rest := by
      rw [List.mem_append, List.mem_singleton, List.mem_append] at member
      rw [List.mem_append, List.mem_cons]
      tauto
    exact (LinkQueue.valueOf_append a _ p.1).trans ((values p.1).trans (rep.values p old))

theorem mdirectoryTouch_spec (rep : Represents c (front ++ (a, m) :: rest)) :
    wp (mdirectoryTouch a) (fun _ t => Represents t (front ++ rest ++ [(a, m)])) (fun _ _ => False) c := by
  have has := rep.has
  rw [List.map_append, List.map_cons] at has
  have first : c.lru.first.isSome := by
    have chained := has.chained
    cases front with
    | nil => rw [show c.lru.first = some a from chained.1]; rfl
    | cons p front => rw [show c.lru.first = some p.1 from chained.1]; rfl
  have last : c.lru.last.isSome := by
    rw [has.last]
    simp
  rw [mdirectoryTouch, wp_bind, wp_get, wp_bind, last, first, assert, wp_ite]
  refine ⟨fun _ => ?_, fun never => absurd rfl never⟩
  rw [wp_pure, wp_bind, wp_deref rep.node]
  cases rest with
  | nil =>
    rw [List.append_nil]
    exact rep
  | cons p rest =>
    have other : a ≠ p.1 := fun same => rep.nodup (by simp [same])
    have live : (c.lru.node p.1).isSome := rep.live (by simp)
    have same : (c.lru.setBack p.1 (LinkQueue.endOf .first (front.map Prod.fst))).node a = c.lru.node a :=
      Function.update_of_ne other _ _
    have liveBack := has.live_back.setBack p.1 (LinkQueue.endOf .first (front.map Prod.fst))
    have unlinked := has.unlink
    have newest : (front.map Prod.fst ++ (p :: rest).map Prod.fst).getLast? = c.lru.last := by
      rw [has.last]
      simp
    rw [newest, LinkQueue.setLast_self (LinkQueue.unlink_last _ _)] at unlinked
    change wp (setPolder p.1 _ >>= _) _ _ _
    rw [wp_bind, wp_setPolder live, wp_bind, wp_deref (same.trans rep.node), wp_bind, wp_setLink liveBack, wp_bind, wp_get]
    rw [← List.map_append] at unlinked
    have remains : (c.lru.unlink (LinkQueue.endOf .first (front.map Prod.fst)) (some p.1)).last.isSome := by
      rw [LinkQueue.unlink_last]
      exact last
    have renewed := rep.renewed unlinked remains (LinkQueue.valueOf_unlink _ _)
    exact renewed

/-- What is left after the gap is closed and the link is moved on. -/
theorem wp_closeGap (rep : Represents c (front ++ (a, m) :: rest)) (d : Finmap fun _ : Nat => Nat) {R : Cache → Prop}
    (next : ∀ lru, lru.node a = c.lru.node a → lru.Live (LinkQueue.endOf .first (front.map Prod.fst)) →
      lru.store (LinkQueue.endOf .first (front.map Prod.fst)) (rest.map Prod.fst).head? =
        (c.lru.unlink (LinkQueue.endOf .first (front.map Prod.fst)) (rest.map Prod.fst).head?).setLast
          ((front ++ rest).map Prod.fst).getLast? → R ⟨d, lru⟩) :
    wp (closeGap ⟨m, LinkQueue.endOf .first (front.map Prod.fst), (rest.map Prod.fst).head?⟩) (fun _ t => R t)
      (fun _ _ => False) ⟨d, c.lru⟩ := by
  have has := rep.has
  rw [List.map_append, List.map_cons] at has
  cases rest with
  | nil =>
    have last : wp (setNewest ((front.map Prod.fst).getLast?)) (fun _ t => R t) (fun _ _ => False) ⟨d, c.lru⟩ := by
      rw [setNewest, wp_modify]
      refine next _ rfl has.live_back ?_
      rw [List.append_nil]
      cases LinkQueue.endOf .first (front.map Prod.fst) <;> rfl
    rw [LinkQueue.endOf_first]
    cases found : (front.map Prod.fst).getLast? with
    | none =>
      rw [found] at last
      exact last
    | some older =>
      rw [found] at last
      exact last
  | cons p rest =>
    have other : a ≠ p.1 := fun same => rep.nodup (by simp [same])
    have live : (c.lru.node p.1).isSome := rep.live (by simp)
    refine (wp_setPolder (c := ⟨d, c.lru⟩) live).mpr ?_
    refine next _ (Function.update_of_ne other _ _) (has.live_back.setBack p.1 _) ?_
    have newest : c.lru.last = ((front ++ p :: rest).map Prod.fst).getLast? := by
      rw [has.last]
      simp
    rw [LinkQueue.setLast_self ((LinkQueue.unlink_last _ _).trans newest)]
    rfl

theorem mdirectoryRem_spec (rep : Represents c (front ++ (a, m) :: rest)) :
    wp (mdirectoryRem a) (fun _ t => Represents t (front ++ rest) ∧ t.directories = c.directories.erase m.ino)
      (fun _ _ => False) c := by
  have has := rep.has
  rw [List.map_append, List.map_cons] at has
  have unlinked := has.unlink
  rw [mdirectoryRem, wp_bind, wp_deref rep.node, wp_bind, wp_modify, wp_bind]
  refine wp_closeGap rep _ fun lru node live relinked => ?_
  rw [wp_bind, wp_deref (node.trans rep.node), wp_bind, wp_setLink live, wp_modify]
  dsimp only
  rw [relinked]
  refine ⟨⟨?_, ?_, ?_⟩, rfl⟩
  · rw [List.map_append] at *
    exact unlinked.put none (by rw [← List.map_append]; exact rep.nodup)
  · intro p member
    have other : p.1 ≠ a := fun same => rep.nodup (same ▸ List.mem_map_of_mem member)
    have old : p ∈ front ++ (a, m) :: rest := by
      rw [List.mem_append] at member
      rw [List.mem_append, List.mem_cons]
      tauto
    exact (LinkQueue.valueOf_put_other none other).trans ((LinkQueue.valueOf_unlink _ _ _).trans (rep.values p old))
  · refine entries_erase (v := a) ?_
    rw [rep.entries, List.map_append, List.map_cons, List.map_append]
    exact Multiset.coe_eq_coe.mpr List.perm_middle

theorem Represents.card (rep : Represents c l) : c.directories.keys.card = l.length := by
  rw [card_keys, rep.entries, Multiset.coe_card, List.length_map]

theorem Represents.first (rep : Represents c l) : c.lru.first = (l.map Prod.fst).head? := by
  cases l with
  | nil => exact rep.has.ends
  | cons p rest => exact rep.has.chained.1

/-- What an addition leaves of the cached directories. -/
def kept {α : Type} (l : List α) : List α := if l.length = nmdirsMax then l.tail else l

theorem makeRoom_spec (rep : Represents c l) :
    wp makeRoom (fun _ t => Represents t (kept l) ∧ ∀ d, d ∉ c.directories → d ∉ t.directories) (fun _ _ => False) c := by
  rw [makeRoom, wp_bind, wp_get, wp_ite, rep.card, kept]
  constructor
  · intro full
    rw [if_pos full, rep.first]
    cases l with
    | nil => exact absurd full (by decide)
    | cons p rest =>
      have removed := mdirectoryRem_spec (show Represents c ([] ++ (p.1, p.2) :: rest) from rep)
      refine wp_mono removed (fun _ t after => ⟨after.1, fun d absent present => absent ?_⟩) (fun _ _ fails => fails)
      rw [after.2] at present
      exact (Finmap.mem_erase.mp present).2
  · intro room
    rw [if_neg room, wp_pure]
    exact ⟨rep, fun _ absent => absent⟩

/-- The directory as it is added. -/
def fresh (ino : Nat) : MDirectory := ⟨ino, fun _ => none, []⟩

theorem mdirectoryAdd_spec {mem : AddMem} (rep : Represents c l) (absent : ino ∉ c.directories)
    (free : ∀ mdir, mem.mdir = some mdir → mdir ∉ (kept l).map Prod.fst) :
    wp (mdirectoryAdd ino mem) (fun _ t => Represents t (kept l) ∧ mem.succeeds = false ∨
      ∃ mdir, mem.mdir = some mdir ∧ mem.succeeds = true ∧ Represents t (kept l ++ [(mdir, fresh ino)]))
      (fun _ _ => False) c := by
  rw [mdirectoryAdd, wp_bind]
  refine wp_mono (makeRoom_spec rep) (fun _ t made => ?_) (fun _ _ fails => fails)
  obtain ⟨rep, still⟩ := made
  cases chosen : mem.mdir with
  | none => exact Or.inl ⟨rep, by simp [AddMem.succeeds, chosen]⟩
  | some mdir =>
    change wp (if (mem.dirents && mem.inserted) = true then _ else _) _ _ t
    rw [wp_ite, wp_pure]
    refine ⟨fun memory => ?_, fun short => Or.inl ⟨rep, by simp [AddMem.succeeds, chosen, short]⟩⟩
    have room := free mdir chosen
    have has := rep.has.put (some ⟨fresh ino, .first, none⟩) room
    have live : ((t.lru.put mdir (some ⟨fresh ino, .first, none⟩)).node mdir).isSome := by
      simp [LinkQueue.put]
    have link : (match t.lru.last with
        | some newest => Link.after newest
        | none => .first) = LinkQueue.endOf .first ((kept l).map Prod.fst) := by
      rw [rep.has.end_eq]
      cases t.lru.last <;> rfl
    rw [wp_bind, wp_modify, wp_bind, wp_get, wp_bind]
    change wp (addNewest mdir (match t.lru.last with
      | some newest => Link.after newest
      | none => .first)) _ _ _
    rw [link]
    refine (wp_addNewest (c := ⟨t.directories.insert ino mdir, _⟩) has live).mpr ?_
    refine wp_pure.mpr (Or.inr ⟨mdir, rfl, by simp [AddMem.succeeds, chosen, memory], ?_, ?_, ?_⟩)
    · rw [List.map_append]
      exact has.append room live
    · intro p member
      refine (LinkQueue.valueOf_append mdir _ p.1).trans ?_
      rcases List.mem_append.mp member with old | new
      · have other : p.1 ≠ mdir := fun same => room (same ▸ List.mem_map_of_mem old)
        exact (LinkQueue.valueOf_put_other _ other).trans (rep.values p old)
      · rw [List.mem_singleton.mp new]
        simp [LinkQueue.valueOf]
    · have out := still ino absent
      rw [Finmap.entries_insert_of_notMem out, rep.entries, List.map_append, Multiset.cons_coe, Multiset.coe_eq_coe]
      exact (List.perm_append_singleton _ _).symm

end Bpfs.DirLru
