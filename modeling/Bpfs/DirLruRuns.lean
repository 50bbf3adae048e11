import Bpfs.DirCache
import Bpfs.DirLru
import Bpfs.Lib.Recency

/-! Runs of the cache of directories: the pointer structure carries out the operations on the list of
directories, and an addition drops the directory that was used least recently. -/

namespace Bpfs.DirLru
open Lib Dir

/-- The calls, with what the allocations they make return. -/
inductive Op where
  | addDir (ino : Nat) (mem : AddMem)
  | remDir (ino : Nat)
  | addDirent (ino : Nat) (name : List UInt8) (mdo : MDirent) (dup inserted : Bool)
  | getDirent (ino : Nat) (name : List UInt8)
  | remDirent (ino : Nat) (name : List UInt8)
  deriving DecidableEq, Repr

def Op.step : Op → LruM Unit
  | .addDir ino mem => (fun _ => ()) <$> dcacheAddDir ino mem
  | .remDir ino => dcacheRemDir ino
  | .addDirent ino name mdo dup inserted => (fun _ => ()) <$> dcacheAddDirent ino name mdo dup inserted
  | .getDirent ino name => (fun _ => ()) <$> dcacheGetDirent ino name
  | .remDirent ino name => (fun _ => ()) <$> dcacheRemDirent ino name

/-- The caller keeps to the assertions of the functions, and `malloc` returns memory that is free,
be it that of the directory that was just dropped. -/
def Op.Allowed (c : Cache) : Op → Prop
  | .addDir ino mem => ino ∉ c.directories ∧ ∀ mdir ∈ mem.mdir,
      (c.lru.node mdir).isNone ∨ c.directories.keys.card = nmdirsMax ∧ c.lru.first = some mdir
  | .remDir ino => ino ∈ c.directories
  | .addDirent ino name _ dup inserted => ino ∈ c.directories ∧ (dup && inserted →
      (((c.directories.lookup ino).bind c.lru.valueOf).bind fun m => m.dirents name) = none)
  | .getDirent ino _ => ino ∈ c.directories
  | .remDirent ino _ => ino ∈ c.directories

/-- The directory that the call uses. -/
def Op.uses : Op → Option Nat
  | .addDir ino _ => some ino
  | .remDir _ => none
  | .addDirent ino _ _ _ _ => some ino
  | .getDirent ino _ => some ino
  | .remDirent ino _ => some ino

def run : List Op → LruM Unit
  | [] => pure ()
  | op :: ops => do
      op.step
      run ops

def Allowed (c : Cache) : List Op → Prop
  | [] => True
  | op :: ops => op.Allowed c ∧ match op.step c with
      | .ok _ c' => Allowed c' ops
      | .error _ _ => False

/-- The cache after `dcache_init`. -/
def start : Cache := ⟨∅, ⟨fun _ => none, none, none⟩⟩

/-- The directories that the calls use, the last one first. -/
def uses (ops : List Op) : List Nat := (ops.filterMap Op.uses).reverse

/-- How many uses there were since the last use of the directory. -/
def age (ops : List Op) (d : Nat) : Nat := (uses ops).idxOf d

/-- The call on the list of the cached directories. -/
def Op.spec (vs : List MDirectory) : Op → List MDirectory
  | .addDir ino mem => if mem.succeeds then kept vs ++ [fresh ino] else kept vs
  | .remDir ino => Dcache.erase vs ino
  | .addDirent ino name mdo dup inserted => match Dcache.find vs ino with
      | none => vs
      | some m => Dcache.touch vs (if dup && inserted then
          { m with dirents := Function.update m.dirents name (some mdo) } else m)
  | .getDirent ino _ => match Dcache.find vs ino with
      | none => vs
      | some m => Dcache.touch vs m
  | .remDirent ino name => match Dcache.find vs ino with
      | none => vs
      | some m => Dcache.touch vs { m with dirents := Function.update m.dirents name none }

variable {c : Cache} {front rest l : List (Nat × MDirectory)} {a ino : Nat} {m : MDirectory}

theorem Represents.inos_nodup (rep : Represents c l) : (l.map fun p => p.2.ino).Nodup := by
  have nodup := c.directories.nodupKeys
  rw [rep.entries, Multiset.coe_nodupKeys, List.NodupKeys, List.keys, List.map_map] at nodup
  exact nodup

/-- A directory that the hash map has is in the queue. -/
theorem Represents.found (rep : Represents c l) (present : ino ∈ c.directories) :
    ∃ front a m rest, l = front ++ (a, m) :: rest ∧ m.ino = ino ∧ c.directories.lookup ino = some a := by
  obtain ⟨a, lookup⟩ := Finmap.mem_iff.mp present
  have inside := Finmap.lookup_eq_some_iff.mp lookup
  rw [rep.entries, Multiset.mem_coe, List.mem_map] at inside
  obtain ⟨⟨b, m⟩, member, same⟩ := inside
  obtain ⟨rfl, rfl⟩ : m.ino = ino ∧ b = a := by
    injection same with ino addr
    exact ⟨ino, addr⟩
  obtain ⟨front, rest, rfl⟩ := List.append_of_mem member
  exact ⟨front, b, m, rest, rfl, rfl, lookup⟩

theorem mem_directories (rep : Represents c l) : ino ∈ c.directories ↔ ino ∈ l.map fun p => p.2.ino := by
  rw [Finmap.mem_def, rep.entries, Multiset.coe_keys, Multiset.mem_coe, List.keys, List.map_map]
  rfl

theorem kept_sublist {α : Type} (l : List α) : (kept l).Sublist l := by
  rw [kept]
  split
  · exact List.tail_sublist l
  · exact List.Sublist.refl l

theorem kept_length {α : Type} {l : List α} (bound : l.length ≤ nmdirsMax) : (kept l).length < nmdirsMax := by
  have positive : 0 < nmdirsMax := by decide
  rw [kept]
  split
  · rw [List.length_tail]
    omega
  · omega

section Lists

variable {before after : List MDirectory} {m' : MDirectory}

theorem erase_middle (nodup : ((before ++ m :: after).map MDirectory.ino).Nodup) :
    Dcache.erase (before ++ m :: after) m.ino = before ++ after := by
  rw [List.map_append, List.map_cons, List.nodup_middle, List.nodup_cons, ← List.map_append] at nodup
  rw [Dcache.erase, List.filter_append, List.filter_cons_of_neg (by simp), ← List.filter_append]
  refine List.filter_eq_self.mpr fun x member => ?_
  have other : x.ino ≠ m.ino := fun same => nodup.1 (same ▸ List.mem_map_of_mem member)
  simpa using other

theorem dcache_touch_middle (nodup : ((before ++ m :: after).map MDirectory.ino).Nodup) (same : m'.ino = m.ino) :
    Dcache.touch (before ++ m :: after) m' = before ++ after ++ [m'] := by
  rw [Dcache.touch, same, erase_middle nodup]

theorem find_middle (nodup : ((before ++ m :: after).map MDirectory.ino).Nodup) :
    Dcache.find (before ++ m :: after) m.ino = some m := by
  rw [List.map_append, List.map_cons, List.nodup_middle, List.nodup_cons, ← List.map_append] at nodup
  have none : before.find? (fun x => x.ino == m.ino) = none := by
    refine List.find?_eq_none.mpr fun x member same => nodup.1 ?_
    rw [← beq_iff_eq.mp same]
    exact List.mem_map_of_mem (List.mem_append_left _ member)
  rw [Dcache.find, List.find?_append, none, Option.none_or, List.find?_cons_of_pos (by simp)]

end Lists

/-- The newest directory is changed. -/
theorem Represents.setValue {m' : MDirectory} (rep : Represents c (front ++ [(a, m)])) (same : m'.ino = m.ino) :
    Represents { c with lru := c.lru.setValue a m' } (front ++ [(a, m')]) := by
  refine ⟨?_, ?_, ?_⟩
  · have has := rep.has.setValue a m'
    rw [List.map_append] at has ⊢
    exact has
  · intro p member
    rcases List.mem_append.mp member with old | new
    · have apart := rep.nodup
      rw [List.append_nil] at apart
      have other : p.1 ≠ a := fun same => apart (same ▸ List.mem_map_of_mem old)
      exact (LinkQueue.valueOf_setValue_other m' other).trans (rep.values p (List.mem_append_left _ old))
    · rw [List.mem_singleton.mp new]
      exact LinkQueue.valueOf_setValue m' (rep.live (p := (a, m)) (by simp))
  · rw [rep.entries, List.map_append, List.map_append]
    simp only [List.map_cons, List.map_nil, entryOf, same]

theorem wp_findDir {Q : Nat → Cache → Prop} {E : LruErr → Cache → Prop} (found : c.directories.lookup ino = some a) :
    wp (findDir ino) Q E c ↔ Q a c := by
  rw [findDir, wp_bind, wp_get, found]
  exact wp_pure

/-- The state represents what the call makes of the list. -/
def Carries (t : Cache) (vs : List MDirectory) : Prop := ∃ l, Represents t l ∧ l.map Prod.snd = vs

section Steps

variable (rep : Represents c l)
include rep

theorem dirs_nodup : ((l.map Prod.snd).map MDirectory.ino).Nodup := by
  rw [List.map_map]
  exact rep.inos_nodup

/-- Memory that is free, or that of the directory that is dropped, has none of the directories that stay. -/
theorem unused {mdir : Nat}
    (free : (c.lru.node mdir).isNone ∨ c.directories.keys.card = nmdirsMax ∧ c.lru.first = some mdir) :
    mdir ∉ (kept l).map Prod.fst := by
  intro inside
  rcases free with none | ⟨full, oldest⟩
  · obtain ⟨p, member, rfl⟩ := List.mem_map.mp inside
    have live := rep.live ((kept_sublist l).mem member)
    rw [Option.isNone_iff_eq_none.mp none] at live
    exact Bool.false_ne_true live
  · rw [rep.card] at full
    rw [rep.first] at oldest
    rw [kept, if_pos full] at inside
    have nodup := rep.has.nodup
    cases l with
    | nil => exact absurd oldest.symm (Option.some_ne_none _)
    | cons p rest =>
      rw [List.map_cons, List.nodup_cons] at nodup
      exact nodup.1 ((Option.some.inj oldest) ▸ inside)

theorem addDir_spec {mem : AddMem} (allowed : (Op.addDir ino mem).Allowed c) :
    wp (dcacheAddDir ino mem) (fun _ t => Carries t ((Op.addDir ino mem).spec (l.map Prod.snd))) (fun _ _ => False) c := by
  obtain ⟨absent, memory⟩ := allowed
  have free : ∀ mdir, mem.mdir = some mdir → mdir ∉ (kept l).map Prod.fst :=
    fun mdir chosen => unused rep (memory mdir chosen)
  have names : (kept l).map Prod.snd = kept (l.map Prod.snd) := by
    rw [kept, kept, List.length_map]
    split
    · exact List.map_tail
    · rfl
  rw [dcacheAddDir, wp_bind, wp_get, wp_bind, Finmap.lookup_eq_none.mpr absent, assert, Option.isNone_none, if_pos rfl,
    wp_pure, wp_bind]
  refine wp_mono (mdirectoryAdd_spec rep absent free) (fun _ t added => wp_pure.mpr ?_) (fun _ _ fails => fails)
  rcases added with ⟨rep, fails⟩ | ⟨mdir, -, done, rep⟩
  · refine ⟨_, rep, ?_⟩
    rw [names, Op.spec, fails]
    rfl
  · refine ⟨_, rep, ?_⟩
    rw [List.map_append, names, Op.spec, done]
    rfl

theorem remDir_spec (present : ino ∈ c.directories) :
    wp (dcacheRemDir ino) (fun _ t => Carries t ((Op.remDir ino).spec (l.map Prod.snd))) (fun _ _ => False) c := by
  obtain ⟨front, a, m, rest, rfl, rfl, found⟩ := rep.found present
  have nodup := dirs_nodup rep
  rw [dcacheRemDir, wp_bind, wp_findDir found]
  refine wp_mono (mdirectoryRem_spec rep) (fun _ t removed => ⟨_, removed.1, ?_⟩) (fun _ _ fails => fails)
  rw [List.map_append, List.map_cons] at nodup
  rw [Op.spec, List.map_append, List.map_append, List.map_cons, erase_middle nodup]

/-- How the calls on entries begin: the directory is found and becomes the newest. -/
theorem findTouch_spec {β : Type} {k : Nat → LruM β} {Q : β → Cache → Prop} (present : ino ∈ c.directories)
    (next : ∀ front a m rest t, l = front ++ (a, m) :: rest → m.ino = ino → c.directories.lookup ino = some a →
      Represents t (front ++ rest ++ [(a, m)]) → wp (k a) Q (fun _ _ => False) t) :
    wp (do
      let mdir ← findDir ino
      mdirectoryTouch mdir
      k mdir) Q (fun _ _ => False) c := by
  obtain ⟨front, a, m, rest, split, name, found⟩ := rep.found present
  rw [wp_bind, wp_findDir found, wp_bind]
  subst split
  refine wp_mono (mdirectoryTouch_spec rep) (fun _ t touched => ?_) (fun _ _ fails => fails)
  exact next front a m rest t rfl name found touched

omit rep in
/-- What the calls on entries make of the list. -/
theorem Carries.touched {t : Cache} {m' : MDirectory} (rep : Represents c (front ++ (a, m) :: rest))
    (after : Represents t (front ++ rest ++ [(a, m')])) (same : m'.ino = m.ino) :
    Carries t (Dcache.touch ((front ++ (a, m) :: rest).map Prod.snd) m') := by
  have nodup := dirs_nodup rep
  refine ⟨_, after, ?_⟩
  rw [List.map_append, List.map_cons] at nodup ⊢
  rw [List.map_append, List.map_append, List.map_cons, dcache_touch_middle nodup same]
  rfl

omit rep in
theorem find_snd (rep : Represents c (front ++ (a, m) :: rest)) :
    Dcache.find ((front ++ (a, m) :: rest).map Prod.snd) m.ino = some m := by
  have nodup := dirs_nodup rep
  rw [List.map_append, List.map_cons] at nodup ⊢
  exact find_middle nodup

theorem getDirent_spec {name : List UInt8} (present : ino ∈ c.directories) :
    wp (dcacheGetDirent ino name) (fun r t => r = ((Dcache.find (l.map Prod.snd) ino).bind fun m => m.dirents name) ∧
      Carries t ((Op.getDirent ino name).spec (l.map Prod.snd))) (fun _ _ => False) c := by
  refine findTouch_spec rep present ?_
  rintro front a m rest t rfl rfl - after
  rw [wp_bind, wp_deref after.node, wp_pure, Op.spec, find_snd rep]
  exact ⟨rfl, Carries.touched rep after rfl⟩

theorem remDirent_spec {name : List UInt8} (present : ino ∈ c.directories) :
    wp (dcacheRemDirent ino name) (fun _ t => Carries t ((Op.remDirent ino name).spec (l.map Prod.snd)))
      (fun _ _ => False) c := by
  refine findTouch_spec rep present ?_
  rintro front a m rest t rfl rfl - after
  rw [wp_bind, wp_deref after.node, Op.spec, find_snd rep]
  dsimp only
  cases entry : m.dirents name with
  | none =>
    have same : Function.update m.dirents name none = m.dirents := by
      rw [← entry]
      exact Function.update_eq_self _ _
    rw [same]
    exact Carries.touched rep after rfl
  | some md =>
    rw [wp_bind, setDirectory, wp_modify, wp_pure]
    exact Carries.touched rep (after.setValue rfl) rfl

theorem addDirent_spec {name : List UInt8} {mdo : MDirent} {dup inserted : Bool}
    (allowed : (Op.addDirent ino name mdo dup inserted).Allowed c) :
    wp (dcacheAddDirent ino name mdo dup inserted)
      (fun _ t => Carries t ((Op.addDirent ino name mdo dup inserted).spec (l.map Prod.snd))) (fun _ _ => False) c := by
  obtain ⟨present, fresh⟩ := allowed
  refine findTouch_spec rep present ?_
  rintro front a m rest t rfl rfl found after
  rw [wp_ite, Op.spec, find_snd rep]
  constructor
  · intro memory
    have unset : m.dirents name = none := by
      have entry := fresh memory
      rw [found, Option.bind_some, rep.values (a, m) (by simp)] at entry
      exact entry
    rw [wp_bind, wp_deref after.node, wp_bind, unset, assert, Option.isNone_none, if_pos rfl, wp_pure, wp_bind,
      setDirectory, wp_modify, wp_pure]
    dsimp only
    rw [if_pos memory]
    exact Carries.touched rep (after.setValue rfl) rfl
  · intro short
    rw [wp_pure]
    dsimp only
    rw [if_neg short]
    exact Carries.touched rep after rfl

end Steps

theorem Op.step_spec {op : Op} {vs : List MDirectory} (carries : Carries c vs) (allowed : op.Allowed c) :
    wp op.step (fun _ t => Carries t (op.spec vs)) (fun _ _ => False) c := by
  obtain ⟨l, rep, rfl⟩ := carries
  cases op with
  | addDir ino mem =>
    rw [Op.step, wp_map]
    exact addDir_spec rep allowed
  | remDir ino => exact remDir_spec rep allowed
  | addDirent ino name mdo dup inserted =>
    rw [Op.step, wp_map]
    exact addDirent_spec rep allowed
  | getDirent ino name =>
    rw [Op.step, wp_map]
    exact wp_mono (getDirent_spec rep allowed) (fun _ _ got => got.2) (fun _ _ fails => fails)
  | remDirent ino name =>
    rw [Op.step, wp_map]
    exact remDirent_spec rep allowed

/-! ### The order of the last uses -/

/-- The directories stand in the order of their last use, and there are not too many. -/
structure InOrder (h : List Nat) (vs : List MDirectory) : Prop where
  order : OldestFirst h (vs.map MDirectory.ino)
  used : ∀ d ∈ vs.map MDirectory.ino, d ∈ h
  size : vs.length ≤ nmdirsMax

section Order

variable {h : List Nat} {vs ws : List MDirectory}

theorem InOrder.sublist (ordered : InOrder h vs) (sub : ws.Sublist vs) : InOrder h ws where
  order := ordered.order.sublist (sub.map _)
  used := fun d member => ordered.used d ((sub.map _).mem member)
  size := sub.length_le.trans ordered.size

theorem InOrder.cons (ordered : InOrder h vs) (out : ino ∉ vs.map MDirectory.ino) : InOrder (ino :: h) vs where
  order := ordered.order.cons out
  used := fun d member => List.mem_cons_of_mem _ (ordered.used d member)
  size := ordered.size

theorem InOrder.use (ordered : InOrder h vs) (out : m.ino ∉ vs.map MDirectory.ino) (room : vs.length < nmdirsMax) :
    InOrder (m.ino :: h) (vs ++ [m]) where
  order := by
    rw [List.map_append]
    exact ordered.order.use out
  used := by
    intro d member
    rw [List.map_append, List.mem_append] at member
    rcases member with old | new
    · exact List.mem_cons_of_mem _ (ordered.used d old)
    · exact List.mem_cons.mpr (Or.inl (List.mem_singleton.mp new))
  size := by
    rw [List.length_append]
    exact room

theorem InOrder.touch {m' : MDirectory} (ordered : InOrder h vs) (nodup : (vs.map MDirectory.ino).Nodup) (member : m ∈ vs)
    (same : m'.ino = m.ino) : InOrder (m.ino :: h) (Dcache.touch vs m') := by
  obtain ⟨before, after, rfl⟩ := List.append_of_mem member
  rw [dcache_touch_middle nodup same, ← same]
  have sub : (before ++ after).Sublist (before ++ m :: after) :=
    (List.Sublist.refl before).append (List.sublist_cons_self m after)
  refine (ordered.sublist sub).use ?_ ?_
  · rw [List.map_append, List.map_cons, List.nodup_middle, List.nodup_cons, ← List.map_append, ← same] at nodup
    exact nodup.1
  · have size := ordered.size
    rw [List.length_append, List.length_cons] at size
    rw [List.length_append]
    omega

/-- A cached directory is found. -/
theorem find_of_mem (member : ino ∈ vs.map MDirectory.ino) : ∃ m ∈ vs, m.ino = ino ∧ Dcache.find vs ino = some m := by
  cases found : Dcache.find vs ino with
  | none => exact absurd member (Dcache.find_none found)
  | some m => exact ⟨m, (Dcache.find_some found).1, (Dcache.find_some found).2, rfl⟩

theorem Carries.nodup (carries : Carries c vs) : (vs.map MDirectory.ino).Nodup := by
  obtain ⟨l, rep, rfl⟩ := carries
  exact dirs_nodup rep

theorem Carries.mem_directories (carries : Carries c vs) : ino ∈ c.directories ↔ ino ∈ vs.map MDirectory.ino := by
  obtain ⟨l, rep, rfl⟩ := carries
  rw [DirLru.mem_directories rep, List.map_map]
  rfl

theorem Op.spec_inOrder {op : Op} (carries : Carries c vs) (ordered : InOrder h vs) (allowed : op.Allowed c) :
    InOrder (op.uses.toList ++ h) (op.spec vs) := by
  have nodup := carries.nodup
  cases op with
  | addDir ino mem =>
    have absent : ino ∉ vs.map MDirectory.ino := fun inside => allowed.1 (carries.mem_directories.mpr inside)
    have out : ino ∉ (kept vs).map MDirectory.ino := fun inside => absent (((kept_sublist vs).map _).mem inside)
    have left := ordered.sublist (kept_sublist vs)
    rw [Op.spec]
    split
    · exact left.use (m := fresh ino) out (kept_length ordered.size)
    · exact left.cons out
  | remDir ino => exact ordered.sublist List.filter_sublist
  | addDirent ino name mdo dup inserted =>
    obtain ⟨m, member, rfl, found⟩ := find_of_mem (carries.mem_directories.mp allowed.1)
    rw [Op.spec, found]
    refine ordered.touch nodup member ?_
    split <;> rfl
  | getDirent ino name =>
    obtain ⟨m, member, rfl, found⟩ := find_of_mem (carries.mem_directories.mp allowed)
    rw [Op.spec, found]
    exact ordered.touch nodup member rfl
  | remDirent ino name =>
    obtain ⟨m, member, rfl, found⟩ := find_of_mem (carries.mem_directories.mp allowed)
    rw [Op.spec, found]
    exact ordered.touch nodup member rfl

theorem uses_cons (op : Op) (ops : List Op) : uses (op :: ops) = uses ops ++ op.uses.toList := by
  rw [uses, uses, List.filterMap_cons]
  cases op.uses with
  | none => exact (List.append_nil _).symm
  | some d => exact List.reverse_cons

theorem run_spec {ops : List Op} (carries : Carries c vs) (ordered : InOrder h vs) (allowed : Allowed c ops) :
    wp (run ops) (fun _ t => ∃ ws, Carries t ws ∧ InOrder (uses ops ++ h) ws) (fun _ _ => False) c := by
  induction ops generalizing c vs h with
  | nil => exact ⟨vs, carries, ordered⟩
  | cons op ops ih =>
    obtain ⟨now, later⟩ := allowed
    obtain ⟨_, t, done, after⟩ := ok_of_wp (Op.step_spec carries now)
    rw [done] at later
    rw [run, wp_bind, wp_ok done, uses_cons, List.append_assoc]
    exact ih after (Op.spec_inOrder carries ordered now) later

/-- The chain from `lru_oldest` through `lru_newer` has just the directories of the hash map, each once and under its
own number, ends at `lru_newest`, and each `lru_polder` is the link before. -/
def WellFormed (c : Cache) : Prop :=
  ∃ as, c.lru.Has as ∧ (∀ a, a ∈ as ↔ ∃ d, c.directories.lookup d = some a) ∧
    ∀ d a, c.directories.lookup d = some a → (c.lru.valueOf a).map MDirectory.ino = some d

theorem Represents.lookup_iff (rep : Represents c l) : c.directories.lookup ino = some a ↔ ∃ m, (a, m) ∈ l ∧ m.ino = ino := by
  rw [Finmap.lookup_eq_some_iff, rep.entries, Multiset.mem_coe, List.mem_map]
  constructor
  · rintro ⟨⟨b, m⟩, member, same⟩
    injection same with name addr
    exact ⟨m, addr ▸ member, name⟩
  · rintro ⟨m, member, rfl⟩
    exact ⟨(a, m), member, rfl⟩

theorem Carries.wellFormed (carries : Carries c vs) : WellFormed c := by
  obtain ⟨l, rep, -⟩ := carries
  refine ⟨_, rep.has, fun a => ?_, fun d a found => ?_⟩
  · constructor
    · intro inside
      obtain ⟨p, member, rfl⟩ := List.mem_map.mp inside
      exact ⟨p.2.ino, rep.lookup_iff.mpr ⟨p.2, member, rfl⟩⟩
    · rintro ⟨d, found⟩
      obtain ⟨m, member, -⟩ := rep.lookup_iff.mp found
      exact List.mem_map.mpr ⟨(a, m), member, rfl⟩
  · obtain ⟨m, member, rfl⟩ := rep.lookup_iff.mp found
    rw [rep.values _ member]
    rfl

theorem Carries.card (carries : Carries c vs) : c.directories.keys.card = vs.length := by
  obtain ⟨l, rep, rfl⟩ := carries
  rw [rep.card, List.length_map]

/-- An addition to a full cache drops the directory whose last use is the oldest. -/
theorem addDir_drops {mem : AddMem} (carries : Carries c vs) (ordered : InOrder h vs)
    (allowed : (Op.addDir ino mem).Allowed c) (full : c.directories.keys.card = nmdirsMax) :
    ∃ r t dropped, dcacheAddDir ino mem c = .ok r t ∧ dropped ∈ c.directories ∧
      (∀ d, d ∈ t.directories ↔ d ∈ c.directories ∧ d ≠ dropped ∨ d = ino ∧ mem.succeeds) ∧
      ∀ d ∈ c.directories, d ≠ dropped → h.idxOf d < h.idxOf dropped := by
  obtain ⟨l, rep, rfl⟩ := carries
  obtain ⟨r, t, done, after⟩ := ok_of_wp (addDir_spec rep allowed)
  have carries : Carries c (l.map Prod.snd) := ⟨l, rep, rfl⟩
  have length := carries.card
  rw [full] at length
  have nodup := carries.nodup
  have order := ordered.order
  have mem_directories : ∀ d, d ∈ c.directories ↔ d ∈ (l.map Prod.snd).map MDirectory.ino :=
    fun _ => carries.mem_directories
  revert length nodup order mem_directories after
  generalize l.map Prod.snd = vs
  intro after length nodup order mem_directories
  cases vs with
  | nil => exact absurd length (by decide)
  | cons m rest =>
    rw [List.map_cons, List.nodup_cons] at nodup
    refine ⟨r, t, m.ino, done, (mem_directories _).mpr List.mem_cons_self, fun d => ?_, fun d inside other => ?_⟩
    · have left : d ∈ rest.map MDirectory.ino ↔ d ∈ c.directories ∧ d ≠ m.ino := by
        rw [mem_directories, List.map_cons, List.mem_cons]
        constructor
        · intro inside
          exact ⟨Or.inr inside, fun same => nodup.1 (same ▸ inside)⟩
        · rintro ⟨first | inside, other⟩
          · exact absurd first other
          · exact inside
      rw [after.mem_directories, Op.spec, kept, if_pos length.symm, List.tail_cons, ← left]
      cases mem.succeeds with
      | true => simp [fresh]
      | false => simp
    · rw [mem_directories, List.map_cons, List.mem_cons] at inside
      exact (List.pairwise_cons.mp order).1 d (inside.resolve_left other)

end Order

instance (c : Cache) : (op : Op) → Decidable (op.Allowed c)
  | .addDir _ _ => inferInstanceAs (Decidable (_ ∧ ∀ mdir ∈ _, _ ∨ _ ∧ _))
  | .remDir ino => inferInstanceAs (Decidable (ino ∈ c.directories))
  | .addDirent _ _ _ _ _ => inferInstanceAs (Decidable (_ ∧ (_ → _)))
  | .getDirent ino _ => inferInstanceAs (Decidable (ino ∈ c.directories))
  | .remDirent ino _ => inferInstanceAs (Decidable (ino ∈ c.directories))

def decidableAllowed (c : Cache) : (ops : List Op) → Decidable (Allowed c ops)
  | [] => .isTrue trivial
  | op :: ops => @instDecidableAnd _ _ inferInstance (match op.step c with
      | .ok _ c' => decidableAllowed c' ops
      | .error _ _ => .isFalse id)

instance (c : Cache) (ops : List Op) : Decidable (Allowed c ops) := decidableAllowed c ops

/-- Two directories are added, the older one is used, and the other one gets and loses an entry. -/
def someCalls : List Op :=
  [.addDir 3 ⟨some 1, true, true⟩, .addDir 5 ⟨some 2, true, true⟩, .getDirent 3 [97],
    .addDirent 5 [97] ⟨0, 7, 16, 1⟩ true true, .remDirent 5 [97], .remDir 3]

end Bpfs.DirLru
