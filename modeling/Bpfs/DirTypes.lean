import Bpfs.DirRuns
import Bpfs.Lib.Links

/-! The type in an entry and the type of its inode. As long as no rename replaces an inode by one of another type, the
two agree; that an inode is not freed while an entry names it is what keeps them in agreement. -/

namespace Bpfs.Dir
open Lib Dcache

/-- The entry names the inode. -/
def Names (v : Volume) (M : Entries) (x : Nat × List UInt8) (i : Nat) : Prop :=
  x.1 ∈ v.dirs ∧ ∃ md, M x.1 x.2 = some md ∧ md.ino = i

/-- How many entries may name the inode: a directory one, another inode as many as it has links. -/
def limit (v : Volume) (i : Nat) : Nat := if (v.inodes i).isDir then 1 else (v.inodes i).nlinks

/-- The inodes that entries name are in use, as often as they may be, and have the type that the entry says. -/
structure Counted (v : Volume) (M : Entries) : Prop where
  used : ∀ x i, Names v M x i → i ∈ v.used
  bounded : Bounded (Names v M) (limit v)
  types : ∀ d ∈ v.dirs, ∀ n md, M d n = some md → f2bFiletype (v.inodes md.ino).mode = some md.fileType

section Steps

variable {M M' : Entries} {v w : Volume} {d i : Nat} {n : List UInt8}

theorem limit_congr (mode : (w.inodes i).mode = (v.inodes i).mode)
    (nlinks : (v.inodes i).isDir = false → (w.inodes i).nlinks = (v.inodes i).nlinks) : limit w i = limit v i := by
  rw [limit, limit, isDir_congr mode]
  split
  · rfl
  · exact nlinks (eq_false_of_ne_true ‹_›)

theorem counted_mkbpfs (b : Block) (others : Nat → Inode) : Counted (mkbpfs b others) (fun _ _ => none) where
  used := fun _ _ ⟨_, _, found, _⟩ => nomatch found
  bounded t s all := by
    rcases s.eq_empty_or_nonempty with rfl | ⟨x, inside⟩
    · exact Nat.zero_le _
    · obtain ⟨-, _, found, -⟩ := all x inside
      cases found
  types := fun _ _ _ _ found => nomatch found

theorem Counted.calm (counted : Counted v M) (calm : Calm v w) : Counted w M := by
  have dirs := dirs_congr calm.used calm.mode
  refine ⟨fun x i names => ?_, counted.bounded.mono (fun x i names => ?_) fun i => ?_, fun d dir n md found => ?_⟩
  · rw [Names, dirs] at names
    rw [calm.used]
    exact counted.used x i names
  · rw [Names, dirs] at names
    exact names
  · exact (limit_congr (calm.mode i) (calm.nlinks i)).ge
  · rw [calm.mode]
    exact counted.types d (dirs ▸ dir) n md found

theorem Released.dirs_subset (released : Released i v w) : w.dirs ⊆ v.dirs := by
  rw [released.dirs]
  split
  · exact Set.sdiff_subset
  · exact Set.Subset.refl _

theorem Released.limit_other {j : Nat} (released : Released i v w) (other : j ≠ i) : limit w j = limit v j :=
  limit_congr (released.mode j) (released.nlinks j other)

/-- An inode that was freed could have only one entry. -/
theorem Released.limit_here (released : Released i v w) :
    (w.used = v.used.erase i ∧ limit v i = 1) ∨ (w.used = v.used ∧ limit v i = limit w i + 1) := by
  rcases released.used with ⟨used, last⟩ | ⟨used, plain, less⟩
  · refine Or.inl ⟨used, ?_⟩
    rw [limit]
    split
    · rfl
    · exact last (eq_false_of_ne_true ‹_›)
  · refine Or.inr ⟨used, ?_⟩
    rw [limit, limit, isDir_congr (released.mode i), plain]
    exact less.symm

theorem set_none_some {d' : Nat} {n' : List UInt8} {md : MDirent} (found : M.set d n none d' n' = some md) :
    M d' n' = some md ∧ ¬(d' = d ∧ n' = n) := by
  have apart : ¬(d' = d ∧ n' = n) := by
    rintro ⟨rfl, rfl⟩
    rw [Entries.set_here, Function.update_self] at found
    cases found
  exact ⟨(Entries.set_apart apart).symm.trans found, apart⟩

/-- The step of an entry that is taken away. -/
theorem Counted.removed {md : MDirent} (counted : Counted v M) (dir : d ∈ v.dirs) (found : M d n = some md)
    (released : Released md.ino v w) : Counted w (M.set d n none) := by
  have here : Names v M (d, n) md.ino := ⟨dir, md, found, rfl⟩
  have fewer : ∀ x i, Names w (M.set d n none) x i → Names v M x i := by
    rintro x i ⟨dir, md, found, same⟩
    exact ⟨released.dirs_subset dir, md, (set_none_some found).1, same⟩
  have gone : ∀ i, ¬Names w (M.set d n none) (d, n) i := by
    rintro i ⟨-, md, found, -⟩
    exact (set_none_some found).2 ⟨rfl, rfl⟩
  refine ⟨fun x i names => ?_, ?_, fun d' dir' n' md' found' => ?_⟩
  · have before := counted.used x i (fewer x i names)
    rcases released.limit_here with ⟨used, one⟩ | ⟨used, -⟩
    · rw [used, Finset.mem_erase]
      refine ⟨?_, before⟩
      rintro rfl
      have same := counted.bounded.only here one.le (fewer x _ names)
      exact gone _ (same ▸ names)
    · rw [used]
      exact before
  · refine counted.bounded.remove here (gone _) fewer (fun i other => (released.limit_other other).ge) ?_
    rcases released.limit_here with ⟨-, one⟩ | ⟨-, less⟩ <;> omega
  · rw [released.mode]
    exact counted.types d' (released.dirs_subset dir') n' md' (set_none_some found').1

theorem set_some_some {d' : Nat} {n' : List UInt8} {md md' : MDirent} (found : M.set d n (some md) d' n' = some md') :
    (d' = d ∧ n' = n ∧ md' = md) ∨ M d' n' = some md' := by
  by_cases same : d' = d ∧ n' = n
  · obtain ⟨rfl, rfl⟩ := same
    rw [Entries.set_here, Function.update_self] at found
    exact Or.inl ⟨rfl, rfl, (Option.some.inj found).symm⟩
  · exact Or.inr ((Entries.set_apart same).symm.trans found)

/-- The step of an entry that moves to a free name. -/
theorem Counted.moved {d' : Nat} {n' : List UInt8} {src md : MDirent} (counted : Counted v M) (dir : d ∈ v.dirs)
    (source : M d n = some src) (absent : M d' n' = none) (ino : md.ino = src.ino)
    (type : f2bFiletype (v.inodes src.ino).mode = some md.fileType) :
    Counted v ((M.set d n none).set d' n' (some md)) := by
  have here : Names v M (d, n) src.ino := ⟨dir, src, source, rfl⟩
  have cases : ∀ x i, Names v ((M.set d n none).set d' n' (some md)) x i →
      (x = (d', n') ∧ i = src.ino) ∨ (Names v M x i ∧ x ≠ (d, n)) := by
    rintro ⟨e, k⟩ i ⟨inside, md', found, same⟩
    rcases set_some_some found with ⟨rfl, rfl, rfl⟩ | old
    · exact Or.inl ⟨rfl, same.symm.trans ino⟩
    · obtain ⟨old, apart⟩ := set_none_some old
      exact Or.inr ⟨⟨inside, md', old, same⟩, fun eq => apart (Prod.mk.inj eq)⟩
  have gone : ¬Names v ((M.set d n none).set d' n' (some md)) (d, n) src.ino := by
    intro names
    rcases cases _ _ names with ⟨same, -⟩ | ⟨-, apart⟩
    · obtain ⟨rfl, rfl⟩ := Prod.mk.inj same
      rw [source] at absent
      cases absent
    · exact apart rfl
  refine ⟨fun x i names => ?_, ?_, fun e inside k md' found => ?_⟩
  · rcases cases x i names with ⟨-, rfl⟩ | ⟨old, -⟩
    · exact counted.used _ _ here
    · exact counted.used x i old
  · refine counted.bounded.move (y := (d', n')) here gone (fun i names => ?_) fun x i apart names => ?_
    · rcases cases _ i names with ⟨-, same⟩ | ⟨⟨-, md', old, -⟩, -⟩
      · exact same
      · rw [absent] at old
        cases old
    · exact ((cases x i names).resolve_left fun same => apart same.1).1
  · rcases set_some_some found with ⟨-, -, rfl⟩ | old
    · rw [ino]
      exact type
    · exact counted.types e inside k md' (set_none_some old).1

/-- The step of a link. -/
theorem Counted.linked (counted : Counted v M) (dir : d ∈ v.dirs) (used : i ∈ v.used) (linked : Linked d n i v w M M') :
    Counted w M' := by
  obtain ⟨md, rfl, ino, type⟩ := linked.entry
  have dirs := dirs_congr linked.used linked.mode
  have cases : ∀ x j, Names w (M.set d n (some md)) x j → (x = (d, n) ∧ j = i) ∨ Names v M x j := by
    rintro ⟨e, k⟩ j ⟨inside, md', found, same⟩
    rcases set_some_some found with ⟨rfl, rfl, rfl⟩ | old
    · exact Or.inl ⟨rfl, same.symm.trans ino⟩
    · exact Or.inr ⟨dirs ▸ inside, md', old, same⟩
  refine ⟨fun x j names => ?_, ?_, fun e inside k md' found => ?_⟩
  · rw [linked.used]
    rcases cases x j names with ⟨-, rfl⟩ | old
    · exact used
    · exact counted.used x j old
  · have more : limit w i = limit v i + 1 := by
      rw [limit, limit, isDir_congr (linked.mode i), linked.plain]
      exact linked.linked
    refine counted.bounded.add (x := (d, n)) (t := i) (fun j names => ?_) (fun x j apart names => ?_) (fun j other => ?_)
      fun s all => ?_
    · rcases cases _ j names with ⟨-, same⟩ | ⟨-, md', old, -⟩
      · exact same
      · rw [linked.absent] at old
        cases old
    · exact (cases x j names).resolve_left fun same => apart same.1
    · exact (limit_congr (linked.mode j) fun _ => linked.nlinks j other).ge
    · rw [more]
      exact Nat.succ_le_succ (counted.bounded i s all)
  · rw [linked.mode]
    rcases set_some_some found with ⟨-, -, rfl⟩ | old
    · rw [ino]
      exact type
    · exact counted.types e (dirs ▸ inside) k md' old

/-- The step of a new file. -/
theorem Counted.created {ino : Nat} (counted : Counted v M) (dir : d ∈ v.dirs) (created : Created d n ino v w M M') :
    Counted w M' := by
  obtain ⟨md, rfl, number, type⟩ := created.entry
  have cases : ∀ e k md', e ∈ w.dirs → (M.clear ino).set d n (some md) e k = some md' →
      (e = d ∧ k = n ∧ md' = md) ∨ (e ∈ v.dirs ∧ M e k = some md' ∧ md'.ino ≠ ino) := by
    intro e k md' inside found
    refine (set_some_some found).imp_right fun old => ?_
    have other : e ≠ ino := by
      rintro rfl
      rw [Entries.clear, Function.update_self] at old
      cases old
    rw [Entries.clear, Function.update_of_ne other] at old
    obtain ⟨used, kind⟩ := inside
    rw [created.used] at used
    rw [isDir_congr (created.mode e other)] at kind
    have before : e ∈ v.dirs := ⟨(Finset.mem_insert.mp used).resolve_left other, kind⟩
    exact ⟨before, old, fun same => created.fresh (same ▸ counted.used (e, k) _ ⟨before, md', old, rfl⟩)⟩
  have names : ∀ x i, Names w ((M.clear ino).set d n (some md)) x i → (x = (d, n) ∧ i = ino) ∨ Names v M x i := by
    rintro ⟨e, k⟩ i ⟨inside, md', found, same⟩
    rcases cases e k md' inside found with ⟨rfl, rfl, rfl⟩ | ⟨before, old, -⟩
    · exact Or.inl ⟨rfl, same.symm.trans number⟩
    · exact Or.inr ⟨before, md', old, same⟩
  refine ⟨fun x i inside => ?_, ?_, fun e inside k md' found => ?_⟩
  · rw [created.used]
    rcases names x i inside with ⟨-, rfl⟩ | old
    · exact Finset.mem_insert_self ..
    · exact Finset.mem_insert_of_mem (counted.used x i old)
  · refine counted.bounded.add (x := (d, n)) (t := ino) (fun i inside => ?_) (fun x i apart inside => ?_)
      (fun i other => ?_) fun s all => ?_
    · rcases names _ i inside with ⟨-, same⟩ | ⟨-, md', old, -⟩
      · exact same
      · rw [created.absent] at old
        cases old
    · exact (names x i inside).resolve_left fun same => apart same.1
    · exact (limit_congr (created.mode i other) (created.nlinks i other)).ge
    · rcases s.eq_empty_or_nonempty with rfl | ⟨x, inside⟩
      · rw [limit]
        split
        · exact le_refl _
        · exact created.linked (eq_false_of_ne_true ‹_›)
      · exact absurd (counted.used x ino (all x inside)) created.fresh
  · rcases cases e k md' inside found with ⟨-, -, rfl⟩ | ⟨before, old, other⟩
    · rw [number]
      exact type
    · rw [created.mode _ other]
      exact counted.types e before k md' old

end Steps

/-- Every entry, in the blocks and in the cache, has the type of its inode. -/
def Typed (v : Volume) : Prop :=
  ∀ d ∈ v.dirs, (∀ p r, Live (v.inodes d).blocks p r → f2bFiletype (v.inodes r.ino).mode = some r.type) ∧
    ∀ m ∈ v.dcache, m.ino = d → ∀ n md, m.dirents n = some md → f2bFiletype (v.inodes md.ino).mode = some md.fileType

/-- The request does not replace an inode by one of another type. -/
def KeepsType (v : Volume) : Op → Prop
  | .rename srcParent srcName dstParent dstName _ => ∀ p r q s,
      Live (v.inodes srcParent).blocks p r → r.name = srcName.bytes →
      Live (v.inodes dstParent).blocks q s → s.name = dstName.bytes →
      f2bFiletype (v.inodes r.ino).mode = f2bFiletype (v.inodes s.ino).mode
  | _ => True

section Runs

variable {M M' : Entries} {v w : Volume} {op : Op}

theorem Counted.typed (counted : Counted v M) (rest : Rest v.dirs M v) : Typed v := by
  refine fun d dir => ⟨fun p r live => ?_, fun m member same n md found => ?_⟩
  · exact counted.types d dir r.name (mdirent p r) (((rest.lists d dir).entry _ _).mpr ⟨r, live, id, rfl, rfl⟩)
  · subst same
    obtain ⟨-, caches⟩ := rest.caches m member
    rw [caches.entries] at found
    exact counted.types _ dir n md found

/-- The types of the two entries of a rename. -/
theorem KeepsType.types {srcParent dstParent : Nat} {srcName dstName : Name} {fresh : Option Block} {src dst : MDirent}
    (keeps : KeepsType v (.rename srcParent srcName dstParent dstName fresh)) (rest : Rest v.dirs M v)
    (dirs : srcParent ∈ v.dirs ∧ dstParent ∈ v.dirs) (source : M srcParent srcName.bytes = some src)
    (target : M dstParent dstName.bytes = some dst) :
    f2bFiletype (v.inodes src.ino).mode = f2bFiletype (v.inodes dst.ino).mode := by
  obtain ⟨r, first, -, name, one⟩ := rest.record dirs.1 source
  obtain ⟨s, second, -, name', two⟩ := rest.record dirs.2 target
  have same := keeps _ r _ s first name second name'
  rwa [show r.ino = src.ino from (congrArg MDirent.ino one).symm,
    show s.ino = dst.ino from (congrArg MDirent.ino two).symm] at same

theorem Counted.step (counted : Counted v M) (rest : Rest v.dirs M v) (valid : op.Valid v) (effect : Effect v w M M' op)
    (keeps : KeepsType v op) : Counted w M' := by
  cases op with
  | lookup d name =>
    obtain ⟨rfl, stays⟩ := effect
    exact counted.calm stays.calm
  | drop ino =>
    obtain ⟨rfl, stays⟩ := effect
    exact counted.calm stays.calm
  | mknod d name mode ino fresh data => exact counted.created valid effect
  | mkdir d name mode ino fresh data => exact counted.created valid effect
  | symlink d name ino fresh data => exact counted.created valid effect
  | create d name mode ino fresh data => exact counted.created valid effect
  | link ino d name fresh => exact counted.linked valid.2 valid.1 effect
  | unlink d name =>
    obtain ⟨⟨md, found, released⟩, rfl⟩ := effect
    exact counted.removed valid found released
  | rmdir d name =>
    obtain ⟨⟨md, found, released⟩, rfl⟩ := effect
    exact counted.removed valid found released
  | rename srcParent srcName dstParent dstName fresh =>
    obtain ⟨distinct, dirs, src, md, source, ino, rfl, new | ⟨dst, found, type, released⟩⟩ := effect
    · obtain ⟨absent, type, calm⟩ := new
      rw [Entries.set_same absent]
      refine (counted.calm calm).moved dirs.1 source absent ino ?_
      rw [type, calm.mode]
      exact counted.types _ valid.1 _ _ source
    · have source' : M.set dstParent dstName.bytes none srcParent srcName.bytes = some src :=
        (Entries.set_apart distinct).trans source
      refine (counted.removed valid.2 found released).moved dirs.1 source' ?_ ino ?_
      · rw [Entries.set_here, Function.update_self]
      · rw [released.mode, type, keeps.types rest valid source found]
        exact counted.types _ valid.2 _ _ found

theorem Reaches.counted (reaches : Reaches KeepsType v) : ∃ M, Rest v.dirs M v ∧ Counted v M := by
  induction reaches with
  | start b others => exact ⟨_, mkbpfs_rest b others, counted_mkbpfs b others⟩
  | step _ valid keeps run ih =>
    obtain ⟨M, rest, counted⟩ := ih
    obtain ⟨M', rest', effect⟩ := step_rest rest valid run
    exact ⟨M', rest', counted.step rest valid effect keeps⟩

/-- The types agree as long as no rename replaces an inode by one of another type, and no longer. -/
theorem types_match_iff (reaches : Reaches KeepsType v) :
    Typed v ∧ ∀ op w, op.Valid v → perform op v = .ok ⟨⟩ w → (Typed w ↔ KeepsType v op) := by
  obtain ⟨M, rest, counted⟩ := reaches.counted
  refine ⟨counted.typed rest, fun op w valid run => ?_⟩
  obtain ⟨M', rest', effect⟩ := step_rest rest valid run
  refine ⟨fun typed => ?_, fun keeps => (counted.step rest valid effect keeps).typed rest'⟩
  cases op with
  | rename srcParent srcName dstParent dstName fresh =>
    intro p r q s first name second name'
    have one := ((rest.lists _ valid.1).entry _ (mdirent p r)).mpr ⟨r, first, id, name, rfl⟩
    have two := ((rest.lists _ valid.2).entry _ (mdirent q s)).mpr ⟨s, second, id, name', rfl⟩
    obtain ⟨-, dirs, src, md, source, ino, rfl, ⟨absent, -⟩ | ⟨dst, found, type, released⟩⟩ := effect
    · rw [two] at absent
      cases absent
    obtain rfl := Option.some.inj (one.symm.trans source)
    obtain rfl := Option.some.inj (two.symm.trans found)
    obtain ⟨r', live, -, -, entry⟩ := rest'.record dirs.2
      (show Entries.set _ _ _ (some md) dstParent dstName.bytes = some md by rw [Entries.set_here, Function.update_self])
    -- the new entry has the inode of the one and the type of the other
    have new := (typed dstParent dirs.2).1 _ r' live
    rw [show r'.ino = r.ino from (congrArg MDirent.ino entry).symm.trans ino,
      show r'.type = s.type from (congrArg MDirent.fileType entry).symm.trans type, released.mode] at new
    exact new.trans (counted.types _ valid.2 _ _ two).symm
  | _ => trivial

theorem types_match_iff_oneFile : Typed oneFile ∧ ∀ op w, op.Valid oneFile → perform op oneFile = .ok ⟨⟩ w →
    (Typed w ↔ KeepsType oneFile op) :=
  types_match_iff (reaches_oneFile _ trivial)

/-- The root directory has the regular file `a` and the symbolic link `b`. -/
def fileAndLink : Volume := outcome (perform (.symlink inoRoot nameB 3 none (some fun _ => 0)) oneFile)

/-- The file has been renamed to `b`. -/
def mistyped : Volume := outcome (perform (.rename inoRoot nameA inoRoot nameB none) fileAndLink)

/-- The entry of a regular file says that it is a symbolic link. -/
theorem rename_mistypes : Reaches (fun _ _ => True) mistyped ∧ ¬Typed mistyped := by
  have run₁ : perform (.symlink inoRoot nameB 3 none (some fun _ => 0)) oneFile = .ok ⟨⟩ fileAndLink :=
    eq_ok (by decide +kernel)
  have run₂ : perform (.rename inoRoot nameA inoRoot nameB none) fileAndLink = .ok ⟨⟩ mistyped := eq_ok (by decide +kernel)
  have valid₁ : Op.Valid oneFile (.symlink inoRoot nameB 3 none (some fun _ => 0)) := root_oneFile
  have root : inoRoot ∈ fileAndLink.dirs := ⟨by decide +kernel, by decide +kernel⟩
  have valid₂ : Op.Valid fileAndLink (.rename inoRoot nameA inoRoot nameB none) := ⟨root, root⟩
  refine ⟨((reaches_oneFile _ trivial).step valid₁ trivial run₁).step valid₂ trivial run₂, fun typed => ?_⟩
  have entry : ((mistyped.inodes inoRoot).blocks[0]?).map (fun b => decide ((16, ⟨16, 2, typeSymlink, 2, [98]⟩) ∈ b.recs)) =
      some true := by decide +kernel
  obtain ⟨b, here, member⟩ := Option.map_eq_some_iff.mp entry
  have live : Live (mistyped.inodes inoRoot).blocks 16 ⟨16, 2, typeSymlink, 2, [98]⟩ :=
    ⟨⟨b, here, of_decide_eq_true member⟩, by decide⟩
  have kind : f2bFiletype (mistyped.inodes 2).mode = some typeFile := by decide +kernel
  have wrong := (typed inoRoot ⟨by decide +kernel, by decide +kernel⟩).1 16 _ live
  rw [kind] at wrong
  exact absurd wrong (by decide)

end Runs

end Bpfs.Dir
