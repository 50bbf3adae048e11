import Mathlib.Algebra.Ring.Nat
import Mathlib.Data.Nat.Basic

/-! The two copies of the superblock in the MODE_SP build. A commit copies the staged superblock
over the first copy and then over the second, word by word; a mount picks a copy whose two
address fields agree. -/

namespace Bpfs
namespace Sp

/-- A superblock, as its 512 words. -/
abbrev Super := Nat → Nat

def superWords : Nat := 512
def fsMagic : Nat := 0xB9F5
def structVersion : Nat := 7
def commitSp : Nat := 0
def commitScsp : Nat := 1

namespace Super

def magic (s : Super) : Nat := s 0 % 2 ^ 32
def inodeRootAddr (s : Super) : Nat := s 4
def inodeRootAddr2 (s : Super) : Nat := s 5
def commitMode (s : Super) : Nat := s 6 % 256

def setWord (s : Super) (i v : Nat) : Super := fun k => if k = i then v else s k

def setInodeRootAddr (s : Super) (addr : Nat) : Super := s.setWord 4 addr
def setInodeRootAddr2 (s : Super) (addr : Nat) : Super := s.setWord 5 addr
def setCommitMode (s : Super) (mode : Nat) : Super := s.setWord 6 (s 6 / 256 * 256 + mode)
def setEphemeralValid (s : Super) (valid : Nat) : Super := s.setWord 6 (s 6 / 2 ^ 16 * 2 ^ 16 + 256 * valid + s 6 % 256)

/-- The two address fields agree. -/
def Consistent (s : Super) : Prop := s.inodeRootAddr = s.inodeRootAddr2

instance (s : Super) : Decidable s.Consistent := by unfold Consistent; infer_instance

/-- `memcmp` of two superblocks finds no difference. -/
def Same (s t : Super) : Prop := ∀ i, i < superWords → s i = t i

instance (s t : Super) : Decidable (s.Same t) := by unfold Same; infer_instance

/-- The copy `dst` after the first `k` word stores of a `memcpy` from `src`. -/
def copied (dst src : Super) (k : Nat) : Super := fun i => if i < k then src i else dst i

/-- The superblock that `mkbpfs` writes. -/
def made (uuid0 uuid1 nblocks : Nat) : Super := fun i =>
  if i = 0 then fsMagic + 2 ^ 32 * structVersion
  else if i = 1 then uuid0
  else if i = 2 then uuid1
  else if i = 3 then nblocks
  else if i = 4 ∨ i = 5 then 3
  else if i = 6 then commitScsp + 256
  else 0

end Super

/-- `recover_superblock`: the return code and the two copies afterwards. -/
def recoverSuperblock (super super2 : Super) : Int × Super × Super :=
  if super.commitMode ≠ super2.commitMode then (-1, super, super2)
  else if super.commitMode = commitScsp then (0, super, super2)
  else if super.commitMode ≠ commitSp then (-1, super, super2)
  else if super2.magic ≠ fsMagic then (-1, super, super2)
  else if super.Consistent then
    if ¬super2.Consistent then (0, super, super) else (0, super, super2)
  else if super2.Consistent then (0, super2, super2)
  else (-2, super, super2)

/-- The NVM copies, the staged superblock of a mounted file system, and what has been committed. -/
structure Machine where
  super : Super
  super2 : Super
  staged : Option Super
  firstRun : Bool
  /-- the root last committed, or picked by the last mount -/
  current : Nat
  /-- the root of the commit that the last crash cut short -/
  interrupted : Option Nat

inductive Step where
  | mount
  /-- build a new inode root, and set `ephemeral_valid` -/
  | build (root valid : Nat)
  | persist
  /-- a crash after the first `k` word stores of `persist_superblock` -/
  | crash (k : Nat)
  deriving DecidableEq

/-- What `main` does with the superblocks. -/
def Machine.mount (m : Machine) : Machine :=
  let recovered := recoverSuperblock m.super m.super2
  if recovered.1 ≠ 0 then m
  else
    let super := recovered.2.1.setCommitMode commitSp
    { m with
      super := super, super2 := recovered.2.2.setCommitMode commitSp, staged := some super, firstRun := true
      current := super.inodeRootAddr, interrupted := none }

/-- The staged superblock as `persist_superblock` copies it. -/
def toPersist (staged : Super) : Super := staged.setInodeRootAddr2 staged.inodeRootAddr

/-- One step; a step that does not fit the state changes nothing. A failed assertion of
`persist_superblock` ends the process before it stores anything. -/
def Machine.step (m : Machine) : Step → Machine
  | .mount => if m.staged.isSome then m else m.mount
  | .build root valid =>
      { m with staged := m.staged.map fun staged => (staged.setInodeRootAddr root).setEphemeralValid valid }
  | .persist =>
      match m.staged with
      | none => m
      | some staged =>
          if m.super.Same staged then m
          else if m.firstRun ∨ m.super.Same m.super2 then
            { m with
              super := m.super.copied (toPersist staged) superWords
              super2 := m.super2.copied (toPersist staged) superWords
              staged := some (toPersist staged), firstRun := false, current := staged.inodeRootAddr }
          else { m with staged := none }
  | .crash k =>
      match m.staged with
      | none => m
      | some staged =>
          if m.super.Same staged then { m with staged := none }
          else if m.firstRun ∨ m.super.Same m.super2 then
            { m with
              super := m.super.copied (toPersist staged) (min k superWords)
              super2 := m.super2.copied (toPersist staged) (min (k - superWords) superWords)
              staged := none, interrupted := some staged.inodeRootAddr }
          else { m with staged := none }

def Machine.run (m : Machine) (steps : List Step) : Machine := steps.foldl Machine.step m

/-- A machine whose file system has just been made. -/
def Machine.made (uuid0 uuid1 nblocks : Nat) : Machine :=
  ⟨Super.made uuid0 uuid1 nblocks, Super.made uuid0 uuid1 nblocks, none, true, 3, none⟩

/-- The next mount succeeds and picks the root last committed or the one whose commit was cut short. -/
def Machine.Recovers (m : Machine) : Prop :=
  (recoverSuperblock m.super m.super2).1 = 0 ∧
    ((recoverSuperblock m.super m.super2).2.1.inodeRootAddr = m.current ∨
      some (recoverSuperblock m.super m.super2).2.1.inodeRootAddr = m.interrupted)

/-- The crash does not fall between the stores of the first copy's second address field and the
second copy's first one, or the commit leaves the address as it is. -/
def Step.Safe (m : Machine) : Step → Prop
  | .crash k => k < 6 ∨ 516 < k ∨ ∀ staged, m.staged = some staged → staged.inodeRootAddr = m.super.inodeRootAddr
  | _ => True

def SafeRun (m : Machine) : List Step → Prop
  | [] => True
  | step :: steps => step.Safe m ∧ SafeRun (m.step step) steps

/-! ### Fields of changed superblocks -/

namespace Super

variable (s dst src : Super) (k : Nat)

@[simp] theorem magic_copied : (dst.copied src k).magic = if 0 < k then src.magic else dst.magic :=
  apply_ite (· % 2 ^ 32) _ _ _

@[simp] theorem inodeRootAddr_copied :
    (dst.copied src k).inodeRootAddr = if 4 < k then src.inodeRootAddr else dst.inodeRootAddr := rfl

@[simp] theorem inodeRootAddr2_copied :
    (dst.copied src k).inodeRootAddr2 = if 5 < k then src.inodeRootAddr2 else dst.inodeRootAddr2 := rfl

@[simp] theorem commitMode_copied : (dst.copied src k).commitMode = if 6 < k then src.commitMode else dst.commitMode :=
  apply_ite (· % 256) _ _ _

@[simp] theorem magic_setCommitMode (mode : Nat) : (s.setCommitMode mode).magic = s.magic := rfl
@[simp] theorem inodeRootAddr_setCommitMode (mode : Nat) : (s.setCommitMode mode).inodeRootAddr = s.inodeRootAddr := rfl
@[simp] theorem inodeRootAddr2_setCommitMode (mode : Nat) : (s.setCommitMode mode).inodeRootAddr2 = s.inodeRootAddr2 := rfl

@[simp] theorem commitMode_setCommitMode : (s.setCommitMode commitSp).commitMode = commitSp := by
  change (s 6 / 256 * 256 + 0) % 256 = 0
  omega

@[simp] theorem magic_build (root valid : Nat) :
    ((s.setInodeRootAddr root).setEphemeralValid valid).magic = s.magic := rfl

@[simp] theorem commitMode_build (root valid : Nat) :
    ((s.setInodeRootAddr root).setEphemeralValid valid).commitMode = s.commitMode := by
  change (s 6 / 2 ^ 16 * 2 ^ 16 + 256 * valid + s 6 % 256) % 256 = s 6 % 256
  omega

@[simp] theorem magic_toPersist : (toPersist s).magic = s.magic := rfl
@[simp] theorem commitMode_toPersist : (toPersist s).commitMode = s.commitMode := rfl
@[simp] theorem inodeRootAddr_toPersist : (toPersist s).inodeRootAddr = s.inodeRootAddr := rfl
@[simp] theorem inodeRootAddr2_toPersist : (toPersist s).inodeRootAddr2 = s.inodeRootAddr := rfl

end Super

/-! ### The invariant -/

/-- Both copies have the current root in both fields. -/
structure Agree (m : Machine) : Prop where
  root : m.super.inodeRootAddr = m.current
  root2 : m.super.inodeRootAddr2 = m.current
  copy : m.super2.inodeRootAddr = m.current
  copy2 : m.super2.inodeRootAddr2 = m.current

/-- A root that a mount may pick. -/
def Machine.Allows (m : Machine) (root : Nat) : Prop := root = m.current ∨ some root = m.interrupted

/-- A mount finds one copy that it may pick, and nothing else. -/
def Repairable (m : Machine) : Prop :=
  (m.super.Consistent ∧ m.Allows m.super.inodeRootAddr ∧
    (¬m.super2.Consistent ∨ m.super2.inodeRootAddr = m.super.inodeRootAddr)) ∨
  (¬m.super.Consistent ∧ m.super2.Consistent ∧ m.Allows m.super2.inodeRootAddr)

structure Inv (m : Machine) : Prop where
  magic : m.super.magic = fsMagic ∧ m.super2.magic = fsMagic
  same : m.super.commitMode = m.super2.commitMode
  mode : m.super.commitMode = commitSp ∨ (m.super.commitMode = commitScsp ∧ m.staged = none ∧ Agree m)
  staged : ∀ staged, m.staged = some staged → staged.magic = fsMagic ∧ staged.commitMode = commitSp ∧ Agree m
  rest : m.staged = none → Repairable m

theorem Agree.repairable {m : Machine} (agree : Agree m) : Repairable m :=
  Or.inl ⟨agree.root.trans agree.root2.symm, Or.inl agree.root, Or.inr (agree.copy.trans agree.root.symm)⟩

theorem Inv.repairable {m : Machine} (inv : Inv m) : Repairable m := by
  cases here : m.staged with
  | none => exact inv.rest here
  | some staged => exact (inv.staged staged here).2.2.repairable

/-- What a mount makes of the two copies. -/
theorem Inv.recover {m : Machine} (inv : Inv m) : ∃ super super2, recoverSuperblock m.super m.super2 = (0, super, super2) ∧
    super.magic = fsMagic ∧ super2.magic = fsMagic ∧ m.Allows super.inodeRootAddr ∧
    super.inodeRootAddr2 = super.inodeRootAddr ∧ super2.inodeRootAddr = super.inodeRootAddr ∧
    super2.inodeRootAddr2 = super.inodeRootAddr := by
  unfold recoverSuperblock
  rw [if_neg (not_not.mpr inv.same)]
  by_cases scsp : m.super.commitMode = commitScsp
  · obtain ⟨-, -, agree⟩ : m.super.commitMode = commitScsp ∧ m.staged = none ∧ Agree m := by
      rcases inv.mode with sp | fresh
      · rw [sp] at scsp
        exact absurd scsp (by decide)
      · exact fresh
    rw [if_pos scsp]
    exact ⟨_, _, rfl, inv.magic.1, inv.magic.2, Or.inl agree.root, agree.root2.trans agree.root.symm,
      agree.copy.trans agree.root.symm, agree.copy2.trans agree.root.symm⟩
  have sp : m.super.commitMode = commitSp := inv.mode.resolve_right (fun fresh => scsp fresh.1)
  rw [if_neg scsp, if_neg (not_not.mpr sp), if_neg (not_not.mpr inv.magic.2)]
  rcases inv.repairable with ⟨right, allowed, other⟩ | ⟨wrong, right, allowed⟩
  · rw [if_pos right]
    by_cases right2 : m.super2.Consistent
    · rw [if_neg (not_not.mpr right2)]
      have same := other.resolve_left (not_not.mpr right2)
      exact ⟨_, _, rfl, inv.magic.1, inv.magic.2, allowed, right.symm, same, right2.symm.trans same⟩
    · rw [if_pos right2]
      exact ⟨_, _, rfl, inv.magic.1, inv.magic.1, allowed, right.symm, rfl, right.symm⟩
  · rw [if_neg wrong, if_pos right]
    exact ⟨_, _, rfl, inv.magic.2, inv.magic.2, allowed, right.symm, rfl, right.symm⟩

theorem Inv.recovers {m : Machine} (inv : Inv m) : m.Recovers := by
  obtain ⟨super, super2, recovered, -, -, allowed, -⟩ := inv.recover
  unfold Machine.Recovers
  rw [recovered]
  exact ⟨rfl, allowed⟩

theorem inv_made (uuid0 uuid1 nblocks : Nat) : Inv (Machine.made uuid0 uuid1 nblocks) := by
  have agree : Agree (Machine.made uuid0 uuid1 nblocks) := ⟨rfl, rfl, rfl, rfl⟩
  have mode : (Machine.made uuid0 uuid1 nblocks).super.commitMode = commitScsp := by
    simp [Machine.made, Super.commitMode, Super.made, commitScsp]
  have magic : (Machine.made uuid0 uuid1 nblocks).super.magic = fsMagic := by
    simp [Machine.made, Super.magic, Super.made, fsMagic, structVersion]
  exact ⟨⟨magic, magic⟩, rfl, Or.inr ⟨mode, rfl, agree⟩, fun _ none => (Option.some_ne_none _ none.symm).elim,
    fun _ => agree.repairable⟩

theorem Inv.mount {m : Machine} (inv : Inv m) : Inv m.mount ∧ Agree m.mount := by
  obtain ⟨super, super2, recovered, magic, magic2, allowed, root2, copy, copy2⟩ := inv.recover
  have mounted : m.mount = { m with
      super := super.setCommitMode commitSp, super2 := super2.setCommitMode commitSp
      staged := some (super.setCommitMode commitSp), firstRun := true
      current := super.inodeRootAddr, interrupted := none } := by
    unfold Machine.mount
    rw [recovered]
    rfl
  rw [mounted]
  have agree : Agree { m with
      super := super.setCommitMode commitSp, super2 := super2.setCommitMode commitSp
      staged := some (super.setCommitMode commitSp), firstRun := true
      current := super.inodeRootAddr, interrupted := none } := ⟨rfl, root2, copy, copy2⟩
  refine ⟨⟨⟨magic, magic2⟩, by simp, Or.inl (by simp), ?_, fun none => (Option.some_ne_none _ none).elim⟩, agree⟩
  intro staged here
  obtain rfl := Option.some.inj here
  exact ⟨magic, by simp, agree⟩

/-- The staged superblock and the mode of a mounted machine. -/
theorem Inv.mounted {m : Machine} {staged : Super} (inv : Inv m) (here : m.staged = some staged) :
    staged.magic = fsMagic ∧ staged.commitMode = commitSp ∧ Agree m ∧ m.super.commitMode = commitSp := by
  obtain ⟨magic, mode, agree⟩ := inv.staged staged here
  refine ⟨magic, mode, agree, inv.mode.resolve_right (fun fresh => ?_)⟩
  rw [here] at fresh
  exact Option.some_ne_none _ fresh.2.1

theorem Inv.unmounted {m : Machine} (inv : Inv m) : Inv { m with staged := none } := by
  refine ⟨inv.magic, inv.same, ?_, fun _ none => (Option.some_ne_none _ none.symm).elim, fun _ => inv.repairable⟩
  rcases inv.mode with sp | ⟨scsp, -, agree⟩
  · exact Or.inl sp
  · exact Or.inr ⟨scsp, rfl, agree.root, agree.root2, agree.copy, agree.copy2⟩

theorem Inv.build {m : Machine} (inv : Inv m) (root valid : Nat) : Inv (m.step (.build root valid)) := by
  refine ⟨inv.magic, inv.same, ?_, ?_, ?_⟩
  · rcases inv.mode with sp | ⟨scsp, none, agree⟩
    · exact Or.inl sp
    · refine Or.inr ⟨scsp, ?_, agree.root, agree.root2, agree.copy, agree.copy2⟩
      simp only [Machine.step, none, Option.map_none]
  · intro staged here
    obtain ⟨before, there, rfl⟩ := Option.map_eq_some_iff.mp here
    obtain ⟨magic, mode, agree⟩ := inv.staged before there
    exact ⟨by simpa using magic, by simpa using mode, agree.root, agree.root2, agree.copy, agree.copy2⟩
  · exact fun none => inv.rest (Option.map_eq_none_iff.mp none)

/-- The copies a whole or partial `persist_superblock` leaves. -/
theorem Inv.copies {m : Machine} {staged : Super} (inv : Inv m) (here : m.staged = some staged) (j k : Nat) :
    ((m.super.copied (toPersist staged) j).magic = fsMagic ∧ (m.super2.copied (toPersist staged) k).magic = fsMagic) ∧
      (m.super.copied (toPersist staged) j).commitMode = commitSp ∧
      (m.super2.copied (toPersist staged) k).commitMode = commitSp := by
  obtain ⟨magic, mode, -, sp⟩ := inv.mounted here
  simp only [Super.magic_copied, Super.commitMode_copied, Super.magic_toPersist, Super.commitMode_toPersist, magic, mode,
    inv.magic.1, inv.magic.2, ← inv.same, sp, ite_self, and_self]

theorem Inv.persist {m : Machine} (inv : Inv m) : Inv (m.step .persist) := by
  simp only [Machine.step]
  cases here : m.staged with
  | none => exact inv
  | some staged =>
    dsimp only
    split
    · exact inv
    split
    · obtain ⟨magic, mode, -, -⟩ := inv.mounted here
      obtain ⟨magics, sp, sp2⟩ := inv.copies here superWords superWords
      refine ⟨magics, sp.trans sp2.symm, Or.inl sp, ?_, fun none => (Option.some_ne_none _ none).elim⟩
      intro after same
      obtain rfl := Option.some.inj same
      exact ⟨magic, mode, rfl, rfl, rfl, rfl⟩
    · exact inv.unmounted

theorem inv_at_rest {super super2 : Super} {firstRun : Bool} {current : Nat} {interrupted : Option Nat}
    (magic : super.magic = fsMagic ∧ super2.magic = fsMagic)
    (mode : super.commitMode = commitSp ∧ super2.commitMode = commitSp)
    (repairable : Repairable ⟨super, super2, none, firstRun, current, interrupted⟩) :
    Inv ⟨super, super2, none, firstRun, current, interrupted⟩ :=
  ⟨magic, mode.1.trans mode.2.symm, Or.inl mode.1, fun _ none => (Option.some_ne_none _ none.symm).elim,
    fun _ => repairable⟩

/-- The fields of the two copies after `k` word stores. -/
theorem repairable_cut {m : Machine} {staged : Super} {k : Nat} (agree : Agree m)
    (safe : k < 6 ∨ 516 < k ∨ staged.inodeRootAddr = m.current) :
    Repairable { m with
      super := m.super.copied (toPersist staged) (min k superWords)
      super2 := m.super2.copied (toPersist staged) (min (k - superWords) superWords)
      staged := none, interrupted := some staged.inodeRootAddr } := by
  simp only [Repairable, Super.Consistent, Machine.Allows, Super.inodeRootAddr_copied, Super.inodeRootAddr2_copied,
    Super.inodeRootAddr_toPersist, Super.inodeRootAddr2_toPersist, agree.root, agree.root2, agree.copy, agree.copy2,
    Option.some.injEq]
  by_cases same : staged.inodeRootAddr = m.current
  · simp only [same, ite_self, or_self, and_self, or_true, true_or]
  rcases safe with early | late | new
  · have two : ¬4 < min (k - superWords) superWords ∧ ¬5 < min (k - superWords) superWords := by
      unfold superWords
      omega
    have second : ¬5 < min k superWords := by unfold superWords; omega
    simp only [two.1, two.2, second, if_false]
    by_cases first : 4 < min k superWords
    · simp only [first, if_true, same, false_and, not_false_eq_true, true_or, and_self, or_true]
    · simp only [first, if_false, true_or, and_self, or_true]
  · have one : 4 < min k superWords ∧ 5 < min k superWords := by
      unfold superWords
      omega
    have two : 4 < min (k - superWords) superWords := by unfold superWords; omega
    simp only [one.1, one.2, two, if_true, or_true, and_self, true_or]
  · exact absurd new same

/-- A crash outside the window leaves something that a mount repairs. -/
theorem Inv.crash {m : Machine} {k : Nat} (inv : Inv m) (safe : (Step.crash k).Safe m) : Inv (m.step (.crash k)) := by
  simp only [Machine.step]
  cases here : m.staged with
  | none => exact inv
  | some staged =>
    dsimp only
    split
    · exact inv.unmounted
    split
    · obtain ⟨-, -, agree, -⟩ := inv.mounted here
      obtain ⟨magics, sp, sp2⟩ := inv.copies here (min k superWords) (min (k - superWords) superWords)
      exact inv_at_rest magics ⟨sp, sp2⟩ <| repairable_cut agree (by simpa only [Step.Safe, here, Option.some.injEq, forall_eq', agree.root] using safe)
    · exact inv.unmounted

theorem Inv.step {m : Machine} {step : Step} (inv : Inv m) (safe : step.Safe m) : Inv (m.step step) := by
  cases step with
  | mount =>
    simp only [Machine.step]
    split
    · exact inv
    · exact inv.mount.1
  | build root valid => exact inv.build root valid
  | persist => exact inv.persist
  | crash k => exact inv.crash safe

theorem Inv.run {m : Machine} {steps : List Step} (inv : Inv m) (safe : SafeRun m steps) : Inv (m.run steps) := by
  induction steps generalizing m with
  | nil => exact inv
  | cons step steps ih => exact ih (inv.step safe.1) safe.2

/-- A crash in the window leaves two whole copies with different roots, and a mount repairs nothing. -/
theorem not_agree_of_unsafe {m : Machine} {staged : Super} {k : Nat} (inv : Inv m) (here : m.staged = some staged)
    (differs : ¬m.super.Same staged) (runs : m.firstRun ∨ m.super.Same m.super2) (late : 6 ≤ k) (early : k ≤ 516)
    (new : staged.inodeRootAddr ≠ m.current) : ¬Agree ((m.step (.crash k)).step .mount) := by
  obtain ⟨-, -, agree, -⟩ := inv.mounted here
  obtain ⟨⟨-, magic⟩, sp, sp2⟩ := inv.copies here (min k superWords) (min (k - superWords) superWords)
  have one : 4 < min k superWords ∧ 5 < min k superWords := by
    unfold superWords
    omega
  have two : ¬4 < min (k - superWords) superWords ∧ ¬5 < min (k - superWords) superWords := by
    unfold superWords
    omega
  have crashed : m.step (.crash k) = { m with
      super := m.super.copied (toPersist staged) (min k superWords)
      super2 := m.super2.copied (toPersist staged) (min (k - superWords) superWords)
      staged := none, interrupted := some staged.inodeRootAddr } := by
    simp only [Machine.step, here, if_neg differs, if_pos runs]
  have recovered : recoverSuperblock (m.super.copied (toPersist staged) (min k superWords))
      (m.super2.copied (toPersist staged) (min (k - superWords) superWords)) =
      (0, m.super.copied (toPersist staged) (min k superWords),
        m.super2.copied (toPersist staged) (min (k - superWords) superWords)) := by
    have consistent : (m.super.copied (toPersist staged) (min k superWords)).Consistent := by
      simp only [Super.Consistent, Super.inodeRootAddr_copied, Super.inodeRootAddr2_copied, one.1, one.2, if_true,
        Super.inodeRootAddr_toPersist, Super.inodeRootAddr2_toPersist]
    have consistent2 : (m.super2.copied (toPersist staged) (min (k - superWords) superWords)).Consistent := by
      simp only [Super.Consistent, Super.inodeRootAddr_copied, Super.inodeRootAddr2_copied, two.1, two.2, if_false,
        agree.copy, agree.copy2]
    unfold recoverSuperblock
    rw [if_neg (not_not.mpr (sp.trans sp2.symm)), sp, if_neg (by decide), if_neg (not_not.mpr rfl),
      if_neg (not_not.mpr magic), if_pos consistent, if_neg (not_not.mpr consistent2)]
  intro after
  have root := after.root
  have copy := after.copy
  rw [crashed] at root copy
  simp only [Machine.step, Option.isSome_none, Bool.false_eq_true, if_false, Machine.mount, recovered, ne_eq, not_true,
    Super.inodeRootAddr_setCommitMode, Super.inodeRootAddr_copied, one.1, two.1, if_true, Super.inodeRootAddr_toPersist]
    at root copy
  exact new (copy.symm.trans agree.copy)

/-- Every mount after a run without a crash in the window picks the root last committed or the one
being committed; and a crash leaves copies that a mount brings back in line exactly when it is not in
the window. -/
theorem superblock_recovery {uuid0 uuid1 nblocks : Nat} {steps : List Step}
    (safe : SafeRun (Machine.made uuid0 uuid1 nblocks) steps) :
    ((Machine.made uuid0 uuid1 nblocks).run steps).Recovers ∧
    ∀ m staged k, m = (Machine.made uuid0 uuid1 nblocks).run steps → m.staged = some staged → ¬m.super.Same staged →
      (m.firstRun ∨ m.super.Same m.super2) → (Agree ((m.step (.crash k)).step .mount) ↔ (Step.crash k).Safe m) := by
  have inv := (inv_made uuid0 uuid1 nblocks).run safe
  refine ⟨inv.recovers, ?_⟩
  rintro m staged k rfl here differs runs
  constructor
  · intro agree
    by_contra wrong
    simp only [Step.Safe, here, Option.some.injEq, forall_eq', not_or, Nat.not_lt] at wrong
    rw [(inv.mounted here).2.2.1.root] at wrong
    exact not_agree_of_unsafe inv here differs runs wrong.1 wrong.2.1 wrong.2.2 agree
  · intro fine
    have crashed := inv.crash fine
    have rest : (((Machine.made uuid0 uuid1 nblocks).run steps).step (.crash k)).staged = none := by
      simp only [Machine.step, here, if_neg differs, if_pos runs]
    rw [Machine.step, rest]
    exact crashed.mount.2

theorem superblock_recovery_early :
    SafeRun (Machine.made 0 0 64) [.mount, .build 10 1, .crash 5] ∧
      ((Machine.made 0 0 64).run [.mount, .build 10 1, .crash 5]).Recovers := by
  have safe : SafeRun (Machine.made 0 0 64) [.mount, .build 10 1, .crash 5] :=
    ⟨trivial, trivial, Or.inl (by decide), trivial⟩
  exact ⟨safe, (superblock_recovery safe).1⟩

/-- The commit of root 10 is cut short after the first copy, and the one of root 20 in the middle of
the first copy: the second mount goes back to root 3. -/
def twoCrashes : Machine :=
  (Machine.made 0 0 64).run [.mount, .build 10 1, .crash 6, .mount, .build 20 1, .crash 5]

theorem superblock_recovery_stale : twoCrashes.current = 10 ∧ twoCrashes.interrupted = some 20 ∧
    (recoverSuperblock twoCrashes.super twoCrashes.super2).1 = 0 ∧
    (recoverSuperblock twoCrashes.super twoCrashes.super2).2.1.inodeRootAddr = 3 := by decide +kernel

end Sp
end Bpfs
