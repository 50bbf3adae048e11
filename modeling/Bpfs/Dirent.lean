import Bpfs.Lib.Wp
import Bpfs.Disk

/-! Directory entries as they lie in a directory's blocks, and the scan over the entries of one block. -/

namespace Bpfs
open Lib

/-- The bytes of a block. -/
abbrev Block := Nat → UInt8

def inoInvalid : Nat := 0
def inoRoot : Nat := 1

def direntAlign : Nat := 8

/-- `BPFS_DIRENT_LEN`. -/
def direntLen (nameLen : Nat) : Nat := (12 + nameLen + 7) / direntAlign * direntAlign

/-- `BPFS_DIRENT_MIN_LEN`. -/
def direntMinLen : Nat := direntLen 0

def typeUnknown : UInt8 := 0
def typeFile : UInt8 := 1
def typeDir : UInt8 := 2
def typeChrdev : UInt8 := 3
def typeBlkdev : UInt8 := 4
def typeFifo : UInt8 := 5
def typeSock : UInt8 := 6
def typeSymlink : UInt8 := 7

namespace Block

/-! The fields of the `bpfs_dirent` at offset `off`. -/

def ino (b : Block) (off : Nat) : Nat := leValue (fun k => b (off + k)) 8
def recLen (b : Block) (off : Nat) : Nat := leValue (fun k => b (off + 8 + k)) 2
def fileType (b : Block) (off : Nat) : UInt8 := b (off + 10)
def nameLen (b : Block) (off : Nat) : UInt8 := b (off + 11)

/-- The offsets of the live entries that a scan from `off` to `fin` comes to, in at most `n` records. -/
def live (b : Block) (fin : Nat) : Nat → Nat → List Nat
  | 0, _ => []
  | n + 1, off =>
      if off + direntMinLen ≤ fin then
        if b.recLen off = 0 then []
        else (if b.ino off = inoInvalid then [] else [off]) ++ live b fin n (off + b.recLen off)
      else []

end Block

section Scan

variable {ε σ : Type}

/-- The loop of `callback_read_dir` over at most `n` records from `off` on. The callback gets the entry's
offset; `stop` is the error of a failed check. -/
def readDirLoop (stop : ε) (callback : Nat → EStateM ε σ Nat) (b : Block) (fin : Nat) : Nat → Nat → EStateM ε σ Nat
  | 0, _ => pure 0
  | n + 1, off =>
      if off + direntMinLen ≤ fin then
        if off % direntAlign ≠ 0 then throw stop
        else if b.recLen off = 0 then pure 0
        else if blockSize < off + b.recLen off then throw stop
        else if b.ino off = inoInvalid then readDirLoop stop callback b fin n (off + b.recLen off)
        else if b.recLen off < direntLen (b.nameLen off).toNat then throw stop
        else do
          let r ← callback off
          if r ≠ 0 then pure r else readDirLoop stop callback b fin n (off + b.recLen off)
      else pure 0

/-- `callback_read_dir` on a block of which `size` bytes belong to the directory. Every record has at least
one byte, so the loop has enough rounds. -/
def callbackReadDir (stop : ε) (callback : Nat → EStateM ε σ Nat) (b : Block) (size : Nat) : EStateM ε σ Nat :=
  readDirLoop stop callback b size blockSize 0

-- the rules for `wp` are all that is used of it
attribute [local irreducible] wp

/-- A callback that never asks to stop is called on the live entries, in their order. -/
theorem readDirLoop_calls {stop : ε} {callback : Nat → EStateM ε σ Nat} {b : Block} {fin : Nat} {T : List Nat}
    {I : List Nat → σ → Prop} {E : ε → σ → Prop} (fails : ∀ s, E stop s)
    (call : ∀ l off s, l ++ [off] <+: T → I l s → wp (callback off) (fun r t => r = 0 ∧ I (l ++ [off]) t) E s)
    {n off : Nat} {l : List Nat} {s : σ} (part : l ++ b.live fin n off <+: T) (here : I l s) :
    wp (readDirLoop stop callback b fin n off) (fun r t => r = 0 ∧ I (l ++ b.live fin n off) t) E s := by
  induction n generalizing off l s with
  | zero =>
    rw [readDirLoop, wp_pure, Block.live, List.append_nil]
    exact ⟨rfl, here⟩
  | succ n ih =>
    unfold readDirLoop
    unfold Block.live at part ⊢
    by_cases inside : off + direntMinLen ≤ fin
    swap
    · rw [if_neg inside, if_neg inside, wp_pure, List.append_nil]
      exact ⟨rfl, here⟩
    rw [if_pos inside] at part ⊢
    rw [if_pos inside]
    by_cases odd : off % direntAlign ≠ 0
    · rw [if_pos odd, wp_throw]
      exact fails s
    rw [if_neg odd]
    by_cases last : b.recLen off = 0
    · rw [if_pos last, if_pos last, wp_pure, List.append_nil]
      exact ⟨rfl, here⟩
    rw [if_neg last] at part ⊢
    rw [if_neg last]
    by_cases long : blockSize < off + b.recLen off
    · rw [if_pos long, wp_throw]
      exact fails s
    rw [if_neg long]
    by_cases dead : b.ino off = inoInvalid
    · rw [if_pos dead, List.nil_append] at part
      rw [if_pos dead, if_pos dead, List.nil_append]
      exact ih part here
    rw [if_neg dead, ← List.append_assoc] at part
    rw [if_neg dead, if_neg dead, ← List.append_assoc]
    by_cases short : b.recLen off < direntLen (b.nameLen off).toNat
    · rw [if_pos short, wp_throw]
      exact fails s
    rw [if_neg short, wp_bind]
    refine wp_mono (call l off s ((List.prefix_append _ _).trans part) here) ?_ (fun _ _ error => error)
    rintro r t ⟨rfl, after⟩
    rw [if_neg (not_not.mpr rfl)]
    exact ih part after

end Scan

end Bpfs
