import Bpfs.Dirent
import Mathlib.Data.List.Basic

/-! The records of a directory block: how they follow one another, and what an edit of one record or an
addition behind the last leaves as it was. -/

namespace Bpfs
open Lib

/-- The bytes of a C string, of which at most `n` are looked at. -/
def cstr (f : Nat → UInt8) : Nat → List UInt8
  | 0 => []
  | n + 1 => if f 0 = 0 then [] else f 0 :: cstr (fun k => f (k + 1)) n

theorem cstr_eq {f : Nat → UInt8} {l : List UInt8} {n : Nat} (bytes : ∀ k, k < l.length → f k = l.getD k 0)
    (nonzero : (0 : UInt8) ∉ l) (ends : f l.length = 0) (short : l.length < n) : cstr f n = l := by
  induction l generalizing f n with
  | nil =>
    cases n with
    | zero => rfl
    | succ n => exact if_pos ends
  | cons c l ih =>
    cases n with
    | zero => exact absurd short (Nat.not_lt_zero _)
    | succ n =>
      have first : f 0 = c := bytes 0 (Nat.zero_lt_succ _)
      have here : c ≠ 0 := fun zero => nonzero (zero ▸ List.mem_cons_self ..)
      rw [cstr, first, if_neg here]
      refine congrArg (c :: ·) (ih (fun k inside => ?_) (fun member => nonzero (List.mem_cons_of_mem _ member)) ends ?_)
      · exact bytes (k + 1) (Nat.succ_lt_succ inside)
      · exact Nat.lt_of_succ_lt_succ short

theorem cstr_congr {f g : Nat → UInt8} {n : Nat} (same : ∀ k, k ≤ (cstr f n).length → g k = f k) :
    cstr g n = cstr f n := by
  induction n generalizing f g with
  | zero => rfl
  | succ n ih =>
    have first : g 0 = f 0 := same 0 (Nat.zero_le _)
    by_cases zero : f 0 = 0
    · rw [cstr, cstr, first, if_pos zero, if_pos zero]
    · rw [cstr, cstr, first, if_neg zero, if_neg zero]
      refine congrArg (f 0 :: ·) (ih (fun k inside => same (k + 1) ?_))
      rw [cstr, if_neg zero, List.length_cons]
      omega

/-- What a directory record says. -/
structure Rec where
  len : Nat
  ino : Nat
  type : UInt8
  nameLen : UInt8
  name : List UInt8
  deriving DecidableEq, Repr

namespace Block

/-- The entry's name, as a C string. -/
def name (b : Block) (off : Nat) : List UInt8 := cstr (fun k => b (off + 12 + k)) blockSize

def decode (b : Block) (off : Nat) : Rec :=
  ⟨b.recLen off, b.ino off, b.fileType off, b.nameLen off, b.name off⟩

/-- The records from `off` on, each with its offset. -/
def recsLoop (b : Block) : Nat → Nat → List (Nat × Rec)
  | 0, _ => []
  | n + 1, off =>
      if off + direntMinLen ≤ blockSize ∧ b.recLen off ≠ 0 then (off, b.decode off) :: recsLoop b n (off + b.recLen off)
      else []

def recs (b : Block) : List (Nat × Rec) := recsLoop b blockSize 0

/-- Where the records end that start at `off`. -/
def endLoop (b : Block) : Nat → Nat → Nat
  | 0, off => off
  | n + 1, off =>
      if off + direntMinLen ≤ blockSize ∧ b.recLen off ≠ 0 then endLoop b n (off + b.recLen off) else off

def scanEnd (b : Block) : Nat := endLoop b blockSize 0

/-- The records `l` start at `off` and end at `e`, where the block ends or a record has length 0. -/
inductive Scan (b : Block) : Nat → List (Nat × Rec) → Nat → Prop where
  | stop {off : Nat} (done : ¬(off + direntMinLen ≤ blockSize ∧ b.recLen off ≠ 0)) : Scan b off [] off
  | next {off e : Nat} {l : List (Nat × Rec)} (more : off + direntMinLen ≤ blockSize ∧ b.recLen off ≠ 0)
      (rest : Scan b (off + b.recLen off) l e) : Scan b off ((off, b.decode off) :: l) e

theorem scan_loop (b : Block) {n off : Nat} (enough : blockSize ≤ off + n) :
    Scan b off (b.recsLoop n off) (b.endLoop n off) := by
  induction n generalizing off with
  | zero => exact .stop (fun more => by have := more.1; have : direntMinLen = 16 := rfl; omega)
  | succ n ih =>
    by_cases more : off + direntMinLen ≤ blockSize ∧ b.recLen off ≠ 0
    · rw [recsLoop, endLoop, if_pos more, if_pos more]
      exact .next more (ih (by have := more.2; omega))
    · rw [recsLoop, endLoop, if_neg more, if_neg more]
      exact .stop more

theorem scan_recs (b : Block) : Scan b 0 b.recs b.scanEnd := b.scan_loop (Nat.zero_add _).ge

theorem Scan.unique {b : Block} {off e e' : Nat} {l l' : List (Nat × Rec)} (first : Scan b off l e)
    (second : Scan b off l' e') : l = l' ∧ e = e' := by
  induction first generalizing l' e' with
  | stop done =>
    cases second with
    | stop _ => exact ⟨rfl, rfl⟩
    | next more _ => exact absurd more done
  | next more _ ih =>
    cases second with
    | stop done => exact absurd more done
    | next _ rest =>
      obtain ⟨rfl, rfl⟩ := ih rest
      exact ⟨rfl, rfl⟩

theorem Scan.eq {b : Block} {l : List (Nat × Rec)} {e : Nat} (scan : Scan b 0 l e) : b.recs = l ∧ b.scanEnd = e :=
  b.scan_recs.unique scan

/-- The record fits where it is: aligned, long enough for its name and for what it says of the name, inside the
block. -/
structure Fits (off : Nat) (r : Rec) : Prop where
  start : off % direntAlign = 0
  aligned : r.len % direntAlign = 0
  name : direntLen (r.name.length + 1) ≤ r.len
  nameLen : direntLen r.nameLen.toNat ≤ r.len
  inside : off + r.len ≤ blockSize

/-- Every record of the block fits. -/
def Tiled (b : Block) : Prop := ∀ x ∈ b.recs, Fits x.1 x.2

theorem le_direntLen (n : Nat) : 12 + n ≤ direntLen n := by
  unfold direntLen direntAlign
  omega

section Lists

variable {b b' : Block} {off e : Nat} {l : List (Nat × Rec)}

theorem Scan.bounds (scan : Scan b off l e) : off ≤ e ∧ ∀ x ∈ l, off ≤ x.1 ∧ x.1 + x.2.len ≤ e ∧ x.2 = b.decode x.1 ∧
    x.1 + direntMinLen ≤ blockSize ∧ x.2.len ≠ 0 := by
  induction scan with
  | stop _ => exact ⟨le_refl _, fun x member => absurd member List.not_mem_nil⟩
  | @next off e l more rest ih =>
    obtain ⟨order, inside⟩ := ih
    refine ⟨by omega, fun x member => ?_⟩
    rcases List.mem_cons.mp member with rfl | later
    · exact ⟨le_refl _, order, rfl, more.1, more.2⟩
    · obtain ⟨start, bounds⟩ := inside x later
      exact ⟨by omega, bounds⟩

theorem Scan.ends (scan : Scan b off l e) : ¬(e + direntMinLen ≤ blockSize ∧ b.recLen e ≠ 0) := by
  induction scan with
  | stop done => exact done
  | next _ _ ih => exact ih

/-- Different records have no byte in common. -/
theorem Scan.apart (scan : Scan b off l e) {x y : Nat × Rec} (first : x ∈ l) (second : y ∈ l) (other : x.1 ≠ y.1) :
    x.1 + x.2.len ≤ y.1 ∨ y.1 + y.2.len ≤ x.1 := by
  induction scan with
  | stop _ => exact absurd first List.not_mem_nil
  | next more rest ih =>
    rcases List.mem_cons.mp first with rfl | early
    · rcases List.mem_cons.mp second with rfl | late
      · exact absurd rfl other
      · exact Or.inl (rest.bounds.2 y late).1
    · rcases List.mem_cons.mp second with rfl | late
      · exact Or.inr (rest.bounds.2 x early).1
      · exact ih early late

theorem decode_congr (fits : 12 + ((b.name off).length + 1) ≤ b.recLen off)
    (same : ∀ k, off ≤ k → k < off + b.recLen off → b' k = b k) : b'.decode off = b.decode off := by
  have number : b'.ino off = b.ino off := leValue_congr (fun k inside => same _ (by omega) (by omega))
  have length : b'.recLen off = b.recLen off := leValue_congr (fun k inside => same _ (by omega) (by omega))
  have kind : b'.fileType off = b.fileType off := same _ (by omega) (by omega)
  have size : b'.nameLen off = b.nameLen off := same _ (by omega) (by omega)
  have title : b'.name off = b.name off := by
    refine cstr_congr (fun k inside => same _ (by omega) ?_)
    change k ≤ (b.name off).length at inside
    omega
  rw [decode, decode, number, length, kind, size, title]

theorem Scan.fits_name (fits : ∀ x ∈ (off, b.decode off) :: l, Fits x.1 x.2) :
    12 + ((b.name off).length + 1) ≤ b.recLen off :=
  (le_direntLen _).trans (fits _ (List.mem_cons_self ..)).name

/-- A block that agrees up to the end of the records, and has no more there, has the same records. -/
theorem Scan.congr (scan : Scan b off l e) (fits : ∀ x ∈ l, Fits x.1 x.2)
    (same : ∀ k, off ≤ k → k < e → b' k = b k) (ends : ¬(e + direntMinLen ≤ blockSize ∧ b'.recLen e ≠ 0)) :
    Scan b' off l e := by
  induction scan with
  | stop _ => exact .stop ends
  | @next off e l more rest ih =>
    have order := rest.bounds.1
    have entry : b'.decode off = b.decode off :=
      decode_congr (Scan.fits_name fits) (fun k first last => same k first (by omega))
    have length : b'.recLen off = b.recLen off := congrArg Rec.len entry
    rw [← entry]
    refine .next (length ▸ more) ?_
    rw [length]
    exact ih (fun x later => fits x (List.mem_cons_of_mem _ later)) (fun k first last => same k (by omega) last) ends

/-- Change the record at `o`. -/
def change (o : Nat) (r : Rec) (x : Nat × Rec) : Nat × Rec := if x.1 = o then (o, r) else x

/-- A block that differs only within one record, and keeps its length, differs only in that record. -/
theorem Scan.edit (scan : Scan b off l e) (fits : ∀ x ∈ l, Fits x.1 x.2) {o : Nat} {r : Rec} (member : (o, r) ∈ l)
    (same : ∀ k, k < o ∨ o + r.len ≤ k → b' k = b k) (length : b'.recLen o = r.len) :
    Scan b' off (l.map (change o (b'.decode o))) e := by
  induction scan with
  | stop _ => exact absurd member List.not_mem_nil
  | @next off e l more rest ih =>
    have later : ∀ x ∈ l, Fits x.1 x.2 := fun x inside => fits x (List.mem_cons_of_mem _ inside)
    rcases List.mem_cons.mp member with here | below
    · obtain ⟨rfl, rfl⟩ := Prod.mk.inj here
      have wide : b'.recLen o = b.recLen o := length
      have keep : l.map (change o (b'.decode o)) = l := by
        refine (List.map_congr_left (fun x inside => ?_)).trans (List.map_id l)
        have start := (rest.bounds.2 x inside).1
        have some := more.2
        exact if_neg (by omega)
      have order := rest.bounds.1
      have last : b'.recLen e = b.recLen e := leValue_congr (fun k _ => same _ (Or.inr (by
        change o + b.recLen o ≤ _
        omega)))
      rw [List.map_cons, keep, change, if_pos rfl]
      refine .next (wide ▸ more) ?_
      rw [wide]
      exact rest.congr later (fun k first _ => same k (Or.inr first)) (last ▸ rest.ends)
    · obtain ⟨start, bounds⟩ := rest.bounds.2 _ below
      dsimp only at start
      have some := more.2
      have entry : b'.decode off = b.decode off :=
        decode_congr (Scan.fits_name fits) (fun k _ last => same k (Or.inl (by omega)))
      have wide : b'.recLen off = b.recLen off := congrArg Rec.len entry
      rw [List.map_cons, change, if_neg (by omega), ← entry]
      refine .next (wide ▸ more) ?_
      rw [wide]
      exact ih later below

/-- A block with one more record behind the last. -/
theorem Scan.extend (scan : Scan b off l e) (fits : ∀ x ∈ l, Fits x.1 x.2) (room : e + direntMinLen ≤ blockSize)
    (same : ∀ k, off ≤ k → k < e → b' k = b k) (some : b'.recLen e ≠ 0)
    (last : ¬(e + b'.recLen e + direntMinLen ≤ blockSize ∧ b'.recLen (e + b'.recLen e) ≠ 0)) :
    Scan b' off (l ++ [(e, b'.decode e)]) (e + b'.recLen e) := by
  induction scan with
  | stop _ => exact .next ⟨room, some⟩ (.stop last)
  | @next off e l more rest ih =>
    have order := rest.bounds.1
    have entry : b'.decode off = b.decode off :=
      decode_congr (Scan.fits_name fits) (fun k first last => same k first (by omega))
    have wide : b'.recLen off = b.recLen off := congrArg Rec.len entry
    rw [List.cons_append, ← entry]
    refine .next (wide ▸ more) ?_
    rw [wide]
    exact ih (fun x later => fits x (List.mem_cons_of_mem _ later)) room (fun k first last => same k (by omega) last)
      some last

end Lists

/-! ### Stores -/

/-- Store `len` bytes from `off` on. -/
def write (b : Block) (off len : Nat) (f : Nat → UInt8) : Block :=
  fun k => if off ≤ k ∧ k < off + len then f (k - off) else b k

def setIno (b : Block) (off v : Nat) : Block := b.write off 8 (leByte v)
def setRecLen (b : Block) (off v : Nat) : Block := b.write (off + 8) 2 (leByte v)
def setType (b : Block) (off : Nat) (v : UInt8) : Block := b.write (off + 10) 1 (fun _ => v)

/-- Store `name_len` and the name with its terminating zero. -/
def putName (b : Block) (off : Nat) (name : List UInt8) : Block :=
  (b.write (off + 11) 1 (fun _ => UInt8.ofNat (name.length + 1))).write (off + 12) (name.length + 1)
    (fun k => name.getD k 0)

theorem write_outside {b : Block} {off len k : Nat} {f : Nat → UInt8} (out : k < off ∨ off + len ≤ k) :
    b.write off len f k = b k := if_neg (by omega)

theorem write_inside {b : Block} {off len k : Nat} {f : Nat → UInt8} (inside : k < len) :
    b.write off len f (off + k) = f k := by
  rw [write, if_pos (by omega), Nat.add_sub_cancel_left]

theorem putName_outside {b : Block} {off k : Nat} {name : List UInt8} (out : k < off + 11 ∨ off + 12 + (name.length + 1) ≤ k) :
    b.putName off name k = b k := by
  rw [putName, write_outside (by omega), write_outside (by omega)]

section Fields

variable {b : Block} {off v : Nat} {name : List UInt8}

theorem recLen_congr {b' : Block} (same : ∀ k, off + 8 ≤ k → k < off + 10 → b' k = b k) : b'.recLen off = b.recLen off :=
  leValue_congr (fun k inside => same _ (by omega) (by omega))

theorem ino_congr {b' : Block} (same : ∀ k, off ≤ k → k < off + 8 → b' k = b k) : b'.ino off = b.ino off :=
  leValue_congr (fun k inside => same _ (by omega) (by omega))

theorem name_congr {b' : Block} (same : ∀ k, off + 12 ≤ k → b' k = b k) : b'.name off = b.name off :=
  cstr_congr (fun k _ => same _ (by omega))

theorem recLen_setRecLen (small : v < 2 ^ 16) : (b.setRecLen off v).recLen off = v := by
  have bytes : (b.setRecLen off v).recLen off = leValue (leByte v) 2 :=
    leValue_congr (fun k inside => write_inside inside)
  rw [bytes, leValue_leByte]
  exact Nat.mod_eq_of_lt small

theorem ino_setIno (small : v < 2 ^ 64) : (b.setIno off v).ino off = v := by
  have bytes : (b.setIno off v).ino off = leValue (leByte v) 8 :=
    leValue_congr (fun k inside => write_inside inside)
  rw [bytes, leValue_leByte]
  exact Nat.mod_eq_of_lt small

theorem decode_setIno (small : v < 2 ^ 64) : (b.setIno off v).decode off = { b.decode off with ino := v } := by
  have out : ∀ k, off + 8 ≤ k → b.setIno off v k = b k := fun k far => write_outside (Or.inr far)
  rw [decode, decode, ino_setIno small, recLen_congr (fun k far _ => out k far),
    name_congr (fun k far => out k (by omega)), fileType, fileType, nameLen, nameLen, out _ (by omega), out _ (by omega)]

theorem decode_setType {kind : UInt8} : (b.setType off kind).decode off = { b.decode off with type := kind } := by
  have here : (b.setType off kind).fileType off = kind := if_pos ⟨le_refl _, Nat.lt_succ_self _⟩
  have out : ∀ k, k < off + 10 ∨ off + 11 ≤ k → b.setType off kind k = b k := fun k far => write_outside far
  rw [decode, decode, here, recLen_congr (fun k _ near => out k (Or.inl near)),
    ino_congr (fun k _ near => out k (by omega)), name_congr (fun k far => out k (by omega)), nameLen, nameLen,
    out _ (by omega)]

theorem decode_putName (nonzero : (0 : UInt8) ∉ name) (short : name.length < blockSize) :
    (b.putName off name).decode off =
      { b.decode off with nameLen := UInt8.ofNat (name.length + 1), name := name } := by
  have title : (b.putName off name).name off = name := by
    refine cstr_eq (fun k inside => write_inside (by omega)) nonzero ?_ short
    rw [putName, write_inside (Nat.lt_succ_self _)]
    simp
  have size : (b.putName off name).nameLen off = UInt8.ofNat (name.length + 1) := by
    rw [nameLen, putName, write_outside (by omega), write, if_pos (by omega)]
  have out : ∀ k, k < off + 11 → b.putName off name k = b k := fun k near => putName_outside (Or.inl near)
  rw [decode, decode, title, size, recLen_congr (fun k _ near => out k (by omega)),
    ino_congr (fun k _ near => out k (by omega)), fileType, fileType, out _ (by omega)]

end Fields

/-! ### Placing a record -/

/-- `b'` is `b` with the record `r` at `o`, in place of the one that was there or of the free end there. -/
structure Placed (b b' : Block) (o : Nat) (r : Rec) : Prop where
  record : ∀ x, x ∈ b'.recs ↔ (x.1 = o ∧ x.2 = r) ∨ (x.1 ≠ o ∧ x ∈ b.recs)
  tail : b.scanEnd ≠ o → b'.scanEnd = b.scanEnd
  bytes : ∀ x ∈ b.recs, x.1 ≠ o → ∀ k, x.1 ≤ k → k < x.1 + x.2.len → b' k = b k

theorem Placed.tiled {b b' : Block} {o : Nat} {r : Rec} (placed : Placed b b' o r) (tiled : b.Tiled) (fits : Fits o r) :
    b'.Tiled := by
  intro x member
  rcases (placed.record x).mp member with ⟨rfl, rfl⟩ | ⟨-, old⟩
  · exact fits
  · exact tiled x old

/-- An edit within a record that keeps its length. -/
theorem placed_edit {b b' : Block} {o : Nat} {r : Rec} (tiled : b.Tiled) (member : (o, r) ∈ b.recs)
    (same : ∀ k, k < o ∨ o + r.len ≤ k → b' k = b k) (length : b'.recLen o = r.len) :
    Placed b b' o (b'.decode o) := by
  obtain ⟨list, last⟩ := (b.scan_recs.edit tiled member same length).eq
  refine ⟨fun x => ?_, fun _ => last, fun x old other k first inside => ?_⟩
  · rw [list, List.mem_map]
    constructor
    · rintro ⟨y, old, rfl⟩
      by_cases here : y.1 = o
      · exact Or.inl (by rw [change, if_pos here]; exact ⟨rfl, rfl⟩)
      · exact Or.inr (by rw [change, if_neg here]; exact ⟨here, old⟩)
    · rintro (⟨here, new⟩ | ⟨other, old⟩)
      · exact ⟨(o, r), member, by rw [change, if_pos rfl]; exact (Prod.ext here new).symm⟩
      · exact ⟨x, old, by rw [change, if_neg other]⟩
  · have apart := b.scan_recs.apart old member other
    dsimp only at apart
    exact same k (by omega)

/-- A record behind the last. -/
theorem placed_extend {b b' : Block} {o : Nat} (tiled : b.Tiled) (tail : b.scanEnd = o)
    (room : o + direntMinLen ≤ blockSize) (same : ∀ k, k < o → b' k = b k) (some : b'.recLen o ≠ 0)
    (last : ¬(o + b'.recLen o + direntMinLen ≤ blockSize ∧ b'.recLen (o + b'.recLen o) ≠ 0)) :
    Placed b b' o (b'.decode o) ∧ b'.scanEnd = o + b'.recLen o := by
  subst tail
  obtain ⟨list, last⟩ := (b.scan_recs.extend tiled room (fun k _ near => same k near) some last).eq
  have before : ∀ x ∈ b.recs, x.1 + x.2.len ≤ b.scanEnd ∧ x.2.len ≠ 0 := fun x member =>
    ⟨(b.scan_recs.bounds.2 x member).2.1, (b.scan_recs.bounds.2 x member).2.2.2.2⟩
  refine ⟨⟨fun x => ?_, fun other => absurd rfl other, fun x old _ k _ inside => ?_⟩, last⟩
  · rw [list, List.mem_append, List.mem_singleton]
    constructor
    · rintro (old | rfl)
      · have := before x old
        exact Or.inr ⟨by omega, old⟩
      · exact Or.inl ⟨rfl, rfl⟩
    · rintro (⟨here, new⟩ | ⟨-, old⟩)
      · exact Or.inr (Prod.ext here new)
      · exact Or.inl old
  · have := before x old
    exact same k (by omega)

/-! ### A new record -/

/-- Store the length and the name of a record that is just long enough. -/
def label (b : Block) (o : Nat) (name : List UInt8) : Block :=
  (b.setRecLen o (direntLen (name.length + 1))).putName o name

/-- The record that results, with the inode number and the type that were there. -/
def labelled (b : Block) (o : Nat) (name : List UInt8) : Rec :=
  ⟨direntLen (name.length + 1), b.ino o, b.fileType o, UInt8.ofNat (name.length + 1), name⟩

section New

variable {b c : Block} {o : Nat} {name : List UInt8}

theorem direntLen_mono {m n : Nat} (order : m ≤ n) : direntLen m ≤ direntLen n := by
  unfold direntLen direntAlign
  omega

theorem direntLen_ofNat (n : Nat) : direntLen (UInt8.ofNat n).toNat ≤ direntLen n := by
  refine direntLen_mono ?_
  rw [UInt8.toNat_ofNat']
  exact Nat.mod_le _ _

theorem decode_label (nonzero : (0 : UInt8) ∉ name) (inside : direntLen (name.length + 1) ≤ blockSize) :
    (b.label o name).decode o = b.labelled o name := by
  have long := le_direntLen (name.length + 1)
  have size : blockSize = 4096 := rfl
  have out : ∀ k, k < o + 8 ∨ o + 10 ≤ k → b.setRecLen o (direntLen (name.length + 1)) k = b k :=
    fun k far => write_outside (by omega)
  rw [label, decode_putName nonzero (by omega), decode, recLen_setRecLen (by omega),
    ino_congr (fun k _ near => out k (Or.inl near)), fileType, out _ (by omega)]
  rfl

theorem label_outside {k : Nat} (out : k < o ∨ o + direntLen (name.length + 1) ≤ k) : b.label o name k = b k := by
  have long := le_direntLen (name.length + 1)
  rw [label, putName_outside (by omega), setRecLen, write_outside (by omega)]

theorem fits_labelled (start : o % direntAlign = 0) (inside : o + direntLen (name.length + 1) ≤ blockSize) :
    Fits o (b.labelled o name) where
  start := start
  aligned := Nat.mul_mod_left _ _
  name := le_refl _
  nameLen := direntLen_ofNat _
  inside := inside

/-- A new record behind the last; `c` is the block with the end of the records moved behind it. -/
theorem placed_label (tiled : b.Tiled) (tail : b.scanEnd = o) (nonzero : (0 : UInt8) ∉ name)
    (inside : o + direntLen (name.length + 1) ≤ blockSize) (same : ∀ k, k < o → c k = b k)
    (last : o + direntLen (name.length + 1) + direntMinLen ≤ blockSize → c.recLen (o + direntLen (name.length + 1)) = 0) :
    Placed b (c.label o name) o (c.labelled o name) ∧ (c.label o name).scanEnd = o + direntLen (name.length + 1) := by
  have long := direntLen_mono (Nat.zero_le (name.length + 1))
  have least : direntLen 0 = direntMinLen := rfl
  have some : direntMinLen = 16 := rfl
  have new := decode_label (b := c) (o := o) nonzero ((Nat.le_add_left _ _).trans inside)
  have length : (c.label o name).recLen o = direntLen (name.length + 1) := congrArg Rec.len new
  have placed : Placed b (c.label o name) o ((c.label o name).decode o) ∧ _ := placed_extend tiled tail (by omega)
    (fun k near => (label_outside (Or.inl near)).trans (same k near)) (by omega) (by
      rw [length]
      rintro ⟨room, more⟩
      exact more ((recLen_congr (fun k far _ => label_outside (Or.inr (by omega)))).trans (last room)))
  rwa [new, length] at placed

/-- A block whose first record has length 0 has no records. -/
theorem empty (none : b.recLen 0 = 0) : b.recs = [] ∧ b.scanEnd = 0 :=
  Scan.eq (.stop fun more => more.2 none)

end New

end Block

end Bpfs
