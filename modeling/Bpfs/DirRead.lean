import Bpfs.DirLayout

/-! What `callback_read_dir` finds in the blocks of a directory. -/

namespace Bpfs.Dir
open Lib

/-- `read_dir` of a directory with one block, with the names and the inode numbers of the entries. -/
def readBlock (b : Block) : EStateM Unit (List (List UInt8 × Nat)) Nat :=
  callbackReadDir () (fun off => do
    modify (· ++ [(b.name off, b.ino off)])
    pure 0) b blockSize

/-- `read_dir` of a directory with these blocks. -/
def readDir : List Block → EStateM Unit (List (List UInt8 × Nat)) Nat
  | [] => pure 0
  | b :: bs => do
      let r ← readBlock b
      if r ≠ 0 then pure r else readDir bs

/-- The reader's checks pass at the record. -/
structure Sound (off : Nat) (r : Rec) : Prop where
  start : off % direntAlign = 0
  aligned : r.len % direntAlign = 0
  inside : off + r.len ≤ blockSize
  name : r.ino ≠ inoInvalid → direntLen r.nameLen.toNat ≤ r.len

theorem sound_of_fits {off : Nat} {r : Rec} (fits : Block.Fits off r) : Sound off r :=
  ⟨fits.start, fits.aligned, fits.inside, fun _ => fits.nameLen⟩

/-- The reader's checks pass at every record. -/
def Readable (B : List Block) : Prop := ∀ p r, At B p r → Sound (p % blockSize) r

/-- The names and inode numbers of the entries. -/
def entries (B : List Block) : Set (List UInt8 × Nat) := { x | ∃ p r, Live B p r ∧ x = (r.name, r.ino) }

/-- The records in use, as the reader reports them. -/
def reported (l : List (Nat × Rec)) : List (List UInt8 × Nat) :=
  (l.filter fun x => x.2.ino != inoInvalid).map fun x => (x.2.name, x.2.ino)

attribute [local irreducible] wp

theorem readDirLoop_scan {b : Block} {l : List (Nat × Rec)} {off fin n : Nat} {s : List (List UInt8 × Nat)}
    (scan : Block.Scan b off l fin) (sound : ∀ x ∈ l, Sound x.1 x.2) (aligned : off % direntAlign = 0)
    (enough : blockSize ≤ off + n) :
    wp (readDirLoop () (fun off => do
      modify (· ++ [(b.name off, b.ino off)])
      pure 0) b blockSize n off) (fun r t => r = 0 ∧ t = s ++ reported l) (fun _ _ => False) s := by
  have least : direntMinLen = 16 := rfl
  induction n generalizing off l s with
  | zero =>
    cases scan with
    | stop done => exact wp_pure.mpr ⟨rfl, (List.append_nil s).symm⟩
    | next more rest =>
      have := more.1
      omega
  | succ n ih =>
    rw [readDirLoop]
    cases scan with
    | stop done =>
      have nothing : s = s ++ reported [] := (List.append_nil s).symm
      by_cases room : fin + direntMinLen ≤ blockSize
      · have zero : b.recLen fin = 0 := by
          by_contra some
          exact done ⟨room, some⟩
        rw [if_pos room, if_neg (not_not.mpr aligned), if_pos zero]
        exact wp_pure.mpr ⟨rfl, nothing⟩
      · rw [if_neg room]
        exact wp_pure.mpr ⟨rfl, nothing⟩
    | @next _ _ l more rest =>
      have here := sound _ (List.mem_cons_self ..)
      have bound : off + b.recLen off ≤ blockSize := here.inside
      have whole : b.recLen off % direntAlign = 0 := here.aligned
      have onward : ∀ s', wp (readDirLoop () (fun off => do
          modify (· ++ [(b.name off, b.ino off)])
          pure 0) b blockSize n (off + b.recLen off)) (fun r t => r = 0 ∧ t = s' ++ reported l) (fun _ _ => False) s' := by
        intro s'
        refine ih rest (fun x inside => sound x (List.mem_cons_of_mem _ inside)) ?_ ?_
        · unfold direntAlign at *
          omega
        · have := more.2
          omega
      rw [if_pos more.1, if_neg (not_not.mpr aligned), if_neg more.2, if_neg (Nat.not_lt.mpr bound)]
      by_cases dead : b.ino off = inoInvalid
      · have skipped : reported ((off, b.decode off) :: l) = reported l := by
          have : (b.decode off).ino = inoInvalid := dead
          simp [reported, this]
        rw [if_pos dead, skipped]
        exact onward s
      · have long : direntLen (b.nameLen off).toNat ≤ b.recLen off := here.name dead
        have listed : s ++ reported ((off, b.decode off) :: l) = s ++ [(b.name off, b.ino off)] ++ reported l := by
          have : ((b.decode off).ino != inoInvalid) = true := bne_iff_ne.mpr dead
          simp only [reported, List.filter_cons, this, if_true, List.map_cons, List.append_assoc, List.singleton_append]
          rfl
        rw [if_neg dead, if_neg (Nat.not_lt.mpr long), wp_bind, wp_bind, wp_modify, wp_pure,
          if_neg (not_not.mpr rfl), listed]
        exact onward _

theorem readBlock_spec {b : Block} {s : List (List UInt8 × Nat)} (sound : ∀ x ∈ b.recs, Sound x.1 x.2) :
    wp (readBlock b) (fun r t => r = 0 ∧ t = s ++ reported b.recs) (fun _ _ => False) s :=
  readDirLoop_scan b.scan_recs sound rfl (Nat.zero_add _).ge

theorem readDir_blocks {bs : List Block} {s : List (List UInt8 × Nat)}
    (sound : ∀ b ∈ bs, ∀ x ∈ Block.recs b, Sound x.1 x.2) :
    wp (readDir bs) (fun r t => r = 0 ∧ t = s ++ bs.flatMap fun b => reported b.recs) (fun _ _ => False) s := by
  induction bs generalizing s with
  | nil => exact wp_pure.mpr ⟨rfl, (List.append_nil s).symm⟩
  | cons b bs ih =>
    rw [readDir, wp_bind]
    refine wp_mono (readBlock_spec (sound b (List.mem_cons_self ..))) ?_ (fun _ _ => id)
    rintro r t ⟨rfl, rfl⟩
    rw [if_neg (not_not.mpr rfl), List.flatMap_cons, ← List.append_assoc]
    exact ih fun b' inside => sound b' (List.mem_cons_of_mem _ inside)

theorem mem_recs {B : List Block} {b : Block} {x : Nat × Rec} (member : b ∈ B) (record : x ∈ b.recs) :
    ∃ i, At B (i * blockSize + x.1) x.2 ∧ (i * blockSize + x.1) % blockSize = x.1 := by
  obtain ⟨i, here⟩ := List.mem_iff_getElem?.mp member
  have least : direntMinLen = 16 := rfl
  have small : x.1 < blockSize := by
    have := (b.scan_recs.bounds.2 x record).2.2.2.1
    omega
  exact ⟨i, at_place here small record, (place small).2⟩

/-- Where the reader's checks pass it finds exactly the entries. -/
theorem readDir_spec {B : List Block} (readable : Readable B) :
    ∃ l, readDir B [] = .ok 0 l ∧ { x | x ∈ l } = entries B := by
  obtain ⟨r, l, run, rfl, rfl⟩ := ok_of_wp (readDir_blocks (s := []) fun b member x record => by
    obtain ⟨i, there, off⟩ := mem_recs member record
    exact off ▸ readable _ _ there)
  refine ⟨_, run, Set.ext fun x => ?_⟩
  rw [Set.mem_ofPred_eq, List.nil_append, List.mem_flatMap]
  constructor
  · rintro ⟨b, member, inside⟩
    obtain ⟨y, kept, rfl⟩ := List.mem_map.mp inside
    obtain ⟨record, live⟩ := List.mem_filter.mp kept
    obtain ⟨i, there, -⟩ := mem_recs member record
    exact ⟨_, y.2, ⟨there, by simpa using live⟩, rfl⟩
  · rintro ⟨p, s, ⟨⟨b, here, record⟩, live⟩, rfl⟩
    refine ⟨b, List.mem_of_getElem? here, List.mem_map.mpr ⟨(p % blockSize, s), ?_, rfl⟩⟩
    exact List.mem_filter.mpr ⟨record, by simpa using live⟩

end Bpfs.Dir
