import Bpfs.Directory

/-! The records of a whole directory, by their offsets in its data, and how they change when one of
its blocks is edited or one is added. -/

namespace Bpfs.Dir
open Lib

/-- The directory with these blocks has the record at offset `p` of its data. -/
def At (B : List Block) (p : Nat) (r : Rec) : Prop :=
  ∃ b, B[p / blockSize]? = some b ∧ (p % blockSize, r) ∈ b.recs

/-- At `p` the records of a block end, with room for another. -/
def TailAt (B : List Block) (p : Nat) : Prop :=
  ∃ b, B[p / blockSize]? = some b ∧ b.scanEnd = p % blockSize ∧ p % blockSize + direntMinLen ≤ blockSize

/-- The byte at offset `p`. -/
def byteAt (B : List Block) (p : Nat) : Option UInt8 := (B[p / blockSize]?).map (fun b => b (p % blockSize))

def Tiled (B : List Block) : Prop := ∀ b ∈ B, b.Tiled

/-- The record at `p` is in use. -/
def Live (B : List Block) (p : Nat) (r : Rec) : Prop := At B p r ∧ r.ino ≠ inoInvalid

/-- `len` bytes are free at `p`: those of a record out of use, or all that is left of a block. -/
def Available (B : List Block) (p len : Nat) : Prop :=
  (∃ r, At B p r ∧ r.ino = inoInvalid ∧ r.len = len) ∨ (TailAt B p ∧ len = blockSize - p % blockSize)

theorem place {i o : Nat} (small : o < blockSize) :
    (i * blockSize + o) / blockSize = i ∧ (i * blockSize + o) % blockSize = o := by
  unfold blockSize at *
  omega

theorem place_self (p : Nat) : p / blockSize * blockSize + p % blockSize = p := Nat.div_add_mod' p blockSize

section Records

variable {B : List Block} {p q : Nat} {r s : Rec}

theorem at_place {i o : Nat} {b : Block} (here : B[i]? = some b) (small : o < blockSize) (member : (o, r) ∈ b.recs) :
    At B (i * blockSize + o) r := by
  obtain ⟨quotient, remainder⟩ := place (i := i) small
  refine ⟨b, ?_, ?_⟩
  · rw [quotient]
    exact here
  · rw [remainder]
    exact member

theorem tailAt_place {i o : Nat} {b : Block} (here : B[i]? = some b) (ends : b.scanEnd = o)
    (room : o + direntMinLen ≤ blockSize) : TailAt B (i * blockSize + o) := by
  have least : direntMinLen = 16 := rfl
  obtain ⟨quotient, remainder⟩ := place (i := i) (show o < blockSize by omega)
  refine ⟨b, ?_, ?_, ?_⟩
  · rw [quotient]
    exact here
  · rw [remainder]
    exact ends
  · rw [remainder]
    exact room

theorem At.unique (one : At B p r) (two : At B p s) : r = s := by
  obtain ⟨b, here, member⟩ := one
  obtain ⟨b', here', member'⟩ := two
  obtain rfl := Option.some.inj (here.symm.trans here')
  exact (b.scan_recs.bounds.2 _ member).2.2.1.trans (b.scan_recs.bounds.2 _ member').2.2.1.symm

theorem At.fits (record : At B p r) (tiled : Tiled B) : Block.Fits (p % blockSize) r := by
  obtain ⟨b, here, member⟩ := record
  exact tiled b (List.mem_of_getElem? here) _ member

theorem At.not_tail (record : At B p r) : ¬TailAt B p := by
  rintro ⟨b, here, last, room⟩
  obtain ⟨b', here', member⟩ := record
  obtain rfl := Option.some.inj (here.symm.trans here')
  obtain ⟨-, inside, -, -, some⟩ := b.scan_recs.bounds.2 _ member
  dsimp only at inside some
  omega

end Records

/-- `B'` is `B` with the record `r` at `p`, in place of the one that was there or of the free end there. -/
structure Placed (B B' : List Block) (p : Nat) (r : Rec) : Prop where
  record : ∀ q s, At B' q s ↔ (q = p ∧ s = r) ∨ (q ≠ p ∧ At B q s)
  tail : ∀ q, q ≠ p → TailAt B q → TailAt B' q
  tiled : Tiled B → Block.Fits (p % blockSize) r → Tiled B'
  bytes : ∀ q s k, Tiled B → At B q s → q ≠ p → q ≤ k → k < q + s.len → byteAt B' k = byteAt B k

section Placing

variable {B B' : List Block} {p : Nat} {r : Rec}

theorem Placed.at (placed : Placed B B' p r) : At B' p r := (placed.record p r).mpr (Or.inl ⟨rfl, rfl⟩)

/-- The bytes of a record lie in one block. -/
theorem At.byte {q k : Nat} {s : Rec} (record : At B q s) (tiled : Tiled B) (first : q ≤ k) (last : k < q + s.len) :
    k / blockSize = q / blockSize ∧ q % blockSize ≤ k % blockSize ∧ k % blockSize < q % blockSize + s.len := by
  have inside := (record.fits tiled).inside
  unfold blockSize at *
  omega

/-- A record placed in one of the blocks. -/
theorem placed_modify {b : Block} {f : Block → Block} (here : B[p / blockSize]? = some b)
    (placed : Block.Placed b (f b) (p % blockSize) r) : Placed B (B.modify (p / blockSize) f) p r := by
  have same : ∀ j, j ≠ p / blockSize → (B.modify (p / blockSize) f)[j]? = B[j]? :=
    fun j other => List.getElem?_modify_ne f B (fun eq => other eq.symm)
  have new : (B.modify (p / blockSize) f)[p / blockSize]? = some (f b) := by
    rw [List.getElem?_modify_eq, here]
    rfl
  have split : ∀ q, q ≠ p → q / blockSize = p / blockSize → q % blockSize ≠ p % blockSize := by
    intro q other block off
    exact other (by rw [← place_self q, ← place_self p, block, off])
  refine ⟨fun q s => ?_, fun q other tail => ?_, fun tiled fits c member => ?_, fun q s k tiled record other first last => ?_⟩
  · by_cases block : q / blockSize = p / blockSize
    · constructor
      · rintro ⟨c, there, member⟩
        rw [block, new] at there
        obtain rfl := Option.some.inj there
        rcases (placed.record _).mp member with ⟨off, rfl⟩ | ⟨off, old⟩
        · exact Or.inl ⟨by rw [← place_self q, ← place_self p, block]; exact congrArg _ off, rfl⟩
        · exact Or.inr ⟨fun eq => off (eq ▸ rfl), b, block ▸ here, old⟩
      · rintro (⟨rfl, rfl⟩ | ⟨other, c, there, old⟩)
        · exact ⟨f b, new, (placed.record _).mpr (Or.inl ⟨rfl, rfl⟩)⟩
        · rw [block, here] at there
          obtain rfl := Option.some.inj there
          exact ⟨f b, block ▸ new, (placed.record _).mpr (Or.inr ⟨split q other block, old⟩)⟩
    · have other : q ≠ p := fun eq => block (eq ▸ rfl)
      constructor
      · rintro ⟨c, there, member⟩
        exact Or.inr ⟨other, c, same _ block ▸ there, member⟩
      · rintro (⟨eq, -⟩ | ⟨-, c, there, old⟩)
        · exact absurd eq other
        · exact ⟨c, (same _ block).symm ▸ there, old⟩
  · obtain ⟨c, there, last, room⟩ := tail
    by_cases block : q / blockSize = p / blockSize
    · rw [block, here] at there
      obtain rfl := Option.some.inj there
      refine ⟨f b, block ▸ new, ?_, room⟩
      rw [placed.tail (last ▸ split q other block), last]
    · exact ⟨c, (same _ block).symm ▸ there, last, room⟩
  · obtain ⟨j, there⟩ := List.mem_iff_getElem?.mp member
    by_cases block : j = p / blockSize
    · rw [block, new] at there
      obtain rfl := Option.some.inj there
      exact placed.tiled (tiled b (List.mem_of_getElem? here)) fits
    · rw [same _ block] at there
      exact tiled c (List.mem_of_getElem? there)
  · obtain ⟨block, low, high⟩ := record.byte tiled first last
    obtain ⟨c, there, member⟩ := record
    unfold byteAt
    by_cases touched : q / blockSize = p / blockSize
    · rw [touched, here] at there
      obtain rfl := Option.some.inj there
      rw [block, touched, new, here, Option.map_some, Option.map_some,
        placed.bytes _ member (split q other touched) _ low high]
    · rw [block, same _ touched]

/-- A block with one record at its start, added behind the others. -/
theorem placed_append {b : Block} (here : p = B.length * blockSize) (only : ∀ x, x ∈ b.recs ↔ x = (0, r)) :
    Placed B (B ++ [b]) p r := by
  have start : p / blockSize = B.length ∧ p % blockSize = 0 := by
    unfold blockSize at *
    omega
  have old : ∀ j c, B[j]? = some c → (B ++ [b])[j]? = some c := fun j c there =>
    (List.getElem?_append_left (List.getElem?_eq_some_iff.mp there).1).trans there
  have cases : ∀ j c, (B ++ [b])[j]? = some c → B[j]? = some c ∨ (j = B.length ∧ c = b) := by
    intro j c there
    by_cases inside : j < B.length
    · exact Or.inl ((List.getElem?_append_left inside).symm.trans there)
    · rw [List.getElem?_append_right (by omega)] at there
      have zero : j - B.length = 0 := by
        by_contra more
        rw [List.getElem?_eq_none (by simpa using Nat.one_le_iff_ne_zero.mpr more)] at there
        cases there
      rw [zero] at there
      exact Or.inr ⟨by omega, (Option.some.inj there).symm⟩
  have new : (B ++ [b])[B.length]? = some b := by
    rw [List.getElem?_append_right (le_refl _), Nat.sub_self]
    rfl
  refine ⟨fun q s => ?_, fun q _ tail => ?_, fun tiled fits c member => ?_, fun q s k tiled record _ first last => ?_⟩
  · constructor
    · rintro ⟨c, there, member⟩
      rcases cases _ c there with before | ⟨block, rfl⟩
      · refine Or.inr ⟨fun eq => ?_, c, before, member⟩
        have inside := (List.getElem?_eq_some_iff.mp before).1
        rw [eq] at inside
        omega
      · rw [only] at member
        obtain ⟨off, rfl⟩ := Prod.mk.inj member
        refine Or.inl ⟨?_, rfl⟩
        rw [← place_self q, block, off, here]
        exact Nat.add_zero _
    · rintro (⟨rfl, rfl⟩ | ⟨-, c, there, member⟩)
      · refine ⟨b, by rw [start.1]; exact new, ?_⟩
        rw [start.2, only]
      · exact ⟨c, old _ c there, member⟩
  · obtain ⟨c, there, last, room⟩ := tail
    exact ⟨c, old _ c there, last, room⟩
  · rcases List.mem_append.mp member with before | last
    · exact tiled c before
    · rw [List.mem_singleton.mp last]
      intro x inside
      rw [only] at inside
      rw [start.2] at fits
      exact inside ▸ fits
  · obtain ⟨block, -, -⟩ := record.byte tiled first last
    obtain ⟨c, there, -⟩ := record
    unfold byteAt
    rw [block, old _ c there, there]

theorem Placed.trans {B'' : List Block} {s : Rec} (first : Placed B B' p r) (fits : Block.Fits (p % blockSize) r)
    (second : Placed B' B'' p s) : Placed B B'' p s where
  record q t := by
    rw [second.record, first.record]
    refine or_congr_right (and_congr_right fun other => ?_)
    exact ⟨fun either => either.elim (fun here => absurd here.1 other) And.right, fun old => Or.inr ⟨other, old⟩⟩
  tail q other old := second.tail q other (first.tail q other old)
  tiled tiled fits' := second.tiled (first.tiled tiled fits) fits'
  bytes q t k tiled old other low high := by
    have kept : At B' q t := (first.record q t).mpr (Or.inr ⟨other, old⟩)
    rw [second.bytes q t k (first.tiled tiled fits) kept other low high, first.bytes q t k tiled old other low high]

theorem Placed.live {q : Nat} {s : Rec} (placed : Placed B B' p r) (other : q ≠ p) : Live B' q s ↔ Live B q s := by
  refine and_congr_left' ?_
  rw [placed.record]
  exact ⟨fun either => either.elim (fun here => absurd here.1 other) And.right, fun old => Or.inr ⟨other, old⟩⟩

theorem Placed.available {q len : Nat} (placed : Placed B B' p r) (other : q ≠ p) (free : Available B q len) :
    Available B' q len := by
  rcases free with ⟨s, record, dead⟩ | ⟨tail, room⟩
  · exact Or.inl ⟨s, (placed.record q s).mpr (Or.inr ⟨other, record⟩), dead⟩
  · exact Or.inr ⟨placed.tail q other tail, room⟩

end Placing

section Stores

variable {B : List Block} {p : Nat} {r : Rec}

/-- An edit within one record that keeps its length. -/
theorem At.edit {f : Block → Block} {g : Rec → Rec} (record : At B p r) (tiled : Tiled B)
    (same : ∀ b k, k < p % blockSize ∨ p % blockSize + r.len ≤ k → f b k = b k)
    (new : ∀ b : Block, (f b).decode (p % blockSize) = g (b.decode (p % blockSize)))
    (length : ∀ s, (g s).len = s.len) : Placed B (B.modify (p / blockSize) f) p (g r) := by
  obtain ⟨b, here, member⟩ := record
  have old : r = b.decode (p % blockSize) := (b.scan_recs.bounds.2 _ member).2.2.1
  have keeps : (f b).recLen (p % blockSize) = r.len := by
    have := congrArg Rec.len (new b)
    rwa [length, ← old] at this
  have placed := Block.placed_edit (tiled b (List.mem_of_getElem? here)) member (same b) keeps
  rw [new, ← old] at placed
  exact placed_modify here placed

theorem At.long (record : At B p r) (tiled : Tiled B) : 13 ≤ r.len := by
  have room := (record.fits tiled).name
  have long := Block.le_direntLen (r.name.length + 1)
  omega

theorem At.setIno {v : Nat} (record : At B p r) (tiled : Tiled B) (small : v < 2 ^ 64) :
    Placed B (B.modify (p / blockSize) (fun b => b.setIno (p % blockSize) v)) p { r with ino := v } := by
  have long := record.long tiled
  exact record.edit (f := fun b => b.setIno (p % blockSize) v) (g := fun s => { s with ino := v }) tiled
    (fun b k out => Block.write_outside (by omega)) (fun b => Block.decode_setIno small) (fun _ => rfl)

theorem At.setType {v : UInt8} (record : At B p r) (tiled : Tiled B) :
    Placed B (B.modify (p / blockSize) (fun b => b.setType (p % blockSize) v)) p { r with type := v } := by
  have long := record.long tiled
  exact record.edit (f := fun b => b.setType (p % blockSize) v) (g := fun s => { s with type := v }) tiled
    (fun b k out => Block.write_outside (by omega)) (fun b => Block.decode_setType) (fun _ => rfl)

theorem At.putName {name : Name} (record : At B p r) (tiled : Tiled B) (room : direntLen name.len ≤ r.len) :
    Placed B (B.modify (p / blockSize) (fun b => b.putName (p % blockSize) name.bytes)) p
      { r with nameLen := UInt8.ofNat name.len, name := name.bytes } := by
  have long := Block.le_direntLen name.len
  have inside := (record.fits tiled).inside
  have size : name.len = name.bytes.length + 1 := rfl
  exact record.edit (f := fun b => b.putName (p % blockSize) name.bytes)
    (g := fun s => { s with nameLen := UInt8.ofNat name.len, name := name.bytes }) tiled
    (fun b k out => Block.putName_outside (by omega)) (fun b => Block.decode_putName name.nonzero (by omega))
    (fun _ => rfl)

/-- A new record where the records of a block end; `c` moves the end behind it. -/
theorem TailAt.plug {name : Name} {c : Block → Block} (tail : TailAt B p) (tiled : Tiled B)
    (inside : p % blockSize + direntLen name.len ≤ blockSize) (same : ∀ b k, k < p % blockSize → c b k = b k)
    (last : ∀ b, p % blockSize + direntLen name.len + direntMinLen ≤ blockSize →
      (c b).recLen (p % blockSize + direntLen name.len) = 0) :
    ∃ b, Placed B (B.modify (p / blockSize) (fun b => (c b).label (p % blockSize) name.bytes)) p
        ((c b).labelled (p % blockSize) name.bytes) ∧
      (p % blockSize + direntLen name.len + direntMinLen ≤ blockSize →
        TailAt (B.modify (p / blockSize) (fun b => (c b).label (p % blockSize) name.bytes)) (p + direntLen name.len)) := by
  obtain ⟨b, here, ends, -⟩ := tail
  obtain ⟨placed, next⟩ := Block.placed_label (tiled b (List.mem_of_getElem? here)) ends name.nonzero inside (same b)
    (last b)
  refine ⟨b, placed_modify here placed, fun room => ?_⟩
  have block : (p + direntLen name.len) / blockSize = p / blockSize ∧
      (p + direntLen name.len) % blockSize = p % blockSize + direntLen name.len := by
    rw [← place_self p, Nat.add_assoc]
    have least : direntMinLen = 16 := rfl
    obtain ⟨quotient, rest⟩ := place (i := p / blockSize) (show p % blockSize + direntLen name.len < blockSize by omega)
    rw [quotient, rest, place_self]
    exact ⟨rfl, rfl⟩
  refine ⟨(c b).label (p % blockSize) name.bytes, ?_, next.trans block.2.symm, block.2 ▸ room⟩
  rw [block.1, List.getElem?_modify_eq, here]
  rfl

/-- A new record at the start of a block added to the directory. -/
theorem placed_fresh {name : Name} {c : Block} (inside : direntLen name.len ≤ blockSize)
    (last : direntLen name.len + direntMinLen ≤ blockSize → c.recLen (direntLen name.len) = 0) :
    Placed B (B ++ [c.label 0 name.bytes]) (B.length * blockSize) (c.labelled 0 name.bytes) ∧
      (direntLen name.len + direntMinLen ≤ blockSize →
        TailAt (B ++ [c.label 0 name.bytes]) (B.length * blockSize + direntLen name.len)) := by
  obtain ⟨none, zero⟩ := Block.empty (show (c.setRecLen 0 0).recLen 0 = 0 from Block.recLen_setRecLen (by omega))
  have tiled : (c.setRecLen 0 0).Tiled := fun x member => by
    rw [none] at member
    cases member
  rw [← Nat.zero_add (direntLen name.len)] at inside
  obtain ⟨placed, next⟩ := Block.placed_label (c := c) tiled zero name.nonzero inside
    (fun k near => absurd near (Nat.not_lt_zero k)) (by rw [Nat.zero_add]; exact last)
  refine ⟨placed_append rfl (fun x => ?_), fun room => ?_⟩
  · rw [placed.record, none]
    exact ⟨fun either => either.elim (fun here => Prod.ext here.1 here.2) (fun old => absurd old.2 List.not_mem_nil),
      fun here => Or.inl ⟨congrArg Prod.fst here, congrArg Prod.snd here⟩⟩
  · have least : direntMinLen = 16 := rfl
    obtain ⟨quotient, rest⟩ := place (i := B.length) (show direntLen name.len < blockSize by omega)
    refine ⟨c.label 0 name.bytes, ?_, ?_, ?_⟩
    · rw [quotient, List.getElem?_append_right (le_refl _), Nat.sub_self]
      rfl
    · rw [rest, next, Nat.zero_add]
      rfl
    · rwa [rest]

end Stores

end Bpfs.Dir
