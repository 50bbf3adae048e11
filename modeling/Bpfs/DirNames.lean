import Bpfs.DirCrash

/-! Names of directory entries: what a record says of the name that was put into it. The length of the name is stored in
eight bits and counts the terminating zero, and a name of 255 bytes is accepted. -/

namespace Bpfs.Dir
open Lib Dcache

attribute [local irreducible] wp

/-- The record at `p` gives the name back, its length with the terminating zero, and a length of its own that is
aligned, long enough and inside the block. -/
def RoundTrips (B : List Block) (p : Nat) (name : Name) : Prop :=
  ∃ r, At B p r ∧ r.name = name.bytes ∧ r.nameLen.toNat = name.len ∧ r.len % direntAlign = 0 ∧
    12 + r.nameLen.toNat ≤ r.len ∧ r.len ≤ blockSize - p % blockSize

section Names

variable {B : List Block} {v w : Volume} {d p len : Nat} {r : Rec} {name : Name}

/-- Everything but the eight bits for the length is right. -/
theorem roundTrips_iff (record : At B p r) (fits : Block.Fits (p % blockSize) r) (title : r.name = name.bytes)
    (count : r.nameLen = UInt8.ofNat name.len) : RoundTrips B p name ↔ name.len < 256 := by
  have low : r.nameLen.toNat = name.len % 256 := by
    rw [count]
    exact UInt8.toNat_ofNat'
  constructor
  · rintro ⟨s, there, -, right, -⟩
    rw [← record.unique there, low] at right
    omega
  · intro short
    have long := Block.le_direntLen r.nameLen.toNat
    have room := fits.nameLen
    have inside := fits.inside
    exact ⟨r, record, title, by omega, fits.aligned, by omega, by omega⟩

/-- The record that `callback_dirent_plug` makes. -/
theorem Vacant.plugged {b : Block} (vacant : Vacant B p name) (tiled : Tiled B) (here : B[p / blockSize]? = some b) :
    ∃ r, At (B.modify (p / blockSize) fun b' => writes b' (plugWrites b (p % blockSize) name)) p r ∧
      Block.Fits (p % blockSize) r ∧ r.name = name.bytes ∧ r.nameLen = UInt8.ofNat name.len := by
  rcases vacant with ⟨r, record, -, room⟩ | ⟨tail, aligned, inside⟩
  · have length := record.recLen here
    have some := record.nonzero
    have stores : (fun b' => writes b' (plugWrites b (p % blockSize) name)) =
        fun b' => b'.putName (p % blockSize) name.bytes := by
      funext b'
      rw [plugWrites, if_neg (by omega), writes_name]
    rw [stores]
    exact ⟨_, (record.putName tiled room).at, { record.fits tiled with
      name := room
      nameLen := (Block.direntLen_ofNat _).trans room }, rfl, rfl⟩
  · have zero := tail.recLen here
    have long := direntLen_pos name.len
    have next : ∀ (b' : Block) k, k < p % blockSize + direntLen name.len + 8 →
        writes b' (nextWrites (p % blockSize) name) k = b' k := fun b' k near => writes_outside fun w member => by
      have := nextWrites_bounds member
      omega
    have stores : (fun b' => writes b' (plugWrites b (p % blockSize) name)) = fun b' =>
        ((writes b' (nextWrites (p % blockSize) name)).setIno (p % blockSize) inoInvalid).label (p % blockSize) name.bytes := by
      funext b'
      rw [plugWrites, if_pos zero, writes_append, writes_append]
      exact writes_name
    obtain ⟨c, placed, -⟩ := tail.plug
      (c := fun b' => (writes b' (nextWrites (p % blockSize) name)).setIno (p % blockSize) inoInvalid) tiled inside
      (fun b' k near => by rw [Block.setIno, Block.write_outside (by omega), next b' k (by omega)])
      (fun b' room => by
        refine (Block.recLen_congr fun k far _ => Block.write_outside (by omega)).trans
          (b := (writes b' (nextWrites (p % blockSize) name)).recLen (p % blockSize + direntLen name.len)) ?_
        rw [nextWrites, if_pos room]
        exact Block.recLen_setRecLen (by decide))
    rw [stores]
    exact ⟨_, placed.at, Block.fits_labelled aligned inside, rfl, rfl⟩

/-- A name put into free space or at the start of a new block comes back, with its length, exactly if that fits eight
bits. -/
theorem dirent_round_trip_iff (tiled : Tiled (v.inodes d).blocks) (name : Name) :
    (∀ p len w, Available (v.inodes d).blocks p len →
      callbackDirentPlug d (p / blockSize) (p % blockSize) name v = .ok ⟨⟩ w →
      (RoundTrips (w.inodes d).blocks p name ↔ name.len < 256)) ∧
    ∀ b p w, callbackDirentAppend d name b v = .ok p w → (RoundTrips (w.inodes d).blocks p name ↔ name.len < 256) := by
  refine ⟨fun p len w free run => ?_, fun b p w run => ?_⟩
  · obtain ⟨b, here⟩ : ∃ b, (v.inodes d).blocks[p / blockSize]? = some b := ⟨_, List.getElem?_eq_getElem free.inside⟩
    obtain ⟨vacant, stored⟩ := (wp_ok run).mp (callbackDirentPlug_stores (c := v.dcache) here free)
    have blocks : (w.inodes d).blocks = (v.inodes d).blocks.modify (p / blockSize) fun b' =>
        writes b' (plugWrites b (p % blockSize) name) := by
      rw [stored, after_data, Function.update_self]
    obtain ⟨r, record, fits, title, count⟩ := vacant.plugged tiled here
    rw [blocks]
    exact roundTrips_iff record fits title count
  · obtain ⟨rfl, inside, stored⟩ := (wp_ok run).mp (callbackDirentAppend_stores rfl)
    have blocks : (w.inodes d).blocks = (v.inodes d).blocks ++ [appended name b] := by
      rw [stored, after, List.foldl_cons, List.foldl_nil, Store.apply, Function.update_self]
    obtain ⟨r, placed, fits, title, count, -⟩ := placed_appended (v.inodes d).blocks b inside
    rw [blocks]
    refine roundTrips_iff placed.at ?_ title count
    rw [Nat.mul_mod_left]
    exact fits

/-- The name `b` behind the record of `a`. -/
theorem dirent_round_trip_iff_oneFile :
    RoundTrips ((outcome (callbackDirentPlug inoRoot 0 16 nameB oneFile)).inodes inoRoot).blocks 16 nameB := by
  obtain ⟨M, rest⟩ := (reaches_oneFile (fun _ _ => True) trivial).rest
  have ends : ((oneFile.inodes inoRoot).blocks[0]?).map Block.scanEnd = some 16 := by decide +kernel
  obtain ⟨b, here, last⟩ := Option.map_eq_some_iff.mp ends
  have free : Available (oneFile.inodes inoRoot).blocks 16 4080 := Or.inr ⟨⟨b, here, last, by decide⟩, by decide⟩
  have run : callbackDirentPlug inoRoot (16 / blockSize) (16 % blockSize) nameB oneFile = .ok ⟨⟩ _ :=
    eq_ok (by decide +kernel)
  exact ((dirent_round_trip_iff (rest.lists inoRoot root_oneFile).tiled nameB).1 16 4080 _ free run).mpr (by decide)

/-- `create_file` accepts a name of 255 bytes, and the record says that its length is zero. -/
theorem name_len_wraps : createLong 0 none blank = .ok ⟨⟩ (filled 1) ∧ (longName 0).len = 256 ∧
    ((filled 1).inodes inoRoot).blocks.map (fun b => b.recs.map fun x => (x.1, x.2.nameLen)) = [[(0, 0)]] ∧
    ¬RoundTrips ((filled 1).inodes inoRoot).blocks 0 (longName 0) := by
  have size : (longName 0).len = 256 := by decide +kernel
  refine ⟨eq_ok (by decide +kernel), size, by decide +kernel, ?_⟩
  rintro ⟨r, -, -, count, -⟩
  have := r.nameLen.toNat_lt
  omega

end Names

end Bpfs.Dir
