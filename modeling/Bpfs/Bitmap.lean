import Bpfs.Disk

/-! The allocation bitmaps: bytes of bits, a cached count of clear bits and the
lists of allocations and frees staged since the last commit. An operation whose
assertion fails has no result. -/

namespace Bpfs
open Lib

structure Bitmap where
  bitmap : Nat → UInt8
  ntotal : Nat
  nfree : Nat
  allocs : List Nat
  frees : List Nat
  prevNtotal : Nat

namespace Bitmap

/-- Bits in one `bitmap_scan_t`. -/
def scanBits : Nat := 64

def bit (bm : Bitmap) (no : Nat) : Bool := (bm.bitmap (no / 8)).toNat.testBit (no % 8)

/-- The 64-bit word that starts at byte `i` of the bitmap. -/
def word (bm : Bitmap) (i : Nat) : Nat := leValue (fun k => bm.bitmap (i + k)) 8

/-- A bit is changed through the byte (or, little endian, the word) that holds it. -/
def setBit (bm : Bitmap) (no : Nat) : Bitmap :=
  { bm with bitmap := fun k =>
      if k = no / 8 then bm.bitmap k ||| UInt8.ofNat (2 ^ (no % 8)) else bm.bitmap k }

def clearBit (bm : Bitmap) (no : Nat) : Bitmap :=
  { bm with bitmap := fun k =>
      if k = no / 8 then bm.bitmap k &&& UInt8.ofNat (255 - 2 ^ (no % 8)) else bm.bitmap k }

/-- The inner loop of `bitmap_alloc`: the first clear bit of a word, from bit `j` on. -/
def scanWord (word : Nat) : Nat → Nat → Option Nat
  | 0, _ => none
  | n + 1, j => if word.testBit j then scanWord word n (j + 1) else some j

/-- The outer loop of `bitmap_alloc`, over `n` more words from index `i` on. -/
def scan (bm : Bitmap) : Nat → Nat → Option Nat
  | 0, _ => none
  | n + 1, i =>
      if bm.word (i / 8) ≠ 2 ^ 64 - 1 then
        match scanWord (bm.word (i / 8)) scanBits 0 with
        | some j => some (i + j)
        | none => scan bm n (i + scanBits)
      else scan bm n (i + scanBits)

/-- `bitmap_alloc`: the index, or `ntotal` when every bit is set. -/
def alloc (bm : Bitmap) : Nat × Bitmap :=
  match bm.scan ((bm.ntotal + scanBits - 1) / scanBits) 0 with
  | some no => (no, { bm.setBit no with allocs := no :: bm.allocs, nfree := usub bm.nfree 1 })
  | none => (bm.ntotal, bm)

/-- `bitmap_set`. -/
def set (bm : Bitmap) (no : Nat) : Option Bitmap :=
  if bm.bit no then none else some { bm.setBit no with nfree := usub bm.nfree 1 }

/-- `bitmap_ensure_set`, with whether the bit was set before. -/
def ensureSet (bm : Bitmap) (no : Nat) : Option (Bool × Bitmap) :=
  if no < bm.ntotal then
    if bm.bit no then some (true, bm.setBit no)
    else some (false, { bm.setBit no with nfree := usub bm.nfree 1 })
  else none

/-- `bitmap_free`: the bit stays set until the commit. -/
def free (bm : Bitmap) (no : Nat) : Option Bitmap :=
  if no < bm.ntotal ∧ bm.bit no ∧ no ∉ bm.frees then some { bm with frees := no :: bm.frees }
  else none

/-- `bitmap_clear`. -/
def clear (bm : Bitmap) (no : Nat) : Option Bitmap :=
  if no < bm.ntotal ∧ bm.bit no then some { bm.clearBit no with nfree := u64 (bm.nfree + 1) } else none

/-- `bitmap_unfree`. -/
def unfree (bm : Bitmap) (no : Nat) : Option Bitmap :=
  if no < bm.ntotal ∧ bm.bit no ∧ no ∈ bm.frees then
    some ({ bm with frees := bm.frees.erase no }.setBit no)
  else none

/-- `bitmap_unalloc`. -/
def unalloc (bm : Bitmap) (no : Nat) : Option Bitmap :=
  if no < bm.ntotal ∧ bm.bit no ∧ no ∈ bm.allocs then
    { bm with allocs := bm.allocs.erase no }.clear no
  else none

/-- The debug loop of `bitmap_resize`: the words it reads are all zero. The source
indexes 64-bit words with a byte index. -/
def shrinkCheck (bm : Bitmap) : Nat → Nat → Bool
  | 0, _ => true
  | n + 1, i => bm.word (8 * (i / 8)) = 0 && shrinkCheck bm n (i + scanBits)

/-- `bitmap_resize` when `realloc` succeeds, with or without its debug loop. -/
def resizeWith (loop : Bool) (bm : Bitmap) (ntotal : Nat) : Option Bitmap :=
  if bm.ntotal = ntotal then some bm
  else
    let prev := if bm.prevNtotal = 0 then bm.ntotal else bm.prevNtotal
    if bm.ntotal < ntotal then
      some { bm with
        bitmap := fun k => if bm.ntotal / 8 ≤ k ∧ k < bm.ntotal / 8 + (ntotal - bm.ntotal) / 8
          then 0 else bm.bitmap k,
        nfree := u64 (bm.nfree + (ntotal - bm.ntotal)), ntotal := ntotal, prevNtotal := prev }
    else if ntotal % scanBits = 0 ∧ bm.ntotal % scanBits = 0 ∧
        (loop → bm.shrinkCheck ((bm.ntotal - ntotal + scanBits - 1) / scanBits) ntotal) ∧
        bm.allocs = [] ∧ bm.frees = [] then
      some { bm with nfree := usub bm.nfree (bm.ntotal - ntotal), ntotal := ntotal, prevNtotal := prev }
    else none

/-- `bitmap_resize`. -/
def resize (bm : Bitmap) (ntotal : Nat) : Option Bitmap := bm.resizeWith true ntotal

/-- The loops of `bitmap_abort` and `bitmap_commit` over a staged list. -/
def clearAll (bm : Bitmap) : List Nat → Option Bitmap
  | [] => some bm
  | no :: rest => do clearAll (← bm.clear no) rest

/-- `bitmap_abort`, with or without the debug loop of `bitmap_resize`. -/
def abortWith (loop : Bool) (bm : Bitmap) : Option Bitmap := do
  let cleared ← bm.clearAll bm.allocs
  let bm := { cleared with allocs := [], frees := [] }
  let bm ← if bm.prevNtotal ≠ 0 ∧ bm.ntotal ≠ bm.prevNtotal then bm.resizeWith loop bm.prevNtotal else some bm
  some { bm with prevNtotal := 0 }

/-- `bitmap_abort`. -/
def abort (bm : Bitmap) : Option Bitmap := bm.abortWith true

/-- `bitmap_commit`. -/
def commit (bm : Bitmap) : Option Bitmap := do
  let cleared ← bm.clearAll bm.frees
  some { cleared with allocs := [], frees := [], prevNtotal := 0 }

/-! ### Facts -/

theorem bit_setBit (bm : Bitmap) (no k : Nat) : (bm.setBit no).bit k = (decide (k = no) || bm.bit k) := by
  unfold setBit bit
  by_cases byte : k / 8 = no / 8
  · have mask : (UInt8.ofNat (2 ^ (no % 8))).toNat = 2 ^ (no % 8) := by
      have bound : 2 ^ (no % 8) < 2 ^ 8 := Nat.pow_lt_pow_right (by decide) (by omega)
      simp only [UInt8.toNat_ofNat']
      exact Nat.mod_eq_of_lt bound
    have index : no % 8 = k % 8 ↔ k = no := by omega
    simp only [byte, if_true, UInt8.toNat_or, Nat.testBit_or, mask, Nat.testBit_two_pow, index,
      Bool.or_comm]
  · have other : k ≠ no := fun same => byte (by rw [same])
    simp [if_neg byte, other]

/-- The lists and the count do not matter for the bits. -/
theorem bit_setBit_with (bm : Bitmap) (no k nfree : Nat) (allocs : List Nat) :
    ({ bm.setBit no with allocs := allocs, nfree := nfree } : Bitmap).bit k = (decide (k = no) || bm.bit k) :=
  bit_setBit bm no k

theorem bit_clearBit (bm : Bitmap) (no k : Nat) :
    (bm.clearBit no).bit k = (decide (k ≠ no) && bm.bit k) := by
  unfold clearBit bit
  by_cases byte : k / 8 = no / 8
  · have mask : ∀ r j : Fin 8, (UInt8.ofNat (255 - 2 ^ r.val)).toNat.testBit j.val = decide (j ≠ r) := by
      decide
    have index : (⟨k % 8, by omega⟩ : Fin 8) ≠ ⟨no % 8, by omega⟩ ↔ k ≠ no := by
      simp only [ne_eq, Fin.mk.injEq]; omega
    have this := mask ⟨no % 8, by omega⟩ ⟨k % 8, by omega⟩
    simp only [index] at this
    simp only [byte, if_true, UInt8.toNat_and, Nat.testBit_and, this, Bool.and_comm]
  · have other : k ≠ no := fun same => byte (by rw [same])
    simp [if_neg byte, other]

theorem word_testBit (bm : Bitmap) (i j : Nat) (small : j < 64) :
    (bm.word i).testBit j = bm.bit (8 * i + j) := by
  unfold word bit
  rw [leValue_testBit _ _ _ (by omega)]
  have byte : (8 * i + j) / 8 = i + j / 8 := by omega
  have rest : (8 * i + j) % 8 = j % 8 := by omega
  rw [byte, rest]

theorem scanWord_some {word n j r : Nat} (found : scanWord word n j = some r) :
    j ≤ r ∧ r < j + n ∧ word.testBit r = false := by
  induction n generalizing j with
  | zero => cases found
  | succ n ih =>
    simp only [scanWord] at found
    split at found
    · obtain ⟨low, high, clear⟩ := ih found
      exact ⟨by omega, by omega, clear⟩
    · next clear =>
      cases found
      exact ⟨le_refl _, by omega, by simpa using clear⟩

theorem scanWord_none {word n j : Nat} (absent : scanWord word n j = none) :
    ∀ r, j ≤ r → r < j + n → word.testBit r = true := by
  induction n generalizing j with
  | zero => intro r low high; omega
  | succ n ih =>
    simp only [scanWord] at absent
    split at absent
    · next set =>
      intro r low high
      by_cases first : r = j
      · rw [first]; exact set
      · exact ih absent r (by omega) (by omega)
    · cases absent

theorem scan_some {bm : Bitmap} {n i no : Nat} (aligned : i % 64 = 0) (found : bm.scan n i = some no) :
    i ≤ no ∧ no < i + 64 * n ∧ bm.bit no = false := by
  induction n generalizing i with
  | zero => cases found
  | succ n ih =>
    have later : bm.scan n (i + 64) = some no → i ≤ no ∧ no < i + 64 * (n + 1) ∧ bm.bit no = false := by
      intro rest
      obtain ⟨low, high, clear⟩ := ih (by omega) rest
      exact ⟨by omega, by omega, clear⟩
    simp only [scan, scanBits] at found
    split at found
    · split at found
      · next j hit =>
        obtain ⟨low, high, clear⟩ := scanWord_some hit
        cases found
        rw [word_testBit _ _ _ (by omega)] at clear
        have index : 8 * (i / 8) + j = i + j := by omega
        rw [index] at clear
        exact ⟨by omega, by omega, clear⟩
      · exact later found
    · exact later found

theorem scan_none {bm : Bitmap} {n i : Nat} (aligned : i % 64 = 0) (absent : bm.scan n i = none) :
    ∀ no, i ≤ no → no < i + 64 * n → bm.bit no = true := by
  induction n generalizing i with
  | zero => intro no low high; omega
  | succ n ih =>
    intro no low high
    have here : no < i + 64 → bm.word (i / 8) = 2 ^ 64 - 1 → bm.bit no = true := by
      intro near full
      have := word_testBit bm (i / 8) (no - i) (by omega)
      rw [full, Nat.testBit_two_pow_sub_one] at this
      have index : 8 * (i / 8) + (no - i) = no := by omega
      rw [index] at this
      rw [← this]; exact decide_eq_true (by omega)
    simp only [scan, scanBits] at absent
    split at absent
    · split at absent
      · cases absent
      · next word none =>
        by_cases near : no < i + 64
        · have := scanWord_none none (no - i) (by omega) (by omega)
          rw [word_testBit _ _ _ (by omega)] at this
          have index : 8 * (i / 8) + (no - i) = no := by omega
          rwa [index] at this
        · exact ih (by omega) absent no (by omega) (by omega)
    · next full =>
      by_cases near : no < i + 64
      · exact here near (by simpa using full)
      · exact ih (by omega) absent no (by omega) (by omega)

theorem scanWord_least {word n j r : Nat} (found : scanWord word n j = some r) :
    ∀ k, j ≤ k → k < r → word.testBit k = true := by
  induction n generalizing j with
  | zero => cases found
  | succ n ih =>
    simp only [scanWord] at found
    intro k low high
    split at found
    · next set =>
      by_cases first : k = j
      · rw [first]; exact set
      · exact ih found k (by omega) high
    · cases found
      omega

/-- The bits before the one that is found are set. -/
theorem scan_least {bm : Bitmap} {n i no : Nat} (aligned : i % 64 = 0) (found : bm.scan n i = some no) :
    ∀ k, i ≤ k → k < no → bm.bit k = true := by
  induction n generalizing i with
  | zero => cases found
  | succ n ih =>
    intro k low high
    have index : 8 * (i / 8) + (k - i) = k := by omega
    have whole : bm.scan 1 i = none → ∀ k, i ≤ k → k < i + 64 * 1 → bm.bit k = true := scan_none aligned
    simp only [scan, scanBits] at found whole
    split at found
    · split at found
      · next j hit =>
        cases found
        have near := (scanWord_some hit).2.1
        have set := scanWord_least hit (k - i) (by omega) (by omega)
        rw [word_testBit _ _ _ (by omega), index] at set
        exact set
      · next word none =>
        by_cases near : k < i + 64
        · have set := scanWord_none none (k - i) (by omega) (by omega)
          rw [word_testBit _ _ _ (by omega), index] at set
          exact set
        · exact ih (by omega) found k (by omega) high
    · next full =>
      by_cases near : k < i + 64
      · exact whole (if_neg full) k low (by omega)
      · exact ih (by omega) found k (by omega) high

/-- `bitmap_alloc` takes a clear bit and sets it, or finds that there is none. -/
theorem alloc_cases {bm : Bitmap} (aligned : bm.ntotal % 64 = 0) :
    (∃ no, no < bm.ntotal ∧ bm.bit no = false ∧
      bm.alloc = (no, { bm.setBit no with allocs := no :: bm.allocs, nfree := usub bm.nfree 1 })) ∨
    ((∀ no, no < bm.ntotal → bm.bit no = true) ∧ bm.alloc = (bm.ntotal, bm)) := by
  have words : 64 * ((bm.ntotal + scanBits - 1) / scanBits) = bm.ntotal := by
    simp only [scanBits]; omega
  unfold alloc
  cases result : bm.scan ((bm.ntotal + scanBits - 1) / scanBits) 0 with
  | some no =>
    obtain ⟨-, high, clear⟩ := scan_some rfl result
    exact Or.inl ⟨no, by omega, clear, rfl⟩
  | none =>
    have full := scan_none rfl result
    exact Or.inr ⟨fun no small => full no (Nat.zero_le _) (by omega), rfl⟩

/-- The bitmap is whole scan words and what is staged is within it and marked. -/
structure Wf (bm : Bitmap) : Prop where
  aligned : bm.ntotal % 64 = 0
  frees : ∀ no ∈ bm.frees, no < bm.ntotal ∧ bm.bit no = true
  frees_nodup : bm.frees.Nodup
  allocs : ∀ no ∈ bm.allocs, no < bm.ntotal ∧ bm.bit no = true
  allocs_nodup : bm.allocs.Nodup

/-- `bm'` is `bm` with more allocations and frees staged. -/
structure Staged (bm bm' : Bitmap) : Prop where
  total : bm'.ntotal = bm.ntotal
  prev : bm'.prevNtotal = bm.prevNtotal
  allocs : ∃ news, bm'.allocs = news ++ bm.allocs ∧ (∀ no ∈ news, bm.bit no = false) ∧
    ∀ no, bm'.bit no = (bm.bit no || decide (no ∈ news))
  frees : ∃ olds, bm'.frees = olds ++ bm.frees
  wf : bm.Wf → bm'.Wf

theorem Staged.refl (bm : Bitmap) : Staged bm bm :=
  ⟨rfl, rfl, ⟨[], rfl, by simp, by simp⟩, ⟨[], rfl⟩, id⟩

theorem Staged.trans {a b c : Bitmap} (first : Staged a b) (second : Staged b c) : Staged a c := by
  obtain ⟨news, list, clear, bits⟩ := first.allocs
  obtain ⟨news', list', clear', bits'⟩ := second.allocs
  obtain ⟨olds, freed⟩ := first.frees
  obtain ⟨olds', freed'⟩ := second.frees
  refine ⟨second.total.trans first.total, second.prev.trans first.prev, ⟨news' ++ news, ?_, ?_, ?_⟩,
    ⟨olds' ++ olds, ?_⟩, second.wf ∘ first.wf⟩
  · rw [list', list, List.append_assoc]
  · intro no member
    rcases List.mem_append.mp member with late | early
    · have unset := clear' no late
      rw [bits] at unset
      simp only [Bool.or_eq_false_iff] at unset
      exact unset.1
    · exact clear no early
  · intro no
    rw [bits', bits]
    simp only [List.mem_append, Bool.decide_or, Bool.or_assoc, Bool.or_comm (decide (no ∈ news'))]
  · rw [freed', freed, List.append_assoc]

theorem Staged.bit {a b : Bitmap} (staged : Staged a b) {no : Nat} (set : a.bit no = true) :
    b.bit no = true := by
  obtain ⟨news, -, -, bits⟩ := staged.allocs
  rw [bits, set, Bool.true_or]

theorem Staged.mem_frees {a b : Bitmap} (staged : Staged a b) {no : Nat} (member : no ∈ a.frees) :
    no ∈ b.frees := by
  obtain ⟨olds, freed⟩ := staged.frees
  rw [freed]
  exact List.mem_append_right _ member

theorem staged_alloc {bm : Bitmap} {no : Nat} (small : no < bm.ntotal) (clear : bm.bit no = false) :
    Staged bm { bm.setBit no with allocs := no :: bm.allocs, nfree := usub bm.nfree 1 } := by
  have bits : ∀ k, ({ bm.setBit no with allocs := no :: bm.allocs, nfree := usub bm.nfree 1 } : Bitmap).bit k =
      (bm.bit k || decide (k ∈ [no])) := by
    intro k
    rw [bit_setBit_with]
    simp [Bool.or_comm]
  have fresh : bm.Wf → no ∉ bm.allocs := by
    intro wf member
    rw [(wf.allocs no member).2] at clear
    cases clear
  refine ⟨rfl, rfl, ⟨[no], rfl, by simpa using clear, bits⟩, ⟨[], rfl⟩, fun wf => ⟨wf.aligned, ?_,
    wf.frees_nodup, ?_, List.nodup_cons.mpr ⟨fresh wf, wf.allocs_nodup⟩⟩⟩
  · exact fun k member => ⟨(wf.frees k member).1, by rw [bits, (wf.frees k member).2, Bool.true_or]⟩
  · intro k member
    rcases List.mem_cons.mp member with same | old
    · subst same
      exact ⟨small, by rw [bits]; simp⟩
    · exact ⟨(wf.allocs k old).1, by rw [bits, (wf.allocs k old).2, Bool.true_or]⟩

theorem staged_free {bm : Bitmap} {no : Nat} (small : no < bm.ntotal) (set : bm.bit no = true)
    (once : no ∉ bm.frees) : Staged bm { bm with frees := no :: bm.frees } := by
  refine ⟨rfl, rfl, ⟨[], rfl, by simp, fun k => by simp [bit]⟩, ⟨[no], rfl⟩, fun wf => ⟨wf.aligned, ?_,
    List.nodup_cons.mpr ⟨once, wf.frees_nodup⟩, wf.allocs, wf.allocs_nodup⟩⟩
  intro k member
  rcases List.mem_cons.mp member with same | old
  · subst same
    exact ⟨small, set⟩
  · exact wf.frees k old

end Bitmap

end Bpfs
