import Bpfs.CrawlRange
import Bpfs.CrawlWalk

/-! The calls a crawl makes. A crawl of the bytes from `lo` to `hi` calls back on the leaves
from `lo / 4096` to `(hi - 1) / 4096`, in this order and once each, with the part of the range
that lies in the leaf; one assertion of `crawl_indir` can stop it on the way. -/

namespace Bpfs.Walk
open Lib

/-- The arguments of a leaf's callback that describe its range. -/
structure Call where
  blockoff : Nat
  off : Nat
  size : Nat
  valid : Nat
  deriving DecidableEq, Repr

/-- The part of the bytes from `lo` to `hi`, of which the first `g` are valid, in leaf `j`.
Leaves are numbered from `blockoff` at the start of the range. -/
def tile (g lo hi blockoff j : Nat) : Call :=
  ⟨blockoff + (j - lo / blockSize), max lo (base j) - base j,
    min hi (base (j + 1)) - max lo (base j), min (g - base j) blockSize⟩

/-- The tiles of the leaves from `a` up to `b`. -/
def tilesFrom (g lo hi blockoff a b : Nat) : List Call :=
  (List.range' a (b - a)).map (tile g lo hi blockoff)

/-- The tiles of the whole range. -/
def tiles (g lo hi blockoff : Nat) : List Call :=
  tilesFrom g lo hi blockoff (lo / blockSize) ((hi - 1) / blockSize + 1)

theorem tilesFrom_append (g lo hi blockoff : Nat) {a b c : Nat} (le : a ≤ b) (le' : b ≤ c) :
    tilesFrom g lo hi blockoff a b ++ tilesFrom g lo hi blockoff b c = tilesFrom g lo hi blockoff a c := by
  have cut : List.range' a (b - a) ++ List.range' b (c - b) = List.range' a (c - a) := by
    have joined := List.range'_append_1 (s := a) (m := b - a) (n := c - b)
    rwa [show a + (b - a) = b by omega, show b - a + (c - b) = c - a by omega] at joined
  simp only [tilesFrom, ← List.map_append, cut]

theorem tilesFrom_one (g lo hi blockoff j : Nat) :
    tilesFrom g lo hi blockoff j (j + 1) = [tile g lo hi blockoff j] := by
  simp [tilesFrom]

/-- A write that begins at or after the end of the valid bytes, in a leaf that holds some of them,
and goes on into the next leaf under the same indirect block. -/
def Appends (g lo hi : Nat) (commit : Commit) : Prop :=
  commit = .atomic ∧ g ≤ lo ∧ base (lo / blockSize) < g ∧ lo / blockSize % 512 ≠ 511 ∧
    base (lo / blockSize + 1) < hi

instance (g lo hi : Nat) (commit : Commit) : Decidable (Appends g lo hi commit) := by
  unfold Appends
  infer_instance

section World

variable {σ : Type} (Good : σ → Prop) (log : σ → List Call) (stops : Err → Prop)

/-- An operation that makes no call, and whose result is as `P` says unless it stops the crawl. -/
def Keeps {α : Type} (x : EStateM Err σ α) (P : α → Prop) : Prop :=
  ∀ s, Good s → wp x (fun a t => P a ∧ Good t ∧ log t = log s) (fun e _ => stops e) s

/-- What is asked of the operations: allocations give a block, indirect blocks are in NVM and
not missing where the file has valid bytes, and every callback returns 0 and is logged. A
callback that may not write leaves the block where it is. -/
structure World (ops : Ops σ) (callback : Callback σ) : Prop where
  cowBlockHole : ∀ off size valid, Keeps Good log stops (ops.cowBlockHole off size valid) (· ≠ blocknoInvalid)
  cowBlockEntire : ∀ b, Keeps Good log stops (ops.cowBlockEntire b) fun _ => True
  getBlock : ∀ b, Keeps Good log stops (ops.getBlock b) fun _ => True
  getIndir : ∀ b, Keeps Good log stops (ops.getIndir b) (· = b)
  getBlockFromDisk : ∀ b indir, Keeps Good log stops (ops.getBlockFromDisk b indir) fun _ => True
  loadIndir : ∀ b no, Keeps Good log stops (ops.loadAddr false b no) (· ≠ blocknoInvalid)
  loadLeaf : ∀ b no, Keeps Good log stops (ops.loadAddr true b no) fun _ => True
  storeAddr : ∀ b no value, Keeps Good log stops (ops.storeAddr b no value) fun _ => True
  noteIndir : ∀ b indir, Keeps Good log stops (ops.noteIndir b indir) fun _ => True
  callback : ∀ blockoff block off size valid start commit b s, Good s →
    wp (callback blockoff block off size valid start commit b)
      (fun r t => r.1 = 0 ∧ (commit = .none → r.2 = b) ∧ Good t ∧ log t = log s ++ [⟨blockoff, off, size, valid⟩])
      (fun e _ => stops e) s

end World

section Rules

variable {σ α β : Type} {Good : σ → Prop} {log : σ → List Call} {stops : Err → Prop} {s : σ}

theorem wp_keeps {x : EStateM Err σ α} {P : α → Prop} {f : α → EStateM Err σ β} {Q : β → σ → Prop}
    (keeps : Keeps Good log stops x P) (good : Good s)
    (next : ∀ a t, P a → Good t → log t = log s → wp (f a) Q (fun e _ => stops e) t) :
    wp (x >>= f) Q (fun e _ => stops e) s := by
  rw [wp_bind]
  apply wp_mono (keeps s good) _ (fun _ _ stopped => stopped)
  rintro a t ⟨result, good', same⟩
  exact next a t result good' same

theorem wp_holds {site : Site} {c : Prop} {dec : Decidable c} {f : Unit → EStateM Err σ α} {Q : α → σ → Prop}
    {E : Err → σ → Prop} (holds : c) (next : wp (f ()) Q E s) : wp (check site c >>= f) Q E s := by
  unfold check
  rw [if_pos holds]
  exact next

theorem keeps_pure {a : α} {P : α → Prop} (holds : P a) :
    Keeps Good log stops (pure a : EStateM Err σ α) P := by
  intro s good
  rw [wp_pure]
  exact ⟨holds, good, rfl⟩

theorem keeps_ite {c : Prop} {dec : Decidable c} {x y : EStateM Err σ α} {P : α → Prop}
    (yes : c → Keeps Good log stops x P) (no : ¬c → Keeps Good log stops y P) :
    Keeps Good log stops (if c then x else y) P := by
  split
  · exact yes ‹_›
  · exact no ‹_›

theorem Keeps.mono {x : EStateM Err σ α} {P P' : α → Prop} (keeps : Keeps Good log stops x P)
    (weaker : ∀ a, P a → P' a) : Keeps Good log stops x P' := by
  intro s good
  apply wp_mono (keeps s good) _ (fun _ _ stopped => stopped)
  rintro a t ⟨result, rest⟩
  exact ⟨weaker a result, rest⟩

theorem Keeps.map {x : EStateM Err σ α} {P : α → Prop} (keeps : Keeps Good log stops x P) (f : α → β) :
    Keeps Good log stops (f <$> x) fun _ => True := by
  intro s good
  rw [wp_map]
  apply wp_mono (keeps s good) _ (fun _ _ stopped => stopped)
  rintro a t ⟨_, rest⟩
  exact ⟨trivial, rest⟩

theorem Keeps.bind {x : EStateM Err σ α} {f : α → EStateM Err σ β} {P : α → Prop} {R : β → Prop}
    (keeps : Keeps Good log stops x P) (next : ∀ a, P a → Keeps Good log stops (f a) R) :
    Keeps Good log stops (x >>= f) R := by
  intro s good
  apply wp_keeps keeps good
  intro a t result good' same
  apply wp_mono (next a result t good') _ (fun _ _ stopped => stopped)
  rintro b u ⟨final, good'', same'⟩
  exact ⟨final, good'', same'.trans same⟩

end Rules

section Leaf

variable {σ : Type} {Good : σ → Prop} {log : σ → List Call} {stops : Err → Prop} {ops : Ops σ}
  {callback : Callback σ} (world : World Good log stops ops callback)

include world

/-- `crawl_leaf` calls back once, with the range it was given. -/
theorem crawlLeaf_calls {crawlStart indir p blockoff off size valid : Nat} {commit : Commit} {s : σ}
    (good : Good s) (start : crawlStart / blockSize ≤ blockoff) (inside : off < blockSize)
    (fits : off + size ≤ blockSize) (held : valid ≤ blockSize) :
    wp (crawlLeaf ops callback crawlStart indir p blockoff off size valid commit)
      (fun r t => r.1 = 0 ∧ (commit = .none → r.2 = p) ∧ Good t ∧ log t = log s ++ [⟨blockoff, off, size, valid⟩])
      (fun e _ => stops e) s := by
  have number : Keeps Good log stops
      (if commit ≠ .none ∧ p = blocknoInvalid then ops.cowBlockHole off size valid else pure p)
      (fun b => commit = .none → b = p) := by
    apply keeps_ite
    · intro writes
      exact (world.cowBlockHole off size valid).mono fun _ _ read => absurd read writes.1
    · intro _
      exact keeps_pure fun _ => rfl
  have block : ∀ b, Keeps Good log stops
      (if p = blocknoInvalid ∧ commit = .none then pure .zeroBlock else BlockPtr.bpram <$> ops.getBlock b)
      (fun _ => True) := by
    intro b
    apply keeps_ite
    · intro _
      exact keeps_pure trivial
    · intro _
      exact (world.getBlock b).map _
  unfold crawlLeaf
  apply wp_holds start
  apply wp_holds inside
  apply wp_holds fits
  apply wp_holds held
  apply wp_keeps number good
  intro b t same good1 log1
  apply wp_keeps (world.noteIndir b indir) good1
  intro _ u _ good2 log2
  apply wp_keeps (block b) good2
  intro ptr v _ good3 log3
  apply wp_mono (world.callback blockoff ptr off size valid crawlStart _ b v good3) _ (fun _ _ stopped => stopped)
  rintro r x ⟨zero, fixed, good4, logged⟩
  refine ⟨zero, ?_, good4, by rw [logged, log3, log2, log1]⟩
  intro read
  rw [fixed (by rw [same read, if_pos rfl, read]), same read]

end Leaf

section Node

variable (w : Visit) (blockoff : Nat)

/-- The index that leaf `j` has when leaf `lo / 4096` has `blockoff`. -/
def indexOf (lo blockoff j : Nat) : Nat := blockoff + (j - lo / blockSize)

/-- What `crawl_indir` computes before its loop, with leaves numbered from `blockoff`. -/
def shifted (p : Nat) (commit : Commit) : IndirCrawl :=
  { w.crawl p commit with blockoff := indexOf w.lo blockoff (enter w.lo w.i / blockSize) }

variable (p : Nat) (commit : Commit)

theorem shifted_lastno : (shifted w blockoff p commit).lastno = w.lastno := w.crawl_lastno p commit

theorem shifted_onlyInvalid : (shifted w blockoff p commit).onlyInvalid ↔ w.g ≤ enter w.lo w.i :=
  w.crawl_onlyInvalid p commit

theorem enter_mono {i : Nat} (lo : Nat) {j : Nat} (le : i ≤ j) : enter lo i ≤ enter lo j := by
  simp only [enter, base, blockSize]
  omega

theorem shifted_childBlockoff {k : Nat} (visited : w.firstno ≤ k ∧ k ≤ w.lastno) :
    (shifted w blockoff p commit).childBlockoff k =
      indexOf w.lo blockoff (enter w.lo (w.kid k) / blockSize) := by
  have plain := w.crawl_childBlockoff visited p commit
  change (if k = w.firstno then enter w.lo w.i / blockSize
    else enter w.lo w.i / blockSize + (k - w.firstno) * 512 ^ w.h -
      (enter w.lo w.i - base w.i) % span w.h / blockSize) = _ at plain
  change (if k = w.firstno then indexOf w.lo blockoff (enter w.lo w.i / blockSize)
    else indexOf w.lo blockoff (enter w.lo w.i / blockSize) + (k - w.firstno) * 512 ^ w.h -
      (enter w.lo w.i - base w.i) % span w.h / blockSize) = _
  by_cases first : k = w.firstno
  · rw [if_pos first] at plain ⊢
    rw [plain]
  · rw [if_neg first] at plain ⊢
    -- the part of the first child before the range is less than one child
    have short : (enter w.lo w.i - base w.i) % span w.h / blockSize < 512 ^ w.h := by
      rw [Nat.div_lt_iff_lt_mul (by decide)]
      exact (Nat.mod_lt _ (span_pos w.h)).trans_eq (Nat.mul_comm _ _)
    have whole : 512 ^ w.h ≤ (k - w.firstno) * 512 ^ w.h := Nat.le_mul_of_pos_left _ (by omega)
    have lower : w.lo / blockSize ≤ enter w.lo w.i / blockSize := Nat.div_le_div_right (Nat.le_max_left _ _)
    simp only [indexOf]
    generalize (enter w.lo w.i - base w.i) % span w.h / blockSize = part at *
    generalize (k - w.firstno) * 512 ^ w.h = leaves at *
    generalize enter w.lo w.i / blockSize = here at *
    generalize enter w.lo (w.kid k) / blockSize = there at *
    omega

/-- The tiles of child `k` end where those of the next child begin. -/
theorem tiles_meet {k : Nat} (visited : w.firstno ≤ k) (more : k < w.lastno) :
    (leave w.hi w.h (w.kid k) - 1) / blockSize + 1 = enter w.lo (w.kid (k + 1)) / blockSize := by
  have last := w.lastno_bounds.1
  have first := w.firstno_bounds.2
  have upper := w.mul_lt more
  have lower := Nat.mul_le_mul_right (span w.h) visited
  have ends : leave w.hi w.h (w.kid k) = base (w.kid (k + 1)) := by
    have reach : leave w.hi (w.h + 1) w.i ≤ w.hi := Nat.min_le_left _ _
    simp only [leave, w.base_kid, Nat.succ_mul] at *
    omega
  have begins : enter w.lo (w.kid (k + 1)) = base (w.kid (k + 1)) := by
    have reach : w.lo ≤ enter w.lo w.i := Nat.le_max_left _ _
    rw [enter, Nat.max_eq_right]
    simp only [w.base_kid, Nat.succ_mul] at *
    omega
  have pos : 0 < base (w.kid (k + 1)) := by
    have := span_pos w.h
    simp only [w.base_kid, Nat.succ_mul]
    omega
  rw [ends, begins]
  simp only [base, blockSize] at pos ⊢
  omega

theorem tiles_begin : enter w.lo (w.kid w.firstno) = enter w.lo w.i := by
  have first := w.firstno_bounds
  simp only [enter, w.base_kid] at *
  omega

theorem tiles_end : leave w.hi w.h (w.kid w.lastno) = leave w.hi (w.h + 1) w.i := by
  have last := w.lastno_bounds
  have room := mul_span_le (h := w.h) w.lastno_lt
  simp only [leave, w.base_kid] at *
  omega

end Node

section Step

variable {σ : Type} {Good : σ → Prop} {log : σ → List Call} {stops : Err → Prop} {ops : Ops σ}
  {callback : Callback σ} (world : World Good log stops ops callback)
  (w : Visit) (blockoff : Nat) {p : Nat} {commit : Commit}

/-- A crawl that leaves the indirect block where it is: it only reads, or it appends in place. -/
def Steady (w : Visit) (commit : Commit) : Prop :=
  commit = .none ∨ (commit = .atomic ∧ w.g ≤ enter w.lo w.i)

/-- Child `k` comes back under the number it had, and the indirect block was there before, in a
crawl that only reads and in one that appends behind the valid bytes of `k`. -/
def Unmoved (w : Visit) (p : Nat) (commit : Commit) (k b b' : Nat) : Prop :=
  (commit = .none ∨ (commit = .atomic ∧ w.g ≤ enter w.lo w.i ∧ validIn w.g w.h (w.kid k) ≠ 0 ∧
    w.firstno ≠ w.lastno)) → b = b' ∧ p ≠ blocknoInvalid

include world

theorem indirTarget_keeps {k : Nat} (small : k < 512) (b : Nat)
    (calm : ¬(commit = .atomic ∧ w.g ≤ enter w.lo w.i ∧ validIn w.g w.h (w.kid k) ≠ 0 ∧ w.firstno ≠ w.lastno)) :
    Keeps Good log stops (indirTarget ops (shifted w blockoff p commit) b k 0)
      (fun b' => Steady w commit → commit ≠ .none → b' = b) := by
  unfold indirTarget
  apply keeps_ite
  · intro _
    exact keeps_pure fun _ _ => rfl
  · intro moves
    have single : ¬(commit = .atomic ∧ w.firstno = w.lastno) := by
      rintro ⟨atomic, one⟩
      exact moves (.inr (.inl ⟨atomic, .inl (one.trans (shifted_lastno w blockoff p commit).symm)⟩))
    have held : validIn w.g w.h (w.kid k) ≠ 0 := by
      intro none
      exact moves (.inr (.inr ((w.crawl_childValid small p commit).trans none)))
    have writes : ¬(commit = .atomic ∧ w.g ≤ enter w.lo w.i) := by
      rintro ⟨atomic, beyond⟩
      exact calm ⟨atomic, beyond, held, fun one => single ⟨atomic, one⟩⟩
    have allowed : ¬((shifted w blockoff p commit).commit = .atomic ∧ (shifted w blockoff p commit).onlyInvalid) := by
      rintro ⟨atomic, beyond⟩
      exact writes ⟨atomic, (shifted_onlyInvalid w blockoff p commit).mp beyond⟩
    intro s good
    apply wp_holds allowed
    apply wp_mono (world.cowBlockEntire b s good) _ (fun _ _ stopped => stopped)
    rintro b' t ⟨_, rest⟩
    refine ⟨fun steady writing => ?_, rest⟩
    exact (steady.elim (fun read => writing read) writes).elim

theorem indirSettle_keeps {k : Nat} (small : k < 512) (b : Nat) {old new : Nat}
    (unmoved : Unmoved w p commit k old new) :
    Keeps Good log stops (indirSettle ops (shifted w blockoff p commit) b k old 0 new)
      (fun r => r.1 = 0 ∧ (Steady w commit → r.2 = b)) := by
  have linked : Keeps Good log stops
      (if old ≠ new ∨ (shifted w blockoff p commit).inHole then
        indirLink ops (shifted w blockoff p commit) b k 0 new else pure b)
      (fun b' => Steady w commit → b' = b) := by
    apply keeps_ite
    · intro changes
      have fails : ¬(old = new ∧ p ≠ blocknoInvalid) := by
        rintro ⟨same, here⟩
        have hole : ¬(shifted w blockoff p commit).inHole := by
          simpa [shifted, Visit.crawl, blocknoInvalid] using here
        exact changes.elim (fun differ => differ same) hole
      have writes : commit ≠ .none := fun read => fails (unmoved (.inl read))
      have target := indirTarget_keeps world w blockoff (p := p) small b fun append => fails (unmoved (.inr append))
      unfold indirLink
      intro s good
      apply wp_holds (c := (shifted w blockoff p commit).commit ≠ .none) writes
      apply (target.bind fun b' kept => ?_) s good
      apply (world.storeAddr b' k new).bind
      intro _ _
      exact keeps_pure fun steady => kept steady writes
    · intro _
      exact keeps_pure fun _ => rfl
  unfold indirSettle
  apply linked.bind
  intro b' kept
  exact keeps_pure ⟨rfl, kept⟩

omit world in
theorem validIn_kid_ne {k : Nat} (small : k < 512) (held : validIn w.g w.h (w.kid k) ≠ 0) :
    validIn w.g (w.h + 1) w.i ≠ 0 := by
  have room := mul_span_le (h := w.h) small
  simp only [validIn, w.base_kid] at held ⊢
  omega

/-- The tiles of child `k`. -/
def kidTiles (k : Nat) : List Call :=
  tilesFrom w.g w.lo w.hi blockoff (enter w.lo (w.kid k) / blockSize)
    ((leave w.hi w.h (w.kid k) - 1) / blockSize + 1)

/-- What the crawl of a child does: it makes the calls of the child's tiles, and a child that is
there is not moved by a crawl that reads, nor an indirect block by one that appends. -/
def ChildCalls (Good : σ → Prop) (log : σ → List Call) (stops : Err → Prop) (leaves : Bool) (child : Child σ)
    (commit : Commit) : Prop :=
  ∀ parent b k s, w.firstno ≤ k ∧ k ≤ w.lastno → Good s →
    (leaves = false → validIn w.g w.h (w.kid k) ≠ 0 → b ≠ blocknoInvalid) →
    wp (child parent b (indexOf w.lo blockoff (enter w.lo (w.kid k) / blockSize))
        (enter w.lo (w.kid k) - base (w.kid k)) (leave w.hi w.h (w.kid k) - enter w.lo (w.kid k))
        (validIn w.g w.h (w.kid k)) commit)
      (fun r t => r.1 = 0 ∧ (commit = .none → r.2 = b) ∧
        (leaves = false → commit = .atomic → w.g ≤ enter w.lo (w.kid k) →
          validIn w.g w.h (w.kid k) ≠ 0 → r.2 = b) ∧
        Good t ∧ log t = log s ++ kidTiles w blockoff k)
      (fun e _ => stops e) s

omit world in
theorem childCommit_none (w : Visit) (blockoff p : Nat) : (shifted w blockoff p .none).childCommit = .none := rfl

omit world in
theorem childCommit_append (beyond : w.g ≤ enter w.lo w.i) :
    (shifted w blockoff p .atomic).childCommit = .atomic := by
  have only := (shifted_onlyInvalid w blockoff p .atomic).mpr beyond
  change (if _ then _ else _) = _
  rw [if_pos (.inr only)]

theorem indirChild_keeps {k : Nat} (small : k < 512) (leaves : Bool) (b : Nat)
    (present : validIn w.g (w.h + 1) w.i ≠ 0 → p ≠ blocknoInvalid) :
    Keeps Good log stops (indirChild ops (shifted w blockoff p commit) leaves b k)
      (fun b' => leaves = false → validIn w.g w.h (w.kid k) ≠ 0 → b' ≠ blocknoInvalid) := by
  have value : (shifted w blockoff p commit).childValid k = validIn w.g w.h (w.kid k) :=
    w.crawl_childValid small p commit
  have loaded : Keeps Good log stops
      (if (shifted w blockoff p commit).childValid k = 0 ∨ (shifted w blockoff p commit).inHole then
        pure blocknoInvalid else ops.loadAddr leaves b k)
      (fun b' => leaves = false → validIn w.g w.h (w.kid k) ≠ 0 → b' ≠ blocknoInvalid) := by
    apply keeps_ite
    · intro absent
      refine keeps_pure fun _ held => ?_
      have here := present (validIn_kid_ne w small held)
      have hole : ¬(shifted w blockoff p commit).inHole := by
        simpa [shifted, Visit.crawl, blocknoInvalid] using here
      exact (absent.elim (fun none => held (value.symm.trans none)) hole).elim
    · intro _
      cases leaves with
      | true => exact (world.loadLeaf b k).mono fun _ _ indirect => absurd indirect (by decide)
      | false => exact (world.loadIndir b k).mono fun _ here _ _ => here
  unfold indirChild
  apply loaded.bind
  intro b' here
  apply keeps_ite
  · rintro ⟨leaf, _⟩
    exact (world.getBlockFromDisk b' b).mono fun _ _ indirect => absurd (leaf.symm.trans indirect) (by decide)
  · intro _
    exact keeps_pure here

/-- What holds when `crawl_indir` is called: the indirect block is there if the file has valid
bytes under it, and a crawl that reads stays in the valid bytes. -/
structure Placed (w : Visit) (p : Nat) (commit : Commit) : Prop where
  present : validIn w.g (w.h + 1) w.i ≠ 0 → p ≠ blocknoInvalid
  read : commit = .none → w.hi ≤ w.g
  aligned : 512 ^ (w.h + 1) ∣ w.i

/-- In addition, no write appends to a leaf in the way the assertion forbids. -/
structure Called (w : Visit) (p : Nat) (commit : Commit) : Prop extends Placed w p commit where
  calm : ¬Appends w.g w.lo w.hi commit

omit world in
theorem Placed.held_of_read (placed : Placed w p commit) (read : commit = .none) :
    validIn w.g (w.h + 1) w.i ≠ 0 := by
  have meets := w.meets
  have inside := placed.read read
  have pos := span_pos (w.h + 1)
  simp only [validIn, enter, leave] at *
  omega

omit world in
theorem Placed.reading (placed : Placed w p commit) : ¬(p = blocknoInvalid ∧ commit = .none) := by
  rintro ⟨absent, read⟩
  exact placed.present (placed.held_of_read w read) absent

omit world in
/-- At the leaves, a write that would move a partly valid one while appending is the forbidden one. -/
theorem Called.leaf_calm (called : Called w p commit) (leaf : w.h = 0) {k : Nat}
    (visited : w.firstno ≤ k ∧ k ≤ w.lastno) :
    ¬(commit = .atomic ∧ w.g ≤ enter w.lo w.i ∧ validIn w.g w.h (w.kid k) ≠ 0 ∧ w.firstno ≠ w.lastno) := by
  rintro ⟨atomic, beyond, held, more⟩
  apply called.calm
  obtain ⟨q, start⟩ := called.aligned
  have meets := w.visited_meets visited
  have first := w.firstno_bounds
  have last := w.lastno_bounds
  have small := w.lastno_lt
  have le := w.firstno_le_lastno
  have above := w.leave_le
  have reach : leave w.hi (w.h + 1) w.i ≤ w.hi := Nat.min_le_left _ _
  have kid : w.kid k = w.i + k := by simp [Visit.kid, Bpfs.kid, leaf]
  have size : span w.h = 4096 := by rw [leaf]; rfl
  rw [leaf] at start
  rw [kid] at held meets
  rw [size] at first last
  simp only [validIn, enter, leave, size, base, blockSize] at *
  have here : w.lo / 4096 = w.i + k := by omega
  have only : w.firstno = k := by omega
  unfold Appends
  simp only [base, blockSize, here]
  refine ⟨atomic, ?_, ?_, ?_, ?_⟩ <;> omega

theorem indirStep_calls (called : Called w p commit) {leaves : Bool} (leaf : leaves = true → w.h = 0)
    {child : Child σ} (calls : ChildCalls w blockoff Good log stops leaves child
      (shifted w blockoff p commit).childCommit)
    {k : Nat} (visited : w.firstno ≤ k ∧ k ≤ w.lastno) (b : Nat) {s : σ} (good : Good s) :
    wp (indirStep ops (shifted w blockoff p commit) leaves child b k)
      (fun r t => r.1 = 0 ∧ (Steady w commit → r.2 = b) ∧ Good t ∧ log t = log s ++ kidTiles w blockoff k)
      (fun e _ => stops e) s := by
  have small := w.visited_lt visited
  have offset : (shifted w blockoff p commit).childOff k = enter w.lo (w.kid k) - base (w.kid k) :=
    w.crawl_childOff visited p commit
  have size : (shifted w blockoff p commit).childSize k = leave w.hi w.h (w.kid k) - enter w.lo (w.kid k) :=
    w.crawl_childSize visited p commit
  have valid : (shifted w blockoff p commit).childValid k = validIn w.g w.h (w.kid k) :=
    w.crawl_childValid small p commit
  have index := shifted_childBlockoff w blockoff p commit visited
  have below : w.i ≤ w.kid k := Nat.le_add_right _ _
  have indices : (shifted w blockoff p commit).blockoff ≤ (shifted w blockoff p commit).childBlockoff k := by
    rw [index]
    have further := Nat.div_le_div_right (c := blockSize) (enter_mono w.lo below)
    simp only [shifted, indexOf]
    omega
  have part : leave w.hi w.h (w.kid k) ≤ leave w.hi (w.h + 1) w.i := by
    have room := mul_span_le (h := w.h) small
    simp only [leave, w.base_kid]
    omega
  have within : (shifted w blockoff p commit).childSize k ≤ (shifted w blockoff p commit).size := by
    rw [size]
    have later := enter_mono w.lo below
    simp only [shifted, Visit.crawl]
    omega
  have fits : (shifted w blockoff p commit).childSize k ≤ (shifted w blockoff p commit).childMaxNbytes := by
    rw [size]
    simp only [shifted, Visit.crawl, leave, enter]
    omega
  unfold indirStep
  apply wp_holds indices
  apply wp_holds within
  apply wp_holds fits
  apply wp_keeps (indirChild_keeps world w blockoff small leaves b called.present) good
  intro old t here good1 log1
  rw [offset, size, valid, index, wp_bind]
  apply wp_mono (calls b old k t visited good1 here) _ (fun _ _ stopped => stopped)
  rintro ⟨r, new⟩ u ⟨zero, read, append, good2, log2⟩
  simp only at zero read append
  subst zero
  have unmoved : Unmoved w p commit k old new := by
    rintro (reads | ⟨atomic, beyond, held, more⟩)
    · subst reads
      exact ⟨(read rfl).symm, called.present (called.held_of_read w rfl)⟩
    · cases leaves with
      | true => exact absurd ⟨atomic, beyond, held, more⟩ (called.leaf_calm w (leaf rfl) visited)
      | false =>
        subst atomic
        have later := beyond.trans (enter_mono w.lo below)
        exact ⟨(append rfl (childCommit_append w blockoff beyond) later held).symm,
          called.present (validIn_kid_ne w small held)⟩
  apply wp_mono (indirSettle_keeps world w blockoff small b unmoved u good2) _ (fun _ _ stopped => stopped)
  rintro r v ⟨⟨zero, steady⟩, good3, log3⟩
  exact ⟨zero, steady, good3, by rw [log3, log2, log1]⟩

omit world in
theorem kid_begin_le {k : Nat} (visited : w.firstno ≤ k ∧ k ≤ w.lastno) :
    enter w.lo (w.kid k) / blockSize ≤ (leave w.hi w.h (w.kid k) - 1) / blockSize + 1 := by
  have meets := w.visited_meets visited
  have le := Nat.div_le_div_right (c := blockSize) (show enter w.lo (w.kid k) ≤ leave w.hi w.h (w.kid k) - 1 by omega)
  omega

/-- The loop from child `k` on makes the calls of the rest of the tiles. The induction is on the
number of children that follow `k`. -/
theorem indirLoop_calls (called : Called w p commit) {leaves : Bool} (leaf : leaves = true → w.h = 0)
    {child : Child σ} (calls : ChildCalls w blockoff Good log stops leaves child
      (shifted w blockoff p commit).childCommit)
    (n : Nat) {k : Nat} (first : w.firstno ≤ k) (last : k + n = w.lastno) (b : Nat) {s : σ} (good : Good s) :
    wp (indirLoop ops (shifted w blockoff p commit) leaves child (n + 1) k b)
      (fun r t => r.1 = 0 ∧ (Steady w commit → r.2 = b) ∧ Good t ∧
        log t = log s ++ tilesFrom w.g w.lo w.hi blockoff (enter w.lo (w.kid k) / blockSize)
          ((leave w.hi (w.h + 1) w.i - 1) / blockSize + 1))
      (fun e _ => stops e) s := by
  induction n generalizing k b s with
  | zero =>
    have final : k = w.lastno := last
    unfold indirLoop
    rw [wp_bind]
    apply wp_mono (indirStep_calls world w blockoff called leaf calls ⟨first, final.le⟩ b good) _
      (fun _ _ stopped => stopped)
    rintro ⟨r, b'⟩ t ⟨zero, steady, good', logged⟩
    simp only at zero
    subst zero
    rw [kidTiles, final, tiles_end] at logged
    rw [final]
    exact ⟨rfl, steady, good', logged⟩
  | succ n ih =>
    have more : k < w.lastno := by omega
    have next := kid_begin_le w (k := k + 1) ⟨by omega, more⟩
    have here := kid_begin_le w ⟨first, more.le⟩
    unfold indirLoop
    rw [wp_bind]
    apply wp_mono (indirStep_calls world w blockoff called leaf calls ⟨first, more.le⟩ b good) _
      (fun _ _ stopped => stopped)
    rintro ⟨r, b'⟩ t ⟨zero, steady, good', logged⟩
    simp only at zero
    subst zero
    apply wp_mono (ih (k := k + 1) (by omega) (by omega) b' good') _ (fun _ _ stopped => stopped)
    rintro r u ⟨zero, steady', good'', logged'⟩
    refine ⟨zero, fun holds => (steady' holds).trans (steady holds), good'', ?_⟩
    have meet := tiles_meet w first more
    have rest : enter w.lo (w.kid (k + 1)) / blockSize ≤ (leave w.hi (w.h + 1) w.i - 1) / blockSize + 1 := by
      have last := w.lastno_bounds.1
      have upper : (k + 1) * span w.h ≤ w.lastno * span w.h := Nat.mul_le_mul_right _ more
      have inside : enter w.lo (w.kid (k + 1)) ≤ leave w.hi (w.h + 1) w.i - 1 := by
        have meets := w.meets
        simp only [enter, w.base_kid] at *
        omega
      exact (Nat.div_le_div_right inside).trans (Nat.le_succ _)
    rw [logged', logged, kidTiles, List.append_assoc, meet, tilesFrom_append]
    · rw [← meet]
      exact here
    · exact rest

/-- The tiles of the whole subtree. -/
def nodeTiles (g lo hi blockoff h i : Nat) : List Call :=
  tilesFrom g lo hi blockoff (enter lo i / blockSize) ((leave hi h i - 1) / blockSize + 1)

omit world in
/-- Past its tests, `crawl_indir` is its loop over the children that the range reaches into. -/
theorem crawlIndirNode_eq (low : w.h ≤ 4) (reading : ¬(p = blocknoInvalid ∧ commit = .none)) (leaves : Bool)
    (child : Child σ) (crawlStart : Nat) :
    crawlIndirNode ops callback crawlStart leaves child (512 ^ (w.h + 1)) p
        (indexOf w.lo blockoff (enter w.lo w.i / blockSize)) (enter w.lo w.i - base w.i)
        (leave w.hi (w.h + 1) w.i - enter w.lo w.i) (validIn w.g (w.h + 1) w.i) commit =
      (if p = blocknoInvalid then ops.cowBlockHole ((shifted w blockoff p commit).firstno * 8)
        (((shifted w blockoff p commit).lastno + 1 - (shifted w blockoff p commit).firstno) * 8)
        ((shifted w blockoff p commit).validno * 8) else pure p) >>= fun b => ops.getIndir b >>= fun b =>
        indirLoop ops (shifted w blockoff p commit) leaves child (w.lastno - w.firstno + 1) w.firstno b := by
  have blocks : 512 ^ (w.h + 1) / blocknosPerIndir = 512 ^ w.h := by
    rw [Nat.pow_succ]
    exact Nat.mul_div_cancel _ (by decide)
  have bytes : nbytesOfBlocks (512 ^ (w.h + 1) / blocknosPerIndir) = span w.h := by
    rw [blocks]
    exact nbytesOfBlocks_eq (by omega)
  have wide : ¬nbytesOfBlocks (512 ^ (w.h + 1) / blocknosPerIndir) = 0 := by
    rw [bytes]
    exact (span_pos w.h).ne'
  have count : (shifted w blockoff p commit).lastno + 1 - w.firstno = w.lastno - w.firstno + 1 := by
    have := w.firstno_le_lastno
    rw [shifted_lastno]
    omega
  unfold crawlIndirNode
  simp only [if_neg wide, if_neg reading]
  rw [bytes, blocks, ← count]
  rfl

theorem crawlIndirNode_calls (called : Called w p commit) {leaves : Bool} (leaf : leaves = true → w.h = 0)
    {child : Child σ} (crawlStart : Nat) (low : w.h ≤ 4)
    (calls : ChildCalls w blockoff Good log stops leaves child (shifted w blockoff p commit).childCommit)
    {s : σ} (good : Good s) :
    wp (crawlIndirNode ops callback crawlStart leaves child (512 ^ (w.h + 1)) p
        (indexOf w.lo blockoff (enter w.lo w.i / blockSize)) (enter w.lo w.i - base w.i)
        (leave w.hi (w.h + 1) w.i - enter w.lo w.i) (validIn w.g (w.h + 1) w.i) commit)
      (fun r t => r.1 = 0 ∧ (Steady w commit → validIn w.g (w.h + 1) w.i ≠ 0 → r.2 = p) ∧ Good t ∧
        log t = log s ++ nodeTiles w.g w.lo w.hi blockoff (w.h + 1) w.i)
      (fun e _ => stops e) s := by
  have start : Keeps Good log stops
      (if p = blocknoInvalid then ops.cowBlockHole ((shifted w blockoff p commit).firstno * 8)
        (((shifted w blockoff p commit).lastno + 1 - (shifted w blockoff p commit).firstno) * 8)
        ((shifted w blockoff p commit).validno * 8) else pure p)
      (fun b => p ≠ blocknoInvalid → b = p) := by
    apply keeps_ite
    · intro absent
      exact (world.cowBlockHole _ _ _).mono fun _ _ here => absurd absent here
    · intro _
      exact keeps_pure fun _ => rfl
  rw [crawlIndirNode_eq w blockoff low (called.reading w)]
  apply wp_keeps start good
  intro b t same good1 log1
  apply wp_keeps (world.getIndir b) good1
  intro b' u equal good2 log2
  subst equal
  apply wp_mono (indirLoop_calls world w blockoff called leaf calls (w.lastno - w.firstno) le_rfl
    (by have := w.firstno_le_lastno; omega) b' good2) _ (fun _ _ stopped => stopped)
  rintro r v ⟨zero, steady, good3, log3⟩
  refine ⟨zero, fun holds held => (steady holds).trans (same (called.present held)), good3, ?_⟩
  rw [log3, log2, log1, tiles_begin, nodeTiles]

omit world in
theorem childCommit_cases (c : IndirCrawl) :
    c.childCommit = c.commit ∨ (c.commit = .atomic ∧ c.childCommit = .copy) := by
  unfold IndirCrawl.childCommit
  split
  · next atomic =>
    split
    · exact .inl atomic.symm
    · exact .inr ⟨atomic, rfl⟩
  · exact .inl rfl

omit world in
theorem childCommit_append_of (c : IndirCrawl) {g lo hi : Nat} (append : Appends g lo hi c.childCommit) :
    Appends g lo hi c.commit := by
  rcases childCommit_cases c with same | ⟨_, copy⟩
  · rwa [same] at append
  · exact absurd (copy.symm.trans append.1) (by decide)

/-- The visit of child `k` of a block whose children are indirect blocks. -/
def kidVisit (w : Visit) {n k : Nat} (height : w.h = n + 1) (visited : w.firstno ≤ k ∧ k ≤ w.lastno) : Visit where
  g := w.g
  lo := w.lo
  hi := w.hi
  h := n
  i := w.kid k
  low := by have := w.low; omega
  bounded := w.bounded
  meets := height ▸ w.visited_meets visited

omit world in
theorem Placed.kid (placed : Placed w p commit) {n k b : Nat} (height : w.h = n + 1)
    (visited : w.firstno ≤ k ∧ k ≤ w.lastno)
    (here : validIn w.g (n + 1) (w.kid k) ≠ 0 → b ≠ blocknoInvalid) :
    Placed (kidVisit w height visited) b (shifted w blockoff p commit).childCommit where
  present := here
  read reads := by
    rcases childCommit_cases (shifted w blockoff p commit) with same | ⟨_, copy⟩
    · exact placed.read (same.symm.trans reads)
    · exact absurd (copy.symm.trans reads) (by decide)
  aligned := by
    have aligned := placed.aligned
    rw [height] at aligned
    have whole : 512 ^ (n + 1) ∣ w.i := Nat.dvd_trans (Nat.pow_dvd_pow 512 (by omega)) aligned
    change 512 ^ (n + 1) ∣ w.i + k * 512 ^ w.h
    rw [height]
    exact Nat.dvd_add whole (Nat.dvd_mul_left _ _)

/-- The leaves under a block of height 1 are called with their tiles. -/
theorem leaf_childCalls (leaf : w.h = 0) {crawlStart : Nat} (start : crawlStart / blockSize ≤ blockoff) :
    ChildCalls w blockoff Good log stops true (crawlLeaf ops callback crawlStart) commit := by
  intro parent b k s visited good _
  have meets := w.visited_meets visited
  have first : enter w.lo (w.kid k) / blockSize = w.kid k := by
    rw [leaf] at meets
    simp only [enter, leave, span_zero, base, blockSize] at *
    omega
  have last : (leave w.hi w.h (w.kid k) - 1) / blockSize = w.kid k := by
    rw [leaf] at meets ⊢
    simp only [enter, leave, span_zero, base, blockSize] at *
    omega
  have only : kidTiles w blockoff k = [⟨indexOf w.lo blockoff (enter w.lo (w.kid k) / blockSize),
      enter w.lo (w.kid k) - base (w.kid k), leave w.hi w.h (w.kid k) - enter w.lo (w.kid k),
      validIn w.g w.h (w.kid k)⟩] := by
    have next : base (w.kid k + 1) = base (w.kid k) + blockSize := Nat.mul_succ _ _
    rw [kidTiles, first, last, tilesFrom_one, tile, next, leaf]
    simp only [indexOf, enter, leave, validIn, span_zero]
  have index : crawlStart / blockSize ≤ indexOf w.lo blockoff (enter w.lo (w.kid k) / blockSize) :=
    start.trans (Nat.le_add_right _ _)
  have within : enter w.lo (w.kid k) < base (w.kid k) + blockSize ∧
      leave w.hi w.h (w.kid k) ≤ base (w.kid k) + blockSize ∧ base (w.kid k) ≤ enter w.lo (w.kid k) := by
    rw [leaf] at meets ⊢
    simp only [enter, leave, span_zero] at *
    omega
  have held : validIn w.g w.h (w.kid k) ≤ blockSize := by
    rw [leaf, ← span_zero]
    exact Nat.min_le_right _ _
  apply wp_mono (crawlLeaf_calls world good index (by omega) (by omega) held) _ (fun _ _ stopped => stopped)
  rintro r t ⟨zero, read, good', logged⟩
  rw [only]
  exact ⟨zero, read, fun indirect => absurd indirect (by decide), good', logged⟩

/-- `crawl_indir` makes the calls of the tiles under it. -/
theorem crawlIndir_calls {crawlStart : Nat} (start : crawlStart / blockSize ≤ blockoff) (n : Nat) :
    ∀ (w : Visit) (p : Nat) (commit : Commit) (s : σ), w.h = n → n ≤ 4 → Called w p commit → Good s →
    wp (crawlIndir ops callback crawlStart (n + 1) (512 ^ (n + 1)) p
        (indexOf w.lo blockoff (enter w.lo w.i / blockSize)) (enter w.lo w.i - base w.i)
        (leave w.hi (n + 1) w.i - enter w.lo w.i) (validIn w.g (n + 1) w.i) commit)
      (fun r t => r.1 = 0 ∧ (Steady w commit → validIn w.g (n + 1) w.i ≠ 0 → r.2 = p) ∧ Good t ∧
        log t = log s ++ nodeTiles w.g w.lo w.hi blockoff (n + 1) w.i)
      (fun e _ => stops e) s := by
  induction n with
  | zero =>
    intro w p commit s leaf low called good
    have node := crawlIndirNode_calls world w blockoff called (fun _ : true = true => leaf) crawlStart
      (by omega) (leaf_childCalls world w blockoff leaf start) good
    rw [leaf] at node
    exact node
  | succ n ih =>
    intro w p commit s height low called good
    have kids : ChildCalls w blockoff Good log stops false
        (fun _ => crawlIndir ops callback crawlStart (n + 1) (512 ^ (n + 2) / blocknosPerIndir))
        (shifted w blockoff p commit).childCommit := by
      intro parent b k t visited good' here
      have blocks : 512 ^ (n + 2) / blocknosPerIndir = 512 ^ (n + 1) := by
        rw [Nat.pow_succ]
        exact Nat.mul_div_cancel _ (by decide)
      have tilesSame : kidTiles w blockoff k =
          nodeTiles w.g w.lo w.hi blockoff (n + 1) (kidVisit w height visited).i := by
        rw [kidTiles, nodeTiles, height]
        rfl
      rw [tilesSame]
      rw [height] at here ⊢
      rw [blocks]
      have below : Called (kidVisit w height visited) b (shifted w blockoff p commit).childCommit :=
        ⟨called.kid w blockoff height visited (here rfl), fun append => called.calm (childCommit_append_of _ append)⟩
      apply wp_mono (ih (kidVisit w height visited) b _ t rfl (by omega) below good') _ (fun _ _ stopped => stopped)
      rintro r u ⟨zero, steady, good'', logged⟩
      refine ⟨zero, fun read => ?_, fun _ atomic beyond held => steady (.inr ⟨atomic, beyond⟩) held, good'', logged⟩
      exact steady (.inl read) (below.held_of_read (kidVisit w height visited) read)
    have node := crawlIndirNode_calls world w blockoff called
      (fun indirect : false = true => absurd indirect (by decide)) crawlStart (by omega) kids good
    rw [height] at node
    exact node

end Step

end Bpfs.Walk
