import Bpfs.ReadTree
import Bpfs.FileOps

/-! Crawls that store in place into one inode, as `fuse_read` and `fuse_readdir` do to set its access time,
and the operations of the file system beside the data of a callback. -/

namespace Bpfs.Walk
open Lib

-- the rules for `wp` are all that is used of it
attribute [local irreducible] wp

section Operations

variable {m : Mem}

theorem fs_quiet {J : Fs → Prop} (noted : ∀ s t, J s → Noted s t → J t) (memory : ∀ s, J s → s.bpram = m) :
    Quiet fsOps m J where
  getBlock b s present small here := (wp_getBlock present small).mpr ⟨rfl, here⟩
  getIndir b s present small here := (wp_getBlock present small).mpr ⟨rfl, here⟩
  loadAddr leaves b k s small here := (wp_loadAddr small).mpr ⟨by rw [memory s here], here⟩
  noteIndir b indir s small here := wp_mono (noteIndir_spec small) (fun _ t => noted s t here) (fun _ _ never => never)

variable {ρ α : Type}

/-- A call on the file system, beside data of the callback. -/
def lift (x : M α) : EStateM Err (Fs × ρ) α := fun s =>
  match x s.1 with
  | .ok a t => .ok a (t, s.2)
  | .error e t => .error e (t, s.2)

theorem wp_lift {x : M α} {Q : α → Fs × ρ → Prop} {E : Err → Fs × ρ → Prop} {s : Fs × ρ} :
    wp (lift x) Q E s ↔ wp x (fun a t => Q a (t, s.2)) (fun e t => E e (t, s.2)) s.1 := by
  unfold wp lift
  cases x s.1 <;> rfl

theorem lift_keeps {x : M α} {Q : α → Fs → Prop} {s : Fs} (d : ρ) (returns : wp x Q (fun _ _ => False) s) :
    wp (lift x) (fun a t => Q a t.1 ∧ t.2 = d) (fun _ _ => False) (s, d) :=
  wp_lift.mpr (wp_mono returns (fun _ _ holds => ⟨holds, rfl⟩) (fun _ _ never => never))

/-- The operations of the file system, beside data of the callback. -/
def userOps (ρ : Type) : Ops (Fs × ρ) where
  cowBlockHole off size valid := lift (Bpfs.cowBlockHole off size valid)
  cowBlockEntire b := lift (Bpfs.cowBlockEntire b)
  getBlock b := lift (Bpfs.getBlock b)
  getIndir b := lift (Bpfs.getBlock b)
  getBlockFromDisk b indir := lift (Bpfs.getBlockFromDisk b indir)
  loadAddr _ b no := lift (Bpfs.loadAddr b no)
  storeAddr b no value := lift (Bpfs.storeAddr b no value)
  noteIndir b indir := lift (Bpfs.noteIndir b indir)

theorem user_quiet {J : Fs × ρ → Prop} (noted : ∀ s t d, J (s, d) → Noted s t → J (t, d))
    (memory : ∀ s, J s → s.1.bpram = m) : Quiet (userOps ρ) m J where
  getBlock b s present small here := wp_lift.mpr ((wp_getBlock present small).mpr ⟨rfl, here⟩)
  getIndir b s present small here := wp_lift.mpr ((wp_getBlock present small).mpr ⟨rfl, here⟩)
  loadAddr leaves b k s small here := wp_lift.mpr ((wp_loadAddr small).mpr ⟨by rw [memory s here], here⟩)
  noteIndir b indir s small here :=
    wp_lift.mpr (wp_mono (noteIndir_spec small) (fun _ t => noted s.1 t s.2 here) (fun _ _ never => never))

end Operations

section Store

variable {callback : CrawlCallback} {I : Nat → Fs → Prop} {Q : Fs → Prop} {s : Fs}

/-- A tree with room for a range is tall enough for it. -/
theorem treeHeight_le {n h : Nat} (low : h ≤ 5) (fits : n ≤ span h) : treeHeight (nblocksForNbytes n) ≤ h := by
  have wide : span h ≤ span 5 := span_mono low
  have most : span 5 = 2 ^ 57 := by decide
  by_contra tall
  have blocks : nblocksForNbytes n ≤ 512 ^ h := by
    rw [nblocksForNbytes_eq (by omega)]
    rw [span] at fits
    unfold blockSize at *
    omega
  have room : nblocksForNbytes n ≤ 512 ^ 5 := blocks.trans (Nat.pow_le_pow_right (by decide) low)
  have least := (treeHeight_spec room).2.2 h (by omega)
  omega

/-- `crawl_tree_ref` has nothing to prepare for a range inside the file. -/
theorem crawlTreePrepare_inside {R o h p n off fin prev : Nat} (root : RootIs s.bpram R o h p n) (some : n ≠ 0)
    (low : h ≤ 5) (fits : n ≤ span h) (before : off ≤ fin) (inside : fin ≤ n)
    {post : Root × Nat → Fs → Prop} {E : Err → Fs → Prop} (next : post (⟨.bpram R, o⟩, prev) s) :
    wp (crawlTreePrepare ⟨.bpram R, o⟩ off fin prev) post E s := by
  have height := root.treeRootHeight
  rw [if_neg some] at height
  have enough : max h (treeHeight (nblocksForNbytes fin)) = h :=
    Nat.max_eq_left (treeHeight_le low (inside.trans fits))
  unfold crawlTreePrepare
  simp only [wp_bind, wp_get, wp_check, height, enough, capacity_eq low, root.nbytes, Nat.min_eq_left fits,
    Nat.max_eq_left inside, Nat.lt_irrefl, if_false, wp_pure]
  rw [if_neg (show ¬n < off by omega)]
  simp only [pure_bind, wp_pure, ne_eq, not_true_eq_false, if_false, inside, le_refl, true_or, or_true, forall_const,
    false_imp_iff, and_true, next]

/-- It has nothing to finish if the tree is where it was. -/
theorem crawlTreeFinish_inside {R o h p n off fin prev : Nat} (root : RootIs s.bpram R o h p n) (inside : fin ≤ n)
    {post : Nat → Fs → Prop} {E : Err → Fs → Prop} (next : post prev s) :
    wp (crawlTreeFinish ⟨.bpram R, o⟩ off fin .atomic prev prev p true) post E s := by
  unfold crawlTreeFinish
  simp only [wp_bind, wp_get, root.addr, root.nbytes]
  rw [if_neg, wp_pure]
  · exact next
  · rintro (moved | longer | copied)
    · exact moved rfl
    · omega
    · exact copied rfl

/-- The only leaf of a tree, stored to in place. -/
theorem crawlOnlyLeaf_stores {c : Pass} (stores : c.commit = .atomic) (runs : c.Runs fsOps callback I Q) {p : Nat}
    (fits : c.g ≤ blockSize) (under : c.Under 0 0 p) (here : I c.lo s) :
    wp (Bpfs.crawlLeaf (some callback) none c.lo none p 0 c.lo (c.hi - c.lo) c.g .atomic) (Ends I Q p c.hi)
      (fun _ _ => False) s := by
  have less := c.less
  have valid := c.valid
  have meets : enter c.lo 0 < leave c.hi 0 0 := by
    rw [enter_zero, leave_zero (by rw [span_zero]; omega)]
    exact less
  obtain ⟨inside, number, small⟩ := under.leaf meets
  have present : p ≠ blocknoInvalid := number ▸ inside.present (by rw [stores]; decide)
  have whole : validIn c.g 0 0 = c.g := by rw [validIn_zero, span_zero, Nat.min_eq_left fits]
  have call := runs.call 0 s inside
  rw [enter_zero, leave_zero (by rw [span_zero]; omega), ← number, stores, whole, base, Nat.mul_zero, Nat.sub_zero,
    leafPtr, if_neg present] at call
  unfold Bpfs.crawlLeaf
  simp only [wp_bind, wp_check, if_neg (show ¬(Commit.atomic ≠ .none ∧ p = blocknoInvalid) from
    fun both => present both.2), if_neg (show ¬(p = blocknoInvalid ∧ Commit.atomic = .none) from
    fun both => present both.1), wp_pure, wp_map, wp_getBlock present small, if_true]
  refine ⟨fun _ => ⟨fun _ => ⟨fun _ => ⟨fun _ => call here, fun long => ?_⟩, fun long => ?_⟩, fun late => ?_⟩,
    fun late => ?_⟩
  · exact long fits
  · omega
  · omega
  · exact late (by rw [Nat.div_eq_of_lt (by omega)])

/-- `crawl_tree` with a store in place, inside the file. -/
theorem crawlTree_stores {c : Pass} (stores : c.commit = .atomic) (runs : c.Runs fsOps callback I Q) {R o h p prev : Nat}
    (low : h ≤ 5) (fits : c.g ≤ span h) (under : c.Under h 0 p)
    (rooted : ∀ t, I c.lo t ∨ I c.hi t ∨ Q t → RootIs t.bpram R o h p c.g) (here : I c.lo s) :
    wp (Bpfs.crawlTree ⟨.bpram R, o⟩ c.lo (c.hi - c.lo) .atomic callback prev) (Ends I Q prev c.hi)
      (fun _ _ => False) s := by
  have less := c.less
  have valid := c.valid
  have wide : span h ≤ span 5 := span_mono low
  have most : span 5 = 2 ^ 57 := by decide
  have root := rooted s (.inl here)
  have bytes : nbytesOfBlocks (512 ^ h) = span h := nbytesOfBlocks_eq low
  have notEof : ¬c.lo = bpfsEof := by
    unfold bpfsEof
    omega
  have part : ¬c.hi - c.lo = bpfsEof := by
    unfold bpfsEof
    omega
  have total : c.lo + (c.hi - c.lo) = c.hi := by omega
  have writes : Commit.atomic ≠ .none := by decide
  have plain : ¬(Commit.atomic = .atomic ∧ c.lo < c.g ∧ c.g < c.hi) := fun all => by omega
  unfold Bpfs.crawlTree crawlTreeRef
  simp only [wp_bind, wp_get, wp_check, root.nbytes, if_neg notEof, if_neg part, total, if_pos writes]
  refine ⟨fun _ => ⟨fun _ => ?_, fun wrong => absurd (.inl writes) wrong⟩, fun wrong => absurd (.inl part) wrong⟩
  apply crawlTreePrepare_inside root (by omega) low fits less.le valid
  simp only [root.height, root.addr, root.nbytes, treeMaxNblocks_eq (show h ≤ 6 by omega), bytes, Nat.min_eq_left fits,
    true_and, if_neg (show ¬(c.lo < c.g ∧ c.g < c.hi) by omega), ne_eq, reduceCtorEq, if_false]
  have settle : ∀ r t, Ends I Q p c.hi r t →
      wp (crawlTreeFinish ⟨.bpram R, o⟩ c.lo c.hi .atomic prev prev r.2 true >>= fun b => pure (r.1, b))
        (Ends I Q prev c.hi) (fun _ _ => False) t := by
    rintro r t ⟨kept, ending⟩
    have root' : RootIs t.bpram R o h p c.g := by
      rcases ending with ⟨-, after⟩ | ⟨-, stopped⟩
      · exact rooted t (.inr (.inl after))
      · exact rooted t (.inr (.inr stopped))
    rw [kept, wp_bind]
    apply crawlTreeFinish_inside root' valid
    rw [wp_pure]
    exact ⟨rfl, ending⟩
  rw [wp_ite]
  constructor
  · rintro rfl
    rw [if_pos (by omega)]
    exact wp_seq (crawlOnlyLeaf_stores stores runs (fits.trans_eq span_zero) under here) settle
  · intro inner
    cases h with
    | zero => exact absurd rfl inner
    | succ n =>
      have meets : enter c.lo 0 < leave c.hi (n + 1) 0 := by
        rw [enter_zero, leave_zero (by omega)]
        exact less
      have whole : validIn c.g (n + 1) 0 = c.g := by rw [validIn_zero, Nat.min_eq_left fits]
      have crawl := Pass.crawlIndir_still runs n 0 p s (by omega) under meets (by rwa [enter_zero])
      rw [enter_zero, leave_zero (by omega), whole, base, Nat.mul_zero, Nat.sub_zero, stores, ← fs_crawlIndir] at crawl
      exact wp_seq crawl settle

end Store

section Inodes

theorem noted_refl (s : Fs) : Noted s s := ⟨_, _, _, rfl⟩

theorem noted_trans {s t u : Fs} (first : Noted s t) (second : Noted t u) : Noted s u := by
  obtain ⟨_, _, _, rfl⟩ := first
  obtain ⟨mapping, accesses, calls, rfl⟩ := second
  exact ⟨mapping, accesses, calls, rfl⟩

theorem noted_inodeAlloc {s t : Fs} (noted : Noted s t) : t.inodeAlloc = s.inodeAlloc := by
  obtain ⟨_, _, _, rfl⟩ := noted
  rfl

/-- The states from which a crawl that started in `s` may go on. -/
theorem noted_quiet (s : Fs) : Quiet fsOps s.bpram (Noted s) :=
  fs_quiet (fun _ _ => noted_trans) fun _ => noted_bpram

/-- The same memory and the same bitmaps. -/
structure Alike (s t : Fs) : Prop where
  bpram : t.bpram = s.bpram
  blockAlloc : t.blockAlloc = s.blockAlloc
  inodeAlloc : t.inodeAlloc = s.inodeAlloc

theorem Alike.refl (s : Fs) : Alike s s := ⟨rfl, rfl, rfl⟩

theorem Alike.trans {s t u : Fs} (first : Alike s t) (second : Alike t u) : Alike s u where
  bpram := second.bpram.trans first.bpram
  blockAlloc := second.blockAlloc.trans first.blockAlloc
  inodeAlloc := second.inodeAlloc.trans first.inodeAlloc

theorem alike_noted {s t : Fs} (noted : Noted s t) : Alike s t :=
  ⟨noted_bpram noted, noted_blockAlloc noted, noted_inodeAlloc noted⟩

/-- Four bytes at `off` of block `b` were stored, and no other byte. -/
structure Stamped (b off value : Nat) (s t : Fs) : Prop where
  field : halfAt t.bpram b off = value % 2 ^ 32
  others : ∀ c k, ¬(c = b ∧ off ≤ k ∧ k < off + 4) → t.bpram c k = s.bpram c k
  blockAlloc : t.blockAlloc = s.blockAlloc
  inodeAlloc : t.inodeAlloc = s.inodeAlloc

theorem Stamped.after {s t u : Fs} {b off value : Nat} (alike : Alike s t) (stamped : Stamped b off value t u) :
    Stamped b off value s u where
  field := stamped.field
  others c k outside := by rw [stamped.others c k outside, alike.bpram]
  blockAlloc := stamped.blockAlloc.trans alike.blockAlloc
  inodeAlloc := stamped.inodeAlloc.trans alike.inodeAlloc

/-- A time stamp is set in place in the inode. -/
theorem callbackSetTime_stamps (field now b off : Nat) (s : Fs) :
    wp (callbackSetTime field now (.bpram b) off .atomic b)
      (fun r t => r = (0, b) ∧ Stamped b (off + field) now s t) (fun _ _ => False) s := by
  unfold callbackSetTime writable storeHalf storeNvm
  simp only [wp_bind, wp_check, reduceCtorEq, if_false, pure_bind, wp_modify, wp_pure, ne_eq, not_false_eq_true,
    forall_const, not_true_eq_false, false_imp_iff, and_true, true_and]
  refine ⟨?_, fun c k outside => apply_uncovered outside, rfl, rfl⟩
  unfold halfAt
  rw [show 2 ^ 32 = 256 ^ 4 by decide, ← leValue_leByte]
  apply leValue_congr
  intro i inside
  refine (apply_covered ⟨rfl, Nat.le_add_right _ _, Nat.add_lt_add_left inside _⟩).trans ?_
  exact congrArg (leByte now) (Nat.add_sub_cancel_left _ _)

/-- A leaf that is not on the way to itself stays where it is when its bytes change. -/
theorem leafAt_apart {m m' : Mem} {h p y : Nat} (nodup : (treePath m h p y).Nodup)
    (same : ∀ b, b ≠ leafAt m h p y → m' b = m b) :
    leafAt m' h p y = leafAt m h p y ∧ treePath m' h p y = treePath m h p y := by
  induction h generalizing p y with
  | zero => exact ⟨rfl, rfl⟩
  | succ h ih =>
    by_cases hole : p = 0
    · subst hole
      simp
    rw [treePath_succ hole, List.nodup_cons] at nodup
    have other : p ≠ leafAt m (h + 1) p y := by
      rw [leafAt_succ hole]
      intro leaf
      have present : leafAt m h (addrAt m p (y / span h)) (y % span h) ≠ 0 := by rwa [← leaf]
      have member := mem_treePath_leaf present
      rw [← leaf] at member
      exact nodup.1 member
    rw [leafAt_succ hole] at same other ⊢
    rw [leafAt_succ hole, treePath_succ hole, treePath_succ hole, addrAt_congr (same p other)]
    obtain ⟨leaf, path⟩ := ih nodup.2 same
    exact ⟨leaf, by rw [path]⟩

namespace InodeAt

variable {s : Fs} {ino R h p n B : Nat} (inode : InodeAt s.bpram ino R h p n B) (known : ino - 1 < s.inodeAlloc.ntotal)

include known

theorem known_noted {t : Fs} (noted : Noted s t) : ino - 1 < t.inodeAlloc.ntotal := by
  rwa [noted_inodeAlloc noted]

include inode

/-- `crawl_inode` with a store in place. -/
theorem crawlInode_stores {callback : CrawlCallbackInode} {K : Fs → Prop}
    (kept : ∀ t, K t → superInodeRootAddr t.bpram = R ∧ RootIs t.bpram R 0 h p n)
    (call : ∀ t, Noted s t → wp (callback (.bpram B) (inodeOff ino) .atomic B) (fun r u => r = (0, B) ∧ K u)
      (fun _ _ => False) t) :
    wp (Bpfs.crawlInode ino .atomic callback) (fun r t => r = 0 ∧ K t) (fun _ _ => False) s := by
  have offset : wp (getInodeOffset fsOps id ino) _ _ s := inode.getInodeOffset_reads (noted_quiet s)
    (fun t => noted_bpram) (fun t => known_noted known) (noted_refl s)
  have runs : (inode.pass .atomic (.inr rfl)).Runs fsOps (Bpfs.callbackCrawlInode callback) _ (fun _ => False) :=
    inode.runs (K := K) (.inr rfl) (noted_quiet s) fun t noted => wp_mono (call t noted) (fun r u done => ⟨by rw [done.1], .inl ⟨by rw [done.1], done.2⟩⟩)
      (fun _ _ never => never)
  have before : phase ((ino - 1) * inodeSize + inodeSize) (Noted s) K ((ino - 1) * inodeSize) = Noted s :=
    phase_before (Nat.lt_add_of_pos_right (by decide))
  unfold Bpfs.crawlInode
  rw [fs_getInodeOffset]
  refine wp_seq offset ?_
  rintro _ t ⟨rfl, there⟩
  unfold Bpfs.crawlInodes
  rw [fs_getInodeRoot]
  refine wp_seq (inode.getInodeRoot_reads (noted_quiet s) (fun t => noted_bpram) there) ?_
  rintro _ u ⟨rfl, ready⟩
  rw [wp_bind, wp_get, noted_bpram ready, inode.super]
  have size : inodeSize = (inode.pass .atomic (.inr rfl)).hi - (inode.pass .atomic (.inr rfl)).lo :=
    (Nat.add_sub_cancel_left _ _).symm
  have rooted : ∀ t, phase ((ino - 1) * inodeSize + inodeSize) (Noted s) K ((ino - 1) * inodeSize) t ∨
      phase ((ino - 1) * inodeSize + inodeSize) (Noted s) K ((ino - 1) * inodeSize + inodeSize) t ∨ False →
      RootIs t.bpram R 0 h p n := by
    intro t known
    rw [before, phase_end] at known
    rcases known with noted | after | never
    · rw [noted_bpram noted]
      exact inode.root
    · exact (kept t after).2
    · exact never.elim
  have crawl : wp (Bpfs.crawlTree ⟨.bpram R, 0⟩ _ _ .atomic (Bpfs.callbackCrawlInode callback) R) _ _ u :=
    crawlTree_stores rfl runs inode.low inode.fits (inode.pass_under .atomic (.inr rfl)) rooted (before.symm ▸ ready)
  rw [← size] at crawl
  refine wp_seq crawl ?_
  rintro ⟨r, b⟩ v ⟨same, ending⟩
  rw [show (inode.pass .atomic (.inr rfl)).hi = (ino - 1) * inodeSize + inodeSize from rfl, phase_end] at ending
  rcases ending with ⟨zero, after⟩ | ⟨-, never⟩
  · dsimp only at same zero ⊢
    rw [wp_bind, wp_get, (kept v after).1, same, if_neg (not_not.mpr rfl), wp_pure]
    exact ⟨zero, after⟩
  · exact never.elim

/-- `get_inode`. -/
theorem getInode_reads :
    wp (getInode ino) (fun r t => r = (.bpram B, inodeOff ino) ∧ Alike s t) (fun _ _ => False) s := by
  have crawl : wp (crawlInode fsOps id ino callbackGetInode)
      (fun r t => r = 0 ∧ (Alike s t ∧ t.inode = (.bpram B, inodeOff ino)) ∨ r = 1 ∧ False) (fun _ _ => False) s := by
    refine inode.crawlInode_reads (noted_quiet s) ?_ (fun t => known_noted known) ?_ (noted_refl s)
    · rintro t (noted | after | never)
      · exact noted_bpram noted
      · exact after.1.bpram
      · exact never.elim
    · intro t noted
      unfold callbackGetInode
      rw [wp_bind, wp_modify, wp_pure]
      exact ⟨rfl, .inl ⟨rfl, (alike_noted noted).trans ⟨rfl, rfl, rfl⟩, rfl⟩⟩
  unfold getInode
  rw [fs_crawlInode]
  refine wp_seq crawl ?_
  rintro r t (⟨-, alike, found⟩ | ⟨-, never⟩)
  · rw [wp_bind, wp_get, wp_pure]
    exact ⟨found, alike⟩
  · exact never.elim

omit known

/-- A store to the inode's block that leaves the way to it as it was. -/
theorem stays {m : Mem} (apart : B ≠ R ∧ B ≠ blocknoSuper)
    (nodup : (treePath s.bpram h p ((ino - 1) * inodeSize)).Nodup) (same : ∀ b, b ≠ B → m b = s.bpram b) :
    InodeAt m ino R h p n B := by
  have way := leafAt_apart nodup fun b other => same b (inode.leaf ▸ other)
  exact
    { number := inode.number
      super := by
        rw [← inode.super, superInodeRootAddr, superInodeRootAddr, wordAt, same _ apart.2.symm]
        rfl
      block := inode.block
      root := inode.root.congr fun k _ _ => by rw [same _ apart.1.symm]
      low := inode.low
      fits := inode.fits
      inside := inode.inside
      small := way.2 ▸ inode.small
      leaf := way.1.trans inode.leaf
      present := inode.present }

include known

/-- A time stamp of the inode is set in place. -/
theorem setTime_stamps (apart : B ≠ R ∧ B ≠ blocknoSuper)
    (nodup : (treePath s.bpram h p ((ino - 1) * inodeSize)).Nodup) (field now : Nat) :
    wp (Bpfs.crawlInode ino .atomic (callbackSetTime field now))
      (fun r t => r = 0 ∧ Stamped B (inodeOff ino + field) now s t) (fun _ _ => False) s := by
  apply inode.crawlInode_stores known
  · intro t stamped
    have stays : InodeAt t.bpram ino R h p n B := inode.stays apart nodup fun b other => by
      funext k
      exact stamped.others b k fun inside => other inside.1
    exact ⟨stays.super, stays.root⟩
  · intro t noted
    refine wp_mono (callbackSetTime_stamps field now B (inodeOff ino) t) ?_ (fun _ _ never => never)
    rintro r u ⟨result, stamped⟩
    exact ⟨result, stamped.after (alike_noted noted)⟩

end InodeAt

end Inodes

end Bpfs.Walk
