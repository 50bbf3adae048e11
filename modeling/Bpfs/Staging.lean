import Bpfs.LruEvict

/-! The staging queue. A use of a block puts a node at the end of the queue, and the
manager's thread moves the nodes from there to the list of recently used blocks. The
two take turns in any order. -/

namespace Bpfs
open Lib

/-- The manager's state, the `node` that its thread is about to push, and the block
numbers of the nodes it has pushed so far. -/
structure Manager where
  lru : Lru
  queueHead : Nat
  queueTail : Nat
  queueElements : Nat
  node : Nat
  delivered : List Nat

abbrev ManagerM := EStateM LruErr Manager

namespace Manager

/-- An action on the heap and the list. -/
def onLru {α : Type} (x : LruM α) : ManagerM α := fun m =>
  match x m.lru with
  | .ok a s => .ok a { m with lru := s }
  | .error e s => .error e { m with lru := s }

/-- `lru_staging_queue_push`. -/
def stagingQueuePush (node : Nat) : ManagerM Unit := do
  let m ← get
  if m.queueHead = 0 then
    modify fun m => { m with queueHead := node, queueTail := node }
  else
    onLru (Lru.storeNext m.queueTail node)
    onLru (Lru.storePrev node m.queueTail)
    modify fun m => { m with queueTail := node }
  modify fun m => { m with queueElements := u64 (m.queueElements + 1) }

/-- `lru_staging_queue_pop`. -/
def stagingQueuePop : ManagerM Nat := do
  let m ← get
  if m.queueHead = 0 then pure 0
  else
    if m.queueHead = m.queueTail then
      modify fun m => { m with queueHead := 0, queueTail := 0 }
    else
      let n ← onLru (Lru.loadNode m.queueHead)
      modify fun m => { m with queueHead := n.next }
      onLru (Lru.storePrev n.next 0)
    modify fun m => { m with queueElements := usub m.queueElements 1 }
    pure m.queueHead

/-- `anti_cache_manager_access`, with the address that `malloc` gives out. The assertion's
mask is `1 << 63`, a shift that is wider than an `int`, so its value is left open. -/
def access (mask node blockno : Nat) : ManagerM Unit := do
  if blockno &&& mask ≠ 0 then throw .assertion
  onLru (Lru.mallocNode node blockno)
  stagingQueuePush node

/-- What the loop of `anti_cache_manager_update_lru` does next: it takes a node off the
queue, or it pushes the one it has. -/
def updateLruStep : ManagerM Unit := do
  let m ← get
  if m.node = 0 then
    let node ← stagingQueuePop
    modify fun m => { m with node := node }
  else
    let n ← onLru (Lru.loadNode m.node)
    onLru (Lru.lruPush m.node)
    modify fun m => { m with node := 0, delivered := m.delivered ++ [n.value] }

inductive Step where
  | access (node blockno : Nat)
  | update
  deriving DecidableEq, Repr

def Step.run (mask : Nat) : Step → ManagerM Unit
  | .access node blockno => Manager.access mask node blockno
  | .update => updateLruStep

def run (mask : Nat) : List Step → ManagerM Unit
  | [] => pure ()
  | step :: steps => do
      step.run mask
      run mask steps

/-- The block numbers that a run uses, in order. -/
def accesses : List Step → List Nat
  | [] => []
  | .access _ blockno :: steps => blockno :: accesses steps
  | .update :: steps => accesses steps

/-! ### Where the nodes are -/

variable {m : Manager} {l q : List Nat} {mask a b : Nat}

/-- The nodes that are on their way, the one in the thread's hand first. -/
def waiting (node : Nat) (q : List Nat) : List Nat := if node = 0 then q else node :: q

/-- Different nodes that are in use and not in the list. -/
structure Apart (heap : Heap Nat) (l w : List Nat) : Prop where
  nodup : w.Nodup
  present : ∀ a ∈ w, a ≠ 0 ∧ a < 2 ^ 64
  out : ∀ a ∈ w, a ∉ l
  live : ∀ a ∈ w, heap a ≠ none

/-- The list of recently used blocks has the nodes `l`, the queue has the nodes `q`, and
the nodes on their way are not in the list. -/
structure Tracks (m : Manager) (l q : List Nat) : Prop where
  describes : m.lru.Describes l
  count : m.lru.numElements = l.length
  queue : Linked m.lru.heap 0 q 0
  head : m.queueHead = q.headD 0
  tail : q ≠ [] → m.queueTail = q.getLastD 0
  apart : Apart m.lru.heap l (waiting m.node q)

section Rules

variable {Q : Unit → Manager → Prop} {E : LruErr → Manager → Prop}

theorem wp_onLru {α : Type} {x : LruM α} {Q : α → Manager → Prop} :
    wp (onLru x) Q E m ↔ wp x (fun v s => Q v { m with lru := s }) (fun e s => E e { m with lru := s }) m.lru := by
  unfold wp onLru
  cases x m.lru <;> rfl

end Rules

theorem waiting_mem {node : Nat} (member : a ∈ q) : a ∈ waiting node q := by
  unfold waiting
  split
  · exact member
  · exact List.mem_cons_of_mem _ member

theorem Tracks.queue_nodup (tracks : m.Tracks l q) : q.Nodup := by
  have nodup := tracks.apart.nodup
  unfold waiting at nodup
  split at nodup
  · exact nodup
  · exact (List.nodup_cons.mp nodup).2

theorem Tracks.empty_iff (tracks : m.Tracks l q) : m.queueHead = 0 ↔ q = [] := by
  rw [tracks.head]
  cases q with
  | nil => exact iff_of_true rfl rfl
  | cons c rest => exact iff_of_false (tracks.apart.present c (waiting_mem (List.mem_cons_self ..))).1 (List.cons_ne_nil c rest)

/-- `malloc` gives out addresses that are not in use. -/
def Step.Fresh (m : Manager) : Step → Prop
  | .access node _ => node ≠ 0 ∧ node < 2 ^ 64 ∧ m.lru.heap node = none
  | .update => True

/-- The assertion of `anti_cache_manager_access` lets the block number pass. -/
def Step.Passes (mask : Nat) : Step → Prop
  | .access _ blockno => blockno &&& mask = 0
  | .update => True

theorem waiting_append {node : Nat} : waiting node (q ++ [a]) = waiting node q ++ [a] := by
  unfold waiting
  split <;> rfl

/-- A node of the list or on its way does not change. -/
theorem Tracks.frame {heap : Heap Nat} (tracks : m.Tracks l q) (same : ∀ c, m.lru.heap c ≠ none → heap c = m.lru.heap c)
    (null : heap 0 = none) : ({ m with lru := { m.lru with heap := heap } } : Manager).Tracks l q := by
  refine ⟨tracks.describes.frame (fun c member => same c (tracks.describes.linked.live member)) null rfl rfl rfl,
    tracks.count, tracks.queue.congr (fun c member => same c (tracks.apart.live c (waiting_mem member))), tracks.head,
    tracks.tail, tracks.apart.nodup, tracks.apart.present, tracks.apart.out, fun c member => ?_⟩
  have live := tracks.apart.live c member
  change heap c ≠ none
  rw [same c live]
  exact live

/-- A node is added at the end of the queue, and no node outside the queue changes. -/
theorem Tracks.append {heap : Heap Nat} (tracks : m.Tracks l q) (bound : a ≠ 0 ∧ a < 2 ^ 64) (new : a ∉ l)
    (out : a ∉ waiting m.node q) (queue : Linked heap 0 (q ++ [a]) 0)
    (frame : ∀ c, c ≠ a → c ∉ q → heap c = m.lru.heap c) (live : ∀ c, m.lru.heap c ≠ none → heap c ≠ none)
    (count : Nat) :
    ({ m with lru := { m.lru with heap := heap }, queueHead := (q ++ [a]).headD 0, queueTail := a,
              queueElements := count } : Manager).Tracks l (q ++ [a]) := by
  have null : (0 : Nat) ∉ q := fun member => (tracks.apart.present 0 (waiting_mem member)).1 rfl
  refine ⟨tracks.describes.frame (fun c member => ?_) ?_ rfl rfl rfl, tracks.count, queue, rfl, fun _ => ?_, ?_⟩
  · exact frame c (fun same => new (same ▸ member)) (fun inside => tracks.apart.out c (waiting_mem inside) member)
  · exact (frame 0 (Ne.symm bound.1) null).trans tracks.describes.null
  · rw [List.getLastD_concat]
  · rw [waiting_append]
    refine ⟨List.nodup_append.mpr ⟨tracks.apart.nodup, List.nodup_singleton a, fun c member d last same => ?_⟩,
      List.forall_mem_append.mpr ⟨tracks.apart.present, List.forall_mem_singleton.mpr bound⟩,
      List.forall_mem_append.mpr ⟨tracks.apart.out, List.forall_mem_singleton.mpr new⟩,
      List.forall_mem_append.mpr ⟨fun c member => live c (tracks.apart.live c member), List.forall_mem_singleton.mpr ?_⟩⟩
    · rw [same, List.mem_singleton.mp last] at member
      exact out member
    · exact queue.live (List.mem_append_right _ (List.mem_singleton_self a))

theorem stagingQueuePush_spec (tracks : m.Tracks l q) (bound : a ≠ 0 ∧ a < 2 ^ 64) (new : a ∉ l)
    (out : a ∉ waiting m.node q) (here : m.lru.heap a = some ⟨b, 0, 0⟩) :
    wp (stagingQueuePush a)
      (fun _ t => t.Tracks l (q ++ [a]) ∧ t.node = m.node ∧ t.delivered = m.delivered ∧
        ∀ c, t.lru.heap.valueAt c = m.lru.heap.valueAt c)
      (fun _ _ => False) m := by
  have away : a ∉ q := fun member => out (waiting_mem member)
  simp only [stagingQueuePush, wp_bind, wp_get]
  rw [wp_ite, tracks.empty_iff]
  refine ⟨fun empty => ?_, fun some => ?_⟩
  · subst empty
    rw [wp_bind, wp_modify, wp_modify]
    exact ⟨tracks.append bound new out ⟨⟨b, here⟩, trivial⟩ (fun _ _ _ => rfl) (fun _ used => used) _, rfl, rfl,
      fun _ => rfl⟩
  · obtain ⟨init, z, rfl⟩ := (List.eq_nil_or_concat' q).resolve_left some
    have member : z ∈ init ++ [z] := List.mem_append_right _ (List.mem_singleton_self z)
    have tail : m.queueTail = z := by rw [tracks.tail (by simp), List.getLastD_concat]
    have present : z ≠ 0 := (tracks.apart.present z (waiting_mem member)).1
    have live : m.lru.heap a ≠ none := by rw [here]; exact Option.some_ne_none _
    have first : m.queueHead = (init ++ [z] ++ [a]).headD 0 := by
      rw [tracks.head]
      cases init <;> rfl
    rw [tail, wp_bind, wp_onLru, Lru.wp_storeNext present (tracks.apart.live z (waiting_mem member)), wp_bind, wp_onLru]
    refine (Lru.wp_storePrev bound.1 ?_).mpr ?_
    · rw [ne_eq, Heap.setNext_eq_none]
      exact live
    rw [wp_bind, wp_modify, wp_modify]
    have grown := tracks.append bound new out (tracks.queue.snoc tracks.queue_nodup here away)
      (fun c off outside => ?_) (fun c used => ?_) (u64 (m.queueElements + 1))
    · rw [← first] at grown
      refine ⟨grown, rfl, rfl, fun c => ?_⟩
      exact (Heap.valueAt_setPrev _ _ _ c).trans (Heap.valueAt_setNext _ _ _ c)
    · have apart : c ≠ z := fun same => outside (same ▸ member)
      rw [Heap.setPrev_other _ _ off, Heap.setNext_other _ _ apart]
    · rw [ne_eq, Heap.setPrev_eq_none, Heap.setNext_eq_none]
      exact used

/-- A used block gets a new node at the end of the queue. -/
theorem access_spec (tracks : m.Tracks l q) (fresh : (Step.access a b).Fresh m) (passes : b &&& mask = 0) :
    wp (access mask a b)
      (fun _ t => t.Tracks l (q ++ [a]) ∧ t.node = m.node ∧ t.delivered = m.delivered ∧
        t.lru.heap.valueAt a = some b ∧ ∀ c, m.lru.heap c ≠ none → t.lru.heap.valueAt c = m.lru.heap.valueAt c)
      (fun _ _ => False) m := by
  obtain ⟨nonzero, small, unused⟩ := fresh
  have here : (m.lru.heap.set a (some ⟨b, 0, 0⟩)) a = some ⟨b, 0, 0⟩ := Heap.set_self _ _ _
  have other : ∀ c, m.lru.heap c ≠ none → (m.lru.heap.set a (some ⟨b, 0, 0⟩)) c = m.lru.heap c :=
    fun c used => Heap.set_other _ _ (fun same => used (same ▸ unused))
  have made := tracks.frame other ((Heap.set_other _ _ (Ne.symm nonzero)).trans tracks.describes.null)
  simp only [access]
  rw [if_neg (not_not.mpr passes), wp_bind, wp_onLru, Lru.mallocNode, wp_modify]
  refine wp_mono (stagingQueuePush_spec made ⟨nonzero, small⟩ (fun member => ?_) (fun member => ?_) here) ?_
    (fun _ _ never => never)
  · exact tracks.describes.linked.live member unused
  · exact tracks.apart.live a member unused
  · rintro - t ⟨grown, node, delivered, values⟩
    refine ⟨grown, node, delivered, ?_, fun c used => ?_⟩
    · rw [values]
      exact congrArg (Option.map Node.value) here
    · rw [values]
      exact congrArg (Option.map Node.value) (other c used)

/-- With nothing in its hand, the thread takes the first node off the queue. -/
theorem stagingQueuePop_spec (tracks : m.Tracks l q) (idle : m.node = 0) :
    wp stagingQueuePop
      (fun node t => ({ t with node := node } : Manager).Tracks l q.tail ∧ waiting node q.tail = q ∧
        t.delivered = m.delivered ∧ ∀ c, t.lru.heap.valueAt c = m.lru.heap.valueAt c)
      (fun _ _ => False) m := by
  have whole : waiting m.node q = q := if_pos idle
  have apart := tracks.apart
  rw [whole] at apart
  cases q with
  | nil =>
    have none : m.queueHead = 0 := tracks.head
    simp only [stagingQueuePop, wp_bind, wp_get]
    rw [if_pos none, wp_pure]
    refine ⟨?_, rfl, rfl, fun _ => rfl⟩
    rw [← idle]
    exact tracks
  | cons a rest =>
    have nonzero : a ≠ 0 := (apart.present a (List.mem_cons_self ..)).1
    have held : waiting a rest = a :: rest := if_neg nonzero
    have tail := tracks.tail (List.cons_ne_nil a rest)
    have first : m.queueHead = a := tracks.head
    simp only [stagingQueuePop, wp_bind, wp_get, first]
    rw [if_neg nonzero]
    cases rest with
    | nil =>
      rw [if_pos (by rw [tail]; rfl), wp_bind, wp_modify, wp_bind, wp_modify, wp_pure]
      exact ⟨⟨tracks.describes, tracks.count, trivial, rfl, fun some => absurd rfl some, held.symm ▸ apart⟩, held, rfl,
        fun _ => rfl⟩
    | cons b rest =>
      obtain ⟨⟨v, here⟩, later⟩ := tracks.queue
      have inner := List.nodup_cons.mp apart.nodup
      have inside : b ∈ a :: b :: rest := List.mem_cons_of_mem _ (List.mem_cons_self ..)
      have different : ¬a = m.queueTail := by
        obtain ⟨init, z, split⟩ := (List.eq_nil_or_concat' (b :: rest)).resolve_left (by simp)
        rw [tail, split, ← List.cons_append, List.getLastD_concat]
        rintro rfl
        exact inner.1 (split ▸ List.mem_append_right _ (List.mem_singleton_self a))
      rw [if_neg different, wp_bind, wp_onLru]
      refine (Lru.wp_loadNode nonzero here).mpr ?_
      rw [wp_bind, wp_modify, wp_bind, wp_onLru]
      refine (Lru.wp_storePrev (apart.present b inside).1 (apart.live b inside)).mpr ?_
      rw [wp_bind, wp_modify, wp_pure]
      have moved : Apart (m.lru.heap.setPrev b 0) l (a :: b :: rest) :=
        ⟨apart.nodup, apart.present, apart.out,
          fun c member none => apart.live c member ((Heap.setPrev_eq_none _ _).mp none)⟩
      refine ⟨⟨tracks.describes.frame (fun c member => ?_) ?_ rfl rfl rfl, tracks.count,
        tracks.queue.tail inner.2, rfl, fun _ => ?_, held.symm ▸ moved⟩, held, rfl,
        fun c => Heap.valueAt_setPrev _ _ _ c⟩
      · exact Heap.setPrev_other _ _ (fun same => apart.out b inside (same ▸ member))
      · exact (Heap.setPrev_eq_none _ _).mpr tracks.describes.null
      · exact tail.trans (List.getLastD_cons ..)

/-- The thread moves the block of the node in its hand to the front of the list. -/
theorem deliver_spec (tracks : m.Tracks l q) (busy : m.node ≠ 0) (value : m.lru.heap.valueAt m.node = some b) :
    wp updateLruStep
      (fun _ t => ∃ l', t.Tracks l' q ∧ t.node = 0 ∧ t.delivered = m.delivered ++ [b] ∧
        l'.map m.lru.heap.valueAt = touch (some b) (l.map m.lru.heap.valueAt) ∧
        ∀ c, t.lru.heap.valueAt c = m.lru.heap.valueAt c)
      (fun _ _ => False) m := by
  have apart := tracks.apart
  have held : waiting m.node q = m.node :: q := if_neg busy
  rw [held] at apart
  have mine : m.node ∈ m.node :: q := List.mem_cons_self ..
  have inner := List.nodup_cons.mp apart.nodup
  obtain ⟨node, here, rfl⟩ := Option.map_eq_some_iff.mp value
  simp only [updateLruStep, wp_bind, wp_get]
  rw [if_neg busy, wp_bind, wp_onLru, Lru.wp_loadNode busy here, wp_bind, wp_onLru]
  refine wp_mono (Lru.lruPush_spec tracks.describes tracks.count (apart.present _ mine) (apart.out _ mine) value) ?_
    (fun _ _ never => never)
  rintro - s ⟨l', pushed⟩
  have frame : ∀ c ∈ q, s.heap c = m.lru.heap c := by
    intro c member
    exact pushed.frame c (fun same => inner.1 (same ▸ member)) (apart.out c (List.mem_cons_of_mem _ member))
  rw [wp_modify]
  refine ⟨l', ⟨pushed.describes, pushed.count, tracks.queue.congr frame, tracks.head, tracks.tail, ?_⟩, rfl, rfl,
    pushed.order, pushed.values⟩
  refine ⟨inner.2, fun c member => apart.present c (List.mem_cons_of_mem _ member), fun c member inside => ?_,
    fun c member => ?_⟩
  · rcases pushed.inside c inside with same | old
    · exact inner.1 (same ▸ member)
    · exact apart.out c (List.mem_cons_of_mem _ member) old
  · change s.heap c ≠ none
    rw [frame c member]
    exact apart.live c (List.mem_cons_of_mem _ member)

/-! ### Whole runs -/

/-- How many steps the thread takes until the queue is empty and its hand, too. -/
def toDo (m : Manager) (q : List Nat) : Nat := 2 * q.length + if m.node = 0 then 0 else 1

/-- Of the blocks `used` since the list had the blocks `bs`, the first ones are delivered,
the others are on their way in order, and the list has the delivered ones by recency. -/
def Accounts (m : Manager) (bs used q : List Nat) : Prop :=
  ∃ l pending, m.Tracks l q ∧ (waiting m.node q).map m.lru.heap.valueAt = pending.map some ∧
    m.delivered ++ pending = used ∧
    l.map m.lru.heap.valueAt = (m.delivered.reverse ++ bs).eraseDups.map some

variable {bs used : List Nat}

theorem Accounts.access (accounts : m.Accounts bs used q) (fresh : (Step.access a b).Fresh m)
    (passes : b &&& mask = 0) :
    wp (access mask a b) (fun _ t => t.Accounts bs (used ++ [b]) (q ++ [a])) (fun _ _ => False) m := by
  obtain ⟨l, pending, tracks, way, rfl, order⟩ := accounts
  refine wp_mono (access_spec tracks fresh passes) ?_ (fun _ _ never => never)
  rintro - t ⟨grown, node, delivered, value, values⟩
  refine ⟨l, pending ++ [b], grown, ?_, by rw [delivered, List.append_assoc], ?_⟩
  · rw [node, waiting_append, List.map_append, List.map_append, ← way, List.map_singleton, value]
    congr 1
    exact List.map_congr_left (fun c member => values c (tracks.apart.live c member))
  · rw [delivered, ← order]
    exact List.map_congr_left (fun c member => values c (tracks.describes.linked.live member))

theorem Accounts.update (accounts : m.Accounts bs used q) :
    wp updateLruStep (fun _ t => ∃ q', t.Accounts bs used q' ∧ t.toDo q' = m.toDo q - 1) (fun _ _ => False) m := by
  obtain ⟨l, pending, tracks, way, rfl, order⟩ := accounts
  by_cases idle : m.node = 0
  · simp only [updateLruStep, wp_bind, wp_get]
    rw [if_pos idle, wp_bind]
    refine wp_mono (stagingQueuePop_spec tracks idle) ?_ (fun _ _ never => never)
    rintro node t ⟨shorter, held, delivered, values⟩
    rw [wp_modify]
    have whole : waiting m.node q = q := if_pos idle
    refine ⟨q.tail, ⟨l, pending, shorter, ?_, ?_, ?_⟩, ?_⟩
    · rw [held, ← way, whole]
      exact List.map_congr_left (fun c _ => values c)
    · rw [delivered]
    · rw [delivered, ← order]
      exact List.map_congr_left (fun c _ => values c)
    · have sizes := congrArg List.length held
      unfold waiting at sizes
      simp only [toDo, idle, if_true]
      split at sizes <;> simp_all <;> omega
  · have held : waiting m.node q = m.node :: q := if_neg idle
    rw [held] at way
    cases pending with
    | nil => simp at way
    | cons b pending =>
      obtain ⟨value, later⟩ := List.cons.inj way
      refine wp_mono (deliver_spec tracks idle value) ?_ (fun _ _ never => never)
      rintro - t ⟨l', moved, node, delivered, front, values⟩
      refine ⟨q, ⟨l', pending, moved, ?_, by rw [delivered, List.append_assoc]; rfl, ?_⟩, ?_⟩
      · rw [waiting, if_pos node, ← later]
        exact List.map_congr_left (fun c _ => values c)
      · rw [order, touch_map (fun _ _ => Option.some.inj), touch_eraseDups] at front
        rw [delivered, List.reverse_append, List.reverse_singleton]
        exact (List.map_congr_left (fun c _ => values c)).trans front
      · simp only [toDo, node, idle, if_true, if_false]
        omega

/-- The queue is empty, and so is the thread's hand. -/
def Drained (m : Manager) : Prop := m.queueHead = 0 ∧ m.node = 0

theorem Accounts.drained_iff (accounts : m.Accounts bs used q) : m.Drained ↔ m.toDo q = 0 := by
  obtain ⟨l, pending, tracks, -⟩ := accounts
  rw [Drained, tracks.empty_iff, ← List.length_eq_zero_iff, toDo]
  split <;> omega

/-- Once everything is drained, all used blocks are delivered in order and the list has
them by recency. -/
theorem Accounts.delivered (accounts : m.Accounts bs used q) (drained : m.Drained) :
    m.delivered = used ∧ m.lru.Recent (used.reverse ++ bs).eraseDups := by
  obtain ⟨l, pending, tracks, way, rfl, order⟩ := accounts
  rw [waiting, if_pos drained.2, tracks.empty_iff.mp drained.1] at way
  have none : pending = [] := List.map_eq_nil_iff.mp way.symm
  rw [none, List.append_nil]
  exact ⟨rfl, l, tracks.describes, tracks.count, order⟩

/-- Every call of a run gets a fresh node and a block number that passes the assertion. -/
def Allowed (mask : Nat) : Manager → List Step → Prop
  | _, [] => True
  | m, step :: steps => step.Fresh m ∧ step.Passes mask ∧ ∀ t, step.run mask m = .ok () t → Allowed mask t steps

theorem run_accounts {steps : List Step} (accounts : m.Accounts bs used q) (allowed : Allowed mask m steps) :
    wp (run mask steps) (fun _ t => ∃ q', t.Accounts bs (used ++ accesses steps) q') (fun _ _ => False) m := by
  induction steps generalizing m used q with
  | nil =>
    refine ⟨q, ?_⟩
    rw [accesses, List.append_nil]
    exact accounts
  | cons step steps ih =>
    obtain ⟨fresh, passes, later⟩ := allowed
    unfold run
    rw [wp_bind]
    cases step with
    | access node blockno =>
      obtain ⟨⟨⟩, t, done, accounted⟩ := ok_of_wp (accounts.access fresh passes)
      refine (wp_ok done).mpr (wp_mono (ih accounted (later t done)) ?_ (fun _ _ never => never))
      rintro - u ⟨q', final⟩
      rw [List.append_assoc] at final
      exact ⟨q', final⟩
    | update =>
      obtain ⟨⟨⟩, t, done, q', accounted, -⟩ := ok_of_wp accounts.update
      exact (wp_ok done).mpr (ih accounted (later t done))

/-- The thread alone empties the queue. -/
theorem run_drains {n : Nat} (accounts : m.Accounts bs used q) (enough : m.toDo q ≤ n) :
    wp (run mask (List.replicate n .update)) (fun _ t => t.Drained) (fun _ _ => False) m := by
  induction n generalizing m q with
  | zero => exact accounts.drained_iff.mpr (Nat.le_zero.mp enough)
  | succ n ih =>
    rw [List.replicate_succ, run, wp_bind]
    obtain ⟨⟨⟩, t, done, q', accounted, less⟩ := ok_of_wp accounts.update
    exact (wp_ok done).mpr (ih accounted (by omega))

theorem start_accounts (recent : m.lru.Recent bs) (drained : m.Drained) (none : m.delivered = []) :
    m.Accounts bs [] [] := by
  obtain ⟨l, holds, count, values⟩ := recent
  have empty : waiting m.node [] = [] := if_pos drained.2
  refine ⟨l, [], ⟨holds, count, trivial, drained.1, fun some => absurd rfl some, ?_⟩, ?_, ?_, ?_⟩
  · rw [empty]
    exact ⟨List.nodup_nil, by simp, by simp, by simp⟩
  · rw [empty]
    rfl
  · rw [none]
    rfl
  · rw [none, List.reverse_nil, List.nil_append, eraseDups_of_nodup (Lru.Recent.nodup ⟨l, holds, count, values⟩), values]

/-- However the uses of blocks and the steps of the thread alternate, no call goes wrong;
when everything is drained, each use has been delivered once and in order and the list
has the distinct blocks in the order of their last use; and the thread can always drain
what is there. -/
theorem staging_drained {steps : List Step} (recent : m.lru.Recent bs) (drained : m.Drained) (none : m.delivered = [])
    (allowed : Allowed mask m steps) :
    ∃ t, run mask steps m = .ok () t ∧
      (t.Drained → t.delivered = accesses steps ∧ t.lru.Inv ∧ t.lru.Recent ((accesses steps).reverse ++ bs).eraseDups) ∧
      ∃ n u, run mask (List.replicate n .update) t = .ok () u ∧ u.Drained := by
  obtain ⟨⟨⟩, t, done, q, accounts⟩ := ok_of_wp (run_accounts (start_accounts recent drained none) allowed)
  refine ⟨t, done, fun empty => ?_, t.toDo q, ?_⟩
  · obtain ⟨delivered, order⟩ := accounts.delivered empty
    exact ⟨delivered, Lru.inv_iff_recent.mpr ⟨_, order⟩, order⟩
  · have ends : wp (run mask (List.replicate (t.toDo q) .update)) (fun _ u => u.Drained) (fun _ _ => False) t :=
      run_drains accounts (le_refl _)
    obtain ⟨⟨⟩, u, finished, final⟩ := ok_of_wp ends
    exact ⟨u, finished, final⟩

/-- The manager with an empty list. -/
def start : Manager := ⟨Lru.lruInit 0, 0, 0, 0, 0, []⟩

theorem start_recent : start.lru.Recent [] :=
  ⟨[], ⟨trivial, List.nodup_nil, by simp, rfl, rfl, rfl, fun b a => by simp [start, Lru.lruInit]⟩, rfl, rfl⟩

/-- Block 7 is used while the thread is at work. -/
theorem staging_drained_start : ∃ t, run 0 [.update, .access 1 7, .update, .update] start = .ok () t ∧
    (t.Drained → t.delivered = [7] ∧ t.lru.Inv ∧ t.lru.Recent [7]) ∧
    ∃ n u, run 0 (List.replicate n .update) t = .ok () u ∧ u.Drained := by
  have used : ∀ t, t.lru.heap 1 = none → Allowed 0 t [.access 1 7, .update, .update] := fun t unused =>
    ⟨⟨by decide, by decide, unused⟩, rfl, fun _ _ => ⟨trivial, trivial, fun _ _ => ⟨trivial, trivial, fun _ _ => trivial⟩⟩⟩
  refine staging_drained start_recent ⟨rfl, rfl⟩ rfl ⟨trivial, trivial, fun t done => used t ?_⟩
  cases done
  rfl

end Manager

end Bpfs
