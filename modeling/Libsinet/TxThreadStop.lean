import Libsinet.Base.Machine
import Libsinet.WiQueue
import Libsinet.TxThread

/-!
# Stopping a tx thread

The loop of `sin_tx_thread` against `sin_wrk_thread_dtor`, the producers of
`outpkt_queue` until the destructor is called, and wake-ups without a signal.
The destructor's caller got the thread from `sin_tx_thread_ctor`, which had
set `ctrl_notify_queue` to `outpkt_queue`. Packets and signals are linked in
two stores, as no list holds both; the only signal is `sigterm`.
-/

namespace Libsinet.TxThreadStop

open Machine

/-- The worker's next step. `waiting` is blocked inside `pthread_cond_wait`,
`signalled` on its way out of it; `aslots` is the number of free slots of the
cycle. -/
inductive Worker
  | start
  | top
  | getItems (aslots : Nat)
  | waiting (aslots : Nat)
  | signalled (aslots : Nat)
  | transmit (aslots : Nat)
  | checkCtrl
  | exited
  deriving DecidableEq, Repr

inductive Dtor
  | putItem
  | pump
  | join
  | joined
  deriving DecidableEq, Repr

structure State (P : Type u) where
  links : Links P
  outpktQueue : SinWiQueue P
  pktsOut : SinList P
  ctrlLinks : Links Unit
  ctrlQueue : SinWiQueue Unit
  worker : Worker
  dtor : Dtor

/-- `aslots` is what `tx_ring_nslots` finds at the top of a cycle. -/
inductive Move (P : Type u)
  | produce (lst : SinList P)
  | relink (p : P) (np : Option P)
  | worker (aslots : Nat)
  | spurious
  | dtor
  deriving DecidableEq

variable {P : Type u} [DecidableEq P]

-- ---------------------------------------------------------------------------
-- The worker
-- ---------------------------------------------------------------------------

def afterGet (s : State P) (aslots : Nat) (r : Section P (Got (SinList P × BitVec 32))) : State P :=
  let s := { s with links := r.links, outpktQueue := r.queue }
  match r.ret with
  | .waits => { s with worker := .waiting aslots }
  | .returns (pktsOut, _) => { s with
      pktsOut, worker := if pktsOut.isEmpty then .checkCtrl else .transmit aslots }

/-- `sin_wrk_thread_check_ctrl` and the test of its result. -/
def checkCtrl (s : State P) : State P :=
  let r := sinWiQueueGetItem s.ctrlLinks s.ctrlQueue false
  { s with
    ctrlLinks := r.links
    ctrlQueue := r.queue
    worker := if r.ret = .returns (some ()) then .exited else .top }

def workerStep (s : State P) (aslots : Nat) : Option (State P) :=
  match s.worker with
  | .start => some { s with worker := .top }
  | .top =>
    some { s with worker :=
      if aslots = 0 then .checkCtrl
      else if s.pktsOut.isEmpty then .getItems aslots else .transmit aslots }
  | .getItems n => some (afterGet s n (sinWiQueueGetItems s.links s.outpktQueue s.pktsOut true))
  | .waiting _ => none
  | .signalled n =>
    some (afterGet s n (sinWiQueueGetItemsWake s.links s.outpktQueue s.pktsOut true))
  | .transmit n =>
    let ntx := min n s.pktsOut.len.toNat
    let (links, pkt) := unlinkPkts s.links s.pktsOut.head ntx
    some { s with links, pktsOut := pktsLeft s.pktsOut pkt ntx, worker := .checkCtrl }
  | .checkCtrl => some (checkCtrl s)
  | .exited => none

-- ---------------------------------------------------------------------------
-- Everybody else
-- ---------------------------------------------------------------------------

/-- `pthread_cond_signal` of `outpkt_queue`: only the worker ever waits there. -/
def Worker.wake : Worker → Worker
  | .waiting aslots => .signalled aslots
  | w => w

def afterPut (s : State P) (r : Section P α) : State P :=
  { s with
    links := r.links
    outpktQueue := r.queue
    worker := if r.signal then s.worker.wake else s.worker }

/-- `sin_wrk_thread_dtor` up to `pthread_join`. -/
def dtorStep (s : State P) : Option (State P) :=
  match s.dtor with
  | .putItem =>
    let r := sinWiQueuePutItem s.ctrlLinks s.ctrlQueue () 1
    some { s with ctrlLinks := r.links, ctrlQueue := r.queue, dtor := .pump }
  | .pump => some { afterPut s (sinWiQueuePump s.links s.outpktQueue) with dtor := .join }
  | .join => if s.worker = .exited then some { s with dtor := .joined } else none
  | .joined => none

/-- A well-formed list with nodes, none of them in the queue or the worker's. -/
def MayPut (s : State P) (lst : SinList P) : Prop :=
  lst.Holds s.links (lst.nodes s.links) ∧ lst.nodes s.links ≠ [] ∧
    ∀ p ∈ lst.nodes s.links, p ∉ s.outpktQueue.items.nodes s.links ∧ p ∉ s.pktsOut.nodes s.links

instance (s : State P) (lst : SinList P) : Decidable (MayPut s lst) :=
  inferInstanceAs (Decidable (_ ∧ _ ∧ _))

def step (s : State P) : Move P → Option (State P)
  | .produce lst =>
    if s.dtor = .putItem ∧ MayPut s lst then
      some (afterPut s (sinWiQueuePutItems s.links lst s.outpktQueue))
    else none
  | .relink p np =>
    if p ∈ s.outpktQueue.items.nodes s.links ∨ p ∈ s.pktsOut.nodes s.links then none
    else some { s with links := Function.update s.links p np }
  | .worker aslots => workerStep s aslots
  | .spurious => some { s with worker := s.worker.wake }
  | .dtor => dtorStep s

/-- The thread was just created, by a constructor that went well. -/
def Start (s : State P) : Prop :=
  ∃ m m', s = ⟨m, .ctor, .reset, m', .ctor, .start, .putItem⟩

abbrev machine (P : Type u) [DecidableEq P] : Machine (State P) (Move P) := ofFn Start step

/-- The destructor waits for a worker that waits for a wake-up, with none
pending. -/
def Deadlocked (s : State P) : Prop := s.dtor = .join ∧ ∃ aslots, s.worker = .waiting aslots

-- ---------------------------------------------------------------------------
-- Invariants of every run
-- ---------------------------------------------------------------------------

def Worker.isWaiting : Worker → Bool
  | .waiting _ => true
  | .signalled _ => true
  | _ => false

/-- `nwait` counts the worker, which asks for packets only when it has none,
and `sigterm` stays on its queue until the worker takes it. -/
structure Inv (s : State P) : Prop where
  nwait : s.outpktQueue.nwait = s.worker.isWaiting.toNat
  getItems : ∀ aslots, s.worker = .getItems aslots → s.pktsOut.isEmpty = true
  ctrl : s.dtor ≠ .putItem → s.worker ≠ .exited → s.ctrlQueue.head = some ()
  fresh : s.dtor = .putItem → s.ctrlQueue = .ctor

@[simp] theorem isWaiting_wake (w : Worker) : w.wake.isWaiting = w.isWaiting := by
  cases w <;> rfl

theorem wake_eq_exited (w : Worker) : w.wake = .exited ↔ w = .exited := by
  cases w <;> simp [Worker.wake]

theorem wake_eq_getItems (w : Worker) (n : Nat) : w.wake = .getItems n ↔ w = .getItems n := by
  cases w <;> simp [Worker.wake]

variable {s s' : State P}

omit [DecidableEq P] in
theorem afterPut_inv {r : Section P α} (h : Inv s) (hn : r.queue.nwait = s.outpktQueue.nwait) :
    Inv (afterPut s r) := by
  have hw : (afterPut s r).worker = s.worker.wake ∨ (afterPut s r).worker = s.worker := by
    simp only [afterPut]
    split
    · exact .inl rfl
    · exact .inr rfl
  refine ⟨?_, fun n hg => ?_, fun hd he => h.ctrl hd fun hex => he ?_, h.fresh⟩
  · have hnw : (afterPut s r).outpktQueue.nwait = s.worker.isWaiting.toNat := hn.trans h.nwait
    rcases hw with hw | hw <;> simpa [hw] using hnw
  · rcases hw with hw | hw
    · exact h.getItems n ((wake_eq_getItems _ _).mp (hw.symm.trans hg))
    · exact h.getItems n (hw.symm.trans hg)
  · rcases hw with hw | hw <;> simp [hw, hex, Worker.wake]

theorem getItems_nwait (m : Links P) (queue : SinWiQueue P) (lst : SinList P) :
    (sinWiQueueGetItems m queue lst true).queue.nwait = queue.nwait +
      (if (sinWiQueueGetItems m queue lst true).ret = .waits then 1 else 0) := by
  unfold sinWiQueueGetItems getSection
  split <;> simp [getItemsTake]

theorem getItemsWake_nwait (m : Links P) (queue : SinWiQueue P) (lst : SinList P) :
    (sinWiQueueGetItemsWake m queue lst true).queue.nwait = queue.nwait - 1 ∧
      (sinWiQueueGetItemsWake m queue lst true).ret ≠ .waits := by
  cases hq : queue.head with
  | none => simp [sinWiQueueGetItemsWake, wakeSection, hq]
  | some wi => simp [sinWiQueueGetItemsWake, wakeSection, getSection, hq, getItemsTake]

section

omit [DecidableEq P]

theorem afterGet_worker (s : State P) (n : Nat) (r : Section P (Got (SinList P × BitVec 32))) :
    (r.ret = .waits ∧ (afterGet s n r).worker = .waiting n) ∨
      (r.ret ≠ .waits ∧
        ((afterGet s n r).worker = .transmit n ∨ (afterGet s n r).worker = .checkCtrl)) := by
  obtain ⟨links, queue, ret, signal⟩ := r
  cases ret with
  | waits => exact .inl ⟨rfl, rfl⟩
  | returns a =>
    refine .inr ⟨by simp, ?_⟩
    simp only [afterGet]
    split
    · exact .inr rfl
    · exact .inl rfl

@[simp] theorem afterGet_queue (s : State P) (n : Nat) (r : Section P (Got (SinList P × BitVec 32))) :
    (afterGet s n r).outpktQueue = r.queue := by
  obtain ⟨links, queue, ret, signal⟩ := r
  cases ret <;> rfl

@[simp] theorem afterGet_ctrl (s : State P) (n : Nat) (r : Section P (Got (SinList P × BitVec 32))) :
    (afterGet s n r).ctrlQueue = s.ctrlQueue ∧ (afterGet s n r).dtor = s.dtor := by
  obtain ⟨links, queue, ret, signal⟩ := r
  cases ret <;> exact ⟨rfl, rfl⟩

end

theorem afterGet_inv {r : Section P (Got (SinList P × BitVec 32))} (h : Inv s)
    (hex : s.worker ≠ .exited) (hn : r.queue.nwait = if r.ret = .waits then 1 else 0) :
    Inv (afterGet s n r) := by
  obtain ⟨hctrl, hdtor⟩ := afterGet_ctrl s n r
  refine ⟨?_, fun n' hg => ?_, fun hd _ => ?_, fun hd => ?_⟩
  · rw [afterGet_queue, hn]
    rcases afterGet_worker s n r with ⟨hr, hw⟩ | ⟨hr, hw | hw⟩ <;> simp [hr, hw, Worker.isWaiting]
  · rcases afterGet_worker s n r with ⟨-, hw⟩ | ⟨-, hw | hw⟩ <;> simp [hw] at hg
  · rw [hctrl]
    exact h.ctrl (hdtor ▸ hd) hex
  · rw [hctrl]
    exact h.fresh (hdtor ▸ hd)

section

omit [DecidableEq P]

theorem checkCtrl_none (h : s.ctrlQueue.head = none) :
    checkCtrl s = { s with worker := .top } := by
  simp [checkCtrl, sinWiQueueGetItem, getSection, h]

theorem checkCtrl_some (h : s.ctrlQueue.head = some ()) : (checkCtrl s).worker = .exited := by
  simp [checkCtrl, sinWiQueueGetItem, getSection, h, getItemTake]

theorem checkCtrl_inv (h : Inv s) (hw : s.worker = .checkCtrl) : Inv (checkCtrl s) := by
  have hnw : s.outpktQueue.nwait = 0 := by
    rw [h.nwait, hw]
    rfl
  cases hc : s.ctrlQueue.head with
  | none =>
    have hd : s.dtor = .putItem := by
      by_contra hd
      have hsome := h.ctrl hd (by simp [hw])
      simp [hc] at hsome
    rw [checkCtrl_none hc]
    exact ⟨hnw, fun _ hg => (by cases hg), fun hd' => absurd hd hd', h.fresh⟩
  | some wi =>
    have hex := checkCtrl_some hc
    have hd : s.dtor ≠ .putItem := by
      intro hd
      simp [h.fresh hd, SinWiQueue.ctor] at hc
    refine ⟨?_, fun _ hg => ?_, fun _ he => absurd hex he, fun hd' => absurd hd' hd⟩
    · rw [hex]
      exact hnw
    · cases hex.symm.trans hg

end

theorem workerStep_inv (h : Inv s) (hs : workerStep s aslots = some s') : Inv s' := by
  have hnw := h.nwait
  unfold workerStep at hs
  split at hs
  case h_1 hw =>
    cases hs
    rw [hw] at hnw
    exact ⟨hnw, fun _ hg => (by cases hg), fun hd _ => h.ctrl hd (by simp [hw]), h.fresh⟩
  case h_2 hw =>
    cases hs
    rw [hw] at hnw
    refine ⟨?_, fun n hg => ?_, fun hd _ => h.ctrl hd (by simp [hw]), h.fresh⟩
    · dsimp only
      split
      · exact hnw
      · split <;> exact hnw
    · dsimp only at hg
      split at hg
      · cases hg
      · split at hg
        · assumption
        · cases hg
  case h_3 n hw =>
    cases hs
    refine afterGet_inv h (by simp [hw]) ?_
    rw [getItems_nwait, hnw, hw]
    simp [Worker.isWaiting]
  case h_4 => cases hs
  case h_5 n hw =>
    cases hs
    obtain ⟨hdec, hret⟩ := getItemsWake_nwait s.links s.outpktQueue s.pktsOut
    refine afterGet_inv h (by simp [hw]) ?_
    rw [hdec, if_neg hret, hnw, hw]
    rfl
  case h_6 n hw =>
    cases hs
    rw [hw] at hnw
    exact ⟨hnw, fun _ hg => (by cases hg), fun hd _ => h.ctrl hd (by simp [hw]), h.fresh⟩
  case h_7 hw =>
    cases hs
    exact checkCtrl_inv h hw
  case h_8 => cases hs

omit [DecidableEq P] in
theorem dtorStep_cases (hs : dtorStep s = some s') :
    (s.dtor = .putItem ∧ s' = { s with
      ctrlLinks := (sinWiQueuePutItem s.ctrlLinks s.ctrlQueue () 1).links
      ctrlQueue := (sinWiQueuePutItem s.ctrlLinks s.ctrlQueue () 1).queue, dtor := .pump }) ∨
    (s.dtor = .pump ∧
      s' = { afterPut s (sinWiQueuePump s.links s.outpktQueue) with dtor := .join }) ∨
    (s.dtor = .join ∧ s.worker = .exited ∧ s' = { s with dtor := .joined }) := by
  unfold dtorStep at hs
  split at hs
  case h_1 hd =>
    cases hs
    exact .inl ⟨hd, rfl⟩
  case h_2 hd =>
    cases hs
    exact .inr (.inl ⟨hd, rfl⟩)
  case h_3 hd =>
    split at hs
    · cases hs
      exact .inr (.inr ⟨hd, ‹_›, rfl⟩)
    · cases hs
  case h_4 => cases hs

omit [DecidableEq P] in
theorem dtorStep_inv (h : Inv s) (hs : dtorStep s = some s') : Inv s' := by
  rcases dtorStep_cases hs with ⟨hd, rfl⟩ | ⟨hd, rfl⟩ | ⟨hd, hex, rfl⟩
  · refine ⟨h.nwait, h.getItems, fun _ _ => ?_, fun hd' => by cases hd'⟩
    simp [sinWiQueuePutItem, h.fresh hd, SinWiQueue.ctor]
  · have hput := afterPut_inv (r := sinWiQueuePump s.links s.outpktQueue) h rfl
    refine ⟨hput.nwait, hput.getItems, fun _ he => hput.ctrl ?_ he, fun hd' => by cases hd'⟩
    simp [afterPut, hd]
  · exact ⟨h.nwait, h.getItems, fun _ he => absurd hex he, fun hd' => by cases hd'⟩

theorem Inv.step (h : Inv s) (hs : step s a = some s') : Inv s' := by
  cases a with
  | produce lst =>
    obtain ⟨-, rfl⟩ : (s.dtor = .putItem ∧ MayPut s lst) ∧
        afterPut s (sinWiQueuePutItems s.links lst s.outpktQueue) = s' := by
      simpa [TxThreadStop.step] using hs
    exact afterPut_inv h sinWiQueuePutItems_nwait
  | relink p np =>
    simp only [TxThreadStop.step] at hs
    split at hs
    · cases hs
    · cases hs
      exact ⟨h.nwait, h.getItems, h.ctrl, h.fresh⟩
  | worker aslots => exact workerStep_inv h hs
  | spurious =>
    cases hs
    exact ⟨by simpa using h.nwait, fun n hg => h.getItems n ((wake_eq_getItems _ _).mp hg),
      fun hd he => h.ctrl hd (mt (wake_eq_exited _).mpr he), h.fresh⟩
  | dtor => exact dtorStep_inv h hs

theorem inv_of_reachable (h : (machine P).Reachable s) : Inv s := by
  refine h.induct ?_ fun _ _ _ => Inv.step
  rintro s ⟨m, m', rfl⟩
  exact ⟨rfl, fun _ hg => (by cases hg), fun hd => absurd rfl hd, fun _ => rfl⟩

-- ---------------------------------------------------------------------------
-- Runs that end
-- ---------------------------------------------------------------------------

/-- The worker has something to send, or is past the point of its cycle where
it may wait, or the destructor sees it waiting. -/
def Busy (s : State P) : Prop :=
  s.outpktQueue.nwait > 0 ∨ s.outpktQueue.head ≠ none ∨ s.pktsOut.isEmpty = false ∨
    (∃ aslots, s.worker = .transmit aslots) ∨ s.worker = .checkCtrl ∨ s.worker = .exited

def InTime (s : State P) (a : Move P) : Prop := a = .dtor → s.dtor = .pump → Busy s

instance (s : State P) : Decidable (Busy s) := by
  have : Decidable (∃ aslots, s.worker = .transmit aslots) :=
    match s.worker with
    | .transmit n => isTrue ⟨n, rfl⟩
    | .start | .top | .getItems _ | .waiting _ | .signalled _ | .checkCtrl | .exited =>
      isFalse (by simp)
  unfold Busy
  infer_instance

instance (s : State P) (a : Move P) : Decidable (InTime s a) :=
  inferInstanceAs (Decidable (_ → _ → _))

/-- The worker does not wait again: it takes what there is and then looks for
`sigterm`. -/
def Leaving (s : State P) : Prop :=
  match s.worker with
  | .start => s.outpktQueue.head ≠ none ∨ s.pktsOut.isEmpty = false
  | .top => s.outpktQueue.head ≠ none ∨ s.pktsOut.isEmpty = false
  | .getItems _ => s.outpktQueue.head ≠ none
  | .waiting _ => False
  | _ => True

theorem getItems_ret (m : Links P) (queue : SinWiQueue P) (lst : SinList P) :
    (sinWiQueueGetItems m queue lst true).ret = .waits ↔ queue.head = none := by
  cases hq : queue.head <;> simp [sinWiQueueGetItems, getSection, hq]

omit [DecidableEq P] in
theorem leaving_afterGet {r : Section P (Got (SinList P × BitVec 32))} (hr : r.ret ≠ .waits) :
    Leaving (afterGet s n r) := by
  rcases afterGet_worker s n r with ⟨hr', -⟩ | ⟨-, hw | hw⟩
  · exact absurd hr' hr
  · simp [Leaving, hw]
  · simp [Leaving, hw]

theorem workerStep_dtor (hs : workerStep s aslots = some s') : s.dtor = s'.dtor := by
  unfold workerStep at hs
  split at hs <;> cases hs <;> first | rfl | exact (afterGet_ctrl s _ _).2.symm

/-- A worker on its way out stays on it, and finds `sigterm`. -/
theorem leaving_worker (h : Inv s) (hd : s.dtor ≠ .putItem) (hl : Leaving s)
    (hs : workerStep s aslots = some s') : Leaving s' := by
  unfold workerStep at hs
  split at hs
  case h_1 hw =>
    cases hs
    simpa [Leaving, hw] using hl
  case h_2 hw =>
    cases hs
    simp only [Leaving, hw] at hl
    by_cases ha : aslots = 0
    · simp [Leaving, ha]
    · cases he : s.pktsOut.isEmpty with
      | true => simpa [Leaving, ha, he] using hl
      | false => simp [Leaving, ha]
  case h_3 n hw =>
    cases hs
    simp only [Leaving, hw] at hl
    exact leaving_afterGet (mt (getItems_ret _ _ _).mp hl)
  case h_4 => cases hs
  case h_5 n hw =>
    cases hs
    exact leaving_afterGet (getItemsWake_nwait _ _ _).2
  case h_6 n hw =>
    cases hs
    trivial
  case h_7 hw =>
    cases hs
    have hex := checkCtrl_some (h.ctrl hd (by simp [hw]))
    simp [Leaving, hex]
  case h_8 => cases hs

omit [DecidableEq P] in
/-- A busy worker is on its way out once it was pumped. -/
theorem leaving_pump (h : Inv s) (hb : Busy s) :
    Leaving (afterPut s (sinWiQueuePump s.links s.outpktQueue)) := by
  have hnw := h.nwait
  have hget := h.getItems
  unfold Busy at hb
  cases hw : s.worker with
  | start =>
    simp only [hw, Worker.isWaiting] at hnw hb
    simpa [Leaving, afterPut, sinWiQueuePump, SinWiQueue.notifies, hnw, hw] using hb
  | top =>
    simp only [hw, Worker.isWaiting] at hnw hb
    simpa [Leaving, afterPut, sinWiQueuePump, SinWiQueue.notifies, hnw, hw] using hb
  | getItems n =>
    simp only [hw, Worker.isWaiting] at hnw hb
    simpa [Leaving, afterPut, sinWiQueuePump, SinWiQueue.notifies, hnw, hw, hget n hw] using hb
  | waiting n =>
    simp only [hw, Worker.isWaiting] at hnw
    simp [Leaving, afterPut, sinWiQueuePump, SinWiQueue.notifies, hnw, hw, Worker.wake]
  | _ => simp [Leaving, afterPut, sinWiQueuePump, hw, Worker.wake]

omit [DecidableEq P] in
theorem leaving_wake (h : Leaving s) : Leaving { s with worker := s.worker.wake } := by
  have hw : s.worker.wake = s.worker := by
    cases hw : s.worker with
    | waiting n => simp [Leaving, hw] at h
    | _ => rfl
  rw [hw]
  exact h

theorem leaving_step (h : Inv s) (hl : s.dtor = .join → Leaving s) (hok : InTime s a)
    (hs : step s a = some s') : s'.dtor = .join → Leaving s' := by
  intro hj
  cases a with
  | produce lst =>
    obtain ⟨⟨hd, -⟩, rfl⟩ : (s.dtor = .putItem ∧ MayPut s lst) ∧
        afterPut s (sinWiQueuePutItems s.links lst s.outpktQueue) = s' := by
      simpa [step] using hs
    cases hd.symm.trans hj
  | relink p np =>
    simp only [step] at hs
    split at hs
    · cases hs
    · cases hs
      exact hl hj
  | worker aslots =>
    have hd : s.dtor = s'.dtor := workerStep_dtor hs
    rw [← hd] at hj
    exact leaving_worker h (by simp [hj]) (hl hj) hs
  | spurious =>
    cases hs
    exact leaving_wake (hl hj)
  | dtor =>
    rcases dtorStep_cases hs with ⟨hd, rfl⟩ | ⟨hd, rfl⟩ | ⟨hd, hex, rfl⟩
    · cases hj
    · exact leaving_pump h (hok rfl hd)
    · cases hj

theorem leaving_of_inTime (h : (machine P).ReachableBy InTime s) : s.dtor = .join → Leaving s := by
  refine h.induct (fun s h => inv_of_reachable h.reachable) ?_
    fun s a s' hi hl hok hs => leaving_step hi hl hok hs
  rintro s ⟨m, m', rfl⟩ hj
  cases hj

-- ---------------------------------------------------------------------------
-- Runs that hang
-- ---------------------------------------------------------------------------

theorem steps_worker {s₁ s₂ : State P} (aslots : Nat) (hs : workerStep s₁ aslots = some s₂) :
    (machine P).Steps s₁ s₂ := .single ⟨.worker aslots, hs⟩

theorem hangs_of_getItems (hd : s.dtor = .join) (hq : s.outpktQueue.head = none)
    (hw : s.worker = .getItems n) : ∃ s', (machine P).Steps s s' ∧ Deadlocked s' := by
  refine ⟨_, steps_worker n (by rw [workerStep, hw]), ?_, n, ?_⟩
  · exact (afterGet_ctrl s n _).2.trans hd
  · rcases afterGet_worker s n (sinWiQueueGetItems s.links s.outpktQueue s.pktsOut true) with
      ⟨-, hw⟩ | ⟨hr, -⟩
    · exact hw
    · exact absurd ((getItems_ret _ _ _).mpr hq) hr

theorem hangs_of_top (hd : s.dtor = .join) (hq : s.outpktQueue.head = none)
    (he : s.pktsOut.isEmpty = true) (hw : s.worker = .top) :
    ∃ s', (machine P).Steps s s' ∧ Deadlocked s' := by
  have hs : workerStep s 1 = some { s with worker := .getItems 1 } := by
    simp [workerStep, hw, he]
  obtain ⟨s', hsteps, hdead⟩ := hangs_of_getItems (s := { s with worker := .getItems 1 }) hd hq rfl
  exact ⟨s', (steps_worker 1 hs).trans hsteps, hdead⟩

theorem hangs_of_start (hd : s.dtor = .join) (hq : s.outpktQueue.head = none)
    (he : s.pktsOut.isEmpty = true) (hw : s.worker = .start) :
    ∃ s', (machine P).Steps s s' ∧ Deadlocked s' := by
  have hs : workerStep s 1 = some { s with worker := .top } := by rw [workerStep, hw]
  obtain ⟨s', hsteps, hdead⟩ := hangs_of_top (s := { s with worker := .top }) hd hq he rfl
  exact ⟨s', (steps_worker 1 hs).trans hsteps, hdead⟩

omit [DecidableEq P] in
theorem afterPump_of_idle (hn : s.outpktQueue.nwait = 0) :
    afterPut s (sinWiQueuePump s.links s.outpktQueue) = s := by
  simp [afterPut, sinWiQueuePump, SinWiQueue.notifies, hn]

theorem hangs_of_late (h : Inv s) (hb : ¬ Busy s) :
    ∃ s', (machine P).Steps { s with dtor := .join } s' ∧ Deadlocked s' := by
  simp only [Busy, not_or, not_not, Bool.not_eq_false] at hb
  obtain ⟨hn, hq, he, htx, hctrl, hex⟩ := hb
  have hnw := h.nwait
  cases hw : s.worker with
  | start => exact hw ▸ hangs_of_start (s := { s with dtor := .join }) rfl hq he hw
  | top => exact hw ▸ hangs_of_top (s := { s with dtor := .join }) rfl hq he hw
  | getItems n => exact hw ▸ hangs_of_getItems (s := { s with dtor := .join }) rfl hq hw
  | transmit n => exact absurd ⟨n, hw⟩ htx
  | checkCtrl => exact absurd hw hctrl
  | exited => exact absurd hw hex
  | _ => simp [hw, Worker.isWaiting] at hnw; omega

/-- If every pump comes in time, the destructor never waits for a worker that
waits; a pump that does not can be followed by just that. -/
theorem stop_never_deadlocks (h : (machine P).Reachable s) :
    ((machine P).ReachableBy InTime s → ¬ Deadlocked s) ∧
      ∀ s', step s .dtor = some s' → ¬ InTime s .dtor →
        ∃ s'', (machine P).Steps s' s'' ∧ Deadlocked s'' := by
  refine ⟨fun hok hdead => ?_, fun s' hs hlate => ?_⟩
  · obtain ⟨hd, n, hw⟩ := hdead
    have hl := leaving_of_inTime hok hd
    simp [Leaving, hw] at hl
  · simp only [InTime, forall_const, Classical.not_imp] at hlate
    obtain ⟨hd, hb⟩ := hlate
    have hn : s.outpktQueue.nwait = 0 := by
      by_contra hn
      exact hb (.inl (Nat.pos_of_ne_zero hn))
    have hs : dtorStep s = some s' := hs
    simp only [dtorStep, hd, afterPump_of_idle hn, Option.some.injEq] at hs
    subst hs
    exact hangs_of_late (inv_of_reachable h) hb

-- ---------------------------------------------------------------------------
-- A thread stopped as soon as it was created
-- ---------------------------------------------------------------------------

def created : State Unit := ⟨fun _ => none, .ctor, .reset, fun _ => none, .ctor, .start, .putItem⟩

theorem created_init : (machine Unit).init created := ⟨_, _, rfl⟩

/-- The worker is already waiting when the destructor pumps. -/
theorem stop_waiting : ∃ s : State Unit, s.dtor = .joined ∧ ¬ Deadlocked s := by
  obtain ⟨s, hs, hp⟩ := ReachableBy.of_test step InTime
    [.worker 1, .worker 1, .worker 1, .dtor, .dtor, .worker 1, .worker 1, .dtor]
    (fun s => decide (s.dtor = .joined)) created_init (by decide)
  exact ⟨s, of_decide_eq_true hp, (stop_never_deadlocks hs.reachable).1 hs⟩

/-- The pump comes before the worker's first step. -/
theorem stop_created_deadlocks : ¬ ∀ s : State Unit, (machine Unit).Reachable s → ¬ Deadlocked s := by
  intro hall
  obtain ⟨s, hs, hp⟩ := Reachable.of_test step
    [.dtor, .dtor, .worker 1, .worker 1, .worker 1]
    (fun s => decide (s.dtor = .join ∧ s.worker = .waiting 1))
    created_init (by decide)
  obtain ⟨hd, hw⟩ := of_decide_eq_true hp
  exact hall s hs ⟨hd, 1, hw⟩

end Libsinet.TxThreadStop
