import Libsinet.TxThreadStop
import Libsinet.Base.Execution

/-!
# A tx thread's memory

`sin_tx_thread_dtor` from its first call to its last: the run of the thread
against its destructor up to `pthread_join`, and after that what
`sin_wrk_thread_dtor` and `sin_tx_thread_dtor` free, with the drain of the
control queue in between, at a time when `sigterm` is freed already.
-/

namespace Libsinet.TxThreadLife

open Machine Execution TxThreadStop

/-- What the constructors of the thread allocated. -/
inductive Block
  | sttp
  | outpktQueue
  | pvt
  | tname
  | ctrlQueue
  | sigterm
  deriving DecidableEq, Repr

/-- The destructors' next call once the thread is joined. -/
inductive Pc
  | signalDtor
  | drain
  | ctrlQueueDtor
  | freeTname
  | freePvt
  | outpktQueueDtor
  | freeSttp
  | returned
  deriving DecidableEq, Repr

structure State (P : Type u) where
  run : TxThreadStop.State P
  pc : Pc
  live : Block → Bool

variable {P : Type u} [DecidableEq P]

-- ---------------------------------------------------------------------------
-- The destructors
-- ---------------------------------------------------------------------------

def Pc.frees : Pc → Option Block
  | .signalDtor => some .sigterm
  | .drain => none
  | .ctrlQueueDtor => some .ctrlQueue
  | .freeTname => some .tname
  | .freePvt => some .pvt
  | .outpktQueueDtor => some .outpktQueue
  | .freeSttp => some .sttp
  | .returned => none

def Pc.next : Pc → Pc
  | .signalDtor => .drain
  | .drain => .ctrlQueueDtor
  | .ctrlQueueDtor => .freeTname
  | .freeTname => .freePvt
  | .freePvt => .outpktQueueDtor
  | .outpktQueueDtor => .freeSttp
  | .freeSttp => .returned
  | .returned => .returned

def State.free (s : State P) (b : Block) : State P := { s with live := Function.update s.live b false }

/-- `sin_wrk_thread_check_ctrl` as the drain loop calls it: the loop goes on
as long as there are signals. -/
def drain (s : State P) : State P :=
  let r := sinWiQueueGetItem s.run.ctrlLinks s.run.ctrlQueue false
  { s with
    run := { s.run with ctrlLinks := r.links, ctrlQueue := r.queue }
    pc := if r.ret = .returns (some ()) then .drain else .ctrlQueueDtor }

def afterJoin (s : State P) : Option (State P) :=
  match s.pc with
  | .drain => some (drain s)
  | .returned => none
  | pc => some { (pc.frees.elim s s.free) with pc := pc.next }

def step (s : State P) (a : Move P) : Option (State P) :=
  if a = .dtor ∧ s.run.dtor = .joined then afterJoin s
  else (TxThreadStop.step s.run a).map fun run => { s with run }

def Start (s : State P) : Prop :=
  TxThreadStop.Start s.run ∧ s.pc = .signalDtor ∧ ∀ b, s.live b = true

abbrev machine (P : Type u) [DecidableEq P] : Machine (State P) (Move P) := ofFn Start step

-- ---------------------------------------------------------------------------
-- What a step touches
-- ---------------------------------------------------------------------------

/-- `sin_wrk_thread_check_ctrl`: a signal it gets it looks into. -/
def checkCtrlTouches (s : TxThreadStop.State P) : List Block :=
  [.sttp, .pvt, .ctrlQueue] ++ if s.ctrlQueue.head = none then [] else [.sigterm]

/-- With debugging on every step of the thread prints its name. -/
def workerTouches (s : TxThreadStop.State P) : List Block :=
  .sttp :: .tname :: match s.worker with
    | .start => [.pvt]
    | .getItems _ => [.outpktQueue]
    | .signalled _ => [.outpktQueue]
    | .checkCtrl => checkCtrlTouches s
    | _ => []

def dtorTouches (s : State P) : List Block :=
  match s.run.dtor with
  | .putItem => [.sttp, .pvt, .sigterm, .ctrlQueue]
  | .pump => [.pvt, .outpktQueue]
  | .join => [.pvt]
  | .joined =>
    match s.pc with
    | .signalDtor => [.pvt, .sigterm]
    | .drain => checkCtrlTouches s.run
    | .ctrlQueueDtor => [.pvt, .ctrlQueue]
    | .freeTname => [.pvt, .tname]
    | .freePvt => [.pvt]
    | .outpktQueueDtor => [.sttp, .outpktQueue]
    | .freeSttp => [.sttp]
    | .returned => []

/-- The blocks a step reads, writes or frees. -/
def touches (s : State P) : Move P → List Block
  | .produce _ => [.outpktQueue]
  | .relink _ _ => []
  | .worker _ => workerTouches s.run
  | .spurious =>
    match s.run.worker with
    | .waiting _ => [.outpktQueue]
    | _ => []
  | .dtor => dtorTouches s

-- ---------------------------------------------------------------------------
-- The control queue
-- ---------------------------------------------------------------------------

/-- `sigterm` is on its queue alone until the thread takes it. -/
structure Ctrl (r : TxThreadStop.State P) : Prop where
  link : r.dtor ≠ .putItem → r.worker ≠ .exited → r.ctrlLinks () = none
  late : r.worker = .exited → r.dtor ≠ .putItem
  taken : r.worker = .exited → r.ctrlQueue.head = none
  joined : r.dtor = .joined → r.worker = .exited

/-- A step that leaves the control queue alone. -/
structure Apart (r r' : TxThreadStop.State P) : Prop where
  links : r'.ctrlLinks = r.ctrlLinks
  queue : r'.ctrlQueue = r.ctrlQueue
  exited : r'.worker = .exited ↔ r.worker = .exited
  putItem : r'.dtor = .putItem ↔ r.dtor = .putItem
  joined : r'.dtor = .joined → r.dtor = .joined ∨ r.worker = .exited

variable {r r' : TxThreadStop.State P} {s s' : State P} {a : Move P}

section

omit [DecidableEq P]

theorem Apart.of_eq (hlinks : r'.ctrlLinks = r.ctrlLinks) (hqueue : r'.ctrlQueue = r.ctrlQueue)
    (hex : r'.worker = .exited ↔ r.worker = .exited) (hd : r'.dtor = r.dtor) : Apart r r' :=
  ⟨hlinks, hqueue, hex, by rw [hd], fun h => .inl (hd ▸ h)⟩

theorem Apart.put (sec : Section P α) : Apart r (afterPut r sec) := by
  refine .of_eq rfl rfl ?_ rfl
  simp only [afterPut]
  split
  · exact wake_eq_exited _
  · rfl

theorem Apart.get (hw : r.worker ≠ .exited) (n : Nat) (sec : Section P (Got (SinList P × BitVec 32))) :
    Apart r (afterGet r n sec) := by
  obtain ⟨hqueue, hd⟩ := afterGet_ctrl r n sec
  refine .of_eq ?_ hqueue ?_ hd
  · obtain ⟨links, queue, ret, signal⟩ := sec
    cases ret <;> rfl
  · rcases afterGet_worker r n sec with ⟨-, hw'⟩ | ⟨-, hw' | hw'⟩ <;> simp [hw, hw']

end

/-- Only `check_ctrl` and the destructor's put go to the control queue. -/
theorem ctrl_of_step (hs : TxThreadStop.step r a = some r') :
    (r.worker = .checkCtrl ∧ r' = checkCtrl r) ∨
      (r.dtor = .putItem ∧ r' = { r with
        ctrlLinks := (sinWiQueuePutItem r.ctrlLinks r.ctrlQueue () 1).links
        ctrlQueue := (sinWiQueuePutItem r.ctrlLinks r.ctrlQueue () 1).queue, dtor := .pump }) ∨
      Apart r r' := by
  cases a with
  | produce lst =>
    obtain ⟨-, rfl⟩ : (r.dtor = .putItem ∧ MayPut r lst) ∧
        afterPut r (sinWiQueuePutItems r.links lst r.outpktQueue) = r' := by
      simpa [TxThreadStop.step] using hs
    exact .inr (.inr (.put _))
  | relink p np =>
    simp only [TxThreadStop.step] at hs
    split at hs
    · cases hs
    · cases hs
      exact .inr (.inr (.of_eq rfl rfl Iff.rfl rfl))
  | spurious =>
    cases hs
    exact .inr (.inr (.of_eq rfl rfl (wake_eq_exited _) rfl))
  | dtor =>
    rcases dtorStep_cases hs with ⟨hd, rfl⟩ | ⟨hd, rfl⟩ | ⟨hd, hex, rfl⟩
    · exact .inr (.inl ⟨hd, rfl⟩)
    · obtain ⟨hlinks, hqueue, hex, -, -⟩ := Apart.put (r := r) (sinWiQueuePump r.links r.outpktQueue)
      exact .inr (.inr ⟨hlinks, hqueue, hex, by simp [hd], fun h => by cases h⟩)
    · exact .inr (.inr ⟨rfl, rfl, Iff.rfl, by simp [hd], fun _ => .inr hex⟩)
  | worker aslots =>
    simp only [TxThreadStop.step, workerStep] at hs
    split at hs
    case h_1 hw =>
      cases hs
      exact .inr (.inr (.of_eq rfl rfl (by simp [hw]) rfl))
    case h_2 hw =>
      cases hs
      refine .inr (.inr (.of_eq rfl rfl ?_ rfl))
      dsimp only
      split
      · simp [hw]
      · split <;> simp [hw]
    case h_3 n hw =>
      cases hs
      exact .inr (.inr (.get (by simp [hw]) n _))
    case h_4 => cases hs
    case h_5 n hw =>
      cases hs
      exact .inr (.inr (.get (by simp [hw]) n _))
    case h_6 n hw =>
      cases hs
      exact .inr (.inr (.of_eq rfl rfl (by simp [hw]) rfl))
    case h_7 hw =>
      cases hs
      exact .inl ⟨hw, rfl⟩
    case h_8 => cases hs

theorem dtor_of_step (ha : a ≠ .dtor) (hs : TxThreadStop.step r a = some r') : r'.dtor = r.dtor := by
  cases a with
  | produce lst =>
    obtain ⟨-, rfl⟩ : (r.dtor = .putItem ∧ MayPut r lst) ∧
        afterPut r (sinWiQueuePutItems r.links lst r.outpktQueue) = r' := by
      simpa [TxThreadStop.step] using hs
    rfl
  | relink p np =>
    simp only [TxThreadStop.step] at hs
    split at hs
    · cases hs
    · cases hs
      rfl
  | worker aslots => exact (workerStep_dtor hs).symm
  | spurious =>
    cases hs
    rfl
  | dtor => exact absurd rfl ha

theorem Ctrl.step (h : Ctrl r) (hinv : TxThreadStop.Inv r) (hs : TxThreadStop.step r a = some r') : Ctrl r' := by
  rcases ctrl_of_step hs with ⟨hw, rfl⟩ | ⟨hd, rfl⟩ | hapart
  · cases hc : r.ctrlQueue.head with
    | none =>
      rw [checkCtrl_none hc]
      exact ⟨fun hd _ => h.link hd (by simp [hw]), fun he => (by cases he), fun he => (by cases he),
        fun hj => absurd (h.joined hj) (by simp [hw])⟩
    | some wi =>
      have hd : r.dtor ≠ .putItem := by
        intro hd
        simp [hinv.fresh hd, SinWiQueue.ctor] at hc
      have hlink := h.link hd (by simp [hw])
      refine ⟨fun _ he => absurd (checkCtrl_some hc) he, fun _ => hd, fun _ => ?_, fun _ => checkCtrl_some hc⟩
      simp [checkCtrl, sinWiQueueGetItem, getSection, hc, getItemTake, takeItem, hlink]
  · refine ⟨fun _ _ => ?_, fun he => absurd hd (h.late he), fun he => absurd hd (h.late he), fun hj => by cases hj⟩
    simp [sinWiQueuePutItem, hinv.fresh hd, SinWiQueue.ctor]
  · refine ⟨fun hd he => ?_, fun he => ?_, fun he => ?_, fun hj => ?_⟩
    · rw [hapart.links]
      exact h.link (mt hapart.putItem.mpr hd) (mt hapart.exited.mpr he)
    · exact mt hapart.putItem.mp (h.late (hapart.exited.mp he))
    · rw [hapart.queue]
      exact h.taken (hapart.exited.mp he)
    · exact hapart.exited.mpr ((hapart.joined hj).elim h.joined id)

-- ---------------------------------------------------------------------------
-- What is live
-- ---------------------------------------------------------------------------

/-- The order in which the blocks are freed. -/
def Block.rank : Block → Nat
  | .sigterm => 0
  | .ctrlQueue => 2
  | .tname => 3
  | .pvt => 4
  | .outpktQueue => 5
  | .sttp => 6

def Pc.rank : Pc → Nat
  | .signalDtor => 0
  | .drain => 1
  | .ctrlQueueDtor => 2
  | .freeTname => 3
  | .freePvt => 4
  | .outpktQueueDtor => 5
  | .freeSttp => 6
  | .returned => 7

/-- A block lives until its turn, and nothing is freed before the join. -/
structure Inv (s : State P) : Prop where
  run : TxThreadStop.Inv s.run
  ctrl : Ctrl s.run
  live : ∀ b, s.live b = true ↔ s.pc.rank ≤ b.rank
  joined : s.pc ≠ .signalDtor → s.run.dtor = .joined

omit [DecidableEq P] in
/-- A thread that is joined has left nothing on its control queue to drain. -/
theorem drain_empty (h : s.run.ctrlQueue.head = none) : drain s = { s with pc := .ctrlQueueDtor } := by
  simp [drain, sinWiQueueGetItem, getSection, h]

omit [DecidableEq P] in
theorem afterJoin_cases (h : Inv s) (hj : s.run.dtor = .joined) (hs : afterJoin s = some s') :
    s'.run = s.run ∧ s'.pc = s.pc.next ∧ s.pc ≠ .returned ∧
      s'.live = s.pc.frees.elim s.live fun b => Function.update s.live b false := by
  have hempty := h.ctrl.taken (h.ctrl.joined hj)
  unfold afterJoin at hs
  split at hs
  case h_1 hpc =>
    cases hs
    rw [drain_empty hempty]
    simp [hpc, Pc.next, Pc.frees]
  case h_2 => cases hs
  case h_3 hdrain hret =>
    cases hs
    refine ⟨?_, rfl, hret, ?_⟩
    · cases s.pc <;> rfl
    · cases s.pc <;> rfl

/-- Each of the destructors' frees is of the block whose turn it is. -/
theorem frees_rank (pc : Pc) (b : Block) (hpc : pc ≠ .returned) :
    pc.next.rank ≤ b.rank ↔ pc.rank ≤ b.rank ∧ pc.frees ≠ some b := by
  cases pc <;> cases b <;> simp [Pc.next, Pc.rank, Block.rank, Pc.frees] at hpc ⊢

/-- A step of the run, or one of the destructors' after it. -/
theorem step_cases (h : Inv s) (hs : step s a = some s') :
    (TxThreadStop.step s.run a = some s'.run ∧ s'.pc = s.pc ∧ s'.live = s.live ∧
        ¬ (a = .dtor ∧ s.run.dtor = .joined)) ∨
      (a = .dtor ∧ s.run.dtor = .joined ∧ s.pc ≠ .returned ∧ s'.run = s.run ∧ s'.pc = s.pc.next ∧
        s'.live = s.pc.frees.elim s.live fun b => Function.update s.live b false) := by
  unfold TxThreadLife.step at hs
  split at hs
  case isTrue ha =>
    obtain ⟨hrun, hpc, hret, hlive⟩ := afterJoin_cases h ha.2 hs
    exact .inr ⟨ha.1, ha.2, hret, hrun, hpc, hlive⟩
  case isFalse ha =>
    obtain ⟨run, hrun, rfl⟩ := Option.map_eq_some_iff.mp hs
    exact .inl ⟨hrun, rfl, rfl, ha⟩

theorem Inv.step (h : Inv s) (hs : step s a = some s') : Inv s' := by
  rcases step_cases h hs with ⟨hrun, hpc, hlive, ha⟩ | ⟨-, hj, hret, hrun, hpc, hlive⟩
  · refine ⟨h.run.step hrun, h.ctrl.step h.run hrun, ?_, fun hne => ?_⟩
    · rw [hpc, hlive]
      exact h.live
    · have hj := h.joined (hpc ▸ hne)
      exact (dtor_of_step (fun he => ha ⟨he, hj⟩) hrun).trans hj
  · refine ⟨hrun ▸ h.run, hrun ▸ h.ctrl, fun b => ?_, fun _ => hrun ▸ hj⟩
    rw [hpc, frees_rank _ _ hret, ← h.live, hlive]
    cases hfrees : s.pc.frees with
    | none => simp
    | some c =>
      rcases eq_or_ne b c with rfl | hne
      · simp
      · simp [hne, Ne.symm hne]

theorem Start.inv (h : Start s) : Inv s := by
  obtain ⟨⟨m, m', hrun⟩, hpc, hlive⟩ := h
  refine ⟨inv_of_reachable (.init ⟨m, m', hrun⟩), ?_, fun b => ?_, fun hne => absurd hpc hne⟩
  · rw [hrun]
    exact ⟨fun hd => absurd rfl hd, fun he => (by cases he), fun he => (by cases he), fun hj => by cases hj⟩
  · simp [hlive, hpc, Pc.rank]

theorem inv_of_reachable (h : (machine P).Reachable s) : Inv s :=
  h.induct (fun _ => Start.inv) fun _ _ _ => Inv.step

omit [DecidableEq P] in
/-- Up to the join all is there. -/
theorem Inv.all_live (h : Inv s) (hj : s.run.dtor ≠ .joined) (b : Block) : s.live b = true := by
  have hpc : s.pc = .signalDtor := by
    by_contra hpc
    exact hj (h.joined hpc)
  rw [h.live, hpc]
  exact Nat.zero_le _

theorem step_joined (h : Inv s) (hj : s.run.dtor = .joined) (hs : TxThreadStop.step s.run a = some r) :
    a = .spurious ∨ ∃ p np, a = .relink p np := by
  have hex := h.ctrl.joined hj
  cases a with
  | produce lst => simp [TxThreadStop.step, hj] at hs
  | relink p np => exact .inr ⟨p, np, rfl⟩
  | worker aslots => simp [TxThreadStop.step, workerStep, hex] at hs
  | spurious => exact .inl rfl
  | dtor => simp [TxThreadStop.step, dtorStep, hj] at hs

omit [DecidableEq P] in
/-- After the join the destructors only touch what they have not freed yet:
the drain finds no `sigterm` to look into. -/
theorem dtorTouches_rank (hj : s.run.dtor = .joined) (hempty : s.run.ctrlQueue.head = none)
    (hb : b ∈ dtorTouches s) : s.pc.rank ≤ b.rank := by
  rw [dtorTouches, hj] at hb
  cases hpc : s.pc <;> simp [hpc, checkCtrlTouches, hempty] at hb
  case signalDtor => exact Nat.zero_le _
  case freePvt =>
    subst hb
    decide
  case freeSttp =>
    subst hb
    decide
  case drain => rcases hb with rfl | rfl | rfl <;> decide
  all_goals rcases hb with rfl | rfl <;> decide

/-- No step of the thread, of its destructors or of a producer touches what
is freed, and when the destructors are through all of it is. -/
theorem memory_safe (h : (machine P).Reachable s) :
    (∀ a s', step s a = some s' → ∀ b ∈ touches s a, s.live b = true) ∧
      (s.pc = .returned → s.run.worker = .exited ∧ ∀ b, s.live b = false) := by
  have hinv := inv_of_reachable h
  refine ⟨fun a s' hs b hb => ?_, fun hpc => ?_⟩
  · by_cases hj : s.run.dtor = .joined
    · have hrank := dtorTouches_rank (b := b) hj (hinv.ctrl.taken (hinv.ctrl.joined hj))
      by_cases ha : a = .dtor
      · subst ha
        exact (hinv.live b).mpr (hrank hb)
      · rcases step_cases hinv hs with ⟨hrun, -⟩ | ⟨he, -⟩
        case inr => exact absurd he ha
        rcases step_joined hinv hj hrun with rfl | ⟨p, np, rfl⟩
        · simp [touches, hinv.ctrl.joined hj] at hb
        · cases hb
    · exact hinv.all_live hj b
  · have hj := hinv.joined (by simp [hpc])
    refine ⟨hinv.ctrl.joined hj, fun b => ?_⟩
    have hdead : ¬ s.live b = true := by
      rw [hinv.live, hpc]
      cases b <;> decide
    exact Bool.eq_false_iff.mpr hdead

-- ---------------------------------------------------------------------------
-- The destructors return
-- ---------------------------------------------------------------------------

def InTime (s : State P) (a : Move P) : Prop := TxThreadStop.InTime s.run a

instance (s : State P) (a : Move P) : Decidable (InTime s a) :=
  inferInstanceAs (Decidable (TxThreadStop.InTime _ _))

/-- The thread is not blocked. -/
def Worker.Runnable (w : Worker) : Prop := w ≠ .exited ∧ ∀ n, w ≠ .waiting n

/-- The destructor was called and is not blocked in `pthread_join`. -/
def DtorRunnable (s : State P) : Prop :=
  s.run.dtor ≠ .putItem ∧ s.pc ≠ .returned ∧ (s.run.dtor = .join → s.run.worker = .exited)

structure Fair (e : (machine P).Execution InTime) : Prop where
  worker : e.WeaklyFair (fun a => ∃ aslots, a = .worker aslots) fun s => Worker.Runnable s.run.worker
  dtor : e.WeaklyFair (fun a => a = .dtor) DtorRunnable

theorem run_reachable (h : (machine P).ReachableBy InTime s) :
    (TxThreadStop.machine P).ReachableBy TxThreadStop.InTime s.run := by
  refine h.induct (I := fun s => (TxThreadStop.machine P).ReachableBy TxThreadStop.InTime s.run)
    (fun _ h => inv_of_reachable h.reachable) ?_ fun s a s' hinv hr hok hs => ?_
  · rintro s ⟨hrun, -⟩
    exact .init hrun
  rcases step_cases hinv hs with ⟨hrun, -⟩ | ⟨-, -, -, hrun, -⟩
  · exact .step hr hok hrun
  · exact hrun ▸ hr

/-- How far the thread is from its end once it does not wait any more. -/
def Worker.rank : Worker → Nat
  | .start => 5
  | .top => 4
  | .getItems _ => 3
  | .signalled _ => 3
  | .waiting _ => 3
  | .transmit _ => 2
  | .checkCtrl => 1
  | .exited => 0

omit [DecidableEq P] in
theorem rank_afterGet {sec : Section P (Got (SinList P × BitVec 32))} (hret : sec.ret ≠ .waits) :
    Worker.rank (afterGet r n sec).worker < 3 := by
  rcases afterGet_worker r n sec with ⟨hw, -⟩ | ⟨-, hw | hw⟩
  · exact absurd hw hret
  · simp [hw, Worker.rank]
  · simp [hw, Worker.rank]

theorem workerStep_rank (h : TxThreadStop.Inv r) (hd : r.dtor ≠ .putItem) (hl : Leaving r)
    (hs : workerStep r aslots = some r') : Worker.rank r'.worker < Worker.rank r.worker := by
  unfold workerStep at hs
  split at hs
  case h_1 hw =>
    cases hs
    simp [hw, Worker.rank]
  case h_2 hw =>
    cases hs
    dsimp only
    rw [hw]
    split
    · simp [Worker.rank]
    · split <;> simp [Worker.rank]
  case h_3 n hw =>
    cases hs
    rw [hw]
    exact rank_afterGet (mt (getItems_ret _ _ _).mp (by simpa [Leaving, hw] using hl))
  case h_4 => cases hs
  case h_5 n hw =>
    cases hs
    rw [hw]
    exact rank_afterGet (getItemsWake_nwait _ _ _).2
  case h_6 n hw =>
    cases hs
    simp [hw, Worker.rank]
  case h_7 hw =>
    cases hs
    rw [checkCtrl_some (h.ctrl hd (by simp [hw])), hw]
    decide
  case h_8 => cases hs

/-- A thread that is not waiting hears nothing of a wake-up. -/
theorem wake_eq (h : ∀ n, w ≠ .waiting n) : Worker.wake w = w := by
  cases w with
  | waiting n => exact absurd rfl (h n)
  | _ => rfl

omit [DecidableEq P] in
theorem not_waiting (h : Leaving r) (n : Nat) : r.worker ≠ .waiting n := by
  intro hw
  simp [Leaving, hw] at h

/-- While the destructor joins, nobody else does anything to the thread. -/
theorem join_step (hj : r.dtor = .join) (hl : Leaving r) (hs : TxThreadStop.step r a = some r') :
    (∃ aslots, a = .worker aslots ∧ workerStep r aslots = some r') ∨
      (r.worker = .exited ∧ r'.worker = .exited ∧ a = .dtor ∧ r'.dtor = .joined) ∨
      (r'.worker = r.worker ∧ r'.dtor = .join ∧ (∀ aslots, a ≠ .worker aslots) ∧ a ≠ .dtor) := by
  cases a with
  | produce lst => simp [TxThreadStop.step, hj] at hs
  | relink p np =>
    simp only [TxThreadStop.step] at hs
    split at hs
    · cases hs
    · cases hs
      exact .inr (.inr ⟨rfl, hj, by simp, by simp⟩)
  | worker aslots => exact .inl ⟨aslots, rfl, hs⟩
  | spurious =>
    cases hs
    exact .inr (.inr ⟨wake_eq (not_waiting hl), hj, by simp, by simp⟩)
  | dtor =>
    rcases dtorStep_cases hs with ⟨hd, -⟩ | ⟨hd, -⟩ | ⟨-, hex, rfl⟩
    · exact absurd (hd.symm.trans hj) (by simp)
    · exact absurd (hd.symm.trans hj) (by simp)
    · exact .inr (.inl ⟨hex, hex, rfl, rfl⟩)

/-- Once it is pumped the thread gets to its end. -/
theorem exits (e : (machine P).Execution InTime) (hfair : Fair e) :
    e.LeadsTo (fun s => s.run.dtor = .join) fun s => s.run.dtor ≠ .putItem ∧ s.run.worker = .exited := by
  have hruns : e.LeadsTo (fun s => s.run.dtor = .join ∧ s.run.worker ≠ .exited)
      fun s => s.run.dtor ≠ .putItem ∧ s.run.worker = .exited := by
    refine hfair.worker.leadsTo (fun s => Worker.rank s.run.worker) (fun s h hp => ?_) fun s a s' h hp hok hs => ?_
    · exact ⟨hp.2, not_waiting (leaving_of_inTime (run_reachable h) hp.1)⟩
    · have hinv := inv_of_reachable h.reachable
      have hleave := leaving_of_inTime (run_reachable h) hp.1
      have hput : s.run.dtor ≠ .putItem := by simp [hp.1]
      rcases step_cases hinv hs with ⟨hrun, -⟩ | ⟨-, hj, -⟩
      case inr => exact absurd (hp.1.symm.trans hj) (by simp)
      rcases join_step hp.1 hleave hrun with ⟨aslots, rfl, hw⟩ | ⟨hex, -⟩ | ⟨hw, hd, ha, -⟩
      · have hlt := workerStep_rank hinv.run hput hleave hw
        have hd : s'.run.dtor = .join := (workerStep_dtor hw).symm.trans hp.1
        by_cases hex : s'.run.worker = .exited
        · exact .inl ⟨by simp [hd], hex⟩
        · exact .inr ⟨⟨hd, hex⟩, hlt.le, fun _ => hlt⟩
      · exact absurd hex hp.2
      · refine .inr ⟨⟨hd, by rw [hw]; exact hp.2⟩, by rw [hw], fun ⟨aslots, he⟩ => absurd he (ha aslots)⟩
  intro n hj
  by_cases hex : (e.state n).run.worker = .exited
  · exact ⟨n, le_rfl, by simp [hj], hex⟩
  · exact hruns n ⟨hj, hex⟩

/-- What the destructors have left to do. -/
def left (s : State P) : Nat :=
  match s.run.dtor with
  | .putItem => 10
  | .pump => 9
  | .join => 8
  | .joined => 7 - s.pc.rank

theorem next_rank (pc : Pc) (hpc : pc ≠ .returned) : 7 - pc.next.rank < 7 - pc.rank := by
  cases pc <;> first | exact absurd rfl hpc | decide

/-- The destructors' own steps are the only ones that count for them. -/
theorem left_lt (hinv : Inv s) (hd : s.run.dtor ≠ .putItem) (hs : step s a = some s') :
    left s' ≤ left s ∧ (a = .dtor → left s' < left s) := by
  rcases step_cases hinv hs with ⟨hrun, hpc, -, ha⟩ | ⟨rfl, hj, hret, hrun, hpc, -⟩
  · by_cases he : a = .dtor
    · subst he
      suffices hlt : left s' < left s from ⟨hlt.le, fun _ => hlt⟩
      rcases dtorStep_cases hrun with ⟨hd', -⟩ | ⟨hd', hr⟩ | ⟨hd', -, hr⟩
      · exact absurd hd' hd
      · simp [left, hd', hr]
      · simp only [left, hd', hr]
        exact Nat.lt_succ_of_le (Nat.sub_le _ _)
    · refine ⟨?_, fun h => absurd h he⟩
      simp [left, dtor_of_step he hrun, hpc]
  · have hlt : left s' < left s := by
      simp only [left, hrun, hj, hpc]
      exact next_rank _ hret
    exact ⟨hlt.le, fun _ => hlt⟩

/-- The destructor does not start over, and the thread does not come back. -/
theorem stays (hinv : Inv s) (hd : s.run.dtor ≠ .putItem) (hs : step s a = some s') :
    s'.run.dtor ≠ .putItem ∧ (s.run.worker = .exited → s'.run.worker = .exited) := by
  rcases step_cases hinv hs with ⟨hrun, -⟩ | ⟨-, -, -, hrun, -⟩
  · rcases ctrl_of_step hrun with ⟨hw, he⟩ | ⟨hput, -⟩ | hapart
    · rw [he]
      exact ⟨hd, fun hex => absurd (hw.symm.trans hex) (by simp)⟩
    · exact absurd hput hd
    · exact ⟨mt hapart.putItem.mp hd, hapart.exited.mpr⟩
  · rw [hrun]
    exact ⟨hd, id⟩

theorem joins (e : (machine P).Execution InTime) (hfair : Fair e) :
    e.LeadsTo (fun s => s.run.dtor ≠ .putItem) fun s => s.run.dtor ≠ .putItem ∧ s.run.worker = .exited := by
  have hpump : e.LeadsTo (fun s => s.run.dtor = .pump) fun s => s.run.dtor = .join := by
    refine hfair.dtor.leadsTo left (fun s h hp => ?_) fun s a s' h hp hok hs => ?_
    · have hpc : s.pc = .signalDtor := by
        by_contra hpc
        exact absurd (hp.symm.trans ((inv_of_reachable h.reachable).joined hpc)) (by simp)
      exact ⟨by simp [hp], by simp [hpc], by simp [hp]⟩
    · have hinv := inv_of_reachable h.reachable
      obtain ⟨hle, hlt⟩ := left_lt hinv (by simp [hp]) hs
      rcases step_cases hinv hs with ⟨hrun, -⟩ | ⟨-, hj, -⟩
      case inr => exact absurd (hp.symm.trans hj) (by simp)
      by_cases ha : a = .dtor
      · subst ha
        rcases dtorStep_cases hrun with ⟨hd, -⟩ | ⟨-, hr⟩ | ⟨hd, -⟩
        · exact absurd (hp.symm.trans hd) (by simp)
        · exact .inl (by rw [hr])
        · exact absurd (hp.symm.trans hd) (by simp)
      · exact .inr ⟨(dtor_of_step ha hrun).trans hp, hle, hlt⟩
  intro n hd
  cases hdtor : (e.state n).run.dtor with
  | putItem => exact absurd hdtor hd
  | pump => exact hpump.trans (exits e hfair) n hdtor
  | join => exact exits e hfair n hdtor
  | joined => exact ⟨n, le_rfl, hd, (inv_of_reachable (e.reachable n).reachable).ctrl.joined hdtor⟩

/-- If its pump comes in time, `sin_tx_thread_dtor` returns once it is called. -/
theorem dtor_returns (e : (machine P).Execution InTime) (hfair : Fair e) :
    e.LeadsTo (fun s => s.run.dtor ≠ .putItem) fun s => s.pc = .returned := by
  refine (joins e hfair).trans ?_
  have hfrees : e.LeadsTo (fun s => (s.run.dtor ≠ .putItem ∧ s.run.worker = .exited) ∧ s.pc ≠ .returned)
      fun s => s.pc = .returned := by
    refine hfair.dtor.leadsTo left (fun s h hp => ⟨hp.1.1, hp.2, fun _ => hp.1.2⟩) fun s a s' h hp hok hs => ?_
    have hinv := inv_of_reachable h.reachable
    obtain ⟨hput, hex⟩ := stays hinv hp.1.1 hs
    by_cases hret : s'.pc = .returned
    · exact .inl hret
    · exact .inr ⟨⟨⟨hput, hex hp.1.2⟩, hret⟩, left_lt hinv hp.1.1 hs⟩
  intro n hp
  by_cases hret : (e.state n).pc = .returned
  · exact ⟨n, le_rfl, hret⟩
  · exact hfrees n ⟨hp, hret⟩

-- ---------------------------------------------------------------------------
-- A thread stopped while it waits
-- ---------------------------------------------------------------------------

def fresh : State Unit := ⟨created, .signalDtor, fun _ => true⟩

theorem fresh_start : Start fresh := ⟨created_init, rfl, fun _ => rfl⟩

def lifetime : List (Move Unit) :=
  List.replicate 3 (.worker 1) ++ List.replicate 2 .dtor ++ List.replicate 2 (.worker 1) ++ List.replicate 8 .dtor

theorem lifetime_ends : ∃ s, exec (guarded InTime step) fresh lifetime = some s ∧ s.pc = .returned ∧
    s.run.worker = .exited := by
  obtain ⟨s, he, hp⟩ := (Option.any_eq_true (fun s => s.pc = .returned ∧ s.run.worker = .exited)
    (exec (guarded InTime step) fresh lifetime)).mp (by decide)
  exact ⟨s, he, of_decide_eq_true hp⟩

theorem memory_safe_freed : ∃ s : State Unit, s.run.worker = .exited ∧ ∀ b, s.live b = false := by
  obtain ⟨s, he, hpc, -⟩ := lifetime_ends
  have hreach : (machine Unit).Reachable s :=
    ((ReachableBy.init fresh_start).stepsBy (StepsBy.of_exec he)).reachable
  exact ⟨s, (memory_safe hreach).2 hpc⟩

theorem dtor_returns_waiting :
    ∃ e : (machine Unit).Execution InTime, (e.state 4).run.dtor = .pump ∧ ∃ n, 4 ≤ n ∧ (e.state n).pc = .returned := by
  obtain ⟨s, he, hpc, hex⟩ := lifetime_ends
  have hcalled : ((Execution.ofExec lifetime fresh_start he).state 4).run.dtor = .pump := rfl
  refine ⟨.ofExec lifetime fresh_start he, hcalled, dtor_returns _ ⟨?_, ?_⟩ 4 (by simp [hcalled])⟩
  · exact ofExec_fair fresh_start he fun h => h.1 hex
  · exact ofExec_fair fresh_start he fun h => h.2.1 hpc

end Libsinet.TxThreadLife
