import Libsinet.SinInitUndo
import Libsinet.UdpMirrorRun

/-!
# sin_destroy while the instance is at work

The thread that calls `sin_destroy` against the threads of the instance. It puts
a `SIGTERM` in the control queue of one thread after another, waits for each to
exit, and releases what they work with. The destructor of a thread is two steps,
up to `pthread_join` and from there on.
-/

namespace Libsinet.SinDestroy

open Machine Execution
open SinInit (Res Ring Member sinInit sinDestroy uses)
open Stance (SinStance Thread IsStepOf)
open UdpMirror (WrkSet)

-- ---------------------------------------------------------------------------
-- Resources of an instance at work
-- ---------------------------------------------------------------------------

variable {nrings : Nat} {E : Type u} {P : Type v} {D : Type w}

abbrev Worker (nrings : Nat) := Thread (WrkSet nrings) (WrkSet nrings)

abbrev Instance (nrings : Nat) (E : Type u) (P : Type v) (D : Type w) :=
  SinStance (WrkSet nrings) (WrkSet nrings) E P D

abbrev AtWork (nrings : Nat) (E : Type u) (P : Type v) (D : Type w) :=
  Stance.State (WrkSet nrings) (WrkSet nrings) E P D

def ring : WrkSet nrings → Ring
  | .phy i => .phy i
  | .hst => .hst

def wrkSet (nrings : Nat) : Ring → Option (WrkSet nrings)
  | .phy i => if h : i < nrings then some (.phy ⟨i, h⟩) else none
  | .hst => some .hst

def threadRes : Worker nrings → Res
  | .inl w => .obj .rxThread (ring w)
  | .inr w => .obj .txThread (ring w)

/-- The thread that a destructor stops. -/
def stops (nrings : Nat) : Res → Option (Worker nrings)
  | .obj .rxThread r => (wrkSet nrings r).map .inl
  | .obj .txThread r => (wrkSet nrings r).map .inr
  | _ => none

def zoneRes : Worker nrings → Res
  | .inl w => .obj .rxZone (ring w)
  | .inr w => .obj .txZone (ring w)

/-- A packet lies in its zone, its buffer in the mapped memory. -/
def pktRes (N : Instance nrings E P D) (p : P) : List Res := [zoneRes (N.myZone p), .mem]

/-- What a step of an rx thread reads or writes, its own thread apart. The
packets include the last one of a list that another is put behind. -/
def rxTouches [DecidableEq E] (N : Instance nrings E P D) (s : AtWork nrings E P D) (w : WrkSet nrings) :
    List Res :=
  let x := s.rx w
  match x.pc with
  | .poll => [.queueFd (ring w), .mem]
  | .dequeue => .obj .rxZone (ring w) :: .mem :: x.pktsIn.tail.toList.flatMap (pktRes N)
  | .scan _ none => [.obj .rxSort (ring w)]
  | .scan _ (some pkt) =>
    .obj .rxSort (ring w) ::
      (pkt :: (x.wrklist (N.classOf w (s.frame pkt))).tail.toList).flatMap (pktRes N)
  | .flush (c :: _) =>
    .obj .rxSort (ring w) ::
      if (x.wrklist c).isEmpty then []
      else
        .obj .txThread (ring (N.outq w c)) ::
          ((x.wrklist c).nodes s.links ++ (s.tx (N.outq w c)).queue.tail.toList).flatMap (pktRes N)
  | .flush [] => []
  | .checkCtrl => []
  | .spin _ => [.obj .rxZone (ring w), .mem]
  | .exited => []

/-- The same for a tx thread; its queue is part of it. The step from `top`
includes the `ioctl` of a cycle with no free slot. -/
def txTouches (N : Instance nrings E P D) (s : AtWork nrings E P D) (w : WrkSet nrings) : List Res :=
  let y := s.tx w
  match y.pc with
  | .top => [.mem, .queueFd (ring w)]
  | .getItems _ => (y.pktsOut.tail.toList ++ y.queue.tail.toList).flatMap (pktRes N)
  | .waiting _ => (y.pktsOut.tail.toList ++ y.queue.tail.toList).flatMap (pktRes N)
  | .start _ => [.mem, .obj .txZone (ring w)]
  | .getpkts _ _ _ => .mem :: .obj .txZone (ring w) :: y.pktsTx.tail.toList.flatMap (pktRes N)
  | .send _ _ pkt pktTx => .obj .txZone (ring w) :: (pkt.toList ++ pktTx.toList).flatMap (pktRes N)
  | .advance _ _ => [.mem, .queueFd (ring w)]
  | .checkCtrl => []
  | .exited => []

-- ---------------------------------------------------------------------------
-- State
-- ---------------------------------------------------------------------------

/-- `todo` is what `sin_destroy` has still to release, if it was called, and
`sigterm` whether the destructor of the thread in front of it has put its
`SIGTERM`. The resources that are not released yet are `held`. -/
structure State (nrings : Nat) (E : Type u) (P : Type v) (D : Type w) where
  inst : AtWork nrings E P D
  todo : Option (List Res)
  sigterm : Bool
  held : Finset Res

inductive Move (nrings : Nat) (D : Type w)
  | inst (mv : Stance.Move (WrkSet nrings) (WrkSet nrings) D)
  | call
  | putSigterm
  | release

def Exited (s : AtWork nrings E P D) : Worker nrings → Prop
  | .inl w => (s.rx w).pc = .exited
  | .inr w => (s.tx w).pc = .exited

/-- The destructor of a thread has put the `SIGTERM` and not returned. -/
def State.Stopping (s : State nrings E P D) (thread : Worker nrings) : Prop :=
  s.sigterm = true ∧ s.todo.bind List.head? = some (threadRes thread)

instance (s : State nrings E P D) (thread : Worker nrings) : Decidable (s.Stopping thread) :=
  inferInstanceAs (Decidable (_ ∧ _))

/-- `check_ctrl` finds what the destructor has put. -/
def State.Finds (s : State nrings E P D) : Stance.Move (WrkSet nrings) (WrkSet nrings) D → Prop
  | .rx w choice => (s.inst.rx w).pc = .checkCtrl → choice = decide (s.Stopping (.inl w))
  | .tx w choice => (s.inst.tx w).pc = .checkCtrl → choice = decide (s.Stopping (.inr w))
  | _ => True

section
variable [DecidableEq E] [DecidableEq P]

instance (s : AtWork nrings E P D) : DecidablePred (Exited s)
  | .inl _ => inferInstanceAs (Decidable (_ = _))
  | .inr _ => inferInstanceAs (Decidable (_ = _))

instance (s : State nrings E P D) : DecidablePred s.Finds
  | .rx _ _ => inferInstanceAs (Decidable (_ → _))
  | .tx _ _ => inferInstanceAs (Decidable (_ → _))
  | .receive _ _ => inferInstanceAs (Decidable True)
  | .drain _ _ => inferInstanceAs (Decidable True)

/-- What is in front may be released: a thread once it has exited. -/
def State.Joined (s : State nrings E P D) (res : Res) : Prop :=
  ∀ thread ∈ stops nrings res, s.sigterm = true ∧ Exited s.inst thread

instance (s : State nrings E P D) (res : Res) : Decidable (s.Joined res) :=
  match hstops : stops nrings res with
  | none => isTrue fun thread h => by simp [hstops] at h
  | some thread => decidable_of_iff (s.sigterm = true ∧ Exited s.inst thread) (by simp [State.Joined, hstops])

variable (N : Instance nrings E P D) (sip : SinInit.Stance)

def step (s : State nrings E P D) : Move nrings D → Option (State nrings E P D)
  | .inst mv => if s.Finds mv then (Stance.step N s.inst mv).map fun inst => { s with inst } else none
  | .call =>
    match s.todo with
    | none => some { s with todo := some (sinDestroy sip) }
    | some _ => none
  | .putSigterm =>
    match s.todo with
    | some (res :: _) => if (stops nrings res).isSome && !s.sigterm then some { s with sigterm := true } else none
    | _ => none
  | .release =>
    match s.todo with
    | some (res :: todo) =>
      if s.Joined res then some { s with todo := some todo, sigterm := false, held := s.held.erase res }
      else none
    | _ => none

/-- The instance that a successful `sin_init` returned, its threads at their
first cycle. -/
structure Start (s : State nrings E P D) : Prop where
  inst : Stance.Start N s.inst
  todo : s.todo = none
  sigterm : s.sigterm = false
  held : ∃ ok, (sinInit nrings ok).ret = some sip ∧ s.held = (sinInit nrings ok).acquired.toFinset

abbrev machine : Machine (State nrings E P D) (Move nrings D) := ofFn (Start N sip) (step N sip)

end

def phyRes : Res → List Res
  | .queueFd (.phy _) => [.phy]
  | .obj _ (.phy _) => [.phy]
  | _ => []

/-- What a step reads or writes. `sin_destroy` finds a thread, a zone, a sorter
or a descriptor in its `wrk_set`. -/
def touches [DecidableEq E] (N : Instance nrings E P D) (s : State nrings E P D) : Move nrings D → List Res
  | .inst (.rx w _) => threadRes (.inl w) :: rxTouches N s.inst w
  | .inst (.tx w _) => threadRes (.inr w) :: txTouches N s.inst w
  | .inst _ => []
  | .call => [.stance]
  | _ =>
    match s.todo with
    | some (res :: _) => res :: .stance :: phyRes res
    | _ => []

-- ---------------------------------------------------------------------------
-- One ring
-- ---------------------------------------------------------------------------

open UdpMirror (oneRing oneMirror oneStart oneStart_start)

def oneSip : SinInit.Stance := (sinInit 1 fun _ => true).ret.getD (SinInit.cleared 1)

def oneWork : State 1 Ip4.Rewriter ((WrkSet 1 ⊕ WrkSet 1) × Nat) Bytes.Mem :=
  ⟨oneStart, none, false, (sinInit 1 fun _ => true).acquired.toFinset⟩

theorem oneWork_start : Start oneMirror oneSip oneWork := ⟨oneStart_start, rfl, rfl, _, rfl, rfl⟩

def stopRx (w : WrkSet 1) : List (Move 1 Bytes.Mem) :=
  [.putSigterm, .inst (.rx w false), .inst (.rx w true), .release, .release]

def stopTx (w : WrkSet 1) : List (Move 1 Bytes.Mem) :=
  .putSigterm :: List.replicate 4 (.inst (.tx w false)) ++ [.inst (.tx w true), .release]

/-- A shutdown with nothing coming in. -/
def oneShutdown : List (Move 1 Bytes.Mem) :=
  .call :: stopRx .hst ++ stopRx oneRing.phy0 ++ stopTx .hst ++ stopTx oneRing.phy0 ++ List.replicate 9 .release

variable [DecidableEq E] [DecidableEq P] {N : Instance nrings E P D} {sip : SinInit.Stance}
  {s s' : State nrings E P D} {mv : Move nrings D} {thread : Worker nrings} {res : Res} {todo : List Res}

-- ---------------------------------------------------------------------------
-- What a thread uses
-- ---------------------------------------------------------------------------

theorem wrkSet_ring (w : WrkSet nrings) : wrkSet nrings (ring w) = some w := by
  cases w <;> simp [ring, wrkSet]

theorem stops_threadRes (thread : Worker nrings) : stops nrings (threadRes thread) = some thread := by
  cases thread <;> simp [threadRes, stops, wrkSet_ring]

theorem ring_of_wrkSet {r : Ring} {w : WrkSet nrings} (h : wrkSet nrings r = some w) : r = ring w := by
  cases r with
  | phy i =>
    obtain ⟨hi, rfl⟩ : ∃ hi : i < nrings, .phy ⟨i, hi⟩ = w := by simpa [wrkSet] using h
    rfl
  | hst =>
    obtain rfl : .hst = w := by simpa [wrkSet] using h
    rfl

theorem threadRes_of_stops (h : stops nrings res = some thread) : res = threadRes thread := by
  cases res with
  | obj f r =>
    cases f with
    | rxThread | txThread =>
      obtain ⟨w, hw, rfl⟩ := Option.map_eq_some_iff.mp h
      rw [ring_of_wrkSet hw]
      rfl
    | _ => cases h
  | _ => cases h

/-- A resource of one of the rings, or the mapped memory. -/
def Belongs (nrings : Nat) (res : Res) : Prop :=
  res = .mem ∨ ∃ w : WrkSet nrings, res = .queueFd (ring w) ∨ ∃ f, res = .obj f (ring w)

theorem belongs_mem (h : Belongs nrings res) (hn : sip.nrings = nrings) : res = .mem ∨ res ∈ sinDestroy sip := by
  subst hn
  refine h.imp_right ?_
  rintro ⟨⟨i⟩ | _, rfl | ⟨f, rfl⟩⟩
  · simp [sinDestroy, SinInit.Stance.freeRest, ring]
  · cases f <;>
      simp [sinDestroy, SinInit.Stance.stopRx, SinInit.Stance.stopTx, SinInit.Stance.freeRest, ring]
  · simp [sinDestroy, SinInit.Stance.freeRest, ring]
  · cases f <;>
      simp [sinDestroy, SinInit.Stance.stopRx, SinInit.Stance.stopTx, SinInit.Stance.freeRest, ring]

/-- What counts as used by a thread, and is there. -/
def MayTouch (thread : Worker nrings) (res : Res) : Prop := uses (threadRes thread) res = true ∧ Belongs nrings res

omit [DecidableEq E] [DecidableEq P] in
theorem mayTouch_pkt (thread : Worker nrings) {p : P} (h : res ∈ pktRes N p) : MayTouch thread res := by
  rcases List.mem_pair.mp h with rfl | rfl
  · cases N.myZone p with
    | inl w => exact ⟨by cases thread <;> rfl, .inr ⟨w, .inr ⟨_, rfl⟩⟩⟩
    | inr w => exact ⟨by cases thread <;> rfl, .inr ⟨w, .inr ⟨_, rfl⟩⟩⟩
  · exact ⟨by cases thread <;> rfl, .inl rfl⟩

omit [DecidableEq E] [DecidableEq P] in
theorem mayTouch_pkts (thread : Worker nrings) {pkts : List P} (h : res ∈ pkts.flatMap (pktRes N)) :
    MayTouch thread res := by
  obtain ⟨p, -, hp⟩ := List.mem_flatMap.mp h
  exact mayTouch_pkt thread hp

theorem mayTouch_queueFd (thread : Worker nrings) {w : WrkSet nrings}
    (h : thread = .inl w ∨ thread = .inr w) : MayTouch thread (.queueFd (ring w)) := by
  refine ⟨?_, .inr ⟨w, .inl rfl⟩⟩
  rcases h with rfl | rfl <;> simp [threadRes, uses]

theorem mayTouch_mem (thread : Worker nrings) : MayTouch thread .mem :=
  ⟨by cases thread <;> rfl, .inl rfl⟩

theorem mayTouch_rxZone (thread : Worker nrings) (w : WrkSet nrings) :
    MayTouch thread (.obj .rxZone (ring w)) := ⟨by cases thread <;> rfl, .inr ⟨w, .inr ⟨_, rfl⟩⟩⟩

theorem mayTouch_txZone (thread : Worker nrings) (w : WrkSet nrings) :
    MayTouch thread (.obj .txZone (ring w)) := ⟨by cases thread <;> rfl, .inr ⟨w, .inr ⟨_, rfl⟩⟩⟩

theorem mayTouch_rxSort (w : WrkSet nrings) : MayTouch (.inl w) (.obj .rxSort (ring w)) :=
  ⟨by simp [threadRes, uses], .inr ⟨w, .inr ⟨_, rfl⟩⟩⟩

theorem mayTouch_txThread (w w' : WrkSet nrings) : MayTouch (.inl w) (.obj .txThread (ring w')) :=
  ⟨rfl, .inr ⟨w', .inr ⟨_, rfl⟩⟩⟩

omit [DecidableEq P] in
theorem rxTouches_mayTouch {a : AtWork nrings E P D} {w : WrkSet nrings} (h : res ∈ rxTouches N a w) :
    MayTouch (.inl w) res := by
  unfold rxTouches at h
  dsimp only at h
  split at h
  case h_1 =>
    rcases List.mem_pair.mp h with rfl | rfl
    · exact mayTouch_queueFd _ (.inl rfl)
    · exact mayTouch_mem _
  case h_2 =>
    rcases List.mem_cons.mp h with rfl | h
    · exact mayTouch_rxZone _ w
    · rcases List.mem_cons.mp h with rfl | h
      · exact mayTouch_mem _
      · exact mayTouch_pkts _ h
  case h_3 =>
    rw [List.mem_singleton.mp h]
    exact mayTouch_rxSort w
  case h_4 =>
    rcases List.mem_cons.mp h with rfl | h
    · exact mayTouch_rxSort w
    · exact mayTouch_pkts _ h
  case h_5 =>
    rcases List.mem_cons.mp h with rfl | h
    · exact mayTouch_rxSort w
    · split at h
      · exact absurd h List.not_mem_nil
      · rcases List.mem_cons.mp h with rfl | h
        · exact mayTouch_txThread w _
        · exact mayTouch_pkts _ h
  case h_8 =>
    rcases List.mem_pair.mp h with rfl | rfl
    · exact mayTouch_rxZone _ w
    · exact mayTouch_mem _
  all_goals exact absurd h List.not_mem_nil

omit [DecidableEq E] [DecidableEq P] in
theorem txTouches_mayTouch {a : AtWork nrings E P D} {w : WrkSet nrings} (h : res ∈ txTouches N a w) :
    MayTouch (.inr w) res := by
  have hfd : res ∈ [.mem, .queueFd (ring w)] → MayTouch (.inr w) res := by
    intro h
    rcases List.mem_pair.mp h with rfl | rfl
    · exact mayTouch_mem _
    · exact mayTouch_queueFd _ (.inr rfl)
  unfold txTouches at h
  dsimp only at h
  split at h
  case h_1 => exact hfd h
  case h_2 => exact mayTouch_pkts _ h
  case h_3 => exact mayTouch_pkts _ h
  case h_4 =>
    rcases List.mem_pair.mp h with rfl | rfl
    · exact mayTouch_mem _
    · exact mayTouch_txZone _ w
  case h_5 =>
    rcases List.mem_cons.mp h with rfl | h
    · exact mayTouch_mem _
    · rcases List.mem_cons.mp h with rfl | h
      · exact mayTouch_txZone _ w
      · exact mayTouch_pkts _ h
  case h_6 =>
    rcases List.mem_cons.mp h with rfl | h
    · exact mayTouch_txZone _ w
    · exact mayTouch_pkts _ h
  case h_7 => exact hfd h
  all_goals exact absurd h List.not_mem_nil

-- ---------------------------------------------------------------------------
-- The invariant
-- ---------------------------------------------------------------------------

/-- What `sin_destroy` has still to release, the whole of it before the call. -/
def State.rest (sip : SinInit.Stance) (s : State nrings E P D) : List Res := s.todo.getD (sinDestroy sip)

/-- What is released comes in front, and the threads in it have exited. -/
structure Inv (sip : SinInit.Stance) (s : State nrings E P D) : Prop where
  nrings : sip.nrings = nrings
  nodup : (sinDestroy sip).Nodup
  mem : .mem ∉ sinDestroy sip
  held : s.held = insert .mem (s.rest sip).toFinset
  done : ∃ done, done ++ s.rest sip = sinDestroy sip ∧
    ∀ thread, threadRes thread ∈ done → Exited s.inst thread

theorem running_step {a a' : AtWork nrings E P D} {mv : Stance.Move (WrkSet nrings) (WrkSet nrings) D}
    (hs : Stance.step N a mv = some a') (hown : IsStepOf thread mv) : ¬ Exited a thread := by
  cases mv with
  | rx w choice =>
    obtain rfl : thread = .inl w := hown
    intro hpc
    have hpc : (a.rx w).pc = .exited := hpc
    simp [Stance.step, Stance.rxStep, hpc] at hs
  | tx w choice =>
    obtain rfl : thread = .inr w := hown
    intro hpc
    have hpc : (a.tx w).pc = .exited := hpc
    simp [Stance.step, Stance.txStep, hpc] at hs
  | receive w k => exact hown.elim
  | drain w n => exact hown.elim

theorem exited_step {a a' : AtWork nrings E P D} {mv : Stance.Move (WrkSet nrings) (WrkSet nrings) D}
    (hs : Stance.step N a mv = some a') (h : Exited a thread) : Exited a' thread := by
  cases thread with
  | inl w =>
    rcases Stance.rx_of_step hs w with ⟨choice, rfl, -⟩ | ⟨-, tail, hsame⟩
    · exact absurd h (running_step hs rfl)
    · exact (congrArg Stance.RxThread.pc hsame).trans h
  | inr w =>
    rcases Stance.tx_of_step hs w with ⟨choice, rfl, -⟩ | ⟨-, queue, signalled, tail, hsame⟩
    · exact absurd h (running_step hs rfl)
    · exact (congrArg Stance.TxThread.pc hsame).trans h

/-- What a step does, by who takes it. -/
inductive Moves (N : Instance nrings E P D) (sip : SinInit.Stance) (s : State nrings E P D) :
    Move nrings D → State nrings E P D → Prop
  | inst (mv : Stance.Move (WrkSet nrings) (WrkSet nrings) D) (a : AtWork nrings E P D) (hfinds : s.Finds mv)
      (hs : Stance.step N s.inst mv = some a) : Moves N sip s (.inst mv) { s with inst := a }
  | call (htodo : s.todo = none) : Moves N sip s .call { s with todo := some (sinDestroy sip) }
  | putSigterm (thread : Worker nrings) (todo : List Res) (htodo : s.todo = some (threadRes thread :: todo))
      (hsigterm : s.sigterm = false) : Moves N sip s .putSigterm { s with sigterm := true }
  | release (res : Res) (todo : List Res) (htodo : s.todo = some (res :: todo)) (hjoined : s.Joined res) :
      Moves N sip s .release { s with todo := some todo, sigterm := false, held := s.held.erase res }

theorem step_moves (hs : step N sip s mv = some s') : Moves N sip s mv s' := by
  cases mv with
  | inst mv =>
    obtain ⟨hfinds, hs⟩ := Option.ite_none_right_eq_some.mp hs
    obtain ⟨a, ha, rfl⟩ := Option.map_eq_some_iff.mp hs
    exact .inst mv a hfinds ha
  | call =>
    simp only [step] at hs
    split at hs
    · rename_i htodo
      cases hs
      exact .call htodo
    · cases hs
  | putSigterm =>
    simp only [step] at hs
    split at hs
    · rename_i res todo htodo
      obtain ⟨hstop, ⟨⟩⟩ := Option.ite_none_right_eq_some.mp hs
      obtain ⟨hthread, hsigterm⟩ := Bool.and_eq_true_iff.mp hstop
      obtain ⟨thread, hthread⟩ := Option.isSome_iff_exists.mp hthread
      obtain rfl := threadRes_of_stops hthread
      exact .putSigterm thread todo htodo (by simpa using hsigterm)
    · cases hs
  | release =>
    simp only [step] at hs
    split at hs
    · rename_i res todo htodo
      obtain ⟨hjoined, ⟨⟩⟩ := Option.ite_none_right_eq_some.mp hs
      exact .release res todo htodo hjoined
    · cases hs

theorem Inv.step (h : Inv sip s) (hs : step N sip s mv = some s') : Inv sip s' := by
  obtain ⟨done, hdone, hexited⟩ := h.done
  cases step_moves hs with
  | inst mv a hfinds ha =>
    exact ⟨h.nrings, h.nodup, h.mem, h.held, done, hdone, fun w hw => exited_step ha (hexited w hw)⟩
  | call htodo =>
    have hrest : s.rest sip = sinDestroy sip := by simp [State.rest, htodo]
    rw [hrest] at hdone
    exact ⟨h.nrings, h.nodup, h.mem, hrest ▸ h.held, done, hdone, hexited⟩
  | putSigterm thread todo htodo hsigterm => exact ⟨h.nrings, h.nodup, h.mem, h.held, done, hdone, hexited⟩
  | release res todo htodo hjoined =>
    have hrest : s.rest sip = res :: todo := by simp [State.rest, htodo]
    rw [hrest] at hdone
    have hnodup : (res :: todo).Nodup := (List.nodup_append.mp (hdone ▸ h.nodup)).2.1
    have hmem : res ≠ .mem := by
      rintro rfl
      exact h.mem (hdone ▸ List.mem_append_right _ List.mem_cons_self)
    refine ⟨h.nrings, h.nodup, h.mem, ?_, done ++ [res], ?_, ?_⟩
    · show s.held.erase res = insert .mem todo.toFinset
      rw [h.held, hrest, List.toFinset_cons, Finset.erase_insert_of_ne hmem.symm,
        Finset.erase_insert (by simpa using (List.nodup_cons.mp hnodup).1)]
    · show done ++ [res] ++ todo = _
      rw [List.append_assoc]
      exact hdone
    · intro thread hthread
      rcases List.mem_append.mp hthread with hold | hnew
      · exact hexited thread hold
      · obtain rfl := List.mem_singleton.mp hnew
        exact (hjoined thread (stops_threadRes thread)).2

theorem inv (h : (machine N sip).Reachable s) : Inv sip s := by
  apply h.induct
  · intro s hstart
    obtain ⟨ok, hret, hheld⟩ := hstart.held
    obtain ⟨hn, hnodup, hmem, hacquired⟩ := SinInit.sinInit_acquired hret
    have hrest : s.rest sip = sinDestroy sip := by simp [State.rest, hstart.todo]
    exact ⟨hn, hnodup, hmem, by rw [hrest, hheld, hacquired], [], by simp [hrest], by simp⟩
  · exact fun s mv s' hinv hs => hinv.step hs

-- ---------------------------------------------------------------------------
-- Nothing released is touched
-- ---------------------------------------------------------------------------

theorem threadRes_mem (hn : sip.nrings = nrings) (thread : Worker nrings) : threadRes thread ∈ sinDestroy sip := by
  have hbelongs : Belongs nrings (threadRes thread) := by
    cases thread with
    | inl w => exact .inr ⟨w, .inr ⟨_, rfl⟩⟩
    | inr w => exact .inr ⟨w, .inr ⟨_, rfl⟩⟩
  refine (belongs_mem hbelongs hn).resolve_left ?_
  cases thread <;> simp [threadRes]

section

omit [DecidableEq E] [DecidableEq P]

theorem Inv.thread_rest (h : Inv sip s) (hrun : ¬ Exited s.inst thread) : threadRes thread ∈ s.rest sip := by
  obtain ⟨done, hdone, hexited⟩ := h.done
  have hin := threadRes_mem h.nrings thread
  rw [← hdone] at hin
  exact (List.mem_append.mp hin).resolve_left fun hd => hrun (hexited thread hd)

theorem Inv.held_rest (h : Inv sip s) (hres : res ∈ s.rest sip) : res ∈ s.held := by
  rw [h.held]
  exact Finset.mem_insert_of_mem (List.mem_toFinset.mpr hres)

/-- What a running thread uses comes behind it, so is not released yet. -/
theorem Inv.thread_held (h : Inv sip s) (hrun : ¬ Exited s.inst thread) (hres : MayTouch thread res) :
    res ∈ s.held := by
  obtain ⟨huses, hbelongs⟩ := hres
  rcases belongs_mem hbelongs h.nrings with rfl | hin
  · rw [h.held]
    exact Finset.mem_insert_self _ _
  · obtain ⟨done, hdone, -⟩ := h.done
    have horder := SinInit.order_destroy sip
    rw [← hdone] at hin horder
    rcases List.mem_append.mp hin with hd | hr
    · have hfalse := (List.pairwise_append.mp horder).2.2 res hd _ (h.thread_rest hrun)
      exact absurd huses (by simp [hfalse])
    · exact h.held_rest hr

/-- The instance itself and its rings go last. -/
theorem Inv.own_held (h : Inv sip s) (htodo : s.todo = some (res :: todo)) {res' : Res}
    (hres : res' ∈ res :: .stance :: phyRes res) : res' ∈ s.held := by
  obtain ⟨done, hdone, -⟩ := h.done
  have hrest : s.rest sip = res :: todo := by simp [State.rest, htodo]
  rw [hrest] at hdone
  have hlast : [.phy, .netmapFd, .stance] <:+ sinDestroy sip := by
    simp only [sinDestroy, SinInit.Stance.freeRest, ← List.append_assoc, List.suffix_append]
  apply h.held_rest
  rw [hrest]
  rcases List.mem_cons.mp hres with rfl | hres
  · exact List.mem_cons_self
  · rcases List.suffix_or_suffix_of_suffix hlast ⟨done, hdone⟩ with hall | hfew
    · refine hall.subset ?_
      rcases List.mem_cons.mp hres with rfl | hphy
      · simp
      · unfold phyRes at hphy
        split at hphy <;> simp_all
    · simp only [List.suffix_cons_iff, List.suffix_nil, List.cons.injEq, reduceCtorEq, or_false] at hfew
      have hstance : res' = .stance := by
        rcases hfew with ⟨rfl, -⟩ | ⟨rfl, -⟩ | ⟨rfl, -⟩ <;> simpa [phyRes] using hres
      rcases hfew with ⟨-, rfl⟩ | ⟨-, rfl⟩ | ⟨rfl, rfl⟩ <;> simp [hstance]

end

/-- No step of a thread, and none of `sin_destroy`, reads or writes what was
released; and when all is done the threads have exited and only the mapping is
left. -/
theorem destroy_safe (h : (machine N sip).Reachable s) :
    (∀ mv s', step N sip s mv = some s' → ∀ res ∈ touches N s mv, res ∈ s.held) ∧
      (s.todo = some [] → (∀ thread, Exited s.inst thread) ∧ s.held = {.mem}) := by
  have hinv := inv h
  constructor
  · intro mv s' hs res hres
    cases step_moves hs with
    | inst mv a hfinds ha =>
      cases mv with
      | rx w choice =>
        have hrun : ¬ Exited s.inst (.inl w) := running_step ha rfl
        rcases List.mem_cons.mp hres with rfl | htouch
        · exact hinv.held_rest (hinv.thread_rest hrun)
        · exact hinv.thread_held hrun (rxTouches_mayTouch htouch)
      | tx w choice =>
        have hrun : ¬ Exited s.inst (.inr w) := running_step ha rfl
        rcases List.mem_cons.mp hres with rfl | htouch
        · exact hinv.held_rest (hinv.thread_rest hrun)
        · exact hinv.thread_held hrun (txTouches_mayTouch htouch)
      | receive w k => exact absurd hres List.not_mem_nil
      | drain w n => exact absurd hres List.not_mem_nil
    | call htodo =>
      obtain rfl := List.mem_singleton.mp hres
      have hrest : s.rest sip = sinDestroy sip := by simp [State.rest, htodo]
      exact hinv.held_rest (hrest ▸ by simp [sinDestroy, SinInit.Stance.freeRest])
    | putSigterm thread todo htodo hsigterm =>
      simp only [touches, htodo] at hres
      exact hinv.own_held htodo hres
    | release res' todo htodo hjoined =>
      simp only [touches, htodo] at hres
      exact hinv.own_held htodo hres
  · intro htodo
    have hrest : s.rest sip = [] := by simp [State.rest, htodo]
    obtain ⟨done, hdone, hexited⟩ := hinv.done
    rw [hrest, List.append_nil] at hdone
    refine ⟨fun thread => hexited thread (hdone ▸ threadRes_mem hinv.nrings thread), ?_⟩
    rw [hinv.held, hrest]
    rfl

/-- The rx thread of the host is gone, that of the phy ring still polls. -/
theorem destroy_safe_polling : ∃ s s', .obj .rxThread .hst ∉ s.held ∧
    step oneMirror oneSip s (.inst (.rx oneRing.phy0 false)) = some s' ∧
      ∀ res ∈ touches oneMirror s (.inst (.rx oneRing.phy0 false)), res ∈ s.held := by
  obtain ⟨s, hr, hp⟩ := Reachable.of_test (step oneMirror oneSip) (oneShutdown.take 6)
    (fun s => .obj .rxThread .hst ∉ s.held ∧ (step oneMirror oneSip s (.inst (.rx oneRing.phy0 false))).isSome)
    oneWork_start (by decide)
  obtain ⟨hgone, hsome⟩ := of_decide_eq_true hp
  obtain ⟨s', hs⟩ := Option.isSome_iff_exists.mp hsome
  exact ⟨s, s', hgone, hs, (destroy_safe hr).1 _ _ hs⟩

-- ---------------------------------------------------------------------------
-- sin_destroy returns
-- ---------------------------------------------------------------------------

/-- The steps of the thread that is in `sin_destroy`. -/
def IsCallers : Move nrings D → Prop
  | .putSigterm => True
  | .release => True
  | _ => False

def IsThreads (thread : Worker nrings) : Move nrings D → Prop
  | .inst mv => IsStepOf thread mv
  | _ => False

abbrev Run (N : Instance nrings E P D) (sip : SinInit.Stance) := (machine N sip).Execution fun _ _ => True

/-- `sin_destroy` is given its turn when it can go on, and so is a thread that
is to stop: the pump of its destructor finds it in its wait, if it waits. -/
structure Fair (e : Run N sip) : Prop where
  caller : e.WeaklyFair IsCallers fun s => ∃ mv s', IsCallers mv ∧ step N sip s mv = some s'
  threads : ∀ thread, e.WeaklyFair (IsThreads thread) fun s => s.Stopping thread ∧ ¬ Exited s.inst thread

theorem reachable_inst (h : (machine N sip).Reachable s) : (Stance.machine N).Reachable s.inst := by
  apply h.induct
  · exact fun s hstart => .init hstart.inst
  · intro s mv s' hr hs
    cases step_moves hs with
    | inst mv a hfinds ha => exact hr.next ha
    | _ => exact hr

theorem joined_step {a : AtWork nrings E P D} {mv : Stance.Move (WrkSet nrings) (WrkSet nrings) D}
    (hs : Stance.step N s.inst mv = some a) (h : s.Joined res) : State.Joined { s with inst := a } res :=
  fun thread hthread => ⟨(h thread hthread).1, exited_step hs (h thread hthread).2⟩

/-- What `check_ctrl` finds ends the thread. -/
theorem exits_at {a : AtWork nrings E P D} {mv : Stance.Move (WrkSet nrings) (WrkSet nrings) D}
    (hs : Stance.step N s.inst mv = some a) (hown : IsStepOf thread mv) (hat : s.inst.AtCheckCtrl thread)
    (hfinds : s.Finds mv) (hstop : s.Stopping thread) : Exited a thread := by
  cases mv with
  | rx w choice =>
    obtain rfl : thread = .inl w := hown
    have hpc : (s.inst.rx w).pc = .checkCtrl := hat
    have hchoice : choice = true := (hfinds hpc).trans (decide_eq_true hstop)
    simp only [Stance.step, Stance.rxStep, hpc, hchoice, if_true, Option.some.injEq] at hs
    simp [← hs, Exited, Stance.setRx]
  | tx w choice =>
    obtain rfl : thread = .inr w := hown
    have hpc : (s.inst.tx w).pc = .checkCtrl := hat
    have hchoice : choice = true := (hfinds hpc).trans (decide_eq_true hstop)
    simp only [Stance.step, Stance.txStep, hpc, hchoice, if_true, Option.some.injEq] at hs
    simp [← hs, Exited, Stance.setTx]
  | receive w k => exact hown.elim
  | drain w n => exact hown.elim

variable {e : Run N sip}

theorem signals (hfair : Fair e) (thread : Worker nrings) (todo : List Res) :
    e.LeadsTo (fun s => s.todo = some (threadRes thread :: todo))
      fun s => s.todo = some (threadRes thread :: todo) ∧ s.sigterm = true := by
  have hput : e.LeadsTo (fun s => s.todo = some (threadRes thread :: todo) ∧ s.sigterm = false)
      fun s => s.todo = some (threadRes thread :: todo) ∧ s.sigterm = true := by
    refine hfair.caller.leadsTo (fun _ => 0) ?_ ?_
    · rintro s - ⟨htodo, hsigterm⟩
      exact ⟨.putSigterm, { s with sigterm := true }, trivial, by simp [step, htodo, hsigterm, stops_threadRes]⟩
    · rintro s mv s' - ⟨htodo, hsigterm⟩ - hs
      cases step_moves hs with
      | inst mv a hfinds ha => exact .inr ⟨⟨htodo, hsigterm⟩, le_rfl, False.elim⟩
      | call hnone => exact absurd (htodo.symm.trans hnone) (by simp)
      | putSigterm thread' todo' htodo' hsigterm' => exact .inl ⟨htodo, rfl⟩
      | release res todo' htodo' hjoined =>
        obtain ⟨rfl, rfl⟩ : threadRes thread = res ∧ todo = todo' := by simpa [htodo] using htodo'
        have hput := (hjoined thread (stops_threadRes thread)).1
        exact absurd (hput.symm.trans hsigterm) (by simp)
  intro n htodo
  cases hsigterm : (e.state n).sigterm with
  | false => exact hput n ⟨htodo, hsigterm⟩
  | true => exact ⟨n, le_rfl, htodo, hsigterm⟩

theorem exits (hfair : Fair e) (thread : Worker nrings) (todo : List Res) :
    e.LeadsTo (fun s => s.todo = some (threadRes thread :: todo) ∧ s.sigterm = true)
      fun s => s.todo = some (threadRes thread :: todo) ∧ s.Joined (threadRes thread) := by
  have hjoined : ∀ s : State nrings E P D, s.sigterm = true → Exited s.inst thread →
      s.Joined (threadRes thread) := by
    intro s hsigterm hexited thread' hthread'
    obtain rfl : thread = thread' := by simpa [stops_threadRes] using hthread'
    exact ⟨hsigterm, hexited⟩
  have hexit : e.LeadsTo
      (fun s => s.todo = some (threadRes thread :: todo) ∧ s.sigterm = true ∧ ¬ Exited s.inst thread)
      fun s => s.todo = some (threadRes thread :: todo) ∧ s.Joined (threadRes thread) := by
    refine (hfair.threads thread).leadsTo (fun s => s.inst.left N thread) ?_ ?_
    · rintro s - ⟨htodo, hsigterm, hrun⟩
      exact ⟨⟨hsigterm, by simp [htodo]⟩, hrun⟩
    · rintro s mv s' hr ⟨htodo, hsigterm, hrun⟩ - hs
      have hstop : s.Stopping thread := ⟨hsigterm, by simp [htodo]⟩
      cases step_moves hs with
      | inst mv a hfinds ha =>
        by_cases hexited : Exited a thread
        · exact .inl ⟨htodo, hjoined _ hsigterm hexited⟩
        · refine .inr ⟨⟨htodo, hsigterm, hexited⟩, ?_⟩
          by_cases hown : IsStepOf thread mv
          · have hlt := (Stance.left_own (reachable_inst hr) ha hown).resolve_left fun hat =>
              hexited (exits_at ha hown hat hfinds hstop)
            exact ⟨hlt.le, fun _ => hlt⟩
          · exact ⟨Stance.left_other ha hown, fun h => absurd h hown⟩
      | call hnone => exact absurd (htodo.symm.trans hnone) (by simp)
      | putSigterm thread' todo' htodo' hsigterm' => exact absurd (hsigterm.symm.trans hsigterm') (by simp)
      | release res todo' htodo' hjoined =>
        obtain ⟨rfl, rfl⟩ : threadRes thread = res ∧ todo = todo' := by simpa [htodo] using htodo'
        exact absurd (hjoined thread (stops_threadRes thread)).2 hrun
  rintro n ⟨htodo, hsigterm⟩
  by_cases hexited : Exited (e.state n).inst thread
  · exact ⟨n, le_rfl, htodo, hjoined _ hsigterm hexited⟩
  · exact hexit n ⟨htodo, hsigterm, hexited⟩

theorem releases (hfair : Fair e) (res : Res) (todo : List Res) :
    e.LeadsTo (fun s => s.todo = some (res :: todo) ∧ s.Joined res) fun s => s.todo = some todo := by
  refine hfair.caller.leadsTo (fun _ => 0) ?_ ?_
  · rintro s - ⟨htodo, hjoined⟩
    refine ⟨.release, { s with todo := some todo, sigterm := false, held := s.held.erase res }, trivial, ?_⟩
    simp [step, htodo, hjoined]
  · rintro s mv s' - ⟨htodo, hjoined⟩ - hs
    cases step_moves hs with
    | inst mv a hfinds ha => exact .inr ⟨⟨htodo, joined_step ha hjoined⟩, le_rfl, False.elim⟩
    | call hnone => exact absurd (htodo.symm.trans hnone) (by simp)
    | putSigterm thread todo' htodo' hsigterm =>
      obtain ⟨rfl, rfl⟩ : res = threadRes thread ∧ todo = todo' := by simpa [htodo] using htodo'
      have hput := (hjoined thread (stops_threadRes thread)).1
      exact absurd (hput.symm.trans hsigterm) (by simp)
    | release res' todo' htodo' hjoined' =>
      obtain ⟨rfl, rfl⟩ : res = res' ∧ todo = todo' := by simpa [htodo] using htodo'
      exact .inl rfl

theorem destroys (hfair : Fair e) (todo : List Res) :
    e.LeadsTo (fun s => s.todo = some todo) fun s => s.todo = some [] := by
  induction todo with
  | nil => exact fun n h => ⟨n, le_rfl, h⟩
  | cons res todo ih =>
    have hjoin : e.LeadsTo (fun s => s.todo = some (res :: todo))
        fun s => s.todo = some (res :: todo) ∧ s.Joined res := by
      cases hstops : stops nrings res with
      | none => exact fun n h => ⟨n, le_rfl, h, fun thread hthread => by simp [hstops] at hthread⟩
      | some thread =>
        obtain rfl := threadRes_of_stops hstops
        exact (signals hfair thread todo).trans (exits hfair thread todo)
    exact (hjoin.trans (releases hfair res todo)).trans ih

/-- Once it is called, `sin_destroy` returns. -/
theorem destroy_returns (e : Run N sip) (hfair : Fair e) :
    e.LeadsTo (fun s => s.todo ≠ none) fun s => s.todo = some [] := by
  intro n hcalled
  obtain ⟨todo, htodo⟩ := Option.ne_none_iff_exists'.mp hcalled
  exact destroys hfair todo n htodo

theorem oneShutdown_ends :
    ∃ s, exec (guarded (fun _ _ => True) (step oneMirror oneSip)) oneWork oneShutdown = some s ∧
      s.todo = some [] := by
  obtain ⟨s, he, hp⟩ := (Option.any_eq_true (fun s => s.todo = some [])
    (exec (guarded (fun _ _ => True) (step oneMirror oneSip)) oneWork oneShutdown)).mp (by decide)
  exact ⟨s, he, of_decide_eq_true hp⟩

theorem destroy_returns_idle : ∃ e : Run oneMirror oneSip, ∃ m, 1 ≤ m ∧ (e.state m).todo = some [] := by
  obtain ⟨s, he, htodo⟩ := oneShutdown_ends
  have hfair : Fair (.ofExec oneShutdown oneWork_start he : Run oneMirror oneSip) := by
    refine ⟨Execution.ofExec_fair oneWork_start he ?_, fun thread => Execution.ofExec_fair oneWork_start he ?_⟩
    · rintro ⟨mv, s', hown, hs⟩
      cases step_moves hs with
      | inst mv a hfinds ha => exact hown
      | call hnone => exact hown
      | putSigterm thread todo htodo' hsigterm => exact absurd (htodo.symm.trans htodo') (by simp)
      | release res todo htodo' hjoined => exact absurd (htodo.symm.trans htodo') (by simp)
    · rintro ⟨⟨-, hhead⟩, -⟩
      simp [htodo] at hhead
  have hcalled : ((exec (guarded (fun _ _ => True) (step oneMirror oneSip)) oneWork (oneShutdown.take 1)).getD
      oneWork).todo ≠ none := by decide
  exact ⟨.ofExec oneShutdown oneWork_start he, destroy_returns _ hfair 1 hcalled⟩

end Libsinet.SinDestroy
