import Libsinet.Base.Machine
import Libsinet.Netmap

/-!
# Who owns an rx slot

One rx ring with its zone, the thread that runs `dequeue_pkts` and
`_spin_ring` on it, the parties that hold its packets meanwhile, and the
kernel. A step of the thread is one evaluation of a loop condition with what
follows it; a return is the one store under the packet's mutex.
-/

namespace Libsinet.RxRing

open Machine NetmapRing

/-- Where a packet taken from the ring is. -/
inductive Holder (Q : Type u) (T : Type v)
  | rx
  | sorter
  | queue (q : Q)
  | tx (t : T)

/-- Where `sin_rx_thread` is: at `poll`, in the loop of `dequeue_pkts`, between
it and `_spin_ring` (the sorter and `check_ctrl`), or in the loop of
`_spin_ring`. -/
inductive Pc
  | poll
  | dequeue
  | sort
  | spin (newHead : Nat)
  deriving DecidableEq, Repr

structure Received where
  tail : Nat
  ts : Nat
  len : Nat → BitVec 16

structure State (P : Type u) (Q : Type v) (T : Type w) where
  ring : NetmapRing
  ts : Nat
  slotLen : Nat → BitVec 16
  flags : P → Flags
  pktTs : P → Nat
  pktLen : P → BitVec 32
  hold : P → Option (Holder Q T)
  pc : Pc

/-- `ready` is what `poll` says, when it is asked. -/
inductive Move (P : Type u) (Q : Type v) (T : Type w)
  | rx (ready : Bool)
  | pass (pkt : P) (holder : Holder Q T)
  | ret (pkt : P)
  | kernel (received : Received)

variable {P : Type u} {Q : Type v} {T : Type w} [DecidableEq P]

def dequeuePkt (zone : SinPktZone P) (s : State P Q T) : State P Q T :=
  let i := s.ring.cur
  let pkt := zone.pmap i
  { s with
    flags := Function.update s.flags pkt (sinPktSetflags (s.flags pkt) spktBusy 0)
    pktTs := Function.update s.pktTs pkt s.ts
    pktLen := Function.update s.pktLen pkt ((s.slotLen i).setWidth 32)
    ring := { s.ring with cur := nmRingNext s.ring i }
    hold := Function.update s.hold pkt (some .rx) }

def sinPktZoneRetPkt (s : State P Q T) (pkt : P) : State P Q T :=
  { s with
    flags := Function.update s.flags pkt (sinPktSetflags (s.flags pkt) 0 spktBusy)
    hold := Function.update s.hold pkt none }

def rxStep (zone : SinPktZone P) (s : State P Q T) (ready : Bool) : State P Q T :=
  match s.pc with
  | .poll => { s with pc := if ready && !nmRingEmpty s.ring then .dequeue else .sort }
  | .dequeue => if nmRingEmpty s.ring then { s with pc := .sort } else dequeuePkt zone s
  | .sort => { s with pc := .spin s.ring.head }
  | .spin newHead =>
    if newHead = s.ring.cur ∨ sinPktIsbusy (s.flags (zone.pmap newHead)) then
      { s with ring := { s.ring with head := newHead }, pc := .poll }
    else { s with pc := .spin (nmRingNext s.ring newHead) }

/-- The kernel may write the slots outside the interval from `head` up to
`tail`, before it advances `tail`. -/
def MayReceive (s : State P Q T) (r : Received) : Prop :=
  s.ring.MayAdvanceTail r.tail ∧
    ∀ i < s.ring.numSlots, s.ring.Between s.ring.head i s.ring.tail → r.len i = s.slotLen i

instance (s : State P Q T) (r : Received) : Decidable (MayReceive s r) := by
  unfold MayReceive
  infer_instance

def step (zone : SinPktZone P) (s : State P Q T) : Move P Q T → Option (State P Q T)
  | .rx ready => some (rxStep zone s ready)
  | .pass pkt holder =>
    if (s.hold pkt).isSome then some { s with hold := Function.update s.hold pkt (some holder) } else none
  | .ret pkt => if (s.hold pkt).isSome then some (sinPktZoneRetPkt s pkt) else none
  | .kernel r =>
    if MayReceive s r then
      some { s with ring := { s.ring with tail := r.tail }, ts := r.ts, slotLen := r.len }
    else none

/-- A ring as the kernel hands it over, with nothing in use, and its new zone. -/
structure Start (zone : SinPktZone P) (s : State P Q T) : Prop where
  size : s.ring.numSlots = zone.numSlots
  order : s.ring.InOrder
  unused : s.ring.cur = s.ring.head
  flags : ∀ pkt, s.flags pkt = 0
  hold : ∀ pkt, s.hold pkt = none
  pc : s.pc = .poll

abbrev machine (zone : SinPktZone P) : Machine (State P Q T) (Move P Q T) :=
  ofFn (Start zone) (step zone)

-- ---------------------------------------------------------------------------
-- The invariant
-- ---------------------------------------------------------------------------

variable {zone : SinPktZone P} {s : State P Q T}

def busyAt (zone : SinPktZone P) (flags : P → Flags) (i : Nat) : Bool :=
  sinPktIsbusy (flags (zone.pmap i))

structure Inv (zone : SinPktZone P) (s : State P Q T) : Prop where
  size : s.ring.numSlots = zone.numSlots
  ring : RingOk s.ring (busyAt zone s.flags)
  scan : ∀ nh, s.pc = .spin nh → ScanOk s.ring (busyAt zone s.flags) nh
  held : ∀ pkt, (s.hold pkt).isSome → sinPktIsbusy (s.flags pkt) = true
  kept : ∀ i < s.ring.numSlots, (s.hold (zone.pmap i)).isSome → s.pktLen (zone.pmap i) = (s.slotLen i).setWidth 32

section

omit [DecidableEq P]

theorem Inv.of_start (h : Start zone s) : Inv zone s := by
  refine ⟨h.size, ⟨h.order, fun i _ hb => ?_⟩, fun nh hpc => ?_, fun pkt hp => ?_, fun i _ hp => ?_⟩
  · simp [busyAt, h.flags] at hb
  · simp [h.pc] at hpc
  · simp [h.hold] at hp
  · simp [h.hold] at hp

theorem Inv.held_between (h : Inv zone s) (hi : i < s.ring.numSlots)
    (hp : (s.hold (zone.pmap i)).isSome) : s.ring.Between s.ring.head i s.ring.cur :=
  h.ring.busy_between i hi (h.held _ hp)

theorem Inv.held_owned (h : Inv zone s) (hi : i < s.ring.numSlots)
    (hp : (s.hold (zone.pmap i)).isSome) : s.ring.Between s.ring.head i s.ring.tail :=
  Nat.lt_of_lt_of_le (h.held_between hi hp) h.ring.le

end

theorem Inv.dequeue (h : Inv zone s) (hpc : s.pc = .dequeue) (hne : nmRingEmpty s.ring = false) :
    Inv zone (dequeuePkt zone s) := by
  refine ⟨h.size, h.ring.advanceCur hne ?_, fun nh hs => ?_, ?_, ?_⟩
  · intro i hi hb
    by_cases he : zone.pmap i = zone.pmap s.ring.cur
    · exact .inl (zone.pmap_inj (h.size ▸ hi) (h.size ▸ h.ring.cur_lt) he)
    · exact .inr (by simpa [busyAt, dequeuePkt, he] using hb)
  · exact absurd (hpc.symm.trans hs) (by simp)
  · intro pkt hp
    by_cases he : pkt = zone.pmap s.ring.cur
    · subst he
      simp [dequeuePkt]
    · simp only [dequeuePkt, Function.update_of_ne he] at hp ⊢
      exact h.held pkt hp
  · intro i hi hp
    by_cases he : zone.pmap i = zone.pmap s.ring.cur
    · obtain rfl := zone.pmap_inj (h.size ▸ hi) (h.size ▸ h.ring.cur_lt) he
      simp [dequeuePkt]
    · simp only [dequeuePkt, Function.update_of_ne he] at hp ⊢
      exact h.kept i hi hp

theorem Inv.rx (h : Inv zone s) (ready : Bool) : Inv zone (rxStep zone s ready) := by
  unfold rxStep
  split
  · refine ⟨h.size, h.ring, fun nh hs => ?_, h.held, h.kept⟩
    dsimp only at hs
    split at hs <;> cases hs
  · split
    · exact ⟨h.size, h.ring, fun nh hs => (by cases hs), h.held, h.kept⟩
    · rename_i hpc hne
      exact h.dequeue hpc (by simpa using hne)
  · refine ⟨h.size, h.ring, fun nh hs => ?_, h.held, h.kept⟩
    cases hs
    exact h.ring.scan
  · rename_i newHead hpc
    have hscan := h.scan newHead hpc
    split
    · exact ⟨h.size, h.ring.advanceHead hscan, fun nh hs => (by cases hs), h.held, h.kept⟩
    · rename_i hstop
      obtain ⟨hne, hb⟩ := not_or.mp hstop
      refine ⟨h.size, h.ring, fun nh hs => ?_, h.held, h.kept⟩
      cases hs
      exact hscan.next h.ring hne (Bool.eq_false_iff.mpr hb)

theorem Inv.ret (h : Inv zone s) (pkt : P) : Inv zone (sinPktZoneRetPkt s pkt) := by
  -- a return only clears busy bits
  have hbusy : ∀ i < s.ring.numSlots,
      busyAt zone (sinPktZoneRetPkt s pkt).flags i = true → busyAt zone s.flags i = true := by
    intro i _ hb
    by_cases he : zone.pmap i = pkt
    · simp [busyAt, sinPktZoneRetPkt, he] at hb
    · simpa [busyAt, sinPktZoneRetPkt, he] using hb
  refine ⟨h.size, h.ring.mono hbusy, fun nh hs => (h.scan nh hs).mono hbusy, ?_, ?_⟩
  · intro q hq
    by_cases he : q = pkt
    · simp [sinPktZoneRetPkt, he] at hq
    · simp only [sinPktZoneRetPkt, Function.update_of_ne he] at hq ⊢
      exact h.held q hq
  · intro i hi hq
    by_cases he : zone.pmap i = pkt
    · simp [sinPktZoneRetPkt, he] at hq
    · simp only [sinPktZoneRetPkt, Function.update_of_ne he] at hq
      exact h.kept i hi hq

theorem Inv.step (h : Inv zone s) (hs : step zone s mv = some s') : Inv zone s' := by
  cases mv with
  | rx ready =>
    cases hs
    exact h.rx ready
  | pass pkt holder =>
    obtain ⟨hp, rfl⟩ : (s.hold pkt).isSome ∧
        { s with hold := Function.update s.hold pkt (some holder) } = s' := by
      simpa [RxRing.step] using hs
    have hheld : ∀ q, (Function.update s.hold pkt (some holder) q).isSome → (s.hold q).isSome := by
      intro q hq
      by_cases he : q = pkt
      · exact he ▸ hp
      · rwa [Function.update_of_ne he] at hq
    exact ⟨h.size, h.ring, h.scan, fun q hq => h.held q (hheld q hq),
      fun i hi hq => h.kept i hi (hheld _ hq)⟩
  | ret pkt =>
    obtain ⟨-, rfl⟩ : (s.hold pkt).isSome ∧ sinPktZoneRetPkt s pkt = s' := by
      simpa [RxRing.step] using hs
    exact h.ret pkt
  | kernel r =>
    obtain ⟨⟨htail, hlen⟩, rfl⟩ : MayReceive s r ∧
        { s with ring := { s.ring with tail := r.tail }, ts := r.ts, slotLen := r.len } = s' := by
      simpa [RxRing.step] using hs
    refine ⟨h.size, h.ring.advanceTail htail, fun nh hs => (h.scan nh hs).advanceTail, h.held, ?_⟩
    intro i hi hp
    exact (h.kept i hi hp).trans (congrArg (BitVec.setWidth 32) (hlen i hi (h.held_owned hi hp)).symm)

theorem inv_of_reachable (h : (machine zone).Reachable s) : Inv zone s :=
  h.induct (fun _ => Inv.of_start) fun _ _ _ => Inv.step

-- ---------------------------------------------------------------------------
-- Ownership
-- ---------------------------------------------------------------------------

/-- The ring stays in order and its busy packets lie from `head` up to `cur`.
So `dequeue_pkts` picks no busy packet, and the slot of a packet that is still
held is neither the kernel's nor written by it since the packet was taken. -/
theorem slot_ownership (h : (machine zone).Reachable s) :
    s.ring.InOrder ∧
      (∀ i < s.ring.numSlots, sinPktIsbusy (s.flags (zone.pmap i)) →
        s.ring.Between s.ring.head i s.ring.cur) ∧
      (s.pc = .dequeue → nmRingEmpty s.ring = false →
        sinPktIsbusy (s.flags (zone.pmap s.ring.cur)) = false) ∧
      ∀ i < s.ring.numSlots, (s.hold (zone.pmap i)).isSome →
        s.ring.Between s.ring.head i s.ring.tail ∧ s.pktLen (zone.pmap i) = (s.slotLen i).setWidth 32 := by
  have hinv := inv_of_reachable h
  refine ⟨hinv.ring.toInOrder, hinv.ring.busy_between, fun _ _ => hinv.ring.cur_not_busy, ?_⟩
  intro i hi hp
  exact ⟨hinv.held_owned hi hp, hinv.kept i hi hp⟩

/-- Three slots, two frames, the second packet returned before the first. -/
def threeSlots : SinPktZone Nat := ⟨3, by decide, id, id, fun _ _ => rfl⟩

def startThree : State Nat Unit Unit :=
  ⟨⟨3, 2, 2, 2⟩, 0, fun _ => 60, fun _ => 0, fun _ => 0, fun _ => 0, fun _ => none, .poll⟩

def outOfOrder : List (Move Nat Unit Unit) :=
  [.kernel ⟨1, 5, fun i => BitVec.ofNat 16 (60 + i)⟩, .rx true, .rx true, .rx true, .rx true, .pass 2 (.tx ()),
    .pass 0 .sorter, .ret 0, .rx true, .rx true]

theorem startThree_start : Start threeSlots startThree := by
  refine ⟨rfl, ⟨?_, ?_, ?_, ?_⟩, rfl, fun _ => rfl, fun _ => rfl, rfl⟩ <;> decide

theorem slot_ownership_outOfOrder :
    ∃ s : State Nat Unit Unit, (s.pc = .poll ∧ s.ring = ⟨3, 2, 1, 1⟩ ∧ (s.hold 2).isSome ∧
        (s.hold 0).isNone) ∧
      s.ring.Between s.ring.head 2 s.ring.tail ∧ s.pktLen 2 = (s.slotLen 2).setWidth 32 := by
  obtain ⟨s, hr, hp⟩ := Reachable.of_test (step threeSlots) outOfOrder
    (fun s => decide (s.pc = .poll ∧ s.ring = ⟨3, 2, 1, 1⟩ ∧ (s.hold 2).isSome ∧ (s.hold 0).isNone))
    startThree_start (by decide)
  have hp := of_decide_eq_true hp
  have hown := slot_ownership hr
  refine ⟨s, hp, hown.2.2.2 2 ?_ hp.2.2.1⟩
  rw [hp.2.1]
  decide

end Libsinet.RxRing
