import Libsinet.Base.Machine
import Libsinet.SinLists
import Libsinet.WiQueue

/-!
# An instance at work

The rx and tx threads that `sin_init` starts, with any number of rings, against
each other and the kernel. A step of a thread is one evaluation of a loop
condition with what follows it, one section of `sin_wi_queue_get_items`, or one
consumer's call with the reset of the list it was given.

A packet is sorted by its frame, what `buf` and `len` hold: which buffer that
is, is the matter of `PktZone`, and the walk along the sorter's entries that of
`PktSorter`. A thread in `pthread_cond_wait` may wake without a signal; whether
one has come is kept with the thread.
-/

namespace Libsinet.Stance

open Machine NetmapRing Circular
open PktSorter (collect)

abbrev Frame (D : Type u) := D × Nat

/-- There are fewer than `2 ^ 32` packets, as each has a buffer of its own and
`buf_idx` is a `uint32_t`. -/
def FewPkts {R : Type u} {P : Type v} (rxZone : R → SinPktZone P) : Prop :=
  ∀ l : List P, l.Nodup → (∀ p ∈ l, ∃ r, ∃ i < (rxZone r).numSlots, p = (rxZone r).pmap i) → l.length < 2 ^ 32

theorem FewPkts.of_mem {R : Type u} {P : Type v} {rxZone : R → SinPktZone P} {all : List P}
    (hall : ∀ r, ∀ i < (rxZone r).numSlots, (rxZone r).pmap i ∈ all) (hlen : all.length < 2 ^ 32) : FewPkts rxZone := by
  intro l hl hmem
  have hsub : l ⊆ all := by
    intro p hp
    obtain ⟨r, i, hi, rfl⟩ := hmem p hp
    exact hall r i hi
  exact (List.subperm_of_subset hl hsub).length_le.trans_lt hlen

/-- What does not change while the threads run. The entries of a sorter are in
the order of its list; `none` is its default. -/
structure SinStance (R : Type u) (T : Type v) (E : Type w) (P : Type x) (D : Type y) where
  rxZone : R → SinPktZone P
  few : FewPkts rxZone
  txZone : T → SinPktZone P
  myZone : P → R ⊕ T
  rx_pmap : ∀ r i, i < (rxZone r).numSlots → myZone ((rxZone r).pmap i) = .inl r
  tx_pmap : ∀ t i, i < (txZone t).numSlots → myZone ((txZone t).pmap i) = .inr t
  netmapFd : R ⊕ T → Nat
  entries : R → List E
  pktTaste : R → E → Frame D → Bool
  pktConsume : R → Option E → D → D
  outq : R → Option E → T

variable {R : Type u} {T : Type v} {E : Type w} {P : Type x} {D : Type y}

def SinStance.zone (N : SinStance R T E P D) : R ⊕ T → SinPktZone P
  | .inl r => N.rxZone r
  | .inr t => N.txZone t

/-- The sorter class of a frame: the first entry that accepts it. -/
def SinStance.classOf (N : SinStance R T E P D) (r : R) (f : Frame D) : Option E :=
  (N.entries r).find? fun e => N.pktTaste r e f

-- ---------------------------------------------------------------------------
-- State
-- ---------------------------------------------------------------------------

/-- Where `sin_rx_thread` is: at `poll`, in `dequeue_pkts`, in the loop over
the packets of `sin_pkt_sorter_proc` with `n` of them sorted, in that over the
lists with those in `todo` left, at `check_ctrl`, or in `_spin_ring`. -/
inductive RxPc (E : Type u) (P : Type v)
  | poll
  | dequeue
  | scan (n : Nat) (pkt : Option P)
  | flush (todo : List (Option E))
  | checkCtrl
  | spin (newHead : Nat)
  | exited
  deriving DecidableEq

/-- Where `sin_tx_thread` is: at the top of its cycle, before or inside
`sin_wi_queue_get_items`, at the test of `pkts_out`, in `tx_zone_getpkts`, in
the loop that sends, behind it, or at `check_ctrl`. -/
inductive TxPc (P : Type u)
  | top
  | getItems (aslots : Nat)
  | waiting (aslots : Nat)
  | start (aslots : Nat)
  | getpkts (ntx left curidx : Nat)
  | send (ntx i : Nat) (pkt pktTx : Option P)
  | advance (ntx : Nat) (pkt : Option P)
  | checkCtrl
  | exited
  deriving DecidableEq

structure RxThread (E : Type u) (P : Type v) where
  ring : NetmapRing
  pc : RxPc E P
  pktsIn : SinList P
  wrklist : Option E → SinList P

def TxPc.isWaiting : TxPc P → Bool
  | .waiting _ => true
  | _ => false

/-- `signalled`: a signal has ended the wait. -/
structure TxThread (P : Type u) where
  ring : NetmapRing
  queue : SinWiQueue P
  pc : TxPc P
  pktsOut : SinList P
  pktsTx : SinList P
  signalled : Bool

/-- A frame handed to the kernel, with the ring it came from and what it was
before a consumer rewrote it. -/
structure Forward (R : Type u) (D : Type v) where
  ring : R
  received : Frame D
  placed : Frame D
  deriving DecidableEq

/-- `data` is what a packet's `buf` points at. The last three fields are a
record: where a packet's frame came from, all frames a ring has received, and
all that a ring was given to send. -/
structure State (R : Type u) (T : Type v) (E : Type w) (P : Type x) (D : Type y) where
  rx : R → RxThread E P
  tx : T → TxThread P
  links : Links P
  flags : P → Flags
  data : P → D
  pktLen : P → BitVec 32
  slotLen : P → BitVec 16
  origin : P → R × Frame D
  arrived : R → List (Frame D)
  sent : T → List (Forward R D)

namespace State

def frame (s : State R T E P D) (p : P) : Frame D := (s.data p, (s.pktLen p).toNat)

/-- What the kernel finds in the packet's slot, or put there. -/
def slotFrame (s : State R T E P D) (p : P) : Frame D := (s.data p, (s.slotLen p).toNat)

end State

structure Received (D : Type u) where
  tail : Nat
  data : Nat → D
  len : Nat → BitVec 16

/-- `choice` is what `poll` says, or whether `check_ctrl` finds `SIGTERM`. -/
inductive Move (R : Type u) (T : Type v) (D : Type w)
  | rx (r : R) (choice : Bool)
  | tx (t : T) (choice : Bool)
  | receive (r : R) (received : Received D)
  | drain (t : T) (tail : Nat)

variable [DecidableEq R] [DecidableEq T] [DecidableEq E] [DecidableEq P]

-- ---------------------------------------------------------------------------
-- The rx thread
-- ---------------------------------------------------------------------------

def setRx (s : State R T E P D) (r : R) (x : RxThread E P) : State R T E P D :=
  { s with rx := Function.update s.rx r x }

def setTx (s : State R T E P D) (t : T) (y : TxThread P) : State R T E P D :=
  { s with tx := Function.update s.tx t y }

def dequeuePkt (N : SinStance R T E P D) (s : State R T E P D) (r : R) : State R T E P D :=
  let x := s.rx r
  let i := x.ring.cur
  let pkt := (N.rxZone r).pmap i
  let a := sinListAppend s.links x.pktsIn pkt
  { setRx s r { x with ring := { x.ring with cur := nmRingNext x.ring i }, pktsIn := a.2 } with
    flags := Function.update s.flags pkt (sinPktSetflags (s.flags pkt) spktBusy 0)
    pktLen := Function.update s.pktLen pkt ((s.slotLen pkt).setWidth 32)
    links := a.1 }

def sortPkt (N : SinStance R T E P D) (s : State R T E P D) (r : R) (n : Nat) (pkt : P) :
    State R T E P D :=
  let x := s.rx r
  let w := collect s.links x.wrklist (N.classOf r (s.frame pkt)) pkt
  { setRx s r { x with wrklist := w.2, pc := .scan (n + 1) (s.links pkt) } with links := w.1 }

def rewrite (N : SinStance R T E P D) (s : State R T E P D) (r : R) (c : Option E) :
    State R T E P D :=
  let pkts := ((s.rx r).wrklist c).nodes s.links
  { s with
    origin := fun p => if p ∈ pkts then (r, s.frame p) else s.origin p
    data := fun p => if p ∈ pkts then N.pktConsume r c (s.data p) else s.data p }

/-- `pthread_cond_signal` on the thread's queue, where only it can wait. -/
def TxThread.signal (y : TxThread P) (signal : Bool) : Bool := y.signalled || (signal && y.pc.isWaiting)

/-- The end of every consumer, and the reset of the list. -/
def putItems (N : SinStance R T E P D) (s : State R T E P D) (r : R) (c : Option E)
    (todo : List (Option E)) : State R T E P D :=
  let x := s.rx r
  let t := N.outq r c
  let y := s.tx t
  let put := sinWiQueuePutItems s.links (x.wrklist c) y.queue
  let s := setTx s t { y with queue := put.queue, signalled := y.signal put.signal }
  { setRx s r { x with wrklist := Function.update x.wrklist c .reset, pc := .flush todo } with
    links := put.links }

def rxStep (N : SinStance R T E P D) (s : State R T E P D) (r : R) (choice : Bool) :
    Option (State R T E P D) :=
  let x := s.rx r
  match x.pc with
  | .poll =>
    some (setRx s r { x with pc := if choice && !nmRingEmpty x.ring then .dequeue else .checkCtrl })
  | .dequeue =>
    if nmRingEmpty x.ring then
      some (setRx s r { x with pc := if x.pktsIn.isEmpty then .checkCtrl else .scan 0 x.pktsIn.head })
    else some (dequeuePkt N s r)
  | .scan _ none => some (setRx s r { x with pc := .flush ((N.entries r).map some ++ [none]) })
  | .scan n (some pkt) => some (sortPkt N s r n pkt)
  | .flush (c :: todo) =>
    if (x.wrklist c).isEmpty then some (setRx s r { x with pc := .flush todo })
    else some (putItems N (rewrite N s r c) r c todo)
  | .flush [] => some (setRx s r { x with pktsIn := .reset, pc := .checkCtrl })
  | .checkCtrl => some (setRx s r { x with pc := if choice then .exited else .spin x.ring.head })
  | .spin newHead =>
    if newHead = x.ring.cur ∨ sinPktIsbusy (s.flags ((N.rxZone r).pmap newHead)) then
      some (setRx s r { x with ring := { x.ring with head := newHead }, pc := .poll })
    else some (setRx s r { x with pc := .spin (nmRingNext x.ring newHead) })
  | .exited => none

-- ---------------------------------------------------------------------------
-- The tx thread
-- ---------------------------------------------------------------------------

def afterGet (s : State R T E P D) (t : T) (aslots : Nat) (get : Section P (Got (SinList P × BitVec 32))) :
    State R T E P D :=
  let y := { s.tx t with queue := get.queue, signalled := false }
  let s := { s with links := get.links }
  match get.ret with
  | .waits => setTx s t { y with pc := .waiting aslots }
  | .returns (pktsOut, _) => setTx s t { y with pktsOut, pc := .start aslots }

/-- `sin_pkt_zone_swap` or `sin_pkt_zone_copy`, as `sin_tx_thread` chooses. -/
def transmit (N : SinStance R T E P D) (s : State R T E P D) (t : T) (pkt pktTx : P) :
    State R T E P D :=
  let data :=
    if N.netmapFd (.inr t) = N.netmapFd (N.myZone pkt) then
      Function.update (Function.update s.data pkt (s.data pktTx)) pktTx (s.data pkt)
    else Function.update s.data pktTx (s.data pkt)
  let len := (s.pktLen pkt).setWidth 16
  { s with
    data
    pktLen := Function.update s.pktLen pktTx (len.setWidth 32)
    slotLen := Function.update s.slotLen pktTx len
    origin := Function.update s.origin pktTx (s.origin pkt) }

def sendPkt (N : SinStance R T E P D) (s : State R T E P D) (t : T) (ntx i : Nat) (pkt pktTx : P) :
    State R T E P D :=
  let s := transmit N s t pkt pktTx
  let links := Function.update s.links pkt none
  let y := s.tx t
  { setTx s t { y with pc := .send ntx (i + 1) (s.links pkt) (links pktTx) } with
    flags := Function.update s.flags pkt (sinPktSetflags (s.flags pkt) 0 spktBusy)
    links := Function.update links pktTx none }

/-- The frame in a slot of a tx ring. -/
def State.forwarded (s : State R T E P D) (pktTx : P) : Forward R D :=
  ⟨(s.origin pktTx).1, (s.origin pktTx).2, s.slotFrame pktTx⟩

/-- After the loop that sends: the kernel gets the slots that were filled. -/
def advance (N : SinStance R T E P D) (s : State R T E P D) (t : T) (ntx : Nat) (pkt : Option P) :
    State R T E P D :=
  let y := s.tx t
  { setTx s t { y with
      ring := advanceTxRing y.ring ntx, pktsOut := pktsLeft y.pktsOut pkt ntx, pc := .checkCtrl } with
    sent := Function.update s.sent t
      (s.sent t ++ (slots (N.txZone t) y.ring y.ring.cur ntx).map s.forwarded) }

def txStep (N : SinStance R T E P D) (s : State R T E P D) (t : T) (choice : Bool) :
    Option (State R T E P D) :=
  let y := s.tx t
  match y.pc with
  | .top =>
    let aslots := txRingNslots y.ring
    some (setTx s t { y with pc :=
      if aslots = 0 then .checkCtrl
      else if y.pktsOut.isEmpty then .getItems aslots else .start aslots })
  | .getItems aslots => some (afterGet s t aslots (sinWiQueueGetItems s.links y.queue y.pktsOut true))
  | .waiting aslots =>
    some (afterGet s t aslots (sinWiQueueGetItemsWake s.links y.queue y.pktsOut true))
  | .start aslots =>
    if y.pktsOut.isEmpty then some (setTx s t { y with pc := .checkCtrl })
    else
      let ntx := min aslots y.pktsOut.len.toNat
      let pkt := (N.txZone t).pmap y.ring.cur
      some (setTx s t { y with
        pktsTx := ⟨some pkt, some pkt, 1⟩, pc := .getpkts ntx ntx y.ring.cur })
  | .getpkts ntx left curidx =>
    if 1 < left then
      let curidx := nmRingNext y.ring curidx
      let a := sinListAppend s.links y.pktsTx ((N.txZone t).pmap curidx)
      some { setTx s t { y with pktsTx := a.2, pc := .getpkts ntx (left - 1) curidx } with links := a.1 }
    else some (setTx s t { y with pc := .send ntx 0 y.pktsOut.head y.pktsTx.head })
  | .send ntx i pkt pktTx =>
    if i < ntx then
      match pkt, pktTx with
      | some pkt, some pktTx => some (sendPkt N s t ntx i pkt pktTx)
      | _, _ => none
    else some (setTx s t { y with pc := .advance ntx pkt })
  | .advance ntx pkt => some (advance N s t ntx pkt)
  | .checkCtrl => some (setTx s t { y with pc := if choice then .exited else .top })
  | .exited => none

-- ---------------------------------------------------------------------------
-- The kernel
-- ---------------------------------------------------------------------------

/-- The packet's slot is one of the ring's that the kernel may write. -/
def KernelOwns (N : SinStance R T E P D) (s : State R T E P D) (r : R) (p : P) : Prop :=
  N.myZone p = .inl r ∧
    ¬ (s.rx r).ring.Between (s.rx r).ring.head ((N.rxZone r).zoneIdx p) (s.rx r).ring.tail

instance (N : SinStance R T E P D) (s : State R T E P D) (r : R) (p : P) :
    Decidable (KernelOwns N s r p) := inferInstanceAs (Decidable (_ ∧ _))

/-- Frames arrive in the slots from the old `tail` up to the new one. -/
def receive (N : SinStance R T E P D) (s : State R T E P D) (r : R) (k : Received D) :
    State R T E P D :=
  let x := s.rx r
  let new := (List.range (dist x.ring.numSlots x.ring.tail k.tail)).map fun j =>
    let i := pos x.ring.numSlots x.ring.tail j
    (k.data i, (k.len i).toNat)
  { setRx s r { x with ring := { x.ring with tail := k.tail } } with
    data := fun p => if KernelOwns N s r p then k.data ((N.rxZone r).zoneIdx p) else s.data p
    slotLen := fun p => if KernelOwns N s r p then k.len ((N.rxZone r).zoneIdx p) else s.slotLen p
    arrived := Function.update s.arrived r (s.arrived r ++ new) }

def drain (s : State R T E P D) (t : T) (tail : Nat) : State R T E P D :=
  let y := s.tx t
  setTx s t { y with ring := { y.ring with tail } }

def step (N : SinStance R T E P D) (s : State R T E P D) : Move R T D → Option (State R T E P D)
  | .rx r choice => rxStep N s r choice
  | .tx t choice => txStep N s t choice
  | .receive r k => if (s.rx r).ring.MayAdvanceTail k.tail then some (receive N s r k) else none
  | .drain t tail => if (s.tx t).ring.MayAdvanceTail tail then some (drain s t tail) else none

/-- The frames of a ring that are still to be taken from it. -/
def State.pending (N : SinStance R T E P D) (s : State R T E P D) (r : R) : List (Frame D) :=
  let ring := (s.rx r).ring
  (slots (N.rxZone r) ring ring.cur (dist ring.numSlots ring.cur ring.tail)).map s.slotFrame

/-- Rings with nothing in use, new zones, and threads at their first cycle. -/
structure Start (N : SinStance R T E P D) (s : State R T E P D) : Prop where
  rxRing : ∀ r, (s.rx r).ring.InOrder ∧ (s.rx r).ring.cur = (s.rx r).ring.head ∧
    (s.rx r).ring.numSlots = (N.rxZone r).numSlots
  txRing : ∀ t, (s.tx t).ring.InOrder ∧ (s.tx t).ring.cur = (s.tx t).ring.head ∧
    (s.tx t).ring.numSlots = (N.txZone t).numSlots
  rx : ∀ r, (s.rx r).pc = .poll ∧ (s.rx r).pktsIn = .reset ∧ ∀ c, (s.rx r).wrklist c = .reset
  tx : ∀ t, (s.tx t).pc = .top ∧ (s.tx t).pktsOut = .reset ∧ (s.tx t).queue = .ctor
  links : ∀ p, s.links p = none
  flags : ∀ p, s.flags p = 0
  arrived : ∀ r, s.arrived r = s.pending N r
  sent : ∀ t, s.sent t = []

abbrev machine (N : SinStance R T E P D) : Machine (State R T E P D) (Move R T D) :=
  ofFn (Start N) (step N)

end Libsinet.Stance
