import Libsinet.Base.Machine
import Libsinet.Base.XorSwap
import Libsinet.TxThread

/-!
# Packet zones and their buffers

The rx rings `R` and the tx rings `T` of any number of instances, with a zone
and a thread for each. A packet is named by its zone and `zone_idx`, a slot by
its ring and index. A step is one round of `dequeue_pkts`, one of the loop that
sends packets up to or from the return, one evaluation of the loop condition of
`_spin_ring` with what follows it, or one `advance_tx_ring`.

`NETMAP_BUF` is netmap's and a parameter here; rings of one descriptor share
one pool, so it is the same function for them. The kernel reads a slot when
`head` has passed it and relies on `NS_BUF_CHANGED` to notice a new buffer.
-/

namespace Libsinet.PktZone

open Machine NetmapRing Circular

abbrev Ref (R : Type u) (T : Type v) := (R ⊕ T) × Nat

abbrev SlotFlags := BitVec 16

def nsBufChanged : SlotFlags := 0x1

def bufChanged (flags : SlotFlags) : Prop := flags &&& nsBufChanged ≠ 0

instance (flags : SlotFlags) : Decidable (bufChanged flags) := inferInstanceAs (Decidable (_ ≠ _))

/-- The rings as the kernel set them up. -/
structure Rings (R : Type u) (T : Type v) where
  numSlots : R ⊕ T → Nat
  fits : ∀ z, numSlots z < 2 ^ 31
  netmapFd : R ⊕ T → Nat
  netmapBuf : R ⊕ T → BitVec 32 → BitVec 64
  bufIdx : Ref R T → BitVec 32
  pool : ∀ z z', netmapFd z = netmapFd z' → netmapBuf z = netmapBuf z'
  distinct : ∀ a b : Ref R T, a.2 < numSlots a.1 → b.2 < numSlots b.1 → bufIdx a = bufIdx b → a = b

variable {R : Type u} {T : Type v} [DecidableEq R] [DecidableEq T]

def Rings.IsSlot (N : Rings R T) (a : Ref R T) : Prop := a.2 < N.numSlots a.1

instance (N : Rings R T) (a : Ref R T) : Decidable (N.IsSlot a) := inferInstanceAs (Decidable (_ < _))

structure SinPkt (R : Type u) (T : Type v) where
  mySlot : Ref R T
  buf : BitVec 64
  len : BitVec 32
  flags : Flags
  deriving DecidableEq

/-- The packet `sin_pkt_zone_fill_from_ring` gets for `pmap[i]`. -/
def sinPktCtor (N : Rings R T) (myZone : R ⊕ T) (zoneIdx : Nat) : SinPkt R T :=
  let mySlot := (myZone, zoneIdx)
  { mySlot, buf := N.netmapBuf myZone (N.bufIdx mySlot), len := 0, flags := 0 }

/-- `newHead` is that of a `_spin_ring` under way. The last two fields are a
record: the thread that holds a packet taken from its ring, and the buffer the
kernel saw last in a slot. -/
structure State (R : Type u) (T : Type v) where
  ring : R ⊕ T → NetmapRing
  bufIdx : Ref R T → BitVec 32
  slotLen : Ref R T → BitVec 16
  slotFlags : Ref R T → SlotFlags
  mySlot : Ref R T → Ref R T
  buf : Ref R T → BitVec 64
  pktLen : Ref R T → BitVec 32
  flags : Ref R T → Flags
  newHead : R → Option Nat
  owner : Ref R T → Option (R ⊕ T)
  seen : Ref R T → BitVec 32

/-- What the kernel writes to a ring, and to its own slots of it. -/
structure Synced where
  tail : Nat
  len : Nat → BitVec 16
  flags : Nat → SlotFlags

/-- `transmit t i pkt` is thread `t` sending `pkt` by slot `i` of its ring. -/
inductive Move (R : Type u) (T : Type v)
  | dequeue (r : R)
  | pass (pkt : Ref R T) (thread : R ⊕ T)
  | transmit (t : T) (i : Nat) (pkt : Ref R T)
  | ret (pkt : Ref R T)
  | spin (r : R)
  | advance (t : T) (ntx : Nat)
  | kernel (z : R ⊕ T) (synced : Synced)

-- ---------------------------------------------------------------------------
-- The code
-- ---------------------------------------------------------------------------

/-- `_SIN_SWAP_I`, also under `_SIN_SWAP_P`. -/
def sinSwapI {w : Nat} (m : Ref R T → BitVec w) (a b : Ref R T) : Ref R T → BitVec w := xorSwap m a b

/-- `p2->len = dst->len = p1->len` goes by way of the 16 bits of the slot. -/
def sinPktZoneSwap (s : State R T) (p1 p2 : Ref R T) : State R T :=
  let src := s.mySlot p1
  let dst := s.mySlot p2
  let len := (s.pktLen p1).setWidth 16
  { s with
    bufIdx := sinSwapI s.bufIdx dst src
    buf := sinSwapI s.buf p1 p2
    slotFlags := Function.update (Function.update s.slotFlags dst nsBufChanged) src nsBufChanged
    slotLen := Function.update s.slotLen dst len
    pktLen := Function.update s.pktLen p2 (len.setWidth 32) }

/-- What `sin_memcpy` moves is not in the state. -/
def sinPktZoneCopy (s : State R T) (p1 p2 : Ref R T) : State R T :=
  let dst := s.mySlot p2
  let len := (s.pktLen p1).setWidth 16
  { s with
    slotLen := Function.update s.slotLen dst len
    pktLen := Function.update s.pktLen p2 (len.setWidth 32)
    slotFlags := Function.update s.slotFlags dst nsBufChanged }

def dequeuePkt (s : State R T) (r : R) : State R T :=
  let ring := s.ring (.inl r)
  let i := ring.cur
  let pkt : Ref R T := (.inl r, i)
  { s with
    flags := Function.update s.flags pkt (sinPktSetflags (s.flags pkt) spktBusy 0)
    pktLen := Function.update s.pktLen pkt ((s.slotLen (.inl r, i)).setWidth 32)
    ring := Function.update s.ring (.inl r) { ring with cur := nmRingNext ring i }
    owner := Function.update s.owner pkt (some (.inl r)) }

/-- The choice `sin_tx_thread` makes for a packet it sends. -/
def transmit (N : Rings R T) (s : State R T) (t : T) (i : Nat) (pkt : Ref R T) : State R T :=
  let pktTx : Ref R T := (.inr t, i)
  if N.netmapFd (.inr t) = N.netmapFd pkt.1 then sinPktZoneSwap s pkt pktTx
  else sinPktZoneCopy s pkt pktTx

def sinPktZoneRetPkt (s : State R T) (pkt : Ref R T) : State R T :=
  { s with
    flags := Function.update s.flags pkt (sinPktSetflags (s.flags pkt) 0 spktBusy)
    owner := Function.update s.owner pkt none }

/-- `head` and `cur` of a ring stored. The kernel gets the slots passed. -/
def storeHead (s : State R T) (z : R ⊕ T) (head cur : Nat) : State R T :=
  let ring := s.ring z
  { s with
    ring := Function.update s.ring z { ring with head, cur }
    seen := fun a => if a.1 = z ∧ ring.Between ring.head a.2 head then s.bufIdx a else s.seen a }

def spinRing (s : State R T) (r : R) : State R T :=
  let ring := s.ring (.inl r)
  match s.newHead r with
  | none => { s with newHead := Function.update s.newHead r (some ring.head) }
  | some newHead =>
    if newHead = ring.cur ∨ sinPktIsbusy (s.flags (.inl r, newHead)) then
      { storeHead s (.inl r) newHead ring.cur with newHead := Function.update s.newHead r none }
    else { s with newHead := Function.update s.newHead r (some (nmRingNext ring newHead)) }

def advance (s : State R T) (t : T) (ntx : Nat) : State R T :=
  let ring := advanceTxRing (s.ring (.inr t)) ntx
  storeHead s (.inr t) ring.head ring.cur

-- ---------------------------------------------------------------------------
-- The system
-- ---------------------------------------------------------------------------

def State.Owned (s : State R T) (a : Ref R T) : Prop :=
  (s.ring a.1).Between (s.ring a.1).head a.2 (s.ring a.1).tail

instance (s : State R T) (a : Ref R T) : Decidable (s.Owned a) :=
  inferInstanceAs (Decidable (NetmapRing.Between _ _ _ _))

/-- The kernel writes the length and the flags of slots that are not the
program's. -/
def synced (s : State R T) (z : R ⊕ T) (k : Synced) : State R T :=
  { s with
    ring := Function.update s.ring z { s.ring z with tail := k.tail }
    slotLen := fun a => if a.1 = z ∧ ¬ s.Owned a then k.len a.2 else s.slotLen a
    slotFlags := fun a => if a.1 = z ∧ ¬ s.Owned a then k.flags a.2 else s.slotFlags a }

def step (N : Rings R T) (s : State R T) : Move R T → Option (State R T)
  | .dequeue r =>
    if s.newHead r = none ∧ nmRingEmpty (s.ring (.inl r)) = false then some (dequeuePkt s r) else none
  | .pass pkt thread =>
    if (s.owner pkt).isSome then some { s with owner := Function.update s.owner pkt (some thread) }
    else none
  | .transmit t i pkt =>
    if s.owner pkt = some (.inr t) ∧ N.IsSlot (.inr t, i) ∧ s.Owned (.inr t, i) then
      some (transmit N s t i pkt)
    else none
  | .ret pkt => if (s.owner pkt).isSome then some (sinPktZoneRetPkt s pkt) else none
  | .spin r => some (spinRing s r)
  | .advance t ntx => if ntx ≤ txRingNslots (s.ring (.inr t)) then some (advance s t ntx) else none
  | .kernel z k => if (s.ring z).MayAdvanceTail k.tail then some (synced s z k) else none

/-- Rings with nothing in use, and the zones `sin_pkt_zone_ctor` makes for them. -/
structure Start (N : Rings R T) (s : State R T) : Prop where
  size : ∀ z, (s.ring z).numSlots = N.numSlots z
  order : ∀ z, (s.ring z).InOrder
  unused : ∀ z, (s.ring z).cur = (s.ring z).head
  bufIdx : s.bufIdx = N.bufIdx
  seen : s.seen = N.bufIdx
  pkt : ∀ z i, i < N.numSlots z → sinPktCtor N z i =
    ⟨s.mySlot (z, i), s.buf (z, i), s.pktLen (z, i), s.flags (z, i)⟩
  owner : ∀ a, s.owner a = none
  newHead : ∀ r, s.newHead r = none

abbrev machine (N : Rings R T) : Machine (State R T) (Move R T) := ofFn (Start N) (step N)

-- ---------------------------------------------------------------------------
-- The invariant
-- ---------------------------------------------------------------------------

variable {N : Rings R T} {s s' : State R T}

def busyAt (flags : Ref R T → Flags) (r : R) (i : Nat) : Bool := sinPktIsbusy (flags (.inl r, i))

/-- The buffers are those of the start in other slots of the same pool. -/
def Permuted (N : Rings R T) (bufIdx : Ref R T → BitVec 32) : Prop :=
  ∃ σ : Equiv.Perm (Ref R T), bufIdx = N.bufIdx ∘ σ ∧ ∀ a, N.IsSlot (σ a) ↔ N.IsSlot a

/-- Packets are taken from rx rings only, so those sent are none of a tx ring's. -/
structure Inv (N : Rings R T) (s : State R T) : Prop where
  size : ∀ z, (s.ring z).numSlots = N.numSlots z
  rx : ∀ r, RingOk (s.ring (.inl r)) (busyAt s.flags r)
  scan : ∀ r nh, s.newHead r = some nh → ScanOk (s.ring (.inl r)) (busyAt s.flags r) nh
  tx : ∀ t, (s.ring (.inr t)).InOrder ∧ (s.ring (.inr t)).cur = (s.ring (.inr t)).head
  held : ∀ a, (s.owner a).isSome → ∃ r i, a = (.inl r, i) ∧ N.IsSlot a ∧ busyAt s.flags r i = true
  mySlot : ∀ a, N.IsSlot a → s.mySlot a = a
  buf : ∀ a, N.IsSlot a → s.buf a = N.netmapBuf a.1 (s.bufIdx a)
  perm : Permuted N s.bufIdx
  seen : ∀ a, N.IsSlot a → s.bufIdx a ≠ s.seen a → bufChanged (s.slotFlags a) ∧ s.Owned a

section

omit [DecidableEq R] [DecidableEq T]

theorem Inv.order (h : Inv N s) : ∀ z, (s.ring z).InOrder
  | .inl r => (h.rx r).toInOrder
  | .inr t => (h.tx t).1

/-- A packet taken from its ring is of an rx zone, and its slot the program's. -/
theorem Inv.held_slot (h : Inv N s) (ho : (s.owner a).isSome) :
    ∃ r i, a = (.inl r, i) ∧ N.IsSlot a ∧ s.Owned a := by
  obtain ⟨r, i, rfl, hslot, hb⟩ := h.held a ho
  refine ⟨r, i, rfl, hslot, ?_⟩
  have hlt : i < (s.ring (.inl r)).numSlots := h.size _ ▸ hslot
  exact Nat.lt_of_lt_of_le ((h.rx r).busy_between i hlt hb) (h.rx r).le

theorem Inv.of_start (h : Start N s) : Inv N s := by
  have hpkt : ∀ a, N.IsSlot a → s.mySlot a = a ∧ s.buf a = N.netmapBuf a.1 (N.bufIdx a) ∧
      s.flags a = 0 := by
    rintro ⟨z, i⟩ hi
    have hp := h.pkt z i hi
    simp only [sinPktCtor, SinPkt.mk.injEq] at hp
    exact ⟨hp.1.symm, hp.2.1.symm, hp.2.2.2.symm⟩
  constructor
  · exact h.size
  · intro r
    refine ⟨h.order _, fun i hi hb => ?_⟩
    rw [h.size] at hi
    simp [busyAt, (hpkt (.inl r, i) hi).2.2] at hb
  · intro r nh hn
    simp [h.newHead] at hn
  · exact fun t => ⟨h.order _, h.unused _⟩
  · intro a ho
    simp [h.owner] at ho
  · exact fun a ha => (hpkt a ha).1
  · intro a ha
    rw [h.bufIdx]
    exact (hpkt a ha).2.1
  · exact ⟨Equiv.refl _, h.bufIdx, fun a => Iff.rfl⟩
  · intro a _ hne
    simp [h.bufIdx, h.seen] at hne

end

-- ---------------------------------------------------------------------------
-- Sending
-- ---------------------------------------------------------------------------

theorem bufChanged_set : bufChanged nsBufChanged := by decide

theorem swap_cases (a b c : Ref R T) :
    (c = a ∧ Equiv.swap a b c = b) ∨ (c = b ∧ Equiv.swap a b c = a) ∨
      (c ≠ a ∧ c ≠ b ∧ Equiv.swap a b c = c) := by
  by_cases ha : c = a
  · exact .inl ⟨ha, ha ▸ Equiv.swap_apply_left a b⟩
  · by_cases hb : c = b
    · exact .inr (.inl ⟨hb, hb ▸ Equiv.swap_apply_right a b⟩)
    · exact .inr (.inr ⟨ha, hb, Equiv.swap_apply_of_ne_of_ne ha hb⟩)

theorem Permuted.swap {m : Ref R T → BitVec 32} (h : Permuted N m) (ha : N.IsSlot a) (hb : N.IsSlot b) :
    Permuted N (m ∘ Equiv.swap a b) := by
  obtain ⟨σ, rfl, hσ⟩ := h
  refine ⟨(Equiv.swap a b).trans σ, rfl, fun c => (hσ _).trans ?_⟩
  rcases swap_cases a b c with ⟨rfl, hs⟩ | ⟨rfl, hs⟩ | ⟨-, -, hs⟩ <;> simp [hs, ha, hb]

/-- Source and target are slots of an rx and of a tx ring, so they are two, and
the two exchanges keep the packets' buffers those of their slots. -/
theorem Inv.swap (h : Inv N s) (hp : N.IsSlot (.inl r, j)) (ho : s.Owned (.inl r, j))
    (hq : N.IsSlot (.inr t, i)) (hoq : s.Owned (.inr t, i))
    (hfd : N.netmapFd (.inr t) = N.netmapFd (.inl r)) :
    Inv N (sinPktZoneSwap s (.inl r, j) (.inr t, i)) := by
  have hne : ((.inl r, j) : Ref R T) ≠ (.inr t, i) := by simp
  have hsrc := h.mySlot _ hp
  have hdst := h.mySlot _ hq
  have hidx : (sinPktZoneSwap s (.inl r, j) (.inr t, i)).bufIdx =
      s.bufIdx ∘ Equiv.swap (.inl r, j) (.inr t, i) := by
    simp only [sinPktZoneSwap, hsrc, hdst, sinSwapI, xorSwap_eq _ hne.symm, Equiv.swap_comm]
  have hbuf : (sinPktZoneSwap s (.inl r, j) (.inr t, i)).buf =
      s.buf ∘ Equiv.swap (.inl r, j) (.inr t, i) := by
    simp only [sinPktZoneSwap, sinSwapI, xorSwap_eq _ hne]
  refine ⟨h.size, h.rx, h.scan, h.tx, h.held, h.mySlot, fun a ha => ?_, ?_, fun a ha hd => ?_⟩
  · rw [hbuf, hidx, Function.comp_apply, Function.comp_apply]
    rcases swap_cases (.inl r, j) (.inr t, i) a with ⟨rfl, hs⟩ | ⟨rfl, hs⟩ | ⟨-, -, hs⟩
    · rw [hs, h.buf _ hq, N.pool _ _ hfd]
    · rw [hs, h.buf _ hp, N.pool _ _ hfd]
    · rw [hs, h.buf a ha]
  · rw [hidx]
    exact h.perm.swap hp hq
  · rw [hidx, Function.comp_apply] at hd
    rcases swap_cases (.inl r, j) (.inr t, i) a with ⟨rfl, hs⟩ | ⟨rfl, hs⟩ | ⟨hap, haq, hs⟩
    · exact ⟨by simp [sinPktZoneSwap, hsrc, bufChanged_set], ho⟩
    · exact ⟨by simp [sinPktZoneSwap, hdst, hsrc, bufChanged_set], hoq⟩
    · rw [hs] at hd
      obtain ⟨hc, hown⟩ := h.seen a ha hd
      exact ⟨by simpa [sinPktZoneSwap, hsrc, hdst, hap, haq] using hc, hown⟩

theorem Inv.copy (h : Inv N s) (p : Ref R T) (hq : N.IsSlot q) : Inv N (sinPktZoneCopy s p q) := by
  refine ⟨h.size, h.rx, h.scan, h.tx, h.held, h.mySlot, h.buf, h.perm, fun a ha hd => ?_⟩
  obtain ⟨hc, ho⟩ := h.seen a ha hd
  refine ⟨?_, ho⟩
  by_cases haq : a = q
  · simp [sinPktZoneCopy, haq, h.mySlot q hq, bufChanged_set]
  · simpa [sinPktZoneCopy, h.mySlot q hq, haq] using hc

-- ---------------------------------------------------------------------------
-- One ring's step
-- ---------------------------------------------------------------------------

theorem Owned.update {ring' : NetmapRing} (hr : s'.ring = Function.update s.ring z ring')
    (ho : s.Owned a) (hz : a.1 = z → ring'.Between ring'.head a.2 ring'.tail) : s'.Owned a := by
  unfold State.Owned
  rw [hr]
  by_cases ha : a.1 = z
  · rw [ha, Function.update_self]
    exact hz ha
  · rw [Function.update_of_ne ha]
    exact ho

theorem size_update {ring' : NetmapRing} (h : Inv N s) (hn : ring'.numSlots = (s.ring z).numSlots)
    (z' : R ⊕ T) : (Function.update s.ring z ring' z').numSlots = N.numSlots z' := by
  revert z'
  rw [Function.forall_update_iff s.ring fun z' ring => ring.numSlots = N.numSlots z']
  exact ⟨hn.trans (h.size z), fun z' _ => h.size z'⟩

theorem busyAt_other {flags : Ref R T → Flags} {f : Flags} (hr : r' ≠ r) :
    busyAt (Function.update flags (.inl r, i) f) r' = busyAt flags r' := by
  funext k
  simp [busyAt, hr]

theorem Inv.dequeue (h : Inv N s) (hn : s.newHead r = none)
    (hne : nmRingEmpty (s.ring (.inl r)) = false) : Inv N (dequeuePkt s r) := by
  have hcur : N.IsSlot (.inl r, (s.ring (.inl r)).cur) := by
    unfold Rings.IsSlot
    rw [← h.size]
    exact (h.rx r).cur_lt
  have hother : ∀ r', r' ≠ r → (dequeuePkt s r).ring (.inl r') = s.ring (.inl r') ∧
      busyAt (dequeuePkt s r).flags r' = busyAt s.flags r' :=
    fun r' hr => ⟨Function.update_of_ne (by simpa using hr) _ _, busyAt_other hr⟩
  constructor
  · exact size_update h rfl
  · intro r'
    by_cases hr : r' = r
    · subst hr
      simp only [dequeuePkt, Function.update_self]
      refine (h.rx r').advanceCur hne fun i _ hb => ?_
      by_cases hi : i = (s.ring (.inl r')).cur
      · exact .inl hi
      · exact .inr (by simpa [busyAt, hi] using hb)
    · obtain ⟨hring, hbusy⟩ := hother r' hr
      rw [hring, hbusy]
      exact h.rx r'
  · intro r' nh hs
    by_cases hr : r' = r
    · subst hr
      cases hn.symm.trans hs
    · obtain ⟨hring, hbusy⟩ := hother r' hr
      rw [hring, hbusy]
      exact h.scan r' nh hs
  · intro t
    simpa [dequeuePkt] using h.tx t
  · intro a ho
    by_cases ha : a = (.inl r, (s.ring (.inl r)).cur)
    · exact ⟨r, _, ha, ha ▸ hcur, by simp [busyAt, dequeuePkt]⟩
    · simp only [dequeuePkt, Function.update_of_ne ha] at ho
      obtain ⟨r', i, rfl, hslot, hb⟩ := h.held a ho
      refine ⟨r', i, rfl, hslot, ?_⟩
      simpa [busyAt, dequeuePkt, Function.update_of_ne ha] using hb
  · exact h.mySlot
  · exact h.buf
  · exact h.perm
  · intro a ha hd
    obtain ⟨hc, ho⟩ := h.seen a ha hd
    refine ⟨hc, Owned.update rfl ho ?_⟩
    rintro hz
    unfold State.Owned at ho
    rwa [hz] at ho

theorem Inv.ret (h : Inv N s) (ho : (s.owner p).isSome) : Inv N (sinPktZoneRetPkt s p) := by
  obtain ⟨r, i, rfl, -, -⟩ := h.held p ho
  -- a return only clears busy bits
  have hbusy : ∀ r' k, busyAt (sinPktZoneRetPkt s (.inl r, i)).flags r' k = true →
      busyAt s.flags r' k = true := by
    intro r' k hb
    by_cases he : ((.inl r', k) : Ref R T) = (.inl r, i)
    · simp [busyAt, sinPktZoneRetPkt, he] at hb
    · simpa [busyAt, sinPktZoneRetPkt, Function.update_of_ne he] using hb
  refine ⟨h.size, fun r' => (h.rx r').mono fun k _ => hbusy r' k,
    fun r' nh hs => (h.scan r' nh hs).mono fun k _ => hbusy r' k, h.tx, fun a ha => ?_, h.mySlot, h.buf,
    h.perm, h.seen⟩
  by_cases he : a = (.inl r, i)
  · simp [sinPktZoneRetPkt, he] at ha
  · simp only [sinPktZoneRetPkt, Function.update_of_ne he] at ha
    obtain ⟨r', k, rfl, hslot, hb⟩ := h.held a ha
    exact ⟨r', k, rfl, hslot, by simpa [busyAt, sinPktZoneRetPkt, Function.update_of_ne he] using hb⟩

theorem Inv.pass (h : Inv N s) (ho : (s.owner p).isSome) (y : R ⊕ T) :
    Inv N { s with owner := Function.update s.owner p (some y) } := by
  refine ⟨h.size, h.rx, h.scan, h.tx, fun a ha => h.held a ?_, h.mySlot, h.buf, h.perm, h.seen⟩
  by_cases he : a = p
  · exact he ▸ ho
  · simpa [he] using ha

-- ---------------------------------------------------------------------------
-- Heads and tails
-- ---------------------------------------------------------------------------

theorem Inv.storeHead (h : Inv N s) {nh : Nat} (cur : Nat) (hlt : nh < (s.ring z).numSlots)
    (hle : dist (s.ring z).numSlots (s.ring z).head nh ≤
      dist (s.ring z).numSlots (s.ring z).head (s.ring z).tail)
    (ha : N.IsSlot a) (hd : (storeHead s z nh cur).bufIdx a ≠ (storeHead s z nh cur).seen a) :
    bufChanged ((storeHead s z nh cur).slotFlags a) ∧ (storeHead s z nh cur).Owned a := by
  simp only [PktZone.storeHead] at hd
  split at hd
  · exact absurd rfl hd
  · rename_i hpass
    obtain ⟨hc, ho⟩ := h.seen a ha hd
    refine ⟨hc, Owned.update rfl ho ?_⟩
    rintro rfl
    have hi : a.2 < (s.ring a.1).numSlots := (h.size a.1).symm ▸ ha
    exact (h.order a.1).not_passed hlt hi hle (fun hb => hpass ⟨rfl, hb⟩) ho

theorem Inv.spin (h : Inv N s) (r : R) : Inv N (spinRing s r) := by
  unfold spinRing
  split
  · refine ⟨h.size, h.rx, fun r' nh hs => ?_, h.tx, h.held, h.mySlot, h.buf, h.perm, h.seen⟩
    by_cases hr : r' = r
    · subst hr
      obtain rfl : (s.ring (.inl r')).head = nh := by simpa using hs
      exact (h.rx r').scan
    · exact h.scan r' nh (by simpa [hr] using hs)
  · rename_i nh hnh
    have hscan := h.scan r nh hnh
    dsimp only
    split
    · refine ⟨size_update h rfl, fun r' => ?_, fun r' nh' hs => ?_, fun t => ?_, h.held, h.mySlot,
        h.buf, h.perm, fun a => h.storeHead _ hscan.lt (hscan.le.trans (h.rx r).le)⟩
      · by_cases hr : r' = r
        · subst hr
          simpa [PktZone.storeHead] using (h.rx r').advanceHead hscan
        · simpa [PktZone.storeHead, hr] using h.rx r'
      · by_cases hr : r' = r
        · simp [hr] at hs
        · simpa [PktZone.storeHead, hr] using h.scan r' nh' (by simpa [hr] using hs)
      · simpa [PktZone.storeHead] using h.tx t
    · rename_i hstop
      obtain ⟨hne, hb⟩ := not_or.mp hstop
      refine ⟨h.size, h.rx, fun r' nh' hs => ?_, h.tx, h.held, h.mySlot, h.buf, h.perm, h.seen⟩
      by_cases hr : r' = r
      · subst hr
        obtain rfl : nmRingNext (s.ring (.inl r')) nh = nh' := by simpa using hs
        exact hscan.next (h.rx r') hne (Bool.eq_false_iff.mpr hb)
      · exact h.scan r' nh' (by simpa [hr] using hs)

theorem Inv.advance (h : Inv N s) (hn : ntx ≤ txRingNslots (s.ring (.inr t))) :
    Inv N (advance s t ntx) := by
  obtain ⟨horder, hcur⟩ := h.tx t
  have hfits : (s.ring (.inr t)).numSlots < 2 ^ 31 := h.size (.inr t) ▸ N.fits (.inr t)
  have hnew := advanceTxRing_order horder ntx
  have hle : dist (s.ring (.inr t)).numSlots (s.ring (.inr t)).head
      (advanceTxRing (s.ring (.inr t)) ntx).head ≤
      dist (s.ring (.inr t)).numSlots (s.ring (.inr t)).head (s.ring (.inr t)).tail := by
    rw [← hcur, dist_advanceTxRing hfits horder hn, ← txRingNslots_eq]
    exact hn
  refine ⟨size_update h rfl, fun r => ?_, fun r nh hs => ?_, fun t' => ?_, h.held, h.mySlot, h.buf,
    h.perm, fun a => h.storeHead _ hnew.head_lt hle⟩
  · simpa [PktZone.advance, PktZone.storeHead] using h.rx r
  · simpa [PktZone.advance, PktZone.storeHead] using h.scan r nh hs
  · by_cases ht : t' = t
    · subst ht
      simp only [PktZone.advance, PktZone.storeHead, Function.update_self]
      exact ⟨hnew, rfl⟩
    · simpa [PktZone.advance, PktZone.storeHead, ht] using h.tx t'

theorem Inv.synced (h : Inv N s) {k : Synced} (hk : (s.ring z).MayAdvanceTail k.tail) :
    Inv N (synced s z k) := by
  refine ⟨size_update h rfl, fun r => ?_, fun r nh hs => ?_, fun t => ?_, h.held, h.mySlot, h.buf,
    h.perm, fun a ha hd => ?_⟩
  · by_cases hz : .inl r = z
    · subst hz
      simpa [PktZone.synced] using (h.rx r).advanceTail hk
    · simpa [PktZone.synced, Function.update_of_ne hz] using h.rx r
  · by_cases hz : .inl r = z
    · subst hz
      simpa [PktZone.synced] using (h.scan r nh hs).advanceTail
    · simpa [PktZone.synced, Function.update_of_ne hz] using h.scan r nh hs
  · by_cases hz : .inr t = z
    · subst hz
      simpa [PktZone.synced] using And.intro ((h.tx t).1.advanceTail hk) (h.tx t).2
    · simpa [PktZone.synced, Function.update_of_ne hz] using h.tx t
  · obtain ⟨hc, ho⟩ := h.seen a ha hd
    refine ⟨by simpa [PktZone.synced, ho] using hc, Owned.update rfl ho ?_⟩
    rintro rfl
    exact Nat.lt_of_lt_of_le ho hk.2

theorem Inv.step (h : Inv N s) (hs : step N s mv = some s') : Inv N s' := by
  cases mv with
  | dequeue r =>
    obtain ⟨⟨hn, hne⟩, ⟨⟩⟩ := Option.ite_none_right_eq_some.mp hs
    exact h.dequeue hn hne
  | pass pkt thread =>
    obtain ⟨ho, ⟨⟩⟩ := Option.ite_none_right_eq_some.mp hs
    exact h.pass ho thread
  | transmit t i pkt =>
    obtain ⟨⟨ho, hslot, hown⟩, ⟨⟩⟩ := Option.ite_none_right_eq_some.mp hs
    obtain ⟨r, j, rfl, hp, hpo⟩ := h.held_slot (ho ▸ rfl : (s.owner pkt).isSome)
    unfold transmit
    dsimp only
    split
    · exact h.swap hp hpo hslot hown ‹_›
    · exact h.copy _ hslot
  | ret pkt =>
    obtain ⟨ho, ⟨⟩⟩ := Option.ite_none_right_eq_some.mp hs
    exact h.ret ho
  | spin r =>
    cases hs
    exact h.spin r
  | advance t ntx =>
    obtain ⟨hn, ⟨⟩⟩ := Option.ite_none_right_eq_some.mp hs
    exact h.advance hn
  | kernel z k =>
    obtain ⟨hk, ⟨⟩⟩ := Option.ite_none_right_eq_some.mp hs
    exact h.synced hk

theorem inv_of_reachable (h : (machine N).Reachable s) : Inv N s :=
  h.induct (fun _ => Inv.of_start) fun _ _ _ => Inv.step

-- ---------------------------------------------------------------------------
-- Conservation
-- ---------------------------------------------------------------------------

omit [DecidableEq R] [DecidableEq T] in
theorem Permuted.distinct {m : Ref R T → BitVec 32} (h : Permuted N m) (ha : N.IsSlot a)
    (hb : N.IsSlot b) (he : m a = m b) : a = b := by
  obtain ⟨σ, rfl, hσ⟩ := h
  exact σ.injective (N.distinct _ _ ((hσ a).mpr ha) ((hσ b).mpr hb) he)

/-- The slots hold the buffers of the start in some order, and still no buffer
twice; a packet's `buf` is its own slot's buffer; and a slot with a buffer the
kernel has not seen is still to be passed by `head`, with `NS_BUF_CHANGED` set. -/
theorem buffers_conserved (h : (machine N).Reachable s) :
    (∃ σ : Equiv.Perm {a // N.IsSlot a}, ∀ a, s.bufIdx a.1 = N.bufIdx (σ a).1) ∧
      (∀ a b, N.IsSlot a → N.IsSlot b → s.bufIdx a = s.bufIdx b → a = b) ∧
      (∀ a, N.IsSlot a → s.mySlot a = a ∧ s.buf a = N.netmapBuf a.1 (s.bufIdx (s.mySlot a))) ∧
      ∀ a, N.IsSlot a → s.bufIdx a ≠ s.seen a → s.Owned a ∧ bufChanged (s.slotFlags a) := by
  have hinv := inv_of_reachable h
  refine ⟨?_, fun a b => hinv.perm.distinct, fun a ha => ?_, fun a ha hd => (hinv.seen a ha hd).symm⟩
  · obtain ⟨σ, hidx, hσ⟩ := hinv.perm
    refine ⟨σ.subtypeEquiv fun a => (hσ a).symm, fun a => ?_⟩
    rw [hidx]
    rfl
  · have hm := hinv.mySlot a ha
    exact ⟨hm, hm.symm ▸ hinv.buf a ha⟩

/-- An rx and a tx ring of two slots each on one descriptor. -/
def twoRings : Rings Unit Unit where
  numSlots _ := 2
  fits _ := by decide
  netmapFd _ := 3
  netmapBuf _ idx := 0x100000 + idx.setWidth 64 * 2048
  bufIdx a := BitVec.ofNat 32 (a.2 + if a.1.isLeft then 2 else 4)
  pool _ _ _ := rfl
  distinct := by
    rintro ⟨z, i⟩ ⟨z', j⟩ hi hj h
    have hi : i < 2 := hi
    have hj : j < 2 := hj
    have h := congrArg BitVec.toNat h
    rcases z with ⟨⟩ | ⟨⟩ <;> rcases z' with ⟨⟩ | ⟨⟩ <;> simp at h ⊢ <;> omega

def startTwo : State Unit Unit where
  ring _ := ⟨2, 0, 0, 1⟩
  bufIdx := twoRings.bufIdx
  slotLen _ := 60
  slotFlags _ := 0
  mySlot a := a
  buf a := twoRings.netmapBuf a.1 (twoRings.bufIdx a)
  pktLen _ := 0
  flags _ := 0
  newHead _ := none
  owner _ := none
  seen := twoRings.bufIdx

theorem startTwo_start : Start twoRings startTwo := by
  have horder : (⟨2, 0, 0, 1⟩ : NetmapRing).InOrder := by constructor <;> decide
  exact ⟨fun _ => rfl, fun _ => horder, fun _ => rfl, rfl, rfl, fun _ _ _ => rfl, fun _ => rfl,
    fun _ => rfl⟩

/-- One packet sent without copying; the rx ring's head has passed its slot. -/
def zeroCopy : List (Move Unit Unit) :=
  [.dequeue (), .pass (.inl (), 0) (.inr ()), .transmit () 0 (.inl (), 0), .ret (.inl (), 0), .spin (),
    .spin (), .spin ()]

theorem buffers_conserved_zeroCopy : ∃ s : State Unit Unit,
    (s.bufIdx (.inl (), 0) = 4 ∧ s.seen (.inl (), 0) = 4 ∧ s.bufIdx (.inr (), 0) = 2 ∧
        s.seen (.inr (), 0) = 4) ∧
      s.Owned (.inr (), 0) ∧ bufChanged (s.slotFlags (.inr (), 0)) := by
  obtain ⟨s, hr, hp⟩ := Reachable.of_test (step twoRings) zeroCopy
    (fun s => decide (s.bufIdx (.inl (), 0) = 4 ∧ s.seen (.inl (), 0) = 4 ∧
      s.bufIdx (.inr (), 0) = 2 ∧ s.seen (.inr (), 0) = 4))
    startTwo_start (by decide)
  have hp := of_decide_eq_true hp
  refine ⟨s, hp, (buffers_conserved hr).2.2.2 (.inr (), 0) (by decide) ?_⟩
  rw [hp.2.2.1, hp.2.2.2]
  decide

end Libsinet.PktZone
