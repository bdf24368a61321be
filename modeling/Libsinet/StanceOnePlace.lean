import Libsinet.StanceThreads

/-!
# One packet, one place

A packet of an rx zone is idle, or busy and on one list of one thread, in every
state that the threads and the kernel can reach, and no assertion of the code
about packets and lists fails there. Only that on `pkt->buf` is not in sight
here.
-/

namespace Libsinet.Stance

open Machine NetmapRing Circular
open PktSorter (collect)

variable {R : Type u} {T : Type v} {E : Type w} {P : Type x} {D : Type y}
variable [DecidableEq R] [DecidableEq T] [DecidableEq E] [DecidableEq P]

/-- In no list, with `sin_next` NULL. -/
def Idle (s : State R T E P D) (pkt : P) : Prop :=
  sinPktIsbusy (s.flags pkt) = false ∧ (∀ k, pkt ∉ s.pkts k) ∧ s.links pkt = none

/-- A node of one chain, once. -/
def InOnePlace (s : State R T E P D) (pkt : P) : Prop :=
  sinPktIsbusy (s.flags pkt) = true ∧
    ∃ k, k.forRx = true ∧ (s.pkts k).count pkt = 1 ∧ ∀ j, j ≠ k → pkt ∉ s.pkts j

structure OnePlace (N : SinStance R T E P D) (s : State R T E P D) : Prop where
  pkt : ∀ r, ∀ i < (N.rxZone r).numSlots, Idle s ((N.rxZone r).pmap i) ∨ InOnePlace s ((N.rxZone r).pmap i)
  chain : ∀ k, (s.list k).Holds s.links (s.pkts k)

-- ---------------------------------------------------------------------------
-- Assertions
-- ---------------------------------------------------------------------------

def RetPktAsserts (N : SinStance R T E P D) (s : State R T E P D) (pkt : P) : Prop :=
  sinPktIsbusy (s.flags pkt) = true ∧
    pkt = (N.zone (N.myZone pkt)).pmap ((N.zone (N.myZone pkt)).zoneIdx pkt)

/-- What the next step of an rx thread asserts. -/
def RxAsserts (N : SinStance R T E P D) (s : State R T E P D) (r : R) : Prop :=
  let x := s.rx r
  match x.pc with
  | .dequeue =>
    let pkt := (N.rxZone r).pmap x.ring.cur
    nmRingEmpty x.ring = false →
      sinPktIsbusy (s.flags pkt) = false ∧ (N.rxZone r).zoneIdx pkt = x.ring.cur ∧ SinListAppendAssert s.links pkt
  | .scan _ (some pkt) => SinListAppendAssert (Function.update s.links pkt none) pkt
  | _ => True

/-- The same of a tx thread, and that it follows no NULL pointer. -/
def TxAsserts (N : SinStance R T E P D) (s : State R T E P D) (t : T) : Prop :=
  let y := s.tx t
  match y.pc with
  | .getpkts _ left curidx =>
    1 < left → SinListAppendAssert s.links ((N.txZone t).pmap (nmRingNext y.ring curidx))
  | .send ntx i pkt pktTx =>
    i < ntx → ∃ p q, pkt = some p ∧ pktTx = some q ∧ RetPktAsserts N s p
  | .advance ntx pkt => ntx < y.ring.numSlots ∧ (pkt = none → y.pktsOut.len.toNat = ntx)
  | _ => True

structure Asserts (N : SinStance R T E P D) (s : State R T E P D) : Prop where
  rx : ∀ r, RxAsserts N s r
  tx : ∀ t, TxAsserts N s t

variable {N : SinStance R T E P D} {s : State R T E P D} {A : Place R T E → List P}

omit [DecidableEq R] [DecidableEq T] [DecidableEq E] in
theorem Inv.rxAsserts (h : Inv N s A) (r : R) : RxAsserts N s r := by
  unfold RxAsserts
  dsimp only
  split
  · intro _
    have hb := (h.rx r).ring.cur_not_busy
    exact ⟨hb, (N.rxZone r).zoneIdx_pmap _ (h.cur_lt r),
      h.lay.sep.loose _ (h.lay.idle (h.cur_lt r) hb)⟩
  · exact Function.update_self ..
  · trivial

omit [DecidableEq R] [DecidableEq T] [DecidableEq E] [DecidableEq P] in
theorem Inv.retPktAsserts (h : Inv N s A) (hp : p ∈ A (.pktsOut t)) : RetPktAsserts N s p := by
  refine ⟨(h.lay.busy p).mpr ⟨.pktsOut t, rfl, hp⟩, ?_⟩
  obtain ⟨r, i, hi, rfl⟩ := h.lay.allowed _ _ hp
  rw [N.rx_pmap r i hi]
  exact congrArg (N.rxZone r).pmap ((N.rxZone r).zoneIdx_pmap i hi).symm

omit [DecidableEq R] [DecidableEq T] [DecidableEq E] [DecidableEq P] in
theorem Inv.txAsserts (h : Inv N s A) (t : T) : TxAsserts N s t := by
  have hold := h.tx t
  have hat := hold.pc
  unfold TxAsserts
  dsimp only
  split
  · rename_i ntx left curidx hpc
    intro hone
    obtain ⟨-, hlt, hnew⟩ := h.getpkts_next hpc hone
    exact h.lay.sep.loose _ (h.lay.tx_loose hlt hnew)
  · rename_i ntx i pkt pktTx hpc
    intro hlt
    rw [hpc] at hat
    obtain ⟨hi, hntx, hlen, -, htx⟩ := hat
    obtain ⟨p, l, hout⟩ := List.exists_cons_of_length_pos (show 0 < (A (.pktsOut t)).length by omega)
    have hslots := htx.trans (drop_slots hlt)
    have hhead : (s.list (.pktsOut t)).head = some p := (hout ▸ h.lay.sep.holds (.pktsOut t)).chain.1
    have hheadTx := (hslots ▸ h.lay.sep.holds (.pktsTx t)).chain.1
    have hpkt : pkt = some p := by simpa [State.list, TxThread.outList, hpc, pktsLeft_head] using hhead
    have hpktTx := hheadTx
    simp only [State.list, TxThread.txList, hpc, pktsLeft_head] at hpktTx
    exact ⟨p, _, hpkt, hpktTx, h.retPktAsserts (hout ▸ List.mem_cons_self)⟩
  · rename_i ntx pkt hpc
    rw [hpc] at hat
    refine ⟨hat.1.trans_lt (txRingNslots_lt hold.order), fun hnone => ?_⟩
    have hA : A (.pktsOut t) = [] := h.at_nil (by simp [State.list, TxThread.outList, hpc, hnone, pktsLeft_none])
    simpa [hA] using hat.2.symm
  · trivial

-- ---------------------------------------------------------------------------
-- The theorem
-- ---------------------------------------------------------------------------

omit [DecidableEq R] [DecidableEq T] [DecidableEq E] in
theorem Inv.onePlace (h : Inv N s A) : OnePlace N s := by
  rw [← h.pkts_eq] at h
  refine ⟨fun r i hi => ?_, h.lay.sep.holds⟩
  cases hb : sinPktIsbusy (s.flags ((N.rxZone r).pmap i)) with
  | false =>
    have hidle := h.lay.idle hi hb
    exact .inl ⟨hb, hidle, h.lay.sep.loose _ hidle⟩
  | true =>
    obtain ⟨k, hk, hp⟩ := (h.lay.busy _).mp hb
    exact .inr ⟨hb, k, hk, h.lay.sep.count_eq hp, fun j hj hp' => hj (h.lay.sep.once _ j k hp' hp)⟩

theorem onePacket_onePlace (h : (machine N).Reachable s) : OnePlace N s ∧ Asserts N s := by
  obtain ⟨A, hinv⟩ := inv_of_reachable h
  exact ⟨hinv.onePlace, hinv.rxAsserts, hinv.txAsserts⟩

-- ---------------------------------------------------------------------------
-- A small instance
-- ---------------------------------------------------------------------------

/-- One rx ring and one tx ring of four slots and one entry, for the frames
with an even first number, to which its consumer adds 100. -/
def small : SinStance Unit Unit Unit Nat Nat where
  rxZone _ := ⟨4, four_fits, id, id, fun _ _ => rfl⟩
  few := .of_mem (fun _ _ hi => List.mem_range.mpr hi) (by simp)
  txZone _ := ⟨4, four_fits, (10 + ·), (· - 10), fun _ _ => Nat.add_sub_cancel_left ..⟩
  myZone p := if p < 10 then .inl () else .inr ()
  rx_pmap _ i h := if_pos (Nat.lt_trans h (by decide))
  tx_pmap _ i _ := if_neg (Nat.not_lt.mpr (Nat.le_add_right ..))
  netmapFd _ := 3
  entries _ := [()]
  pktTaste _ _ f := f.1 % 2 = 0
  pktConsume _ c d := if c.isSome then d + 100 else d
  outq _ _ := ()

def smallStart : State Unit Unit Unit Nat Nat where
  rx _ := ⟨⟨4, 0, 0, 0⟩, .poll, .reset, fun _ => .reset⟩
  tx _ := ⟨⟨4, 0, 0, 3⟩, .ctor, .top, .reset, .reset, false⟩
  links _ := none
  flags _ := 0
  data _ := 0
  pktLen _ := 0
  slotLen _ := 0
  origin _ := ((), 0, 0)
  arrived _ := []
  sent _ := []

theorem small_start : Start small smallStart where
  rxRing | () => ⟨⟨by decide, by decide, by decide, by decide⟩, rfl, rfl⟩
  txRing | () => ⟨⟨by decide, by decide, by decide, by decide⟩, rfl, rfl⟩
  rx _ := ⟨rfl, rfl, fun _ => rfl⟩
  tx _ := ⟨rfl, rfl, rfl⟩
  links _ := rfl
  flags _ := rfl
  arrived _ := rfl
  sent _ := rfl

/-- Three frames arrive, and the rx thread sorts them. -/
def smallReceive : List (Move Unit Unit Nat) :=
  .receive () ⟨3, fun i => 6 + i, fun _ => 60⟩ :: List.replicate 9 (.rx () true)

theorem onePacket_onePlace_sorted :
    ∃ s, (OnePlace small s ∧ Asserts small s) ∧
      s.pkts (.wrklist () (some ())) = [0, 2] ∧ s.pkts (.wrklist () none) = [1] := by
  obtain ⟨s, hr, hp⟩ := Reachable.of_test (step small) smallReceive
    (fun s => s.pkts (.wrklist () (some ())) = [0, 2] ∧ s.pkts (.wrklist () none) = [1])
    small_start (by decide)
  exact ⟨s, onePacket_onePlace hr, of_decide_eq_true hp⟩

end Libsinet.Stance
