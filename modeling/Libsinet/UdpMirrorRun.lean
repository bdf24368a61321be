import Libsinet.Rewriters
import Libsinet.StanceLive

/-!
# What a running mirror sends

The instance that `sin_init` makes of an interface, with the entries that
`udp_mirror` registers, on the bytes of the frames. Echo requests and datagrams
to the ports of an entry go back to where they came from, and all other frames
pass between the interface and the host.
-/

namespace Libsinet.UdpMirror

open Machine Bytes Ip4
open Stance (Frame Forward SinStance Undisturbed Fair)

/-- The members `phy` and `hst` of `struct sin_stance`. -/
inductive WrkSet (nrings : Nat)
  | phy (i : Fin nrings)
  | hst
  deriving DecidableEq

deriving instance DecidableEq for UdpmParams, Rewriter

/-- The zones of the rings, all made with one descriptor. -/
structure Zones (nrings : Nat) (P : Type u) where
  nrings_pos : 0 < nrings
  rxZone : WrkSet nrings → SinPktZone P
  few : Stance.FewPkts rxZone
  txZone : WrkSet nrings → SinPktZone P
  myZone : P → WrkSet nrings ⊕ WrkSet nrings
  rx_pmap : ∀ w i, i < (rxZone w).numSlots → myZone ((rxZone w).pmap i) = .inl w
  tx_pmap : ∀ w i, i < (txZone w).numSlots → myZone ((txZone w).pmap i) = .inr w
  netmapFd : Nat

variable {nrings : Nat} {P : Type u}

abbrev MirrorState (nrings : Nat) (P : Type u) := Stance.State (WrkSet nrings) (WrkSet nrings) Rewriter P Mem

/-- The queue that frames from the host go to. -/
def Zones.phy0 (z : Zones nrings P) : WrkSet nrings := .phy ⟨0, z.nrings_pos⟩

/-- What `sin_init` registers for a ring, behind what was registered later. -/
def rxSort (args : List UdpmParams) : WrkSet nrings → List Rewriter
  | .phy _ => args.map .udpm ++ [.icmp]
  | .hst => []

/-- Neither rewriter looks at the length that is in `sin_pkt`. -/
def consume (o : Order) (debug : Bool) : Option Rewriter → Mem → Mem
  | some e, m => (e.rewrite o debug ⟨m, 0⟩).buf
  | none, m => m

def outq (z : Zones nrings P) : WrkSet nrings → Option Rewriter → WrkSet nrings
  | .phy i, some _ => .phy i
  | .phy _, none => .hst
  | .hst, _ => z.phy0

/-- The instance, once the entries for `args` are registered, the last of them
first. An entry that another one with the same arguments is before gets nothing. -/
def stance (o : Order) (debug : Bool) (z : Zones nrings P) (args : List UdpmParams) :
    SinStance (WrkSet nrings) (WrkSet nrings) Rewriter P Mem where
  rxZone := z.rxZone
  few := z.few
  txZone := z.txZone
  myZone := z.myZone
  rx_pmap := z.rx_pmap
  tx_pmap := z.tx_pmap
  netmapFd _ := z.netmapFd
  entries := rxSort args
  pktTaste _ e f := e.taste o ⟨f.1, f.2⟩
  pktConsume _ := consume o debug
  outq := outq z

-- ---------------------------------------------------------------------------
-- What a mirror is for
-- ---------------------------------------------------------------------------

/-- What has to become of a frame: where it goes, and as what. -/
inductive Mirrors (o : Order) (debug : Bool) (z : Zones nrings P) (args : List UdpmParams) :
    WrkSet nrings → Frame Mem → WrkSet nrings → Frame Mem → Prop
  | reply (i : Fin nrings) (f : Frame Mem) (m : Mem) (hrequest : EchoRequest ⟨f.1, f.2⟩)
      (hback : Replied o f.1 m) : Mirrors o debug z args (.phy i) f (.phy i) (m, f.2)
  | back (i : Fin nrings) (f : Frame Mem) (m : Mem) (a : UdpmParams) (ha : a ∈ args)
      (hdatagram : Datagram a ⟨f.1, f.2⟩) (hback : SentBack debug f.1 m) :
      Mirrors o debug z args (.phy i) f (.phy i) (m, f.2)
  | toHost (i : Fin nrings) (f : Frame Mem) (hrequest : ¬ EchoRequest ⟨f.1, f.2⟩)
      (hdatagram : ∀ a ∈ args, ¬ Datagram a ⟨f.1, f.2⟩) : Mirrors o debug z args (.phy i) f .hst f
  | fromHost (f : Frame Mem) : Mirrors o debug z args .hst f z.phy0 f

-- ---------------------------------------------------------------------------
-- What the code makes of a frame
-- ---------------------------------------------------------------------------

/-- What a rewriter of the ring makes of a frame, if one accepts it. -/
def answer (o : Order) (debug : Bool) (args : List UdpmParams) (f : Frame Mem) : Option (Frame Mem) :=
  if sinIp4IcmpTaste o ⟨f.1, f.2⟩ then some ((sinIp4IcmpReq2rpl o ⟨f.1, f.2⟩).buf, f.2)
  else if args.any fun a => udpmTaste o a ⟨f.1, f.2⟩ then some ((sinIp4UdpMirror o debug ⟨f.1, f.2⟩).buf, f.2)
  else none

/-- Where the rx thread puts a frame, and what it has made of it. -/
def mirror (o : Order) (debug : Bool) (z : Zones nrings P) (args : List UdpmParams) (w : WrkSet nrings)
    (f : Frame Mem) : WrkSet nrings × Frame Mem :=
  match w, answer o debug args f with
  | .phy i, some f' => (.phy i, f')
  | .phy _, none => (.hst, f)
  | .hst, _ => (z.phy0, f)

variable {o : Order} {debug : Bool} {z : Zones nrings P} {args : List UdpmParams} {f : Frame Mem}

theorem answer_mirrors {i : Fin nrings} {f' : Frame Mem} (hf : answer o debug args f = some f') :
    Mirrors o debug z args (.phy i) f (.phy i) f' := by
  unfold answer at hf
  split at hf
  · rename_i hicmp
    cases hf
    exact .reply i f _ (icmpTaste_echoRequest.mp hicmp) (req2rpl_replied hicmp)
  · split at hf
    · rename_i hudp
      obtain ⟨a, ha, htaste⟩ := List.any_eq_true.mp hudp
      have hdatagram := udpmTaste_datagram.mp htaste
      cases hf
      exact .back i f _ a ha hdatagram (mirror_sentBack o debug hdatagram)
    · cases hf

theorem noAnswer_mirrors {i : Fin nrings} (hf : answer o debug args f = none) :
    Mirrors o debug z args (.phy i) f .hst f := by
  unfold answer at hf
  split at hf
  · cases hf
  · rename_i hicmp
    split at hf
    · cases hf
    · rename_i hudp
      refine .toHost i f (mt icmpTaste_echoRequest.mpr hicmp) fun a ha hdatagram => hudp ?_
      exact List.any_eq_true.mpr ⟨a, ha, udpmTaste_datagram.mpr hdatagram⟩

theorem mirror_mirrors (w : WrkSet nrings) (f : Frame Mem) :
    Mirrors o debug z args w f (mirror o debug z args w f).1 (mirror o debug z args w f).2 := by
  cases w with
  | hst => exact .fromHost f
  | phy i =>
    cases hf : answer o debug args f with
    | some f' =>
      simp only [mirror, hf]
      exact answer_mirrors hf
    | none =>
      simp only [mirror, hf]
      exact noAnswer_mirrors hf

/-- A frame is of one protocol. -/
theorem tastes_exclusive {pkt : SinPkt} (h : sinIp4IcmpTaste o pkt = true) (a : UdpmParams) :
    udpmTaste o a pkt = false := by
  obtain ⟨-, -, -, hp, -⟩ := icmpTaste_iff.mp h
  refine Bool.eq_false_iff.mpr fun hudp => ?_
  obtain ⟨-, -, -, hp', -⟩ := udpmTaste_iff.mp hudp
  exact absurd (hp.symm.trans hp') (by decide)

theorem classOf_phy (i : Fin nrings) (f : Frame Mem) :
    (stance o debug z args).classOf (.phy i) f =
      if sinIp4IcmpTaste o ⟨f.1, f.2⟩ then some .icmp
      else (args.find? fun a => udpmTaste o a ⟨f.1, f.2⟩).map .udpm := by
  have hfind : (stance o debug z args).classOf (.phy i) f =
      ((args.find? fun a => udpmTaste o a ⟨f.1, f.2⟩).map .udpm).or
        ([Rewriter.icmp].find? fun e => e.taste o ⟨f.1, f.2⟩) := by
    have hentries : (stance o debug z args).entries (.phy i) = args.map .udpm ++ [.icmp] := rfl
    rw [SinStance.classOf, hentries, List.find?_append, List.find?_map]
    rfl
  rw [hfind]
  cases hicmp : sinIp4IcmpTaste o ⟨f.1, f.2⟩ with
  | true =>
    have hnone : (args.find? fun a => udpmTaste o a ⟨f.1, f.2⟩) = none := by
      simp [List.find?_eq_none, tastes_exclusive hicmp]
    simp [hnone, Rewriter.taste, hicmp]
  | false => simp [Rewriter.taste, hicmp]

theorem stance_mirror (w : WrkSet nrings) (f : Frame Mem) :
    ((stance o debug z args).outq w ((stance o debug z args).classOf w f),
      ((stance o debug z args).item w f).placed) = mirror o debug z args w f := by
  cases w with
  | hst => rfl
  | phy i =>
    simp only [SinStance.item, SinStance.consumed, classOf_phy, mirror, answer]
    cases hicmp : sinIp4IcmpTaste o ⟨f.1, f.2⟩ with
    | true => rfl
    | false =>
      cases hfind : args.find? fun a => udpmTaste o a ⟨f.1, f.2⟩ with
      | none =>
        have hany : (args.any fun a => udpmTaste o a ⟨f.1, f.2⟩) = false := by
          simpa [List.find?_eq_none] using hfind
        simp only [hany]
        rfl
      | some a =>
        have hany : (args.any fun a => udpmTaste o a ⟨f.1, f.2⟩) = true :=
          List.any_eq_true.mpr ⟨a, List.mem_of_find?_eq_some hfind,
            List.find?_some (p := fun a => udpmTaste o a ⟨f.1, f.2⟩) hfind⟩
        simp only [hany]
        rfl

-- ---------------------------------------------------------------------------
-- Every run
-- ---------------------------------------------------------------------------

/-- Between the interface and the host frames pass unchanged and in order. -/
structure Transparent (o : Order) (debug : Bool) (z : Zones nrings P) (args : List UdpmParams)
    (s : MirrorState nrings P) : Prop where
  toHost : ∀ i, ((s.sent .hst).filter fun g => g.ring = .phy i) <+:
    ((s.arrived (.phy i)).filter fun f => (answer o debug args f).isNone).map fun f => ⟨.phy i, f, f⟩
  fromHost : ((s.sent z.phy0).filter fun g => g.ring = .hst) <+: (s.arrived .hst).map fun f => ⟨.hst, f, f⟩

theorem answer_none {i : Fin nrings} :
    (answer o debug args f).isNone = true ↔ (stance o debug z args).classOf (.phy i) f = none := by
  rw [classOf_phy, answer]
  cases hicmp : sinIp4IcmpTaste o ⟨f.1, f.2⟩ with
  | true => simp
  | false =>
    cases hany : args.any fun a => udpmTaste o a ⟨f.1, f.2⟩ with
    | true => simpa [List.find?_eq_none] using hany
    | false => simpa [List.find?_eq_none] using hany

theorem WrkSet.mem_one (w : WrkSet 1) : w ∈ [WrkSet.phy 0, .hst] := by
  cases w with
  | hst => simp
  | phy i =>
    obtain rfl : i = 0 := Subsingleton.elim _ _
    simp

/-- An interface with one ring each way, four slots in all rings, a packet being
a ring and a slot. -/
def oneRing : Zones 1 ((WrkSet 1 ⊕ WrkSet 1) × Nat) where
  nrings_pos := by decide
  rxZone w := ⟨4, four_fits, (.inl w, ·), Prod.snd, fun _ _ => rfl⟩
  few := .of_mem (fun w _ hi => List.mem_flatMap.mpr ⟨w, w.mem_one, List.mem_map_of_mem (List.mem_range.mpr hi)⟩)
    (by simp)
  txZone w := ⟨4, four_fits, (.inr w, ·), Prod.snd, fun _ _ => rfl⟩
  myZone := Prod.fst
  rx_pmap _ _ _ := rfl
  tx_pmap _ _ _ := rfl
  netmapFd := 3

abbrev oneMirror := stance .little false oneRing [⟨1000, 65535⟩]

def oneStart : MirrorState 1 ((WrkSet 1 ⊕ WrkSet 1) × Nat) where
  rx _ := ⟨⟨4, 0, 0, 0⟩, .poll, .reset, fun _ => .reset⟩
  tx _ := ⟨⟨4, 0, 0, 3⟩, .ctor, .top, .reset, .reset, false⟩
  links _ := none
  flags _ := 0
  data _ := ofList []
  pktLen _ := 0
  slotLen _ := 0
  origin _ := (.hst, ofList [], 0)
  arrived _ := []
  sent _ := []

theorem oneStart_rings : (⟨4, 0, 0, 0⟩ : NetmapRing).InOrder ∧ (⟨4, 0, 0, 3⟩ : NetmapRing).InOrder :=
  ⟨⟨by decide, by decide, by decide, by decide⟩, by decide, by decide, by decide, by decide⟩

theorem oneStart_start : Stance.Start oneMirror oneStart where
  rxRing _ := ⟨oneStart_rings.1, rfl, rfl⟩
  txRing _ := ⟨oneStart_rings.2, rfl, rfl⟩
  rx _ := ⟨rfl, rfl, fun _ => rfl⟩
  tx _ := ⟨rfl, rfl, rfl⟩
  links _ := rfl
  flags _ := rfl
  arrived _ := rfl
  sent _ := rfl

/-- A datagram, an echo request and a frame that nobody accepts. -/
def oneFrames : Stance.Received Mem where
  tail := 3
  data i := if i = 0 then oddFrame.buf else if i = 1 then (ping 0xF7FE 1).buf else ofList []
  len i := if i = 0 then .ofNat 16 oddFrame.len else if i = 1 then .ofNat 16 (ping 0xF7FE 1).len else 60

/-- They come in while the tx threads wait. -/
def oneRun : List (Stance.Move (WrkSet 1) (WrkSet 1) Mem) :=
  List.replicate 2 (.tx oneRing.phy0 false) ++ List.replicate 2 (.tx .hst false) ++
    [.receive oneRing.phy0 oneFrames, .rx oneRing.phy0 true] ++ List.replicate 14 (.rx oneRing.phy0 false) ++
      List.replicate 11 (.tx oneRing.phy0 false) ++ List.replicate 9 (.tx .hst false)

theorem WrkSet.cases_one (p : WrkSet 1 → Prop) (hphy : p oneRing.phy0) (hhst : p .hst) (w : WrkSet 1) : p w := by
  cases w with
  | phy i =>
    obtain rfl : i = ⟨0, oneRing.nrings_pos⟩ := Subsingleton.elim _ _
    exact hphy
  | hst => exact hhst

/-- At the end of the run nobody has anything to do. -/
def AtRest (s : MirrorState 1 ((WrkSet 1 ⊕ WrkSet 1) × Nat))
    (w : WrkSet 1) : Prop :=
  (s.rx w).pc = .poll ∧ nmRingEmpty (s.rx w).ring = true ∧ (s.tx w).pc.isWaiting = true ∧
    (s.tx w).signalled = false ∧ txRingNslots (s.tx w).ring ≠ 0

instance (s : MirrorState 1 ((WrkSet 1 ⊕ WrkSet 1) × Nat)) (w : WrkSet 1) :
    Decidable (AtRest s w) := inferInstanceAs (Decidable (_ ∧ _))

theorem oneRun_ends : ∃ s, exec (guarded Undisturbed (Stance.step oneMirror)) oneStart oneRun = some s ∧
    ∀ w, AtRest s w := by
  obtain ⟨s, he, hp⟩ := (Option.any_eq_true (fun s => AtRest s oneRing.phy0 ∧ AtRest s .hst)
    (exec (guarded Undisturbed (Stance.step oneMirror)) oneStart oneRun)).mp (by decide)
  obtain ⟨hphy, hhst⟩ := of_decide_eq_true hp
  exact ⟨s, he, WrkSet.cases_one _ hphy hhst⟩

theorem oneRun_fair {s : MirrorState 1 ((WrkSet 1 ⊕ WrkSet 1) × Nat)}
    (he : exec (guarded Undisturbed (Stance.step oneMirror)) oneStart oneRun = some s) (hrest : ∀ w, AtRest s w) :
    Fair (.ofExec oneRun oneStart_start he) := by
  refine ⟨?_, fun w => ?_⟩
  · rintro (w | w)
    · obtain ⟨hpoll, hempty, -⟩ := hrest w
      exact Execution.ofExec_fair oneStart_start he fun h => by simp [Stance.Runnable, hpoll, hempty] at h
    · obtain ⟨-, -, hwait, hsignal, -⟩ := hrest w
      obtain ⟨n, hpc⟩ := Stance.TxPc.isWaiting_iff.mp hwait
      exact Execution.ofExec_fair oneStart_start he fun h => by simp [Stance.Runnable, hpc, hsignal] at h
  · obtain ⟨-, -, -, -, hroom⟩ := hrest w
    exact Execution.ofExec_recurs oneStart_start he hroom

theorem oneRun_reaches : ∃ s, (Stance.machine oneMirror).Reachable s ∧
    (s.sent oneRing.phy0).map (·.received.2) = [oddFrame.len, (ping 0xF7FE 1).len] ∧
      (s.sent .hst).map (·.received.2) = [60] := by
  obtain ⟨s, hr, hp⟩ := Reachable.of_test (Stance.step oneMirror) oneRun
    (fun s => (s.sent oneRing.phy0).map (·.received.2) = [oddFrame.len, (ping 0xF7FE 1).len] ∧
      (s.sent .hst).map (·.received.2) = [60]) oneStart_start (by decide)
  exact ⟨s, hr, of_decide_eq_true hp⟩

end Libsinet.UdpMirror
