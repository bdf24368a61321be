import Libsinet.Base.XorSwap
import Libsinet.StanceWalk
import Mathlib.Data.Fintype.Prod

/-!
# Buffers that change hands

In `Stance` a packet has its bytes. Here they are in memory, in the buffer that
`buf` points at, and the kernel finds a buffer by the `buf_idx` of a slot.
`sin_pkt_zone_swap` exchanges the buffers of a packet and a free slot, within
one descriptor, and `sin_pkt_zone_copy` copies from one to the other. All else
that a step does is as with the walking consumers.
-/

namespace Libsinet.Stance

open Machine NetmapRing Circular

variable {R : Type u} {T : Type v} {E : Type w} {P : Type x} {D : Type y}

/-- `mem` has a buffer's bytes at its address. -/
structure Buffers (P : Type u) (D : Type v) where
  bufIdx : P → BitVec 32
  buf : P → BitVec 64
  mem : BitVec 64 → D

/-- The bytes in a packet's buffer. -/
def Buffers.data (m : Buffers P D) (p : P) : D := m.mem (m.buf p)

/-- Rings of one descriptor share a pool of buffers. A packet is one of its
zone's, and the default consumer rewrites nothing. -/
structure Pools (N : SinStance R T E P D) where
  netmapBuf : R ⊕ T → BitVec 32 → BitVec 64
  pool : ∀ z z', N.netmapFd z = N.netmapFd z' → netmapBuf z = netmapBuf z'
  ofZone : ∀ p, (N.zone (N.myZone p)).zoneIdx p < (N.zone (N.myZone p)).numSlots ∧
    (N.zone (N.myZone p)).pmap ((N.zone (N.myZone p)).zoneIdx p) = p
  default : ∀ r d, N.pktConsume r none d = d

/-- The bytes are in the buffers; `data` of the instance is not used. -/
structure Buffered (R : Type u) (T : Type v) (E : Type w) (P : Type x) (D : Type y) where
  walks : Walks R T E P D
  bufs : Buffers P D

/-- As the code sees the packets, through `buf`. -/
def Buffered.view (b : Buffered R T E P D) : Walks R T E P D :=
  { b.walks with inst := { b.walks.inst with data := b.bufs.data } }

variable [DecidableEq R] [DecidableEq T] [DecidableEq E] [DecidableEq P]

-- ---------------------------------------------------------------------------
-- What a step does to the buffers
-- ---------------------------------------------------------------------------

/-- The packet at which a consumer is. -/
def Walks.atPkt (w : Walks R T E P D) (r : R) : Option (E × P) :=
  match (w.inst.rx r).pc, w.walk r with
  | .flush (some e :: _), some (some pkt) => some (e, pkt)
  | _, _ => none

def consumeBuf (N : SinStance R T E P D) (m : Buffers P D) (r : R) (e : E) (pkt : P) : Buffers P D :=
  { m with mem := Function.update m.mem (m.buf pkt) (N.pktConsume r (some e) (m.mem (m.buf pkt))) }

/-- A packet's slot is named by the packet. -/
def sinPktZoneSwap (m : Buffers P D) (p1 p2 : P) : Buffers P D :=
  { m with bufIdx := xorSwap m.bufIdx p2 p1, buf := xorSwap m.buf p1 p2 }

def sinPktZoneCopy (m : Buffers P D) (p1 p2 : P) : Buffers P D :=
  { m with mem := Function.update m.mem (m.buf p2) (m.mem (m.buf p1)) }

def transmitBuf (N : SinStance R T E P D) (m : Buffers P D) (t : T) (pkt pktTx : P) : Buffers P D :=
  if N.netmapFd (.inr t) = N.netmapFd (N.myZone pkt) then sinPktZoneSwap m pkt pktTx
  else sinPktZoneCopy m pkt pktTx

/-- The kernel writes what arrives to the buffers of its slots. -/
def receiveBuf {N : SinStance R T E P D} (K : Pools N) (s : State R T E P D) (m : Buffers P D) (r : R)
    (data : Nat → D) : Buffers P D :=
  { m with
    mem := (List.range (N.rxZone r).numSlots).foldl (fun mem i =>
      let p := (N.rxZone r).pmap i
      if KernelOwns N s r p then Function.update mem (K.netmapBuf (.inl r) (m.bufIdx p)) (data i) else mem) m.mem }

def touch {N : SinStance R T E P D} (K : Pools N) (w : Walks R T E P D) (m : Buffers P D) :
    Move R T D → Buffers P D
  | .rx r _ =>
    match w.atPkt r with
    | some (e, pkt) => consumeBuf N m r e pkt
    | none => m
  | .tx t _ =>
    match (w.inst.tx t).pc with
    | .send ntx i (some pkt) (some pktTx) => if i < ntx then transmitBuf N m t pkt pktTx else m
    | _ => m
  | .receive r k => receiveBuf K w.inst m r k.data
  | .drain _ _ => m

/-- What the kernel is handed: the bytes in the buffer of the slot. -/
def handedOver {N : SinStance R T E P D} (K : Pools N) (s : State R T E P D) (m : Buffers P D) (t : T)
    (pktTx : P) : Forward R D :=
  ⟨(s.origin pktTx).1, (s.origin pktTx).2, m.mem (K.netmapBuf (.inr t) (m.bufIdx pktTx)), (s.slotLen pktTx).toNat⟩

def handOver {N : SinStance R T E P D} (K : Pools N) (b : Buffered R T E P D) (s : State R T E P D) :
    Move R T D → State R T E P D
  | .tx t _ =>
    let y := b.walks.inst.tx t
    match y.pc with
    | .advance ntx _ =>
      { s with
        sent := Function.update b.walks.inst.sent t (b.walks.inst.sent t ++
          (slots (N.txZone t) y.ring y.ring.cur ntx).map (handedOver K b.walks.inst b.bufs t)) }
    | _ => s
  | _ => s

def bufStep {N : SinStance R T E P D} (K : Pools N) (b : Buffered R T E P D) (mv : Move R T D) :
    Option (Buffered R T E P D) :=
  (walkStep N b.view mv).map fun w =>
    { walks := { w with inst := handOver K b w.inst mv }, bufs := touch K b.walks b.bufs mv }

/-- Each packet points at its slot's buffer, and no two at the same. -/
structure BufsOk {N : SinStance R T E P D} (K : Pools N) (m : Buffers P D) : Prop where
  slot : ∀ p, m.buf p = K.netmapBuf (N.myZone p) (m.bufIdx p)
  inj : Function.Injective m.buf

abbrev buffered {N : SinStance R T E P D} (K : Pools N) : Machine (Buffered R T E P D) (Move R T D) :=
  ofFn (fun b => (∃ s, Start N s ∧ b.view = .between s) ∧ BufsOk K b.bufs) (bufStep K)

variable {N : SinStance R T E P D} {K : Pools N} {s s' : State R T E P D} {A : Place R T E → List P}
  {m : Buffers P D} {b b' : Buffered R T E P D} {w w' : Walks R T E P D} {r : R} {t : T} {p q : P} {mv : Move R T D}
  {choice : Bool}

-- ---------------------------------------------------------------------------
-- The bytes of the packets
-- ---------------------------------------------------------------------------

theorem data_update (hinj : Function.Injective m.buf) (p : P) (d : D) :
    ({ m with mem := Function.update m.mem (m.buf p) d } : Buffers P D).data = Function.update m.data p d := by
  funext p'
  rcases eq_or_ne p' p with rfl | hne
  · simp [Buffers.data]
  · simp [Buffers.data, hne, hinj.ne hne]

theorem data_swap (hne : p ≠ q) : (sinPktZoneSwap m p q).data = m.data ∘ Equiv.swap p q := by
  funext p'
  simp [sinPktZoneSwap, Buffers.data, xorSwap_eq _ hne]

omit [DecidableEq R] [DecidableEq T] [DecidableEq E] in
theorem data_transmit (hinj : Function.Injective m.buf) (hne : p ≠ q) :
    (transmitBuf N m t p q).data =
      if N.netmapFd (.inr t) = N.netmapFd (N.myZone p) then
        Function.update (Function.update m.data p (m.data q)) q (m.data p)
      else Function.update m.data q (m.data p) := by
  unfold transmitBuf
  split
  · rw [data_swap hne, Equiv.swap_comm]
    exact Equiv.comp_swap_eq_update q p m.data
  · exact data_update hinj q (m.data p)

omit [DecidableEq R] [DecidableEq T] [DecidableEq E] [DecidableEq P] in
theorem BufsOk.consume (h : BufsOk K m) (r : R) (e : E) (p : P) : BufsOk K (consumeBuf N m r e p) := ⟨h.slot, h.inj⟩

omit [DecidableEq E] [DecidableEq P] in
theorem BufsOk.receive (h : BufsOk K m) (s : State R T E P D) (r : R) (data : Nat → D) :
    BufsOk K (receiveBuf K s m r data) := ⟨h.slot, h.inj⟩

omit [DecidableEq R] [DecidableEq T] [DecidableEq E] in
theorem BufsOk.swap (h : BufsOk K m) (hne : p ≠ q) (hfd : N.netmapFd (N.myZone p) = N.netmapFd (N.myZone q)) :
    BufsOk K (sinPktZoneSwap m p q) := by
  constructor
  · intro p'
    simp only [sinPktZoneSwap, xorSwap_eq _ hne, xorSwap_eq _ hne.symm, Function.comp_apply, Equiv.swap_comm q p]
    rw [h.slot]
    refine congrFun (K.pool _ _ ?_) _
    rcases eq_or_ne p' p with rfl | hp
    · rw [Equiv.swap_apply_left, hfd]
    · rcases eq_or_ne p' q with rfl | hq
      · rw [Equiv.swap_apply_right, hfd]
      · rw [Equiv.swap_apply_of_ne_of_ne hp hq]
  · simp only [sinPktZoneSwap, xorSwap_eq _ hne]
    exact h.inj.comp (Equiv.injective _)

omit [DecidableEq R] [DecidableEq T] [DecidableEq E] in
theorem BufsOk.transmit (h : BufsOk K m) (hne : p ≠ q) (hq : N.myZone q = .inr t) :
    BufsOk K (transmitBuf N m t p q) := by
  unfold transmitBuf
  split
  · rename_i hfd
    exact h.swap hne (hfd.symm.trans (congrArg N.netmapFd hq.symm))
  · exact ⟨h.slot, h.inj⟩

/-- A loop that stores at different places. -/
theorem foldl_store {ι B C : Type*} [DecidableEq B] {c : ι → Prop} [DecidablePred c] {key : ι → B} {val : ι → C}
    (l : List ι) (f : B → C) (a : B) :
    (∀ i ∈ l, c i → key i ≠ a) →
      l.foldl (fun f i => if c i then Function.update f (key i) (val i) else f) f a = f a := by
  induction l generalizing f with
  | nil => exact fun _ => rfl
  | cons i l ih =>
    intro h
    rw [List.foldl_cons, ih _ fun j hj => h j (List.mem_cons_of_mem _ hj)]
    split
    · exact Function.update_of_ne (h i List.mem_cons_self ‹_›).symm _ _
    · rfl

theorem foldl_store_at {ι B C : Type*} [DecidableEq B] {c : ι → Prop} [DecidablePred c] {key : ι → B} {val : ι → C}
    {l : List ι} (f : B → C) {i : ι} (hi : i ∈ l) (hc : c i) (hkey : ∀ j ∈ l, key j = key i → j = i) :
    l.foldl (fun f i => if c i then Function.update f (key i) (val i) else f) f (key i) = val i := by
  induction l generalizing f with
  | nil => cases hi
  | cons j l ih =>
    rw [List.foldl_cons]
    by_cases hin : i ∈ l
    · exact ih _ hin fun k hk => hkey k (List.mem_cons_of_mem _ hk)
    · obtain rfl : i = j := (List.mem_cons.mp hi).resolve_right hin
      rw [foldl_store, if_pos hc, Function.update_self]
      intro k hk _ he
      exact hin (hkey k (List.mem_cons_of_mem _ hk) he ▸ hk)

omit [DecidableEq E] [DecidableEq P] in
theorem data_receive (h : BufsOk K m) (s : State R T E P D) (r : R) (data : Nat → D) :
    (receiveBuf K s m r data).data =
      fun p => if KernelOwns N s r p then data ((N.rxZone r).zoneIdx p) else m.data p := by
  have hkey : ∀ i < (N.rxZone r).numSlots,
      K.netmapBuf (.inl r) (m.bufIdx ((N.rxZone r).pmap i)) = m.buf ((N.rxZone r).pmap i) := by
    intro i hi
    rw [h.slot, N.rx_pmap r i hi]
  funext p
  show List.foldl _ m.mem _ (m.buf p) = _
  split
  · rename_i howns
    obtain ⟨hlt, hpmap⟩ := K.ofZone p
    rw [howns.1] at hlt hpmap
    have hlt : (N.rxZone r).zoneIdx p < (N.rxZone r).numSlots := hlt
    have hpmap : (N.rxZone r).pmap ((N.rxZone r).zoneIdx p) = p := hpmap
    have hbuf : m.buf p = K.netmapBuf (.inl r) (m.bufIdx ((N.rxZone r).pmap ((N.rxZone r).zoneIdx p))) := by
      rw [hkey _ hlt, hpmap]
    rw [hbuf]
    refine foldl_store_at m.mem (List.mem_range.mpr hlt) (hpmap.symm ▸ howns) fun j hj he => ?_
    rw [hkey j (List.mem_range.mp hj), hkey _ hlt] at he
    exact (N.rxZone r).pmap_inj (List.mem_range.mp hj) hlt (h.inj he)
  · rename_i howns
    refine foldl_store _ _ _ fun i hi hc he => howns ?_
    rw [hkey i (List.mem_range.mp hi)] at he
    exact h.inj he ▸ hc

-- ---------------------------------------------------------------------------
-- The bytes after a step
-- ---------------------------------------------------------------------------

theorem rxStep_data (K : Pools N)
    (hcall : ∀ e todo, (s.rx r).pc = .flush (some e :: todo) → ((s.rx r).wrklist (some e)).isEmpty = true)
    (hs : rxStep N s r choice = some s') : s'.data = s.data := by
  cases rxStep_moves hs with
  | put c todo hpc hne =>
    cases c with
    | none =>
      funext p
      simp [putItems, setRx, setTx, rewrite, K.default]
    | some e => exact absurd (hcall e todo hpc) (by simp [hne])
  | _ => rfl

omit [DecidableEq R] [DecidableEq E] in
theorem txStep_data (hsend : ∀ ntx i p q, (s.tx t).pc = .send ntx i (some p) (some q) → ¬ i < ntx)
    (hs : txStep N s t choice = some s') : s'.data = s.data := by
  cases txStep_moves hs with
  | send ntx i p q hpc hlt => exact absurd hlt (hsend ntx i p q hpc)
  | _ => rfl

theorem walkRx_at {e : E} (hat : w.atPkt r = some (e, p)) (hs : walkRx N w r choice = some w') :
    w'.inst = consumePkt N w.inst r e p := by
  unfold Walks.atPkt at hat
  split at hat
  · rename_i e' todo pkt hpc hwalk
    obtain ⟨rfl, rfl⟩ : e' = e ∧ pkt = p := by simpa using hat
    simp only [Stance.walkRx, hpc, hwalk, Option.some.injEq] at hs
    rw [← hs]
  · cases hat

theorem walkRx_data (K : Pools N) (hat : w.atPkt r = none) (hs : walkRx N w r choice = some w') :
    w'.inst.data = w.inst.data := by
  have hstep : (∀ e todo, (w.inst.rx r).pc = .flush (some e :: todo) →
        ((w.inst.rx r).wrklist (some e)).isEmpty = true) →
      (rxStep N w.inst r choice).map (fun s => { w with inst := s }) = some w' → w'.inst.data = w.inst.data := by
    intro hcall hs
    obtain ⟨s', hs', rfl⟩ := Option.map_eq_some_iff.mp hs
    exact rxStep_data K hcall hs'
  unfold Stance.walkRx at hs
  dsimp only at hs
  split at hs
  case h_1 e todo hpc hwalk =>
    split at hs
    · rename_i hempty
      refine hstep (fun e' todo' hpc' => ?_) hs
      obtain ⟨⟨rfl⟩, rfl⟩ : some e = some e' ∧ todo = todo' := by simpa [hpc] using hpc'
      exact hempty
    · cases hs
      rfl
  case h_2 e todo pkt hpc hwalk => simp [Walks.atPkt, hpc, hwalk] at hat
  case h_3 e todo hpc hwalk =>
    cases hs
    rfl
  case h_4 hcalls hpkt hend =>
    refine hstep (fun e todo hpc => ?_) hs
    cases hwalk : w.walk r with
    | none => exact (hcalls e todo hpc hwalk).elim
    | some pkt =>
      cases pkt with
      | none => exact (hend e todo hpc hwalk).elim
      | some pkt => exact (hpkt e todo pkt hpc hwalk).elim

/-- Every packet of a walking machine is where it may be. -/
theorem walks_at_send (h : (walks N).Reachable w) {ntx i : Nat}
    (hpc : (w.inst.tx t).pc = .send ntx i (some p) (some q)) : p ≠ q ∧ N.myZone q = .inr t := by
  obtain ⟨s, -, A, done, hinv, hahead⟩ := walk_simulation.reachable h
  have hpc : (s.tx t).pc = .send ntx i (some p) (some q) := by
    rw [hahead.inst] at hpc
    exact hpc
  obtain ⟨l, hl⟩ := hinv.at_cons (k := .pktsOut t) (p := p) (by simp [State.list, TxThread.outList, hpc, pktsLeft])
  obtain ⟨l', hl'⟩ := hinv.at_cons (k := .pktsTx t) (p := q) (by simp [State.list, TxThread.txList, hpc, pktsLeft])
  obtain ⟨r, i, hi, rfl⟩ := hinv.lay.allowed (.pktsOut t) p (hl ▸ List.mem_cons_self)
  obtain ⟨j, hj, rfl⟩ := hinv.lay.allowed (.pktsTx t) q (hl' ▸ List.mem_cons_self)
  have hq := N.tx_pmap t j hj
  refine ⟨fun he => ?_, hq⟩
  have hp := N.rx_pmap r i hi
  rw [he, hq] at hp
  cases hp

theorem walks_slots (h : (walks N).Reachable w) {n : Nat}
    (hp : p ∈ slots (N.txZone t) (w.inst.tx t).ring (w.inst.tx t).ring.cur n) : N.myZone p = .inr t := by
  obtain ⟨s, -, A, done, hinv, hahead⟩ := walk_simulation.reachable h
  have hy : w.inst.tx t = s.tx t := by
    rw [hahead.inst]
    rfl
  rw [hy] at hp
  have hcur := (hinv.tx t).order.cur_lt
  obtain ⟨j, -, rfl⟩ := List.mem_map.mp hp
  exact N.tx_pmap t _ ((hinv.tx t).size ▸ pos_lt hcur)

theorem touch_data (h : (walks N).Reachable b.view) (hok : BufsOk K b.bufs) (hs : walkStep N b.view mv = some w) :
    (touch K b.walks b.bufs mv).data = w.inst.data := by
  cases mv with
  | rx r choice =>
    cases hat : b.walks.atPkt r with
    | none =>
      simp only [touch, hat]
      exact (walkRx_data (w := b.view) K hat hs).symm
    | some k =>
      obtain ⟨e, pkt⟩ := k
      simp only [touch, hat]
      rw [walkRx_at (w := b.view) hat hs]
      exact data_update hok.inj pkt _
  | tx t choice =>
    obtain ⟨s', hs', rfl⟩ := Option.map_eq_some_iff.mp hs
    by_cases hsend : ∃ ntx i p q, (b.walks.inst.tx t).pc = .send ntx i (some p) (some q) ∧ i < ntx
    · obtain ⟨ntx, i, p, q, hpc, hlt⟩ := hsend
      have hpc' : (b.view.inst.tx t).pc = .send ntx i (some p) (some q) := hpc
      simp only [Stance.step, txStep, hpc', if_pos hlt, Option.some.injEq] at hs'
      simp only [touch, hpc, if_pos hlt, ← hs']
      exact data_transmit hok.inj (walks_at_send h hpc').1
    · have htouch : touch K b.walks b.bufs (.tx t choice) = b.bufs := by
        simp only [touch]
        split
        · rename_i ntx i p q hpc
          rw [if_neg fun hlt => hsend ⟨ntx, i, p, q, hpc, hlt⟩]
        · rfl
      rw [htouch]
      exact (txStep_data (s := b.view.inst) (fun ntx i p q hpc hlt => hsend ⟨ntx, i, p, q, hpc, hlt⟩) hs').symm
  | receive r k =>
    obtain ⟨s', hs', rfl⟩ := Option.map_eq_some_iff.mp hs
    obtain ⟨-, ⟨⟩⟩ := Option.ite_none_right_eq_some.mp hs'
    exact data_receive hok b.walks.inst r k.data
  | drain t n =>
    obtain ⟨s', hs', rfl⟩ := Option.map_eq_some_iff.mp hs
    obtain ⟨-, ⟨⟩⟩ := Option.ite_none_right_eq_some.mp hs'
    rfl

/-- The buffer of the slot is the one the code filled. -/
theorem handOver_eq (h : (walks N).Reachable b.view) (hok : BufsOk K b.bufs)
    (hs : walkStep N b.view mv = some w) : handOver K b w.inst mv = w.inst := by
  cases mv with
  | tx t choice =>
    obtain ⟨s', hs', rfl⟩ := Option.map_eq_some_iff.mp hs
    unfold handOver
    dsimp only
    split
    · rename_i ntx pkt hpc
      have hpc' : (b.view.inst.tx t).pc = .advance ntx pkt := hpc
      simp only [Stance.step, txStep, hpc', Option.some.injEq] at hs'
      have hmap : (slots (N.txZone t) (b.walks.inst.tx t).ring (b.walks.inst.tx t).ring.cur ntx).map
          (handedOver K b.walks.inst b.bufs t) =
          (slots (N.txZone t) (b.view.inst.tx t).ring (b.view.inst.tx t).ring.cur ntx).map b.view.inst.forwarded := by
        refine List.map_congr_left fun p hp => ?_
        have hslot := hok.slot p
        rw [walks_slots h hp] at hslot
        simp only [handedOver, ← hslot]
        rfl
      rw [hmap, ← hs']
      rfl
    · rfl
  | _ => rfl

theorem BufsOk.step (h : (walks N).Reachable b.view) (hok : BufsOk K b.bufs) (mv : Move R T D) :
    BufsOk K (touch K b.walks b.bufs mv) := by
  cases mv with
  | rx r choice =>
    simp only [touch]
    split
    · exact hok.consume r _ _
    · exact hok
  | tx t choice =>
    simp only [touch]
    split
    · rename_i ntx i p q hpc
      split
      · obtain ⟨hne, hq⟩ := walks_at_send (w := b.view) h hpc
        exact hok.transmit hne hq
      · exact hok
    · exact hok
  | receive r k => exact hok.receive b.walks.inst r k.data
  | drain t n => exact hok

theorem bufs_step (h : (walks N).Reachable b.view) (hok : BufsOk K b.bufs) (hs : bufStep K b mv = some b') :
    walkStep N b.view mv = some b'.view ∧ BufsOk K b'.bufs := by
  obtain ⟨w, hw, rfl⟩ := Option.map_eq_some_iff.mp hs
  refine ⟨?_, hok.step h mv⟩
  rw [hw, Buffered.view]
  dsimp only
  rw [touch_data h hok hw, handOver_eq h hok hw]

/-- However buffers change hands, what a packet points at is its slot's buffer
and nobody else's, and the threads, the kernel and the consumers see what they
would if packets carried their bytes. -/
theorem zero_copy (h : (buffered K).Reachable b) :
    BufsOk K b.bufs ∧ (walks N).Reachable b.view ∧
      ∃ s done, (machine N).Reachable s ∧ Ahead N s s.pkts done b.view := by
  have hsim : BufsOk K b.bufs ∧ (walks N).Reachable b.view := by
    apply h.induct
    · rintro b ⟨⟨s, hs, hview⟩, hok⟩
      exact ⟨hok, .init ⟨s, hs, hview⟩⟩
    · rintro b mv b' ⟨hok, hr⟩ hs
      obtain ⟨hstep, hok'⟩ := bufs_step hr hok hs
      exact ⟨hok', hr.next hstep⟩
  obtain ⟨hok, hr⟩ := hsim
  obtain ⟨s, hs, A, done, hinv, hahead⟩ := walk_simulation.reachable hr
  obtain rfl := hinv.pkts_eq
  exact ⟨hok, hr, s, done, hs, hahead⟩

/-- `small` with its packets named by ring and slot. -/
def smallRings : SinStance Unit Unit Unit (Bool × Fin 4) Nat where
  rxZone _ := ⟨4, four_fits, fun i => (false, ⟨i % 4, Nat.mod_lt i (by decide)⟩), fun p => p.2,
    fun _ hi => Nat.mod_eq_of_lt hi⟩
  few := .of_mem (fun _ i _ => List.mem_map_of_mem (List.mem_finRange ⟨i % 4, Nat.mod_lt i (by decide)⟩)) (by simp)
  txZone _ := ⟨4, four_fits, fun i => (true, ⟨i % 4, Nat.mod_lt i (by decide)⟩), fun p => p.2,
    fun _ hi => Nat.mod_eq_of_lt hi⟩
  myZone p := if p.1 then .inr () else .inl ()
  rx_pmap _ _ _ := rfl
  tx_pmap _ _ _ := rfl
  netmapFd _ := 3
  entries _ := [()]
  pktTaste _ _ f := f.1 % 2 = 0
  pktConsume _ c d := if c.isSome then d + 100 else d
  outq _ _ := ()

def smallPools : Pools smallRings where
  netmapBuf _ i := i.setWidth 64
  pool _ _ _ := rfl
  ofZone := by decide
  default _ _ := rfl

def smallBufs : Buffers (Bool × Fin 4) Nat where
  bufIdx p := .ofNat 32 (if p.1 then 4 + p.2.val else p.2.val)
  buf p := .ofNat 64 (if p.1 then 4 + p.2.val else p.2.val)
  mem _ := 0

def smallBuffered : Buffered Unit Unit Unit (Bool × Fin 4) Nat where
  walks := .between {
    rx _ := ⟨⟨4, 0, 0, 0⟩, .poll, .reset, fun _ => .reset⟩
    tx _ := ⟨⟨4, 0, 0, 3⟩, .ctor, .top, .reset, .reset, false⟩
    links _ := none
    flags _ := 0
    data _ := 0
    pktLen _ := 0
    slotLen _ := 0
    origin _ := ((), 0, 0)
    arrived _ := []
    sent _ := [] }
  bufs := smallBufs

theorem smallBufs_ok : BufsOk smallPools smallBufs := ⟨by decide, by decide⟩

theorem smallBuffered_start : Start smallRings smallBuffered.view.inst where
  rxRing | () => ⟨⟨by decide, by decide, by decide, by decide⟩, rfl, rfl⟩
  txRing | () => ⟨⟨by decide, by decide, by decide, by decide⟩, rfl, rfl⟩
  rx _ := ⟨rfl, rfl, fun _ => rfl⟩
  tx _ := ⟨rfl, rfl, rfl⟩
  links _ := rfl
  flags _ := rfl
  arrived _ := rfl
  sent _ := rfl

/-- A frame comes in and goes out again, rewritten. -/
def smallOne : List (Move Unit Unit Nat) :=
  [.receive () ⟨1, fun _ => 6, fun _ => 60⟩, .rx () true] ++ List.replicate 8 (.rx () false) ++
    List.replicate 7 (.tx () false)

/-- What was sent of the frame is in the buffer that came with it. -/
theorem zero_copy_forward : ∃ b : Buffered Unit Unit Unit (Bool × Fin 4) Nat,
    b.bufs.buf (true, 0) = smallBufs.buf (false, 0) ∧ (b.walks.inst.sent ()).map (·.placed) = [(106, 60)] ∧
      BufsOk smallPools b.bufs ∧ (walks smallRings).Reachable b.view ∧
        ∃ s done, (machine smallRings).Reachable s ∧ Ahead smallRings s s.pkts done b.view := by
  have hinit : (buffered smallPools).init smallBuffered := ⟨⟨_, smallBuffered_start, rfl⟩, smallBufs_ok⟩
  obtain ⟨b, hr, hp⟩ := Reachable.of_test (bufStep smallPools) smallOne
    (fun b => b.bufs.buf (true, 0) = smallBufs.buf (false, 0) ∧
      (b.walks.inst.sent ()).map (·.placed) = [(106, 60)]) hinit (by decide +kernel)
  obtain ⟨hbuf, hsent⟩ := of_decide_eq_true hp
  exact ⟨b, hbuf, hsent, zero_copy hr⟩

end Libsinet.Stance
