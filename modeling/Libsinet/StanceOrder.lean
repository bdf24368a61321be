import Libsinet.Base.Pipeline
import Libsinet.StanceOnePlace

/-!
# Forwarding in order

An instance is a sorting pipeline: its rings are the sources, their sorter
classes the keys and its tx threads the sinks. What the pipeline holds at each
stage is read off the packets on the lists, and a step of a thread or of the
kernel is one step of the pipeline or none.
-/

namespace Libsinet.Stance

open Machine NetmapRing Circular
open PktSorter (collect)

variable {R : Type u} {T : Type v} {E : Type w} {P : Type x} {D : Type y}

/-- A frame of a ring and what the consumer of class `c` makes of it. -/
def SinStance.consumed (N : SinStance R T E P D) (r : R) (c : Option E) (f : Frame D) : Forward R D :=
  ⟨r, f, (N.pktConsume r c f.1, f.2)⟩

def SinStance.item (N : SinStance R T E P D) (r : R) (f : Frame D) : Forward R D :=
  N.consumed r (N.classOf r f) f

def SinStance.routes (N : SinStance R T E P D) : Pipeline.Routes R (R × Option E) T (Forward R D) where
  key f := (f.ring, N.classOf f.ring f.received)
  source := Prod.fst
  sink k := N.outq k.1 k.2

/-- What a packet that a consumer has rewritten will be in its slot. -/
def State.item (s : State R T E P D) (p : P) : Forward R D := ⟨(s.origin p).1, (s.origin p).2, s.frame p⟩

def pendingPkts (N : SinStance R T E P D) (s : State R T E P D) (r : R) : List P :=
  let ring := (s.rx r).ring
  slots (N.rxZone r) ring ring.cur (dist ring.numSlots ring.cur ring.tail)

theorem State.pending_eq (N : SinStance R T E P D) (s : State R T E P D) (r : R) :
    s.pending N r = (pendingPkts N s r).map s.slotFrame := rfl

/-- The tx packets filled in the cycle, whose slots the kernel does not have yet. -/
def filled (N : SinStance R T E P D) (s : State R T E P D) (t : T) : List P :=
  let y := s.tx t
  slots (N.txZone t) y.ring y.ring.cur y.placed

/-- All that a tx thread has placed in its ring. -/
def State.placed (N : SinStance R T E P D) (s : State R T E P D) (t : T) : List (Forward R D) :=
  s.sent t ++ (filled N s t).map s.forwarded

-- ---------------------------------------------------------------------------
-- The pipeline
-- ---------------------------------------------------------------------------

def queued (N : SinStance R T E P D) (s : State R T E P D) (A : Place R T E → List P) (t : T) :
    List (Forward R D) :=
  (filled N s t).map s.forwarded ++ (A (.pktsOut t) ++ A (.outpktQueue t)).map s.item

def taken (N : SinStance R T E P D) (s : State R T E P D) (A : Place R T E → List P) (r : R) :
    List (Frame D) :=
  (A (.pktsIn r)).map s.frame ++ s.pending N r

/-- What an instance is as a pipeline, `A` being the nodes of its lists. -/
def abs (N : SinStance R T E P D) (s : State R T E P D) (A : Place R T E → List P) :
    Pipeline.State R (R × Option E) T (Forward R D) where
  arrived r := (s.arrived r).map (N.item r)
  input r := (taken N s A r).map (N.item r)
  held k := ((A (.wrklist k.1 k.2)).map s.frame).map (N.item k.1)
  queued := queued N s A
  sent := s.sent

variable [DecidableEq R] [DecidableEq T] [DecidableEq E] [DecidableEq P]
variable {N : SinStance R T E P D} {s s' : State R T E P D} {A A' : Place R T E → List P} {r : R} {t : T}
  {c : Option E} {x : RxThread E P} {y : TxThread P} {p q : P} {l l' : List P}

section

omit [DecidableEq R] [DecidableEq T] [DecidableEq E] [DecidableEq P]

theorem Inv.pending (h : Inv N s A) (hp : p ∈ pendingPkts N s r) :
    N.myZone p = .inl r ∧ (∀ k, p ∉ A k) ∧
      (s.rx r).ring.Between (s.rx r).ring.head ((N.rxZone r).zoneIdx p) (s.rx r).ring.tail := by
  have hring := (h.rx r).ring
  obtain ⟨k, hk, rfl, hlt⟩ := mem_slots hring.cur_lt hp
  have htail := hring.toInOrder.dist_tail
  have hhead := dist_lt hring.head_lt hring.tail_lt
  have hdist := dist_pos_add hring.head_lt hring.cur_lt (k := k) (by omega)
  have hsize := hlt.trans_eq (h.rx r).size
  have hb := hring.not_busy hlt (by omega)
  refine ⟨N.rx_pmap r _ hsize, h.lay.idle hsize hb, ?_⟩
  rw [(N.rxZone r).zoneIdx_pmap _ hsize]
  unfold Between
  omega

theorem Inv.filled_zone (h : Inv N s A) (hp : p ∈ filled N s t) : N.myZone p = .inr t := by
  obtain ⟨k, -, rfl, hlt⟩ := mem_slots (h.tx t).order.cur_lt hp
  exact N.tx_pmap t _ ((h.tx t).size ▸ hlt)

theorem Inv.list_zone (h : Inv N s A) {k : Place R T E} (hk : k.forRx = true) (hp : p ∈ A k) :
    ∃ r, N.myZone p = .inl r := by
  obtain ⟨r, i, hi, rfl⟩ := (h.lay.allowed k p hp).rx hk
  exact ⟨r, N.rx_pmap r i hi⟩

end

-- ---------------------------------------------------------------------------
-- Steps that leave the frames
-- ---------------------------------------------------------------------------

/-- A step that touches no frame and fills no slot. -/
structure Quiet (N : SinStance R T E P D) (s s' : State R T E P D) : Prop where
  frame : s'.frame = s.frame
  slotFrame : s'.slotFrame = s.slotFrame
  origin : s'.origin = s.origin
  arrived : s'.arrived = s.arrived
  sent : s'.sent = s.sent
  pending : ∀ r, pendingPkts N s' r = pendingPkts N s r
  filled : ∀ t, filled N s' t = filled N s t

omit [DecidableEq R] [DecidableEq T] [DecidableEq E] [DecidableEq P] in
theorem Quiet.abs (h : Quiet N s s') : abs N s' A = abs N s A := by
  have hitem : s'.item = s.item := by
    funext p
    simp only [State.item, h.frame, h.origin]
  have hforwarded : s'.forwarded = s.forwarded := by
    funext p
    simp only [State.forwarded, h.slotFrame, h.origin]
  have hqueued : queued N s' A = queued N s A := by
    funext t
    simp only [queued, h.filled, hitem, hforwarded]
  have htaken : ∀ r, taken N s' A r = taken N s A r := by
    intro r
    rw [taken, State.pending_eq, h.frame, h.slotFrame, h.pending]
    rfl
  simp only [Stance.abs, h.arrived, h.sent, htaken, h.frame, hqueued]

omit [DecidableEq T] [DecidableEq E] [DecidableEq P] in
theorem Quiet.setRx (hring : x.ring = { (s.rx r).ring with head := x.ring.head }) :
    Quiet N s (setRx s r x) := by
  refine ⟨rfl, rfl, rfl, rfl, rfl, fun r' => ?_, fun _ => rfl⟩
  rcases eq_or_ne r' r with rfl | hr
  · simp only [pendingPkts, Stance.setRx, Function.update_self]
    rw [hring]
    rfl
  · simp [pendingPkts, Stance.setRx, hr]

omit [DecidableEq R] [DecidableEq E] [DecidableEq P] in
theorem Quiet.setTx (hslots : slots (N.txZone t) y.ring y.ring.cur y.placed = Stance.filled N s t) :
    Quiet N s (setTx s t y) := by
  refine ⟨rfl, rfl, rfl, rfl, rfl, fun _ => rfl, fun t' => ?_⟩
  rcases eq_or_ne t' t with rfl | ht
  · exact Eq.trans (by simp [Stance.filled, Stance.setTx]) hslots
  · simp [Stance.filled, Stance.setTx, ht]

omit [DecidableEq R] [DecidableEq T] [DecidableEq E] [DecidableEq P] in
theorem Quiet.links (h : Quiet N s s') : Quiet N s { s' with links := m } :=
  ⟨h.frame, h.slotFrame, h.origin, h.arrived, h.sent, h.pending, h.filled⟩

omit [DecidableEq R] [DecidableEq T] [DecidableEq E] [DecidableEq P] in
theorem filled_eq (hring : y.ring = (s.tx t).ring) (hplaced : y.placed = (s.tx t).placed) :
    slots (N.txZone t) y.ring y.ring.cur y.placed = filled N s t := by
  simp [filled, hring, hplaced]

omit [DecidableEq T] in
theorem quiet_sortPkt (r : R) (n : Nat) (p : P) : Quiet N s (sortPkt N s r n p) := by
  refine ⟨rfl, rfl, rfl, rfl, rfl, fun r' => ?_, fun _ => rfl⟩
  rcases eq_or_ne r' r with rfl | hr
  · simp [pendingPkts, sortPkt, setRx, slots]
  · simp [pendingPkts, sortPkt, setRx, hr]

theorem quiet_putItems (r : R) (c : Option E) (todo : List (Option E)) :
    Quiet N s (putItems N s r c todo) := by
  refine ⟨rfl, rfl, rfl, rfl, rfl, fun r' => ?_, fun t => ?_⟩
  · rcases eq_or_ne r' r with rfl | hr
    · simp [pendingPkts, putItems, setRx, setTx, slots]
    · simp [pendingPkts, putItems, setRx, setTx, hr]
  · rcases eq_or_ne t (N.outq r c) with rfl | ht
    · simp [filled, putItems, setRx, setTx, slots, TxThread.placed]
    · simp [filled, putItems, setRx, setTx, ht]

omit [DecidableEq R] [DecidableEq E] in
theorem quiet_gotAll (hpc : AtGet (s.tx t) n) (queue : SinWiQueue P) :
    Quiet N s (Stance.gotAll s t n queue) := by
  refine ⟨rfl, rfl, rfl, rfl, rfl, fun _ => rfl, fun t' => ?_⟩
  rcases eq_or_ne t' t with rfl | ht
  · rcases hpc with hpc | hpc <;> simp [filled, gotAll, setTx, TxThread.placed, hpc, slots]
  · simp [filled, gotAll, setTx, ht]

omit [DecidableEq R] [DecidableEq E] [DecidableEq P] in
theorem quiet_drain : Quiet N s (Stance.drain s t n) := by
  refine ⟨rfl, rfl, rfl, rfl, rfl, fun _ => rfl, fun t' => ?_⟩
  rcases eq_or_ne t' t with rfl | ht
  · simp [filled, Stance.drain, setTx, slots, TxThread.placed]
  · simp [filled, Stance.drain, setTx, ht]

section

omit [DecidableEq P]

theorem abs_getpkt : abs N s (Function.update A (.pktsTx t) l) = abs N s A := by
  have hqueued : queued N s (Function.update A (.pktsTx t) l) = queued N s A := by
    funext t'
    simp [queued]
  simp [abs, taken, hqueued]

theorem abs_gotAll : abs N s (Function.update (Function.update A (.pktsOut t)
    (A (.pktsOut t) ++ A (.outpktQueue t))) (.outpktQueue t) []) = abs N s A := by
  have hqueued : queued N s (Function.update (Function.update A (.pktsOut t)
      (A (.pktsOut t) ++ A (.outpktQueue t))) (.outpktQueue t) []) = queued N s A := by
    funext t'
    rcases eq_or_ne t' t with rfl | ht
    · simp [queued]
    · simp [queued, ht]
  simp [abs, taken, hqueued]

theorem abs_sort (hA : A (.pktsIn r) = p :: l) :
    Pipeline.Step N.routes (abs N s A) (abs N s (Function.update (Function.update A (.pktsIn r) l)
      (.wrklist r (N.classOf r (s.frame p))) (A (.wrklist r (N.classOf r (s.frame p))) ++ [p]))) := by
  refine cast (congrArg _ ?_) (Pipeline.Step.sort (N := N.routes) (s := abs N s A) r
    (N.item r (s.frame p)) ((l.map s.frame ++ s.pending N r).map (N.item r)) (by simp [abs, taken, hA]))
  simp only [abs, Pipeline.State.mk.injEq, true_and, and_true]
  refine ⟨?_, ?_, ?_⟩
  · funext r'
    rcases eq_or_ne r' r with rfl | hr
    · simp [taken]
    · simp [taken, hr]
  · funext ⟨r', c'⟩
    rcases eq_or_ne (r', c') (r, N.classOf r (s.frame p)) with he | hne
    · cases he
      simp [SinStance.item, SinStance.consumed, SinStance.routes]
    · have hk : Place.wrklist r' c' ≠ (.wrklist r (N.classOf r (s.frame p)) : Place R T E) := by
        simpa using hne
      simp [SinStance.item, SinStance.consumed, SinStance.routes, hk, Function.update_of_ne hne]
  · funext t'
    simp [queued]

end

-- ---------------------------------------------------------------------------
-- Steps on frames
-- ---------------------------------------------------------------------------

omit [DecidableEq R] [DecidableEq T] [DecidableEq E] [DecidableEq P] in
theorem taken_congr (hA : A' (.pktsIn r) = A (.pktsIn r))
    (hframe : ∀ p ∈ A (.pktsIn r), s'.frame p = s.frame p)
    (hpkts : pendingPkts N s' r = pendingPkts N s r)
    (hslot : ∀ p ∈ pendingPkts N s r, s'.slotFrame p = s.slotFrame p) :
    taken N s' A' r = taken N s A r := by
  simp only [taken, State.pending_eq, hA, hpkts, List.map_congr_left hframe, List.map_congr_left hslot]

omit [DecidableEq R] [DecidableEq T] [DecidableEq E] [DecidableEq P] in
theorem queued_congr (hout : A' (.pktsOut t) = A (.pktsOut t))
    (hqueue : A' (.outpktQueue t) = A (.outpktQueue t)) (hpkts : filled N s' t = filled N s t)
    (hslot : ∀ p ∈ filled N s t, s'.forwarded p = s.forwarded p)
    (hitem : ∀ p ∈ A (.pktsOut t) ++ A (.outpktQueue t), s'.item p = s.item p) :
    queued N s' A' t = queued N s A t := by
  simp only [queued, hout, hqueue, hpkts, List.map_congr_left hslot, List.map_congr_left hitem]

/-- A frame taken from the ring keeps its place among those to be sorted. -/
theorem Inv.abs_dequeue (h : Inv N s A) (hne : nmRingEmpty (s.rx r).ring = false) :
    abs N (dequeuePkt N s r)
      (Function.update A (.pktsIn r) (A (.pktsIn r) ++ [(N.rxZone r).pmap (s.rx r).ring.cur])) =
      abs N s A := by
  have hring := (h.rx r).ring
  have hidle := h.lay.idle (h.cur_lt r) hring.cur_not_busy
  have hframe : ∀ k, ∀ p ∈ A k, (dequeuePkt N s r).frame p = s.frame p := by
    intro k p hp
    simp [State.frame, dequeuePkt, setRx, ne_of_mem_of_not_mem hp (hidle k)]
  have htaken : ∀ r', taken N (dequeuePkt N s r) (Function.update A (.pktsIn r)
      (A (.pktsIn r) ++ [(N.rxZone r).pmap (s.rx r).ring.cur])) r' = taken N s A r' := by
    intro r'
    rcases eq_or_ne r' r with rfl | hr
    · have hnext := dist_next_left hring.cur_lt hring.tail_lt (by simpa [nmRingEmpty] using hne)
      have hpending : pendingPkts N s r' = (N.rxZone r').pmap (s.rx r').ring.cur ::
          pendingPkts N (dequeuePkt N s r') r' := by
        rw [pendingPkts, ← hnext, slots_cons hring.cur_lt]
        simp [pendingPkts, dequeuePkt, setRx, slots, nmRingNext]
      have hlen : ((s.slotLen ((N.rxZone r').pmap (s.rx r').ring.cur)).setWidth 32).toNat =
          (s.slotLen ((N.rxZone r').pmap (s.rx r').ring.cur)).toNat :=
        BitVec.toNat_setWidth_of_le (by decide)
      simp only [taken, State.pending_eq, hpending, Function.update_self, List.map_append,
        List.map_congr_left (hframe _)]
      simp [State.frame, State.slotFrame, dequeuePkt, setRx, hlen]
    · refine taken_congr (by simp [hr]) (hframe _) ?_ fun _ _ => rfl
      simp [pendingPkts, dequeuePkt, setRx, hr]
  have hqueued : queued N (dequeuePkt N s r) (Function.update A (.pktsIn r)
      (A (.pktsIn r) ++ [(N.rxZone r).pmap (s.rx r).ring.cur])) = queued N s A := by
    funext t
    refine queued_congr (by simp) (by simp) rfl (fun _ _ => rfl) fun p hp => ?_
    have hp : (dequeuePkt N s r).frame p = s.frame p :=
      (List.mem_append.mp hp).elim (hframe _ p) (hframe _ p)
    rw [State.item, hp]
    rfl
  simp only [abs, htaken, hqueued]
  simp [List.map_congr_left (hframe _)]
  exact ⟨rfl, rfl⟩

omit [DecidableEq R] [DecidableEq T] [DecidableEq E] in
theorem Inv.rewrite_other (h : Inv N s A) (hp : p ∉ A (.wrklist r c)) :
    (Stance.rewrite N s r c).frame p = s.frame p ∧ (Stance.rewrite N s r c).slotFrame p = s.slotFrame p ∧
      (Stance.rewrite N s r c).origin p = s.origin p := by
  have hnodes : ((s.rx r).wrklist c).nodes s.links = A (.wrklist r c) := congrFun h.pkts_eq (.wrklist r c)
  simp [State.frame, State.slotFrame, Stance.rewrite, hnodes, hp]

omit [DecidableEq T] in
theorem Inv.rewrite_item (h : Inv N s A) (hok : Pipeline.Ok N.routes (abs N s A))
    (hp : p ∈ A (.wrklist r c)) : (Stance.rewrite N s r c).item p = N.item r (s.frame p) := by
  have hnodes : ((s.rx r).wrklist c).nodes s.links = A (.wrklist r c) := congrFun h.pkts_eq (.wrklist r c)
  -- the class of a frame is what its list says
  have hheld : N.item r (s.frame p) ∈ (abs N s A).held (r, c) :=
    List.mem_map_of_mem (List.mem_map_of_mem hp)
  have hc : N.classOf r (s.frame p) = c := congrArg Prod.snd (hok.held (r, c) _ hheld)
  have hframe : (Stance.rewrite N s r c).frame p = (N.pktConsume r c (s.data p), (s.pktLen p).toNat) := by
    simp [State.frame, Stance.rewrite, hnodes, hp]
  have horigin : (Stance.rewrite N s r c).origin p = (r, s.frame p) := by
    simp [Stance.rewrite, hnodes, hp]
  rw [State.item, hframe, horigin, SinStance.item, hc]
  rfl

/-- The packets of a work list are rewritten and go to the class's queue. -/
theorem Inv.abs_put (h : Inv N s A) (hok : Pipeline.Ok N.routes (abs N s A)) (r : R) (c : Option E) :
    Pipeline.Step N.routes (abs N s A) (abs N (Stance.rewrite N s r c) (Function.update
      (Function.update A (.outpktQueue (N.outq r c)) (A (.outpktQueue (N.outq r c)) ++ A (.wrklist r c)))
      (.wrklist r c) [])) := by
  have hother : ∀ k, k ≠ .wrklist r c → ∀ p ∈ A k, p ∉ A (.wrklist r c) :=
    fun k hk p hp hp' => hk (h.lay.sep.once p _ _ hp hp')
  have hitem : ∀ k, k ≠ .wrklist r c → ∀ p ∈ A k, (Stance.rewrite N s r c).item p = s.item p := by
    intro k hk p hp
    obtain ⟨hframe, -, horigin⟩ := h.rewrite_other (hother k hk p hp)
    simp only [State.item, hframe, horigin]
  have hfilled : ∀ t, ∀ p ∈ filled N s t, (Stance.rewrite N s r c).forwarded p = s.forwarded p := by
    intro t p hp
    have hp' : p ∉ A (.wrklist r c) := by
      intro hp'
      obtain ⟨r', hr'⟩ := h.list_zone (k := .wrklist r c) rfl hp'
      cases hr'.symm.trans (h.filled_zone hp)
    obtain ⟨-, hslot, horigin⟩ := h.rewrite_other hp'
    simp only [State.forwarded, hslot, horigin]
  have hpkts : ∀ r', pendingPkts N (Stance.rewrite N s r c) r' = pendingPkts N s r' := fun _ => rfl
  have hslots : ∀ t, filled N (Stance.rewrite N s r c) t = filled N s t := fun _ => rfl
  refine cast (congrArg _ ?_) (Pipeline.Step.put (N := N.routes) (s := abs N s A) (r, c))
  simp only [abs, Pipeline.State.mk.injEq]
  refine ⟨rfl, ?_, ?_, ?_, rfl⟩
  · funext r'
    refine congrArg _ (taken_congr ?_ (fun p hp => ?_) (hpkts r') fun p hp => ?_).symm
    · simp
    · exact (h.rewrite_other (hother _ (by simp) p hp)).1
    · exact (h.rewrite_other ((h.pending hp).2.1 _)).2.1
  · funext ⟨r', c'⟩
    rcases eq_or_ne (r', c') (r, c) with he | hne
    · cases he
      simp
    · have hk : Place.wrklist r' c' ≠ (.wrklist r c : Place R T E) := by simpa using hne
      have hmap := List.map_congr_left fun p hp => (h.rewrite_other (hother _ hk p hp)).1
      rw [Function.update_of_ne hne, Function.update_of_ne hk, Function.update_of_ne (by simp), hmap]
  · funext t
    rcases eq_or_ne t (N.outq r c) with rfl | ht
    · have hmap := List.map_congr_left fun p hp => h.rewrite_item (r := r) (c := c) hok hp
      have hmapOut := List.map_congr_left fun p hp => hitem (.pktsOut (N.outq r c)) (by simp) p hp
      have hmapQueue := List.map_congr_left fun p hp => hitem (.outpktQueue (N.outq r c)) (by simp) p hp
      have hmapFilled := List.map_congr_left (hfilled (N.outq r c))
      simp [queued, SinStance.routes, hmap, hmapOut, hmapQueue, hslots, hmapFilled, Function.comp_def]
    · refine (Function.update_of_ne ht ..).trans
        (queued_congr ?_ ?_ (hslots t) (hfilled t) fun p hp => ?_).symm
      · simp
      · simp [ht]
      · exact (List.mem_append.mp hp).elim (hitem _ (by simp) p) (hitem _ (by simp) p)

section

omit [DecidableEq R] [DecidableEq E]

theorem sendPkt_other (N : SinStance R T E P D) (s : State R T E P D) (t : T) (ntx i : Nat) {p' : P}
    (hp : p' ≠ p) (hq : p' ≠ q) :
    (sendPkt N s t ntx i p q).frame p' = s.frame p' ∧
      (sendPkt N s t ntx i p q).slotFrame p' = s.slotFrame p' ∧
      (sendPkt N s t ntx i p q).origin p' = s.origin p' := by
  simp only [State.frame, State.slotFrame, sendPkt, transmit, setTx]
  split <;> simp [hp, hq]

theorem sendPkt_item (N : SinStance R T E P D) (s : State R T E P D) (t : T) (ntx i : Nat) {p' : P}
    (hp : p' ≠ p) (hq : p' ≠ q) : (sendPkt N s t ntx i p q).item p' = s.item p' := by
  obtain ⟨hframe, -, horigin⟩ := sendPkt_other N s t ntx i hp hq
  simp only [State.item, hframe, horigin]

/-- The frame is in the slot, by either path, if the slot's `len` can hold its length. -/
theorem sendPkt_forwarded (N : SinStance R T E P D) (s : State R T E P D) (t : T) (ntx i : Nat) {p q : P}
    (hlen : (s.pktLen p).toNat < 2 ^ 16) : (sendPkt N s t ntx i p q).forwarded q = s.item p := by
  have hlen' : ((s.pktLen p).setWidth 16).toNat = (s.pktLen p).toNat := by
    rw [BitVec.toNat_setWidth, Nat.mod_eq_of_lt hlen]
  simp only [State.forwarded, State.item, State.slotFrame, State.frame, sendPkt, transmit, setTx]
  split <;> simp [hlen']

end

/-- The length of a packet in use is that of a slot. -/
def ShortBusy (s : State R T E P D) : Prop :=
  ∀ p, sinPktIsbusy (s.flags p) = true → (s.pktLen p).toNat < 2 ^ 16

omit [DecidableEq R] [DecidableEq T] [DecidableEq E] [DecidableEq P] in
theorem Inv.short (h : Inv N s A) (hlen : ShortBusy s) (hp : p ∈ A (.pktsOut t)) : (s.pktLen p).toNat < 2 ^ 16 :=
  hlen p ((h.lay.busy p).mpr ⟨.pktsOut t, rfl, hp⟩)

omit [DecidableEq T] [DecidableEq E] in
theorem ShortBusy.dequeue (h : ShortBusy s) : ShortBusy (dequeuePkt N s r) := by
  intro p hp
  rcases eq_or_ne p ((N.rxZone r).pmap (s.rx r).ring.cur) with rfl | hne
  · simp only [dequeuePkt, Function.update_self]
    rw [BitVec.toNat_setWidth_of_le (by decide)]
    exact BitVec.isLt _
  · simp only [dequeuePkt, Function.update_of_ne hne] at hp ⊢
    exact h p hp

omit [DecidableEq R] [DecidableEq E] in
theorem ShortBusy.send (h : ShortBusy s) : ShortBusy (sendPkt N s t ntx i p q) := by
  intro p' hp'
  have hne : p' ≠ p := by
    rintro rfl
    simp [sendPkt] at hp'
  simp only [sendPkt, transmit, setTx, Function.update_of_ne hne] at hp' ⊢
  rcases eq_or_ne p' q with rfl | hq
  · rw [Function.update_self, BitVec.toNat_setWidth_of_le (by decide)]
    exact BitVec.isLt _
  · rw [Function.update_of_ne hq]
    exact h p' hp'

omit [DecidableEq R] [DecidableEq T] [DecidableEq E] [DecidableEq P] in
theorem Start.short (h : Start N s) : ShortBusy s := by
  intro p hp
  simp [h.flags p] at hp

theorem StepTo.short (hs : StepTo N s A s' A') (h : ShortBusy s) : ShortBusy s' := by
  cases hs with
  | dequeue => exact h.dequeue
  | send => exact h.send
  | _ => exact h

theorem short_of_reachable (h : (machine N).Reachable s) : ShortBusy s := by
  refine ReachableBy.induct h (fun s => inv_of_reachable) (fun s => Start.short) ?_
  rintro s mv s' ⟨A, hinv⟩ hlen - hs
  obtain ⟨A', hto⟩ := hinv.step hs
  exact hto.short hlen

omit [DecidableEq R] [DecidableEq T] [DecidableEq E] [DecidableEq P] in
theorem Inv.sent_apart (h : Inv N s A) (hp : p ∈ A (.pktsOut t)) (hq : q ∈ A (.pktsTx t)) {k : Place R T E}
    (hk : k.forRx = true) (hne : k ≠ .pktsOut t) {p' : P} (hp' : p' ∈ A k) : p' ≠ p ∧ p' ≠ q := by
  constructor
  · rintro rfl
    exact hne (h.lay.sep.once p' _ _ hp' hp)
  · rintro rfl
    cases h.lay.sep.once p' _ _ hp' hq
    cases hk

omit [DecidableEq R] [DecidableEq E] in
theorem Inv.filled_send (h : Inv N s A) (hp : p ∈ A (.pktsOut t)) {t' : T} {p' : P} (hp' : p' ∈ filled N s t')
    (hq : p' ≠ q) : (sendPkt N s t ntx i p q).forwarded p' = s.forwarded p' := by
  have hne : p' ≠ p := by
    rintro rfl
    obtain ⟨r, hr⟩ := h.list_zone (k := .pktsOut t) rfl hp
    cases hr.symm.trans (h.filled_zone hp')
  obtain ⟨-, hslot, horigin⟩ := sendPkt_other N s t ntx i hne hq
  simp only [State.forwarded, hslot, horigin]

theorem Inv.taken_send (h : Inv N s A) (hp : p ∈ A (.pktsOut t)) (hq : q ∈ A (.pktsTx t)) (r : R) :
    taken N (sendPkt N s t ntx i p q) (Function.update (Function.update A (.pktsOut t) l) (.pktsTx t) l') r =
      taken N s A r := by
  refine taken_congr (by simp) (fun p' hp' => ?_) rfl fun p' hp' => ?_
  · obtain ⟨hne, hneq⟩ := h.sent_apart hp hq rfl (by simp) hp'
    exact (sendPkt_other N s t ntx i hne hneq).1
  · have hidle := (h.pending hp').2.1
    have hne : p' ≠ p := fun he => hidle _ (he ▸ hp)
    have hneq : p' ≠ q := fun he => hidle _ (he ▸ hq)
    exact (sendPkt_other N s t ntx i hne hneq).2.1

omit [DecidableEq R] [DecidableEq E] in
theorem Inv.filled_next (h : Inv N s A) (hpc : (s.tx t).pc = .send ntx i (some p) (some q)) (hlt : i < ntx)
    (htx : A (.pktsTx t) = q :: l') :
    filled N (sendPkt N s t ntx i p q) t = filled N s t ++ [q] ∧ q ∉ filled N s t := by
  have hold := h.tx t
  have hat := hold.pc
  rw [hpc] at hat
  obtain ⟨-, hntx, -, -, hslots⟩ := hat
  have hq : q = (N.txZone t).pmap (pos (s.tx t).ring.numSlots (s.tx t).ring.cur i) := by
    have hcons := (htx.symm.trans hslots).trans (drop_slots hlt)
    exact (List.cons.inj hcons).1
  have hplaced : (s.tx t).placed = i := by simp [TxThread.placed, hpc]
  constructor
  · rw [hq, filled, filled, hplaced, ← slots_succ]
    simp [sendPkt, setTx, transmit, TxThread.placed]
  · rw [hq, filled, hplaced]
    exact notMem_slots hold.size hold.order.cur_lt
      ((hlt.le.trans hntx).trans_lt (txRingNslots_lt hold.order))

theorem Inv.queued_send (h : Inv N s A) (hlen : ShortBusy s)
    (hpc : (s.tx t).pc = .send ntx i (some p) (some q)) (hlt : i < ntx) (hout : A (.pktsOut t) = p :: l)
    (htx : A (.pktsTx t) = q :: l') :
    queued N (sendPkt N s t ntx i p q) (Function.update (Function.update A (.pktsOut t) l) (.pktsTx t) l') =
      queued N s A := by
  have hp : p ∈ A (.pktsOut t) := hout ▸ List.mem_cons_self
  have hq : q ∈ A (.pktsTx t) := htx ▸ List.mem_cons_self
  have hitem : ∀ k, k.forRx = true → k ≠ .pktsOut t → ∀ p' ∈ A k,
      (sendPkt N s t ntx i p q).item p' = s.item p' := by
    intro k hk hne p' hp'
    obtain ⟨hne, hneq⟩ := h.sent_apart hp hq hk hne hp'
    exact sendPkt_item N s t ntx i hne hneq
  funext t'
  rcases eq_or_ne t' t with rfl | ht
  · obtain ⟨hnew, hnot⟩ := h.filled_next hpc hlt htx
    have hpl : p ∉ l := (List.nodup_cons.mp (hout ▸ h.lay.sep.nodup (.pktsOut t'))).1
    have hmap : l.map (sendPkt N s t' ntx i p q).item = l.map s.item := by
      refine List.map_congr_left fun p' hp' => sendPkt_item N s t' ntx i (ne_of_mem_of_not_mem hp' hpl) ?_
      rintro rfl
      cases h.lay.sep.once p' (.pktsOut t') _ (hout ▸ List.mem_cons_of_mem _ hp') hq
    have hmapQueue := List.map_congr_left (hitem (.outpktQueue t') rfl (by simp))
    have hfilled : ∀ p' ∈ filled N s t', (sendPkt N s t' ntx i p q).forwarded p' = s.forwarded p' :=
      fun p' hp' => h.filled_send hp hp' (ne_of_mem_of_not_mem hp' hnot)
    have hmapFilled := List.map_congr_left hfilled
    have hsent := sendPkt_forwarded N s t' ntx i (q := q) (h.short hlen hp)
    simp [queued, hnew, hout, hsent, hmap, hmapQueue, hmapFilled]
  · refine queued_congr (by simp [ht]) (by simp) ?_ (fun p' hp' => h.filled_send hp hp' ?_) fun p' hp' => ?_
    · simp [filled, sendPkt, setTx, transmit, ht]
    · rintro rfl
      obtain ⟨i', hi', rfl⟩ := h.lay.allowed _ _ hq
      cases (N.tx_pmap t i' hi').symm.trans (h.filled_zone hp')
      exact ht rfl
    · exact (List.mem_append.mp hp').elim (hitem _ rfl (by simpa using ht) p') (hitem _ rfl (by simp) p')

theorem Inv.abs_send (h : Inv N s A) (hlen : ShortBusy s)
    (hpc : (s.tx t).pc = .send ntx i (some p) (some q)) (hlt : i < ntx) (hout : A (.pktsOut t) = p :: l)
    (htx : A (.pktsTx t) = q :: l') :
    abs N (sendPkt N s t ntx i p q) (Function.update (Function.update A (.pktsOut t) l) (.pktsTx t) l') =
      abs N s A := by
  have hp : p ∈ A (.pktsOut t) := hout ▸ List.mem_cons_self
  have hq : q ∈ A (.pktsTx t) := htx ▸ List.mem_cons_self
  have hheld : ∀ r c, (A (.wrklist r c)).map (sendPkt N s t ntx i p q).frame =
      (A (.wrklist r c)).map s.frame := by
    intro r c
    refine List.map_congr_left fun p' hp' => ?_
    obtain ⟨hne, hneq⟩ := h.sent_apart hp hq rfl (by simp) hp'
    exact (sendPkt_other N s t ntx i hne hneq).1
  simp only [abs, h.taken_send hp hq, h.queued_send hlen hpc hlt hout htx]
  simp [hheld]
  exact ⟨rfl, rfl⟩

omit [DecidableEq P] in
theorem abs_advance (hpc : (s.tx t).pc = .advance ntx pkt) :
    Pipeline.Step N.routes (abs N s A) (abs N (advance N s t ntx pkt) A) := by
  refine cast (congrArg _ ?_) (Pipeline.Step.send (N := N.routes) (s := abs N s A) t
    ((filled N s t).map s.forwarded) ((A (.pktsOut t) ++ A (.outpktQueue t)).map s.item) rfl)
  have hfilled : filled N s t = slots (N.txZone t) (s.tx t).ring (s.tx t).ring.cur ntx := by
    simp [filled, TxThread.placed, hpc]
  simp only [abs, Pipeline.State.mk.injEq]
  refine ⟨rfl, rfl, rfl, ?_, ?_⟩
  · funext t'
    rcases eq_or_ne t' t with rfl | ht
    · simp [queued, filled, advance, setTx, TxThread.placed, slots]
      rfl
    · simp [queued, filled, advance, setTx, ht]
      rfl
  · rw [hfilled]
    rfl

-- ---------------------------------------------------------------------------
-- Frames from the kernel
-- ---------------------------------------------------------------------------

section

omit [DecidableEq R] [DecidableEq T] [DecidableEq E] [DecidableEq P]

theorem Inv.list_owned (h : Inv N s A) {k : Place R T E} (hk : k.forRx = true) (hp : p ∈ A k) :
    ¬ KernelOwns N s r p := by
  rintro ⟨hzone, hout⟩
  have hring := (h.rx r).ring
  obtain ⟨r', i, hi, rfl⟩ := (h.lay.allowed k p hp).rx hk
  cases (N.rx_pmap r' i hi).symm.trans hzone
  rw [(N.rxZone r).zoneIdx_pmap i hi] at hout
  have hb : busyAt N s.flags r i = true := (h.lay.busy _).mpr ⟨k, hk, hp⟩
  exact hout ((hring.busy_between i ((h.rx r).size ▸ hi) hb).trans_le hring.le)

theorem Inv.pending_owned (h : Inv N s A) {r' : R} (hp : p ∈ pendingPkts N s r') : ¬ KernelOwns N s r p := by
  rintro ⟨hzone, hout⟩
  obtain ⟨hzone', -, hbetween⟩ := h.pending hp
  cases hzone'.symm.trans hzone
  exact hout hbetween

theorem Inv.new_owned (h : Inv N s A) {tail : Nat} (ht : (s.rx r).ring.MayAdvanceTail tail)
    (hk : k < dist (s.rx r).ring.numSlots (s.rx r).ring.tail tail) :
    let i := pos (s.rx r).ring.numSlots (s.rx r).ring.tail k
    KernelOwns N s r ((N.rxZone r).pmap i) ∧ (N.rxZone r).zoneIdx ((N.rxZone r).pmap i) = i := by
  have hring := (h.rx r).ring
  have hlt : pos (s.rx r).ring.numSlots (s.rx r).ring.tail k < (N.rxZone r).numSlots :=
    (pos_lt hring.tail_lt).trans_eq (h.rx r).size
  have hidx := (N.rxZone r).zoneIdx_pmap _ hlt
  refine ⟨⟨N.rx_pmap r _ hlt, ?_⟩, hidx⟩
  rw [dist_sub hring.head_lt hring.tail_lt ht.1 ht.2] at hk
  have hround := dist_lt hring.head_lt ht.1
  have hdist := dist_pos_add hring.head_lt hring.tail_lt (k := k) (by omega)
  rw [hidx]
  unfold Between
  omega

end

omit [DecidableEq E] [DecidableEq P] in
theorem Inv.pendingPkts_receive (h : Inv N s A) {k : Received D} (hk : (s.rx r).ring.MayAdvanceTail k.tail) :
    pendingPkts N (Stance.receive N s r k) r = pendingPkts N s r ++
      slots (N.rxZone r) (s.rx r).ring (s.rx r).ring.tail
        (dist (s.rx r).ring.numSlots (s.rx r).ring.tail k.tail) := by
  have hring := (h.rx r).ring
  have hsum : dist (s.rx r).ring.numSlots (s.rx r).ring.cur k.tail =
      dist (s.rx r).ring.numSlots (s.rx r).ring.cur (s.rx r).ring.tail +
        dist (s.rx r).ring.numSlots (s.rx r).ring.tail k.tail := by
    have htail := hring.toInOrder.dist_tail
    have hnew := (hring.advanceTail hk).toInOrder.dist_tail
    have hsub := dist_sub hring.head_lt hring.tail_lt hk.1 hk.2
    have hle := hk.2
    dsimp only at hnew
    omega
  have hrecv : pendingPkts N (Stance.receive N s r k) r = slots (N.rxZone r) (s.rx r).ring (s.rx r).ring.cur
      (dist (s.rx r).ring.numSlots (s.rx r).ring.cur k.tail) := by
    simp [pendingPkts, Stance.receive, setRx, slots]
  rw [hrecv, hsum, slots_add, pos_dist hring.cur_lt hring.tail_lt]
  rfl

def newFrames (ring : NetmapRing) (k : Received D) : List (Frame D) :=
  (List.range (dist ring.numSlots ring.tail k.tail)).map fun j =>
    (k.data (pos ring.numSlots ring.tail j), (k.len (pos ring.numSlots ring.tail j)).toNat)

section

omit [DecidableEq E] [DecidableEq P]

theorem receive_other (r : R) (k : Received D) (hp : ¬ KernelOwns N s r p) :
    (Stance.receive N s r k).frame p = s.frame p ∧ (Stance.receive N s r k).slotFrame p = s.slotFrame p := by
  simp [State.frame, State.slotFrame, Stance.receive, setRx, hp]

theorem Inv.list_receive (h : Inv N s A) (r : R) (k : Received D) {i : Place R T E} (hi : i.forRx = true)
    (hp : p ∈ A i) : (Stance.receive N s r k).frame p = s.frame p :=
  (receive_other r k (h.list_owned hi hp)).1

theorem Inv.slots_receive (h : Inv N s A) {k : Received D} (hk : (s.rx r).ring.MayAdvanceTail k.tail) :
    (slots (N.rxZone r) (s.rx r).ring (s.rx r).ring.tail
      (dist (s.rx r).ring.numSlots (s.rx r).ring.tail k.tail)).map (Stance.receive N s r k).slotFrame =
      newFrames (s.rx r).ring k := by
  rw [slots, List.map_map]
  refine List.map_congr_left fun j hj => ?_
  obtain ⟨howns, hidx⟩ := h.new_owned hk (List.mem_range.mp hj)
  simp [State.slotFrame, Stance.receive, setRx, howns, hidx]

theorem Inv.taken_receive (h : Inv N s A) {k : Received D} (hk : (s.rx r).ring.MayAdvanceTail k.tail) :
    taken N (Stance.receive N s r k) A r = taken N s A r ++ newFrames (s.rx r).ring k := by
  have hmap := List.map_congr_left fun p hp => h.list_receive r k (i := .pktsIn r) rfl (p := p) hp
  have hmapSlot := List.map_congr_left fun p (hp : p ∈ pendingPkts N s r) =>
    (receive_other r k (h.pending_owned hp)).2
  simp only [taken, State.pending_eq, h.pendingPkts_receive hk, List.map_append, hmap, hmapSlot,
    h.slots_receive hk, List.append_assoc]

theorem Inv.taken_receive_other (h : Inv N s A) (k : Received D) {r' : R} (hr : r' ≠ r) :
    taken N (Stance.receive N s r k) A r' = taken N s A r' := by
  refine taken_congr rfl (fun p hp => h.list_receive r k rfl hp) ?_ fun p hp => ?_
  · simp [pendingPkts, Stance.receive, setRx, hr]
  · exact (receive_other r k (h.pending_owned hp)).2

theorem Inv.queued_receive (h : Inv N s A) (r : R) (k : Received D) :
    queued N (Stance.receive N s r k) A = queued N s A := by
  funext t
  refine queued_congr rfl rfl rfl (fun p hp => ?_) fun p hp => ?_
  · have howns : ¬ KernelOwns N s r p := by
      rintro ⟨hzone, -⟩
      cases (h.filled_zone hp).symm.trans hzone
    rw [State.forwarded, (receive_other r k howns).2]
    rfl
  · have hp' := (List.mem_append.mp hp).elim (fun hp => h.list_receive r k rfl hp)
      fun hp => h.list_receive r k rfl hp
    rw [State.item, hp']
    rfl

end

omit [DecidableEq P] in
theorem Inv.abs_receive (h : Inv N s A) {k : Received D} (hk : (s.rx r).ring.MayAdvanceTail k.tail) :
    Pipeline.Step N.routes (abs N s A) (abs N (Stance.receive N s r k) A) := by
  refine cast (congrArg _ ?_) (Pipeline.Step.arrive (N := N.routes) (s := abs N s A) r
    ((newFrames (s.rx r).ring k).map (N.item r)) ?_)
  · simp only [abs, Pipeline.State.mk.injEq]
    refine ⟨?_, ?_, ?_, (h.queued_receive r k).symm, rfl⟩
    · funext r'
      rcases eq_or_ne r' r with rfl | hr
      · simp [Stance.receive, newFrames]
      · simp [Stance.receive, hr]
    · funext r'
      rcases eq_or_ne r' r with rfl | hr
      · rw [Function.update_self, ← List.map_append, h.taken_receive hk]
      · exact (Function.update_of_ne hr ..).trans (congrArg _ (h.taken_receive_other k hr).symm)
    · exact funext fun x => congrArg _ (List.map_congr_left fun p hp => (h.list_receive r k rfl hp).symm)
  · intro i hi
    obtain ⟨f, -, rfl⟩ := List.mem_map.mp hi
    rfl

-- ---------------------------------------------------------------------------
-- Every run
-- ---------------------------------------------------------------------------

theorem StepTo.abs (hs : StepTo N s A s' A') (h : Inv N s A) (hlen : ShortBusy s)
    (hok : Pipeline.Ok N.routes (abs N s A)) :
    abs N s' A' = abs N s A ∨ Pipeline.Step N.routes (abs N s A) (abs N s' A') := by
  cases hs with
  | rx r x hin hwrk hok hring => exact .inl (Quiet.setRx hring).abs
  | dequeue r hpc hne => exact .inl (h.abs_dequeue hne)
  | sort r n p l hpc hA =>
    rw [(quiet_sortPkt r n p).abs]
    exact .inr (abs_sort hA)
  | put r c todo hpc hne =>
    rw [(quiet_putItems r c todo).abs]
    exact .inr (h.abs_put hok r c)
  | tx t y hqueue hout htx hok hring hplaced => exact .inl (Quiet.setTx (filled_eq hring hplaced)).abs
  | gotAll t n queue hpc hqueue hA =>
    rw [(quiet_gotAll hpc queue).abs]
    exact .inl abs_gotAll
  | getpkt t i y m hi hp hqueue hout htx hok hring hplaced =>
    have hquiet : Quiet N s { setTx s t y with links := m } := (Quiet.setTx (filled_eq hring hplaced)).links
    rw [hquiet.abs]
    exact .inl abs_getpkt
  | send t ntx i p q l l' hpc hlt hout htx => exact .inl (h.abs_send hlen hpc hlt hout htx)
  | advance t ntx pkt hpc => exact .inr (abs_advance hpc)
  | receive r k hk => exact .inr (h.abs_receive hk)
  | drain t n hn => exact .inl quiet_drain.abs

omit [DecidableEq R] [DecidableEq T] [DecidableEq E] [DecidableEq P] in
theorem Start.abs (h : Start N s) : Pipeline.Start N.routes (abs N s fun _ => []) := by
  refine ⟨?_, fun r i hi => ?_, fun _ => rfl, fun t => ?_, h.sent⟩
  · funext r
    simp [Stance.abs, taken, h.arrived r]
  · obtain ⟨f, -, rfl⟩ := List.mem_map.mp hi
    rfl
  · simp [Stance.abs, queued, filled, TxThread.placed, h.tx t, slots]

theorem reachable_abs (h : (machine N).Reachable s) :
    Inv N s s.pkts ∧ (Pipeline.machine N.routes).Reachable (abs N s s.pkts) := by
  suffices hex : ∃ A, Inv N s A ∧ (Pipeline.machine N.routes).Reachable (abs N s A) by
    obtain ⟨A, hinv, hr⟩ := hex
    rw [hinv.pkts_eq]
    exact ⟨hinv, hr⟩
  refine ReachableBy.induct (I := fun s => ∃ A, Inv N s A ∧ (Pipeline.machine N.routes).Reachable (abs N s A))
    h (fun s => short_of_reachable) (fun s h => ⟨_, h.inv, .init h.abs⟩) ?_
  rintro s mv s' hlen ⟨A, hinv, hr⟩ - hs
  obtain ⟨A', hto⟩ := hinv.step hs
  refine ⟨A', hinv.stepTo hto, ?_⟩
  rcases hto.abs hinv hlen (Pipeline.ok_of_reachable hr) with he | hstep
  · exact he ▸ hr
  · exact hr.next (a := ()) hstep

-- ---------------------------------------------------------------------------
-- The theorem
-- ---------------------------------------------------------------------------

def State.received (N : SinStance R T E P D) (s : State R T E P D) (r : R) (c : Option E) : List (Frame D) :=
  (s.arrived r).filter fun f => N.classOf r f = c

/-- The frames of a class that are not in a tx ring yet, the oldest first. -/
def State.onWay (N : SinStance R T E P D) (s : State R T E P D) (r : R) (c : Option E) : List (Forward R D) :=
  N.routes.only (r, c) ((s.pkts (.pktsOut (N.outq r c)) ++ s.pkts (.outpktQueue (N.outq r c))).map s.item) ++
    ((s.pkts (.wrklist r c)).map s.frame).map (N.item r) ++
    N.routes.only (r, c) (((s.pkts (.pktsIn r)).map s.frame ++ s.pending N r).map (N.item r))

omit [DecidableEq T] [DecidableEq P] in
theorem only_item (l : List (Frame D)) :
    N.routes.only (r, c) (l.map (N.item r)) = (l.filter fun f => N.classOf r f = c).map (N.consumed r c) := by
  induction l with
  | nil => rfl
  | cons f l ih =>
    rcases eq_or_ne (N.classOf r f) c with rfl | hc
    · have hkey : N.routes.key (N.item r f) = (r, N.classOf r f) := rfl
      rw [List.map_cons, Pipeline.only_cons_self hkey, ih]
      simp [SinStance.item]
    · have hkey : N.routes.key (N.item r f) ≠ (r, c) := fun he => hc (congrArg Prod.snd he)
      rw [List.map_cons, Pipeline.only_cons_other hkey, ih]
      simp [hc]

/-- What the tx thread of a class's queue has placed of it: the first frames
received, in order and rewritten once. The others are on their way, and no
other tx thread has placed any. -/
structure InArrivalOrder (N : SinStance R T E P D) (s : State R T E P D) (r : R) (c : Option E) : Prop where
  inOrder : N.routes.only (r, c) (s.placed N (N.outq r c)) <+: (s.received N r c).map (N.consumed r c)
  rest : N.routes.only (r, c) (s.placed N (N.outq r c)) ++ s.onWay N r c =
    (s.received N r c).map (N.consumed r c)
  elsewhere : ∀ t, t ≠ N.outq r c → N.routes.only (r, c) (s.placed N t) = []

theorem forwarded_in_order (h : (machine N).Reachable s) (r : R) (c : Option E) :
    InArrivalOrder N s r c := by
  obtain ⟨-, hr⟩ := reachable_abs h
  have hok := Pipeline.ok_of_reachable hr
  have hflow : N.routes.only (r, c) (s.placed N (N.outq r c)) ++ s.onWay N r c =
      (s.received N r c).map (N.consumed r c) := by
    refine Eq.trans ?_ ((hok.flow (r, c)).trans (only_item _))
    simp only [State.placed, State.onWay, abs, Pipeline.State.onWay, queued, taken, Pipeline.only_append,
      List.append_assoc]
    rfl
  refine ⟨⟨_, hflow⟩, hflow, fun t ht => ?_⟩
  have hqueued : N.routes.only (r, c) (queued N s s.pkts t) = [] :=
    Pipeline.only_other fun i hi he => ht ((hok.queued t i hi).symm.trans (congrArg N.routes.sink he))
  rw [queued, Pipeline.only_append] at hqueued
  have hsent : N.routes.only (r, c) (s.sent t) = [] := hok.only_sent ht.symm
  rw [State.placed, Pipeline.only_append, hsent, (List.append_eq_nil_iff.mp hqueued).1]
  rfl

/-- Two frames of the even class are sent, and a third one waits in its slot. -/
def smallForward : List (Move Unit Unit Nat) :=
  [.receive () ⟨2, fun i => 6 + 2 * i, fun _ => 60⟩] ++ List.replicate 8 (.rx () true) ++
    [.receive () ⟨3, fun i => 6 + 2 * i, fun _ => 60⟩] ++ List.replicate 9 (.tx () true)

theorem forwarded_in_order_two :
    ∃ s : State Unit Unit Unit Nat Nat, InArrivalOrder small s () (some ()) ∧
      s.placed small () = [⟨(), (6, 60), (106, 60)⟩, ⟨(), (8, 60), (108, 60)⟩] ∧
      s.received small () (some ()) = [(6, 60), (8, 60), (10, 60)] := by
  obtain ⟨s, hr, hp⟩ := Reachable.of_test (step small) smallForward
    (fun s => s.placed small () = [⟨(), (6, 60), (106, 60)⟩, ⟨(), (8, 60), (108, 60)⟩] ∧
      s.received small () (some ()) = [(6, 60), (8, 60), (10, 60)])
    small_start (by decide)
  exact ⟨s, forwarded_in_order hr () (some ()), of_decide_eq_true hp⟩

end Libsinet.Stance
