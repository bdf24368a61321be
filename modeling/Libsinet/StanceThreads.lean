import Libsinet.StanceLists

/-!
# The threads of an instance and their lists

What holds of the lists together with where each thread is, and what one step
of each kind makes of it. The lists are given by their nodes `A`, and each step
lemma says what becomes of them.
-/

namespace Libsinet.Stance

open Machine NetmapRing Circular
open PktSorter (collect)

variable {R : Type u} {T : Type v} {E : Type w} {P : Type x} {D : Type y}
variable [DecidableEq R] [DecidableEq T] [DecidableEq E] [DecidableEq P]

def busyAt (N : SinStance R T E P D) (flags : P → Flags) (r : R) (i : Nat) : Bool :=
  sinPktIsbusy (flags ((N.rxZone r).pmap i))

structure RxOk (N : SinStance R T E P D) (flags : P → Flags) (r : R) (x : RxThread E P) : Prop where
  size : x.ring.numSlots = (N.rxZone r).numSlots
  ring : RingOk x.ring (busyAt N flags r)
  scan : ∀ nh, x.pc = .spin nh → ScanOk x.ring (busyAt N flags r) nh

/-- The slots of a cycle stay free until the thread advances its ring, and
`pkts_tx` is those of them that were not filled yet. -/
def TxAt (zone : SinPktZone P) (y : TxThread P) (out tx : List P) : TxPc P → Prop
  | .getItems aslots => 0 < aslots ∧ aslots ≤ txRingNslots y.ring
  | .waiting aslots => 0 < aslots ∧ aslots ≤ txRingNslots y.ring
  | .start aslots => 0 < aslots ∧ aslots ≤ txRingNslots y.ring
  | .getpkts ntx left curidx => 0 < left ∧ left ≤ ntx ∧ ntx ≤ txRingNslots y.ring ∧
      ntx ≤ out.length ∧ curidx = pos y.ring.numSlots y.ring.cur (ntx - left) ∧
      tx = slots zone y.ring y.ring.cur (ntx - left + 1)
  | .send ntx i _ _ => i ≤ ntx ∧ ntx ≤ txRingNslots y.ring ∧ ntx ≤ out.length + i ∧
      out.length + i = y.pktsOut.len.toNat ∧ tx = (slots zone y.ring y.ring.cur ntx).drop i
  | .advance ntx _ => ntx ≤ txRingNslots y.ring ∧ out.length + ntx = y.pktsOut.len.toNat
  | _ => True

structure TxOk (N : SinStance R T E P D) (t : T) (y : TxThread P) (out tx : List P) : Prop where
  size : y.ring.numSlots = (N.txZone t).numSlots
  order : y.ring.InOrder
  cur : y.ring.cur = y.ring.head
  pc : TxAt (N.txZone t) y out tx y.pc

structure Inv (N : SinStance R T E P D) (s : State R T E P D) (A : Place R T E → List P) : Prop where
  lay : Layout N s.links s.flags s.list A
  rx : ∀ r, RxOk N s.flags r (s.rx r)
  tx : ∀ t, TxOk N t (s.tx t) (A (.pktsOut t)) (A (.pktsTx t))

variable {N : SinStance R T E P D} {s s' : State R T E P D} {A : Place R T E → List P} {r : R} {t : T}
  {c : Option E} {x : RxThread E P} {y : TxThread P} {m : Links P} {p q : P} {l : List P}

omit [DecidableEq R] [DecidableEq T] [DecidableEq E] [DecidableEq P] in
theorem RxOk.mono {flags flags' : P → Flags} (h : RxOk N flags r x)
    (hb : ∀ i < (N.rxZone r).numSlots, busyAt N flags' r i = true → busyAt N flags r i = true) :
    RxOk N flags' r x :=
  ⟨h.size, h.ring.mono fun i hi => hb i (h.size ▸ hi),
    fun nh hs => (h.scan nh hs).mono fun i hi => hb i (h.size ▸ hi)⟩

omit [DecidableEq R] [DecidableEq T] [DecidableEq E] [DecidableEq P] in
theorem Inv.cur_lt (h : Inv N s A) (r : R) : (s.rx r).ring.cur < (N.rxZone r).numSlots :=
  (h.rx r).size ▸ (h.rx r).ring.cur_lt

omit [DecidableEq T] [DecidableEq E] [DecidableEq P] in
theorem forall_setRx {p : R → RxThread E P → Prop} (h : ∀ r, p r (s.rx r)) (hx : p r x) :
    ∀ r', p r' ((setRx s r x).rx r') := by
  simp only [setRx]
  rw [Function.forall_update_iff s.rx p]
  exact ⟨hx, fun r' _ => h r'⟩

-- ---------------------------------------------------------------------------
-- Steps that move no packet
-- ---------------------------------------------------------------------------

omit [DecidableEq P] in
theorem Inv.rx_quiet (h : Inv N s A) (hin : x.inList = (s.rx r).inList)
    (hwrk : x.wrklist = (s.rx r).wrklist) (hx : RxOk N s.flags r x) : Inv N (setRx s r x) A := by
  refine ⟨?_, forall_setRx h.rx hx, h.tx⟩
  have hlist : (setRx s r x).list = s.list := by
    refine Eq.trans (list_rx_in (s := s) rfl rfl hwrk) ?_
    rw [hin]
    exact Function.update_eq_self (f := s.list) (.pktsIn r)
  exact hlist ▸ h.lay

omit [DecidableEq P] in
theorem Inv.tx_quiet (h : Inv N s A) (hqueue : y.queue.items = (s.tx t).queue.items)
    (hout : y.outList = (s.tx t).outList) (htx : y.txList = (s.tx t).txList)
    (hy : TxOk N t y (A (.pktsOut t)) (A (.pktsTx t))) : Inv N (setTx s t y) A := by
  refine ⟨?_, h.rx, fun t' => ?_⟩
  · have hlist : (setTx s t y).list = s.list := by
      refine Eq.trans (list_tx_keep (s := s) rfl rfl hqueue) ?_
      rw [hout, htx]
      funext k
      cases k <;> simp [Function.update_apply, State.list] <;> rintro rfl <;> rfl
    exact hlist ▸ h.lay
  · rcases eq_or_ne t' t with rfl | ht
    · simpa [setTx] using hy
    · simpa [setTx, ht] using h.tx t'

-- ---------------------------------------------------------------------------
-- The rx thread
-- ---------------------------------------------------------------------------

theorem Inv.dequeue (h : Inv N s A) (hpc : (s.rx r).pc = .dequeue)
    (hne : nmRingEmpty (s.rx r).ring = false) :
    Inv N (dequeuePkt N s r)
      (Function.update A (.pktsIn r) (A (.pktsIn r) ++ [(N.rxZone r).pmap (s.rx r).ring.cur])) := by
  have hring := (h.rx r).ring
  have hin : s.list (.pktsIn r) = (s.rx r).pktsIn := by simp [State.list, RxThread.inList, hpc]
  refine ⟨?_, fun r' => ?_, fun t => by simpa [dequeuePkt, setRx] using h.tx t⟩
  · have hlay := h.lay.dequeue r (h.cur_lt r) hring.cur_not_busy
    rw [hin] at hlay
    have hlist : (dequeuePkt N s r).list = Function.update s.list (.pktsIn r)
        (sinListAppend s.links (s.rx r).pktsIn ((N.rxZone r).pmap (s.rx r).ring.cur)).2 := by
      refine Eq.trans (list_rx_in (s := s) (r := r) rfl rfl rfl) ?_
      simp [RxThread.inList, hpc]
    rw [hlist]
    exact hlay
  · have hbusy : ∀ i < (N.rxZone r').numSlots, busyAt N (dequeuePkt N s r).flags r' i = true →
        (r' = r ∧ i = (s.rx r).ring.cur) ∨ busyAt N s.flags r' i = true := by
      intro i hi hb
      rcases eq_or_ne ((N.rxZone r').pmap i) ((N.rxZone r).pmap (s.rx r).ring.cur) with he | he
      · have hz := N.rx_pmap r' i hi
        rw [he, N.rx_pmap r _ (h.cur_lt r)] at hz
        cases hz
        exact .inl ⟨rfl, (N.rxZone r).pmap_inj hi (h.cur_lt r) he⟩
      · exact .inr (by simpa [busyAt, dequeuePkt, setRx, he] using hb)
    rcases eq_or_ne r' r with rfl | hr
    · simp only [dequeuePkt, setRx, Function.update_self]
      refine ⟨(h.rx r').size, hring.advanceCur hne fun i hi hb => ?_, fun nh hs => ?_⟩
      · exact (hbusy i ((h.rx r').size ▸ hi) hb).imp And.right id
      · cases hpc.symm.trans hs
    · have hsame : (dequeuePkt N s r).rx r' = s.rx r' := by simp [dequeuePkt, setRx, hr]
      rw [hsame]
      exact (h.rx r').mono fun i hi hb => (hbusy i hi hb).resolve_left fun he => hr he.1

theorem Inv.sort (h : Inv N s A) (hpc : (s.rx r).pc = .scan n (some p)) (hA : A (.pktsIn r) = p :: l) :
    Inv N (sortPkt N s r n p)
      (Function.update (Function.update A (.pktsIn r) l) (.wrklist r (N.classOf r (s.frame p)))
        (A (.wrklist r (N.classOf r (s.frame p))) ++ [p])) := by
  have hin : s.list (.pktsIn r) = pktsLeft (s.rx r).pktsIn (some p) n := by
    simp [State.list, RxThread.inList, hpc]
  have hholds : (pktsLeft (s.rx r).pktsIn (some p) n).Holds s.links (p :: l) :=
    hin ▸ hA ▸ h.lay.sep.holds (.pktsIn r)
  have hall : Allowed N (.pktsIn r) p := h.lay.allowed _ _ (hA ▸ List.mem_cons_self)
  refine ⟨?_, forall_setRx h.rx ⟨(h.rx r).size, (h.rx r).ring, by simp⟩,
    fun t => by simpa [sortPkt, setRx] using h.tx t⟩
  have hmove := h.lay.move (k := .wrklist r (N.classOf r (s.frame p))) (by simp) rfl rfl hA
    (pktsLeft_next hholds) hall
  have hlist : (sortPkt N s r n p).list = _ := list_rx (s := s) (r := r) rfl rfl rfl
  rw [hlist]
  exact hmove

omit [DecidableEq P] in
theorem list_setTx_queue (queue : SinWiQueue P) (signalled : Bool) :
    (setTx s t { s.tx t with queue, signalled }).list = Function.update s.list (.outpktQueue t) queue.items := by
  refine Eq.trans (list_tx (s := s) rfl rfl) ?_
  funext k
  cases k <;> simp [Function.update_apply, State.list] <;> rintro rfl <;> rfl

theorem Inv.put (h : Inv N s A) (hpc : (s.rx r).pc = .flush (c :: todo))
    (hne : ((s.rx r).wrklist c).isEmpty = false) :
    Inv N (putItems N s r c todo) (Function.update (Function.update A (.outpktQueue (N.outq r c))
      (A (.outpktQueue (N.outq r c)) ++ A (.wrklist r c))) (.wrklist r c) []) := by
  have hA : A (.wrklist r c) ≠ [] := by
    intro he
    have hempty := (h.lay.sep.holds (.wrklist r c)).isEmpty_iff.mpr he
    exact Bool.false_ne_true (hne.symm.trans hempty)
  obtain ⟨hlinks, hitems⟩ :=
    @sinWiQueuePutItems_splice P _ s.links (s.tx (N.outq r c)).queue ((s.rx r).wrklist c)
  refine ⟨?_, forall_setRx h.rx ⟨(h.rx r).size, (h.rx r).ring, by simp⟩, fun t => ?_⟩
  · have hsplice := h.lay.splice (j := .wrklist r c) (k := .outpktQueue (N.outq r c)) (by simp) rfl rfl
      hA fun p hp => ⟨r, h.lay.allowed _ p hp⟩
    have hin : s.list (.pktsIn r) = .reset := by simp [State.list, RxThread.inList, hpc]
    have hlist : (putItems N s r c todo).list = Function.update (Function.update s.list
        (.outpktQueue (N.outq r c)) (sinWiQueuePutItems s.links ((s.rx r).wrklist c)
          (s.tx (N.outq r c)).queue).queue.items) (.wrklist r c) .reset := by
      refine Eq.trans (list_rx (s := setTx s _ _) (r := r) rfl rfl rfl) ?_
      rw [list_setTx_queue]
      congr 1
      refine Eq.trans ?_ (Function.update_eq_self (.pktsIn r) _)
      simp [RxThread.inList, hin]
    have hm : (putItems N s r c todo).links =
        (splice s.links (s.tx (N.outq r c)).queue.items ((s.rx r).wrklist c)).1 := hlinks
    rw [hlist, hitems, hm]
    exact hsplice
  · rcases eq_or_ne t (N.outq r c) with rfl | ht
    · have hold := h.tx (N.outq r c)
      have hy : ∀ queue signalled, TxOk N (N.outq r c) { s.tx (N.outq r c) with queue, signalled }
          (A (.pktsOut (N.outq r c))) (A (.pktsTx (N.outq r c))) :=
        fun _ _ => ⟨hold.size, hold.order, hold.cur, hold.pc⟩
      simpa [putItems, setRx, setTx] using hy _ _
    · simpa [putItems, setRx, setTx, ht] using h.tx t

-- ---------------------------------------------------------------------------
-- The tx thread
-- ---------------------------------------------------------------------------

def AtGet (y : TxThread P) (aslots : Nat) : Prop := y.pc = .getItems aslots ∨ y.pc = .waiting aslots

omit [DecidableEq R] [DecidableEq T] [DecidableEq E] [DecidableEq P] in
theorem Inv.at_get (h : Inv N s A) (hpc : AtGet (s.tx t) n) :
    (0 < n ∧ n ≤ txRingNslots (s.tx t).ring) ∧ (s.tx t).outList = (s.tx t).pktsOut ∧
      (s.tx t).txList = .reset := by
  have hat := (h.tx t).pc
  rcases hpc with hpc | hpc <;> rw [hpc] at hat <;>
    exact ⟨hat, by simp [TxThread.outList, hpc], by simp [TxThread.txList, hpc]⟩

/-- After `sin_wi_queue_get_items` took all that was queued. -/
def gotAll (s : State R T E P D) (t : T) (n : Nat) (queue : SinWiQueue P) : State R T E P D :=
  let y := s.tx t
  let got := splice s.links y.pktsOut y.queue.items
  { setTx s t { y with queue, pktsOut := got.2, pc := .start n, signalled := false } with links := got.1 }

theorem Inv.gotAll (h : Inv N s A) (hpc : AtGet (s.tx t) n) {queue : SinWiQueue P}
    (hqueue : queue.items = .reset) (hA : A (.outpktQueue t) ≠ []) :
    Inv N (gotAll s t n queue) (Function.update (Function.update A (.pktsOut t)
      (A (.pktsOut t) ++ A (.outpktQueue t))) (.outpktQueue t) []) := by
  obtain ⟨hn, hout, htx⟩ := h.at_get hpc
  have hold := h.tx t
  have hsplice := h.lay.splice (j := .outpktQueue t) (k := .pktsOut t) (by simp) rfl rfl hA
    fun p hp => h.lay.allowed (.outpktQueue t) p hp
  have hlout : s.list (.pktsOut t) = (s.tx t).pktsOut := hout
  have hlqueue : s.list (.outpktQueue t) = (s.tx t).queue.items := rfl
  have hltx : s.list (.pktsTx t) = .reset := htx
  rw [hlout, hlqueue] at hsplice
  refine ⟨Eq.mpr (congrArg (Layout N _ _ · _) ?_) hsplice, h.rx, fun t' => ?_⟩
  · refine Eq.trans (list_tx (s := s) rfl rfl) ?_
    funext k
    cases k with
    | pktsTx t' => rcases eq_or_ne t' t with rfl | ht <;> simp [TxThread.txList, *]
    | _ => simp [Function.update_apply, TxThread.outList, hqueue]
  · rcases eq_or_ne t' t with rfl | ht
    · have hy : ∀ pktsOut out tx,
          TxOk N t' { s.tx t' with queue, pktsOut, pc := .start n, signalled := false } out tx :=
        fun _ _ _ => ⟨hold.size, hold.order, hold.cur, hn⟩
      simpa [Stance.gotAll, setTx] using hy _ _ _
    · simpa [Stance.gotAll, setTx, ht] using h.tx t'

theorem Inv.getpkt (h : Inv N s A) (hi : i < (N.txZone t).numSlots)
    (hp : (N.txZone t).pmap i ∉ A (.pktsTx t)) (hqueue : y.queue = (s.tx t).queue)
    (hout : y.outList = (s.tx t).outList)
    (htx : sinListAppend s.links (s.tx t).txList ((N.txZone t).pmap i) = (m, y.txList))
    (hy : TxOk N t y (A (.pktsOut t)) (A (.pktsTx t) ++ [(N.txZone t).pmap i])) :
    Inv N { setTx s t y with links := m }
      (Function.update A (.pktsTx t) (A (.pktsTx t) ++ [(N.txZone t).pmap i])) := by
  have hget := h.lay.getpkt t hi hp
  have hltx : s.list (.pktsTx t) = (s.tx t).txList := rfl
  simp only [hltx, htx] at hget
  refine ⟨Eq.mpr (congrArg (Layout N _ _ · _) ?_) hget, h.rx, fun t' => ?_⟩
  · refine Eq.trans (list_tx_keep (s := s) rfl rfl (congrArg _ hqueue)) ?_
    rw [hout]
    congr 1
    exact Function.update_eq_self (f := s.list) (.pktsOut t)
  · rcases eq_or_ne t' t with rfl | ht
    · simpa [setTx] using hy
    · simpa [setTx, ht] using h.tx t'

theorem Inv.send (h : Inv N s A) (hpc : (s.tx t).pc = .send ntx i (some p) (some q)) (hlt : i < ntx)
    (hout : A (.pktsOut t) = p :: l) (htx : A (.pktsTx t) = q :: l') :
    Inv N (sendPkt N s t ntx i p q)
      (Function.update (Function.update A (.pktsOut t) l) (.pktsTx t) l') := by
  have hlout : s.list (.pktsOut t) = pktsLeft (s.tx t).pktsOut (some p) i := by
    simp [State.list, TxThread.outList, hpc]
  have hltx : s.list (.pktsTx t) = pktsLeft (s.tx t).pktsTx (some q) i := by
    simp [State.list, TxThread.txList, hpc]
  have hX := pktsLeft_next (hout ▸ hlout ▸ h.lay.sep.holds (.pktsOut t))
  have hpop := (h.lay.sep.pop hout hX).holds (.pktsTx t)
  simp only [ne_eq, reduceCtorEq, not_false_eq_true, Function.update_of_ne, htx, hltx] at hpop
  have hsend := h.lay.send hout htx hX (pktsLeft_next hpop)
  have hold := h.tx t
  refine ⟨Eq.mpr (congrArg (Layout N _ _ · _) ?_) hsend, fun r => ?_, fun t' => ?_⟩
  · exact list_tx_keep (s := s) (t := t) (y := { s.tx t with
      pc := .send ntx (i + 1) (s.links p) (Function.update s.links p none q) }) rfl rfl rfl
  · refine (h.rx r).mono fun k _ hb => ?_
    rcases eq_or_ne ((N.rxZone r).pmap k) p with he | he
    · simp [busyAt, sendPkt, setTx, he] at hb
    · simpa [busyAt, sendPkt, setTx, transmit, he] using hb
  · rcases eq_or_ne t' t with rfl | ht
    · have hat := hold.pc
      rw [hpc, hout, htx] at hat
      obtain ⟨-, hn, hlen, hlen', hslots⟩ := hat
      have hl' : l' = (slots (N.txZone t') (s.tx t').ring (s.tx t').ring.cur ntx).drop (i + 1) := by
        rw [← List.tail_drop, ← hslots]
        rfl
      have hsucc : l.length + (i + 1) = (p :: l).length + i := by
        simp only [List.length_cons]
        omega
      have hy : ∀ pkt pktTx, TxOk N t' { s.tx t' with pc := .send ntx (i + 1) pkt pktTx } l l' :=
        fun _ _ => ⟨hold.size, hold.order, hold.cur, hlt, hn, hsucc ▸ hlen, hsucc ▸ hlen', hl'⟩
      simpa [sendPkt, setTx, transmit] using hy _ _
    · simpa [sendPkt, setTx, transmit, ht] using h.tx t'

omit [DecidableEq P] in
theorem Inv.advance (h : Inv N s A) (hpc : (s.tx t).pc = .advance ntx pkt) :
    Inv N (advance N s t ntx pkt) A := by
  have hold := h.tx t
  have hquiet := h.tx_quiet (t := t) (y := { s.tx t with
    ring := advanceTxRing (s.tx t).ring ntx
    pktsOut := pktsLeft (s.tx t).pktsOut pkt ntx
    pc := .checkCtrl }) rfl (by simp [TxThread.outList, hpc]) (by simp [TxThread.txList, hpc])
    ⟨hold.size, advanceTxRing_order hold.order ntx, rfl, trivial⟩
  exact ⟨hquiet.lay, hquiet.rx, hquiet.tx⟩

-- ---------------------------------------------------------------------------
-- The kernel
-- ---------------------------------------------------------------------------

omit [DecidableEq P] in
theorem Inv.receive (h : Inv N s A) {k : Received D} (hk : (s.rx r).ring.MayAdvanceTail k.tail) :
    Inv N (receive N s r k) A := by
  have hold := h.rx r
  have hquiet := h.rx_quiet (x := { s.rx r with ring := { (s.rx r).ring with tail := k.tail } }) rfl rfl
    ⟨hold.size, hold.ring.advanceTail hk, fun nh hs => (hold.scan nh hs).advanceTail⟩
  exact ⟨hquiet.lay, hquiet.rx, hquiet.tx⟩

omit [DecidableEq R] [DecidableEq T] [DecidableEq E] [DecidableEq P] in
theorem TxOk.drain {n : Nat} (h : TxOk N t y l l') (hn : y.ring.MayAdvanceTail n) :
    TxOk N t { y with ring := { y.ring with tail := n } } l l' := by
  have hslots : txRingNslots y.ring ≤ txRingNslots { y.ring with tail := n } := by
    rw [txRingNslots_eq, txRingNslots_eq]
    simpa [h.cur] using hn.2
  refine ⟨h.size, h.order.advanceTail hn, h.cur, ?_⟩
  have hat := h.pc
  revert hat
  show TxAt _ y l l' y.pc → TxAt _ _ l l' y.pc
  cases y.pc with
  | getItems aslots => exact fun hat => ⟨hat.1, hat.2.trans hslots⟩
  | waiting aslots => exact fun hat => ⟨hat.1, hat.2.trans hslots⟩
  | start aslots => exact fun hat => ⟨hat.1, hat.2.trans hslots⟩
  | getpkts ntx left curidx =>
    exact fun ⟨hpos, hleft, hntx, hrest⟩ => ⟨hpos, hleft, hntx.trans hslots, hrest⟩
  | send ntx i pkt pktTx => exact fun ⟨hi, hntx, hrest⟩ => ⟨hi, hntx.trans hslots, hrest⟩
  | advance ntx pkt => exact fun hat => ⟨hat.1.trans hslots, hat.2⟩
  | _ => exact id

omit [DecidableEq P] in
theorem Inv.drain {n : Nat} (h : Inv N s A) (hn : (s.tx t).ring.MayAdvanceTail n) :
    Inv N (drain s t n) A :=
  h.tx_quiet rfl rfl rfl ((h.tx t).drain hn)

-- ---------------------------------------------------------------------------
-- What a step can do
-- ---------------------------------------------------------------------------

def TxThread.placed (y : TxThread P) : Nat :=
  match y.pc with
  | .send _ i _ _ => i
  | .advance ntx _ => ntx
  | _ => 0

/-- A step of any party, with the nodes of the lists before and after it. -/
inductive StepTo (N : SinStance R T E P D) (s : State R T E P D) (A : Place R T E → List P) :
    State R T E P D → (Place R T E → List P) → Prop
  | rx (r : R) (x : RxThread E P) (hin : x.inList = (s.rx r).inList)
      (hwrk : x.wrklist = (s.rx r).wrklist) (hok : RxOk N s.flags r x)
      (hring : x.ring = { (s.rx r).ring with head := x.ring.head }) : StepTo N s A (setRx s r x) A
  | dequeue (r : R) (hpc : (s.rx r).pc = .dequeue) (hne : nmRingEmpty (s.rx r).ring = false) :
      StepTo N s A (dequeuePkt N s r)
        (Function.update A (.pktsIn r) (A (.pktsIn r) ++ [(N.rxZone r).pmap (s.rx r).ring.cur]))
  | sort (r : R) (n : Nat) (p : P) (l : List P) (hpc : (s.rx r).pc = .scan n (some p))
      (hA : A (.pktsIn r) = p :: l) :
      StepTo N s A (sortPkt N s r n p)
        (Function.update (Function.update A (.pktsIn r) l) (.wrklist r (N.classOf r (s.frame p)))
          (A (.wrklist r (N.classOf r (s.frame p))) ++ [p]))
  | put (r : R) (c : Option E) (todo : List (Option E)) (hpc : (s.rx r).pc = .flush (c :: todo))
      (hne : ((s.rx r).wrklist c).isEmpty = false) :
      StepTo N s A (putItems N (rewrite N s r c) r c todo)
        (Function.update (Function.update A (.outpktQueue (N.outq r c))
          (A (.outpktQueue (N.outq r c)) ++ A (.wrklist r c))) (.wrklist r c) [])
  | tx (t : T) (y : TxThread P) (hqueue : y.queue.items = (s.tx t).queue.items)
      (hout : y.outList = (s.tx t).outList) (htx : y.txList = (s.tx t).txList)
      (hok : TxOk N t y (A (.pktsOut t)) (A (.pktsTx t))) (hring : y.ring = (s.tx t).ring)
      (hplaced : y.placed = (s.tx t).placed) : StepTo N s A (setTx s t y) A
  | gotAll (t : T) (n : Nat) (queue : SinWiQueue P) (hpc : AtGet (s.tx t) n)
      (hqueue : queue.items = .reset) (hA : A (.outpktQueue t) ≠ []) :
      StepTo N s A (gotAll s t n queue) (Function.update (Function.update A (.pktsOut t)
        (A (.pktsOut t) ++ A (.outpktQueue t))) (.outpktQueue t) [])
  | getpkt (t : T) (i : Nat) (y : TxThread P) (m : Links P) (hi : i < (N.txZone t).numSlots)
      (hp : (N.txZone t).pmap i ∉ A (.pktsTx t)) (hqueue : y.queue = (s.tx t).queue)
      (hout : y.outList = (s.tx t).outList)
      (htx : sinListAppend s.links (s.tx t).txList ((N.txZone t).pmap i) = (m, y.txList))
      (hok : TxOk N t y (A (.pktsOut t)) (A (.pktsTx t) ++ [(N.txZone t).pmap i]))
      (hring : y.ring = (s.tx t).ring) (hplaced : y.placed = (s.tx t).placed) :
      StepTo N s A { setTx s t y with links := m }
        (Function.update A (.pktsTx t) (A (.pktsTx t) ++ [(N.txZone t).pmap i]))
  | send (t : T) (ntx i : Nat) (p q : P) (l l' : List P)
      (hpc : (s.tx t).pc = .send ntx i (some p) (some q)) (hlt : i < ntx)
      (hout : A (.pktsOut t) = p :: l) (htx : A (.pktsTx t) = q :: l') :
      StepTo N s A (sendPkt N s t ntx i p q)
        (Function.update (Function.update A (.pktsOut t) l) (.pktsTx t) l')
  | advance (t : T) (ntx : Nat) (pkt : Option P) (hpc : (s.tx t).pc = .advance ntx pkt) :
      StepTo N s A (advance N s t ntx pkt) A
  | receive (r : R) (k : Received D) (hk : (s.rx r).ring.MayAdvanceTail k.tail) :
      StepTo N s A (receive N s r k) A
  | drain (t : T) (n : Nat) (hn : (s.tx t).ring.MayAdvanceTail n) : StepTo N s A (drain s t n) A

omit [DecidableEq R] [DecidableEq T] [DecidableEq E] in
theorem Inv.rewrite (h : Inv N s A) (r : R) (c : Option E) : Inv N (rewrite N s r c) A :=
  ⟨h.lay, h.rx, h.tx⟩

theorem Inv.stepTo {A' : Place R T E → List P} (h : Inv N s A) (hs : StepTo N s A s' A') :
    Inv N s' A' := by
  cases hs with
  | rx r x hin hwrk hok hring => exact h.rx_quiet hin hwrk hok
  | dequeue r hpc hne => exact h.dequeue hpc hne
  | sort r n p l hpc hA => exact h.sort hpc hA
  | put r c todo hpc hne => exact (h.rewrite r c).put hpc hne
  | tx t y hqueue hout htx hok hring hplaced => exact h.tx_quiet hqueue hout htx hok
  | gotAll t n queue hpc hqueue hA => exact h.gotAll hpc hqueue hA
  | getpkt t i y m hi hp hqueue hout htx hok hring hplaced => exact h.getpkt hi hp hqueue hout htx hok
  | send t ntx i p q l l' hpc hlt hout htx => exact h.send hpc hlt hout htx
  | advance t ntx pkt hpc => exact h.advance hpc
  | receive r k hk => exact h.receive hk
  | drain t n hn => exact h.drain hn

section

omit [DecidableEq R] [DecidableEq T] [DecidableEq E] [DecidableEq P]

theorem Inv.at_cons (h : Inv N s A) {k : Place R T E} (hk : (s.list k).head = some p) :
    ∃ l, A k = p :: l := by
  obtain ⟨l, hl, -⟩ := (hk ▸ (h.lay.sep.holds k).chain : Linked s.links (some p) (A k)).eq_cons
  exact ⟨l, hl⟩

theorem Inv.at_nil (h : Inv N s A) {k : Place R T E} (hk : s.list k = .reset) : A k = [] :=
  (hk ▸ h.lay.sep.holds k).unique (SinList.reset_holds _)

theorem Inv.holds_out (h : Inv N s A) (hout : (s.tx t).outList = (s.tx t).pktsOut) :
    (s.tx t).pktsOut.Holds s.links (A (.pktsOut t)) :=
  hout ▸ h.lay.sep.holds (.pktsOut t)

theorem Inv.holds_tx (h : Inv N s A) (htx : (s.tx t).txList = (s.tx t).pktsTx) :
    (s.tx t).pktsTx.Holds s.links (A (.pktsTx t)) :=
  htx ▸ h.lay.sep.holds (.pktsTx t)

end

theorem Inv.rxStep (h : Inv N s A) (hs : rxStep N s r choice = some s') : ∃ A', StepTo N s A s' A' := by
  have hold := h.rx r
  unfold Stance.rxStep at hs
  dsimp only at hs
  split at hs
  case h_1 hpc =>
    cases hs
    refine ⟨A, .rx r _ ?_ rfl ⟨hold.size, hold.ring, fun nh hs => ?_⟩ rfl⟩
    · split <;> simp [RxThread.inList, hpc]
    · dsimp only at hs
      split at hs <;> cases hs
  case h_2 hpc =>
    split at hs
    · cases hs
      refine ⟨A, .rx r _ ?_ rfl ⟨hold.size, hold.ring, fun nh hs => ?_⟩ rfl⟩
      · have hin : s.list (.pktsIn r) = (s.rx r).pktsIn := by simp [State.list, RxThread.inList, hpc]
        split
        · simp [RxThread.inList, hpc]
        · simp [RxThread.inList, hpc, pktsLeft_zero (hin ▸ h.lay.sep.holds (.pktsIn r))]
      · dsimp only at hs
        split at hs <;> cases hs
    · rename_i hne
      cases hs
      exact ⟨_, .dequeue r hpc (Bool.eq_false_iff.mpr hne)⟩
  case h_3 hpc =>
    cases hs
    exact ⟨A, .rx r _ (by simp [RxThread.inList, hpc, pktsLeft_none]) rfl
      ⟨hold.size, hold.ring, by simp⟩ rfl⟩
  case h_4 n p hpc =>
    cases hs
    have hhead : (s.list (.pktsIn r)).head = some p := by
      simp [State.list, RxThread.inList, hpc, pktsLeft]
    obtain ⟨l, hA⟩ := h.at_cons hhead
    exact ⟨_, .sort r n p l hpc hA⟩
  case h_5 c todo hpc =>
    split at hs
    · cases hs
      exact ⟨A, .rx r _ (by simp [RxThread.inList, hpc]) rfl ⟨hold.size, hold.ring, by simp⟩ rfl⟩
    · rename_i hne
      cases hs
      exact ⟨_, .put r c todo hpc (Bool.eq_false_iff.mpr hne)⟩
  case h_6 hpc =>
    cases hs
    exact ⟨A, .rx r _ (by simp [RxThread.inList, hpc]) rfl ⟨hold.size, hold.ring, by simp⟩ rfl⟩
  case h_7 hpc =>
    cases hs
    refine ⟨A, .rx r _ ?_ rfl ⟨hold.size, hold.ring, fun nh hs => ?_⟩ rfl⟩
    · split <;> simp [RxThread.inList, hpc]
    · dsimp only at hs
      split at hs <;> cases hs
      exact hold.ring.scan
  case h_8 nh hpc =>
    have hscan := hold.scan nh hpc
    split at hs
    · cases hs
      exact ⟨A, .rx r _ (by simp [RxThread.inList, hpc]) rfl
        ⟨hold.size, hold.ring.advanceHead hscan, by simp⟩ rfl⟩
    · rename_i hstop
      obtain ⟨hne, hb⟩ := not_or.mp hstop
      cases hs
      refine ⟨A, .rx r _ (by simp [RxThread.inList, hpc]) rfl ⟨hold.size, hold.ring, fun nh' hs => ?_⟩ rfl⟩
      cases hs
      exact hscan.next hold.ring hne (Bool.eq_false_iff.mpr hb)
  case h_9 => cases hs

theorem Inv.get (h : Inv N s A) (hpc : AtGet (s.tx t) n) {get : Section P (Got (SinList P × BitVec 32))}
    (hget : get = sinWiQueueGetItems s.links (s.tx t).queue (s.tx t).pktsOut true ∨
      get = sinWiQueueGetItemsWake s.links (s.tx t).queue (s.tx t).pktsOut true) :
    ∃ A', StepTo N s A (afterGet s t n get) A' := by
  obtain ⟨hn, hout, htx⟩ := h.at_get hpc
  have hold := h.tx t
  have hplaced : (s.tx t).placed = 0 := by
    rcases hpc with hpc | hpc <;> simp [TxThread.placed, hpc]
  rcases sinWiQueueGetItems_cases hget with ⟨hlinks, hitems, hret⟩ | ⟨hne, hlinks, hitems, k, hret⟩
  · obtain ⟨links, queue, ret, signal⟩ := get
    subst hlinks
    rcases hret with rfl | ⟨k, rfl⟩
    · exact ⟨A, .tx t _ hitems hout.symm htx.symm ⟨hold.size, hold.order, hold.cur, hn⟩ rfl hplaced.symm⟩
    · exact ⟨A, .tx t _ hitems hout.symm htx.symm ⟨hold.size, hold.order, hold.cur, hn⟩ rfl hplaced.symm⟩
  · obtain ⟨links, queue, ret, signal⟩ := get
    subst hlinks hret
    have hA : A (.outpktQueue t) ≠ [] := mt (h.lay.sep.holds (.outpktQueue t)).head_none_iff.mpr hne
    exact ⟨_, .gotAll t n queue hpc hitems hA⟩

omit [DecidableEq R] [DecidableEq T] [DecidableEq E] [DecidableEq P] in
theorem Inv.getpkts_next (h : Inv N s A) (hpc : (s.tx t).pc = .getpkts ntx left curidx)
    (hone : 1 < left) :
    nmRingNext (s.tx t).ring curidx = pos (s.tx t).ring.numSlots (s.tx t).ring.cur (ntx - left + 1) ∧
      nmRingNext (s.tx t).ring curidx < (N.txZone t).numSlots ∧
      (N.txZone t).pmap (nmRingNext (s.tx t).ring curidx) ∉ A (.pktsTx t) := by
  have hold := h.tx t
  have hat := hold.pc
  rw [hpc] at hat
  obtain ⟨hpos, hleft, hntx, hlen, hcur, htx⟩ := hat
  have hlt := hntx.trans_lt (txRingNslots_lt hold.order)
  have hnext : nmRingNext (s.tx t).ring curidx =
      pos (s.tx t).ring.numSlots (s.tx t).ring.cur (ntx - left + 1) := by
    rw [hcur, pos_succ]
    rfl
  refine ⟨hnext, ?_, ?_⟩
  · rw [hnext, ← hold.size]
    exact pos_lt hold.order.cur_lt
  · rw [htx, hnext]
    exact notMem_slots hold.size hold.order.cur_lt (by omega)

theorem Inv.start_getpkts (h : Inv N s A) (hpc : (s.tx t).pc = .start n) (hne : ¬ (s.tx t).pktsOut.isEmpty) :
    ∃ A', StepTo N s A (setTx s t { s.tx t with
      pktsTx := ⟨some ((N.txZone t).pmap (s.tx t).ring.cur), some ((N.txZone t).pmap (s.tx t).ring.cur), 1⟩
      pc := .getpkts (min n (s.tx t).pktsOut.len.toNat) (min n (s.tx t).pktsOut.len.toNat) (s.tx t).ring.cur }) A' := by
  have hold := h.tx t
  have hat := hold.pc
  rw [hpc] at hat
  obtain ⟨hpos, hn⟩ := hat
  have htx : (s.tx t).txList = .reset := by simp [TxThread.txList, hpc]
  have hA : A (.pktsTx t) = [] := h.at_nil htx
  have hout : (s.tx t).outList = (s.tx t).pktsOut := by simp [TxThread.outList, hpc]
  have hlen : (s.tx t).pktsOut.len.toNat = (A (.pktsOut t)).length := (h.holds_out hout).len_toNat
  have hpos' : 0 < (s.tx t).pktsOut.len.toNat := by
    rw [hlen]
    exact List.length_pos_iff.mpr (mt (h.holds_out hout).isEmpty_iff.mpr hne)
  refine ⟨_, .getpkt t (s.tx t).ring.cur { s.tx t with
    pktsTx := ⟨some ((N.txZone t).pmap (s.tx t).ring.cur), some ((N.txZone t).pmap (s.tx t).ring.cur), 1⟩
    pc := .getpkts (min n (s.tx t).pktsOut.len.toNat) (min n (s.tx t).pktsOut.len.toNat) (s.tx t).ring.cur }
    s.links ?_ ?_ rfl ?_ ?_ ⟨hold.size, hold.order, hold.cur, ?_⟩ rfl ?_⟩
  · exact hold.size ▸ hold.order.cur_lt
  · rw [hA]
    exact List.not_mem_nil
  · simp [TxThread.outList, hpc]
  · rw [htx]
    rfl
  · have hle : min n (s.tx t).pktsOut.len.toNat ≤ (A (.pktsOut t)).length :=
      (Nat.min_le_right _ _).trans hlen.le
    refine ⟨Nat.lt_min.mpr ⟨hpos, hpos'⟩, le_rfl, (Nat.min_le_left _ _).trans hn, hle, ?_, ?_⟩
    · simp [pos_zero hold.order.cur_lt]
    · simp [hA, slots_one hold.order.cur_lt]
  · simp [TxThread.placed, hpc]

theorem Inv.getpkts_append (h : Inv N s A) (hpc : (s.tx t).pc = .getpkts ntx left curidx) (hone : 1 < left) :
    ∃ A', StepTo N s A { setTx s t { s.tx t with
      pktsTx := (sinListAppend s.links (s.tx t).pktsTx ((N.txZone t).pmap (nmRingNext (s.tx t).ring curidx))).2
      pc := .getpkts ntx (left - 1) (nmRingNext (s.tx t).ring curidx) } with
      links := (sinListAppend s.links (s.tx t).pktsTx
        ((N.txZone t).pmap (nmRingNext (s.tx t).ring curidx))).1 } A' := by
  have hold := h.tx t
  have hat := hold.pc
  rw [hpc] at hat
  obtain ⟨hpos, hleft, hntx, hlen, hcur, htx⟩ := hat
  have hlist : (s.tx t).txList = (s.tx t).pktsTx := by simp [TxThread.txList, hpc]
  obtain ⟨hnext, hnext_lt, hnew⟩ := h.getpkts_next hpc hone
  refine ⟨_, .getpkt t (nmRingNext (s.tx t).ring curidx) { s.tx t with
    pktsTx := (sinListAppend s.links (s.tx t).pktsTx ((N.txZone t).pmap (nmRingNext (s.tx t).ring curidx))).2
    pc := .getpkts ntx (left - 1) (nmRingNext (s.tx t).ring curidx) }
    _ hnext_lt hnew rfl ?_ ?_ ⟨hold.size, hold.order, hold.cur, ?_⟩ rfl ?_⟩
  · simp [TxThread.outList, hpc]
  · rw [hlist]
    rfl
  · refine ⟨by omega, by omega, hntx, hlen, ?_, ?_⟩
    · rw [hnext]
      congr 1
      omega
    · rw [htx, hnext, ← slots_succ]
      congr 1
      omega
  · simp [TxThread.placed, hpc]

theorem Inv.getpkts_send (h : Inv N s A) (hpc : (s.tx t).pc = .getpkts ntx left curidx) (hone : ¬ 1 < left) :
    StepTo N s A (setTx s t { s.tx t with
      pc := .send ntx 0 (s.tx t).pktsOut.head (s.tx t).pktsTx.head }) A := by
  have hold := h.tx t
  have hat := hold.pc
  rw [hpc] at hat
  obtain ⟨hpos, hleft, hntx, hlen, -, htx⟩ := hat
  obtain rfl : left = 1 := by omega
  have hlist : (s.tx t).txList = (s.tx t).pktsTx := by simp [TxThread.txList, hpc]
  have hout : (s.tx t).outList = (s.tx t).pktsOut := by simp [TxThread.outList, hpc]
  refine .tx t _ rfl ?_ ?_ ⟨hold.size, hold.order, hold.cur, ?_⟩ rfl ?_
  · rw [hout]
    exact pktsLeft_zero (h.holds_out hout)
  · rw [hlist]
    exact pktsLeft_zero (h.holds_tx hlist)
  · refine ⟨Nat.zero_le _, hntx, hlen, (h.holds_out hout).len_toNat.symm, ?_⟩
    rw [htx, Nat.sub_add_cancel hleft]
    rfl
  · simp [TxThread.placed, hpc]

theorem Inv.send_advance (h : Inv N s A) (hpc : (s.tx t).pc = .send ntx i pkt pktTx) (hi : ¬ i < ntx) :
    StepTo N s A (setTx s t { s.tx t with pc := .advance ntx pkt }) A := by
  have hold := h.tx t
  have hat := hold.pc
  rw [hpc] at hat
  obtain ⟨hle, hntx, -, hlen, htx⟩ := hat
  obtain rfl : i = ntx := hle.antisymm (Nat.le_of_not_lt hi)
  have hA : A (.pktsTx t) = [] := by
    rw [htx]
    exact List.drop_eq_nil_of_le (by simp)
  have hreset : (s.tx t).txList = .reset := (hA ▸ h.lay.sep.holds (.pktsTx t)).eq_reset
  refine .tx t _ rfl ?_ ?_ ⟨hold.size, hold.order, hold.cur, hntx, hlen⟩ rfl ?_
  · simp [TxThread.outList, hpc]
  · rw [hreset]
    rfl
  · simp [TxThread.placed, hpc]

theorem Inv.txStep (h : Inv N s A) (hs : txStep N s t choice = some s') : ∃ A', StepTo N s A s' A' := by
  have hold := h.tx t
  unfold Stance.txStep at hs
  dsimp only at hs
  split at hs
  case h_1 hpc =>
    cases hs
    refine ⟨A, .tx t _ rfl ?_ ?_ ⟨hold.size, hold.order, hold.cur, ?_⟩ rfl ?_⟩
    · split
      · simp [TxThread.outList, hpc]
      · split <;> simp [TxThread.outList, hpc]
    · split
      · simp [TxThread.txList, hpc]
      · split <;> simp [TxThread.txList, hpc]
    · dsimp only
      split
      · trivial
      · split <;> exact ⟨Nat.pos_of_ne_zero ‹_›, le_rfl⟩
    · split
      · simp [TxThread.placed, hpc]
      · split <;> simp [TxThread.placed, hpc]
  case h_2 n hpc =>
    cases hs
    exact h.get (.inl hpc) (.inl rfl)
  case h_3 n hpc =>
    cases hs
    exact h.get (.inr hpc) (.inr rfl)
  case h_4 n hpc =>
    split at hs
    · cases hs
      exact ⟨A, .tx t _ rfl (by simp [TxThread.outList, hpc]) (by simp [TxThread.txList, hpc])
        ⟨hold.size, hold.order, hold.cur, trivial⟩ rfl (by simp [TxThread.placed, hpc])⟩
    · rename_i hne
      cases hs
      exact h.start_getpkts hpc hne
  case h_5 ntx left curidx hpc =>
    split at hs
    · rename_i hone
      cases hs
      exact h.getpkts_append hpc hone
    · rename_i hone
      cases hs
      exact ⟨A, h.getpkts_send hpc hone⟩
  case h_6 ntx i pkt pktTx hpc =>
    split at hs
    · rename_i hlt
      split at hs
      · rename_i p q
        cases hs
        have hhead : (s.list (.pktsOut t)).head = some p := by
          simp [State.list, TxThread.outList, hpc, pktsLeft]
        have hheadTx : (s.list (.pktsTx t)).head = some q := by
          simp [State.list, TxThread.txList, hpc, pktsLeft]
        obtain ⟨l, hl⟩ := h.at_cons hhead
        obtain ⟨l', hl'⟩ := h.at_cons hheadTx
        exact ⟨_, .send t ntx i p q l l' hpc hlt hl hl'⟩
      · cases hs
    · rename_i hi
      cases hs
      exact ⟨A, h.send_advance hpc hi⟩
  case h_7 ntx pkt hpc =>
    cases hs
    exact ⟨A, .advance t ntx pkt hpc⟩
  case h_8 hpc =>
    cases hs
    refine ⟨A, .tx t _ rfl ?_ ?_ ⟨hold.size, hold.order, hold.cur, ?_⟩ rfl ?_⟩
    · split <;> simp [TxThread.outList, hpc]
    · split <;> simp [TxThread.txList, hpc]
    · dsimp only
      split <;> trivial
    · split <;> simp [TxThread.placed, hpc]
  case h_9 => cases hs

theorem Inv.step (h : Inv N s A) (hs : step N s mv = some s') : ∃ A', StepTo N s A s' A' := by
  cases mv with
  | rx r choice => exact h.rxStep hs
  | tx t choice => exact h.txStep hs
  | receive r k =>
    obtain ⟨hk, ⟨⟩⟩ := Option.ite_none_right_eq_some.mp hs
    exact ⟨A, .receive r k hk⟩
  | drain t n =>
    obtain ⟨hn, ⟨⟩⟩ := Option.ite_none_right_eq_some.mp hs
    exact ⟨A, .drain t n hn⟩

-- ---------------------------------------------------------------------------
-- Every run
-- ---------------------------------------------------------------------------

omit [DecidableEq R] [DecidableEq T] [DecidableEq E] [DecidableEq P] in
theorem Start.list (h : Start N s) (k : Place R T E) : s.list k = .reset := by
  cases k with
  | pktsIn r => simp [State.list, RxThread.inList, h.rx r]
  | wrklist r c => exact (h.rx r).2.2 c
  | outpktQueue t =>
    show (s.tx t).queue.items = _
    rw [(h.tx t).2.2]
    rfl
  | pktsOut t => simp [State.list, TxThread.outList, h.tx t]
  | pktsTx t => simp [State.list, TxThread.txList, h.tx t]

omit [DecidableEq R] [DecidableEq T] [DecidableEq E] [DecidableEq P] in
theorem Start.inv (h : Start N s) : Inv N s fun _ => [] := by
  refine ⟨⟨⟨fun k => ?_, by simp, fun p _ => h.links p⟩, by simp, fun p => by simp [h.flags p]⟩,
    fun r => ?_, fun t => ?_⟩
  · rw [h.list k]
    exact SinList.reset_holds _
  · obtain ⟨horder, -, hsize⟩ := h.rxRing r
    refine ⟨hsize, ⟨horder, fun i _ hb => ?_⟩, fun nh hs => ?_⟩
    · simp [busyAt, h.flags] at hb
    · cases (h.rx r).1.symm.trans hs
  · obtain ⟨horder, hcur, hsize⟩ := h.txRing t
    refine ⟨hsize, horder, hcur, ?_⟩
    rw [(h.tx t).1]
    trivial

theorem inv_of_reachable (h : (machine N).Reachable s) : ∃ A, Inv N s A := by
  refine Reachable.induct (I := fun s => ∃ A, Inv N s A) h (fun s h => ⟨_, Start.inv h⟩) ?_
  rintro s mv s' ⟨A, hinv⟩ hs
  obtain ⟨A', hto⟩ := hinv.step hs
  exact ⟨A', hinv.stepTo hto⟩

omit [DecidableEq R] [DecidableEq T] [DecidableEq E] [DecidableEq P] in
theorem Inv.pkts_eq (h : Inv N s A) : s.pkts = A := h.lay.sep.nodes_eq

end Libsinet.Stance
