import Libsinet.StanceLive

/-!
# Every slot goes back

A packet that a ring gave to its thread is sent and returned, and when that has
happened to all packets up to it, `_spin_ring` hands its slot back. So no slot
is lost, whatever the order in which packets return.
-/

namespace Libsinet.Stance

open Machine Execution NetmapRing Circular

variable {R : Type u} {T : Type v} {E : Type w} {P : Type x} {D : Type y}
variable [DecidableEq R] [DecidableEq T] [DecidableEq E] [DecidableEq P]
variable {N : SinStance R T E P D} {s s' : State R T E P D} {A A' : Place R T E → List P} {r : R} {t : T}
  {p q : P} {mv : Move R T D} {choice : Bool}

-- ---------------------------------------------------------------------------
-- Packets of an rx thread
-- ---------------------------------------------------------------------------

/-- The packet is still in the hands of the thread that took it from the ring. -/
def WithRx (A : Place R T E → List P) (r : R) (p : P) : Prop := p ∈ A (.pktsIn r) ∨ ∃ c, p ∈ A (.wrklist r c)

theorem StepTo.withRx (h : StepTo N s A s' A') (hp : WithRx A r p) :
    WithRx A' r p ∨ ∃ t, p ∈ A' (.outpktQueue t) := by
  cases h with
  | dequeue r' hpc hne =>
    refine .inl (hp.imp (fun hin => ?_) fun ⟨c, hc⟩ => ⟨c, by simpa using hc⟩)
    rcases eq_or_ne r r' with rfl | hr
    · simp [hin]
    · simpa [hr] using hin
  | sort r' n q l hpc hA =>
    left
    by_cases hq : p = q
    · subst hq
      rcases eq_or_ne r r' with rfl | hr
      · exact .inr ⟨N.classOf r (s.frame p), by simp⟩
      · refine hp.imp (fun hin => by simpa [hr] using hin) fun ⟨c, hc⟩ => ⟨c, by simpa [hr] using hc⟩
    · refine hp.imp (fun hin => ?_) fun ⟨c, hc⟩ => ⟨c, ?_⟩
      · rcases eq_or_ne r r' with rfl | hr
        · rw [hA] at hin
          simpa using (List.mem_cons.mp hin).resolve_left hq
        · simpa [hr] using hin
      · rcases eq_or_ne (Place.wrklist r c : Place R T E) (.wrklist r' (N.classOf r' (s.frame q))) with he | he
        · rw [he] at hc ⊢
          simp [hc]
        · simpa [Function.update_of_ne he] using hc
  | put r' c' todo hpc hne =>
    rcases hp with hin | ⟨c, hc⟩
    · exact .inl (.inl (by simpa using hin))
    · rcases eq_or_ne (Place.wrklist r c : Place R T E) (.wrklist r' c') with he | he
      · cases he
        exact .inr ⟨N.outq r c', by simp [hc]⟩
      · exact .inl (.inr ⟨c, by simpa [Function.update_of_ne he] using hc⟩)
  | rx | tx | advance | receive | drain => exact .inl hp
  | gotAll | getpkt | send => exact .inl (by simpa [WithRx] using hp)

omit [DecidableEq R] [DecidableEq T] [DecidableEq E] [DecidableEq P] in
/-- While a thread has packets, it does not wait and is not at `check_ctrl`. -/
theorem busy_cycle (hinv : Inv N s s.pkts) (htidy : Tidy N s) (hp : WithRx s.pkts r p) :
    (s.rx r).pc ≠ .checkCtrl ∧ ((s.rx r).pc = .poll → nmRingEmpty (s.rx r).ring = false) := by
  have hempty : (s.rx r).inList.isEmpty = true → (∀ c, ((s.rx r).wrklist c).isEmpty = true) → False := by
    intro hin hwrk
    rcases hp with hp | ⟨c, hp⟩
    · rw [(hinv.lay.sep.holds (.pktsIn r)).isEmpty_iff.mp hin] at hp
      cases hp
    · rw [(hinv.lay.sep.holds (.wrklist r c)).isEmpty_iff.mp (hwrk c)] at hp
      cases hp
  have htidy := htidy.rx r
  constructor
  · intro hpc
    simp only [RxThread.Tidy, hpc] at htidy
    exact hempty (by simpa [RxThread.inList, hpc] using htidy.1) htidy.2
  · intro hpc
    simp only [RxThread.Tidy, hpc] at htidy
    exact (hempty (by simpa [RxThread.inList, hpc] using htidy.1) htidy.2).elim

/-- A packet is put in a queue in the cycle in which it was taken. -/
theorem puts (e : (machine N).Execution Undisturbed) (hfair : Fair e) (r : R) (p : P) :
    e.LeadsTo (fun s => WithRx s.pkts r p) fun s => ∃ t, p ∈ s.pkts (.outpktQueue t) := by
  refine (hfair.threads (.inl r)).leadsTo (fun s => (s.rx r).left N r) ?_ ?_
  · intro s hr hp
    obtain ⟨hinv, htidy⟩ := inv_tidy hr.reachable
    exact ⟨(running hr).1 r, (busy_cycle hinv htidy hp).2⟩
  · intro s mv s' hr hp hok hs
    obtain ⟨hinv, htidy⟩ := inv_tidy hr.reachable
    obtain ⟨A', hto⟩ := hinv.step hs
    obtain rfl := (hinv.stepTo hto).pkts_eq
    rcases hto.withRx hp with hp' | hput
    · rcases rx_of_step hs r with ⟨choice, rfl, hmoves⟩ | ⟨hother, tail, hsame⟩
      · have hlt := hmoves.left_lt hinv (htidy.rx r) (busy_cycle hinv htidy hp).1
        exact .inr ⟨hp', hlt.le, fun _ => hlt⟩
      · refine .inr ⟨hp', ?_, fun hown => absurd hown hother⟩
        rw [hsame]
        exact le_rfl
    · exact .inl hput

-- ---------------------------------------------------------------------------
-- Packets of a tx thread
-- ---------------------------------------------------------------------------

/-- What a tx thread is to send, the next packet first. -/
def toSend (A : Place R T E → List P) (t : T) : List P := A (.pktsOut t) ++ A (.outpktQueue t)

/-- How many frames the ring is given before that of the packet, from the start on. -/
def before (N : SinStance R T E P D) (s : State R T E P D) (A : Place R T E → List P) (t : T) (p : P) : Nat :=
  (s.sent t).length + (filled N s t).length + (toSend A t).idxOf p

omit [DecidableEq R] [DecidableEq T] [DecidableEq E] in
theorem before_congr (hsent : s'.sent = s.sent) (hfilled : filled N s' t = filled N s t)
    (hto : toSend A' t = toSend A t) : before N s' A' t p = before N s A t p := by
  simp only [before, hsent, hfilled, hto]

omit [DecidableEq R] [DecidableEq T] [DecidableEq E] in
theorem Quiet.before (h : Quiet N s s') (hto : toSend A' t = toSend A t) :
    before N s' A' t p = Stance.before N s A t p := before_congr h.sent (h.filled t) hto

/-- A packet to be sent keeps its turn until it is sent and returned. -/
theorem StepTo.toSend (h : StepTo N s A s' A') (hinv : Inv N s A) (hp : p ∈ toSend A t) :
    sinPktIsbusy (s'.flags p) = false ∨ (p ∈ Stance.toSend A' t ∧ before N s' A' t p = before N s A t p) := by
  cases h with
  | rx r x hin hwrk hok hring => exact .inr ⟨hp, (Quiet.setRx hring).before rfl⟩
  | dequeue r hpc hne =>
    have hsame : Stance.toSend (Function.update A (.pktsIn r)
        (A (.pktsIn r) ++ [(N.rxZone r).pmap (s.rx r).ring.cur])) t = Stance.toSend A t := by simp [Stance.toSend]
    exact .inr ⟨hsame.symm ▸ hp, before_congr rfl rfl hsame⟩
  | sort r n q l hpc hA =>
    have hsame : Stance.toSend (Function.update (Function.update A (.pktsIn r) l)
        (.wrklist r (N.classOf r (s.frame q))) (A (.wrklist r (N.classOf r (s.frame q))) ++ [q])) t =
        Stance.toSend A t := by simp [Stance.toSend]
    exact .inr ⟨hsame.symm ▸ hp, (quiet_sortPkt r n q).before hsame⟩
  | put r c todo hpc hne =>
    have hmore : ∃ l, Stance.toSend (Function.update (Function.update A (.outpktQueue (N.outq r c))
        (A (.outpktQueue (N.outq r c)) ++ A (.wrklist r c))) (.wrklist r c) []) t = Stance.toSend A t ++ l := by
      rcases eq_or_ne t (N.outq r c) with rfl | ht
      · exact ⟨A (.wrklist r c), by simp [Stance.toSend]⟩
      · exact ⟨[], by simp [Stance.toSend, ht]⟩
    obtain ⟨l, hl⟩ := hmore
    have hquiet := quiet_putItems (N := N) (s := rewrite N s r c) r c todo
    refine .inr ⟨hl.symm ▸ List.mem_append_left _ hp, ?_⟩
    simp only [Stance.before, hquiet.sent, hquiet.filled, hl, List.idxOf_append_of_mem hp]
    rfl
  | tx t' y hqueue hout htx hok hring hplaced =>
    exact .inr ⟨hp, (Quiet.setTx (filled_eq hring hplaced)).before rfl⟩
  | gotAll t' n queue hpc hqueue hA =>
    have hsame : Stance.toSend (Function.update (Function.update A (.pktsOut t')
        (A (.pktsOut t') ++ A (.outpktQueue t'))) (.outpktQueue t') []) t = Stance.toSend A t := by
      rcases eq_or_ne t t' with rfl | ht
      · simp [Stance.toSend]
      · simp [Stance.toSend, ht]
    exact .inr ⟨hsame.symm ▸ hp, (quiet_gotAll hpc queue).before hsame⟩
  | getpkt t' i y m hi hnew hqueue hout htx hok hring hplaced =>
    have hsame : Stance.toSend (Function.update A (.pktsTx t') (A (.pktsTx t') ++ [(N.txZone t').pmap i])) t =
        Stance.toSend A t := by simp [Stance.toSend]
    have hquiet : Quiet N s { setTx s t' y with links := m } := (Quiet.setTx (filled_eq hring hplaced)).links
    exact .inr ⟨hsame.symm ▸ hp, hquiet.before hsame⟩
  | send t' ntx i q q' l l' hpc hlt hout htx =>
    by_cases hq : p = q
    · subst hq
      exact .inl (by simp [sendPkt])
    · right
      rcases eq_or_ne t t' with rfl | ht
      · have hto : Stance.toSend A t = q :: (l ++ A (.outpktQueue t)) := by simp [Stance.toSend, hout]
        have hto' : Stance.toSend (Function.update (Function.update A (.pktsOut t) l) (.pktsTx t) l') t =
            l ++ A (.outpktQueue t) := by simp [Stance.toSend]
        rw [hto] at hp
        refine ⟨hto'.symm ▸ (List.mem_cons.mp hp).resolve_left hq, ?_⟩
        have hfilled := congrArg List.length (hinv.filled_next hpc hlt htx).1
        have hsent : (sendPkt N s t ntx i q q').sent = s.sent := rfl
        simp only [Stance.before, hto, hto', hsent, hfilled, List.idxOf_cons_ne _ (Ne.symm hq), List.length_append,
          List.length_singleton]
        omega
      · have hsame : Stance.toSend (Function.update (Function.update A (.pktsOut t') l) (.pktsTx t') l') t =
            Stance.toSend A t := by simp [Stance.toSend, ht]
        exact ⟨hsame.symm ▸ hp, before_congr rfl (by simp [filled, sendPkt, setTx, transmit, ht]) hsame⟩
  | advance t' ntx pkt hpc =>
    refine .inr ⟨hp, ?_⟩
    rcases eq_or_ne t t' with rfl | ht
    · simp [Stance.before, Stance.advance, filled, setTx, TxThread.placed, hpc]
    · simp [Stance.before, Stance.advance, filled, setTx, ht]
  | receive r k hk => exact .inr ⟨hp, rfl⟩
  | drain t' n hn => exact .inr ⟨hp, quiet_drain.before rfl⟩

theorem sends_on (e : (machine N).Execution Undisturbed) (hfair : Fair e) (t : T) (p : P) :
    e.LeadsTo (fun s => p ∈ toSend s.pkts t) fun s => sinPktIsbusy (s.flags p) = false := by
  intro n hp
  by_contra hno
  let k := before N (e.state n) (e.state n).pkts t p
  -- as long as it is not returned, no more frames are sent than those before it
  have hunless : Unless (machine N) Undisturbed (fun s => p ∈ toSend s.pkts t ∧ before N s s.pkts t p = k)
      fun s => sinPktIsbusy (s.flags p) = false := by
    rintro s mv s' hr ⟨hp, hk⟩ - hs
    obtain ⟨hinv, -⟩ := inv_tidy hr.reachable
    obtain ⟨A', hto⟩ := hinv.step hs
    obtain rfl := (hinv.stepTo hto).pkts_eq
    exact (hto.toSend hinv hp).imp_right fun h => ⟨h.1, h.2.trans hk⟩
  have hstay : ∀ m, n ≤ m → p ∈ toSend (e.state m).pkts t ∧ before N (e.state m) (e.state m).pkts t p = k :=
    fun m => hunless.stays ⟨hp, rfl⟩ fun l hnl hl => hno ⟨l, hnl, hl⟩
  obtain ⟨m, hnm, hm⟩ := Pipeline.exists_ge_of_grows (n := n) (f := fun m => ((e.state m).sent t).length)
    (v := k + 1) fun m hnm _ => by
      refine sends e hfair t _ m ⟨le_rfl, fun hnil => ?_⟩
      have hmem := (hstay m hnm).1
      simp only [abs, queued, List.append_eq_nil_iff, List.map_eq_nil_iff] at hnil
      simp [toSend, hnil] at hmem
  have hk := (hstay m hnm).2
  unfold before at hk
  omega

/-- Every packet taken from a ring is returned. -/
theorem returns (e : (machine N).Execution Undisturbed) (hfair : Fair e) (p : P) :
    e.LeadsTo (fun s => sinPktIsbusy (s.flags p) = true) fun s => sinPktIsbusy (s.flags p) = false := by
  intro n hb
  obtain ⟨hinv, -⟩ := inv_tidy (e.reachable n).reachable
  have hqueue : ∀ {m t}, p ∈ (e.state m).pkts (.outpktQueue t) →
      ∃ l, m ≤ l ∧ sinPktIsbusy ((e.state l).flags p) = false :=
    fun hq => sends_on e hfair _ p _ (List.mem_append_right _ hq)
  have hrx : ∀ r, WithRx (e.state n).pkts r p → ∃ l, n ≤ l ∧ sinPktIsbusy ((e.state l).flags p) = false := by
    intro r hp
    obtain ⟨m, hnm, t, hq⟩ := puts e hfair r p n hp
    obtain ⟨l, hml, hl⟩ := hqueue hq
    exact ⟨l, hnm.trans hml, hl⟩
  obtain ⟨k, hk, hp⟩ := (hinv.lay.busy p).mp hb
  cases k with
  | pktsIn r => exact hrx r (.inl hp)
  | wrklist r c => exact hrx r (.inr ⟨c, hp⟩)
  | outpktQueue t => exact hqueue hp
  | pktsOut t => exact sends_on e hfair t p n (List.mem_append_left _ hp)
  | pktsTx t => cases hk

-- ---------------------------------------------------------------------------
-- The ring
-- ---------------------------------------------------------------------------

/-- The slot is not the kernel's. -/
def Kept (s : State R T E P D) (r : R) (i : Nat) : Prop :=
  (s.rx r).ring.Between (s.rx r).ring.head i (s.rx r).ring.tail

instance (s : State R T E P D) (r : R) (i : Nat) : Decidable (Kept s r i) := inferInstanceAs (Decidable (Between ..))

/-- How many slots go back before this one. -/
def State.slotsBefore (s : State R T E P D) (r : R) (i : Nat) : Nat :=
  dist (s.rx r).ring.numSlots (s.rx r).ring.head i

/-- A ring's `head` moves only where a scan ends, and `cur` and `tail` only go on. -/
theorem ring_of_step (hinv : Inv N s A) (hs : step N s mv = some s') (r : R) :
    let a := (s.rx r).ring
    let b := (s'.rx r).ring
    (b.numSlots = a.numSlots ∧ b.head = a.head ∧
        dist a.numSlots a.head a.cur ≤ dist a.numSlots a.head b.cur ∧
        dist a.numSlots a.head a.tail ≤ dist a.numSlots a.head b.tail) ∨
      ∃ nh, nh ≠ a.head ∧ (s.rx r).pc = .spin nh ∧ b = { a with head := nh } := by
  have hring := (hinv.rx r).ring
  cases mv with
  | rx r' choice =>
    have hmoves := rxStep_moves hs
    rcases eq_or_ne r r' with rfl | hr
    · cases hmoves with
      | dequeue hpc hne =>
        have hnext := hring.toInOrder.dist_next_cur hne
        left
        simp [dequeuePkt, setRx, hnext]
      | spun nh hpc hstop =>
        rcases eq_or_ne nh (s.rx r).ring.head with rfl | hnh
        · left
          simp [setRx]
        · exact .inr ⟨nh, hnh, hpc, by simp [setRx]⟩
      | _ =>
        left
        simp [setRx, sortPkt, putItems, rewrite]
    · rw [hmoves.rx_other hr]
      exact .inl ⟨rfl, rfl, le_rfl, le_rfl⟩
  | tx t choice =>
    rw [(txStep_moves hs).rx]
    exact .inl ⟨rfl, rfl, le_rfl, le_rfl⟩
  | receive r' k =>
    obtain ⟨hk, ⟨⟩⟩ := Option.ite_none_right_eq_some.mp hs
    rcases eq_or_ne r r' with rfl | hr
    · left
      simpa [receive, setRx] using hk.2
    · left
      simp [receive, setRx, hr]
  | drain t n =>
    obtain ⟨hn, ⟨⟩⟩ := Option.ite_none_right_eq_some.mp hs
    exact .inl ⟨rfl, rfl, le_rfl, le_rfl⟩

/-- A slot that is kept gets no further from `head`, and nearer if that moves. -/
theorem kept_of_step (hinv : Inv N s A) (hs : step N s mv = some s') {i : Nat}
    (hi : i < (s.rx r).ring.numSlots) (hkept : Kept s r i) :
    (¬ Kept s' r i ∨ (Kept s' r i ∧ s'.slotsBefore r i < s.slotsBefore r i)) ∨
      (Kept s' r i ∧ s'.slotsBefore r i = s.slotsBefore r i ∧ (s'.rx r).ring.head = (s.rx r).ring.head ∧
        (s'.rx r).ring.numSlots = (s.rx r).ring.numSlots ∧
        dist (s.rx r).ring.numSlots (s.rx r).ring.head (s.rx r).ring.cur ≤
          dist (s.rx r).ring.numSlots (s.rx r).ring.head (s'.rx r).ring.cur) := by
  have hring := (hinv.rx r).ring
  unfold Kept State.slotsBefore Between at *
  rcases ring_of_step hinv hs r with ⟨hsize, hhead, hcur, htail⟩ | ⟨nh, hnh, hpc, hb⟩
  · rw [hsize, hhead]
    exact .inr ⟨hkept.trans_le htail, rfl, rfl, rfl, hcur⟩
  · left
    have hscan := (hinv.rx r).scan nh hpc
    rw [hb]
    dsimp only
    have hpos : 0 < dist (s.rx r).ring.numSlots (s.rx r).ring.head nh := by
      refine Nat.pos_of_ne_zero fun hz => hnh ?_
      exact (dist_inj hring.head_lt hscan.lt hring.head_lt).mp (hz.trans dist_self.symm)
    rw [dist_sub hring.head_lt hscan.lt hring.tail_lt (hscan.le.trans hring.le)]
    rcases Nat.lt_or_ge (dist (s.rx r).ring.numSlots (s.rx r).ring.head i)
      (dist (s.rx r).ring.numSlots (s.rx r).ring.head nh) with hlt | hge
    · have hround := dist_lt hring.head_lt hring.tail_lt
      rw [dist_passed hring.head_lt hscan.lt hlt]
      omega
    · rw [dist_sub hring.head_lt hscan.lt hi hge]
      omega

/-- A packet becomes busy where it is taken from its ring. -/
theorem busy_of_step (hinv : Inv N s A) (hs : step N s mv = some s') {i : Nat} (hi : i < (N.rxZone r).numSlots)
    (hidle : busyAt N s.flags r i = false) (hb : busyAt N s'.flags r i = true) : i = (s.rx r).ring.cur := by
  obtain ⟨A', hto⟩ := hinv.step hs
  unfold busyAt at *
  cases hto with
  | dequeue r' hpc hne =>
    rcases eq_or_ne ((N.rxZone r).pmap i) ((N.rxZone r').pmap (s.rx r').ring.cur) with he | he
    · have hz := N.rx_pmap r i hi
      rw [he, N.rx_pmap r' _ (hinv.cur_lt r')] at hz
      cases hz
      exact (N.rxZone r).pmap_inj hi (hinv.cur_lt r) he
    · simp [dequeuePkt, setRx, he, hidle] at hb
  | send t ntx j p q l l' hpc hlt hout htx =>
    rcases eq_or_ne ((N.rxZone r).pmap i) p with he | he
    · simp [sendPkt, he] at hb
    · simp [sendPkt, setTx, transmit, he, hidle] at hb
  | _ =>
    simp [setRx, setTx, sortPkt, putItems, rewrite, gotAll, Stance.advance, Stance.receive, Stance.drain, hidle] at hb

/-- At most how many steps a thread takes before it takes a packet from its ring. -/
def RxThread.toTake (N : SinStance R T E P D) (r : R) (x : RxThread E P) : Nat :=
  match x.pc with
  | .dequeue => 1
  | .poll => 2
  | .spin newHead => dist x.ring.numSlots newHead x.ring.cur + 3
  | .checkCtrl => x.ring.numSlots + 4
  | .exited => 0
  | _ => x.left N r + x.ring.numSlots + 4

/-- At most how many steps a thread takes before it moves `head`, if it can. -/
def RxThread.toSpin (N : SinStance R T E P D) (r : R) (x : RxThread E P) : Nat :=
  match x.pc with
  | .spin newHead => dist x.ring.numSlots newHead x.ring.cur + 1
  | .checkCtrl => x.ring.numSlots + 2
  | .exited => 0
  | _ => x.left N r + x.ring.numSlots + 2

theorem RxMoves.toTake_lt (h : RxMoves N s r choice s') (hinv : Inv N s A) (htidy : Tidy N s)
    (hrun : Undisturbed s (.rx r choice)) (hne : nmRingEmpty (s.rx r).ring = false) :
    s' = dequeuePkt N s r ∨ (s'.rx r).toTake N r < (s.rx r).toTake N r := by
  have hring := (hinv.rx r).ring
  have hleft := h.left_lt hinv (htidy.rx r)
  cases h with
  | ready hpc hne => exact .inr (by simp [RxThread.toTake, setRx, hpc])
  | notReady hpc h => exact absurd (h (hrun.1 hpc hne)) (by simp [hne])
  | dequeue hpc hne => exact .inl rfl
  | nothing hpc hempty hin => exact absurd hempty (by simp [hne])
  | dequeued hpc hempty => exact absurd hempty (by simp [hne])
  | sort n p hpc =>
    have hlt := hleft (by simp [hpc])
    have hpc' : ((sortPkt N s r n p).rx r).pc = .scan (n + 1) (s.links p) := by simp [sortPkt, setRx]
    have hsize : ((sortPkt N s r n p).rx r).ring = (s.rx r).ring := by simp [sortPkt, setRx]
    simp only [RxThread.toTake, hpc, hpc', hsize]
    exact .inr (by omega)
  | sorted n hpc =>
    have hlt := hleft (by simp [hpc])
    simp only [RxThread.toTake, setRx, hpc, Function.update_self] at hlt ⊢
    exact .inr (by omega)
  | skip c todo hpc hempty =>
    have hlt := hleft (by simp [hpc])
    simp only [RxThread.toTake, setRx, hpc, Function.update_self] at hlt ⊢
    exact .inr (by omega)
  | put c todo hpc hne =>
    have hlt := hleft (by simp [hpc])
    have hpc' : ((putItems N (rewrite N s r c) r c todo).rx r).pc = .flush todo := by simp [putItems, setRx]
    have hsize : ((putItems N (rewrite N s r c) r c todo).rx r).ring = (s.rx r).ring := by
      simp [putItems, setRx, setTx, rewrite]
    simp only [RxThread.toTake, hpc, hpc', hsize]
    exact .inr (by omega)
  | flushed hpc =>
    have hlt := hleft (by simp [hpc])
    simp only [RxThread.toTake, setRx, hpc, Function.update_self] at hlt ⊢
    exact .inr (by omega)
  | exit hpc hterm => exact absurd (hterm.symm.trans (hrun.2 hpc)) (by simp)
  | goOn hpc =>
    have hlt := dist_lt hring.head_lt hring.cur_lt
    simp only [RxThread.toTake, setRx, hpc, Function.update_self]
    exact .inr (by omega)
  | spun nh hpc hstop => exact .inr (by simp [RxThread.toTake, setRx, hpc])
  | spin nh hpc hne =>
    have hnext := dist_next_left ((hinv.rx r).scan nh hpc).lt hring.cur_lt hne
    simp only [RxThread.toTake, setRx, hpc, Function.update_self, nmRingNext]
    exact .inr (by omega)

omit [DecidableEq R] [DecidableEq T] [DecidableEq E] [DecidableEq P] in
theorem RxThread.toSpin_lt {x x' : RxThread E P} (hleft : x'.left N r < x.left N r)
    (hsize : x'.ring.numSlots = x.ring.numSlots) (hpc : ∀ nh, x.pc ≠ .spin nh) (hcheck : x.pc ≠ .checkCtrl)
    (hexit : x.pc ≠ .exited) (hpc' : ∀ nh, x'.pc ≠ .spin nh) : x'.toSpin N r < x.toSpin N r := by
  have hx : x.toSpin N r = x.left N r + x.ring.numSlots + 2 := by
    unfold toSpin
    split
    · exact absurd ‹_› (hpc _)
    · exact absurd ‹_› hcheck
    · exact absurd ‹_› hexit
    · rfl
  have hx' : x'.toSpin N r ≤ x'.left N r + x'.ring.numSlots + 2 := by
    unfold toSpin
    split
    · exact absurd ‹_› (hpc' _)
    all_goals omega
  omega

theorem RxMoves.toSpin_lt (h : RxMoves N s r choice s') (hinv : Inv N s A) (htidy : Tidy N s)
    (hrun : Undisturbed s (.rx r choice)) (hne : (s.rx r).ring.cur ≠ (s.rx r).ring.head)
    (hidle : busyAt N s.flags r (s.rx r).ring.head = false) :
    (s'.rx r).ring.head ≠ (s.rx r).ring.head ∨ (s'.rx r).toSpin N r < (s.rx r).toSpin N r := by
  have hring := (hinv.rx r).ring
  have hleft := h.left_lt hinv (htidy.rx r)
  cases h with
  | exit hpc hterm => exact absurd (hterm.symm.trans (hrun.2 hpc)) (by simp)
  | goOn hpc =>
    have hlt := dist_lt hring.head_lt hring.cur_lt
    simp only [RxThread.toSpin, setRx, hpc, Function.update_self]
    exact .inr (by omega)
  | spun nh hpc hstop =>
    left
    simp only [setRx, Function.update_self]
    rintro rfl
    rcases hstop with hcur | hb
    · exact hne hcur.symm
    · simp [busyAt, hb] at hidle
  | spin nh hpc hne =>
    have hnext := dist_next_left ((hinv.rx r).scan nh hpc).lt hring.cur_lt hne
    simp only [RxThread.toSpin, setRx, hpc, Function.update_self, nmRingNext]
    exact .inr (by omega)
  | dequeue hpc hne =>
    refine .inr (RxThread.toSpin_lt (hleft (by simp [hpc])) ?_ ?_ ?_ ?_ ?_) <;> simp [dequeuePkt, setRx, hpc]
  | _ =>
    refine .inr (RxThread.toSpin_lt (hleft (by simp [*])) ?_ ?_ ?_ ?_ ?_) <;>
      simp [setRx, setTx, sortPkt, putItems, rewrite, *]

-- ---------------------------------------------------------------------------
-- One slot after the other
-- ---------------------------------------------------------------------------

/-- The slot is kept, and `k` slots go back before it. -/
def Turn (s : State R T E P D) (r : R) (i k : Nat) : Prop := Kept s r i ∧ s.slotsBefore r i = k

/-- It is not kept any more, or its turn has come nearer. -/
def Nearer (s : State R T E P D) (r : R) (i k : Nat) : Prop := ¬ Kept s r i ∨ (Kept s r i ∧ s.slotsBefore r i < k)

theorem turn_of_step (hinv : Inv N s A) (hs : step N s mv = some s') {i k : Nat} (hi : i < (N.rxZone r).numSlots)
    (hturn : Turn s r i k) :
    Nearer s' r i k ∨ (Turn s' r i k ∧ (s'.rx r).ring.head = (s.rx r).ring.head ∧
      ((s.rx r).ring.cur ≠ (s.rx r).ring.head → (s'.rx r).ring.cur ≠ (s'.rx r).ring.head)) := by
  obtain ⟨hkept, rfl⟩ := hturn
  rcases kept_of_step hinv hs (hi.trans_eq (hinv.rx r).size.symm) hkept with hnear | ⟨hkept', hsame, hhead, -, hcur⟩
  · exact .inl hnear
  · refine .inr ⟨⟨hkept', hsame⟩, hhead, fun hne he => hne ?_⟩
    have hring := (hinv.rx r).ring
    rw [he, hhead, dist_self] at hcur
    exact (dist_inj hring.head_lt hring.cur_lt hring.head_lt).mp ((Nat.le_zero.mp hcur).trans dist_self.symm)

/-- A thread that has taken no packet takes one. -/
theorem takes (e : (machine N).Execution Undisturbed)
    (hpoll : ∀ r, e.WeaklyFair (IsStepOf (.inl r)) fun s => (s.rx r).pc ≠ .exited) {i : Nat}
    (hi : i < (N.rxZone r).numSlots) (k : Nat) :
    e.LeadsTo (fun s => Turn s r i k)
      fun s => Nearer s r i k ∨ (Turn s r i k ∧ (s.rx r).ring.cur ≠ (s.rx r).ring.head) := by
  have htake : e.LeadsTo (fun s => Turn s r i k ∧ (s.rx r).ring.cur = (s.rx r).ring.head)
      fun s => Nearer s r i k ∨ (Turn s r i k ∧ (s.rx r).ring.cur ≠ (s.rx r).ring.head) := by
    refine (hpoll r).leadsTo (fun s => (s.rx r).toTake N r) (fun s hr _ => (running hr).1 r) ?_
    rintro s mv s' hr ⟨hturn, hcur⟩ hok hs
    obtain ⟨hinv, htidy⟩ := inv_tidy hr.reachable
    have hring := (hinv.rx r).ring
    have hne : nmRingEmpty (s.rx r).ring = false := by
      refine Bool.eq_false_iff.mpr fun hempty => ?_
      have htail : (s.rx r).ring.head = (s.rx r).ring.tail := hcur.symm.trans (by simpa [nmRingEmpty] using hempty)
      have hkept := hturn.1
      simp [Kept, Between, ← htail] at hkept
    rcases turn_of_step hinv hs hi hturn with hnear | ⟨hturn', hhead, -⟩
    · exact .inl (.inl hnear)
    · by_cases hcur' : (s'.rx r).ring.cur = (s'.rx r).ring.head
      · rcases rx_of_step hs r with ⟨choice, rfl, hmoves⟩ | ⟨hother, tail, hsame⟩
        · rcases hmoves.toTake_lt hinv htidy hok hne with rfl | hlt
          · have hnext := hring.toInOrder.dist_next_cur hne
            have hmoved : (((dequeuePkt N s r).rx r).ring).cur = nmRingNext (s.rx r).ring (s.rx r).ring.cur := by
              simp [dequeuePkt, setRx]
            rw [← hmoved, hcur', hhead, dist_self] at hnext
            cases hnext
          · exact .inr ⟨⟨hturn', hcur'⟩, hlt.le, fun _ => hlt⟩
        · refine .inr ⟨⟨hturn', hcur'⟩, ?_, fun hown => absurd hown hother⟩
          rw [hsame]
          exact le_rfl
      · exact .inl (.inr ⟨hturn', hcur'⟩)
  intro n hturn
  by_cases hcur : ((e.state n).rx r).ring.cur = ((e.state n).rx r).ring.head
  · exact htake n ⟨hturn, hcur⟩
  · exact ⟨n, le_rfl, .inr ⟨hturn, hcur⟩⟩

/-- The packet at `head` is returned. -/
theorem idles (e : (machine N).Execution Undisturbed) (hfair : Fair e) {i : Nat}
    (hi : i < (N.rxZone r).numSlots) (k : Nat) :
    e.LeadsTo (fun s => Turn s r i k ∧ (s.rx r).ring.cur ≠ (s.rx r).ring.head)
      fun s => Nearer s r i k ∨ (Turn s r i k ∧ (s.rx r).ring.cur ≠ (s.rx r).ring.head ∧
        busyAt N s.flags r (s.rx r).ring.head = false) := by
  rintro n ⟨hturn, hcur⟩
  let nh := ((e.state n).rx r).ring.head
  have hunless : Unless (machine N) Undisturbed
      (fun s => Turn s r i k ∧ (s.rx r).ring.cur ≠ (s.rx r).ring.head ∧ (s.rx r).ring.head = nh)
      fun s => Nearer s r i k := by
    rintro s mv s' hr ⟨hturn, hcur, hhead⟩ - hs
    obtain ⟨hinv, -⟩ := inv_tidy hr.reachable
    rcases turn_of_step hinv hs hi hturn with hnear | ⟨hturn', hhead', hcur'⟩
    · exact .inl hnear
    · exact .inr ⟨hturn', hcur' hcur, hhead'.trans hhead⟩
  have hidle : ∃ m, n ≤ m ∧ busyAt N (e.state m).flags r nh = false := by
    cases hb : busyAt N (e.state n).flags r nh with
    | false => exact ⟨n, le_rfl, hb⟩
    | true => exact returns e hfair _ n hb
  obtain ⟨m, hnm, hm⟩ := hidle
  obtain ⟨l, hnl, hl⟩ := hunless.meets (R := fun s => busyAt N s.flags r nh = false) ⟨hturn, hcur, rfl⟩ hnm hm
  refine ⟨l, hnl, hl.imp_right ?_⟩
  rintro ⟨⟨hturn, hcur, hhead⟩, hidle⟩
  exact ⟨hturn, hcur, hhead ▸ hidle⟩

/-- And its slot goes back. -/
theorem spins (e : (machine N).Execution Undisturbed)
    (hpoll : ∀ r, e.WeaklyFair (IsStepOf (.inl r)) fun s => (s.rx r).pc ≠ .exited) {i : Nat}
    (hi : i < (N.rxZone r).numSlots) (k : Nat) :
    e.LeadsTo (fun s => Turn s r i k ∧ (s.rx r).ring.cur ≠ (s.rx r).ring.head ∧
        busyAt N s.flags r (s.rx r).ring.head = false) fun s => Nearer s r i k := by
  refine (hpoll r).leadsTo (fun s => (s.rx r).toSpin N r) (fun s hr _ => (running hr).1 r) ?_
  rintro s mv s' hr ⟨hturn, hcur, hidle⟩ hok hs
  obtain ⟨hinv, htidy⟩ := inv_tidy hr.reachable
  refine (turn_of_step hinv hs hi hturn).imp_right ?_
  rintro ⟨hturn', hhead, hcur'⟩
  have hidle' : busyAt N s'.flags r (s'.rx r).ring.head = false := by
    rw [hhead]
    refine Bool.eq_false_iff.mpr fun hb => hcur ?_
    exact (busy_of_step hinv hs ((hinv.rx r).size ▸ (hinv.rx r).ring.head_lt) hidle hb).symm
  refine ⟨⟨hturn', hcur' hcur, hidle'⟩, ?_⟩
  rcases rx_of_step hs r with ⟨choice, rfl, hmoves⟩ | ⟨hother, tail, hsame⟩
  · have hlt := (hmoves.toSpin_lt hinv htidy hok hcur hidle).resolve_left (absurd hhead)
    exact ⟨hlt.le, fun _ => hlt⟩
  · refine ⟨?_, fun hown => absurd hown hother⟩
    rw [hsame]
    exact le_rfl

-- ---------------------------------------------------------------------------
-- The theorem
-- ---------------------------------------------------------------------------

theorem gives_back (e : (machine N).Execution Undisturbed) (hfair : Fair e)
    (hpoll : ∀ r, e.WeaklyFair (IsStepOf (.inl r)) fun s => (s.rx r).pc ≠ .exited) {i : Nat}
    (hi : i < (N.rxZone r).numSlots) : e.LeadsTo (fun s => Kept s r i) fun s => ¬ Kept s r i := by
  apply LeadsTo.rank_induction fun s => s.slotsBefore r i
  intro k n hturn
  obtain ⟨m, hnm, hnear | hm⟩ := takes e hpoll hi k n hturn
  · exact ⟨m, hnm, hnear⟩
  · obtain ⟨l, hml, hnear | hl⟩ := idles e hfair hi k m hm
    · exact ⟨l, hnm.trans hml, hnear⟩
    · obtain ⟨l', hll, hnear⟩ := spins e hpoll hi k l hl
      exact ⟨l', hnm.trans (hml.trans hll), hnear⟩

/-- Where `poll` returns in time, each slot of an rx ring is the kernel's again
and again. -/
theorem slots_returned (e : (machine N).Execution Undisturbed) (hfair : Fair e)
    (hpoll : ∀ r, e.WeaklyFair (IsStepOf (.inl r)) fun s => (s.rx r).pc ≠ .exited) {i : Nat}
    (hi : i < (N.rxZone r).numSlots) : e.Recurs fun s => KernelOwns N s r ((N.rxZone r).pmap i) := by
  have howns : ∀ s : State R T E P D, ¬ Kept s r i → KernelOwns N s r ((N.rxZone r).pmap i) := by
    intro s hkept
    refine ⟨N.rx_pmap r i hi, ?_⟩
    rw [(N.rxZone r).zoneIdx_pmap i hi]
    exact hkept
  intro n
  by_cases hkept : Kept (e.state n) r i
  · obtain ⟨m, hnm, hm⟩ := gives_back e hfair hpoll hi n hkept
    exact ⟨m, hnm, howns _ hm⟩
  · exact ⟨n, le_rfl, howns _ hkept⟩

/-- At rest but for the rounds of the rx thread. -/
def Rounds (s : State Unit Unit Unit Nat Nat) : Prop :=
  (nmRingEmpty (s.rx ()).ring = true ∧
      ((s.rx ()).pc = .poll ∨ (s.rx ()).pc = .checkCtrl ∨ ∃ nh, (s.rx ()).pc = .spin nh)) ∧
    (s.tx ()).pc = .waiting 1 ∧ (s.tx ()).signalled = false ∧ txRingNslots (s.tx ()).ring = 1

theorem rounds_go_on (s : State Unit Unit Unit Nat Nat) (h : Rounds s) :
    ∃ s', guarded Undisturbed (step small) s (.rx () false) = some s' ∧ Rounds s' := by
  obtain ⟨⟨hempty, hpc⟩, htx⟩ := h
  have hok : Undisturbed s (.rx () false) := ⟨fun _ hne => absurd hempty (by simp [hne]), fun _ => rfl⟩
  have hrounds : ∀ x : RxThread Unit Nat, nmRingEmpty x.ring = true →
      (x.pc = .poll ∨ x.pc = .checkCtrl ∨ ∃ nh, x.pc = .spin nh) → Rounds (setRx s () x) :=
    fun x hx hpc => ⟨⟨hx, hpc⟩, htx⟩
  simp only [guarded, hok, if_true, step, rxStep]
  rcases hpc with hpc | hpc | ⟨nh, hpc⟩ <;> simp only [hpc]
  · exact ⟨_, rfl, hrounds _ hempty (by simp)⟩
  · exact ⟨_, rfl, hrounds _ hempty (by simp)⟩
  · split
    · exact ⟨_, rfl, hrounds _ hempty (by simp)⟩
    · exact ⟨_, rfl, hrounds _ hempty (by simp)⟩

/-- The slot of the first frame is not the kernel's after five steps. -/
theorem slots_returned_first : ∃ e : (machine small).Execution Undisturbed,
    Kept (e.state 5) () 0 ∧ e.Recurs fun s => KernelOwns small s () 0 := by
  obtain ⟨s', he, hp⟩ := (Option.any_eq_true
    (fun s => (s.rx ()).pc = .poll ∧ nmRingEmpty (s.rx ()).ring = true ∧ (s.tx ()).pc = .waiting 1 ∧
      (s.tx ()).signalled = false ∧ txRingNslots (s.tx ()).ring = 1)
    (exec (guarded Undisturbed (step small)) smallStart smallRest)).mp (by decide)
  obtain ⟨hpoll, hempty, htx⟩ := of_decide_eq_true hp
  have hI : Rounds s' := ⟨⟨hempty, .inl hpoll⟩, htx⟩
  have hrest := fun n => ofExecThen_state small_start he hI rounds_go_on (le_max_right n smallRest.length)
  have hmoves := fun n => ofExecThen_event small_start he hI rounds_go_on (le_max_right n smallRest.length)
  have hfirst : Kept ((exec (guarded Undisturbed (step small)) smallStart
      ((List.range 5).map fun i => smallRest[i]?.getD (.rx () false))).getD smallStart) () 0 := by decide
  refine ⟨.ofExecThen smallRest (.rx () false) small_start he hI rounds_go_on, hfirst,
    slots_returned _ ⟨?_, fun t n => ?_⟩ (fun r n _ => ?_) (i := 0) (by decide)⟩
  · rintro (_ | _) n hrun
    · exact ⟨_, le_max_left _ _, _, hmoves n, rfl⟩
    · obtain ⟨-, hwait, hsignal, -⟩ := hrest n
      exact absurd ((hrun _ (le_max_left _ _)).2 1 hwait) (by simp [hsignal])
  · obtain ⟨-, -, -, hroom⟩ := hrest n
    exact ⟨_, le_max_left _ _, fun hfull => absurd (hroom.symm.trans hfull) (by decide)⟩
  · exact ⟨_, le_max_left _ _, _, hmoves n, rfl⟩

end Libsinet.Stance
