import Libsinet.Base.Delivery
import Libsinet.StanceCycle
import Libsinet.StanceOrder

/-!
# Every frame is forwarded

What a ring receives gets into the tx ring of its class and to the kernel, as
long as the threads that can move are given their turns, the kernel goes on
sending, and nobody is told to stop.
-/

namespace Libsinet.Stance

open Machine Execution NetmapRing Circular

variable {R : Type u} {T : Type v} {E : Type w} {P : Type x} {D : Type y}
variable [DecidableEq R] [DecidableEq T] [DecidableEq E] [DecidableEq P]
variable {N : SinStance R T E P D} {s s' : State R T E P D} {A A' : Place R T E → List P} {r : R} {t : T}
  {c : Option E} {p q : P} {l : List P} {mv : Move R T D} {choice : Bool}

/-- `poll` reports the frames in a ring, and no thread finds `SIGTERM`. -/
def Undisturbed (s : State R T E P D) : Move R T D → Prop
  | .rx r choice =>
    ((s.rx r).pc = .poll → nmRingEmpty (s.rx r).ring = false → choice = true) ∧
      ((s.rx r).pc = .checkCtrl → choice = false)
  | .tx t choice => (s.tx t).pc = .checkCtrl → choice = false
  | _ => True

instance (s : State R T E P D) : ∀ mv : Move R T D, Decidable (Undisturbed s mv)
  | .rx _ _ => inferInstanceAs (Decidable ((_ → _ → _) ∧ (_ → _)))
  | .tx _ _ => inferInstanceAs (Decidable (_ → _))
  | .receive _ _ => inferInstanceAs (Decidable True)
  | .drain _ _ => inferInstanceAs (Decidable True)

/-- `poll` returns when there are frames, and `pthread_cond_wait` once it is signalled. -/
def Runnable (thread : Thread R T) (s : State R T E P D) : Prop :=
  match thread with
  | .inl r => (s.rx r).pc ≠ .exited ∧ ((s.rx r).pc = .poll → nmRingEmpty (s.rx r).ring = false)
  | .inr t => (s.tx t).pc ≠ .exited ∧ ∀ n, (s.tx t).pc = .waiting n → (s.tx t).signalled = true

structure Fair (e : (machine N).Execution Undisturbed) : Prop where
  threads : ∀ thread, e.WeaklyFair (IsStepOf thread) (Runnable thread)
  kernel : ∀ t, e.Recurs fun s => txRingNslots (s.tx t).ring ≠ 0

-- ---------------------------------------------------------------------------
-- Steps on the pipeline
-- ---------------------------------------------------------------------------

/-- What an instance is as a pipeline. -/
abbrev State.pipeline (N : SinStance R T E P D) (s : State R T E P D) :
    Pipeline.State R (R × Option E) T (Forward R D) := abs N s s.pkts

theorem pipeline_ok (h : (machine N).Reachable s) : Pipeline.Ok N.routes (s.pipeline N) :=
  Pipeline.ok_of_reachable (reachable_abs h).2

theorem pipeline_step (h : (machine N).Reachable s) (hs : step N s mv = some s') :
    s'.pipeline N = s.pipeline N ∨ Pipeline.Step N.routes (s.pipeline N) (s'.pipeline N) := by
  obtain ⟨hinv, -⟩ := reachable_abs h
  obtain ⟨A', hto⟩ := hinv.step hs
  rw [State.pipeline, (hinv.stepTo hto).pkts_eq]
  exact hto.abs hinv (short_of_reachable h) (pipeline_ok h)

/-- All that is sent is what became of something that has arrived. -/
theorem sent_item (h : (machine N).Reachable s) {f : Forward R D} (hf : f ∈ s.sent t) :
    ∃ g ∈ s.arrived f.ring, f = N.item f.ring g ∧ N.outq f.ring (N.classOf f.ring g) = t := by
  have hok := pipeline_ok h
  have hsink : N.outq f.ring (N.classOf f.ring f.received) = t := hok.sent t f hf
  have hflow := hok.flow (N.routes.key f)
  have hmem : f ∈ N.routes.only (N.routes.key f) ((s.arrived f.ring).map (N.item f.ring)) := by
    refine hflow ▸ List.mem_append_left _ (List.mem_filter.mpr ⟨?_, by simp⟩)
    show f ∈ s.sent (N.outq f.ring (N.classOf f.ring f.received))
    rw [hsink]
    exact hf
  obtain ⟨g, hg, hitem⟩ := List.mem_map.mp (List.mem_filter.mp hmem).1
  refine ⟨g, hg, hitem.symm, ?_⟩
  rw [← hsink, ← hitem]
  rfl

/-- Where only one class of a ring's frames goes to a tx ring, they stay in order. -/
theorem sent_class (h : (machine N).Reachable s)
    (hc : ∀ f, N.outq r (N.classOf r f) = N.outq r c → N.classOf r f = c) :
    ((s.sent (N.outq r c)).filter fun g => g.ring = r) <+: (s.received N r c).map (N.consumed r c) := by
  have hok := pipeline_ok h
  have hkey : ∀ g ∈ s.sent (N.outq r c), decide (g.ring = r) = decide (N.routes.key g = (r, c)) := by
    intro g hg
    have hsink : N.outq g.ring (N.classOf g.ring g.received) = N.outq r c := hok.sent _ g hg
    refine decide_eq_decide.mpr ⟨?_, congrArg Prod.fst⟩
    rintro rfl
    exact Prod.ext rfl (hc _ hsink)
  rw [List.filter_congr hkey, State.received, ← only_item]
  exact ⟨_, hok.flow (r, c)⟩

theorem running (h : (machine N).ReachableBy Undisturbed s) :
    (∀ r, (s.rx r).pc ≠ .exited) ∧ ∀ t, (s.tx t).pc ≠ .exited := by
  refine ReachableBy.induct (J := fun _ => True)
    (I := fun s => (∀ r, (s.rx r).pc ≠ .exited) ∧ ∀ t, (s.tx t).pc ≠ .exited) h (fun _ _ => trivial)
    (fun s h => ?_) fun s mv s' _ hrun hok hs => ?_
  · exact ⟨fun r => by simp [h.rx r], fun t => by simp [h.tx t]⟩
  · constructor
    · intro r
      rcases rx_of_step hs r with ⟨choice, rfl, hmoves⟩ | ⟨-, tail, hsame⟩
      · cases hmoves with
        | exit hpc hterm => exact absurd (hterm.symm.trans (hok.2 hpc)) (by simp)
        | dequeue hpc hne => simp [dequeuePkt, setRx, hpc]
        | _ => simp [setRx, sortPkt, putItems]
      · rw [hsame]
        exact hrun.1 r
    · intro t
      rcases tx_of_step hs t with ⟨choice, rfl, hmoves⟩ | ⟨-, queue, signalled, tail, hsame⟩
      · cases hmoves with
        | exit hpc hterm => exact absurd (hterm.symm.trans (hok hpc)) (by simp)
        | _ => simp [setTx, gotAll, sendPkt, transmit, advance]
      · rw [hsame]
        exact hrun.2 t

-- ---------------------------------------------------------------------------
-- The tx thread
-- ---------------------------------------------------------------------------

/-- Whether a tx thread goes through `check_ctrl` before it sends anything. -/
def TxThread.later (y : TxThread P) : Bool :=
  match y.pc with
  | .start _ => y.pktsOut.isEmpty
  | .checkCtrl => true
  | _ => false

def TxThread.rank (y : TxThread P) : Nat := y.left + if y.later then 2 * y.ring.numSlots + 5 else 0

omit [DecidableEq P] in
theorem TxThread.rank_lt {y y' : TxThread P} (hleft : y'.left < y.left)
    (hsize : y'.ring.numSlots = y.ring.numSlots) (hlater : y'.later = true → y.later = true) :
    y'.rank < y.rank := by
  unfold rank
  rw [hsize]
  cases hl' : y'.later with
  | false => exact Nat.lt_add_right _ hleft
  | true => simpa [hlater hl'] using hleft

/-- The slots that a tx thread may fill stay, but for those it fills. -/
theorem txRingNslots_of_step (h : Inv N s A) (hs : step N s mv = some s') (t : T) :
    txRingNslots (s.tx t).ring ≤ txRingNslots (s'.tx t).ring ∨
      ∃ ntx pkt, (s.tx t).pc = .advance ntx pkt ∧ s' = advance N s t ntx pkt := by
  cases mv with
  | rx r choice =>
    obtain ⟨queue, signalled, hq⟩ := (rxStep_moves hs).tx t
    rw [hq]
    exact .inl le_rfl
  | tx t' choice =>
    have hmoves := txStep_moves hs
    rcases eq_or_ne t t' with rfl | ht
    · cases hmoves with
      | advance ntx pkt hpc => exact .inr ⟨ntx, pkt, hpc, rfl⟩
      | _ => exact .inl (by simp [setTx, gotAll, sendPkt, transmit])
    · rw [hmoves.tx_other ht]
      exact .inl le_rfl
  | receive r k =>
    obtain ⟨hk, ⟨⟩⟩ := Option.ite_none_right_eq_some.mp hs
    exact .inl le_rfl
  | drain t' n =>
    obtain ⟨hn, ⟨⟩⟩ := Option.ite_none_right_eq_some.mp hs
    rcases eq_or_ne t t' with rfl | ht
    · have htail := hn.2
      rw [← (h.tx t).cur] at htail
      simpa [txRingNslots_eq, drain, setTx] using Or.inl htail
    · simp [drain, setTx, ht]

-- ---------------------------------------------------------------------------
-- Wake-ups
-- ---------------------------------------------------------------------------

/-- A thread that waits is counted in `nwait`, and it has been signalled if
there are items in its queue. -/
def TxThread.Awaits (y : TxThread P) : Prop :=
  ∀ n, y.pc = .waiting n → 0 < y.queue.nwait ∧ (y.queue.head ≠ none → y.signalled = true)

omit [DecidableEq R] [DecidableEq E] in
theorem TxMoves.awaits (h : TxMoves N s t choice s') : (s'.tx t).Awaits := by
  cases h with
  | wait n queue hpc hempty hitems hnwait =>
    have hhead : queue.head = none := (congrArg SinList.head hitems).trans hempty
    intro m _
    simpa [setTx, hhead] using hnwait
  | _ => simp [TxThread.Awaits, setTx, gotAll, sendPkt, transmit, Stance.advance]

omit [DecidableEq P] in
theorem TxPc.isWaiting_iff {pc : TxPc P} : pc.isWaiting = true ↔ ∃ n, pc = .waiting n := by
  cases pc <;> simp [isWaiting]

/-- The put of a consumer signals whoever waits. -/
theorem TxThread.Awaits.put {y : TxThread P} (h : y.Awaits) (m : Links P) (lst : SinList P) :
    TxThread.Awaits { y with
      queue := (sinWiQueuePutItems m lst y.queue).queue
      signalled := y.signal (sinWiQueuePutItems m lst y.queue).signal } := by
  intro n hpc
  have hnwait := (h n hpc).1
  refine ⟨by simpa using hnwait, fun _ => ?_⟩
  have hpc' : y.pc.isWaiting = true := TxPc.isWaiting_iff.mpr ⟨n, hpc⟩
  simp [TxThread.signal, SinWiQueue.notifies, hpc', hnwait]

theorem RxMoves.awaits (h : RxMoves N s r choice s') (ht : (s.tx t).Awaits) : (s'.tx t).Awaits := by
  cases h with
  | put c todo hpc hne =>
    rcases eq_or_ne t (N.outq r c) with rfl | hne
    · simpa [putItems, setRx, setTx, rewrite] using ht.put _ _
    · simpa [putItems, setRx, setTx, rewrite, hne] using ht
  | _ => exact ht

/-- No wake-up of a tx thread is lost. -/
theorem awaits (h : (machine N).Reachable s) (t : T) : (s.tx t).Awaits := by
  refine Reachable.induct (I := fun s => (s.tx t).Awaits) h (fun s h => ?_) fun s mv s' ih hs => ?_
  · intro n hpc
    simp [h.tx t] at hpc
  · cases mv with
    | rx r choice => exact (rxStep_moves hs).awaits ih
    | tx t' choice =>
      have hmoves := txStep_moves hs
      rcases eq_or_ne t t' with rfl | ht
      · exact hmoves.awaits
      · rw [hmoves.tx_other ht]
        exact ih
    | receive r k =>
      obtain ⟨hk, ⟨⟩⟩ := Option.ite_none_right_eq_some.mp hs
      exact ih
    | drain t' tail =>
      obtain ⟨hn, ⟨⟩⟩ := Option.ite_none_right_eq_some.mp hs
      rcases eq_or_ne t t' with rfl | ht
      · simpa [drain, setTx, TxThread.Awaits] using ih
      · simpa [drain, setTx, ht] using ih

-- ---------------------------------------------------------------------------
-- The tx thread
-- ---------------------------------------------------------------------------

omit [DecidableEq R] [DecidableEq T] [DecidableEq E] [DecidableEq P] in
theorem queue_ne_of_get (hinv : Inv N s s.pkts) (htidy : Tidy N s) (hpc : AtGet (s.tx t) n)
    (hne : (s.pipeline N).queued t ≠ []) : (s.tx t).queue.head ≠ none := by
  have hidle : (s.tx t).pktsOut.isEmpty = true := by
    have htidy := htidy.tx t
    rcases hpc with hpc | hpc <;> simpa [TxThread.Tidy, hpc] using htidy
  have hfilled : filled N s t = [] := by
    rcases hpc with hpc | hpc <;> simp [filled, TxThread.placed, hpc, slots]
  have hout : s.pkts (.pktsOut t) = [] := (hinv.holds_out (hinv.at_get hpc).2.1).isEmpty_iff.mp hidle
  refine mt (hinv.lay.sep.holds (.outpktQueue t)).head_none_iff.mp fun hqueue => hne ?_
  simp [abs, queued, hfilled, hout, hqueue]

/-- A step of the tx thread with something to send and room for it. -/
theorem TxMoves.rank_lt (h : TxMoves N s t choice s') (hinv : Inv N s s.pkts) (htidy : Tidy N s)
    (hrun : (s.tx t).pc = .checkCtrl → choice = false) (hroom : txRingNslots (s.tx t).ring ≠ 0)
    (hne : (s.pipeline N).queued t ≠ []) :
    (∃ ntx pkt, (s.tx t).pc = .advance ntx pkt ∧ s' = Stance.advance N s t ntx pkt) ∨
      (s'.tx t).rank < (s.tx t).rank := by
  have hleft := h.left_lt hinv
  cases h with
  | full hpc hfull => exact absurd hfull hroom
  | get hpc hempty =>
    refine .inr (TxThread.rank_lt (hleft (by simp [hpc])) ?_ ?_) <;> simp [setTx, TxThread.later]
  | rest hpc hfull =>
    refine .inr (TxThread.rank_lt (hleft (by simp [hpc])) ?_ ?_) <;> simp [setTx, TxThread.later, hfull]
  | wait n queue hpc hempty hitems hnwait => exact absurd hempty (queue_ne_of_get hinv htidy (.inl hpc) hne)
  | woken n queue hpc hempty => exact absurd hempty (queue_ne_of_get hinv htidy (.inr hpc) hne)
  | got n queue hpc hhead hqueue =>
    have hA : s.pkts (.outpktQueue t) ≠ [] := mt (hinv.lay.sep.holds (.outpktQueue t)).head_none_iff.mpr hhead
    have hgot := hinv.gotAll hpc hqueue hA
    have hfull : ((gotAll s t n queue).tx t).pktsOut.isEmpty = false := by
      refine Bool.eq_false_iff.mpr fun he => hA ?_
      have hout := (hgot.holds_out (by simp [gotAll, setTx, TxThread.outList])).isEmpty_iff.mp he
      simp at hout
      exact hout.2
    refine .inr (TxThread.rank_lt (hleft ?_) ?_ ?_)
    · rcases hpc with hpc | hpc <;> simp [hpc]
    · simp [gotAll, setTx]
    · have hlater : ((gotAll s t n queue).tx t).later = false := by
        simpa [gotAll, setTx, TxThread.later] using hfull
      simp [hlater]
  | nothing n hpc hempty =>
    refine .inr (TxThread.rank_lt (hleft (by simp [hpc])) ?_ ?_) <;> simp [setTx, TxThread.later, hpc, hempty]
  | start n pktsTx curidx hpc hfull =>
    refine .inr (TxThread.rank_lt (hleft (by simp [hpc])) ?_ ?_) <;> simp [setTx, TxThread.later]
  | getpkt ntx left curidx curidx' pktsTx m hpc hlast =>
    refine .inr (TxThread.rank_lt (hleft (by simp [hpc])) ?_ ?_) <;> simp [setTx, TxThread.later]
  | gotpkts ntx left curidx pkt pktTx hpc =>
    refine .inr (TxThread.rank_lt (hleft (by simp [hpc])) ?_ ?_) <;> simp [setTx, TxThread.later]
  | send ntx i p q hpc hlt =>
    refine .inr (TxThread.rank_lt (hleft (by simp [hpc])) ?_ ?_) <;>
      simp [sendPkt, transmit, setTx, TxThread.later]
  | sent ntx i pkt pktTx hpc =>
    refine .inr (TxThread.rank_lt (hleft (by simp [hpc])) ?_ ?_) <;> simp [setTx, TxThread.later]
  | advance ntx pkt hpc => exact .inl ⟨ntx, pkt, hpc, rfl⟩
  | exit hpc hterm => exact absurd (hterm.symm.trans (hrun hpc)) (by simp)
  | goOn hpc => exact .inr (by simp [TxThread.rank, TxThread.left, TxThread.later, setTx, hpc])

theorem queued_of_step (h : (machine N).Reachable s) (hs : step N s mv = some s') (t : T)
    (hne : (s.pipeline N).queued t ≠ []) :
    (s.sent t).length < (s'.sent t).length ∨ (s'.pipeline N).queued t ≠ [] := by
  rcases pipeline_step h hs with he | hstep
  · exact .inr (he ▸ hne)
  · have hsent := (hstep.sent t).length_le
    have hthrough := (hstep.through t).length_le
    simp only [Pipeline.State.through, List.length_append] at hthrough
    rw [← List.length_pos_iff] at hne ⊢
    by_cases hlt : (s.sent t).length < (s'.sent t).length
    · exact .inl hlt
    · refine .inr ?_
      have heq : ((s'.pipeline N).sent t).length = ((s.pipeline N).sent t).length :=
        le_antisymm (Nat.le_of_not_lt hlt) hsent
      omega

omit [DecidableEq R] [DecidableEq E] [DecidableEq P] in
theorem sent_advance (ntx : Nat) (pkt : Option P) :
    ((advance N s t ntx pkt).sent t).length = (s.sent t).length + ntx := by
  simp [advance]

/-- What is queued is sent on. -/
theorem sends (e : (machine N).Execution Undisturbed) (hfair : Fair e) (t : T) (v : ℕ) :
    e.LeadsTo (fun s => v ≤ (s.sent t).length ∧ (s.pipeline N).queued t ≠ []) fun s => v < (s.sent t).length := by
  let P : State R T E P D → Prop := fun s => v ≤ (s.sent t).length ∧ (s.pipeline N).queued t ≠ []
  have hkeep : ∀ s mv s', (machine N).Reachable s → P s → step N s mv = some s' →
      v < (s'.sent t).length ∨ P s' := by
    rintro s mv s' hr ⟨hv, hne⟩ hs
    have hgrow : (s.sent t).length ≤ (s'.sent t).length := by
      rcases pipeline_step hr hs with he | hstep
      · have hsame : s'.sent = s.sent := congrArg Pipeline.State.sent he
        exact (congrArg (fun f => (f t).length) hsame).ge
      · exact (hstep.sent t).length_le
    rcases queued_of_step hr hs t hne with hlt | hne'
    · exact .inl (hv.trans_lt hlt)
    · exact .inr ⟨hv.trans hgrow, hne'⟩
  have hroom : e.LeadsTo P fun s =>
      v < (s.sent t).length ∨ (P s ∧ txRingNslots (s.tx t).ring ≠ 0) :=
    Unless.recurs (fun s mv s' hr hp _ hs => hkeep s mv s' hr.reachable hp hs) (hfair.kernel t)
  refine hroom.or_self ((hfair.threads (.inr t)).leadsTo (fun s => (s.tx t).rank) ?_ ?_)
  · rintro s hr ⟨⟨-, hne⟩, -⟩
    obtain ⟨hinv, htidy⟩ := inv_tidy hr.reachable
    refine ⟨(running hr).2 t, fun n hpc => ?_⟩
    exact (awaits hr.reachable t n hpc).2 (queue_ne_of_get hinv htidy (.inr hpc) hne)
  · rintro s mv s' hr ⟨hp, hslots⟩ hok hs
    obtain ⟨hinv, htidy⟩ := inv_tidy hr.reachable
    have hsends : ∀ {ntx pkt}, (s.tx t).pc = .advance ntx pkt → s' = advance N s t ntx pkt →
        v < (s'.sent t).length := by
      rintro ntx pkt hpc rfl
      have htidy := htidy.tx t
      simp only [TxThread.Tidy, hpc] at htidy
      have hlen := sent_advance (N := N) (s := s) (t := t) ntx pkt
      have hv := hp.1
      omega
    refine or_iff_not_imp_left.mpr fun hno => ?_
    have hp' : P s' := (hkeep s mv s' hr.reachable hp hs).resolve_left hno
    have hslots' : txRingNslots (s'.tx t).ring ≠ 0 := by
      rcases txRingNslots_of_step hinv hs t with hle | ⟨ntx, pkt, hpc, he⟩
      · omega
      · exact absurd (hsends hpc he) hno
    rcases tx_of_step hs t with ⟨choice, rfl, hmoves⟩ | ⟨hother, queue, signalled, tail, hsame⟩
    · rcases hmoves.rank_lt hinv htidy hok hslots hp.2 with ⟨ntx, pkt, hpc, he⟩ | hlt
      · exact absurd (hsends hpc he) hno
      · exact ⟨⟨hp', hslots'⟩, hlt.le, fun _ => hlt⟩
    · refine ⟨⟨hp', hslots'⟩, ?_, fun hown => absurd hown hother⟩
      rw [hsame]
      exact le_rfl

-- ---------------------------------------------------------------------------
-- The rx thread
-- ---------------------------------------------------------------------------

/-- A frame of the class is on its work list, or will be in this cycle. -/
def InCycle (N : SinStance R T E P D) (s : State R T E P D) (r : R) (c : Option E) : Prop :=
  s.pkts (.wrklist r c) ≠ [] ∨ ∃ p ∈ s.pkts (.pktsIn r), N.classOf r (s.frame p) = c

instance (N : SinStance R T E P D) (s : State R T E P D) (r : R) (c : Option E) :
    Decidable (InCycle N s r c) := inferInstanceAs (Decidable (_ ∨ _))

/-- Whether an rx thread goes through `check_ctrl` before it puts a frame of the class. -/
def State.later (N : SinStance R T E P D) (s : State R T E P D) (r : R) (c : Option E) : Bool :=
  match (s.rx r).pc with
  | .scan _ _ => !decide (InCycle N s r c)
  | .flush _ => !decide (InCycle N s r c)
  | .checkCtrl => true
  | _ => false

def State.rank (N : SinStance R T E P D) (s : State R T E P D) (r : R) (c : Option E) : Nat :=
  (s.rx r).left N r + if s.later N r c then 3 * (s.rx r).ring.numSlots + (N.classes r).length + 5 else 0

omit [DecidableEq R] [DecidableEq T] [DecidableEq P] in
theorem State.rank_lt (hleft : (s'.rx r).left N r < (s.rx r).left N r)
    (hsize : (s'.rx r).ring.numSlots = (s.rx r).ring.numSlots)
    (hlater : s'.later N r c = true → s.later N r c = true) : s'.rank N r c < s.rank N r c := by
  unfold rank
  rw [hsize]
  cases hl' : s'.later N r c with
  | false => exact Nat.lt_add_right _ hleft
  | true => simpa [hlater hl'] using hleft

omit [DecidableEq T] [DecidableEq P] in
theorem behind_iff : (s.pipeline N).behind N.routes (r, c) ↔
    InCycle N s r c ∨ ∃ f ∈ s.pending N r, N.classOf r f = c := by
  have hinput : N.routes.only (r, c) ((s.pipeline N).input r) =
      ((taken N s s.pkts r).filter fun f => N.classOf r f = c).map (N.consumed r c) := only_item _
  have hsource : N.routes.source (r, c) = r := rfl
  rw [Pipeline.State.behind, hsource, hinput]
  simp only [abs, InCycle, taken, ne_eq, List.append_eq_nil_iff, List.map_eq_nil_iff, List.filter_eq_nil_iff,
    not_and_or, not_forall, or_assoc]
  refine or_congr_right ?_
  simp [or_and_right, exists_or]

omit [DecidableEq R] [DecidableEq T] [DecidableEq E] [DecidableEq P] in
theorem pending_nil (hempty : nmRingEmpty (s.rx r).ring = true) : s.pending N r = [] := by
  have hcur : (s.rx r).ring.cur = (s.rx r).ring.tail := by simpa [nmRingEmpty] using hempty
  simp [State.pending, hcur, slots]

omit [DecidableEq P] in
theorem pkts_setRx {x : RxThread E P} (hin : x.inList = (s.rx r).inList)
    (hwrk : x.wrklist = (s.rx r).wrklist) : (setRx s r x).pkts = s.pkts := by
  have hlist : (setRx s r x).list = s.list := by
    refine Eq.trans (list_rx_in (s := s) rfl rfl hwrk) ?_
    rw [hin]
    exact Function.update_eq_self (f := s.list) (.pktsIn r)
  unfold State.pkts
  rw [hlist]
  rfl

omit [DecidableEq P] in
theorem inCycle_setRx {x : RxThread E P} (hin : x.inList = (s.rx r).inList)
    (hwrk : x.wrklist = (s.rx r).wrklist) : InCycle N (setRx s r x) r c ↔ InCycle N s r c := by
  unfold InCycle
  rw [pkts_setRx hin hwrk]
  rfl

theorem inCycle_sort (hinv : Inv N s s.pkts) (hpc : (s.rx r).pc = .scan n (some p))
    (hA : s.pkts (.pktsIn r) = p :: l) : InCycle N (sortPkt N s r n p) r c ↔ InCycle N s r c := by
  have hpkts := (hinv.sort hpc hA).pkts_eq
  have hframe : (sortPkt N s r n p).frame = s.frame := (quiet_sortPkt (N := N) r n p).frame
  unfold InCycle
  rw [hpkts, hframe, hA]
  rcases eq_or_ne c (N.classOf r (s.frame p)) with rfl | hc
  · simp
  · have hne : (.wrklist r c : Place R T E) ≠ .wrklist r (N.classOf r (s.frame p)) := by simpa using hc
    simp [hne, Ne.symm hc]

omit [DecidableEq R] [DecidableEq T] [DecidableEq E] [DecidableEq P] in
theorem inCycle_flush (hinv : Inv N s s.pkts) (hpc : (s.rx r).pc = .flush todo) :
    InCycle N s r c ↔ s.pkts (.wrklist r c) ≠ [] := by
  have hin : s.pkts (.pktsIn r) = [] := hinv.at_nil (by simp [State.list, RxThread.inList, hpc])
  simp [InCycle, hin]

/-- A thread puts the list it has rewritten. -/
theorem put_rewritten (hinv : Inv N s s.pkts) (hpc : (s.rx r).pc = .flush (c :: todo))
    (hne : ((s.rx r).wrklist c).isEmpty = false) :
    Inv N (putItems N (rewrite N s r c) r c todo) (Function.update (Function.update s.pkts
      (.outpktQueue (N.outq r c)) (s.pkts (.outpktQueue (N.outq r c)) ++ s.pkts (.wrklist r c)))
      (.wrklist r c) []) :=
  (hinv.rewrite r c).put hpc hne

theorem inCycle_put (hinv : Inv N s s.pkts) (hpc : (s.rx r).pc = .flush (c' :: todo))
    (hne : ((s.rx r).wrklist c').isEmpty = false) (hc : c ≠ c') :
    InCycle N (putItems N (rewrite N s r c') r c' todo) r c ↔ InCycle N s r c := by
  have hput := put_rewritten hinv hpc hne
  have hpc' : ((putItems N (rewrite N s r c') r c' todo).rx r).pc = .flush todo := by
    simp [putItems, setRx]
  have hlist : (.wrklist r c : Place R T E) ≠ .wrklist r c' := by simpa using hc
  rw [← hput.pkts_eq] at hput
  rw [inCycle_flush hput hpc', inCycle_flush hinv hpc, (put_rewritten hinv hpc hne).pkts_eq]
  simp [hlist]

/-- What `pkts_in` and the work lists of a thread hold is its own matter. -/
theorem StepTo.apart (hs : StepTo N s A s' A') (h : Inv N s A) {tail : Nat}
    (hsame : s'.rx r = { s.rx r with ring := { (s.rx r).ring with tail } }) :
    A' (.pktsIn r) = A (.pktsIn r) ∧ (∀ c, A' (.wrklist r c) = A (.wrklist r c)) ∧
      ∀ p ∈ A (.pktsIn r), s'.frame p = s.frame p := by
  cases hs with
  | rx r' x hin hwrk hok hring => exact ⟨rfl, fun _ => rfl, fun _ _ => rfl⟩
  | dequeue r' hpc hne =>
    have hr : r ≠ r' := by
      rintro rfl
      have hlen := congrArg (fun x => x.pktsIn.len) hsame
      simp [dequeuePkt, setRx, sinListAppend_len] at hlen
    have hidle := h.lay.idle (h.cur_lt r') (h.rx r').ring.cur_not_busy
    refine ⟨by simp [hr], by simp, fun p hp => ?_⟩
    simp [State.frame, dequeuePkt, setRx, ne_of_mem_of_not_mem hp (hidle _)]
  | sort r' n p l hpc hA =>
    have hr : r ≠ r' := by
      rintro rfl
      have hpc' := congrArg RxThread.pc hsame
      simp [sortPkt, setRx, hpc] at hpc'
    exact ⟨by simp [hr], by simp [hr], fun _ _ => rfl⟩
  | put r' c' todo hpc hne =>
    have hr : r ≠ r' := by
      rintro rfl
      have hpc' := congrArg RxThread.pc hsame
      simp [putItems, setRx, hpc] at hpc'
    refine ⟨by simp, by simp [hr], fun p hp => ?_⟩
    have hp' : p ∉ A (.wrklist r' c') := fun hp' => by cases h.lay.sep.once p _ _ hp hp'
    exact (h.rewrite_other hp').1
  | tx t y hqueue hout htx hok hring hplaced => exact ⟨rfl, fun _ => rfl, fun _ _ => rfl⟩
  | gotAll t n queue hpc hqueue hA => exact ⟨by simp, by simp, fun _ _ => rfl⟩
  | getpkt t i y m hi hp hqueue hout htx hok hring hplaced => exact ⟨by simp, by simp, fun _ _ => rfl⟩
  | send t ntx i p q l l' hpc hlt hout htx =>
    refine ⟨by simp, by simp, fun p' hp' => ?_⟩
    obtain ⟨hne, hneq⟩ := h.sent_apart (hout ▸ List.mem_cons_self) (htx ▸ List.mem_cons_self) rfl (by simp) hp'
    exact (sendPkt_other N s t ntx i hne hneq).1
  | advance t ntx pkt hpc => exact ⟨rfl, fun _ => rfl, fun _ _ => rfl⟩
  | receive r' k hk => exact ⟨rfl, fun _ => rfl, fun p hp => h.list_receive r' k rfl hp⟩
  | drain t n hn => exact ⟨rfl, fun _ => rfl, fun _ _ => rfl⟩

theorem rank_of_other (hinv : Inv N s s.pkts) (hs : step N s mv = some s') {tail : Nat}
    (hsame : s'.rx r = { s.rx r with ring := { (s.rx r).ring with tail } }) :
    s'.rank N r c = s.rank N r c := by
  obtain ⟨A', hto⟩ := hinv.step hs
  obtain ⟨hin, hwrk, hframe⟩ := hto.apart hinv hsame
  have hcycle : InCycle N s' r c ↔ InCycle N s r c := by
    unfold InCycle
    rw [(hinv.stepTo hto).pkts_eq, hin, hwrk]
    refine or_congr_right (exists_congr fun p => and_congr_right fun hp => ?_)
    rw [hframe p hp]
  simp only [State.rank, State.later, hcycle, hsame]
  rfl

theorem taken_put (hinv : Inv N s s.pkts) (hpc : (s.rx r).pc = .flush (c :: todo))
    (hne : ((s.rx r).wrklist c).isEmpty = false) :
    taken N (putItems N (rewrite N s r c) r c todo) (putItems N (rewrite N s r c) r c todo).pkts r =
      taken N s s.pkts r := by
  have hput := put_rewritten hinv hpc hne
  have hquiet := quiet_putItems (N := N) (s := rewrite N s r c) r c todo
  have hin : s.pkts (.pktsIn r) = [] := hinv.at_nil (by simp [State.list, RxThread.inList, hpc])
  refine taken_congr ?_ (fun p hp => ?_) (hquiet.pending r) fun p hp => ?_
  · rw [hput.pkts_eq]
    simp
  · simp [hin] at hp
  · rw [hquiet.slotFrame]
    exact (hinv.rewrite_other ((hinv.pending hp).2.1 _)).2.1

/-- The frames of a work list that is put are in the class's queue. -/
theorem put_through (hinv : Inv N s s.pkts) (hok : Pipeline.Ok N.routes (s.pipeline N))
    (hpc : (s.rx r).pc = .flush (c :: todo)) (hne : ((s.rx r).wrklist c).isEmpty = false)
    (hok' : Pipeline.Ok N.routes ((putItems N (rewrite N s r c) r c todo).pipeline N)) :
    (N.routes.only (r, c) ((s.pipeline N).through (N.outq r c))).length <
      (N.routes.only (r, c)
        (((putItems N (rewrite N s r c) r c todo).pipeline N).through (N.outq r c))).length := by
  have hput := put_rewritten hinv hpc hne
  have hheld : ((s.pipeline N).held (r, c)).length ≠ 0 := by
    have hA : s.pkts (.wrklist r c) ≠ [] := by
      intro he
      exact Bool.false_ne_true (hne.symm.trans ((hinv.lay.sep.holds (.wrklist r c)).isEmpty_iff.mpr he))
    simpa [abs] using hA
  have hheld' : ((putItems N (rewrite N s r c) r c todo).pipeline N).held (r, c) = [] := by
    simp [State.pipeline, abs, hput.pkts_eq]
  have harrived : ((putItems N (rewrite N s r c) r c todo).pipeline N).arrived r = (s.pipeline N).arrived r := rfl
  have hinput : ((putItems N (rewrite N s r c) r c todo).pipeline N).input r = (s.pipeline N).input r :=
    congrArg _ (taken_put hinv hpc hne)
  have hflow := congrArg List.length (hok.only_through (r, c))
  have hflow' := congrArg List.length (hok'.only_through (r, c))
  have hsource : N.routes.source (r, c) = r := rfl
  have hsink : N.routes.sink (r, c) = N.outq r c := rfl
  rw [hsource, hsink] at hflow hflow'
  rw [harrived, hinput, hheld'] at hflow'
  simp only [List.length_append, List.length_nil] at hflow hflow'
  omega

omit [DecidableEq T] [DecidableEq P] in
theorem ring_of_behind (hinv : Inv N s s.pkts) (hin : (s.rx r).inList.isEmpty = true)
    (hwrk : ((s.rx r).wrklist c).isEmpty = true) (hbehind : (s.pipeline N).behind N.routes (r, c)) :
    nmRingEmpty (s.rx r).ring = false := by
  have hnil : s.pkts (.pktsIn r) = [] := (hinv.lay.sep.holds (.pktsIn r)).isEmpty_iff.mp hin
  have hnil' : s.pkts (.wrklist r c) = [] := (hinv.lay.sep.holds (.wrklist r c)).isEmpty_iff.mp hwrk
  refine Bool.eq_false_iff.mpr fun hempty => ?_
  rcases behind_iff.mp hbehind with hcycle | ⟨f, hf, -⟩
  · simp [InCycle, hnil, hnil'] at hcycle
  · simp [pending_nil hempty] at hf

omit [DecidableEq T] [DecidableEq P] in
theorem ring_of_poll (hinv : Inv N s s.pkts) (htidy : Tidy N s) (hpc : (s.rx r).pc = .poll)
    (hbehind : (s.pipeline N).behind N.routes (r, c)) : nmRingEmpty (s.rx r).ring = false := by
  have htidy := htidy.rx r
  simp only [RxThread.Tidy, hpc] at htidy
  exact ring_of_behind hinv (by simpa [RxThread.inList, hpc] using htidy.1) (htidy.2 c) hbehind

/-- A step of the rx thread with a frame of the class still to be put. -/
theorem RxMoves.rank_lt (h : RxMoves N s r choice s') (hinv : Inv N s s.pkts) (htidy : Tidy N s)
    (hrun : Undisturbed s (.rx r choice)) (hbehind : (s.pipeline N).behind N.routes (r, c)) :
    (∃ todo, (s.rx r).pc = .flush (c :: todo) ∧ ((s.rx r).wrklist c).isEmpty = false ∧
        s' = putItems N (rewrite N s r c) r c todo) ∨
      s'.rank N r c < s.rank N r c := by
  have hleft := h.left_lt hinv (htidy.rx r)
  cases h with
  | ready hpc hne =>
    refine .inr (State.rank_lt (hleft (by simp [hpc])) ?_ ?_) <;> simp [setRx, State.later]
  | notReady hpc h =>
    have hne := ring_of_poll hinv htidy hpc hbehind
    exact absurd (h (hrun.1 hpc hne)) (by simp [hne])
  | dequeue hpc hne =>
    refine .inr (State.rank_lt (hleft (by simp [hpc])) ?_ ?_) <;> simp [dequeuePkt, setRx, State.later, hpc]
  | nothing hpc hempty hin =>
    have htidy := htidy.rx r
    simp only [RxThread.Tidy, hpc] at htidy
    have hne := ring_of_behind hinv (by simpa [RxThread.inList, hpc] using hin) (htidy c) hbehind
    exact absurd hempty (by simp [hne])
  | dequeued hpc hempty =>
    -- all that was in the ring is in pkts_in
    have hcycle : InCycle N s r c := (behind_iff.mp hbehind).resolve_right (by simp [pending_nil hempty])
    have hin : (s.rx r).inList = (s.rx r).pktsIn := by simp [RxThread.inList, hpc]
    have hholds : (s.rx r).pktsIn.Holds s.links (s.pkts (.pktsIn r)) := hin ▸ hinv.lay.sep.holds (.pktsIn r)
    have hcycle' : InCycle N (setRx s r { s.rx r with pc := .scan 0 (s.rx r).pktsIn.head }) r c ↔ InCycle N s r c :=
      inCycle_setRx (by rw [hin]; exact pktsLeft_zero hholds) rfl
    have hpc' : ((setRx s r { s.rx r with pc := .scan 0 (s.rx r).pktsIn.head }).rx r).pc =
        .scan 0 (s.rx r).pktsIn.head := by simp [setRx]
    refine .inr (State.rank_lt (hleft (by simp [hpc])) (by simp [setRx]) ?_)
    simp [State.later, hpc', hcycle', hcycle]
  | sort n p hpc =>
    have hhead : (s.list (.pktsIn r)).head = some p := by
      simp [State.list, RxThread.inList, hpc, pktsLeft]
    obtain ⟨l, hA⟩ := hinv.at_cons hhead
    have hpc' : ((sortPkt N s r n p).rx r).pc = .scan (n + 1) (s.links p) := by simp [sortPkt, setRx]
    refine .inr (State.rank_lt (hleft (by simp [hpc])) (by simp [sortPkt, setRx]) ?_)
    simp [State.later, hpc, hpc', inCycle_sort hinv hpc hA]
  | sorted n hpc =>
    have hcycle : InCycle N (setRx s r { s.rx r with pc := .flush (N.classes r) }) r c ↔ InCycle N s r c :=
      inCycle_setRx (by simp [RxThread.inList, hpc, pktsLeft_none]) rfl
    have hpc' : ((setRx s r { s.rx r with pc := .flush (N.classes r) }).rx r).pc = .flush (N.classes r) := by
      simp [setRx]
    refine .inr (State.rank_lt (hleft (by simp [hpc])) (by simp [setRx]) ?_)
    simp [State.later, hpc, hpc', hcycle]
  | skip c' todo hpc hempty =>
    have hcycle : InCycle N (setRx s r { s.rx r with pc := .flush todo }) r c ↔ InCycle N s r c :=
      inCycle_setRx (by simp [RxThread.inList, hpc]) rfl
    have hpc' : ((setRx s r { s.rx r with pc := .flush todo }).rx r).pc = .flush todo := by simp [setRx]
    refine .inr (State.rank_lt (hleft (by simp [hpc])) (by simp [setRx]) ?_)
    simp [State.later, hpc, hpc', hcycle]
  | put c' todo hpc hne =>
    rcases eq_or_ne c c' with rfl | hc
    · exact .inl ⟨todo, hpc, hne, rfl⟩
    · have hpc' : ((putItems N (rewrite N s r c') r c' todo).rx r).pc = .flush todo := by simp [putItems, setRx]
      refine .inr (State.rank_lt (hleft (by simp [hpc])) (by simp [putItems, setRx, setTx, rewrite]) ?_)
      simp [State.later, hpc, hpc', inCycle_put hinv hpc hne hc]
  | flushed hpc =>
    have htidy := htidy.rx r
    simp only [RxThread.Tidy, hpc, List.not_mem_nil, not_false_eq_true, true_implies] at htidy
    have hnil : s.pkts (.wrklist r c) = [] := (hinv.lay.sep.holds (.wrklist r c)).isEmpty_iff.mp (htidy.2 c)
    refine .inr (State.rank_lt (hleft (by simp [hpc])) (by simp [setRx]) fun _ => ?_)
    simp [State.later, hpc, inCycle_flush hinv hpc, hnil]
  | exit hpc hterm => exact absurd (hterm.symm.trans (hrun.2 hpc)) (by simp)
  | goOn hpc =>
    have hring := (hinv.rx r).ring
    have hlt := dist_lt hring.head_lt hring.cur_lt
    refine .inr ?_
    simp only [State.rank, RxThread.left, State.later, hpc, setRx, Function.update_self, Bool.false_eq_true,
      if_true, if_false]
    omega
  | spun nh hpc hstop =>
    refine .inr (State.rank_lt (hleft (by simp [hpc])) ?_ ?_) <;> simp [setRx, State.later]
  | spin nh hpc hne =>
    refine .inr (State.rank_lt (hleft (by simp [hpc])) ?_ ?_) <;> simp [setRx, State.later]

theorem behind_of_step (h : (machine N).Reachable s) (hs : step N s mv = some s') {k : R × Option E}
    (hbehind : (s.pipeline N).behind N.routes k) :
    (N.routes.only k ((s.pipeline N).through (N.routes.sink k))).length <
        (N.routes.only k ((s'.pipeline N).through (N.routes.sink k))).length ∨
      ((s'.pipeline N).behind N.routes k ∧
        (N.routes.only k ((s.pipeline N).through (N.routes.sink k))).length =
          (N.routes.only k ((s'.pipeline N).through (N.routes.sink k))).length) := by
  have hok' := pipeline_ok (h.next hs)
  have hlt := (pipeline_ok h).behind_iff.mp hbehind
  rcases pipeline_step h hs with he | hstep
  · rw [he]
    exact .inr ⟨hbehind, rfl⟩
  · have hthrough := (Pipeline.only_mono (N := N.routes) (k := k) (hstep.through (N.routes.sink k))).length_le
    have harrived := (Pipeline.only_mono (N := N.routes) (k := k) (hstep.arrived (N.routes.source k))).length_le
    rcases hthrough.lt_or_eq with hmore | hsame
    · exact .inl hmore
    · exact .inr ⟨hok'.behind_iff.mpr (hsame ▸ hlt.trans_le harrived), hsame⟩

/-- What a ring has received gets to the queue of its class. -/
theorem passes (e : (machine N).Execution Undisturbed) (hfair : Fair e) (r : R) (c : Option E) (v : ℕ) :
    e.LeadsTo
      (fun s => v ≤ (N.routes.only (r, c) ((s.pipeline N).through (N.outq r c))).length ∧
        (s.pipeline N).behind N.routes (r, c))
      fun s => v < (N.routes.only (r, c) ((s.pipeline N).through (N.outq r c))).length := by
  refine (hfair.threads (.inl r)).leadsTo (fun s => s.rank N r c) ?_ ?_
  · rintro s hr ⟨-, hbehind⟩
    obtain ⟨hinv, htidy⟩ := inv_tidy hr.reachable
    exact ⟨(running hr).1 r, fun hpc => ring_of_poll hinv htidy hpc hbehind⟩
  · rintro s mv s' hr ⟨hv, hbehind⟩ hok hs
    obtain ⟨hinv, htidy⟩ := inv_tidy hr.reachable
    rcases behind_of_step hr.reachable hs hbehind with hlt | ⟨hbehind', hsame⟩
    · exact .inl (hv.trans_lt hlt)
    · have hp' := And.intro (hv.trans_eq hsame) hbehind'
      rcases rx_of_step hs r with ⟨choice, rfl, hmoves⟩ | ⟨hother, tail, hx⟩
      · rcases hmoves.rank_lt hinv htidy hok hbehind with ⟨todo, hpc, hne, rfl⟩ | hlt
        · exact .inl (hv.trans_lt (put_through hinv (pipeline_ok hr.reachable) hpc hne
            (pipeline_ok (hr.reachable.next hs))))
        · exact .inr ⟨hp', hlt.le, fun _ => hlt⟩
      · exact .inr ⟨hp', (rank_of_other hinv hs hx).le, fun hown => absurd hown hother⟩

-- ---------------------------------------------------------------------------
-- The theorem
-- ---------------------------------------------------------------------------

theorem trace (e : (machine N).Execution Undisturbed) :
    Pipeline.Trace N.routes fun n => (e.state n).pipeline N := by
  refine ⟨fun n => pipeline_ok (e.reachable n).reachable, fun n => ?_⟩
  cases he : e.event n with
  | none => exact .inl (congrArg _ (e.idle n he))
  | some mv => exact pipeline_step (e.reachable n).reachable (e.step n mv he).2

theorem delivered (e : (machine N).Execution Undisturbed) (hfair : Fair e) (n : ℕ) (r : R) (c : Option E) :
    ∃ m, n ≤ m ∧ N.routes.only (r, c) (((e.state n).arrived r).map (N.item r)) <+:
      N.routes.only (r, c) ((e.state m).sent (N.outq r c)) :=
  (trace e).delivered (fun k n hbehind => passes e hfair k.1 k.2 _ n ⟨le_rfl, hbehind⟩)
    (fun t n hne => sends e hfair t _ n ⟨le_rfl, hne⟩) (r, c) n

theorem delivered_item (e : (machine N).Execution Undisturbed) (hfair : Fair e) {n : ℕ} {f : Frame D}
    (hf : f ∈ (e.state n).arrived r) :
    ∃ m, n ≤ m ∧ N.item r f ∈ (e.state m).sent (N.outq r (N.classOf r f)) := by
  obtain ⟨m, hnm, hpre⟩ := delivered e hfair n r (N.classOf r f)
  refine ⟨m, hnm, (List.mem_filter.mp (hpre.subset (List.mem_filter.mpr ⟨?_, ?_⟩))).1⟩
  · exact List.mem_map_of_mem hf
  · simp [SinStance.routes, SinStance.item, SinStance.consumed]

/-- Whatever a ring has received by some time is, later on, in the hands of the
kernel on the tx ring of its class, rewritten and in the order of arrival. -/
theorem forwarded_eventually (e : (machine N).Execution Undisturbed) (hfair : Fair e) (n : ℕ) (r : R)
    (c : Option E) :
    ∃ m, n ≤ m ∧ ((e.state n).received N r c).map (N.consumed r c) <+:
      N.routes.only (r, c) ((e.state m).sent (N.outq r c)) := by
  rw [State.received, ← only_item]
  exact delivered e hfair n r c

/-- The tx thread waits while two frames come; it is signalled and sends them.
Then both threads have nothing to do. -/
def smallRest : List (Move Unit Unit Nat) :=
  [.tx () false, .tx () false, .receive () ⟨2, fun i => 6 + i, fun _ => 60⟩, .rx () true] ++
    List.replicate 11 (.rx () false) ++ List.replicate 11 (.tx () false)

theorem forwarded_eventually_rest :
    ∃ e : (machine small).Execution Undisturbed,
      (((e.state 2).tx ()).pc = .waiting 3 ∧ ((e.state 2).tx ()).signalled = false) ∧
      (((e.state 15).tx ()).pc = .waiting 3 ∧ ((e.state 15).tx ()).signalled = true) ∧
      (e.state 3).received small () (some ()) = [(6, 60)] ∧
      ∃ m, 3 ≤ m ∧ ((e.state 3).received small () (some ())).map (small.consumed () (some ())) <+:
        small.routes.only ((), some ()) ((e.state m).sent ()) := by
  obtain ⟨s', he, hp⟩ := (Option.any_eq_true
    (fun s => (s.rx ()).pc = .poll ∧ nmRingEmpty (s.rx ()).ring = true ∧ (s.tx ()).pc = .waiting 1 ∧
      (s.tx ()).signalled = false ∧ txRingNslots (s.tx ()).ring = 1)
    (exec (guarded Undisturbed (step small)) smallStart smallRest)).mp (by decide)
  obtain ⟨hpoll, hempty, hwait, hsignal, hroom⟩ := of_decide_eq_true hp
  refine ⟨.ofExec smallRest small_start he, ⟨rfl, rfl⟩, ⟨rfl, rfl⟩, rfl,
    forwarded_eventually _ ⟨?_, ?_⟩ 3 () (some ())⟩
  · rintro (_ | _)
    · exact ofExec_fair small_start he fun h => by simp [Runnable, hpoll, hempty] at h
    · exact ofExec_fair small_start he fun h => by simp [Runnable, hwait, hsignal] at h
  · exact fun _ => ofExec_recurs small_start he (by simp [hroom])

end Libsinet.Stance
