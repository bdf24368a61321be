import Libsinet.Base.Execution
import Libsinet.StanceOnePlace

/-!
# The cycle of a thread

What one step of a thread is, by where it is, and how far it is from
`check_ctrl`. Between two of its calls a thread takes a bounded number of steps,
whatever the other threads and the kernel do meanwhile, so a `SIGTERM` in its
control queue is found.
-/

namespace Libsinet.Stance

open Machine NetmapRing Circular
open PktSorter (collect)

variable {R : Type u} {T : Type v} {E : Type w} {P : Type x} {D : Type y}
variable [DecidableEq R] [DecidableEq T] [DecidableEq E] [DecidableEq P]

/-- The sorter classes of a ring, in the order of its work lists. -/
def SinStance.classes (N : SinStance R T E P D) (r : R) : List (Option E) := (N.entries r).map some ++ [none]

variable {N : SinStance R T E P D} {s s' : State R T E P D} {A : Place R T E → List P} {r : R} {t : T}
  {c : Option E} {p q : P} {l : List P} {mv : Move R T D} {choice : Bool}

omit [DecidableEq R] [DecidableEq T] [DecidableEq E] [DecidableEq P] in
theorem SinStance.classOf_mem (N : SinStance R T E P D) (r : R) (f : Frame D) :
    N.classOf r f ∈ N.classes r := by
  unfold classOf classes
  cases hf : (N.entries r).find? fun e => N.pktTaste r e f with
  | none => simp
  | some e => simp [List.mem_of_find?_eq_some hf]

-- ---------------------------------------------------------------------------
-- The steps of a thread
-- ---------------------------------------------------------------------------

/-- A thread of the instance, by its ring. -/
abbrev Thread (R : Type u) (T : Type v) := R ⊕ T

def IsStepOf (thread : Thread R T) : Move R T D → Prop
  | .rx r _ => thread = .inl r
  | .tx t _ => thread = .inr t
  | _ => False

instance (thread : Thread R T) : DecidablePred (IsStepOf (D := D) thread) := fun mv => by
  cases mv <;> unfold IsStepOf <;> infer_instance

inductive RxMoves (N : SinStance R T E P D) (s : State R T E P D) (r : R) (choice : Bool) :
    State R T E P D → Prop
  | ready (hpc : (s.rx r).pc = .poll) (hne : nmRingEmpty (s.rx r).ring = false) :
      RxMoves N s r choice (setRx s r { s.rx r with pc := .dequeue })
  | notReady (hpc : (s.rx r).pc = .poll) (h : choice = true → nmRingEmpty (s.rx r).ring = true) :
      RxMoves N s r choice (setRx s r { s.rx r with pc := .checkCtrl })
  | dequeue (hpc : (s.rx r).pc = .dequeue) (hne : nmRingEmpty (s.rx r).ring = false) :
      RxMoves N s r choice (dequeuePkt N s r)
  | nothing (hpc : (s.rx r).pc = .dequeue) (hempty : nmRingEmpty (s.rx r).ring = true)
      (hin : (s.rx r).pktsIn.isEmpty = true) :
      RxMoves N s r choice (setRx s r { s.rx r with pc := .checkCtrl })
  | dequeued (hpc : (s.rx r).pc = .dequeue) (hempty : nmRingEmpty (s.rx r).ring = true) :
      RxMoves N s r choice (setRx s r { s.rx r with pc := .scan 0 (s.rx r).pktsIn.head })
  | sort (n : Nat) (p : P) (hpc : (s.rx r).pc = .scan n (some p)) : RxMoves N s r choice (sortPkt N s r n p)
  | sorted (n : Nat) (hpc : (s.rx r).pc = .scan n none) :
      RxMoves N s r choice (setRx s r { s.rx r with pc := .flush (N.classes r) })
  | skip (c : Option E) (todo : List (Option E)) (hpc : (s.rx r).pc = .flush (c :: todo))
      (hempty : ((s.rx r).wrklist c).isEmpty = true) :
      RxMoves N s r choice (setRx s r { s.rx r with pc := .flush todo })
  | put (c : Option E) (todo : List (Option E)) (hpc : (s.rx r).pc = .flush (c :: todo))
      (hne : ((s.rx r).wrklist c).isEmpty = false) :
      RxMoves N s r choice (putItems N (rewrite N s r c) r c todo)
  | flushed (hpc : (s.rx r).pc = .flush []) :
      RxMoves N s r choice (setRx s r { s.rx r with pktsIn := .reset, pc := .checkCtrl })
  | exit (hpc : (s.rx r).pc = .checkCtrl) (hterm : choice = true) :
      RxMoves N s r choice (setRx s r { s.rx r with pc := .exited })
  | goOn (hpc : (s.rx r).pc = .checkCtrl) :
      RxMoves N s r choice (setRx s r { s.rx r with pc := .spin (s.rx r).ring.head })
  | spun (nh : Nat) (hpc : (s.rx r).pc = .spin nh)
      (hstop : nh = (s.rx r).ring.cur ∨ sinPktIsbusy (s.flags ((N.rxZone r).pmap nh)) = true) :
      RxMoves N s r choice (setRx s r { s.rx r with ring := { (s.rx r).ring with head := nh }, pc := .poll })
  | spin (nh : Nat) (hpc : (s.rx r).pc = .spin nh) (hne : nh ≠ (s.rx r).ring.cur) :
      RxMoves N s r choice (setRx s r { s.rx r with pc := .spin (nmRingNext (s.rx r).ring nh) })

theorem rxStep_moves (hs : rxStep N s r choice = some s') : RxMoves N s r choice s' := by
  unfold rxStep at hs
  dsimp only at hs
  split at hs
  case h_1 hpc =>
    cases hs
    split
    · rename_i hready
      exact .ready hpc (by simpa using (Bool.and_eq_true_iff.mp hready).2)
    · rename_i hready
      exact .notReady hpc (by simpa using hready)
  case h_2 hpc =>
    split at hs
    · rename_i hempty
      cases hs
      split
      · exact .nothing hpc hempty ‹_›
      · exact .dequeued hpc hempty
    · rename_i hne
      cases hs
      exact .dequeue hpc (Bool.eq_false_iff.mpr hne)
  case h_3 n hpc =>
    cases hs
    exact .sorted n hpc
  case h_4 n p hpc =>
    cases hs
    exact .sort n p hpc
  case h_5 c todo hpc =>
    split at hs
    · cases hs
      exact .skip c todo hpc ‹_›
    · rename_i hne
      cases hs
      exact .put c todo hpc (Bool.eq_false_iff.mpr hne)
  case h_6 hpc =>
    cases hs
    exact .flushed hpc
  case h_7 hpc =>
    cases hs
    split
    · exact .exit hpc ‹_›
    · exact .goOn hpc
  case h_8 nh hpc =>
    split at hs
    · cases hs
      exact .spun nh hpc ‹_›
    · rename_i hstop
      cases hs
      exact .spin nh hpc (not_or.mp hstop).1
  case h_9 => cases hs

/-- The steps of a tx thread; of its queue and links only what a get leaves is said. -/
inductive TxMoves (N : SinStance R T E P D) (s : State R T E P D) (t : T) (choice : Bool) :
    State R T E P D → Prop
  | full (hpc : (s.tx t).pc = .top) (hfull : txRingNslots (s.tx t).ring = 0) :
      TxMoves N s t choice (setTx s t { s.tx t with pc := .checkCtrl })
  | get (hpc : (s.tx t).pc = .top) (hempty : (s.tx t).pktsOut.isEmpty = true) :
      TxMoves N s t choice (setTx s t { s.tx t with pc := .getItems (txRingNslots (s.tx t).ring) })
  | rest (hpc : (s.tx t).pc = .top) (hne : (s.tx t).pktsOut.isEmpty = false) :
      TxMoves N s t choice (setTx s t { s.tx t with pc := .start (txRingNslots (s.tx t).ring) })
  | wait (n : Nat) (queue : SinWiQueue P) (hpc : (s.tx t).pc = .getItems n)
      (hempty : (s.tx t).queue.head = none) (hitems : queue.items = (s.tx t).queue.items)
      (hnwait : 0 < queue.nwait) :
      TxMoves N s t choice (setTx s t { s.tx t with queue, pc := .waiting n, signalled := false })
  | woken (n : Nat) (queue : SinWiQueue P) (hpc : (s.tx t).pc = .waiting n)
      (hempty : (s.tx t).queue.head = none) :
      TxMoves N s t choice (setTx s t { s.tx t with queue, pc := .start n, signalled := false })
  | got (n : Nat) (queue : SinWiQueue P) (hpc : AtGet (s.tx t) n) (hne : (s.tx t).queue.head ≠ none)
      (hqueue : queue.items = .reset) : TxMoves N s t choice (gotAll s t n queue)
  | nothing (n : Nat) (hpc : (s.tx t).pc = .start n) (hempty : (s.tx t).pktsOut.isEmpty = true) :
      TxMoves N s t choice (setTx s t { s.tx t with pc := .checkCtrl })
  | start (n : Nat) (pktsTx : SinList P) (curidx : Nat) (hpc : (s.tx t).pc = .start n)
      (hne : (s.tx t).pktsOut.isEmpty = false) :
      TxMoves N s t choice (setTx s t { s.tx t with
        pktsTx, pc := .getpkts (min n (s.tx t).pktsOut.len.toNat) (min n (s.tx t).pktsOut.len.toNat) curidx })
  | getpkt (ntx left curidx curidx' : Nat) (pktsTx : SinList P) (m : Links P)
      (hpc : (s.tx t).pc = .getpkts ntx left curidx) (hleft : 1 < left) :
      TxMoves N s t choice { setTx s t { s.tx t with pktsTx, pc := .getpkts ntx (left - 1) curidx' } with links := m }
  | gotpkts (ntx left curidx : Nat) (pkt pktTx : Option P) (hpc : (s.tx t).pc = .getpkts ntx left curidx) :
      TxMoves N s t choice (setTx s t { s.tx t with pc := .send ntx 0 pkt pktTx })
  | send (ntx i : Nat) (p q : P) (hpc : (s.tx t).pc = .send ntx i (some p) (some q)) (hlt : i < ntx) :
      TxMoves N s t choice (sendPkt N s t ntx i p q)
  | sent (ntx i : Nat) (pkt pktTx : Option P) (hpc : (s.tx t).pc = .send ntx i pkt pktTx) :
      TxMoves N s t choice (setTx s t { s.tx t with pc := .advance ntx pkt })
  | advance (ntx : Nat) (pkt : Option P) (hpc : (s.tx t).pc = .advance ntx pkt) :
      TxMoves N s t choice (advance N s t ntx pkt)
  | exit (hpc : (s.tx t).pc = .checkCtrl) (hterm : choice = true) :
      TxMoves N s t choice (setTx s t { s.tx t with pc := .exited })
  | goOn (hpc : (s.tx t).pc = .checkCtrl) : TxMoves N s t choice (setTx s t { s.tx t with pc := .top })

section

omit [DecidableEq R] [DecidableEq E]

theorem got_moves (hpc : AtGet (s.tx t) n) (hne : (s.tx t).queue.head ≠ none) {queue : SinWiQueue P}
    (hitems : queue.items = (s.tx t).queue.items) :
    let got := takeItems s.links queue (s.tx t).pktsOut
    TxMoves N s t choice (afterGet s t n ⟨got.1, got.2.1, .returns got.2.2, false⟩) := by
  have hmoves : TxMoves N s t choice (gotAll s t n (takeItems s.links queue (s.tx t).pktsOut).2.1) :=
    .got n _ hpc hne takeItems_items
  unfold gotAll at hmoves
  dsimp only at hmoves
  rw [← hitems, ← takeItems_splice.1, ← takeItems_splice.2] at hmoves
  exact hmoves

theorem getItems_moves (hpc : (s.tx t).pc = .getItems n) :
    TxMoves N s t choice (afterGet s t n (sinWiQueueGetItems s.links (s.tx t).queue (s.tx t).pktsOut true)) := by
  cases hq : (s.tx t).queue.head with
  | none =>
    have hget : sinWiQueueGetItems s.links (s.tx t).queue (s.tx t).pktsOut true =
        ⟨s.links, { (s.tx t).queue with nwait := (s.tx t).queue.nwait + 1 }, .waits, false⟩ := by
      simp [sinWiQueueGetItems, getSection, hq]
    rw [hget]
    exact .wait n _ hpc hq rfl (Nat.succ_pos _)
  | some wi =>
    rw [sinWiQueueGetItems, getSection_some hq]
    exact got_moves (.inl hpc) (by simp [hq]) rfl

theorem getItemsWake_moves (hpc : (s.tx t).pc = .waiting n) :
    TxMoves N s t choice
      (afterGet s t n (sinWiQueueGetItemsWake s.links (s.tx t).queue (s.tx t).pktsOut true)) := by
  cases hq : (s.tx t).queue.head with
  | none =>
    have hget : sinWiQueueGetItemsWake s.links (s.tx t).queue (s.tx t).pktsOut true =
        ⟨s.links, { (s.tx t).queue with nwait := (s.tx t).queue.nwait - 1 },
          .returns ((s.tx t).pktsOut, 0), false⟩ := by
      simp [sinWiQueueGetItemsWake, wakeSection, hq]
    rw [hget]
    exact .woken n _ hpc hq
  | some wi =>
    have hq' : ({ (s.tx t).queue with nwait := (s.tx t).queue.nwait - 1 } : SinWiQueue P).head = some wi := hq
    rw [sinWiQueueGetItemsWake, wakeSection_some hq, getSection_some hq']
    exact got_moves (.inr hpc) (by simp [hq]) rfl

theorem txStep_moves (hs : txStep N s t choice = some s') : TxMoves N s t choice s' := by
  unfold txStep at hs
  dsimp only at hs
  split at hs
  case h_1 hpc =>
    cases hs
    split
    · exact .full hpc ‹_›
    · split
      · exact .get hpc ‹_›
      · exact .rest hpc (Bool.eq_false_iff.mpr ‹_›)
  case h_2 n hpc =>
    cases hs
    exact getItems_moves hpc
  case h_3 n hpc =>
    cases hs
    exact getItemsWake_moves hpc
  case h_4 n hpc =>
    split at hs
    · cases hs
      exact .nothing n hpc ‹_›
    · rename_i hne
      cases hs
      exact .start n _ _ hpc (Bool.eq_false_iff.mpr hne)
  case h_5 ntx left curidx hpc =>
    split at hs
    · cases hs
      exact .getpkt ntx left curidx _ _ _ hpc ‹_›
    · cases hs
      exact .gotpkts ntx left curidx _ _ hpc
  case h_6 ntx i pkt pktTx hpc =>
    split at hs
    · rename_i hlt
      split at hs
      · cases hs
        exact .send ntx i _ _ hpc hlt
      · cases hs
    · cases hs
      exact .sent ntx i pkt pktTx hpc
  case h_7 ntx pkt hpc =>
    cases hs
    exact .advance ntx pkt hpc
  case h_8 hpc =>
    cases hs
    split
    · exact .exit hpc ‹_›
    · exact .goOn hpc
  case h_9 => cases hs

end

-- ---------------------------------------------------------------------------
-- The steps of others
-- ---------------------------------------------------------------------------

theorem RxMoves.rx_other (h : RxMoves N s r choice s') {r' : R} (hr : r' ≠ r) : s'.rx r' = s.rx r' := by
  cases h <;> simp [setRx, dequeuePkt, sortPkt, putItems, setTx, rewrite, hr]

theorem RxMoves.tx (h : RxMoves N s r choice s') (t : T) :
    ∃ queue signalled, s'.tx t = { s.tx t with queue, signalled } := by
  cases h with
  | put c todo hpc hne =>
    rcases eq_or_ne t (N.outq r c) with rfl | ht
    · exact ⟨_, _, Function.update_self ..⟩
    · exact ⟨(s.tx t).queue, (s.tx t).signalled, Function.update_of_ne ht ..⟩
  | _ => exact ⟨(s.tx t).queue, (s.tx t).signalled, rfl⟩

omit [DecidableEq R] [DecidableEq E] in
theorem TxMoves.rx (h : TxMoves N s t choice s') : s'.rx = s.rx := by
  cases h <;> rfl

omit [DecidableEq R] [DecidableEq E] in
theorem TxMoves.tx_other (h : TxMoves N s t choice s') {t' : T} (ht : t' ≠ t) : s'.tx t' = s.tx t' := by
  cases h <;> simp [setTx, gotAll, sendPkt, transmit, Stance.advance, ht]

/-- All that others change of an rx thread is the end of its ring. -/
theorem rx_of_step (hs : step N s mv = some s') (r : R) :
    (∃ choice, mv = .rx r choice ∧ RxMoves N s r choice s') ∨
      (¬ IsStepOf (.inl r) mv ∧ ∃ tail, s'.rx r = { s.rx r with ring := { (s.rx r).ring with tail } }) := by
  cases mv with
  | rx r' choice =>
    have hmoves := rxStep_moves hs
    rcases eq_or_ne r r' with rfl | hr
    · exact .inl ⟨choice, rfl, hmoves⟩
    · exact .inr ⟨by simpa [IsStepOf] using hr, _, hmoves.rx_other hr⟩
  | tx t choice => exact .inr ⟨by simp [IsStepOf], _, congrFun (txStep_moves hs).rx r⟩
  | receive r' k =>
    obtain ⟨hk, ⟨⟩⟩ := Option.ite_none_right_eq_some.mp hs
    refine .inr ⟨by simp [IsStepOf], ?_⟩
    rcases eq_or_ne r r' with rfl | hr
    · exact ⟨_, Function.update_self ..⟩
    · exact ⟨_, Function.update_of_ne hr ..⟩
  | drain t n =>
    obtain ⟨hn, ⟨⟩⟩ := Option.ite_none_right_eq_some.mp hs
    exact .inr ⟨by simp [IsStepOf], _, rfl⟩

theorem tx_of_step (hs : step N s mv = some s') (t : T) :
    (∃ choice, mv = .tx t choice ∧ TxMoves N s t choice s') ∨
      (¬ IsStepOf (.inr t) mv ∧
        ∃ queue signalled tail,
          s'.tx t = { s.tx t with queue, signalled, ring := { (s.tx t).ring with tail } }) := by
  cases mv with
  | rx r choice =>
    obtain ⟨queue, signalled, hq⟩ := (rxStep_moves hs).tx t
    exact .inr ⟨by simp [IsStepOf], queue, signalled, _, hq⟩
  | tx t' choice =>
    have hmoves := txStep_moves hs
    rcases eq_or_ne t t' with rfl | ht
    · exact .inl ⟨choice, rfl, hmoves⟩
    · exact .inr ⟨by simpa [IsStepOf] using ht, _, _, _, hmoves.tx_other ht⟩
  | receive r k =>
    obtain ⟨hk, ⟨⟩⟩ := Option.ite_none_right_eq_some.mp hs
    exact .inr ⟨by simp [IsStepOf], _, _, _, rfl⟩
  | drain t' n =>
    obtain ⟨hn, ⟨⟩⟩ := Option.ite_none_right_eq_some.mp hs
    refine .inr ⟨by simp [IsStepOf], ?_⟩
    rcases eq_or_ne t t' with rfl | ht
    · exact ⟨_, _, _, Function.update_self ..⟩
    · exact ⟨_, _, _, Function.update_of_ne ht ..⟩

-- ---------------------------------------------------------------------------
-- What a thread leaves behind it
-- ---------------------------------------------------------------------------

/-- The lists that a part of the cycle has emptied, or not used yet. -/
def RxThread.Tidy (N : SinStance R T E P D) (r : R) (x : RxThread E P) : Prop :=
  match x.pc with
  | .dequeue => ∀ c, (x.wrklist c).isEmpty = true
  | .scan _ _ => ∀ c, c ∉ N.classes r → (x.wrklist c).isEmpty = true
  | .flush todo => todo.length ≤ (N.classes r).length ∧ ∀ c, c ∉ todo → (x.wrklist c).isEmpty = true
  | _ => x.pktsIn.isEmpty = true ∧ ∀ c, (x.wrklist c).isEmpty = true

def TxThread.Tidy (y : TxThread P) : Prop :=
  match y.pc with
  | .getItems _ | .waiting _ => y.pktsOut.isEmpty = true
  | .send ntx _ _ _ | .advance ntx _ => 0 < ntx
  | _ => True

structure Tidy (N : SinStance R T E P D) (s : State R T E P D) : Prop where
  rx : ∀ r, (s.rx r).Tidy N r
  tx : ∀ t, (s.tx t).Tidy

omit [DecidableEq P] in
@[simp] theorem isEmpty_reset : (SinList.reset : SinList P).isEmpty = true := rfl

theorem RxMoves.tidy (h : RxMoves N s r choice s') (htidy : (s.rx r).Tidy N r) : (s'.rx r).Tidy N r := by
  cases h with
  | ready hpc hne | notReady hpc hne =>
    simp only [RxThread.Tidy, hpc] at htidy
    simp [RxThread.Tidy, setRx, htidy]
  | dequeue hpc hne =>
    simp only [RxThread.Tidy, hpc] at htidy
    simpa [RxThread.Tidy, dequeuePkt, setRx, hpc] using htidy
  | nothing hpc hempty hin =>
    simp only [RxThread.Tidy, hpc] at htidy
    simp [RxThread.Tidy, setRx, hin, htidy]
  | dequeued hpc hempty =>
    simp only [RxThread.Tidy, hpc] at htidy
    simp [RxThread.Tidy, setRx, htidy]
  | sort n p hpc =>
    simp only [RxThread.Tidy, hpc] at htidy
    simp only [RxThread.Tidy, sortPkt, setRx, Function.update_self, collect]
    intro c hc
    have hne : c ≠ N.classOf r (s.frame p) := fun he => hc (he ▸ N.classOf_mem r _)
    rw [Function.update_of_ne hne]
    exact htidy c hc
  | sorted n hpc =>
    simp only [RxThread.Tidy, hpc] at htidy
    simpa [RxThread.Tidy, setRx] using htidy
  | skip c todo hpc hempty =>
    simp only [RxThread.Tidy, hpc] at htidy
    simp only [RxThread.Tidy, setRx, Function.update_self]
    refine ⟨(Nat.le_succ _).trans htidy.1, fun c' hc' => ?_⟩
    rcases eq_or_ne c' c with rfl | hne
    · exact hempty
    · exact htidy.2 c' (by simp [hne, hc'])
  | put c todo hpc hne =>
    simp only [RxThread.Tidy, hpc] at htidy
    simp only [RxThread.Tidy, putItems, setRx, setTx, rewrite, Function.update_self]
    refine ⟨(Nat.le_succ _).trans htidy.1, fun c' hc' => ?_⟩
    rcases eq_or_ne c' c with rfl | hne
    · simp
    · rw [Function.update_of_ne hne]
      exact htidy.2 c' (by simp [hne, hc'])
  | flushed hpc =>
    simp only [RxThread.Tidy, hpc] at htidy
    simpa [RxThread.Tidy, setRx] using htidy.2
  | exit hpc hterm | goOn hpc | spun nh hpc hstop | spin nh hpc hne =>
    simp only [RxThread.Tidy, hpc] at htidy
    simp [RxThread.Tidy, setRx, htidy]

omit [DecidableEq R] [DecidableEq E] in
theorem TxMoves.tidy (h : TxMoves N s t choice s') (htidy : (s.tx t).Tidy) (hinv : Inv N s A) :
    (s'.tx t).Tidy := by
  cases h with
  | get hpc hempty => simpa [TxThread.Tidy, setTx] using hempty
  | wait n queue hpc hempty =>
    simp only [TxThread.Tidy, hpc] at htidy
    simpa [TxThread.Tidy, setTx] using htidy
  | gotpkts ntx left curidx pkt pktTx hpc =>
    have hat := (hinv.tx t).pc
    rw [hpc] at hat
    simpa [TxThread.Tidy, setTx] using hat.1.trans_le hat.2.1
  | send ntx i p q hpc hlt => simpa [TxThread.Tidy, sendPkt, setTx, transmit] using Nat.zero_lt_of_lt hlt
  | sent ntx i pkt pktTx hpc =>
    simp only [TxThread.Tidy, hpc] at htidy
    simpa [TxThread.Tidy, setTx] using htidy
  | _ => simp [TxThread.Tidy, setTx, gotAll, Stance.advance]

theorem Tidy.step (h : Tidy N s) (hinv : Inv N s A) (hs : step N s mv = some s') : Tidy N s' := by
  constructor
  · intro r
    rcases rx_of_step hs r with ⟨choice, -, hmoves⟩ | ⟨-, tail, hsame⟩
    · exact hmoves.tidy (h.rx r)
    · rw [hsame]
      exact h.rx r
  · intro t
    rcases tx_of_step hs t with ⟨choice, -, hmoves⟩ | ⟨-, queue, signalled, tail, hsame⟩
    · exact hmoves.tidy (h.tx t) hinv
    · rw [hsame]
      exact h.tx t

omit [DecidableEq R] [DecidableEq T] [DecidableEq E] [DecidableEq P] in
theorem Start.tidy (h : Start N s) : Tidy N s := by
  constructor
  · intro r
    simp [RxThread.Tidy, h.rx r]
  · intro t
    simp [TxThread.Tidy, h.tx t]

theorem inv_tidy (h : (machine N).Reachable s) : Inv N s s.pkts ∧ Tidy N s := by
  obtain ⟨A, hinv⟩ := inv_of_reachable h
  rw [hinv.pkts_eq]
  refine ⟨hinv, ReachableBy.induct h (fun s => inv_of_reachable) (fun s => Start.tidy) ?_⟩
  rintro s mv s' ⟨A, hinv⟩ htidy - hs
  exact htidy.step hinv hs

-- ---------------------------------------------------------------------------
-- The way to check_ctrl
-- ---------------------------------------------------------------------------

/-- At most how many steps a thread takes before it is at `check_ctrl`. -/
def RxThread.left (N : SinStance R T E P D) (r : R) (x : RxThread E P) : Nat :=
  let nlists := (N.classes r).length
  match x.pc with
  | .spin newHead => dist x.ring.numSlots newHead x.ring.cur + (2 * x.ring.numSlots + nlists + 5)
  | .poll => 2 * x.ring.numSlots + nlists + 4
  | .dequeue =>
    2 * (x.ring.numSlots - dist x.ring.numSlots x.ring.head x.ring.cur) + x.pktsIn.len.toNat + nlists + 3
  | .scan _ _ => x.inList.len.toNat + nlists + 2
  | .flush todo => todo.length + 1
  | .checkCtrl => 0
  | .exited => 0

def TxThread.left (y : TxThread P) : Nat :=
  match y.pc with
  | .top => 2 * y.ring.numSlots + 4
  | .getItems aslots => 2 * aslots + 5
  | .waiting aslots => 2 * aslots + 4
  | .start aslots => 2 * aslots + 3
  | .getpkts ntx left _ => ntx + left + 2
  | .send ntx i _ _ => ntx - i + 2
  | .advance _ _ => 1
  | .checkCtrl => 0
  | .exited => 0

theorem sinListAppend_len (m : Links P) (lst : SinList P) (p : P) :
    (sinListAppend m lst p).2.len = lst.len + 1 := by
  unfold sinListAppend
  split <;> rfl

theorem sinListAppend_len_le (m : Links P) (lst : SinList P) (p : P) :
    (sinListAppend m lst p).2.len.toNat ≤ lst.len.toNat + 1 := by
  rw [sinListAppend_len, BitVec.toNat_add]
  exact Nat.mod_le _ _

omit [DecidableEq R] [DecidableEq T] [DecidableEq E] [DecidableEq P] in
theorem Inv.inList_len (h : Inv N s A) (r : R) : (s.rx r).inList.len.toNat = (A (.pktsIn r)).length :=
  (h.lay.sep.holds (.pktsIn r)).len_toNat

theorem RxMoves.left_lt (h : RxMoves N s r choice s') (hinv : Inv N s A) (htidy : (s.rx r).Tidy N r)
    (hpc : (s.rx r).pc ≠ .checkCtrl) : (s'.rx r).left N r < (s.rx r).left N r := by
  have hring := (hinv.rx r).ring
  have hlt := dist_lt hring.head_lt hring.cur_lt
  cases h with
  | ready hpc hne =>
    simp only [RxThread.Tidy, hpc, SinList.isEmpty, beq_iff_eq] at htidy
    simp only [RxThread.left, hpc, setRx, Function.update_self, htidy.1, BitVec.ofNat_eq_ofNat,
      BitVec.toNat_zero]
    omega
  | notReady hpc h => simp [RxThread.left, hpc, setRx]
  | dequeue hpc hne =>
    have hnext := hring.toInOrder.dist_next_cur hne
    have hlen := sinListAppend_len_le s.links (s.rx r).pktsIn ((N.rxZone r).pmap (s.rx r).ring.cur)
    simp only [RxThread.left, hpc, dequeuePkt, setRx, Function.update_self, hnext]
    omega
  | nothing hpc hempty hin => simp [RxThread.left, hpc, setRx]
  | dequeued hpc hempty =>
    have hin : (s.rx r).inList = (s.rx r).pktsIn := by simp [RxThread.inList, hpc]
    have hholds : (s.rx r).pktsIn.Holds s.links (A (.pktsIn r)) := hin ▸ hinv.lay.sep.holds (.pktsIn r)
    simp only [RxThread.left, hpc, setRx, Function.update_self, RxThread.inList, pktsLeft_zero hholds]
    omega
  | sort n p hpc =>
    have hhead : (s.list (.pktsIn r)).head = some p := by
      simp [State.list, RxThread.inList, hpc, pktsLeft]
    obtain ⟨l, hA⟩ := hinv.at_cons hhead
    have hlen := hinv.inList_len r
    have hlen' := (hinv.sort hpc hA).inList_len r
    have hpc' : ((sortPkt N s r n p).rx r).pc = .scan (n + 1) (s.links p) := by simp [sortPkt, setRx]
    rw [Function.update_of_ne (by simp), Function.update_self] at hlen'
    simp only [RxThread.left, hpc, hpc', hlen, hlen', hA, List.length_cons]
    omega
  | sorted n hpc =>
    simp only [RxThread.left, hpc, setRx, Function.update_self]
    omega
  | skip c todo hpc hempty => simp [RxThread.left, hpc, setRx]
  | put c todo hpc hne => simp [RxThread.left, hpc, putItems, setRx]
  | flushed hpc => simp [RxThread.left, hpc, setRx]
  | exit hpc' hterm => exact absurd hpc' hpc
  | goOn hpc' => exact absurd hpc' hpc
  | spun nh hpc hstop =>
    simp only [RxThread.left, hpc, setRx, Function.update_self]
    omega
  | spin nh hpc hne =>
    have hscan := (hinv.rx r).scan nh hpc
    have hnext := dist_next_left hscan.lt hring.cur_lt hne
    simp only [RxThread.left, hpc, setRx, Function.update_self, nmRingNext]
    omega

omit [DecidableEq R] [DecidableEq E] in
theorem TxMoves.left_lt (h : TxMoves N s t choice s') (hinv : Inv N s A) (hpc : (s.tx t).pc ≠ .checkCtrl) :
    (s'.tx t).left < (s.tx t).left := by
  have hslots := txRingNslots_lt (hinv.tx t).order
  cases h with
  | full hpc hfull => simp [TxThread.left, hpc, setTx]
  | get hpc hempty =>
    simp only [TxThread.left, hpc, setTx, Function.update_self]
    omega
  | rest hpc hne =>
    simp only [TxThread.left, hpc, setTx, Function.update_self]
    omega
  | wait n queue hpc hempty => simp [TxThread.left, hpc, setTx]
  | woken n queue hpc hempty => simp [TxThread.left, hpc, setTx]
  | got n queue hpc hne hqueue =>
    rcases hpc with hpc | hpc <;> simp [TxThread.left, hpc, gotAll, setTx]
  | nothing n hpc hempty => simp [TxThread.left, hpc, setTx]
  | start n pktsTx curidx hpc hne =>
    simp only [TxThread.left, hpc, setTx, Function.update_self]
    omega
  | getpkt ntx left curidx curidx' pktsTx m hpc hleft =>
    simp only [TxThread.left, hpc, setTx, Function.update_self]
    omega
  | gotpkts ntx left curidx pkt pktTx hpc =>
    have hat := (hinv.tx t).pc
    rw [hpc] at hat
    have hleft : 0 < left := hat.1
    simp only [TxThread.left, hpc, setTx, Function.update_self]
    omega
  | send ntx i p q hpc hlt =>
    simp only [TxThread.left, hpc, sendPkt, setTx, Function.update_self]
    omega
  | sent ntx i pkt pktTx hpc =>
    simp only [TxThread.left, hpc, setTx, Function.update_self]
    omega
  | advance ntx pkt hpc => simp [TxThread.left, hpc, Stance.advance, setTx]
  | exit hpc' hterm => exact absurd hpc' hpc
  | goOn hpc' => exact absurd hpc' hpc

-- ---------------------------------------------------------------------------
-- The bound
-- ---------------------------------------------------------------------------

def State.AtCheckCtrl (s : State R T E P D) : Thread R T → Prop
  | .inl r => (s.rx r).pc = .checkCtrl
  | .inr t => (s.tx t).pc = .checkCtrl

def State.left (N : SinStance R T E P D) (s : State R T E P D) : Thread R T → Nat
  | .inl r => (s.rx r).left N r
  | .inr t => (s.tx t).left

/-- At most how many steps a thread takes from one `check_ctrl` to the next. -/
def SinStance.maxLeft (N : SinStance R T E P D) : Thread R T → Nat
  | .inl r => 3 * (N.rxZone r).numSlots + (N.classes r).length + 4
  | .inr t => 2 * (N.txZone t).numSlots + 4

omit [DecidableEq R] [DecidableEq T] [DecidableEq E] [DecidableEq P] in
theorem Inv.pktsIn_length (h : Inv N s A) (r : R) : (A (.pktsIn r)).length ≤ (N.rxZone r).numSlots := by
  have hsub : A (.pktsIn r) ⊆ (List.range (N.rxZone r).numSlots).map (N.rxZone r).pmap := by
    intro p hp
    obtain ⟨i, hi, rfl⟩ := h.lay.allowed (.pktsIn r) p hp
    exact List.mem_map_of_mem (List.mem_range.mpr hi)
  simpa using (List.subperm_of_subset (h.lay.sep.nodup (.pktsIn r)) hsub).length_le

omit [DecidableEq R] [DecidableEq T] [DecidableEq E] [DecidableEq P] in
theorem left_le (hinv : Inv N s A) (htidy : Tidy N s) (thread : Thread R T) :
    s.left N thread ≤ N.maxLeft thread := by
  cases thread with
  | inl r =>
    have hring := (hinv.rx r).ring
    have hsize := (hinv.rx r).size
    have hlen := hinv.inList_len r
    have hmax := hinv.pktsIn_length r
    have htidy := htidy.rx r
    simp only [State.left, RxThread.left, SinStance.maxLeft]
    split
    · rename_i nh hpc
      have hlt := dist_lt ((hinv.rx r).scan nh hpc).lt hring.cur_lt
      omega
    · omega
    · rename_i hpc
      have hin : (s.rx r).inList = (s.rx r).pktsIn := by simp [RxThread.inList, hpc]
      rw [hin] at hlen
      omega
    · omega
    · rename_i todo hpc
      simp only [RxThread.Tidy, hpc] at htidy
      omega
    · omega
    · omega
  | inr t =>
    have hslots := txRingNslots_lt (hinv.tx t).order
    have hsize := (hinv.tx t).size
    have hat := (hinv.tx t).pc
    simp only [State.left, TxThread.left, SinStance.maxLeft]
    split
    all_goals
      rename_i hpc
      rw [hpc] at hat
      simp only [TxAt] at hat
      omega

theorem left_own (h : (machine N).Reachable s) (hs : step N s mv = some s') {thread : Thread R T}
    (hown : IsStepOf thread mv) : s.AtCheckCtrl thread ∨ s'.left N thread < s.left N thread := by
  obtain ⟨hinv, htidy⟩ := inv_tidy h
  cases mv with
  | rx r choice =>
    obtain rfl : thread = .inl r := hown
    by_cases hpc : (s.rx r).pc = .checkCtrl
    · exact .inl hpc
    · exact .inr ((rxStep_moves hs).left_lt hinv (htidy.rx r) hpc)
  | tx t choice =>
    obtain rfl : thread = .inr t := hown
    by_cases hpc : (s.tx t).pc = .checkCtrl
    · exact .inl hpc
    · exact .inr ((txStep_moves hs).left_lt hinv hpc)
  | receive r k => exact hown.elim
  | drain t n => exact hown.elim

theorem left_other (hs : step N s mv = some s') {thread : Thread R T} (hother : ¬ IsStepOf thread mv) :
    s'.left N thread ≤ s.left N thread := by
  cases thread with
  | inl r =>
    rcases rx_of_step hs r with ⟨choice, rfl, -⟩ | ⟨-, tail, hsame⟩
    · exact absurd rfl hother
    · rw [State.left, hsame]
      exact le_rfl
  | inr t =>
    rcases tx_of_step hs t with ⟨choice, rfl, -⟩ | ⟨-, queue, signalled, tail, hsame⟩
    · exact absurd rfl hother
    · rw [State.left, hsame]
      exact le_rfl

/-- In every run in which a thread takes more steps than that, it calls `check_ctrl`. -/
theorem check_ctrl_reached (h : (machine N).Reachable s) {mvs : List (Move R T D)}
    (he : exec (step N) s mvs = some s') (thread : Thread R T)
    (hlong : N.maxLeft thread < mvs.countP fun mv => IsStepOf thread mv) :
    ∃ mvs₁ mv mvs₂ s₁, mvs = mvs₁ ++ mv :: mvs₂ ∧ exec (step N) s mvs₁ = some s₁ ∧
      IsStepOf thread mv ∧ s₁.AtCheckCtrl thread := by
  obtain ⟨hinv, htidy⟩ := inv_tidy h
  exact exec_hits (I := (machine N).Reachable) (fun s => s.left N thread) (fun s mv s' h hs => h.next hs)
    (fun s mv s' h hs => left_own h hs) (fun s mv s' _ hs => left_other hs) h he
    ((left_le hinv htidy thread).trans_lt hlong)

/-- Three frames come, the last one while the rx thread takes the others from
its ring. It sorts them and puts both classes, and the tx thread sends the first. -/
def smallBusy : List (Move Unit Unit Nat) :=
  [.receive () ⟨2, fun i => 6 + i, fun _ => 60⟩, .rx () true, .rx () false,
    .receive () ⟨3, fun i => 6 + i, fun _ => 60⟩] ++ (List.replicate 17 [.tx () false, .rx () false]).flatten

theorem check_ctrl_reached_busy :
    (∃ s', exec (step small) smallStart smallBusy = some s' ∧ (s'.tx ()).pc = .send 3 1 (some 2) (some 11)) ∧
    (∃ mvs₁ mv mvs₂ s₁, smallBusy = mvs₁ ++ mv :: mvs₂ ∧ exec (step small) smallStart mvs₁ = some s₁ ∧
      IsStepOf (.inl ()) mv ∧ s₁.AtCheckCtrl (.inl ())) ∧
    ∃ mvs₁ mv mvs₂ s₁, smallBusy = mvs₁ ++ mv :: mvs₂ ∧ exec (step small) smallStart mvs₁ = some s₁ ∧
      IsStepOf (.inr ()) mv ∧ s₁.AtCheckCtrl (.inr ()) := by
  obtain ⟨s', he, hpc⟩ := (Option.any_eq_true (fun s => (s.tx ()).pc = .send 3 1 (some 2) (some 11))
    (exec (step small) smallStart smallBusy)).mp (by decide)
  exact ⟨⟨s', he, of_decide_eq_true hpc⟩, check_ctrl_reached (.init small_start) he (.inl ()) (by decide),
    check_ctrl_reached (.init small_start) he (.inr ()) (by decide)⟩

end Libsinet.Stance
