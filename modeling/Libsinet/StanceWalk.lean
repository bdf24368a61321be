import Libsinet.StanceCycle
import Libsinet.StanceOrder

/-!
# Consumers that walk their lists

In `Stance` a consumer's call is one step. Here it is the loop of the source: a
step for each packet of the list and, after the last, one for
`sin_wi_queue_put_items`, while the other threads and the kernel go on. The
default consumer only puts. To everybody else the calls might as well be single
steps.
-/

namespace Libsinet.Stance

open Machine NetmapRing Circular

/-- In an instance, where the loops of the consumers are: `walk r` is the packet
at which the one is that the thread of `r` has called, if it has called one. -/
structure Walks (R : Type u) (T : Type v) (E : Type w) (P : Type x) (D : Type y) where
  inst : State R T E P D
  walk : R → Option (Option P)

variable {R : Type u} {T : Type v} {E : Type w} {P : Type x} {D : Type y}
variable [DecidableEq R] [DecidableEq T] [DecidableEq E] [DecidableEq P]

/-- What `sin_ip4_icmp_proc` and `udpm_proc` do with one packet of the list. -/
def consumePkt (N : SinStance R T E P D) (s : State R T E P D) (r : R) (e : E) (pkt : P) : State R T E P D :=
  { s with
    origin := Function.update s.origin pkt (r, s.frame pkt)
    data := Function.update s.data pkt (N.pktConsume r (some e) (s.data pkt)) }

def walkRx (N : SinStance R T E P D) (w : Walks R T E P D) (r : R) (choice : Bool) : Option (Walks R T E P D) :=
  let s := w.inst
  let x := s.rx r
  match x.pc, w.walk r with
  | .flush (some e :: _), none =>
    if (x.wrklist (some e)).isEmpty then (rxStep N s r choice).map fun s => { w with inst := s }
    else some { w with walk := Function.update w.walk r (some (x.wrklist (some e)).head) }
  | .flush (some e :: _), some (some pkt) =>
    some ⟨consumePkt N s r e pkt, Function.update w.walk r (some (s.links pkt))⟩
  | .flush (some e :: todo), some none =>
    some ⟨putItems N s r (some e) todo, Function.update w.walk r none⟩
  | _, _ => (rxStep N s r choice).map fun s => { w with inst := s }

def walkStep (N : SinStance R T E P D) (w : Walks R T E P D) : Move R T D → Option (Walks R T E P D)
  | .rx r choice => walkRx N w r choice
  | .tx t choice => (step N w.inst (.tx t choice)).map fun s => { w with inst := s }
  | .receive r k => (step N w.inst (.receive r k)).map fun s => { w with inst := s }
  | .drain t tail => (step N w.inst (.drain t tail)).map fun s => { w with inst := s }

/-- No consumer is at work. -/
def Walks.between (s : State R T E P D) : Walks R T E P D := ⟨s, fun _ => none⟩

abbrev walks (N : SinStance R T E P D) : Machine (Walks R T E P D) (Move R T D) :=
  ofFn (fun w => ∃ s, Start N s ∧ w = .between s) (walkStep N)

-- ---------------------------------------------------------------------------
-- Packets rewritten before the call is over
-- ---------------------------------------------------------------------------

/-- With the packets rewritten that are `done`, by the ring and entry told there. -/
def ahead (N : SinStance R T E P D) (s : State R T E P D) (done : P → Option (R × E)) : State R T E P D :=
  { s with
    origin := fun p => (done p).elim (s.origin p) fun k => (k.1, s.frame p)
    data := fun p => (done p).elim (s.data p) fun k => N.pktConsume k.1 (some k.2) (s.data p) }

/-- The walk of one ring: nothing is `done` where there is none, and otherwise
the packets before the one at hand, in the list of the entry that is flushed. -/
def WalkAt (s : State R T E P D) (A : Place R T E → List P) (done : P → Option (R × E)) (r : R) :
    Option (Option P) → Prop
  | none => ∀ p e, done p ≠ some (r, e)
  | some pkt => ∃ e todo l rest, (s.rx r).pc = .flush (some e :: todo) ∧ A (.wrklist r (some e)) = l ++ rest ∧
      l ++ rest ≠ [] ∧ pkt = rest.head? ∧ ∀ p e', done p = some (r, e') ↔ e' = e ∧ p ∈ l

structure Ahead (N : SinStance R T E P D) (s : State R T E P D) (A : Place R T E → List P)
    (done : P → Option (R × E)) (w : Walks R T E P D) : Prop where
  inst : w.inst = ahead N s done
  walk : ∀ r, WalkAt s A done r (w.walk r)

variable {N : SinStance R T E P D} {s s' : State R T E P D} {A A' : Place R T E → List P}
  {done done' : P → Option (R × E)} {w w' : Walks R T E P D} {r : R} {t : T} {c : Option E} {p q : P} {mv : Move R T D}
  {choice : Bool}

section

omit [DecidableEq R] [DecidableEq T] [DecidableEq E] [DecidableEq P]

theorem Ahead.mem (h : Ahead N s A done w) {e : E} (hp : done p = some (r, e)) : p ∈ A (.wrklist r (some e)) := by
  have hat := h.walk r
  cases hw : w.walk r with
  | none =>
    rw [hw] at hat
    exact absurd hp (hat p e)
  | some pkt =>
    rw [hw] at hat
    obtain ⟨e', todo, l, rest, -, hA, -, -, hdone⟩ := hat
    obtain ⟨rfl, hl⟩ := (hdone p e).mp hp
    rw [hA]
    exact List.mem_append_left _ hl

/-- Nobody has rewritten a packet that is on another list, or on none. -/
theorem Ahead.not_done (h : Ahead N s A done w) (hp : ∀ r e, p ∉ A (.wrklist r (some e))) : done p = none := by
  cases hd : done p with
  | none => rfl
  | some k => exact absurd (h.mem hd) (hp k.1 k.2)

theorem Ahead.not_done_at (h : Ahead N s A done w) (hinv : Inv N s A) {k : Place R T E}
    (hk : ∀ r e, k ≠ .wrklist r (some e)) (hp : p ∈ A k) : done p = none :=
  h.not_done fun r e hp' => hk r e (hinv.lay.sep.once p _ _ hp hp')

theorem ahead_frame (hp : done p = none) : (ahead N s done).frame p = s.frame p := by
  simp [State.frame, Stance.ahead, hp]

theorem ahead_slotFrame (hp : done p = none) : (ahead N s done).slotFrame p = s.slotFrame p := by
  simp [State.slotFrame, Stance.ahead, hp]

theorem ahead_forwarded (hp : done p = none) : (ahead N s done).forwarded p = s.forwarded p := by
  have horigin : (ahead N s done).origin p = s.origin p := by simp [Stance.ahead, hp]
  simp only [State.forwarded, ahead_slotFrame hp, horigin]

end

-- ---------------------------------------------------------------------------
-- Steps of others
-- ---------------------------------------------------------------------------

omit [DecidableEq T] [DecidableEq E] in
theorem ahead_dequeue (hp : done ((N.rxZone r).pmap (s.rx r).ring.cur) = none) :
    dequeuePkt N (ahead N s done) r = ahead N (dequeuePkt N s r) done := by
  have horigin : (dequeuePkt N (ahead N s done) r).origin = (ahead N (dequeuePkt N s r) done).origin := by
    funext p
    rcases eq_or_ne p ((N.rxZone r).pmap (s.rx r).ring.cur) with rfl | hne
    · simp [dequeuePkt, ahead, setRx, hp]
    · simp [dequeuePkt, ahead, setRx, State.frame, hne]
  exact congrArg (fun o => { ahead N (dequeuePkt N s r) done with origin := o }) horigin

omit [DecidableEq T] in
theorem ahead_sort (hp : done p = none) (n : Nat) :
    sortPkt N (ahead N s done) r n p = ahead N (sortPkt N s r n p) done := by
  unfold sortPkt
  rw [ahead_frame hp]
  rfl

omit [DecidableEq R] [DecidableEq T] [DecidableEq E] in
theorem ahead_rewrite (hp : ∀ p ∈ ((s.rx r).wrklist c).nodes s.links, done p = none) :
    rewrite N (ahead N s done) r c = ahead N (rewrite N s r c) done := by
  have hnodes : (((ahead N s done).rx r).wrklist c).nodes (ahead N s done).links =
      ((s.rx r).wrklist c).nodes s.links := rfl
  simp only [rewrite, hnodes]
  simp only [ahead, State.mk.injEq, true_and, and_true]
  constructor
  · funext p
    by_cases hmem : p ∈ ((s.rx r).wrklist c).nodes s.links
    · simp [hmem, hp p hmem]
    · simp [hmem]
  · funext p
    by_cases hmem : p ∈ ((s.rx r).wrklist c).nodes s.links
    · simp [hmem, hp p hmem, State.frame]
    · simp [hmem, State.frame]

omit [DecidableEq R] [DecidableEq E] [DecidableEq P] in
theorem ahead_afterGet (n : Nat) (get : Section P (Got (SinList P × BitVec 32))) :
    afterGet (ahead N s done) t n get = ahead N (afterGet s t n get) done := by
  obtain ⟨links, queue, ret, signal⟩ := get
  cases ret <;> rfl

omit [DecidableEq R] [DecidableEq T] [DecidableEq E] in
theorem ahead_transmit (hp : done p = none) (hq : done q = none) :
    transmit N (ahead N s done) t p q = ahead N (transmit N s t p q) done := by
  simp only [transmit, ahead, State.mk.injEq, true_and, and_true, hp, hq, Option.elim_none]
  constructor
  · funext p'
    rcases eq_or_ne p' q with rfl | hneq
    · split <;> simp [hq]
    · rcases eq_or_ne p' p with rfl | hne
      · split <;> simp [hp, hneq]
      · split <;> simp [hneq, hne]
  · funext p'
    rcases eq_or_ne p' q with rfl | hneq
    · simp [hq]
    · rcases eq_or_ne p' p with rfl | hne
      · simp [hp, hneq]
      · split <;> simp [State.frame, hneq, hne]

omit [DecidableEq R] [DecidableEq E] in
theorem ahead_send (hp : done p = none) (hq : done q = none) (ntx i : Nat) :
    sendPkt N (ahead N s done) t ntx i p q = ahead N (sendPkt N s t ntx i p q) done := by
  unfold sendPkt
  rw [ahead_transmit hp hq]
  rfl

omit [DecidableEq R] [DecidableEq E] [DecidableEq P] in
theorem ahead_advance (hslots : ∀ q ∈ slots (N.txZone t) (s.tx t).ring (s.tx t).ring.cur ntx, done q = none)
    (pkt : Option P) : advance N (ahead N s done) t ntx pkt = ahead N (advance N s t ntx pkt) done := by
  have hmap := List.map_congr_left fun q hq => ahead_forwarded (N := N) (s := s) (hslots q hq)
  unfold advance
  dsimp only
  rw [show ((ahead N s done).tx t) = s.tx t from rfl, hmap]
  rfl

omit [DecidableEq E] [DecidableEq P] in
theorem ahead_receive {k : Received D} (howns : ∀ p, KernelOwns N s r p → done p = none) :
    receive N (ahead N s done) r k = ahead N (receive N s r k) done := by
  have hsame : ∀ p, KernelOwns N (ahead N s done) r p ↔ KernelOwns N s r p := fun _ => Iff.rfl
  simp only [receive, hsame]
  simp only [ahead, setRx, State.mk.injEq, true_and, and_true]
  constructor
  · funext p
    by_cases hown : KernelOwns N s r p
    · simp [howns p hown]
    · simp [hown]
  · funext p
    by_cases hown : KernelOwns N s r p
    · simp [howns p hown]
    · simp [State.frame, hown]

/-- A step of an rx thread, unless it is in a consumer that walks or calls one. -/
theorem Ahead.rxStep (h : Ahead N s A done w) (hinv : Inv N s A)
    (hcall : ∀ e todo, (s.rx r).pc = .flush (some e :: todo) → ((s.rx r).wrklist (some e)).isEmpty = true) :
    rxStep N (ahead N s done) r choice = (rxStep N s r choice).map (ahead N · done) := by
  have hx : (ahead N s done).rx r = s.rx r := rfl
  have hflags : (ahead N s done).flags = s.flags := rfl
  unfold Stance.rxStep
  dsimp only
  rw [hx, hflags]
  split
  case h_2 hpc =>
    split
    · rfl
    · have hidle := hinv.lay.idle (hinv.cur_lt r) (hinv.rx r).ring.cur_not_busy
      rw [ahead_dequeue (h.not_done fun r e => hidle _)]
      rfl
  case h_4 n p hpc =>
    have hhead : (s.list (.pktsIn r)).head = some p := by
      simp [State.list, RxThread.inList, hpc, pktsLeft]
    obtain ⟨l, hl⟩ := hinv.at_cons hhead
    have hp : p ∈ A (.pktsIn r) := hl ▸ List.mem_cons_self
    rw [ahead_sort (h.not_done_at hinv (by simp) hp)]
    rfl
  case h_5 c todo hpc =>
    split
    · rfl
    · rename_i hne
      cases c with
      | some e => exact absurd (hcall e todo hpc) hne
      | none =>
        have hnodes : ((s.rx r).wrklist none).nodes s.links = A (.wrklist r none) :=
          congrFun hinv.pkts_eq (.wrklist r none)
        rw [ahead_rewrite fun p hp => h.not_done_at hinv (k := .wrklist r none) (by simp) (hnodes ▸ hp)]
        rfl
  case h_8 nh hpc => split <;> rfl
  all_goals rfl

omit [DecidableEq R] [DecidableEq E] in
theorem Ahead.txStep (h : Ahead N s A done w) (hinv : Inv N s A) :
    txStep N (ahead N s done) t choice = (txStep N s t choice).map (ahead N · done) := by
  have hy : (ahead N s done).tx t = s.tx t := rfl
  unfold Stance.txStep
  dsimp only
  rw [hy]
  split
  case h_2 n hpc => exact congrArg some (ahead_afterGet n _)
  case h_3 n hpc => exact congrArg some (ahead_afterGet n _)
  case h_4 n hpc => split <;> rfl
  case h_5 ntx left curidx hpc => split <;> rfl
  case h_6 ntx i pkt pktTx hpc =>
    split
    · split
      · rename_i p q
        have hhead : (s.list (.pktsOut t)).head = some p := by
          simp [State.list, TxThread.outList, hpc, pktsLeft]
        have hheadTx : (s.list (.pktsTx t)).head = some q := by
          simp [State.list, TxThread.txList, hpc, pktsLeft]
        obtain ⟨l, hl⟩ := hinv.at_cons hhead
        obtain ⟨l', hl'⟩ := hinv.at_cons hheadTx
        have hp : p ∈ A (.pktsOut t) := hl ▸ List.mem_cons_self
        have hq : q ∈ A (.pktsTx t) := hl' ▸ List.mem_cons_self
        rw [ahead_send (h.not_done_at hinv (by simp) hp) (h.not_done_at hinv (by simp) hq)]
        rfl
      · rfl
    · rfl
  case h_7 ntx pkt hpc =>
    refine congrArg some (ahead_advance (fun q hq => h.not_done fun r e hq' => ?_) pkt)
    obtain ⟨k, -, rfl, hlt⟩ := mem_slots (hinv.tx t).order.cur_lt hq
    obtain ⟨r', hr'⟩ := hinv.list_zone (k := .wrklist r (some e)) rfl hq'
    cases hr'.symm.trans (N.tx_pmap t _ ((hinv.tx t).size ▸ hlt))
  all_goals rfl

theorem Ahead.step (h : Ahead N s A done w) (hinv : Inv N s A)
    (hcall : ∀ r choice, mv = .rx r choice → ∀ e todo, (s.rx r).pc = .flush (some e :: todo) →
      ((s.rx r).wrklist (some e)).isEmpty = true) :
    step N (ahead N s done) mv = (step N s mv).map (ahead N · done) := by
  cases mv with
  | rx r choice => exact h.rxStep hinv (hcall r choice rfl)
  | tx t choice => exact h.txStep hinv
  | receive r k =>
    have hring : ((ahead N s done).rx r).ring = (s.rx r).ring := rfl
    simp only [Stance.step, hring]
    split
    · refine congrArg some (ahead_receive fun p hown => h.not_done fun r' e hp => ?_)
      exact hinv.list_owned (k := .wrklist r' (some e)) rfl hp hown
    · rfl
  | drain t n =>
    have hring : ((ahead N s done).tx t).ring = (s.tx t).ring := rfl
    simp only [Stance.step, hring]
    split <;> rfl

-- ---------------------------------------------------------------------------
-- Walks while others move
-- ---------------------------------------------------------------------------

/-- A thread that stays where it is keeps its work lists. -/
theorem StepTo.wrklist (h : StepTo N s A s' A') (hpc : (s'.rx r).pc = (s.rx r).pc) (c : Option E) :
    A' (.wrklist r c) = A (.wrklist r c) := by
  cases h with
  | sort r' n p l hpc' hA =>
    rcases eq_or_ne r r' with rfl | hr
    · simp [sortPkt, setRx, hpc'] at hpc
    · simp [hr]
  | put r' c' todo hpc' hne =>
    rcases eq_or_ne r r' with rfl | hr
    · simp [putItems, setRx, hpc'] at hpc
    · simp [hr]
  | _ => simp

omit [DecidableEq R] [DecidableEq T] [DecidableEq E] [DecidableEq P] in
theorem WalkAt.congr {pkt : Option (Option P)} (h : WalkAt s A done r pkt) (hpc : (s'.rx r).pc = (s.rx r).pc)
    (hA : ∀ c, A' (.wrklist r c) = A (.wrklist r c)) (hdone : ∀ p e, done' p = some (r, e) ↔ done p = some (r, e)) :
    WalkAt s' A' done' r pkt := by
  cases pkt with
  | none => exact fun p e hp => h p e ((hdone p e).mp hp)
  | some pkt =>
    obtain ⟨e, todo, l, rest, hflush, hlist, hne, hpkt, hl⟩ := h
    exact ⟨e, todo, l, rest, hpc.trans hflush, (hA _).trans hlist, hne, hpkt,
      fun p e' => (hdone p e').trans (hl p e')⟩

/-- Where a step of the walking machine is one of the other, nothing else changes. -/
theorem Ahead.lift (h : Ahead N s A done w) (hinv : Inv N s A)
    (hcall : ∀ r choice, mv = .rx r choice → w.walk r = none ∧ ∀ e todo, (s.rx r).pc = .flush (some e :: todo) →
      ((s.rx r).wrklist (some e)).isEmpty = true)
    (hs : (Stance.step N w.inst mv).map (fun s => { w with inst := s }) = some w') :
    ∃ s' A', Stance.step N s mv = some s' ∧ Inv N s' A' ∧ Ahead N s' A' done w' := by
  rw [h.inst, h.step hinv fun r choice hmv => (hcall r choice hmv).2] at hs
  cases hs' : Stance.step N s mv with
  | none => simp [hs'] at hs
  | some s' =>
    obtain rfl : { w with inst := ahead N s' done } = w' := by simpa [hs'] using hs
    obtain ⟨A', hto⟩ := hinv.step hs'
    refine ⟨s', A', rfl, hinv.stepTo hto, rfl, fun r => ?_⟩
    rcases rx_of_step hs' r with ⟨choice, hmv, -⟩ | ⟨-, tail, hsame⟩
    · have hat := h.walk r
      simp only [(hcall r choice hmv).1] at hat ⊢
      exact hat
    · have hpc : (s'.rx r).pc = (s.rx r).pc := by rw [hsame]
      exact (h.walk r).congr hpc (hto.wrklist hpc) fun _ _ => Iff.rfl

-- ---------------------------------------------------------------------------
-- The walk
-- ---------------------------------------------------------------------------

omit [DecidableEq T] [DecidableEq E] [DecidableEq P] in
/-- The call, with the first packet of the list. -/
theorem Ahead.call (h : Ahead N s A done w) (hinv : Inv N s A) {e : E} {todo : List (Option E)}
    (hpc : (s.rx r).pc = .flush (some e :: todo)) (hwalk : w.walk r = none)
    (hne : ((s.rx r).wrklist (some e)).isEmpty = false) :
    Ahead N s A done { w with walk := Function.update w.walk r (some ((s.rx r).wrklist (some e)).head) } := by
  refine ⟨h.inst, fun r' => ?_⟩
  rcases eq_or_ne r' r with rfl | hr
  · have hholds : ((s.rx r').wrklist (some e)).Holds s.links (A (.wrklist r' (some e))) :=
      hinv.lay.sep.holds (.wrklist r' (some e))
    have hnil : A (.wrklist r' (some e)) ≠ [] := fun he => by
      simp [hholds.isEmpty_iff.mpr he] at hne
    have hnone := h.walk r'
    rw [hwalk] at hnone
    dsimp only
    rw [Function.update_self]
    exact ⟨e, todo, [], _, hpc, rfl, hnil, hholds.chain.head_eq, fun p e' => by simp [hnone p e']⟩
  · simpa [Function.update_of_ne hr] using h.walk r'

omit [DecidableEq R] [DecidableEq T] [DecidableEq E] in
theorem ahead_consume {e : E} (hp : done p = none) :
    consumePkt N (ahead N s done) r e p = ahead N s (Function.update done p (some (r, e))) := by
  simp only [consumePkt, ahead, State.mk.injEq, true_and, and_true]
  constructor
  · funext p'
    rcases eq_or_ne p' p with rfl | hne
    · simp [hp]
    · simp [hne]
  · funext p'
    rcases eq_or_ne p' p with rfl | hne
    · simp [hp, State.frame]
    · simp [hne]

omit [DecidableEq T] [DecidableEq E] in
theorem Ahead.consume (h : Ahead N s A done w) (hinv : Inv N s A) {e : E} {todo : List (Option E)} {pkt : P}
    (hpc : (s.rx r).pc = .flush (some e :: todo)) (hwalk : w.walk r = some (some pkt)) :
    ∃ done', Ahead N s A done'
      ⟨consumePkt N w.inst r e pkt, Function.update w.walk r (some (s.links pkt))⟩ := by
  have hat := h.walk r
  rw [hwalk] at hat
  obtain ⟨e', todo', l, rest, hpc', hA, hne, hpkt, hdone⟩ := hat
  obtain ⟨⟨rfl⟩, rfl⟩ : some e = some e' ∧ todo = todo' := by simpa [hpc] using hpc'
  obtain ⟨rest, rfl⟩ : ∃ rest', rest = pkt :: rest' := by
    obtain ⟨rest', hrest⟩ := List.head?_eq_some_iff.mp hpkt.symm
    exact ⟨rest', hrest⟩
  have hchain := (hinv.lay.sep.holds (.wrklist r (some e))).chain
  have hnodup := hinv.lay.sep.nodup (.wrklist r (some e))
  rw [hA] at hchain hnodup
  have hnot : pkt ∉ l := fun hl => (List.nodup_append.mp hnodup).2.2 _ hl _ List.mem_cons_self rfl
  have hnone : done pkt = none := by
    cases hd : done pkt with
    | none => rfl
    | some k =>
      have hmem : pkt ∈ A (.wrklist r (some e)) := hA ▸ List.mem_append_right _ List.mem_cons_self
      cases hinv.lay.sep.once pkt _ _ (h.mem hd) hmem
      exact absurd ((hdone pkt k.2).mp hd).2 hnot
  refine ⟨Function.update done pkt (some (r, e)), ?_, fun r' => ?_⟩
  · rw [h.inst]
    exact ahead_consume hnone
  · rcases eq_or_ne r' r with rfl | hr
    · dsimp only
      rw [Function.update_self]
      refine ⟨e, todo, l ++ [pkt], rest, hpc, by simp [hA], by simp, (hchain.drop.2).head_eq, fun p e' => ?_⟩
      rcases eq_or_ne p pkt with rfl | hp
      · simp [eq_comm]
      · simp [hp, hdone]
    · simp only [Function.update_of_ne hr]
      refine (h.walk r').congr rfl (fun _ => rfl) fun p e' => ?_
      rcases eq_or_ne p pkt with rfl | hp
      · simp [hnone, Ne.symm hr]
      · simp [hp]

/-- What is done of a list when its consumer is through with it, is what `rewrite` does. -/
theorem Ahead.put (h : Ahead N s A done w) (hinv : Inv N s A) {e : E} {todo : List (Option E)}
    (hpc : (s.rx r).pc = .flush (some e :: todo)) (hwalk : w.walk r = some none) :
    ∃ s' A' done', Stance.step N s (.rx r false) = some s' ∧ Inv N s' A' ∧
      Ahead N s' A' done' ⟨putItems N w.inst r (some e) todo, Function.update w.walk r none⟩ := by
  have hat := h.walk r
  rw [hwalk] at hat
  obtain ⟨e', todo', l, rest, hpc', hA, hnil, hpkt, hdone⟩ := hat
  obtain ⟨⟨rfl⟩, rfl⟩ : some e = some e' ∧ todo = todo' := by simpa [hpc] using hpc'
  obtain rfl : rest = [] := List.head?_eq_none_iff.mp hpkt.symm
  rw [List.append_nil] at hA hnil
  have hholds : ((s.rx r).wrklist (some e)).Holds s.links (A (.wrklist r (some e))) :=
    hinv.lay.sep.holds (.wrklist r (some e))
  have hne : ((s.rx r).wrklist (some e)).isEmpty = false := by
    refine Bool.eq_false_iff.mpr fun hempty => hnil ?_
    rw [← hA]
    exact hholds.isEmpty_iff.mp hempty
  have hs : Stance.step N s (.rx r false) = some (putItems N (rewrite N s r (some e)) r (some e) todo) := by
    simp [Stance.step, Stance.rxStep, hpc, hne]
  obtain ⟨A', hto⟩ := hinv.step hs
  let done' : P → Option (R × E) := fun p => if p ∈ l then none else done p
  have hother : ∀ r' ≠ r, ∀ p e', done' p = some (r', e') ↔ done p = some (r', e') := by
    intro r' hr p e'
    by_cases hp : p ∈ l
    · simp [done', hp, (hdone p e).mpr ⟨rfl, hp⟩, Ne.symm hr]
    · simp [done', hp]
  refine ⟨_, A', done', hs, hinv.stepTo hto, ?_, fun r' => ?_⟩
  · have hnodes : ((s.rx r).wrklist (some e)).nodes s.links = l := hholds.nodes_eq.trans hA
    have hrewrite : ahead N s done = ahead N (rewrite N s r (some e)) done' := by
      simp only [ahead, rewrite, hnodes, State.mk.injEq, true_and, and_true]
      constructor
      · funext p
        by_cases hp : p ∈ l
        · simp [done', hp, (hdone p e).mpr ⟨rfl, hp⟩]
        · simp [done', hp]
      · funext p
        by_cases hp : p ∈ l
        · simp [done', hp, (hdone p e).mpr ⟨rfl, hp⟩]
        · simp [done', hp, State.frame]
    rw [h.inst, hrewrite]
    rfl
  · rcases eq_or_ne r' r with rfl | hr
    · dsimp only
      rw [Function.update_self]
      intro p e' hp
      by_cases hpl : p ∈ l
      · simp [done', hpl] at hp
      · simp only [done', hpl, if_false] at hp
        exact hpl ((hdone p e').mp hp).2
    · simp only [Function.update_of_ne hr]
      have hsame : (putItems N (rewrite N s r (some e)) r (some e) todo).rx r' = s.rx r' := by
        simp [putItems, setRx, setTx, rewrite, hr]
      have hpc' := congrArg RxThread.pc hsame
      exact (h.walk r').congr hpc' (hto.wrklist hpc') (hother r' hr)

-- ---------------------------------------------------------------------------
-- The theorem
-- ---------------------------------------------------------------------------

theorem Ahead.walkRx (h : Ahead N s A done w) (hinv : Inv N s A) (hs : walkRx N w r choice = some w') :
    ∃ s' A' done', (machine N).Steps s s' ∧ Inv N s' A' ∧ Ahead N s' A' done' w' := by
  have hx : w.inst.rx r = s.rx r := by
    rw [h.inst]
    rfl
  have hlinks : w.inst.links = s.links := by
    rw [h.inst]
    rfl
  have hlift : w.walk r = none → (∀ e todo, (s.rx r).pc = .flush (some e :: todo) →
      ((s.rx r).wrklist (some e)).isEmpty = true) →
      (Stance.rxStep N w.inst r choice).map (fun s => { w with inst := s }) = some w' →
      ∃ s' A' done', (machine N).Steps s s' ∧ Inv N s' A' ∧ Ahead N s' A' done' w' := by
    intro hwalk hcall hs
    have hinst : (Stance.step N w.inst (.rx r choice)).map (fun s => { w with inst := s }) = some w' := hs
    obtain ⟨s', A', hstep, hinv', h'⟩ := h.lift hinv (by
      rintro r' choice' ⟨⟩
      exact ⟨hwalk, hcall⟩) hinst
    exact ⟨s', A', done, .single ⟨_, hstep⟩, hinv', h'⟩
  unfold Stance.walkRx at hs
  dsimp only at hs
  rw [hx, hlinks] at hs
  split at hs
  case h_1 e todo hpc hwalk =>
    split at hs
    · rename_i hempty
      refine hlift hwalk (fun e' todo' hpc' => ?_) hs
      obtain ⟨⟨rfl⟩, rfl⟩ : some e = some e' ∧ todo = todo' := by simpa [hpc] using hpc'
      exact hempty
    · rename_i hne
      cases hs
      exact ⟨s, A, done, .refl, hinv, h.call hinv hpc hwalk (Bool.eq_false_iff.mpr hne)⟩
  case h_2 e todo pkt hpc hwalk =>
    cases hs
    obtain ⟨done', h'⟩ := h.consume hinv hpc hwalk
    exact ⟨s, A, done', .refl, hinv, h'⟩
  case h_3 e todo hpc hwalk =>
    cases hs
    obtain ⟨s', A', done', hstep, hinv', h'⟩ := h.put hinv hpc hwalk
    exact ⟨s', A', done', .single ⟨_, hstep⟩, hinv', h'⟩
  case h_4 hno hpkt hend =>
    have hwalk : w.walk r = none := by
      have hat := h.walk r
      cases hw : w.walk r with
      | none => rfl
      | some pkt =>
        rw [hw] at hat
        obtain ⟨e, todo, l, rest, hpc, -⟩ := hat
        cases pkt with
        | none => exact (hend e todo hpc hw).elim
        | some pkt => exact (hpkt e todo pkt hpc hw).elim
    exact hlift hwalk (fun e todo hpc => (hno e todo hpc hwalk).elim) hs

theorem Ahead.walkStep (h : Ahead N s A done w) (hinv : Inv N s A) (hs : walkStep N w mv = some w') :
    ∃ s' A' done', (machine N).Steps s s' ∧ Inv N s' A' ∧ Ahead N s' A' done' w' := by
  cases mv with
  | rx r choice => exact h.walkRx hinv hs
  | _ =>
    obtain ⟨s', A', hstep, hinv', h'⟩ := h.lift hinv (by simp) hs
    exact ⟨s', A', done, .single ⟨_, hstep⟩, hinv', h'⟩

omit [DecidableEq R] [DecidableEq T] [DecidableEq E] in
theorem consume_all (e : E) {l : List P} (hl : l.Nodup) :
    l.foldl (fun s p => consumePkt N s r e p) s =
      { s with
        origin := fun p => if p ∈ l then (r, s.frame p) else s.origin p
        data := fun p => if p ∈ l then N.pktConsume r (some e) (s.data p) else s.data p } := by
  induction l generalizing s with
  | nil => simp
  | cons p l ih =>
    obtain ⟨hp, hl⟩ := List.nodup_cons.mp hl
    rw [List.foldl_cons, ih hl]
    simp only [consumePkt, State.mk.injEq, true_and, and_true]
    constructor
    · funext p'
      rcases eq_or_ne p' p with rfl | hne
      · simp [hp]
      · simp [hne]
    · funext p'
      rcases eq_or_ne p' p with rfl | hne
      · simp [hp]
      · simp [State.frame, hne]

/-- A walk that nobody disturbs. -/
theorem walk_steps {e : E} {todo : List (Option E)} (f : R → Option (Option P)) {pkt : Option P} {l : List P}
    (hpc : (s.rx r).pc = .flush (some e :: todo)) (hl : Linked s.links pkt l) :
    (walks N).Steps ⟨s, Function.update f r (some pkt)⟩
      ⟨putItems N (l.foldl (fun s p => consumePkt N s r e p) s) r (some e) todo, Function.update f r none⟩ := by
  induction l generalizing s pkt with
  | nil =>
    obtain rfl := Linked.nil_iff.mp hl
    refine .single ⟨.rx r false, ?_⟩
    simp [ofFn, Stance.walkStep, Stance.walkRx, hpc]
  | cons p l ih =>
    obtain ⟨rfl, hrest⟩ := Linked.cons_iff.mp hl
    refine .head ⟨.rx r false, ?_⟩ (ih (s := consumePkt N s r e p) hpc hrest)
    simp [ofFn, Stance.walkStep, Stance.walkRx, hpc]

theorem walk_simulation : Simulation (walks N) (fun _ _ => True) (machine N) (fun _ _ => True)
    fun w s => ∃ A done, Inv N s A ∧ Ahead N s A done w := by
  constructor
  · rintro w ⟨s, hs, rfl⟩
    exact ⟨s, hs, _, fun _ => none, hs.inv, rfl, fun r p e => by simp⟩
  · rintro w mv w' s ⟨A, done, hinv, h⟩ - hs
    obtain ⟨s', A', done', hsteps, hinv', h'⟩ := h.walkStep hinv hs
    exact ⟨s', hsteps.stepsBy, A', done', hinv', h'⟩

theorem walk_complete : Simulation (machine N) (fun _ _ => True) (walks N) (fun _ _ => True)
    fun s w => w = .between s ∧ ∃ A, Inv N s A := by
  constructor
  · intro s hs
    exact ⟨.between s, ⟨s, hs, rfl⟩, rfl, _, hs.inv⟩
  · rintro s mv s' w ⟨rfl, A, hinv⟩ - hs
    obtain ⟨A', hto⟩ := hinv.step hs
    suffices hsteps : (walks N).Steps (.between s) (.between s') by
      exact ⟨.between s', hsteps.stepsBy, rfl, A', hinv.stepTo hto⟩
    have hsame : (Stance.step N s mv).map (fun s => { Walks.between s with inst := s }) = some (.between s') :=
      congrArg _ hs
    cases mv with
    | rx r choice =>
      by_cases hcall : ∃ e todo, (s.rx r).pc = .flush (some e :: todo) ∧ ((s.rx r).wrklist (some e)).isEmpty = false
      · obtain ⟨e, todo, hpc, hne⟩ := hcall
        have hholds : ((s.rx r).wrklist (some e)).Holds s.links (A (.wrklist r (some e))) :=
          hinv.lay.sep.holds (.wrklist r (some e))
        have hwalk := walk_steps (N := N) (fun _ => none) hpc hholds.chain
        have hput : Stance.step N s (.rx r choice) = some (putItems N (rewrite N s r (some e)) r (some e) todo) := by
          simp [Stance.step, Stance.rxStep, hpc, hne]
        obtain rfl := Option.some.inj (hput.symm.trans hs)
        rw [consume_all e hholds.chain.nodup, ← hholds.nodes_eq, Function.update_eq_self_iff.mpr rfl] at hwalk
        refine .head ⟨.rx r false, ?_⟩ hwalk
        simp [ofFn, Stance.walkStep, Stance.walkRx, Walks.between, hpc, hne]
      · refine .single ⟨.rx r choice, ?_⟩
        have hrx : walkRx N (.between s) r choice =
            (Stance.rxStep N s r choice).map fun s => { Walks.between s with inst := s } := by
          unfold Stance.walkRx
          dsimp only [Walks.between]
          split
          · rename_i e todo hpc hwalk
            rw [if_pos (by simpa using fun hne => hcall ⟨e, todo, hpc, hne⟩)]
          · rename_i h
            cases h
          · rename_i h
            cases h
          · rfl
        exact hrx.trans hsame
    | tx t choice => exact .single ⟨.tx t choice, hsame⟩
    | receive r k => exact .single ⟨.receive r k, hsame⟩
    | drain t n => exact .single ⟨.drain t n, hsame⟩

omit [DecidableEq R] [DecidableEq T] [DecidableEq E] [DecidableEq P] in
theorem ahead_none (s : State R T E P D) : ahead N s (fun _ => none) = s := rfl

/-- Whenever somebody looks, an instance with walking consumers is one in which
a call is a single step, only that of the lists being walked the packets passed
are rewritten already, once each and by the consumer at work. Between the calls
both have the same states. -/
theorem consumers_atomic :
    ((walks N).Reachable w → ∃ s done, (machine N).Reachable s ∧ Ahead N s s.pkts done w) ∧
      ((walks N).Reachable (.between s) ↔ (machine N).Reachable s) := by
  have hsim : ∀ w, (walks N).Reachable w → ∃ s done, (machine N).Reachable s ∧ Ahead N s s.pkts done w := by
    intro w hw
    obtain ⟨s, hs, A, done, hinv, h⟩ := walk_simulation.reachable hw
    obtain rfl := hinv.pkts_eq
    exact ⟨s, done, hs, h⟩
  refine ⟨hsim w, fun hw => ?_, fun hs => ?_⟩
  · obtain ⟨s', done, hs, h⟩ := hsim _ hw
    have hnone : done = fun _ => none := by
      funext p
      cases hd : done p with
      | none => rfl
      | some k => exact absurd hd (h.walk k.1 p k.2)
    have hinst := h.inst
    rw [hnone, ahead_none] at hinst
    obtain rfl : s = s' := hinst
    exact hs
  · obtain ⟨w, hw, rfl, -⟩ := walk_complete.reachable hs
    exact hw

/-- Two frames of the even class come in and the consumer has rewritten the
first of them when a third frame does. -/
def smallWalk : List (Move Unit Unit Nat) :=
  [.receive () ⟨2, fun i => 6 + 2 * i, fun _ => 60⟩, .rx () true] ++ List.replicate 8 (.rx () false) ++
    [.receive () ⟨3, fun i => 6 + 2 * i, fun _ => 60⟩]

theorem consumers_atomic_two : ∃ w : Walks Unit Unit Unit Nat Nat, w.walk () = some (some 1) ∧
    (w.inst.data 0, w.inst.data 1, w.inst.data 2) = (106, 8, 10) ∧
      ∃ s done, (machine small).Reachable s ∧ Ahead small s s.pkts done w := by
  have hinit : (walks small).init (.between smallStart) := ⟨smallStart, small_start, rfl⟩
  obtain ⟨w, hr, hp⟩ := Reachable.of_test (walkStep small) smallWalk
    (fun w => w.walk () = some (some 1) ∧ (w.inst.data 0, w.inst.data 1, w.inst.data 2) = (106, 8, 10))
    hinit (by decide)
  obtain ⟨hwalk, hdata⟩ := of_decide_eq_true hp
  exact ⟨w, hwalk, hdata, (consumers_atomic (s := w.inst)).1 hr⟩

end Libsinet.Stance
