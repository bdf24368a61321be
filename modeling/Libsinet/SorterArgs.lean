import Libsinet.SinSorter

/-!
# What a sorter's callbacks are passed

Handlers registered through `sin_sorter_reg` are declared with a
`struct ps_arg *`, those that `sin_init` registers take their output queue; the
entries of both have the same type, and `sin_pkt_sorter_proc` tells them apart by
`ap`. Rings are filled and sorted in any order here, between any two rounds of
the loop of `sin_sorter_reg`, and what a taste answers comes from outside.
-/

namespace Libsinet.SorterArgs

open Machine SinSorter

/-- `promise` is what the callbacks of an entry were declared to take when it was
registered, and `outq` the queue each sorter was constructed with. -/
structure State (E P Q A D C : Type) extends SinStance E P Q A D C where
  promise : E → Ap Q A
  outq : Nat → Q

/-- A round of `sin_sorter_reg` for the ring `i`, a call of `sin_pkt_sorter_reg`
for it with a queue, and what happens to the ring's sorter otherwise. -/
inductive Move (E P Q A D C : Type)
  | sorterReg (i : Nat) (h : Handler Q A D C) (ent : E)
  | pktSorterReg (i : Nat) (outq : Q) (h : Handler Q A D C) (ent : E)
  | ring (i : Nat) (mv : PktSorter.Move E P)

variable {E P Q A D C : Type} [DecidableEq E] [DecidableEq P]

-- ---------------------------------------------------------------------------
-- Registering
-- ---------------------------------------------------------------------------

/-- What `sin_pkt_sorter_ctor` stores for its default consumer. -/
def sinPktSorterCtor (outq : Q) (consumeDefault : C) (ap : Option A) : C × PsArg Q A :=
  (consumeDefault, ⟨outq, ap⟩)

def regOn (s : SinStance E P Q A D C) (i : Nat) (outq : Q) (h : Handler Q A D C) (ent : E) : SinStance E P Q A D C :=
  { s with
    ent := Function.update s.ent ent ⟨h.taste, h.consume, ⟨outq, h.ap⟩⟩
    rxSort := Function.update s.rxSort i (PktSorter.sinPktSorterReg (s.rxSort i) ent) }

omit [DecidableEq P] in
theorem sinPktSorterReg_eq (s : SinStance E P Q A D C) (i : Nat) (h : Handler Q A D C) (ent : E) :
    sinPktSorterReg s i h (some ent) = (regOn s i (s.outQueue i) h ent, 0) := rfl

def State.reg (s : State E P Q A D C) (i : Nat) (outq : Q) (h : Handler Q A D C) (ent : E) (promise : Ap Q A) :
    State E P Q A D C :=
  { toSinStance := regOn s.toSinStance i outq h ent
    promise := Function.update s.promise ent promise
    outq := s.outq }

def State.setRing (s : State E P Q A D C) (i : Nat) (t : PktSorter.State E P) : State E P Q A D C :=
  { s with rxSort := Function.update s.rxSort i t }

/-- `malloc` gives no memory that an entry still uses. -/
def State.Fresh (s : State E P Q A D C) (ent : E) : Prop := ∀ i, ent ∉ (s.rxSort i).entries

inductive Step (s : State E P Q A D C) : Move E P Q A D C → State E P Q A D C → Prop
  | sorterReg : i < s.nrings → s.Fresh ent →
    Step s (.sorterReg i h ent) (s.reg i (s.outQueue i) h ent (.arg ⟨s.outQueue i, h.ap⟩))
  | pktSorterReg : h.ap = none → s.Fresh ent → Step s (.pktSorterReg i outq h ent) (s.reg i outq h ent (.outq outq))
  | ring : (∀ ent, mv ≠ .reg ent) → PktSorter.step (s.rxSort i) mv = some t →
    Step s (.ring i mv) (s.setRing i t)

/-- New sorters, with default consumers that take the queue. -/
structure Start (s : State E P Q A D C) : Prop where
  rxSort : ∀ i, PktSorter.Start (s.rxSort i)
  consumeDefault : ∀ i, ∃ c, s.consumeDefault i = sinPktSorterCtor (s.outq i) c none

abbrev machine (E P Q A D C : Type) [DecidableEq E] [DecidableEq P] :
    Machine (State E P Q A D C) (Move E P Q A D C) := ⟨Start, Step⟩

-- ---------------------------------------------------------------------------
-- Calls
-- ---------------------------------------------------------------------------

/-- Whose function the next step of `sin_pkt_sorter_proc` calls, if it calls one:
a taste, a consumer or the default consumer. -/
def nextCall (t : PktSorter.State E P) : Option (Option E) :=
  match t.pc with
  | .taste _ (some psep) => some (some psep)
  | .flush (some psep) => if (t.wrk (some psep)).isEmpty then none else some (some psep)
  | .flushDefault => if (t.wrk none).isEmpty then none else some none
  | _ => none

/-- What is passed to the functions of an entry of the ring `i`, or to its
default consumer. -/
def State.passed (s : State E P Q A D C) (i : Nat) (c : Option E) : Ap Q A := (s.consumer i c).2

def State.promised (s : State E P Q A D C) (i : Nat) : Option E → Ap Q A
  | none => .outq (s.outq i)
  | some e => s.promise e

def State.CallOk (s : State E P Q A D C) (i : Nat) : Prop :=
  ∀ c, nextCall (s.rxSort i) = some c → s.passed i c = s.promised i c

def GivesAp (_ : State E P Q A D C) : Move E P Q A D C → Prop
  | .sorterReg _ h _ => h.ap ≠ none
  | _ => True

def Processing (_ : State E P Q A D C) : Move E P Q A D C → Prop
  | .ring _ _ => True
  | _ => False

variable {s s' : State E P Q A D C} {i j : Nat} {e ent : E} {h : Handler Q A D C}

/-- An entry as `sin_sorter_reg` makes it, or as `sin_init` does. -/
inductive EntryOk (s : State E P Q A D C) (i : Nat) (e : E) : Prop
  | user (promise : s.promise e = .arg (s.ent e).arg) (outq : (s.ent e).arg.outq = s.outQueue i)
  | internal (q : Q) (promise : s.promise e = .outq q) (arg : (s.ent e).arg = ⟨q, none⟩)

structure Inv (s : State E P Q A D C) : Prop where
  ring : ∀ i, (PktSorter.machine E P).Reachable (s.rxSort i)
  default : ∀ i, (s.consumeDefault i).2 = ⟨s.outq i, none⟩
  entry : ∀ i, ∀ e ∈ (s.rxSort i).entries, EntryOk s i e

-- ---------------------------------------------------------------------------
-- One sorter
-- ---------------------------------------------------------------------------

variable {t t' : PktSorter.State E P} {p : P}

def NoReg (_ : PktSorter.State E P) (mv : PktSorter.Move E P) : Prop := ∀ ent, mv ≠ .reg ent

section

omit [DecidableEq E] [DecidableEq P]

theorem noReg_step : NoReg t .step := by
  intro ent h
  cases h

theorem noReg_relink {np : Option P} : NoReg t (.relink p np) := by
  intro ent h
  cases h

theorem noReg_proc {pl : SinList P} {taste : E → P → Bool} : NoReg t (.proc pl taste) := by
  intro ent h
  cases h

end

theorem procStep_entries (h : PktSorter.procStep t = some t') : t'.entries = t.entries := by
  unfold PktSorter.procStep at h
  split at h
  case h_1 => cases h
  case h_5 => split at h <;> cases h <;> rfl
  case h_7 =>
    cases h
    exact (PktSorter.flush_frame _ _ _).2.2.2.1
  case h_8 =>
    cases h
    exact (PktSorter.flush_frame _ _ _).2.2.2.1
  all_goals
    cases h
    rfl

theorem step_entries {mv : PktSorter.Move E P} (hmv : ∀ ent, mv ≠ .reg ent) (h : PktSorter.step t mv = some t') :
    t'.entries = t.entries := by
  cases mv with
  | reg ent => exact absurd rfl (hmv ent)
  | proc pl taste =>
    simp only [PktSorter.step, Option.ite_none_right_eq_some, Option.some.injEq] at h
    obtain ⟨-, rfl⟩ := h
    rfl
  | step => exact procStep_entries h
  | relink p np =>
    simp only [PktSorter.step, Option.ite_none_left_eq_some, Option.some.injEq] at h
    obtain ⟨-, rfl⟩ := h
    rfl

/-- Only functions of registered entries are called. -/
theorem nextCall_mem (hr : (PktSorter.machine E P).Reachable t) (hc : nextCall t = some (some e)) :
    e ∈ t.entries := by
  obtain ⟨hb, m, hinv⟩ := PktSorter.inv_of_reachable hr
  unfold nextCall at hc
  split at hc
  · rename_i pkt psep hpc
    obtain rfl := Option.some.inj (Option.some.inj hc)
    rw [hpc] at hinv
    obtain ⟨-, -, pre, suf, -, hsnap, -, hsuf, -⟩ := hinv
    obtain ⟨suf, rfl, -⟩ := hsuf.eq_cons
    exact hb.snap pkt _ (hsnap ▸ List.mem_append_right _ List.mem_cons_self)
  · rename_i psep hpc
    simp only [Option.ite_none_left_eq_some, Option.some.injEq] at hc
    obtain ⟨-, rfl⟩ := hc
    rw [hpc] at hinv
    obtain ⟨suf, hsuf, hflush, -⟩ := hinv
    obtain ⟨suf, rfl, -⟩ := hsuf.eq_cons
    exact hflush.known (some psep) (by simp) psep rfl
  · split at hc <;> cases hc
  · cases hc

/-- While every entry rejects the packet the cursor gets to each of them. -/
theorem walk_to {a : Option E} {pre suf : List E} (hpc : t.pc = .taste p a) (hl : Linked t.next a (pre ++ e :: suf))
    (hno : ∀ e p, t.taste e p = false) :
    (PktSorter.machine E P).StepsBy NoReg t { t with pc := .taste p (some e) } := by
  induction pre generalizing t a with
  | nil =>
    obtain rfl := hl.1
    rw [← hpc]
  | cons x pre ih =>
    obtain ⟨rfl, hl⟩ := hl
    have hstep : PktSorter.step t .step = some { t with pc := .taste p (t.next x) } := by
      simp [PktSorter.step, PktSorter.procStep, hpc, hno]
    have hrest := @ih { t with pc := .taste p (t.next x) } (t.next x) rfl hl hno
    exact .head ⟨.step, noReg_step, hstep⟩ hrest

/-- Between two calls of `sin_pkt_sorter_proc` all packets have been given away. -/
theorem not_owns (hr : (PktSorter.machine E P).Reachable t) (hidle : t.pc = .idle) (p : P) : ¬ t.Owns p := by
  rintro ⟨hin, hkept⟩
  have hsorted := (PktSorter.sinPktSorterProc_sorts hr).1 hidle
  obtain ⟨d, hd, hchoice⟩ := hsorted.all p hin
  refine hkept d hd ?_
  rw [(hsorted.each d hd).2]
  exact List.mem_filter.mpr ⟨hin, decide_eq_true hchoice.symm⟩

def onePacket (p : P) : SinList P := ⟨some p, some p, 1⟩

omit [DecidableEq P] in
theorem onePacket_holds {m : Links P} (hp : m p = none) : (onePacket p).Holds m ((onePacket p).nodes m) := by
  have hholds : (onePacket p).Holds m [p] := ⟨⟨⟨rfl, hp⟩, rfl, rfl⟩, by simp⟩
  rwa [hholds.nodes_eq]

def begun (t : PktSorter.State E P) (p : P) : PktSorter.State E P :=
  { t with
    links := Function.update t.links p none
    taste := fun _ _ => false
    pc := .taste p t.first
    input := (onePacket p).nodes (Function.update t.links p none)
    snap := Function.update (fun _ => []) p t.entries
    delivered := [] }

theorem stepsBy_begun (hr : (PktSorter.machine E P).Reachable t) (hidle : t.pc = .idle) (p : P) :
    (PktSorter.machine E P).StepsBy NoReg t (begun t p) := by
  have hrelink : PktSorter.step t (.relink p none) = some { t with links := Function.update t.links p none } := by
    simp [PktSorter.step, not_owns hr hidle p]
  have hlist : (onePacket p).Holds (Function.update t.links p none) _ := onePacket_holds (Function.update_self _ _ _)
  refine .head ⟨.relink p none, noReg_relink, hrelink⟩ ?_
  refine .head ⟨.proc (onePacket p) fun _ _ => false, noReg_proc, if_pos ⟨hidle, hlist⟩⟩ ?_
  exact .single ⟨.step, noReg_step, rfl⟩

/-- Such a call gets every entry asked. -/
theorem asks (hr : (PktSorter.machine E P).Reachable t) (hidle : t.pc = .idle) (he : e ∈ t.entries) (p : P) :
    ∃ t', (PktSorter.machine E P).StepsBy NoReg t t' ∧ nextCall t' = some (some e) := by
  obtain ⟨pre, suf, hentries⟩ := List.append_of_mem he
  have hlinked : Linked t.next t.first (pre ++ e :: suf) := hentries ▸ (PktSorter.inv_of_reachable hr).1.entries
  have hwalk : (PktSorter.machine E P).StepsBy NoReg (begun t p) { begun t p with pc := .taste p (some e) } :=
    walk_to rfl hlinked fun _ _ => rfl
  exact ⟨_, (stepsBy_begun hr hidle p).trans hwalk, rfl⟩

-- ---------------------------------------------------------------------------
-- Runs
-- ---------------------------------------------------------------------------

omit [DecidableEq E] [DecidableEq P] in
theorem EntryOk.congr (h : EntryOk s i e) (hp : s'.promise e = s.promise e) (he : s'.ent e = s.ent e)
    (hq : s'.outQueue = s.outQueue) : EntryOk s' i e := by
  cases h with
  | user promise outq => exact .user (by rw [hp, he, promise]) (by rw [he, hq, outq])
  | internal q promise arg => exact .internal q (hp.trans promise) (by rw [he, arg])

omit [DecidableEq P] in
theorem mem_reg {outq : Q} {promise : Ap Q A} (he : e ∈ ((s.reg i outq h ent promise).rxSort j).entries) :
    (j = i ∧ e = ent) ∨ e ∈ (s.rxSort j).entries := by
  replace he : e ∈ (Function.update s.rxSort i (PktSorter.sinPktSorterReg (s.rxSort i) ent) j).entries := he
  by_cases hj : j = i
  · subst hj
    rw [Function.update_self] at he
    exact (List.mem_cons.mp he).imp_left fun he => ⟨rfl, he⟩
  · rw [Function.update_of_ne hj] at he
    exact .inr he

theorem mem_setRing {mv : PktSorter.Move E P} (hmv : ∀ ent, mv ≠ .reg ent)
    (ht : PktSorter.step (s.rxSort i) mv = some t) (he : e ∈ ((s.setRing i t).rxSort j).entries) :
    e ∈ (s.rxSort j).entries := by
  replace he : e ∈ (Function.update s.rxSort i t j).entries := he
  by_cases hj : j = i
  · subst hj
    rwa [Function.update_self, step_entries hmv ht] at he
  · rwa [Function.update_of_ne hj] at he

theorem Inv.update (hi : Inv s) (ht : (PktSorter.machine E P).Reachable t) (j : Nat) :
    (PktSorter.machine E P).Reachable (Function.update s.rxSort i t j) := by
  revert j
  rw [Function.forall_update_iff s.rxSort fun _ t => (PktSorter.machine E P).Reachable t]
  exact ⟨ht, fun j _ => hi.ring j⟩

theorem Inv.reg {outq : Q} {promise : Ap Q A} (hi : Inv s) (hf : s.Fresh ent)
    (hok : EntryOk (s.reg i outq h ent promise) i ent) : Inv (s.reg i outq h ent promise) := by
  have hstep : (PktSorter.machine E P).step (s.rxSort i) (.reg ent)
      (PktSorter.sinPktSorterReg (s.rxSort i) ent) := if_neg (hf i)
  refine ⟨hi.update ((hi.ring i).next hstep), hi.default, fun j e he => ?_⟩
  rcases mem_reg he with ⟨rfl, rfl⟩ | he
  · exact hok
  · have hne : e ≠ ent := ne_of_mem_of_not_mem he (hf j)
    exact (hi.entry j e he).congr (Function.update_of_ne hne _ _) (Function.update_of_ne hne _ _) rfl

theorem Inv.setRing {mv : PktSorter.Move E P} (hi : Inv s) (hmv : ∀ ent, mv ≠ .reg ent)
    (ht : PktSorter.step (s.rxSort i) mv = some t) : Inv (s.setRing i t) :=
  ⟨hi.update ((hi.ring i).next ht), hi.default,
    fun j e he => (hi.entry j e (mem_setRing hmv ht he)).congr rfl rfl rfl⟩

theorem Inv.step {mv : Move E P Q A D C} (hi : Inv s) (hs : Step s mv s') : Inv s' := by
  cases hs with
  | sorterReg hlt hf =>
    refine hi.reg hf (.user ?_ ?_)
    · simp [State.reg, regOn]
    · simp [State.reg, regOn]
  | pktSorterReg hap hf =>
    refine hi.reg hf (.internal _ (Function.update_self _ _ _) ?_)
    simp [State.reg, regOn, hap]
  | ring hmv ht => exact hi.setRing hmv ht

theorem inv_of_reachable (hr : (machine E P Q A D C).Reachable s) : Inv s := by
  refine hr.induct (fun s hs => ?_) fun s mv s' => Inv.step
  refine ⟨fun i => .init (hs.rxSort i), fun i => ?_, fun i e he => ?_⟩
  · obtain ⟨c, hc⟩ := hs.consumeDefault i
    rw [hc]
    rfl
  · have hnil : (s.rxSort i).entries = [] := (hs.rxSort i).2.2.2.1
    simp [hnil] at he

def State.AllHaveAp (s : State E P Q A D C) (i : Nat) : Prop :=
  ∀ e ∈ (s.rxSort i).entries, ∀ a, s.promise e = .arg a → a.ap ≠ none

-- ---------------------------------------------------------------------------
-- Arguments
-- ---------------------------------------------------------------------------

theorem Inv.callOk (hi : Inv s) (hap : s.AllHaveAp i) : s.CallOk i := by
  intro c hc
  cases c with
  | none =>
    show ((s.consumeDefault i).2.pass : Ap Q A) = _
    rw [hi.default]
    rfl
  | some e =>
    have he := nextCall_mem (hi.ring i) hc
    show (s.ent e).arg.pass = s.promise e
    cases hi.entry i e he with
    | user promise =>
      have hne := hap e he _ promise
      rw [promise, PsArg.pass]
      cases hx : (s.ent e).arg.ap with
      | none => exact absurd hx hne
      | some a => rfl
    | internal q promise arg =>
      rw [promise, arg]
      rfl

theorem Inv.not_callOk (hi : Inv s) (hc : nextCall (s.rxSort i) = some (some e)) (hp : s.promise e = .arg a)
    (ha : a.ap = none) : ¬ s.CallOk i := by
  intro hok
  have he := nextCall_mem (hi.ring i) hc
  have hpass : (s.ent e).arg.pass = .arg a := (hok _ hc).trans hp
  cases hi.entry i e he with
  | user promise =>
    obtain rfl : (s.ent e).arg = a := Ap.arg.inj (promise.symm.trans hp)
    rw [PsArg.pass, ha] at hpass
    cases hpass
  | internal q promise => cases promise.symm.trans hp

omit [DecidableEq P] in
theorem State.AllHaveAp.reg {outq : Q} {promise : Ap Q A} (hall : s.AllHaveAp j) (hf : s.Fresh ent)
    (hnew : ∀ a, promise = .arg a → a.ap ≠ none) : (s.reg i outq h ent promise).AllHaveAp j := by
  intro e he a hp
  replace hp : Function.update s.promise ent promise e = .arg a := hp
  rcases mem_reg he with ⟨rfl, rfl⟩ | he
  · rw [Function.update_self] at hp
    exact hnew a hp
  · rw [Function.update_of_ne (ne_of_mem_of_not_mem he (hf j))] at hp
    exact hall e he a hp

theorem State.AllHaveAp.setRing {mv : PktSorter.Move E P} (hall : s.AllHaveAp j) (hmv : ∀ ent, mv ≠ .reg ent)
    (ht : PktSorter.step (s.rxSort i) mv = some t) : (s.setRing i t).AllHaveAp j :=
  fun e he => hall e (mem_setRing hmv ht he)

theorem State.AllHaveAp.step {mv : Move E P Q A D C} (hall : s.AllHaveAp i) (hf : GivesAp s mv) (hs : Step s mv s') :
    s'.AllHaveAp i := by
  cases hs with
  | sorterReg hlt hfresh =>
    refine hall.reg hfresh fun a ha => ?_
    cases ha
    exact hf
  | pktSorterReg hap hfresh => exact hall.reg hfresh fun a ha => by cases ha
  | ring hmv ht => exact hall.setRing hmv ht

theorem allHaveAp_of_givesAp (hr : (machine E P Q A D C).ReachableBy GivesAp s) (i : Nat) : s.AllHaveAp i := by
  induction hr with
  | @init s hs =>
    intro e he
    have hnil : (s.rxSort i).entries = [] := (hs.rxSort i).2.2.2.1
    simp [hnil] at he
  | step _ hf hs ih => exact ih.step hf hs

/-- What a ring's sorter does is what happens to the ring. -/
theorem stepsBy_setRing (ht : (PktSorter.machine E P).StepsBy NoReg (s.rxSort i) t) :
    (machine E P Q A D C).StepsBy Processing s (s.setRing i t) := by
  induction ht with
  | refl =>
    rw [State.setRing, Function.update_eq_self]
  | @tail t t' _ hstep ih =>
    obtain ⟨mv, hmv, hstep⟩ := hstep
    have hring : (s.setRing i t).rxSort i = t := Function.update_self _ _ _
    have hset : (s.setRing i t).setRing i t' = s.setRing i t' := by
      simp [State.setRing]
    refine ih.tail ⟨.ring i mv, trivial, hset ▸ .ring hmv ?_⟩
    rwa [hring]

theorem State.AllHaveAp.processing (hall : s.AllHaveAp i) (hs : (machine E P Q A D C).StepsBy Processing s s') :
    s'.AllHaveAp i := by
  induction hs with
  | refl => exact hall
  | tail _ hstep ih =>
    obtain ⟨mv, hf, hstep⟩ := hstep
    cases mv with
    | ring k mv =>
      cases hstep with
      | ring hmv ht => exact ih.setRing hmv ht
    | sorterReg => exact hf.elim
    | pktSorterReg => exact hf.elim

/-- Every callback is passed what its registration promises in every run in which
`sin_sorter_reg` is always given a pointer; and of whatever was registered so
far exactly the handlers without one are wrong. -/
theorem sorter_callbacks (hr : (machine E P Q A D C).Reachable s) (p : P) :
    ((machine E P Q A D C).ReachableBy GivesAp s → ∀ i, s.CallOk i) ∧
      ∀ i, (s.rxSort i).pc = .idle →
        ((∀ s', (machine E P Q A D C).StepsBy Processing s s' → s'.CallOk i) ↔ s.AllHaveAp i) := by
  have hi := inv_of_reachable hr
  have hlater : ∀ s', (machine E P Q A D C).StepsBy Processing s s' → Inv s' := fun s' hs =>
    inv_of_reachable (hr.stepsBy (hs.mono fun _ _ _ => trivial))
  refine ⟨fun hap i => hi.callOk (allHaveAp_of_givesAp hap i), fun i hidle => ⟨fun hok e he a hp ha => ?_, ?_⟩⟩
  · obtain ⟨t, ht, hc⟩ := asks (hi.ring i) hidle he p
    have hsteps := stepsBy_setRing ht
    have hring : (s.setRing i t).rxSort i = t := Function.update_self _ _ _
    exact (hlater _ hsteps).not_callOk (hring.symm ▸ hc) hp ha (hok _ hsteps)
  · exact fun hall s' hs => (hlater s' hs).callOk (hall.processing hs)

-- ---------------------------------------------------------------------------
-- sin_sorter_reg
-- ---------------------------------------------------------------------------

/-- Its loop, with `n` rings from `k` on still to come, is a run of its rounds. -/
theorem regLoop_stepsBy {malloc : Nat → Option E} {k n : Nat} (hn : k + n ≤ s.nrings)
    (hfresh : ∀ j, k ≤ j → ∀ ent, malloc j = some ent → s.Fresh ent)
    (hinj : ∀ j j' ent, malloc j = some ent → malloc j' = some ent → j = j') :
    ∃ s', (machine E P Q A D C).StepsBy (fun _ mv => ∃ j ent, mv = .sorterReg j h ent) s s' ∧
      s'.toSinStance = (regLoop h malloc k n s.toSinStance).1 := by
  induction n generalizing k s with
  | zero => exact ⟨s, .refl, rfl⟩
  | succ n ih =>
    cases hent : malloc k with
    | none =>
      refine ⟨s, .refl, ?_⟩
      rw [regLoop, hent]
      rfl
    | some ent =>
      have hf : s.Fresh ent := hfresh k le_rfl ent hent
      have hstep : Step s (.sorterReg k h ent) (s.reg k (s.outQueue k) h ent (.arg ⟨s.outQueue k, h.ap⟩)) :=
        .sorterReg (by omega) hf
      have hrest : ∀ j, k + 1 ≤ j → ∀ ent', malloc j = some ent' →
          (s.reg k (s.outQueue k) h ent (.arg ⟨s.outQueue k, h.ap⟩)).Fresh ent' := by
        intro j hj ent' hent' i
        have hne : ent' ≠ ent := by
          rintro rfl
          have hjk := hinj j k ent' hent' hent
          omega
        intro he
        rcases mem_reg he with ⟨-, he⟩ | he
        · exact hne he
        · exact hfresh j (by omega) ent' hent' i he
      obtain ⟨s', hs', heq⟩ := ih (by show k + 1 + n ≤ s.nrings; omega) hrest
      refine ⟨s', .head ⟨_, ⟨k, ent, rfl⟩, hstep⟩ hs', ?_⟩
      rw [heq, regLoop, hent]
      rfl

theorem sinSorterReg_stepsBy {malloc : Nat → Option E} (hfresh : ∀ j ent, malloc j = some ent → s.Fresh ent)
    (hinj : ∀ j j' ent, malloc j = some ent → malloc j' = some ent → j = j') :
    ∃ s', (machine E P Q A D C).StepsBy (fun _ mv => ∃ j ent, mv = .sorterReg j h ent) s s' ∧
      s'.toSinStance = (sinSorterReg s.toSinStance h malloc).1 :=
  regLoop_stepsBy (by rw [Nat.zero_add]) (fun j _ => hfresh j) hinj

-- ---------------------------------------------------------------------------
-- One handler
-- ---------------------------------------------------------------------------

def noHandlers : State (Fin 2) (Fin 4) Nat Unit Unit Bool := ⟨twoSorters, fun _ => .outq 0, fun i => i⟩

def withAp (ap : Option Unit) : Handler Nat Unit Unit Bool := ⟨fun _ _ => true, true, ap⟩

def oneHandler (ap : Option Unit) : State (Fin 2) (Fin 4) Nat Unit Unit Bool :=
  noHandlers.reg 0 0 (withAp ap) (.last 1) (.arg ⟨0, ap⟩)

theorem reachable_oneHandler (ap : Option Unit) :
    (machine (Fin 2) (Fin 4) Nat Unit Unit Bool).Reachable (oneHandler ap) := by
  have hstart : Start noHandlers := ⟨fun _ => PktSorter.emptySorter_init, fun _ => ⟨false, rfl⟩⟩
  have hstep : Step noHandlers (.sorterReg 0 (withAp ap) (.last 1)) (oneHandler ap) :=
    .sorterReg (by decide) fun i he => List.not_mem_nil he
  exact .step (.init hstart) trivial hstep

theorem oneHandler_asks (ap : Option Unit) :
    ∃ s, (machine (Fin 2) (Fin 4) Nat Unit Unit Bool).StepsBy Processing (oneHandler ap) s ∧
      nextCall (s.rxSort 0) = some (some (.last 1)) ∧ s.promise (.last 1) = .arg ⟨0, ap⟩ := by
  have hmem : Fin.last 1 ∈ ((oneHandler ap).rxSort 0).entries := List.mem_cons_self
  obtain ⟨t, ht, hc⟩ := asks ((inv_of_reachable (reachable_oneHandler ap)).ring 0) rfl hmem 0
  exact ⟨_, stepsBy_setRing ht, hc, rfl⟩

theorem sorter_callbacks_ap : ∃ s : State (Fin 2) (Fin 4) Nat Unit Unit Bool,
    nextCall (s.rxSort 0) = some (some (.last 1)) ∧ s.promise (.last 1) = .arg ⟨0, some ()⟩ ∧ s.CallOk 0 := by
  have hall : (oneHandler (some ())).AllHaveAp 0 := by
    intro e he a ha
    obtain rfl : e = .last 1 := List.mem_singleton.mp he
    obtain rfl : _ = a := Ap.arg.inj ha
    exact Option.some_ne_none ()
  obtain ⟨s, hs, hc, hp⟩ := oneHandler_asks (some ())
  exact ⟨s, hc, hp, ((sorter_callbacks (reachable_oneHandler _) 0).2 0 rfl).mpr hall s hs⟩

/-- The same handler without a pointer. -/
theorem null_ap_gets_queue : ¬ ∀ s s' : State (Fin 2) (Fin 4) Nat Unit Unit Bool,
    (machine (Fin 2) (Fin 4) Nat Unit Unit Bool).Reachable s →
      (machine (Fin 2) (Fin 4) Nat Unit Unit Bool).StepsBy Processing s s' → s'.CallOk 0 := by
  intro h
  have hr := reachable_oneHandler none
  obtain ⟨s, hs, hc, hp⟩ := oneHandler_asks none
  have hi := inv_of_reachable (hr.stepsBy (hs.mono fun _ _ _ => trivial))
  exact hi.not_callOk hc hp rfl (h _ _ hr hs)

end Libsinet.SorterArgs
