import Libsinet.RxRing

/-!
# How far `_spin_ring` gets

One call of `_spin_ring` with a record of its tests, while tx threads clear
busy flags and the kernel moves `tail`. Unlike the ring of `RxRing`, a call may
start with any flags, and any flag may be cleared, whoever holds the packet.
-/

namespace Libsinet.SpinRing

open Circular Machine RxRing

/-- `tests` has the slots whose packets were asked for, and whether each was
busy. -/
structure Call (P : Type u) (Q : Type v) (T : Type w) extends RxRing.State P Q T where
  tests : List (Nat × Bool)

inductive Move (P : Type u) (Q : Type v) (T : Type w)
  | thread
  | clear (pkt : P)
  | other (mv : RxRing.Move P Q T)

variable {P : Type u} {Q : Type v} {T : Type w} [DecidableEq P]

/-- One evaluation of the loop condition, with the round it lets in. -/
def spinRing (zone : SinPktZone P) (c : Call P Q T) : Option (Call P Q T) :=
  match c.pc with
  | .spin i =>
    some
      { toState := rxStep zone c.toState false
        tests := if i = c.ring.cur then c.tests else c.tests ++ [(i, busyAt zone c.flags i)] }
  | _ => none

def clear (s : State P Q T) (pkt : P) : State P Q T :=
  { s with flags := Function.update s.flags pkt (sinPktSetflags (s.flags pkt) 0 spktBusy) }

def step (zone : SinPktZone P) (c : Call P Q T) : Move P Q T → Option (Call P Q T)
  | .thread => spinRing zone c
  | .clear pkt => some { c with toState := clear c.toState pkt }
  | .other (.rx _) => none
  | .other mv => (RxRing.step zone c.toState mv).map fun s => { c with toState := s }

abbrev machine (zone : SinPktZone P) (s : State P Q T) : Machine (Call P Q T) (Move P Q T) :=
  ofFn (· = ⟨s, []⟩) (step zone)

structure AtStart (s : State P Q T) : Prop where
  head_lt : s.ring.head < s.ring.numSlots
  cur_lt : s.ring.cur < s.ring.numSlots
  pc : s.pc = .spin s.ring.head

variable {zone : SinPktZone P} {s s' s₀ : State P Q T} {c c' : Call P Q T} {k : Nat}

-- ---------------------------------------------------------------------------
-- What a step can do
-- ---------------------------------------------------------------------------

/-- What the other parties leave alone: all but `tail` of the ring, and packets
that are not busy. -/
structure Quiet (s s' : State P Q T) : Prop where
  size : s'.ring.numSlots = s.ring.numSlots
  head : s'.ring.head = s.ring.head
  cur : s'.ring.cur = s.ring.cur
  pc : s'.pc = s.pc
  busy : ∀ pkt, sinPktIsbusy (s'.flags pkt) = true → sinPktIsbusy (s.flags pkt) = true

theorem busy_clear (flags : P → Flags) (pkt q : P)
    (h : sinPktIsbusy (Function.update flags pkt (sinPktSetflags (flags pkt) 0 spktBusy) q) = true) :
    sinPktIsbusy (flags q) = true := by
  by_cases he : q = pkt
  · simp [he] at h
  · rwa [Function.update_of_ne he] at h

theorem quiet_clear (s : State P Q T) (pkt : P) : Quiet s (clear s pkt) :=
  ⟨rfl, rfl, rfl, rfl, busy_clear s.flags pkt⟩

theorem quiet_of_step {mv : RxRing.Move P Q T} (hmv : ∀ ready, mv ≠ .rx ready)
    (h : RxRing.step zone s mv = some s') : Quiet s s' := by
  cases mv with
  | rx ready => exact absurd rfl (hmv ready)
  | pass pkt holder =>
    simp only [RxRing.step, Option.ite_none_right_eq_some, Option.some.injEq] at h
    obtain ⟨-, rfl⟩ := h
    exact ⟨rfl, rfl, rfl, rfl, fun _ hb => hb⟩
  | ret pkt =>
    simp only [RxRing.step, Option.ite_none_right_eq_some, Option.some.injEq] at h
    obtain ⟨-, rfl⟩ := h
    exact ⟨rfl, rfl, rfl, rfl, busy_clear s.flags pkt⟩
  | kernel r =>
    simp only [RxRing.step, Option.ite_none_right_eq_some, Option.some.injEq] at h
    obtain ⟨-, rfl⟩ := h
    exact ⟨rfl, rfl, rfl, rfl, fun _ hb => hb⟩

theorem spinRing_cur (hpc : c.pc = .spin c.ring.cur) :
    spinRing zone c = some { c with ring := { c.ring with head := c.ring.cur }, pc := .poll } := by
  simp [spinRing, rxStep, hpc]

theorem spinRing_busy (hpc : c.pc = .spin i) (hne : i ≠ c.ring.cur) (hb : busyAt zone c.flags i = true) :
    spinRing zone c = some
      { c with ring := { c.ring with head := i }, pc := .poll, tests := c.tests ++ [(i, true)] } := by
  have hbusy : sinPktIsbusy (c.flags (zone.pmap i)) = true := hb
  simp [spinRing, rxStep, hpc, hne, hb, hbusy]

theorem spinRing_next (hpc : c.pc = .spin i) (hne : i ≠ c.ring.cur) (hb : busyAt zone c.flags i = false) :
    spinRing zone c = some { c with pc := .spin (nmRingNext c.ring i), tests := c.tests ++ [(i, false)] } := by
  have hbusy : sinPktIsbusy (c.flags (zone.pmap i)) = false := hb
  simp [spinRing, rxStep, hpc, hne, hb, hbusy]

/-- A step is a round of the loop, or leaves the call where it is. -/
theorem step_cases {mv : Move P Q T} (h : step zone c mv = some c') :
    spinRing zone c = some c' ∨ Quiet c.toState c'.toState ∧ c'.tests = c.tests := by
  cases mv with
  | thread => exact .inl h
  | clear pkt =>
    obtain rfl : { c with toState := clear c.toState pkt } = c' := by simpa [step] using h
    exact .inr ⟨quiet_clear _ _, rfl⟩
  | other mv =>
    cases mv with
    | rx ready => cases h
    | _ =>
      obtain ⟨s', hs, rfl⟩ := Option.map_eq_some_iff.mp h
      exact .inr ⟨quiet_of_step (by simp) hs, rfl⟩

-- ---------------------------------------------------------------------------
-- The invariant
-- ---------------------------------------------------------------------------

def passed (ring : NetmapRing) (k : Nat) : List (Nat × Bool) :=
  (List.range k).map fun j => (pos ring.numSlots ring.head j, false)

def inUse (ring : NetmapRing) : Nat := dist ring.numSlots ring.head ring.cur

@[simp] theorem passed_length (ring : NetmapRing) (k : Nat) : (passed ring k).length = k := by
  simp [passed]

theorem passed_succ (ring : NetmapRing) (k : Nat) :
    passed ring (k + 1) = passed ring k ++ [(pos ring.numSlots ring.head k, false)] := by
  simp [passed, List.range_succ]

/-- Where a call from `s` is, after `k` slots that were not busy. -/
inductive Progress (zone : SinPktZone P) (s : State P Q T) (c : Call P Q T) (k : Nat) : Prop
  | scanning (pc : c.pc = .spin (pos s.ring.numSlots s.ring.head k)) (head : c.ring.head = s.ring.head)
      (tests : c.tests = passed s.ring k)
  | atCur (pc : c.pc = .poll) (head : c.ring.head = s.ring.cur) (all : k = inUse s.ring)
      (tests : c.tests = passed s.ring k)
  | atBusy (pc : c.pc = .poll) (head : c.ring.head = pos s.ring.numSlots s.ring.head k)
      (lt : k < inUse s.ring) (tests : c.tests = passed s.ring k ++ [(c.ring.head, true)])
      (busy : busyAt zone s.flags c.ring.head = true)

structure Inv (zone : SinPktZone P) (s : State P Q T) (c : Call P Q T) : Prop where
  size : c.ring.numSlots = s.ring.numSlots
  cur : c.ring.cur = s.ring.cur
  busy : ∀ pkt, sinPktIsbusy (c.flags pkt) = true → sinPktIsbusy (s.flags pkt) = true
  progress : ∃ k ≤ inUse s.ring, Progress zone s c k

section

omit [DecidableEq P]

theorem AtStart.inv (h : AtStart s) : Inv zone s ⟨s, []⟩ := by
  refine ⟨rfl, rfl, fun _ hb => hb, 0, Nat.zero_le _, .scanning ?_ rfl rfl⟩
  rw [pos_zero h.head_lt]
  exact h.pc

theorem AtStart.pos_eq_cur (h : AtStart s) (hk : k ≤ inUse s.ring) :
    pos s.ring.numSlots s.ring.head k = s.ring.cur ↔ k = inUse s.ring := by
  have hlt := dist_lt h.head_lt h.cur_lt
  constructor
  · intro he
    rw [← dist_pos h.head_lt (hk.trans_lt hlt), he]
    rfl
  · rintro rfl
    exact pos_dist h.head_lt h.cur_lt

theorem Inv.quiet (h : Inv zone s c) (hq : Quiet c.toState c'.toState) (ht : c'.tests = c.tests) :
    Inv zone s c' := by
  refine ⟨hq.size.trans h.size, hq.cur.trans h.cur, fun pkt hb => h.busy pkt (hq.busy pkt hb), ?_⟩
  obtain ⟨k, hk, hp⟩ := h.progress
  refine ⟨k, hk, ?_⟩
  cases hp with
  | scanning pc head tests => exact .scanning (hq.pc.trans pc) (hq.head.trans head) (ht.trans tests)
  | atCur pc head all tests => exact .atCur (hq.pc.trans pc) (hq.head.trans head) all (ht.trans tests)
  | atBusy pc head lt tests busy =>
    refine .atBusy (hq.pc.trans pc) (hq.head.trans head) lt ?_ ?_
    · rw [ht, hq.head, tests]
    · rwa [hq.head]

end

/-- One round: at `cur` and at a busy packet the call ends, else it goes on. -/
theorem Inv.spin (hs : AtStart s) (h : Inv zone s c) (hstep : spinRing zone c = some c') :
    Inv zone s c' := by
  obtain ⟨k, hk, hp⟩ := h.progress
  cases hp with
  | atCur pc => simp [spinRing, pc] at hstep
  | atBusy pc => simp [spinRing, pc] at hstep
  | scanning pc head tests =>
    by_cases hcur : pos s.ring.numSlots s.ring.head k = s.ring.cur
    · rw [hcur, ← h.cur] at pc
      rw [spinRing_cur pc, Option.some.injEq] at hstep
      subst hstep
      exact ⟨h.size, h.cur, h.busy, k, hk, .atCur rfl h.cur ((hs.pos_eq_cur hk).mp hcur) tests⟩
    · have hlt : k < inUse s.ring := lt_of_le_of_ne hk (mt (hs.pos_eq_cur hk).mpr hcur)
      rw [← h.cur] at hcur
      cases hb : busyAt zone c.flags (pos s.ring.numSlots s.ring.head k) with
      | true =>
        rw [spinRing_busy pc hcur hb, Option.some.injEq] at hstep
        subst hstep
        exact ⟨h.size, h.cur, h.busy, k, hk, .atBusy rfl rfl hlt (by rw [tests]) (h.busy _ hb)⟩
      | false =>
        rw [spinRing_next pc hcur hb, Option.some.injEq] at hstep
        subst hstep
        refine ⟨h.size, h.cur, h.busy, k + 1, hlt, .scanning ?_ head ?_⟩
        · rw [pos_succ, nmRingNext, h.size]
        · rw [passed_succ, tests]

theorem inv_of_reachable (hs : AtStart s) (h : (machine zone s).Reachable c) : Inv zone s c := by
  refine h.induct (fun c hc => ?_) fun c mv c' hinv hstep => ?_
  · obtain rfl := hc
    exact hs.inv
  · rcases step_cases hstep with hspin | ⟨hq, ht⟩
    · exact hinv.spin hs hspin
    · exact hinv.quiet hq ht

-- ---------------------------------------------------------------------------
-- Calls in the life of a ring
-- ---------------------------------------------------------------------------

/-- The thread marks and takes packets in `dequeue_pkts` only. -/
theorem rxStep_cases (zone : SinPktZone P) (s : State P Q T) (ready : Bool) :
    rxStep zone s ready = dequeuePkt zone s ∨
      (rxStep zone s ready).flags = s.flags ∧ (rxStep zone s ready).hold = s.hold := by
  unfold rxStep
  split
  · exact .inr ⟨rfl, rfl⟩
  · split
    · exact .inr ⟨rfl, rfl⟩
    · exact .inl rfl
  · exact .inr ⟨rfl, rfl⟩
  · split <;> exact .inr ⟨rfl, rfl⟩

/-- Every busy packet is with some party. -/
def BusyHeld (s : State P Q T) : Prop := ∀ pkt, sinPktIsbusy (s.flags pkt) = true → (s.hold pkt).isSome

theorem BusyHeld.rx (h : BusyHeld s) (ready : Bool) : BusyHeld (rxStep zone s ready) := by
  intro pkt hb
  rcases rxStep_cases zone s ready with he | ⟨hflags, hhold⟩
  · rw [he] at hb ⊢
    by_cases hp : pkt = zone.pmap s.ring.cur
    · simp [dequeuePkt, hp]
    · simp only [dequeuePkt, Function.update_of_ne hp] at hb ⊢
      exact h pkt hb
  · rw [hflags] at hb
    rw [hhold]
    exact h pkt hb

theorem BusyHeld.step {mv : RxRing.Move P Q T} (h : BusyHeld s) (hs : RxRing.step zone s mv = some s') :
    BusyHeld s' := by
  cases mv with
  | rx ready =>
    cases hs
    exact h.rx ready
  | pass pkt holder =>
    simp only [RxRing.step, Option.ite_none_right_eq_some, Option.some.injEq] at hs
    obtain ⟨-, rfl⟩ := hs
    intro q hb
    by_cases hp : q = pkt
    · simp [hp]
    · simp only [Function.update_of_ne hp]
      exact h q hb
  | ret pkt =>
    simp only [RxRing.step, Option.ite_none_right_eq_some, Option.some.injEq] at hs
    obtain ⟨-, rfl⟩ := hs
    intro q hb
    by_cases hp : q = pkt
    · simp [sinPktZoneRetPkt, hp] at hb
    · simp only [sinPktZoneRetPkt, Function.update_of_ne hp] at hb ⊢
      exact h q hb
  | kernel r =>
    simp only [RxRing.step, Option.ite_none_right_eq_some, Option.some.injEq] at hs
    obtain ⟨-, rfl⟩ := hs
    exact h

theorem busyHeld_of_reachable (h : (RxRing.machine zone).Reachable s) : BusyHeld s :=
  h.induct (fun s hs pkt hb => by simp [hs.flags] at hb) fun _ _ _ => BusyHeld.step

theorem not_busy_of_returned (h : (RxRing.machine zone).Reachable s) (hp : s.hold (zone.pmap i) = none) :
    busyAt zone s.flags i = false := by
  by_contra hb
  have hsome := busyHeld_of_reachable h (zone.pmap i) (by simpa [busyAt] using hb)
  simp [hp] at hsome

def spinning : Pc → Bool
  | .spin _ => true
  | _ => false

/-- While the thread is in the loop of `_spin_ring`. -/
def InCall (s : State P Q T) (_ : RxRing.Move P Q T) : Prop := spinning s.pc = true

instance (s : State P Q T) (mv : RxRing.Move P Q T) : Decidable (InCall s mv) :=
  inferInstanceAs (Decidable (_ = true))

omit [DecidableEq P] in
theorem InCall.pc {mv : RxRing.Move P Q T} (h : InCall s mv) : ∃ i, s.pc = .spin i := by
  unfold InCall spinning at h
  split at h
  · exact ⟨_, ‹_›⟩
  · cases h

theorem step_thread (hpc : s.pc = .spin i) (ready : Bool) (tests : List (Nat × Bool)) :
    ∃ tests', (machine zone s₀).step ⟨s, tests⟩ .thread ⟨rxStep zone s ready, tests'⟩ := by
  have hready : rxStep zone s ready = rxStep zone s false := by simp only [rxStep, hpc]
  rw [hready]
  simp only [ofFn, step, spinRing, hpc]
  exact ⟨_, rfl⟩

theorem step_other {mv : RxRing.Move P Q T} (hmv : ∀ ready, mv ≠ .rx ready)
    (h : RxRing.step zone s mv = some s') (tests : List (Nat × Bool)) :
    (machine zone s₀).step ⟨s, tests⟩ (.other mv) ⟨s', tests⟩ := by
  cases mv with
  | rx ready => exact absurd rfl (hmv ready)
  | _ => simp [ofFn, step, h]

/-- What happens to a ring during a call is a run of the call. -/
theorem reachable_of_stepsBy (h : (RxRing.machine zone).StepsBy InCall s s') :
    ∃ tests, (machine zone s).Reachable ⟨s', tests⟩ := by
  induction h with
  | refl => exact ⟨[], .init rfl⟩
  | @tail t t' _ hstep ih =>
    obtain ⟨tests, hr⟩ := ih
    obtain ⟨mv, hin, hmv⟩ := hstep
    obtain ⟨i, hpc⟩ := hin.pc
    by_cases hrx : ∃ ready, mv = .rx ready
    · obtain ⟨ready, rfl⟩ := hrx
      obtain rfl : rxStep zone t ready = t' := Option.some.inj hmv
      obtain ⟨tests', hspin⟩ := step_thread hpc ready tests
      exact ⟨tests', hr.next hspin⟩
    · exact ⟨tests, hr.next (step_other (fun ready he => hrx ⟨ready, he⟩) hmv tests)⟩

-- ---------------------------------------------------------------------------
-- The slots given back
-- ---------------------------------------------------------------------------

/-- What a call from `s` has done at `c`: it tests each slot before `cur` at most
once and always has a next step until it ends, with `head` past the slots that
it tested and at `cur` or at a slot that was busy. -/
structure GivesBack (zone : SinPktZone P) (s : State P Q T) (c : Call P Q T) : Prop where
  rounds : c.tests.length ≤ inUse s.ring
  goes_on : c.pc ≠ .poll → ∃ c', step zone c .thread = some c' ∧
    (c'.pc = .poll ∨ c'.tests.length = c.tests.length + 1)
  ends : c.pc = .poll → c.ring.cur = s.ring.cur ∧ ∃ k ≤ inUse s.ring,
    c.ring.head = pos s.ring.numSlots s.ring.head k ∧
      c.tests = passed s.ring k ++ if c.ring.head = c.ring.cur then [] else [(c.ring.head, true)]
  gets_to : c.pc = .poll → ∀ m ≤ inUse s.ring,
    (∀ j < m, busyAt zone s.flags (pos s.ring.numSlots s.ring.head j) = false) →
      m ≤ dist s.ring.numSlots s.ring.head c.ring.head

omit [DecidableEq P] in
theorem Progress.length_le (h : Progress zone s c k) (hk : k ≤ inUse s.ring) :
    c.tests.length ≤ inUse s.ring := by
  cases h with
  | scanning _ _ tests => simpa [tests] using hk
  | atCur _ _ _ tests => simpa [tests] using hk
  | atBusy _ _ lt tests => simpa [tests] using Nat.succ_le_of_lt lt

/-- A round that does not end the call adds a test. -/
theorem spinRing_goes_on (hpc : c.pc = .spin i) :
    ∃ c', spinRing zone c = some c' ∧ (c'.pc = .poll ∨ c'.tests.length = c.tests.length + 1) := by
  by_cases hcur : i = c.ring.cur
  · exact ⟨_, spinRing_cur (hcur ▸ hpc), .inl rfl⟩
  · cases hb : busyAt zone c.flags i with
    | true => exact ⟨_, spinRing_busy hpc hcur hb, .inl rfl⟩
    | false => exact ⟨_, spinRing_next hpc hcur hb, .inr (by simp)⟩

theorem Inv.givesBack (hs : AtStart s) (h : Inv zone s c) : GivesBack zone s c := by
  obtain ⟨k, hk, hp⟩ := h.progress
  have hlt := dist_lt hs.head_lt hs.cur_lt
  refine ⟨hp.length_le hk, fun hpc => ?_, fun hpc => ⟨h.cur, k, hk, ?_⟩, fun hpc m hm hfree => ?_⟩
  · cases hp with
    | scanning pc => exact spinRing_goes_on pc
    | atCur pc => exact absurd pc hpc
    | atBusy pc => exact absurd pc hpc
  · cases hp with
    | scanning pc => simp [pc] at hpc
    | atCur _ head all tests =>
      refine ⟨head.trans ((hs.pos_eq_cur hk).mpr all).symm, ?_⟩
      rw [if_pos (head.trans h.cur.symm), tests, List.append_nil]
    | atBusy _ head lt tests =>
      have hne : c.ring.head ≠ c.ring.cur := by
        rw [head, h.cur]
        exact mt (hs.pos_eq_cur hk).mp lt.ne
      exact ⟨head, by rw [if_neg hne, tests]⟩
  · cases hp with
    | scanning pc => simp [pc] at hpc
    | atCur _ head => exact head ▸ hm
    | atBusy _ head lt _ busy =>
      rw [head, dist_pos hs.head_lt (lt.trans hlt)]
      by_contra hkm
      rw [head, hfree k (Nat.lt_of_not_le hkm)] at busy
      cases busy

/-- One call of `_spin_ring`, with any flags at its start, and what that means on
a ring in use: a call gives back all slots up to the first whose packet was
still away when it began. -/
theorem spin_ring (hs : AtStart s) :
    (∀ c, (machine zone s).Reachable c → GivesBack zone s c) ∧
      ∀ s', (RxRing.machine zone).Reachable s → (RxRing.machine zone).StepsBy InCall s s' → s'.pc = .poll →
        (∀ m ≤ inUse s.ring, (∀ j < m, s.hold (zone.pmap (pos s.ring.numSlots s.ring.head j)) = none) →
          m ≤ dist s.ring.numSlots s.ring.head s'.ring.head) ∧
        ((∀ i < s.ring.numSlots, s.hold (zone.pmap i) = none) → s'.ring.head = s'.ring.cur) := by
  refine ⟨fun c hc => (inv_of_reachable hs hc).givesBack hs, fun s' hr hcall hpc => ?_⟩
  obtain ⟨tests, hc⟩ := reachable_of_stepsBy hcall
  have hback := (inv_of_reachable hs hc).givesBack hs
  have hto : ∀ m ≤ inUse s.ring, (∀ j < m, s.hold (zone.pmap (pos s.ring.numSlots s.ring.head j)) = none) →
      m ≤ dist s.ring.numSlots s.ring.head s'.ring.head :=
    fun m hm hret => hback.gets_to hpc m hm fun j hj => not_busy_of_returned hr (hret j hj)
  refine ⟨hto, fun hret => ?_⟩
  obtain ⟨hcur, k, hk, hhead, -⟩ := hback.ends hpc
  have hall := hto _ le_rfl fun j _ => hret _ (pos_lt hs.head_lt)
  rw [hhead, dist_pos hs.head_lt (hk.trans_lt (dist_lt hs.head_lt hs.cur_lt))] at hall
  rw [hhead, hcur]
  exact (hs.pos_eq_cur hk).mpr (Nat.le_antisymm hk hall)

/-- Both packets are returned, the second one first, before the scan that goes
round the end of the ring. -/
def bothReturned : List (RxRing.Move Nat Unit Unit) :=
  [.kernel ⟨1, 5, fun i => 60 + i⟩, .rx true, .rx true, .rx true, .rx true, .ret 0, .ret 2, .rx true]

def wrapped : State Nat Unit Unit := (exec (RxRing.step threeSlots) startThree bothReturned).get (by decide)

def wrappedEnd : State Nat Unit Unit :=
  (exec (guarded InCall (RxRing.step threeSlots)) wrapped [.rx true, .kernel ⟨1, 6, fun i => 60 + i⟩, .rx true,
    .rx true]).get (by decide)

theorem spin_ring_wrapped :
    wrapped.ring.head = 2 ∧ wrappedEnd.ring.cur = 1 ∧ wrappedEnd.ring.head = wrappedEnd.ring.cur := by
  have hr : (RxRing.machine threeSlots).Reachable wrapped :=
    Reachable.of_exec startThree_start (Option.some_get _).symm
  have hcall : (RxRing.machine threeSlots).StepsBy InCall wrapped wrappedEnd :=
    StepsBy.of_exec (Option.some_get _).symm
  have hs : AtStart wrapped := ⟨by decide, by decide, by decide⟩
  exact ⟨by decide, by decide, ((spin_ring hs).2 wrappedEnd hr hcall (by decide)).2 (by decide)⟩

end Libsinet.SpinRing
