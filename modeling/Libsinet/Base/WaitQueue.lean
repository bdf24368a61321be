import Libsinet.Base.Machine
import Libsinet.Base.Tally
import Mathlib.Data.List.Basic

/-!
# A queue guarded by a mutex and a condition variable

Producers append items, one or a batch at a time, and signal the condition
variable once for each call if the counter of waiting consumers is not zero.
A consumer wants one item or all of them. It waits while the queue is empty;
the counter goes up before the wait and down after it, so it also counts the
consumers already signalled. Every move is one critical section.

`put` and `taken` record the history.
-/

namespace WaitQueue

inductive Want
  | one
  | all
  deriving DecidableEq, Repr

inductive Client
  | outside
  | blocked (w : Want)
  | signalled (w : Want)
  deriving DecidableEq, Repr

namespace Client

def isBlocked : Client → Bool
  | .blocked _ => true
  | _ => false

def isSignalled : Client → Bool
  | .signalled _ => true
  | _ => false

def isWaiting : Client → Bool
  | .outside => false
  | _ => true

@[simp] theorem isBlocked_outside : isBlocked .outside = false := rfl
@[simp] theorem isBlocked_blocked : isBlocked (.blocked w) = true := rfl
@[simp] theorem isBlocked_signalled : isBlocked (.signalled w) = false := rfl
@[simp] theorem isSignalled_outside : isSignalled .outside = false := rfl
@[simp] theorem isSignalled_blocked : isSignalled (.blocked w) = false := rfl
@[simp] theorem isSignalled_signalled : isSignalled (.signalled w) = true := rfl
@[simp] theorem isWaiting_outside : isWaiting .outside = false := rfl
@[simp] theorem isWaiting_blocked : isWaiting (.blocked w) = true := rfl
@[simp] theorem isWaiting_signalled : isWaiting (.signalled w) = true := rfl

end Client

structure State (P : Type u) (T : Type v) where
  contents : List P
  nwait : Nat
  client : T → Client
  put : List P
  taken : List P

/-- `wake` names the consumer a signal picks. -/
inductive Move (P : Type u) (T : Type v)
  | idle
  | put (l : List P) (wake : Option T)
  | poke (wake : Option T)
  | take (t : T)
  | wait (t : T)
  | leave (t : T)
  | spurious (t : T)

variable {P : Type u} {T : Type v} [DecidableEq T]

/-- The effect of signalling or not: one blocked consumer is picked if there
is one. -/
inductive Wakes (client : T → Client) : Bool → Option T → (T → Client) → Prop
  | quiet : Wakes client false none client
  | nobody : (∀ t, (client t).isBlocked = false) → Wakes client true none client
  | one {t w} : client t = .blocked w →
      Wakes client true (some t) (Function.update client t (.signalled w))

/-- A consumer at the loop condition, with the counter before and after it
got there: either it just called, or it was woken. -/
inductive AtLoop (w : Want) (n : Nat) : Client → Nat → Prop
  | fresh : AtLoop w n .outside n
  | woken : AtLoop w n (.signalled w) (n - 1)

inductive Step (s : State P T) : Move P T → State P T → Prop
  | idle : Step s .idle s
  | put {l wake client'} : l ≠ [] → Wakes s.client (decide (s.nwait > 0)) wake client' →
      Step s (.put l wake)
        { s with contents := s.contents ++ l, client := client', put := s.put ++ l }
  | poke {wake client'} : Wakes s.client (decide (s.nwait > 0)) wake client' →
      Step s (.poke wake) { s with client := client' }
  | takeOne {t n p c} : AtLoop .one s.nwait (s.client t) n → s.contents = p :: c →
      Step s (.take t) { s with
        contents := c, nwait := n, client := Function.update s.client t .outside,
        taken := s.taken ++ [p] }
  | takeAll {t n} : AtLoop .all s.nwait (s.client t) n → s.contents ≠ [] →
      Step s (.take t) { s with
        contents := [], nwait := n, client := Function.update s.client t .outside,
        taken := s.taken ++ s.contents }
  | wait {t n w} : AtLoop w s.nwait (s.client t) n → s.contents = [] →
      Step s (.wait t) { s with nwait := n + 1, client := Function.update s.client t (.blocked w) }
  | leave {t n w} : AtLoop w s.nwait (s.client t) n → s.contents = [] →
      Step s (.leave t) { s with nwait := n, client := Function.update s.client t .outside }
  | spurious {t w} : s.client t = .blocked w →
      Step s (.spurious t) { s with client := Function.update s.client t (.signalled w) }

def machine (P : Type u) (T : Type v) [DecidableEq T] : Machine (State P T) (Move P T) where
  init s := s = ⟨[], 0, fun _ => .outside, [], []⟩
  step := Step

variable {s : State P T}

-- ---------------------------------------------------------------------------
-- Order
-- ---------------------------------------------------------------------------

/-- The contents are what was put and not yet taken, in the order put. -/
theorem fifo (h : (machine P T).Reachable s) : s.put = s.taken ++ s.contents := by
  refine h.induct (I := fun s => s.put = s.taken ++ s.contents) ?_ ?_
  · rintro s rfl
    rfl
  · intro s a s' ih hs
    cases hs with
    | put => simp [ih]
    | takeOne _ hc => simp [ih, hc]
    | _ => simpa using ih

-- ---------------------------------------------------------------------------
-- The counter
-- ---------------------------------------------------------------------------

variable [Fintype T] {client client' : T → Client} {t : T} {w : Want} {n : Nat} {wake : Option T}

theorem Wakes.tally_waiting (h : Wakes client b wake client') :
    tally Client.isWaiting client' = tally Client.isWaiting client := by
  cases h with
  | quiet => rfl
  | nobody => rfl
  | @one t w ht =>
    have := tally.update (p := Client.isWaiting) (f := client) t (.signalled w)
    simpa [ht] using this

theorem Wakes.tally_signalled (h : Wakes client true wake client')
    (hb : ∃ t, (client' t).isBlocked = true) :
    tally Client.isSignalled client' = tally Client.isSignalled client + 1 := by
  cases h with
  | nobody hn =>
    obtain ⟨t, ht⟩ := hb
    simp [hn t] at ht
  | @one t w ht =>
    have := tally.update (p := Client.isSignalled) (f := client) t (.signalled w)
    simpa [ht] using this

theorem AtLoop.tally_outside
    (h : AtLoop w (tally Client.isWaiting client) (client t) n) :
    tally Client.isWaiting (Function.update client t .outside) = n := by
  have hu := tally.update (p := Client.isWaiting) (f := client) t .outside
  generalize hc : client t = c at h hu
  cases h with
  | fresh => simpa using hu
  | woken =>
    simp at hu
    omega

theorem AtLoop.tally_blocked
    (h : AtLoop w (tally Client.isWaiting client) (client t) n) :
    tally Client.isWaiting (Function.update client t (.blocked w)) = n + 1 := by
  have hu := tally.update (p := Client.isWaiting) (f := client) t (.blocked w)
  generalize hc : client t = c at h hu
  cases h with
  | fresh => simpa using hu
  | woken =>
    have hpos := tally.pos_iff.mpr ⟨t, show Client.isWaiting (client t) = true by simp [hc]⟩
    simp at hu
    omega

/-- The counter is the number of consumers between its two updates. -/
theorem counted (h : (machine P T).Reachable s) : s.nwait = tally Client.isWaiting s.client := by
  refine h.induct (I := fun s => s.nwait = tally Client.isWaiting s.client) ?_ ?_
  · rintro s rfl
    exact (tally.zero_iff.mpr fun _ => rfl).symm
  · intro s a s' ih hs
    cases hs with
    | idle => exact ih
    | put _ hw => exact ih.trans hw.tally_waiting.symm
    | poke hw => exact ih.trans hw.tally_waiting.symm
    | takeOne ht _ => exact (AtLoop.tally_outside (ih ▸ ht)).symm
    | takeAll ht _ => exact (AtLoop.tally_outside (ih ▸ ht)).symm
    | wait ht _ => exact (AtLoop.tally_blocked (ih ▸ ht)).symm
    | leave ht _ => exact (AtLoop.tally_outside (ih ▸ ht)).symm
    | @spurious t w ht =>
      have := tally.update (p := Client.isWaiting) (f := s.client) t (.signalled w)
      exact ih.trans (by simpa [ht] using this.symm)

-- ---------------------------------------------------------------------------
-- Lost wake-ups
-- ---------------------------------------------------------------------------

/-- Items in the queue never face a blocked consumer with no wake-up under
way. -/
def NoLostWakeup (s : State P T) : Prop :=
  s.contents ≠ [] → (∃ t, (s.client t).isBlocked = true) → ∃ t, (s.client t).isSignalled = true

/-- A signalled consumer that will empty the queue. -/
def Sweeper (client : T → Client) : Prop := ∃ t, client t = .signalled .all

/-- When a batch of several items is put: at most one consumer is blocked, or
one that takes everything is signalled or is the one picked, or the wake-ups
under way and this one are enough for the items. -/
def Covered (s : State P T) : Move P T → Prop
  | .put l wake =>
    l.length ≤ 1 ∨ tally Client.isBlocked s.client ≤ 1 ∨ Sweeper s.client ∨
      (∃ t, wake = some t ∧ s.client t = .blocked .all) ∨
      (s.contents ++ l).length ≤ tally Client.isSignalled s.client + 1
  | _ => True

omit [DecidableEq T] in
theorem covered_other {s : State P T} {mv : Move P T} (h : ∀ l wake, mv ≠ .put l wake) : Covered s mv := by
  cases mv with
  | put l wake => exact absurd rfl (h l wake)
  | _ => trivial

/-- Somebody blocked and items in the queue: then a sweeper is on its way, or
as many consumers as there are items. -/
def Backed (s : State P T) : Prop :=
  (∃ t, (s.client t).isBlocked = true) → s.contents = [] ∨ Sweeper s.client ∨
    s.contents.length ≤ tally Client.isSignalled s.client

omit [DecidableEq T] in
theorem Backed.noLostWakeup (h : Backed s) : NoLostWakeup s := by
  intro hc hb
  rcases h hb with he | ⟨t, ht⟩ | hle
  · exact absurd he hc
  · exact ⟨t, by simp [ht]⟩
  · have hpos : 0 < tally Client.isSignalled s.client :=
      Nat.lt_of_lt_of_le (List.length_pos_of_ne_nil hc) hle
    exact tally.pos_iff.mp hpos

omit [Fintype T] in
theorem Wakes.sweeper (h : Wakes client b wake client') (hs : Sweeper client) : Sweeper client' := by
  obtain ⟨t, ht⟩ := hs
  cases h with
  | quiet => exact ⟨t, ht⟩
  | nobody => exact ⟨t, ht⟩
  | @one u w hu =>
    have hne : t ≠ u := by
      rintro rfl
      rw [ht] at hu
      cases hu
    exact ⟨t, by rw [Function.update_of_ne hne, ht]⟩

omit [Fintype T] in
theorem Wakes.blocked (h : Wakes client b wake client') (hb : ∃ t, (client' t).isBlocked = true) :
    ∃ t, (client t).isBlocked = true := by
  obtain ⟨t, ht⟩ := hb
  cases h with
  | quiet => exact ⟨t, ht⟩
  | nobody => exact ⟨t, ht⟩
  | @one u w hu =>
    by_cases hne : t = u
    · exact ⟨u, by simp [hu]⟩
    · exact ⟨t, by rwa [Function.update_of_ne hne] at ht⟩

omit [DecidableEq T] in
theorem Backed.of_empty (h : s.contents = []) : Backed s := fun _ => .inl h

omit [DecidableEq T] in
/-- Whoever is blocked is counted, so a put signals. -/
theorem notifies (hn : s.nwait = tally Client.isWaiting s.client)
    (hb : ∃ t, (s.client t).isBlocked = true) : decide (s.nwait > 0) = true := by
  obtain ⟨t, ht⟩ := hb
  have hw : (s.client t).isWaiting = true := by
    cases hc : s.client t <;> simp_all
  simpa [hn] using tally.pos_iff.mpr ⟨t, hw⟩

theorem Backed.put (h : Backed s) (hn : s.nwait = tally Client.isWaiting s.client)
    (hw : Wakes s.client (decide (s.nwait > 0)) wake client') (hc : Covered s (.put l wake)) :
    Backed { s with contents := s.contents ++ l, client := client', put := s.put ++ l } := by
  intro hb
  have hb₀ := hw.blocked hb
  rw [notifies hn hb₀] at hw
  have hsig := hw.tally_signalled hb
  rcases hc with hlen | hone | hsw | ⟨t, rfl, ht⟩ | hle
  · rcases h hb₀ with he | hsw | hle
    · exact .inr (.inr (by simp [he, hsig]; omega))
    · exact .inr (.inl (hw.sweeper hsw))
    · exact .inr (.inr (by simp [hsig]; omega))
  · -- the only blocked consumer was picked, so nobody is blocked now
    exfalso
    cases hw with
    | nobody hn =>
      obtain ⟨t, ht⟩ := hb₀
      simp [hn t] at ht
    | @one t w ht =>
      have hu := tally.update (p := Client.isBlocked) (f := s.client) t (.signalled w)
      have hpos := tally.pos_iff.mpr hb
      simp [ht] at hu hpos
      omega
  · exact .inr (.inl (hw.sweeper hsw))
  · cases hw with
    | @one _ w ht' =>
      rw [ht] at ht'
      cases ht'
      exact .inr (.inl ⟨t, Function.update_self _ _ _⟩)
  · exact .inr (.inr (by simpa [hsig] using hle))

/-- A consumer that takes one item was one of the signalled, or took it from
under them: either way the count still covers what is left. -/
theorem Backed.takeOne (h : Backed s) (ht : AtLoop .one s.nwait (s.client t) n)
    (hc : s.contents = p :: c) :
    Backed { s with
      contents := c, nwait := n, client := Function.update s.client t .outside,
      taken := s.taken ++ [p] } := by
  rintro ⟨u, hu⟩
  have hut : u ≠ t := by
    rintro rfl
    simp at hu
  have hu₀ : (s.client u).isBlocked = true := by simpa [hut] using hu
  have hcount := tally.update (p := Client.isSignalled) (f := s.client) t .outside
  rcases h ⟨u, hu₀⟩ with he | ⟨v, hv⟩ | hle
  · simp [he] at hc
  · have hvt : v ≠ t := by
      rintro rfl
      rw [hv] at ht
      cases ht
    exact .inr (.inl ⟨v, by simpa [hvt] using hv⟩)
  · refine .inr (.inr ?_)
    simp only [hc, List.length_cons] at hle
    have hshare : (if (s.client t).isSignalled = true then 1 else 0) ≤ 1 := by split <;> omega
    simp only [Client.isSignalled_outside] at hcount
    show c.length ≤ tally Client.isSignalled (Function.update s.client t .outside)
    simp at hcount
    omega

theorem Backed.spurious (h : Backed s) (ht : s.client t = .blocked w) :
    Backed { s with client := Function.update s.client t (.signalled w) } := by
  rintro ⟨u, hu⟩
  have hw : Wakes s.client true (some t) (Function.update s.client t (.signalled w)) := .one ht
  rcases h (hw.blocked ⟨u, hu⟩) with he | hsw | hle
  · exact .inl he
  · exact .inr (.inl (hw.sweeper hsw))
  · refine .inr (.inr (hle.trans ?_))
    rw [hw.tally_signalled ⟨u, hu⟩]
    exact Nat.le_succ _

theorem Backed.poke (h : Backed s) (hw : Wakes s.client b wake client') :
    Backed { s with client := client' } := by
  cases hw with
  | quiet => exact h
  | nobody => exact h
  | one ht => exact h.spurious ht

theorem backed (h : (machine P T).ReachableBy Covered s) : Backed s := by
  refine h.induct (I := Backed) (fun s h => counted h.reachable) ?_ ?_
  · rintro s rfl
    exact .of_empty rfl
  · intro s a s' hn ih hok hs
    cases hs with
    | idle => exact ih
    | put _ hw => exact ih.put hn hw hok
    | poke hw => exact ih.poke hw
    | takeOne ht hc => exact ih.takeOne ht hc
    | takeAll _ _ => exact .of_empty rfl
    | wait _ hc => exact .of_empty hc
    | leave _ hc => exact .of_empty hc
    | spurious ht => exact ih.spurious ht

end WaitQueue
