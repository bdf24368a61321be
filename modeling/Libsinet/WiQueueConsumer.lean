import Libsinet.WiQueueThreads

/-!
# Queues that lose no wake-up

How the library uses its queues: a tx thread is the only one to wait on its
`outpkt_queue`, and what it waits for is all there is. Either of these is
enough, whatever batches are put, and a thread that waits alone is awake
whenever there is something for it.
-/

namespace Libsinet.WiQueue

open Machine

variable {P : Type u} {T : Type v} [DecidableEq P] [DecidableEq T] [Fintype T]
variable {s s' : State P T} {a : Move P T} {ok : State P T → Move P T → Prop} {c t : T}

/-- Nobody but `c` ever waits. -/
def WaitsAlone (c : T) (_ : State P T) : Move P T → Prop
  | .get t _ waitok _ => waitok = true → t = c
  | _ => True

/-- Whoever waits takes all there is. -/
def TakesAll (_ : State P T) : Move P T → Prop
  | .get _ want waitok _ => waitok = true → want.kind = .all
  | _ => True

instance (c : T) (s : State P T) : ∀ a : Move P T, Decidable (WaitsAlone c s a)
  | .get _ _ _ _ => inferInstanceAs (Decidable (_ → _))
  | .relink _ _ => inferInstanceAs (Decidable True)
  | .putItem _ _ _ _ => inferInstanceAs (Decidable True)
  | .putItems _ _ _ => inferInstanceAs (Decidable True)
  | .pump _ _ => inferInstanceAs (Decidable True)
  | .spurious _ => inferInstanceAs (Decidable True)
  | .resume _ => inferInstanceAs (Decidable True)

-- ---------------------------------------------------------------------------
-- Who waits
-- ---------------------------------------------------------------------------

/-- A condition on the threads that wait, asleep or on the way out. -/
def Waiters (allowed : T → Want P → Prop) (client : T → Client P) : Prop :=
  ∀ t want row, client t = .blocked want row ∨ client t = .signalled want row → allowed t want

variable {allowed : T → Want P → Prop} {client : T → Client P} {wake : Option T} {want : Want P}

section

omit [DecidableEq P] [Fintype T]

theorem Waiters.update {cl : Client P} (h : Waiters allowed client)
    (hcl : ∀ want row, cl = .blocked want row ∨ cl = .signalled want row → allowed t want) :
    Waiters allowed (Function.update client t cl) := by
  intro u want row hu
  rcases eq_or_ne u t with rfl | hne
  · exact hcl want row (by simpa using hu)
  · exact h u want row (by simpa [hne] using hu)

theorem Waiters.outside (h : Waiters allowed client) (t : T) :
    Waiters allowed (Function.update client t .outside) :=
  h.update fun _ _ hcl => by simp at hcl

theorem Waiters.wait (h : Waiters allowed client) (ht : allowed t want) (row : Bool) :
    Waiters allowed (Function.update client t (.blocked want row)) := by
  refine h.update fun want' row' hcl => ?_
  obtain ⟨rfl, -⟩ : want = want' ∧ row = row' := by simpa using hcl
  exact ht

theorem Waiters.signal (h : Waiters allowed client) (ht : client t = .blocked want row) :
    Waiters allowed (Function.update client t (.signalled want row)) := by
  refine h.update fun want' row' hcl => ?_
  obtain ⟨rfl, -⟩ : want = want' ∧ row = row' := by simpa using hcl
  exact h t _ _ (.inl ht)

end

omit [DecidableEq P] in
theorem Waiters.after {r : Section P α} {put : List P} (h : Waiters allowed s.client)
    (hs : s.after r wake put = some s') : Waiters allowed s'.client := by
  obtain ⟨client, hw, rfl⟩ := Option.map_eq_some_iff.mp hs
  unfold wakeOne at hw
  split at hw
  · cases hw
    exact h
  · split at hw
    · cases hw
      exact h
    · cases hw
  · split at hw
    · cases hw
      exact h.signal ‹_›
    · cases hw
  · cases hw

omit [DecidableEq P] [Fintype T] in
theorem Waiters.settle {r : Section P (Got α)} {took : α → List P} (h : Waiters allowed s.client)
    (hwait : r.ret = .waits → allowed t want) : Waiters allowed (s.settle t want row r took).client := by
  unfold State.settle
  split
  case h_1 hret => exact h.wait (hwait hret) _
  case h_2 => exact h.outside t

omit [DecidableEq P] in
theorem getSection_waits {m : Links P} {queue : SinWiQueue P}
    {take : Links P → SinWiQueue P → P → Links P × SinWiQueue P × α} {refused : α}
    (h : (getSection m queue waitok take refused).ret = .waits) : waitok = true := by
  unfold getSection at h
  split at h
  · cases waitok with
    | true => rfl
    | false => simp at h
  · simp at h

theorem Waiters.step (h : Waiters allowed s.client) (hs : step s a = some s')
    (hget : ∀ t want row, a = .get t want true row → allowed t want) : Waiters allowed s'.client := by
  cases a with
  | relink p np =>
    simp only [WiQueue.step] at hs
    split at hs
    · cases hs
    · cases hs
      exact h
  | putItem t wi maxqlen wake =>
    simp only [WiQueue.step] at hs
    split at hs
    · exact h.after hs
    · cases hs
  | putItems t lst wake =>
    simp only [WiQueue.step] at hs
    split at hs
    · exact h.after hs
    · cases hs
  | pump t wake =>
    simp only [WiQueue.step] at hs
    split at hs
    · exact h.after hs
    · cases hs
  | get t want waitok row =>
    have hwait : waitok = true → allowed t want := by
      rintro rfl
      exact hget t want row rfl
    cases want with
    | item =>
      simp only [WiQueue.step] at hs
      split at hs
      · cases hs
        exact h.settle fun hret => hwait (getSection_waits hret)
      · cases hs
    | items lst =>
      simp only [WiQueue.step] at hs
      split at hs
      · cases hs
        exact h.settle fun hret => hwait (getSection_waits hret)
      · cases hs
  | spurious t =>
    simp only [WiQueue.step] at hs
    split at hs
    · cases hs
      exact h.signal ‹_›
    · cases hs
  | resume t =>
    simp only [WiQueue.step] at hs
    split at hs
    case h_1 row ht =>
      cases hs
      exact h.settle fun _ => h t _ _ (.inr ht)
    case h_2 lst row ht =>
      split at hs
      · cases hs
        exact h.settle fun _ => h t _ _ (.inr ht)
      · cases hs
    case h_3 => cases hs

theorem waiters_of_reachable (h : (machine P T).ReachableBy ok s)
    (hget : ∀ s t want row, ok s (.get t want true row) → allowed t want) : Waiters allowed s.client := by
  refine h.induct (J := fun _ => True) (I := fun s => Waiters allowed s.client) (fun _ _ => trivial) ?_
    fun s a s' _ hw hok hs => ?_
  · rintro s ⟨m, rfl⟩
    exact fun t want row ht => by simp at ht
  · refine hw.step hs fun t want row ha => ?_
    subst ha
    exact hget s t want row hok

-- ---------------------------------------------------------------------------
-- Nothing is lost
-- ---------------------------------------------------------------------------

omit [DecidableEq P] in
theorem exists_blocked {cl : Client P} (h : cl.isBlocked = true) : ∃ want row, cl = .blocked want row := by
  cases cl with
  | blocked want row => exact ⟨want, row, rfl⟩
  | _ => cases h

omit [DecidableEq P] in
theorem exists_signalled {cl : Client P} (h : cl.isSignalled = true) : ∃ want row, cl = .signalled want row := by
  cases cl with
  | signalled want row => exact ⟨want, row, rfl⟩
  | _ => cases h

omit [DecidableEq T] in
omit [DecidableEq P] in
/-- A batch is covered if only one thread can be asleep. -/
theorem covered_alone (h : Waiters (fun t _ => t = c) s.client) (a : Move P T) : Covered s a := by
  cases a with
  | putItems t lst wake =>
    refine .inr (.inl (tally.le_one c fun u hu => ?_))
    obtain ⟨want, row, hu⟩ := exists_blocked hu
    exact h u want row (.inl hu)
  | _ => trivial

/-- A put that finds somebody asleep wakes one of the threads asleep. -/
theorem putItems_wakes (hn : s.queue.nwait = tally Client.isWaiting s.client)
    (hs : step s (.putItems t lst wake) = some s') (hb : ∃ u, (s.client u).isBlocked = true) :
    ∃ u want row, wake = some u ∧ s.client u = .blocked want row := by
  obtain ⟨u, hu⟩ := hb
  have hwaits : (s.client u).isWaiting = true := by
    obtain ⟨want, row, hu⟩ := exists_blocked hu
    rw [hu]
    rfl
  have hsignal : (sinWiQueuePutItems s.links lst s.queue).signal = true := by
    rw [sinWiQueuePutItems_signal, SinWiQueue.notifies, hn]
    exact decide_eq_true (tally.pos_iff.mpr ⟨u, hwaits⟩)
  simp only [step] at hs
  split at hs
  case isFalse => cases hs
  obtain ⟨client, hw, -⟩ := Option.map_eq_some_iff.mp hs
  rw [hsignal] at hw
  cases wake with
  | none =>
    simp only [wakeOne] at hw
    split at hw
    case isTrue hnone => exact absurd (hu.symm.trans (hnone u)) (by simp)
    case isFalse => cases hw
  | some v =>
    simp only [wakeOne] at hw
    split at hw
    case h_1 want row hv => exact ⟨v, want, row, rfl, hv⟩
    case h_2 => cases hw

/-- A batch is covered if it is put when nobody sleeps, or wakes a thread
that takes all. -/
theorem covered_all (hn : s.queue.nwait = tally Client.isWaiting s.client)
    (h : Waiters (fun _ want => want.kind = .all) s.client) (hs : step s a = some s') : Covered s a := by
  cases a with
  | putItems t lst wake =>
    by_cases hb : ∃ u, (s.client u).isBlocked = true
    · obtain ⟨u, want, row, rfl, hu⟩ := putItems_wakes hn hs hb
      have hall : want.kind = .all := h u want row (.inl hu)
      exact .inr (.inr (.inr (.inl ⟨u, rfl, by rw [hu, Client.kind_blocked, hall]⟩)))
    · refine .inr (.inl ?_)
      rw [tally.zero_iff.mpr]
      · exact Nat.zero_le _
      · simpa using hb
  | _ => trivial

theorem reachable_covered {allowed : T → Want P → Prop} (h : (machine P T).ReachableBy ok s)
    (hget : ∀ s t want row, ok s (.get t want true row) → allowed t want)
    (hcovered : ∀ s a s', (machine P T).Reachable s → Waiters allowed s.client → step s a = some s' → Covered s a) :
    (machine P T).ReachableBy Covered s := by
  refine h.induct (J := fun s => (machine P T).ReachableBy ok s) (fun _ h => h) (fun _ h => .init h)
    fun s a s' hr hc hok hs => ?_
  exact .step hc (hcovered s a s' hr.reachable (waiters_of_reachable hr hget) hs) hs

theorem covered_noLostWakeup (h : (machine P T).ReachableBy Covered s) : s.NoLostWakeup := by
  obtain ⟨_, ht, hok, rfl⟩ := simulation_covered.reachable h
  intro hhead
  exact (WaitQueue.backed ht).noLostWakeup (mt (head_eq_none hok) hhead)

/-- Where one thread only ever waits, it does not sleep while there is something
in the queue. Where all who wait take all there is, no wake-up is lost. -/
theorem no_wakeup_lost (c : T) :
    ((machine P T).ReachableBy (WaitsAlone c) s → s.queue.head ≠ none → (s.client c).isBlocked = false) ∧
      ((machine P T).ReachableBy TakesAll s → s.NoLostWakeup) := by
  constructor
  · intro h hhead
    have hget : ∀ (s : State P T) t want row, WaitsAlone c s (.get t want true row) → t = c :=
      fun _ _ _ _ hok => hok rfl
    have hlost := covered_noLostWakeup (reachable_covered h hget fun s a s' _ hw _ => covered_alone hw a)
    by_contra hb
    have hb : (s.client c).isBlocked = true := by simpa using hb
    obtain ⟨t, ht⟩ := hlost hhead ⟨c, hb⟩
    obtain ⟨want, row, ht'⟩ := exists_signalled ht
    obtain rfl : t = c := waiters_of_reachable h hget t want row (.inr ht')
    obtain ⟨want', row', hb'⟩ := exists_blocked hb
    cases ht'.symm.trans hb'
  · intro h
    exact covered_noLostWakeup (reachable_covered h (fun _ _ _ _ hok => hok rfl) fun s a s' hr hw hs =>
      covered_all (WaitQueue.counted (reachable_abs hr).2) hw hs)

/-- A thread asleep, and a batch of two items put. -/
theorem no_wakeup_lost_batch : ∃ s : State (Fin 2) (Fin 3), s.queue.length = 2 ∧ (s.client 0).isBlocked = false := by
  obtain ⟨s, hs, hp⟩ := ReachableBy.of_test step (WaitsAlone 0)
    [.relink 0 (some 1), .relink 1 none, .get 0 (.items .reset) true true,
      .putItems 2 ⟨some 0, some 1, 2⟩ (some 0)]
    (fun s => decide (s.queue.length = 2 ∧ s.queue.head ≠ none)) start_init (by decide)
  obtain ⟨hlen, hhead⟩ := of_decide_eq_true hp
  exact ⟨s, hlen, (no_wakeup_lost 0).1 hs hhead⟩

end Libsinet.WiQueue
