import Libsinet.WiQueue
import Libsinet.Base.WaitQueue

/-!
# Threads on one work queue

Any number of threads call the functions of `sin_wi_queue.c` on one queue, one
critical section at a time. Between calls they may relink every node that is
not in the queue; the node or list they pass is theirs, so none of it is in
the queue.

The queue is a sequence of items to the threads: the sections refine
`WaitQueue`.
-/

namespace Libsinet.WiQueue

variable {P : Type u} {T : Type v} [DecidableEq P] [DecidableEq T] [Fintype T]

-- ---------------------------------------------------------------------------
-- States
-- ---------------------------------------------------------------------------

/-- What a thread inside a get came for; `get_items` appends to a list. -/
inductive Want (P : Type u)
  | item
  | items (lst : SinList P)
  deriving DecidableEq, Repr

/-- `blocked` is inside `pthread_cond_wait`, `signalled` on the way out of it
and not yet in possession of the mutex. -/
inductive Client (P : Type u)
  | outside
  | blocked (want : Want P) (returnOnWake : Bool)
  | signalled (want : Want P) (returnOnWake : Bool)
  deriving DecidableEq, Repr

def Want.kind : Want P → WaitQueue.Want
  | .item => .one
  | .items _ => .all

def Client.kind : Client P → WaitQueue.Client
  | .outside => .outside
  | .blocked want _ => .blocked want.kind
  | .signalled want _ => .signalled want.kind

section

omit [DecidableEq P]

@[simp] theorem Client.kind_outside : (outside : Client P).kind = .outside := rfl
@[simp] theorem Client.kind_blocked : (blocked want row : Client P).kind = .blocked want.kind := rfl
@[simp] theorem Client.kind_signalled :
    (signalled want row : Client P).kind = .signalled want.kind := rfl

end

def Client.isBlocked (c : Client P) : Bool := c.kind.isBlocked
def Client.isSignalled (c : Client P) : Bool := c.kind.isSignalled

def Client.isWaiting (c : Client P) : Bool := c.kind.isWaiting

/-- `put` and `taken` record what the calls put and took, in order. -/
structure State (P : Type u) (T : Type v) where
  links : Links P
  queue : SinWiQueue P
  client : T → Client P
  put : List P
  taken : List P

/-- The nodes from the queue's head on, of which there are no more than were
put: `length` counts them only up to `2 ^ 32`. -/
def State.contents (s : State P T) : List P := Linked.walk s.links s.put.length s.queue.head

/-- A well-formed list none of whose nodes is in the queue. -/
def State.Owns (s : State P T) (lst : SinList P) : Prop :=
  lst.Holds s.links (lst.nodes s.links) ∧ ∀ p ∈ lst.nodes s.links, p ∉ s.contents

instance (s : State P T) (lst : SinList P) : Decidable (s.Owns lst) :=
  inferInstanceAs (Decidable (_ ∧ _))

-- ---------------------------------------------------------------------------
-- Moves
-- ---------------------------------------------------------------------------

/-- `wake` is the thread that `pthread_cond_signal` picks, if it is called
while somebody is blocked. -/
inductive Move (P : Type u) (T : Type v)
  | relink (p : P) (np : Option P)
  | putItem (t : T) (wi : P) (maxqlen : BitVec 32) (wake : Option T)
  | putItems (t : T) (lst : SinList P) (wake : Option T)
  | pump (t : T) (wake : Option T)
  | get (t : T) (want : Want P) (waitok returnOnWake : Bool)
  | spurious (t : T)
  | resume (t : T)

/-- `pthread_cond_signal`, if `signal` is set: it wakes one blocked thread. -/
def wakeOne (client : T → Client P) (signal : Bool) (wake : Option T) : Option (T → Client P) :=
  match signal, wake with
  | false, none => some client
  | true, none => if ∀ t, (client t).isBlocked = false then some client else none
  | true, some t =>
    match client t with
    | .blocked want row => some (Function.update client t (.signalled want row))
    | _ => none
  | false, some _ => none

def State.after (s : State P T) (r : Section P α) (wake : Option T) (put : List P) :
    Option (State P T) :=
  (wakeOne s.client r.signal wake).map fun client =>
    { s with links := r.links, queue := r.queue, client := client, put := s.put ++ put }

/-- After a section of a get by `t`, which took `took` if it returned. -/
def State.settle (s : State P T) (t : T) (want : Want P) (row : Bool) (r : Section P (Got α))
    (took : α → List P) : State P T :=
  match r.ret with
  | .waits => { s with
      links := r.links, queue := r.queue
      client := Function.update s.client t (.blocked want row) }
  | .returns a => { s with
      links := r.links, queue := r.queue
      client := Function.update s.client t .outside, taken := s.taken ++ took a }

/-- The nodes, at most `n`, that `get_items` put behind those of the list it
was given. -/
def gained (m : Links P) (lst : SinList P) (n : Nat) (r : SinList P × BitVec 32) : List P :=
  (Linked.walk m (lst.len.toNat + n) r.1.head).drop lst.len.toNat

def step (s : State P T) : Move P T → Option (State P T)
  | .relink p np =>
    if p ∈ s.contents then none else some { s with links := Function.update s.links p np }
  | .putItem t wi maxqlen wake =>
    if s.client t = .outside ∧ wi ∉ s.contents then
      let r := sinWiQueuePutItem s.links s.queue wi maxqlen
      s.after r wake (if r.ret = 0 then [wi] else [])
    else none
  | .putItems t lst wake =>
    if s.client t = .outside ∧ s.Owns lst ∧ lst.nodes s.links ≠ [] then
      s.after (sinWiQueuePutItems s.links lst s.queue) wake (lst.nodes s.links)
    else none
  | .pump t wake =>
    if s.client t = .outside then s.after (sinWiQueuePump s.links s.queue) wake [] else none
  | .get t .item waitok row =>
    if s.client t = .outside then
      some (s.settle t .item row (sinWiQueueGetItem s.links s.queue waitok) Option.toList)
    else none
  | .get t (.items lst) waitok row =>
    if s.client t = .outside ∧ s.Owns lst then
      let r := sinWiQueueGetItems s.links s.queue lst waitok
      some (s.settle t (.items lst) row r (gained r.links lst s.put.length))
    else none
  | .spurious t =>
    match s.client t with
    | .blocked want row => some { s with client := Function.update s.client t (.signalled want row) }
    | _ => none
  | .resume t =>
    match s.client t with
    | .signalled .item row =>
      some (s.settle t .item row (sinWiQueueGetItemWake s.links s.queue row) Option.toList)
    | .signalled (.items lst) row =>
      if s.Owns lst then
        let r := sinWiQueueGetItemsWake s.links s.queue lst row
        some (s.settle t (.items lst) row r (gained r.links lst s.put.length))
      else none
    | _ => none

/-- A queue just constructed, and nobody in a call. The links are arbitrary. -/
def machine (P : Type u) (T : Type v) [DecidableEq P] [DecidableEq T] [Fintype T] :
    Machine (State P T) (Move P T) :=
  .ofFn (fun s => ∃ m, s = ⟨m, .ctor, fun _ => .outside, [], []⟩) step

-- ---------------------------------------------------------------------------
-- Refinement of the sequence
-- ---------------------------------------------------------------------------

def State.abs (s : State P T) : WaitQueue.State P T :=
  ⟨s.contents, s.queue.nwait, fun t => (s.client t).kind, s.put, s.taken⟩

/-- The queue's nodes are the sequence. -/
def State.Ok (s : State P T) : Prop := s.queue.items.Spans s.links s.contents

omit [DecidableEq P] [Fintype T] in
theorem kind_update (client : T → Client P) (t : T) (c : Client P) :
    (fun x => (Function.update client t c x).kind) =
      Function.update (fun x => (client x).kind) t c.kind := by
  funext x
  by_cases hx : x = t
  · subst hx; simp
  · simp [hx]

omit [DecidableEq P] in
theorem wakeOne_wakes {client client' : T → Client P}
    (h : wakeOne client b wake = some client') :
    WaitQueue.Wakes (fun t => (client t).kind) b wake (fun t => (client' t).kind) := by
  unfold wakeOne at h
  split at h
  · cases h
    exact .quiet
  · split at h
    · rename_i hn
      cases h
      exact .nobody hn
    · cases h
  · split at h
    · rename_i t want row ht
      cases h
      rw [kind_update]
      exact .one (by simp [ht])
    · cases h
  · cases h

section
variable {s s' : State P T} {t : T} {c : List P}

omit [DecidableEq P] [DecidableEq T] [Fintype T] in
theorem ok_of_spans (h : s.queue.items.Spans s.links c) (hput : c.length ≤ s.put.length) :
    s.Ok ∧ s.contents = c := by
  have hc : s.contents = c := h.chain.walk_eq hput
  exact ⟨by rw [State.Ok, hc]; exact h, hc⟩

omit [DecidableEq P] [DecidableEq T] [Fintype T] in
theorem contents_length (s : State P T) : s.contents.length ≤ s.put.length := Linked.walk_length_le

section

omit [DecidableEq P]

/-- A put or a pump: the sequence grows by `put`, and the counter decides
about the signal. -/
theorem after_sim {r : Section P α} (h : s.after r wake put = some s')
    (hspans : r.queue.items.Spans r.links (s.contents ++ put)) (hwait : r.queue.nwait = s.queue.nwait)
    (hsig : r.signal = s.queue.notifies) :
    s'.Ok ∧ ∃ client', WaitQueue.Wakes s.abs.client (decide (s.abs.nwait > 0)) wake client' ∧
      s'.abs = { s.abs with
        contents := s.abs.contents ++ put, client := client', put := s.abs.put ++ put } := by
  simp only [State.after, Option.map_eq_some_iff] at h
  obtain ⟨client, hw, rfl⟩ := h
  have hput : (s.contents ++ put).length ≤ (s.put ++ put).length := by
    simpa using contents_length s
  obtain ⟨hok, hc⟩ := ok_of_spans (s := { s with
    links := r.links, queue := r.queue, client := client, put := s.put ++ put }) hspans hput
  rw [hsig] at hw
  refine ⟨hok, _, wakeOne_wakes hw, ?_⟩
  simp only [State.abs, hc, hwait]

theorem poke_sim {r : Section P α} (h : s.Ok) (hs : s.after r wake [] = some s') (hlinks : r.links = s.links)
    (hqueue : r.queue = s.queue) (hsig : r.signal = s.queue.notifies) :
    s'.Ok ∧ WaitQueue.Step s.abs (.poke wake) s'.abs := by
  have hspans : r.queue.items.Spans r.links (s.contents ++ []) := by
    rw [hlinks, hqueue, List.append_nil]
    exact h
  obtain ⟨hok, client', hw, habs⟩ := after_sim hs hspans (congrArg _ hqueue) hsig
  refine ⟨hok, ?_⟩
  rw [habs]
  simpa using WaitQueue.Step.poke hw

theorem put_sim {r : Section P α} (hs : s.after r wake put = some s')
    (hspans : r.queue.items.Spans r.links (s.contents ++ put)) (hwait : r.queue.nwait = s.queue.nwait)
    (hsig : r.signal = s.queue.notifies) (hne : put ≠ []) :
    s'.Ok ∧ WaitQueue.Step s.abs (.put put wake) s'.abs := by
  obtain ⟨hok, client', hw, habs⟩ := after_sim hs hspans hwait hsig
  refine ⟨hok, ?_⟩
  rw [habs]
  exact .put hne hw

end

omit [DecidableEq P] [Fintype T] in
theorem settle_nil {r : Section P (Got α)} {want : Want P} {row : Bool} {took : α → List P} {refused : α}
    (h : s.Ok) (hc : s.contents = [])
    (hat : WaitQueue.AtLoop want.kind s.queue.nwait (s.client t).kind n)
    (hr : r = ⟨s.links, { s.queue with nwait := n + 1 }, .waits, false⟩ ∨
      r = ⟨s.links, { s.queue with nwait := n }, .returns refused, false⟩)
    (hnone : took refused = []) :
    (s.settle t want row r took).Ok ∧
      ∃ b, (∀ l wake, b ≠ .put l wake) ∧
        WaitQueue.Step s.abs b (s.settle t want row r took).abs := by
  rcases hr with rfl | rfl
  · refine ⟨h, .wait t, by simp, ?_⟩
    have hs : (s.settle t want row ⟨s.links, { s.queue with nwait := n + 1 }, .waits, false⟩ took).abs =
        { s.abs with nwait := n + 1, client := Function.update s.abs.client t (.blocked want.kind) } := by
      simp only [State.settle, State.abs, kind_update, Client.kind_blocked]
      rfl
    rw [hs]
    exact .wait hat hc
  · refine ⟨h, .leave t, by simp, ?_⟩
    have hs : (s.settle t want row ⟨s.links, { s.queue with nwait := n }, .returns refused, false⟩ took).abs =
        { s.abs with nwait := n, client := Function.update s.abs.client t .outside } := by
      simp only [State.settle, State.abs, kind_update, Client.kind_outside, hnone, List.append_nil]
      rfl
    rw [hs]
    exact .leave hat hc

omit [DecidableEq P] [Fintype T] in
theorem settle_some (s : State P T) (t : T) (want : Want P) (row : Bool) (took : α → List P) {a : α}
    {m : Links P} {queue : SinWiQueue P} (hspans : queue.items.Spans m c) (hput : c.length ≤ s.put.length)
    (ha : took a = l) (hn : queue.nwait = n) :
    (s.settle t want row ⟨m, queue, .returns a, false⟩ took).Ok ∧
      (s.settle t want row ⟨m, queue, .returns a, false⟩ took).abs =
        { s.abs with
          contents := c, nwait := n, client := Function.update s.abs.client t .outside
          taken := s.abs.taken ++ l } := by
  obtain ⟨hok, hc⟩ := ok_of_spans (s := s.settle t want row ⟨m, queue, .returns a, false⟩ took) hspans hput
  refine ⟨hok, ?_⟩
  simp only [State.abs, hc]
  simp only [State.settle, kind_update, Client.kind_outside, ha, hn]

omit [DecidableEq P] [DecidableEq T] [Fintype T] in
theorem head_eq_none (h : s.Ok) (hc : s.contents = []) : s.queue.head = none :=
  h.head_none_iff.mpr hc

omit [DecidableEq P] [DecidableEq T] [Fintype T] in
theorem head_eq_some (h : s.Ok) (hc : s.contents = wi :: c) : s.queue.head = some wi := by
  have hh : s.queue.head = s.contents.head? := h.chain.head_eq
  simpa [hc] using hh

omit [Fintype T] in
theorem getItem_sim {r : Section P (Got (Option P))} (row : Bool) (h : s.Ok)
    (hat : WaitQueue.AtLoop .one s.queue.nwait (s.client t).kind n)
    (hnil : s.queue.head = none → r = ⟨s.links, { s.queue with nwait := n + 1 }, .waits, false⟩ ∨
      r = ⟨s.links, { s.queue with nwait := n }, .returns none, false⟩)
    (hsome : ∀ wi, s.queue.head = some wi →
      r = ⟨(getItemTake s.links { s.queue with nwait := n } wi).1,
        (getItemTake s.links { s.queue with nwait := n } wi).2.1,
        .returns (getItemTake s.links { s.queue with nwait := n } wi).2.2, false⟩) :
    (s.settle t .item row r Option.toList).Ok ∧
      ∃ b, (∀ l wake, b ≠ .put l wake) ∧
        WaitQueue.Step s.abs b (s.settle t .item row r Option.toList).abs := by
  cases hc : s.contents with
  | nil => exact settle_nil h hc hat (hnil (head_eq_none h hc)) rfl
  | cons wi c =>
    have hspans : ({ s.queue with nwait := n } : SinWiQueue P).items.Spans s.links (wi :: c) := hc ▸ h
    have hput : (wi :: c).length ≤ s.put.length := hc ▸ contents_length s
    rw [hsome wi (head_eq_some h hc)]
    simp only [getItemTake]
    obtain ⟨hok, habs⟩ := settle_some s t .item row Option.toList (a := some wi)
      (takeItem_spans hspans) (Nat.le_of_succ_le hput) rfl rfl
    refine ⟨hok, .take t, by simp, ?_⟩
    rw [habs]
    exact .takeOne hat hc

omit [Fintype T] in
theorem getItems_sim {r : Section P (Got (SinList P × BitVec 32))} (row : Bool) (h : s.Ok) (hown : s.Owns lst)
    (hat : WaitQueue.AtLoop .all s.queue.nwait (s.client t).kind n)
    (hnil : s.queue.head = none → r = ⟨s.links, { s.queue with nwait := n + 1 }, .waits, false⟩ ∨
      r = ⟨s.links, { s.queue with nwait := n }, .returns (lst, 0), false⟩)
    (hsome : ∀ wi, s.queue.head = some wi →
      r = ⟨(getItemsTake lst s.links { s.queue with nwait := n } wi).1,
        (getItemsTake lst s.links { s.queue with nwait := n } wi).2.1,
        .returns (getItemsTake lst s.links { s.queue with nwait := n } wi).2.2, false⟩) :
    (s.settle t (.items lst) row r (gained r.links lst s.put.length)).Ok ∧
      ∃ b, (∀ l wake, b ≠ .put l wake) ∧
        WaitQueue.Step s.abs b (s.settle t (.items lst) row r (gained r.links lst s.put.length)).abs := by
  cases hc : s.contents with
  | nil =>
    have hr := hnil (head_eq_none h hc)
    have hlinks : r.links = s.links := by rcases hr with rfl | rfl <;> rfl
    refine settle_nil h hc hat hr ?_
    have hwalk : Linked.walk s.links (lst.len.toNat + s.put.length) lst.head = lst.nodes s.links :=
      hown.1.chain.walk_eq (hown.1.len_toNat ▸ Nat.le_add_right _ _)
    rw [gained, hlinks, hwalk, hown.1.len_toNat]
    exact List.drop_length
  | cons wi c =>
    have hspans : ({ s.queue with nwait := n } : SinWiQueue P).items.Spans s.links (wi :: c) := hc ▸ h
    have hput : (wi :: c).length ≤ s.put.length := hc ▸ contents_length s
    have hlst := takeItems_spans hspans hown.1.toSpans (fun p hp => hc ▸ hown.2 p hp) (by simp)
    have hgained : gained (takeItems s.links { s.queue with nwait := n } lst).1 lst s.put.length
        (takeItems s.links { s.queue with nwait := n } lst).2.2 = wi :: c := by
      rw [gained, hlst.chain.walk_eq (by rw [List.length_append, hown.1.len_toNat]; omega), hown.1.len_toNat]
      exact List.drop_left
    have hempty : (takeItems s.links { s.queue with nwait := n } lst).2.1.items.Spans
        (takeItems s.links { s.queue with nwait := n } lst).1 [] := by
      rw [takeItems_items]
      exact (SinList.reset_holds _).toSpans
    rw [hsome wi (head_eq_some h hc)]
    simp only [getItemsTake]
    obtain ⟨hok, habs⟩ := settle_some s t (.items lst) row
      (gained (takeItems s.links { s.queue with nwait := n } lst).1 lst s.put.length) hempty (Nat.zero_le _)
      hgained takeItems_nwait
    refine ⟨hok, .take t, by simp, ?_⟩
    rw [habs, ← hc]
    exact .takeAll hat (by simp [State.abs, hc])

/-- `WaitQueue.Covered` in terms of the calls: a batch of several items goes
in while at most one thread is blocked, or with a `get_items` signalled or
about to be, or with as many wake-ups under way as there will be items. -/
def Covered (s : State P T) : Move P T → Prop
  | .putItems _ lst wake =>
    lst.len ≤ 1 ∨ tally Client.isBlocked s.client ≤ 1 ∨
      (∃ t, (s.client t).kind = .signalled .all) ∨
      (∃ t, wake = some t ∧ (s.client t).kind = .blocked .all) ∨
      (s.contents ++ lst.nodes s.links).length ≤ tally Client.isSignalled s.client + 1
  | _ => True

instance (s : State P T) (a : Move P T) : Decidable (Covered s a) := by
  cases a <;> unfold Covered <;> infer_instance

omit [DecidableEq P] [DecidableEq T] in
theorem Covered.abs (hl : s.Owns lst) (hc : Covered s (.putItems t lst wake)) :
    WaitQueue.Covered s.abs (.put (lst.nodes s.links) wake) := by
  rcases hc with h1 | h1 | hu | hu | hle
  · exact .inl (hl.1.len_toNat ▸ BitVec.le_def.mp h1)
  · exact .inr (.inl h1)
  · exact .inr (.inr (.inl hu))
  · exact .inr (.inr (.inr (.inl hu)))
  · exact .inr (.inr (.inr (.inr hle)))

omit [DecidableEq T] [Fintype T] in
theorem relink_sim (np : Option P) (h : s.Ok) (hp : p ∉ s.contents) :
    ({ s with links := Function.update s.links p np } : State P T).Ok ∧
      ({ s with links := Function.update s.links p np } : State P T).abs = s.abs := by
  have hspans : s.queue.items.Spans (Function.update s.links p np) s.contents :=
    h.congr fun q hq => Function.update_of_ne (ne_of_mem_of_not_mem hq hp) _ _
  obtain ⟨hok, hc⟩ := ok_of_spans (s := { s with links := Function.update s.links p np }) hspans
    (contents_length s)
  exact ⟨hok, by simp only [State.abs, hc]⟩

/-- A step of the threads is one of the sequence's. -/
def Simulated (s : State P T) (a : Move P T) (s' : State P T) : Prop :=
  s'.Ok ∧ ∃ b, (Covered s a → WaitQueue.Covered s.abs b) ∧ WaitQueue.Step s.abs b s'.abs

theorem putItem_step_sim (h : s.Ok) (hs : step s (.putItem t wi maxqlen wake) = some s') :
    Simulated s (.putItem t wi maxqlen wake) s' := by
  simp only [step] at hs
  split at hs
  · rename_i hg
    by_cases hr : Refuses s.queue maxqlen
    · have hret : ¬ ((-1 : Int) = 0) := by decide
      simp only [sinWiQueuePutItem_refused hr, if_neg hret] at hs
      obtain ⟨hok, hstep⟩ := poke_sim h hs rfl rfl rfl
      exact ⟨hok, .poke wake, fun _ => trivial, hstep⟩
    · rw [sinWiQueuePutItem_ret hr] at hs
      have hspans := sinWiQueuePutItem_spans h hg.2 hr
      obtain ⟨hok, hstep⟩ := put_sim hs hspans sinWiQueuePutItem_nwait sinWiQueuePutItem_signal (by simp)
      exact ⟨hok, .put [wi] wake, fun _ => .inl (by simp), hstep⟩
  · cases hs

theorem putItems_step_sim (h : s.Ok) (hs : step s (.putItems t lst wake) = some s') :
    Simulated s (.putItems t lst wake) s' := by
  simp only [step] at hs
  split at hs
  · rename_i hg
    obtain ⟨-, hown, hne⟩ := hg
    have hspans := sinWiQueuePutItems_spans h hown.1.toSpans (fun p hp hl => hown.2 p hl hp) hne
    obtain ⟨hok, hstep⟩ := put_sim hs hspans sinWiQueuePutItems_nwait sinWiQueuePutItems_signal hne
    exact ⟨hok, .put (lst.nodes s.links) wake, Covered.abs hown, hstep⟩
  · cases hs

theorem get_step_sim (h : s.Ok) (hs : step s (.get t want waitok row) = some s') :
    Simulated s (.get t want waitok row) s' := by
  cases want with
  | item =>
    simp only [step] at hs
    split at hs
    · rename_i ht
      cases hs
      have hat : WaitQueue.AtLoop .one s.queue.nwait (s.client t).kind s.queue.nwait := by
        rw [ht]
        exact .fresh
      obtain ⟨hok, b, hb, hstep⟩ := getItem_sim (r := sinWiQueueGetItem s.links s.queue waitok) row h
        hat getSection_nil (fun wi hwi => getSection_some hwi)
      exact ⟨hok, b, fun _ => WaitQueue.covered_other hb, hstep⟩
    · cases hs
  | items lst =>
    simp only [step] at hs
    split at hs
    · rename_i hg
      cases hs
      have hat : WaitQueue.AtLoop .all s.queue.nwait (s.client t).kind s.queue.nwait := by
        rw [hg.1]
        exact .fresh
      obtain ⟨hok, b, hb, hstep⟩ := getItems_sim (r := sinWiQueueGetItems s.links s.queue lst waitok)
        row h hg.2 hat getSection_nil (fun wi hwi => getSection_some hwi)
      exact ⟨hok, b, fun _ => WaitQueue.covered_other hb, hstep⟩
    · cases hs

theorem spurious_step_sim (h : s.Ok) (hs : step s (.spurious t) = some s') : Simulated s (.spurious t) s' := by
  simp only [step] at hs
  split at hs
  · rename_i want row ht
    cases hs
    refine ⟨h, .spurious t, fun _ => trivial, ?_⟩
    have habs : ({ s with client := Function.update s.client t (.signalled want row) } : State P T).abs =
        { s.abs with client := Function.update s.abs.client t (.signalled want.kind) } := by
      simp only [State.abs, kind_update, Client.kind_signalled]
      rfl
    rw [habs]
    exact .spurious (by simp [State.abs, ht])
  · cases hs

theorem resume_step_sim (h : s.Ok) (hs : step s (.resume t) = some s') : Simulated s (.resume t) s' := by
  simp only [step] at hs
  split at hs
  · rename_i row ht
    cases hs
    have hat : WaitQueue.AtLoop .one s.queue.nwait (s.client t).kind (s.queue.nwait - 1) := by
      rw [ht]
      exact .woken
    obtain ⟨hok, b, hb, hstep⟩ := getItem_sim (r := sinWiQueueGetItemWake s.links s.queue row) row h
      hat wakeSection_nil (fun wi hwi => (wakeSection_some hwi).trans (getSection_some hwi))
    exact ⟨hok, b, fun _ => WaitQueue.covered_other hb, hstep⟩
  · rename_i lst row ht
    split at hs
    · rename_i hown
      cases hs
      have hat : WaitQueue.AtLoop .all s.queue.nwait (s.client t).kind (s.queue.nwait - 1) := by
        rw [ht]
        exact .woken
      obtain ⟨hok, b, hb, hstep⟩ := getItems_sim (r := sinWiQueueGetItemsWake s.links s.queue lst row)
        row h hown hat wakeSection_nil (fun wi hwi => (wakeSection_some hwi).trans (getSection_some hwi))
      exact ⟨hok, b, fun _ => WaitQueue.covered_other hb, hstep⟩
    · cases hs
  · cases hs

theorem step_sim (h : s.Ok) (hs : step s a = some s') : Simulated s a s' := by
  cases a with
  | relink p np =>
    simp only [step, Option.ite_none_left_eq_some, Option.some.injEq] at hs
    obtain ⟨hp, rfl⟩ := hs
    obtain ⟨hok, habs⟩ := relink_sim np h hp
    exact ⟨hok, .idle, fun _ => trivial, habs ▸ .idle⟩
  | putItem t wi maxqlen wake => exact putItem_step_sim h hs
  | putItems t lst wake => exact putItems_step_sim h hs
  | pump t wake =>
    simp only [step, Option.ite_none_right_eq_some] at hs
    obtain ⟨-, hs⟩ := hs
    obtain ⟨hok, hstep⟩ := poke_sim h hs rfl rfl rfl
    exact ⟨hok, .poke wake, fun _ => trivial, hstep⟩
  | get t want waitok row => exact get_step_sim h hs
  | spurious t => exact spurious_step_sim h hs
  | resume t => exact resume_step_sim h hs

theorem init_sim (h : (machine P T).init s) : s.Ok ∧ (WaitQueue.machine P T).init s.abs := by
  obtain ⟨m, rfl⟩ := h
  obtain ⟨hok, hc⟩ := ok_of_spans (s := (⟨m, .ctor, fun _ => .outside, [], []⟩ : State P T))
    (SinList.reset_holds m).toSpans le_rfl
  refine ⟨hok, ?_⟩
  show State.abs _ = _
  simp only [State.abs, hc]
  rfl

theorem simulation : Machine.Simulation (machine P T) (fun _ _ => True) (WaitQueue.machine P T)
    (fun _ _ => True) (fun s t => s.Ok ∧ t = s.abs) where
  init s h := ⟨s.abs, (init_sim h).2, (init_sim h).1, rfl⟩
  step := by
    rintro s a s' _ ⟨h, rfl⟩ - hs
    obtain ⟨h', b, -, hstep⟩ := step_sim h hs
    exact ⟨s'.abs, .single ⟨b, trivial, hstep⟩, h', rfl⟩

theorem simulation_covered : Machine.Simulation (machine P T) Covered (WaitQueue.machine P T)
    WaitQueue.Covered (fun s t => s.Ok ∧ t = s.abs) where
  init s h := ⟨s.abs, (init_sim h).2, (init_sim h).1, rfl⟩
  step := by
    rintro s a s' _ ⟨h, rfl⟩ hok hs
    obtain ⟨h', b, hb, hstep⟩ := step_sim h hs
    exact ⟨s'.abs, .single ⟨b, hb hok, hstep⟩, h', rfl⟩

theorem reachable_abs (h : (machine P T).Reachable s) :
    s.Ok ∧ (WaitQueue.machine P T).Reachable s.abs := by
  obtain ⟨_, ht, hok, rfl⟩ := simulation.reachable h
  exact ⟨hok, ht⟩

end

-- ---------------------------------------------------------------------------
-- First in, first out
-- ---------------------------------------------------------------------------

/-- The results of all functions on a queue that is the sequence `c`. Where a
number of items is kept or returned it is that modulo `2 ^ 32`, so the queue is
well formed as long as it has fewer. -/
structure IsSeq (m : Links P) (queue : SinWiQueue P) (c : List P) : Prop where
  spans : queue.items.Spans m c
  head_tail : queue.head = none ↔ queue.tail = none
  wellFormed : c.length < 2 ^ 32 →
    queue.items.Holds m c ∧ queue.length.toNat = c.length ∧ (queue.tail = none ↔ queue.length = 0)
  putItem_refused : ∀ wi maxqlen, 0 < maxqlen → maxqlen ≤ queue.length →
    (sinWiQueuePutItem m queue wi maxqlen).ret = -1 ∧
    (sinWiQueuePutItem m queue wi maxqlen).links = m ∧
    (sinWiQueuePutItem m queue wi maxqlen).queue = queue
  putItem : ∀ wi maxqlen, wi ∉ c → ¬ (0 < maxqlen ∧ maxqlen ≤ queue.length) →
    (sinWiQueuePutItem m queue wi maxqlen).ret = 0 ∧
    (sinWiQueuePutItem m queue wi maxqlen).queue.items.Spans
      (sinWiQueuePutItem m queue wi maxqlen).links (c ++ [wi])
  putItems : ∀ lst l, lst.Spans m l → l ≠ [] → (∀ p ∈ l, p ∉ c) →
    (sinWiQueuePutItems m lst queue).queue.items.Spans (sinWiQueuePutItems m lst queue).links (c ++ l)
  getItem : ∀ wi l waitok, c = wi :: l → ∃ m' queue',
    sinWiQueueGetItem m queue waitok = ⟨m', queue', .returns (some wi), false⟩ ∧
    queue'.items.Spans m' l ∧ m' wi = none
  getItemWake : ∀ wi l row, c = wi :: l → ∃ m' queue',
    sinWiQueueGetItemWake m queue row = ⟨m', queue', .returns (some wi), false⟩ ∧
    queue'.items.Spans m' l ∧ m' wi = none
  getItems : ∀ lst l waitok, c ≠ [] → lst.Spans m l → (∀ p ∈ l, p ∉ c) → ∃ m' queue' lst',
    sinWiQueueGetItems m queue lst waitok = ⟨m', queue', .returns (lst', .ofNat 32 c.length), false⟩ ∧
    queue'.items.Holds m' [] ∧ lst'.Spans m' (l ++ c)
  getItemsWake : ∀ lst l row, c ≠ [] → lst.Spans m l → (∀ p ∈ l, p ∉ c) → ∃ m' queue' lst',
    sinWiQueueGetItemsWake m queue lst row = ⟨m', queue', .returns (lst', .ofNat 32 c.length), false⟩ ∧
    queue'.items.Holds m' [] ∧ lst'.Spans m' (l ++ c)
  empty : c = [] → ∀ lst, sinWiQueueGetItem m queue false = ⟨m, queue, .returns none, false⟩ ∧
    sinWiQueueGetItems m queue lst false = ⟨m, queue, .returns (lst, 0), false⟩

section
variable {m : Links P} {queue : SinWiQueue P} {c l : List P} {lst : SinList P}

theorem takeItems_isSeq (h : queue.items.Spans m c) (hne : c ≠ []) (hl : lst.Spans m l)
    (hd : ∀ p ∈ l, p ∉ c) :
    (takeItems m queue lst).2.1.items.Holds (takeItems m queue lst).1 [] ∧
      (takeItems m queue lst).2.2.1.Spans (takeItems m queue lst).1 (l ++ c) ∧
      (takeItems m queue lst).2.2.2 = .ofNat 32 c.length := by
  refine ⟨?_, takeItems_spans h hl hd hne, takeItems_count.trans h.len⟩
  rw [takeItems_items]
  exact SinList.reset_holds _

theorem isSeq_of_spans (h : queue.items.Spans m c) : IsSeq m queue c := by
  have hhead : queue.head = c.head? := h.chain.head_eq
  have hsome : c ≠ [] → ∃ wi, queue.head = some wi := fun hne =>
    ⟨c.head hne, hhead.trans (List.head?_eq_some_head hne)⟩
  have hdec : ({ queue with nwait := queue.nwait - 1 } : SinWiQueue P).items.Spans m c := h
  exact {
    spans := h
    head_tail := h.head_none_iff.trans h.tail_none_iff.symm
    wellFormed := fun hfits =>
      have hholds : queue.items.Holds m c := ⟨h, hfits⟩
      ⟨hholds, hholds.len_toNat, h.tail_none_iff.trans hholds.len_zero_iff.symm⟩
    putItem_refused := by
      intro wi maxqlen hpos hle
      rw [sinWiQueuePutItem_refused ⟨hpos, hle⟩]
      exact ⟨rfl, rfl, rfl⟩
    putItem := fun wi maxqlen hwi ha => ⟨sinWiQueuePutItem_ret ha, sinWiQueuePutItem_spans h hwi ha⟩
    putItems := fun lst l hl hne hd =>
      sinWiQueuePutItems_spans h hl (fun p hc hp => hd p hp hc) hne
    getItem := by
      rintro wi l waitok rfl
      exact ⟨_, _, getSection_some hhead, takeItem_spans h, takeItem_link m queue wi⟩
    getItemWake := by
      rintro wi l row rfl
      exact ⟨_, _, (wakeSection_some hhead).trans (getSection_some hhead), takeItem_spans hdec,
        takeItem_link m { queue with nwait := queue.nwait - 1 } wi⟩
    getItems := by
      intro lst l waitok hne hl hd
      obtain ⟨wi, hwi⟩ := hsome hne
      obtain ⟨hq, hlst, hn⟩ := takeItems_isSeq h hne hl hd
      refine ⟨_, _, _, (getSection_some hwi).trans ?_, hq, hlst⟩
      rw [← hn]
      rfl
    getItemsWake := by
      intro lst l row hne hl hd
      obtain ⟨wi, hwi⟩ := hsome hne
      obtain ⟨hq, hlst, hn⟩ := takeItems_isSeq hdec hne hl hd
      refine ⟨_, _, _, ((wakeSection_some hwi).trans (getSection_some hwi)).trans ?_, hq, hlst⟩
      rw [← hn]
      rfl
    empty := by
      rintro rfl lst
      have hnone : queue.head = none := hhead
      exact ⟨by simp [sinWiQueueGetItem, getSection, hnone],
        by simp [sinWiQueueGetItems, getSection, hnone]⟩ }

end

/-- In every run the queue is the sequence of the items put and not yet taken,
in the order they were put, and every step is one of that sequence's. -/
theorem sinWiQueue_fifo {s : State P T} (h : (machine P T).Reachable s) :
    IsSeq s.links s.queue s.contents ∧ s.put = s.taken ++ s.contents ∧
      ∀ a s', step s a = some s' → ∃ b, WaitQueue.Step s.abs b s'.abs := by
  obtain ⟨hok, habs⟩ := reachable_abs h
  refine ⟨isSeq_of_spans hok, WaitQueue.fifo habs, fun a s' hs => ?_⟩
  obtain ⟨-, b, -, hb⟩ := step_sim hok hs
  exact ⟨b, hb⟩

/-- Two items put one at a time, one taken: the other is left. -/
theorem sinWiQueue_fifo_two : ∃ s : State (Fin 2) (Fin 1), s.taken = [1] ∧
    IsSeq s.links s.queue s.contents ∧ s.put = s.taken ++ s.contents := by
  have hinit : (machine (Fin 2) (Fin 1)).init ⟨fun _ => none, .ctor, fun _ => .outside, [], []⟩ :=
    ⟨_, rfl⟩
  obtain ⟨s, hs, hp⟩ := Machine.Reachable.of_test step
    [.putItem 0 1 0 none, .putItem 0 0 2 none, .get 0 .item false false]
    (fun s => decide (s.taken = [1])) hinit (by decide)
  obtain ⟨hseq, hput, -⟩ := sinWiQueue_fifo hs
  exact ⟨s, of_decide_eq_true hp, hseq, hput⟩

/-- One item after the other is put, and none is ever taken. -/
theorem puts_reachable (n : Nat) : ∃ s : State Nat (Fin 1), (machine Nat (Fin 1)).Reachable s ∧
    s.put = List.range n ∧ s.taken = [] ∧ s.queue.nwait = 0 ∧ ∀ t, s.client t = .outside := by
  induction n with
  | zero => exact ⟨⟨fun _ => none, .ctor, fun _ => .outside, [], []⟩, .init ⟨_, rfl⟩, rfl, rfl, rfl, fun _ => rfl⟩
  | succ n ih =>
    obtain ⟨s, hr, hput, htaken, hnwait, hout⟩ := ih
    have hfifo : s.put = s.taken ++ s.contents := WaitQueue.fifo (reachable_abs hr).2
    rw [hput, htaken, List.nil_append] at hfifo
    have hnew : n ∉ s.contents := hfifo ▸ List.not_mem_range_self
    have hret : (sinWiQueuePutItem s.links s.queue n 0#32).ret = 0 := sinWiQueuePutItem_ret (by simp [Refuses])
    let r := sinWiQueuePutItem s.links s.queue n 0
    have hs : step s (.putItem 0 n 0 none) =
        some { s with links := r.links, queue := r.queue, put := s.put ++ [n] } := by
      simp [step, hout 0, hnew, hret, State.after, wakeOne, SinWiQueue.notifies, hnwait, r]
    refine ⟨_, hr.next hs, ?_, htaken, ?_, hout⟩
    · rw [List.range_succ, ← hput]
    · simp [r, hnwait]

/-- With `2 ^ 32` items in it the queue's length is 0. -/
theorem sinWiQueue_wraps : ¬ ∀ s : State Nat (Fin 1), (machine Nat (Fin 1)).Reachable s →
    (s.queue.head = none ↔ s.queue.length = 0) := by
  intro hall
  obtain ⟨s, hr, hput, htaken, -⟩ := puts_reachable (2 ^ 32)
  obtain ⟨hok, habs⟩ := reachable_abs hr
  have hfifo : s.put = s.taken ++ s.contents := WaitQueue.fifo habs
  rw [hput, htaken, List.nil_append] at hfifo
  have hlen : s.queue.length = 0 := by
    have hlen := hok.len
    rw [← hfifo, List.length_range] at hlen
    exact hlen
  have hnil := hok.head_none_iff.mp ((hall s hr).mpr hlen)
  rw [← hfifo, List.range_eq_nil] at hnil
  exact absurd hnil (by decide)

-- ---------------------------------------------------------------------------
-- Wake-ups
-- ---------------------------------------------------------------------------

/-- Items in the queue never face a thread asleep with nobody on the way. -/
def State.NoLostWakeup (s : State P T) : Prop :=
  s.queue.head ≠ none → (∃ t, (s.client t).isBlocked = true) → ∃ t, (s.client t).isSignalled = true

/-- The counter is exact in every run. No wake-up is lost in the runs that put
batches only as `Covered` says. -/
theorem sinWiQueue_wakeups {s : State P T} (h : (machine P T).Reachable s) :
    s.queue.nwait = tally Client.isWaiting s.client ∧
      ((machine P T).ReachableBy Covered s → s.NoLostWakeup) := by
  refine ⟨WaitQueue.counted (reachable_abs h).2, fun hc => ?_⟩
  obtain ⟨_, ht, hok, rfl⟩ := simulation_covered.reachable hc
  have hlost := (WaitQueue.backed ht).noLostWakeup
  intro hhead
  exact hlost (mt (head_eq_none hok) hhead)

def start : State (Fin 2) (Fin 3) := ⟨fun _ => none, .ctor, fun _ => .outside, [], []⟩

theorem start_init : (machine (Fin 2) (Fin 3)).init start := ⟨_, rfl⟩

/-- Two consumers asleep, and one item put. -/
theorem sinWiQueue_wakeups_item : ∃ s : State (Fin 2) (Fin 3), s.queue.nwait = 2 ∧
    s.queue.nwait = tally Client.isWaiting s.client ∧ s.NoLostWakeup := by
  obtain ⟨s, hs, hp⟩ := Machine.ReachableBy.of_test step Covered
    [.get 0 .item true false, .get 1 .item true false, .putItem 2 0 0 (some 0)]
    (fun s => decide (s.queue.nwait = 2)) start_init (by decide)
  obtain ⟨hn, hlost⟩ := sinWiQueue_wakeups hs.reachable
  exact ⟨s, of_decide_eq_true hp, hn, hlost hs⟩

/-- Two consumers asleep, a batch of two items, and the one woken takes one. -/
theorem batchRun_loses : ¬ ∀ s, (machine (Fin 2) (Fin 3)).Reachable s →
    s.queue.nwait = tally Client.isWaiting s.client ∧ s.NoLostWakeup := by
  intro hall
  obtain ⟨s, hs, hp⟩ := Machine.Reachable.of_test step
    [.relink 0 (some 1), .relink 1 none, .get 0 .item true false, .get 1 .item true false,
      .putItems 2 ⟨some 0, some 1, 2⟩ (some 0), .resume 0]
    (fun s => decide (s.queue.head ≠ none) && (s.client 1).isBlocked &&
      decide (∀ t, (s.client t).isSignalled = false)) start_init (by decide)
  simp only [Bool.and_eq_true, decide_eq_true_eq] at hp
  obtain ⟨⟨hhead, hblocked⟩, hnone⟩ := hp
  obtain ⟨t, ht⟩ := (hall s hs).2 hhead ⟨1, hblocked⟩
  simp [hnone t] at ht

end Libsinet.WiQueue
