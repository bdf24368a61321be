import Libsinet.SinList

/-!
# Work queues

`sin_wi_queue.c`. Every function holds the queue's mutex except while it waits
on the condition variable, so it is a few atomic sections: the puts and the
pump are one each, a get is one up to its return or its first wait, and one
more for each wake-up, from `pthread_cond_wait` returning to the next return
or wait.
-/

namespace Libsinet

variable {P : Type u}

structure SinWiQueue (P : Type u) where
  head : Option P
  tail : Option P
  nwait : Nat
  length : BitVec 32
  deriving DecidableEq, Repr

namespace SinWiQueue

def items (queue : SinWiQueue P) : SinList P := ⟨queue.head, queue.tail, queue.length⟩

/-- `sin_wi_queue_ctor`: all fields zero. -/
def ctor : SinWiQueue P := ⟨none, none, 0, 0⟩

@[simp] theorem items_ctor : (ctor : SinWiQueue P).items = .reset := rfl
@[simp] theorem items_nwait (queue : SinWiQueue P) (n : Nat) :
    ({ queue with nwait := n } : SinWiQueue P).items = queue.items := rfl

end SinWiQueue

/-- What a section leaves: the links, the queue, its result, and whether it
called `pthread_cond_signal`. -/
structure Section (P : Type u) (α : Type v) where
  links : Links P
  queue : SinWiQueue P
  ret : α
  signal : Bool

/-- How a section of a get ends: in `pthread_cond_wait`, or by returning. -/
inductive Got (α : Type v)
  | waits
  | returns (a : α)
  deriving DecidableEq, Repr

variable [DecidableEq P]

-- ---------------------------------------------------------------------------
-- Putting
-- ---------------------------------------------------------------------------

/-- `queue->nwait > 0`, the test before every `pthread_cond_signal`. -/
def SinWiQueue.notifies (queue : SinWiQueue P) : Bool := decide (queue.nwait > 0)

def sinWiQueuePutItem (m : Links P) (queue : SinWiQueue P) (wi : P) (maxqlen : BitVec 32) :
    Section P Int :=
  if maxqlen > 0 ∧ queue.length ≥ maxqlen then
    ⟨m, queue, -1, queue.notifies⟩
  else
    let m := Function.update m wi none
    match queue.head with
    | none => ⟨m, { queue with head := some wi, tail := some wi, length := queue.length + 1 }, 0,
        queue.notifies⟩
    | some _ => ⟨linkAt m queue.tail (some wi),
        { queue with tail := some wi, length := queue.length + 1 }, 0, queue.notifies⟩

def sinWiQueuePutItems (m : Links P) (lst : SinList P) (queue : SinWiQueue P) : Section P Unit :=
  match queue.head with
  | none => ⟨m, { queue with head := lst.head, tail := lst.tail, length := lst.len }, (),
      queue.notifies⟩
  | some _ => ⟨linkAt m queue.tail lst.head,
      { queue with tail := lst.tail, length := queue.length + lst.len }, (), queue.notifies⟩

def sinWiQueuePump (m : Links P) (queue : SinWiQueue P) : Section P Nat :=
  ⟨m, queue, queue.nwait, queue.notifies⟩

-- ---------------------------------------------------------------------------
-- Getting
-- ---------------------------------------------------------------------------

/-- The end of `sin_wi_queue_get_item`, after its loop found an item. -/
def takeItem (m : Links P) (queue : SinWiQueue P) (wi : P) : Links P × SinWiQueue P :=
  let head := m wi
  let tail := if head = none then none else queue.tail
  (Function.update m wi none, { queue with head, tail, length := queue.length - 1 })

/-- The end of `sin_wi_queue_get_items`, after its loop found an item. -/
def takeItems (m : Links P) (queue : SinWiQueue P) (lst : SinList P) :
    Links P × SinWiQueue P × SinList P × BitVec 32 :=
  let emptied := { queue with head := none, tail := none, length := 0 }
  match lst.head with
  | none => (m, emptied, ⟨queue.head, queue.tail, queue.length⟩, queue.length)
  | some _ => (linkAt m lst.tail queue.head, emptied,
      ⟨lst.head, queue.tail, lst.len + queue.length⟩, queue.length)

/-- One evaluation of the loop condition of a get and what follows it, once
for both gets: `take` is what the get does with a queue that is not empty,
`refused` what it returns when it must not wait. -/
def getSection (m : Links P) (queue : SinWiQueue P) (waitok : Bool)
    (take : Links P → SinWiQueue P → P → Links P × SinWiQueue P × α) (refused : α) :
    Section P (Got α) :=
  match queue.head with
  | none =>
    if waitok then ⟨m, { queue with nwait := queue.nwait + 1 }, .waits, false⟩
    else ⟨m, queue, .returns refused, false⟩
  | some wi => match take m queue wi with
    | (m, queue, a) => ⟨m, queue, .returns a, false⟩

/-- From `pthread_cond_wait` returning: the caller had `waitok` set, and
`return_on_wake` sends it home from an empty queue. -/
def wakeSection (m : Links P) (queue : SinWiQueue P) (returnOnWake : Bool)
    (take : Links P → SinWiQueue P → P → Links P × SinWiQueue P × α) (refused : α) :
    Section P (Got α) :=
  let queue := { queue with nwait := queue.nwait - 1 }
  if queue.head = none ∧ returnOnWake then ⟨m, queue, .returns refused, false⟩
  else getSection m queue true take refused

def getItemTake (m : Links P) (queue : SinWiQueue P) (wi : P) :
    Links P × SinWiQueue P × Option P :=
  match takeItem m queue wi with
  | (m, queue) => (m, queue, some wi)

def getItemsTake (lst : SinList P) (m : Links P) (queue : SinWiQueue P) (_ : P) :
    Links P × SinWiQueue P × SinList P × BitVec 32 :=
  takeItems m queue lst

def sinWiQueueGetItem (m : Links P) (queue : SinWiQueue P) (waitok : Bool) :
    Section P (Got (Option P)) :=
  getSection m queue waitok getItemTake none

def sinWiQueueGetItemWake (m : Links P) (queue : SinWiQueue P) (returnOnWake : Bool) :
    Section P (Got (Option P)) :=
  wakeSection m queue returnOnWake getItemTake none

/-- The result is the caller's list, which the function writes, and the
number of items moved to it. -/
def sinWiQueueGetItems (m : Links P) (queue : SinWiQueue P) (lst : SinList P) (waitok : Bool) :
    Section P (Got (SinList P × BitVec 32)) :=
  getSection m queue waitok (getItemsTake lst) (lst, 0)

def sinWiQueueGetItemsWake (m : Links P) (queue : SinWiQueue P) (lst : SinList P)
    (returnOnWake : Bool) : Section P (Got (SinList P × BitVec 32)) :=
  wakeSection m queue returnOnWake (getItemsTake lst) (lst, 0)

-- ---------------------------------------------------------------------------
-- What the sections do to the list
-- ---------------------------------------------------------------------------

section
variable {m : Links P} {queue : SinWiQueue P} {lst : SinList P} {c l : List P} {wi : P}

/-- `sin_wi_queue_put_item` turns an item away from a full queue. -/
def Refuses (queue : SinWiQueue P) (maxqlen : BitVec 32) : Prop := maxqlen > 0 ∧ queue.length ≥ maxqlen

instance (queue : SinWiQueue P) (maxqlen : BitVec 32) : Decidable (Refuses queue maxqlen) :=
  inferInstanceAs (Decidable (_ ∧ _))

theorem sinWiQueuePutItem_refused (h : Refuses queue maxqlen) :
    sinWiQueuePutItem m queue wi maxqlen = ⟨m, queue, -1, queue.notifies⟩ := if_pos h

theorem sinWiQueuePutItem_append (h : ¬ Refuses queue maxqlen) :
    (sinWiQueuePutItem m queue wi maxqlen).links =
        (sinListAppend (Function.update m wi none) queue.items wi).1 ∧
      (sinWiQueuePutItem m queue wi maxqlen).queue.items =
        (sinListAppend (Function.update m wi none) queue.items wi).2 := by
  unfold Refuses at h
  rw [sinWiQueuePutItem, if_neg h]
  cases hq : queue.head <;> simp [sinListAppend, SinWiQueue.items, hq]

theorem sinWiQueuePutItem_ret (h : ¬ Refuses queue maxqlen) :
    (sinWiQueuePutItem m queue wi maxqlen).ret = 0 := by
  unfold Refuses at h
  rw [sinWiQueuePutItem, if_neg h]
  cases hq : queue.head <;> simp

@[simp] theorem sinWiQueuePutItem_nwait :
    (sinWiQueuePutItem m queue wi maxqlen).queue.nwait = queue.nwait := by
  unfold sinWiQueuePutItem
  split
  · rfl
  · split <;> rfl

@[simp] theorem sinWiQueuePutItem_signal :
    (sinWiQueuePutItem m queue wi maxqlen).signal = queue.notifies := by
  unfold sinWiQueuePutItem
  split
  · rfl
  · split <;> rfl

theorem sinWiQueuePutItem_spans (h : queue.items.Spans m c) (hwi : wi ∉ c)
    (ha : ¬ Refuses queue maxqlen) :
    (sinWiQueuePutItem m queue wi maxqlen).queue.items.Spans
      (sinWiQueuePutItem m queue wi maxqlen).links (c ++ [wi]) := by
  obtain ⟨hlinks, hitems⟩ := @sinWiQueuePutItem_append _ _ m queue wi maxqlen ha
  have hc : queue.items.Spans (Function.update m wi none) c :=
    h.congr fun p hp => Function.update_of_ne (ne_of_mem_of_not_mem hp hwi) _ _
  rw [hlinks, hitems]
  exact sinListAppend_spans hc (Function.update_self _ _ _) hwi

theorem sinWiQueuePutItem_frame (h : queue.items.Spans m c) (hwi : wi ∉ c) (hp : p ∉ c)
    (hne : p ≠ wi) : (sinWiQueuePutItem m queue wi maxqlen).links p = m p := by
  by_cases hr : Refuses queue maxqlen
  · rw [sinWiQueuePutItem_refused hr]
  · have hc : queue.items.Spans (Function.update m wi none) c :=
      h.congr fun p hp => Function.update_of_ne (ne_of_mem_of_not_mem hp hwi) _ _
    rw [(sinWiQueuePutItem_append hr).1, sinListAppend_frame hc hp, Function.update_of_ne hne]

theorem sinWiQueuePutItems_splice :
    (sinWiQueuePutItems m lst queue).links = (splice m queue.items lst).1 ∧
      (sinWiQueuePutItems m lst queue).queue.items = (splice m queue.items lst).2 := by
  unfold sinWiQueuePutItems
  cases hq : queue.head <;> simp [splice, SinWiQueue.items, hq]

@[simp] theorem sinWiQueuePutItems_nwait :
    (sinWiQueuePutItems m lst queue).queue.nwait = queue.nwait := by
  unfold sinWiQueuePutItems
  split <;> rfl

@[simp] theorem sinWiQueuePutItems_signal :
    (sinWiQueuePutItems m lst queue).signal = queue.notifies := by
  unfold sinWiQueuePutItems
  split <;> rfl

theorem sinWiQueuePutItems_spans (h : queue.items.Spans m c) (hl : lst.Spans m l)
    (hd : ∀ p ∈ c, p ∉ l) (hne : l ≠ []) :
    (sinWiQueuePutItems m lst queue).queue.items.Spans (sinWiQueuePutItems m lst queue).links
      (c ++ l) := by
  rw [sinWiQueuePutItems_splice.1, sinWiQueuePutItems_splice.2]
  exact splice_spans h hl hd hne

section

omit [DecidableEq P]

theorem getSection_nil {take : Links P → SinWiQueue P → P → Links P × SinWiQueue P × α} {refused : α}
    (h : queue.head = none) :
    getSection m queue waitok take refused =
        ⟨m, { queue with nwait := queue.nwait + 1 }, .waits, false⟩ ∨
      getSection m queue waitok take refused = ⟨m, queue, .returns refused, false⟩ := by
  cases waitok <;> simp [getSection, h]

theorem getSection_some {take : Links P → SinWiQueue P → P → Links P × SinWiQueue P × α} {refused : α}
    (h : queue.head = some wi) :
    getSection m queue waitok take refused =
      ⟨(take m queue wi).1, (take m queue wi).2.1, .returns (take m queue wi).2.2, false⟩ := by
  simp [getSection, h]

theorem wakeSection_nil {take : Links P → SinWiQueue P → P → Links P × SinWiQueue P × α} {refused : α}
    (h : queue.head = none) :
    wakeSection m queue row take refused =
        ⟨m, { queue with nwait := queue.nwait - 1 + 1 }, .waits, false⟩ ∨
      wakeSection m queue row take refused =
        ⟨m, { queue with nwait := queue.nwait - 1 }, .returns refused, false⟩ := by
  cases row <;> simp [wakeSection, getSection, h]

theorem wakeSection_some {take : Links P → SinWiQueue P → P → Links P × SinWiQueue P × α} {refused : α}
    (h : queue.head = some wi) :
    wakeSection m queue row take refused =
      getSection m { queue with nwait := queue.nwait - 1 } true take refused := by
  simp [wakeSection, h]

end

theorem takeItem_spans (h : queue.items.Spans m (wi :: c)) :
    (takeItem m queue wi).2.items.Spans (takeItem m queue wi).1 c := by
  have hwi : wi ∉ c := (List.nodup_cons.mp h.chain.nodup).1
  refine ⟨h.chain.2.update_of_notMem hwi, ?_, ?_⟩
  · show (if m wi = none then none else queue.tail) = c.getLast?
    have ht : queue.tail = (wi :: c).getLast? := h.tail
    split
    · rename_i hn
      rw [(h.chain.2.none_iff).mp hn]
      rfl
    · rename_i hn
      have hc : c ≠ [] := mt h.chain.2.none_iff.mpr hn
      rw [ht, List.getLast?_cons_of_ne_nil hc]
  · have hn : queue.length = BitVec.ofNat 32 c.length + 1 := h.len.trans (BitVec.ofNat_add c.length 1)
    show queue.length - 1 = _
    rw [hn, BitVec.add_sub_cancel]

theorem takeItem_link (m : Links P) (queue : SinWiQueue P) (wi : P) :
    (takeItem m queue wi).1 wi = none := Function.update_self _ _ _

theorem takeItem_frame (hp : p ≠ wi) : (takeItem m queue wi).1 p = m p :=
  Function.update_of_ne hp _ _

theorem takeItems_splice :
    (takeItems m queue lst).1 = (splice m lst queue.items).1 ∧
      (takeItems m queue lst).2.2.1 = (splice m lst queue.items).2 := by
  unfold takeItems
  cases hl : lst.head <;> simp [splice, SinWiQueue.items, hl]

@[simp] theorem takeItems_items : (takeItems m queue lst).2.1.items = .reset := by
  unfold takeItems
  split <;> rfl

@[simp] theorem takeItems_nwait : (takeItems m queue lst).2.1.nwait = queue.nwait := by
  unfold takeItems
  split <;> rfl

@[simp] theorem takeItems_count : (takeItems m queue lst).2.2.2 = queue.length := by
  unfold takeItems
  split <;> rfl

theorem takeItems_spans (h : queue.items.Spans m c) (hl : lst.Spans m l) (hd : ∀ p ∈ l, p ∉ c)
    (hne : c ≠ []) :
    (takeItems m queue lst).2.2.1.Spans (takeItems m queue lst).1 (l ++ c) := by
  rw [takeItems_splice.1, takeItems_splice.2]
  exact splice_spans hl h hd hne

/-- A section of a get that may wait leaves everything as it is, or takes all. -/
theorem sinWiQueueGetItems_cases {r : Section P (Got (SinList P × BitVec 32))}
    (hr : r = sinWiQueueGetItems m queue lst true ∨ r = sinWiQueueGetItemsWake m queue lst true) :
    (r.links = m ∧ r.queue.items = queue.items ∧ (r.ret = .waits ∨ ∃ n, r.ret = .returns (lst, n))) ∨
      (queue.head ≠ none ∧ r.links = (splice m lst queue.items).1 ∧ r.queue.items = .reset ∧
        ∃ n, r.ret = .returns ((splice m lst queue.items).2, n)) := by
  rw [← takeItems_splice.1, ← takeItems_splice.2]
  cases hq : queue.head with
  | none =>
    rcases hr with rfl | rfl
    · exact .inl (by simp [sinWiQueueGetItems, getSection, hq, SinWiQueue.items])
    · exact .inl (by simp [sinWiQueueGetItemsWake, wakeSection, hq, SinWiQueue.items])
  | some wi =>
    rcases hr with rfl | rfl
    · rw [sinWiQueueGetItems, getSection_some hq]
      exact .inr ⟨by simp, rfl, takeItems_items, _, rfl⟩
    · have hq' : ({ queue with nwait := queue.nwait - 1 } : SinWiQueue P).head = some wi := hq
      rw [sinWiQueueGetItemsWake, wakeSection_some hq, getSection_some hq']
      refine .inr ⟨by simp, ?_⟩
      cases hl : lst.head <;> simp [getItemsTake, takeItems, hl, SinWiQueue.items, SinList.reset]

end

end Libsinet
