import Libsinet.WiQueue

/-!
# Queues, one item at a time

The bulk operations of `sin_wi_queue.c` against loops over the single ones. Each
step of such a loop leaves the rest of the bulk operation to be done, so the two
agree by induction on the items; the batch of no items is no such loop's result.
-/

namespace Libsinet.WiQueue

variable {P : Type u} [DecidableEq P]

/-- `sin_wi_queue_put_item` with `maxqlen` 0 for the nodes of a list, each taken
off it before. -/
def putEach (m : Links P) (queue : SinWiQueue P) : List P → Links P × SinWiQueue P
  | [] => (m, queue)
  | wi :: l =>
    let put := sinWiQueuePutItem m queue wi 0
    putEach put.links put.queue l

/-- At most `n` rounds of `sin_wi_queue_get_item` with `waitok` 0, up to the one
that returns NULL. -/
def getEach (m : Links P) (queue : SinWiQueue P) (lst : SinList P) :
    Nat → Option (Links P × SinWiQueue P × SinList P)
  | 0 => none
  | n + 1 =>
    let get := sinWiQueueGetItem m queue false
    match get.ret with
    | .returns (some wi) =>
      let a := sinListAppend get.links lst wi
      getEach a.1 get.queue a.2 n
    | .returns none => some (get.links, get.queue, lst)
    | .waits => none

def PutAgrees (m : Links P) (queue : SinWiQueue P) (lst : SinList P) : Prop :=
  let put := sinWiQueuePutItems m lst queue
  putEach m queue (lst.nodes m) = (put.links, put.queue)

/-- With enough rounds for all items. -/
def GetAgrees (m : Links P) (queue : SinWiQueue P) (lst : SinList P) : Prop :=
  let get := sinWiQueueGetItems m queue lst false
  ∃ got count, get.ret = .returns (got, count) ∧
    ∀ n, queue.length.toNat < n → getEach m queue lst n = some (get.links, get.queue, got)

variable {m : Links P} {queue : SinWiQueue P} {lst : SinList P} {c l : List P} {p q : P}

-- ---------------------------------------------------------------------------
-- Putting
-- ---------------------------------------------------------------------------

def ofNodes (l : List P) : SinList P := ⟨l.head?, l.getLast?, .ofNat 32 l.length⟩

omit [DecidableEq P] in
theorem ofNodes_cons_len (n : BitVec 32) (p : P) (l : List P) :
    n + (ofNodes (p :: l)).len = n + 1 + (ofNodes l).len := by
  have hone : BitVec.ofNat 32 (l.length + 1) = 1 + BitVec.ofNat 32 l.length := by
    rw [Nat.add_comm, BitVec.ofNat_add]
    rfl
  rw [ofNodes, List.length_cons, hone, ← BitVec.add_assoc]
  rfl

omit [DecidableEq P] in
theorem eq_ofNodes (h : lst.Spans m l) : lst = ofNodes l := by
  obtain ⟨head, tail, len⟩ := lst
  obtain ⟨hchain, rfl, rfl⟩ := h
  rw [ofNodes, ← hchain.head_eq]

theorem putItem_none (h : queue.head = none) : sinWiQueuePutItem m queue p 0 =
    ⟨Function.update m p none, { queue with head := some p, tail := some p, length := queue.length + 1 }, 0,
      queue.notifies⟩ := by
  simp [sinWiQueuePutItem, h]

theorem putItem_some (h : queue.head ≠ none) (ht : queue.tail = some q) : sinWiQueuePutItem m queue p 0 =
    ⟨Function.update (Function.update m p none) q (some p),
      { queue with tail := some p, length := queue.length + 1 }, 0, queue.notifies⟩ := by
  obtain ⟨hd, hh⟩ := Option.ne_none_iff_exists'.mp h
  simp [sinWiQueuePutItem, hh, ht, linkAt]

theorem putItems_none (h : queue.head = none) : sinWiQueuePutItems m lst queue =
    ⟨m, { queue with head := lst.head, tail := lst.tail, length := lst.len }, (), queue.notifies⟩ := by
  simp [sinWiQueuePutItems, h]

theorem putItems_some (h : queue.head ≠ none) (ht : queue.tail = some q) : sinWiQueuePutItems m lst queue =
    ⟨Function.update m q lst.head, { queue with tail := lst.tail, length := queue.length + lst.len }, (),
      queue.notifies⟩ := by
  obtain ⟨hd, hh⟩ := Option.ne_none_iff_exists'.mp h
  simp [sinWiQueuePutItems, hh, ht, linkAt]

omit [DecidableEq P] in
theorem ends (h : queue.items.Spans m c) (hc : c ≠ []) :
    queue.head ≠ none ∧ ∃ t, queue.tail = some t ∧ t ∈ c := by
  obtain ⟨t, htail, ht⟩ := h.last hc
  exact ⟨mt h.head_none_iff.mp hc, t, htail, List.mem_of_getLast? ht⟩

theorem putItems_cons (h : queue.items.Spans m c) (hp : p ∉ c) (hl : l ≠ []) (hnext : m p = l.head?) :
    sinWiQueuePutItems m (ofNodes (p :: l)) queue =
      sinWiQueuePutItems (sinWiQueuePutItem m queue p 0).links (ofNodes l) (sinWiQueuePutItem m queue p 0).queue := by
  have hlast : (p :: l).getLast? = l.getLast? := List.getLast?_cons_of_ne_nil hl
  rcases eq_or_ne c [] with rfl | hc
  · have hhead : queue.head = none := h.head_none_iff.mpr rfl
    have hlen : queue.length = 0 := h.len
    rw [putItem_none hhead, putItems_none hhead, putItems_some (q := p) (by simp) rfl]
    have hcount : (ofNodes (p :: l)).len = queue.length + 1 + (ofNodes l).len := by
      rw [← ofNodes_cons_len, hlen]
      exact (BitVec.zero_add _).symm
    rw [hcount]
    simp only [ofNodes, ← hnext, hlast, Function.update_idem, Function.update_eq_self]
    rfl
  · obtain ⟨hhead, t, htail, ht⟩ := ends h hc
    have hne : t ≠ p := ne_of_mem_of_not_mem ht hp
    have hback : Function.update (Function.update (Function.update m p none) t (some p)) p (m p) =
        Function.update m t (some p) := by
      rw [Function.update_comm hne, Function.update_idem, Function.update_eq_self]
    rw [putItem_some hhead htail, putItems_some hhead htail, putItems_some (q := p) (by exact hhead) rfl]
    rw [ofNodes_cons_len]
    simp only [ofNodes, ← hnext, hlast, hback, List.head?_cons]
    rfl

theorem putEach_eq (h : queue.items.Spans m c) (hl : Linked m l.head? l) (hd : ∀ p ∈ c, p ∉ l) (hne : l ≠ []) :
    putEach m queue l =
      ((sinWiQueuePutItems m (ofNodes l) queue).links, (sinWiQueuePutItems m (ofNodes l) queue).queue) := by
  induction l generalizing m queue c with
  | nil => exact absurd rfl hne
  | cons p l ih =>
    have hp : p ∉ c := fun hmem => hd p hmem List.mem_cons_self
    obtain ⟨hpl, -⟩ := List.nodup_cons.mp hl.nodup
    have haccept : ¬ Refuses queue 0 := fun hr => absurd hr.1 (lt_irrefl 0)
    rcases eq_or_ne l [] with rfl | hl'
    · have hend : m p = none := hl.2
      have hsame : Function.update m p none = m := by rw [← hend, Function.update_eq_self]
      rw [putEach, putEach]
      rcases eq_or_ne c [] with rfl | hc
      · have hhead : queue.head = none := h.head_none_iff.mpr rfl
        have hlen : queue.length = 0 := h.len
        rw [putItem_none hhead, putItems_none hhead, hsame, hlen]
        rfl
      · obtain ⟨hhead, t, htail, -⟩ := ends h hc
        rw [putItem_some hhead htail, putItems_some hhead htail, hsame]
        rfl
    · have hframe : ∀ q ∈ l, (sinWiQueuePutItem m queue p 0).links q = m q := by
        intro q hq
        exact sinWiQueuePutItem_frame h hp (fun hmem => hd q hmem (List.mem_cons_of_mem _ hq))
          (ne_of_mem_of_not_mem hq hpl)
      have hrest : Linked m l.head? l := hl.2.head_eq ▸ hl.2
      rw [putItems_cons h hp hl' hl.2.head_eq, putEach]
      refine ih (sinWiQueuePutItem_spans h hp haccept) (hrest.congr hframe) ?_ hl'
      intro q hq hmem
      rcases List.mem_append.mp hq with hq | hq
      · exact hd q hq (List.mem_cons_of_mem _ hmem)
      · obtain rfl := List.mem_singleton.mp hq
        exact hpl hmem

-- ---------------------------------------------------------------------------
-- Getting
-- ---------------------------------------------------------------------------

theorem append_none (h : lst.head = none) : sinListAppend m lst p = (m, ⟨some p, some p, lst.len + 1⟩) := by
  simp [sinListAppend, h]

theorem append_some (h : lst.head ≠ none) (ht : lst.tail = some q) :
    sinListAppend m lst p = (Function.update m q (some p), ⟨lst.head, some p, lst.len + 1⟩) := by
  obtain ⟨hd, hh⟩ := Option.ne_none_iff_exists'.mp h
  simp [sinListAppend, hh, ht, linkAt]

def getOne (m : Links P) (queue : SinWiQueue P) (lst : SinList P) (wi : P) :
    Links P × SinWiQueue P × SinList P :=
  let got := takeItem m queue wi
  let a := sinListAppend got.1 lst wi
  (a.1, got.2, a.2)

theorem getEach_none (h : queue.head = none) : getEach m queue lst (n + 1) = some (m, queue, lst) := by
  simp [getEach, sinWiQueueGetItem, getSection, h]

theorem getEach_some (h : queue.head = some p) :
    getEach m queue lst (n + 1) =
      getEach (getOne m queue lst p).1 (getOne m queue lst p).2.1 (getOne m queue lst p).2.2 n := by
  simp [getEach, sinWiQueueGetItem, getSection, h, getItemTake, getOne]

/-- What a take of everything leaves: the links, the emptied queue and the list. -/
def taken (m : Links P) (queue : SinWiQueue P) (lst : SinList P) : Links P × SinWiQueue P × SinList P :=
  let t := takeItems m queue lst
  (t.1, t.2.1, t.2.2.1)

theorem taken_none (h : lst.head = none) :
    taken m queue lst = (m, ⟨none, none, queue.nwait, 0⟩, queue.items) := by
  simp [taken, takeItems, h, SinWiQueue.items]

theorem taken_some (h : lst.head ≠ none) (ht : lst.tail = some q) :
    taken m queue lst = (Function.update m q queue.head, ⟨none, none, queue.nwait, 0⟩,
      ⟨lst.head, queue.tail, lst.len + queue.length⟩) := by
  obtain ⟨hd, hh⟩ := Option.ne_none_iff_exists'.mp h
  simp [taken, takeItems, hh, ht, linkAt]

theorem add_pred (n k : BitVec 32) : n + 1 + (k - 1) = n + k := by
  rw [BitVec.add_assoc, BitVec.add_comm 1, BitVec.sub_add_cancel]

theorem taken_cons (h : queue.items.Spans m (p :: c)) (hl : lst.Spans m l) (hp : p ∉ l) (hc : c ≠ []) :
    taken m queue lst =
      taken (getOne m queue lst p).1 (getOne m queue lst p).2.1 (getOne m queue lst p).2.2 := by
  have hhead : queue.head = some p := h.chain.1
  have hnext : m p ≠ none := mt h.chain.2.none_iff.mp hc
  rcases eq_or_ne l [] with rfl | hl'
  · have hnone : lst.head = none := hl.head_none_iff.mpr rfl
    have hlen' : lst.len = 0 := hl.len
    simp only [getOne, append_none hnone]
    rw [taken_none hnone, taken_some (q := p) (by simp) rfl]
    simp only [takeItem, if_neg hnext, hlen', Function.update_idem, Function.update_eq_self, ← hhead]
    rw [add_pred, show 0 + queue.length = queue.length from BitVec.zero_add _]
    rfl
  · obtain ⟨t, htail, ht⟩ := hl.last hl'
    have hsome : lst.head ≠ none := mt hl.head_none_iff.mp hl'
    have hne : t ≠ p := ne_of_mem_of_not_mem (List.mem_of_getLast? ht) hp
    have hback : Function.update (Function.update (Function.update m p none) t (some p)) p (m p) =
        Function.update m t (some p) := by
      rw [Function.update_comm hne, Function.update_idem, Function.update_eq_self]
    simp only [getOne, append_some hsome htail]
    rw [taken_some hsome htail, taken_some (q := p) (by exact hsome) rfl]
    simp only [takeItem, if_neg hnext, hback, hhead]
    rw [add_pred]

theorem taken_last (h : queue.items.Spans m [p]) (hl : lst.Spans m l) :
    taken m queue lst = getOne m queue lst p := by
  have hhead : queue.head = some p := h.chain.1
  have hend : m p = none := h.chain.2
  have htail : queue.tail = some p := h.tail
  have hlen : queue.length = 1 := h.len
  have hsame : Function.update m p none = m := by rw [← hend, Function.update_eq_self]
  rcases eq_or_ne l [] with rfl | hl'
  · have hnone : lst.head = none := hl.head_none_iff.mpr rfl
    have hlen' : lst.len = 0 := hl.len
    rw [taken_none hnone, getOne, append_none hnone]
    simp [takeItem, hend, hsame, hlen, hlen', SinWiQueue.items, hhead, htail]
  · obtain ⟨t, htail', -⟩ := hl.last hl'
    have hsome : lst.head ≠ none := mt hl.head_none_iff.mp hl'
    rw [taken_some hsome htail', getOne, append_some hsome htail']
    simp [takeItem, hend, hsame, hlen, hhead, htail]

theorem getOne_spans (h : queue.items.Spans m (p :: c)) (hl : lst.Spans m l) (hd : ∀ q ∈ p :: c, q ∉ l) :
    (getOne m queue lst p).2.1.items.Spans (getOne m queue lst p).1 c ∧
      (getOne m queue lst p).2.2.Spans (getOne m queue lst p).1 (l ++ [p]) := by
  have hp : p ∉ l := hd p List.mem_cons_self
  have hkeep : lst.Spans (takeItem m queue p).1 l :=
    hl.congr fun q hq => takeItem_frame (ne_of_mem_of_not_mem hq hp)
  constructor
  · refine (takeItem_spans h).congr fun q hq => ?_
    exact sinListAppend_frame hkeep (hd q (List.mem_cons_of_mem _ hq))
  · exact sinListAppend_spans hkeep (takeItem_link m queue p) hp

theorem getEach_eq (h : queue.items.Spans m c) (hl : lst.Spans m l) (hd : ∀ p ∈ c, p ∉ l) (hne : c ≠ [])
    (hn : c.length < n) : getEach m queue lst n = some (taken m queue lst) := by
  induction c generalizing m queue lst l n with
  | nil => exact absurd rfl hne
  | cons p c ih =>
    obtain ⟨n, rfl⟩ := Nat.exists_eq_succ_of_ne_zero (Nat.ne_zero_of_lt hn)
    have hn : c.length < n := Nat.lt_of_succ_lt_succ hn
    obtain ⟨hqueue, hlst⟩ := getOne_spans h hl hd
    rw [Nat.succ_eq_add_one, getEach_some h.chain.1]
    rcases eq_or_ne c [] with rfl | hc
    · obtain ⟨n, rfl⟩ := Nat.exists_eq_succ_of_ne_zero (Nat.ne_zero_of_lt hn)
      rw [Nat.succ_eq_add_one, getEach_none (hqueue.head_none_iff.mpr rfl), taken_last h hl]
    · rw [taken_cons h hl (hd p List.mem_cons_self) hc]
      refine ih hqueue hlst (fun q hq hmem => ?_) hc hn
      rcases List.mem_append.mp hmem with hmem | hmem
      · exact hd q (List.mem_cons_of_mem _ hq) hmem
      · obtain rfl := List.mem_singleton.mp hmem
        exact (List.nodup_cons.mp h.chain.nodup).1 hq

-- ---------------------------------------------------------------------------
-- Both
-- ---------------------------------------------------------------------------

theorem getItems_agree (h : queue.items.Holds m c) (hl : lst.Holds m l) (hd : ∀ p ∈ c, p ∉ l) :
    GetAgrees m queue lst := by
  unfold GetAgrees
  rcases eq_or_ne c [] with rfl | hc
  · have hhead : queue.head = none := h.head_none_iff.mpr rfl
    refine ⟨lst, 0, by simp [sinWiQueueGetItems, getSection, hhead], fun n hn => ?_⟩
    obtain ⟨n, rfl⟩ := Nat.exists_eq_succ_of_ne_zero (Nat.ne_zero_of_lt hn)
    rw [Nat.succ_eq_add_one, getEach_none hhead]
    simp [sinWiQueueGetItems, getSection, hhead]
  · obtain ⟨p, hhead⟩ := Option.ne_none_iff_exists'.mp (ends h.toSpans hc).1
    rw [sinWiQueueGetItems, getSection_some hhead]
    refine ⟨_, _, rfl, fun n hn => getEach_eq h.toSpans hl.toSpans hd hc ?_⟩
    have hlen : queue.length.toNat = c.length := h.len_toNat
    rwa [← hlen]

theorem putItems_agree (h : queue.items.Holds m c) (hl : lst.Holds m l) (hd : ∀ p ∈ c, p ∉ l) :
    PutAgrees m queue lst ↔ l ≠ [] ∨ c = [] := by
  rw [PutAgrees, hl.nodes_eq, eq_ofNodes hl.toSpans]
  rcases eq_or_ne l [] with rfl | hne
  · rcases eq_or_ne c [] with rfl | hc
    · have hreset := h.eq_reset
      obtain ⟨head, tail, nwait, length⟩ := queue
      obtain ⟨rfl, rfl, rfl⟩ : head = none ∧ tail = none ∧ length = 0 := by
        simpa [SinWiQueue.items, SinList.reset] using hreset
      simp [putEach, sinWiQueuePutItems, ofNodes]
    · obtain ⟨hhead, t, htail, -⟩ := ends h.toSpans hc
      -- the tail of the empty list becomes that of the queue
      have htails : queue.tail ≠ (sinWiQueuePutItems m (ofNodes []) queue).queue.tail := by
        rw [putItems_some hhead htail, htail]
        exact Option.some_ne_none t
      simp only [hc, ne_eq, not_true_eq_false, or_self, iff_false]
      exact fun he => htails (congrArg (fun r => r.2.tail) he)
  · have hchain : Linked m l.head? l := hl.chain.head_eq ▸ hl.chain
    simp [putEach_eq h.toSpans hchain hd hne, hne]

/-- A batch of no items put to a queue with items takes the queue's tail away;
in all other cases the bulk operations do what the loops do. -/
theorem bulk_agree (h : queue.items.Holds m c) (hl : lst.Holds m l) (hd : ∀ p ∈ c, p ∉ l) :
    PutAgrees m queue lst ∧ GetAgrees m queue lst ↔ l ≠ [] ∨ c = [] := by
  rw [← putItems_agree h hl hd]
  exact and_iff_left (getItems_agree h hl hd)

def oneItem (a : P) : SinWiQueue P := ⟨some a, some a, 0, 1⟩

theorem bulk_agree_two :
    PutAgrees (fun _ : Bool => none) (oneItem false) ⟨some true, some true, 1⟩ ∧
        GetAgrees (fun _ : Bool => none) (oneItem false) ⟨some true, some true, 1⟩ ↔
      [true] ≠ [] ∨ [false] = [] :=
  bulk_agree (by decide) (by decide) (by decide)

theorem emptyBatch_loses_tail :
    (oneItem ()).items.Holds (fun _ => none) [()] ∧ (.reset : SinList Unit).Holds (fun _ => none) [] ∧
      (putEach (fun _ => none) (oneItem ()) []).2.tail = some () ∧
      (sinWiQueuePutItems (fun _ => none) .reset (oneItem ())).queue.tail = none :=
  ⟨by decide, by decide, rfl, rfl⟩

end Libsinet.WiQueue
