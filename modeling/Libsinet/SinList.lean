import Libsinet.Base.Linked
import Mathlib.Data.BitVec

/-!
# Intrusive lists

`struct sin_list` and `sin_list_append` of `sin_list.h`. The nodes carry their
own link, so the `sin_next` fields of all nodes are one store shared by every
list, and a list is only the record with its head, tail and length.

The length is an `unsigned int`, so it is that of the nodes only up to `2 ^ 32`:
a list `Spans` its nodes however many there are, and `Holds` them if they are
fewer.
-/

namespace Libsinet

/-- The `sin_next` field of every linkable object. -/
abbrev Links (P : Type u) := P → Option P

variable {P : Type u}

structure SinList (P : Type u) where
  head : Option P
  tail : Option P
  len : BitVec 32
  deriving DecidableEq, Repr

def SinList.reset : SinList P := ⟨none, none, 0⟩

def SinList.isEmpty (lst : SinList P) : Bool := lst.len == 0

section
variable [DecidableEq P]

/-- The store `a->sin_next = np`. Through NULL it has no meaning in C; no list
that holds its nodes does that, and the model leaves the links alone. -/
def linkAt (m : Links P) (a np : Option P) : Links P :=
  match a with
  | some p => Function.update m p np
  | none => m

def sinListAppend (m : Links P) (lst : SinList P) (elem : P) : Links P × SinList P :=
  match lst.head with
  | none => (m, ⟨some elem, some elem, lst.len + 1⟩)
  | some _ => (linkAt m lst.tail (some elem), ⟨lst.head, some elem, lst.len + 1⟩)

/-- The `SIN_DEBUG_ASSERT` on the element's link in `sin_list_append`. -/
def SinListAppendAssert (m : Links P) (elem : P) : Prop := m elem = none

/-- The list `b` hung behind the list `a` in constant time. Both bulk
operations of `sin_wi_queue.c` do this to their two lists. -/
def splice (m : Links P) (a b : SinList P) : Links P × SinList P :=
  match a.head with
  | none => (m, b)
  | some _ => (linkAt m a.tail b.head, ⟨a.head, b.tail, a.len + b.len⟩)

end

-- ---------------------------------------------------------------------------
-- What a list holds
-- ---------------------------------------------------------------------------

/-- The list is NULL terminated, its nodes are those of `l` in order, its tail
is the last of them and its length counts them, if need be from 0 again. -/
structure SinList.Spans (m : Links P) (lst : SinList P) (l : List P) : Prop where
  chain : Linked m lst.head l
  tail : lst.tail = l.getLast?
  len : lst.len = BitVec.ofNat 32 l.length

/-- The list is well formed: its length is the number of its nodes. -/
structure SinList.Holds (m : Links P) (lst : SinList P) (l : List P) : Prop extends lst.Spans m l where
  fits : l.length < 2 ^ 32

namespace SinList

instance [DecidableEq P] (m : Links P) (lst : SinList P) (l : List P) : Decidable (lst.Holds m l) :=
  decidable_of_iff
    (Linked m lst.head l ∧ lst.tail = l.getLast? ∧ lst.len = BitVec.ofNat 32 l.length ∧ l.length < 2 ^ 32)
    ⟨fun ⟨h, ht, hn, hf⟩ => ⟨⟨h, ht, hn⟩, hf⟩, fun ⟨⟨h, ht, hn⟩, hf⟩ => ⟨h, ht, hn, hf⟩⟩

/-- The nodes a walk along the list finds. -/
def nodes (m : Links P) (lst : SinList P) : List P := Linked.walk m lst.len.toNat lst.head

@[simp] theorem head_reset : (reset : SinList P).head = none := rfl
@[simp] theorem tail_reset : (reset : SinList P).tail = none := rfl
@[simp] theorem len_reset : (reset : SinList P).len = 0 := rfl

theorem reset_holds (m : Links P) : (reset : SinList P).Holds m [] := ⟨⟨rfl, rfl, rfl⟩, by simp⟩

variable {m : Links P} {lst : SinList P} {l : List P}

namespace Spans

theorem congr {m' : Links P} (h : lst.Spans m l) (he : ∀ p ∈ l, m' p = m p) : lst.Spans m' l :=
  ⟨h.chain.congr he, h.tail, h.len⟩

theorem head_none_iff (h : lst.Spans m l) : lst.head = none ↔ l = [] := h.chain.none_iff

theorem tail_none_iff (h : lst.Spans m l) : lst.tail = none ↔ l = [] := by
  rw [h.tail, List.getLast?_eq_none_iff]

theorem eq_reset (h : lst.Spans m []) : lst = reset := by
  obtain ⟨hd, tl, n⟩ := lst
  obtain ⟨rfl, rfl, rfl⟩ := h
  rfl

theorem last (h : lst.Spans m l) (hne : l ≠ []) : ∃ t, lst.tail = some t ∧ t ∈ l.getLast? := by
  rw [h.tail]
  exact ⟨l.getLast hne, List.getLast?_eq_some_getLast hne, List.getLast?_eq_some_getLast hne⟩

end Spans

namespace Holds

theorem congr {m' : Links P} (h : lst.Holds m l) (he : ∀ p ∈ l, m' p = m p) : lst.Holds m' l :=
  ⟨h.toSpans.congr he, h.fits⟩

theorem unique (h : lst.Holds m l) (h' : lst.Holds m l') : l = l' := h.chain.unique h'.chain

theorem len_toNat (h : lst.Holds m l) : lst.len.toNat = l.length := by
  rw [h.len, BitVec.toNat_ofNat, Nat.mod_eq_of_lt h.fits]

theorem nodes_eq (h : lst.Holds m l) : lst.nodes m = l := h.chain.walk_eq h.len_toNat.ge

theorem len_zero_iff (h : lst.Holds m l) : lst.len = 0 ↔ l = [] := by
  rw [← List.length_eq_zero_iff, ← h.len_toNat]
  exact BitVec.toNat_inj.symm

theorem isEmpty_iff (h : lst.Holds m l) : lst.isEmpty = true ↔ l = [] := by
  rw [SinList.isEmpty, beq_iff_eq, h.len_zero_iff]

end Holds

end SinList

-- ---------------------------------------------------------------------------
-- sin_list_append
-- ---------------------------------------------------------------------------

section
variable [DecidableEq P] {m : Links P} {lst : SinList P} {l : List P} {p : P}

theorem sinListAppend_nil (h : lst.Spans m []) :
    sinListAppend m lst p = (m, ⟨some p, some p, 1⟩) := by
  simp [sinListAppend, h.eq_reset]

theorem sinListAppend_of_last (h : lst.Spans m l) (hne : l ≠ []) (ht : t ∈ l.getLast?) :
    sinListAppend m lst p = (Function.update m t (some p), ⟨lst.head, some p, lst.len + 1⟩) := by
  obtain ⟨hd, hhd⟩ := Option.ne_none_iff_exists'.mp (mt h.head_none_iff.mp hne)
  have htail : lst.tail = some t := h.tail.trans ht
  simp [sinListAppend, hhd, htail, linkAt]

theorem sinListAppend_spans (h : lst.Spans m l) (hp : SinListAppendAssert m p) (hl : p ∉ l) :
    (sinListAppend m lst p).2.Spans (sinListAppend m lst p).1 (l ++ [p]) := by
  by_cases hne : l = []
  · subst hne
    rw [sinListAppend_nil h]
    exact ⟨⟨rfl, hp⟩, rfl, rfl⟩
  · obtain ⟨t, -, ht⟩ := h.last hne
    rw [sinListAppend_of_last h hne ht]
    refine ⟨h.chain.concat ht hp hl, by simp, ?_⟩
    rw [List.length_append, BitVec.ofNat_add, ← h.len]
    rfl

theorem sinListAppend_holds (h : lst.Holds m l) (hp : SinListAppendAssert m p) (hl : p ∉ l)
    (hfits : (l ++ [p]).length < 2 ^ 32) :
    (sinListAppend m lst p).2.Holds (sinListAppend m lst p).1 (l ++ [p]) :=
  ⟨sinListAppend_spans h.toSpans hp hl, hfits⟩

/-- Only the old last node's link is written. -/
theorem sinListAppend_frame (h : lst.Spans m l) (hq : q ∉ l) :
    (sinListAppend m lst p).1 q = m q := by
  by_cases hne : l = []
  · subst hne
    rw [sinListAppend_nil h]
  · obtain ⟨t, -, ht⟩ := h.last hne
    rw [sinListAppend_of_last h hne ht]
    exact Function.update_of_ne (ne_of_mem_of_not_mem (List.mem_of_getLast? ht) hq).symm _ _

-- ---------------------------------------------------------------------------
-- Splicing
-- ---------------------------------------------------------------------------

variable {a b : SinList P} {k : List P}

theorem splice_nil (h : a.Spans m []) : splice m a b = (m, b) := by
  simp [splice, h.eq_reset]

theorem splice_of_last (h : a.Spans m l) (hne : l ≠ []) (ht : t ∈ l.getLast?) :
    splice m a b = (Function.update m t b.head, ⟨a.head, b.tail, a.len + b.len⟩) := by
  obtain ⟨hd, hhd⟩ := Option.ne_none_iff_exists'.mp (mt h.head_none_iff.mp hne)
  have htail : a.tail = some t := h.tail.trans ht
  simp [splice, hhd, htail, linkAt]

/-- The second list must not be empty: its NULL tail would become the tail of
a list with nodes. -/
theorem splice_spans (ha : a.Spans m l) (hb : b.Spans m k) (hd : ∀ p ∈ l, p ∉ k) (hk : k ≠ []) :
    (splice m a b).2.Spans (splice m a b).1 (l ++ k) := by
  by_cases hne : l = []
  · subst hne
    rwa [splice_nil ha]
  · obtain ⟨t, -, ht⟩ := ha.last hne
    rw [splice_of_last ha hne ht]
    refine ⟨ha.chain.splice ht hb.chain hd, ?_, ?_⟩
    · rw [hb.tail, List.getLast?_append_of_ne_nil _ hk]
    · rw [List.length_append, BitVec.ofNat_add, ← ha.len, ← hb.len]

theorem splice_holds (ha : a.Holds m l) (hb : b.Holds m k) (hd : ∀ p ∈ l, p ∉ k) (hk : k ≠ [])
    (hfits : (l ++ k).length < 2 ^ 32) : (splice m a b).2.Holds (splice m a b).1 (l ++ k) :=
  ⟨splice_spans ha.toSpans hb.toSpans hd hk, hfits⟩

theorem splice_frame (h : a.Spans m l) (hq : q ∉ l) : (splice m a b).1 q = m q := by
  by_cases hne : l = []
  · subst hne
    rw [splice_nil h]
  · obtain ⟨t, -, ht⟩ := h.last hne
    rw [splice_of_last h hne ht]
    exact Function.update_of_ne (ne_of_mem_of_not_mem (List.mem_of_getLast? ht) hq).symm _ _

end

end Libsinet
