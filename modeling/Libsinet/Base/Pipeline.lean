import Libsinet.Base.Machine
import Mathlib.Data.List.Basic

/-!
# Sorting pipelines

Items arrive at sources, each source sorts its items by key onto a list per
key, a key's list goes to the queue of its sink as a whole, and a sink sends
from the front of its queue. A key belongs to one source and one sink, but
sinks take from many keys, so what one key's items do in a queue is seen only
among themselves.
-/

namespace Pipeline

open Machine

structure State (S : Type u) (K : Type v) (T : Type w) (I : Type x) where
  arrived : S → List I
  input : S → List I
  held : K → List I
  queued : T → List I
  sent : T → List I

/-- How items are sorted. -/
structure Routes (S : Type u) (K : Type v) (T : Type w) (I : Type x) where
  key : I → K
  source : K → S
  sink : K → T

variable {S : Type u} {K : Type v} {T : Type w} {I : Type x}

def Routes.only [DecidableEq K] (N : Routes S K T I) (k : K) (l : List I) : List I :=
  l.filter fun i => N.key i = k

section
variable [DecidableEq K] {N : Routes S K T I} {k : K} {l l' : List I}

@[simp] theorem only_nil : N.only k [] = [] := rfl

@[simp] theorem only_append : N.only k (l ++ l') = N.only k l ++ N.only k l' := List.filter_append ..

theorem only_self (h : ∀ i ∈ l, N.key i = k) : N.only k l = l :=
  List.filter_eq_self.mpr fun i hi => by simpa using h i hi

theorem only_other (h : ∀ i ∈ l, N.key i ≠ k) : N.only k l = [] :=
  List.filter_eq_nil_iff.mpr fun i hi => by simpa using h i hi

theorem only_cons_self (h : N.key i = k) : N.only k (i :: l) = i :: N.only k l :=
  List.filter_cons_of_pos (by simpa using h)

theorem only_cons_other (h : N.key i ≠ k) : N.only k (i :: l) = N.only k l :=
  List.filter_cons_of_neg (by simpa using h)

end

variable [DecidableEq S] [DecidableEq K] [DecidableEq T]

inductive Step (N : Routes S K T I) (s : State S K T I) : State S K T I → Prop
  | arrive (src : S) (l : List I) (h : ∀ i ∈ l, N.source (N.key i) = src) :
      Step N s { s with
        arrived := Function.update s.arrived src (s.arrived src ++ l)
        input := Function.update s.input src (s.input src ++ l) }
  | sort (src : S) (i : I) (l : List I) (h : s.input src = i :: l) :
      Step N s { s with
        input := Function.update s.input src l
        held := Function.update s.held (N.key i) (s.held (N.key i) ++ [i]) }
  | put (k : K) :
      Step N s { s with
        held := Function.update s.held k []
        queued := Function.update s.queued (N.sink k) (s.queued (N.sink k) ++ s.held k) }
  | send (t : T) (l l' : List I) (h : s.queued t = l ++ l') :
      Step N s { s with
        queued := Function.update s.queued t l'
        sent := Function.update s.sent t (s.sent t ++ l) }

def Start (N : Routes S K T I) (s : State S K T I) : Prop :=
  s.input = s.arrived ∧ (∀ src, ∀ i ∈ s.arrived src, N.source (N.key i) = src) ∧
    (∀ k, s.held k = []) ∧ (∀ t, s.queued t = []) ∧ ∀ t, s.sent t = []

def machine (N : Routes S K T I) : Machine (State S K T I) Unit := ⟨Start N, fun s _ s' => Step N s s'⟩

-- ---------------------------------------------------------------------------
-- The invariant
-- ---------------------------------------------------------------------------

/-- A key's items that are on their way, the oldest first. -/
def State.onWay (N : Routes S K T I) (s : State S K T I) (k : K) : List I :=
  N.only k (s.queued (N.sink k)) ++ s.held k ++ N.only k (s.input (N.source k))

structure Ok (N : Routes S K T I) (s : State S K T I) : Prop where
  input : ∀ src, ∀ i ∈ s.input src, N.source (N.key i) = src
  held : ∀ k, ∀ i ∈ s.held k, N.key i = k
  queued : ∀ t, ∀ i ∈ s.queued t, N.sink (N.key i) = t
  sent : ∀ t, ∀ i ∈ s.sent t, N.sink (N.key i) = t
  flow : ∀ k, N.only k (s.sent (N.sink k)) ++ s.onWay N k = N.only k (s.arrived (N.source k))

variable {N : Routes S K T I} {s s' : State S K T I}

omit [DecidableEq S] [DecidableEq T] in
theorem Ok.of_start (h : Start N s) : Ok N s := by
  obtain ⟨hinput, hkey, hheld, hqueued, hsent⟩ := h
  constructor
  · rw [hinput]
    exact hkey
  all_goals simp [State.onWay, hinput, hheld, hqueued, hsent]

theorem forall_update {A : Type y} [DecidableEq A] {f : A → List I} {p : A → I → Prop} {a : A}
    {l : List I} (h : ∀ b, ∀ i ∈ f b, p b i) (hl : ∀ i ∈ l, p a i) :
    ∀ b, ∀ i ∈ Function.update f a l b, p b i := by
  rw [Function.forall_update_iff f fun b l => ∀ i ∈ l, p b i]
  exact ⟨hl, fun b _ => h b⟩

omit [DecidableEq T] in
theorem Ok.arrive (h : Ok N s) (hl : ∀ i ∈ l, N.source (N.key i) = src) :
    Ok N { s with
      arrived := Function.update s.arrived src (s.arrived src ++ l)
      input := Function.update s.input src (s.input src ++ l) } := by
  refine ⟨forall_update h.input ?_, h.held, h.queued, h.sent, fun k => ?_⟩
  · intro i hi
    exact (List.mem_append.mp hi).elim (h.input src i) (hl i)
  · have hk := h.flow k
    by_cases hs : N.source k = src
    · subst hs
      simp only [State.onWay, Function.update_self, only_append, ← List.append_assoc] at hk ⊢
      rw [hk]
    · simpa [State.onWay, Function.update_of_ne hs] using hk

omit [DecidableEq T] in
theorem Ok.sort (h : Ok N s) (hi : s.input src = i :: l) :
    Ok N { s with
      input := Function.update s.input src l
      held := Function.update s.held (N.key i) (s.held (N.key i) ++ [i]) } := by
  have hsrc : ∀ j ∈ i :: l, N.source (N.key j) = src := hi ▸ h.input src
  refine ⟨forall_update h.input fun j hj => hsrc j (List.mem_cons_of_mem _ hj),
    forall_update h.held ?_, h.queued, h.sent, fun k => ?_⟩
  · simpa [or_imp, forall_and] using h.held (N.key i)
  · have hk := h.flow k
    by_cases hik : N.key i = k
    · have hs : N.source k = src := hik ▸ hsrc i List.mem_cons_self
      subst hs hik
      simpa [State.onWay, hi, only_cons_self] using hk
    · by_cases hs : N.source k = src
      · subst hs
        simpa [State.onWay, hi, only_cons_other hik, Function.update_of_ne (Ne.symm hik)] using hk
      · simpa [State.onWay, Function.update_of_ne hs, Function.update_of_ne (Ne.symm hik)] using hk

omit [DecidableEq S] in
theorem Ok.put (h : Ok N s) (k : K) :
    Ok N { s with
      held := Function.update s.held k []
      queued := Function.update s.queued (N.sink k) (s.queued (N.sink k) ++ s.held k) } := by
  refine ⟨h.input, forall_update h.held (by simp), forall_update h.queued ?_, h.sent, fun k' => ?_⟩
  · intro i hi
    exact (List.mem_append.mp hi).elim (h.queued _ i) fun hi => congrArg N.sink (h.held k i hi)
  · have hk := h.flow k'
    by_cases hkk : k' = k
    · subst hkk
      simpa [State.onWay, only_self (h.held k')] using hk
    · have hother : N.only k' (s.held k) = [] :=
        only_other fun i hi he => hkk (he.symm.trans (h.held k i hi))
      by_cases ht : N.sink k' = N.sink k
      · simpa [State.onWay, ht, hother, Function.update_of_ne hkk] using hk
      · simpa [State.onWay, Function.update_of_ne ht, Function.update_of_ne hkk] using hk

omit [DecidableEq S] in
theorem Ok.send (h : Ok N s) (hq : s.queued t = l ++ l') :
    Ok N { s with
      queued := Function.update s.queued t l'
      sent := Function.update s.sent t (s.sent t ++ l) } := by
  have ht : ∀ i ∈ l ++ l', N.sink (N.key i) = t := hq ▸ h.queued t
  refine ⟨h.input, h.held, forall_update h.queued fun i hi => ht i (List.mem_append_right _ hi),
    forall_update h.sent fun i hi => ?_, fun k => ?_⟩
  · exact (List.mem_append.mp hi).elim (h.sent t i) fun hi => ht i (List.mem_append_left _ hi)
  · have hk := h.flow k
    by_cases hs : N.sink k = t
    · subst hs
      simpa [State.onWay, hq] using hk
    · simpa [State.onWay, Function.update_of_ne hs] using hk

theorem Ok.step (h : Ok N s) (hs : Step N s s') : Ok N s' := by
  cases hs with
  | arrive src l hl => exact h.arrive hl
  | sort src i l hi => exact h.sort hi
  | put k => exact h.put k
  | send t l l' hq => exact h.send hq

theorem ok_of_reachable (h : (machine N).Reachable s) : Ok N s :=
  h.induct (fun _ => Ok.of_start) fun _ _ _ => Ok.step

omit [DecidableEq S] [DecidableEq T] in
theorem Ok.only_sent (h : Ok N s) (hk : N.sink k ≠ t) : N.only k (s.sent t) = [] :=
  only_other fun i hi he => hk (he ▸ h.sent t i hi)

end Pipeline
