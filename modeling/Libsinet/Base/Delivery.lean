import Libsinet.Base.Pipeline
import Mathlib.Order.Nat

/-!
# Delivery

A pipeline whose sinks go on sending while they have something queued, and
whose sources go on passing items to the queues while some have not got there,
sends every item that arrives.
-/

namespace Pipeline

variable {S : Type u} {K : Type v} {T : Type w} {I : Type x}
variable [DecidableEq S] [DecidableEq K] [DecidableEq T]
variable {N : Routes S K T I} {s s' : State S K T I} {p : ℕ → State S K T I} {k : K}

/-- All that a sink has been given, sent or not. -/
def State.through (s : State S K T I) (t : T) : List I := s.sent t ++ s.queued t

omit [DecidableEq S] [DecidableEq T] in
theorem only_mono {l l' : List I} (h : l <+: l') : N.only k l <+: N.only k l' := h.filter _

theorem Step.arrived (h : Step N s s') (src : S) : s.arrived src <+: s'.arrived src := by
  cases h with
  | arrive src' l hl =>
    rcases eq_or_ne src src' with rfl | hne
    · simp
    · simp [hne]
  | _ => exact List.prefix_rfl

theorem Step.through (h : Step N s s') (t : T) : s.through t <+: s'.through t := by
  cases h with
  | put k =>
    rcases eq_or_ne t (N.sink k) with rfl | hne
    · simp [State.through, ← List.append_assoc]
    · simp [State.through, hne]
  | send t' l l' hq =>
    rcases eq_or_ne t t' with rfl | hne
    · simp [State.through, hq]
    · simp [State.through, hne]
  | _ => exact List.prefix_rfl

/-- What has been sent stays sent. -/
theorem Step.sent (h : Step N s s') (t : T) : s.sent t <+: s'.sent t := by
  cases h with
  | send t' l l' hq =>
    rcases eq_or_ne t t' with rfl | hne
    · simp
    · simp [hne]
  | _ => exact List.prefix_rfl

omit [DecidableEq S] [DecidableEq T] in
theorem Ok.only_through (h : Ok N s) (k : K) :
    N.only k (s.through (N.sink k)) ++ (s.held k ++ N.only k (s.input (N.source k))) =
      N.only k (s.arrived (N.source k)) := by
  rw [← h.flow k]
  simp [State.through, State.onWay]

/-- Some of a key's items have not got to its queue. -/
def State.behind (N : Routes S K T I) (s : State S K T I) (k : K) : Prop :=
  s.held k ++ N.only k (s.input (N.source k)) ≠ []

omit [DecidableEq S] [DecidableEq T] in
theorem Ok.behind_iff (h : Ok N s) :
    s.behind N k ↔ (N.only k (s.through (N.sink k))).length < (N.only k (s.arrived (N.source k))).length := by
  rw [← h.only_through k, List.length_append, State.behind, ← List.length_pos_iff]
  omega

-- ---------------------------------------------------------------------------
-- Traces
-- ---------------------------------------------------------------------------

/-- The states of a pipeline in time, each the one before it or a step on. -/
structure Trace (N : Routes S K T I) (p : ℕ → State S K T I) : Prop where
  ok : ∀ n, Ok N (p n)
  step : ∀ n, p (n + 1) = p n ∨ Step N (p n) (p (n + 1))

theorem Trace.since (h : Trace N p) {f : State S K T I → List I}
    (hf : ∀ {s s'}, Step N s s' → f s <+: f s') {n m : ℕ} (hnm : n ≤ m) : f (p n) <+: f (p m) := by
  induction hnm with
  | refl => exact List.prefix_rfl
  | @step m _ ih =>
    rcases h.step m with he | hs
    · exact he.symm ▸ ih
    · exact ih.trans (hf hs)

/-- A count that grows as long as it is below `v` gets there. -/
theorem exists_ge_of_grows {f : ℕ → ℕ} {v n : ℕ}
    (h : ∀ m, n ≤ m → f m < v → ∃ l, m ≤ l ∧ f m < f l) : ∃ m, n ≤ m ∧ v ≤ f m := by
  suffices hgap : ∀ gap m, n ≤ m → v - f m = gap → ∃ l, n ≤ l ∧ v ≤ f l from hgap _ n le_rfl rfl
  intro gap
  induction gap using Nat.strongRecOn with
  | ind gap ih =>
    intro m hnm hgap
    rcases Nat.lt_or_ge (f m) v with hlt | hge
    · obtain ⟨l, hml, hl⟩ := h m hnm hlt
      exact ih (v - f l) (by omega) l (hnm.trans hml) rfl
    · exact ⟨m, hnm, hge⟩

/-- What has arrived is sent at last, each key's items in order. -/
theorem Trace.delivered (h : Trace N p)
    (hpass : ∀ k n, (p n).behind N k → ∃ m, n ≤ m ∧
      (N.only k ((p n).through (N.sink k))).length < (N.only k ((p m).through (N.sink k))).length)
    (hsend : ∀ t n, (p n).queued t ≠ [] → ∃ m, n ≤ m ∧ ((p n).sent t).length < ((p m).sent t).length)
    (k : K) (n : ℕ) :
    ∃ m, n ≤ m ∧ N.only k ((p n).arrived (N.source k)) <+: N.only k ((p m).sent (N.sink k)) := by
  have harrived : ∀ {m}, n ≤ m →
      N.only k ((p n).arrived (N.source k)) <+: N.only k ((p m).arrived (N.source k)) :=
    fun hnm => h.since (f := fun s => N.only k (s.arrived (N.source k))) (fun hs => only_mono (hs.arrived _)) hnm
  -- first all of it gets to the queue
  obtain ⟨n₁, hn₁, hpassed⟩ := exists_ge_of_grows (n := n)
    (f := fun m => (N.only k ((p m).through (N.sink k))).length)
    (v := (N.only k ((p n).arrived (N.source k))).length) fun m hnm hlt =>
      hpass k m ((h.ok m).behind_iff.mpr (hlt.trans_le (harrived hnm).length_le))
  -- then the queue is sent up to there
  have hthrough : ∀ {m}, n₁ ≤ m → (p n₁).through (N.sink k) <+: (p m).through (N.sink k) :=
    fun hnm => h.since (f := fun s => s.through (N.sink k)) (fun hs => hs.through _) hnm
  obtain ⟨m, hm, hsent⟩ := exists_ge_of_grows (n := n₁) (f := fun m => ((p m).sent (N.sink k)).length)
    (v := ((p n₁).through (N.sink k)).length) fun m hnm hlt => hsend _ m fun he => by
      have hle := (hthrough hnm).length_le
      simp only [State.through, List.length_append, he, List.length_nil] at hle hlt
      omega
  refine ⟨m, hn₁.trans hm, ?_⟩
  have hpre : (p n₁).through (N.sink k) <+: (p m).sent (N.sink k) :=
    List.prefix_of_prefix_length_le (hthrough hm) (List.prefix_append _ _) hsent
  have hflow : N.only k ((p m).sent (N.sink k)) <+: N.only k ((p m).arrived (N.source k)) := by
    rw [← (h.ok m).flow k]
    exact List.prefix_append _ _
  exact List.prefix_of_prefix_length_le (harrived (hn₁.trans hm)) hflow
    (hpassed.trans (only_mono hpre).length_le)

end Pipeline
