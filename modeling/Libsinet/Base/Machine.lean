import Mathlib.Logic.Relation

/-!
# Machines

A machine is a set of start states and a labelled step relation. A label names
the party that moves and the choices the scheduler or the environment makes
for it. A machine given by a partial step function takes the steps the
function allows, so a list of labels determines a run of it.
-/

structure Machine (σ : Type u) (α : Type v) where
  init : σ → Prop
  step : σ → α → σ → Prop

namespace Machine

variable {σ : Type u} {α : Type v} {τ : Type w} {β : Type x}

def ofFn (init : σ → Prop) (f : σ → α → Option σ) : Machine σ α :=
  ⟨init, fun s a s' => f s a = some s'⟩

-- ---------------------------------------------------------------------------
-- Runs
-- ---------------------------------------------------------------------------

/-- States reached by steps that all meet `ok`, a condition on the state
before the step and on the step taken. -/
inductive ReachableBy (M : Machine σ α) (ok : σ → α → Prop) : σ → Prop
  | init : M.init s → M.ReachableBy ok s
  | step : M.ReachableBy ok s → ok s a → M.step s a s' → M.ReachableBy ok s'

abbrev Reachable (M : Machine σ α) : σ → Prop := M.ReachableBy fun _ _ => True

/-- One step of the machine, whoever takes it. -/
def Next (M : Machine σ α) (s s' : σ) : Prop := ∃ a, M.step s a s'

abbrev Steps (M : Machine σ α) : σ → σ → Prop := Relation.ReflTransGen M.Next

variable {M : Machine σ α}

theorem ReachableBy.mono {ok ok' : σ → α → Prop} (hok : ∀ s a, ok s a → ok' s a)
    (h : M.ReachableBy ok s) : M.ReachableBy ok' s := by
  induction h with
  | init h => exact .init h
  | step _ ha hs ih => exact .step ih (hok _ _ ha) hs

theorem ReachableBy.reachable {ok : σ → α → Prop} (h : M.ReachableBy ok s) : M.Reachable s :=
  h.mono fun _ _ _ => trivial

theorem Reachable.next (h : M.Reachable s) (hs : M.step s a s') : M.Reachable s' :=
  .step h trivial hs

theorem Reachable.steps (h : M.Reachable s) (hs : M.Steps s s') : M.Reachable s' := by
  induction hs with
  | refl => exact h
  | tail _ hb ih =>
    obtain ⟨b, hb⟩ := hb
    exact ih.next hb

def exec (f : σ → α → Option σ) (s : σ) : List α → Option σ
  | [] => some s
  | a :: as => (f s a).bind fun s' => exec f s' as

theorem exec_cons {f : σ → α → Option σ} :
    exec f s (a :: as) = some s' ↔ ∃ m, f s a = some m ∧ exec f m as = some s' := by
  simp [exec, Option.bind_eq_some_iff]

theorem Steps.of_exec {f : σ → α → Option σ} {init : σ → Prop} (he : exec f s as = some s') :
    (ofFn init f).Steps s s' := by
  induction as generalizing s with
  | nil =>
    obtain rfl : s = s' := by simpa [exec] using he
    exact .refl
  | cons a as ih =>
    obtain ⟨m, hm, he⟩ := exec_cons.mp he
    exact .head ⟨a, hm⟩ (ih he)

theorem Reachable.of_exec {f : σ → α → Option σ} {init : σ → Prop} (h : init s)
    (he : exec f s as = some s') : (ofFn init f).Reachable s' :=
  Reachable.steps (.init h) (Steps.of_exec he)

/-- A run tried out: it goes through, and its last state passes the test. -/
theorem Reachable.of_test {init : σ → Prop} (f : σ → α → Option σ) (as : List α) (p : σ → Bool)
    (h : init s) (ht : (exec f s as).any p = true) : ∃ s', (ofFn init f).Reachable s' ∧ p s' = true := by
  obtain ⟨s', he, hp⟩ := (Option.any_eq_true p _).mp ht
  exact ⟨s', of_exec h he, hp⟩

/-- The step function with the steps left out that do not meet `ok`. -/
def guarded (ok : σ → α → Prop) [∀ s a, Decidable (ok s a)] (f : σ → α → Option σ) (s : σ) (a : α) :
    Option σ :=
  if ok s a then f s a else none

/-- Finitely many steps that all meet `ok`. -/
abbrev StepsBy (M : Machine σ α) (ok : σ → α → Prop) : σ → σ → Prop :=
  Relation.ReflTransGen fun s s' => ∃ a, ok s a ∧ M.step s a s'

theorem StepsBy.mono {ok ok' : σ → α → Prop} (hok : ∀ s a, ok s a → ok' s a) (h : M.StepsBy ok s s') :
    M.StepsBy ok' s s' := by
  induction h with
  | refl => exact .refl
  | tail _ hb ih =>
    obtain ⟨b, hb, hs⟩ := hb
    exact ih.tail ⟨b, hok _ _ hb, hs⟩

theorem Steps.stepsBy (h : M.Steps s s') : M.StepsBy (fun _ _ => True) s s' := by
  induction h with
  | refl => exact .refl
  | tail _ hb ih =>
    obtain ⟨b, hb⟩ := hb
    exact ih.tail ⟨b, trivial, hb⟩

theorem ReachableBy.stepsBy {ok : σ → α → Prop} (h : M.ReachableBy ok s) (hs : M.StepsBy ok s s') :
    M.ReachableBy ok s' := by
  induction hs with
  | refl => exact h
  | tail _ hb ih =>
    obtain ⟨b, hok, hb⟩ := hb
    exact .step ih hok hb

theorem StepsBy.of_exec {f : σ → α → Option σ} {init : σ → Prop} {ok : σ → α → Prop}
    [∀ s a, Decidable (ok s a)] (he : exec (guarded ok f) s as = some s') :
    (ofFn init f).StepsBy ok s s' := by
  induction as generalizing s with
  | nil =>
    obtain rfl : s = s' := by simpa [exec] using he
    exact .refl
  | cons a as ih =>
    obtain ⟨m, hm, he⟩ := exec_cons.mp he
    unfold guarded at hm
    split at hm
    · exact .head ⟨a, ‹_›, hm⟩ (ih he)
    · cases hm

theorem ReachableBy.of_test {init : σ → Prop} (f : σ → α → Option σ) (ok : σ → α → Prop)
    [∀ s a, Decidable (ok s a)] (as : List α) (p : σ → Bool) (h : init s)
    (ht : (exec (guarded ok f) s as).any p = true) :
    ∃ s', (ofFn init f).ReachableBy ok s' ∧ p s' = true := by
  obtain ⟨s', he, hp⟩ := (Option.any_eq_true p _).mp ht
  exact ⟨s', (ReachableBy.init h).stepsBy (StepsBy.of_exec he), hp⟩

-- ---------------------------------------------------------------------------
-- Invariants
-- ---------------------------------------------------------------------------

/-- What holds at the start and is kept by every step that meets `ok` holds
in every state reached by such steps. `J` is a fact already known there. -/
theorem ReachableBy.induct {ok : σ → α → Prop} {J I : σ → Prop} (h : M.ReachableBy ok s)
    (hJ : ∀ s, M.ReachableBy ok s → J s) (hinit : ∀ s, M.init s → I s)
    (hstep : ∀ s a s', J s → I s → ok s a → M.step s a s' → I s') : I s := by
  induction h with
  | init h => exact hinit _ h
  | step hr ha hs ih => exact hstep _ _ _ (hJ _ hr) ih ha hs

theorem Reachable.induct {I : σ → Prop} (h : M.Reachable s) (hinit : ∀ s, M.init s → I s)
    (hstep : ∀ s a s', I s → M.step s a s' → I s') : I s :=
  ReachableBy.induct (J := fun _ => True) h (fun _ _ => trivial) hinit
    fun s a s' _ hi _ hs => hstep s a s' hi hs

-- ---------------------------------------------------------------------------
-- Simulation
-- ---------------------------------------------------------------------------

/-- Every start state of `C` is related to one of `A`, and every step of `C`
that meets `okC` is matched by finitely many steps of `A` that meet `okA`. -/
structure Simulation (C : Machine σ α) (okC : σ → α → Prop) (A : Machine τ β)
    (okA : τ → β → Prop) (R : σ → τ → Prop) : Prop where
  init : ∀ s, C.init s → ∃ t, A.init t ∧ R s t
  step : ∀ s a s' t, R s t → okC s a → C.step s a s' → ∃ t', A.StepsBy okA t t' ∧ R s' t'

theorem Simulation.reachable {okC : σ → α → Prop} {A : Machine τ β} {okA : τ → β → Prop}
    {R : σ → τ → Prop} (h : Simulation M okC A okA R) (hs : M.ReachableBy okC s) :
    ∃ t, A.ReachableBy okA t ∧ R s t := by
  induction hs with
  | init hi =>
    obtain ⟨t, ht, hr⟩ := h.init _ hi
    exact ⟨t, .init ht, hr⟩
  | step _ hok hs ih =>
    obtain ⟨t, ht, hr⟩ := ih
    obtain ⟨t', hsteps, hr'⟩ := h.step _ _ _ _ hr hok hs
    exact ⟨t', ht.stepsBy hsteps, hr'⟩

end Machine
