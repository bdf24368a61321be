import Mathlib.Tactic.Common
import Mathlib.Data.Nat.Notation

/-!
# Code that jumps to a label when a call fails

A computation on a state either goes on or stops at a label, with the state as
it was left there. A triple says what holds if it goes on and what holds at
each label.
-/

universe u

abbrev Code (L σ : Type u) (α : Type u) := ExceptT L (StateM σ) α

namespace Code

variable {L σ α β : Type u}

def exec (m : Code L σ α) (s : σ) : Except L α × σ := m.run.run s

@[simp] theorem exec_pure (a : α) (s : σ) : (pure a : Code L σ α).exec s = (.ok a, s) := rfl

@[simp] theorem exec_throw (l : L) (s : σ) : (throw l : Code L σ α).exec s = (.error l, s) := rfl

@[simp] theorem exec_modify (f : σ → σ) (s : σ) :
    (modify f : Code L σ PUnit).exec s = (.ok ⟨⟩, f s) := rfl

theorem exec_bind (m : Code L σ α) (f : α → Code L σ β) (s : σ) :
    (m >>= f).exec s = match m.exec s with
      | (.ok a, s') => (f a).exec s'
      | (.error l, s') => (.error l, s') := by
  simp only [exec, ExceptT.run_bind, StateT.run_bind]
  show (match m.run.run s with
    | (r, s') => _) = _
  rcases m.run.run s with ⟨_ | _, _⟩ <;> rfl

/-- The loop over `0, 1, …, n - 1`. -/
def times (f : ℕ → Code L σ PUnit) : ℕ → Code L σ PUnit
  | 0 => pure ⟨⟩
  | n + 1 => do
    times f n
    f n

-- ---------------------------------------------------------------------------
-- Triples
-- ---------------------------------------------------------------------------

def Triple (P : σ → Prop) (m : Code L σ α) (Q : α → σ → Prop) (E : L → σ → Prop) : Prop :=
  ∀ s, P s → match m.exec s with
    | (.ok a, s') => Q a s'
    | (.error l, s') => E l s'

variable {P P' : σ → Prop} {Q Q' : α → σ → Prop} {E : L → σ → Prop}

theorem Triple.bind {m : Code L σ α} {f : α → Code L σ β} {R : β → σ → Prop}
    (hm : Triple P m Q E) (hf : ∀ a, Triple (Q a) (f a) R E) : Triple P (m >>= f) R E := by
  intro s hs
  have h := hm s hs
  rw [exec_bind]
  rcases hx : m.exec s with ⟨_ | a, s'⟩
  · simpa [hx] using h
  · exact hf a s' (by simpa [hx] using h)

theorem Triple.pre {m : Code L σ α} (h : Triple P m Q E) (hp : ∀ s, P' s → P s) :
    Triple P' m Q E := fun s hs => h s (hp s hs)

theorem Triple.post {m : Code L σ α} (h : Triple P m Q E) (hq : ∀ a s, Q a s → Q' a s) :
    Triple P m Q' E := by
  intro s hs
  have h := h s hs
  rcases hx : m.exec s with ⟨_ | a, s'⟩
  · simpa [hx] using h
  · exact hq a s' (by simpa [hx] using h)

theorem Triple.err {m : Code L σ α} {E' : L → σ → Prop} (h : Triple P m Q E) (he : ∀ l s, E l s → E' l s) :
    Triple P m Q E' := by
  intro s hs
  have h := h s hs
  rcases hx : m.exec s with ⟨l | _, s'⟩
  · exact he l s' (by simpa [hx] using h)
  · simpa [hx] using h

theorem Triple.times {f : ℕ → Code L σ PUnit} {I : ℕ → σ → Prop} (n : ℕ)
    (hf : ∀ i < n, Triple (I i) (f i) (fun _ => I (i + 1)) E) :
    Triple (I 0) (times f n) (fun _ => I n) E := by
  induction n with
  | zero => exact fun s hs => hs
  | succ n ih =>
    refine .bind (ih fun i hi => hf i (Nat.lt_succ_of_lt hi)) fun _ => ?_
    exact hf n (Nat.lt_succ_self n)

-- ---------------------------------------------------------------------------
-- Whether the code goes on
-- ---------------------------------------------------------------------------

/-- The code goes on exactly if `b`, whatever the state. -/
def Succeeds (m : Code L σ α) (b : Bool) : Prop := ∀ s, (m.exec s).1.isOk = b

theorem Succeeds.pure (a : α) : Succeeds (pure a : Code L σ α) true := fun _ => rfl

theorem Succeeds.bind {m : Code L σ α} {f : α → Code L σ β} {b c : Bool} (hm : Succeeds m b)
    (hf : ∀ a, Succeeds (f a) c) : Succeeds (m >>= f) (b && c) := by
  intro s
  have h := hm s
  rw [exec_bind]
  rcases hx : m.exec s with ⟨_ | a, s'⟩
  · rw [hx] at h
    subst h
    rfl
  · rw [hx] at h
    subst h
    exact hf a s'

theorem Succeeds.times {f : ℕ → Code L σ PUnit} {b : ℕ → Bool} (hf : ∀ i, Succeeds (f i) (b i))
    (n : ℕ) : Succeeds (Code.times f n) ((List.range n).all b) := by
  induction n with
  | zero => exact .pure _
  | succ n ih =>
    simp only [List.range_succ, List.all_append, List.all_cons, List.all_nil, Bool.and_true]
    exact ih.bind fun _ => hf n

end Code
