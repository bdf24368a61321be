import Libsinet.Base.Machine
import Mathlib.Order.Basic
import Mathlib.Order.Nat
import Mathlib.Tactic.ByContra

/-!
# Executions

A run without end, with the step taken at each time, if any. What happens at
last in it rests on fairness: a party that could move from some time on does
move. A rank that no step raises and a party's own steps lower then runs out.
-/

namespace Machine

variable {σ : Type u} {α : Type v}

/-- Steps that all meet `ok`, from a start state on; `none` is a time at which
nobody moves. -/
structure Execution (M : Machine σ α) (ok : σ → α → Prop) where
  state : ℕ → σ
  event : ℕ → Option α
  init : M.init (state 0)
  step : ∀ n a, event n = some a → ok (state n) a ∧ M.step (state n) a (state (n + 1))
  idle : ∀ n, event n = none → state (n + 1) = state n

namespace Execution

variable {M : Machine σ α} {ok : σ → α → Prop} {P Q R : σ → Prop} {own : α → Prop} {enabled : σ → Prop}

theorem reachable (e : M.Execution ok) (n : ℕ) : M.ReachableBy ok (e.state n) := by
  induction n with
  | zero => exact .init e.init
  | succ n ih =>
    cases he : e.event n with
    | none => exact e.idle n he ▸ ih
    | some a =>
      obtain ⟨hok, hs⟩ := e.step n a he
      exact .step ih hok hs

-- ---------------------------------------------------------------------------
-- Leads to
-- ---------------------------------------------------------------------------

/-- Whenever `P` holds, `Q` holds then or later. -/
def LeadsTo (e : M.Execution ok) (P Q : σ → Prop) : Prop :=
  ∀ n, P (e.state n) → ∃ m, n ≤ m ∧ Q (e.state m)

/-- If a party is enabled from some time on, it moves at that time or later. -/
def WeaklyFair (e : M.Execution ok) (own : α → Prop) (enabled : σ → Prop) : Prop :=
  ∀ n, (∀ m, n ≤ m → enabled (e.state m)) → ∃ m, n ≤ m ∧ ∃ a, e.event m = some a ∧ own a

/-- It holds again and again. -/
def Recurs (e : M.Execution ok) (P : σ → Prop) : Prop := ∀ n, ∃ m, n ≤ m ∧ P (e.state m)

/-- Steps keep `P` until they reach `Q`. -/
def Unless (M : Machine σ α) (ok : σ → α → Prop) (P Q : σ → Prop) : Prop :=
  ∀ s a s', M.ReachableBy ok s → P s → ok s a → M.step s a s' → Q s' ∨ P s'

variable {e : M.Execution ok}

theorem LeadsTo.trans (hpq : e.LeadsTo P Q) (hqr : e.LeadsTo Q R) : e.LeadsTo P R := by
  intro n hp
  obtain ⟨m, hnm, hq⟩ := hpq n hp
  obtain ⟨l, hml, hr⟩ := hqr m hq
  exact ⟨l, hnm.trans hml, hr⟩

theorem LeadsTo.or_self (hpq : e.LeadsTo P fun s => Q s ∨ R s) (hrq : e.LeadsTo R Q) : e.LeadsTo P Q := by
  refine hpq.trans fun n h => ?_
  rcases h with hq | hr
  · exact ⟨n, le_rfl, hq⟩
  · exact hrq n hr

theorem Unless.stays (h : Unless M ok P Q) {n : ℕ} (hp : P (e.state n))
    (hno : ∀ m, n ≤ m → ¬ Q (e.state m)) {m : ℕ} (hnm : n ≤ m) : P (e.state m) := by
  induction hnm with
  | refl => exact hp
  | @step m hle ih =>
    cases he : e.event m with
    | none => exact (e.idle m he).symm ▸ ih
    | some a =>
      obtain ⟨hok, hs⟩ := e.step m a he
      exact (h _ _ _ (e.reachable m) ih hok hs).resolve_left (hno _ (Nat.le_succ_of_le hle))

theorem Unless.meets (h : Unless M ok P Q) {n m : ℕ} (hp : P (e.state n)) (hnm : n ≤ m) (hr : R (e.state m)) :
    ∃ l, n ≤ l ∧ (Q (e.state l) ∨ (P (e.state l) ∧ R (e.state l))) := by
  by_cases hq : ∃ l, n ≤ l ∧ Q (e.state l)
  · obtain ⟨l, hnl, hq⟩ := hq
    exact ⟨l, hnl, .inl hq⟩
  · have hstay := h.stays hp (fun l hnl hql => hq ⟨l, hnl, hql⟩) hnm
    exact ⟨m, hnm, .inr ⟨hstay, hr⟩⟩

theorem Unless.recurs (h : Unless M ok P Q) (hr : e.Recurs R) :
    e.LeadsTo P fun s => Q s ∨ (P s ∧ R s) := by
  intro n hp
  obtain ⟨m, hnm, hm⟩ := hr n
  exact h.meets hp hnm hm

/-- What leads to `Q` or to less of `rank` leads to `Q`. -/
theorem LeadsTo.rank_induction (rank : σ → ℕ)
    (h : ∀ k, e.LeadsTo (fun s => P s ∧ rank s = k) fun s => Q s ∨ (P s ∧ rank s < k)) : e.LeadsTo P Q := by
  suffices hrank : ∀ k n, rank (e.state n) = k → P (e.state n) → ∃ m, n ≤ m ∧ Q (e.state m) from
    fun n => hrank _ n rfl
  intro k
  induction k using Nat.strongRecOn with
  | ind k ih =>
    intro n hk hp
    obtain ⟨m, hnm, hm⟩ := h k n ⟨hp, hk⟩
    rcases hm with hq | ⟨hp', hlt⟩
    · exact ⟨m, hnm, hq⟩
    · obtain ⟨l, hml, hq⟩ := ih _ hlt m rfl hp'
      exact ⟨l, hnm.trans hml, hq⟩

/-- What a party does at last: no step raises the rank, and its own lower it. -/
theorem WeaklyFair.leadsTo (hfair : e.WeaklyFair own enabled) (rank : σ → ℕ)
    (henabled : ∀ s, M.ReachableBy ok s → P s → enabled s)
    (hstep : ∀ s a s', M.ReachableBy ok s → P s → ok s a → M.step s a s' →
      Q s' ∨ (P s' ∧ rank s' ≤ rank s ∧ (own a → rank s' < rank s))) : e.LeadsTo P Q := by
  suffices hrank : ∀ k n, rank (e.state n) = k → P (e.state n) → ∃ m, n ≤ m ∧ Q (e.state m) from
    fun n => hrank _ n rfl
  intro k
  induction k using Nat.strongRecOn with
  | ind k ih =>
    intro n hk hp
    by_contra hno
    have hno : ∀ m, n ≤ m → ¬ Q (e.state m) := fun m hnm hq => hno ⟨m, hnm, hq⟩
    have hlow : Unless M ok (fun s => P s ∧ rank s ≤ k) Q := by
      rintro s a s' hr ⟨hp, hle⟩ hok hs
      exact (hstep s a s' hr hp hok hs).imp_right fun h => ⟨h.1, h.2.1.trans hle⟩
    have hstay : ∀ m, n ≤ m → P (e.state m) ∧ rank (e.state m) ≤ k :=
      fun m => hlow.stays ⟨hp, hk.le⟩ hno
    obtain ⟨m, hnm, a, he, hown⟩ := hfair n fun m hnm => henabled _ (e.reachable m) (hstay m hnm).1
    obtain ⟨hpm, hle⟩ := hstay m hnm
    obtain ⟨hok, hs⟩ := e.step m a he
    rcases hstep _ _ _ (e.reachable m) hpm hok hs with hq | ⟨hp', -, hlt⟩
    · exact hno (m + 1) (Nat.le_succ_of_le hnm) hq
    · obtain ⟨l, hl, hq⟩ := ih _ ((hlt hown).trans_le hle) (m + 1) rfl hp'
      exact hno l (hnm.trans ((Nat.le_succ m).trans hl)) hq

end Execution

-- ---------------------------------------------------------------------------
-- Finite runs
-- ---------------------------------------------------------------------------

theorem exec_append {f : σ → α → Option σ} {s : σ} {as bs : List α} :
    exec f s (as ++ bs) = (exec f s as).bind fun s' => exec f s' bs := by
  induction as generalizing s with
  | nil => rfl
  | cons a as ih =>
    cases hm : f s a <;> simp [exec, hm, ih]

/-- A party whose own steps lower a rank, unless it is at a checkpoint, passes
one within as many own steps as the rank says. -/
theorem exec_hits {f : σ → α → Option σ} {I check : σ → Prop} {own : α → Prop} [DecidablePred own]
    (rank : σ → ℕ) (hkeep : ∀ s a s', I s → f s a = some s' → I s')
    (hown : ∀ s a s', I s → f s a = some s' → own a → check s ∨ rank s' < rank s)
    (hother : ∀ s a s', I s → f s a = some s' → ¬ own a → rank s' ≤ rank s)
    (hI : I s) (he : exec f s as = some s') (hlong : rank s < as.countP own) :
    ∃ as₁ a as₂ s₁, as = as₁ ++ a :: as₂ ∧ exec f s as₁ = some s₁ ∧ own a ∧ check s₁ := by
  induction as generalizing s with
  | nil => exact absurd hlong (Nat.not_lt_zero _)
  | cons a as ih =>
    obtain ⟨m, hm, he⟩ := exec_cons.mp he
    have hlater : rank m < as.countP own →
        ∃ as₁ b as₂ s₁, a :: as = as₁ ++ b :: as₂ ∧ exec f s as₁ = some s₁ ∧ own b ∧ check s₁ := by
      intro hlong
      obtain ⟨as₁, b, as₂, s₁, rfl, he₁, hb, hc⟩ := ih (hkeep s a m hI hm) he hlong
      exact ⟨a :: as₁, b, as₂, s₁, rfl, exec_cons.mpr ⟨m, hm, he₁⟩, hb, hc⟩
    by_cases ha : own a
    · rw [List.countP_cons_of_pos (by simpa using ha)] at hlong
      rcases hown s a m hI hm ha with hc | hlt
      · exact ⟨[], a, as, s, rfl, rfl, ha, hc⟩
      · exact hlater (by omega)
    · rw [List.countP_cons_of_neg (by simpa using ha)] at hlong
      exact hlater ((hother s a m hI hm ha).trans_lt hlong)

section
variable {f : σ → α → Option σ} {init : σ → Prop} {ok : σ → α → Prop} [∀ s a, Decidable (ok s a)]

/-- A finite run after which nobody moves any more. -/
def Execution.ofExec (as : List α) (h : init s) (he : exec (guarded ok f) s as = some s') :
    (ofFn init f).Execution ok where
  state n := (exec (guarded ok f) s (as.take n)).getD s
  event n := as[n]?
  init := h
  step n a ha := by
    obtain ⟨hn, rfl⟩ := List.getElem?_eq_some_iff.mp ha
    have hsplit : as = as.take n ++ as[n] :: as.drop (n + 1) := by simp
    rw [hsplit, exec_append] at he
    obtain ⟨m, hm, he⟩ := Option.bind_eq_some_iff.mp he
    obtain ⟨m', hm', -⟩ := exec_cons.mp he
    have hnext : exec (guarded ok f) s (as.take (n + 1)) = some m' := by
      rw [List.take_succ_eq_append_getElem hn, exec_append, hm]
      exact exec_cons.mpr ⟨m', hm', rfl⟩
    rw [hm, hnext]
    unfold guarded at hm'
    split at hm'
    · exact ⟨‹_›, hm'⟩
    · cases hm'
  idle n hn := by
    have hle := List.getElem?_eq_none_iff.mp hn
    rw [List.take_of_length_le hle, List.take_of_length_le (Nat.le_succ_of_le hle)]

theorem Execution.ofExec_state (h : init s) (he : exec (guarded ok f) s as = some s') {n : ℕ}
    (hn : as.length ≤ n) : (Execution.ofExec as h he).state n = s' := by
  show (exec (guarded ok f) s (as.take n)).getD s = s'
  rw [List.take_of_length_le hn, he]
  rfl

theorem Execution.ofExec_fair {own : α → Prop} {enabled : σ → Prop} (h : init s)
    (he : exec (guarded ok f) s as = some s') (hstop : ¬ enabled s') :
    (Execution.ofExec as h he).WeaklyFair own enabled := by
  intro n hen
  have hlast := hen (max n as.length) (le_max_left _ _)
  rw [ofExec_state h he (le_max_right _ _)] at hlast
  exact absurd hlast hstop

theorem Execution.ofExec_recurs {P : σ → Prop} (h : init s) (he : exec (guarded ok f) s as = some s') (hp : P s') :
    (Execution.ofExec as h he).Recurs P := by
  intro n
  refine ⟨max n as.length, le_max_left _ _, ?_⟩
  rw [ofExec_state h he (le_max_right _ _)]
  exact hp

variable {I : σ → Prop} {a : α}

theorem exec_forever {g : σ → α → Option σ} (he : exec g s as = some s') (hI : I s')
    (hkeep : ∀ s, I s → ∃ s', g s a = some s' ∧ I s') {n : ℕ} (hn : as.length ≤ n) :
    ∃ s', exec g s ((List.range n).map fun i => as[i]?.getD a) = some s' ∧ I s' := by
  induction n, hn using Nat.le_induction with
  | base =>
    have has : (List.range as.length).map (fun i => as[i]?.getD a) = as := by
      refine List.ext_getElem (by simp) fun i _ hi => ?_
      simp [hi]
    exact ⟨s', by rw [has, he], hI⟩
  | succ n hn ih =>
    obtain ⟨m, hm, hI⟩ := ih
    obtain ⟨m', hs, hI'⟩ := hkeep m hI
    refine ⟨m', ?_, hI'⟩
    rw [List.range_succ, List.map_append, exec_append, hm]
    simp [exec, hn, hs]

/-- A finite run after which one move is made again and again. -/
def Execution.ofExecThen (as : List α) (a : α) (h : init s) (he : exec (guarded ok f) s as = some s') (hI : I s')
    (hkeep : ∀ s, I s → ∃ s', guarded ok f s a = some s' ∧ I s') : (ofFn init f).Execution ok where
  state n := (exec (guarded ok f) s ((List.range n).map fun i => as[i]?.getD a)).getD s
  event n := some (as[n]?.getD a)
  init := h
  step n b hb := by
    obtain rfl : as[n]?.getD a = b := Option.some.inj hb
    obtain ⟨l, hl, -⟩ := exec_forever he hI hkeep (n := n + 1 + as.length) (Nat.le_add_left _ _)
    rw [List.range_add, List.map_append, exec_append] at hl
    obtain ⟨m', hm', -⟩ := Option.bind_eq_some_iff.mp hl
    have hsplit := hm'
    rw [List.range_succ, List.map_append, exec_append] at hsplit
    obtain ⟨m, hm, hlast⟩ := Option.bind_eq_some_iff.mp hsplit
    obtain ⟨m'', hs, hnil⟩ := exec_cons.mp hlast
    obtain rfl : m'' = m' := Option.some.inj hnil
    rw [hm, hm']
    unfold guarded at hs
    split at hs
    · exact ⟨‹_›, hs⟩
    · cases hs
  idle n hn := by cases hn

theorem Execution.ofExecThen_state (h : init s) (he : exec (guarded ok f) s as = some s') (hI : I s')
    (hkeep : ∀ s, I s → ∃ s', guarded ok f s a = some s' ∧ I s') {n : ℕ} (hn : as.length ≤ n) :
    I ((Execution.ofExecThen as a h he hI hkeep).state n) := by
  obtain ⟨m, hm, hI⟩ := exec_forever he hI hkeep hn
  show I ((exec (guarded ok f) s ((List.range n).map fun i => as[i]?.getD a)).getD s)
  rw [hm]
  exact hI

theorem Execution.ofExecThen_event (h : init s) (he : exec (guarded ok f) s as = some s') (hI : I s')
    (hkeep : ∀ s, I s → ∃ s', guarded ok f s a = some s' ∧ I s') {n : ℕ} (hn : as.length ≤ n) :
    (Execution.ofExecThen as a h he hI hkeep).event n = some a := by
  show some (as[n]?.getD a) = some a
  rw [List.getElem?_eq_none hn]
  rfl

end

end Machine
