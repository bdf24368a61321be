import Mathlib.Algebra.BigOperators.Group.Finset.Piecewise
import Mathlib.Data.Fintype.Basic

/-!
# Counting the parties in a given condition
-/

variable {T : Type u} {α : Type v} [Fintype T]

/-- The number of `t` whose value `f t` satisfies `p`. -/
def tally (p : α → Bool) (f : T → α) : Nat := (Finset.univ.filter fun t => p (f t)).card

namespace tally

variable {p : α → Bool} {f : T → α}

theorem eq_sum : tally p f = ∑ t, if p (f t) then 1 else 0 := Finset.card_filter _ _

theorem update [DecidableEq T] (t : T) (a : α) :
    tally p (Function.update f t a) + (if p (f t) then 1 else 0) =
      tally p f + (if p a then 1 else 0) := by
  have hg : (fun x => if p (Function.update f t a x) then 1 else 0) =
      Function.update (fun x => if p (f x) then 1 else 0) t (if p a then 1 else 0) := by
    funext x
    by_cases hx : x = t
    · subst hx; simp
    · simp [hx]
  have hsplit := Finset.sum_eq_add_sum_sdiff_singleton_of_mem (Finset.mem_univ t)
    (fun x => if p (f x) then 1 else 0)
  rw [eq_sum, eq_sum, hg, Finset.sum_update_of_mem (Finset.mem_univ t), hsplit]
  omega

theorem pos_iff : 0 < tally p f ↔ ∃ t, p (f t) = true := by
  simp [tally, Finset.card_pos, Finset.filter_nonempty_iff]

theorem zero_iff : tally p f = 0 ↔ ∀ t, p (f t) = false := by
  simp [tally, Finset.filter_eq_empty_iff]

theorem le_one (c : T) (h : ∀ t, p (f t) = true → t = c) : tally p f ≤ 1 := by
  refine Finset.card_le_one.mpr fun t ht u hu => ?_
  rw [h t (by simpa using ht), h u (by simpa using hu)]

end tally
