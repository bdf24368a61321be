import Mathlib.Tactic.Common
import Mathlib.Data.Nat.Notation
import Mathlib.Logic.Function.Iterate

/-!
# Positions on a ring

Indices below `n`, each followed by the next modulo `n`. `dist n a b` is how
many steps forward lead from `a` to `b`; it orders the ring as seen from `a`,
so `i` lies in the circular interval from `a` up to `b`, without `b`, when
`dist n a i < dist n a b`.
-/

namespace Circular

def next (n i : ℕ) : ℕ := (i + 1) % n

def pos (n a k : ℕ) : ℕ := (a + k) % n

def dist (n a b : ℕ) : ℕ := if a ≤ b then b - a else n + b - a

variable {n a b c i k : ℕ}

theorem next_eq (h : i < n) : next n i = if i + 1 = n then 0 else i + 1 := by
  unfold next
  split
  · rename_i hn
    rw [hn, Nat.mod_self]
  · exact Nat.mod_eq_of_lt (by omega)

theorem pos_eq (ha : a < n) (hk : k < n) : pos n a k = if a + k < n then a + k else a + k - n := by
  unfold pos
  split
  · exact Nat.mod_eq_of_lt ‹_›
  · rw [Nat.mod_eq_sub_mod (by omega), Nat.mod_eq_of_lt (by omega)]

theorem next_lt (h : i < n) : next n i < n := Nat.mod_lt _ (by omega)

theorem pos_lt (h : a < n) : pos n a k < n := Nat.mod_lt _ (by omega)

theorem dist_lt (ha : a < n) (hb : b < n) : dist n a b < n := by
  unfold dist
  split <;> omega

@[simp] theorem dist_self : dist n a a = 0 := by simp [dist]

theorem dist_inj (ha : a < n) (hb : b < n) (hc : c < n) : dist n a b = dist n a c ↔ b = c := by
  unfold dist
  split <;> split <;> omega

/-- Positions in order from `a`: the rest of the way is the difference. -/
theorem dist_sub (ha : a < n) (hb : b < n) (hc : c < n) (h : dist n a b ≤ dist n a c) :
    dist n b c = dist n a c - dist n a b := by
  revert h
  unfold dist
  split <;> split <;> split <;> omega

theorem dist_passed (ha : a < n) (hb : b < n) (h : dist n a c < dist n a b) :
    dist n b c = n + dist n a c - dist n a b := by
  revert h
  unfold dist
  split <;> split <;> split <;> omega

theorem dist_next_right (ha : a < n) (hb : b < n) (h : dist n a b + 1 < n) :
    dist n a (next n b) = dist n a b + 1 := by
  revert h
  rw [next_eq hb]
  unfold dist
  split <;> split <;> split <;> omega

theorem dist_next_left (ha : a < n) (hb : b < n) (h : a ≠ b) :
    dist n (next n a) b + 1 = dist n a b := by
  rw [next_eq ha]
  unfold dist
  split <;> split <;> split <;> omega

theorem dist_pos (ha : a < n) (hk : k < n) : dist n a (pos n a k) = k := by
  rw [pos_eq ha hk]
  unfold dist
  split <;> split <;> omega

theorem pos_dist (ha : a < n) (hb : b < n) : pos n a (dist n a b) = b := by
  rw [pos_eq ha (dist_lt ha hb)]
  unfold dist
  split <;> split <;> omega

@[simp] theorem pos_zero (ha : a < n) : pos n a 0 = a := Nat.mod_eq_of_lt ha

theorem pos_succ : pos n a (k + 1) = next n (pos n a k) := by
  simp [pos, next, Nat.add_assoc]

theorem iterate_next (ha : a < n) : (next n)^[k] a = pos n a k := by
  induction k with
  | zero => exact (pos_zero ha).symm
  | succ k ih => rw [Function.iterate_succ_apply', ih, pos_succ]

theorem pos_pos : pos n (pos n a i) k = pos n a (i + k) := by
  simp [pos, Nat.add_assoc]

/-- Steps from `b` on, as seen from `a`, while they do not come round to it. -/
theorem dist_pos_add (ha : a < n) (hb : b < n) (hk : dist n a b + k < n) :
    dist n a (pos n b k) = dist n a b + k := by
  calc dist n a (pos n b k) = dist n a (pos n (pos n a (dist n a b)) k) := by rw [pos_dist ha hb]
    _ = dist n a (pos n a (dist n a b + k)) := by rw [pos_pos]
    _ = dist n a b + k := dist_pos ha hk

theorem pos_next : pos n (next n a) k = pos n a (k + 1) := by
  simp only [pos, next, Nat.mod_add_mod]
  congr 1
  omega

end Circular
