import Mathlib.Data.BitVec
import Mathlib.Logic.Equiv.Basic

/-!
# Swapping by exclusive or

Three assignments exchange two cells of a store without a third. The cells
have to be two: a cell swapped with itself is cleared.
-/

variable {A : Type u} [DecidableEq A] {w : Nat}

def xorSwap (m : A → BitVec w) (a b : A) : A → BitVec w :=
  let m := Function.update m a (m a ^^^ m b)
  let m := Function.update m b (m a ^^^ m b)
  Function.update m a (m a ^^^ m b)

theorem xorSwap_eq (m : A → BitVec w) (h : a ≠ b) : xorSwap m a b = m ∘ Equiv.swap a b := by
  have hfst : m a ^^^ m b ^^^ m b = m a := by
    rw [BitVec.xor_assoc, BitVec.xor_self, BitVec.xor_zero]
  have hsnd : m a ^^^ m b ^^^ m a = m b := by
    rw [BitVec.xor_comm (m a), BitVec.xor_assoc, BitVec.xor_self, BitVec.xor_zero]
  funext c
  by_cases ha : c = a
  · subst ha
    simp [xorSwap, h, h.symm, hfst, hsnd]
  · by_cases hb : c = b
    · subst hb
      simp [xorSwap, h.symm, hfst]
    · simp [xorSwap, ha, hb, Equiv.swap_apply_of_ne_of_ne ha hb]
