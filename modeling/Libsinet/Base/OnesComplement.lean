import Libsinet.Base.Bytes
import Mathlib.Algebra.BigOperators.Group.List.Basic

/-!
# One's-complement sums of 16-bit words

Words are added with the carry out of the top bit added back at the bottom.
Such a sum is the remainder modulo `2 ^ 16 - 1`, except that a sum of zeros is
0 and any other multiple is `0xFFFF`. So it does not depend on the order of the
words, and with the bytes of every word exchanged its own bytes are exchanged.
-/

namespace OnesComplement

open Bytes

def add (a b : Nat) : Nat := if a + b < 65536 then a + b else a + b - 65535

def sum (l : List Nat) : Nat := l.foldl add 0

/-- The word that stands for a number. -/
def norm (n : Nat) : Nat := if n = 0 then 0 else (n - 1) % 65535 + 1

/-- The high half of a 32-bit accumulator added to the low half, twice, and cut
to 16 bits. -/
def fold (n : Nat) : Nat :=
  let n := n / 65536 + n % 65536
  (n + n / 65536) % 65536

variable {a b n k : Nat} {l l' : List Nat}

theorem norm_lt (n : Nat) : norm n < 65536 := by
  unfold norm
  split <;> omega

theorem norm_eq_zero : norm n = 0 ↔ n = 0 := by
  unfold norm
  split <;> omega

theorem norm_mod (n : Nat) : norm n % 65535 = n % 65535 := by
  unfold norm
  split <;> omega

theorem norm_eq_ones : norm n = 0xFFFF ↔ n ≠ 0 ∧ n % 65535 = 0 := by
  unfold norm
  split <;> omega

/-- A number and the complement of its word sum up to minus zero. -/
theorem add_compl (n : Nat) : n + (65535 - norm n) ≠ 0 ∧ (n + (65535 - norm n)) % 65535 = 0 := by
  have hlt := norm_lt n
  have hmod := norm_mod n
  have hzero := @norm_eq_zero n
  omega

theorem add_norm (hb : b < 65536) : add (norm n) b = norm (n + b) := by
  unfold add norm
  split <;> split <;> split <;> omega

theorem sum_eq (h : ∀ w ∈ l, w < 65536) : sum l = norm l.sum := by
  suffices hfold : ∀ n, l.foldl add (norm n) = norm (n + l.sum) by
    simpa [sum, norm] using hfold 0
  induction l with
  | nil => simp
  | cons w l ih =>
    intro n
    have hl : ∀ w ∈ l, w < 65536 := fun w hw => h w (List.mem_cons_of_mem _ hw)
    rw [List.foldl_cons, add_norm (h w List.mem_cons_self), ih hl, List.sum_cons, Nat.add_assoc]

theorem norm_eq {w : Nat} (hw : w < 65536) (h : w % 65535 = n % 65535) (h0 : w = 0 ↔ n = 0) :
    norm n = w := by
  unfold norm
  split <;> omega

/-- A 32-bit accumulator has room for the carries. -/
theorem fold_eq (h : n < 2 ^ 32) : fold n = norm n := by
  have hn : n = 65536 * (n / 65536) + n % 65536 := (Nat.div_add_mod n 65536).symm
  have hr : n % 65536 < 65536 := Nat.mod_lt _ (by decide)
  have hq : n / 65536 < 65536 := by omega
  rw [fold]
  generalize n / 65536 = q at *
  generalize n % 65536 = r at *
  subst hn
  rcases Nat.lt_or_ge (q + r) 65536 with hlt | hge
  · have hfold : (q + r + (q + r) / 65536) % 65536 = q + r := by omega
    rw [hfold]
    apply (norm_eq _ _ _).symm <;> omega
  · have hfold : (q + r + (q + r) / 65536) % 65536 = q + r - 65535 := by omega
    rw [hfold]
    apply (norm_eq _ _ _).symm <;> omega

-- ---------------------------------------------------------------------------
-- Sums of bytes
-- ---------------------------------------------------------------------------

/-- In either order the sum is the same word, with the bytes exchanged. -/
theorem norm_words (o : Order) (l : List Nat) :
    norm (o.words l).sum = o.flip (norm (Order.big.words l).sum) := by
  have hlt := norm_lt (Order.big.words l).sum
  cases o with
  | big =>
    simp only [Order.flip, Order.word]
    omega
  | little =>
    have hmod := norm_mod (Order.big.words l).sum
    have h0 : norm (Order.big.words l).sum = 0 ↔ (Order.little.words l).sum = 0 := by
      rw [norm_eq_zero, Order.words_sum_zero, Order.words_sum_zero]
    obtain ⟨k, hk⟩ := Order.words_sum_flip l
    simp only [Order.flip, Order.word]
    apply norm_eq <;> omega

/-- Whether words sum up to minus zero does not depend on their order. -/
theorem ones_words (o : Order) (l : List Nat) :
    norm (o.words l).sum = 0xFFFF ↔ norm (Order.big.words l).sum = 0xFFFF := by
  have hlt := norm_lt (Order.big.words l).sum
  rw [norm_words]
  cases o <;> simp only [Order.flip, Order.word] <;> omega

theorem sum_words_ones (o : Order) (h : ∀ b ∈ l, b < 256) :
    sum (Order.big.words l) = 0xFFFF ↔ (o.words l).sum ≠ 0 ∧ (o.words l).sum % 65535 = 0 := by
  rw [sum_eq (Order.words_lt h), ← ones_words o, norm_eq_ones]

end OnesComplement
