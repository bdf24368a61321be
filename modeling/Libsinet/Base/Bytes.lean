import Mathlib.Data.BitVec
import Mathlib.Data.List.Basic
import Mathlib.Logic.Function.Basic

/-!
# Bytes and 16-bit words in memory

A memory is a function from addresses to bytes. A word at an address is its two
bytes there, read in the byte order of the machine; the words of a list of bytes
are its pairs, the last one filled with a zero when a byte is left over.
-/

namespace Bytes

abbrev Byte := BitVec 8

abbrev Mem := Nat → Byte

/-- `big` is also the order of the network. -/
inductive Order
  | little
  | big
  deriving DecidableEq, Repr

/-- The word of two bytes, the first being that at the lower address. -/
def Order.word : Order → Nat → Nat → Nat
  | .little, a, b => a + 256 * b
  | .big, a, b => 256 * a + b

def load16 (o : Order) (m : Mem) (i : Nat) : Nat := o.word (m i).toNat (m (i + 1)).toNat

/-- The low 16 bits of a value. -/
def store16 (o : Order) (m : Mem) (i v : Nat) : Mem :=
  match o with
  | .little => Function.update (Function.update m i (BitVec.ofNat 8 v)) (i + 1) (BitVec.ofNat 8 (v / 256))
  | .big => Function.update (Function.update m i (BitVec.ofNat 8 (v / 256))) (i + 1) (BitVec.ofNat 8 v)

def bytes (m : Mem) : Nat → Nat → List Nat
  | _, 0 => []
  | a, n + 1 => (m a).toNat :: bytes m (a + 1) n

def Order.words (o : Order) : List Nat → List Nat
  | a :: b :: l => o.word a b :: o.words l
  | [a] => [o.word a 0]
  | [] => []

/-- A word with its bytes exchanged on a machine whose order is not the
network's, `htons` and `ntohs` in one. -/
def Order.flip (o : Order) (v : Nat) : Nat := o.word (v / 256) (v % 256)

-- ---------------------------------------------------------------------------
-- Words
-- ---------------------------------------------------------------------------

variable {o : Order} {m m' : Mem} {a b i n v : Nat} {l l' : List Nat}

theorem Order.word_lt (ha : a < 256) (hb : b < 256) : o.word a b < 65536 := by
  cases o <;> simp only [Order.word] <;> omega

theorem load16_lt : load16 o m i < 65536 := Order.word_lt (m i).isLt (m (i + 1)).isLt

theorem load16_flip (o : Order) (m : Mem) (i : Nat) : load16 o m i = o.flip (load16 .big m i) := by
  have h := (m (i + 1)).isLt
  simp only [load16, Order.flip, Order.word]
  congr 1 <;> omega

theorem Order.flip_inj (h : o.flip v = o.flip n) (hv : v < 65536) (hn : n < 65536) : v = n := by
  cases o <;> simp only [Order.flip, Order.word] at h <;> omega

@[simp] theorem store16_other (h : a ≠ i) (h' : a ≠ i + 1) : store16 o m i v a = m a := by
  cases o <;> simp [store16, h, h']

theorem load16_store16_other {p : Order} {j : Nat} (h : j + 1 < i ∨ i + 1 < j) :
    load16 o (store16 p m i v) j = load16 o m j := by
  simp only [load16]
  rw [store16_other (by omega) (by omega), store16_other (by omega) (by omega)]

@[simp] theorem load16_store16 : load16 o (store16 o m i v) i = v % 65536 := by
  cases o <;> simp [load16, store16, Order.word, BitVec.toNat_ofNat] <;> omega

@[simp] theorem store16_store16 : store16 o (store16 o m i n) i v = store16 o m i v := by
  funext j
  rcases eq_or_ne j (i + 1) with rfl | h'
  · cases o <;> simp [store16]
  · rcases eq_or_ne j i with rfl | h
    · cases o <;> simp [store16]
    · simp [h, h']

theorem store16_zero (o p : Order) : store16 o m i 0 = store16 p m i 0 := by
  have hbig : store16 .big m i 0 = store16 .little m i 0 := rfl
  cases o <;> cases p <;> simp [hbig]

theorem Order.flip_flip (hv : v < 65536) : o.flip (o.flip v) = v := by
  cases o <;> simp only [Order.flip, Order.word] <;> omega

theorem flip_load16 (o : Order) (m : Mem) (i : Nat) : o.flip (load16 o m i) = load16 .big m i := by
  rw [load16_flip, Order.flip_flip load16_lt]

theorem Order.flip_lt (hv : v < 65536) : o.flip v < 65536 :=
  word_lt (Nat.div_lt_of_lt_mul hv) (Nat.mod_lt _ (by decide))

theorem Order.flip_compl (hv : v < 65536) : 65535 - o.flip v = o.flip (65535 - v) := by
  cases o <;> simp only [Order.flip, Order.word] <;> omega

theorem store16_self (o : Order) (m : Mem) (i : Nat) : store16 o m i (load16 o m i) = m := by
  have hbyte : ∀ v j, v % 256 = (m j).toNat → BitVec.ofNat 8 v = m j :=
    fun v j hv => BitVec.eq_of_toNat_eq ((BitVec.toNat_ofNat ..).trans hv)
  have hlt := (m i).isLt
  have hlt' := (m (i + 1)).isLt
  cases o with
  | little =>
    have hlo := hbyte (load16 .little m i) i (by simp only [load16, Order.word]; omega)
    have hhi := hbyte (load16 .little m i / 256) (i + 1) (by simp only [load16, Order.word]; omega)
    rw [store16, hlo, hhi, Function.update_eq_self, Function.update_eq_self]
  | big =>
    have hlo := hbyte (load16 .big m i) (i + 1) (by simp only [load16, Order.word]; omega)
    have hhi := hbyte (load16 .big m i / 256) i (by simp only [load16, Order.word]; omega)
    rw [store16, hlo, hhi, Function.update_eq_self, Function.update_eq_self]

-- ---------------------------------------------------------------------------
-- Regions
-- ---------------------------------------------------------------------------

def ofList (l : List Nat) : Mem := fun i => BitVec.ofNat 8 (l.getD i 0)

-- ---------------------------------------------------------------------------
-- Lists of bytes
-- ---------------------------------------------------------------------------

theorem bytes_congr (h : ∀ k, k < n → m' (b + k) = m (a + k)) : bytes m' b n = bytes m a n := by
  induction n generalizing a b with
  | zero => rfl
  | succ n ih =>
    have hrest : bytes m' (b + 1) n = bytes m (a + 1) n := by
      refine ih fun k hk => ?_
      rw [Nat.add_assoc, Nat.add_assoc, Nat.add_comm 1 k]
      exact h (k + 1) (Nat.succ_lt_succ hk)
    have hfirst : m' b = m a := h 0 (Nat.succ_pos n)
    rw [bytes, bytes, hrest, hfirst]

def Agree (n : Nat) (m m' : Mem) : Prop := ∀ i < n, m' i = m i

theorem Agree.load16 (h : Agree n m m') (hi : i + 1 < n) : load16 o m' i = load16 o m i := by
  rw [Bytes.load16, h i (Nat.lt_of_succ_lt hi), h (i + 1) hi, Bytes.load16]

theorem Agree.update (h : Agree n m m') (a : Nat) (b : Byte) :
    Agree n (Function.update m a b) (Function.update m' a b) := by
  intro i hi
  rcases eq_or_ne i a with rfl | hne
  · simp
  · simp [hne, h i hi]

theorem Agree.store16 (h : Agree n m m') (i v : Nat) : Agree n (store16 o m i v) (store16 o m' i v) := by
  cases o with
  | little => exact (h.update i _).update (i + 1) _
  | big => exact (h.update i _).update (i + 1) _

@[simp] theorem bytes_length : (bytes m a n).length = n := by
  induction n generalizing a with
  | zero => rfl
  | succ n ih => simp [bytes, ih]

theorem bytes_lt (h : b ∈ bytes m a n) : b < 256 := by
  induction n generalizing a with
  | zero => cases h
  | succ n ih =>
    rcases List.mem_cons.mp h with rfl | h
    · exact (m a).isLt
    · exact ih h

theorem Order.words_lt (h : ∀ b ∈ l, b < 256) : ∀ v ∈ o.words l, v < 65536 := by
  induction l using Order.words.induct with
  | case1 a b l ih =>
    have ha := h a (by simp)
    have hb := h b (by simp)
    have hl : ∀ b ∈ l, b < 256 := fun b hb => h b (by simp [hb])
    simpa [words, Order.word_lt ha hb] using ih hl
  | case2 a => simpa [words] using Order.word_lt (h a (by simp)) (by decide)
  | case3 => simp [words]

theorem Order.words_sum_zero : (o.words l).sum = 0 ↔ ∀ b ∈ l, b = 0 := by
  induction l using Order.words.induct with
  | case1 a b l ih =>
    have hword : o.word a b = 0 ↔ a = 0 ∧ b = 0 := by
      cases o <;> simp only [Order.word] <;> omega
    simp [words, ih, hword, and_assoc]
  | case2 a =>
    cases o <;> simp [words, Order.word]
  | case3 => simp [words]

theorem Order.words_sum_flip (l : List Nat) :
    ∃ k, 256 * (Order.big.words l).sum = (Order.little.words l).sum + 65535 * k := by
  induction l using Order.words.induct with
  | case1 a b l ih =>
    obtain ⟨k, ih⟩ := ih
    refine ⟨a + k, ?_⟩
    simp only [words, word, List.sum_cons]
    omega
  | case2 a =>
    refine ⟨a, ?_⟩
    simp only [words, word, List.sum_cons, List.sum_nil]
    omega
  | case3 => exact ⟨0, rfl⟩

end Bytes
