import Libsinet.UdpMirror

/-!
# The two checksums on any bytes

`sin_ip4_cksum` and the macros `sin_ip_chksum_start`,
`sin_ip_chksum_update_data` and `sin_ip_chksum_fin` beside the sum they are to
be, on a machine of either byte order. They differ in the union that a last odd
byte goes through: `uint16_t uc[2]` in the function, `uint8_t uc[2]` in the
macro.
-/

namespace Libsinet.Ip4

open Bytes OnesComplement

def sinIpChksumStart : Nat := 0

def sinIpChksumFin (wsum : Nat) : Nat := 65535 - fold wsum

/-- The macros one after the other, on one region. -/
def sinIpChksum (o : Order) (m : Mem) (dp len : Nat) : Nat :=
  sinIpChksumFin (sinIpChksumUpdateData o m dp len sinIpChksumStart)

def rfc1071 (l : List Nat) : Nat := 65535 - OnesComplement.sum (Order.big.words l)

/-- The loop of the sums with an accumulator for numbers below `limit`, which
fails when one gets too large. -/
def sumChecked (limit : Nat) (o : Order) (last : Nat → Nat) (m : Mem) : Nat → Nat → Nat → Option Nat
  | w, nleft + 2, sum =>
    if sum + load16 o m w < limit then sumChecked limit o last m (w + 2) nleft (sum + load16 o m w) else none
  | w, 1, sum => if sum + last (m w).toNat < limit then some (sum + last (m w).toNat) else none
  | _, 0, sum => some sum

variable {o : Order} {last : Nat → Nat} {m : Mem} {a n sum limit v : Nat} {l : List Nat}

-- ---------------------------------------------------------------------------
-- Accumulators
-- ---------------------------------------------------------------------------

/-- Every partial sum is within the bound for the whole. -/
theorem sumChecked_eq (hlast : ∀ b < 256, last b < 65536) (hlimit : limit ≤ 2 ^ 32)
    (h : sum + 65535 * ((n + 1) / 2) < limit) :
    sumChecked limit o last m a n sum = some (sumLoop o last m a n sum) := by
  induction a, n, sum using sumLoop.induct o m with
  | case1 w nleft sum ih =>
    have hword := @load16_lt o m w
    have hlt : sum + load16 o m w < limit := by omega
    have hmod : (sum + load16 o m w) % 2 ^ 32 = sum + load16 o m w := Nat.mod_eq_of_lt (hlt.trans_le hlimit)
    rw [hmod] at ih
    rw [sumChecked, if_pos hlt, sumLoop, hmod]
    exact ih (by omega)
  | case2 w sum =>
    have hbyte := hlast _ (m w).isLt
    have hlt : sum + last (m w).toNat < limit := by omega
    rw [sumChecked, if_pos hlt, sumLoop, Nat.mod_eq_of_lt (hlt.trans_le hlimit)]
  | case3 w sum => rfl

theorem sinIp4Cksum_int (hn : n < 65536) :
    sumChecked (2 ^ 31) o (fun b => b) m a n 0 = some (sumLoop o (fun b => b) m a n 0) :=
  sumChecked_eq (fun b hb => hb.trans (by decide)) (by decide) (by omega)

theorem sinIpChksum_uint (hn : n < 65536) : sumChecked (2 ^ 32) o (o.word · 0) m a n sinIpChksumStart =
    some (sinIpChksumUpdateData o m a n sinIpChksumStart) :=
  sumChecked_eq (fun _ hb => Order.word_lt hb (by decide)) le_rfl (by simp only [sinIpChksumStart]; omega)

theorem sumLoop_lt (h : sum < 2 ^ 32) : sumLoop o last m a n sum < 2 ^ 32 := by
  induction a, n, sum using sumLoop.induct o m with
  | case1 w nleft sum ih => exact ih (Nat.mod_lt _ (by decide))
  | case2 w sum => exact Nat.mod_lt _ (by decide)
  | case3 w sum => exact h

-- ---------------------------------------------------------------------------
-- The odd byte
-- ---------------------------------------------------------------------------

theorem sumLoop_odd (o : Order) (last : Nat → Nat) (m : Mem) (a k sum : Nat) :
    sumLoop o last m a (2 * k + 1) sum =
      (sumLoop o last m a (2 * k) sum + last (m (a + 2 * k)).toNat) % 2 ^ 32 := by
  induction k generalizing a sum with
  | zero => rfl
  | succ k ih =>
    have haddr : a + 2 * (k + 1) = a + 2 + 2 * k := by omega
    rw [haddr]
    exact ih (a + 2) _

/-- A byte in the low half of a word makes another sum than in the high half. -/
theorem norm_byte {b e : Nat} (hb : b < 256) : norm (e + b) = norm (e + 256 * b) ↔ b = 0 := by
  constructor
  · intro h
    have hlow := norm_mod (e + b)
    have hhigh := norm_mod (e + 256 * b)
    rw [h] at hlow
    omega
  · rintro rfl
    rfl

/-- What the words of the bytes add up to, and so what both functions are to
add up. -/
theorem sinIpChksum_eq (hn : n < 65536) : sinIpChksum o m a n = 65535 - norm (o.words (bytes m a n)).sum := by
  have hlt : (o.words (bytes m a n)).sum < 2 ^ 32 := (bytes_sum_lt hn).trans (by decide)
  rw [sinIpChksum, sinIpChksumFin, sinIpChksumUpdateData, sinIpChksumStart, sumLoop_eq (.inr fun _ => rfl) (by decide),
    Nat.zero_add, Nat.mod_eq_of_lt hlt, fold_eq hlt]

/-- The function and the macros agree, unless a machine with the network's byte
order adds a last byte other than zero. -/
theorem sinIp4Cksum_eq_macros (hn : n < 65536) :
    sinIp4Cksum o m a n = sinIpChksum o m a n ↔ o = .little ∨ n % 2 = 0 ∨ m (a + (n - 1)) = 0 := by
  cases o with
  | little =>
    have hword : (fun b => Order.little.word b 0) = fun b => b := rfl
    simp [sinIp4Cksum, sinIpChksum, sinIpChksumFin, sinIpChksumUpdateData, sinIpChksumStart, hword]
  | big =>
    obtain ⟨k, rfl | rfl⟩ : ∃ k, n = 2 * k ∨ n = 2 * k + 1 := ⟨n / 2, by omega⟩
    · have heven := Nat.mul_mod_right 2 k
      rw [sinIp4Cksum_eq hn heven, sinIpChksum_eq hn]
      simp [heven]
    · have hbyte := (m (a + 2 * k)).isLt
      have hodd : (2 * k + 1) % 2 ≠ 0 := by omega
      have hle := @words_sum_le .big (bytes m a (2 * k)) fun b hb => bytes_lt hb
      rw [bytes_length] at hle
      have hpairs : ∀ last, sumLoop .big last m a (2 * k) 0 = (Order.big.words (bytes m a (2 * k))).sum := by
        intro last
        rw [sumLoop_eq (.inl (Nat.mul_mod_right 2 k)) (by decide), Nat.zero_add, Nat.mod_eq_of_lt (by omega)]
      rw [sinIp4Cksum, sinIpChksum, sinIpChksumFin, sinIpChksumUpdateData, sinIpChksumStart, sumLoop_odd, sumLoop_odd,
        hpairs, hpairs]
      generalize (Order.big.words (bytes m a (2 * k))).sum = e at hle
      simp only [Order.word, Nat.add_zero]
      rw [Nat.mod_eq_of_lt (by omega), Nat.mod_eq_of_lt (by omega), fold_eq (by omega), fold_eq (by omega)]
      have hlt := norm_lt (e + (m (a + 2 * k)).toNat)
      have hlt' := norm_lt (e + 256 * (m (a + 2 * k)).toNat)
      have hiff := @norm_byte _ e hbyte
      have hzero : m (a + 2 * k) = 0 ↔ (m (a + 2 * k)).toNat = 0 := by rw [← BitVec.toNat_inj]; rfl
      simp only [reduceCtorEq, false_or, hodd, Nat.add_sub_cancel, hzero]
      omega

-- ---------------------------------------------------------------------------
-- The sum in memory
-- ---------------------------------------------------------------------------

/-- A sum of words in the machine's order, stored in that order, has the bytes of
the network's sum. -/
theorem load16_store_sum (o : Order) (m : Mem) (i : Nat) (hl : ∀ b ∈ l, b < 256) :
    load16 .big (store16 o m i (65535 - norm (o.words l).sum)) i = rfc1071 l := by
  have hlt := norm_lt (Order.big.words l).sum
  rw [← flip_load16 o, load16_store16, Nat.mod_eq_of_lt (by omega), norm_words, Order.flip_compl hlt,
    Order.flip_flip (by omega), rfc1071, sum_eq (Order.words_lt hl)]

structure CksumsOk (o : Order) (m : Mem) (a n : Nat) : Prop where
  cksum : ∀ m' i, load16 .big (store16 o m' i (sinIp4Cksum o m a n)) i = rfc1071 (bytes m a n)
  macros : ∀ m' i, load16 .big (store16 o m' i (sinIpChksum o m a n)) i = rfc1071 (bytes m a n)
  int : sumChecked (2 ^ 31) o (fun b => b) m a n 0 = some (sumLoop o (fun b => b) m a n 0)
  uint : sumChecked (2 ^ 32) o (o.word · 0) m a n sinIpChksumStart =
    some (sinIpChksumUpdateData o m a n sinIpChksumStart)
  folds : ∀ s ∈ [sumLoop o (fun b => b) m a n 0, sinIpChksumUpdateData o m a n sinIpChksumStart], fold s = norm s

/-- Both are right but for the odd byte of `sin_ip4_cksum` on a big-endian
machine. -/
theorem cksums_ok (hn : n < 65536) :
    CksumsOk o m a n ↔ o = .little ∨ n % 2 = 0 ∨ m (a + (n - 1)) = 0 := by
  have hmacros : ∀ m' i, load16 .big (store16 o m' i (sinIpChksum o m a n)) i = rfc1071 (bytes m a n) := by
    intro m' i
    rw [sinIpChksum_eq hn]
    exact load16_store_sum o m' i fun b hb => bytes_lt hb
  rw [← sinIp4Cksum_eq_macros hn]
  constructor
  · intro h
    -- the bytes in memory tell the values apart
    have heq := (h.cksum m 0).trans (hmacros m 0).symm
    rw [← flip_load16 o, ← flip_load16 o, load16_store16, load16_store16] at heq
    have heq := Order.flip_inj heq (Nat.mod_lt _ (by decide)) (Nat.mod_lt _ (by decide))
    unfold sinIp4Cksum sinIpChksum sinIpChksumFin at heq ⊢
    omega
  · intro heq
    refine ⟨?_, hmacros, sinIp4Cksum_int hn, sinIpChksum_uint hn, fun s hs => fold_eq ?_⟩
    · rwa [heq]
    · rcases List.mem_pair.mp hs with rfl | rfl
      · exact sumLoop_lt (by decide)
      · exact sumLoop_lt (by decide)

theorem cksums_ok_three : CksumsOk .little (ofList [0x12, 0x34, 0x56]) 0 3 :=
  (cksums_ok (by decide)).mpr (.inl rfl)

theorem cksum_odd_byte : ¬ ∀ o m a n, n < 65536 → CksumsOk o m a n := by
  intro h
  have hodd := (h .big (ofList [0x12, 0x34, 0x56]) 0 3 (by decide)).cksum (fun _ => 0) 0
  revert hodd
  decide

end Libsinet.Ip4
