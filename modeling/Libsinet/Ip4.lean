import Libsinet.Base.OnesComplement
import Libsinet.Base.XorSwap
import Mathlib.Tactic.IntervalCases

/-!
# Frames with an IPv4 header

What `sin_ip4_icmp.c` and `udpm_sorter.c` share: the places of the fields that
both overlay structures have, `sin_memswp` and the sums of `sin_ip4.h`. All
headers are packed and start at fixed offsets, the header behind the IPv4 header
where one without options ends.
-/

namespace Libsinet.Ip4

open Bytes OnesComplement

/-- The bytes at `buf`, those of the frame being the first `len`. -/
structure SinPkt where
  buf : Mem
  len : Nat

-- ---------------------------------------------------------------------------
-- Fields
-- ---------------------------------------------------------------------------

def etherDhost : Nat := 0
def etherShost : Nat := 6
def etherType : Nat := 12
def iphdr : Nat := 14
def ipSum : Nat := 24
def ipSrc : Nat := 26
def ipDst : Nat := 30

def ipPayload : Nat := 34

def ipV (m : Mem) : Nat := (m iphdr).toNat / 16
def ipHl (m : Mem) : Nat := (m iphdr).toNat % 16
def ipLen (m : Mem) : Nat := load16 .big m (iphdr + 2)
def ipOff (m : Mem) : Nat := load16 .big m (iphdr + 6) % 8192
def ipP (m : Mem) : Nat := (m (iphdr + 9)).toNat

-- ---------------------------------------------------------------------------
-- sin_memswp
-- ---------------------------------------------------------------------------

def sinMemswp (m : Mem) (r1 r2 : Nat) : Nat → Mem
  | 0 => m
  | len + 1 => xorSwap (sinMemswp m r1 r2 len) (r1 + len) (r2 + len)

def swapped (m : Mem) (r1 r2 len : Nat) : Mem := fun i =>
  if r1 ≤ i ∧ i < r1 + len then m (r2 + (i - r1))
  else if r2 ≤ i ∧ i < r2 + len then m (r1 + (i - r2))
  else m i

theorem swapped_other {m : Mem} {r1 r2 len i : Nat} (h1 : i < r1 ∨ r1 + len ≤ i) (h2 : i < r2 ∨ r2 + len ≤ i) :
    swapped m r1 r2 len i = m i := by
  rw [swapped, if_neg (by omega), if_neg (by omega)]

theorem sinMemswp_eq {m : Mem} {r1 r2 len : Nat} (h : r1 + len ≤ r2 ∨ r2 + len ≤ r1) :
    sinMemswp m r1 r2 len = swapped m r1 r2 len := by
  induction len with
  | zero =>
    funext i
    have h1 : ¬ (r1 ≤ i ∧ i < r1 + 0) := by omega
    have h2 : ¬ (r2 ≤ i ∧ i < r2 + 0) := by omega
    rw [sinMemswp, swapped, if_neg h1, if_neg h2]
  | succ len ih =>
    rw [sinMemswp, ih (by omega), xorSwap_eq _ (by omega)]
    funext i
    rw [Function.comp_apply]
    rcases eq_or_ne i (r1 + len) with rfl | h1
    · have hold : ¬ (r1 ≤ r2 + len ∧ r2 + len < r1 + len) := by omega
      rw [Equiv.swap_apply_left, swapped, swapped, if_neg hold, if_neg (by omega), if_pos (by omega),
        Nat.add_sub_cancel_left]
    · rcases eq_or_ne i (r2 + len) with rfl | h2
      · have hold : ¬ (r1 ≤ r2 + len ∧ r2 + len < r1 + (len + 1)) := by omega
        rw [Equiv.swap_apply_right, swapped, swapped, if_neg (by omega), if_neg (by omega), if_neg hold,
          if_pos (by omega), Nat.add_sub_cancel_left]
      · have hr1 : (r1 ≤ i ∧ i < r1 + (len + 1)) ↔ r1 ≤ i ∧ i < r1 + len := by omega
        have hr2 : (r2 ≤ i ∧ i < r2 + (len + 1)) ↔ r2 ≤ i ∧ i < r2 + len := by omega
        simp only [Equiv.swap_apply_of_ne_of_ne h1 h2, swapped, hr1, hr2]

-- ---------------------------------------------------------------------------
-- Sums
-- ---------------------------------------------------------------------------

/-- The loop over `nleft` bytes from `w` on that all sums here are made by. They
differ in what they add for a last odd byte. The accumulator has 32 bits; where
it is an `int` there are twenty bytes, too few for its sign. -/
def sumLoop (o : Order) (last : Nat → Nat) (m : Mem) : Nat → Nat → Nat → Nat
  | w, nleft + 2, sum => sumLoop o last m (w + 2) nleft ((sum + load16 o m w) % 2 ^ 32)
  | w, 1, sum => (sum + last (m w).toNat) % 2 ^ 32
  | _, 0, sum => sum

/-- `sin_ip4_cksum`, the complement being cut to 16 bits. Both members of its
union are 16 bits wide, so an odd byte is added as it is in either order. -/
def sinIp4Cksum (o : Order) (m : Mem) (addr len : Nat) : Nat :=
  65535 - fold (sumLoop o (fun b => b) m addr len 0)

variable {o : Order} {last : Nat → Nat} {m m' : Mem} {a n sum : Nat}

theorem words_sum_le (h : ∀ b ∈ l, b < 256) : (o.words l).sum ≤ 65535 * ((l.length + 1) / 2) := by
  induction l using Order.words.induct with
  | case1 a b l ih =>
    have hword := @Order.word_lt o a b (h a (by simp)) (h b (by simp))
    have hl := ih fun b hb => h b (by simp [hb])
    simp only [Order.words, List.sum_cons, List.length_cons]
    omega
  | case2 a =>
    have hword := @Order.word_lt o a 0 (h a (by simp)) (by decide)
    simp only [Order.words, List.sum_cons, List.sum_nil, List.length_cons, List.length_nil]
    omega
  | case3 => simp [Order.words]

/-- An odd byte is filled with a zero behind it. -/
theorem sumLoop_eq (hlast : n % 2 = 0 ∨ ∀ b, last b = o.word b 0) (h : sum < 2 ^ 32) :
    sumLoop o last m a n sum = (sum + (o.words (bytes m a n)).sum) % 2 ^ 32 := by
  induction a, n, sum using sumLoop.induct o m with
  | case1 w nleft sum ih =>
    have hwords : (o.words (bytes m w (nleft + 2))).sum =
        load16 o m w + (o.words (bytes m (w + 2) nleft)).sum := List.sum_cons
    have hrest : nleft % 2 = 0 ∨ ∀ b, last b = o.word b 0 := by rwa [← Nat.add_mod_right nleft 2]
    rw [sumLoop, ih hrest (Nat.mod_lt _ (by decide)), hwords, Nat.mod_add_mod, Nat.add_assoc]
  | case2 w sum =>
    rw [sumLoop, hlast.resolve_left (by decide)]
    rfl
  | case3 w sum => exact (Nat.mod_eq_of_lt h).symm

theorem sumLoop_mod (hlast : n % 2 = 0 ∨ ∀ b, last b = o.word b 0) :
    sumLoop o last m a n (sum % 2 ^ 32) = (sum + (o.words (bytes m a n)).sum) % 2 ^ 32 := by
  rw [sumLoop_eq hlast (Nat.mod_lt _ (by decide)), Nat.mod_add_mod]

theorem bytes_sum_lt (hn : n < 65536) : (o.words (bytes m a n)).sum < 2 ^ 31 := by
  have hle := words_sum_le (o := o) (l := bytes m a n) fun b hb => bytes_lt hb
  rw [bytes_length] at hle
  omega

theorem sinIp4Cksum_eq (hn : n < 65536) (heven : n % 2 = 0) :
    sinIp4Cksum o m a n = 65535 - norm (o.words (bytes m a n)).sum := by
  have hlt : (o.words (bytes m a n)).sum < 2 ^ 32 := (bytes_sum_lt hn).trans (by decide)
  rw [sinIp4Cksum, sumLoop_eq (.inl heven) (by decide), Nat.zero_add, Nat.mod_eq_of_lt hlt, fold_eq hlt]

-- ---------------------------------------------------------------------------
-- The IPv4 header
-- ---------------------------------------------------------------------------

theorem load16_ether : load16 o m etherType = o.flip 0x0800 ↔ load16 .big m etherType = 0x0800 := by
  rw [load16_flip]
  refine ⟨fun h => Order.flip_inj h load16_lt (by decide), fun h => congrArg o.flip h⟩

/-- The sum over a header without options is minus zero. -/
def IpCksumOk (m : Mem) : Prop := OnesComplement.sum (Order.big.words (bytes m iphdr 20)) = 0xFFFF

instance (m : Mem) : Decidable (IpCksumOk m) := inferInstanceAs (Decidable (_ = _))

theorem ones_bytes (o : Order) (m : Mem) (a n : Nat) :
    OnesComplement.sum (Order.big.words (bytes m a n)) = 0xFFFF ↔
      (o.words (bytes m a n)).sum ≠ 0 ∧ (o.words (bytes m a n)).sum % 65535 = 0 :=
  sum_words_ones o fun _ => bytes_lt

def addrsSwapped (m : Mem) : Mem := swapped (swapped m etherShost etherDhost 6) ipSrc ipDst 4

theorem sinMemswp_addrs (m : Mem) :
    sinMemswp (sinMemswp m etherShost etherDhost 6) ipSrc ipDst 4 = addrsSwapped m := by
  rw [sinMemswp_eq (.inl (by decide)), sinMemswp_eq (.inr (by decide))]
  rfl

theorem addrsSwapped_other {i : Nat} (h : etherType ≤ i ∧ i < ipSrc ∨ ipPayload ≤ i) :
    addrsSwapped m i = m i := by
  simp only [etherType, ipSrc, ipPayload] at h
  rw [addrsSwapped, swapped_other (by simp only [ipSrc]; omega) (by simp only [ipDst]; omega),
    swapped_other (by simp only [etherShost]; omega) (by simp only [etherDhost]; omega)]

theorem addrsSwapped_mac (m : Mem) (hk : k < 6) : addrsSwapped m (etherDhost + k) = m (etherShost + k) ∧
    addrsSwapped m (etherShost + k) = m (etherDhost + k) := by
  interval_cases k <;> exact ⟨rfl, rfl⟩

theorem addrsSwapped_ip (m : Mem) (hk : k < 4) :
    addrsSwapped m (ipSrc + k) = m (ipDst + k) ∧ addrsSwapped m (ipDst + k) = m (ipSrc + k) := by
  interval_cases k <;> exact ⟨rfl, rfl⟩

theorem header_sum (o : Order) (m : Mem) :
    (o.words (bytes m iphdr 20)).sum = load16 o m 14 + (load16 o m 16 + (load16 o m 18 + (load16 o m 20 +
      (load16 o m 22 + (load16 o m ipSum + (load16 o m 26 + (load16 o m 28 + (load16 o m 30 +
        load16 o m 32)))))))) := rfl

theorem header_swapped (o : Order) (m : Mem) :
    (o.words (bytes (addrsSwapped m) iphdr 20)).sum = (o.words (bytes m iphdr 20)).sum := by
  rw [header_sum, header_sum]
  simp only [load16, addrsSwapped, swapped, ipSum, ipSrc, ipDst, etherShost, etherDhost]
  simp
  omega

theorem header_store (o : Order) (m : Mem) (hv : v < 65536) :
    (o.words (bytes (store16 o m ipSum v) iphdr 20)).sum + load16 o m ipSum =
      (o.words (bytes m iphdr 20)).sum + v := by
  have hlow : ∀ j, j + 1 < ipSum → load16 o (store16 o m ipSum v) j = load16 o m j :=
    fun j hj => load16_store16_other (.inl hj)
  have hhigh : ∀ j, ipSum + 1 < j → load16 o (store16 o m ipSum v) j = load16 o m j :=
    fun j hj => load16_store16_other (.inr hj)
  rw [header_sum, header_sum, load16_store16, Nat.mod_eq_of_lt hv, hlow 14 (by decide), hlow 16 (by decide),
    hlow 18 (by decide), hlow 20 (by decide), hlow 22 (by decide), hhigh 26 (by decide), hhigh 28 (by decide),
    hhigh 30 (by decide), hhigh 32 (by decide)]
  omega

theorem header_summed (o : Order) (m : Mem) :
    IpCksumOk (store16 o m ipSum (sinIp4Cksum o (store16 o m ipSum 0) iphdr 20)) := by
  have hlt : 65535 - norm (o.words (bytes (store16 o m ipSum 0) iphdr 20)).sum < 65536 := by omega
  have hzero := header_store o m (v := 0) (by decide)
  have hnew := header_store o m hlt
  have hcompl := add_compl (o.words (bytes (store16 o m ipSum 0) iphdr 20)).sum
  rw [IpCksumOk, ones_bytes o, sinIp4Cksum_eq (by decide) rfl]
  omega

end Libsinet.Ip4
