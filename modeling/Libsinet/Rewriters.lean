import Libsinet.Ip4Icmp
import Libsinet.UdpMirror

/-!
# What the tasters let through

A taster looks at a few fields, all at fixed offsets, and the rewriter behind it
takes the header at byte 34 for the one that it tasted, and a UDP length for the
length of what was received.
-/

namespace Libsinet.Ip4

open Bytes

variable {o : Order} {m m' : Mem} {pkt : SinPkt} {n : Nat}

-- ---------------------------------------------------------------------------
-- Tasters with their rewriters
-- ---------------------------------------------------------------------------

inductive Rewriter
  | icmp
  | udpm (args : UdpmParams)

def Rewriter.taste (o : Order) : Rewriter → SinPkt → Bool
  | .icmp => sinIp4IcmpTaste o
  | .udpm args => udpmTaste o args

/-- There is no `SIN_DEBUG` in `sin_ip4_icmp_req2rpl`. -/
def Rewriter.rewrite (o : Order) (debug : Bool) : Rewriter → SinPkt → SinPkt
  | .icmp => sinIp4IcmpReq2rpl o
  | .udpm _ => sinIp4UdpMirror o debug

def Rewriter.extent (m : Mem) : Rewriter → Nat
  | .icmp => iphdr + ipLen m
  | .udpm _ => max (iphdr + ipLen m) (ipPayload + udpLen m)

/-- Where an IPv4 header says that the next header is. Only the first fragment
has one. -/
def transport (m : Mem) : Option Nat := if ipOff m = 0 then some (iphdr + 4 * ipHl m) else none

theorem transport_payload : transport m = some ipPayload ↔ ipHl m = 5 ∧ ipOff m = 0 := by
  simp only [transport, iphdr, ipPayload, Option.ite_none_right_eq_some, Option.some.injEq]
  omega

/-- A rewriter meets the frame it takes this one for: its header is the one that
the IPv4 header designates, nothing else behind the IPv4 header changes, and the
result has nothing in it from behind the frame. -/
structure Rewritable (o : Order) (r : Rewriter) (pkt : SinPkt) : Prop where
  header : transport pkt.buf = some ipPayload
  extent : r.extent pkt.buf ≤ pkt.len
  changes : ∀ debug i, ipPayload ≤ i → (r.rewrite o debug pkt).buf i ≠ pkt.buf i →
    ∃ t, transport pkt.buf = some t ∧ t ≤ i ∧ i < t + 8
  reads : ∀ debug m', Agree pkt.len pkt.buf m' →
    Agree pkt.len (r.rewrite o debug pkt).buf (r.rewrite o debug ⟨m', pkt.len⟩).buf

-- ---------------------------------------------------------------------------
-- Changes
-- ---------------------------------------------------------------------------

theorem mirror_other (debug : Bool) {i : Nat} (hi : ipPayload + 8 ≤ i) :
    (sinIp4UdpMirror o debug pkt).buf i = pkt.buf i := by
  have hports : ∀ m, swapped m udpSrcPort udpDstPort 2 i = m i := by
    intro m
    apply swapped_other <;> simp only [udpSrcPort, udpDstPort, ipPayload] at hi ⊢ <;> omega
  have haddrs : addrsSwapped pkt.buf i = pkt.buf i := addrsSwapped_other (.inr (by omega))
  have hsum : ∀ m v, store16 o m ipSum v i = m i := by
    intro m v
    apply store16_other <;> simp only [ipSum, ipPayload] at hi ⊢ <;> omega
  have hcksum : ∀ m v, store16 o m udpChecksum v i = m i := by
    intro m v
    apply store16_other <;> simp only [udpChecksum, ipPayload] at hi ⊢ <;> omega
  cases debug <;> simp [sinIp4UdpMirror, sinMemswp_addrs, sinMemswp_ports, hports, haddrs, hsum, hcksum]

theorem Rewriter.rewrite_other (r : Rewriter) (debug : Bool) {i : Nat} (hi : ipPayload + 8 ≤ i) :
    (r.rewrite o debug pkt).buf i = pkt.buf i := by
  cases r with
  | icmp => apply req2rpl_other <;> simp only [icmpType, icmpCksum, ipPayload] at hi ⊢ <;> omega
  | udpm _ => exact mirror_other debug hi

-- ---------------------------------------------------------------------------
-- Reads
-- ---------------------------------------------------------------------------

theorem swapped_agree (h : Agree n m m') (h1 : r1 + len ≤ n) (h2 : r2 + len ≤ n) :
    Agree n (swapped m r1 r2 len) (swapped m' r1 r2 len) := by
  intro i hi
  simp only [swapped]
  split_ifs
  · exact h _ (by omega)
  · exact h _ (by omega)
  · exact h i hi

theorem addrsSwapped_agree (h : Agree n m m') (hn : ipPayload ≤ n) :
    Agree n (addrsSwapped m) (addrsSwapped m') := by
  have hmac : Agree n (swapped m etherShost etherDhost 6) (swapped m' etherShost etherDhost 6) :=
    swapped_agree h (Nat.le_trans (by decide) hn) (Nat.le_trans (by decide) hn)
  exact swapped_agree hmac (Nat.le_trans (by decide) hn) (Nat.le_trans (by decide) hn)

theorem sumLoop_agree (h : Agree n m m') (hn : w + nleft ≤ n) :
    sumLoop o last m' w nleft sum = sumLoop o last m w nleft sum := by
  induction w, nleft, sum using sumLoop.induct o m with
  | case1 w nleft sum ih =>
    rw [sumLoop, h.load16 (by omega), ih (by omega), sumLoop]
  | case2 w sum => rw [sumLoop, h w (by omega), sumLoop]
  | case3 w sum => rfl

theorem sinIp4Cksum_agree (h : Agree n m m') (hn : ipPayload ≤ n) :
    sinIp4Cksum o m' iphdr 20 = sinIp4Cksum o m iphdr 20 := by
  rw [sinIp4Cksum, sumLoop_agree h hn, sinIp4Cksum]

theorem debugSum_agree (h : Agree n m m') (hn : ipPayload + 8 ≤ n) (hlen : ipPayload + udpLen m ≤ n) :
    debugSum o m' = debugSum o m := by
  simp only [ipPayload] at hn hlen
  have hfield : ∀ a k wsum, a + k ≤ udpData → sinIpChksumUpdate o m' a k wsum = sinIpChksumUpdate o m a k wsum :=
    fun a k wsum ha => sumLoop_agree h (Nat.le_trans ha hn)
  have hload : load16 o m' udpLength = load16 o m udpLength := h.load16 (by simp only [udpLength, ipPayload]; omega)
  have hdata : ∀ wsum, sinIpChksumUpdateData o m' udpData (udpLen m - 8) wsum =
      sinIpChksumUpdateData o m udpData (udpLen m - 8) wsum :=
    fun wsum => sumLoop_agree h (by simp only [udpData, ipPayload]; omega)
  simp only [debugSum, hload, flip_load16]
  rw [← udpLen, hdata, hfield ipSrc 4 _ (by decide), hfield ipDst 4 _ (by decide), hfield udpLength 2 _ (by decide),
    hfield udpSrcPort 2 _ (by decide), hfield udpDstPort 2 _ (by decide), hfield udpLength 2 _ (by decide)]

theorem req2rpl_agree (h : Agree n m m') (hn : icmpData ≤ n) :
    Agree n (sinIp4IcmpReq2rpl o ⟨m, len⟩).buf (sinIp4IcmpReq2rpl o ⟨m', len⟩).buf := by
  have haddrs := addrsSwapped_agree h (Nat.le_trans (by decide) hn)
  have hsum := sinIp4Cksum_agree (o := o) haddrs (Nat.le_trans (by decide) hn)
  have htype := (haddrs.store16 (o := o) ipSum (sinIp4Cksum o (addrsSwapped m) iphdr 20)).update icmpType 0x0
  simp only [sinIp4IcmpReq2rpl, sinMemswp_addrs, hsum]
  rw [htype.load16 (Nat.lt_of_lt_of_le (by decide) hn)]
  exact htype.store16 icmpCksum _

theorem udpLen_addrs (o : Order) (m : Mem) (v : Nat) :
    udpLen (swapped (store16 o (store16 o (addrsSwapped m) ipSum 0) ipSum v) udpSrcPort udpDstPort 2) = udpLen m := by
  rw [store16_store16]
  exact load16_store16_other (.inr (by decide))

/-- Without a look at the UDP length where no sum is made. -/
theorem mirror_agree (debug : Bool) (h : Agree n m m') (hn : ipPayload + 8 ≤ n) (hlen : ipPayload + udpLen m ≤ n) :
    Agree n (sinIp4UdpMirror o debug ⟨m, len⟩).buf (sinIp4UdpMirror o debug ⟨m', len⟩).buf := by
  have haddrs := addrsSwapped_agree h (Nat.le_trans (by decide) hn)
  have hports : ∀ m m' : Mem, Agree n m m' →
      Agree n (swapped m udpSrcPort udpDstPort 2) (swapped m' udpSrcPort udpDstPort 2) :=
    fun m m' h => swapped_agree h (Nat.le_trans (by decide) hn) (Nat.le_trans (by decide) hn)
  cases debug with
  | false =>
    simp only [sinIp4UdpMirror, sinMemswp_addrs, sinMemswp_ports]
    exact hports _ _ haddrs
  | true =>
    have hzero := haddrs.store16 (o := o) ipSum 0
    have hsum := sinIp4Cksum_agree (o := o) hzero (Nat.le_trans (by decide) hn)
    have hall := hports _ _ (hzero.store16 (o := o) ipSum (sinIp4Cksum o (store16 o (addrsSwapped m) ipSum 0) iphdr 20))
    simp only [sinIp4UdpMirror, sinMemswp_addrs, sinMemswp_ports, ↓reduceIte, hsum]
    rw [debugSum_agree hall hn (by rwa [udpLen_addrs])]
    exact hall.store16 udpChecksum _

-- ---------------------------------------------------------------------------
-- What is missing in the tasters
-- ---------------------------------------------------------------------------

theorem Rewriter.taste_len {r : Rewriter} (ht : r.taste o pkt = true) : ipPayload + 8 ≤ pkt.len := by
  cases r with
  | icmp => exact Nat.le_trans (by decide) (icmpTaste_iff.mp ht).1
  | udpm args => exact (udpmTaste_iff.mp ht).1

theorem Rewriter.rewrite_agree {r : Rewriter} (debug : Bool) (hn : ipPayload + 8 ≤ pkt.len)
    (hlen : r.extent pkt.buf ≤ pkt.len) (h : Agree pkt.len pkt.buf m') :
    Agree pkt.len (r.rewrite o debug pkt).buf (r.rewrite o debug ⟨m', pkt.len⟩).buf := by
  cases r with
  | icmp => exact req2rpl_agree h hn
  | udpm args => exact mirror_agree debug h hn (Nat.le_trans (Nat.le_max_right _ _) hlen)

theorem taste_rewritable {r : Rewriter} (ht : r.taste o pkt = true) :
    Rewritable o r pkt ↔ ipHl pkt.buf = 5 ∧ ipOff pkt.buf = 0 ∧ r.extent pkt.buf ≤ pkt.len := by
  constructor
  · rintro ⟨hheader, hextent, -, -⟩
    obtain ⟨hhl, hoff⟩ := transport_payload.mp hheader
    exact ⟨hhl, hoff, hextent⟩
  · rintro ⟨hhl, hoff, hextent⟩
    have hheader := transport_payload.mpr ⟨hhl, hoff⟩
    refine ⟨hheader, hextent, ?_, ?_⟩
    · intro debug i hi hne
      refine ⟨ipPayload, hheader, hi, ?_⟩
      by_contra hlt
      exact hne (r.rewrite_other debug (Nat.le_of_not_lt hlt))
    · intro debug m' h
      exact r.rewrite_agree debug (Rewriter.taste_len ht) hextent h

theorem taste_rewritable_icmp :
    Rewritable .little .icmp (ping 0xF7FE 1) ↔
      ipHl (ping 0xF7FE 1).buf = 5 ∧ ipOff (ping 0xF7FE 1).buf = 0 ∧
        Rewriter.icmp.extent (ping 0xF7FE 1).buf ≤ (ping 0xF7FE 1).len :=
  taste_rewritable (by decide)

/-- A header with the option of type 8 (and length 4) before the message. -/
def optionFrame : SinPkt where
  buf := ofList ([2, 0, 0, 0, 0, 2, 2, 0, 0, 0, 0, 1, 0x08, 0x00] ++
    [0x46, 0, 0, 40, 0, 1, 0, 0, 64, 1, 0x5D, 0xCE, 10, 0, 0, 1, 10, 0, 0, 2] ++ [8, 4, 0, 0] ++
    [8, 0, 0xF7, 0xFE, 0, 1, 0, 0])
  len := 54

/-- A datagram that claims four bytes of data and has none. -/
def shortFrame (behind : List Nat) : SinPkt where
  buf := ofList ([2, 0, 0, 0, 0, 2, 2, 0, 0, 0, 0, 1, 0x08, 0x00] ++
    [0x45, 0, 0, 28, 0, 1, 0, 0, 64, 17, 0x66, 0xCE, 10, 0, 0, 1, 10, 0, 0, 2] ++
    [3, 232, 7, 208, 0, 12, 0, 0] ++ behind)
  len := 42

theorem taste_notRewritable :
    (sinIp4IcmpTaste .little optionFrame = true ∧ ipHl optionFrame.buf = 6 ∧
      (sinIp4IcmpReq2rpl .little optionFrame).buf ipPayload ≠ optionFrame.buf ipPayload) ∧
    udpmTaste .little ⟨1000, 2000⟩ (shortFrame []) = true ∧
      (∀ i < 42, (shortFrame [1]).buf i = (shortFrame []).buf i) ∧
      (sinIp4UdpMirror .little true (shortFrame [1])).buf udpChecksum ≠
        (sinIp4UdpMirror .little true (shortFrame [])).buf udpChecksum :=
  ⟨⟨by decide, by decide, by decide⟩, by decide, by decide, by decide⟩

end Libsinet.Ip4
