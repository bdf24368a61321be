import Libsinet.Ip4

/-!
# Echo replies

`sin_ip4_icmp.c` turns an echo request into its reply in place. The sum of the
IPv4 header is made anew over a header that still holds the old sum, and that of
the message is brought up to date by the difference of the two types.
-/

namespace Libsinet.Ip4

open Bytes OnesComplement

-- ---------------------------------------------------------------------------
-- The functions
-- ---------------------------------------------------------------------------

def icmpType : Nat := ipPayload
def icmpCode : Nat := ipPayload + 1
def icmpCksum : Nat := ipPayload + 2
def icmpId : Nat := ipPayload + 4
def icmpSeq : Nat := ipPayload + 6

def icmpData : Nat := ipPayload + 8

def sinIp4IcmpMinlen : Nat := 14 + 20 + 16

/-- `sin_ip4_icmp_taste` and `sin_ip4_icmp_repl_taste`, which differ in the type
they look for. -/
def icmpTaste (o : Order) (pkt : SinPkt) (type : Nat) : Bool :=
  if pkt.len < sinIp4IcmpMinlen then false
  else if load16 o pkt.buf etherType ≠ o.flip 0x0800 then false
  else if ipV pkt.buf ≠ 0x4 then false
  else if ipP pkt.buf ≠ 0x1 then false
  else if (pkt.buf icmpType).toNat ≠ type then false
  else true

def sinIp4IcmpTaste (o : Order) (pkt : SinPkt) : Bool := icmpTaste o pkt 0x8

def sinIp4IcmpReplTaste (o : Order) (pkt : SinPkt) : Bool := icmpTaste o pkt 0x0

def sinIp4IcmpReq2rpl (o : Order) (pkt : SinPkt) : SinPkt :=
  let m := sinMemswp pkt.buf etherShost etherDhost 6
  let m := sinMemswp m ipSrc ipDst 4
  let m := store16 o m ipSum (sinIp4Cksum o m iphdr 20)
  let m := Function.update m icmpType 0x0
  { pkt with buf := store16 o m icmpCksum (load16 o m icmpCksum + o.flip 0x0800) }

theorem icmpTaste_iff {o : Order} {pkt : SinPkt} {type : Nat} :
    icmpTaste o pkt type = true ↔ sinIp4IcmpMinlen ≤ pkt.len ∧ load16 o pkt.buf etherType = o.flip 0x0800 ∧
      ipV pkt.buf = 0x4 ∧ ipP pkt.buf = 0x1 ∧ (pkt.buf icmpType).toNat = type := by
  simp [icmpTaste]

-- ---------------------------------------------------------------------------
-- The IPv4 header
-- ---------------------------------------------------------------------------

variable {o : Order} {m : Mem} {pkt : SinPkt}

def replySum (o : Order) (m : Mem) : Nat := 65535 - norm (o.words (bytes m iphdr 20)).sum

def replyCksum (o : Order) (m : Mem) : Nat := load16 o m icmpCksum + o.flip 0x0800

theorem req2rpl_buf (o : Order) (pkt : SinPkt) :
    (sinIp4IcmpReq2rpl o pkt).buf = store16 o (Function.update
      (store16 o (addrsSwapped pkt.buf) ipSum (replySum o pkt.buf)) icmpType 0) icmpCksum
        (replyCksum o pkt.buf) := by
  have hsum : sinIp4Cksum o (addrsSwapped pkt.buf) iphdr 20 = replySum o pkt.buf := by
    rw [sinIp4Cksum_eq (by decide) rfl, header_swapped, replySum]
  have hcksum : load16 o (Function.update (store16 o (addrsSwapped pkt.buf) ipSum (replySum o pkt.buf))
      icmpType 0) icmpCksum = load16 o pkt.buf icmpCksum := by
    simp [load16, addrsSwapped, swapped, store16_other, ipSum, icmpType, icmpCksum, ipPayload, ipSrc, ipDst,
      etherShost, etherDhost]
  simp only [sinIp4IcmpReq2rpl, sinMemswp_addrs, hsum, hcksum]
  rfl

theorem req2rpl_header (o : Order) (pkt : SinPkt) :
    bytes (sinIp4IcmpReq2rpl o pkt).buf iphdr 20 =
      bytes (store16 o (addrsSwapped pkt.buf) ipSum (replySum o pkt.buf)) iphdr 20 := by
  refine bytes_congr fun k hk => ?_
  simp only [iphdr]
  rw [req2rpl_buf, store16_other (by simp [icmpCksum, ipPayload]; omega) (by simp [icmpCksum, ipPayload]; omega),
    Function.update_of_ne (by simp [icmpType, ipPayload]; omega)]

/-- Over a header that is correct the new sum is always 0. -/
theorem replySum_ok (o : Order) (h : IpCksumOk m) : replySum o m = 0 := by
  rw [replySum, norm_eq_ones.mpr ((ones_bytes o m iphdr 20).mp h)]

theorem replyHeader_ok (ht : sinIp4IcmpTaste o pkt = true) (hok : IpCksumOk pkt.buf) :
    IpCksumOk (sinIp4IcmpReq2rpl o pkt).buf ↔
      load16 o pkt.buf ipSum = 0 ∨ load16 o pkt.buf ipSum = 0xFFFF := by
  have hlt := @load16_lt o pkt.buf ipSum
  obtain ⟨-, hmod⟩ := (ones_bytes o pkt.buf iphdr 20).mp hok
  have hstore := header_store o (addrsSwapped pkt.buf) (v := 0) (by decide)
  have hold : load16 o (addrsSwapped pkt.buf) ipSum = load16 o pkt.buf ipSum := by
    simp [load16, addrsSwapped, swapped, ipSum, ipSrc, ipDst, etherShost, etherDhost]
  rw [header_swapped, hold] at hstore
  -- the version is in the first byte, so the words are not all zero
  have hpos : (o.words (bytes (store16 o (addrsSwapped pkt.buf) ipSum 0) iphdr 20)).sum ≠ 0 := by
    intro hzero
    obtain ⟨-, -, hv, -⟩ := icmpTaste_iff.mp ht
    have hfirst : ((store16 o (addrsSwapped pkt.buf) ipSum 0) iphdr).toNat = 0 :=
      Order.words_sum_zero.mp hzero _ List.mem_cons_self
    rw [store16_other (by decide) (by decide)] at hfirst
    have hsame : addrsSwapped pkt.buf iphdr = pkt.buf iphdr := rfl
    rw [ipV, ← hsame, hfirst] at hv
    cases hv
  rw [IpCksumOk, ones_bytes o, req2rpl_header, replySum_ok o hok]
  omega

/-- The header of a reply is correct only where the old sum was a zero itself. -/
theorem req2rpl_ipCksum (ht : sinIp4IcmpTaste o pkt = true) (hok : IpCksumOk pkt.buf) :
    IpCksumOk (sinIp4IcmpReq2rpl o pkt).buf ↔
      load16 o pkt.buf ipSum = 0 ∨ load16 o pkt.buf ipSum = 0xFFFF :=
  replyHeader_ok ht hok

/-- An echo request from 10.0.0.1 to 10.0.0.2 with eight bytes of data, and its
sum for the given identifier. -/
def ping (cksum id : Nat) : SinPkt where
  buf := ofList ([2, 0, 0, 0, 0, 2, 2, 0, 0, 0, 0, 1, 0x08, 0x00] ++
    [0x45, 0, 0, 36, 0, 1, 0, 0, 64, 1, 0x66, 0xD6, 10, 0, 0, 1, 10, 0, 0, 2] ++
    [8, 0, cksum / 256, cksum, id / 256, id, 0, 0])
  len := 50

theorem req2rpl_ipCksum_ping :
    IpCksumOk (sinIp4IcmpReq2rpl .little (ping 0xF7FE 1)).buf ↔
      load16 .little (ping 0xF7FE 1).buf ipSum = 0 ∨ load16 .little (ping 0xF7FE 1).buf ipSum = 0xFFFF :=
  req2rpl_ipCksum (by decide) (by decide)

theorem ping_badHeader :
    ∃ pkt, sinIp4IcmpTaste .little pkt = true ∧ ipHl pkt.buf = 5 ∧ IpCksumOk pkt.buf ∧
      ¬ IpCksumOk (sinIp4IcmpReq2rpl .little pkt).buf :=
  ⟨ping 0xF7FE 1, by decide, by decide, by decide, by decide⟩

-- ---------------------------------------------------------------------------
-- The message
-- ---------------------------------------------------------------------------

def IcmpCksumOk (m : Mem) (n : Nat) : Prop :=
  OnesComplement.sum (Order.big.words (bytes m ipPayload (n + 8))) = 0xFFFF

instance (m : Mem) (n : Nat) : Decidable (IcmpCksumOk m n) := inferInstanceAs (Decidable (_ = _))

/-- What the reply to a request has to be, its message having `n` bytes of data. -/
structure EchoReply (m m' : Mem) (n : Nat) : Prop where
  type : (m' icmpType).toNat = 0
  code : m' icmpCode = m icmpCode
  id : load16 .big m' icmpId = load16 .big m icmpId
  seq : load16 .big m' icmpSeq = load16 .big m icmpSeq
  data : ∀ k, k < n → m' (icmpData + k) = m (icmpData + k)
  cksum : IcmpCksumOk m' n

theorem req2rpl_other (o : Order) (pkt : SinPkt) {i : Nat} (hi : icmpType < i)
    (hc : i ≠ icmpCksum) (hc' : i ≠ icmpCksum + 1) : (sinIp4IcmpReq2rpl o pkt).buf i = pkt.buf i := by
  have hlow : ipSum + 1 < i := Nat.lt_trans (by decide) hi
  rw [req2rpl_buf, store16_other hc hc', Function.update_of_ne hi.ne',
    store16_other (Nat.lt_of_succ_lt hlow).ne' hlow.ne', addrsSwapped_other (.inr hi.le)]

theorem req2rpl_type (o : Order) (pkt : SinPkt) : (sinIp4IcmpReq2rpl o pkt).buf icmpType = 0 := by
  rw [req2rpl_buf, store16_other (by decide) (by decide), Function.update_self]

theorem req2rpl_low (o : Order) (pkt : SinPkt) {i : Nat} (hi : etherType ≤ i) (hsum : i < ipSum) :
    (sinIp4IcmpReq2rpl o pkt).buf i = pkt.buf i := by
  have htype : i < icmpType := Nat.lt_trans hsum (by decide)
  have hcksum : i < icmpCksum := Nat.lt_trans htype (by decide)
  rw [req2rpl_buf, store16_other hcksum.ne (Nat.lt_succ_of_lt hcksum).ne, Function.update_of_ne htype.ne,
    store16_other hsum.ne (Nat.lt_succ_of_lt hsum).ne, addrsSwapped_other (.inl ⟨hi, Nat.lt_trans hsum (by decide)⟩)]

theorem req2rpl_replTaste (ht : sinIp4IcmpTaste o pkt = true) :
    sinIp4IcmpReplTaste o (sinIp4IcmpReq2rpl o pkt) = true := by
  obtain ⟨hlen, hether, hv, hp, -⟩ := icmpTaste_iff.mp ht
  refine icmpTaste_iff.mpr ⟨hlen, ?_, ?_, ?_, ?_⟩
  · rwa [load16, req2rpl_low o pkt le_rfl (by decide), req2rpl_low o pkt (by decide) (by decide)]
  · rwa [ipV, req2rpl_low o pkt (by decide) (by decide)]
  · rwa [ipP, req2rpl_low o pkt (by decide) (by decide)]
  · rw [req2rpl_type]
    rfl

theorem req2rpl_load (o p : Order) (pkt : SinPkt) {i : Nat} (hi : icmpCksum + 1 < i) :
    load16 p (sinIp4IcmpReq2rpl o pkt).buf i = load16 p pkt.buf i := by
  have hi' : icmpCksum < i := Nat.lt_of_succ_lt hi
  have htype : icmpType < i := Nat.lt_trans (by decide) hi
  rw [load16, req2rpl_other o pkt htype hi'.ne' hi.ne',
    req2rpl_other o pkt (Nat.lt_succ_of_lt htype) (Nat.lt_succ_of_lt hi').ne' (Nat.lt_succ_of_lt hi).ne', load16]

theorem req2rpl_data (o : Order) (pkt : SinPkt) (n : Nat) :
    bytes (sinIp4IcmpReq2rpl o pkt).buf icmpData n = bytes pkt.buf icmpData n := by
  refine bytes_congr fun k _ => req2rpl_other o pkt ?_ ?_ ?_ <;>
    simp only [icmpData, icmpType, icmpCksum, ipPayload] <;> omega

theorem message_sum (o : Order) (m : Mem) (n : Nat) :
    (o.words (bytes m ipPayload (n + 8))).sum = load16 o m icmpType + (load16 o m icmpCksum +
      (load16 o m icmpId + (load16 o m icmpSeq + (o.words (bytes m icmpData n)).sum))) := rfl

theorem req2rpl_typeWord (ht : sinIp4IcmpTaste o pkt = true) :
    load16 o pkt.buf icmpType = load16 o (sinIp4IcmpReq2rpl o pkt).buf icmpType + o.flip 0x0800 := by
  obtain ⟨-, -, -, -, htype⟩ := icmpTaste_iff.mp ht
  have hcode := req2rpl_other o pkt (i := icmpType + 1) (by decide) (by decide) (by decide)
  rw [load16, load16, req2rpl_type, hcode, htype]
  cases o <;> simp [Order.word, Order.flip] <;> omega

theorem req2rpl_cksumWord (o : Order) (pkt : SinPkt) :
    load16 o (sinIp4IcmpReq2rpl o pkt).buf icmpCksum = replyCksum o pkt.buf % 65536 := by
  rw [req2rpl_buf, load16_store16]

theorem replyMessage_ok (ht : sinIp4IcmpTaste o pkt = true) (hok : IcmpCksumOk pkt.buf n) :
    IcmpCksumOk (sinIp4IcmpReq2rpl o pkt).buf n ↔ load16 o pkt.buf icmpCksum + o.flip 0x0800 < 65536 := by
  have hnew := message_sum o (sinIp4IcmpReq2rpl o pkt).buf n
  obtain ⟨hne, hmod⟩ := (ones_bytes o pkt.buf ipPayload (n + 8)).mp hok
  rw [message_sum, req2rpl_typeWord ht] at hne hmod
  rw [req2rpl_load o o pkt (i := icmpId) (by decide), req2rpl_load o o pkt (i := icmpSeq) (by decide),
    req2rpl_data, req2rpl_cksumWord, replyCksum] at hnew
  have hlt := @load16_lt o pkt.buf icmpCksum
  have hflip : 8 ≤ o.flip 0x0800 ∧ o.flip 0x0800 ≤ 0x0800 := by cases o <;> decide
  rw [IcmpCksumOk, ones_bytes o, hnew]
  omega

/-- The reply is right where the sum's addition does not carry. -/
theorem req2rpl_echoReply (ht : sinIp4IcmpTaste o pkt = true) (hok : IcmpCksumOk pkt.buf n) :
    EchoReply pkt.buf (sinIp4IcmpReq2rpl o pkt).buf n ↔
      load16 o pkt.buf icmpCksum + o.flip 0x0800 < 65536 := by
  rw [← replyMessage_ok ht hok]
  constructor
  · exact EchoReply.cksum
  · intro h
    refine ⟨?_, ?_, ?_, ?_, fun k _ => ?_, h⟩
    · rw [req2rpl_type]
      rfl
    · exact req2rpl_other o pkt (by decide) (by decide) (by decide)
    · exact req2rpl_load o .big pkt (by decide)
    · exact req2rpl_load o .big pkt (by decide)
    · apply req2rpl_other <;> simp only [icmpData, icmpType, icmpCksum, ipPayload] <;> omega

theorem req2rpl_echoReply_ping :
    EchoReply (ping 0xF7FE 1).buf (sinIp4IcmpReq2rpl .big (ping 0xF7FE 1)).buf 8 ↔
      load16 .big (ping 0xF7FE 1).buf icmpCksum + Order.big.flip 0x0800 < 65536 :=
  req2rpl_echoReply (by decide) (by decide)

theorem ping_badReply :
    (∃ pkt n, sinIp4IcmpTaste .little pkt = true ∧ ipHl pkt.buf = 5 ∧ IcmpCksumOk pkt.buf n ∧
      ¬ EchoReply pkt.buf (sinIp4IcmpReq2rpl .little pkt).buf n) ∧
    ∃ pkt n, sinIp4IcmpTaste .big pkt = true ∧ ipHl pkt.buf = 5 ∧ IcmpCksumOk pkt.buf n ∧
      ¬ EchoReply pkt.buf (sinIp4IcmpReq2rpl .big pkt).buf n :=
  ⟨⟨ping 0xF8FF 0xFEFF, 8, by decide, by decide, by decide, mt EchoReply.cksum (by decide)⟩,
    ping 0xF8FF 0xFEFF, 8, by decide, by decide, by decide, mt EchoReply.cksum (by decide)⟩

-- ---------------------------------------------------------------------------
-- The frame
-- ---------------------------------------------------------------------------

/-- A frame with an IPv4 header and, twenty bytes behind its start, an echo request. -/
structure EchoRequest (pkt : SinPkt) : Prop where
  len : 50 ≤ pkt.len
  ether : load16 .big pkt.buf etherType = 0x0800
  version : ipV pkt.buf = 4
  protocol : ipP pkt.buf = 1
  type : (pkt.buf icmpType).toNat = 8

/-- What comes back to whoever sent an echo request: the addresses exchanged,
the type that of a reply, and all else as it was but for the two sums. Either
is correct only for some of its old values, if it was so in the request. -/
structure Replied (o : Order) (m m' : Mem) : Prop where
  mac : ∀ k < 6, m' (etherDhost + k) = m (etherShost + k) ∧ m' (etherShost + k) = m (etherDhost + k)
  ip : ∀ k < 4, m' (ipSrc + k) = m (ipDst + k) ∧ m' (ipDst + k) = m (ipSrc + k)
  type : (m' icmpType).toNat = 0
  other : ∀ i, etherType ≤ i ∧ i < ipSum ∨ i = icmpCode ∨ icmpId ≤ i → m' i = m i
  ipCksum : IpCksumOk m → (IpCksumOk m' ↔ load16 o m ipSum = 0 ∨ load16 o m ipSum = 0xFFFF)
  icmpCksum : ∀ n, IcmpCksumOk m n → (IcmpCksumOk m' n ↔ load16 o m icmpCksum + o.flip 0x0800 < 65536)

theorem icmpTaste_echoRequest : sinIp4IcmpTaste o pkt = true ↔ EchoRequest pkt := by
  rw [sinIp4IcmpTaste, icmpTaste_iff, load16_ether]
  exact ⟨fun ⟨hlen, hether, hv, hp, htype⟩ => ⟨hlen, hether, hv, hp, htype⟩,
    fun h => ⟨h.len, h.ether, h.version, h.protocol, h.type⟩⟩

theorem req2rpl_addrs (o : Order) (pkt : SinPkt) {i : Nat} (hi : i < etherType ∨ ipSrc ≤ i ∧ i < ipPayload) :
    (sinIp4IcmpReq2rpl o pkt).buf i = addrsSwapped pkt.buf i := by
  simp only [etherType, ipSrc, ipPayload] at hi
  rw [req2rpl_buf, store16_other, Function.update_of_ne, store16_other] <;>
    simp only [icmpCksum, icmpType, ipSum, ipPayload] <;> omega

theorem req2rpl_replied (ht : sinIp4IcmpTaste o pkt = true) : Replied o pkt.buf (sinIp4IcmpReq2rpl o pkt).buf := by
  refine ⟨fun k hk => ?_, fun k hk => ?_, ?_, fun i hi => ?_, replyHeader_ok ht, fun n => replyMessage_ok ht⟩
  · rw [req2rpl_addrs o pkt (.inl (by simp only [etherDhost, etherType]; omega)),
      req2rpl_addrs o pkt (.inl (by simp only [etherShost, etherType]; omega))]
    exact addrsSwapped_mac pkt.buf hk
  · rw [req2rpl_addrs o pkt (.inr (by simp only [ipSrc, ipPayload]; omega)),
      req2rpl_addrs o pkt (.inr (by simp only [ipSrc, ipDst, ipPayload]; omega))]
    exact addrsSwapped_ip pkt.buf hk
  · rw [req2rpl_type]
    rfl
  · rcases hi with ⟨hlow, hsum⟩ | rfl | hid
    · exact req2rpl_low o pkt hlow hsum
    · exact req2rpl_other o pkt (by decide) (by decide) (by decide)
    · simp only [icmpId, ipPayload] at hid
      apply req2rpl_other <;> simp only [icmpType, icmpCksum, ipPayload] <;> omega

end Libsinet.Ip4
