import Libsinet.Ip4

/-!
# Datagrams sent back

The UDP mirror of `udpm_sorter.c` exchanges the addresses and ports of a
datagram in place. Without `SIN_DEBUG` it leaves the sums alone, as they are
sums of the same words; with it, it makes them anew.
-/

namespace Libsinet.Ip4

open Bytes OnesComplement

-- ---------------------------------------------------------------------------
-- The functions
-- ---------------------------------------------------------------------------

def udpSrcPort : Nat := ipPayload
def udpDstPort : Nat := ipPayload + 2
def udpLength : Nat := ipPayload + 4
def udpChecksum : Nat := ipPayload + 6

def udpData : Nat := ipPayload + 8

def sinIp4UdpMinlen : Nat := 14 + 20 + 8

structure UdpmParams where
  portMin : Int
  portMax : Int

def udpmTaste (o : Order) (args : UdpmParams) (pkt : SinPkt) : Bool :=
  let dstPort : Int := o.flip (load16 o pkt.buf udpDstPort)
  let srcPort : Int := o.flip (load16 o pkt.buf udpSrcPort)
  if pkt.len < sinIp4UdpMinlen then false
  else if load16 o pkt.buf etherType ≠ o.flip 0x0800 then false
  else if ipV pkt.buf ≠ 0x4 then false
  else if ipP pkt.buf ≠ 0x11 then false
  else if o.flip (load16 o pkt.buf udpLength) < 8 then false
  else if dstPort > args.portMax ∨ dstPort < args.portMin then false
  else if srcPort > args.portMax ∨ srcPort < args.portMin then false
  else true

def sinIpChksumUpdate (o : Order) (m : Mem) (dp len wsum : Nat) : Nat := sumLoop o (fun _ => 0) m dp len wsum

def sinIpChksumUpdateData (o : Order) (m : Mem) (dp len wsum : Nat) : Nat :=
  sumLoop o (o.word · 0) m dp len wsum

/-- The bytes of the constant `ppad`. -/
def ppad : Mem := ofList [0x0, 0x11]

/-- The sum that the mirror makes with `SIN_DEBUG`. -/
def debugSum (o : Order) (m : Mem) : Nat :=
  let wsum := 0
  let wsum := sinIpChksumUpdate o m ipSrc 4 wsum
  let wsum := sinIpChksumUpdate o m ipDst 4 wsum
  let wsum := sinIpChksumUpdate o ppad 0 2 wsum
  let wsum := sinIpChksumUpdate o m udpLength 2 wsum
  let wsum := sinIpChksumUpdate o m udpSrcPort 2 wsum
  let wsum := sinIpChksumUpdate o m udpDstPort 2 wsum
  let wsum := sinIpChksumUpdate o m udpLength 2 wsum
  sinIpChksumUpdateData o m udpData (o.flip (load16 o m udpLength) - 8) wsum

def sinIp4UdpMirror (o : Order) (debug : Bool) (pkt : SinPkt) : SinPkt :=
  let m := sinMemswp pkt.buf etherShost etherDhost 6
  let m := sinMemswp m ipSrc ipDst 4
  let m :=
    if debug then
      let m := store16 o m ipSum 0
      store16 o m ipSum (sinIp4Cksum o m iphdr 20)
    else m
  let m := sinMemswp m udpSrcPort udpDstPort 2
  { pkt with buf := if debug then store16 o m udpChecksum (65535 - fold (debugSum o m)) else m }

variable {o : Order} {m : Mem} {pkt : SinPkt} {args : UdpmParams}

def udpLen (m : Mem) : Nat := load16 .big m udpLength

theorem udpmTaste_iff : udpmTaste o args pkt = true ↔ sinIp4UdpMinlen ≤ pkt.len ∧
    load16 o pkt.buf etherType = o.flip 0x0800 ∧ ipV pkt.buf = 0x4 ∧ ipP pkt.buf = 0x11 ∧ 8 ≤ udpLen pkt.buf ∧
    (load16 .big pkt.buf udpDstPort ≤ args.portMax ∧ args.portMin ≤ load16 .big pkt.buf udpDstPort) ∧
    (load16 .big pkt.buf udpSrcPort ≤ args.portMax ∧ args.portMin ≤ load16 .big pkt.buf udpSrcPort) := by
  simp [udpmTaste, flip_load16, udpLen]

-- ---------------------------------------------------------------------------
-- The exchange
-- ---------------------------------------------------------------------------

def mirrored (m : Mem) : Mem := swapped (addrsSwapped m) udpSrcPort udpDstPort 2

theorem sinMemswp_ports (m : Mem) : sinMemswp m udpSrcPort udpDstPort 2 = swapped m udpSrcPort udpDstPort 2 :=
  sinMemswp_eq (.inl (by decide))

theorem mirror_release (o : Order) (pkt : SinPkt) : (sinIp4UdpMirror o false pkt).buf = mirrored pkt.buf := by
  simp only [sinIp4UdpMirror, sinMemswp_addrs, sinMemswp_ports, Bool.false_eq_true, ↓reduceIte]
  rfl

theorem mirrored_other {i : Nat} (h : etherType ≤ i ∧ i < ipSrc ∨ udpLength ≤ i) : mirrored m i = m i := by
  simp only [etherType, ipSrc, udpLength, ipPayload] at h
  rw [mirrored, swapped_other (by simp only [udpSrcPort, ipPayload]; omega)
    (by simp only [udpDstPort, ipPayload]; omega), addrsSwapped_other]
  simp only [etherType, ipSrc, ipPayload]
  omega

theorem mirrored_header (m : Mem) : bytes (mirrored m) iphdr 20 = bytes (addrsSwapped m) iphdr 20 := by
  refine bytes_congr fun k hk => ?_
  rw [mirrored, swapped_other] <;> simp only [iphdr, udpSrcPort, udpDstPort, ipPayload] <;> omega

theorem mirrored_data (m : Mem) (n : Nat) : bytes (mirrored m) udpData n = bytes m udpData n := by
  refine bytes_congr fun k _ => mirrored_other (.inr ?_)
  simp only [udpData, udpLength, ipPayload]
  omega

-- ---------------------------------------------------------------------------
-- The datagram
-- ---------------------------------------------------------------------------

/-- The bytes that a UDP sum is made of, the pseudo-header before the datagram. -/
def datagram (m : Mem) : List Nat :=
  bytes m ipSrc 8 ++ ([0, 0x11] ++ (bytes m udpLength 2 ++ bytes m ipPayload (udpLen m)))

def UdpCksumOk (m : Mem) : Prop := OnesComplement.sum (Order.big.words (datagram m)) = 0xFFFF

instance (m : Mem) : Decidable (UdpCksumOk m) := inferInstanceAs (Decidable (_ = _))

theorem datagram_lt (m : Mem) : ∀ b ∈ datagram m, b < 256 := by
  intro b hb
  simp only [datagram, List.mem_append] at hb
  rcases hb with hb | hb | hb | hb
  · exact bytes_lt hb
  · revert b
    decide
  · exact bytes_lt hb
  · exact bytes_lt hb

/-- All of it but the checksum. -/
def udpWords (o : Order) (m : Mem) : Nat :=
  load16 o m ipSrc + load16 o m (ipSrc + 2) + (load16 o m ipDst + load16 o m (ipDst + 2)) + o.word 0 0x11 +
    load16 o m udpLength + load16 o m udpSrcPort + load16 o m udpDstPort + load16 o m udpLength +
      (o.words (bytes m udpData (udpLen m - 8))).sum

theorem datagram_sum (o : Order) (h : 8 ≤ udpLen m) :
    (o.words (datagram m)).sum = udpWords o m + load16 o m udpChecksum := by
  obtain ⟨n, hn⟩ := Nat.exists_eq_add_of_le' h
  have hwords : o.words (datagram m) = load16 o m ipSrc :: load16 o m (ipSrc + 2) :: load16 o m ipDst ::
      load16 o m (ipDst + 2) :: o.word 0 0x11 :: load16 o m udpLength :: load16 o m udpSrcPort ::
        load16 o m udpDstPort :: load16 o m udpLength :: load16 o m udpChecksum ::
          o.words (bytes m udpData n) := by
    rw [datagram, hn]
    rfl
  rw [hwords, udpWords, hn, Nat.add_sub_cancel]
  simp only [List.sum_cons]
  omega

theorem mirrored_words (o : Order) (m : Mem) : udpWords o (mirrored m) = udpWords o m := by
  have hlen : udpLen (mirrored m) = udpLen m := rfl
  have hload : load16 o (mirrored m) udpLength = load16 o m udpLength := rfl
  have hsrc : load16 o (mirrored m) ipSrc = load16 o m ipDst := rfl
  have hsrc' : load16 o (mirrored m) (ipSrc + 2) = load16 o m (ipDst + 2) := rfl
  have hdst : load16 o (mirrored m) ipDst = load16 o m ipSrc := rfl
  have hdst' : load16 o (mirrored m) (ipDst + 2) = load16 o m (ipSrc + 2) := rfl
  have hport : load16 o (mirrored m) udpSrcPort = load16 o m udpDstPort := rfl
  have hport' : load16 o (mirrored m) udpDstPort = load16 o m udpSrcPort := rfl
  rw [udpWords, udpWords, mirrored_data, hlen, hload, hsrc, hsrc', hdst, hdst', hport, hport']
  omega

-- ---------------------------------------------------------------------------
-- The release build
-- ---------------------------------------------------------------------------

/-- Three pairs of fields are exchanged, all other bytes stay, and what the two
sums say of the frame stays true or false. -/
structure Mirrored (m m' : Mem) : Prop where
  mac : ∀ k < 6, m' (etherDhost + k) = m (etherShost + k) ∧ m' (etherShost + k) = m (etherDhost + k)
  ip : ∀ k < 4, m' (ipSrc + k) = m (ipDst + k) ∧ m' (ipDst + k) = m (ipSrc + k)
  port : ∀ k < 2, m' (udpSrcPort + k) = m (udpDstPort + k) ∧ m' (udpDstPort + k) = m (udpSrcPort + k)
  other : ∀ i, etherType ≤ i ∧ i < ipSrc ∨ udpLength ≤ i → m' i = m i
  ipCksum : IpCksumOk m' ↔ IpCksumOk m
  udpCksum : UdpCksumOk m' ↔ UdpCksumOk m

theorem mirrored_addrs (m : Mem) : (∀ k < 6, mirrored m (etherDhost + k) = m (etherShost + k) ∧
      mirrored m (etherShost + k) = m (etherDhost + k)) ∧
    (∀ k < 4, mirrored m (ipSrc + k) = m (ipDst + k) ∧ mirrored m (ipDst + k) = m (ipSrc + k)) ∧
    ∀ k < 2, mirrored m (udpSrcPort + k) = m (udpDstPort + k) ∧ mirrored m (udpDstPort + k) = m (udpSrcPort + k) := by
  refine ⟨fun k hk => ?_, fun k hk => ?_, fun k hk => ?_⟩ <;> interval_cases k <;> exact ⟨rfl, rfl⟩

theorem mirrored_mirrored (h : 8 ≤ udpLen m) : Mirrored m (mirrored m) := by
  obtain ⟨hmac, hip, hport⟩ := mirrored_addrs m
  refine ⟨hmac, hip, hport, fun i hi => mirrored_other hi, ?_, ?_⟩
  · rw [IpCksumOk, ones_bytes .big, mirrored_header, header_swapped, ← ones_bytes .big, IpCksumOk]
  · have hsum : (Order.big.words (datagram (mirrored m))).sum = (Order.big.words (datagram m)).sum := by
      have hcksum : load16 .big (mirrored m) udpChecksum = load16 .big m udpChecksum := rfl
      rw [datagram_sum .big h, datagram_sum .big (m := mirrored m) h, mirrored_words, hcksum]
    rw [UdpCksumOk, sum_words_ones .big (datagram_lt _), hsum, ← sum_words_ones .big (datagram_lt _), UdpCksumOk]

theorem mirror_mirrored (ht : udpmTaste o args pkt = true) :
    Mirrored pkt.buf (sinIp4UdpMirror o false pkt).buf := by
  obtain ⟨-, -, -, -, hlen, -⟩ := udpmTaste_iff.mp ht
  rw [mirror_release]
  exact mirrored_mirrored hlen

def datagramFrame (ip udp : List Nat) : SinPkt where
  buf := ofList ([2, 0, 0, 0, 0, 2, 2, 0, 0, 0, 0, 1, 0x08, 0x00] ++ ip ++ udp)
  len := 14 + ip.length + udp.length

def oddFrame : SinPkt :=
  datagramFrame [0x45, 0, 0, 29, 0, 1, 0, 0, 64, 17, 0x66, 0xCD, 10, 0, 0, 1, 10, 0, 0, 2]
    [3, 232, 7, 208, 0, 9, 0x7F, 0x21, 97]

theorem oddFrame_taste : udpmTaste .little ⟨1000, 2000⟩ oddFrame = true := by decide

theorem mirror_mirrored_odd : Mirrored oddFrame.buf (sinIp4UdpMirror .little false oddFrame).buf :=
  mirror_mirrored oddFrame_taste

-- ---------------------------------------------------------------------------
-- The sums a sender makes
-- ---------------------------------------------------------------------------

def IpSent (m : Mem) : Prop :=
  load16 .big m ipSum =
    65535 - OnesComplement.sum (Order.big.words (bytes (store16 .big m ipSum 0) iphdr 20))

/-- The UDP sum without its own field. -/
def udpSum (m : Mem) : Nat :=
  65535 - OnesComplement.sum (Order.big.words (datagram (store16 .big m udpChecksum 0)))

/-- Zero says that there is no sum, so a sum of zero is sent as the other zero. -/
def UdpSent (m : Mem) : Prop := load16 .big m udpChecksum = if udpSum m = 0 then 0xFFFF else udpSum m

instance (m : Mem) : Decidable (IpSent m) := inferInstanceAs (Decidable (_ = _))

instance (m : Mem) : Decidable (UdpSent m) := inferInstanceAs (Decidable (_ = _))

theorem IpSent.cksum (h : IpSent m) (o : Order) :
    sinIp4Cksum o (store16 o (addrsSwapped m) ipSum 0) iphdr 20 = load16 o (addrsSwapped m) ipSum := by
  have hold : load16 o (addrsSwapped m) ipSum = load16 o m ipSum := rfl
  have hstore := header_store o (addrsSwapped m) (v := 0) (by decide)
  have hstore' := header_store o m (v := 0) (by decide)
  rw [header_swapped, hold, ← hstore'] at hstore
  rw [IpSent, sum_eq (Order.words_lt fun b hb => bytes_lt hb), store16_zero .big o] at h
  rw [sinIp4Cksum_eq (by decide) rfl, Nat.add_right_cancel hstore, hold, load16_flip, h, norm_words,
    Order.flip_compl (norm_lt _)]

theorem udpWords_store (o p : Order) (m : Mem) (v : Nat) :
    udpWords o (store16 p m udpChecksum v) = udpWords o m := by
  have hload : ∀ i q, i + 1 < udpChecksum → load16 q (store16 p m udpChecksum v) i = load16 q m i :=
    fun i q hi => load16_store16_other (.inl hi)
  have hdata : ∀ n, bytes (store16 p m udpChecksum v) udpData n = bytes m udpData n := by
    refine fun n => bytes_congr fun k _ => store16_other ?_ ?_ <;>
      simp only [udpData, udpChecksum, ipPayload] <;> omega
  simp only [udpWords, udpLen, hdata, hload ipSrc o (by decide), hload (ipSrc + 2) o (by decide),
    hload ipDst o (by decide), hload (ipDst + 2) o (by decide), hload udpLength o (by decide),
    hload udpLength .big (by decide), hload udpSrcPort o (by decide), hload udpDstPort o (by decide)]

/-- The sum that a sender makes, on a machine of either order. -/
theorem udpSum_flip (o : Order) (h : 8 ≤ udpLen m) :
    o.flip (udpSum m) = 65535 - norm (udpWords o m) := by
  have hlen : udpLen (store16 .big m udpChecksum 0) = udpLen m := load16_store16_other (.inl (by decide))
  have hsum : ∀ p : Order, (p.words (datagram (store16 .big m udpChecksum 0))).sum = udpWords p m := by
    intro p
    rw [datagram_sum p (hlen ▸ h), udpWords_store, store16_zero .big p, load16_store16]
    rfl
  rw [udpSum, sum_eq (Order.words_lt (datagram_lt _)), ← Order.flip_compl (norm_lt _), ← norm_words, hsum]

theorem udpWords_lt (o : Order) (h : 8 ≤ udpLen m) : udpWords o m < 2 ^ 32 := by
  have hlen : udpLen m < 65536 := load16_lt
  have hle := words_sum_le (o := o) (datagram_lt m)
  have hbytes : (datagram m).length = udpLen m + 12 := by
    simp [datagram]
    omega
  rw [datagram_sum o h, hbytes] at hle
  omega

/-- A sum of all ones would be one of zeros, and there is the protocol in it. -/
theorem udpSum_ne (h : 8 ≤ udpLen m) : udpSum m ≠ 0xFFFF := by
  intro hones
  have hflip := udpSum_flip .big h
  rw [hones] at hflip
  have hzero : norm (udpWords .big m) = 0 := by
    have hone : Order.big.flip 0xFFFF = 0xFFFF := rfl
    have hlt := norm_lt (udpWords .big m)
    omega
  rw [norm_eq_zero, udpWords] at hzero
  simp only [Order.word] at hzero
  omega

-- ---------------------------------------------------------------------------
-- The debug build
-- ---------------------------------------------------------------------------

theorem debugSum_eq (o : Order) (h : 8 ≤ udpLen m) : debugSum o m = udpWords o m := by
  have hstart : sinIpChksumUpdate o m ipSrc 4 0 = (o.words (bytes m ipSrc 4)).sum % 2 ^ 32 := by
    rw [sinIpChksumUpdate, sumLoop_eq (.inl rfl) (by decide), Nat.zero_add]
  have htwo : ∀ m a wsum, sinIpChksumUpdate o m a 2 (wsum % 2 ^ 32) = (wsum + load16 o m a) % 2 ^ 32 :=
    fun _ _ _ => sumLoop_mod (.inl rfl)
  have hfour : ∀ a wsum, sinIpChksumUpdate o m a 4 (wsum % 2 ^ 32) =
      (wsum + (load16 o m a + load16 o m (a + 2))) % 2 ^ 32 :=
    fun _ _ => sumLoop_mod (.inl rfl)
  have hdata : ∀ n wsum, sinIpChksumUpdateData o m udpData n (wsum % 2 ^ 32) =
      (wsum + (o.words (bytes m udpData n)).sum) % 2 ^ 32 :=
    fun _ _ => sumLoop_mod (.inr fun _ => rfl)
  have hsrc : (o.words (bytes m ipSrc 4)).sum = load16 o m ipSrc + load16 o m (ipSrc + 2) := rfl
  have hppad : load16 o ppad 0 = o.word 0 0x11 := by cases o <;> rfl
  simp only [debugSum, hstart, hfour, htwo, hdata, hsrc, hppad, flip_load16]
  exact Nat.mod_eq_of_lt (udpWords_lt o h)

/-- In the debug build the header's sum comes out as it was, and only the UDP
sum may be another. -/
theorem mirror_debug (o : Order) (hip : IpSent pkt.buf) (h : 8 ≤ udpLen pkt.buf) :
    (sinIp4UdpMirror o true pkt).buf =
      store16 o (mirrored pkt.buf) udpChecksum (o.flip (udpSum pkt.buf)) := by
  have hlt := (norm_lt (udpWords o (mirrored pkt.buf)))
  have hlen : 8 ≤ udpLen (mirrored pkt.buf) := h
  simp only [sinIp4UdpMirror, sinMemswp_addrs, sinMemswp_ports, ↓reduceIte, hip.cksum o, store16_store16,
    store16_self]
  rw [← mirrored, debugSum_eq o hlen, fold_eq (udpWords_lt o hlen), mirrored_words, udpSum_flip o h]

/-- The builds differ where a sender sent the other zero. -/
theorem mirror_builds (ht : udpmTaste o args pkt = true) (hip : IpSent pkt.buf) (hudp : UdpSent pkt.buf) :
    sinIp4UdpMirror o true pkt = sinIp4UdpMirror o false pkt ↔
      load16 .big pkt.buf udpChecksum ≠ 0xFFFF := by
  obtain ⟨-, -, -, -, hlen, -⟩ := udpmTaste_iff.mp ht
  have hcksum : load16 o (mirrored pkt.buf) udpChecksum = o.flip (load16 .big pkt.buf udpChecksum) := by
    rw [← load16_flip]
    rfl
  have hsum : udpSum pkt.buf < 65536 := by
    unfold udpSum
    omega
  have hfield : load16 .big pkt.buf udpChecksum < 65536 := load16_lt
  have hbuf : sinIp4UdpMirror o true pkt = sinIp4UdpMirror o false pkt ↔
      udpSum pkt.buf = load16 .big pkt.buf udpChecksum := by
    constructor
    · intro he
      have hb := congrArg (fun pkt => load16 o pkt.buf udpChecksum) he
      simp only [mirror_debug o hip hlen, mirror_release, load16_store16, hcksum,
        Nat.mod_eq_of_lt (Order.flip_lt hsum)] at hb
      exact Order.flip_inj hb hsum hfield
    · intro he
      have hb : (sinIp4UdpMirror o true pkt).buf = (sinIp4UdpMirror o false pkt).buf := by
        rw [mirror_debug o hip hlen, mirror_release, he, ← hcksum, store16_self]
      exact congrArg (SinPkt.mk · pkt.len) hb
  have hne := udpSum_ne hlen
  rw [hbuf, hudp]
  split <;> omega

theorem mirror_builds_odd :
    sinIp4UdpMirror .little true oddFrame = sinIp4UdpMirror .little false oddFrame ↔
      load16 .big oddFrame.buf udpChecksum ≠ 0xFFFF :=
  mirror_builds oddFrame_taste (by decide) (by decide)

/-- The sum of this one is zero. -/
def zeroFrame : SinPkt :=
  datagramFrame [0x45, 0, 0, 30, 0, 1, 0, 0, 64, 17, 0x66, 0xCC, 10, 0, 0, 1, 10, 0, 0, 2]
    [3, 232, 7, 208, 0, 10, 0xFF, 0xFF, 0xE0, 0x1F]

theorem zeroFrame_builds :
    udpmTaste .little ⟨1000, 2000⟩ zeroFrame = true ∧ ipHl zeroFrame.buf = 5 ∧ ipOff zeroFrame.buf = 0 ∧
      ipPayload + udpLen zeroFrame.buf ≤ zeroFrame.len ∧ IpSent zeroFrame.buf ∧ UdpSent zeroFrame.buf ∧
      sinIp4UdpMirror .little true zeroFrame ≠ sinIp4UdpMirror .little false zeroFrame :=
  ⟨by decide, by decide, by decide, by decide, by decide, by decide,
    fun he => absurd (congrArg (fun pkt => load16 .big pkt.buf udpChecksum) he) (by decide)⟩

-- ---------------------------------------------------------------------------
-- Either build
-- ---------------------------------------------------------------------------

/-- A frame with an IPv4 header and, twenty bytes behind its start, that of a
datagram between two ports of the range. -/
structure Datagram (args : UdpmParams) (pkt : SinPkt) : Prop where
  len : 42 ≤ pkt.len
  ether : load16 .big pkt.buf etherType = 0x0800
  version : ipV pkt.buf = 4
  protocol : ipP pkt.buf = 17
  length : 8 ≤ udpLen pkt.buf
  dstPort : args.portMin ≤ load16 .big pkt.buf udpDstPort ∧ load16 .big pkt.buf udpDstPort ≤ args.portMax
  srcPort : args.portMin ≤ load16 .big pkt.buf udpSrcPort ∧ load16 .big pkt.buf udpSrcPort ≤ args.portMax

/-- The same three pairs are exchanged, and both sums are correct, whatever they were. -/
structure Resummed (m m' : Mem) : Prop where
  mac : ∀ k < 6, m' (etherDhost + k) = m (etherShost + k) ∧ m' (etherShost + k) = m (etherDhost + k)
  ip : ∀ k < 4, m' (ipSrc + k) = m (ipDst + k) ∧ m' (ipDst + k) = m (ipSrc + k)
  port : ∀ k < 2, m' (udpSrcPort + k) = m (udpDstPort + k) ∧ m' (udpDstPort + k) = m (udpSrcPort + k)
  other : ∀ i, etherType ≤ i ∧ i < ipSum ∨ udpLength ≤ i ∧ i < udpChecksum ∨ udpData ≤ i → m' i = m i
  ipCksum : IpCksumOk m'
  udpCksum : UdpCksumOk m'

/-- What comes back to whoever sent a datagram. -/
def SentBack (debug : Bool) (m m' : Mem) : Prop := if debug then Resummed m m' else Mirrored m m'

theorem udpmTaste_datagram : udpmTaste o args pkt = true ↔ Datagram args pkt := by
  rw [udpmTaste_iff, load16_ether]
  exact ⟨fun ⟨hlen, hether, hv, hp, hudp, hdst, hsrc⟩ =>
      ⟨hlen, hether, hv, hp, hudp, ⟨hdst.2, hdst.1⟩, ⟨hsrc.2, hsrc.1⟩⟩,
    fun h => ⟨h.len, h.ether, h.version, h.protocol, h.length, ⟨h.dstPort.2, h.dstPort.1⟩, h.srcPort.2, h.srcPort.1⟩⟩

theorem swapped_ports_store (o : Order) (m : Mem) (v : Nat) :
    swapped (store16 o m ipSum v) udpSrcPort udpDstPort 2 = store16 o (swapped m udpSrcPort udpDstPort 2) ipSum v := by
  funext i
  rcases eq_or_ne i ipSum with rfl | h
  · cases o <;> rfl
  · rcases eq_or_ne i (ipSum + 1) with rfl | h'
    · cases o <;> rfl
    · rw [store16_other h h']
      simp only [swapped]
      split_ifs with hsrc hdst
      · simp only [udpSrcPort, udpDstPort, ipPayload] at hsrc ⊢
        rw [store16_other] <;> simp only [ipSum] <;> omega
      · simp only [udpSrcPort, udpDstPort, ipPayload] at hdst ⊢
        rw [store16_other] <;> simp only [ipSum] <;> omega
      · exact store16_other h h'

/-- The debug build makes the two sums anew, and does else as the other one. -/
theorem mirror_debug_buf (o : Order) (pkt : SinPkt) : ∃ v,
    let m := store16 o (mirrored pkt.buf) ipSum v
    (sinIp4UdpMirror o true pkt).buf = store16 o m udpChecksum (65535 - fold (debugSum o m)) ∧ IpCksumOk m := by
  refine ⟨sinIp4Cksum o (store16 o (addrsSwapped pkt.buf) ipSum 0) iphdr 20, ?_, ?_⟩
  · simp only [sinIp4UdpMirror, sinMemswp_addrs, sinMemswp_ports, ↓reduceIte, store16_store16,
      swapped_ports_store, mirrored]
  · have hok := header_summed o (addrsSwapped pkt.buf)
    rw [mirrored, ← swapped_ports_store]
    refine Eq.trans (congrArg (fun l => OnesComplement.sum (Order.big.words l)) (bytes_congr fun k hk => ?_)) hok
    apply swapped_other <;> simp only [iphdr, udpSrcPort, udpDstPort, ipPayload] <;> omega

theorem mirror_resummed (o : Order) (h : 8 ≤ udpLen pkt.buf) :
    Resummed pkt.buf (sinIp4UdpMirror o true pkt).buf := by
  obtain ⟨v, hbuf, hok⟩ := mirror_debug_buf o pkt
  obtain ⟨hmac, hip, hport⟩ := mirrored_addrs pkt.buf
  generalize hm : store16 o (mirrored pkt.buf) ipSum v = m at hbuf hok
  have hlen : 8 ≤ udpLen m := by
    rw [← hm, udpLen, load16_store16_other (.inr (by decide))]
    exact h
  have hstay : ∀ i, i < ipSum ∨ ipSrc ≤ i ∧ i < udpChecksum ∨ udpData ≤ i →
      (sinIp4UdpMirror o true pkt).buf i = mirrored pkt.buf i := by
    intro i hi
    simp only [ipSum, ipSrc, udpChecksum, udpData, ipPayload] at hi
    rw [hbuf, store16_other, ← hm, store16_other] <;> simp only [udpChecksum, ipSum, ipPayload] <;> omega
  refine ⟨fun k hk => ?_, fun k hk => ?_, fun k hk => ?_, fun i hi => ?_, ?_, ?_⟩
  · rw [hstay _ (.inl (by simp only [etherDhost, ipSum]; omega)),
      hstay _ (.inl (by simp only [etherShost, ipSum]; omega))]
    exact hmac k hk
  · rw [hstay _ (.inr (.inl (by simp only [ipSrc, udpChecksum, ipPayload]; omega))),
      hstay _ (.inr (.inl (by simp only [ipSrc, ipDst, udpChecksum, ipPayload]; omega)))]
    exact hip k hk
  · rw [hstay _ (.inr (.inl (by simp only [ipSrc, udpSrcPort, udpChecksum, ipPayload]; omega))),
      hstay _ (.inr (.inl (by simp only [ipSrc, udpDstPort, udpChecksum, ipPayload]; omega)))]
    exact hport k hk
  · simp only [etherType, ipSum, udpLength, udpChecksum, udpData, ipPayload] at hi
    rw [hstay i (by simp only [ipSum, ipSrc, udpChecksum, udpData, ipPayload]; omega)]
    exact mirrored_other (by simp only [etherType, ipSrc, udpLength, ipPayload]; omega)
  · rw [IpCksumOk, hbuf]
    refine Eq.trans (congrArg (fun l => OnesComplement.sum (Order.big.words l)) (bytes_congr fun k hk => ?_)) hok
    apply store16_other <;> simp only [iphdr, udpChecksum, ipPayload] <;> omega
  · have hcompl := add_compl (udpWords o m)
    have hlt : 65535 - norm (udpWords o m) < 65536 := by omega
    have hlen' : 8 ≤ udpLen (store16 o m udpChecksum (65535 - fold (debugSum o m))) := by
      rw [udpLen, load16_store16_other (.inl (by decide))]
      exact hlen
    rw [hbuf, UdpCksumOk, sum_words_ones o (datagram_lt _), datagram_sum o hlen', udpWords_store, load16_store16,
      debugSum_eq o hlen, fold_eq (udpWords_lt o hlen), Nat.mod_eq_of_lt hlt]
    exact hcompl

theorem mirror_sentBack (o : Order) (debug : Bool) (h : Datagram args pkt) :
    SentBack debug pkt.buf (sinIp4UdpMirror o debug pkt).buf := by
  cases debug with
  | false =>
    rw [mirror_release]
    exact mirrored_mirrored h.length
  | true => exact mirror_resummed o h.length

end Libsinet.Ip4
