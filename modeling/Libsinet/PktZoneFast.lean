import Libsinet.Base.Copy
import Libsinet.PktZone

/-!
# Two ways to send a packet

`sin_pkt_zone_fast.h` moves a packet's frame to a slot by an exchange of the two
buffers or by a copy with `sin_memcpy`. With the bytes of the buffers in the
state, what the kernel finds in the slot is the same.

`sin_memcpy` takes the length as an `int`, and a slot has 16 bits for it: a
length that `dequeue_pkts` read from a slot fits both.
-/

namespace Libsinet.PktZone

open Bytes

variable {R : Type u} {T : Type v} [DecidableEq R] [DecidableEq T]

-- ---------------------------------------------------------------------------
-- sin_memcpy
-- ---------------------------------------------------------------------------

/-- Eight words a round. -/
def sinMemcpyLoop (src dst l : Nat) : List Chunk :=
  if 0 < l then
    (List.range 8).map (fun k => ⟨src + 8 * k, dst + 8 * k, 8⟩) ++ sinMemcpyLoop (src + 64) (dst + 64) (l - 64)
  else []
termination_by l

/-- The loads and stores of `sin_memcpy`. Its loop does not run for an `l` that
is negative. -/
def sinMemcpy (src dst : Nat) (l : BitVec 32) : List Chunk :=
  if 1024 ≤ l.toInt then [⟨src, dst, l.toNat⟩] else sinMemcpyLoop src dst l.toInt.toNat

theorem sinMemcpy_eq {l : BitVec 32} (hl : l.toNat < 2 ^ 31) :
    sinMemcpy src dst l = if 1024 ≤ l.toNat then [⟨src, dst, l.toNat⟩] else sinMemcpyLoop src dst l.toNat := by
  have hint : l.toInt = l.toNat := BitVec.toInt_eq_toNat_of_lt (by omega)
  have hbranch : (1024 : Int) ≤ l.toNat ↔ 1024 ≤ l.toNat := by omega
  rw [sinMemcpy, hint, Int.toNat_natCast, if_congr hbranch rfl rfl]

/-- The overshoot of the loop is what is left of its last block. -/
theorem sinMemcpyLoop_within : ∀ c ∈ sinMemcpyLoop src dst l, c.Within src dst (64 * ((l + 63) / 64)) := by
  induction src, dst, l using sinMemcpyLoop.induct with
  | case1 src dst l hl ih =>
    rw [sinMemcpyLoop, if_pos hl]
    intro c hc
    have hblocks : 64 * ((l + 63) / 64) = 64 * ((l - 64 + 63) / 64) + 64 := by omega
    rcases List.mem_append.mp hc with hc | hc
    · obtain ⟨k, hk, rfl⟩ := List.mem_map.mp hc
      have hk := List.mem_range.mp hk
      exact ⟨8 * k, rfl, rfl, by simp only; omega⟩
    · obtain ⟨off, hs, hd, hn⟩ := ih c hc
      exact ⟨64 + off, by omega, by omega, by omega⟩
  | case2 src dst l hl =>
    rw [sinMemcpyLoop, if_neg hl]
    rintro c ⟨⟩

theorem sinMemcpyLoop_covers (hk : k < l) :
    ∃ c ∈ sinMemcpyLoop src dst l, c.dst ≤ dst + k ∧ dst + k < c.dst + c.n := by
  induction src, dst, l using sinMemcpyLoop.induct generalizing k with
  | case1 src dst l hl ih =>
    rw [sinMemcpyLoop, if_pos hl]
    by_cases hfirst : k < 64
    · refine ⟨⟨src + 8 * (k / 8), dst + 8 * (k / 8), 8⟩, List.mem_append_left _ ?_, ?_, ?_⟩
      · exact List.mem_map.mpr ⟨k / 8, List.mem_range.mpr (by omega), rfl⟩
      · simp only
        omega
      · simp only
        omega
    · obtain ⟨c, hc, hlo, hhi⟩ := ih (k := k - 64) (by omega)
      exact ⟨c, List.mem_append_right _ hc, by omega, by omega⟩
  | case2 src dst l hl => exact absurd hk (by omega)

/-- No buffer is left where it has 1024 bytes. -/
theorem sinMemcpy_within {l : BitVec 32} (hsize : 1024 ≤ size) (hint : l.toNat < 2 ^ 31) (hl : l.toNat ≤ size) :
    ∀ c ∈ sinMemcpy src dst l, c.Within src dst size := by
  intro c hc
  rw [sinMemcpy_eq hint] at hc
  split at hc
  · obtain rfl := List.mem_singleton.mp hc
    exact ⟨0, rfl, rfl, by simpa using hl⟩
  · exact (sinMemcpyLoop_within c hc).mono (by omega)

theorem sinMemcpy_covers {l : BitVec 32} (hint : l.toNat < 2 ^ 31) (hk : k < l.toNat) :
    ∃ c ∈ sinMemcpy src dst l, c.dst ≤ dst + k ∧ dst + k < c.dst + c.n := by
  rw [sinMemcpy_eq hint]
  split
  · exact ⟨_, List.mem_singleton_self _, Nat.le_add_right _ _, Nat.add_lt_add_left hk _⟩
  · exact sinMemcpyLoop_covers hk

theorem sinMemcpy_copied {m : Mem} {l : BitVec 32} (hsize : 1024 ≤ size) (hint : l.toNat < 2 ^ 31)
    (hl : l.toNat ≤ size) (ha : Apart src dst size) :
    bytes (copy m (sinMemcpy src dst l)) dst l.toNat = bytes m src l.toNat :=
  bytes_congr fun _ hk =>
    copy_covered (sinMemcpy_within hsize hint hl) ha (hk.trans_le hl) (sinMemcpy_covers hint hk)

-- ---------------------------------------------------------------------------
-- Zones with their memory
-- ---------------------------------------------------------------------------

structure ZoneMem (R : Type u) (T : Type v) extends State R T where
  mem : Mem

def zoneSwap (s : ZoneMem R T) (p1 p2 : Ref R T) : ZoneMem R T :=
  { s with toState := sinPktZoneSwap s.toState p1 p2 }

def zoneCopy (s : ZoneMem R T) (p1 p2 : Ref R T) : ZoneMem R T where
  toState := sinPktZoneCopy s.toState p1 p2
  mem := copy s.mem (sinMemcpy (s.buf p1).toNat (s.buf p2).toNat (s.pktLen p1))

/-- The choice of `sin_tx_thread`. -/
def zoneSend (N : Rings R T) (s : ZoneMem R T) (pkt pktTx : Ref R T) : ZoneMem R T :=
  if N.netmapFd pktTx.1 = N.netmapFd pkt.1 then zoneSwap s pkt pktTx else zoneCopy s pkt pktTx

namespace ZoneMem

def frame (s : ZoneMem R T) (p : Ref R T) : List Nat := bytes s.mem (s.buf p).toNat (s.pktLen p).toNat

def slotBuf (N : Rings R T) (s : ZoneMem R T) (a : Ref R T) : Nat := (N.netmapBuf a.1 (s.bufIdx a)).toNat

def slotFrame (N : Rings R T) (s : ZoneMem R T) (a : Ref R T) : List Nat :=
  bytes s.mem (s.slotBuf N a) (s.slotLen a).toNat

end ZoneMem

/-- A packet's slot is one of its zone's ring, and its buffer the one that the
slot names. -/
structure Named (N : Rings R T) (s : State R T) (p : Ref R T) : Prop where
  ring : (s.mySlot p).1 = p.1
  buf : s.buf p = N.netmapBuf p.1 (s.bufIdx (s.mySlot p))

variable {N : Rings R T} {s : ZoneMem R T} {p1 p2 : Ref R T} {size : Nat}

/-- A length that a slot had is not cut where it is stored in one. -/
theorem setWidth_toNat {len : BitVec 32} (h : len.toNat < 2 ^ 16) : (len.setWidth 16).toNat = len.toNat := by
  rw [BitVec.toNat_setWidth, Nat.mod_eq_of_lt h]

theorem zoneSwap_frame (h1 : Named N s.toState p1) (h2 : Named N s.toState p2)
    (hslot : s.mySlot p1 ≠ s.mySlot p2) (hfd : N.netmapFd p2.1 = N.netmapFd p1.1)
    (hlen : (s.pktLen p1).toNat < 2 ^ 16) : (zoneSwap s p1 p2).slotFrame N (s.mySlot p2) = s.frame p1 := by
  have hidx : (zoneSwap s p1 p2).bufIdx (s.mySlot p2) = s.bufIdx (s.mySlot p1) := by
    simp only [zoneSwap, sinPktZoneSwap, sinSwapI, xorSwap_eq _ hslot.symm, Function.comp_apply,
      Equiv.swap_apply_left]
  have hcut : (zoneSwap s p1 p2).slotLen (s.mySlot p2) = (s.pktLen p1).setWidth 16 := Function.update_self ..
  have hbuf : (zoneSwap s p1 p2).slotBuf N (s.mySlot p2) = (s.buf p1).toNat := by
    rw [ZoneMem.slotBuf, hidx, h2.ring, N.pool _ _ hfd, h1.buf]
  rw [ZoneMem.slotFrame, hcut, hbuf, setWidth_toNat hlen]
  rfl

theorem zoneCopy_frame (h2 : Named N s.toState p2) (ha : Apart (s.buf p1).toNat (s.buf p2).toNat size)
    (hsize : 1024 ≤ size) (hlen : (s.pktLen p1).toNat < 2 ^ 16) (hl : (s.pktLen p1).toNat ≤ size) :
    (zoneCopy s p1 p2).slotFrame N (s.mySlot p2) = s.frame p1 := by
  have hcut : (zoneCopy s p1 p2).slotLen (s.mySlot p2) = (s.pktLen p1).setWidth 16 := Function.update_self ..
  have hbuf : (zoneCopy s p1 p2).slotBuf N (s.mySlot p2) = (s.buf p2).toNat := by
    rw [ZoneMem.slotBuf, h2.ring, h2.buf]
    rfl
  rw [ZoneMem.slotFrame, hcut, hbuf, setWidth_toNat hlen]
  exact sinMemcpy_copied hsize (hlen.trans (by decide)) hl ha

/-- The kernel sends the same from the slot, whichever way the frame got there,
and the copy stays in the two buffers and leaves its source as it was. -/
theorem paths_agree (h1 : Named N s.toState p1) (h2 : Named N s.toState p2)
    (hslot : s.mySlot p1 ≠ s.mySlot p2) (ha : Apart (s.buf p1).toNat (s.buf p2).toNat size)
    (hsize : 1024 ≤ size) (hlen : (s.pktLen p1).toNat < 2 ^ 16) (hl : (s.pktLen p1).toNat ≤ size) :
    (N.netmapFd p2.1 = N.netmapFd p1.1 → (zoneSwap s p1 p2).slotFrame N (s.mySlot p2) = s.frame p1) ∧
      (zoneCopy s p1 p2).slotFrame N (s.mySlot p2) = s.frame p1 ∧
      (∀ k < size, (zoneCopy s p1 p2).mem ((s.buf p1).toNat + k) = s.mem ((s.buf p1).toNat + k)) ∧
      ∀ c ∈ sinMemcpy (s.buf p1).toNat (s.buf p2).toNat (s.pktLen p1),
        c.Within (s.buf p1).toNat (s.buf p2).toNat size := by
  have hwithin : ∀ c ∈ sinMemcpy (s.buf p1).toNat (s.buf p2).toNat (s.pktLen p1),
      c.Within (s.buf p1).toNat (s.buf p2).toNat size :=
    sinMemcpy_within hsize (hlen.trans (by decide)) hl
  exact ⟨fun hfd => zoneSwap_frame h1 h2 hslot hfd hlen, zoneCopy_frame h2 ha hsize hlen hl,
    fun _ hk => copy_source hwithin ha hk, hwithin⟩

def filledTwo : ZoneMem Unit Unit where
  toState := { startTwo with pktLen := fun _ => 1000 }
  mem i := BitVec.ofNat 8 i

theorem paths_agree_two :
    (zoneSwap filledTwo (.inl (), 0) (.inr (), 0)).slotFrame twoRings (.inr (), 0) =
      (zoneCopy filledTwo (.inl (), 0) (.inr (), 0)).slotFrame twoRings (.inr (), 0) := by
  obtain ⟨hswap, hcopy, -⟩ := @paths_agree Unit Unit _ _ twoRings filledTwo (.inl (), 0) (.inr (), 0) 2048
    ⟨rfl, rfl⟩ ⟨rfl, rfl⟩ nofun (.inl (by decide)) (by decide) (by decide) (by decide)
  exact (hswap rfl).trans hcopy.symm

-- ---------------------------------------------------------------------------
-- What sending leaves alone
-- ---------------------------------------------------------------------------

/-- Every packet is in its own slot with its slot's buffer, and no two buffers
overlap. -/
structure Buffers (N : Rings R T) (size : Nat) (s : ZoneMem R T) : Prop where
  mySlot : ∀ a, N.IsSlot a → s.mySlot a = a
  buf : ∀ a, N.IsSlot a → s.buf a = N.netmapBuf a.1 (s.bufIdx a)
  apart : ∀ a b, N.IsSlot a → N.IsSlot b → a ≠ b → Apart (s.buf a).toNat (s.buf b).toNat size

structure Same (size : Nat) (s s' : ZoneMem R T) (a : Ref R T) : Prop where
  buf : s'.buf a = s.buf a
  pktLen : s'.pktLen a = s.pktLen a
  bufIdx : s'.bufIdx a = s.bufIdx a
  slotLen : s'.slotLen a = s.slotLen a
  slotFlags : s'.slotFlags a = s.slotFlags a
  mem : ∀ k < size, s'.mem ((s.buf a).toNat + k) = s.mem ((s.buf a).toNat + k)

variable {s' s'' : ZoneMem R T} {a p q : Ref R T}

section

omit [DecidableEq R] [DecidableEq T]

theorem Same.refl (size : Nat) (s : ZoneMem R T) (a : Ref R T) : Same size s s a :=
  ⟨rfl, rfl, rfl, rfl, rfl, fun _ _ => rfl⟩

theorem Same.trans (h : Same size s s' a) (h' : Same size s' s'' a) : Same size s s'' a :=
  ⟨h'.buf.trans h.buf, h'.pktLen.trans h.pktLen, h'.bufIdx.trans h.bufIdx, h'.slotLen.trans h.slotLen,
    h'.slotFlags.trans h.slotFlags, fun k hk => (h.buf ▸ h'.mem k hk).trans (h.mem k hk)⟩

theorem Same.frame (h : Same size s s' a) (hl : (s.pktLen a).toNat ≤ size) : s'.frame a = s.frame a := by
  rw [ZoneMem.frame, h.buf, h.pktLen]
  exact bytes_congr fun k hk => h.mem k (hk.trans_le hl)

theorem Same.slotFrame (hb : Buffers N size s) (ha : N.IsSlot a) (h : Same size s s' a)
    (hl : (s.slotLen a).toNat ≤ size) : s'.slotFrame N a = s.slotFrame N a := by
  have hbuf : s.slotBuf N a = (s.buf a).toNat := by rw [ZoneMem.slotBuf, hb.buf a ha]
  have hbuf' : s'.slotBuf N a = s.slotBuf N a := by rw [ZoneMem.slotBuf, h.bufIdx, ZoneMem.slotBuf]
  rw [ZoneMem.slotFrame, h.slotLen, hbuf', hbuf, ZoneMem.slotFrame, hbuf]
  exact bytes_congr fun k hk => h.mem k (hk.trans_le hl)

theorem Buffers.named (h : Buffers N size s) (ha : N.IsSlot a) : Named N s.toState a :=
  ⟨by rw [h.mySlot a ha], by rw [h.mySlot a ha, h.buf a ha]⟩

end

theorem Buffers.swap_buf (h : Buffers N size s) (hp : N.IsSlot p) (hq : N.IsSlot q) (hne : p ≠ q) :
    (zoneSwap s p q).buf = s.buf ∘ Equiv.swap p q ∧ (zoneSwap s p q).bufIdx = s.bufIdx ∘ Equiv.swap p q := by
  have hp := h.mySlot p hp
  have hq := h.mySlot q hq
  refine ⟨xorSwap_eq _ hne, ?_⟩
  simp only [zoneSwap, sinPktZoneSwap, hp, hq, sinSwapI]
  rw [xorSwap_eq _ hne.symm, Equiv.swap_comm]

theorem Buffers.send (h : Buffers N size s) (hp : N.IsSlot p) (hq : N.IsSlot q) (hne : p ≠ q) :
    Buffers N size (zoneSend N s p q) := by
  unfold zoneSend
  split
  · rename_i hfd
    obtain ⟨hbuf, hidx⟩ := h.swap_buf hp hq hne
    have hslot : ∀ a, N.IsSlot a → N.IsSlot (Equiv.swap p q a) := by
      intro a ha
      rcases swap_cases p q a with ⟨-, he⟩ | ⟨-, he⟩ | ⟨-, -, he⟩ <;> rwa [he]
    refine ⟨h.mySlot, fun a ha => ?_, fun a b ha hb hab => ?_⟩
    · have hpool : N.netmapBuf (Equiv.swap p q a).1 = N.netmapBuf a.1 := by
        apply N.pool
        rcases swap_cases p q a with ⟨rfl, he⟩ | ⟨rfl, he⟩ | ⟨-, -, he⟩ <;> rw [he]
        · exact hfd
        · exact hfd.symm
      rw [hbuf, hidx, Function.comp_apply, Function.comp_apply, h.buf _ (hslot a ha), hpool]
    · rw [hbuf, Function.comp_apply, Function.comp_apply]
      exact h.apart _ _ (hslot a ha) (hslot b hb) (mt (Equiv.swap p q).injective.eq_iff.mp hab)
  · exact ⟨h.mySlot, h.buf, h.apart⟩

theorem Buffers.send_same (h : Buffers N size s) (hp : N.IsSlot p) (hq : N.IsSlot q) (ha : N.IsSlot a)
    (hne : p ≠ q) (hap : a ≠ p) (haq : a ≠ q) (hsize : 1024 ≤ size) (hlen : (s.pktLen p).toNat < 2 ^ 16)
    (hl : (s.pktLen p).toNat ≤ size) :
    Same size s (zoneSend N s p q) a := by
  have hsp := h.mySlot p hp
  have hsq := h.mySlot q hq
  unfold zoneSend
  split
  · obtain ⟨hbuf, hidx⟩ := h.swap_buf hp hq hne
    refine ⟨?_, ?_, ?_, ?_, ?_, fun _ _ => rfl⟩
    · rw [hbuf, Function.comp_apply, Equiv.swap_apply_of_ne_of_ne hap haq]
    · exact Function.update_of_ne haq _ _
    · rw [hidx, Function.comp_apply, Equiv.swap_apply_of_ne_of_ne hap haq]
    · simp [zoneSwap, sinPktZoneSwap, hsq, haq]
    · simp [zoneSwap, sinPktZoneSwap, hsp, hsq, hap, haq]
  · refine ⟨rfl, Function.update_of_ne haq _ _, rfl, ?_, ?_, fun k hk => ?_⟩
    · simp [zoneCopy, sinPktZoneCopy, hsq, haq]
    · simp [zoneCopy, sinPktZoneCopy, hsq, haq]
    · refine copy_other (sinMemcpy_within hsize (hlen.trans (by decide)) hl) ?_
      have hapart := h.apart a q ha hq haq
      unfold Apart at hapart
      omega

theorem Buffers.send_frame (h : Buffers N size s) (hp : N.IsSlot p) (hq : N.IsSlot q) (hne : p ≠ q)
    (hsize : 1024 ≤ size) (hlen : (s.pktLen p).toNat < 2 ^ 16) (hl : (s.pktLen p).toNat ≤ size) :
    (zoneSend N s p q).slotFrame N q = s.frame p := by
  have hsp := h.mySlot p hp
  have hsq := h.mySlot q hq
  unfold zoneSend
  split
  · rename_i hfd
    have hframe := zoneSwap_frame (h.named hp) (h.named hq) (hsp.symm ▸ hsq.symm ▸ hne) hfd hlen
    rwa [hsq] at hframe
  · have hframe := zoneCopy_frame (h.named hq) (h.apart p q hp hq hne) hsize hlen hl
    rwa [hsq] at hframe

/-- Buffers that are apart when the rings are set up stay so, whatever the
threads and the kernel do. -/
theorem buffers_of_reachable {s : State R T} (mem : Mem)
    (hstart : ∀ a b, N.IsSlot a → N.IsSlot b → a ≠ b →
      Apart (N.netmapBuf a.1 (N.bufIdx a)).toNat (N.netmapBuf b.1 (N.bufIdx b)).toNat size)
    (h : (machine N).Reachable s) : Buffers N size ⟨s, mem⟩ := by
  refine Machine.ReachableBy.induct (I := fun s => Buffers N size ⟨s, mem⟩) (J := Inv N) h
    (fun _ => inv_of_reachable) ?_ ?_
  · intro s hs
    have hinv := Inv.of_start hs
    refine ⟨hinv.mySlot, hinv.buf, fun a b ha hb hab => ?_⟩
    rw [hinv.buf a ha, hinv.buf b hb, hs.bufIdx]
    exact hstart a b ha hb hab
  · rintro s mv s' hinv hb - hs
    have hs : step N s mv = some s' := hs
    cases mv with
    | transmit t i pkt =>
      obtain ⟨⟨ho, hslot, -⟩, ⟨⟩⟩ := Option.ite_none_right_eq_some.mp hs
      obtain ⟨r, j, rfl, hp, -⟩ := hinv.held_slot (ho ▸ rfl : (s.owner pkt).isSome)
      have hsend := hb.send hp hslot (by simp)
      have hstate : (zoneSend N ⟨s, mem⟩ (.inl r, j) (.inr t, i)).toState = transmit N s t i (.inl r, j) := by
        unfold zoneSend transmit
        split <;> rfl
      rw [← hstate]
      exact ⟨hsend.mySlot, hsend.buf, hsend.apart⟩
    | spin r =>
      cases hs
      unfold spinRing
      dsimp only
      split
      · exact ⟨hb.mySlot, hb.buf, hb.apart⟩
      · split <;> exact ⟨hb.mySlot, hb.buf, hb.apart⟩
    -- the other steps touch no packet's slot or buffer
    | _ =>
      obtain ⟨-, ⟨⟩⟩ := Option.ite_none_right_eq_some.mp hs
      exact ⟨hb.mySlot, hb.buf, hb.apart⟩

end Libsinet.PktZone
