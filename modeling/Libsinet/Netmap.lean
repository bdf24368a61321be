import Libsinet.Base.Circular
import Mathlib.Data.BitVec

/-!
# Netmap rings and busy packets

A ring's slots from `head` up to `tail` belong to the program and the others to
the kernel; those from `head` up to `cur` are in use, those from `cur` up to
`tail` are new. `struct netmap_ring` and the functions on it are netmap's;
`sin_pkt_setflags` and `sin_pkt_isbusy` are from `sin_pkt.c` and `sin_pkt.h`.
-/

namespace Libsinet

open Circular

structure NetmapRing where
  numSlots : Nat
  head : Nat
  cur : Nat
  tail : Nat
  deriving DecidableEq, Repr

def nmRingNext (ring : NetmapRing) (i : Nat) : Nat := next ring.numSlots i

def nmRingEmpty (ring : NetmapRing) : Bool := ring.cur == ring.tail

-- ---------------------------------------------------------------------------
-- Flags
-- ---------------------------------------------------------------------------

abbrev Flags := BitVec 32

def spktBusy : Flags := 0x1

/-- The value left in `pkt->flags`. -/
def sinPktSetflags (flags sflags rflags : Flags) : Flags := (flags ||| sflags) &&& ~~~rflags

def sinPktIsbusy (flags : Flags) : Bool := flags &&& spktBusy != 0

theorem sinPktIsbusy_eq (f : Flags) : sinPktIsbusy f = f.getLsbD 0 := by
  unfold sinPktIsbusy spktBusy
  rw [show (0x1 : Flags) = 1#32 from rfl, BitVec.and_one_eq_setWidth_ofBool_getLsbD]
  cases f.getLsbD 0 <;> rfl

@[simp] theorem isbusy_set (f : Flags) : sinPktIsbusy (sinPktSetflags f spktBusy 0#32) = true := by
  rw [sinPktIsbusy_eq]
  simp [sinPktSetflags, spktBusy]

@[simp] theorem isbusy_clear (f : Flags) : sinPktIsbusy (sinPktSetflags f 0#32 spktBusy) = false := by
  rw [sinPktIsbusy_eq]
  simp [sinPktSetflags, spktBusy]

@[simp] theorem isbusy_zero : sinPktIsbusy 0#32 = false := rfl

-- ---------------------------------------------------------------------------
-- Zones
-- ---------------------------------------------------------------------------

/-- The packets of a ring. `sin_pkt_zone_fill_from_ring` puts at `pmap[i]` the
packet it made with `zone_idx` `i`; `num_slots` is an `int`. -/
structure SinPktZone (P : Type u) where
  numSlots : Nat
  fits : numSlots < 2 ^ 31
  pmap : Nat → P
  zoneIdx : P → Nat
  zoneIdx_pmap : ∀ i < numSlots, zoneIdx (pmap i) = i

theorem four_fits : 4 < 2 ^ 31 := by decide

theorem SinPktZone.pmap_inj (zone : SinPktZone P) {i j : Nat} (hi : i < zone.numSlots)
    (hj : j < zone.numSlots) (h : zone.pmap i = zone.pmap j) : i = j := by
  rw [← zone.zoneIdx_pmap i hi, h, zone.zoneIdx_pmap j hj]

-- ---------------------------------------------------------------------------
-- Order on a ring
-- ---------------------------------------------------------------------------

namespace NetmapRing

def Between (ring : NetmapRing) (a i b : Nat) : Prop :=
  dist ring.numSlots a i < dist ring.numSlots a b

instance (ring : NetmapRing) (a i b : Nat) : Decidable (ring.Between a i b) :=
  inferInstanceAs (Decidable (_ < _))

/-- `head <= cur <= tail` going round from `head`. -/
structure InOrder (ring : NetmapRing) : Prop where
  head_lt : ring.head < ring.numSlots
  cur_lt : ring.cur < ring.numSlots
  tail_lt : ring.tail < ring.numSlots
  le : dist ring.numSlots ring.head ring.cur ≤ dist ring.numSlots ring.head ring.tail

/-- `tail` may go on, at most to the slot before `head`, as the kernel adds
slots at the end. -/
def MayAdvanceTail (ring : NetmapRing) (tail : Nat) : Prop :=
  tail < ring.numSlots ∧ dist ring.numSlots ring.head ring.tail ≤ dist ring.numSlots ring.head tail

instance (ring : NetmapRing) (tail : Nat) : Decidable (ring.MayAdvanceTail tail) :=
  inferInstanceAs (Decidable (_ ∧ _))

variable {ring : NetmapRing} {head tail : Nat}

theorem InOrder.advanceTail (h : ring.InOrder) (ht : ring.MayAdvanceTail tail) :
    ({ ring with tail := tail } : NetmapRing).InOrder :=
  ⟨h.head_lt, h.cur_lt, ht.1, h.le.trans ht.2⟩

theorem InOrder.cur_lt_tail (h : ring.InOrder) (hne : nmRingEmpty ring = false) :
    dist ring.numSlots ring.head ring.cur < dist ring.numSlots ring.head ring.tail := by
  have hne : ring.cur ≠ ring.tail := by simpa [nmRingEmpty] using hne
  exact lt_of_le_of_ne h.le (mt (dist_inj h.head_lt h.cur_lt h.tail_lt).mp hne)

theorem InOrder.dist_next_cur (h : ring.InOrder) (hne : nmRingEmpty ring = false) :
    dist ring.numSlots ring.head (nmRingNext ring ring.cur) =
      dist ring.numSlots ring.head ring.cur + 1 := by
  have hlt := h.cur_lt_tail hne
  have htail := dist_lt h.head_lt h.tail_lt
  exact dist_next_right h.head_lt h.cur_lt (by omega)

theorem InOrder.dist_tail (h : ring.InOrder) :
    dist ring.numSlots ring.head ring.cur + dist ring.numSlots ring.cur ring.tail =
      dist ring.numSlots ring.head ring.tail := by
  rw [dist_sub h.head_lt h.cur_lt h.tail_lt h.le]
  exact Nat.add_sub_of_le h.le

theorem InOrder.advanceCur (h : ring.InOrder) (hne : nmRingEmpty ring = false) :
    ({ ring with cur := nmRingNext ring ring.cur } : NetmapRing).InOrder := by
  refine ⟨h.head_lt, next_lt h.cur_lt, h.tail_lt, ?_⟩
  have hlt := h.cur_lt_tail hne
  show dist ring.numSlots ring.head (nmRingNext ring ring.cur) ≤ _
  rw [h.dist_next_cur hne]
  exact hlt

theorem InOrder.advanceHead (h : ring.InOrder) (hlt : head < ring.numSlots)
    (hle : dist ring.numSlots ring.head head ≤ dist ring.numSlots ring.head ring.cur) :
    ({ ring with head := head } : NetmapRing).InOrder := by
  refine ⟨hlt, h.cur_lt, h.tail_lt, ?_⟩
  show dist ring.numSlots head ring.cur ≤ dist ring.numSlots head ring.tail
  rw [dist_sub h.head_lt hlt h.cur_lt hle, dist_sub h.head_lt hlt h.tail_lt (hle.trans h.le)]
  exact Nat.sub_le_sub_right h.le _

theorem InOrder.not_passed (h : ring.InOrder) (hlt : head < ring.numSlots) (hi : i < ring.numSlots)
    (hle : dist ring.numSlots ring.head head ≤ dist ring.numSlots ring.head ring.tail)
    (hp : ¬ ring.Between ring.head i head) (hb : ring.Between ring.head i ring.tail) :
    ring.Between head i ring.tail := by
  have hle' := Nat.le_of_not_lt hp
  unfold Between at hb ⊢
  rw [dist_sub h.head_lt hlt hi hle', dist_sub h.head_lt hlt h.tail_lt hle]
  omega

end NetmapRing

-- ---------------------------------------------------------------------------
-- Slots in use
-- ---------------------------------------------------------------------------

open NetmapRing

/-- The slots whose packets are busy lie from `head` up to `cur`. -/
structure RingOk (ring : NetmapRing) (busy : Nat → Bool) : Prop extends ring.InOrder where
  busy_between : ∀ i < ring.numSlots, busy i = true → ring.Between ring.head i ring.cur

/-- A scan that got from `head` to `newHead` met no busy packet, and none has
become busy since. -/
structure ScanOk (ring : NetmapRing) (busy : Nat → Bool) (newHead : Nat) : Prop where
  lt : newHead < ring.numSlots
  le : dist ring.numSlots ring.head newHead ≤ dist ring.numSlots ring.head ring.cur
  passed : ∀ i < ring.numSlots, busy i = true → ¬ ring.Between ring.head i newHead

variable {ring : NetmapRing} {busy busy' : Nat → Bool} {nh tail i : Nat}

theorem RingOk.mono (h : RingOk ring busy) (hb : ∀ i < ring.numSlots, busy' i = true → busy i = true) :
    RingOk ring busy' :=
  ⟨h.toInOrder, fun i hi hbusy => h.busy_between i hi (hb i hi hbusy)⟩

theorem ScanOk.mono (h : ScanOk ring busy nh) (hb : ∀ i < ring.numSlots, busy' i = true → busy i = true) :
    ScanOk ring busy' nh :=
  ⟨h.lt, h.le, fun i hi hbusy => h.passed i hi (hb i hi hbusy)⟩

theorem RingOk.advanceTail (h : RingOk ring busy) (ht : ring.MayAdvanceTail tail) :
    RingOk { ring with tail := tail } busy :=
  ⟨h.toInOrder.advanceTail ht, h.busy_between⟩

theorem ScanOk.advanceTail (h : ScanOk ring busy nh) : ScanOk { ring with tail := tail } busy nh :=
  ⟨h.lt, h.le, h.passed⟩

theorem RingOk.not_busy (h : RingOk ring busy) (hi : i < ring.numSlots)
    (hle : dist ring.numSlots ring.head ring.cur ≤ dist ring.numSlots ring.head i) :
    busy i = false := by
  by_contra hb
  have hlt := h.busy_between i hi (by simpa using hb)
  exact absurd hle (Nat.not_le_of_lt hlt)

theorem RingOk.cur_not_busy (h : RingOk ring busy) : busy ring.cur = false :=
  h.not_busy h.cur_lt le_rfl

/-- One round of `dequeue_pkts`: the slot at `cur` becomes busy. -/
theorem RingOk.advanceCur (h : RingOk ring busy) (hne : nmRingEmpty ring = false)
    (hb : ∀ i < ring.numSlots, busy' i = true → i = ring.cur ∨ busy i = true) :
    RingOk { ring with cur := nmRingNext ring ring.cur } busy' := by
  refine ⟨h.toInOrder.advanceCur hne, fun i hi hbusy => ?_⟩
  show dist ring.numSlots ring.head i < dist ring.numSlots ring.head (nmRingNext ring ring.cur)
  rw [h.toInOrder.dist_next_cur hne]
  rcases hb i hi hbusy with rfl | hold
  · exact Nat.lt_succ_self _
  · exact Nat.lt_succ_of_lt (h.busy_between i hi hold)

theorem RingOk.scan (h : RingOk ring busy) : ScanOk ring busy ring.head := by
  refine ⟨h.head_lt, by simp, fun i _ _ hbetween => ?_⟩
  simp [Between] at hbetween

theorem ScanOk.next (h : RingOk ring busy) (hs : ScanOk ring busy nh) (hne : nh ≠ ring.cur)
    (hb : busy nh = false) : ScanOk ring busy (nmRingNext ring nh) := by
  have hlt : dist ring.numSlots ring.head nh < dist ring.numSlots ring.head ring.cur :=
    lt_of_le_of_ne hs.le (mt (dist_inj h.head_lt hs.lt h.cur_lt).mp hne)
  have hcur := dist_lt h.head_lt h.cur_lt
  have hnext : dist ring.numSlots ring.head (nmRingNext ring nh) =
      dist ring.numSlots ring.head nh + 1 := dist_next_right h.head_lt hs.lt (by omega)
  refine ⟨next_lt hs.lt, by omega, fun i hi hbusy hbetween => ?_⟩
  have hne : dist ring.numSlots ring.head i ≠ dist ring.numSlots ring.head nh := by
    intro he
    rw [(dist_inj h.head_lt hi hs.lt).mp he, hb] at hbusy
    cases hbusy
  have hpassed := hs.passed i hi hbusy
  unfold Between at hbetween hpassed
  omega

theorem RingOk.advanceHead (h : RingOk ring busy) (hs : ScanOk ring busy nh) :
    RingOk { ring with head := nh } busy := by
  refine ⟨h.toInOrder.advanceHead hs.lt hs.le, fun i hi hbusy => ?_⟩
  have hle := Nat.le_of_not_lt (hs.passed i hi hbusy)
  have hlt := h.busy_between i hi hbusy
  show dist ring.numSlots nh i < dist ring.numSlots nh ring.cur
  rw [dist_sub h.head_lt hs.lt hi hle, dist_sub h.head_lt hs.lt h.cur_lt hs.le]
  unfold Between at hlt
  omega

-- ---------------------------------------------------------------------------
-- Packets in ring order
-- ---------------------------------------------------------------------------

def slots (zone : SinPktZone P) (ring : NetmapRing) (a n : Nat) : List P :=
  (List.range n).map fun k => zone.pmap (pos ring.numSlots a k)

section
variable {zone : SinPktZone P} {a n : Nat}

@[simp] theorem slots_length : (slots zone ring a n).length = n := by simp [slots]

theorem slots_succ : slots zone ring a (n + 1) = slots zone ring a n ++ [zone.pmap (pos ring.numSlots a n)] := by
  simp [slots, List.range_succ]

theorem slots_add {m : Nat} :
    slots zone ring a (m + n) = slots zone ring a m ++ slots zone ring (pos ring.numSlots a m) n := by
  simp [slots, List.range_add, pos_pos, Function.comp_def]

theorem slots_one (ha : a < ring.numSlots) : slots zone ring a 1 = [zone.pmap a] := by
  simp [slots, pos_zero ha]

theorem slots_cons (ha : a < ring.numSlots) :
    slots zone ring a (n + 1) = zone.pmap a :: slots zone ring (nmRingNext ring a) n := by
  simp [slots, List.range_succ_eq_map, pos_zero ha, nmRingNext, pos_next]

theorem drop_slots (hk : k < n) :
    (slots zone ring a n).drop k = zone.pmap (pos ring.numSlots a k) :: (slots zone ring a n).drop (k + 1) := by
  rw [List.drop_eq_getElem_cons (by simpa using hk)]
  simp [slots]

theorem mem_slots (ha : a < ring.numSlots) (h : p ∈ slots zone ring a n) :
    ∃ k < n, p = zone.pmap (pos ring.numSlots a k) ∧ pos ring.numSlots a k < ring.numSlots := by
  obtain ⟨k, hk, rfl⟩ := List.mem_map.mp h
  exact ⟨k, List.mem_range.mp hk, rfl, pos_lt ha⟩

theorem pmap_pos_inj (hsize : ring.numSlots = zone.numSlots) (ha : a < ring.numSlots) {j k : Nat}
    (hj : j < ring.numSlots) (hk : k < ring.numSlots)
    (h : zone.pmap (pos ring.numSlots a j) = zone.pmap (pos ring.numSlots a k)) : j = k := by
  have he := zone.pmap_inj (hsize ▸ pos_lt ha) (hsize ▸ pos_lt ha) h
  rw [← dist_pos ha hj, he, dist_pos ha hk]

theorem notMem_slots (hsize : ring.numSlots = zone.numSlots) (ha : a < ring.numSlots)
    (hn : n < ring.numSlots) : zone.pmap (pos ring.numSlots a n) ∉ slots zone ring a n := by
  intro h
  obtain ⟨k, hk, he, -⟩ := mem_slots ha h
  exact hk.ne (pmap_pos_inj hsize ha (hk.trans hn) hn he.symm)

theorem slots_nodup (hsize : ring.numSlots = zone.numSlots) (ha : a < ring.numSlots) (hn : n ≤ ring.numSlots) :
    (slots zone ring a n).Nodup := by
  induction n with
  | zero => exact List.nodup_nil
  | succ n ih =>
    rw [slots_succ]
    refine (ih (Nat.le_of_succ_le hn)).append (List.nodup_singleton _) fun p hp hq => ?_
    obtain rfl := List.mem_singleton.mp hq
    exact notMem_slots hsize ha hn hp

end

end Libsinet
