import Libsinet.Netmap
import Libsinet.SinList

/-!
# The loop over the packets sent

The functions of `sin_tx_thread.c` on a tx ring, and what the inner loop of
`sin_tx_thread` and the lines after it do to `pkts_out`.
-/

namespace Libsinet

open Circular

variable {P : Type u}

-- ---------------------------------------------------------------------------
-- The ring
-- ---------------------------------------------------------------------------

def txRingNslots (ring : NetmapRing) : Nat :=
  if ring.cur > ring.tail then ring.numSlots + ring.tail - ring.cur else ring.tail - ring.cur

/-- `curidx += ntx` is on an `unsigned int`. The loop on `curidx` takes the
remainder. -/
def advanceTxRing (ring : NetmapRing) (ntx : Nat) : NetmapRing :=
  let curidx := (ring.cur + ntx) % 2 ^ 32 % ring.numSlots
  { ring with head := curidx, cur := curidx }

theorem txRingNslots_eq (ring : NetmapRing) :
    txRingNslots ring = dist ring.numSlots ring.cur ring.tail := by
  unfold txRingNslots Circular.dist
  split <;> split <;> omega

theorem txRingNslots_lt {ring : NetmapRing} (h : ring.InOrder) :
    txRingNslots ring < ring.numSlots := by
  rw [txRingNslots_eq]
  exact dist_lt h.cur_lt h.tail_lt

/-- The sum does not wrap. -/
theorem advanceTxRing_eq {ring : NetmapRing} (hfits : ring.numSlots < 2 ^ 31) (h : ring.InOrder)
    (hn : ntx ≤ txRingNslots ring) : advanceTxRing ring ntx =
      { ring with head := pos ring.numSlots ring.cur ntx, cur := pos ring.numSlots ring.cur ntx } := by
  have hcur := h.cur_lt
  have hslots := hn.trans_lt (txRingNslots_lt h)
  have hsum : (ring.cur + ntx) % 2 ^ 32 = ring.cur + ntx := Nat.mod_eq_of_lt (by omega)
  rw [advanceTxRing, hsum]
  rfl

theorem advanceTxRing_order {ring : NetmapRing} (h : ring.InOrder) (ntx : Nat) :
    (advanceTxRing ring ntx).InOrder := by
  have hlt : (ring.cur + ntx) % 2 ^ 32 % ring.numSlots < ring.numSlots :=
    Nat.mod_lt _ (Nat.zero_lt_of_lt h.cur_lt)
  exact ⟨hlt, hlt, h.tail_lt, by simp [advanceTxRing]⟩

theorem dist_advanceTxRing {ring : NetmapRing} (hfits : ring.numSlots < 2 ^ 31) (h : ring.InOrder)
    (hn : ntx ≤ txRingNslots ring) : dist ring.numSlots ring.cur (advanceTxRing ring ntx).head = ntx := by
  rw [advanceTxRing_eq hfits h hn]
  exact dist_pos h.cur_lt (hn.trans_lt (txRingNslots_lt h))

-- ---------------------------------------------------------------------------
-- The packets
-- ---------------------------------------------------------------------------

/-- The first `ntx` packets of a chain unlinked one by one, and the packet
after them. -/
def unlinkPkts [DecidableEq P] (m : Links P) (pkt : Option P) : Nat → Links P × Option P
  | 0 => (m, pkt)
  | ntx + 1 =>
    match pkt with
    | some p => unlinkPkts (Function.update m p none) (m p) ntx
    | none => (m, none)

/-- `pkts_out` after `ntx` packets were sent and `pkt` is the next. -/
def pktsLeft (pktsOut : SinList P) (pkt : Option P) (ntx : Nat) : SinList P :=
  match pkt with
  | none => ⟨none, none, 0⟩
  | some p => ⟨some p, pktsOut.tail, pktsOut.len - BitVec.ofNat 32 ntx⟩

variable {m : Links P} {lst : SinList P} {l : List P}

theorem pktsLeft_none (lst : SinList P) (n : Nat) : pktsLeft lst none n = .reset := rfl

theorem pktsLeft_head (lst : SinList P) (pkt : Option P) (n : Nat) : (pktsLeft lst pkt n).head = pkt := by
  cases pkt <;> rfl

theorem pktsLeft_zero (h : lst.Holds m l) : pktsLeft lst lst.head 0 = lst := by
  unfold pktsLeft
  split
  · rename_i hh
    obtain rfl := h.head_none_iff.mp hh
    exact h.eq_reset.symm
  · rename_i p hh
    rw [← hh, BitVec.sub_zero]

/-- One more packet unlinked and gone. -/
theorem pktsLeft_next [DecidableEq P] (h : (pktsLeft lst (some p) n).Holds m (p :: l)) :
    (pktsLeft lst (m p) (n + 1)).Holds (Function.update m p none) l := by
  have hp : p ∉ l := (List.nodup_cons.mp h.chain.nodup).1
  have hchain : Linked (Function.update m p none) (m p) l := h.chain.2.update_of_notMem hp
  have hlen : lst.len - BitVec.ofNat 32 n = BitVec.ofNat 32 (l.length + 1) := h.len
  cases hmp : m p with
  | none =>
    rw [hmp] at hchain
    obtain rfl := hchain.none_iff.mp rfl
    exact SinList.reset_holds _
  | some q =>
    rw [hmp] at hchain
    have hl : l ≠ [] := mt hchain.none_iff.mpr (by simp)
    have htail : lst.tail = (p :: l).getLast? := h.tail
    refine ⟨⟨hchain, htail.trans (List.getLast?_cons_of_ne_nil hl), ?_⟩, Nat.lt_of_succ_lt h.fits⟩
    show lst.len - BitVec.ofNat 32 (n + 1) = BitVec.ofNat 32 l.length
    rw [BitVec.ofNat_add, ← BitVec.sub_sub, hlen, BitVec.ofNat_add, BitVec.add_sub_cancel]

end Libsinet
