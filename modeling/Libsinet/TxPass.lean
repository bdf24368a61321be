import Libsinet.PktZoneFast
import Libsinet.Stance

/-!
# One transmit pass

The part of the loop of `sin_tx_thread` that fills slots, from the test of
`pkts_out` up to `nextcycle`, with the packets' links, slots and buffers all in
the state. A step is one evaluation of a loop condition with what follows it;
between any two the kernel may add slots at the end of the ring's.
-/

namespace Libsinet.TxPass

open Machine NetmapRing Circular PktZone
open Stance (TxPc)

variable {R : Type u} {T : Type v} [DecidableEq R] [DecidableEq T]

/-- `returned` is a record of the calls of `sin_pkt_zone_ret_pkt`. -/
structure Pass (R : Type u) (T : Type v) extends ZoneMem R T where
  links : Links (Ref R T)
  pktsOut : SinList (Ref R T)
  pktsTx : SinList (Ref R T)
  pc : TxPc (Ref R T)
  returned : List (Ref R T)

def txZone (N : Rings R T) (t : T) : SinPktZone (Ref R T) where
  numSlots := N.numSlots (.inr t)
  fits := N.fits (.inr t)
  pmap i := (.inr t, i)
  zoneIdx := Prod.snd
  zoneIdx_pmap _ _ := rfl

inductive Move
  | thread
  | drain (tail : Nat)

-- ---------------------------------------------------------------------------
-- The code
-- ---------------------------------------------------------------------------

def sendPkt (N : Rings R T) (s : Pass R T) (ntx i : Nat) (pkt pktTx : Ref R T) : Pass R T :=
  let z := zoneSend N s.toZoneMem pkt pktTx
  let links := Function.update s.links pkt none
  { s with
    toState := sinPktZoneRetPkt z.toState pkt
    mem := z.mem
    returned := s.returned ++ [pkt]
    links := Function.update links pktTx none
    pc := .send ntx (i + 1) (s.links pkt) (links pktTx) }

def threadStep (N : Rings R T) (t : T) (s : Pass R T) : Option (Pass R T) :=
  let ring := s.ring (.inr t)
  match s.pc with
  | .start aslots =>
    if s.pktsOut.isEmpty then some { s with pc := .checkCtrl }
    else
      let ntx := min aslots s.pktsOut.len.toNat
      let pkt := (txZone N t).pmap ring.cur
      some { s with pktsTx := ⟨some pkt, some pkt, 1⟩, pc := .getpkts ntx ntx ring.cur }
  | .getpkts ntx left curidx =>
    if 1 < left then
      let curidx := nmRingNext ring curidx
      let a := sinListAppend s.links s.pktsTx ((txZone N t).pmap curidx)
      some { s with links := a.1, pktsTx := a.2, pc := .getpkts ntx (left - 1) curidx }
    else some { s with pc := .send ntx 0 s.pktsOut.head s.pktsTx.head }
  | .send ntx i pkt pktTx =>
    if i < ntx then
      match pkt, pktTx with
      | some pkt, some pktTx => some (sendPkt N s ntx i pkt pktTx)
      | _, _ => none
    else some { s with pc := .advance ntx pkt }
  | .advance ntx pkt =>
    some { s with
      toState := PktZone.advance s.toState t ntx
      pktsOut := pktsLeft s.pktsOut pkt ntx
      pc := .checkCtrl }
  | _ => none

def drain (t : T) (s : Pass R T) (tail : Nat) : Pass R T :=
  { s with ring := Function.update s.ring (.inr t) { s.ring (.inr t) with tail } }

def step (N : Rings R T) (t : T) (s : Pass R T) : Move → Option (Pass R T)
  | .thread => threadStep N t s
  | .drain tail => if (s.ring (.inr t)).MayAdvanceTail tail then some (drain t s tail) else none

abbrev machine (N : Rings R T) (t : T) (start : Pass R T) : Machine (Pass R T) Move :=
  ofFn (· = start) (step N t)

-- ---------------------------------------------------------------------------
-- A pass
-- ---------------------------------------------------------------------------

/-- The start of a pass that found free slots, with the packets `A` to send. The
length of a packet is one that a slot had. -/
structure Start (N : Rings R T) (size : Nat) (t : T) (s : Pass R T) (A : List (Ref R T)) : Prop where
  numSlots : (s.ring (.inr t)).numSlots = N.numSlots (.inr t)
  cur : (s.ring (.inr t)).cur = (s.ring (.inr t)).head
  cur_lt : (s.ring (.inr t)).cur < (s.ring (.inr t)).numSlots
  tail_lt : (s.ring (.inr t)).tail < (s.ring (.inr t)).numSlots
  pc : s.pc = .start (txRingNslots (s.ring (.inr t)))
  free : 0 < txRingNslots (s.ring (.inr t))
  out : s.pktsOut.Holds s.links A
  nonempty : A ≠ []
  pkts : ∀ p ∈ A, N.IsSlot p ∧ p.1 ≠ .inr t ∧ (s.pktLen p).toNat < 2 ^ 16 ∧ (s.pktLen p).toNat ≤ size
  loose : ∀ i, s.links (.inr t, i) = none
  buffers : Buffers N size s.toZoneMem
  size : 1024 ≤ size

/-- `nm_ring_next`, `k` times from `cur` on. -/
def nthSlot (t : T) (s : Pass R T) (k : Nat) : Ref R T :=
  (.inr t, (nmRingNext (s.ring (.inr t)))^[k] (s.ring (.inr t)).cur)

/-- What a pass made of `start`, `ntx` packets being sent. -/
structure Passed (N : Rings R T) (size : Nat) (t : T) (start : Pass R T) (A : List (Ref R T)) (ntx : Nat)
    (s : Pass R T) : Prop where
  placed : ∀ k p, k < ntx → A[k]? = some p → s.slotFrame N (nthSlot t start k) = start.frame p
  written : ∀ a, N.IsSlot a → a ∉ A.take ntx →
    (a.1 = .inr t → ¬ (start.ring (.inr t)).Between (start.ring (.inr t)).cur a.2 (start.ring (.inr t)).tail) →
      Same size start.toZoneMem s.toZoneMem a
  head : (s.ring (.inr t)).head = (nthSlot t start ntx).2
  cur : (s.ring (.inr t)).cur = (nthSlot t start ntx).2
  tail : dist (s.ring (.inr t)).numSlots (start.ring (.inr t)).cur (s.ring (.inr t)).head ≤
    dist (s.ring (.inr t)).numSlots (start.ring (.inr t)).cur (start.ring (.inr t)).tail
  unlinked : ∀ p ∈ A.take ntx, s.links p = none
  returned : s.returned = start.returned ++ A.take ntx
  cleared : ∀ p ∈ A.take ntx, s.flags p = sinPktSetflags (start.flags p) 0 spktBusy
  kept : ∀ p, p ∉ A.take ntx → s.flags p = start.flags p
  left : s.pktsOut.Holds s.links (A.drop ntx)
  reset : A.length = ntx → s.pktsOut = .reset
  loose : ∀ i, s.links (.inr t, i) = none

/-- The thread's steps up to the end of the pass. -/
def stepsLeft (len : Nat) : TxPc (Ref R T) → Nat
  | .start aslots => 2 * min aslots len + 3
  | .getpkts ntx left _ => left + ntx + 2
  | .send ntx i _ _ => ntx - i + 2
  | .advance .. => 1
  | _ => 0

-- ---------------------------------------------------------------------------
-- What is sent
-- ---------------------------------------------------------------------------

variable {N : Rings R T} {size : Nat} {t : T} {s s' start : Pass R T} {A Q : List (Ref R T)} {i ntx : Nat}
  {p q : Ref R T}

/-- After the first `i` packets of `A` went to the first `i` slots of `Q`. -/
structure Sent (N : Rings R T) (size : Nat) (start : Pass R T) (A Q : List (Ref R T)) (i : Nat)
    (s : Pass R T) : Prop where
  buffers : Buffers N size s.toZoneMem
  placed : ∀ k p q, k < i → A[k]? = some p → Q[k]? = some q → s.slotFrame N q = start.frame p
  same : ∀ a, N.IsSlot a → a ∉ A.take i → a ∉ Q.take i → Same size start.toZoneMem s.toZoneMem a
  returned : s.returned = start.returned ++ A.take i
  cleared : ∀ p ∈ A.take i, s.flags p = sinPktSetflags (start.flags p) 0 spktBusy
  kept : ∀ p, p ∉ A.take i → s.flags p = start.flags p

omit [DecidableEq R] [DecidableEq T] in
theorem Sent.zero (h : Buffers N size start.toZoneMem) : Sent N size start A Q 0 start := by
  refine ⟨h, fun k p q hk => ?_, fun a _ _ _ => Same.refl size _ a, ?_, ?_, fun _ _ => rfl⟩
  · cases hk
  · simp
  · simp

omit [DecidableEq R] [DecidableEq T] in
theorem Sent.congr (h : Sent N size start A Q i s)
    (hz : ∃ ring seen, s'.toZoneMem = { s.toZoneMem with ring := ring, seen := seen })
    (hret : s'.returned = s.returned) : Sent N size start A Q i s' := by
  obtain ⟨ring, seen, hz⟩ := hz
  refine ⟨?_, ?_, fun a ha hA hQ => ?_, hret ▸ h.returned, ?_, ?_⟩
  · rw [hz]
    exact ⟨h.buffers.mySlot, h.buffers.buf, h.buffers.apart⟩
  · rw [hz]
    exact h.placed
  · have hold := h.same a ha hA hQ
    rw [hz]
    exact ⟨hold.buf, hold.pktLen, hold.bufIdx, hold.slotLen, hold.slotFlags, hold.mem⟩
  · rw [hz]
    exact h.cleared
  · rw [hz]
    exact h.kept

/-- The packets to send and the slots for them are slots of different rings. -/
structure Lined (N : Rings R T) (size : Nat) (t : T) (start : Pass R T) (A Q : List (Ref R T)) : Prop where
  pkts : ∀ p ∈ A, N.IsSlot p ∧ p.1 ≠ .inr t ∧ (start.pktLen p).toNat < 2 ^ 16 ∧ (start.pktLen p).toNat ≤ size
  slots : ∀ q ∈ Q, N.IsSlot q ∧ q.1 = .inr t
  nodup : A.Nodup
  nodup' : Q.Nodup
  size : 1024 ≤ size

section

omit [DecidableEq R] [DecidableEq T]

theorem Lined.ne (h : Lined N size t start A Q) (hp : p ∈ A) (hq : q ∈ Q) : p ≠ q := by
  rintro rfl
  exact (h.pkts p hp).2.1 (h.slots p hq).2

theorem getElem?_ne {l : List (Ref R T)} {k : Nat} (h : l.Nodup) (hq : l[k]? = some q) (hp : l[i]? = some p)
    (hk : k < i) : q ≠ p := by
  rintro rfl
  obtain ⟨hi, hi'⟩ := List.getElem?_eq_some_iff.mp hp
  obtain ⟨hk', hk''⟩ := List.getElem?_eq_some_iff.mp hq
  exact hk.ne ((List.Nodup.getElem_inj_iff h).mp (hk''.trans hi'.symm))

theorem notMem_take {l : List (Ref R T)} (h : l.Nodup) (hp : l[i]? = some p) : p ∉ l.take i := by
  intro hmem
  obtain ⟨k, hk, hkp⟩ := List.mem_take_iff_getElem.mp hmem
  exact getElem?_ne h (List.getElem?_eq_some_iff.mpr ⟨_, hkp⟩) hp (hk.trans_le (Nat.min_le_left _ _)) rfl

theorem take_succ {l : List (Ref R T)} (hp : l[i]? = some p) : l.take (i + 1) = l.take i ++ [p] := by
  rw [List.take_add_one, hp]
  rfl

theorem mem_take_succ {l : List (Ref R T)} (hp : l[i]? = some p) : q ∈ l.take (i + 1) ↔ q ∈ l.take i ∨ q = p := by
  rw [take_succ hp, List.mem_append, List.mem_singleton]

end

theorem sendPkt_flags (N : Rings R T) (s : Pass R T) (ntx i : Nat) (p q : Ref R T) :
    (sendPkt N s ntx i p q).flags = Function.update s.flags p (sinPktSetflags (s.flags p) 0 spktBusy) := by
  simp only [sendPkt, sinPktZoneRetPkt, zoneSend]
  split <;> rfl

theorem sendPkt_same (hb : Buffers N size s.toZoneMem) (hp : N.IsSlot p) (hq : N.IsSlot q) (hne : p ≠ q)
    (hsize : 1024 ≤ size) (hlen : (s.pktLen p).toNat < 2 ^ 16) (hl : (s.pktLen p).toNat ≤ size) {a : Ref R T}
    (ha : N.IsSlot a) (hap : a ≠ p) (haq : a ≠ q) :
    Same size s.toZoneMem (sendPkt N s ntx i p q).toZoneMem a := by
  have hold := hb.send_same hp hq ha hne hap haq hsize hlen hl
  exact ⟨hold.buf, hold.pktLen, hold.bufIdx, hold.slotLen, hold.slotFlags, hold.mem⟩

theorem sendPkt_buffers (hb : Buffers N size s.toZoneMem) (hp : N.IsSlot p) (hq : N.IsSlot q) (hne : p ≠ q) :
    Buffers N size (sendPkt N s ntx i p q).toZoneMem := by
  have hold := hb.send hp hq hne
  exact ⟨hold.mySlot, hold.buf, hold.apart⟩

omit [DecidableEq R] [DecidableEq T] in
theorem Sent.slotLen_le (h : Sent N size start A Q i s) (hl : Lined N size t start A Q) {k : Nat} (hk : k < i)
    (hp : A[k]? = some p) (hq : Q[k]? = some q) : (s.slotLen q).toNat ≤ size := by
  have hlength := congrArg List.length (h.placed k p q hk hp hq)
  simp only [ZoneMem.slotFrame, ZoneMem.frame, Bytes.bytes_length] at hlength
  rw [hlength]
  exact (hl.pkts p (List.mem_of_getElem? hp)).2.2.2

theorem Sent.next (h : Sent N size start A Q i s) (hl : Lined N size t start A Q) (hp : A[i]? = some p)
    (hq : Q[i]? = some q) : Sent N size start A Q (i + 1) (sendPkt N s ntx i p q) := by
  have hpA := List.mem_of_getElem? hp
  have hqQ := List.mem_of_getElem? hq
  have hne := hl.ne hpA hqQ
  obtain ⟨hpslot, hpring, hcut, hlen⟩ := hl.pkts p hpA
  obtain ⟨hqslot, hqring⟩ := hl.slots q hqQ
  have hsame := h.same p hpslot (notMem_take hl.nodup hp) fun hmem => hl.ne hpA (List.mem_of_mem_take hmem) rfl
  have hcut' : (s.pktLen p).toNat < 2 ^ 16 := hsame.pktLen.symm ▸ hcut
  have hlen' : (s.pktLen p).toNat ≤ size := hsame.pktLen.symm ▸ hlen
  have hkeep : ∀ a, N.IsSlot a → a ≠ p → a ≠ q → Same size s.toZoneMem (sendPkt N s ntx i p q).toZoneMem a :=
    fun _ => sendPkt_same h.buffers hpslot hqslot hne hl.size hcut' hlen'
  refine ⟨sendPkt_buffers h.buffers hpslot hqslot hne, ?_, ?_, ?_, ?_, ?_⟩
  · intro k p' q' hk hp' hq'
    rcases Nat.lt_succ_iff_lt_or_eq.mp hk with hk | rfl
    · have hqslot' := (hl.slots q' (List.mem_of_getElem? hq')).1
      have hkept := hkeep q' hqslot' (hl.ne hpA (List.mem_of_getElem? hq')).symm (getElem?_ne hl.nodup' hq' hq hk)
      exact (hkept.slotFrame h.buffers hqslot' (h.slotLen_le hl hk hp' hq')).trans (h.placed k p' q' hk hp' hq')
    · obtain rfl := Option.some.inj (hp.symm.trans hp')
      obtain rfl := Option.some.inj (hq.symm.trans hq')
      exact (h.buffers.send_frame hpslot hqslot hne hl.size hcut' hlen').trans (hsame.frame hlen)
  · intro a ha hA hQ
    rw [mem_take_succ hp, not_or] at hA
    rw [mem_take_succ hq, not_or] at hQ
    exact (h.same a ha hA.1 hQ.1).trans (hkeep a ha hA.2 hQ.2)
  · rw [take_succ hp, ← List.append_assoc, ← h.returned]
    rfl
  · intro p' hp'
    rw [sendPkt_flags]
    rcases eq_or_ne p' p with rfl | hpp
    · rw [Function.update_self, h.kept p' (notMem_take hl.nodup hp)]
    · rw [Function.update_of_ne hpp]
      exact h.cleared p' (((mem_take_succ hp).mp hp').resolve_right hpp)
  · intro p' hp'
    rw [mem_take_succ hp, not_or] at hp'
    rw [sendPkt_flags, Function.update_of_ne hp'.2]
    exact h.kept p' hp'.1

-- ---------------------------------------------------------------------------
-- The two lists
-- ---------------------------------------------------------------------------

/-- The list of packets still to be sent and that of slots still to be filled,
no other packet of the pass being linked. `gone` are those that were sent. -/
structure Lists (t : T) (out tx : SinList (Ref R T)) (m : Links (Ref R T)) (gone A Q : List (Ref R T)) : Prop where
  out : out.Holds m A
  tx : tx.Holds m Q
  unlinked : ∀ p ∈ gone, m p = none
  loose : ∀ i, (.inr t, i) ∉ Q → m (.inr t, i) = none

variable {out tx : SinList (Ref R T)} {m : Links (Ref R T)} {gone : List (Ref R T)}

theorem Lists.append (h : Lists t out tx m [] A Q) (hA : ∀ p ∈ A, p.1 ≠ .inr t) (hQ : ∀ q ∈ Q, q.1 = .inr t)
    (hnew : ((.inr t, i) : Ref R T) ∉ Q) (hfits : (Q ++ [((.inr t, i) : Ref R T)]).length < 2 ^ 32) :
    Lists t out (sinListAppend m tx (.inr t, i)).2 (sinListAppend m tx (.inr t, i)).1 [] A (Q ++ [(.inr t, i)]) := by
  refine ⟨?_, sinListAppend_holds h.tx (h.loose i hnew) hnew hfits, nofun, fun j hj => ?_⟩
  · refine h.out.congr fun p hp => sinListAppend_frame h.tx.toSpans ?_
    exact fun hpQ => hA p hp (hQ p hpQ)
  · have hj' : ((.inr t, j) : Ref R T) ∉ Q := fun hmem => hj (List.mem_append_left _ hmem)
    rw [sinListAppend_frame h.tx.toSpans hj']
    exact h.loose j hj'

theorem Lists.next (h : Lists t (pktsLeft out (some p) i) (pktsLeft tx (some q) i) m gone (p :: A) (q :: Q))
    (hA : ∀ p' ∈ p :: A, p'.1 ≠ .inr t) (hQ : ∀ q' ∈ q :: Q, q'.1 = .inr t) :
    Lists t (pktsLeft out (m p) (i + 1)) (pktsLeft tx (Function.update m p none q) (i + 1))
      (Function.update (Function.update m p none) q none) (gone ++ [p]) A Q := by
  have hpq : q ≠ p := by
    rintro rfl
    exact hA q List.mem_cons_self (hQ q List.mem_cons_self)
  have hpQ : ∀ q' ∈ q :: Q, q' ≠ p := by
    rintro q' hq' rfl
    exact hA q' List.mem_cons_self (hQ q' hq')
  have hqA : ∀ p' ∈ A, p' ≠ q := by
    rintro p' hp' rfl
    exact hA p' (List.mem_cons_of_mem _ hp') (hQ p' List.mem_cons_self)
  have htx := h.tx.congr fun q' hq' => Function.update_of_ne (hpQ q' hq') none m
  refine ⟨?_, pktsLeft_next htx, fun p' hp' => ?_, fun j hj => ?_⟩
  · exact (pktsLeft_next h.out).congr fun p' hp' => Function.update_of_ne (hqA p' hp') _ _
  · rcases eq_or_ne p' q with rfl | hq'
    · simp
    · rcases eq_or_ne p' p with rfl | hp''
      · simp [hq']
      · have hgone : p' ∈ gone := by simpa [hp''] using hp'
        simpa [hq', hp''] using h.unlinked p' hgone
  · rcases eq_or_ne (.inr t, j) q with rfl | hq'
    · simp
    · rcases eq_or_ne (.inr t, j) p with rfl | hp''
      · simp [hq']
      · have hold : (.inr t, j) ∉ q :: Q := by simp [hq', hj]
        simpa [hq', hp''] using h.loose j hold

-- ---------------------------------------------------------------------------
-- The invariant
-- ---------------------------------------------------------------------------

def ntxOf (start : Pass R T) (t : T) (A : List (Ref R T)) : Nat :=
  min (txRingNslots (start.ring (.inr t))) A.length

def slotsOf (N : Rings R T) (start : Pass R T) (t : T) (n : Nat) : List (Ref R T) :=
  slots (txZone N t) (start.ring (.inr t)) (start.ring (.inr t)).cur n

def sentAt (ntx : Nat) : TxPc (Ref R T) → Nat
  | .send _ i _ _ => i
  | .advance _ _ => ntx
  | .checkCtrl => ntx
  | _ => 0

def ListsAt (N : Rings R T) (start : Pass R T) (t : T) (A : List (Ref R T)) (s : Pass R T) :
    TxPc (Ref R T) → Prop
  | .start aslots => aslots = txRingNslots (start.ring (.inr t)) ∧ Lists t s.pktsOut .reset s.links [] A []
  | .getpkts ntx left curidx => ntx = ntxOf start t A ∧ 0 < left ∧ left ≤ ntx ∧
      curidx = pos (N.numSlots (.inr t)) (start.ring (.inr t)).cur (ntx - left) ∧
      Lists t s.pktsOut s.pktsTx s.links [] A (slotsOf N start t (ntx - left + 1))
  | .send ntx i pkt pktTx => ntx = ntxOf start t A ∧ i ≤ ntx ∧
      Lists t (pktsLeft s.pktsOut pkt i) (pktsLeft s.pktsTx pktTx i) s.links (A.take i) (A.drop i)
        ((slotsOf N start t ntx).drop i)
  | .advance ntx pkt => ntx = ntxOf start t A ∧
      Lists t (pktsLeft s.pktsOut pkt ntx) .reset s.links (A.take ntx) (A.drop ntx) []
  | .checkCtrl =>
    Lists t s.pktsOut .reset s.links (A.take (ntxOf start t A)) (A.drop (ntxOf start t A)) []
  | _ => False

def curAt (N : Rings R T) (start : Pass R T) (t : T) (A : List (Ref R T)) : TxPc (Ref R T) → Nat
  | .checkCtrl => pos (N.numSlots (.inr t)) (start.ring (.inr t)).cur (ntxOf start t A)
  | _ => (start.ring (.inr t)).cur

structure Inv (N : Rings R T) (size : Nat) (start : Pass R T) (t : T) (A : List (Ref R T)) (s : Pass R T) :
    Prop where
  numSlots : (s.ring (.inr t)).numSlots = N.numSlots (.inr t)
  head : (s.ring (.inr t)).head = curAt N start t A s.pc
  cur : (s.ring (.inr t)).cur = curAt N start t A s.pc
  sent : Sent N size start A (slotsOf N start t (ntxOf start t A)) (sentAt (ntxOf start t A) s.pc) s
  lists : ListsAt N start t A s s.pc

section
variable {aslots left curidx : Nat} {pkt pktTx : Option (Ref R T)}

section

omit [DecidableEq R] [DecidableEq T]

theorem Start.order (h : Start N size t start A) : (start.ring (.inr t)).InOrder :=
  ⟨h.cur ▸ h.cur_lt, h.cur_lt, h.tail_lt, by simp [h.cur]⟩

theorem Start.fits (h : Start N size t start A) : (start.ring (.inr t)).numSlots < 2 ^ 31 :=
  h.numSlots ▸ N.fits (.inr t)

theorem Start.ntx_pos (h : Start N size t start A) : 0 < ntxOf start t A :=
  Nat.lt_min.mpr ⟨h.free, List.length_pos_iff.mpr h.nonempty⟩

theorem Start.ntx_lt (h : Start N size t start A) : ntxOf start t A < (start.ring (.inr t)).numSlots :=
  (Nat.min_le_left _ _).trans_lt (txRingNslots_lt h.order)

theorem mem_slotsOf (h : Start N size t start A) {n : Nat} (hq : q ∈ slotsOf N start t n) :
    N.IsSlot q ∧ q.1 = .inr t := by
  obtain ⟨k, -, rfl, hlt⟩ := mem_slots h.cur_lt hq
  exact ⟨h.numSlots ▸ hlt, rfl⟩

theorem Start.lined (h : Start N size t start A) :
    Lined N size t start A (slotsOf N start t (ntxOf start t A)) :=
  ⟨h.pkts, fun _ hq => mem_slotsOf h hq, h.out.chain.nodup,
    slots_nodup h.numSlots h.cur_lt h.ntx_lt.le, h.size⟩

theorem Start.inv (h : Start N size t start A) : Inv N size start t A start := by
  have hlists : ListsAt N start t A start (.start (txRingNslots (start.ring (.inr t)))) :=
    ⟨rfl, h.out, SinList.reset_holds _, nofun, fun i _ => h.loose i⟩
  have hcur : curAt N start t A start.pc = (start.ring (.inr t)).cur := by rw [h.pc]; rfl
  refine ⟨h.numSlots, h.cur.symm.trans hcur.symm, hcur.symm, ?_, h.pc ▸ hlists⟩
  rw [h.pc]
  exact Sent.zero h.buffers

theorem Inv.quiet (h : Inv N size start t A s) (hz : s'.toZoneMem = s.toZoneMem) (hret : s'.returned = s.returned)
    (hcur : curAt N start t A s'.pc = curAt N start t A s.pc)
    (hsent : sentAt (ntxOf start t A) s'.pc = sentAt (ntxOf start t A) s.pc)
    (hlists : ListsAt N start t A s' s'.pc) : Inv N size start t A s' := by
  refine ⟨?_, ?_, ?_, ?_, hlists⟩
  · rw [hz, h.numSlots]
  · rw [hz, h.head, hcur]
  · rw [hz, h.cur, hcur]
  · rw [hsent]
    exact h.sent.congr ⟨s.ring, s.seen, hz⟩ hret

theorem Inv.sent_at (h : Inv N size start t A s) {pc : TxPc (Ref R T)} (hpc : s.pc = pc) :
    Sent N size start A (slotsOf N start t (ntxOf start t A)) (sentAt (ntxOf start t A) pc) s :=
  hpc ▸ h.sent

end

/-- A thread's step goes through, keeps the invariant and is one of those left. -/
def Goes (N : Rings R T) (size : Nat) (start : Pass R T) (t : T) (A : List (Ref R T)) (s : Pass R T) : Prop :=
  ∃ s', threadStep N t s = some s' ∧ Inv N size start t A s' ∧
    stepsLeft A.length s'.pc < stepsLeft A.length s.pc

theorem Inv.begin (hst : Start N size t start A) (h : Inv N size start t A s) (hpc : s.pc = .start aslots) :
    Goes N size start t A s := by
  obtain ⟨rfl, hl⟩ : aslots = _ ∧ _ := hpc ▸ h.lists
  have hempty : s.pktsOut.isEmpty = false := by
    rw [Bool.eq_false_iff]
    exact mt hl.out.isEmpty_iff.mp hst.nonempty
  have hntx : min (txRingNslots (start.ring (.inr t))) s.pktsOut.len.toNat = ntxOf start t A := by
    rw [hl.out.len_toNat, ntxOf]
  have hcur : (s.ring (.inr t)).cur = (start.ring (.inr t)).cur := by rw [h.cur, hpc]; rfl
  refine ⟨_, by simp only [threadStep, hpc, hempty, hntx, hcur]; rfl, ?_, ?_⟩
  · refine h.quiet rfl rfl (by rw [hpc]; rfl) (by rw [hpc]; rfl) ⟨rfl, hst.ntx_pos, le_rfl, ?_, ?_⟩
    · rw [Nat.sub_self, ← hst.numSlots, pos_zero hst.cur_lt]
    · have hone : slotsOf N start t 1 = [(.inr t, (start.ring (.inr t)).cur)] := slots_one hst.cur_lt
      rw [Nat.sub_self, hone]
      exact ⟨hl.out, ⟨⟨⟨rfl, hl.loose _ (by simp)⟩, rfl, rfl⟩, by simp⟩, nofun, fun i _ => hl.loose i (by simp)⟩
  · rw [hpc]
    simp only [stepsLeft, ntxOf]
    omega

theorem Inv.getpkts (hst : Start N size t start A) (h : Inv N size start t A s)
    (hpc : s.pc = .getpkts ntx left curidx) : Goes N size start t A s := by
  obtain ⟨rfl, hpos, hle, rfl, hl⟩ : ntx = _ ∧ _ := hpc ▸ h.lists
  by_cases hleft : 1 < left
  · have hnext : nmRingNext (s.ring (.inr t)) (pos (N.numSlots (.inr t)) (start.ring (.inr t)).cur
        (ntxOf start t A - left)) = pos (N.numSlots (.inr t)) (start.ring (.inr t)).cur
          (ntxOf start t A - (left - 1)) := by
      rw [nmRingNext, h.numSlots, ← pos_succ]
      congr 1
      omega
    have hsucc : ntxOf start t A - left + 1 = ntxOf start t A - (left - 1) := by omega
    have hslots : slotsOf N start t (ntxOf start t A - (left - 1) + 1) =
        slotsOf N start t (ntxOf start t A - left + 1) ++
          [(.inr t, pos (N.numSlots (.inr t)) (start.ring (.inr t)).cur (ntxOf start t A - (left - 1)))] := by
      rw [hsucc, slotsOf, slots_succ, hst.numSlots]
      rfl
    have hnew : (txZone N t).pmap (pos (N.numSlots (.inr t)) (start.ring (.inr t)).cur (ntxOf start t A - (left - 1)))
        ∉ slotsOf N start t (ntxOf start t A - left + 1) := by
      have hlt := hst.ntx_lt
      rw [hsucc, ← hst.numSlots]
      exact notMem_slots hst.numSlots hst.cur_lt (by omega)
    refine ⟨_, by simp only [threadStep, hpc, hleft, hnext]; rfl, ?_, ?_⟩
    · refine h.quiet rfl rfl (by rw [hpc]; rfl) (by rw [hpc]; rfl) ⟨rfl, by omega, by omega, rfl, ?_⟩
      rw [hslots]
      refine hl.append (fun p hp => (hst.pkts p hp).2.1) (fun q hq => (mem_slotsOf hst hq).2) hnew ?_
      have hlt := hst.ntx_lt
      have hfits := hst.fits
      rw [List.length_append, slotsOf, slots_length, List.length_singleton]
      omega
    · rw [hpc]
      simp only [stepsLeft]
      omega
  · obtain rfl : left = 1 := by omega
    refine ⟨_, by simp only [threadStep, hpc, hleft]; rfl, ?_, ?_⟩
    · refine h.quiet rfl rfl (by rw [hpc]; rfl) (by rw [hpc]; rfl) ⟨rfl, Nat.zero_le _, ?_⟩
      rw [Nat.sub_add_cancel hle] at hl
      simpa only [pktsLeft_zero hl.out, pktsLeft_zero hl.tx, List.take_zero, List.drop_zero] using hl
    · rw [hpc]
      simp only [stepsLeft]
      omega

omit [DecidableEq R] [DecidableEq T] in
theorem head_left {lst : SinList (Ref R T)} {l : List (Ref R T)} (h : (pktsLeft lst pkt i).Holds m (l.drop i))
    (hi : i < l.length) : ∃ p, pkt = some p ∧ l[i]? = some p ∧ l.drop i = p :: l.drop (i + 1) := by
  refine ⟨l[i], ?_, List.getElem?_eq_getElem hi, List.drop_eq_getElem_cons hi⟩
  have hhead := h.chain.head_eq
  rwa [pktsLeft_head, List.head?_drop, List.getElem?_eq_getElem hi] at hhead

theorem Inv.send (hst : Start N size t start A) (h : Inv N size start t A s)
    (hpc : s.pc = .send ntx i pkt pktTx) : Goes N size start t A s := by
  obtain ⟨rfl, hi, hl⟩ : ntx = _ ∧ _ := hpc ▸ h.lists
  have hsent := h.sent_at hpc
  by_cases hlt : i < ntxOf start t A
  · obtain ⟨p, rfl, hp, hA⟩ := head_left hl.out (hlt.trans_le (Nat.min_le_right _ _))
    obtain ⟨q, rfl, hq, hQ⟩ := head_left hl.tx (by rwa [slotsOf, slots_length])
    have hlined := hst.lined
    rw [hA, hQ] at hl
    have hnext := hl.next (fun p' hp' => (hlined.pkts p' (List.mem_of_mem_drop (hA ▸ hp'))).2.1)
      (fun q' hq' => (hlined.slots q' (List.mem_of_mem_drop (hQ ▸ hq'))).2)
    refine ⟨sendPkt N s (ntxOf start t A) i p q, by simp only [threadStep, hpc, hlt]; rfl, ?_, ?_⟩
    · have hring : (sendPkt N s (ntxOf start t A) i p q).ring = s.ring := by
        simp only [sendPkt, sinPktZoneRetPkt, zoneSend]
        split <;> rfl
      refine ⟨?_, ?_, ?_, hsent.next hlined hp hq, rfl, hlt, ?_⟩
      · rw [hring, h.numSlots]
      · rw [hring, h.head, hpc]
        rfl
      · rw [hring, h.cur, hpc]
        rfl
      · rw [take_succ hp]
        exact hnext
    · rw [hpc]
      simp only [sendPkt, stepsLeft]
      omega
  · obtain rfl : i = ntxOf start t A := by omega
    refine ⟨_, by simp only [threadStep, hpc, hlt]; rfl, ?_, ?_⟩
    · have hnil : (slotsOf N start t (ntxOf start t A)).drop (ntxOf start t A) = [] :=
        List.drop_eq_nil_of_le (by simp [slotsOf])
      rw [hnil] at hl
      exact h.quiet rfl rfl (by rw [hpc]; rfl) (by rw [hpc]; rfl)
        ⟨rfl, hl.out, SinList.reset_holds _, hl.unlinked, hl.loose⟩
    · rw [hpc]
      simp only [stepsLeft]
      omega

theorem Inv.advance (hst : Start N size t start A) (h : Inv N size start t A s)
    (hpc : s.pc = .advance ntx pkt) : Goes N size start t A s := by
  obtain ⟨rfl, hl⟩ : ntx = _ ∧ _ := hpc ▸ h.lists
  have hsent := h.sent_at hpc
  have hcur : (s.ring (.inr t)).cur = (start.ring (.inr t)).cur := by rw [h.cur, hpc]; rfl
  have hsum : (start.ring (.inr t)).cur + ntxOf start t A < 2 ^ 32 := by
    have hlt := hst.ntx_lt
    have hfits := hst.fits
    have hslot := hst.cur_lt
    omega
  have hnew : ((s.ring (.inr t)).cur + ntxOf start t A) % 2 ^ 32 % (s.ring (.inr t)).numSlots =
      pos (N.numSlots (.inr t)) (start.ring (.inr t)).cur (ntxOf start t A) := by
    rw [hcur, h.numSlots, Nat.mod_eq_of_lt hsum, pos]
  refine ⟨_, by simp only [threadStep, hpc]; rfl, ⟨?_, ?_, ?_, ?_, ?_⟩, ?_⟩
  · simpa [PktZone.advance, storeHead, advanceTxRing] using h.numSlots
  · simpa [PktZone.advance, storeHead, advanceTxRing, curAt] using hnew
  · simpa [PktZone.advance, storeHead, advanceTxRing, curAt] using hnew
  · exact hsent.congr ⟨_, _, rfl⟩ rfl
  · exact hl
  · rw [hpc]
    simp [stepsLeft]

theorem Inv.goes (hst : Start N size t start A) (h : Inv N size start t A s) (hpc : s.pc ≠ .checkCtrl) :
    Goes N size start t A s := by
  cases hs : s.pc with
  | start aslots => exact h.begin hst hs
  | getpkts ntx left curidx => exact h.getpkts hst hs
  | send ntx i pkt pktTx => exact h.send hst hs
  | advance ntx pkt => exact h.advance hst hs
  | checkCtrl => exact absurd hs hpc
  | _ =>
    have hlists := h.lists
    rw [hs] at hlists
    exact hlists.elim

theorem Inv.drain (h : Inv N size start t A s) (tail : Nat) : Inv N size start t A (drain t s tail) := by
  refine ⟨?_, ?_, ?_, ?_, ?_⟩
  · simpa [TxPass.drain] using h.numSlots
  · simpa [TxPass.drain] using h.head
  · simpa [TxPass.drain] using h.cur
  · exact h.sent.congr ⟨_, s.seen, rfl⟩ rfl
  · have hlists := h.lists
    revert hlists
    show ListsAt N start t A s s.pc → ListsAt N start t A _ s.pc
    cases s.pc <;> exact id

end

-- ---------------------------------------------------------------------------
-- The whole pass
-- ---------------------------------------------------------------------------

theorem inv_of_reachable (hst : Start N size t start A) (h : (machine N t start).Reachable s) :
    Inv N size start t A s := by
  refine h.induct (I := fun s => Inv N size start t A s) ?_ ?_
  · rintro s rfl
    exact hst.inv
  · rintro s mv s' hinv hs
    cases mv with
    | thread =>
      have hs : threadStep N t s = some s' := hs
      have hpc : s.pc ≠ .checkCtrl := by
        intro hpc
        simp [threadStep, hpc] at hs
      obtain ⟨s'', hs'', hinv', -⟩ := hinv.goes hst hpc
      obtain rfl := Option.some.inj (hs''.symm.trans hs)
      exact hinv'
    | drain tail =>
      obtain ⟨-, ⟨⟩⟩ := Option.ite_none_right_eq_some.mp hs
      exact hinv.drain tail

section

omit [DecidableEq R] [DecidableEq T]

theorem nthSlot_eq (hst : Start N size t start A) (k : Nat) :
    nthSlot t start k = (.inr t, pos (start.ring (.inr t)).numSlots (start.ring (.inr t)).cur k) := by
  have hnext : nmRingNext (start.ring (.inr t)) = next (start.ring (.inr t)).numSlots := rfl
  rw [nthSlot, hnext, iterate_next hst.cur_lt]

theorem slotsOf_getElem (hst : Start N size t start A) {n k : Nat} (hk : k < n) :
    (slotsOf N start t n)[k]? = some (nthSlot t start k) := by
  rw [nthSlot_eq hst]
  simp [slotsOf, slots, txZone, hk]

theorem Inv.passed (hst : Start N size t start A) (h : Inv N size start t A s) (hpc : s.pc = .checkCtrl) :
    Passed N size t start A (ntxOf start t A) s := by
  have hl : ListsAt N start t A s .checkCtrl := hpc ▸ h.lists
  have hsent := h.sent_at hpc
  have hcur : curAt N start t A s.pc = (nthSlot t start (ntxOf start t A)).2 := by
    rw [hpc, nthSlot_eq hst, hst.numSlots]
    rfl
  have hle : ntxOf start t A ≤ txRingNslots (start.ring (.inr t)) := Nat.min_le_left _ _
  refine ⟨?_, ?_, h.head.trans hcur, h.cur.trans hcur, ?_, hl.unlinked, hsent.returned, hsent.cleared,
    hsent.kept, hl.out, ?_, fun i => hl.loose i (by simp)⟩
  · intro k p hk hp
    exact hsent.placed k p _ hk hp (slotsOf_getElem hst hk)
  · intro a ha hA hbetween
    refine hsent.same a ha hA fun hQ => ?_
    obtain ⟨k, hk, rfl, -⟩ := mem_slots hst.cur_lt (List.mem_of_mem_take hQ)
    refine hbetween rfl ?_
    show Circular.dist _ _ (pos _ _ k) < _
    rw [dist_pos hst.cur_lt (hk.trans hst.ntx_lt), ← txRingNslots_eq]
    exact hk.trans_le hle
  · rw [h.head, hcur, h.numSlots, ← hst.numSlots, nthSlot_eq hst, dist_pos hst.cur_lt hst.ntx_lt,
      ← txRingNslots_eq]
    exact hle
  · intro hlen
    have hnil : A.drop (ntxOf start t A) = [] := List.drop_eq_nil_of_le hlen.le
    exact (hnil ▸ hl.out).eq_reset

end

/-- However the kernel's steps fall, a pass takes a bounded number of steps of
the thread, and at its end the first packets are in the slots from `cur` on. -/
theorem pass_sends (hst : Start N size t start A) (h : (machine N t start).Reachable s) :
    (s.pc = .checkCtrl → Passed N size t start A (ntxOf start t A) s) ∧
      (s.pc ≠ .checkCtrl →
        ∃ s', step N t s .thread = some s' ∧ stepsLeft A.length s'.pc < stepsLeft A.length s.pc) := by
  have hinv := inv_of_reachable hst h
  refine ⟨hinv.passed hst, fun hpc => ?_⟩
  obtain ⟨s', hs, -, hlt⟩ := hinv.goes hst hpc
  exact ⟨s', hs, hlt⟩

/-- An rx and a tx ring of four slots each on two descriptors. -/
def fourRings : Rings Unit Unit where
  numSlots _ := 4
  fits _ := by decide
  netmapFd z := if z.isLeft then 3 else 4
  netmapBuf _ idx := 0x100000 + idx.setWidth 64 * 2048
  bufIdx a := BitVec.ofNat 32 (a.2 + if a.1.isLeft then 2 else 6)
  pool _ _ _ := rfl
  distinct := by
    rintro ⟨z, i⟩ ⟨z', j⟩ hi hj h
    have hi : i < 4 := hi
    have hj : j < 4 := hj
    have h := congrArg BitVec.toNat h
    rcases z with ⟨⟩ | ⟨⟩ <;> rcases z' with ⟨⟩ | ⟨⟩ <;> simp at h ⊢ <;> omega

/-- Three packets of different lengths to send, and two free slots, the last of
the ring and the first. -/
def threePackets : Pass Unit Unit where
  ring _ := ⟨4, 3, 3, 1⟩
  bufIdx := fourRings.bufIdx
  slotLen _ := 60
  slotFlags _ := 0
  mySlot a := a
  buf a := fourRings.netmapBuf a.1 (fourRings.bufIdx a)
  pktLen a := BitVec.ofNat 32 (1000 + 200 * a.2)
  flags a := if a.1.isLeft then spktBusy else 0
  newHead _ := none
  owner _ := none
  seen := fourRings.bufIdx
  mem i := BitVec.ofNat 8 i
  links a := if a.1.isLeft ∧ a.2 < 2 then some (a.1, a.2 + 1) else none
  pktsOut := ⟨some (.inl (), 0), some (.inl (), 2), 3⟩
  pktsTx := .reset
  pc := .start 2
  returned := []

theorem fourRings_buf {a : Ref Unit Unit} (ha : fourRings.IsSlot a) :
    (threePackets.buf a).toNat = 0x100000 + 2048 * (a.2 + if a.1.isLeft then 2 else 6) := by
  have ha : a.2 < 4 := ha
  simp only [threePackets, fourRings, BitVec.ofNat_eq_ofNat, BitVec.toNat_add, BitVec.toNat_mul,
    BitVec.toNat_setWidth, BitVec.toNat_ofNat]
  split <;> omega

theorem threePackets_buffers : Buffers fourRings 2048 threePackets.toZoneMem := by
  refine ⟨fun _ _ => rfl, fun _ _ => rfl, fun a b ha hb hab => ?_⟩
  rw [fourRings_buf ha, fourRings_buf hb]
  have hidx : a.2 + (if a.1.isLeft then 2 else 6) ≠ b.2 + (if b.1.isLeft then 2 else 6) := fun he =>
    hab (fourRings.distinct a b ha hb (congrArg (BitVec.ofNat 32) he))
  unfold Bytes.Apart
  omega

theorem threePackets_start :
    Start fourRings 2048 () threePackets [(.inl (), 0), (.inl (), 1), (.inl (), 2)] where
  numSlots := rfl
  cur := rfl
  cur_lt := by decide
  tail_lt := by decide
  pc := rfl
  free := by decide
  out := by decide
  nonempty := nofun
  pkts := by simp [threePackets, fourRings, Rings.IsSlot]
  loose _ := rfl
  buffers := threePackets_buffers
  size := by decide

/-- The kernel adds a slot in the middle of the pass, and the third packet is
left for the next one. -/
theorem pass_sends_wrapped : ∃ s : Pass Unit Unit, s.ring (.inr ()) = ⟨4, 1, 1, 2⟩ ∧
    s.slotFrame fourRings (.inr (), 3) = threePackets.frame (.inl (), 0) ∧
    s.slotFrame fourRings (.inr (), 0) = threePackets.frame (.inl (), 1) ∧
    s.pktsOut.Holds s.links [(.inl (), 2)] := by
  obtain ⟨s, hr, hp⟩ := @Reachable.of_test _ _ _ (· = threePackets) (step fourRings ())
    [.thread, .thread, .thread, .thread, .drain 2, .thread, .thread, .thread]
    (fun s => decide (s.pc = .checkCtrl ∧ s.ring (.inr ()) = ⟨4, 1, 1, 2⟩)) rfl (by decide)
  obtain ⟨hpc, hring⟩ := of_decide_eq_true hp
  have hpassed := (pass_sends threePackets_start hr).1 hpc
  exact ⟨s, hring, hpassed.placed 0 _ (by decide) rfl, hpassed.placed 1 _ (by decide) rfl, hpassed.left⟩

end Libsinet.TxPass
