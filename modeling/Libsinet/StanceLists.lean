import Libsinet.Stance

/-!
# One packet, one place

Every list of an instance is at a place: a thread's `pkts_in`, a work list, a
queue, a thread's `pkts_out`, or the tx packets it is about to fill. Inside a
loop that unlinks a list's packets one by one the list is what is left of it,
from the packet at hand on, as the record itself is written only afterwards.
-/

namespace Libsinet.Stance

open Machine NetmapRing Circular
open PktSorter (collect)

inductive Place (R : Type u) (T : Type v) (E : Type w)
  | pktsIn (r : R)
  | wrklist (r : R) (c : Option E)
  | outpktQueue (t : T)
  | pktsOut (t : T)
  | pktsTx (t : T)
  deriving DecidableEq

variable {R : Type u} {T : Type v} {E : Type w} {P : Type x} {D : Type y}
variable [DecidableEq R] [DecidableEq T] [DecidableEq E] [DecidableEq P]

/-- A place for packets of rx zones. -/
def Place.forRx : Place R T E → Bool
  | .pktsTx _ => false
  | _ => true

/-- `sin_pkt_sorter_proc` takes over the packets of `pkts_in`. -/
def RxThread.inList (x : RxThread E P) : SinList P :=
  match x.pc with
  | .scan n pkt => pktsLeft x.pktsIn pkt n
  | .flush _ => .reset
  | _ => x.pktsIn

def TxThread.outList (y : TxThread P) : SinList P :=
  match y.pc with
  | .send _ i pkt _ => pktsLeft y.pktsOut pkt i
  | .advance ntx pkt => pktsLeft y.pktsOut pkt ntx
  | _ => y.pktsOut

def TxThread.txList (y : TxThread P) : SinList P :=
  match y.pc with
  | .getpkts _ _ _ => y.pktsTx
  | .send _ i _ pktTx => pktsLeft y.pktsTx pktTx i
  | _ => .reset

def State.list (s : State R T E P D) : Place R T E → SinList P
  | .pktsIn r => (s.rx r).inList
  | .wrklist r c => (s.rx r).wrklist c
  | .outpktQueue t => (s.tx t).queue.items
  | .pktsOut t => (s.tx t).outList
  | .pktsTx t => (s.tx t).txList

def State.pkts (s : State R T E P D) (k : Place R T E) : List P := (s.list k).nodes s.links

/-- The packets that may be at a place: a ring's own in its threads. -/
def Allowed (N : SinStance R T E P D) : Place R T E → P → Prop
  | .pktsIn r, p => ∃ i < (N.rxZone r).numSlots, p = (N.rxZone r).pmap i
  | .wrklist r _, p => ∃ i < (N.rxZone r).numSlots, p = (N.rxZone r).pmap i
  | .pktsTx t, p => ∃ i < (N.txZone t).numSlots, p = (N.txZone t).pmap i
  | _, p => ∃ r, ∃ i < (N.rxZone r).numSlots, p = (N.rxZone r).pmap i

variable {N : SinStance R T E P D} {m : Links P} {flags : P → Flags} {L : Place R T E → SinList P}
  {A : Place R T E → List P} {j k : Place R T E} {p q : P} {l : List P}

omit [DecidableEq R] [DecidableEq T] [DecidableEq E] [DecidableEq P] in
theorem Allowed.rx (h : Allowed N k p) (hk : k.forRx = true) :
    ∃ r, ∃ i < (N.rxZone r).numSlots, p = (N.rxZone r).pmap i := by
  cases k with
  | pktsIn r => exact ⟨r, h⟩
  | wrklist r c => exact ⟨r, h⟩
  | outpktQueue t => exact h
  | pktsOut t => exact h
  | pktsTx t => cases hk

-- ---------------------------------------------------------------------------
-- The layout
-- ---------------------------------------------------------------------------

/-- The lists are separate, hold what they may, and the busy packets are those
on lists for rx packets. -/
structure Layout (N : SinStance R T E P D) (m : Links P) (flags : P → Flags)
    (L : Place R T E → SinList P) (A : Place R T E → List P) : Prop where
  sep : Separate m L A
  allowed : ∀ k, ∀ p ∈ A k, Allowed N k p
  busy : ∀ p, sinPktIsbusy (flags p) = true ↔ ∃ k, k.forRx = true ∧ p ∈ A k

namespace Layout

omit [DecidableEq R] [DecidableEq T] [DecidableEq E] [DecidableEq P] in
theorem idle (h : Layout N m flags L A) (hi : i < (N.rxZone r).numSlots)
    (hb : sinPktIsbusy (flags ((N.rxZone r).pmap i)) = false) (k : Place R T E) :
    (N.rxZone r).pmap i ∉ A k := by
  intro hp
  cases hk : k.forRx with
  | true => simp [(h.busy _).mpr ⟨k, hk, hp⟩] at hb
  | false =>
    cases k with
    | pktsTx t =>
      obtain ⟨i', hi', he⟩ := h.allowed _ _ hp
      have hz := N.rx_pmap r i hi
      rw [he, N.tx_pmap t i' hi'] at hz
      cases hz
    | _ => cases hk

omit [DecidableEq R] [DecidableEq T] [DecidableEq E] [DecidableEq P] in
/-- A list for packets of the rx zones has room for more of them. -/
theorem fits_append (h : Layout N m flags L A) (hk : k.forRx = true) (hl : l.Nodup) (hnew : ∀ p ∈ l, p ∉ A k)
    (hall : ∀ p ∈ l, Allowed N k p) : (A k ++ l).length < 2 ^ 32 := by
  refine N.few _ ((h.sep.nodup k).append hl fun p hp hpl => hnew p hpl hp) fun p hp => ?_
  rcases List.mem_append.mp hp with hold | hpl
  · exact (h.allowed k p hold).rx hk
  · exact (hall p hpl).rx hk

theorem dequeue (h : Layout N m flags L A) (r : R) (hi : i < (N.rxZone r).numSlots)
    (hb : sinPktIsbusy (flags ((N.rxZone r).pmap i)) = false) :
    let pkt := (N.rxZone r).pmap i
    let a := sinListAppend m (L (.pktsIn r)) pkt
    Layout N a.1 (Function.update flags pkt (sinPktSetflags (flags pkt) spktBusy 0))
      (Function.update L (.pktsIn r) a.2) (Function.update A (.pktsIn r) (A (.pktsIn r) ++ [pkt])) := by
  have hnew : ∀ p ∈ [(N.rxZone r).pmap i], Allowed N (.pktsIn r) p := fun p hp =>
    ⟨i, hi, List.mem_singleton.mp hp⟩
  have hfits := h.fits_append (k := .pktsIn r) rfl (List.nodup_singleton _)
    (fun p hp => List.mem_singleton.mp hp ▸ h.idle hi hb _) hnew
  refine ⟨h.sep.append _ (h.idle hi hb) hfits, fun k p hp => ?_, fun p => ?_⟩
  · rcases mem_append_at.mp hp with hold | ⟨rfl, hpkt⟩
    · exact h.allowed k p hold
    · exact hnew p hpkt
  · simp only [mem_append_at, List.mem_singleton, and_or_left, exists_or, ← h.busy]
    by_cases he : p = (N.rxZone r).pmap i
    · subst he
      simp [Place.forRx]
    · simp [he]

theorem move (h : Layout N m flags L A) (hjk : j ≠ k) (hk : k.forRx = true) (hj : j.forRx = true)
    (hA : A j = p :: l) {X : SinList P} (hX : X.Holds (Function.update m p none) l)
    (hall : Allowed N k p) :
    let a := sinListAppend (Function.update m p none) (L k) p
    Layout N a.1 flags (Function.update (Function.update L j X) k a.2)
      (Function.update (Function.update A j l) k (A k ++ [p])) := by
  have hpop := h.sep.pop hA hX
  have hmem : ∀ i q, q ∈ Function.update (Function.update A j l) k (A k ++ [p]) i ↔
      (q ∈ A i ∧ q ≠ p) ∨ (i = k ∧ q = p) := by
    intro i q
    have happ := @mem_append_at _ _ _ (Function.update A j l) i k q [p]
    rw [Function.update_of_ne hjk.symm, List.mem_singleton, h.sep.mem_pop_at hA] at happ
    exact happ
  refine ⟨?_, fun i q hq => ?_, fun q => ?_⟩
  · have hp : p ∈ A j := hA ▸ List.mem_cons_self
    have hfits := h.fits_append hk (List.nodup_singleton p)
      (fun q hq hqk => hjk (h.sep.once p j k hp (List.mem_singleton.mp hq ▸ hqk)))
      fun q hq => List.mem_singleton.mp hq ▸ hall
    have happ := hpop.append k (fun i hi => ((h.sep.mem_pop_at hA).mp hi).2 rfl)
      (by rwa [Function.update_of_ne hjk.symm])
    simpa only [Function.update_of_ne hjk.symm] using happ
  · rcases (hmem i q).mp hq with ⟨hq, -⟩ | ⟨rfl, rfl⟩
    · exact h.allowed i q hq
    · exact hall
  · simp only [hmem, and_or_left, exists_or]
    by_cases he : q = p
    · subst he
      have hb := (h.busy q).mpr ⟨j, hj, hA ▸ List.mem_cons_self⟩
      simp [hb, hk]
    · simp [he, h.busy]

theorem splice (h : Layout N m flags L A) (hjk : j ≠ k) (hk : k.forRx = true) (hj : j.forRx = true)
    (hne : A j ≠ []) (hall : ∀ p ∈ A j, Allowed N k p) :
    Layout N (splice m (L k) (L j)).1 flags
      (Function.update (Function.update L k (Libsinet.splice m (L k) (L j)).2) j .reset)
      (Function.update (Function.update A k (A k ++ A j)) j []) := by
  have hfits := h.fits_append hk (h.sep.nodup j) (fun q hq hqk => hjk (h.sep.once q j k hq hqk)) hall
  refine ⟨h.sep.splice hjk hne hfits, fun i q hq => ?_, fun q => ?_⟩
  · rcases (mem_splice_at hjk).mp hq with ⟨-, hold⟩ | ⟨rfl, hnew⟩
    · exact h.allowed i q hold
    · exact hall q hnew
  · rw [h.busy]
    simp only [mem_splice_at hjk]
    constructor
    · rintro ⟨i, hi, hq⟩
      by_cases hij : i = j
      · exact ⟨k, hk, .inr ⟨rfl, hij ▸ hq⟩⟩
      · exact ⟨i, hi, .inl ⟨hij, hq⟩⟩
    · rintro ⟨i, hi, ⟨-, hq⟩ | ⟨rfl, hq⟩⟩
      · exact ⟨i, hi, hq⟩
      · exact ⟨j, hj, hq⟩

omit [DecidableEq R] [DecidableEq T] [DecidableEq E] [DecidableEq P] in
theorem tx_loose (h : Layout N m flags L A) (hi : i < (N.txZone t).numSlots)
    (hp : (N.txZone t).pmap i ∉ A (.pktsTx t)) (k : Place R T E) : (N.txZone t).pmap i ∉ A k := by
  intro hmem
  have hz := N.tx_pmap t i hi
  have hall := h.allowed k _ hmem
  cases hk : k.forRx with
  | true =>
    obtain ⟨r, i', hi', he⟩ := hall.rx hk
    rw [he, N.rx_pmap r i' hi'] at hz
    cases hz
  | false =>
    cases k with
    | pktsTx t' =>
      obtain ⟨i', hi', he⟩ := hall
      rw [he, N.tx_pmap t' i' hi'] at hz
      cases hz
      exact hp hmem
    | _ => cases hk

omit [DecidableEq R] [DecidableEq T] [DecidableEq E] [DecidableEq P] in
/-- There are no more packets for a tx ring than its zone has. -/
theorem fits_tx (h : Layout N m flags L A) (hi : i < (N.txZone t).numSlots)
    (hp : (N.txZone t).pmap i ∉ A (.pktsTx t)) :
    (A (.pktsTx t) ++ [(N.txZone t).pmap i]).length < 2 ^ 32 := by
  have hnd : (A (.pktsTx t) ++ [(N.txZone t).pmap i]).Nodup :=
    (h.sep.nodup _).append (List.nodup_singleton _) fun q hq hqi => hp (List.mem_singleton.mp hqi ▸ hq)
  have hsub : A (.pktsTx t) ++ [(N.txZone t).pmap i] ⊆ (List.range (N.txZone t).numSlots).map (N.txZone t).pmap := by
    intro q hq
    rcases List.mem_append.mp hq with hold | hnew
    · obtain ⟨j, hj, rfl⟩ := h.allowed _ q hold
      exact List.mem_map_of_mem (List.mem_range.mpr hj)
    · exact List.mem_singleton.mp hnew ▸ List.mem_map_of_mem (List.mem_range.mpr hi)
  have hle := (List.subperm_of_subset hnd hsub).length_le
  have hfits := (N.txZone t).fits
  rw [List.length_map, List.length_range] at hle
  omega

theorem getpkt (h : Layout N m flags L A) (t : T) (hi : i < (N.txZone t).numSlots)
    (hp : (N.txZone t).pmap i ∉ A (.pktsTx t)) :
    let pkt := (N.txZone t).pmap i
    let a := sinListAppend m (L (.pktsTx t)) pkt
    Layout N a.1 flags (Function.update L (.pktsTx t) a.2)
      (Function.update A (.pktsTx t) (A (.pktsTx t) ++ [pkt])) := by
  refine ⟨h.sep.append _ (h.tx_loose hi hp) (h.fits_tx hi hp), fun k q hq => ?_, fun q => ?_⟩
  · rcases mem_append_at.mp hq with hold | ⟨rfl, hnew⟩
    · exact h.allowed k q hold
    · exact ⟨i, hi, List.mem_singleton.mp hnew⟩
  · simp only [mem_append_at, and_or_left, exists_or, ← h.busy]
    simp [Place.forRx]

/-- A packet sent is returned, and the tx packet that took its frame is done. -/
theorem send (h : Layout N m flags L A) (ho : A (.pktsOut t) = p :: l) (hx : A (.pktsTx t) = q :: l')
    {X Y : SinList P} (hX : X.Holds (Function.update m p none) l)
    (hY : Y.Holds (Function.update (Function.update m p none) q none) l') :
    Layout N (Function.update (Function.update m p none) q none)
      (Function.update flags p (sinPktSetflags (flags p) 0 spktBusy))
      (Function.update (Function.update L (.pktsOut t) X) (.pktsTx t) Y)
      (Function.update (Function.update A (.pktsOut t) l) (.pktsTx t) l') := by
  have hpop := h.sep.pop ho hX
  have hx' : Function.update A (.pktsOut t) l (.pktsTx t) = q :: l' := by simpa using hx
  have hmem : ∀ i p', p' ∈ Function.update (Function.update A (.pktsOut t) l) (.pktsTx t) l' i ↔
      (p' ∈ A i ∧ p' ≠ p) ∧ p' ≠ q := by
    intro i p'
    rw [hpop.mem_pop_at hx', h.sep.mem_pop_at ho]
  refine ⟨hpop.pop hx' hY, fun i p' hp' => h.allowed i p' ((hmem i p').mp hp').1.1, fun p' => ?_⟩
  simp only [hmem]
  by_cases he : p' = p
  · subst he
    simp
  · rw [Function.update_of_ne he, h.busy]
    refine exists_congr fun k => and_congr_right fun hk => ⟨fun hp' => ⟨⟨hp', he⟩, ?_⟩, fun hp' => hp'.1.1⟩
    rintro rfl
    have hkt := h.sep.once p' k (.pktsTx t) hp' (hx ▸ List.mem_cons_self)
    subst hkt
    cases hk

end Layout

-- ---------------------------------------------------------------------------
-- The lists after a thread's step
-- ---------------------------------------------------------------------------

variable {s s' : State R T E P D} {r : R} {t : T} {c : Option E} {x : RxThread E P} {y : TxThread P}

section

omit [DecidableEq P]

/-- Of an rx thread's lists, `pkts_in` and one work list change. -/
theorem list_rx (hs : s'.rx = Function.update s.rx r x) (htx : s'.tx = s.tx)
    (hx : x.wrklist = Function.update (s.rx r).wrklist c w) :
    s'.list = Function.update (Function.update s.list (.pktsIn r) x.inList) (.wrklist r c) w := by
  funext k
  cases k with
  | pktsIn r' => rcases eq_or_ne r' r with rfl | hr <;> simp [State.list, *]
  | wrklist r' c' =>
    rcases eq_or_ne r' r with rfl | hr
    · rcases eq_or_ne c' c with rfl | hc <;> simp [State.list, *]
    · simp [State.list, *]
  | _ => simp [State.list, htx]

theorem list_rx_in (hs : s'.rx = Function.update s.rx r x) (htx : s'.tx = s.tx)
    (hx : x.wrklist = (s.rx r).wrklist) :
    s'.list = Function.update s.list (.pktsIn r) x.inList := by
  have hnone : x.wrklist = Function.update (s.rx r).wrklist none ((s.rx r).wrklist none) := by
    rw [hx, Function.update_eq_self]
  have hw : (s.rx r).wrklist none = Function.update s.list (.pktsIn r) x.inList (.wrklist r none) := by
    simp [State.list]
  rw [list_rx hs htx hnone, hw, Function.update_eq_self]

theorem list_tx (hs : s'.tx = Function.update s.tx t y) (hrx : s'.rx = s.rx) :
    s'.list = Function.update (Function.update (Function.update s.list
      (.outpktQueue t) y.queue.items) (.pktsOut t) y.outList) (.pktsTx t) y.txList := by
  funext k
  cases k with
  | pktsIn r => simp [State.list, hrx]
  | wrklist r c => simp [State.list, hrx]
  | _ t' => rcases eq_or_ne t' t with rfl | ht <;> simp [State.list, *]

theorem list_tx_keep (hs : s'.tx = Function.update s.tx t y) (hrx : s'.rx = s.rx)
    (hqueue : y.queue.items = (s.tx t).queue.items) :
    s'.list = Function.update (Function.update s.list (.pktsOut t) y.outList) (.pktsTx t) y.txList := by
  have hkeep : Function.update s.list (.outpktQueue t) y.queue.items = s.list := by
    rw [hqueue]
    exact Function.update_eq_self (f := s.list) (.outpktQueue t)
  rw [list_tx hs hrx, hkeep]

end

end Libsinet.Stance
