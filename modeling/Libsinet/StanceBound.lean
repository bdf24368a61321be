import Libsinet.StanceOrder
import Mathlib.Algebra.BigOperators.Group.Finset.Piecewise
import Mathlib.Algebra.Order.BigOperators.Group.Finset

/-!
# What is under way fits in the rings

The queues of an instance are put to without a limit. A packet in one is
missing from its rx ring, though, so what all of them hold together, with what
the kernel has received and no thread has taken yet, is never more than the
rings have slots for, however slowly the tx rings drain.
-/

namespace Libsinet.Stance

open Machine NetmapRing Circular

variable {R : Type u} {T : Type v} {E : Type w} {P : Type x} {D : Type y}
variable [DecidableEq R] [DecidableEq T] [DecidableEq E] [DecidableEq P]
variable {N : SinStance R T E P D} {s : State R T E P D} {A : Place R T E → List P} {r : R} {t : T} {p : P}
  {ks : List (Place R T E)} {l : List P}

omit [DecidableEq P] in
/-- A slot from `a` on is one of the next `n`, if it is less than `n` away. -/
theorem mem_slots_of_dist {zone : SinPktZone P} {ring : NetmapRing} (ha : a < ring.numSlots) (hi : i < ring.numSlots)
    (h : dist ring.numSlots a i < n) : zone.pmap i ∈ slots zone ring a n :=
  List.mem_map.mpr ⟨_, List.mem_range.mpr h, congrArg zone.pmap (pos_dist ha hi)⟩

/-- The packets of a ring at the given places. -/
def held (N : SinStance R T E P D) (A : Place R T E → List P) (r : R) (ks : List (Place R T E)) : List P :=
  (ks.flatMap A).filter fun p => N.myZone p = .inl r

omit [DecidableEq R] [DecidableEq T] [DecidableEq E] [DecidableEq P] in
theorem Inv.nodup_places (h : Inv N s A) (hks : ks.Nodup) : (ks.flatMap A).Nodup := by
  refine List.nodup_flatMap.mpr ⟨fun k _ => (h.lay.sep.holds k).chain.nodup, ?_⟩
  refine hks.imp fun {j k} hjk p hj hk => hjk (h.lay.sep.once p j k hj hk)

omit [DecidableEq E] in
omit [DecidableEq P] in
/-- A packet at a place of rx packets is in its ring's window, before `cur`. -/
theorem Inv.held_window (h : Inv N s A) (hks : ∀ k ∈ ks, k.forRx = true) (hp : p ∈ held N A r ks) :
    p ∈ slots (N.rxZone r) (s.rx r).ring (s.rx r).ring.head
      (dist (s.rx r).ring.numSlots (s.rx r).ring.head (s.rx r).ring.cur) := by
  obtain ⟨hmem, hzone⟩ := List.mem_filter.mp hp
  obtain ⟨k, hk, hpk⟩ := List.mem_flatMap.mp hmem
  obtain ⟨r', i, hi, rfl⟩ := (h.lay.allowed k p hpk).rx (hks k hk)
  obtain rfl : r' = r := Sum.inl.inj ((N.rx_pmap r' i hi).symm.trans (by simpa using hzone))
  have hring := (h.rx r').ring
  have hsize := hi.trans_eq (h.rx r').size.symm
  exact mem_slots_of_dist hring.head_lt hsize
    (hring.busy_between i hsize ((h.lay.busy _).mpr ⟨k, hks k hk, hpk⟩))

omit [DecidableEq E] in
omit [DecidableEq P] in
/-- What a ring has received and not got back fits between `head` and `tail`. -/
theorem Inv.window (h : Inv N s A) (hks : ks.Nodup) (hrx : ∀ k ∈ ks, k.forRx = true) :
    (held N A r ks).length + (pendingPkts N s r).length ≤
      dist (s.rx r).ring.numSlots (s.rx r).ring.head (s.rx r).ring.tail := by
  have hring := (h.rx r).ring
  have hle : (held N A r ks).length ≤ dist (s.rx r).ring.numSlots (s.rx r).ring.head (s.rx r).ring.cur := by
    have hsub := ((h.nodup_places hks).filter fun p => N.myZone p = .inl r).subperm fun p hp =>
      h.held_window hrx hp
    simpa [held] using hsub.length_le
  have htail := hring.toInOrder.dist_tail
  simp only [pendingPkts, slots_length]
  omega

-- ---------------------------------------------------------------------------
-- All rings
-- ---------------------------------------------------------------------------

variable [Fintype R] [Fintype T]

omit [DecidableEq E] [DecidableEq P] [Fintype T] in
theorem length_by_ring (h : ∀ p ∈ l, ∃ r, N.myZone p = .inl r) :
    l.length = ∑ r, (l.filter fun p => N.myZone p = .inl r).length := by
  induction l with
  | nil => simp
  | cons p l ih =>
    obtain ⟨r, hr⟩ := h p List.mem_cons_self
    have hone : ∀ r', ((p :: l).filter fun p => N.myZone p = .inl r').length =
        (l.filter fun p => N.myZone p = .inl r').length + if r = r' then 1 else 0 := by
      intro r'
      rcases eq_or_ne r r' with rfl | hne
      · simp [hr]
      · simp [hr, hne]
    simp only [hone, Finset.sum_add_distrib, Finset.sum_ite_eq, Finset.mem_univ, if_true, List.length_cons]
    rw [ih fun q hq => h q (List.mem_cons_of_mem _ hq)]

/-- The places where packets wait for the tx threads. -/
def outPlaces (ts : List T) : List (Place R T E) := ts.flatMap fun t => [.outpktQueue t, .pktsOut t]

omit [DecidableEq R] [DecidableEq T] [DecidableEq E] [Fintype R] [Fintype T] in
theorem outPlaces_nodup {ts : List T} (h : ts.Nodup) : (outPlaces ts : List (Place R T E)).Nodup := by
  refine List.nodup_flatMap.mpr ⟨fun t _ => by simp, h.imp fun {t t'} hne k hk hk' => ?_⟩
  simp only [List.mem_cons, List.not_mem_nil, or_false] at hk hk'
  rcases hk with rfl | rfl <;> simp [hne] at hk'

omit [DecidableEq R] [DecidableEq T] [DecidableEq E] [Fintype R] [Fintype T] in
theorem outPlaces_forRx {ts : List T} : ∀ k ∈ (outPlaces ts : List (Place R T E)), k.forRx = true := by
  intro k hk
  obtain ⟨t, -, hk⟩ := List.mem_flatMap.mp hk
  simp only [List.mem_cons, List.not_mem_nil, or_false] at hk
  rcases hk with rfl | rfl <;> rfl

omit [DecidableEq R] [DecidableEq T] [DecidableEq E] [DecidableEq P] [Fintype R] [Fintype T] in
theorem Inv.length_outPlaces (h : Inv N s A) (ts : List T) :
    ((outPlaces ts).flatMap A).length =
      (ts.map fun t => (s.tx t).queue.length.toNat + (s.tx t).outList.len.toNat).sum := by
  induction ts with
  | nil => rfl
  | cons t ts ih =>
    have hqueue : (s.tx t).queue.length.toNat = (A (.outpktQueue t)).length :=
      (h.lay.sep.holds (.outpktQueue t)).len_toNat
    have hout : (s.tx t).outList.len.toNat = (A (.pktsOut t)).length := (h.lay.sep.holds (.pktsOut t)).len_toNat
    simp only [outPlaces, List.flatMap_cons, List.flatMap_append, List.length_append, List.map_cons, List.sum_cons,
      hqueue, hout]
    rw [← ih]
    simp [outPlaces]

/-- What waits for the tx threads, in their queues and lists, and what waits in
the rx rings is together less than the rings have slots, by one for each. -/
theorem queues_bounded (h : (machine N).Reachable s) :
    ∑ t, ((s.tx t).queue.length.toNat + (s.tx t).outList.len.toNat) + ∑ r, (s.pending N r).length ≤
      ∑ r, ((N.rxZone r).numSlots - 1) := by
  obtain ⟨A, hinv⟩ := inv_of_reachable h
  let ks : List (Place R T E) := outPlaces (Finset.univ : Finset T).toList
  have hnodup : ks.Nodup := outPlaces_nodup (Finset.nodup_toList _)
  have hrx : ∀ k ∈ ks, k.forRx = true := outPlaces_forRx
  have hwaiting : ∑ t, ((s.tx t).queue.length.toNat + (s.tx t).outList.len.toNat) = ∑ r, (held N A r ks).length := by
    rw [← Finset.sum_map_toList, ← hinv.length_outPlaces]
    refine length_by_ring fun p hp => ?_
    obtain ⟨k, hk, hpk⟩ := List.mem_flatMap.mp hp
    exact hinv.list_zone (hrx k hk) hpk
  rw [hwaiting, ← Finset.sum_add_distrib]
  refine Finset.sum_le_sum fun r _ => ?_
  have hwindow := hinv.window (r := r) hnodup hrx
  have hring := (hinv.rx r).ring
  have hlt := dist_lt hring.head_lt hring.tail_lt
  rw [State.pending_eq, List.length_map, ← (hinv.rx r).size]
  exact hwindow.trans (Nat.le_sub_one_of_lt hlt)

/-- Three frames arrive in a ring of four slots and are put. -/
def smallFull : List (Move Unit Unit Nat) :=
  [.receive () ⟨3, fun i => 6 + 2 * i, fun _ => 60⟩, .rx () true] ++ List.replicate 10 (.rx () false)

theorem queues_bounded_full : ∃ s : State Unit Unit Unit Nat Nat, (s.tx ()).queue.length = 3 ∧
    ∑ t, ((s.tx t).queue.length.toNat + (s.tx t).outList.len.toNat) + ∑ r, (s.pending small r).length ≤
      ∑ r, ((small.rxZone r).numSlots - 1) := by
  obtain ⟨s, hr, hp⟩ := Reachable.of_test (step small) smallFull (fun s => (s.tx ()).queue.length = 3)
    small_start (by decide)
  exact ⟨s, of_decide_eq_true hp, queues_bounded hr⟩

end Libsinet.Stance
