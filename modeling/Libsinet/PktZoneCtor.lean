import Libsinet.Base.Jump
import Libsinet.Base.Ledger
import Mathlib.Algebra.Group.Nat.Defs

/-!
# Construction and destruction of packet zones

`sin_pkt_zone_ctor`, with `sin_pkt_ctor` and `sin_pkt_dtor` from `sin_pkt.c`, and
`sin_pkt_zone_dtor`: what they acquire and release, and what is in `pmap`. Which
calls fail is given from outside. `sin_pkt_ctor` looks at the result of its
first `malloc` only: it writes to the second block whatever it got, and a mutex
that failed to initialise is like any other to it.
-/

namespace Libsinet.PktZoneCtor

open Ledger Code

/-- The three resources of a packet have the `zone_idx` it was made with. -/
inductive Res
  | zone
  | pvt
  | mutex
  | pmap
  | pkt (i : Nat)
  | ts (i : Nat)
  | pktMutex (i : Nat)
  deriving DecidableEq, Repr

/-- The `struct netmap_ring`; the code casts `num_slots` to `int`. -/
structure Ring (B : Type) where
  numSlots : Nat
  fits : numSlots < 2 ^ 31
  bufIdx : Nat → BitVec 32
  netmapBuf : BitVec 32 → B

/-- `my_slot` is an index into the ring's slots. -/
structure SinPkt (B : Type) where
  zoneIdx : Nat
  mySlot : Nat
  buf : B

structure Zone (B : Type) where
  numSlots : Nat
  pmap : Nat → SinPkt B

/-- What was acquired and released so far, and the array that `pmap` points to. -/
structure State (B : Type) where
  log : List (Act Res)
  pmap : Nat → SinPkt B

/-- The labels of the undo ladder, the `return (NULL)` of the first `malloc`, and
a write through NULL. -/
inductive Label
  | null
  | erUndo0
  | erUndo1
  | erUndo2
  | crash
  deriving DecidableEq, Repr

variable {B : Type}

abbrev Body (B : Type) := Code Label (State B)

def State.push (s : State B) (acts : List (Act Res)) : State B := { s with log := s.log ++ acts }

-- ---------------------------------------------------------------------------
-- The constructors
-- ---------------------------------------------------------------------------

section
variable (ok : Res → Bool)

def take (res : Res) (l : Label) : Body B PUnit :=
  if ok res then modify (·.push [.acquire res]) else throw l

/-- A call whose result is not looked at. -/
def takeUnchecked (res : Res) : Body B PUnit :=
  if ok res then modify (·.push [.acquire res]) else pure ⟨⟩

def sinPktCtor (ring : Ring B) (zoneIdx : Nat) : Body B (Option (SinPkt B)) :=
  if ok (.pkt zoneIdx) then do
    modify (·.push [.acquire (.pkt zoneIdx)])
    take ok (.ts zoneIdx) .crash
    takeUnchecked ok (.pktMutex zoneIdx)
    pure (some ⟨zoneIdx, zoneIdx, ring.netmapBuf (ring.bufIdx zoneIdx)⟩)
  else pure none

def sinPktDtor (pkt : SinPkt B) : List Res := [.pktMutex pkt.zoneIdx, .ts pkt.zoneIdx, .pkt pkt.zoneIdx]

/-- The loop that destroys `pkts[j]` from the last one made to the first. -/
def rollBack : Nat → Body B PUnit
  | 0 => pure ⟨⟩
  | j + 1 => do
    modify fun s => s.push ((sinPktDtor (s.pmap j)).map .release)
    rollBack j

/-- The rounds for `0, …, n - 1`, and whether the function goes on after them. -/
def sinPktZoneFillFromRing (ring : Ring B) : Nat → Body B Bool
  | 0 => pure true
  | n + 1 => do
    if ← sinPktZoneFillFromRing ring n then
      match ← sinPktCtor ok ring n with
      | some pkt =>
        modify fun s => { s with pmap := Function.update s.pmap n pkt }
        pure true
      | none =>
        rollBack n
        pure false
    else pure false

def gotoUnless (filled : Bool) (l : Label) : Body B PUnit := if filled then pure ⟨⟩ else throw l

def body (ring : Ring B) : Body B PUnit := do
  take ok .zone .null
  take ok .pvt .erUndo0
  take ok .mutex .erUndo1
  take ok .pmap .erUndo2
  let filled ← sinPktZoneFillFromRing ok ring ring.numSlots
  gotoUnless filled .erUndo2

end

def Label.undo : Label → List Res
  | .erUndo2 => [.mutex, .pvt, .zone]
  | .erUndo1 => [.pvt, .zone]
  | .erUndo0 => [.zone]
  | .null => []
  | .crash => []

inductive Outcome (B : Type)
  | zone (z : Zone B) (log : List (Act Res))
  | null (log : List (Act Res))
  | crash

/-- `junk` is what `malloc` leaves in `pmap`. -/
def sinPktZoneCtor (ring : Ring B) (ok : Res → Bool) (junk : Nat → SinPkt B) : Outcome B :=
  match (body ok ring).exec ⟨[], junk⟩ with
  | (.ok _, s) => .zone ⟨ring.numSlots, s.pmap⟩ s.log
  | (.error .crash, _) => .crash
  | (.error l, s) => .null (s.log ++ l.undo.map .release)

def sinPktZoneDtor (z : Zone B) : List Res :=
  (List.range z.numSlots).map (fun i => .pkt (z.pmap i).zoneIdx) ++ [.pmap, .mutex, .pvt, .zone]

-- ---------------------------------------------------------------------------
-- Ledgers
-- ---------------------------------------------------------------------------

/-- Only the number of releases counts, not their order. -/
def run (log : List (Act Res)) : Option (Finset Res) := play (fun _ _ => false) log ∅

variable {ok : Res → Bool} {ring : Ring B} {junk : Nat → SinPkt B} {s : State B} {log : List (Act Res)} {n j : Nat}

/-- What the first `n` packets took. -/
def made (ok : Res → Bool) : Nat → List Res
  | 0 => []
  | n + 1 => made ok n ++ (.pkt n :: .ts n :: if ok (.pktMutex n) then [.pktMutex n] else [])

/-- What the roll-back loop gives back for `n` packets. -/
def unmade : Nat → List Res
  | 0 => []
  | n + 1 => .pktMutex n :: .ts n :: .pkt n :: unmade n

def head : List Res := [.zone, .pvt, .mutex, .pmap]

def pktOf (ring : Ring B) (i : Nat) : SinPkt B := ⟨i, i, ring.netmapBuf (ring.bufIdx i)⟩

/-- `n` packets made and in `pmap`. -/
structure Filled (ok : Res → Bool) (ring : Ring B) (log : List (Act Res)) (n : Nat) (s : State B) : Prop where
  log : s.log = log ++ (made ok n).map .acquire
  pmap : ∀ i < n, s.pmap i = pktOf ring i

/-- The constructor of packet `j` failed, and those before it are gone. -/
structure RolledBack (ok : Res → Bool) (log : List (Act Res)) (j : Nat) (s : State B) : Prop where
  failed : ok (.pkt j) = false
  log : s.log = log ++ (made ok j).map .acquire ++ (unmade j).map .release

def AfterFill (ok : Res → Bool) (ring : Ring B) (log : List (Act Res)) (n : Nat) (filled : Bool) (s : State B) :
    Prop :=
  if filled then Filled ok ring log n s else ∃ j < n, RolledBack ok log j s

theorem rollBack_exec (h : ∀ i < n, s.pmap i = pktOf ring i) :
    (rollBack n).exec s = (.ok ⟨⟩, s.push ((unmade n).map .release)) := by
  induction n generalizing s with
  | zero => simp [rollBack, unmade, State.push]
  | succ n ih =>
    have hrest := @ih (s.push ((sinPktDtor (s.pmap n)).map .release)) fun i hi => h i (Nat.lt_succ_of_lt hi)
    rw [rollBack, exec_bind, exec_modify]
    refine hrest.trans ?_
    simp [State.push, sinPktDtor, h n (Nat.lt_succ_self n), pktOf, unmade]

/-- One packet: none, or the next one with what it could get. -/
theorem sinPktCtor_triple :
    Triple (Filled ok ring log n) (sinPktCtor ok ring n)
      (fun pkt s => match pkt with
        | some pkt => pkt = pktOf ring n ∧ Filled ok ring log (n + 1) { s with pmap := Function.update s.pmap n pkt }
        | none => ok (.pkt n) = false ∧ Filled ok ring log n s)
      fun l _ => l = .crash ∧ ok (.ts n) = false := by
  intro s hs
  cases hpkt : ok (.pkt n) with
  | false => simpa [sinPktCtor, hpkt] using hs
  | true =>
    cases hts : ok (.ts n) with
    | false => simp [sinPktCtor, hpkt, hts, exec_bind, take]
    | true =>
      have hpmap : ∀ i < n + 1, Function.update s.pmap n (pktOf ring n) i = pktOf ring i := by
        intro i hi
        rcases Nat.lt_succ_iff_lt_or_eq.mp hi with hlt | rfl
        · rw [Function.update_of_ne hlt.ne, hs.pmap i hlt]
        · rw [Function.update_self]
      cases hmutex : ok (.pktMutex n) with
      | true =>
        simp only [sinPktCtor, hpkt, hts, hmutex, exec_bind, take, takeUnchecked, if_true, exec_modify, exec_pure]
        exact ⟨rfl, by simp [State.push, hs.log, made, hmutex], hpmap⟩
      | false =>
        simp only [sinPktCtor, hpkt, hts, hmutex, exec_bind, take, takeUnchecked, if_true, exec_modify, exec_pure,
          Bool.false_eq_true, if_false]
        exact ⟨rfl, by simp [State.push, hs.log, made, hmutex], hpmap⟩

theorem fill_triple (n : Nat) :
    Triple (Filled ok ring log 0) (sinPktZoneFillFromRing ok ring n) (AfterFill ok ring log n)
      fun l _ => l = .crash ∧ ∃ j < n, ok (.ts j) = false := by
  induction n with
  | zero => exact fun s hs => hs
  | succ n ih =>
    have hbefore : Triple (Filled ok ring log 0) (sinPktZoneFillFromRing ok ring n) (AfterFill ok ring log n)
        fun l _ => l = .crash ∧ ∃ j < n + 1, ok (.ts j) = false :=
      ih.err fun l s ⟨hl, j, hj, hts⟩ => ⟨hl, j, Nat.lt_succ_of_lt hj, hts⟩
    refine .bind hbefore fun filled => ?_
    cases filled with
    | false =>
      rintro s ⟨j, hj, hs⟩
      exact ⟨j, Nat.lt_succ_of_lt hj, hs⟩
    | true =>
      refine .bind (sinPktCtor_triple.err fun l s ⟨hl, hts⟩ => ⟨hl, n, Nat.lt_succ_self n, hts⟩) fun pkt => ?_
      cases pkt with
      | some pkt =>
        rintro s ⟨rfl, hs⟩
        exact hs
      | none =>
        rintro s ⟨hfail, hs⟩
        rw [exec_bind, rollBack_exec hs.pmap]
        exact ⟨n, Nat.lt_succ_self n, hfail, by rw [State.push, hs.log]⟩

-- ---------------------------------------------------------------------------
-- Outcomes
-- ---------------------------------------------------------------------------

def SlotsRight (ring : Ring B) (z : Zone B) : Prop := ∀ i < ring.numSlots, z.pmap i = pktOf ring i

def PastHead (ok : Res → Bool) (ring : Ring B) : Outcome B → Prop
  | .zone z log =>
    z.numSlots = ring.numSlots ∧ SlotsRight ring z ∧ log = (head ++ made ok ring.numSlots).map .acquire
  | .null log => ∃ j < ring.numSlots, ok (.pkt j) = false ∧
    log = (head ++ made ok j).map .acquire ++ (unmade j ++ Label.erUndo2.undo).map .release
  | .crash => ∃ j < ring.numSlots, ok (.ts j) = false

theorem body_exec (h : ∀ r ∈ head, ok r = true) (junk : Nat → SinPkt B) :
    (body ok ring).exec ⟨[], junk⟩ =
      (sinPktZoneFillFromRing ok ring ring.numSlots >>= fun filled => gotoUnless filled .erUndo2).exec
        ⟨head.map .acquire, junk⟩ := by
  simp only [head, List.forall_mem_cons] at h
  obtain ⟨hzone, hpvt, hmutex, hpmap, -⟩ := h
  simp only [body, exec_bind, take, hzone, hpvt, hmutex, hpmap, if_true, exec_modify]
  rfl

theorem pastHead (h : ∀ r ∈ head, ok r = true) (junk : Nat → SinPkt B) :
    PastHead ok ring (sinPktZoneCtor ring ok junk) := by
  have hstart : Filled ok ring (head.map .acquire) 0 ⟨head.map .acquire, junk⟩ :=
    ⟨by simp [made], fun i hi => absurd hi (Nat.not_lt_zero i)⟩
  have hfill := fill_triple ring.numSlots _ hstart
  rw [sinPktZoneCtor, body_exec h, exec_bind]
  rcases hx : (sinPktZoneFillFromRing ok ring ring.numSlots).exec ⟨head.map .acquire, junk⟩ with ⟨l | filled, s⟩
  · rw [hx] at hfill
    obtain ⟨rfl, hts⟩ := hfill
    exact hts
  · rw [hx] at hfill
    cases filled with
    | true => exact ⟨rfl, hfill.pmap, by rw [hfill.log, List.map_append]⟩
    | false =>
      obtain ⟨j, hj, hs⟩ := hfill
      exact ⟨j, hj, hs.failed, by simp [hs.log]⟩

/-- Before the packets each label releases what was acquired. -/
theorem null_of_head (h : ¬ ∀ r ∈ head, ok r = true) (ring : Ring B) (junk : Nat → SinPkt B) :
    ∃ log, sinPktZoneCtor ring ok junk = .null log ∧ run log = some ∅ := by
  cases hzone : ok .zone with
  | false => exact ⟨[], by simp [sinPktZoneCtor, body, take, hzone, Label.undo], by decide⟩
  | true =>
    cases hpvt : ok .pvt with
    | false =>
      refine ⟨[.acquire .zone, .release .zone], ?_, by decide⟩
      simp [sinPktZoneCtor, body, exec_bind, take, hzone, hpvt, Label.undo, State.push]
    | true =>
      cases hmutex : ok .mutex with
      | false =>
        refine ⟨[.acquire .zone, .acquire .pvt, .release .pvt, .release .zone], ?_, by decide⟩
        simp [sinPktZoneCtor, body, exec_bind, take, hzone, hpvt, hmutex, Label.undo, State.push]
      | true =>
        have hpmap : ok .pmap = false := by simpa [head, hzone, hpvt, hmutex] using h
        refine ⟨[.acquire .zone, .acquire .pvt, .acquire .mutex, .release .mutex, .release .pvt, .release .zone], ?_,
          by decide⟩
        simp [sinPktZoneCtor, body, exec_bind, take, hzone, hpvt, hmutex, hpmap, Label.undo, State.push]

theorem pmap_notMem_unmade (j : Nat) : Res.pmap ∉ unmade j := by
  induction j with
  | zero => exact List.not_mem_nil
  | succ j ih => simpa [unmade] using ih

theorem mem_made_of_lt {res : Res} (hres : res = .pkt j ∨ res = .ts j) (h : j < n) : res ∈ made ok n := by
  induction n with
  | zero => cases h
  | succ n ih =>
    rcases Nat.lt_succ_iff_lt_or_eq.mp h with hlt | rfl
    · exact List.mem_append_left _ (ih hlt)
    · rcases hres with rfl | rfl <;> simp [made]

-- ---------------------------------------------------------------------------
-- What leaks
-- ---------------------------------------------------------------------------

/-- A constructor that returns NULL has released all it acquired exactly once, and
after any other the packets are in their places and the destructor does so. -/
def LeaksNothing (ring : Ring B) : Outcome B → Prop
  | .null log => run log = some ∅
  | .zone z log => SlotsRight ring z ∧ run (log ++ (sinPktZoneDtor z).map .release) = some ∅
  | .crash => False

theorem pmap_left (h : run ((head ++ made ok j).map .acquire ++ (unmade j ++ Label.erUndo2.undo).map .release) =
    some held) : Res.pmap ∈ held := by
  refine mem_of_play h (.inl ?_) ?_
  · simp [head]
  · simp [pmap_notMem_unmade, Label.undo]

theorem ts_left {z : Zone B} (hj : j < n)
    (h : run ((head ++ made ok n).map .acquire ++ (sinPktZoneDtor z).map .release) = some held) :
    Res.ts j ∈ held := by
  refine mem_of_play h (.inl ?_) ?_
  · simp [mem_made_of_lt (.inr rfl) hj]
  · simp [sinPktZoneDtor]

theorem empty_zone : run (head.map .acquire ++ [.pmap, .mutex, .pvt, .zone].map .release) = some ∅ := by decide

/-- Zones get the right packets, but with any packet made or tried something is
lost. -/
theorem zone_leaks (ring : Ring B) (ok : Res → Bool) (junk : Nat → SinPkt B) :
    (∀ z log, sinPktZoneCtor ring ok junk = .zone z log → SlotsRight ring z) ∧
      (LeaksNothing ring (sinPktZoneCtor ring ok junk) ↔ ring.numSlots = 0 ∨ ¬ ∀ r ∈ head, ok r = true) := by
  by_cases hhead : ∀ r ∈ head, ok r = true
  · have hpast : PastHead ok ring (sinPktZoneCtor ring ok junk) := pastHead hhead junk
    rcases hx : sinPktZoneCtor ring ok junk with ⟨z, log⟩ | log | _
    · rw [hx] at hpast
      obtain ⟨hn, hslots, hlog⟩ := hpast
      refine ⟨fun z' log' he => ?_, fun h => .inl ?_, fun h => ⟨hslots, ?_⟩⟩
      · cases he
        exact hslots
      · by_contra hne
        have hleft := ts_left (Nat.pos_of_ne_zero hne) (hlog ▸ h.2)
        exact absurd hleft (Finset.notMem_empty _)
      · have hzero : ring.numSlots = 0 := h.resolve_right (not_not.mpr hhead)
        rw [hlog, sinPktZoneDtor, hn, hzero]
        exact empty_zone
    · rw [hx] at hpast
      obtain ⟨j, hj, -, rfl⟩ := hpast
      refine ⟨fun _ _ he => (by cases he), fun h => ?_, fun h => ?_⟩
      · exact absurd (pmap_left h) (Finset.notMem_empty _)
      · rw [h.resolve_right (not_not.mpr hhead)] at hj
        exact absurd hj (Nat.not_lt_zero j)
    · rw [hx] at hpast
      obtain ⟨j, hj, -⟩ := hpast
      refine ⟨fun _ _ he => (by cases he), fun h => h.elim, fun h => ?_⟩
      rw [h.resolve_right (not_not.mpr hhead)] at hj
      exact absurd hj (Nat.not_lt_zero j)
  · obtain ⟨log, hnull, hrun⟩ := null_of_head hhead ring junk
    rw [hnull]
    exact ⟨fun _ _ he => (by cases he), fun _ => .inr hhead, fun _ => hrun⟩

/-- One slot: its packet's timestamp and mutex outlive the zone. -/
theorem zone_leaks_one : ¬ ∀ (ring : Ring Nat) ok junk, LeaksNothing ring (sinPktZoneCtor ring ok junk) := by
  intro h
  have hrun := (h ⟨1, by decide, fun _ => 0, BitVec.toNat⟩ (fun _ => true) fun _ => ⟨0, 0, 0⟩).2
  revert hrun
  decide

-- ---------------------------------------------------------------------------
-- How much leaks
-- ---------------------------------------------------------------------------

theorem mem_packet (h : r ∈ (.pkt n :: .ts n :: if ok (.pktMutex n) then [.pktMutex n] else [] : List Res)) :
    r = .pkt n ∨ r = .ts n ∨ r = .pktMutex n := by
  simp only [List.mem_cons] at h
  refine h.imp_right (Or.imp_right fun h => ?_)
  split at h
  · exact List.mem_singleton.mp h
  · cases h

theorem mem_made (h : r ∈ made ok n) : ∃ i < n, r = .pkt i ∨ r = .ts i ∨ r = .pktMutex i := by
  induction n with
  | zero => cases h
  | succ n ih =>
    rcases List.mem_append.mp h with h | h
    · obtain ⟨i, hi, hr⟩ := ih h
      exact ⟨i, Nat.lt_succ_of_lt hi, hr⟩
    · exact ⟨n, Nat.lt_succ_self n, mem_packet h⟩

theorem made_nodup (n : Nat) : (head ++ made ok n).Nodup := by
  induction n with
  | zero => simp [made, head]
  | succ n ih =>
    rw [made, ← List.append_assoc]
    refine ih.append ?_ fun r hr hnew => ?_
    · split <;> simp
    · rcases List.mem_append.mp hr with hr | hr
      · rcases mem_packet hnew with rfl | rfl | rfl <;> simp [head] at hr
      · obtain ⟨i, hi, h⟩ := mem_made hr
        rcases mem_packet hnew with rfl | rfl | rfl <;> simp [hi.ne'] at h

/-- With all mutexes working the roll-back loop undoes the packets in reverse. -/
theorem unmade_eq (hm : ∀ i < n, ok (.pktMutex i) = true) : unmade n = (made ok n).reverse := by
  induction n with
  | zero => rfl
  | succ n ih =>
    rw [unmade, made, ih fun i hi => hm i (Nat.lt_succ_of_lt hi), if_pos (hm n (Nat.lt_succ_self n))]
    simp

theorem rolledBack_left (hm : ∀ i < j, ok (.pktMutex i) = true) :
    run ((head ++ made ok j).map .acquire ++ (unmade j ++ Label.erUndo2.undo).map .release) = some {.pmap} := by
  have hfilter : (made ok j).filter (· ≠ .pmap) = made ok j := by
    refine List.filter_eq_self.mpr fun r hr => ?_
    obtain ⟨i, -, rfl | rfl | rfl⟩ := mem_made hr <;> simp
  have hperm : (unmade j ++ Label.erUndo2.undo).Perm ((head ++ made ok j).filter (· ≠ .pmap)) := by
    rw [List.filter_append, hfilter, unmade_eq hm]
    exact List.perm_append_comm.trans ((by decide : List.Perm _ _).append (List.reverse_perm _))
  have hplay := play_all (made_nodup j) hperm (List.pairwise_of_forall fun _ _ => rfl) (fun _ => rfl) fun _ => rfl
  rw [run, hplay, if_pos (by simp [head])]

theorem destroyed_left {z : Zone B} (hn : z.numSlots = n) (hp : ∀ i < n, z.pmap i = pktOf ring i) :
    run ((head ++ made ok n).map .acquire ++ (sinPktZoneDtor z).map .release) =
      some ((made ok n).filter fun r => ∀ i < n, r ≠ .pkt i).toFinset := by
  have hdtor : sinPktZoneDtor z = (List.range n).map .pkt ++ head.reverse := by
    rw [sinPktZoneDtor, hn]
    refine congrArg (· ++ _) (List.map_congr_left fun i hi => ?_)
    rw [hp i (List.mem_range.mp hi), pktOf]
  have hnodup : ((List.range n).map Res.pkt ++ head.reverse).Nodup := by
    refine List.Nodup.append ?_ (by decide) fun r hr hhead => ?_
    · exact List.nodup_range.map fun i j h => Res.pkt.inj h
    · obtain ⟨i, -, rfl⟩ := List.mem_map.mp hr
      simp [head] at hhead
  have hheld : ∀ r ∈ (List.range n).map Res.pkt ++ head.reverse, r ∈ ∅ ∪ (head ++ made ok n).toFinset := by
    intro r hr
    rcases List.mem_append.mp hr with hr | hr
    · obtain ⟨i, hi, rfl⟩ := List.mem_map.mp hr
      have hmade : Res.pkt i ∈ made ok n := mem_made_of_lt (.inl rfl) (List.mem_range.mp hi)
      simp [hmade]
    · simp [List.mem_reverse.mp hr]
  rw [run, play_append, play_acquire _ _ (made_nodup n) (by simp), Option.bind_some, hdtor,
    play_release _ _ hnodup hheld (List.pairwise_of_forall fun _ _ => rfl) fun _ _ => ⟨rfl, fun _ _ _ => rfl⟩]
  congr 1
  ext r
  simp only [Finset.mem_sdiff, List.mem_toFinset, List.mem_append, List.mem_map, List.mem_range,
    List.mem_reverse, List.mem_filter, decide_eq_true_eq, not_or, not_exists, not_and]
  constructor
  · rintro ⟨hr, hpkt, hhead⟩
    have hr : r ∈ head ∨ r ∈ made ok n := by simpa using hr
    exact ⟨hr.resolve_left hhead, fun i hi he => hpkt i hi he.symm⟩
  · rintro ⟨hr, hpkt⟩
    refine ⟨by simp [hr], fun i hi he => hpkt i hi he.symm, fun hhead => ?_⟩
    exact List.disjoint_of_nodup_append (made_nodup n) hhead hr

/-- With all mutexes working a packet that cannot be made costs the array and no
more. -/
theorem null_left (h : sinPktZoneCtor ring ok junk = .null log) (hhead : ∀ r ∈ head, ok r = true)
    (hm : ∀ i < ring.numSlots, ok (.pktMutex i) = true) : run log = some {.pmap} := by
  have hpast : PastHead ok ring (sinPktZoneCtor ring ok junk) := pastHead hhead junk
  rw [h] at hpast
  obtain ⟨j, hj, -, rfl⟩ := hpast
  exact rolledBack_left fun i hi => hm i (hi.trans hj)

/-- The destructor leaves behind the timestamp of every packet, and its mutex if
it has one. -/
theorem dtor_left (h : sinPktZoneCtor ring ok junk = .zone z log) :
    run (log ++ (sinPktZoneDtor z).map .release) =
      some ((made ok ring.numSlots).filter fun r => ∀ i < ring.numSlots, r ≠ .pkt i).toFinset := by
  have hhead : ∀ r ∈ head, ok r = true := by
    by_contra hhead
    obtain ⟨log', hnull, -⟩ := null_of_head hhead ring junk
    rw [h] at hnull
    cases hnull
  have hpast : PastHead ok ring (sinPktZoneCtor ring ok junk) := pastHead hhead junk
  rw [h] at hpast
  obtain ⟨hn, hslots, rfl⟩ := hpast
  exact destroyed_left hn hslots

end Libsinet.PktZoneCtor
