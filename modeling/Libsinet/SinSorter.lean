import Libsinet.PktSorter

/-!
# A handler for all rings

`sin_sorter_reg` registers a handler with the packet sorter of one ring after
the other. An entry's memory comes from `malloc`, which may have none left, and
the call then returns from the middle of its loop.
-/

namespace Libsinet.SinSorter

open PktSorter (procStep)

structure PsArg (Q : Type u) (A : Type v) where
  outq : Q
  ap : Option A
  deriving DecidableEq

/-- What a handler's functions are passed. -/
inductive Ap (Q : Type u) (A : Type v)
  | outq (q : Q)
  | arg (a : PsArg Q A)
  deriving DecidableEq

def PsArg.pass {Q : Type u} {A : Type v} (arg : PsArg Q A) : Ap Q A :=
  match arg.ap with
  | none => .outq arg.outq
  | some _ => .arg arg

structure PsEntry (Q : Type u) (A : Type v) (D : Type w) (C : Type x) where
  pktTaste : D → Ap Q A → Bool
  pktConsume : C
  arg : PsArg Q A

/-- The arguments of `sin_sorter_reg`. -/
structure Handler (Q : Type u) (A : Type v) (D : Type w) (C : Type x) where
  taste : D → Ap Q A → Bool
  consume : C
  ap : Option A

/-- `ent` is the memory of the entries. -/
structure SinStance (E P Q A D C : Type) where
  nrings : Nat
  outQueue : Nat → Q
  rxSort : Nat → PktSorter.State E P
  consumeDefault : Nat → C × PsArg Q A
  ent : E → PsEntry Q A D C

variable {E P Q A D C : Type} [DecidableEq E] [DecidableEq P]

-- ---------------------------------------------------------------------------
-- Registering
-- ---------------------------------------------------------------------------

/-- `sin_pkt_sorter_reg` on the ring `i`, with what `malloc` returns. -/
def sinPktSorterReg (s : SinStance E P Q A D C) (i : Nat) (h : Handler Q A D C) (malloc : Option E) :
    SinStance E P Q A D C × Int :=
  match malloc with
  | none => (s, -1)
  | some ent =>
    ({ s with
      ent := Function.update s.ent ent ⟨h.taste, h.consume, ⟨s.outQueue i, h.ap⟩⟩
      rxSort := Function.update s.rxSort i (PktSorter.sinPktSorterReg (s.rxSort i) ent) }, 0)

/-- The loop, with `n` rings from `i` on still to come. -/
def regLoop (h : Handler Q A D C) (malloc : Nat → Option E) (i : Nat) :
    Nat → SinStance E P Q A D C → SinStance E P Q A D C × Int
  | 0, s => (s, 0)
  | n + 1, s =>
    let r := sinPktSorterReg s i h (malloc i)
    if r.2 ≠ 0 then (r.1, -1) else regLoop h malloc (i + 1) n r.1

/-- `malloc i` is what the ring `i` gets. -/
def sinSorterReg (s : SinStance E P Q A D C) (h : Handler Q A D C) (malloc : Nat → Option E) :
    SinStance E P Q A D C × Int :=
  regLoop h malloc 0 s.nrings s

-- ---------------------------------------------------------------------------
-- Dispatching
-- ---------------------------------------------------------------------------

/-- `sin_pkt_sorter_proc` up to its return, in less than `n` steps. -/
def runProc : Nat → PktSorter.State E P → Option (PktSorter.State E P)
  | 0, _ => none
  | n + 1, s => if s.pc = .idle then some s else (procStep s).bind (runProc n)

def SinStance.consumer (s : SinStance E P Q A D C) (i : Nat) : Option E → C × Ap Q A
  | none => ((s.consumeDefault i).1, (s.consumeDefault i).2.pass)
  | some e => ((s.ent e).pktConsume, (s.ent e).arg.pass)

/-- The ring `i` gets the list `pl` of packets, linked by `m` and filled with
`data`, and makes these calls of consumers with these packets. -/
def SinStance.Dispatches (s : SinStance E P Q A D C) (i : Nat) (m : Links P) (data : P → D) (pl : SinList P)
    (calls : List ((C × Ap Q A) × List P)) : Prop :=
  ∃ n t, (PktSorter.step { s.rxSort i with links := m }
      (.proc pl fun e p => (s.ent e).pktTaste (data p) (s.ent e).arg.pass)).bind (runProc n) = some t ∧
    calls = t.delivered.map fun d => (s.consumer i d.1, d.2)

theorem runProc_unique {s t t' : PktSorter.State E P} (h : runProc n s = some t) (h' : runProc k s = some t') :
    t = t' := by
  induction n generalizing s k with
  | zero => cases h
  | succ n ih =>
    cases k with
    | zero => cases h'
    | succ k =>
      rw [runProc] at h h'
      split at h
      · rw [if_pos ‹_›] at h'
        exact Option.some.inj (h.symm.trans h')
      · rw [if_neg ‹_›] at h'
        obtain ⟨r, hr, h⟩ := Option.bind_eq_some_iff.mp h
        obtain ⟨r', hr', h'⟩ := Option.bind_eq_some_iff.mp h'
        obtain rfl := Option.some.inj (hr.symm.trans hr')
        exact ih h h'

theorem SinStance.Dispatches.unique {s : SinStance E P Q A D C} {m : Links P} {data : P → D} {pl : SinList P}
    {calls calls' : List ((C × Ap Q A) × List P)} (h : s.Dispatches i m data pl calls)
    (h' : s.Dispatches i m data pl calls') : calls = calls' := by
  obtain ⟨n, t, ht, rfl⟩ := h
  obtain ⟨n', t', ht', rfl⟩ := h'
  obtain ⟨r, hr, ht⟩ := Option.bind_eq_some_iff.mp ht
  obtain ⟨r', hr', ht'⟩ := Option.bind_eq_some_iff.mp ht'
  obtain rfl := Option.some.inj (hr.symm.trans hr')
  rw [runProc_unique ht ht']

-- ---------------------------------------------------------------------------
-- A failed registration
-- ---------------------------------------------------------------------------

variable {s : SinStance E P Q A D C} {h : Handler Q A D C} {malloc : Nat → Option E} {i k n : Nat}

/-- The call left every ring to dispatch as before, and after another one that
gets all its memory each ring has one entry more. -/
structure NoEffect (s : SinStance E P Q A D C) (h : Handler Q A D C) (after : SinStance E P Q A D C) : Prop where
  dispatch : ∀ i < s.nrings, ∀ m data pl calls,
    after.Dispatches i m data pl calls ↔ s.Dispatches i m data pl calls
  retry : ∀ malloc : Nat → Option E, (∀ i < s.nrings, (malloc i).isSome) → ∀ i < s.nrings,
    ((sinSorterReg after h malloc).1.rxSort i).entries.length = (s.rxSort i).entries.length + 1

section

omit [DecidableEq P]

/-- The loop ends at the ring `k` with an error, or behind the last one. -/
theorem regLoop_entries (hok : ∀ j, i ≤ j → j < k → (malloc j).isSome) (hik : i ≤ k) (hk : k ≤ i + n)
    (hend : k < i + n → malloc k = none) (j : Nat) :
    ((regLoop h malloc i n s).1.rxSort j).entries.length =
      (s.rxSort j).entries.length + if i ≤ j ∧ j < k then 1 else 0 := by
  induction n generalizing i s with
  | zero =>
    rw [regLoop, if_neg (by omega), Nat.add_zero]
  | succ n ih =>
    rcases Nat.eq_or_lt_of_le hik with rfl | hlt
    · have hnone : malloc i = none := hend (by omega)
      rw [regLoop, hnone, if_neg (by omega : ¬ (i ≤ j ∧ j < i))]
      rfl
    · obtain ⟨ent, hent⟩ := Option.isSome_iff_exists.mp (hok i le_rfl hlt)
      have hrest := ih (s := (sinPktSorterReg s i h (some ent)).1)
        (fun j hj => hok j (Nat.le_of_succ_le hj)) hlt (by omega) (fun hk => hend (by omega))
      have hloop : regLoop h malloc i (n + 1) s = regLoop h malloc (i + 1) n (sinPktSorterReg s i h (some ent)).1 := by
        rw [regLoop, hent]
        rfl
      rw [hloop, hrest]
      rcases eq_or_ne j i with rfl | hji
      · have hcons : ((sinPktSorterReg s j h (some ent)).1.rxSort j).entries = ent :: (s.rxSort j).entries := by
          simp [sinPktSorterReg, PktSorter.sinPktSorterReg]
        rw [hcons, if_neg (by omega), if_pos ⟨le_rfl, hlt⟩, List.length_cons]
      · have hsame : (sinPktSorterReg s i h (some ent)).1.rxSort j = s.rxSort j := by
          simp [sinPktSorterReg, hji]
        have hiff : i + 1 ≤ j ∧ j < k ↔ i ≤ j ∧ j < k := by omega
        simp only [hsame, hiff]

theorem regLoop_ret (hok : ∀ j, i ≤ j → j < k → (malloc j).isSome) (hik : i ≤ k) (hk : k < i + n)
    (hend : malloc k = none) : (regLoop h malloc i n s).2 = -1 := by
  induction n generalizing i s with
  | zero => omega
  | succ n ih =>
    rcases Nat.eq_or_lt_of_le hik with rfl | hlt
    · rw [regLoop, hend]
      rfl
    · obtain ⟨ent, hent⟩ := Option.isSome_iff_exists.mp (hok i le_rfl hlt)
      rw [regLoop, hent]
      exact ih (fun j hj => hok j (Nat.le_of_succ_le hj)) hlt (by omega)

theorem regLoop_nrings : (regLoop h malloc i n s).1.nrings = s.nrings := by
  induction n generalizing i s with
  | zero => rfl
  | succ n ih =>
    rw [regLoop]
    split
    · cases malloc i <;> rfl
    · rw [ih]
      cases malloc i <;> rfl

theorem sinSorterReg_entries (hok : ∀ i < s.nrings, (malloc i).isSome) (hi : i < s.nrings) :
    ((sinSorterReg s h malloc).1.rxSort i).entries.length = (s.rxSort i).entries.length + 1 := by
  have hloop := regLoop_entries (s := s) (h := h) (k := s.nrings) (fun j _ hj => hok j hj) (Nat.zero_le _)
    (Nat.zero_add _).ge (fun hlt => absurd hlt (by omega)) i
  rwa [if_pos ⟨Nat.zero_le i, hi⟩] at hloop

end

/-- Rings before the one without memory keep their entries. -/
theorem sinSorterReg_atomic (hk : k < s.nrings) (hok : ∀ i < k, (malloc i).isSome) (hfail : malloc k = none) :
    (sinSorterReg s h malloc).2 = -1 ∧ (NoEffect s h (sinSorterReg s h malloc).1 ↔ k = 0) := by
  refine ⟨regLoop_ret (fun j _ => hok j) (Nat.zero_le k) (by omega) hfail, fun hno => ?_, ?_⟩
  · by_contra hne
    obtain ⟨ent, -⟩ := Option.isSome_iff_exists.mp (hok 0 (Nat.pos_of_ne_zero hne))
    have hpos : 0 < s.nrings := Nat.zero_lt_of_lt hk
    have hfirst := regLoop_entries (s := s) (h := h) (n := s.nrings) (fun j _ => hok j) (Nat.zero_le k) (by omega)
      (fun _ => hfail) 0
    rw [if_pos ⟨le_rfl, Nat.pos_of_ne_zero hne⟩] at hfirst
    have hrings : (sinSorterReg s h malloc).1.nrings = s.nrings := regLoop_nrings
    have hsecond : ((sinSorterReg (sinSorterReg s h malloc).1 h fun _ => some ent).1.rxSort 0).entries.length =
        ((sinSorterReg s h malloc).1.rxSort 0).entries.length + 1 :=
      sinSorterReg_entries (fun _ _ => rfl) (hrings ▸ hpos)
    have hretry := hno.retry (fun _ => some ent) (fun _ _ => rfl) 0 hpos
    rw [hsecond, sinSorterReg, hfirst] at hretry
    omega
  · rintro rfl
    obtain ⟨n, hn⟩ := Nat.exists_eq_succ_of_ne_zero hk.ne'
    have hsame : (sinSorterReg s h malloc).1 = s := by
      rw [sinSorterReg, hn, Nat.succ_eq_add_one, regLoop, hfail]
      rfl
    rw [hsame]
    exact ⟨fun _ _ _ _ _ _ => Iff.rfl, fun malloc' hok' i hi => sinSorterReg_entries hok' hi⟩

/-- Two rings without handlers. -/
def twoSorters : SinStance (Fin 2) (Fin 4) Nat Unit Unit Bool where
  nrings := 2
  outQueue i := i
  rxSort _ := PktSorter.emptySorter
  consumeDefault i := (false, ⟨i, none⟩)
  ent _ := ⟨fun _ _ => false, false, ⟨0, none⟩⟩

def takesAll : Handler Nat Unit Unit Bool := ⟨fun _ _ => true, true, none⟩

/-- Memory for one entry only. -/
def oneEntry : Nat → Option (Fin 2) := fun i => if i = 0 then some (.last 1) else none

theorem sinSorterReg_atomic_two :
    (sinSorterReg twoSorters takesAll oneEntry).2 = -1 ∧
      (NoEffect twoSorters takesAll (sinSorterReg twoSorters takesAll oneEntry).1 ↔ 1 = 0) :=
  sinSorterReg_atomic (by decide) (by decide) rfl

theorem failedReg_dispatches :
    (sinSorterReg twoSorters takesAll oneEntry).2 = -1 ∧
      twoSorters.Dispatches 0 (fun _ => none) (fun _ => ()) ⟨some 0, some 0, 1⟩ [((false, .outq 0), [0])] ∧
      ¬ (sinSorterReg twoSorters takesAll oneEntry).1.Dispatches 0 (fun _ => none) (fun _ => ())
        ⟨some 0, some 0, 1⟩ [((false, .outq 0), [0])] := by
  refine ⟨by decide, ⟨10, _, rfl, by decide⟩, fun hd => ?_⟩
  have hnew : (sinSorterReg twoSorters takesAll oneEntry).1.Dispatches 0 (fun _ => none) (fun _ => ())
      ⟨some 0, some 0, 1⟩ [((true, .outq 0), [0])] := ⟨10, _, rfl, by decide⟩
  cases hd.unique hnew

end Libsinet.SinSorter
