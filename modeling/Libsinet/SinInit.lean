import Libsinet.Base.Jump
import Libsinet.Base.Ledger
import Mathlib.Logic.Function.Basic

/-!
# sin_init and sin_destroy

What `sin_init.c` and `sin_destroy.c` acquire and release. Which calls fail is
given from outside; a constructor or destructor of a zone, a sorter or a thread
is one acquisition or release. With no rings at all `sin_init` would go on to
read `phy[0]`, past the end of its array; only what is acquired and released is
modelled, for any number of rings.
-/

namespace Libsinet.SinInit

open Ledger Code

/-- The two kinds of `struct wrk_set`: `phy[i]` and `hst`. -/
inductive Ring
  | phy (i : Nat)
  | hst
  deriving DecidableEq, Repr

inductive Member
  | txZone
  | rxZone
  | txThread
  | rxSort
  | rxThread
  deriving DecidableEq, Repr

inductive Res
  | stance
  | netmapFd
  | mem
  | phy
  | queueFd (r : Ring)
  | obj (f : Member) (r : Ring)
  deriving DecidableEq, Repr

/-- The calls that may fail: one for each resource, the three kinds of
`NIOCREGIF`, and `sin_pkt_sorter_reg`. -/
inductive Call
  | acquire (res : Res)
  | regif
  | regifRing (r : Ring)
  | sorterReg (i : Nat)
  deriving DecidableEq, Repr

/-- A descriptor as `memset` leaves it, -1, or open. -/
inductive Fd
  | zero
  | bad
  | opened
  deriving DecidableEq, Repr

/-- The fields of `struct sin_stance`; a pointer is NULL or not. -/
structure Stance where
  nrings : Nat
  queueFd : Ring → Fd
  ptr : Member → Ring → Bool

inductive Label
  | erUndo0
  | erUndo1
  | erUndo2
  | erUndo3
  | erUndo4
  | erUndo5
  | erUndo7
  | erUndo9
  | erUndo10
  | erUndo11
  deriving DecidableEq, Repr

structure State where
  sip : Stance
  acquired : List Res

abbrev Body := Code Label State

-- ---------------------------------------------------------------------------
-- sin_init
-- ---------------------------------------------------------------------------

def State.push (s : State) (res : Res) : State := { s with acquired := s.acquired ++ [res] }

def State.setFd (s : State) (r : Ring) (fd : Fd) : State :=
  { s with sip := { s.sip with queueFd := Function.update s.sip.queueFd r fd } }

def State.setPtr (s : State) (f : Member) (r : Ring) : State :=
  { s with sip := { s.sip with
      ptr := Function.update s.sip.ptr f (Function.update (s.sip.ptr f) r true) } }

section
variable (ok : Call → Bool)

/-- A call that gives nothing to release. -/
def call (c : Call) (l : Label) : Body PUnit :=
  if ok c then pure ⟨⟩ else throw l

def take (res : Res) (l : Label) : Body PUnit :=
  if ok (.acquire res) then modify (·.push res) else throw l

/-- A constructor; a failed one leaves the pointer NULL. -/
def ctor (f : Member) (r : Ring) (l : Label) : Body PUnit :=
  if ok (.acquire (.obj f r)) then modify fun s => (s.setPtr f r).push (.obj f r) else throw l

/-- `SET_IFNOT_ERR_ELSE_RST` on a `queue_fd`; the result is the new
`grr_error`. -/
def setIfnotErrElseRst (r : Ring) (grrError : Bool) : Body Bool :=
  if grrError then do
    modify (·.setFd r .bad)
    pure true
  else if ok (.acquire (.queueFd r)) then do
    modify fun s => (s.setFd r .opened).push (.queueFd r)
    pure false
  else do
    modify (·.setFd r .bad)
    pure true

def openPhy : Nat → Body Bool
  | 0 => pure false
  | n + 1 => do
    let grrError ← openPhy n
    setIfnotErrElseRst ok (.phy n) grrError

def gotoIf (grrError : Bool) (l : Label) : Body PUnit := if grrError then throw l else pure ⟨⟩

/-- From the end of the first `malloc` on. -/
def body (nrings : Nat) : Body PUnit := do
  take ok .netmapFd .erUndo0
  call ok .regif .erUndo1
  take ok .mem .erUndo1
  take ok .phy .erUndo1
  let grrError ← openPhy ok nrings
  let grrError ← setIfnotErrElseRst ok .hst grrError
  gotoIf grrError .erUndo2
  times (fun i => call ok (.regifRing (.phy i)) .erUndo2) nrings
  call ok (.regifRing .hst) .erUndo2
  times (fun i => ctor ok .txZone (.phy i) .erUndo3) nrings
  times (fun i => ctor ok .rxZone (.phy i) .erUndo4) nrings
  ctor ok .txZone .hst .erUndo4
  ctor ok .rxZone .hst .erUndo5
  times (fun i => ctor ok .txThread (.phy i) .erUndo7) nrings
  ctor ok .txThread .hst .erUndo7
  times (fun i => do
    ctor ok .rxSort (.phy i) .erUndo9
    call ok (.sorterReg i) .erUndo9) nrings
  times (fun i => ctor ok .rxThread (.phy i) .erUndo10) nrings
  ctor ok .rxSort .hst .erUndo10
  ctor ok .rxThread .hst .erUndo11

end

-- ---------------------------------------------------------------------------
-- The undo ladder
-- ---------------------------------------------------------------------------

namespace Stance

variable (sip : Stance)

/-- The loop that destroys what is not NULL in `phy[i]`. -/
def nonNull (f : Member) : List Res :=
  ((List.range sip.nrings).filter fun i => sip.ptr f (.phy i)).map fun i => .obj f (.phy i)

def notBad : List Res :=
  ((List.range sip.nrings).filter fun i => sip.queueFd (.phy i) ≠ .bad).map fun i =>
    .queueFd (.phy i)

def hstNotBad : List Res := if sip.queueFd .hst ≠ .bad then [.queueFd .hst] else []

-- Each label falls through to the one below it.
def erUndo0 : List Res := [.stance]
def erUndo1 : List Res := .netmapFd :: erUndo0
def erUndo2 : List Res := sip.notBad ++ (sip.hstNotBad ++ .phy :: erUndo1)
def erUndo3 : List Res := sip.nonNull .txZone ++ sip.erUndo2
def erUndo4 : List Res := sip.nonNull .rxZone ++ sip.erUndo3
def erUndo5 : List Res := .obj .txZone .hst :: sip.erUndo4
def erUndo7 : List Res := sip.nonNull .txThread ++ .obj .rxZone .hst :: sip.erUndo5
def erUndo9 : List Res := sip.nonNull .rxSort ++ .obj .txThread .hst :: sip.erUndo7
def erUndo10 : List Res := sip.nonNull .rxThread ++ sip.erUndo9
def erUndo11 : List Res := .obj .rxSort .hst :: sip.erUndo10

end Stance

/-- What is released from a label on, in order. -/
def Label.undo (sip : Stance) : Label → List Res
  | .erUndo0 => Stance.erUndo0
  | .erUndo1 => Stance.erUndo1
  | .erUndo2 => sip.erUndo2
  | .erUndo3 => sip.erUndo3
  | .erUndo4 => sip.erUndo4
  | .erUndo5 => sip.erUndo5
  | .erUndo7 => sip.erUndo7
  | .erUndo9 => sip.erUndo9
  | .erUndo10 => sip.erUndo10
  | .erUndo11 => sip.erUndo11

/-- What a call of `sin_init` did, and the instance it returned. -/
structure Result where
  acquired : List Res
  released : List Res
  ret : Option Stance

def cleared (nrings : Nat) : Stance := ⟨nrings, fun _ => .zero, fun _ _ => false⟩

def sinInit (nrings : Nat) (ok : Call → Bool) : Result :=
  if ok (.acquire .stance) then
    match (body ok nrings).exec ⟨cleared nrings, [.stance]⟩ with
    | (.ok _, s) => ⟨s.acquired, [], some s.sip⟩
    | (.error l, s) => ⟨s.acquired, l.undo s.sip, none⟩
  else ⟨[], [], none⟩

-- ---------------------------------------------------------------------------
-- sin_destroy
-- ---------------------------------------------------------------------------

namespace Stance

variable (sip : Stance)

def stopRx : List Res :=
  [.obj .rxThread .hst, .obj .rxSort .hst] ++
    (List.range sip.nrings).flatMap fun i => [.obj .rxThread (.phy i), .obj .rxSort (.phy i)]

def stopTx : List Res :=
  .obj .txThread .hst :: (List.range sip.nrings).map fun i => .obj .txThread (.phy i)

def freeRest : List Res :=
  [.obj .rxZone .hst, .obj .txZone .hst, .queueFd .hst] ++
    (List.range sip.nrings).flatMap (fun i =>
      [.obj .rxZone (.phy i), .obj .txZone (.phy i), .queueFd (.phy i)]) ++
    [.phy, .netmapFd, .stance]

end Stance

def sinDestroy (sip : Stance) : List Res := sip.stopRx ++ (sip.stopTx ++ sip.freeRest)

/-- What a running thread uses. An rx thread reads its ring and descriptor,
its own zone and sorter, and puts packets on a tx thread's queue; a tx thread
reads its ring and descriptor, its own zone, and the packets of any rx zone.
All zones and all queues count as used, whoever's they are. -/
def uses : Res → Res → Bool
  | .obj .rxThread r, .obj .rxSort r' => r = r'
  | .obj .rxThread _, .obj .txThread _ => true
  | .obj .rxThread _, .obj .rxZone _ => true
  | .obj .rxThread _, .obj .txZone _ => true
  | .obj .txThread _, .obj .rxZone _ => true
  | .obj .txThread _, .obj .txZone _ => true
  | .obj .rxThread r, .queueFd r' => r = r'
  | .obj .txThread r, .queueFd r' => r = r'
  | .obj .rxThread _, .mem => true
  | .obj .txThread _, .mem => true
  | _, _ => false

/-- The ledger of a call of `sin_init`, and of `sin_destroy` if it returned an
instance. -/
def Result.ledger (r : Result) : List (Act Res) :=
  r.acquired.map .acquire ++ r.released.map .release ++
    (r.ret.elim [] sinDestroy).map .release

-- ---------------------------------------------------------------------------
-- Order of releases
-- ---------------------------------------------------------------------------

/-- How high up the ladder a resource is released. -/
def Res.rank : Res → Nat
  | .stance => 0
  | .netmapFd => 1
  | .mem => 2
  | .phy => 2
  | .queueFd _ => 3
  | .obj .txZone (.phy _) => 4
  | .obj .rxZone (.phy _) => 5
  | .obj .txZone .hst => 6
  | .obj .rxZone .hst => 7
  | .obj .txThread (.phy _) => 8
  | .obj .txThread .hst => 9
  | .obj .rxSort (.phy _) => 10
  | .obj .rxThread (.phy _) => 11
  | .obj .rxSort .hst => 12
  | .obj .rxThread .hst => 13

theorem uses_rank (t r : Res) (h : uses t r = true) : r.rank < t.rank := by
  cases t with
  | obj f a =>
    cases f with
    | rxThread =>
      cases r with
      | obj g b =>
        cases g with
        | rxThread => cases h
        | rxSort =>
          obtain rfl : a = b := by simpa [uses] using h
          cases a <;> simp [Res.rank]
        | _ => cases a <;> cases b <;> simp [Res.rank]
      | _ => cases a <;> simp [Res.rank]
    | txThread =>
      cases r with
      | obj g b =>
        cases g with
        | txZone => cases a <;> cases b <;> simp [Res.rank]
        | rxZone => cases a <;> cases b <;> simp [Res.rank]
        | _ => cases h
      | _ => cases a <;> simp [Res.rank]
    | _ => cases r <;> cases h
  | _ => cases r <;> cases h

theorem uses_self (r : Res) : uses r r = false := by
  by_contra h
  exact absurd (uses_rank r r (by simpa using h)) (Nat.lt_irrefl _)

theorem uses_mem (r : Res) : uses .mem r = false := by
  cases r <;> rfl

/-- A list from the ladder: going down, and starting at `b` at most. -/
def Descends (b : Nat) (l : List Res) : Prop :=
  (∀ r ∈ l, r.rank ≤ b) ∧ l.Pairwise fun r r' => r'.rank ≤ r.rank

theorem Descends.append {b c : Nat} {k l : List Res} (h : Descends b l) (hk : ∀ r ∈ k, r.rank = c)
    (hbc : b ≤ c) : Descends c (k ++ l) := by
  refine ⟨fun r hr => ?_, List.pairwise_append.mpr ⟨?_, h.2, fun r hr r' hr' => ?_⟩⟩
  · rcases List.mem_append.mp hr with hr | hr
    · exact (hk r hr).le
    · exact (h.1 r hr).trans hbc
  · exact List.pairwise_of_forall_mem_list fun r hr r' hr' => ((hk r' hr').trans (hk r hr).symm).le
  · rw [hk r hr]
    exact (h.1 r' hr').trans hbc

theorem Descends.cons {b : Nat} {r : Res} {l : List Res} (h : Descends b l) (hr : b ≤ r.rank) :
    Descends r.rank (r :: l) :=
  Descends.append (k := [r]) h (by simp) hr

theorem rank_nonNull (sip : Stance) (f : Member) :
    ∀ r ∈ sip.nonNull f, r.rank = (Res.obj f (.phy 0)).rank := by
  intro r hr
  obtain ⟨i, -, rfl⟩ := List.mem_map.mp hr
  cases f <;> rfl

theorem rank_notBad (sip : Stance) : ∀ r ∈ sip.notBad ++ sip.hstNotBad, r.rank = 3 := by
  intro r hr
  rcases List.mem_append.mp hr with hr | hr
  · obtain ⟨i, -, rfl⟩ := List.mem_map.mp hr
    rfl
  · unfold Stance.hstNotBad at hr
    split at hr <;> simp_all [Res.rank]

theorem descends_undo (sip : Stance) (l : Label) : ∃ b, Descends b (l.undo sip) := by
  have h0 : Descends 0 Stance.erUndo0 := ⟨by simp [Stance.erUndo0, Res.rank], by simp [Stance.erUndo0]⟩
  have h1 : Descends 1 Stance.erUndo1 := h0.cons (by decide)
  have h2 : Descends 3 sip.erUndo2 := by
    have h := (h1.cons (r := .phy) (by decide)).append (rank_notBad sip) (by decide)
    rwa [List.append_assoc] at h
  have h3 : Descends 4 sip.erUndo3 := h2.append (rank_nonNull sip .txZone) (by decide)
  have h4 : Descends 5 sip.erUndo4 := h3.append (rank_nonNull sip .rxZone) (by decide)
  have h5 : Descends 6 sip.erUndo5 := h4.cons (by decide)
  have h7 : Descends 8 sip.erUndo7 :=
    (h5.cons (r := .obj .rxZone .hst) (by decide)).append (rank_nonNull sip .txThread) (by decide)
  have h9 : Descends 10 sip.erUndo9 :=
    (h7.cons (r := .obj .txThread .hst) (by decide)).append (rank_nonNull sip .rxSort) (by decide)
  have h10 : Descends 11 sip.erUndo10 := h9.append (rank_nonNull sip .rxThread) (by decide)
  have h11 : Descends 12 sip.erUndo11 := h10.cons (by decide)
  cases l
  exacts [⟨_, h0⟩, ⟨_, h1⟩, ⟨_, h2⟩, ⟨_, h3⟩, ⟨_, h4⟩, ⟨_, h5⟩, ⟨_, h7⟩, ⟨_, h9⟩, ⟨_, h10⟩, ⟨_, h11⟩]

/-- On the ladder no thread outlives what it uses. -/
theorem order_undo (sip : Stance) (l : Label) :
    (l.undo sip).Pairwise fun r r' => uses r' r = false := by
  obtain ⟨b, -, h⟩ := descends_undo sip l
  refine h.imp fun {r r'} hle => ?_
  by_contra hu
  exact absurd (uses_rank r' r (by simpa using hu)) (Nat.not_lt.mpr hle)

theorem uses_thread (t r : Res) (ht : ∀ a, t ≠ .obj .rxThread a ∧ t ≠ .obj .txThread a) :
    uses t r = false := by
  cases t with
  | obj f a =>
    cases f with
    | rxThread => exact absurd rfl (ht a).1
    | txThread => exact absurd rfl (ht a).2
    | _ => rfl
  | _ => rfl

theorem mem_stopRx {sip : Stance} {r : Res} (h : r ∈ sip.stopRx) :
    ∃ a, r = .obj .rxThread a ∨ r = .obj .rxSort a := by
  simp only [Stance.stopRx, List.mem_append, List.mem_cons, List.not_mem_nil, or_false,
    List.mem_flatMap] at h
  rcases h with h | ⟨i, -, h⟩
  · exact ⟨_, h⟩
  · exact ⟨_, h⟩

theorem mem_stopTx {sip : Stance} {r : Res} (h : r ∈ sip.stopTx) : ∃ a, r = .obj .txThread a := by
  rcases List.mem_cons.mp h with rfl | h
  · exact ⟨_, rfl⟩
  · obtain ⟨i, -, rfl⟩ := List.mem_map.mp h
    exact ⟨_, rfl⟩

theorem mem_freeRest {sip : Stance} {t : Res} (h : t ∈ sip.freeRest) (r : Res) : uses t r = false := by
  refine uses_thread t r fun a => ?_
  simp only [Stance.freeRest, List.mem_append, List.mem_cons, List.not_mem_nil, or_false,
    List.mem_flatMap] at h
  rcases h with ((rfl | rfl | rfl) | ⟨i, -, rfl | rfl | rfl⟩) | rfl | rfl | rfl <;> simp

theorem order_destroy (sip : Stance) :
    (sinDestroy sip).Pairwise fun r r' => uses r' r = false := by
  have htx : ∀ t ∈ sip.stopTx, ∀ r, r ∈ sip.stopRx ∨ r ∈ sip.stopTx → uses t r = false := by
    intro t ht r hr
    obtain ⟨a, rfl⟩ := mem_stopTx ht
    rcases hr with hr | hr
    · obtain ⟨b, rfl | rfl⟩ := mem_stopRx hr <;> rfl
    · obtain ⟨b, rfl⟩ := mem_stopTx hr
      rfl
  refine List.pairwise_append.mpr ⟨?_, List.pairwise_append.mpr ⟨?_, ?_, ?_⟩, ?_⟩
  · -- each sorter follows its own thread
    have hne : (List.range sip.nrings).Pairwise (· ≠ ·) := List.nodup_range
    refine List.pairwise_append.mpr ⟨by simp [uses], List.pairwise_flatMap.mpr ⟨?_, ?_⟩, ?_⟩
    · intro i _
      simp [uses]
    · refine hne.imp fun {i j} hij r hr t ht => ?_
      simp only [List.mem_cons, List.not_mem_nil, or_false] at hr ht
      rcases hr with rfl | rfl <;> rcases ht with rfl | rfl <;> simp [uses, Ne.symm hij]
    · intro r hr t ht
      obtain ⟨i, -, ht⟩ := List.mem_flatMap.mp ht
      simp only [List.mem_cons, List.not_mem_nil, or_false] at hr ht
      rcases hr with rfl | rfl <;> rcases ht with rfl | rfl <;> simp [uses]
  · exact List.pairwise_of_forall_mem_list fun r hr t ht => htx t ht r (.inr hr)
  · exact List.pairwise_of_forall_mem_list fun r _ t ht => mem_freeRest ht r
  · exact fun r _ t ht => mem_freeRest ht r
  · intro r hr t ht
    rcases List.mem_append.mp ht with ht | ht
    · exact htx t ht r (.inl hr)
    · exact mem_freeRest ht r

end Libsinet.SinInit
