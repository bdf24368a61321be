import Libsinet.Base.Machine
import Mathlib.Data.BitVec
import Mathlib.Data.List.Basic

/-!
# The reference count of an instance

`sin_socket` counts a reference before it looks at its arguments and takes it
back when it fails; `sin_close` frees the socket and knows nothing of the
instance. The count is an `unsigned int`, so it wraps.
-/

namespace Libsinet.SinNref

open Machine

inductive Errno
  | einval
  | eprotonosupport
  | enomem
  deriving DecidableEq, Repr

structure SinStance where
  sinNref : BitVec 32
  deriving DecidableEq, Repr

/-- `src` and `dst` are the blocks with the socket's addresses. -/
structure SinSocket (A : Type u) where
  sinNref : BitVec 32
  dst : Option A
  src : Option A

def pfInet : Int := 2

def sockDgram : Int := 2

variable {S : Type u} {A : Type v}

-- ---------------------------------------------------------------------------
-- The functions
-- ---------------------------------------------------------------------------

def sinIncref (sip : SinStance) : SinStance := { sip with sinNref := sip.sinNref + 1 }

def sinDecref (sip : SinStance) : SinStance := { sip with sinNref := sip.sinNref - 1 }

/-- `_sip_incref`, which returns NULL for an instance that had no reference. -/
def sipIncref (sip : SinStance) : SinStance × Bool :=
  let sip := sinIncref sip
  if sip.sinNref = 1 then (sinDecref sip, false) else (sip, true)

/-- `sin_socket`, where `mem` is what `malloc` gives: the instance, and the new
socket or the error stored through `e`. -/
def sinSocket (sip : SinStance) (domain type protocol : Int) (mem : Option S) :
    SinStance × Except Errno (S × SinSocket A) :=
  let (sip, ok) := sipIncref sip
  if ok = false then (sip, .error .einval)
  else if domain ≠ pfInet ∨ type ≠ sockDgram ∨ protocol ≠ 0 then (sinDecref sip, .error .eprotonosupport)
  else
    match mem with
    | none => (sinDecref sip, .error .enomem)
    | some ssp => (sip, .ok (ssp, ⟨1, none, none⟩))

/-- What `sin_close` gives to `free`. -/
inductive Block (S : Type u) (A : Type v)
  | addr (a : A)
  | socket (s : S)

def sinClose (s : S) (ssp : SinSocket A) : List (Block S A) :=
  (ssp.src.toList ++ ssp.dst.toList).map .addr ++ [.socket s]

-- ---------------------------------------------------------------------------
-- Calls
-- ---------------------------------------------------------------------------

inductive Call (S : Type u)
  | socket (domain type protocol : Int) (mem : Option S)
  | close (s : S)

/-- An instance and the sockets that are open on it. `closed` is a record: how
many were closed. -/
structure State (S : Type u) (A : Type v) where
  sip : SinStance
  sockets : List (S × SinSocket A)
  freed : List (Block S A)
  closed : Nat

def Start (s : State S A) : Prop := s.sip = ⟨1⟩ ∧ s.sockets = [] ∧ s.closed = 0

variable [DecidableEq S]

/-- `malloc` gives no block that is in use, and only open sockets are closed. -/
def step (s : State S A) : Call S → Option (State S A)
  | .socket domain type protocol mem =>
    if mem.any (fun p => s.sockets.any fun q => q.1 = p) then none
    else
      match sinSocket s.sip domain type protocol mem with
      | (sip, .ok ssp) => some { s with sip, sockets := ssp :: s.sockets }
      | (sip, .error _) => some { s with sip }
  | .close p =>
    match s.sockets.find? fun q => q.1 = p with
    | some (_, ssp) => some { s with
        sockets := s.sockets.eraseP fun q => q.1 = p
        freed := s.freed ++ sinClose p ssp
        closed := s.closed + 1 }
    | none => none

abbrev machine (S : Type u) (A : Type v) [DecidableEq S] : Machine (State S A) (Call S) :=
  ofFn Start step

/-- The instance's own reference and one for every open socket. -/
def Exact (s : State S A) : Prop := s.sip.sinNref.toNat = 1 + s.sockets.length

-- ---------------------------------------------------------------------------
-- What a call does to the count
-- ---------------------------------------------------------------------------

@[simp] theorem sinIncref_sinNref (sip : SinStance) : (sinIncref sip).sinNref = sip.sinNref + 1 := rfl

theorem sinIncref_toNat (sip : SinStance) :
    (sinIncref sip).sinNref.toNat = (sip.sinNref.toNat + 1) % 2 ^ 32 := by
  rw [sinIncref_sinNref, BitVec.toNat_add]
  rfl

@[simp] theorem sinDecref_sinIncref (sip : SinStance) : sinDecref (sinIncref sip) = sip := by
  simp [sinDecref, sinIncref]

theorem sipIncref_dead {sip : SinStance} (h : sip.sinNref = 0) : sipIncref sip = (sip, false) := by
  simp [sipIncref, h]

theorem sipIncref_live {sip : SinStance} (h : sip.sinNref ≠ 0) : sipIncref sip = (sinIncref sip, true) := by
  have h1 : sip.sinNref + 1 ≠ 1 := by simpa using h
  rw [sipIncref, sinIncref_sinNref, if_neg h1]

def Grants (domain type protocol : Int) (mem : Option S) : Prop :=
  domain = pfInet ∧ type = sockDgram ∧ protocol = 0 ∧ mem ≠ none

instance (domain type protocol : Int) (mem : Option S) : Decidable (Grants domain type protocol mem) :=
  inferInstanceAs (Decidable (_ ∧ _ ∧ _ ∧ _))

omit [DecidableEq S] in
/-- A call fails and leaves the instance, or it opens a socket and counts it. -/
theorem sinSocket_cases (sip : SinStance) (domain type protocol : Int) (mem : Option S) :
    (∃ e, @sinSocket S A sip domain type protocol mem = (sip, .error e) ∧
      (sip.sinNref = 0 ∨ e ≠ .einval ∧ ¬ Grants domain type protocol mem)) ∨
    ∃ p, mem = some p ∧ @sinSocket S A sip domain type protocol mem =
      (sinIncref sip, .ok (p, ⟨1, none, none⟩)) ∧ sip.sinNref ≠ 0 ∧ Grants domain type protocol mem := by
  unfold sinSocket
  rcases eq_or_ne sip.sinNref 0 with h0 | h0
  · exact .inl ⟨.einval, by simp [sipIncref_dead h0], .inl h0⟩
  · by_cases hargs : domain ≠ pfInet ∨ type ≠ sockDgram ∨ protocol ≠ 0
    · refine .inl ⟨.eprotonosupport, by simp [sipIncref_live h0, hargs], .inr ⟨by simp, ?_⟩⟩
      rintro ⟨rfl, rfl, rfl, -⟩
      simp at hargs
    · cases mem with
      | none => exact .inl ⟨.enomem, by simp [sipIncref_live h0, hargs], .inr (by simp [Grants])⟩
      | some p => exact .inr ⟨p, rfl, by simp [sipIncref_live h0, hargs], h0, by simpa [Grants] using hargs⟩

/-- The call opens a socket when the instance has a reference. -/
def Opens : Call S → Prop
  | .socket domain type protocol mem => Grants domain type protocol mem
  | .close _ => False

variable {s s' : State S A} {a : Call S}

theorem step_cases (hs : step s a = some s') :
    (s' = s ∧ (s.sip.sinNref = 0 ∨ ¬ Opens a) ∧ ∀ p, a ≠ .close p) ∨
    (s'.sip = sinIncref s.sip ∧ s'.sockets.length = s.sockets.length + 1 ∧ s'.closed = s.closed ∧
      s.sip.sinNref ≠ 0 ∧ Opens a) ∨
    (s'.sip = s.sip ∧ s'.sockets.length + 1 = s.sockets.length ∧ s'.closed = s.closed + 1 ∧
      ∃ p, a = .close p) := by
  cases a with
  | socket domain type protocol mem =>
    simp only [step] at hs
    split at hs
    · cases hs
    · rcases @sinSocket_cases S A s.sip domain type protocol mem with ⟨e, hcall, hno⟩ | ⟨p, rfl, hcall, h0, hg⟩
      · rw [hcall] at hs
        cases hs
        exact .inl ⟨rfl, hno.imp_right And.right, by simp⟩
      · rw [hcall] at hs
        cases hs
        exact .inr (.inl ⟨rfl, rfl, rfl, h0, hg⟩)
  | close p =>
    simp only [step] at hs
    split at hs
    · rename_i q ssp hfind
      cases hs
      have hmem := List.mem_of_find?_eq_some hfind
      have hlen := List.length_eraseP_of_mem hmem (List.find?_some hfind)
      have hpos := List.length_pos_of_mem hmem
      exact .inr (.inr ⟨rfl, hlen ▸ Nat.sub_add_cancel hpos, rfl, p, rfl⟩)
    · cases hs

-- ---------------------------------------------------------------------------
-- Every run
-- ---------------------------------------------------------------------------

/-- Every socket ever opened is counted, also those that were closed. -/
theorem nref_eq (h : (machine S A).Reachable s) :
    s.sip.sinNref.toNat = (1 + s.sockets.length + s.closed) % 2 ^ 32 := by
  refine Reachable.induct
    (I := fun s => s.sip.sinNref.toNat = (1 + s.sockets.length + s.closed) % 2 ^ 32) h ?_ ?_
  · rintro s ⟨hsip, hsockets, hclosed⟩
    rw [hsip, hsockets, hclosed]
    rfl
  · intro s a s' ih hs
    rcases step_cases hs with ⟨rfl, -, -⟩ | ⟨hsip, hlen, hclosed, -, -⟩ | ⟨hsip, hlen, hclosed, -⟩
    · exact ih
    · rw [hsip, sinIncref_toNat, ih, hlen, hclosed]
      omega
    · rw [hsip, ih, hclosed]
      congr 1
      omega

/-- No socket is closed, and none is opened when the count is at its last
value. -/
def Kept (s : State S A) : Call S → Prop
  | .socket domain type protocol mem => Grants domain type protocol mem → s.sockets.length + 2 < 2 ^ 32
  | .close _ => False

instance (s : State S A) : (a : Call S) → Decidable (Kept s a)
  | .socket .. => inferInstanceAs (Decidable (_ → _))
  | .close _ => inferInstanceAs (Decidable False)

theorem kept_closed (h : (machine S A).ReachableBy Kept s) :
    s.closed = 0 ∧ 1 + s.sockets.length < 2 ^ 32 := by
  refine ReachableBy.induct (J := fun _ => True)
    (I := fun s => s.closed = 0 ∧ 1 + s.sockets.length < 2 ^ 32) h (fun _ _ => trivial) ?_ ?_
  · rintro s ⟨-, hsockets, hclosed⟩
    simp [hsockets, hclosed]
  · intro s a s' _ ih hok hs
    rcases step_cases hs with ⟨rfl, -, -⟩ | ⟨-, hlen, hclosed, -, hopens⟩ | ⟨-, -, -, p, rfl⟩
    · exact ih
    · refine ⟨hclosed.trans ih.1, ?_⟩
      cases a with
      | socket domain type protocol mem =>
        have hroom := hok hopens
        omega
      | close p => cases hopens
    · cases hok

theorem exact_of_kept (h : (machine S A).ReachableBy Kept s) : Exact s := by
  obtain ⟨hclosed, hlt⟩ := kept_closed h
  rw [Exact, nref_eq h.reachable, hclosed]
  exact Nat.mod_eq_of_lt hlt

omit [DecidableEq S] in
theorem Exact.ne_zero (h : Exact s) : s.sip.sinNref ≠ 0 := by
  intro h0
  have hn : s.sip.sinNref.toNat = 0 := by rw [h0]; rfl
  rw [Exact, hn] at h
  omega

omit [DecidableEq S] in
theorem Exact.live (h : Exact s) (domain type protocol : Int) (mem : Option S) :
    (@sinSocket S A s.sip domain type protocol mem).2 ≠ .error .einval := by
  rcases @sinSocket_cases S A s.sip domain type protocol mem with ⟨e, hcall, hno⟩ | ⟨p, -, hcall, -⟩
  · rw [hcall]
    intro he
    cases he
    exact hno.elim h.ne_zero fun hno => hno.1 rfl
  · rw [hcall]
    simp

theorem Exact.lost (h : (machine S A).ReachableBy Kept s) (hno : ¬ Kept s a) (hs : step s a = some s') :
    ¬ Exact s' := by
  obtain ⟨-, hlt⟩ := kept_closed h
  have hexact := exact_of_kept h
  rcases step_cases hs with ⟨rfl, hfail, hclose⟩ | ⟨hsip, hlen, -, -, hopens⟩ | ⟨hsip, hlen, -, -⟩
  · exfalso
    cases a with
    | socket domain type protocol mem =>
      obtain ⟨hg, -⟩ := Classical.not_imp.mp hno
      exact hfail.elim hexact.ne_zero fun hfail => hfail hg
    | close p => exact hclose p rfl
  · cases a with
    | socket domain type protocol mem =>
      obtain ⟨-, hfull⟩ := Classical.not_imp.mp hno
      rw [Exact, hsip, sinIncref_toNat, show _ = _ from hexact, hlen]
      omega
    | close p => cases hopens
  · rw [Exact, hsip, show _ = _ from hexact]
    omega

/-- As long as the sockets are kept the count is exact, and the first call that
does otherwise makes it wrong. -/
theorem nref_exact (h : (machine S A).ReachableBy Kept s) :
    Exact s ∧
      (∀ domain type protocol mem, (@sinSocket S A s.sip domain type protocol mem).2 ≠ .error .einval) ∧
      ∀ a s', ¬ Kept s a → step s a = some s' → ¬ Exact s' := by
  have hexact := exact_of_kept h
  exact ⟨hexact, hexact.live, fun _ _ => Exact.lost h⟩

def init : State Nat Unit := ⟨⟨1⟩, [], [], 0⟩

/-- Two sockets, with a call for another protocol and one without memory in
between. -/
def twoSockets : List (Call Nat) :=
  [.socket pfInet sockDgram 0 (some 1), .socket pfInet sockDgram 6 (some 2),
    .socket pfInet sockDgram 0 none, .socket pfInet sockDgram 0 (some 2)]

theorem nref_exact_two :
    ∃ s : State Nat Unit, (Exact s ∧
      (∀ domain type protocol mem, (@sinSocket Nat Unit s.sip domain type protocol mem).2 ≠ .error .einval) ∧
      ∀ a s', ¬ Kept s a → step s a = some s' → ¬ Exact s') ∧ s.sip.sinNref = 3 := by
  obtain ⟨s, hr, hp⟩ := @ReachableBy.of_test _ _ init Start step Kept _ twoSockets
    (fun s => s.sip.sinNref = 3) ⟨rfl, rfl, rfl⟩ (by decide)
  exact ⟨s, nref_exact hr, of_decide_eq_true hp⟩

theorem open_close_counts :
    ∃ s, (machine Nat Unit).Reachable s ∧ s.sockets = [] ∧ s.sip.sinNref = 2 ∧ ¬ Exact s := by
  obtain ⟨s, hr, hp⟩ := @Reachable.of_test _ _ init Start step
    [.socket pfInet sockDgram 0 (some 1), .close 1]
    (fun s : State Nat Unit => s.sockets.isEmpty ∧ s.sip.sinNref = 2) ⟨rfl, rfl, rfl⟩ (by decide)
  obtain ⟨hempty, hnref⟩ := of_decide_eq_true hp
  have hnil := List.isEmpty_iff.mp hempty
  refine ⟨s, hr, hnil, hnref, ?_⟩
  rw [Exact, hnref, hnil]
  decide

-- ---------------------------------------------------------------------------
-- Cycles
-- ---------------------------------------------------------------------------

theorem reachable_cycle (p : S) (h : (machine S A).Reachable s) (hnil : s.sockets = [])
    (h0 : s.sip.sinNref ≠ 0) :
    ∃ s', (machine S A).Reachable s' ∧ s'.sockets = [] ∧ s'.closed = s.closed + 1 := by
  have hopen : step s (.socket pfInet sockDgram 0 (some p)) =
      some { s with sip := sinIncref s.sip, sockets := [(p, ⟨1, none, none⟩)] } := by
    simp [step, hnil, sinSocket, sipIncref_live h0]
  have hclose : step { s with sip := sinIncref s.sip, sockets := [(p, (⟨1, none, none⟩ : SinSocket A))] }
      (.close p) = some { s with
        sip := sinIncref s.sip, sockets := [], freed := s.freed ++ sinClose p ⟨1, none, none⟩
        closed := s.closed + 1 } := by
    simp [step]
  exact ⟨_, (h.next hopen).next hclose, rfl, rfl⟩

theorem reachable_cycles (p : S) (n : Nat) (hn : n < 2 ^ 32) :
    ∃ s, (machine S A).Reachable s ∧ s.sockets = [] ∧ s.closed = n := by
  induction n with
  | zero => exact ⟨⟨⟨1⟩, [], [], 0⟩, .init ⟨rfl, rfl, rfl⟩, rfl, rfl⟩
  | succ n ih =>
    obtain ⟨s, hr, hnil, hclosed⟩ := ih (Nat.lt_of_succ_lt hn)
    have hnref := nref_eq hr
    have h0 : s.sip.sinNref ≠ 0 := by
      intro h0
      rw [h0, hnil, hclosed] at hnref
      simp at hnref
      omega
    obtain ⟨s', hr', hnil', hclosed'⟩ := reachable_cycle p hr hnil h0
    exact ⟨s', hr', hnil', hclosed'.trans (congrArg _ hclosed)⟩

/-- After enough cycles a live instance gets no socket any more. -/
theorem cycles_reject (p : S) :
    ∃ s, (machine S A).Reachable s ∧ s.sockets = [] ∧
      ∀ domain type protocol mem, (@sinSocket S A s.sip domain type protocol mem).2 = .error .einval := by
  obtain ⟨s, hr, hnil, hclosed⟩ := reachable_cycles (A := A) p (2 ^ 32 - 1) (by decide)
  have h0 : s.sip.sinNref = 0 := by
    apply BitVec.eq_of_toNat_eq
    rw [nref_eq hr, hnil, hclosed]
    simp
  refine ⟨s, hr, hnil, fun domain type protocol mem => ?_⟩
  simp [sinSocket, sipIncref_dead h0]

end Libsinet.SinNref
