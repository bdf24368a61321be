import Libsinet.Base.Heap
import Libsinet.SinNref

/-!
# The addresses of a socket

`sin_bind` and `sin_connect` keep an address in a block of its own, behind a
`struct sin_addr` whose `addr` points into the same block and whose `addrlen` is
also taken for the room there is. A cell of the heap is a byte, or a whole field
at the place where the field begins.
-/

namespace Libsinet.SinAddr

open Machine
open SinNref (Errno)

-- Fields of `struct sin_addr`.
def sinType : Nat := 0
def addr : Nat := 8
def addrlen : Nat := 16

def sizeofSinAddr : Nat := 24

def sinTypeAddr : Nat := 489855194

/-- The two pointers of `struct sin_socket` to addresses; one that is `none` is
NULL. -/
structure SinSocket where
  dst : Option Nat
  src : Option Nat
  deriving DecidableEq, Repr

/-- What a call returns, stores through `e` and leaves. -/
structure Ret (σ : Type) where
  ret : Int
  e : Option Errno
  heap : Heap Nat
  left : σ

/-- What an allocator gives: NULL, or a block and the heap with it. -/
abbrev Answer := Option (Nat × Heap Nat)

-- ---------------------------------------------------------------------------
-- The functions
-- ---------------------------------------------------------------------------

/-- What a new block gets before the address. -/
def setHeader (h : Heap Nat) (p : Nat) : Heap Nat :=
  (h.write (p + sinType) sinTypeAddr).write (p + addr) (p + sizeofSinAddr)

/-- The `memcpy` and the length, at the end of both functions. -/
def fill (h : Heap Nat) (p : Nat) (bytes : List Nat) : Heap Nat :=
  (h.writeList (h.mem (p + addr)) bytes).write (p + addrlen) bytes.length

/-- What both functions do to the pointer they are about. -/
def setAddr (h : Heap Nat) (saddr : Option Nat) (bytes : List Nat) (answer : Answer) : Ret (Option Nat) :=
  match saddr with
  | none =>
    match answer with
    | none => ⟨-1, some .enomem, h, none⟩
    | some (p, h) => ⟨0, none, fill (setHeader h p) p bytes, some p⟩
  | some p =>
    if h.mem (p + addrlen) < bytes.length then
      match answer with
      | none => ⟨-1, some .enomem, h, some p⟩
      -- `addr` is not set again
      | some (q, h) => ⟨0, none, fill h q bytes, some q⟩
    else ⟨0, none, fill h p bytes, some p⟩

def sinBind (h : Heap Nat) (ssp : SinSocket) (bytes : List Nat) (answer : Answer) : Ret SinSocket :=
  let r := setAddr h ssp.src bytes answer
  ⟨r.ret, r.e, r.heap, { ssp with src := r.left }⟩

def sinConnect (h : Heap Nat) (ssp : SinSocket) (bytes : List Nat) (answer : Answer) : Ret SinSocket :=
  let r := setAddr h ssp.dst bytes answer
  ⟨r.ret, r.e, r.heap, { ssp with dst := r.left }⟩

-- ---------------------------------------------------------------------------
-- Runs
-- ---------------------------------------------------------------------------

inductive Side
  | dst
  | src
  deriving DecidableEq, Repr

def Side.other : Side → Side
  | .dst => .src
  | .src => .dst

def SinSocket.at (ssp : SinSocket) : Side → Option Nat
  | .dst => ssp.dst
  | .src => ssp.src

def Side.call : Side → Heap Nat → SinSocket → List Nat → Answer → Ret SinSocket
  | .dst => sinConnect
  | .src => sinBind

/-- `given` has the bytes of the last successful call for each address. -/
structure State where
  heap : Heap Nat
  ssp : SinSocket
  given : Side → List Nat

/-- The rest of the program may do what it wants with the rest of the heap. -/
inductive Move
  | call (side : Side) (bytes : List Nat) (answer : Answer)
  | other (h : Heap Nat)

/-- What the allocator may answer in a call. -/
def MayAnswer (h : Heap Nat) (saddr : Option Nat) (bytes : List Nat) : Answer → Prop
  | none => True
  | some (q, h') =>
    match saddr with
    | none => h.Malloc (sizeofSinAddr + bytes.length) q h'
    | some p => h.mem (p + addrlen) < bytes.length → h.Realloc p (sizeofSinAddr + bytes.length) q h'

def State.after (s : State) (side : Side) (bytes : List Nat) (r : Ret SinSocket) : State :=
  ⟨r.heap, r.left, if r.ret = 0 then Function.update s.given side bytes else s.given⟩

inductive Step (s : State) : Move → State → Prop
  | call : MayAnswer s.heap (s.ssp.at side) bytes answer →
    Step s (.call side bytes answer) (s.after side bytes (side.call s.heap s.ssp bytes answer))
  | other : (∀ side p, s.ssp.at side = some p → s.heap.Keeps h p) → Step s (.other h) { s with heap := h }

/-- `sin_socket` leaves both pointers NULL. -/
def Start (s : State) : Prop := s.ssp = ⟨none, none⟩ ∧ s.given = fun _ => []

abbrev machine : Machine State Move := ⟨Start, Step⟩

/-- A block that is resized stays where it is. -/
def InPlace (s : State) : Move → Prop
  | .call side bytes (some (q, _)) =>
    ∀ p, s.ssp.at side = some p → s.heap.mem (p + addrlen) < bytes.length → q = p
  | _ => True

-- ---------------------------------------------------------------------------
-- Stored addresses
-- ---------------------------------------------------------------------------

/-- The block at `p` is a `struct sin_addr` with `bytes` behind it, and they are
what its `addr` leads to. -/
structure StoredAt (h : Heap Nat) (p : Nat) (bytes : List Nat) : Prop where
  live : ∃ n, h.size p = some n ∧ sizeofSinAddr + bytes.length ≤ n
  type : h.mem (p + sinType) = sinTypeAddr
  addr : h.mem (p + addr) = p + sizeofSinAddr
  addrlen : h.mem (p + addrlen) = bytes.length
  bytes : h.read (h.mem (p + SinAddr.addr)) bytes.length = bytes

/-- A socket without an address was given none. -/
def Stored (h : Heap Nat) (saddr : Option Nat) (bytes : List Nat) : Prop :=
  match saddr with
  | none => bytes = []
  | some p => StoredAt h p bytes

/-- Both addresses are there, in blocks of their own. -/
structure Good (s : State) : Prop where
  stored : ∀ side, Stored s.heap (s.ssp.at side) (s.given side)
  apart : ∀ p q, s.ssp.dst = some p → s.ssp.src = some q → p ≠ q

/-- What a call does to a socket with good addresses. -/
structure CallOk (s : State) (side : Side) (bytes : List Nat) (r : Ret SinSocket) : Prop where
  ok : r.ret = 0 → (∃ p, r.left.at side = some p ∧ StoredAt r.heap p bytes) ∧
    r.left.at side.other = s.ssp.at side.other ∧ Stored r.heap (s.ssp.at side.other) (s.given side.other)
  failed : r.ret ≠ 0 → r.ret = -1 ∧ r.e = some .enomem ∧ r.heap = s.heap ∧ r.left = s.ssp

variable {h h' : Heap Nat} {p q n : Nat} {bytes : List Nat} {saddr : Option Nat} {answer : Answer} {s s' : State}
  {side : Side}

theorem StoredAt.keeps (hs : StoredAt h p bytes) (hk : h.Keeps h' p) : StoredAt h' p bytes := by
  obtain ⟨n, hn, hroom⟩ := hs.live
  unfold sizeofSinAddr at hroom
  have hcell : ∀ i < n, h'.mem (p + i) = h.mem (p + i) := hk.mem n hn
  have haddr : h'.mem (p + SinAddr.addr) = h.mem (p + SinAddr.addr) := hcell _ (by unfold SinAddr.addr; omega)
  refine ⟨⟨n, hk.size.trans hn, hroom⟩, ?_, haddr.trans hs.addr, ?_, ?_⟩
  · exact (hcell _ (by unfold sinType; omega)).trans hs.type
  · exact (hcell _ (by unfold SinAddr.addrlen; omega)).trans hs.addrlen
  · rw [haddr, hs.addr]
    refine Eq.trans (Heap.read_congr fun i hi => ?_) (hs.addr ▸ hs.bytes)
    rw [Nat.add_assoc]
    exact hcell _ (by unfold sizeofSinAddr; omega)

theorem fill_storedAt (hn : h.size p = some n) (hroom : sizeofSinAddr + bytes.length ≤ n)
    (htype : h.mem (p + sinType) = sinTypeAddr) (haddr : h.mem (p + addr) = p + sizeofSinAddr) :
    StoredAt (fill h p bytes) p bytes := by
  have hcell : ∀ i, i < sizeofSinAddr → i ≠ addrlen → (fill h p bytes).mem (p + i) = h.mem (p + i) := by
    intro i hi hne
    rw [fill, Heap.write_mem_ne (by omega), haddr, Heap.writeList_mem (.inl (by omega))]
  have haddr' : (fill h p bytes).mem (p + addr) = p + sizeofSinAddr :=
    (hcell _ (by decide) (by decide)).trans haddr
  refine ⟨⟨n, ?_, hroom⟩, (hcell _ (by decide) (by decide)).trans htype, haddr', ?_, ?_⟩
  · simpa [fill] using hn
  · rw [fill, Heap.write_mem]
  · rw [haddr']
    refine Eq.trans (Heap.read_congr fun i _ => ?_) (Heap.read_writeList h (p + sizeofSinAddr) bytes)
    rw [fill, haddr, Heap.write_mem_ne]
    unfold sizeofSinAddr addrlen
    omega

theorem fill_keeps (hn : h.size p = some n) (hroom : sizeofSinAddr + bytes.length ≤ n)
    (haddr : h.mem (p + addr) = p + sizeofSinAddr) (hq : q ≠ p) : h.Keeps (fill h p bytes) q := by
  unfold sizeofSinAddr at hroom haddr
  have hn' : (h.writeList (p + 24) bytes).size p = some n := by rwa [Heap.writeList_size]
  rw [fill, haddr]
  refine (Heap.keeps_writeList hn ?_ ?_ hq).trans (Heap.keeps_write hn' ?_ ?_ hq)
  · omega
  · omega
  · exact Nat.le_add_right p addrlen
  · unfold addrlen
    omega

-- ---------------------------------------------------------------------------
-- One call
-- ---------------------------------------------------------------------------

/-- A block at `p` ready to be filled, the live blocks of `h` other than `saddr`
being as they were. -/
structure Ready (h : Heap Nat) (saddr : Option Nat) (len p : Nat) (h' : Heap Nat) : Prop where
  live : ∃ n, h'.size p = some n ∧ sizeofSinAddr + len ≤ n
  type : h'.mem (p + sinType) = sinTypeAddr
  addr : h'.mem (p + addr) = p + sizeofSinAddr
  others : ∀ q n, h.size q = some n → saddr ≠ some q → q ≠ p ∧ h.Keeps h' q

theorem ready_malloc (hm : h.Malloc (sizeofSinAddr + n) p h') : Ready h none n p (setHeader h' p) := by
  have hsize : (h'.write (p + sinType) sinTypeAddr).size p = some (sizeofSinAddr + n) := hm.size
  refine ⟨⟨_, hsize, Nat.le_refl _⟩, ?_, Heap.write_mem _ _ _, fun q k hq _ => ⟨hm.ne hq, ?_⟩⟩
  · rw [setHeader, Heap.write_mem_ne (by simp [sinType, SinAddr.addr]), Heap.write_mem]
  · have hne := hm.ne hq
    have htype : h'.Keeps (h'.write (p + sinType) sinTypeAddr) q :=
      Heap.keeps_write hm.size (Nat.le_add_right _ _) (by simp only [sinType, sizeofSinAddr]; omega) hne
    have haddr : (h'.write (p + sinType) sinTypeAddr).Keeps (setHeader h' p) q :=
      Heap.keeps_write hsize (Nat.le_add_right _ _) (by simp only [SinAddr.addr, sizeofSinAddr]; omega) hne
    exact ((hm.others q hne).trans htype).trans haddr

/-- `realloc` takes the header along as it is. -/
theorem StoredAt.header (hs : StoredAt h p bytes) (hr : h.Realloc p (sizeofSinAddr + n) q h') {i : Nat}
    (hi : i < sizeofSinAddr) : h'.mem (q + i) = h.mem (p + i) := by
  obtain ⟨k, hk, hroom⟩ := hs.live
  exact hr.copied k hk i (by omega) (by omega)

theorem ready_realloc (hs : StoredAt h p bytes) (hr : h.Realloc p (sizeofSinAddr + n) p h') :
    Ready h (some p) n p h' := by
  have htype := (hs.header hr (i := sinType) (by decide)).trans hs.type
  have haddr := (hs.header hr (i := addr) (by decide)).trans hs.addr
  refine ⟨⟨_, hr.size, Nat.le_refl _⟩, htype, haddr, fun q m hq hne => ?_⟩
  have hqp : q ≠ p := fun he => hne (congrArg some he.symm)
  exact ⟨hqp, hr.others q hqp hqp⟩

theorem ready_same (hs : StoredAt h p bytes) (hle : n ≤ bytes.length) : Ready h (some p) n p h := by
  obtain ⟨k, hk, hroom⟩ := hs.live
  refine ⟨⟨k, hk, by omega⟩, hs.type, hs.addr, fun q m _ hne => ?_⟩
  exact ⟨fun he => hne (congrArg some he.symm), .refl h q⟩

/-- A call fails and does nothing, or fills a block that is ready. -/
theorem setAddr_cases {old : List Nat} (hs : Stored h saddr old) (hans : MayAnswer h saddr bytes answer)
    (hin : ∀ p q h', saddr = some p → answer = some (q, h') → h.mem (p + addrlen) < bytes.length → q = p) :
    setAddr h saddr bytes answer = ⟨-1, some .enomem, h, saddr⟩ ∨
      ∃ p h', setAddr h saddr bytes answer = ⟨0, none, fill h' p bytes, some p⟩ ∧
        Ready h saddr bytes.length p h' ∧ (saddr = some p ∨ saddr = none ∧ ∃ k, answer = some (p, k)) := by
  cases saddr with
  | none =>
    cases answer with
    | none => exact .inl rfl
    | some given => exact .inr ⟨_, _, rfl, ready_malloc hans, .inr ⟨rfl, _, rfl⟩⟩
  | some p =>
    by_cases hlen : h.mem (p + addrlen) < bytes.length
    · cases answer with
      | none =>
        exact .inl (by simp only [setAddr, if_pos hlen])
      | some given =>
        obtain ⟨q, h'⟩ := given
        obtain rfl := hin p q h' rfl rfl hlen
        exact .inr ⟨q, h', by simp only [setAddr, if_pos hlen], ready_realloc hs (hans hlen), .inl rfl⟩
    · have hle : bytes.length ≤ old.length := hs.addrlen ▸ Nat.le_of_not_lt hlen
      exact .inr ⟨p, h, by simp only [setAddr, if_neg hlen], ready_same hs hle, .inl rfl⟩

theorem setAddr_failed (h0 : (setAddr h saddr bytes answer).ret ≠ 0) : answer = none := by
  cases answer with
  | none => rfl
  | some given =>
    refine absurd ?_ h0
    cases saddr with
    | none => rfl
    | some p =>
      simp only [setAddr]
      split <;> rfl

theorem Ready.storedAt (hr : Ready h saddr bytes.length p h') : StoredAt (fill h' p bytes) p bytes := by
  obtain ⟨n, hn, hroom⟩ := hr.live
  exact fill_storedAt hn hroom hr.type hr.addr

theorem Ready.keeps (hr : Ready h saddr bytes.length p h') (hq : h.size q = some n) (hne : saddr ≠ some q) :
    q ≠ p ∧ h.Keeps (fill h' p bytes) q := by
  obtain ⟨k, hk, hroom⟩ := hr.live
  obtain ⟨hqp, hkeeps⟩ := hr.others q n hq hne
  exact ⟨hqp, hkeeps.trans (fill_keeps hk hroom hr.addr hqp)⟩

-- ---------------------------------------------------------------------------
-- A socket
-- ---------------------------------------------------------------------------

variable {ssp : SinSocket}

theorem Side.eq_or_other (side side' : Side) : side' = side ∨ side' = side.other := by
  cases side <;> cases side' <;> decide

theorem Side.other_ne (side : Side) : side.other ≠ side := by
  cases side <;> decide

theorem call_failed (hr : setAddr h (ssp.at side) bytes answer = ⟨-1, some .enomem, h, ssp.at side⟩) :
    side.call h ssp bytes answer = ⟨-1, some .enomem, h, ssp⟩ := by
  cases side with
  | dst =>
    replace hr : setAddr h ssp.dst bytes answer = ⟨-1, some .enomem, h, ssp.dst⟩ := hr
    rw [Side.call, sinConnect, hr]
  | src =>
    replace hr : setAddr h ssp.src bytes answer = ⟨-1, some .enomem, h, ssp.src⟩ := hr
    rw [Side.call, sinBind, hr]

theorem call_ok (hr : setAddr h (ssp.at side) bytes answer = ⟨0, none, h', some p⟩) :
    ∃ ssp', side.call h ssp bytes answer = ⟨0, none, h', ssp'⟩ ∧ ssp'.at side = some p ∧
      ssp'.at side.other = ssp.at side.other := by
  cases side with
  | dst =>
    replace hr : setAddr h ssp.dst bytes answer = ⟨0, none, h', some p⟩ := hr
    exact ⟨⟨some p, ssp.src⟩, by rw [Side.call, sinConnect, hr], rfl, rfl⟩
  | src =>
    replace hr : setAddr h ssp.src bytes answer = ⟨0, none, h', some p⟩ := hr
    exact ⟨⟨ssp.dst, some p⟩, by rw [Side.call, sinBind, hr], rfl, rfl⟩

theorem InPlace.eq (hin : InPlace s (.call side bytes answer)) (p q : Nat) (h' : Heap Nat)
    (hp : s.ssp.at side = some p) (ha : answer = some (q, h')) (hlen : s.heap.mem (p + addrlen) < bytes.length) :
    q = p := by
  subst ha
  exact hin p hp hlen

theorem Stored.live (hs : Stored h saddr bytes) (hp : saddr = some p) : ∃ n, h.size p = some n := by
  subst hp
  obtain ⟨n, hn, -⟩ := StoredAt.live hs
  exact ⟨n, hn⟩

theorem Stored.keeps (hs : Stored h saddr bytes) (hk : ∀ p, saddr = some p → h.Keeps h' p) :
    Stored h' saddr bytes := by
  cases saddr with
  | none => exact hs
  | some p => exact StoredAt.keeps hs (hk p rfl)

theorem Good.ne_other (hg : Good s) (hp : s.ssp.at side = some p) (hq : s.ssp.at side.other = some q) : p ≠ q := by
  cases side with
  | dst => exact hg.apart p q hp hq
  | src => exact (hg.apart q p hq hp).symm

theorem Good.of_sides (side : Side) (hs : Stored s.heap (s.ssp.at side) (s.given side))
    (ho : Stored s.heap (s.ssp.at side.other) (s.given side.other))
    (hne : ∀ p q, s.ssp.at side = some p → s.ssp.at side.other = some q → p ≠ q) : Good s := by
  refine ⟨fun side' => ?_, fun p q hp hq => ?_⟩
  · rcases side.eq_or_other side' with rfl | rfl
    · exact hs
    · exact ho
  · cases side with
    | dst => exact hne p q hp hq
    | src => exact (hne q p hq hp).symm

theorem Good.call (hg : Good s) (hans : MayAnswer s.heap (s.ssp.at side) bytes answer)
    (hin : InPlace s (.call side bytes answer)) :
    CallOk s side bytes (side.call s.heap s.ssp bytes answer) ∧
      Good (s.after side bytes (side.call s.heap s.ssp bytes answer)) := by
  rcases setAddr_cases (hg.stored side) hans hin.eq with hr | ⟨p, h', hr, hready, -⟩
  · rw [call_failed hr]
    have hne : (-1 : Int) ≠ 0 := by decide
    exact ⟨⟨fun h0 => absurd h0 hne, fun _ => ⟨rfl, rfl, rfl, rfl⟩⟩, hg.stored, hg.apart⟩
  · obtain ⟨ssp', hcall, hp, hother⟩ := call_ok hr
    have hkeeps : ∀ q, s.ssp.at side.other = some q → q ≠ p ∧ s.heap.Keeps (fill h' p bytes) q := by
      intro q hq
      obtain ⟨n, hn⟩ := (hg.stored side.other).live hq
      exact hready.keeps hn fun hside => hg.ne_other hside hq rfl
    have hstored := (hg.stored side.other).keeps fun q hq => (hkeeps q hq).2
    rw [hcall]
    refine ⟨⟨fun _ => ?_, fun h0 => absurd rfl h0⟩, .of_sides side ?_ ?_ ?_⟩
    · exact ⟨⟨p, hp, hready.storedAt⟩, hother, hstored⟩
    · simpa [State.after, hp, Stored] using hready.storedAt
    · simpa [State.after, hother, side.other_ne] using hstored
    · intro a b ha hb
      obtain rfl : p = a := Option.some.inj (hp.symm.trans ha)
      exact (hkeeps b (hother.symm.trans hb)).1.symm

theorem good_of_inPlace (h : machine.ReachableBy InPlace s) : Good s := by
  induction h with
  | init hs =>
    obtain ⟨hssp, hgiven⟩ := hs
    refine ⟨fun side => ?_, fun p q hp _ => ?_⟩
    · cases side <;> simp [Stored, SinSocket.at, hssp, hgiven]
    · simp [hssp] at hp
  | step _ hin hstep ih =>
    cases hstep with
    | call hans => exact (ih.call hans hin).2
    | other hkeeps => exact ⟨fun side => (ih.stored side).keeps (hkeeps side), ih.apart⟩

/-- In every run in which blocks grow where they are, both addresses are good and
every call does what it is to do. -/
theorem sin_addr_survives (h : machine.ReachableBy InPlace s) :
    Good s ∧ ∀ side bytes answer, MayAnswer s.heap (s.ssp.at side) bytes answer →
      InPlace s (.call side bytes answer) → CallOk s side bytes (side.call s.heap s.ssp bytes answer) :=
  ⟨good_of_inPlace h, fun _ _ _ hans hin => ((good_of_inPlace h).call hans hin).1⟩

/-- A call in which the block moves copies the bytes to where the block was, which
is free now. -/
theorem moved_copies_behind (hg : Good s) (hp : s.ssp.at side = some p) (hlen : s.heap.mem (p + addrlen) < bytes.length)
    (hans : MayAnswer s.heap (s.ssp.at side) bytes (some (q, h'))) (hq : q ≠ p) :
    (setAddr s.heap (s.ssp.at side) bytes (some (q, h'))).heap =
        (h'.writeList (p + sizeofSinAddr) bytes).write (q + addrlen) bytes.length ∧ h'.size p = none := by
  have hstored := hg.stored side
  rw [hp] at hans hstored ⊢
  have hr := hans hlen
  have haddr : h'.mem (q + addr) = p + sizeofSinAddr :=
    (StoredAt.header hstored hr (by decide)).trans (StoredAt.addr hstored)
  exact ⟨by simp only [setAddr, if_pos hlen, fill, haddr], hr.freed hq⟩

/-- Unless that copy runs into the new block, its `addr` leads out of it. -/
theorem moved_lost (hg : Good s) (hp : s.ssp.at side = some p) (hlen : s.heap.mem (p + addrlen) < bytes.length)
    (hans : MayAnswer s.heap (s.ssp.at side) bytes (some (q, h'))) (hq : q ≠ p)
    (hclear : q + addr < p + sizeofSinAddr ∨ p + sizeofSinAddr + bytes.length ≤ q + addr) :
    ¬ StoredAt (setAddr s.heap (s.ssp.at side) bytes (some (q, h'))).heap q bytes := by
  intro hstored
  have hbehind := (moved_copies_behind hg hp hlen hans hq).1
  have hold := hg.stored side
  rw [hp] at hans hold
  have hcopied := StoredAt.header hold (hans hlen) (i := addr) (by decide)
  have hne : q + addr ≠ q + addrlen := by simp [addr, addrlen]
  have haddr := hstored.addr
  rw [hbehind, Heap.write_mem_ne hne, Heap.writeList_mem hclear, hcopied, StoredAt.addr hold] at haddr
  omega

-- ---------------------------------------------------------------------------
-- One byte, then two
-- ---------------------------------------------------------------------------

def unbound : State := ⟨⟨fun _ => 0, fun _ => none, fun _ _ _ _ h => by cases h⟩, ⟨none, none⟩, fun _ => []⟩

def forOne : Heap Nat := .one (fun _ => 0) 0 25

def oneByte : State := unbound.after .src [7] (sinBind unbound.heap unbound.ssp [7] (some (0, forOne)))

def forTwo (p : Nat) : Heap Nat := .one (fun a => oneByte.heap.mem (a - p)) p 26

def twoBytes (p : Nat) : State :=
  oneByte.after .src [7, 8] (sinBind oneByte.heap oneByte.ssp [7, 8] (some (p, forTwo p)))

theorem malloc_forOne : unbound.heap.Malloc 25 0 forOne :=
  ⟨rfl, rfl, fun _ ha => ⟨if_neg ha, fun _ hn => by cases hn⟩⟩

theorem realloc_forTwo (p : Nat) : oneByte.heap.Realloc 0 26 p (forTwo p) := by
  refine ⟨fun hp => if_neg hp, fun hp => if_neg hp.symm, if_pos rfl, fun _ _ i _ _ => ?_, fun a ha hp => ?_⟩
  · simp only [forTwo, Heap.one, Nat.add_sub_cancel_left, Nat.zero_add]
  · refine ⟨(if_neg hp).trans (if_neg ha).symm, fun n hn => ?_⟩
    cases (if_neg ha).symm.trans hn

theorem step_oneByte : Step unbound (.call .src [7] (some (0, forOne))) oneByte := .call malloc_forOne

theorem step_twoBytes (p : Nat) : Step oneByte (.call .src [7, 8] (some (p, forTwo p))) (twoBytes p) :=
  .call fun _ => realloc_forTwo p

theorem sin_addr_survives_twoBytes : StoredAt (twoBytes 0).heap 0 [7, 8] ∧
    (sinConnect (twoBytes 0).heap (twoBytes 0).ssp [9] none).left = (twoBytes 0).ssp := by
  have hnew : InPlace unbound (.call .src [7] (some (0, forOne))) := fun _ hp _ => by cases hp
  have hgrow : InPlace oneByte (.call .src [7, 8] (some (0, forTwo 0))) := fun _ hp _ => Option.some.inj hp
  have hone : machine.ReachableBy InPlace oneByte := .step (.init ⟨rfl, rfl⟩) hnew step_oneByte
  have htwo : machine.ReachableBy InPlace (twoBytes 0) := .step hone hgrow (step_twoBytes 0)
  obtain ⟨hgood, hcalls⟩ := sin_addr_survives htwo
  exact ⟨hgood.stored .src, ((hcalls .dst [9] none trivial trivial).failed (by decide)).2.2.2⟩

/-- The block is moved to 100. -/
theorem sin_bind_moved : ¬ ∀ s, machine.Reachable s → Good s := by
  intro h
  have hone : machine.Reachable oneByte := .step (.init ⟨rfl, rfl⟩) trivial step_oneByte
  have hstored : StoredAt (twoBytes 100).heap 100 [7, 8] :=
    (h _ (hone.next (step_twoBytes 100))).stored .src
  exact absurd hstored.addr (by decide)

end Libsinet.SinAddr
