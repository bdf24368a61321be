import Libsinet.SinAddr
import Mathlib.Data.List.Flatten
import Mathlib.Data.List.Perm.Basic

/-!
# Sockets on one heap

Any number of sockets with their addresses, each in a block of its own, among
the blocks of the rest of the program. What `sin_socket` does to the instance
is as in `SinNref`; the pointer to it that a socket keeps is never read, so it
is left out. NULL is 0.
-/

namespace Libsinet.SinSockets

open Machine
open SinNref (Errno SinStance)
open SinAddr (Side Answer MayAnswer StoredAt Stored Ready setHeader fill addr addrlen sizeofSinAddr)

-- Fields of `struct sin_socket`.
def sinType : Nat := 0
def sinNref : Nat := 4
def dst : Nat := 8
def src : Nat := 16

def sizeofSinSocket : Nat := 32

def sinTypeSocket : Nat := 4061681943

/-- The field that `sin_bind` or `sin_connect` is about. -/
def field : Side → Nat
  | .dst => dst
  | .src => src

def ptr (h : Heap Nat) (a : Nat) : Option Nat := if h.mem a = 0 then none else some (h.mem a)

/-- What a call returns, stores through `e` and leaves, and the blocks that it
got. -/
structure Ret where
  ret : Int
  e : Option Errno
  heap : Heap Nat
  got : List Nat

-- ---------------------------------------------------------------------------
-- The functions
-- ---------------------------------------------------------------------------

/-- What `sin_socket` puts in a new block. -/
def newSocket (h : Heap Nat) (ssp : Nat) : Heap Nat :=
  let h := h.writeList ssp (List.replicate sizeofSinSocket 0)
  let h := h.write (ssp + sinType) sinTypeSocket
  h.write (ssp + sinNref) (h.mem (ssp + sinNref) + 1)

/-- The instance it leaves, and the socket or the error. -/
def sinSocket (sip : SinStance) (domain type protocol : Int) (answer : Answer) :
    SinStance × Except Errno (Nat × Heap Nat) :=
  match SinNref.sinSocket (A := Nat) sip domain type protocol answer with
  | (sip, .ok ((ssp, h), _)) => (sip, .ok (ssp, newSocket h ssp))
  | (sip, .error e) => (sip, .error e)

/-- `sin_bind` and `sin_connect`, with the field at `a`. -/
def setAddr (h : Heap Nat) (a : Nat) (bytes : List Nat) (answer : Answer) : Ret :=
  match ptr h a with
  | none =>
    match answer with
    | none => ⟨-1, some .enomem, h.write a 0, []⟩
    | some (p, h) => ⟨0, none, fill (setHeader (h.write a p) p) p bytes, [p]⟩
  | some p =>
    if h.mem (p + addrlen) < bytes.length then
      match answer with
      | none => ⟨-1, some .enomem, h, []⟩
      | some (q, h) => ⟨0, none, fill (h.write a q) q bytes, if q = p then [] else [q]⟩
    else ⟨0, none, fill h p bytes, []⟩

def sinBind (h : Heap Nat) (ssp : Nat) (bytes : List Nat) (answer : Answer) : Ret := setAddr h (ssp + src) bytes answer

def sinConnect (h : Heap Nat) (ssp : Nat) (bytes : List Nat) (answer : Answer) : Ret :=
  setAddr h (ssp + dst) bytes answer

def Side.call : Side → Heap Nat → Nat → List Nat → Answer → Ret
  | .dst => sinConnect
  | .src => sinBind

/-- The complement of an `unsigned int`. -/
def compl (n : Nat) : Nat := (~~~ BitVec.ofNat 32 n).toNat

/-- The type is spoilt before a block is freed. -/
def spoil (h : Heap Nat) (p : Nat) : Option (Heap Nat) :=
  (h.write (p + sinType) (compl (h.mem (p + sinType)))).free p

def closeAddr (h : Heap Nat) (saddr : Option Nat) : Option (Heap Nat) :=
  match saddr with
  | none => some h
  | some p => spoil h p

/-- There is no result if it frees what is no block. -/
def sinClose (h : Heap Nat) (ssp : Nat) : Option (Int × Heap Nat) := do
  let h ← closeAddr h (ptr h (ssp + src))
  let h ← closeAddr h (ptr h (ssp + dst))
  let h ← spoil h ssp
  return (0, h)

-- ---------------------------------------------------------------------------
-- Runs
-- ---------------------------------------------------------------------------

/-- The last three are a record: the open sockets, the addresses last given to
each, and the blocks that calls got and that are not freed. -/
structure State where
  heap : Heap Nat
  sip : SinStance
  sockets : List Nat
  given : Nat → Side → List Nat
  mine : List Nat

inductive Move
  | socket (domain type protocol : Int) (answer : Answer)
  | setAddr (side : Side) (ssp : Nat) (bytes : List Nat) (answer : Answer)
  | close (ssp : Nat)
  | other (h : Heap Nat)

/-- `malloc` may give a block for a socket. -/
def MayGive (h : Heap Nat) : Answer → Prop
  | none => True
  | some (p, h') => p ≠ 0 ∧ h.Malloc sizeofSinSocket p h'

def NotNull : Answer → Prop
  | none => True
  | some (p, _) => p ≠ 0

def State.afterSocket (s : State) : SinStance × Except Errno (Nat × Heap Nat) → State
  | (sip, .ok (ssp, h)) =>
    ⟨h, sip, ssp :: s.sockets, Function.update s.given ssp fun _ => [], ssp :: s.mine⟩
  | (sip, .error _) => { s with sip }

/-- Those of the blocks that are still there. -/
def stillLive (h : Heap Nat) (l : List Nat) : List Nat := l.filter fun b => (h.size b).isSome

def State.afterAddr (s : State) (side : Side) (ssp : Nat) (bytes : List Nat) (r : Ret) : State :=
  { s with
    heap := r.heap
    given := if r.ret = 0 then Function.update s.given ssp (Function.update (s.given ssp) side bytes) else s.given
    mine := r.got ++ stillLive r.heap s.mine }

def State.afterClose (s : State) (ssp : Nat) (h : Heap Nat) : State :=
  { s with heap := h, sockets := s.sockets.erase ssp, mine := stillLive h s.mine }

/-- Calls are made on open sockets. The rest of the program leaves the blocks
that are not its own. -/
inductive Step (s : State) : Move → State → Prop
  | socket : MayGive s.heap answer →
    Step s (.socket domain type protocol answer) (s.afterSocket (sinSocket s.sip domain type protocol answer))
  | setAddr : ssp ∈ s.sockets → MayAnswer s.heap (ptr s.heap (ssp + field side)) bytes answer → NotNull answer →
    Step s (.setAddr side ssp bytes answer) (s.afterAddr side ssp bytes (Side.call side s.heap ssp bytes answer))
  | close : ssp ∈ s.sockets → sinClose s.heap ssp = some (ret, h) → Step s (.close ssp) (s.afterClose ssp h)
  | other : (∀ b ∈ s.mine, s.heap.Keeps h b) → Step s (.other h) { s with heap := h }

def Start (s : State) : Prop := s.sockets = [] ∧ s.mine = []

abbrev machine : Machine State Move := ⟨Start, Step⟩

/-- An address that grows stays where it is. -/
def InPlace (s : State) : Move → Prop
  | .setAddr side ssp bytes (some (q, _)) =>
    ∀ p, ptr s.heap (ssp + field side) = some p → s.heap.mem (p + addrlen) < bytes.length → q = p
  | _ => True

-- ---------------------------------------------------------------------------
-- One socket
-- ---------------------------------------------------------------------------

/-- The blocks of a socket. -/
def blocks (h : Heap Nat) (ssp : Nat) : List Nat :=
  (ptr h (ssp + src)).toList ++ (ptr h (ssp + dst)).toList ++ [ssp]

/-- The block at `ssp` is a socket that was given these addresses. -/
structure SocketAt (h : Heap Nat) (ssp : Nat) (given : Side → List Nat) : Prop where
  live : h.size ssp = some sizeofSinSocket
  type : h.mem (ssp + sinType) = sinTypeSocket
  nref : h.mem (ssp + sinNref) = 1
  stored : ∀ side, Stored h (ptr h (ssp + field side)) (given side)

variable {h h' k k' : Heap Nat} {ssp p q b n : Nat} {given : Side → List Nat} {bytes : List Nat} {answer : Answer}
  {side : Side} {s s' : State} {mv : Move}

theorem field_lt (side : Side) : field side < sizeofSinSocket := by
  cases side <;> decide

theorem ptr_eq_some {a : Nat} (h : Heap Nat) (hp : p ≠ 0) : ptr h a = some p ↔ h.mem a = p := by
  unfold ptr
  split
  · rename_i h0
    simp [h0, hp.symm]
  · simp

theorem ptr_mem {a : Nat} (hp : ptr h a = some p) : h.mem a = p ∧ p ≠ 0 := by
  unfold ptr at hp
  split at hp
  · cases hp
  · obtain rfl := Option.some.inj hp
    exact ⟨rfl, ‹_›⟩

theorem ptr_getD (h : Heap Nat) (a : Nat) : (ptr h a).getD 0 = h.mem a := by
  unfold ptr
  split
  · exact (‹h.mem a = 0›).symm
  · rfl

theorem ptr_congr {a : Nat} (hmem : h'.mem a = h.mem a) : ptr h' a = ptr h a := by
  simp [ptr, hmem]

theorem mem_blocks : b ∈ blocks h ssp ↔ (∃ side, ptr h (ssp + field side) = some b) ∨ b = ssp := by
  simp only [blocks, List.mem_append, Option.mem_toList, List.mem_singleton]
  constructor
  · rintro ((hb | hb) | rfl)
    · exact .inl ⟨.src, hb⟩
    · exact .inl ⟨.dst, hb⟩
    · exact .inr rfl
  · rintro (⟨_ | _, hb⟩ | rfl)
    · exact .inl (.inr hb)
    · exact .inl (.inl hb)
    · exact .inr rfl

theorem self_mem_blocks (h : Heap Nat) (ssp : Nat) : ssp ∈ blocks h ssp := mem_blocks.mpr (.inr rfl)

theorem SocketAt.block_live (hs : SocketAt h ssp given) (hb : b ∈ blocks h ssp) : ∃ n, h.size b = some n := by
  rcases mem_blocks.mp hb with ⟨side, hside⟩ | rfl
  · exact (hs.stored side).live hside
  · exact ⟨_, hs.live⟩

theorem SocketAt.cell (hs : SocketAt h ssp given) (hk : h.Keeps h' ssp) {i : Nat} (hi : i < sizeofSinSocket) :
    h'.mem (ssp + i) = h.mem (ssp + i) := hk.mem _ hs.live i hi

theorem SocketAt.ptr_keeps (hs : SocketAt h ssp given) (hk : h.Keeps h' ssp) (side : Side) :
    ptr h' (ssp + field side) = ptr h (ssp + field side) := ptr_congr (hs.cell hk (field_lt side))

theorem blocks_same (hptr : ∀ side, ptr h' (ssp + field side) = ptr h (ssp + field side)) :
    blocks h' ssp = blocks h ssp := by
  have hsrc := hptr .src
  have hdst := hptr .dst
  simp only [field] at hsrc hdst
  simp only [blocks, hsrc, hdst]

theorem SocketAt.keeps (hs : SocketAt h ssp given) (hk : ∀ b ∈ blocks h ssp, h.Keeps h' b) :
    SocketAt h' ssp given ∧ blocks h' ssp = blocks h ssp := by
  have hself := hk ssp (self_mem_blocks h ssp)
  have hptr := hs.ptr_keeps hself
  refine ⟨⟨hself.size.trans hs.live, ?_, ?_, fun side => ?_⟩, blocks_same hptr⟩
  · exact (hs.cell hself (by decide)).trans hs.type
  · exact (hs.cell hself (by decide)).trans hs.nref
  · rw [hptr side]
    exact (hs.stored side).keeps fun p hp => hk p (mem_blocks.mpr (.inl ⟨side, hp⟩))

/-- What a call does to the blocks of the heap. -/
structure Effect (h : Heap Nat) (old : List Nat) (r : Ret) : Prop where
  fresh : ∀ b ∈ r.got, h.size b = none
  nodup : r.got.Nodup
  frame : ∀ b n, h.size b = some n → b ∉ old → h.Keeps r.heap b

-- ---------------------------------------------------------------------------
-- sin_bind and sin_connect
-- ---------------------------------------------------------------------------

/-- The call on `side` of a socket, which fails only if there is no memory. -/
structure CallOk (h : Heap Nat) (ssp : Nat) (given : Side → List Nat) (side : Side) (bytes : List Nat)
    (answer : Answer) (r : Ret) : Prop extends Effect h (blocks h ssp) r where
  ok : r.ret = 0 → SocketAt r.heap ssp (Function.update given side bytes)
  failed : r.ret ≠ 0 → answer = none ∧ r.ret = -1 ∧ r.e = some .enomem ∧ r.heap = h ∧ r.got = []
  blocks : (blocks r.heap ssp).Perm (r.got ++ SinSockets.blocks h ssp)

/-- A new pointer in a socket, to a block that was not there. -/
theorem blocks_insert (hptr : ptr h' (ssp + field side) = some q) (hnull : ptr h (ssp + field side) = none)
    (hother : ptr h' (ssp + field side.other) = ptr h (ssp + field side.other)) :
    (blocks h' ssp).Perm ([q] ++ blocks h ssp) := by
  cases side with
  | dst =>
    simp only [field, Side.other] at hptr hnull hother
    simp only [blocks, hptr, hnull, hother, Option.toList_some, Option.toList_none, List.append_nil]
    exact (List.perm_append_comm.append_right [ssp]).trans (List.append_assoc ..  ▸ .refl _)
  | src =>
    simp only [field, Side.other] at hptr hnull hother
    simp [blocks, hptr, hnull, hother]

theorem field_other (side : Side) : field side.other ≠ field side := by
  cases side <;> decide

theorem ne_of_nodup (hnd : (blocks h ssp).Nodup) (hp : ptr h (ssp + field side) = some p) : p ≠ ssp := by
  rintro rfl
  refine (List.nodup_append.mp hnd).2.2 p ?_ p List.mem_cons_self rfl
  cases side with
  | dst => exact List.mem_append_right _ (Option.mem_toList.mpr hp)
  | src => exact List.mem_append_left _ (Option.mem_toList.mpr hp)

theorem ne_other_of_nodup (hnd : (blocks h ssp).Nodup) (hp : ptr h (ssp + field side) = some p)
    (hq : ptr h (ssp + field side.other) = some q) : p ≠ q := by
  have hboth := (List.nodup_append.mp (List.nodup_append.mp hnd).1).2.2
  cases side with
  | dst => exact (hboth q (Option.mem_toList.mpr hq) p (Option.mem_toList.mpr hp)).symm
  | src => exact hboth p (Option.mem_toList.mpr hp) q (Option.mem_toList.mpr hq)

/-- One pointer of a socket leads to a new address, all else of it stays. -/
theorem SocketAt.update (hs : SocketAt h ssp given) (hlive : h'.size ssp = some sizeofSinSocket)
    (hcell : ∀ i < sizeofSinSocket, i ≠ field side → h'.mem (ssp + i) = h.mem (ssp + i))
    (hnew : ptr h' (ssp + field side) = some q) (hstored : StoredAt h' q bytes)
    (hkeep : ∀ p, ptr h (ssp + field side.other) = some p → h.Keeps h' p) :
    SocketAt h' ssp (Function.update given side bytes) := by
  refine ⟨hlive, ?_, ?_, fun side' => ?_⟩
  · exact (hcell sinType (by decide) (by cases side <;> decide)).trans hs.type
  · exact (hcell sinNref (by decide) (by cases side <;> decide)).trans hs.nref
  · rcases side.eq_or_other side' with rfl | rfl
    · rw [hnew, Function.update_self]
      exact hstored
    · rw [ptr_congr (hcell _ (field_lt _) (field_other side)), Function.update_of_ne side.other_ne]
      exact (hs.stored _).keeps hkeep

/-- A field of a socket is in no other block. -/
theorem field_apart (hssp : h.size ssp = some sizeofSinSocket) (hq : h.size q = some n) (hne : ssp ≠ q) (side : Side) :
    ssp + field side < q ∨ q + n ≤ ssp + field side := by
  have hlt := field_lt side
  rcases h.apart ssp q _ n hssp hq hne with hle | hle
  · exact .inl (by omega)
  · exact .inr (by omega)

theorem fill_write {a c : Nat} (ha : a < q ∨ q + (sizeofSinAddr + bytes.length) ≤ a)
    (haddr : h.mem (q + addr) = q + sizeofSinAddr) : fill (h.write a c) q bytes = (fill h q bytes).write a c := by
  unfold sizeofSinAddr at ha haddr
  have hmem : (h.write a c).mem (q + addr) = q + 24 := by
    rw [Heap.write_mem_ne (by unfold addr; omega), haddr]
  have hlen : q + addrlen ≠ a := by
    unfold addrlen
    omega
  rw [fill, fill, hmem, haddr, Heap.writeList_write (by omega), Heap.write_comm hlen]

theorem setHeader_write {a c : Nat} (ha : a < q ∨ q + sizeofSinAddr ≤ a) :
    setHeader (h.write a c) q = (setHeader h q).write a c := by
  unfold sizeofSinAddr at ha
  have htype : q + SinAddr.sinType ≠ a := by
    unfold SinAddr.sinType
    omega
  have haddr : q + addr ≠ a := by
    unfold addr
    omega
  rw [setHeader, setHeader, Heap.write_comm htype, Heap.write_comm haddr]

/-- What `SinAddr.setAddr` does, and the pointer that it leaves is in the socket. -/
theorem SocketAt.setAddr_eq (hs : SocketAt h ssp given) (hnd : (blocks h ssp).Nodup)
    (hans : MayAnswer h (ptr h (ssp + field side)) bytes answer)
    (hin : ∀ p q h', ptr h (ssp + field side) = some p → answer = some (q, h') →
      h.mem (p + addrlen) < bytes.length → q = p) :
    setAddr h (ssp + field side) bytes answer =
      let r := SinAddr.setAddr h (ptr h (ssp + field side)) bytes answer
      ⟨r.ret, r.e, r.heap.write (ssp + field side) (r.left.getD 0),
        if r.left = ptr h (ssp + field side) then [] else r.left.toList⟩ := by
  have hsame : ∀ {p}, ptr h (ssp + field side) = some p → h.write (ssp + field side) p = h := fun hp =>
    (ptr_mem hp).1 ▸ Heap.write_self h (ssp + field side)
  -- the pointer is outside of the block that it leads to
  have houtside : ∀ {p k}, Ready h (ptr h (ssp + field side)) bytes.length p k →
      ssp + field side < p ∨ p + (sizeofSinAddr + bytes.length) ≤ ssp + field side := by
    intro p k hready
    obtain ⟨n, hn, hroom⟩ := hready.live
    obtain ⟨hne, hkeeps⟩ := hready.others ssp _ hs.live fun he => ne_of_nodup hnd he rfl
    rcases field_apart (hkeeps.size.trans hs.live) hn hne side with hlt | hle
    · exact .inl hlt
    · exact .inr (by omega)
  have hstored := hs.stored side
  cases hptr : ptr h (ssp + field side) with
  | none =>
    rw [hptr] at hans houtside
    cases answer with
    | none => simp [SinSockets.setAddr, SinAddr.setAddr, hptr]
    | some given =>
      obtain ⟨p, h'⟩ := given
      have hready := SinAddr.ready_malloc hans
      have hout := houtside hready
      have hheader : ssp + field side < p ∨ p + sizeofSinAddr ≤ ssp + field side := by omega
      simp only [SinSockets.setAddr, SinAddr.setAddr, hptr, setHeader_write hheader, fill_write hout hready.addr]
      simp
  | some p =>
    rw [hptr] at hans hstored houtside
    by_cases hlen : h.mem (p + addrlen) < bytes.length
    · cases answer with
      | none => simp [SinSockets.setAddr, SinAddr.setAddr, hptr, hlen, hsame hptr]
      | some given =>
        obtain ⟨q, h'⟩ := given
        obtain rfl : q = p := hin p q h' hptr rfl hlen
        have hready := SinAddr.ready_realloc hstored (hans hlen)
        simp [SinSockets.setAddr, SinAddr.setAddr, hptr, hlen, fill_write (houtside hready) hready.addr]
    · have hready := SinAddr.ready_same hstored (n := bytes.length) (StoredAt.addrlen hstored ▸ Nat.le_of_not_lt hlen)
      have hfill := fill_write (c := p) (houtside hready) hready.addr
      rw [hsame hptr] at hfill
      simp [SinSockets.setAddr, SinAddr.setAddr, hptr, hlen, ← hfill]

/-- The pointer is put in the socket after its block is filled. -/
structure Written (h : Heap Nat) (ssp : Nat) (side : Side) (p : Nat) (k k' : Heap Nat) : Prop where
  live : k'.size ssp = some sizeofSinSocket
  ne : p ≠ ssp
  keeps : ∀ b, b ≠ ssp → k.Keeps k' b
  cell : ∀ i < sizeofSinSocket, i ≠ field side → k'.mem (ssp + i) = h.mem (ssp + i)
  ptr : ptr k' (ssp + field side) = some p

theorem Written.other (hw : Written h ssp side p k k') :
    SinSockets.ptr k' (ssp + field side.other) = SinSockets.ptr h (ssp + field side.other) :=
  ptr_congr (hw.cell _ (field_lt side.other) (field_other side))

theorem SocketAt.written (hs : SocketAt h ssp given) (hnd : (blocks h ssp).Nodup) (hp : p ≠ 0)
    (hr : Ready h (ptr h (ssp + field side)) bytes.length p h') :
    Written h ssp side p (fill h' p bytes) ((fill h' p bytes).write (ssp + field side) p) := by
  obtain ⟨hne, hself⟩ := hr.keeps hs.live fun he => ne_of_nodup hnd he rfl
  have hlive : (fill h' p bytes).size ssp = some sizeofSinSocket := hself.size.trans hs.live
  refine ⟨hlive, hne.symm, fun b hb => ?_, fun i hi hif => ?_, (ptr_eq_some _ hp).mpr (Heap.write_mem _ _ _)⟩
  · exact Heap.keeps_write hlive (Nat.le_add_right _ _) (Nat.add_lt_add_left (field_lt side) _) hb
  · rw [Heap.write_mem_ne (by omega)]
    exact hs.cell hself hi

/-- The address is put in its block, which is new, has room or has grown. -/
theorem SocketAt.setReady (hs : SocketAt h ssp given) (hnd : (blocks h ssp).Nodup) (hp : p ≠ 0)
    (hr : Ready h (ptr h (ssp + field side)) bytes.length p h')
    (hold : ptr h (ssp + field side) = some p ∨ ptr h (ssp + field side) = none) :
    CallOk h ssp given side bytes answer ⟨0, none, (fill h' p bytes).write (ssp + field side) p,
      if some p = ptr h (ssp + field side) then [] else [p]⟩ := by
  have hw := hs.written hnd hp hr
  have hframe : ∀ b n, h.size b = some n → b ≠ ssp → ptr h (ssp + field side) ≠ some b →
      h.Keeps ((fill h' p bytes).write (ssp + field side) p) b := fun b n hb hbs hbp =>
    (hr.keeps hb hbp).2.trans (hw.keeps b hbs)
  refine ⟨⟨?_, ?_, ?_⟩, fun _ => ?_, fun h0 => absurd rfl h0, ?_⟩
  · intro b hb
    obtain ⟨hnew, rfl⟩ : some p ≠ ptr h (ssp + field side) ∧ b = p := by
      split at hb
      · cases hb
      · exact ⟨‹_›, List.mem_singleton.mp hb⟩
    rw [Option.eq_none_iff_forall_ne_some]
    exact fun n hn => (hr.others b n hn fun he => hnew he.symm).1 rfl
  · split
    · exact List.nodup_nil
    · exact List.nodup_singleton p
  · exact fun b n hb hb' => hframe b n hb (fun he => hb' (he ▸ self_mem_blocks h ssp)) fun he =>
      hb' (mem_blocks.mpr (.inl ⟨side, he⟩))
  · refine hs.update hw.live hw.cell hw.ptr (hr.storedAt.keeps (hw.keeps p hw.ne)) fun q hq => ?_
    obtain ⟨n, hn⟩ := (hs.stored side.other).live hq
    exact hframe q n hn (ne_of_nodup hnd hq) fun he => ne_other_of_nodup hnd he hq rfl
  · rcases hold with hold | hold
    · rw [if_pos hold.symm]
      refine .of_eq (blocks_same fun side' => ?_)
      rcases side.eq_or_other side' with rfl | rfl
      · exact hw.ptr.trans hold.symm
      · exact hw.other
    · rw [hold, if_neg (Option.some_ne_none p)]
      exact blocks_insert hw.ptr hold hw.other

theorem ne_zero_of_ready {a : Nat} (hold : ptr h a = some p ∨ ptr h a = none ∧ ∃ k, answer = some (p, k))
    (hnull : NotNull answer) : p ≠ 0 := by
  rcases hold with hold | ⟨-, k, rfl⟩
  · exact (ptr_mem hold).2
  · exact hnull

theorem SocketAt.setAddr (hs : SocketAt h ssp given) (hnd : (blocks h ssp).Nodup)
    (hans : MayAnswer h (ptr h (ssp + field side)) bytes answer) (hnull : NotNull answer)
    (hin : ∀ p q h', ptr h (ssp + field side) = some p → answer = some (q, h') →
      h.mem (p + addrlen) < bytes.length → q = p) :
    CallOk h ssp given side bytes answer (setAddr h (ssp + field side) bytes answer) := by
  rw [hs.setAddr_eq hnd hans hin]
  rcases SinAddr.setAddr_cases (hs.stored side) hans hin with hr | ⟨p, h', hr, hready, hold⟩
  · have hsame : h.write (ssp + field side) ((ptr h (ssp + field side)).getD 0) = h := by
      rw [ptr_getD]
      exact Heap.write_self h _
    simp only [hr, hsame, if_true]
    refine ⟨⟨fun b hb => absurd hb List.not_mem_nil, List.nodup_nil, fun b _ _ _ => .refl h b⟩,
      fun h0 => absurd h0 (show (-1 : Int) ≠ 0 by decide), fun _ => ⟨?_, rfl, rfl, rfl, rfl⟩, .refl _⟩
    have hfail : (SinAddr.setAddr h (ptr h (ssp + field side)) bytes answer).ret ≠ 0 := by
      rw [hr]
      exact show (-1 : Int) ≠ 0 by decide
    exact SinAddr.setAddr_failed hfail
  · simp only [hr]
    exact hs.setReady hnd (ne_zero_of_ready hold hnull) hready (hold.imp_right And.left)

-- ---------------------------------------------------------------------------
-- sin_socket and sin_close
-- ---------------------------------------------------------------------------

theorem newSocket_keeps (hp : h.size p = some sizeofSinSocket) (hb : b ≠ p) : h.Keeps (newSocket h p) b := by
  have hlist : h.Keeps (h.writeList p (List.replicate sizeofSinSocket 0)) b :=
    Heap.keeps_writeList hp (Nat.le_refl _) (by simp) hb
  have hsize : (h.writeList p (List.replicate sizeofSinSocket 0)).size p = some sizeofSinSocket := by simpa using hp
  unfold newSocket
  generalize h.writeList p (List.replicate sizeofSinSocket 0) = k at hlist hsize ⊢
  have htype : k.Keeps (k.write (p + sinType) sinTypeSocket) b :=
    Heap.keeps_write hsize (Nat.le_add_right _ _) (by simp [sinType, sizeofSinSocket]) hb
  have hsize' : (k.write (p + sinType) sinTypeSocket).size p = some sizeofSinSocket := hsize
  refine (hlist.trans htype).trans (Heap.keeps_write hsize' (Nat.le_add_right _ _) ?_ hb)
  simp [sinNref, sizeofSinSocket]

theorem newSocket_mem (h : Heap Nat) (p : Nat) {i : Nat} (hi : i < sizeofSinSocket) :
    (newSocket h p).mem (p + i) = if i = sinType then sinTypeSocket else if i = sinNref then 1 else 0 := by
  have hzero : ∀ j < sizeofSinSocket, (h.writeList p (List.replicate sizeofSinSocket 0)).mem (p + j) = 0 := by
    intro j hj
    rw [Heap.writeList_mem_at (by simpa using hj)]
    exact List.getElem_replicate _
  unfold newSocket
  generalize h.writeList p (List.replicate sizeofSinSocket 0) = k at hzero ⊢
  have hnref : (k.write (p + sinType) sinTypeSocket).mem (p + sinNref) = 0 := by
    rw [Heap.write_mem_ne (by simp [sinType, sinNref])]
    exact hzero sinNref (by decide)
  show ((k.write (p + sinType) sinTypeSocket).write (p + sinNref) _).mem (p + i) = _
  rw [hnref]
  by_cases hin : i = sinNref
  · subst hin
    rw [Heap.write_mem]
    rfl
  · rw [Heap.write_mem_ne (by omega), if_neg hin]
    split
    · rename_i hit
      rw [hit, Heap.write_mem]
    · rw [Heap.write_mem_ne (by omega)]
      exact hzero i hi

theorem newSocket_ptr (h : Heap Nat) (p : Nat) (side : Side) : ptr (newSocket h p) (p + field side) = none := by
  refine if_pos ?_
  rw [newSocket_mem h p (field_lt side)]
  cases side <;> rfl

theorem newSocket_at (hm : h.Malloc sizeofSinSocket p h') :
    SocketAt (newSocket h' p) p (fun _ => []) ∧ blocks (newSocket h' p) p = [p] := by
  have hptr := newSocket_ptr h' p
  refine ⟨⟨?_, newSocket_mem h' p (by decide), newSocket_mem h' p (by decide), fun side => ?_⟩, ?_⟩
  · simpa [newSocket] using hm.size
  · rw [hptr side]
    rfl
  · have hsrc := hptr .src
    have hdst := hptr .dst
    simp only [field] at hsrc hdst
    simp [blocks, hsrc, hdst]

theorem spoil_live (hp : h.size p = some n) (hn : 0 < n) : ∃ h', spoil h p = some h' ∧ h.Frees p h' := by
  obtain ⟨h', hfree, hfrees⟩ := Heap.free_live (h := h.write (p + sinType) (compl (h.mem (p + sinType)))) hp
  refine ⟨h', hfree, ⟨n, hp⟩, hfrees.gone, fun a ha => ?_⟩
  exact (Heap.keeps_write hp (Nat.le_refl _) (Nat.lt_add_of_pos_right hn) ha).trans (hfrees.others a ha)

theorem closeAddr_stored (hs : Stored h saddr bytes) :
    ∃ h', closeAddr h saddr = some h' ∧ (∀ p, saddr = some p → h'.size p = none) ∧
      ∀ b, saddr ≠ some b → h.Keeps h' b := by
  cases saddr with
  | none => exact ⟨h, rfl, fun p hp => absurd hp.symm (Option.some_ne_none p), fun b _ => .refl h b⟩
  | some p =>
    obtain ⟨n, hn, hroom⟩ := StoredAt.live hs
    have hpos : 0 < n := by
      unfold sizeofSinAddr at hroom
      omega
    obtain ⟨h', hspoil, hfrees⟩ := spoil_live hn hpos
    refine ⟨h', hspoil, fun q hq => ?_, fun b hb => hfrees.others b fun he => hb (congrArg some he.symm)⟩
    exact Option.some.inj hq ▸ hfrees.gone

theorem closeAddr_dead (hclose : closeAddr h saddr = some h') (hb : h.size b = none) : h'.size b = none := by
  cases saddr with
  | none => exact Option.some.inj hclose ▸ hb
  | some p => exact Heap.size_free hclose hb

/-- A socket is not closed twice. -/
theorem sinClose_dead (hssp : h.size ssp = none) : sinClose h ssp = none := by
  unfold sinClose
  cases h₁ : closeAddr h (ptr h (ssp + src)) with
  | none => rfl
  | some k =>
    simp only [Option.bind_eq_bind, Option.bind_some]
    cases h₂ : closeAddr k (ptr k (ssp + dst)) with
    | none => rfl
    | some k' =>
      have hdead : k'.size ssp = none := closeAddr_dead h₂ (closeAddr_dead h₁ hssp)
      simp [spoil, Heap.free, hdead]

/-- A socket is closed by freeing its blocks. -/
structure CloseOk (h : Heap Nat) (ssp : Nat) (h' : Heap Nat) : Prop where
  gone : ∀ b ∈ blocks h ssp, h'.size b = none
  frame : ∀ b n, h.size b = some n → b ∉ blocks h ssp → h.Keeps h' b

theorem SocketAt.close (hs : SocketAt h ssp given) (hnd : (blocks h ssp).Nodup) :
    ∃ h', sinClose h ssp = some (0, h') ∧ CloseOk h ssp h' := by
  have hown : ∀ side, ptr h (ssp + field side) ≠ some ssp := fun side he => ne_of_nodup hnd he rfl
  obtain ⟨h₁, hsrc, hgone₁, hkeep₁⟩ := closeAddr_stored (hs.stored .src)
  have hself₁ := hkeep₁ ssp (hown .src)
  have hptr : ptr h₁ (ssp + dst) = ptr h (ssp + dst) := hs.ptr_keeps hself₁ .dst
  have hapart : ∀ p, ptr h (ssp + field .dst) = some p → ptr h (ssp + field .src) ≠ some p := fun p hp he =>
    @ne_other_of_nodup h ssp p p .dst hnd hp he rfl
  obtain ⟨h₂, hdst, hgone₂, hkeep₂⟩ :=
    closeAddr_stored ((hs.stored .dst).keeps fun p hp => hkeep₁ p (hapart p hp))
  have hlive : h₂.size ssp = some sizeofSinSocket := ((hself₁.trans (hkeep₂ ssp (hown .dst))).size).trans hs.live
  obtain ⟨h₃, hspoil, hfrees⟩ := spoil_live hlive (by decide)
  simp only [field] at hsrc hdst
  refine ⟨h₃, by simp [sinClose, hsrc, hptr, hdst, hspoil], fun b hb => ?_, fun b n hb hold => ?_⟩
  · rcases mem_blocks.mp hb with ⟨side, hside⟩ | rfl
    · have hlast := (hfrees.others b (ne_of_nodup hnd hside)).size
      cases side with
      | dst => exact hlast.trans (hgone₂ b hside)
      | src => exact hlast.trans ((hkeep₂ b fun he => hapart b he hside).size.trans (hgone₁ b hside))
    · exact hfrees.gone
  · have hmem : ∀ side, ptr h (ssp + field side) ≠ some b := fun side he => hold (mem_blocks.mpr (.inl ⟨side, he⟩))
    have hne : b ≠ ssp := fun he => hold (he ▸ self_mem_blocks h b)
    exact ((hkeep₁ b (hmem .src)).trans (hkeep₂ b (hmem .dst))).trans (hfrees.others b hne)

-- ---------------------------------------------------------------------------
-- All sockets
-- ---------------------------------------------------------------------------

/-- The open sockets are good and their blocks different, and all that the
calls got and did not free is theirs. -/
structure Good (s : State) : Prop where
  socket : ∀ ssp ∈ s.sockets, SocketAt s.heap ssp (s.given ssp)
  nodup : (s.sockets.flatMap (blocks s.heap)).Nodup
  mine : s.mine.Perm (s.sockets.flatMap (blocks s.heap))

theorem stillLive_eq {l : List Nat} (hl : ∀ b ∈ l, ∃ n, h.size b = some n) : stillLive h l = l :=
  List.filter_eq_self.mpr fun b hb => by
    obtain ⟨n, hn⟩ := hl b hb
    simp [hn]

theorem blocks_split (hssp : ssp ∈ s.sockets) :
    (s.sockets.flatMap (blocks s.heap)).Perm
      (blocks s.heap ssp ++ (s.sockets.erase ssp).flatMap (blocks s.heap)) :=
  (List.perm_cons_erase hssp).flatMap_right (blocks s.heap)

theorem Good.nodup_split (hg : Good s) (hssp : ssp ∈ s.sockets) :
    (blocks s.heap ssp).Nodup ∧ ((s.sockets.erase ssp).flatMap (blocks s.heap)).Nodup ∧
      ∀ b ∈ (s.sockets.erase ssp).flatMap (blocks s.heap), b ∉ blocks s.heap ssp := by
  obtain ⟨hown, hrest, hdisj⟩ := List.nodup_append.mp ((blocks_split hssp).nodup_iff.mp hg.nodup)
  exact ⟨hown, hrest, fun b hb hin => hdisj b hin b hb rfl⟩

theorem Good.live (hg : Good s) (hb : b ∈ s.sockets.flatMap (blocks s.heap)) : ∃ n, s.heap.size b = some n := by
  obtain ⟨ssp, hssp, hb⟩ := List.mem_flatMap.mp hb
  exact (hg.socket ssp hssp).block_live hb

/-- Sockets whose blocks are left alone. -/
theorem Good.others (hg : Good s) {l : List Nat} (hl : ∀ ssp ∈ l, ssp ∈ s.sockets)
    (hk : ∀ b ∈ l.flatMap (blocks s.heap), s.heap.Keeps h b) :
    (∀ ssp ∈ l, SocketAt h ssp (s.given ssp)) ∧ l.flatMap (blocks h) = l.flatMap (blocks s.heap) := by
  have hall : ∀ ssp ∈ l, SocketAt h ssp (s.given ssp) ∧ blocks h ssp = blocks s.heap ssp := fun ssp hssp =>
    (hg.socket ssp (hl ssp hssp)).keeps fun b hb => hk b (List.mem_flatMap.mpr ⟨ssp, hssp, hb⟩)
  refine ⟨fun ssp hssp => (hall ssp hssp).1, ?_⟩
  rw [List.flatMap_congr fun ssp hssp => (hall ssp hssp).2]

/-- What leaves all but the blocks of one socket alone leaves the others alone. -/
theorem Good.keeps_rest (hg : Good s) (hssp : ssp ∈ s.sockets)
    (hframe : ∀ b n, s.heap.size b = some n → b ∉ blocks s.heap ssp → s.heap.Keeps h b) {ssp' : Nat}
    (hssp' : ssp' ∈ s.sockets.erase ssp) (b : Nat) (hb : b ∈ blocks s.heap ssp') : s.heap.Keeps h b := by
  have hrest : b ∈ (s.sockets.erase ssp).flatMap (blocks s.heap) := List.mem_flatMap.mpr ⟨ssp', hssp', hb⟩
  obtain ⟨n, hn⟩ := (hg.socket ssp' (List.mem_of_mem_erase hssp')).block_live hb
  exact hframe b n hn ((hg.nodup_split hssp).2.2 b hrest)

theorem Good.rest (hg : Good s) (hssp : ssp ∈ s.sockets)
    (hframe : ∀ b n, s.heap.size b = some n → b ∉ blocks s.heap ssp → s.heap.Keeps h b) :
    (∀ ssp' ∈ s.sockets.erase ssp, SocketAt h ssp' (s.given ssp')) ∧
      (s.sockets.erase ssp).flatMap (blocks h) = (s.sockets.erase ssp).flatMap (blocks s.heap) := by
  refine hg.others (fun ssp' h' => List.mem_of_mem_erase h') fun b hb => ?_
  obtain ⟨ssp', hssp', hb⟩ := List.mem_flatMap.mp hb
  exact hg.keeps_rest hssp hframe hssp' b hb

theorem Good.afterAddr (hg : Good s) (hssp : ssp ∈ s.sockets) {r : Ret}
    (hok : CallOk s.heap ssp (s.given ssp) side bytes answer r) : Good (s.afterAddr side ssp bytes r) := by
  obtain ⟨hrest, hblocks⟩ := hg.rest hssp hok.frame
  have hperm : (s.sockets.flatMap (blocks r.heap)).Perm (r.got ++ s.sockets.flatMap (blocks s.heap)) := by
    have hsplit : (s.sockets.flatMap (blocks r.heap)).Perm
        (blocks r.heap ssp ++ (s.sockets.erase ssp).flatMap (blocks r.heap)) :=
      (List.perm_cons_erase hssp).flatMap_right (blocks r.heap)
    rw [hblocks] at hsplit
    refine hsplit.trans ((hok.blocks.append_right _).trans ?_)
    rw [List.append_assoc]
    exact (blocks_split hssp).symm.append_left r.got
  have hsockets : ∀ ssp' ∈ s.sockets, SocketAt r.heap ssp' ((s.afterAddr side ssp bytes r).given ssp') := by
    intro ssp' hssp'
    by_cases hret : r.ret = 0
    · simp only [State.afterAddr, if_pos hret]
      by_cases he : ssp' = ssp
      · subst he
        rw [Function.update_self]
        exact hok.ok hret
      · rw [Function.update_of_ne he]
        exact hrest ssp' ((List.mem_erase_of_ne he).mpr hssp')
    · simp only [State.afterAddr, if_neg hret]
      rw [(hok.failed hret).2.2.2.1]
      exact hg.socket ssp' hssp'
  refine ⟨hsockets, hperm.nodup_iff.mpr ?_, ?_⟩
  · refine List.nodup_append.mpr ⟨hok.nodup, hg.nodup, fun b hb b' hb' he => ?_⟩
    subst he
    obtain ⟨n, hn⟩ := hg.live hb'
    exact absurd ((hok.fresh b hb).symm.trans hn) (by simp)
  · have hmine : stillLive r.heap s.mine = s.mine := stillLive_eq fun b hb => by
      have hin := hperm.mem_iff.mpr (List.mem_append_right _ (hg.mine.mem_iff.mp hb))
      obtain ⟨ssp', hssp', hb'⟩ := List.mem_flatMap.mp hin
      exact (hsockets ssp' hssp').block_live hb'
    simp only [State.afterAddr, hmine]
    exact (hg.mine.append_left r.got).trans hperm.symm

theorem Good.afterClose (hg : Good s) (hssp : ssp ∈ s.sockets) :
    ∃ h', sinClose s.heap ssp = some (0, h') ∧ CloseOk s.heap ssp h' ∧ Good (s.afterClose ssp h') := by
  obtain ⟨hown, hnd, hapart⟩ := hg.nodup_split hssp
  obtain ⟨h', hclose, hok⟩ := (hg.socket ssp hssp).close hown
  obtain ⟨hrest, hblocks⟩ := hg.rest hssp hok.frame
  refine ⟨h', hclose, hok, hrest, hblocks ▸ hnd, ?_⟩
  simp only [State.afterClose, hblocks]
  refine (List.Perm.filter _ (hg.mine.trans (blocks_split hssp))).trans ?_
  have hgone : stillLive h' (blocks s.heap ssp) = [] :=
    List.filter_eq_nil_iff.mpr fun b hb => by simp [hok.gone b hb]
  have hstay : stillLive h' ((s.sockets.erase ssp).flatMap (blocks s.heap)) =
      (s.sockets.erase ssp).flatMap (blocks s.heap) := stillLive_eq fun b hb => by
    obtain ⟨ssp', hssp', hb'⟩ := List.mem_flatMap.mp (hblocks ▸ hb)
    exact (hrest ssp' hssp').block_live hb'
  simp only [stillLive] at hgone hstay
  rw [List.filter_append, hgone, hstay, List.nil_append]

theorem Good.keeps_new (hg : Good s) (hm : s.heap.Malloc sizeofSinSocket p h')
    (hb : b ∈ s.sockets.flatMap (blocks s.heap)) : b ≠ p ∧ s.heap.Keeps (newSocket h' p) b := by
  obtain ⟨n, hn⟩ := hg.live hb
  exact ⟨hm.ne hn, (hm.others b (hm.ne hn)).trans (newSocket_keeps hm.size (hm.ne hn))⟩

theorem Good.afterSocket (hg : Good s) (sip : SinStance) (hgive : p ≠ 0 ∧ s.heap.Malloc sizeofSinSocket p h') :
    Good (s.afterSocket (sip, .ok (p, newSocket h' p))) := by
  obtain ⟨-, hm⟩ := hgive
  obtain ⟨hnew, hblock⟩ := newSocket_at hm
  obtain ⟨hold, hblocks⟩ := hg.others (fun _ => id) fun b hb => (hg.keeps_new hm hb).2
  have hfresh : p ∉ s.sockets.flatMap (blocks s.heap) := fun hp => (hg.keeps_new hm hp).1 rfl
  refine ⟨fun ssp hssp => ?_, ?_, ?_⟩
  · by_cases he : ssp = p
    · subst he
      simpa [State.afterSocket] using hnew
    · have hssp : ssp ∈ s.sockets := (List.mem_cons.mp hssp).resolve_left he
      simpa [State.afterSocket, he] using hold ssp hssp
  · simp only [State.afterSocket, List.flatMap_cons, hblock, hblocks]
    exact List.nodup_cons.mpr ⟨hfresh, hg.nodup⟩
  · simp only [State.afterSocket, List.flatMap_cons, hblock, hblocks]
    exact hg.mine.cons p

theorem call_eq (side : Side) (h : Heap Nat) (ssp : Nat) (bytes : List Nat) (answer : Answer) :
    Side.call side h ssp bytes answer = setAddr h (ssp + field side) bytes answer := by
  cases side <;> rfl

theorem InPlace.eq (hin : InPlace s (.setAddr side ssp bytes answer)) (p q : Nat) (h' : Heap Nat)
    (hp : ptr s.heap (ssp + field side) = some p) (ha : answer = some (q, h'))
    (hlen : s.heap.mem (p + addrlen) < bytes.length) : q = p := by
  subst ha
  exact hin p hp hlen

theorem Good.call (hg : Good s) (hssp : ssp ∈ s.sockets)
    (hans : MayAnswer s.heap (ptr s.heap (ssp + field side)) bytes answer) (hnull : NotNull answer)
    (hin : InPlace s (.setAddr side ssp bytes answer)) :
    CallOk s.heap ssp (s.given ssp) side bytes answer (Side.call side s.heap ssp bytes answer) := by
  rw [call_eq]
  exact (hg.socket ssp hssp).setAddr (hg.nodup_split hssp).1 hans hnull hin.eq

theorem sinSocket_cases (sip : SinStance) (domain type protocol : Int) (answer : Answer) :
    (∃ e, sinSocket sip domain type protocol answer = (sip, .error e)) ∨ ∃ p h', answer = some (p, h') ∧
      sinSocket sip domain type protocol answer = (SinNref.sinIncref sip, .ok (p, newSocket h' p)) := by
  unfold sinSocket
  rcases @SinNref.sinSocket_cases (Nat × Heap Nat) Nat sip domain type protocol answer with
    ⟨e, hcall, -⟩ | ⟨⟨p, h'⟩, rfl, hcall, -⟩
  · rw [hcall]
    exact .inl ⟨e, rfl⟩
  · rw [hcall]
    exact .inr ⟨p, h', rfl, rfl⟩

theorem Good.step (hg : Good s) (hs : Step s mv s') (hin : InPlace s mv) : Good s' := by
  cases hs with
  | @socket answer domain type protocol hgive =>
    rcases sinSocket_cases s.sip domain type protocol answer with ⟨e, hcall⟩ | ⟨p, h', rfl, hcall⟩
    · rw [hcall]
      exact ⟨hg.socket, hg.nodup, hg.mine⟩
    · rw [hcall]
      exact hg.afterSocket _ hgive
  | setAddr hssp hans hnull => exact hg.afterAddr hssp (hg.call hssp hans hnull hin)
  | close hssp hclose =>
    obtain ⟨h', hclose', -, hgood⟩ := hg.afterClose hssp
    obtain ⟨-, rfl⟩ := Prod.mk.inj (Option.some.inj (hclose'.symm.trans hclose))
    exact hgood
  | other hkeeps =>
    obtain ⟨hall, hblocks⟩ := hg.others (fun _ => id) fun b hb => hkeeps b (hg.mine.mem_iff.mpr hb)
    exact ⟨hall, hblocks.symm ▸ hg.nodup, hblocks.symm ▸ hg.mine⟩

theorem good_of_inPlace (h : machine.ReachableBy InPlace s) : Good s := by
  induction h with
  | init hs =>
    obtain ⟨hnone, hmine⟩ := hs
    refine ⟨fun ssp hssp => ?_, ?_, ?_⟩
    · rw [hnone] at hssp
      exact absurd hssp List.not_mem_nil
    · simp [hnone]
    · simp [hnone, hmine]
  | step _ hin hs ih => exact ih.step hs hin

-- ---------------------------------------------------------------------------
-- Each socket by itself
-- ---------------------------------------------------------------------------

def pointers (h : Heap Nat) (ssp : Nat) : SinAddr.SinSocket := ⟨ptr h (ssp + dst), ptr h (ssp + src)⟩

@[simp] theorem pointers_at (h : Heap Nat) (ssp : Nat) (side : Side) :
    (pointers h ssp).at side = ptr h (ssp + field side) := by
  cases side <;> rfl

/-- A socket, as it would be alone on the heap. -/
def State.view (s : State) (ssp : Nat) : SinAddr.State := ⟨s.heap, pointers s.heap ssp, s.given ssp⟩

theorem view_at (s : State) (ssp : Nat) (side : Side) : (s.view ssp).ssp.at side = ptr s.heap (ssp + field side) :=
  pointers_at s.heap ssp side

theorem at_ext {x y : SinAddr.SinSocket} (hat : ∀ side, x.at side = y.at side) : x = y := by
  have hdst := hat .dst
  have hsrc := hat .src
  cases x
  cases y
  cases hdst
  cases hsrc
  rfl

theorem InPlace.view (hin : InPlace s (.setAddr side ssp bytes answer)) :
    SinAddr.InPlace (s.view ssp) (.call side bytes answer) := by
  cases answer with
  | none => trivial
  | some given =>
    intro p hp hlen
    rw [view_at] at hp
    exact hin p hp hlen

/-- What leaves the blocks of a socket alone is the rest of the program to it. -/
theorem view_other (hv : SinAddr.machine.ReachableBy SinAddr.InPlace (s.view ssp))
    (hs : SocketAt s.heap ssp (s.given ssp)) (hk : ∀ b ∈ blocks s.heap ssp, s.heap.Keeps s'.heap b)
    (hgiven : s'.given ssp = s.given ssp) : SinAddr.machine.ReachableBy SinAddr.InPlace (s'.view ssp) := by
  have hptr := hs.ptr_keeps (hk ssp (self_mem_blocks s.heap ssp))
  have hsame : pointers s'.heap ssp = pointers s.heap ssp := at_ext fun side => by simp only [pointers_at, hptr]
  have hview : s'.view ssp = { s.view ssp with heap := s'.heap } := by simp only [State.view, hsame, hgiven]
  rw [hview]
  have hstep : SinAddr.Step (s.view ssp) (.other s'.heap) { s.view ssp with heap := s'.heap } := by
    refine .other fun side p hp => hk p (mem_blocks.mpr (.inl ⟨side, ?_⟩))
    rwa [view_at] at hp
  exact .step hv (show SinAddr.InPlace (s.view ssp) (.other s'.heap) from trivial) hstep

/-- A call on a socket is the call on it alone, after which the pointer changes
in the socket. -/
theorem view_call (hv : SinAddr.machine.ReachableBy SinAddr.InPlace (s.view ssp)) (hg : Good s) (hssp : ssp ∈ s.sockets)
    (hans : MayAnswer s.heap (ptr s.heap (ssp + field side)) bytes answer) (hnull : NotNull answer)
    (hin : InPlace s (.setAddr side ssp bytes answer)) :
    SinAddr.machine.ReachableBy SinAddr.InPlace
      ((s.afterAddr side ssp bytes (Side.call side s.heap ssp bytes answer)).view ssp) := by
  have hs := hg.socket ssp hssp
  have hnd := (hg.nodup_split hssp).1
  rw [call_eq, hs.setAddr_eq hnd hans hin.eq]
  rcases SinAddr.setAddr_cases (hs.stored side) hans hin.eq with hr | ⟨p, h', hr, hready, hold⟩
  · have hsame : s.heap.write (ssp + field side) ((ptr s.heap (ssp + field side)).getD 0) = s.heap := by
      rw [ptr_getD]
      exact Heap.write_self s.heap _
    simp only [hr, hsame]
    exact hv
  · have hw := hs.written hnd (ne_zero_of_ready hold hnull) hready
    rw [← view_at] at hans hr
    obtain ⟨ssp', hcall, hp, hother⟩ := SinAddr.call_ok hr
    have hstep : SinAddr.Step (s.view ssp) (.call side bytes answer)
        ((s.view ssp).after side bytes (side.call s.heap (s.view ssp).ssp bytes answer)) := .call hans
    have hcalled := ReachableBy.step hv hin.view hstep
    rw [hcall] at hcalled
    rw [view_at] at hr hother
    simp only [hr, Option.getD_some]
    generalize (fill h' p bytes).write (ssp + field side) p = k at hw ⊢
    have hsocket : ssp' = pointers k ssp := at_ext fun side' => by
      rw [pointers_at]
      rcases side.eq_or_other side' with rfl | rfl
      · exact hp.trans hw.ptr.symm
      · exact hother.trans hw.other.symm
    have hkeeps : ∀ side' q, ssp'.at side' = some q → (fill h' p bytes).Keeps k q := by
      intro side' q hq
      rcases side.eq_or_other side' with rfl | rfl
      · exact hw.keeps q (Option.some.inj (hp.symm.trans hq) ▸ hw.ne)
      · exact hw.keeps q (ne_of_nodup hnd (hother.symm.trans hq))
    have hput := hcalled.step (show SinAddr.InPlace _ (.other k) from trivial) (.other hkeeps)
    have hview : ∀ got, (s.afterAddr side ssp bytes ⟨0, none, k, got⟩).view ssp =
        ⟨k, pointers k ssp, Function.update (s.given ssp) side bytes⟩ := fun got => by
      simp [State.view, State.afterAddr]
    rw [hsocket] at hput
    rw [hview]
    exact hput

/-- Each open socket is one that the calls on it were made on alone. -/
theorem view_reachable (h : machine.ReachableBy InPlace s) (hssp : ssp ∈ s.sockets) :
    SinAddr.machine.ReachableBy SinAddr.InPlace (s.view ssp) := by
  induction h generalizing ssp with
  | init hs => exact absurd (hs.1 ▸ hssp) List.not_mem_nil
  | @step s mv s' hreach hin hstep ih =>
    have hg := good_of_inPlace hreach
    cases hstep with
    | @socket answer domain type protocol hgive =>
      rcases sinSocket_cases s.sip domain type protocol answer with ⟨e, hcall⟩ | ⟨p, h', rfl, hcall⟩
      · rw [hcall] at hssp ⊢
        exact ih hssp
      · rw [hcall] at hssp ⊢
        rcases eq_or_ne ssp p with rfl | hne
        · refine .init ⟨at_ext fun side => ?_, Function.update_self ..⟩
          rw [view_at]
          exact (newSocket_ptr h' ssp side).trans (by cases side <;> rfl)
        · have hold : ssp ∈ s.sockets := (List.mem_cons.mp hssp).resolve_left hne
          refine view_other (ih hold) (hg.socket ssp hold) (fun b hb => ?_) (Function.update_of_ne hne _ _)
          exact (hg.keeps_new hgive.2 (List.mem_flatMap.mpr ⟨ssp, hold, hb⟩)).2
    | @setAddr ssp' side bytes answer hssp' hans hnull =>
      rcases eq_or_ne ssp ssp' with rfl | hne
      · exact view_call (ih hssp) hg hssp hans hnull hin
      · have hframe := (hg.call hssp' hans hnull hin).frame
        have hrest : ssp ∈ s.sockets.erase ssp' := (List.mem_erase_of_ne hne).mpr hssp
        refine view_other (ih hssp) (hg.socket ssp hssp) (hg.keeps_rest hssp' hframe hrest) ?_
        simp only [State.afterAddr]
        split
        · exact Function.update_of_ne hne _ _
        · rfl
    | @close ssp' ret h hssp' hclose =>
      obtain ⟨h', hclose', hok, -⟩ := hg.afterClose hssp'
      obtain ⟨-, rfl⟩ := Prod.mk.inj (Option.some.inj (hclose'.symm.trans hclose))
      exact view_other (ih (List.mem_of_mem_erase hssp)) (hg.socket ssp (List.mem_of_mem_erase hssp))
        (hg.keeps_rest hssp' hok.frame hssp) rfl
    | other hkeeps =>
      refine view_other (ih hssp) (hg.socket ssp hssp) (fun b hb => hkeeps b ?_) rfl
      exact hg.mine.mem_iff.mpr (List.mem_flatMap.mpr ⟨ssp, hssp, hb⟩)

-- ---------------------------------------------------------------------------
-- Every run
-- ---------------------------------------------------------------------------

/-- In every run in which addresses grow in place each open socket is as it was
left, a call on one does what it is to do and keeps all that is not that
socket's, `sin_close` frees what is the socket's own and never what is no
block, which it would if called again, and nothing is left when all are closed. -/
theorem sockets_safe (h : machine.ReachableBy InPlace s) :
    Good s ∧ (s.sockets = [] → s.mine = []) ∧ ∀ ssp ∈ s.sockets,
      (∃ h', sinClose s.heap ssp = some (0, h') ∧ CloseOk s.heap ssp h' ∧ sinClose h' ssp = none) ∧
      ∀ side bytes answer, MayAnswer s.heap (ptr s.heap (ssp + field side)) bytes answer → NotNull answer →
        InPlace s (.setAddr side ssp bytes answer) →
        CallOk s.heap ssp (s.given ssp) side bytes answer (Side.call side s.heap ssp bytes answer) := by
  have hg := good_of_inPlace h
  refine ⟨hg, fun hnone => ?_, fun ssp hssp => ⟨?_, fun side bytes answer => hg.call hssp⟩⟩
  · have hmine := hg.mine
    rw [hnone] at hmine
    exact hmine.eq_nil
  · obtain ⟨h', hclose, hok, -⟩ := hg.afterClose hssp
    exact ⟨h', hclose, hok, sinClose_dead (hok.gone ssp (self_mem_blocks s.heap ssp))⟩

-- ---------------------------------------------------------------------------
-- Two sockets
-- ---------------------------------------------------------------------------

/-- A socket is put at the end of the heap. -/
def State.opened (s : State) (p : Nat) (hp : s.heap.Below p) : State :=
  s.afterSocket (sinSocket s.sip 2 2 0 (some (p, s.heap.last p sizeofSinSocket hp)))

/-- So is an address, which is new or gets more room. -/
def State.called (s : State) (side : Side) (ssp : Nat) (bytes : List Nat) (p : Nat) (hp : s.heap.Below p) : State :=
  s.afterAddr side ssp bytes
    (Side.call side s.heap ssp bytes (some (p, s.heap.last p (sizeofSinAddr + bytes.length) hp)))

theorem reachable_opened (h : machine.ReachableBy InPlace s) (hp : s.heap.Below p) (hfresh : s.heap.size p = none)
    (hnull : p ≠ 0) : machine.ReachableBy InPlace (s.opened p hp) := by
  have hgive : MayGive s.heap (some (p, s.heap.last p sizeofSinSocket hp)) := ⟨hnull, Heap.malloc_last hp hfresh⟩
  exact .step h (show InPlace s (.socket 2 2 0 _) from trivial) (.socket hgive)

theorem reachable_new (h : machine.ReachableBy InPlace s) (hssp : ssp ∈ s.sockets) (hp : s.heap.Below p)
    (hfresh : s.heap.size p = none) (hnull : p ≠ 0) (hptr : ptr s.heap (ssp + field side) = none) :
    machine.ReachableBy InPlace (s.called side ssp bytes p hp) := by
  have hans : MayAnswer s.heap (ptr s.heap (ssp + field side)) bytes
      (some (p, s.heap.last p (sizeofSinAddr + bytes.length) hp)) := by
    rw [hptr]
    exact Heap.malloc_last hp hfresh
  have hin : InPlace s (.setAddr side ssp bytes (some (p, s.heap.last p (sizeofSinAddr + bytes.length) hp))) := by
    intro q hq
    rw [hptr] at hq
    cases hq
  exact .step h hin (.setAddr hssp hans hnull)

theorem reachable_grown (h : machine.ReachableBy InPlace s) (hssp : ssp ∈ s.sockets) (hp : s.heap.Below p)
    (hnull : p ≠ 0) (hptr : ptr s.heap (ssp + field side) = some p) :
    machine.ReachableBy InPlace (s.called side ssp bytes p hp) := by
  have hans : MayAnswer s.heap (ptr s.heap (ssp + field side)) bytes
      (some (p, s.heap.last p (sizeofSinAddr + bytes.length) hp)) := by
    rw [hptr]
    exact fun _ => Heap.realloc_last hp
  have hin : InPlace s (.setAddr side ssp bytes (some (p, s.heap.last p (sizeofSinAddr + bytes.length) hp))) := by
    intro q hq _
    exact Option.some.inj (hptr.symm.trans hq)
  exact .step h hin (.setAddr hssp hans hnull)

def noSocket : State := ⟨SinAddr.unbound.heap, ⟨1⟩, [], fun _ _ => [], []⟩

theorem noSocket_below : noSocket.heap.Below 8 := fun _ _ _ hn => by cases hn

def oneSocket : State := noSocket.opened 8 noSocket_below

theorem oneSocket_below : oneSocket.heap.Below 40 := (noSocket_below.next (Nat.le_refl 40)).congr rfl

def twoSockets : State := oneSocket.opened 40 oneSocket_below

theorem twoSockets_below : twoSockets.heap.Below 72 := (oneSocket_below.next (Nat.le_refl 72)).congr rfl

def oneBound : State := twoSockets.called .src 40 [5] 72 twoSockets_below

theorem oneBound_below : oneBound.heap.Below 97 := (twoSockets_below.next (Nat.le_refl 97)).congr rfl

def bothBound : State := oneBound.called .src 8 [7] 97 oneBound_below

theorem bothBound_below : bothBound.heap.Below 97 := oneBound_below.same.congr rfl

def grown : State := bothBound.called .src 8 [7, 8] 97 bothBound_below

theorem grown_below : grown.heap.Below 123 := (bothBound_below.next (Nat.le_refl 123)).congr rfl

def connected : State := grown.called .dst 8 [9] 123 grown_below

theorem reachable_connected : machine.ReachableBy InPlace connected := by
  have hnone : machine.ReachableBy InPlace noSocket := .init ⟨rfl, rfl⟩
  have hone := reachable_opened hnone noSocket_below rfl (by decide)
  have htwo := reachable_opened hone oneSocket_below rfl (by decide)
  have hbound : machine.ReachableBy InPlace oneBound :=
    reachable_new htwo List.mem_cons_self twoSockets_below rfl (by decide) rfl
  have hboth : machine.ReachableBy InPlace bothBound :=
    reachable_new hbound (List.mem_cons_of_mem 40 List.mem_cons_self) oneBound_below rfl (by decide) rfl
  have hgrown : machine.ReachableBy InPlace grown :=
    reachable_grown hboth (List.mem_cons_of_mem 40 List.mem_cons_self) bothBound_below (by decide) rfl
  exact reachable_new hgrown (List.mem_cons_of_mem 40 List.mem_cons_self) grown_below rfl (by decide) rfl

/-- One is closed, a call on the other fails, and it is closed. -/
theorem sockets_safe_connected : StoredAt connected.heap 97 [7, 8] ∧ StoredAt connected.heap 123 [9] ∧
    ∃ h h', sinClose connected.heap 40 = some (0, h) ∧ (sinConnect h 8 [9, 9] none).heap = h ∧
      StoredAt h 97 [7, 8] ∧ sinClose h 8 = some (0, h') ∧ sinClose h' 8 = none ∧
      ((connected.afterClose 40 h).afterClose 8 h').mine = [] := by
  obtain ⟨hgood, -, hcalls⟩ := sockets_safe reachable_connected
  have hmem : 8 ∈ connected.sockets := List.mem_cons_of_mem 40 List.mem_cons_self
  obtain ⟨⟨h, hclose, hok, -⟩, -⟩ := hcalls 40 List.mem_cons_self
  have hone : machine.ReachableBy InPlace (connected.afterClose 40 h) :=
    .step reachable_connected (show InPlace connected (.close 40) from trivial) (.close List.mem_cons_self hclose)
  obtain ⟨hgood', -, hcalls'⟩ := sockets_safe hone
  have hmem' : 8 ∈ (connected.afterClose 40 h).sockets := List.mem_cons_self
  obtain ⟨⟨h', hclose', -, hagain⟩, hset⟩ := hcalls' 8 hmem'
  have hnone : machine.ReachableBy InPlace ((connected.afterClose 40 h).afterClose 8 h') :=
    .step hone (show InPlace _ (.close 8) from trivial) (.close hmem' hclose')
  have hkeeps := hok.frame 8 sizeofSinSocket rfl (by decide)
  have hptr : ∀ side, ptr h (8 + field side) = ptr connected.heap (8 + field side) :=
    fun side => (hgood.socket 8 hmem).ptr_keeps hkeeps side
  have hsrc : StoredAt h 97 [7, 8] := by
    have hstored := (hgood'.socket 8 hmem').stored .src
    rwa [show (connected.afterClose 40 h).heap = h from rfl, hptr .src] at hstored
  have hdst : StoredAt h 123 [9] := by
    have hstored := (hgood'.socket 8 hmem').stored .dst
    rwa [show (connected.afterClose 40 h).heap = h from rfl, hptr .dst] at hstored
  have hfail : (sinConnect h 8 [9, 9] none).ret = -1 := by
    have h123 : ptr h (8 + dst) = some 123 := (hptr .dst).trans rfl
    simp [sinConnect, setAddr, h123, hdst.addrlen]
  refine ⟨(hgood.socket 8 hmem).stored .src, (hgood.socket 8 hmem).stored .dst, h, h', hclose, ?_, hsrc, hclose',
    hagain, (sockets_safe hnone).2.1 rfl⟩
  exact ((hset .dst [9, 9] none trivial trivial trivial).failed (hfail ▸ by decide)).2.2.2.1

end Libsinet.SinSockets
