import Mathlib.Tactic.Common
import Mathlib.Data.Nat.Notation
import Mathlib.Logic.Function.Basic

/-!
# A heap of blocks

A memory of cells and the blocks in it that are live, none of which overlaps
another. What the allocator answers comes from outside: `Malloc` and `Realloc`
are the answers it may give. A block may be moved to where there was none when
it is resized, and the cells of no live block may hold anything.
-/

structure Heap (C : Type u) where
  mem : ℕ → C
  size : ℕ → Option ℕ
  apart : ∀ a b n m, size a = some n → size b = some m → a ≠ b → a + n ≤ b ∨ b + m ≤ a

namespace Heap

variable {C : Type u}

-- ---------------------------------------------------------------------------
-- Cells
-- ---------------------------------------------------------------------------

def write (h : Heap C) (a : ℕ) (c : C) : Heap C := { h with mem := Function.update h.mem a c }

def writeList (h : Heap C) (a : ℕ) : List C → Heap C
  | [] => h
  | c :: l => writeList (h.write a c) (a + 1) l

def read (h : Heap C) (a : ℕ) : ℕ → List C
  | 0 => []
  | n + 1 => h.mem a :: read h (a + 1) n

variable {h h' h'' : Heap C} {a b p q n : ℕ} {l : List C} {c : C}

@[simp] theorem write_size (h : Heap C) (a : ℕ) (c : C) : (h.write a c).size = h.size := rfl

@[simp] theorem write_mem (h : Heap C) (a : ℕ) (c : C) : (h.write a c).mem a = c := Function.update_self _ _ _

theorem write_mem_ne (hb : b ≠ a) : (h.write a c).mem b = h.mem b := Function.update_of_ne hb _ _

@[simp] theorem writeList_size (h : Heap C) (a : ℕ) (l : List C) : (h.writeList a l).size = h.size := by
  induction l generalizing h a with
  | nil => rfl
  | cons c l ih => exact ih _ _

theorem writeList_mem (hb : b < a ∨ a + l.length ≤ b) : (h.writeList a l).mem b = h.mem b := by
  induction l generalizing h a with
  | nil => rfl
  | cons c l ih =>
    rw [List.length_cons] at hb
    have hne : b ≠ a := by omega
    rw [writeList, ih (by omega), write_mem_ne hne]

theorem writeList_mem_at {i : ℕ} (hi : i < l.length) : (h.writeList a l).mem (a + i) = l[i] := by
  induction l generalizing h a i with
  | nil => cases hi
  | cons c l ih =>
    cases i with
    | zero =>
      have hfirst := @writeList_mem _ (h.write a c) (a + 1) a l (.inl (Nat.lt_succ_self a))
      rw [Nat.add_zero, writeList, hfirst, write_mem]
      rfl
    | succ i =>
      have hnext : a + (i + 1) = a + 1 + i := by omega
      rw [writeList, hnext, ih (Nat.lt_of_succ_lt_succ hi)]
      rfl

theorem read_congr (hc : ∀ i < n, h'.mem (a + i) = h.mem (a + i)) : h'.read a n = h.read a n := by
  induction n generalizing a with
  | zero => rfl
  | succ n ih =>
    have hrest : h'.read (a + 1) n = h.read (a + 1) n := by
      refine ih fun i hi => ?_
      rw [Nat.add_assoc, Nat.add_comm 1 i]
      exact hc (i + 1) (Nat.succ_lt_succ hi)
    have hfirst : h'.mem a = h.mem a := hc 0 (Nat.succ_pos n)
    rw [read, read, hrest, hfirst]

theorem read_writeList (h : Heap C) (a : ℕ) (l : List C) : (h.writeList a l).read a l.length = l := by
  induction l generalizing h a with
  | nil => rfl
  | cons c l ih =>
    have hfirst := @writeList_mem _ (h.write a c) (a + 1) a l (.inl (Nat.lt_succ_self a))
    rw [List.length_cons, read, writeList, ih, hfirst, write_mem]

-- ---------------------------------------------------------------------------
-- Blocks
-- ---------------------------------------------------------------------------

/-- The block at `a`, if there is one, is left as it is. -/
structure Keeps (h h' : Heap C) (a : ℕ) : Prop where
  size : h'.size a = h.size a
  mem : ∀ n, h.size a = some n → ∀ i < n, h'.mem (a + i) = h.mem (a + i)

theorem Keeps.refl (h : Heap C) (a : ℕ) : h.Keeps h a := ⟨rfl, fun _ _ _ _ => rfl⟩

theorem Keeps.trans (hk : h.Keeps h' a) (hk' : h'.Keeps h'' a) : h.Keeps h'' a :=
  ⟨hk'.size.trans hk.size, fun n hn i hi => (hk'.mem n (hk.size.trans hn) i hi).trans (hk.mem n hn i hi)⟩

theorem write_self (h : Heap C) (a : ℕ) : h.write a (h.mem a) = h := by
  simp [write]

theorem write_comm (hb : b ≠ a) (c d : C) : (h.write a c).write b d = (h.write b d).write a c := by
  simp only [write, Function.update_comm hb]

theorem writeList_write (hb : b < a ∨ a + l.length ≤ b) (c : C) :
    (h.write b c).writeList a l = (h.writeList a l).write b c := by
  induction l generalizing h a with
  | nil => rfl
  | cons d l ih =>
    rw [List.length_cons] at hb
    have hne : a ≠ b := by omega
    rw [writeList, writeList, write_comm hne, ih (by omega)]

theorem keeps_writeList (hp : h.size p = some n) (ha : p ≤ a) (hn : a + l.length ≤ p + n) (hb : b ≠ p) :
    h.Keeps (h.writeList a l) b := by
  refine ⟨by rw [writeList_size], fun m hm i hi => writeList_mem ?_⟩
  rcases h.apart b p m n hm hp hb with hle | hle
  · exact .inl (by omega)
  · exact .inr (by omega)

theorem keeps_write (hp : h.size p = some n) (ha : p ≤ a) (hn : a < p + n) (hb : b ≠ p) :
    h.Keeps (h.write a c) b := @keeps_writeList _ _ _ _ _ _ [c] hp ha hn hb

-- ---------------------------------------------------------------------------
-- The allocator
-- ---------------------------------------------------------------------------

/-- `p` may be the answer to a request for `n` cells, `h'` being the heap after
it. -/
structure Malloc (h : Heap C) (n p : ℕ) (h' : Heap C) : Prop where
  fresh : h.size p = none
  size : h'.size p = some n
  others : ∀ a, a ≠ p → h.Keeps h' a

/-- `q` may be the answer to a request for the block at `p` to have `n` cells. -/
structure Realloc (h : Heap C) (p n q : ℕ) (h' : Heap C) : Prop where
  fresh : q ≠ p → h.size q = none
  freed : q ≠ p → h'.size p = none
  size : h'.size q = some n
  copied : ∀ m, h.size p = some m → ∀ i, i < m → i < n → h'.mem (q + i) = h.mem (p + i)
  others : ∀ a, a ≠ p → a ≠ q → h.Keeps h' a

theorem apart_of_free (h : Heap C) (p a b n m : ℕ) (ha : Function.update h.size p none a = some n)
    (hb : Function.update h.size p none b = some m) (hne : a ≠ b) : a + n ≤ b ∨ b + m ≤ a := by
  have hlive : ∀ a n, Function.update h.size p none a = some n → h.size a = some n := by
    intro a n ha
    rcases eq_or_ne a p with rfl | hap
    · simp at ha
    · simpa [hap] using ha
  exact h.apart a b n m (hlive a n ha) (hlive b m hb) hne

/-- Only a block can be freed. Its cells stay, until somebody gets them. -/
def free (h : Heap C) (p : ℕ) : Option (Heap C) :=
  match h.size p with
  | none => none
  | some _ => some ⟨h.mem, Function.update h.size p none, h.apart_of_free p⟩

theorem size_free (hfree : h.free p = some h') (ha : h.size a = none) : h'.size a = none := by
  unfold free at hfree
  split at hfree
  · cases hfree
  · cases hfree
    rcases eq_or_ne a p with rfl | hap
    · exact Function.update_self _ _ _
    · exact (Function.update_of_ne hap _ _).trans ha

/-- `h'` is `h` without its block at `p`. -/
structure Frees (h : Heap C) (p : ℕ) (h' : Heap C) : Prop where
  live : ∃ n, h.size p = some n
  gone : h'.size p = none
  others : ∀ a, a ≠ p → h.Keeps h' a

theorem free_live (hp : h.size p = some n) : ∃ h', h.free p = some h' ∧ h.Frees p h' := by
  refine ⟨⟨h.mem, Function.update h.size p none, h.apart_of_free p⟩, ?_, ⟨n, hp⟩, Function.update_self _ _ _, ?_⟩
  · simp only [free, hp]
  · exact fun a ha => ⟨Function.update_of_ne ha _ _, fun _ _ _ _ => rfl⟩

theorem Malloc.ne (hm : h.Malloc n p h') (ha : h.size a = some k) : a ≠ p := by
  rintro rfl
  rw [hm.fresh] at ha
  cases ha

/-- All blocks but one at `p` end before `p`. -/
def Below (h : Heap C) (p : ℕ) : Prop := ∀ a n, a ≠ p → h.size a = some n → a + n ≤ p

theorem Below.apart (hp : h.Below p) (k a b n m : ℕ) (ha : Function.update h.size p (some k) a = some n)
    (hb : Function.update h.size p (some k) b = some m) (hne : a ≠ b) : a + n ≤ b ∨ b + m ≤ a := by
  rcases eq_or_ne a p with rfl | hap
  · rw [Function.update_of_ne hne.symm] at hb
    exact .inr (hp b m hne.symm hb)
  · rw [Function.update_of_ne hap] at ha
    rcases eq_or_ne b p with rfl | hbp
    · exact .inl (hp a n hap ha)
    · rw [Function.update_of_ne hbp] at hb
      exact h.apart a b n m ha hb hne

/-- The block at the end of the heap, new or with a new size. -/
def last (h : Heap C) (p k : ℕ) (hp : h.Below p) : Heap C := ⟨h.mem, Function.update h.size p (some k), hp.apart k⟩

theorem keeps_last (hp : h.Below p) (ha : a ≠ p) : h.Keeps (h.last p n hp) a :=
  ⟨Function.update_of_ne ha _ _, fun _ _ _ _ => rfl⟩

theorem malloc_last (hp : h.Below p) (hfresh : h.size p = none) : h.Malloc n p (h.last p n hp) :=
  ⟨hfresh, Function.update_self .., fun _ => keeps_last hp⟩

theorem realloc_last (hp : h.Below p) : h.Realloc p n p (h.last p n hp) :=
  ⟨fun h0 => absurd rfl h0, fun h0 => absurd rfl h0, Function.update_self .., fun _ _ _ _ _ => rfl,
    fun _ ha _ => keeps_last hp ha⟩

/-- The next block may begin where the last one ends. -/
theorem Below.next (hp : h.Below p) (hq : p + n ≤ q) : (h.last p n hp).Below q := by
  intro a m _ ha
  rcases eq_or_ne a p with rfl | hap
  · have hself : (h.last a n hp).size a = some n := Function.update_self _ _ _
    obtain rfl : n = m := Option.some.inj (hself.symm.trans ha)
    exact hq
  · have hend := hp a m hap ((Function.update_of_ne hap _ _).symm.trans ha)
    omega

theorem Below.same (hp : h.Below p) : (h.last p n hp).Below p := fun a m hap ha =>
  hp a m hap ((Function.update_of_ne hap _ _).symm.trans ha)

theorem Below.congr (hp : h.Below p) (hsize : h'.size = h.size) : h'.Below p := fun a n hap ha =>
  hp a n hap (hsize ▸ ha)

def one (mem : ℕ → C) (p n : ℕ) : Heap C where
  mem := mem
  size a := if a = p then some n else none
  apart a b _ _ ha hb hne := by
    have hap : a = p := (Option.ite_none_right_eq_some.mp ha).1
    have hbp : b = p := (Option.ite_none_right_eq_some.mp hb).1
    exact absurd (hap.trans hbp.symm) hne

end Heap
