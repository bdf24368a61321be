import Mathlib.Logic.Function.Basic
import Mathlib.Data.List.Nodup
import Mathlib.Data.List.Infix

/-!
# NULL-terminated chains

A store of link fields is a function from nodes to the node they point at.
`Linked next a l` says that following the links from `a` visits exactly the
nodes of `l`, in order, and then reaches NULL. The chain determines the list,
no node occurs in it twice, and what happens to links outside it is no matter.
-/

variable {P : Type u} {next next' : P → Option P}

def Linked (next : P → Option P) : Option P → List P → Prop
  | a, [] => a = none
  | a, p :: l => a = some p ∧ Linked next (next p) l

namespace Linked

@[simp] theorem nil_iff : Linked next a [] ↔ a = none := Iff.rfl

@[simp] theorem cons_iff : Linked next a (p :: l) ↔ a = some p ∧ Linked next (next p) l := Iff.rfl

theorem head_eq (h : Linked next a l) : a = l.head? := by
  cases l with
  | nil => exact h
  | cons p l => exact h.1

theorem none_iff (h : Linked next a l) : a = none ↔ l = [] := by
  rw [h.head_eq, List.head?_eq_none_iff]

theorem eq_cons (h : Linked next (some p) l) : ∃ l', l = p :: l' ∧ Linked next (next p) l' := by
  cases l with
  | nil => cases h
  | cons q l =>
    obtain ⟨hq, h⟩ := h
    cases hq
    exact ⟨l, rfl, h⟩

theorem unique (h : Linked next a l) (h' : Linked next a l') : l = l' := by
  induction l generalizing a l' with
  | nil =>
    cases h
    exact ((none_iff h').mp rfl).symm
  | cons p l ih =>
    obtain ⟨rfl, h⟩ := h
    obtain ⟨m, rfl, hm⟩ := eq_cons h'
    rw [ih h hm]

/-- Only the links of the chain's own nodes matter. -/
theorem congr (h : Linked next a l) (he : ∀ p ∈ l, next' p = next p) : Linked next' a l := by
  induction l generalizing a with
  | nil => exact h
  | cons p l ih =>
    obtain ⟨rfl, h⟩ := h
    refine ⟨rfl, ?_⟩
    rw [he p (by simp)]
    exact ih h fun q hq => he q (List.mem_cons_of_mem _ hq)

theorem drop (h : Linked next a (l ++ p :: m)) : Linked next (some p) (p :: m) := by
  induction l generalizing a with
  | nil => exact ⟨rfl, h.2⟩
  | cons q l ih => exact ih h.2

/-- A chain that came back to a node would never end. -/
theorem nodup (h : Linked next a l) : l.Nodup := by
  induction l generalizing a with
  | nil => exact List.nodup_nil
  | cons p l ih =>
    obtain ⟨rfl, h⟩ := h
    refine List.nodup_cons.mpr ⟨fun hp => ?_, ih h⟩
    obtain ⟨l₁, l₂, rfl⟩ := List.append_of_mem hp
    have hlong : Linked next (some p) (p :: (l₁ ++ p :: l₂)) := ⟨rfl, h⟩
    have hlen := congrArg List.length (hlong.unique h.drop)
    simp only [List.length_cons, List.length_append] at hlen
    omega

/-- The first `n` nodes that following the links from a node visits. -/
def walk (next : P → Option P) : Nat → Option P → List P
  | 0, _ => []
  | _ + 1, none => []
  | n + 1, some p => p :: walk next n (next p)

theorem walk_eq (h : Linked next a l) (hn : l.length ≤ n) : walk next n a = l := by
  induction l generalizing a n with
  | nil =>
    cases h
    cases n <;> rfl
  | cons p l ih =>
    obtain ⟨rfl, h⟩ := h
    cases n with
    | zero => simp at hn
    | succ n =>
      rw [walk, ih h (by simpa using hn)]

theorem walk_length_le : (walk next n a).length ≤ n := by
  induction n generalizing a with
  | zero => exact Nat.le_refl 0
  | succ n ih => cases a <;> simp [walk, ih]

variable [DecidableEq P]

instance decidable (next : P → Option P) : (a : Option P) → (l : List P) →
    Decidable (Linked next a l)
  | a, [] => inferInstanceAs (Decidable (a = none))
  | _, p :: l => @instDecidableAnd _ _ _ (decidable next (next p) l)

theorem update_of_notMem (h : Linked next a l) (hp : p ∉ l) :
    Linked (Function.update next p b) a l :=
  h.congr fun _ hq => Function.update_of_ne (ne_of_mem_of_not_mem hq hp) _ _

theorem splice (h : Linked next a l) (ht : t ∈ l.getLast?) (hb : Linked next b m)
    (hd : ∀ p ∈ l, p ∉ m) : Linked (Function.update next t b) a (l ++ m) := by
  have htl : t ∈ l := List.mem_of_getLast? ht
  induction l generalizing a with
  | nil => simp at ht
  | cons p l ih =>
    obtain ⟨rfl, h⟩ := h
    have hnd : (p :: l).Nodup := nodup (a := some p) ⟨rfl, h⟩
    refine ⟨rfl, ?_⟩
    cases l with
    | nil =>
      obtain rfl : p = t := by simpa using ht
      rw [Function.update_self]
      exact hb.update_of_notMem (hd p (by simp))
    | cons q l =>
      have ht' : t ∈ (q :: l).getLast? := by simpa using ht
      have hpt : p ≠ t := by
        rintro rfl
        exact (List.nodup_cons.mp hnd).1 (List.mem_of_getLast? ht')
      rw [Function.update_of_ne hpt]
      exact ih h ht' (fun r hr => hd r (List.mem_cons_of_mem _ hr)) (List.mem_of_getLast? ht')

theorem concat (h : Linked next a l) (ht : t ∈ l.getLast?) (hp : next p = none) (hl : p ∉ l) :
    Linked (Function.update next t (some p)) a (l ++ [p]) :=
  h.splice ht ⟨rfl, hp⟩ fun q hq => by
    rw [List.mem_singleton]
    exact ne_of_mem_of_not_mem hq hl

end Linked
