import Libsinet.PktSorter
import Libsinet.TxThread

/-!
# Many lists over one store

All lists of an instance link their nodes through the same `sin_next` fields.
`Separate` is what keeps them apart, and each operation on one or two of them
keeps it.
-/

namespace Libsinet

variable {K : Type u} {P : Type v}

/-- Every list holds its nodes, no node is on two of them, and a node on none
has a NULL link. -/
structure Separate (m : Links P) (L : K → SinList P) (A : K → List P) : Prop where
  holds : ∀ k, (L k).Holds m (A k)
  once : ∀ p j k, p ∈ A j → p ∈ A k → j = k
  loose : ∀ p, (∀ k, p ∉ A k) → m p = none

section
variable [DecidableEq K] {A : K → List P} {i j k : K} {q : P} {l : List P}

theorem mem_append_at : q ∈ Function.update A k (A k ++ l) i ↔ q ∈ A i ∨ (i = k ∧ q ∈ l) := by
  by_cases hi : i = k
  · subst hi
    simp
  · simp [hi]

theorem mem_splice_at (hjk : j ≠ k) :
    q ∈ Function.update (Function.update A k (A k ++ A j)) j [] i ↔
      (i ≠ j ∧ q ∈ A i) ∨ (i = k ∧ q ∈ A j) := by
  by_cases hi : i = j
  · subst hi
    simp [hjk]
  · rw [Function.update_of_ne hi, mem_append_at]
    simp [hi]

end

namespace Separate

variable [DecidableEq K] [DecidableEq P] {m : Links P} {L : K → SinList P} {A : K → List P}
  {i j k : K} {p q : P} {l : List P}

omit [DecidableEq K] [DecidableEq P] in
theorem nodes_eq (h : Separate m L A) : (fun k => (L k).nodes m) = A :=
  funext fun k => (h.holds k).nodes_eq

omit [DecidableEq K] [DecidableEq P] in
theorem nodup (h : Separate m L A) (k : K) : (A k).Nodup := (h.holds k).chain.nodup

omit [DecidableEq K] in
theorem count_eq (h : Separate m L A) (hp : p ∈ A k) : (A k).count p = 1 :=
  List.count_eq_one_of_mem (h.nodup k) hp

omit [DecidableEq P] in
theorem mem_pop_at (h : Separate m L A) (hk : A k = p :: l) :
    q ∈ Function.update A k l i ↔ q ∈ A i ∧ q ≠ p := by
  by_cases hi : i = k
  · subst hi
    have hp : p ∉ l := (List.nodup_cons.mp (hk ▸ h.nodup i)).1
    rw [Function.update_self, hk]
    constructor
    · intro hq
      exact ⟨List.mem_cons_of_mem _ hq, ne_of_mem_of_not_mem hq hp⟩
    · rintro ⟨hq, hne⟩
      exact (List.mem_cons.mp hq).resolve_left hne
  · rw [Function.update_of_ne hi]
    refine ⟨fun hq => ⟨hq, ?_⟩, And.left⟩
    rintro rfl
    exact hi (h.once q i k hq (hk ▸ List.mem_cons_self))

theorem append (h : Separate m L A) (k : K) (hp : ∀ j, p ∉ A j) (hfits : (A k ++ [p]).length < 2 ^ 32) :
    Separate (sinListAppend m (L k) p).1 (Function.update L k (sinListAppend m (L k) p).2)
      (Function.update A k (A k ++ [p])) := by
  constructor
  · intro i
    by_cases hi : i = k
    · subst hi
      have happ := sinListAppend_holds (h.holds i) (h.loose p hp) (hp i) hfits
      simpa using happ
    · simp only [Function.update_of_ne hi]
      refine (h.holds i).congr fun q hq => sinListAppend_frame (h.holds k).toSpans fun hqk => hi ?_
      exact h.once q i k hq hqk
  · intro q i i' hq hq'
    rw [mem_append_at, List.mem_singleton] at hq hq'
    rcases hq with hq | ⟨hi, rfl⟩ <;> rcases hq' with hq' | ⟨hi', he⟩
    · exact h.once q i i' hq hq'
    · exact absurd (he ▸ hq) (hp i)
    · exact absurd hq' (hp i')
    · rw [hi, hi']
  · intro q hq
    have hold : ∀ i, q ∉ A i := fun i hi => hq i (mem_append_at.mpr (.inl hi))
    rw [sinListAppend_frame (h.holds k).toSpans (hold k)]
    exact h.loose q hold

theorem pop (h : Separate m L A) (hk : A k = p :: l) {X : SinList P}
    (hX : X.Holds (Function.update m p none) l) :
    Separate (Function.update m p none) (Function.update L k X) (Function.update A k l) := by
  constructor
  · intro i
    by_cases hi : i = k
    · subst hi
      simpa using hX
    · simp only [Function.update_of_ne hi]
      refine (h.holds i).congr fun q hq => Function.update_of_ne ?_ _ _
      rintro rfl
      exact hi (h.once q i k hq (hk ▸ List.mem_cons_self))
  · intro q i i' hq hq'
    rw [h.mem_pop_at hk] at hq hq'
    exact h.once q i i' hq.1 hq'.1
  · intro q hq
    by_cases hqp : q = p
    · simp [hqp]
    · rw [Function.update_of_ne hqp]
      exact h.loose q fun i hi => hq i ((h.mem_pop_at hk).mpr ⟨hi, hqp⟩)

theorem splice (h : Separate m L A) (hjk : j ≠ k) (hj : A j ≠ []) (hfits : (A k ++ A j).length < 2 ^ 32) :
    Separate (splice m (L k) (L j)).1
      (Function.update (Function.update L k (Libsinet.splice m (L k) (L j)).2) j .reset)
      (Function.update (Function.update A k (A k ++ A j)) j []) := by
  constructor
  · intro i
    by_cases hij : i = j
    · subst hij
      simpa using SinList.reset_holds _
    · by_cases hik : i = k
      · subst hik
        have hd : ∀ p ∈ A i, p ∉ A j := fun p hp hp' => hij (h.once p i j hp hp')
        have hboth := splice_holds (h.holds i) (h.holds j) hd hj hfits
        simpa [hij] using hboth
      · simp only [Function.update_of_ne hij, Function.update_of_ne hik]
        exact (h.holds i).congr fun q hq => splice_frame (h.holds k).toSpans fun hqk => hik (h.once q i k hq hqk)
  · intro q i i' hq hq'
    rw [mem_splice_at hjk] at hq hq'
    rcases hq with ⟨hi, hq⟩ | ⟨hi, hq⟩ <;> rcases hq' with ⟨hi', hq'⟩ | ⟨hi', hq'⟩
    · exact h.once q i i' hq hq'
    · exact absurd (h.once q i j hq hq') hi
    · exact absurd (h.once q i' j hq' hq) hi'
    · rw [hi, hi']
  · intro q hq
    have hold : ∀ i, q ∉ A i := by
      intro i hi
      by_cases hij : i = j
      · exact hq k ((mem_splice_at hjk).mpr (.inr ⟨rfl, hij ▸ hi⟩))
      · exact hq i ((mem_splice_at hjk).mpr (.inl ⟨hij, hi⟩))
    rw [splice_frame (h.holds k).toSpans (hold k)]
    exact h.loose q hold

end Separate

end Libsinet
