import Mathlib.Data.Finset.Basic
import Mathlib.Data.Finset.Dedup

/-!
# Ledgers of resources

A run's acquisitions and releases in order, played against the set of the
resources held. An entry is out of order if it acquires what is held, or
releases what is not held or what something still held uses. A ledger that
plays through to the empty set releases all it acquired exactly once.
-/

namespace Ledger

inductive Act (R : Type u)
  | acquire (r : R)
  | release (r : R)
  deriving DecidableEq, Repr

variable {R : Type u} [DecidableEq R]

def play (uses : R → R → Bool) : List (Act R) → Finset R → Option (Finset R)
  | [], held => some held
  | .acquire r :: acts, held => if r ∈ held then none else play uses acts (insert r held)
  | .release r :: acts, held =>
    if r ∈ held ∧ ∀ t ∈ held, uses t r = false then play uses acts (held.erase r) else none

variable {uses : R → R → Bool}

theorem play_append (acts acts' : List (Act R)) (held : Finset R) :
    play uses (acts ++ acts') held = (play uses acts held).bind (play uses acts') := by
  induction acts generalizing held with
  | nil => rfl
  | cons a acts ih =>
    cases a with
    | acquire r =>
      simp only [List.cons_append, play]
      split
      · rfl
      · exact ih _
    | release r =>
      simp only [List.cons_append, play]
      split
      · exact ih _
      · rfl

theorem mem_of_play {acts : List (Act R)} {held held' : Finset R} (h : play uses acts held = some held')
    (ha : .acquire r ∈ acts ∨ r ∈ held) (hr : .release r ∉ acts) : r ∈ held' := by
  induction acts generalizing held with
  | nil =>
    obtain rfl : held = held' := Option.some.inj h
    exact ha.resolve_left List.not_mem_nil
  | cons a acts ih =>
    obtain ⟨hne, hrest⟩ := not_or.mp (mt List.mem_cons.mpr hr)
    cases a with
    | acquire t =>
      rw [play] at h
      split at h
      · cases h
      · refine ih h ?_ hrest
        simp only [List.mem_cons, Act.acquire.injEq] at ha
        rcases ha with (rfl | ha) | ha
        · exact .inr (Finset.mem_insert_self _ _)
        · exact .inl ha
        · exact .inr (Finset.mem_insert_of_mem ha)
    | release t =>
      have hrt : r ≠ t := fun he => hne (he ▸ rfl)
      rw [play] at h
      split at h
      · refine ih h ?_ hrest
        simp only [List.mem_cons, reduceCtorEq, false_or] at ha
        exact ha.imp_right fun hh => Finset.mem_erase.mpr ⟨hrt, hh⟩
      · cases h

theorem play_acquire (l : List R) (held : Finset R) (hl : l.Nodup) (hd : ∀ r ∈ l, r ∉ held) :
    play uses (l.map .acquire) held = some (held ∪ l.toFinset) := by
  induction l generalizing held with
  | nil => simp [play]
  | cons r l ih =>
    obtain ⟨hr, hl⟩ := List.nodup_cons.mp hl
    have hd' : ∀ r' ∈ l, r' ∉ insert r held := by
      intro r' hr'
      rw [Finset.mem_insert, not_or]
      exact ⟨fun he => hr (he ▸ hr'), hd r' (List.mem_cons_of_mem _ hr')⟩
    rw [List.map_cons, play, if_neg (hd r List.mem_cons_self), ih _ hl hd']
    congr 1
    ext x
    simp only [Finset.mem_union, Finset.mem_insert, List.mem_toFinset, List.mem_cons]
    tauto

theorem play_release (l : List R) (held : Finset R) (hl : l.Nodup) (hheld : ∀ r ∈ l, r ∈ held)
    (horder : l.Pairwise fun r r' => uses r' r = false)
    (hrest : ∀ r ∈ l, uses r r = false ∧ ∀ t ∈ held, t ∉ l → uses t r = false) :
    play uses (l.map .release) held = some (held \ l.toFinset) := by
  induction l generalizing held with
  | nil => simp [play]
  | cons r l ih =>
    obtain ⟨hr, hl⟩ := List.nodup_cons.mp hl
    obtain ⟨hfirst, horder⟩ := List.pairwise_cons.mp horder
    have hfree : ∀ t ∈ held, uses t r = false := by
      intro t ht
      by_cases hmem : t ∈ r :: l
      · rcases List.mem_cons.mp hmem with rfl | hmem
        · exact (hrest t List.mem_cons_self).1
        · exact hfirst t hmem
      · exact (hrest r List.mem_cons_self).2 t ht hmem
    have hheld' : ∀ r' ∈ l, r' ∈ held.erase r := fun r' hr' =>
      Finset.mem_erase.mpr ⟨fun he => hr (he ▸ hr'), hheld r' (List.mem_cons_of_mem _ hr')⟩
    have hrest' : ∀ r' ∈ l, uses r' r' = false ∧ ∀ t ∈ held.erase r, t ∉ l → uses t r' = false := by
      intro r' hr'
      refine ⟨(hrest r' (List.mem_cons_of_mem _ hr')).1, fun t ht hn => ?_⟩
      obtain ⟨hne, ht⟩ := Finset.mem_erase.mp ht
      exact (hrest r' (List.mem_cons_of_mem _ hr')).2 t ht (by simp [hne, hn])
    rw [List.map_cons, play, if_pos ⟨hheld r List.mem_cons_self, hfree⟩, ih _ hl hheld' horder hrest']
    congr 1
    ext x
    simp only [Finset.mem_sdiff, Finset.mem_erase, List.mem_toFinset, List.mem_cons, not_or]
    tauto

/-- All of `l` acquired, and then all of it but `keep` released. -/
theorem play_all {l l' : List R} {keep : R} (hl : l.Nodup) (hp : l'.Perm (l.filter (· ≠ keep)))
    (horder : l'.Pairwise fun r r' => uses r' r = false) (hself : ∀ r, uses r r = false)
    (hkeep : ∀ r, uses keep r = false) :
    play uses (l.map .acquire ++ l'.map .release) ∅ = some (if keep ∈ l then {keep} else ∅) := by
  have hmem : ∀ r, r ∈ l' ↔ r ∈ l ∧ r ≠ keep := fun r => by simp [hp.mem_iff]
  have hl' : l'.Nodup := hp.nodup_iff.mpr (hl.filter _)
  rw [play_append, play_acquire l ∅ hl (by simp), Option.bind_some, play_release l' _ hl' ?_ horder ?_]
  · congr 1
    ext x
    by_cases hx : x = keep
    · subst hx
      split <;> simp_all
    · split <;> simp_all
  · intro r hr
    simpa using ((hmem r).mp hr).1
  · intro r _
    refine ⟨hself r, fun t ht hn => ?_⟩
    have ht : t ∈ l := by simpa using ht
    have hk : t = keep := by
      by_contra hk
      exact hn ((hmem t).mpr ⟨ht, hk⟩)
    exact hk ▸ hkeep r

end Ledger
