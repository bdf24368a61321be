import Libsinet.Base.Jump
import Libsinet.Base.Ledger
import Mathlib.Data.Finset.SDiff
import Mathlib.Data.Finset.Lattice.Lemmas

/-!
# Undo ladders

A constructor that acquires its parts by calls made one after another, and on
the first that fails jumps to a label that releases what it has. Some of the
calls are of constructors of the same kind. It acquires all of its parts or
none, and which call failed decides the error.
-/

namespace Undo

open Ledger Code

variable {R L ε : Type} [DecidableEq R]

/-- The ledger of a run and the error reported in it. -/
structure Books (R ε : Type) where
  log : List (Act R)
  err : Option ε

abbrev Body (L R ε : Type) := Code L (Books R ε)

/-- A constructor to its callers; the result is whether there is an object. -/
abbrev Ctor (R ε : Type) := Books R ε → Bool × Books R ε

/-- A call that acquires `r`, unless it fails: then it reports `fault r`. -/
def take (fault : R → Option ε) (r : R) (l : L) : Body L R ε PUnit :=
  match fault r with
  | none => modify fun b => { b with log := b.log ++ [.acquire r] }
  | some err => do
    modify fun b => { b with err := some err }
    throw l

def call (f : Ctor R ε) (l : L) : Body L R ε PUnit := fun b =>
  match f b with
  | (true, b) => (.ok ⟨⟩, b)
  | (false, b) => (.error l, b)

def Books.release (b : Books R ε) (rs : List R) : Books R ε := { b with log := b.log ++ rs.map .release }

def ladder (body : Body L R ε PUnit) (undo : L → List R) : Ctor R ε := fun b =>
  match body.exec b with
  | (.ok _, b) => (true, b)
  | (.error l, b) => (false, b.release (undo l))

-- ---------------------------------------------------------------------------
-- What is held
-- ---------------------------------------------------------------------------

section
variable (uses : R → R → Bool) (fault : R → Option ε)

structure Owns (held : Finset R) (err : Option ε) (b : Books R ε) : Prop where
  log : play uses b.log ∅ = some held
  err : b.err = err

/-- Nothing that is held is one of the parts, or uses one. -/
def Clear (held : Finset R) (parts : List R) : Prop :=
  ∀ r ∈ parts, r ∉ held ∧ ∀ t ∈ held, uses t r = false

instance (held : Finset R) (parts : List R) : Decidable (Clear uses held parts) :=
  inferInstanceAs (Decidable (∀ r ∈ parts, _))

def AllOrNothing (f : Ctor R ε) (parts : List R) : Prop :=
  ∀ held err b, Owns uses held err b → Clear uses held parts →
    match parts.findSome? fault with
    | none => (f b).1 = true ∧ Owns uses (held ∪ parts.toFinset) err (f b).2
    | some err' => (f b).1 = false ∧ Owns uses held (some err') (f b).2

/-- A constructor called alone, with its destructor called on what it gives:
nothing is left behind, and nothing released too early or twice. -/
def Whole (f : Ctor R ε) (dtor parts : List R) : Prop :=
  match parts.findSome? fault with
  | none => (f ⟨[], none⟩).1 = true ∧ Owns uses parts.toFinset none (f ⟨[], none⟩).2 ∧
      Owns uses ∅ none ((f ⟨[], none⟩).2.release dtor)
  | some err => (f ⟨[], none⟩).1 = false ∧ Owns uses ∅ (some err) (f ⟨[], none⟩).2

/-- Code that goes on from `done` to the parts as well, or stops at a label
with what is `before` it. -/
def Acquires (before : L → List R) (done : List R) (m : Body L R ε PUnit) (parts : List R) : Prop :=
  ∀ held err, Clear uses held (done ++ parts) →
    Triple (Owns uses (held ∪ done.toFinset) err) m
      (fun _ b => parts.findSome? fault = none ∧ Owns uses (held ∪ (done ++ parts).toFinset) err b)
      fun l b => ∃ err', parts.findSome? fault = some err' ∧ Owns uses (held ∪ (before l).toFinset) (some err') b

/-- The parts in an order in which they can be released. -/
structure Undoes (undo parts : List R) : Prop where
  nodup : undo.Nodup
  perm : undo.Perm parts
  order : undo.Pairwise fun r r' => uses r' r = false
  self : ∀ r ∈ undo, uses r r = false

instance (undo parts : List R) : Decidable (Undoes uses undo parts) :=
  decidable_of_iff (undo.Nodup ∧ undo.Perm parts ∧ (undo.Pairwise fun r r' => uses r' r = false) ∧
    ∀ r ∈ undo, uses r r = false)
    ⟨fun ⟨hn, hp, ho, hs⟩ => ⟨hn, hp, ho, hs⟩, fun h => ⟨h.nodup, h.perm, h.order, h.self⟩⟩

end

variable {uses : R → R → Bool} {fault : R → Option ε} {before : L → List R} {held : Finset R}
  {parts parts' done undo : List R} {err : Option ε} {b : Books R ε}

omit [DecidableEq R] in
theorem Clear.mono (h : Clear uses held parts) (hsub : parts' ⊆ parts) : Clear uses held parts' :=
  fun r hr => h r (hsub hr)

theorem Clear.union {held' : Finset R} (h : Clear uses held parts) (h' : Clear uses held' parts) :
    Clear uses (held ∪ held') parts := by
  intro r hr
  obtain ⟨hn, hu⟩ := h r hr
  obtain ⟨hn', hu'⟩ := h' r hr
  refine ⟨by simp [hn, hn'], fun t ht => ?_⟩
  exact (Finset.mem_union.mp ht).elim (hu t) (hu' t)

theorem Owns.release (h : Owns uses (held ∪ parts.toFinset) err b) (hclear : Clear uses held parts)
    (hundo : Undoes uses undo parts) : Owns uses held err (b.release undo) := by
  refine ⟨?_, h.err⟩
  have hplay : play uses (undo.map .release) (held ∪ parts.toFinset) =
      some ((held ∪ parts.toFinset) \ undo.toFinset) := by
    refine play_release undo _ hundo.nodup (fun r hr => ?_) hundo.order fun r hr => ⟨hundo.self r hr, fun t ht hn => ?_⟩
    · simp [hundo.perm.mem_iff.mp hr]
    · have ht : t ∈ held := by simpa [mt hundo.perm.mem_iff.mpr hn] using ht
      exact (hclear r (hundo.perm.mem_iff.mp hr)).2 t ht
  rw [Books.release, play_append, h.log, Option.bind_some, hplay]
  congr 1
  ext r
  simp only [Finset.mem_sdiff, Finset.mem_union, List.mem_toFinset, hundo.perm.mem_iff]
  constructor
  · rintro ⟨hr | hr, hn⟩
    · exact hr
    · exact absurd hr hn
  · exact fun hr => ⟨.inl hr, fun hp => (hclear r hp).1 hr⟩

-- ---------------------------------------------------------------------------
-- Rules
-- ---------------------------------------------------------------------------

theorem Acquires.take (r : R) (l : L) (hl : before l = done) (hr : r ∉ done) :
    Acquires uses fault before done (take fault r l) [r] := by
  intro held err hclear b hb
  have hnew : r ∉ held ∪ done.toFinset := by
    simpa [hr] using (hclear r (by simp)).1
  cases hfault : fault r with
  | none =>
    simp only [Undo.take, hfault, exec_modify]
    refine ⟨by simp [hfault], ?_, hb.err⟩
    rw [play_append, hb.log, Option.bind_some, play, if_neg hnew, play]
    congr 1
    ext t
    simp only [Finset.mem_insert, Finset.mem_union, List.mem_toFinset, List.mem_append, List.mem_singleton]
    tauto
  | some err' =>
    simp only [Undo.take, hfault, exec_bind, exec_modify, exec_throw]
    exact ⟨err', by simp [hfault], hl ▸ hb.log, rfl⟩

omit [DecidableEq R] in
theorem call_exec (f : Ctor R ε) (l : L) (b : Books R ε) :
    (call f l).exec b = (if (f b).1 then .ok ⟨⟩ else .error l, (f b).2) := by
  show (match f b with
    | (true, b) => (Except.ok PUnit.unit, b)
    | (false, b) => (.error l, b)) = _
  rcases f b with ⟨_ | _, _⟩ <;> rfl

theorem Acquires.call {f : Ctor R ε} (hf : AllOrNothing uses fault f parts) (l : L) (hl : before l = done)
    (hdone : Clear uses done.toFinset parts) : Acquires uses fault before done (call f l) parts := by
  intro held err hclear b hb
  have h := hf _ err b hb ((hclear.mono (by simp)).union hdone)
  cases hfind : parts.findSome? fault with
  | none =>
    rw [hfind] at h
    obtain ⟨hret, hown⟩ := h
    rw [call_exec, hret]
    refine ⟨rfl, ?_⟩
    rwa [List.toFinset_append, ← Finset.union_assoc]
  | some err' =>
    rw [hfind] at h
    obtain ⟨hret, hown⟩ := h
    rw [call_exec, hret]
    exact ⟨err', rfl, hl ▸ hown⟩

theorem Acquires.bind {m m' : Body L R ε PUnit} (hm : Acquires uses fault before done m parts)
    (hm' : Acquires uses fault before (done ++ parts) m' parts') :
    Acquires uses fault before done (m >>= fun _ => m') (parts ++ parts') := by
  intro held err hclear
  have hfirst := hm held err (hclear.mono (by simp))
  have hrest := hm' held err (by rwa [List.append_assoc])
  refine (hfirst.err fun l b ⟨err', hfind, hown⟩ => ⟨err', by simp [List.findSome?_append, hfind], hown⟩).bind
    fun _ => ?_
  rintro b ⟨hnone, hb⟩
  have h := hrest b hb
  rcases hx : m'.exec b with ⟨l | _, b'⟩
  · rw [hx] at h
    obtain ⟨err', hfind, hown⟩ := h
    exact ⟨err', by simp [List.findSome?_append, hnone, hfind], hown⟩
  · rw [hx] at h
    obtain ⟨hfind, hown⟩ := h
    refine ⟨by simp [List.findSome?_append, hnone, hfind], ?_⟩
    rwa [← List.append_assoc]

theorem AllOrNothing.ladder {body : Body L R ε PUnit} {undo : L → List R} (before : L → List R)
    (hbody : Acquires uses fault before [] body parts) (hsub : ∀ l, before l ⊆ parts)
    (hundo : ∀ l, Undoes uses (undo l) (before l)) : AllOrNothing uses fault (ladder body undo) parts := by
  intro held err b hb hclear
  have h := hbody held err hclear b (by simpa using hb)
  rcases hx : body.exec b with ⟨l | _, b'⟩
  · rw [hx] at h
    obtain ⟨err', hfind, hown⟩ := h
    simp only [hfind, Undo.ladder, hx]
    exact ⟨trivial, hown.release (hclear.mono (hsub l)) (hundo l)⟩
  · rw [hx] at h
    obtain ⟨hfind, hown⟩ := h
    simp only [hfind, Undo.ladder, hx]
    exact ⟨trivial, by simpa using hown⟩

theorem AllOrNothing.whole {f : Ctor R ε} (h : AllOrNothing uses fault f parts) {dtor : List R}
    (hdtor : Undoes uses dtor parts) : Whole uses fault f dtor parts := by
  have hclear : Clear uses ∅ parts := fun r _ => by simp
  have hout := h ∅ none ⟨[], none⟩ ⟨rfl, rfl⟩ hclear
  unfold Whole
  cases hfind : parts.findSome? fault with
  | none =>
    rw [hfind] at hout
    obtain ⟨hret, hown⟩ := hout
    exact ⟨hret, by simpa using hown, hown.release hclear hdtor⟩
  | some err =>
    rw [hfind] at hout
    exact hout

end Undo
