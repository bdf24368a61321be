import Libsinet.SinInit
import Mathlib.Tactic.Ring

/-!
# All or nothing

At each point of `sin_init` the ladder from the label in force releases what
was acquired so far, but for the mapping. From this a failed call releases all
the rest, and `sin_destroy` what a successful one acquired.
-/

namespace Libsinet.SinInit

open Ledger Code

variable {ok : Call → Bool} {n : Nat} {s : State}

/-- The calls up to `mmap` succeed. -/
def Mapped (ok : Call → Bool) : Bool :=
  ok (.acquire .stance) && ok (.acquire .netmapFd) && ok .regif && ok (.acquire .mem)

/-- `l` releases all that was acquired but the mapping. -/
structure Releases (ok : Call → Bool) (l : List Res) (s : State) : Prop where
  perm : l.Perm (s.acquired.filter (· ≠ .mem))
  nodup : s.acquired.Nodup
  mem : .mem ∈ s.acquired ↔ Mapped ok = true

/-- What every jump of `sin_init` satisfies. -/
abbrev Undoable (ok : Call → Bool) (l : Label) (s : State) : Prop := Releases ok (l.undo s.sip) s

-- ---------------------------------------------------------------------------
-- Calls
-- ---------------------------------------------------------------------------

section
variable {P Q : State → Prop} {l : Label}

theorem call_triple {c : Call} (hP : ∀ s, P s → ok c = false → Undoable ok l s)
    (hQ : ∀ s, P s → ok c = true → Q s) :
    Triple P (call ok c l) (fun _ => Q) (Undoable ok) := by
  intro s hs
  cases hc : ok c with
  | true => simpa [call, hc] using hQ s hs hc
  | false => simpa [call, hc] using hP s hs hc

theorem take_triple {res : Res} (hP : ∀ s, P s → ok (.acquire res) = false → Undoable ok l s)
    (hQ : ∀ s, P s → ok (.acquire res) = true → Q (s.push res)) :
    Triple P (take ok res l) (fun _ => Q) (Undoable ok) := by
  intro s hs
  cases hc : ok (.acquire res) with
  | true => simpa [take, hc] using hQ s hs hc
  | false => simpa [take, hc] using hP s hs hc

theorem ctor_triple {f : Member} {r : Ring} (hP : ∀ s, P s → Undoable ok l s)
    (hQ : ∀ s, P s → Q ((s.setPtr f r).push (.obj f r))) :
    Triple P (ctor ok f r l) (fun _ => Q) (Undoable ok) := by
  intro s hs
  cases hc : ok (.acquire (.obj f r)) with
  | true => simpa [ctor, hc] using hQ s hs
  | false => simpa [ctor, hc] using hP s hs

end

-- ---------------------------------------------------------------------------
-- Descriptors
-- ---------------------------------------------------------------------------

def opened (sip : Stance) (n : Nat) : List Res :=
  ((List.range n).filter fun i => sip.queueFd (.phy i) = .opened).map fun i => .queueFd (.phy i)

/-- `k` rings were asked for a descriptor; after an error none is. -/
structure Opening (n k : Nat) (grrError : Bool) (s : State) : Prop where
  nrings : s.sip.nrings = n
  ptr : ∀ f r, s.sip.ptr f r = false
  acquired : s.acquired = [.stance, .netmapFd, .mem, .phy] ++ opened s.sip k
  asked : ∀ i < k, s.sip.queueFd (.phy i) ≠ .zero
  noError : grrError = false → ∀ i < k, s.sip.queueFd (.phy i) = .opened

theorem opened_setFd_le {k i : Nat} (h : k ≤ i) (fd : Fd) :
    opened (s.setFd (.phy i) fd).sip k = opened s.sip k := by
  unfold opened
  congr 1
  refine List.filter_congr fun j hj => ?_
  have hne : j ≠ i := (Nat.lt_of_lt_of_le (List.mem_range.mp hj) h).ne
  simp [State.setFd, hne]

theorem opened_succ (sip : Stance) (k : Nat) :
    opened sip (k + 1) =
      opened sip k ++ if sip.queueFd (.phy k) = .opened then [.queueFd (.phy k)] else [] := by
  unfold opened
  rw [List.range_succ, List.filter_append, List.map_append]
  congr 1
  by_cases h : sip.queueFd (.phy k) = .opened <;> simp [h]

theorem Opening.setFd {k : Nat} {e e' : Bool} (h : Opening n k e s) (fd : Fd) (hz : fd ≠ .zero)
    (he : e' = false → e = false ∧ fd = .opened) (s' : State)
    (hsip : s'.sip = (s.setFd (.phy k) fd).sip)
    (hacq : s'.acquired = s.acquired ++ if fd = .opened then [.queueFd (.phy k)] else []) :
    Opening n (k + 1) e' s' := by
  have hlt : ∀ i < k + 1, i ≠ k → i < k := by omega
  have hfd : ∀ i, s'.sip.queueFd (.phy i) = if i = k then fd else s.sip.queueFd (.phy i) := by
    intro i
    rw [hsip]
    simp only [State.setFd, Function.update_apply, Ring.phy.injEq]
  refine ⟨?_, fun f r => ?_, ?_, fun i hi => ?_, fun hn i hi => ?_⟩
  · rw [hsip]
    exact h.nrings
  · rw [hsip]
    exact h.ptr f r
  · rw [hacq, h.acquired, opened_succ, hfd k, if_pos rfl, List.append_assoc, hsip,
      opened_setFd_le le_rfl]
  · rw [hfd]
    split
    · exact hz
    · exact h.asked i (hlt i hi ‹_›)
  · rw [hfd]
    split
    · exact (he hn).2
    · exact h.noError (he hn).1 i (hlt i hi ‹_›)

theorem setIfnot_triple {P : State → Prop} {Q : Bool → State → Prop} {E : Label → State → Prop}
    {r : Ring} {e : Bool}
    (hopen : e = false → ∀ s, P s → Q false ((s.setFd r .opened).push (.queueFd r)))
    (hbad : ∀ s, P s → Q true (s.setFd r .bad)) :
    Triple P (setIfnotErrElseRst ok r e) Q E := by
  intro s hs
  cases e with
  | true => exact hbad s hs
  | false =>
    cases hc : ok (.acquire (.queueFd r)) with
    | true =>
      rw [setIfnotErrElseRst, if_neg Bool.false_ne_true, if_pos hc]
      exact hopen rfl s hs
    | false =>
      rw [setIfnotErrElseRst, if_neg Bool.false_ne_true, if_neg (by simp [hc])]
      exact hbad s hs

theorem openPhy_triple (E : Label → State → Prop) (k : Nat) :
    Triple (fun s => s = ⟨cleared n, [.stance, .netmapFd, .mem, .phy]⟩) (openPhy ok k)
      (Opening n k) E := by
  induction k with
  | zero =>
    rintro s rfl
    exact ⟨rfl, fun _ _ => rfl, rfl, fun i hi => absurd hi (Nat.not_lt_zero i),
      fun _ i hi => absurd hi (Nat.not_lt_zero i)⟩
  | succ k ih =>
    refine ih.bind fun e => setIfnot_triple (fun he s hs => ?_) fun s hs => ?_
    · exact hs.setFd .opened (by simp) (fun _ => ⟨he, rfl⟩) _ rfl rfl
    · exact hs.setFd .bad (by simp) (by simp) _ rfl (by simp [State.setFd])

structure Opened (n : Nat) (grrError : Bool) (s : State) : Prop where
  nrings : s.sip.nrings = n
  ptr : ∀ f r, s.sip.ptr f r = false
  acquired : s.acquired =
    [.stance, .netmapFd, .mem, .phy] ++ (opened s.sip n ++ s.sip.hstNotBad)
  asked : ∀ i < n, s.sip.queueFd (.phy i) ≠ .zero
  noError : grrError = false → (∀ i < n, s.sip.queueFd (.phy i) = .opened) ∧
    s.sip.queueFd .hst = .opened

theorem opened_setFd_hst (s : State) (fd : Fd) (k : Nat) :
    opened (s.setFd .hst fd).sip k = opened s.sip k := by
  simp [opened, State.setFd]

theorem Opening.hst {e e' : Bool} (h : Opening n n e s) (fd : Fd) (hz : fd ≠ .zero)
    (he : e' = false → e = false ∧ fd = .opened) (s' : State) (hsip : s'.sip = (s.setFd .hst fd).sip)
    (hacq : s'.acquired = s.acquired ++ if fd = .opened then [.queueFd .hst] else []) :
    Opened n e' s' := by
  have hphy : ∀ i, s'.sip.queueFd (.phy i) = s.sip.queueFd (.phy i) := by simp [hsip, State.setFd]
  have hhst : s'.sip.queueFd .hst = fd := by simp [hsip, State.setFd]
  refine ⟨?_, fun f r => ?_, ?_, fun i hi => ?_, fun hn => ⟨fun i hi => ?_, ?_⟩⟩
  · rw [hsip]
    exact h.nrings
  · rw [hsip]
    exact h.ptr f r
  · rw [hacq, h.acquired, List.append_assoc, hsip, opened_setFd_hst, ← hsip, Stance.hstNotBad, hhst]
    cases fd <;> simp_all
  · rw [hphy]
    exact h.asked i hi
  · rw [hphy]
    exact h.noError (he hn).1 i hi
  · rw [hhst]
    exact (he hn).2

theorem opened_triple {e : Bool} (E : Label → State → Prop) :
    Triple (Opening n n e) (setIfnotErrElseRst ok .hst e) (Opened n) E := by
  refine setIfnot_triple (fun he s hs => ?_) fun s hs => ?_
  · exact hs.hst .opened (by simp) (fun _ => ⟨he, rfl⟩) _ rfl rfl
  · exact hs.hst .bad (by simp) (by simp) _ rfl (by simp [State.setFd])

theorem notBad_eq (hn : s.sip.nrings = n) (h : ∀ i < n, s.sip.queueFd (.phy i) ≠ .zero) :
    s.sip.notBad = opened s.sip n := by
  unfold Stance.notBad opened
  rw [hn]
  congr 1
  refine List.filter_congr fun i hi => ?_
  have hz := h i (List.mem_range.mp hi)
  cases hq : s.sip.queueFd (.phy i) <;> simp_all

theorem nodup_map_phy {g : Nat → Res} (hg : ∀ i j, g i = g j → i = j) (p : Nat → Bool) (k : Nat) :
    (((List.range k).filter p).map g).Nodup :=
  (List.nodup_range.filter p).map_on fun i _ j _ h => hg i j h

theorem Opened.undoable {e : Bool} (h : Opened n e s) (hm : Mapped ok = true) :
    Undoable ok .erUndo2 s := by
  have hrank : ∀ r ∈ opened s.sip n ++ s.sip.hstNotBad, r.rank = 3 :=
    fun r hr => rank_notBad s.sip r (notBad_eq h.nrings h.asked ▸ hr)
  have hnodup : (opened s.sip n ++ s.sip.hstNotBad).Nodup := by
    refine List.nodup_append.mpr ⟨nodup_map_phy (by simp) _ _, ?_, ?_⟩
    · unfold Stance.hstNotBad
      split <;> simp
    · intro a ha b hb
      obtain ⟨i, -, rfl⟩ := List.mem_map.mp ha
      unfold Stance.hstNotBad at hb
      split at hb <;> simp_all
  have hfilter : (opened s.sip n ++ s.sip.hstNotBad).filter (· ≠ .mem) =
      opened s.sip n ++ s.sip.hstNotBad := by
    refine List.filter_eq_self.mpr fun r hr => ?_
    have hr3 := hrank r hr
    cases r <;> simp_all [Res.rank]
  refine ⟨?_, ?_, by simp [h.acquired, hm]⟩
  · show s.sip.erUndo2.Perm _
    rw [Stance.erUndo2, notBad_eq h.nrings h.asked, h.acquired, List.filter_append, hfilter,
      ← List.append_assoc]
    refine List.perm_append_comm.trans (List.Perm.append_right _ ?_)
    decide
  · rw [h.acquired]
    refine List.nodup_append.mpr ⟨by decide, hnodup, ?_⟩
    rintro a ha b hb rfl
    have hr3 := hrank a hb
    simp only [List.mem_cons, List.not_mem_nil, or_false] at ha
    rcases ha with rfl | rfl | rfl | rfl <;> cases hr3

-- ---------------------------------------------------------------------------
-- Pointers
-- ---------------------------------------------------------------------------

section
variable {f g : Member} {r : Ring} {i : Nat}

theorem ptr_setPtr (s : State) : (s.setPtr f r).sip.ptr f r = true := by simp [State.setPtr]

theorem ptr_setPtr_self (s : State) (r' : Ring) (h : r' ≠ r) :
    (s.setPtr f r).sip.ptr f r' = s.sip.ptr f r' := by simp [State.setPtr, h]

theorem ptr_setPtr_ne (s : State) (r' : Ring) (h : g ≠ f) :
    (s.setPtr f r).sip.ptr g r' = s.sip.ptr g r' := by simp [State.setPtr, h]

theorem nonNull_congr {sip sip' : Stance} (hn : sip'.nrings = sip.nrings)
    (h : ∀ i, sip'.ptr g (.phy i) = sip.ptr g (.phy i)) : sip'.nonNull g = sip.nonNull g := by
  simp only [Stance.nonNull, hn, h]

@[simp] theorem nonNull_setPtr_hst (s : State) (g : Member) :
    (s.setPtr f .hst).sip.nonNull g = s.sip.nonNull g := by
  refine nonNull_congr rfl fun i => ?_
  by_cases h : g = f
  · subst h
    exact ptr_setPtr_self s _ (by simp)
  · exact ptr_setPtr_ne s _ h

@[simp] theorem nonNull_setPtr_ne (s : State) (h : g ≠ f) :
    (s.setPtr f r).sip.nonNull g = s.sip.nonNull g :=
  nonNull_congr rfl fun _ => ptr_setPtr_ne s _ h

theorem nonNull_setPtr (hi : i < s.sip.nrings) (h : s.sip.ptr f (.phy i) = false) :
    ((s.setPtr f (.phy i)).sip.nonNull f).Perm (.obj f (.phy i) :: s.sip.nonNull f) := by
  unfold Stance.nonNull
  rw [← List.map_cons (f := fun i => Res.obj f (.phy i))]
  refine List.Perm.map _ ((List.perm_ext_iff_of_nodup (List.nodup_range.filter _) ?_).mpr ?_)
  · exact List.nodup_cons.mpr ⟨by simp [h], List.nodup_range.filter _⟩
  · intro j
    by_cases hj : j = i
    · subst hj
      simp [ptr_setPtr, show j < (s.setPtr f (.phy j)).sip.nrings from hi]
    · simp [hj, ptr_setPtr_self s (.phy j) (r := .phy i) (by simpa using hj),
        show (s.setPtr f (.phy i)).sip.nrings = s.sip.nrings from rfl]

@[simp] theorem erUndo2_setPtr (s : State) (f : Member) (r : Ring) :
    (s.setPtr f r).sip.erUndo2 = s.sip.erUndo2 := rfl

theorem nonNull_nil {sip : Stance} (h : ∀ i, sip.ptr g (.phy i) = false) : sip.nonNull g = [] := by
  simp [Stance.nonNull, h]

end

/-- How many of `phy[i]` and of the members of `hst` are filled. `l` is the
ladder in force. -/
structure At (ok : Call → Bool) (n : Nat) (l : Stance → List Res) (c : Member → Nat) (m : Member → Bool)
    (s : State) : Prop where
  releases : Releases ok (l s.sip) s
  nrings : s.sip.nrings = n
  queueFd : (∀ i < n, s.sip.queueFd (.phy i) = .opened) ∧ s.sip.queueFd .hst = .opened
  filled : ∀ f r, .obj f r ∈ s.acquired → s.sip.ptr f r = true
  phy : ∀ f i, s.sip.ptr f (.phy i) = decide (i < c f)
  hst : ∀ f, s.sip.ptr f .hst = m f

section
variable {l l' : Stance → List Res} {c : Member → Nat} {m : Member → Bool} {f : Member}

theorem At.shift (h : At ok n l c m s) (he : l' s.sip = l s.sip) : At ok n l' c m s :=
  ⟨he ▸ h.releases, h.nrings, h.queueFd, h.filled, h.phy, h.hst⟩

theorem At.nonNull (h : At ok n l c m s) (hc : c g = 0) : s.sip.nonNull g = [] :=
  nonNull_nil fun i => by simp [h.phy, hc]

theorem Releases.push {k k' : List Res} {res : Res} {sip : Stance} (h : Releases ok k s)
    (hk : k'.Perm (res :: k)) (hres : res ∉ s.acquired) (hmem : res ≠ .mem) :
    Releases ok k' ⟨sip, s.acquired ++ [res]⟩ := by
  refine ⟨?_, ?_, ?_⟩
  · simp only [List.filter_append]
    refine hk.trans ?_
    simpa [hmem] using (h.perm.cons res).trans (List.perm_append_singleton _ _).symm
  · exact (List.perm_append_singleton _ _).nodup_iff.mpr (List.nodup_cons.mpr ⟨hres, h.nodup⟩)
  · simp [h.mem, Ne.symm hmem]

theorem At.filled_push (h : At ok n l c m s) (f : Member) (r : Ring) :
    ∀ g r', .obj g r' ∈ s.acquired ++ [.obj f r] → (s.setPtr f r).sip.ptr g r' = true := by
  intro g r' hmem
  by_cases he : g = f ∧ r' = r
  · obtain ⟨rfl, rfl⟩ := he
    exact ptr_setPtr s
  · have hold : s.sip.ptr g r' = true := by
      refine h.filled g r' ?_
      simpa [he] using hmem
    by_cases hg : g = f
    · subst hg
      rw [ptr_setPtr_self s r' (fun hr => he ⟨rfl, hr⟩), hold]
    · rw [ptr_setPtr_ne s r' hg, hold]

/-- A constructor in a loop over the rings. -/
theorem At.ctorPhy {i : Nat}
    (hl : ((l (s.setPtr f (.phy i)).sip).Perm (.obj f (.phy i) :: l s.sip)))
    (h : At ok n l (Function.update c f i) m s) :
    At ok n l (Function.update c f (i + 1)) m ((s.setPtr f (.phy i)).push (.obj f (.phy i))) := by
  have hnull : s.sip.ptr f (.phy i) = false := by simp [h.phy]
  have hnew : .obj f (.phy i) ∉ s.acquired := fun hmem => by
    simp [h.filled _ _ hmem] at hnull
  refine ⟨h.releases.push hl hnew (by simp), h.nrings, h.queueFd, h.filled_push f (.phy i), ?_, ?_⟩
  · intro g j
    show (s.setPtr f (.phy i)).sip.ptr g (.phy j) = _
    by_cases hg : g = f
    · subst hg
      by_cases hj : j = i
      · subst hj
        simp [ptr_setPtr]
      · rw [ptr_setPtr_self s _ (by simpa using hj), h.phy]
        simp only [Function.update_self, decide_eq_decide]
        omega
    · rw [ptr_setPtr_ne s _ hg, h.phy]
      simp [hg]
  · intro g
    show (s.setPtr f (.phy i)).sip.ptr g .hst = _
    by_cases hg : g = f
    · subst hg
      rw [ptr_setPtr_self s _ (by simp), h.hst]
    · rw [ptr_setPtr_ne s _ hg, h.hst]

theorem At.ctorHst (hl : (l' (s.setPtr f .hst).sip).Perm (.obj f .hst :: l s.sip)) (hm : m f = false)
    (h : At ok n l c m s) :
    At ok n l' c (Function.update m f true) ((s.setPtr f .hst).push (.obj f .hst)) := by
  have hnew : .obj f .hst ∉ s.acquired := fun hmem => by
    have hp := h.filled _ _ hmem
    simp [h.hst, hm] at hp
  refine ⟨h.releases.push hl hnew (by simp), h.nrings, h.queueFd, h.filled_push f .hst, ?_, ?_⟩
  · intro g j
    show (s.setPtr f .hst).sip.ptr g (.phy j) = _
    by_cases hg : g = f
    · subst hg
      rw [ptr_setPtr_self s _ (by simp), h.phy]
    · rw [ptr_setPtr_ne s _ hg, h.phy]
  · intro g
    show (s.setPtr f .hst).sip.ptr g .hst = _
    by_cases hg : g = f
    · subst hg
      simp [ptr_setPtr]
    · rw [ptr_setPtr_ne s _ hg, h.hst]
      simp [hg]

end

-- ---------------------------------------------------------------------------
-- The body
-- ---------------------------------------------------------------------------

theorem times_triple {l : Label} {c : Member → Nat} {m : Member → Bool} {f : Member} {k : Nat}
    {b : Nat → Body PUnit} (hc : c f = 0)
    (hb : ∀ i < n, Triple (At ok n (l.undo ·) (Function.update c f i) m) (b i)
      (fun _ => At ok n (l.undo ·) (Function.update c f (i + 1)) m) (Undoable ok)) (hk : k = n) :
    Triple (At ok n (l.undo ·) c m) (times b k)
      (fun _ => At ok n (l.undo ·) (Function.update c f n) m) (Undoable ok) := by
  subst hk
  refine (Triple.times k hb).pre fun s hs => ?_
  rwa [show Function.update c f 0 = c from hc ▸ Function.update_eq_self f c]

theorem times_const {P : State → Prop} {b : Nat → Body PUnit}
    (hb : ∀ i, Triple P (b i) (fun _ => P) (Undoable ok)) :
    Triple P (times b n) (fun _ => P) (Undoable ok) :=
  Triple.times (I := fun _ => P) n fun i _ => hb i

/-- The loop that fills a member of `phy`, whose pointers the ladder tests. -/
theorem ctorPhy_triple {l : Label} {c : Member → Nat} {m : Member → Bool} {f : Member} (hc : c f = 0)
    (hl : ∀ (s : State) i, ((s.setPtr f (.phy i)).sip.nonNull f).Perm (.obj f (.phy i) :: s.sip.nonNull f) →
      (l.undo (s.setPtr f (.phy i)).sip).Perm (.obj f (.phy i) :: l.undo s.sip)) :
    Triple (At ok n (l.undo ·) c m) (times (fun i => ctor ok f (.phy i) l) n)
      (fun _ => At ok n (l.undo ·) (Function.update c f n) m) (Undoable ok) := by
  refine times_triple hc (fun i hi => ctor_triple (fun s hs => hs.releases) fun s hs => ?_) rfl
  refine hs.ctorPhy (hl s i (nonNull_setPtr (hs.nrings ▸ hi) ?_))
  simp [hs.phy]

/-- The ladder that adds the loop over `f` on top of another one. -/
theorem undo_nonNull {f : Member} {s s' : State} {k k' : List Res} {res : Res} (hk : k' = k)
    (h : (s'.sip.nonNull f).Perm (res :: s.sip.nonNull f)) :
    (s'.sip.nonNull f ++ k').Perm (res :: (s.sip.nonNull f ++ k)) := by
  subst hk
  exact h.append_right k'

theorem Opened.at_start (h : Opened n false s) (hm : Mapped ok = true) :
    At ok n (Label.erUndo2.undo ·) (fun _ => 0) (fun _ => false) s := by
  refine ⟨h.undoable hm, h.nrings, h.noError rfl, fun f r hmem => ?_, fun f i => ?_, fun f => ?_⟩
  · have hrank : ∀ x ∈ s.acquired, x.rank ≤ 3 := by
      intro x hx
      rw [h.acquired] at hx
      rcases List.mem_append.mp hx with hx | hx
      · simp only [List.mem_cons, List.not_mem_nil, or_false] at hx
        rcases hx with rfl | rfl | rfl | rfl <;> decide
      · exact (rank_notBad s.sip x (notBad_eq h.nrings h.asked ▸ hx)).le
    have h3 := hrank _ hmem
    cases f <;> cases r <;> simp [Res.rank] at h3
  · simp [h.ptr]
  · exact h.ptr f .hst

/-- The calls up to the descriptors of the rings. -/
theorem open_triple (h₀ : ok (.acquire .stance) = true) {m : Body PUnit} {Q : PUnit → State → Prop}
    (hm : Triple (At ok n (Label.erUndo2.undo ·) (fun _ => 0) fun _ => false) m Q (Undoable ok)) :
    Triple (fun s => s = ⟨cleared n, [.stance]⟩) (do
      take ok .netmapFd .erUndo0
      call ok .regif .erUndo1
      take ok .mem .erUndo1
      take ok .phy .erUndo1
      let grrError ← openPhy ok n
      let grrError ← setIfnotErrElseRst ok .hst grrError
      gotoIf grrError .erUndo2
      m) Q (Undoable ok) := by
  refine .bind (take_triple (Q := fun s => s = ⟨cleared n, [.stance, .netmapFd]⟩ ∧
    ok (.acquire .netmapFd) = true) ?_ ?_) fun _ => ?_
  · rintro s rfl hf
    exact ⟨.refl _, by simp, by simp [Mapped, hf]⟩
  · rintro s rfl ht
    exact ⟨rfl, ht⟩
  refine .bind (call_triple (Q := fun s => s = ⟨cleared n, [.stance, .netmapFd]⟩ ∧
    Mapped ok = ok (.acquire .mem)) ?_ ?_) fun _ => ?_
  · rintro s ⟨rfl, -⟩ hf
    exact ⟨.swap _ _ _, by simp, by simp [Mapped, hf]⟩
  · rintro s ⟨rfl, h₁⟩ h₂
    exact ⟨rfl, by simp [Mapped, h₀, h₁, h₂]⟩
  refine .bind (take_triple (Q := fun s => s = ⟨cleared n, [.stance, .netmapFd, .mem]⟩ ∧
    Mapped ok = true) ?_ ?_) fun _ => ?_
  · rintro s ⟨rfl, hmap⟩ hf
    exact ⟨.swap _ _ _, by simp, by simp [hmap, hf]⟩
  · rintro s ⟨rfl, hmap⟩ ht
    exact ⟨rfl, hmap.trans ht⟩
  by_cases hmap : Mapped ok = true
  swap
  · exact fun s hs => absurd hs.2 hmap
  refine .bind (take_triple (Q := fun s => s = ⟨cleared n, [.stance, .netmapFd, .mem, .phy]⟩)
    ?_ ?_) fun _ => ?_
  · rintro s ⟨rfl, -⟩ -
    exact ⟨.swap _ _ _, by simp, by simp [hmap]⟩
  · rintro s ⟨rfl, -⟩ -
    rfl
  refine .bind (openPhy_triple _ n) fun _ => .bind (opened_triple _) fun grrError => ?_
  cases grrError with
  | true => exact fun s hs => hs.undoable hmap
  | false =>
    exact .bind (Q := fun _ => Opened n false) (fun s hs => hs) fun _ =>
      hm.pre fun s hs => hs.at_start hmap

theorem flatMap_two {α β : Type} (l : List α) (f g : α → β) :
    (l.flatMap fun x => [f x, g x]).Perm (l.map f ++ l.map g) := by
  rw [List.map_eq_flatMap (f := g)]
  exact (List.map_append_flatMap_perm l f fun x => [g x]).symm

theorem flatMap_three {α β : Type} (l : List α) (f g k : α → β) :
    (l.flatMap fun x => [f x, g x, k x]).Perm (l.map f ++ (l.map g ++ l.map k)) :=
  (List.map_append_flatMap_perm l f fun x => [g x, k x]).symm.trans
    ((flatMap_two l g k).append_left _)

theorem At.destroy {c : Member → Nat} {m : Member → Bool} (hc : ∀ f, c f = n)
    (h : At ok n (fun sip => .obj .rxThread .hst :: sip.erUndo11) c m s) :
    Releases ok (sinDestroy s.sip) s := by
  have hfull : ∀ f, s.sip.nonNull f = (List.range n).map fun i => .obj f (.phy i) := by
    intro f
    unfold Stance.nonNull
    rw [h.nrings]
    congr 1
    refine List.filter_eq_self.mpr fun i hi => ?_
    rw [h.phy, hc]
    exact decide_eq_true (List.mem_range.mp hi)
  have hfds : s.sip.notBad = (List.range n).map fun i => .queueFd (.phy i) := by
    unfold Stance.notBad
    rw [h.nrings]
    congr 1
    refine List.filter_eq_self.mpr fun i hi => ?_
    simp [h.queueFd.1 i (List.mem_range.mp hi)]
  have hhst : s.sip.hstNotBad = [.queueFd .hst] := by simp [Stance.hstNotBad, h.queueFd.2]
  refine ⟨.trans ?_ h.releases.perm, h.releases.nodup, h.releases.mem⟩
  rw [List.perm_iff_count]
  intro r
  simp only [sinDestroy, Stance.stopRx, Stance.stopTx, Stance.freeRest, Stance.erUndo11,
    Stance.erUndo10, Stance.erUndo9, Stance.erUndo7, Stance.erUndo5, Stance.erUndo4, Stance.erUndo3,
    Stance.erUndo2, Stance.erUndo1, Stance.erUndo0, hfull, hfds, hhst, h.nrings, List.count_append,
    List.count_cons, List.count_nil, (flatMap_two _ _ _).count_eq, (flatMap_three _ _ _ _).count_eq]
  ring

/-- The ladders below a loop do not read the pointers it fills. -/
theorem undo_below (s : State) (r : Ring) :
    (s.setPtr .rxZone r).sip.erUndo3 = s.sip.erUndo3 ∧
    (s.setPtr .txThread r).sip.erUndo5 = s.sip.erUndo5 ∧
    (s.setPtr .rxSort r).sip.erUndo7 = s.sip.erUndo7 ∧
    (s.setPtr .rxThread r).sip.erUndo9 = s.sip.erUndo9 := by
  simp [Stance.erUndo3, Stance.erUndo4, Stance.erUndo5, Stance.erUndo7, Stance.erUndo9]

/-- No ladder reads the pointers of `hst`. -/
theorem undo_hst (s : State) (f : Member) (l : Label) :
    l.undo (s.setPtr f .hst).sip = l.undo s.sip := by
  cases l <;> simp [Label.undo, Stance.erUndo3, Stance.erUndo4, Stance.erUndo5, Stance.erUndo7,
    Stance.erUndo9, Stance.erUndo10, Stance.erUndo11]

theorem ctorHst_triple {l : Label} {c : Member → Nat} {m : Member → Bool} {f : Member}
    (l' : Stance → List Res) (hm : m f = false)
    (hl : ∀ s, At ok n (l.undo ·) c m s → l' (s.setPtr f .hst).sip =
      .obj f .hst :: l.undo (s.setPtr f .hst).sip) :
    Triple (At ok n (l.undo ·) c m) (ctor ok f .hst l)
      (fun _ => At ok n l' c (Function.update m f true)) (Undoable ok) := by
  refine ctor_triple (fun s hs => hs.releases) fun s hs => hs.ctorHst ?_ hm
  rw [hl s hs, undo_hst]

theorem body_triple (h₀ : ok (.acquire .stance) = true) :
    Triple (fun s => s = ⟨cleared n, [.stance]⟩) (body ok n)
      (fun _ s => Releases ok (sinDestroy s.sip) s) (Undoable ok) := by
  refine open_triple h₀ ?_
  refine .bind (times_const fun i => call_triple (fun s hs _ => hs.releases) fun s hs _ => hs) fun _ => ?_
  refine .bind (call_triple (fun s hs _ => hs.releases) fun s hs _ => hs) fun _ => ?_
  -- the zones
  refine .bind (.pre (ctorPhy_triple (l := .erUndo3) (f := .txZone) rfl
    fun s i hp => undo_nonNull rfl hp) fun s hs => hs.shift ?_) fun _ => ?_
  · exact congrArg (· ++ _) (hs.nonNull rfl)
  refine .bind (.pre (ctorPhy_triple (l := .erUndo4) (f := .rxZone) rfl
    fun s i hp => undo_nonNull (undo_below s _).1 hp) fun s hs => hs.shift ?_) fun _ => ?_
  · exact congrArg (· ++ _) (hs.nonNull rfl)
  refine .bind (ctorHst_triple (Label.erUndo5.undo ·) rfl fun s hs => rfl) fun _ => ?_
  refine .bind (ctorHst_triple (Label.erUndo7.undo ·) rfl fun s hs => ?_) fun _ => ?_
  · exact congrArg (· ++ _) ((nonNull_setPtr_hst s _).trans (hs.nonNull rfl))
  -- the tx threads
  refine .bind (ctorPhy_triple (f := .txThread) rfl
    fun s i hp => undo_nonNull (congrArg _ (undo_below s _).2.1) hp) fun _ => ?_
  refine .bind (ctorHst_triple (Label.erUndo9.undo ·) rfl fun s hs => ?_) fun _ => ?_
  · exact congrArg (· ++ _) ((nonNull_setPtr_hst s _).trans (hs.nonNull rfl))
  -- the sorters and the rx threads
  refine .bind (times_triple (f := .rxSort) rfl (fun i hi => .bind (ctor_triple
    (fun s hs => hs.releases) fun s hs => hs.ctorPhy ?_)
    fun _ => call_triple (fun s hs _ => hs.releases) fun s hs _ => hs) rfl) fun _ => ?_
  · refine undo_nonNull (congrArg _ (undo_below s _).2.2.1) (nonNull_setPtr (hs.nrings ▸ hi) ?_)
    simp [hs.phy]
  refine .bind (.pre (ctorPhy_triple (l := .erUndo10) (f := .rxThread) rfl
    fun s i hp => undo_nonNull (undo_below s _).2.2.2 hp) fun s hs => hs.shift ?_) fun _ => ?_
  · exact congrArg (· ++ _) (hs.nonNull rfl)
  refine .bind (ctorHst_triple (Label.erUndo11.undo ·) rfl fun s hs => rfl) fun _ => ?_
  refine (ctorHst_triple (fun sip => .obj .rxThread .hst :: sip.erUndo11) rfl
    fun s hs => rfl).post fun _ s hs => hs.destroy fun f => ?_
  cases f <;> rfl

-- ---------------------------------------------------------------------------
-- All calls succeed
-- ---------------------------------------------------------------------------

theorem call_succeeds (c : Call) (l : Label) : Succeeds (call ok c l) (ok c) := by
  intro s
  cases hc : ok c <;> simp [call, hc, Except.isOk, Except.toBool]

theorem take_succeeds (res : Res) (l : Label) : Succeeds (take ok res l) (ok (.acquire res)) := by
  intro s
  cases hc : ok (.acquire res) <;> simp [take, hc, Except.isOk, Except.toBool]

theorem ctor_succeeds (f : Member) (r : Ring) (l : Label) :
    Succeeds (ctor ok f r l) (ok (.acquire (.obj f r))) := by
  intro s
  cases hc : ok (.acquire (.obj f r)) <;> simp [ctor, hc, Except.isOk, Except.toBool]

theorem setIfnot_ret (ok : Call → Bool) (r : Ring) (e : Bool) (s : State) :
    ∃ s', (setIfnotErrElseRst ok r e).exec s = (.ok (e || !ok (.acquire (.queueFd r))), s') := by
  cases e with
  | true => exact ⟨_, rfl⟩
  | false =>
    cases hc : ok (.acquire (.queueFd r)) with
    | true =>
      rw [setIfnotErrElseRst, if_neg Bool.false_ne_true, if_pos hc]
      exact ⟨_, rfl⟩
    | false =>
      rw [setIfnotErrElseRst, if_neg Bool.false_ne_true, if_neg (by simp [hc])]
      exact ⟨_, rfl⟩

theorem openPhy_ret (ok : Call → Bool) (k : Nat) (s : State) :
    ∃ s', (openPhy ok k).exec s =
      (.ok (!(List.range k).all fun i => ok (.acquire (.queueFd (.phy i)))), s') := by
  induction k with
  | zero => exact ⟨_, rfl⟩
  | succ k ih =>
    obtain ⟨s₁, h₁⟩ := ih
    obtain ⟨s₂, h₂⟩ := setIfnot_ret ok (.phy k)
      (!(List.range k).all fun i => ok (.acquire (.queueFd (.phy i)))) s₁
    refine ⟨s₂, ?_⟩
    rw [openPhy, exec_bind, h₁]
    simpa [List.range_succ, List.all_append] using h₂

/-- The descriptors, whose errors are collected before the jump. -/
theorem open_succeeds {m : Body PUnit} {b : Bool} (hm : Succeeds m b) :
    Succeeds (do
      let grrError ← openPhy ok n
      let grrError ← setIfnotErrElseRst ok .hst grrError
      gotoIf grrError .erUndo2
      m)
      ((List.range n).all (fun i => ok (.acquire (.queueFd (.phy i)))) &&
        (ok (.acquire (.queueFd .hst)) && b)) := by
  intro s
  obtain ⟨s₁, h₁⟩ := openPhy_ret ok n s
  rw [exec_bind, h₁]
  dsimp only
  obtain ⟨s₂, h₂⟩ := setIfnot_ret ok .hst
    (!(List.range n).all fun i => ok (.acquire (.queueFd (.phy i)))) s₁
  rw [exec_bind, h₂]
  dsimp only
  rw [exec_bind]
  cases ((List.range n).all fun i => ok (.acquire (.queueFd (.phy i)))) with
  | false => rfl
  | true =>
    cases ok (.acquire (.queueFd .hst)) with
    | false => rfl
    | true => exact hm s₂

def calls (n : Nat) : List Call :=
  let phy (c : Nat → Call) : List Call := (List.range n).map c
  [[.acquire .stance, .acquire .netmapFd, .regif, .acquire .mem, .acquire .phy],
    phy fun i => .acquire (.queueFd (.phy i)), [.acquire (.queueFd .hst)],
    phy fun i => .regifRing (.phy i), [.regifRing .hst],
    phy fun i => .acquire (.obj .txZone (.phy i)), phy fun i => .acquire (.obj .rxZone (.phy i)),
    [.acquire (.obj .txZone .hst), .acquire (.obj .rxZone .hst)],
    phy fun i => .acquire (.obj .txThread (.phy i)), [.acquire (.obj .txThread .hst)],
    (List.range n).flatMap fun i => [.acquire (.obj .rxSort (.phy i)), .sorterReg i],
    phy fun i => .acquire (.obj .rxThread (.phy i)),
    [.acquire (.obj .rxSort .hst), .acquire (.obj .rxThread .hst)]].flatten

theorem body_succeeds : Succeeds (body ok n) ((calls n).tail.all ok) := by
  have h : Succeeds (body ok n) _ :=
    .bind (take_succeeds _ _) fun _ => .bind (call_succeeds _ _) fun _ =>
    .bind (take_succeeds _ _) fun _ => .bind (take_succeeds _ _) fun _ => open_succeeds (
    .bind (.times (fun i => call_succeeds _ _) n) fun _ => .bind (call_succeeds _ _) fun _ =>
    .bind (.times (fun i => ctor_succeeds _ _ _) n) fun _ =>
    .bind (.times (fun i => ctor_succeeds _ _ _) n) fun _ =>
    .bind (ctor_succeeds _ _ _) fun _ => .bind (ctor_succeeds _ _ _) fun _ =>
    .bind (.times (fun i => ctor_succeeds _ _ _) n) fun _ => .bind (ctor_succeeds _ _ _) fun _ =>
    .bind (.times (fun i => .bind (ctor_succeeds _ _ _) fun _ => call_succeeds _ _) n) fun _ =>
    .bind (.times (fun i => ctor_succeeds _ _ _) n) fun _ =>
    .bind (ctor_succeeds _ _ _) fun _ => ctor_succeeds _ _ _)
  intro s
  rw [h s]
  simp [calls, List.all_append, List.all_flatMap, Function.comp_def]

-- ---------------------------------------------------------------------------
-- All or nothing
-- ---------------------------------------------------------------------------

/-- A call of `sin_init` returns NULL exactly if one of its calls failed, and
it, or `sin_destroy` after it, releases all it acquired exactly once, nothing
else, and nothing that a running thread uses. -/
def AllOrNothing (nrings : Nat) (ok : Call → Bool) : Prop :=
  ((sinInit nrings ok).ret = none ↔ ∃ c ∈ calls nrings, ok c = false) ∧
    play uses (sinInit nrings ok).ledger ∅ = some ∅

theorem sinInit_ret : (sinInit n ok).ret = none ↔ ∃ c ∈ calls n, ok c = false := by
  have hcalls : (∃ c ∈ calls n, ok c = false) ↔ ((calls n).all ok) = false := by
    simp [List.all_eq_false]
  rw [hcalls, sinInit]
  cases h₀ : ok (.acquire .stance) with
  | false => simp [calls, h₀]
  | true =>
    have hb : ((body ok n).exec ⟨cleared n, [.stance]⟩).1.isOk = _ := body_succeeds _
    have hall : (calls n).all ok = (calls n).tail.all ok := by simp [calls, h₀]
    rw [hall, ← hb]
    simp only [if_true]
    rcases (body ok n).exec _ with ⟨_ | _, _⟩ <;> simp [Except.isOk, Except.toBool]

theorem sinInit_ledger :
    play uses (sinInit n ok).ledger ∅ = some (if Mapped ok then {.mem} else ∅) := by
  rw [sinInit]
  cases h₀ : ok (.acquire .stance) with
  | false => simp [Result.ledger, play, Mapped, h₀]
  | true =>
    have hb := body_triple (n := n) h₀ ⟨cleared n, [.stance]⟩ rfl
    rw [if_pos rfl]
    rcases hx : (body ok n).exec ⟨cleared n, [.stance]⟩ with ⟨l | _, s⟩
    · rw [hx] at hb
      simp only [Result.ledger, Option.elim_none, List.map_nil, List.append_nil]
      rw [play_all hb.nodup hb.perm (order_undo _ _) uses_self uses_mem]
      simp only [hb.mem]
    · rw [hx] at hb
      simp only [Result.ledger, Option.elim_some, List.map_nil, List.append_nil]
      rw [play_all hb.nodup hb.perm (order_destroy _) uses_self uses_mem]
      simp only [hb.mem]

/-- Only the mapping is ever left behind: by every call that got so far. -/
theorem sinInit_all_or_nothing (nrings : Nat) (ok : Call → Bool) :
    (AllOrNothing nrings ok ↔ Mapped ok = false) ∧
      play uses (sinInit nrings ok).ledger ∅ = some (if Mapped ok then {.mem} else ∅) := by
  refine ⟨?_, sinInit_ledger⟩
  rw [AllOrNothing, sinInit_ledger, and_iff_right sinInit_ret]
  cases Mapped ok <;> simp

/-- The second thread of a one-ring instance fails to start. -/
theorem sinInit_leaks : ¬ ∀ nrings ok, AllOrNothing nrings ok := by
  intro h
  have hplay := (h 1 fun c => c ≠ .acquire (.obj .txThread .hst)).2
  revert hplay
  decide

-- ---------------------------------------------------------------------------
-- What sin_destroy is left with
-- ---------------------------------------------------------------------------

/-- A part of `sin_init` that leaves `nrings` as it is. -/
def KeepsNrings (nrings : Nat) (m : Body α) : Prop :=
  Triple (fun s => s.sip.nrings = nrings) m (fun _ s => s.sip.nrings = nrings) fun _ _ => True

variable {nrings : Nat}

theorem KeepsNrings.bind {m : Body α} {f : α → Body β} (hm : KeepsNrings nrings m)
    (hf : ∀ a, KeepsNrings nrings (f a)) : KeepsNrings nrings (m >>= f) := Triple.bind hm hf

theorem call_nrings (c : Call) (l : Label) : KeepsNrings nrings (call ok c l) := by
  intro s hs
  cases hc : ok c <;> simp [call, hc, hs]

theorem take_nrings (res : Res) (l : Label) : KeepsNrings nrings (take ok res l) := by
  intro s hs
  cases hc : ok (.acquire res) <;> simp [take, hc, hs, State.push]

theorem ctor_nrings (f : Member) (r : Ring) (l : Label) : KeepsNrings nrings (ctor ok f r l) := by
  intro s hs
  cases hc : ok (.acquire (.obj f r)) <;> simp [ctor, hc, hs, State.push, State.setPtr]

theorem times_nrings {b : Nat → Body PUnit} (hb : ∀ i, KeepsNrings nrings (b i)) (k : Nat) :
    KeepsNrings nrings (times b k) := by
  induction k with
  | zero => exact fun s hs => hs
  | succ k ih => exact ih.bind fun _ => hb k

theorem setIfnot_nrings (r : Ring) (e : Bool) : KeepsNrings nrings (setIfnotErrElseRst ok r e) :=
  setIfnot_triple (fun _ _ hs => hs) fun _ hs => hs

theorem openPhy_nrings (k : Nat) : KeepsNrings nrings (openPhy ok k) := by
  induction k with
  | zero => exact fun s hs => hs
  | succ k ih => exact ih.bind fun e => setIfnot_nrings (.phy k) e

theorem gotoIf_nrings (e : Bool) (l : Label) : KeepsNrings nrings (gotoIf e l) := by
  intro s hs
  cases e <;> simp [gotoIf, hs]

theorem body_nrings (k : Nat) : KeepsNrings nrings (body ok k) :=
  .bind (take_nrings _ _) fun _ => .bind (call_nrings _ _) fun _ =>
  .bind (take_nrings _ _) fun _ => .bind (take_nrings _ _) fun _ =>
  .bind (openPhy_nrings _) fun _ => .bind (setIfnot_nrings _ _) fun _ => .bind (gotoIf_nrings _ _) fun _ =>
  .bind (times_nrings (fun _ => call_nrings _ _) _) fun _ => .bind (call_nrings _ _) fun _ =>
  .bind (times_nrings (fun _ => ctor_nrings _ _ _) _) fun _ =>
  .bind (times_nrings (fun _ => ctor_nrings _ _ _) _) fun _ =>
  .bind (ctor_nrings _ _ _) fun _ => .bind (ctor_nrings _ _ _) fun _ =>
  .bind (times_nrings (fun _ => ctor_nrings _ _ _) _) fun _ => .bind (ctor_nrings _ _ _) fun _ =>
  .bind (times_nrings (fun _ => .bind (ctor_nrings _ _ _) fun _ => call_nrings _ _) _) fun _ =>
  .bind (times_nrings (fun _ => ctor_nrings _ _ _) _) fun _ =>
  .bind (ctor_nrings _ _ _) fun _ => ctor_nrings _ _ _

/-- What a successful `sin_init` acquired: the mapping, and what `sin_destroy` releases. -/
theorem sinInit_acquired {sip : Stance} (h : (sinInit nrings ok).ret = some sip) :
    sip.nrings = nrings ∧ (sinDestroy sip).Nodup ∧ .mem ∉ sinDestroy sip ∧
      (sinInit nrings ok).acquired.toFinset = insert .mem (sinDestroy sip).toFinset := by
  have hcalls : ∀ c ∈ calls nrings, ok c = true := by
    intro c hc
    by_contra hfail
    simp [sinInit_ret.mpr ⟨c, hc, by simpa using hfail⟩] at h
  have h₀ : ok (.acquire .stance) = true := hcalls _ (by simp [calls])
  have hmapped : Mapped ok = true := by simp [Mapped, hcalls, calls]
  have hb := body_triple (n := nrings) h₀ ⟨cleared nrings, [.stance]⟩ rfl
  have hkeeps : KeepsNrings nrings (body ok nrings) := body_nrings nrings
  have hn := hkeeps ⟨cleared nrings, [.stance]⟩ rfl
  rw [sinInit, if_pos h₀] at h ⊢
  rcases hx : (body ok nrings).exec ⟨cleared nrings, [.stance]⟩ with ⟨l | _, s⟩
  · simp [hx] at h
  · rw [hx] at hb hn h
    obtain rfl : s.sip = sip := Option.some.inj h
    have hmem : ∀ res, res ∈ sinDestroy s.sip ↔ res ∈ s.acquired ∧ res ≠ .mem := fun res => by
      simp [hb.perm.mem_iff]
    refine ⟨hn, hb.perm.nodup_iff.mpr (hb.nodup.filter _), fun hin => ((hmem _).mp hin).2 rfl, ?_⟩
    ext res
    simp only [List.mem_toFinset, Finset.mem_insert, hmem]
    by_cases hres : res = .mem
    · simp [hres, hb.mem.mpr hmapped]
    · simp [hres]

end Libsinet.SinInit
