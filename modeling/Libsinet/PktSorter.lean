import Libsinet.Base.Machine
import Libsinet.SinList

/-!
# The packet sorter

`sin_pkt_sorter.c`, with registrations and other threads between any two steps
of `sin_pkt_sorter_proc`. A step of it is one evaluation of a loop condition
with what follows it; the call of a consumer and the reset of the list it was
given are one step, as nobody else looks at that list. Packets and entries are
linked in two stores, as no list holds both. Which `ap` an entry passes is left
to its taste and its consumer.
-/

namespace Libsinet.PktSorter

open Machine

/-- Where `sin_pkt_sorter_proc` is: not running, at the loop over the packets,
at the loop over the entries for one packet, at the loop over the work lists,
or at the sorter's own. -/
inductive Pc (E : Type u) (P : Type v)
  | idle
  | scan (pkt : Option P)
  | taste (pkt : P) (psep : Option E)
  | flush (psep : Option E)
  | flushDefault
  deriving DecidableEq, Repr

/-- `wrk none` is the work list of the sorter itself, for its default consumer.
The last four fields are a record: the entries in the order of the list, the
packets of the call, the entries there when a packet's scan began, and the
calls of consumers with what each was given. -/
structure State (E : Type u) (P : Type v) where
  links : Links P
  next : Links E
  first : Option E
  wrk : Option E → SinList P
  taste : E → P → Bool
  pc : Pc E P
  entries : List E
  input : List P
  snap : P → List E
  delivered : List (Option E × List P)

/-- `taste` of a call is what the entries say about its packets. -/
inductive Move (E : Type u) (P : Type v)
  | reg (ent : E)
  | proc (pl : SinList P) (taste : E → P → Bool)
  | step
  | relink (p : P) (np : Option P)

variable {E : Type u} {P : Type v} [DecidableEq E] [DecidableEq P]

def sinPktSorterReg (s : State E P) (ent : E) : State E P :=
  { s with
    wrk := Function.update s.wrk (some ent) .reset
    next := Function.update s.next ent s.first
    first := some ent
    entries := ent :: s.entries }

/-- A packet unlinked and appended to a work list. -/
def collect {C : Type w} [DecidableEq C] (m : Links P) (wrk : C → SinList P) (c : C) (pkt : P) :
    Links P × (C → SinList P) :=
  let r := sinListAppend (Function.update m pkt none) (wrk c) pkt
  (r.1, Function.update wrk c r.2)

/-- The next packet, after `pkt` went to the work list of `c`. -/
def collected (s : State E P) (c : Option E) (pkt : P) : State E P :=
  let r := collect s.links s.wrk c pkt
  { s with links := r.1, wrk := r.2, pc := .scan (s.links pkt) }

def flush (s : State E P) (c : Option E) (pc : Pc E P) : State E P :=
  if (s.wrk c).isEmpty then { s with pc }
  else
    { s with
      delivered := s.delivered ++ [(c, (s.wrk c).nodes s.links)]
      wrk := Function.update s.wrk c .reset, pc }

def procStep (s : State E P) : Option (State E P) :=
  match s.pc with
  | .idle => none
  | .scan none => some { s with pc := .flush s.first }
  | .scan (some pkt) =>
    some { s with pc := .taste pkt s.first, snap := Function.update s.snap pkt s.entries }
  | .taste pkt none => some (collected s none pkt)
  | .taste pkt (some psep) =>
    if s.taste psep pkt then some (collected s (some psep) pkt)
    else some { s with pc := .taste pkt (s.next psep) }
  | .flush none => some { s with pc := .flushDefault }
  | .flush (some psep) => some (flush s (some psep) (.flush (s.next psep)))
  | .flushDefault => some (flush s none .idle)

def State.Owns (s : State E P) (p : P) : Prop := p ∈ s.input ∧ ∀ d ∈ s.delivered, p ∉ d.2

instance (s : State E P) (p : P) : Decidable (s.Owns p) := inferInstanceAs (Decidable (_ ∧ _))

def step (s : State E P) : Move E P → Option (State E P)
  | .reg ent => if ent ∈ s.entries then none else some (sinPktSorterReg s ent)
  | .proc pl taste =>
    if s.pc = .idle ∧ pl.Holds s.links (pl.nodes s.links) then
      some { s with
        taste, pc := .scan pl.head, input := pl.nodes s.links, snap := fun _ => [], delivered := [] }
    else none
  | .step => procStep s
  | .relink p np =>
    if s.Owns p then none else some { s with links := Function.update s.links p np }

def Start (s : State E P) : Prop :=
  s.first = none ∧ s.wrk none = .reset ∧ s.pc = .idle ∧ s.entries = [] ∧ s.input = [] ∧
    s.delivered = [] ∧ ∀ p, s.snap p = []

abbrev machine (E : Type u) (P : Type v) [DecidableEq E] [DecidableEq P] :
    Machine (State E P) (Move E P) := ofFn Start step

-- ---------------------------------------------------------------------------
-- Which consumer a packet is for
-- ---------------------------------------------------------------------------

/-- The first entry that accepts the packet, in the list as it was when the
packet's scan began; `none` is the default. -/
def State.choice (s : State E P) (p : P) : Option E := (s.snap p).find? fun e => s.taste e p

def State.share (s : State E P) (c : Option E) : List P := s.input.filter fun p => s.choice p = c

def State.Known (s : State E P) (c : Option E) : Prop := ∀ e, c = some e → e ∈ s.entries

/-- What a call leaves: every packet was given to the consumer it is for, each
consumer was called at most once, with its packets in order and at least one,
and all work lists are empty. -/
structure State.Sorted (s : State E P) : Prop where
  once : (s.delivered.map Prod.fst).Nodup
  each : ∀ d ∈ s.delivered, d.2 ≠ [] ∧ d.2 = s.share d.1
  all : ∀ p ∈ s.input, ∃ d ∈ s.delivered, d.1 = s.choice p
  empty : ∀ c, s.Known c → s.wrk c = .reset

-- ---------------------------------------------------------------------------
-- collect
-- ---------------------------------------------------------------------------

section
variable {C : Type w} [DecidableEq C] {m : Links P} {wrk : C → SinList P} {c : C} {l : List P} {p : P}

omit [DecidableEq C] in
theorem holds_unlink (h : (wrk c).Holds m l) (hp : p ∉ l) :
    (wrk c).Holds (Function.update m p none) l :=
  h.congr fun _ hq => Function.update_of_ne (ne_of_mem_of_not_mem hq hp) _ _

theorem collect_self (h : (wrk c).Holds m l) (hp : p ∉ l) (hfits : (l ++ [p]).length < 2 ^ 32) :
    ((collect m wrk c p).2 c).Holds (collect m wrk c p).1 (l ++ [p]) := by
  simp only [collect, Function.update_self]
  exact sinListAppend_holds (holds_unlink h hp) (Function.update_self _ _ _) hp hfits

theorem collect_frame (h : (wrk c).Holds m l) (hp : p ∉ l) (hq : q ∉ l) (hne : q ≠ p) :
    (collect m wrk c p).1 q = m q := by
  simp only [collect]
  rw [sinListAppend_frame (holds_unlink h hp).toSpans hq, Function.update_of_ne hne]

theorem collect_other {k : List P} (h : (wrk c).Holds m l) (hp : p ∉ l) (hd : d ≠ c)
    (hk : (wrk d).Holds m k) (hpk : p ∉ k) (hdisj : ∀ q ∈ k, q ∉ l) :
    ((collect m wrk c p).2 d).Holds (collect m wrk c p).1 k := by
  simp only [collect, Function.update_of_ne hd]
  exact hk.congr fun q hq => collect_frame h hp (hdisj q hq) (ne_of_mem_of_not_mem hq hpk)

theorem collect_chain {a : Option P} {k : List P} (h : (wrk c).Holds m l) (hp : p ∉ l)
    (hk : Linked m a k) (hpk : p ∉ k) (hdisj : ∀ q ∈ k, q ∉ l) :
    Linked (collect m wrk c p).1 a k :=
  hk.congr fun q hq => collect_frame h hp (hdisj q hq) (ne_of_mem_of_not_mem hq hpk)

end

-- ---------------------------------------------------------------------------
-- Invariants
-- ---------------------------------------------------------------------------

/-- The entries are chained, and what a scan saw are entries. -/
structure Base (s : State E P) : Prop where
  entries : Linked s.next s.first s.entries
  snap : ∀ p, ∀ e ∈ s.snap p, e ∈ s.entries

/-- The packets before `rest` are on the work lists they are for. -/
structure Scanning (s : State E P) (done rest : List P) (pkt : Option P) : Prop where
  input : s.input = done ++ rest
  nodup : s.input.Nodup
  fits : s.input.length < 2 ^ 32
  chain : Linked s.links pkt rest
  wrk : ∀ c, s.Known c → (s.wrk c).Holds s.links (done.filter fun p => s.choice p = c)
  delivered : s.delivered = []

/-- The consumers in `todo` have their packets still to come. -/
structure Flushing (s : State E P) (todo : List (Option E)) : Prop where
  known : ∀ c ∈ todo, s.Known c
  todo_nodup : todo.Nodup
  wrk : ∀ c ∈ todo, (s.wrk c).Holds s.links (s.share c)
  reset : ∀ c, s.Known c → c ∉ todo → s.wrk c = .reset
  once : (s.delivered.map Prod.fst).Nodup
  each : ∀ d ∈ s.delivered, d.2 ≠ [] ∧ d.2 = s.share d.1 ∧ d.1 ∉ todo
  all : ∀ p ∈ s.input, s.choice p ∈ todo ∨ ∃ d ∈ s.delivered, d.1 = s.choice p

/-- What holds when `sin_pkt_sorter_proc` is at a place, `m` steps from its
return if nothing more is registered and every entry rejects every packet. -/
def InvAt (s : State E P) : Pc E P → Nat → Prop
  | .idle, _ => Flushing s []
  | .scan pkt, m => ∃ done rest, Scanning s done rest pkt ∧
      m = rest.length * (s.entries.length + 2) + s.entries.length + 3
  | .taste pkt psep, m => ∃ done rest pre suf, Scanning s done (pkt :: rest) (some pkt) ∧
      s.snap pkt = pre ++ suf ∧ (∀ e ∈ pre, s.taste e pkt = false) ∧ Linked s.next psep suf ∧
      m = rest.length * (s.entries.length + 2) + s.entries.length + 3 + (suf.length + 1)
  | .flush psep, m => ∃ suf, Linked s.next psep suf ∧ Flushing s (suf.map some ++ [none]) ∧
      m = suf.length + 2
  | .flushDefault, m => Flushing s [none] ∧ m = 1

variable {s s' : State E P}

omit [DecidableEq P] in
theorem Flushing.sorted (h : Flushing s []) : s.Sorted where
  once := h.once
  each d hd := ⟨(h.each d hd).1, (h.each d hd).2.1⟩
  all p hp := by simpa using h.all p hp
  empty c hc := h.reset c hc (by simp)

omit [DecidableEq E] [DecidableEq P] in
theorem choice_mem (hb : Base s) (p : P) : s.Known (s.choice p) := by
  intro e he
  exact hb.snap p e (List.mem_of_find?_eq_some he)

-- ---------------------------------------------------------------------------
-- The first pass
-- ---------------------------------------------------------------------------

omit [DecidableEq P] in
theorem Scanning.notMem {done rest : List P} {a : Option P}
    (h : Scanning s done (pkt :: rest) a) : pkt ∉ done ∧ pkt ∉ rest ∧ ∀ p ∈ rest, p ∉ done := by
  have hn := h.input ▸ h.nodup
  obtain ⟨-, hrest, hdisj⟩ := List.nodup_append.mp hn
  refine ⟨fun hd => hdisj pkt hd pkt (by simp) rfl, (List.nodup_cons.mp hrest).1, fun p hp hd => ?_⟩
  exact hdisj p hd p (List.mem_cons_of_mem _ hp) rfl

/-- The packet at hand goes to the consumer it is for. -/
theorem Scanning.collected (hb : Base s) {done rest : List P}
    (h : Scanning s done (pkt :: rest) (some pkt)) :
    Scanning (collected s (s.choice pkt) pkt) (done ++ [pkt]) rest (s.links pkt) := by
  obtain ⟨hdone, hrest, hdisj⟩ := h.notMem
  have hknown : s.Known (s.choice pkt) := choice_mem hb pkt
  have hself := h.wrk _ hknown
  have hmem : ∀ {p c}, p ∈ done.filter (fun p => s.choice p = c) → p ∈ done :=
    fun hp => (List.mem_filter.mp hp).1
  have hfits : (done.filter (fun p => s.choice p = s.choice pkt) ++ [pkt]).length < 2 ^ 32 := by
    have hle := List.length_filter_le (fun p => decide (s.choice p = s.choice pkt)) done
    have hinput := congrArg List.length h.input
    have hall := h.fits
    simp only [List.length_append, List.length_cons, List.length_nil] at hinput ⊢
    omega
  refine ⟨?_, h.nodup, h.fits, ?_, fun c hc => ?_, h.delivered⟩
  · rw [List.append_assoc]
    exact h.input
  · exact collect_chain hself (mt hmem hdone) h.chain.2 hrest fun q hq hq' => hdisj q hq (hmem hq')
  · show ((collect s.links s.wrk (s.choice pkt) pkt).2 c).Holds _ _
    rw [List.filter_append]
    by_cases hcc : c = s.choice pkt
    · subst hcc
      have hp : [pkt].filter (fun p => (PktSorter.collected s (s.choice pkt) pkt).choice p =
          s.choice pkt) = [pkt] := by
        rw [List.filter_cons_of_pos, List.filter_nil]
        exact decide_eq_true rfl
      rw [hp]
      exact collect_self hself (mt hmem hdone) hfits
    · have hp : [pkt].filter (fun p => (PktSorter.collected s (s.choice pkt) pkt).choice p = c) = [] := by
        rw [List.filter_cons_of_neg, List.filter_nil]
        exact fun he => hcc (Eq.symm (of_decide_eq_true he))
      rw [hp, List.append_nil]
      refine collect_other hself (mt hmem hdone) hcc (h.wrk c hc) (mt hmem hdone) ?_
      intro q hq hq'
      exact hcc ((of_decide_eq_true (List.mem_filter.mp hq).2).symm.trans
        (of_decide_eq_true (List.mem_filter.mp hq').2))

theorem Scanning.snap {done rest : List P} (h : Scanning s done (pkt :: rest) (some pkt)) :
    Scanning { s with pc := pc, snap := Function.update s.snap pkt s.entries } done (pkt :: rest)
      (some pkt) := by
  refine ⟨h.input, h.nodup, h.fits, h.chain, fun c hc => ?_, h.delivered⟩
  have hsame : ∀ p ∈ done, State.choice
      { s with pc := pc, snap := Function.update s.snap pkt s.entries } p = s.choice p := by
    intro p hp
    have hne : p ≠ pkt := ne_of_mem_of_not_mem hp h.notMem.1
    simp only [State.choice, Function.update_of_ne hne]
  show (s.wrk c).Holds s.links _
  rw [List.filter_congr fun p hp => by rw [hsame p hp]]
  exact h.wrk c hc

omit [DecidableEq P] in
theorem Scanning.flushing (hb : Base s) {done : List P} (h : Scanning s done [] none) :
    Flushing { s with pc := pc } (s.entries.map some ++ [none]) := by
  have hdone : done = s.input := by rw [h.input, List.append_nil]
  have hmem : ∀ c, s.Known c → c ∈ s.entries.map some ++ [none] := by
    intro c hc
    cases c with
    | none => simp
    | some e => simpa using hc e rfl
  refine ⟨fun c hc e he => ?_, ?_, fun c hc => ?_, fun c hc hn => absurd (hmem c hc) hn, ?_, ?_, ?_⟩
  · subst he
    simpa using hc
  · refine List.nodup_append.mpr ⟨?_, by simp, by simp⟩
    exact hb.entries.nodup.map fun _ _ he => Option.some.inj he
  · have hk : s.Known c := by
      rintro e rfl
      simpa using hc
    have hwrk := h.wrk c hk
    rw [hdone] at hwrk
    exact hwrk
  · simp [h.delivered]
  · simp [h.delivered]
  · exact fun p _ => .inl (hmem _ (choice_mem hb p))

-- ---------------------------------------------------------------------------
-- The second pass
-- ---------------------------------------------------------------------------

section

omit [DecidableEq P]

theorem Flushing.skip {c : Option E} {todo : List (Option E)} (h : Flushing s (c :: todo)) (pc : Pc E P)
    (he : (s.wrk c).isEmpty) : Flushing { s with pc := pc } todo := by
  obtain ⟨hc, htodo⟩ := List.nodup_cons.mp h.todo_nodup
  have hholds := h.wrk c List.mem_cons_self
  have hshare : s.share c = [] := hholds.isEmpty_iff.mp he
  refine ⟨fun d hd => h.known d (List.mem_cons_of_mem _ hd), htodo,
    fun d hd => h.wrk d (List.mem_cons_of_mem _ hd), fun d hk hd => ?_, h.once, fun d hd => ?_,
    fun p hp => ?_⟩
  · by_cases hdc : d = c
    · subst hdc
      rw [hshare] at hholds
      exact hholds.eq_reset
    · exact h.reset d hk (by simp [hdc, hd])
  · obtain ⟨hd₁, hd₂, hd₃⟩ := h.each d hd
    exact ⟨hd₁, hd₂, fun hmem => hd₃ (List.mem_cons_of_mem _ hmem)⟩
  · rcases h.all p hp with hmem | hd
    · rcases List.mem_cons.mp hmem with heq | hmem
      · have hin : p ∈ s.share c := List.mem_filter.mpr ⟨hp, decide_eq_true heq⟩
        simp [hshare] at hin
      · exact .inl hmem
    · exact .inr hd

theorem Flushing.deliver {c : Option E} {todo : List (Option E)} (h : Flushing s (c :: todo)) (pc : Pc E P)
    (he : ¬ (s.wrk c).isEmpty) :
    Flushing { s with
      delivered := s.delivered ++ [(c, (s.wrk c).nodes s.links)]
      wrk := Function.update s.wrk c .reset, pc := pc } todo := by
  obtain ⟨hc, htodo⟩ := List.nodup_cons.mp h.todo_nodup
  have hholds := h.wrk c List.mem_cons_self
  have hne : ∀ d ∈ todo, d ≠ c := fun d hd => ne_of_mem_of_not_mem hd hc
  have hshare : s.share c ≠ [] := fun hn => he (hholds.isEmpty_iff.mpr hn)
  have hnodes : (s.wrk c).nodes s.links = s.share c := hholds.nodes_eq
  refine ⟨fun d hd => h.known d (List.mem_cons_of_mem _ hd), htodo, fun d hd => ?_,
    fun d hk hd => ?_, ?_, fun d hd => ?_, fun p hp => ?_⟩
  · show (Function.update s.wrk c .reset d).Holds _ _
    rw [Function.update_of_ne (hne d hd)]
    exact h.wrk d (List.mem_cons_of_mem _ hd)
  · show Function.update s.wrk c .reset d = _
    by_cases hdc : d = c
    · subst hdc
      exact Function.update_self _ _ _
    · rw [Function.update_of_ne hdc]
      exact h.reset d hk (by simp [hdc, hd])
  · simp only [List.map_append, List.map_cons, List.map_nil]
    refine List.nodup_append.mpr ⟨h.once, by simp, ?_⟩
    intro d hd d' hd'
    obtain ⟨x, hx, rfl⟩ := List.mem_map.mp hd
    obtain rfl := List.mem_singleton.mp hd'
    exact fun heq => (h.each x hx).2.2 (heq ▸ List.mem_cons_self)
  · rcases List.mem_append.mp hd with hd | hd
    · obtain ⟨hd₁, hd₂, hd₃⟩ := h.each d hd
      exact ⟨hd₁, hd₂, fun hmem => hd₃ (List.mem_cons_of_mem _ hmem)⟩
    · obtain rfl := List.mem_singleton.mp hd
      exact ⟨hnodes ▸ hshare, hnodes, hc⟩
  · rcases h.all p hp with hmem | ⟨d, hd, heq⟩
    · rcases List.mem_cons.mp hmem with heq | hmem
      · exact .inr ⟨_, List.mem_append_right _ (List.mem_singleton.mpr rfl), heq.symm⟩
      · exact .inl hmem
    · exact .inr ⟨d, List.mem_append_left _ hd, heq⟩

theorem Flushing.flush {c : Option E} {todo : List (Option E)} (h : Flushing s (c :: todo)) (pc : Pc E P) :
    Flushing (flush s c pc) todo := by
  unfold PktSorter.flush
  split
  · exact h.skip pc ‹_›
  · exact h.deliver pc ‹_›

end

-- ---------------------------------------------------------------------------
-- Everybody else
-- ---------------------------------------------------------------------------

theorem Scanning.relink {done rest : List P} {a : Option P} (h : Scanning s done rest a)
    (hp : ¬ s.Owns p) : Scanning { s with links := Function.update s.links p np } done rest a := by
  have hin : p ∉ s.input := fun hin => hp ⟨hin, by simp [h.delivered]⟩
  rw [h.input, List.mem_append, not_or] at hin
  refine ⟨h.input, h.nodup, h.fits, h.chain.update_of_notMem hin.2, fun c hc => ?_, h.delivered⟩
  refine (h.wrk c hc).congr fun q hq => Function.update_of_ne ?_ _ _
  exact ne_of_mem_of_not_mem (List.mem_filter.mp hq).1 hin.1

theorem Flushing.relink {todo : List (Option E)} (h : Flushing s todo) (hp : ¬ s.Owns p) :
    Flushing { s with links := Function.update s.links p np } todo := by
  refine ⟨h.known, h.todo_nodup, fun c hc => ?_, h.reset, h.once, h.each, h.all⟩
  refine (h.wrk c hc).congr fun q hq => Function.update_of_ne ?_ _ _
  rintro rfl
  obtain ⟨hin, hqc⟩ := List.mem_filter.mp hq
  refine hp ⟨hin, fun d hd hqd => ?_⟩
  -- a packet delivered is for the consumer it was delivered to
  obtain ⟨-, hd₂, hd₃⟩ := h.each d hd
  rw [hd₂] at hqd
  have hdc : s.choice q = d.1 := of_decide_eq_true (List.mem_filter.mp hqd).2
  exact hd₃ (hdc ▸ of_decide_eq_true hqc ▸ hc)

section

omit [DecidableEq P]

theorem known_reg {ent : E} {c : Option E} :
    (sinPktSorterReg s ent).Known c ↔ c = some ent ∨ s.Known c := by
  cases c with
  | none => simp [State.Known]
  | some e => simp [State.Known, sinPktSorterReg]

theorem Base.reg (hb : Base s) (he : ent ∉ s.entries) : Base (sinPktSorterReg s ent) := by
  refine ⟨⟨rfl, ?_⟩, fun p e hp => List.mem_cons_of_mem _ (hb.snap p e hp)⟩
  show Linked (Function.update s.next ent s.first) (Function.update s.next ent s.first ent) s.entries
  rw [Function.update_self]
  exact hb.entries.update_of_notMem he

/-- No packet is for an entry that came after its scan. -/
theorem Scanning.reg {done rest : List P} {a : Option P} (hb : Base s) (h : Scanning s done rest a)
    (he : ent ∉ s.entries) : Scanning (sinPktSorterReg s ent) done rest a := by
  refine ⟨h.input, h.nodup, h.fits, h.chain, fun c hc => ?_, h.delivered⟩
  show (Function.update s.wrk (some ent) .reset c).Holds s.links _
  by_cases hce : c = some ent
  · subst hce
    have hnone : done.filter (fun p => (sinPktSorterReg s ent).choice p = some ent) = [] := by
      refine List.filter_eq_nil_iff.mpr fun p _ hp => he ?_
      exact choice_mem hb p ent (of_decide_eq_true hp)
    rw [Function.update_self, hnone]
    exact SinList.reset_holds _
  · rw [Function.update_of_ne hce]
    exact h.wrk c ((known_reg.mp hc).resolve_left hce)

theorem Flushing.reg {todo : List (Option E)} (h : Flushing s todo) (he : ent ∉ s.entries) :
    Flushing (sinPktSorterReg s ent) todo := by
  have hne : ∀ c ∈ todo, c ≠ some ent := fun c hc heq => he (h.known c hc ent heq)
  refine ⟨fun c hc => known_reg.mpr (.inr (h.known c hc)), h.todo_nodup, fun c hc => ?_,
    fun c hk hc => ?_, h.once, h.each, h.all⟩
  · show (Function.update s.wrk (some ent) .reset c).Holds s.links _
    rw [Function.update_of_ne (hne c hc)]
    exact h.wrk c hc
  · show Function.update s.wrk (some ent) .reset c = _
    by_cases hce : c = some ent
    · subst hce
      exact Function.update_self _ _ _
    · rw [Function.update_of_ne hce]
      exact h.reset c ((known_reg.mp hk).resolve_left hce) hc

end

-- ---------------------------------------------------------------------------
-- Steps
-- ---------------------------------------------------------------------------

omit [DecidableEq E] [DecidableEq P] in
theorem Base.congr {s s' : State E P} (hb : Base s) (hn : s'.next = s.next) (hf : s'.first = s.first)
    (he : s'.entries = s.entries) (hs : ∀ p, ∀ e ∈ s'.snap p, e ∈ s.entries) : Base s' :=
  ⟨by rw [hn, hf, he]; exact hb.entries, by rw [he]; exact hs⟩

omit [DecidableEq P] in
theorem flush_frame (s : State E P) (c : Option E) (pc : Pc E P) :
    (flush s c pc).pc = pc ∧ (flush s c pc).next = s.next ∧ (flush s c pc).first = s.first ∧
      (flush s c pc).entries = s.entries ∧ (flush s c pc).snap = s.snap := by
  unfold flush
  split <;> exact ⟨rfl, rfl, rfl, rfl, rfl⟩

omit [DecidableEq E] [DecidableEq P] in
theorem choice_eq {pre suf : List E} (hsnap : s.snap pkt = pre ++ suf) (hpre : ∀ e ∈ pre, s.taste e pkt = false) :
    s.choice pkt = suf.find? fun e => s.taste e pkt := by
  have hnone : pre.find? (fun e => s.taste e pkt) = none := List.find?_eq_none.mpr fun e he => by simp [hpre e he]
  rw [State.choice, hsnap, List.find?_append, hnone, Option.none_or]

/-- The invariant, with less than `m` steps to go. -/
def Closer (s : State E P) (m : Nat) : Prop := Base s ∧ ∃ m' < m, InvAt s s.pc m'

/-- A packet begins its way along the entries. -/
theorem closer_taste (hb : Base s) (h : InvAt s (.scan (some pkt)) m) :
    Closer { s with pc := .taste pkt s.first, snap := Function.update s.snap pkt s.entries } m := by
  obtain ⟨done, rest, h, rfl⟩ := h
  obtain ⟨rest, rfl, -⟩ := h.chain.eq_cons
  refine ⟨hb.congr rfl rfl rfl fun p e he => ?_, _, ?_, done, rest, [], s.entries, h.snap, ?_, ?_,
    hb.entries, rfl⟩
  · by_cases hp : p = pkt
    · simpa [hp] using he
    · exact hb.snap p e (by simpa [hp] using he)
  · rw [List.length_cons, Nat.succ_mul]
    dsimp only
    omega
  · exact Function.update_self _ _ _
  · simp

theorem closer_collected {done rest : List P} {k : Nat} (hb : Base s)
    (h : Scanning s done (pkt :: rest) (some pkt)) (hc : s.choice pkt = c) :
    Closer (collected s c pkt) (rest.length * (s.entries.length + 2) + s.entries.length + 3 + (k + 1)) := by
  refine ⟨hb.congr rfl rfl rfl hb.snap, _, Nat.lt_add_of_pos_right (Nat.succ_pos _), done ++ [pkt], rest, ?_, rfl⟩
  rw [← hc]
  exact h.collected hb

theorem closer_accepted (hb : Base s) (h : InvAt s (.taste pkt (some psep)) m) (ht : s.taste psep pkt = true) :
    Closer (collected s (some psep) pkt) m := by
  obtain ⟨done, rest, pre, suf, h, hsnap, hpre, hsuf, rfl⟩ := h
  obtain ⟨suf, rfl, -⟩ := hsuf.eq_cons
  refine closer_collected hb h ?_
  rw [choice_eq hsnap hpre, List.find?_cons, ht]

omit [DecidableEq P] in
theorem closer_rejected (hb : Base s) (h : InvAt s (.taste pkt (some psep)) m) (ht : ¬ s.taste psep pkt = true) :
    Closer { s with pc := .taste pkt (s.next psep) } m := by
  obtain ⟨done, rest, pre, suf, h, hsnap, hpre, hsuf, rfl⟩ := h
  obtain ⟨suf, rfl, hnext⟩ := hsuf.eq_cons
  refine ⟨hb.congr rfl rfl rfl hb.snap, _, Nat.add_lt_add_left (Nat.lt_succ_self _) _, done, rest,
    pre ++ [psep], suf, ⟨h.input, h.nodup, h.fits, h.chain, h.wrk, h.delivered⟩, by simp [hsnap],
    fun e he => ?_, hnext, rfl⟩
  rcases List.mem_append.mp he with he | he
  · exact hpre e he
  · rw [List.mem_singleton.mp he]
    simpa using ht

omit [DecidableEq P] in
theorem closer_flush {c : Option E} {pc : Pc E P} {k : Nat} (hb : Base s) (hlt : k < m)
    (h : InvAt (flush s c pc) pc k) : Closer (flush s c pc) m := by
  obtain ⟨hpc, hn, hf, he, hs⟩ := flush_frame s c pc
  refine ⟨hb.congr hn hf he (hs ▸ hb.snap), k, hlt, ?_⟩
  rwa [hpc]

theorem procStep_inv (hb : Base s) (h : InvAt s s.pc m) (hs : procStep s = some s') :
    Base s' ∧ ∃ m' < m, InvAt s' s'.pc m' := by
  unfold procStep at hs
  split at hs
  case h_1 => cases hs
  case h_2 hpc =>
    cases hs
    rw [hpc] at h
    obtain ⟨done, rest, h, rfl⟩ := h
    obtain rfl := h.chain.none_iff.mp rfl
    exact ⟨hb.congr rfl rfl rfl hb.snap, _, by simp, s.entries, hb.entries, h.flushing hb, rfl⟩
  case h_3 pkt hpc =>
    cases hs
    exact closer_taste hb (hpc ▸ h)
  case h_4 pkt hpc =>
    cases hs
    rw [hpc] at h
    obtain ⟨done, rest, pre, suf, h, hsnap, hpre, hsuf, rfl⟩ := h
    obtain rfl := hsuf.none_iff.mp rfl
    exact closer_collected hb h (choice_eq hsnap hpre)
  case h_5 pkt psep hpc =>
    rw [hpc] at h
    split at hs
    · rename_i ht
      cases hs
      exact closer_accepted hb h ht
    · rename_i ht
      cases hs
      exact closer_rejected hb h ht
  case h_6 hpc =>
    cases hs
    rw [hpc] at h
    obtain ⟨suf, hsuf, h, rfl⟩ := h
    obtain rfl := hsuf.none_iff.mp rfl
    exact ⟨hb.congr rfl rfl rfl hb.snap, 1, by simp,
      ⟨h.known, h.todo_nodup, h.wrk, h.reset, h.once, h.each, h.all⟩, rfl⟩
  case h_7 psep hpc =>
    cases hs
    rw [hpc] at h
    obtain ⟨suf, hsuf, h, rfl⟩ := h
    obtain ⟨suf, rfl, hnext⟩ := hsuf.eq_cons
    have hframe := flush_frame s (some psep) (.flush (s.next psep))
    refine closer_flush hb (Nat.lt_succ_self _) ⟨suf, ?_, h.flush _, rfl⟩
    rw [hframe.2.1]
    exact hnext
  case h_8 hpc =>
    cases hs
    rw [hpc] at h
    obtain ⟨h, rfl⟩ := h
    exact closer_flush (k := 0) hb Nat.one_pos (h.flush _)

omit [DecidableEq P] in
theorem InvAt.reg (hb : Base s) (he : ent ∉ s.entries) {pc : Pc E P} (h : InvAt s pc m) :
    ∃ m', InvAt (sinPktSorterReg s ent) pc m' := by
  have hchain : ∀ {a suf}, Linked s.next a suf → (∀ e ∈ suf, e ∈ s.entries) →
      Linked (sinPktSorterReg s ent).next a suf :=
    fun hl hsub => hl.update_of_notMem fun hmem => he (hsub _ hmem)
  cases pc with
  | idle => exact ⟨m, Flushing.reg h he⟩
  | scan pkt =>
    obtain ⟨done, rest, h, -⟩ := h
    exact ⟨_, done, rest, h.reg hb he, rfl⟩
  | taste pkt psep =>
    obtain ⟨done, rest, pre, suf, h, hsnap, hpre, hsuf, -⟩ := h
    refine ⟨_, done, rest, pre, suf, h.reg hb he, hsnap, hpre, hchain hsuf fun e hmem => ?_, rfl⟩
    exact hb.snap pkt e (hsnap ▸ List.mem_append_right _ hmem)
  | flush psep =>
    obtain ⟨suf, hsuf, h, -⟩ := h
    refine ⟨_, suf, hchain hsuf fun e hmem => h.known (some e) ?_ e rfl, h.reg he, rfl⟩
    simp [hmem]
  | flushDefault => exact ⟨1, Flushing.reg h.1 he, rfl⟩

theorem InvAt.relink (hp : ¬ s.Owns p) {pc : Pc E P} (h : InvAt s pc m) :
    InvAt { s with links := Function.update s.links p np } pc m := by
  cases pc with
  | idle => exact Flushing.relink h hp
  | scan pkt =>
    obtain ⟨done, rest, h, hm⟩ := h
    exact ⟨done, rest, h.relink hp, hm⟩
  | taste pkt psep =>
    obtain ⟨done, rest, pre, suf, h, hsnap, hpre, hsuf, hm⟩ := h
    exact ⟨done, rest, pre, suf, h.relink hp, hsnap, hpre, hsuf, hm⟩
  | flush psep =>
    obtain ⟨suf, hsuf, h, hm⟩ := h
    exact ⟨suf, hsuf, h.relink hp, hm⟩
  | flushDefault => exact ⟨Flushing.relink h.1 hp, h.2⟩

omit [DecidableEq P] in
theorem Flushing.call {pl : SinList P} {taste : E → P → Bool} (h : Flushing s [])
    (hl : pl.Holds s.links (pl.nodes s.links)) :
    Scanning { s with
      taste, pc := .scan pl.head, input := pl.nodes s.links, snap := fun _ => [], delivered := [] }
      [] (pl.nodes s.links) pl.head := by
  refine ⟨rfl, hl.chain.nodup, hl.fits, hl.chain, fun c hc => ?_, rfl⟩
  show (s.wrk c).Holds s.links []
  rw [h.reset c hc (by simp)]
  exact SinList.reset_holds _

theorem step_inv (hb : Base s) (h : InvAt s s.pc m) (hs : step s a = some s') :
    Base s' ∧ ∃ m', InvAt s' s'.pc m' := by
  cases a with
  | reg ent =>
    obtain ⟨he, rfl⟩ : ent ∉ s.entries ∧ sinPktSorterReg s ent = s' := by simpa [step] using hs
    exact ⟨hb.reg he, InvAt.reg hb he h⟩
  | proc pl taste =>
    simp only [step] at hs
    split at hs
    · rename_i hg
      cases hs
      rw [hg.1] at h
      exact ⟨hb.congr rfl rfl rfl (by simp), _, [], _, Flushing.call h hg.2, rfl⟩
    · cases hs
  | step =>
    obtain ⟨hb', m', -, h'⟩ := procStep_inv hb h hs
    exact ⟨hb', m', h'⟩
  | relink p np =>
    obtain ⟨hp, rfl⟩ : ¬ s.Owns p ∧ { s with links := Function.update s.links p np } = s' := by
      simpa [step] using hs
    exact ⟨hb.congr rfl rfl rfl hb.snap, m, InvAt.relink hp h⟩

omit [DecidableEq P] in
theorem inv_of_start (h : Start s) : Base s ∧ ∃ m, InvAt s s.pc m := by
  obtain ⟨hf, hw, hpc, he, hi, hd, hs⟩ := h
  refine ⟨⟨by simp [he, hf], by simp [hs]⟩, 0, ?_⟩
  rw [hpc]
  refine ⟨by simp, by simp, by simp, fun c hc _ => ?_, by simp [hd], by simp [hd], by simp [hi]⟩
  cases c with
  | none => exact hw
  | some e => simpa [he] using hc e rfl

theorem inv_of_reachable (h : (machine E P).Reachable s) : Base s ∧ ∃ m, InvAt s s.pc m := by
  refine h.induct (fun _ => inv_of_start) fun s a s' hi hs => ?_
  obtain ⟨hb, m, hm⟩ := hi
  exact step_inv hb hm hs

theorem procStep_isSome (h : s.pc ≠ .idle) : ∃ s', procStep s = some s' := by
  unfold procStep
  split
  case h_1 hpc => exact absurd hpc h
  case h_5 => split <;> exact ⟨_, rfl⟩
  all_goals exact ⟨_, rfl⟩

theorem procStep_returns (m : Nat) (hb : Base s) (h : InvAt s s.pc m) :
    ∃ n s', exec step s (List.replicate n .step) = some s' ∧ s'.pc = .idle := by
  induction m using Nat.strong_induction_on generalizing s with
  | _ m ih =>
    by_cases hpc : s.pc = .idle
    · exact ⟨0, s, rfl, hpc⟩
    · obtain ⟨t, ht⟩ := procStep_isSome hpc
      obtain ⟨hb', m', hlt, h'⟩ := procStep_inv hb h ht
      obtain ⟨n, s', hexec, hidle⟩ := ih m' hlt hb' h'
      exact ⟨n + 1, s', exec_cons.mpr ⟨t, ht, hexec⟩, hidle⟩

-- ---------------------------------------------------------------------------
-- Sorting
-- ---------------------------------------------------------------------------

/-- Whenever `sin_pkt_sorter_proc` is not running, its last call has sorted
its packets, and from everywhere else it gets there; each list it gives away
is in order when its consumer is called. -/
theorem sinPktSorterProc_sorts (h : (machine E P).Reachable s) :
    (s.pc = .idle → s.Sorted) ∧
      (∃ n s', exec step s (List.replicate n .step) = some s' ∧ s'.pc = .idle) ∧
      (∀ psep, s.pc = .flush (some psep) → (s.wrk (some psep)).Holds s.links (s.share (some psep))) ∧
      (s.pc = .flushDefault → (s.wrk none).Holds s.links (s.share none)) := by
  obtain ⟨hb, m, hinv⟩ := inv_of_reachable h
  refine ⟨fun hpc => ?_, procStep_returns m hb hinv, fun psep hpc => ?_, fun hpc => ?_⟩
  · rw [hpc] at hinv
    exact Flushing.sorted hinv
  · rw [hpc] at hinv
    obtain ⟨suf, hsuf, hinv, -⟩ := hinv
    obtain ⟨suf, rfl, -⟩ := hsuf.eq_cons
    exact hinv.wrk _ (by simp)
  · rw [hpc] at hinv
    exact hinv.1.wrk _ (by simp)

/-- One entry at first, which takes the even packets; one that takes all is
registered when the scan of the second packet is under way. -/
def liveRun : List (Move (Fin 2) (Fin 4)) :=
  [.reg 0, .relink 3 none, .relink 2 (some 3), .relink 1 (some 2),
    .proc ⟨some 1, some 3, 3⟩ fun e p => e = 1 ∨ p.val % 2 = 0, .step, .step, .step, .step, .reg 1] ++
    List.replicate 8 .step

def emptySorter : State (Fin 2) (Fin 4) :=
  ⟨fun _ => none, fun _ => none, none, fun _ => .reset, fun _ _ => false, .idle, [], [], fun _ => [], []⟩

theorem emptySorter_init : (machine (Fin 2) (Fin 4)).init emptySorter :=
  ⟨rfl, rfl, rfl, rfl, rfl, rfl, fun _ => rfl⟩

theorem sinPktSorterProc_live : ∃ s : State (Fin 2) (Fin 4),
    s.delivered = [(some 1, [3]), (some 0, [2]), (none, [1])] ∧ s.Sorted := by
  obtain ⟨s, hs, hp⟩ := Reachable.of_test step liveRun
    (fun s => decide (s.pc = .idle ∧ s.delivered = [(some 1, [3]), (some 0, [2]), (none, [1])]))
    emptySorter_init (by decide)
  obtain ⟨hpc, hd⟩ := of_decide_eq_true hp
  exact ⟨s, hd, (sinPktSorterProc_sorts hs).1 hpc⟩

end Libsinet.PktSorter
