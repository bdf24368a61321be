import Libsinet.Base.Machine
import Mathlib.Logic.Function.Basic

/-!
# Starting a worker thread

`sin_tx_thread_ctor` and `sin_rx_thread_ctor` with the `sin_wrk_thread_ctor`
they call, one step for each call or store, against the thread that
`pthread_create` makes runnable. The thread's steps are its calls through the
methods of its own `sin_type_wrk_thread`: `get_tname`, then `check_ctrl` once
for each cycle of its loop.
-/

namespace Libsinet.WrkThreadStart

open Machine

/-- Whose constructor is running. -/
inductive Kind
  | tx
  | rx
  deriving DecidableEq, Repr

/-- The methods of `sin_type_wrk_thread`, in the order they are assigned. -/
inductive Method
  | dtor
  | checkCtrl
  | notifyOnCtrl
  | getTname
  deriving DecidableEq, Repr

/-- The constructor's next step: a call that may fail, the store to a method
slot, the call of `notify_on_ctrl`, or a step of the way back. -/
inductive Pc
  | malloc
  | wiQueueCtor
  | mallocPvt
  | asprintf
  | ctrlQueueCtor
  | signalCtor
  | pthreadCreate
  | assign (m : Method)
  | notify
  | returned
  | signalDtor
  | ctrlQueueDtor
  | freeTname
  | freePvt
  | wiQueueDtor
  | free
  | failed
  deriving DecidableEq, Repr

/-- The new thread: not there yet, about to call a method, out of its loop, or
gone through a NULL slot. -/
inductive Thread
  | none
  | calls (m : Method)
  | exited
  | crashed (m : Method)
  deriving DecidableEq, Repr

structure State where
  pc : Pc
  slots : Method → Bool
  thread : Thread
  notified : Bool

/-- `fail` is the outcome of the constructor's call, if it can fail; `sigterm`
what `check_ctrl` finds. -/
inductive Move
  | ctor (fail : Bool)
  | thread (sigterm : Bool)

-- ---------------------------------------------------------------------------
-- The constructors
-- ---------------------------------------------------------------------------

/-- Where `sin_wrk_thread_ctor` returns 0 to. -/
def Kind.success : Kind → Pc
  | .tx => .notify
  | .rx => .returned

def Kind.undo : Kind → Pc
  | .tx => .wiQueueDtor
  | .rx => .free

def ctorStep (kind : Kind) (s : State) (fail : Bool) : State :=
  match s.pc with
  | .malloc =>
    if fail then { s with pc := .failed }
    -- the memset that follows clears the slots
    else { s with slots := fun _ => false, pc := if kind = .tx then .wiQueueCtor else .mallocPvt }
  | .wiQueueCtor => { s with pc := if fail then .free else .mallocPvt }
  | .mallocPvt => { s with pc := if fail then kind.undo else .asprintf }
  | .asprintf => { s with pc := if fail then .freePvt else .ctrlQueueCtor }
  | .ctrlQueueCtor => { s with pc := if fail then .freeTname else .signalCtor }
  | .signalCtor => { s with pc := if fail then .ctrlQueueDtor else .pthreadCreate }
  | .pthreadCreate =>
    if fail then { s with pc := .signalDtor }
    else { s with thread := .calls .getTname, pc := .assign .dtor }
  | .assign m =>
    { s with
      slots := Function.update s.slots m true
      pc := match m with
        | .dtor => .assign .checkCtrl
        | .checkCtrl => .assign .notifyOnCtrl
        | .notifyOnCtrl => .assign .getTname
        | .getTname => kind.success }
  | .notify => { s with notified := true, pc := .returned }
  | .signalDtor => { s with pc := .ctrlQueueDtor }
  | .ctrlQueueDtor => { s with pc := .freeTname }
  | .freeTname => { s with pc := .freePvt }
  | .freePvt => { s with pc := kind.undo }
  | .wiQueueDtor => { s with pc := .free }
  | .free => { s with pc := .failed }
  | .returned => s
  | .failed => s

-- ---------------------------------------------------------------------------
-- The thread
-- ---------------------------------------------------------------------------

/-- What `sin_tx_thread` and `sin_rx_thread` do after a call of a method. -/
def Thread.after (sigterm : Bool) : Method → Thread
  | .checkCtrl => if sigterm then .exited else .calls .checkCtrl
  | _ => .calls .checkCtrl

def threadStep (s : State) (sigterm : Bool) : State :=
  match s.thread with
  | .calls m => { s with thread := if s.slots m then .after sigterm m else .crashed m }
  | _ => s

def step (kind : Kind) (s : State) : Move → Option State
  | .ctor fail => some (ctorStep kind s fail)
  | .thread sigterm => if s.thread = .none then none else some (threadStep s sigterm)

def start : State := ⟨.malloc, fun _ => false, .none, false⟩

abbrev machine (kind : Kind) : Machine State Move := ofFn (fun s => s = start) (step kind)

theorem start_init (kind : Kind) : (machine kind).init start := rfl

-- ---------------------------------------------------------------------------
-- What the constructor has assigned
-- ---------------------------------------------------------------------------

/-- The slots assigned when the constructor is at a step. -/
def Pc.assigned : Pc → Method → Bool
  | .assign .dtor, _ => false
  | .assign .checkCtrl, m => m = .dtor
  | .assign .notifyOnCtrl, m => m = .dtor ∨ m = .checkCtrl
  | .assign .getTname, m => m ≠ .getTname
  | .notify, _ => true
  | .returned, _ => true
  | _, _ => false

/-- The constructor is past its last store to a slot. -/
def Pc.isPast : Pc → Bool
  | .notify => true
  | .returned => true
  | _ => false

/-- The constructor is past `pthread_create`, and it went well. -/
def Pc.isCreated : Pc → Bool
  | .assign _ => true
  | pc => pc.isPast

structure Inv (s : State) : Prop where
  slots : s.slots = s.pc.assigned
  created : s.thread ≠ .none → s.pc.isCreated = true

/-- A thread that got past `get_tname` finds all slots assigned. -/
def Safe (s : State) : Prop :=
  (∀ m, s.thread ≠ .crashed m) ∧ (∀ m, s.thread = .calls m → m = .getTname ∨ s.pc.isPast = true)

theorem assigned_isPast {pc : Pc} (h : pc.isPast = true) (m : Method) : pc.assigned m = true := by
  cases pc <;> first | rfl | cases h

theorem update_assigned (m : Method) (kind : Kind) :
    Function.update (Pc.assign m).assigned m true = (match m with
      | .dtor => .assign .checkCtrl
      | .checkCtrl => .assign .notifyOnCtrl
      | .notifyOnCtrl => .assign .getTname
      | .getTname => kind.success : Pc).assigned := by
  funext x
  cases m <;> cases kind <;> cases x <;> rfl

variable {kind : Kind} {s s' : State}

theorem step_thread (h : step kind s (.thread sigterm) = some s') :
    s.thread ≠ .none ∧ threadStep s sigterm = s' := by
  simpa [step] using h

theorem Inv.ctor (h : Inv s) (fail : Bool) : Inv (ctorStep kind s fail) := by
  obtain ⟨pc, slots, thread, notified⟩ := s
  obtain ⟨hslots, hc⟩ := h
  dsimp only at hslots hc
  subst hslots
  cases pc with
  | assign m =>
    refine ⟨update_assigned m kind, fun _ => ?_⟩
    cases m <;> cases kind <;> rfl
  | notify => exact ⟨rfl, fun _ => rfl⟩
  | returned => exact ⟨rfl, hc⟩
  | pthreadCreate => cases fail <;> exact ⟨rfl, fun h => by first | rfl | cases hc h⟩
  | _ => cases fail <;> cases kind <;> exact ⟨rfl, fun h => by cases hc h⟩

theorem Inv.thread (h : Inv s) (hn : s.thread ≠ .none) (sigterm : Bool) :
    Inv (threadStep s sigterm) := by
  unfold threadStep
  split
  · exact ⟨h.slots, fun _ => h.created hn⟩
  · exact h

theorem Inv.step (h : Inv s) (hs : step kind s a = some s') : Inv s' := by
  cases a with
  | ctor fail =>
    cases hs
    exact h.ctor fail
  | thread sigterm =>
    obtain ⟨hn, rfl⟩ := step_thread hs
    exact h.thread hn sigterm

theorem inv_of_reachable (h : (machine kind).Reachable s) : Inv s := by
  refine h.induct ?_ fun _ _ _ => Inv.step
  rintro s rfl
  exact ⟨rfl, fun hn => absurd rfl hn⟩

-- ---------------------------------------------------------------------------
-- Schedules
-- ---------------------------------------------------------------------------

/-- The thread's first call comes when the constructor has made its last
assignment. -/
def Late (s : State) : Move → Prop
  | .ctor _ => True
  | .thread _ => s.thread = .calls .getTname → s.pc.isPast = true

instance : ∀ s a, Decidable (Late s a)
  | _, .ctor _ => inferInstanceAs (Decidable True)
  | _, .thread _ => inferInstanceAs (Decidable (_ → _))

theorem isPast_ctor (h : s.pc.isPast = true) (fail : Bool) :
    (ctorStep kind s fail).pc.isPast = true := by
  obtain ⟨pc, slots, thread, notified⟩ := s
  cases pc <;> first | rfl | cases h

theorem thread_ctor (h : s.pc ≠ .pthreadCreate) (fail : Bool) :
    (ctorStep kind s fail).thread = s.thread := by
  obtain ⟨pc, slots, thread, notified⟩ := s
  cases pc with
  | malloc => cases fail <;> rfl
  | pthreadCreate => exact absurd rfl h
  | _ => rfl

theorem Safe.ctor (h : Safe s) (fail : Bool) : Safe (ctorStep kind s fail) := by
  by_cases hpc : s.pc = .pthreadCreate
  · obtain ⟨pc, slots, thread, notified⟩ := s
    cases hpc
    cases fail with
    | true => exact ⟨h.1, fun m hm => (h.2 m hm).imp_right fun hp => by cases hp⟩
    | false => exact ⟨by rintro m ⟨⟩, by rintro m ⟨⟩; exact .inl rfl⟩
  · unfold Safe
    rw [thread_ctor hpc]
    exact ⟨h.1, fun m hm => (h.2 m hm).imp_right fun hp => isPast_ctor hp fail⟩

theorem Safe.thread (hi : Inv s) (h : Safe s) (hl : Late s (.thread sigterm)) :
    Safe (threadStep s sigterm) := by
  unfold threadStep
  split
  · rename_i m hm
    have hpast : s.pc.isPast = true := (h.2 m hm).elim (fun he => hl (he ▸ hm)) id
    have hslot : s.slots m = true := by
      rw [hi.slots]
      exact assigned_isPast hpast m
    rw [if_pos hslot]
    refine ⟨fun m' => ?_, fun _ _ => .inr hpast⟩
    cases m <;> cases sigterm <;> rintro ⟨⟩
  · exact h

theorem safe_of_late (h : (machine kind).ReachableBy Late s) : Safe s := by
  refine h.induct (fun s h => inv_of_reachable h.reachable) ?_ ?_
  · rintro s rfl
    exact ⟨by rintro m ⟨⟩, by rintro m ⟨⟩⟩
  · intro s a s' hi ih hl hs
    cases a with
    | ctor fail =>
      cases hs
      exact ih.ctor fail
    | thread sigterm =>
      obtain ⟨-, rfl⟩ := step_thread hs
      exact ih.thread hi hl

theorem crashed_of_early (hi : Inv s) (hs : step kind s a = some s') (h : ¬ Late s a) :
    s'.thread = .crashed .getTname := by
  cases a with
  | ctor fail => exact absurd trivial h
  | thread sigterm =>
    obtain ⟨-, rfl⟩ := step_thread hs
    obtain ⟨hcall, hpast⟩ := Classical.not_imp.mp h
    have hslot : s.slots .getTname = false := by
      have hc := hi.created (by simp [hcall])
      rw [hi.slots]
      cases hpc : s.pc with
      | assign m => cases m <;> rfl
      | _ => simp [hpc, Pc.isCreated, Pc.isPast] at hc hpast
    simp [threadStep, hcall, hslot]

theorem crashed_step (h : s.thread = .crashed m) (hi : Inv s) (hs : step kind s a = some s') :
    s'.thread = .crashed m := by
  cases a with
  | ctor fail =>
    cases hs
    have hc := hi.created (by simp [h])
    rw [thread_ctor (fun hpc => by simp [hpc, Pc.isCreated, Pc.isPast] at hc), h]
  | thread sigterm =>
    obtain ⟨-, rfl⟩ := step_thread hs
    simp [threadStep, h]

/-- A run calls through no NULL slot exactly if the thread's first call in it
comes after the constructor's last assignment. -/
theorem thread_safe_iff (h : (machine kind).Reachable s) :
    (∀ m, s.thread ≠ .crashed m) ↔ (machine kind).ReachableBy Late s := by
  refine ⟨fun hsafe => ?_, fun hl => (safe_of_late hl).1⟩
  induction h with
  | init h => exact .init h
  | @step s a s' hr _ hs ih =>
    have hi := inv_of_reachable hr
    have hl : Late s a := by
      by_contra hn
      exact hsafe _ (crashed_of_early hi hs hn)
    exact .step (ih fun m hm => hsafe m (crashed_step hm hi hs)) hl hs

/-- The constructor runs to its end before the thread calls anything. -/
theorem thread_safe_rx : ∃ s, s.thread = .exited ∧ (machine .rx).ReachableBy Late s := by
  obtain ⟨s, hr, hp⟩ := Reachable.of_test (step .rx)
    (List.replicate 10 (.ctor false) ++ [.thread false, .thread false, .thread true])
    (fun s => s.thread = .exited) (start_init .rx) (by decide)
  have hexit : s.thread = .exited := of_decide_eq_true hp
  exact ⟨s, hexit, (thread_safe_iff hr).mp (by simp [hexit])⟩

/-- The thread runs as soon as `pthread_create` has made it. -/
theorem thread_early_crashes :
    ¬ ∀ kind s, (machine kind).Reachable s → ∀ m, s.thread ≠ .crashed m := by
  intro hall
  obtain ⟨s, hr, hp⟩ := Reachable.of_test (step .rx)
    (List.replicate 6 (.ctor false) ++ [.thread false])
    (fun s => s.thread = .crashed .getTname) (start_init .rx) (by decide)
  exact hall .rx s hr .getTname (of_decide_eq_true hp)

end Libsinet.WrkThreadStart
