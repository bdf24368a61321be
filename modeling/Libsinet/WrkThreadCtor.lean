import Libsinet.Base.Undo

/-!
# Construction of threads

The constructors of rx and tx threads down to the last `malloc`, and their
destructors: `sin_wi_queue.c`, `sin_signal.c`, `sin_wrk_thread.c`,
`sin_tx_thread.c` and `sin_rx_thread.c`. What each call returns is given from
outside.
-/

namespace Libsinet.WrkThreadCtor

open Ledger Undo

/-- The queues of a tx thread; an rx thread has the control queue only. -/
inductive Queue
  | outpktQueue
  | ctrlQueue
  deriving DecidableEq, Repr

/-- `thread` is the `struct sin_tx_thread` or `sin_rx_thread`, `tid` the
running thread. -/
inductive Res
  | thread
  | queue (q : Queue)
  | cond (q : Queue)
  | mutex (q : Queue)
  | name (q : Queue)
  | pvt
  | tname
  | sigterm
  | tid
  deriving DecidableEq, Repr

def enomem : Int := 12

/-- What goes to `*e` when a call fails: `malloc` and the like give NULL,
whatever the reason, the calls of pthreads the error itself. -/
def fault (eval : Res → Int) (r : Res) : Option Int :=
  if eval r = 0 then none
  else match r with
    | .cond _ => some (eval r)
    | .mutex _ => some (eval r)
    | .tid => some (eval r)
    | _ => some enomem

-- ---------------------------------------------------------------------------
-- The constructors
-- ---------------------------------------------------------------------------

/-- Labels of the source, and for what has none its place in the function:
`null` before anything was acquired. -/
inductive Label
  | null
  | erUndo0
  | erUndo1
  | erUndo2
  | erUndo3
  deriving DecidableEq, Repr

section
variable (eval : Res → Int)

/-- It returns in place, after the first, the second and the third call. -/
def sinWiQueueCtorUndo (q : Queue) : Label → List Res
  | .erUndo1 => [.queue q]
  | .erUndo2 => [.cond q, .queue q]
  | .erUndo3 => [.cond q, .mutex q, .queue q]
  | _ => []

def sinWiQueueCtor (q : Queue) : Ctor Res Int :=
  ladder (do
    take (fault eval) (.queue q) .null
    take (fault eval) (.cond q) .erUndo1
    take (fault eval) (.mutex q) .erUndo2
    take (fault eval) (.name q) .erUndo3) (sinWiQueueCtorUndo q)

def sinWiQueueDtor (q : Queue) : List Res := [.cond q, .mutex q, .name q, .queue q]

def sinSignalCtor : Ctor Res Int := ladder (take (fault eval) .sigterm Label.null) fun _ => []

def sinSignalDtor : List Res := [.sigterm]

-- Each label falls through to the one below it.
def sinWrkThreadCtorUndo : Label → List Res
  | .null => []
  | .erUndo0 => [.pvt]
  | .erUndo1 => [.tname, .pvt]
  | .erUndo2 => sinWiQueueDtor .ctrlQueue ++ [.tname, .pvt]
  | .erUndo3 => sinSignalDtor ++ (sinWiQueueDtor .ctrlQueue ++ [.tname, .pvt])

def sinWrkThreadCtor : Ctor Res Int :=
  ladder (do
    take (fault eval) .pvt .null
    take (fault eval) .tname .erUndo0
    call (sinWiQueueCtor eval .ctrlQueue) .erUndo1
    call (sinSignalCtor eval) .erUndo2
    take (fault eval) .tid .erUndo3) sinWrkThreadCtorUndo

/-- `pthread_join` gives the thread back; nothing is left on the queue to be
drained then. -/
def sinWrkThreadDtor : List Res := .tid :: sinSignalDtor ++ (sinWiQueueDtor .ctrlQueue ++ [.tname, .pvt])

def sinTxThreadCtorUndo : Label → List Res
  | .erUndo1 => [.thread]
  | .erUndo2 => sinWiQueueDtor .outpktQueue ++ [.thread]
  | _ => []

def sinTxThreadCtor : Ctor Res Int :=
  ladder (do
    take (fault eval) .thread .null
    call (sinWiQueueCtor eval .outpktQueue) .erUndo1
    call (sinWrkThreadCtor eval) .erUndo2) sinTxThreadCtorUndo

def sinTxThreadDtor : List Res := sinWrkThreadDtor ++ (sinWiQueueDtor .outpktQueue ++ [.thread])

def sinRxThreadCtorUndo : Label → List Res
  | .erUndo3 => [.thread]
  | _ => []

def sinRxThreadCtor : Ctor Res Int :=
  ladder (do
    take (fault eval) .thread .null
    call (sinWrkThreadCtor eval) .erUndo3) sinRxThreadCtorUndo

def sinRxThreadDtor : List Res := sinWrkThreadDtor ++ [.thread]

end

-- ---------------------------------------------------------------------------
-- Who uses what
-- ---------------------------------------------------------------------------

/-- What is only reached through another block, or lives in it, uses it, and
the running thread uses all there is. -/
def uses : Res → Res → Bool
  | .tid, r => r ≠ .tid
  | .cond q, .queue q' => q = q'
  | .mutex q, .queue q' => q = q'
  | .name q, .queue q' => q = q'
  | .queue .ctrlQueue, .pvt => true
  | .queue .outpktQueue, .thread => true
  | .tname, .pvt => true
  | .sigterm, .pvt => true
  | .pvt, .thread => true
  | _, _ => false

def queueParts (q : Queue) : List Res := [.queue q] ++ ([.cond q] ++ ([.mutex q] ++ [.name q]))

def wrkThreadParts : List Res := [.pvt] ++ ([.tname] ++ (queueParts .ctrlQueue ++ ([.sigterm] ++ [.tid])))

def txThreadParts : List Res := [.thread] ++ (queueParts .outpktQueue ++ wrkThreadParts)

def rxThreadParts : List Res := [.thread] ++ wrkThreadParts

variable {eval : Res → Int}

/-- What `sin_wi_queue_ctor` has acquired where it returns. -/
def queueBefore (q : Queue) : Label → List Res
  | .erUndo1 => [.queue q]
  | .erUndo2 => [.queue q, .cond q]
  | .erUndo3 => [.queue q, .cond q, .mutex q]
  | _ => []

theorem sinWiQueueCtor_allOrNothing (q : Queue) :
    AllOrNothing uses (fault eval) (sinWiQueueCtor eval q) (queueParts q) := by
  refine .ladder (queueBefore q) ?_ ?_ ?_
  · apply Acquires.bind
    · exact .take _ _ rfl (by simp)
    apply Acquires.bind
    · exact .take _ _ rfl (by simp)
    apply Acquires.bind
    · exact .take _ _ rfl (by simp)
    exact .take _ _ rfl (by simp)
  · intro l
    cases q <;> cases l <;> decide
  · intro l
    cases q <;> cases l <;> decide

theorem sinSignalCtor_allOrNothing : AllOrNothing uses (fault eval) (sinSignalCtor eval) [.sigterm] := by
  refine .ladder (fun _ => []) (.take _ _ rfl (by simp)) ?_ ?_
  · exact fun _ => List.nil_subset _
  · exact fun _ => by decide

def wrkThreadBefore : Label → List Res
  | .null => []
  | .erUndo0 => [.pvt]
  | .erUndo1 => [.pvt, .tname]
  | .erUndo2 => [.pvt, .tname] ++ queueParts .ctrlQueue
  | .erUndo3 => [.pvt, .tname] ++ queueParts .ctrlQueue ++ [.sigterm]

theorem sinWrkThreadCtor_allOrNothing :
    AllOrNothing uses (fault eval) (sinWrkThreadCtor eval) wrkThreadParts := by
  refine .ladder wrkThreadBefore ?_ ?_ ?_
  · apply Acquires.bind
    · exact .take _ _ rfl (by simp)
    apply Acquires.bind
    · exact .take _ _ rfl (by simp)
    apply Acquires.bind
    · exact .call (sinWiQueueCtor_allOrNothing _) _ rfl (by decide)
    apply Acquires.bind
    · exact .call sinSignalCtor_allOrNothing _ rfl (by decide)
    exact .take _ _ rfl (by decide)
  · intro l
    cases l <;> decide
  · intro l
    cases l <;> decide

def txThreadBefore : Label → List Res
  | .erUndo1 => [.thread]
  | .erUndo2 => [.thread] ++ queueParts .outpktQueue
  | _ => []

theorem sinTxThreadCtor_allOrNothing :
    AllOrNothing uses (fault eval) (sinTxThreadCtor eval) txThreadParts := by
  refine .ladder txThreadBefore ?_ ?_ ?_
  · apply Acquires.bind
    · exact .take _ _ rfl (by simp)
    apply Acquires.bind
    · exact .call (sinWiQueueCtor_allOrNothing _) _ rfl (by decide)
    exact .call sinWrkThreadCtor_allOrNothing _ rfl (by decide)
  · intro l
    cases l <;> decide
  · intro l
    cases l <;> decide

theorem sinRxThreadCtor_allOrNothing :
    AllOrNothing uses (fault eval) (sinRxThreadCtor eval) rxThreadParts := by
  refine .ladder sinRxThreadCtorUndo ?_ ?_ ?_
  · apply Acquires.bind
    · exact .take _ _ rfl (by simp)
    exact .call sinWrkThreadCtor_allOrNothing _ rfl (by decide)
  · intro l
    cases l <;> decide
  · intro l
    cases l <;> decide

/-- Whichever calls fail, the constructor of a thread gives a thread with all
of its parts, of which its destructor leaves none, or it gives NULL, keeps
nothing and reports the first call that failed. -/
theorem thread_ctors_whole (eval : Res → Int) :
    Whole uses (fault eval) (sinTxThreadCtor eval) sinTxThreadDtor txThreadParts ∧
      Whole uses (fault eval) (sinRxThreadCtor eval) sinRxThreadDtor rxThreadParts :=
  ⟨sinTxThreadCtor_allOrNothing.whole (by decide), sinRxThreadCtor_allOrNothing.whole (by decide)⟩

end Libsinet.WrkThreadCtor
