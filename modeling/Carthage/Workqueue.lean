import Carthage.NodeStore
import Carthage.Runs

/-!
# Work queues

`workqueue.c`: producers add units of work, workers fetch and execute them. The sections
under the lock and the reads of the state are one step each. A result `none` is a step that
its thread is not about to take, or an access to a unit that is not in the queue.
-/

namespace Carthage

structure WorkUnit (F A : Type) where
  next : Option ℕ
  func : F
  args : A

def WorkUnit.link (F A : Type) : LinkField ℕ (WorkUnit F A) where
  get := WorkUnit.next
  set q n := { n with next := q }
  get_set _ _ := rfl

structure WorkUnitQueue (F A : Type) where
  first : Option ℕ
  last : Option ℕ
  units : NodeStore (WorkUnit F A)
  /-- Compared with the size of the pool, and never raised. -/
  free : ℕ

section Units

variable {F A : Type}

def workunitPoolFree (q : WorkUnitQueue F A) (a : ℕ) : WorkUnitQueue F A :=
  if q.free = 128 then { q with units := q.units.give false a }
  else { q with units := q.units.give true a }

def workqueueFetch (q : WorkUnitQueue F A) : Option (Option (F × A) × WorkUnitQueue F A) :=
  match q.first with
  | none => some (none, q)
  | some a => do
      let unit ← q.units.nodes a
      let last := if q.last = some a then none else q.last
      return (some (unit.func, unit.args),
        workunitPoolFree { q with first := unit.next, last := last } a)

/-- The part of `workqueue_additem` under the lock. -/
def workqueueAdditem (granted : Bool) (q : WorkUnitQueue F A) (func : F) (args : A) :
    Option (ℕ × WorkUnitQueue F A) :=
  match q.units.take granted ⟨none, func, args⟩ with
  | none => some (1, q)
  | some (a, units) =>
      match q.first with
      | none => some (0, { q with units := units, first := some a, last := some a })
      | some _ => do
          let l ← q.last
          let unit ← units.nodes l
          return (0, { q with units := units.put l { unit with next := some a }, last := some a })

end Units

/-! ## Threads -/

inductive WorkqueueState
  | active
  | closed
  deriving DecidableEq

inductive Producer (F A : Type)
  | idle
  /-- In `workqueue_additem`, after the read of the state. -/
  | adding (func : F) (args : A)

/-- Where a worker is in `__workqueue_loop`. -/
inductive Worker (F A : Type)
  | loop
  | fetching
  | running (func : F) (args : A)
  | ended

structure Workqueue (F A : Type) where
  units : WorkUnitQueue F A
  state : WorkqueueState
  ncore : ℕ
  producers : ℕ → Producer F A
  workers : ℕ → Worker F A
  /-- `workqueue_release` has returned. -/
  released : Bool

inductive WorkAction (F A : Type)
  | start (p : ℕ) (func : F) (args : A)
  | add (p : ℕ) (granted : Bool)
  | look (w : ℕ)
  | fetch (w : ℕ)
  | exec (w : ℕ)
  /-- A look of `workqueue_wait` at the queue. -/
  | wait
  | close
  /-- `workqueue_release` has joined every worker, and returns. -/
  | join

inductive WorkEvent (F A : Type)
  | additem (p : ℕ) (func : F) (args : A) (rc : ℕ)
  | fetched (w : ℕ) (func : F) (args : A)
  | executed (w : ℕ) (func : F) (args : A)
  | waited (again : Bool)
  | silent

section Threads

variable {F A : Type}

def workqueueAlloc (F A : Type) (ncore : ℕ) : Workqueue F A :=
  ⟨⟨none, none, .empty _, 0⟩, .active, ncore, fun _ => .idle, fun _ => .loop, false⟩

def Workqueue.setProducer (s : Workqueue F A) (p : ℕ) (x : Producer F A) : Workqueue F A :=
  { s with producers := Function.update s.producers p x }

def Workqueue.setWorker (s : Workqueue F A) (w : ℕ) (x : Worker F A) : Workqueue F A :=
  { s with workers := Function.update s.workers w x }

def workqueueStep (s : Workqueue F A) : WorkAction F A → Option (WorkEvent F A × Workqueue F A)
  | .start p func args =>
      match s.producers p with
      | .idle =>
          if s.state = .active then some (.silent, s.setProducer p (.adding func args))
          else some (.additem p func args 2, s)
      | _ => none
  | .add p granted =>
      match s.producers p with
      | .adding func args => do
          let (rc, units) ← workqueueAdditem granted s.units func args
          return (.additem p func args rc, { s.setProducer p .idle with units := units })
      | _ => none
  | .look w =>
      match s.workers w with
      | .loop =>
          if s.state = .closed then some (.silent, s.setWorker w .ended)
          else some (.silent, s.setWorker w .fetching)
      | _ => none
  | .fetch w =>
      match s.workers w with
      | .fetching => do
          let (r, units) ← workqueueFetch s.units
          match r with
          | none => return (.silent, { s.setWorker w .loop with units := units })
          | some (func, args) =>
              return (.fetched w func args,
                { s.setWorker w (.running func args) with units := units })
      | _ => none
  | .exec w =>
      match s.workers w with
      | .running func args => some (.executed w func args, s.setWorker w .loop)
      | _ => none
  | .wait => some (.waited s.units.first.isSome, s)
  | .close => some (.silent, { s with state := .closed })
  | .join => some (.silent, { s with released := true })

/-- The thread is about to take the step, and the queue is still there. -/
def WorkAction.Enabled (s : Workqueue F A) : WorkAction F A → Prop
  | .start p _ _ => s.released = false ∧ s.producers p = .idle
  | .add p _ => s.released = false ∧ ∃ func args, s.producers p = .adding func args
  | .look w => w < s.ncore ∧ s.workers w = .loop
  | .fetch w => w < s.ncore ∧ s.workers w = .fetching
  | .exec w => w < s.ncore ∧ ∃ func args, s.workers w = .running func args
  | .wait => s.released = false
  | .close => s.state = .active
  | .join => s.released = false ∧ s.state = .closed ∧ ∀ w < s.ncore, s.workers w = .ended

/-! ## What happened to the units -/

/-- The units whose `workqueue_additem` returned 0, in the order they were accepted. -/
def accepted (es : List (WorkEvent F A)) : List (F × A) :=
  es.filterMap fun
    | .additem _ func args 0 => some (func, args)
    | _ => none

/-- The units fetched, each with its worker. -/
def fetched (es : List (WorkEvent F A)) : List (ℕ × F × A) :=
  es.filterMap fun
    | .fetched w func args => some (w, func, args)
    | _ => none

def executed (es : List (WorkEvent F A)) : List (ℕ × F × A) :=
  es.filterMap fun
    | .executed w func args => some (w, func, args)
    | _ => none

/-- What one worker did. -/
def byWorker (w : ℕ) (xs : List (ℕ × F × A)) : List (F × A) :=
  (xs.filter fun x => x.1 = w).map Prod.snd

end Threads

end Carthage
