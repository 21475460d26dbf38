import MatrixSdk.Scheduler.Algorithms

/-! The methods of `src/scheduler.ts` and the runtime continuations they leave pending, as
steps that each run to completion. -/

namespace MatrixSdk.Scheduler

variable {T : Type}

/-- The queue `queueAlgorithm` gives `event`, as the scheduler takes it: `!name` also turns
away the empty string. -/
def Algorithms.queueNameOf (alg : Algorithms) (event : MatrixEvent) : Option String :=
  (alg.queueAlgorithm event).filter (· != "")

/-- `utils.removeElement(array, fn)` (utils.ts is not under src/): splice out the first
element `fn` accepts, and tell whether there was one. -/
def removeElement (array : List Nat) (fn : Nat → Bool) : List Nat × Bool :=
  (array.eraseP fn, array.any fn)

namespace MatrixScheduler

/-- A new scheduler: no queues, no active queue, `procFn` null, nothing pending. -/
def initial : MatrixScheduler T := ⟨[], .empty, [], none, []⟩

/-- The entries of queue `name`; none when there is no such queue. -/
def queueOf (s : MatrixScheduler T) (name : String) : List Nat := (s.queues.get? name).getD []

/-- `obj.attempts += 1`, `obj.defer.resolve(res)` and the like, on the entry `obj`. -/
def modifyEntry (s : MatrixScheduler T) (obj : Nat) (f : IQueueEntry T → IQueueEntry T) :
    MatrixScheduler T :=
  { s with entries := s.entries.modify f obj }

/-- The runtime takes the continuation `t` off its pending set to run it. -/
def dropTask (s : MatrixScheduler T) (t : Task) : MatrixScheduler T :=
  { s with tasks := s.tasks.erase t }

/-- The runtime records a new pending continuation. -/
def addTask (s : MatrixScheduler T) (t : Task) : MatrixScheduler T :=
  { s with tasks := s.tasks ++ [t] }

/-- `removeEventFromQueue(event)`: the new state and whether an entry was removed. -/
def removeEventFromQueue (s : MatrixScheduler T) (alg : Algorithms) (event : MatrixEvent) :
    MatrixScheduler T × Bool :=
  match alg.queueNameOf event with
  | none => (s, false)
  | some name =>
    match s.queues.get? name with
    | none => (s, false)
    | some queue =>
      let sameId := fun obj => (s.entries[obj]?.map fun e => e.event.id) == some event.id
      ({ s with queues := s.queues.modify name fun queue => (removeElement queue sameId).1 },
        (removeElement queue sameId).2)

/-- `peekNextEvent(queueName)`. -/
def peekNextEvent (s : MatrixScheduler T) (queueName : String) : Option Nat :=
  match s.queues.get? queueName with
  | none => none
  | some queue => queue.head?

/-- `removeNextEvent(queueName)`: the new state and the entry shifted off the queue. -/
def removeNextEvent (s : MatrixScheduler T) (queueName : String) : MatrixScheduler T × Option Nat :=
  match s.queues.get? queueName with
  | none => (s, none)
  | some queue => ({ s with queues := s.queues.modify queueName List.tail }, queue.head?)

/-- `processQueue(queueName)`: with an empty queue, mark it inactive; else schedule the call
of `procFn` on its head. -/
def processQueue (s : MatrixScheduler T) (queueName : String) : MatrixScheduler T :=
  match s.peekNextEvent queueName with
  | none => { s with activeQueues := s.activeQueues.erase queueName }
  | some obj => s.addTask (.procFnCall queueName obj)

/-- The body of the `forEach` in `startProcessingQueues`. -/
def spinUp (s : MatrixScheduler T) (queueName : String) : MatrixScheduler T :=
  { s with activeQueues := s.activeQueues ++ [queueName] }.processQueue queueName

/-- `startProcessingQueues()`: with a process function, spin up every inactive queue with
entries, in the order of `Object.keys`. -/
def startProcessingQueues (s : MatrixScheduler T) : MatrixScheduler T :=
  match s.procFn with
  | none => s
  | some _ =>
    (s.queues.keys.filter fun q => q ∉ s.activeQueues ∧ s.queueOf q ≠ []).foldl spinUp s

/-- `setProcessFunction(fn)`. -/
def setProcessFunction (s : MatrixScheduler T) (fn : ProcessFunction) : MatrixScheduler T :=
  { s with procFn := some fn }.startProcessingQueues

/-- `queueEvent(event)`: the new state, what it reports, and the entry whose deferred's
promise it returns (`null` when the event is not queued). -/
def queueEvent (s : MatrixScheduler T) (alg : Algorithms) (event : MatrixEvent) :
    (MatrixScheduler T × List Obs) × Option Nat :=
  match alg.queueNameOf event with
  | none => ((s, []), none)
  | some queueName =>
    let obj := s.entries.length
    let s := { s with
      entries := s.entries ++ [(⟨event, .pending, 0⟩ : IQueueEntry T)]
      queues := (s.queues.ensure queueName).modify queueName (· ++ [obj]) }
    ((s.startProcessingQueues, [.push queueName obj]), some obj)

/-- The fulfilment handler of the `procFn` call on `obj` made for `queueName`. -/
def onFulfilled (s : MatrixScheduler T) (queueName : String) (obj : Nat) (res : T) :
    MatrixScheduler T :=
  (((s.removeNextEvent queueName).1.modifyEntry obj fun e =>
    { e with defer := e.defer.resolve res }).processQueue queueName)

/-- The rejection handler of the `procFn` call on `obj` made for `queueName`. When the retry
algorithm throws, the handler stops after counting the attempt. -/
def onRejected (s : MatrixScheduler T) (alg : Algorithms) (queueName : String) (obj : Nat)
    (err : Option MatrixError) : MatrixScheduler T × List Obs :=
  let s := s.modifyEntry obj fun e => { e with attempts := e.attempts + 1 }
  match s.entries[obj]? with
  | none => (s, [])
  | some e =>
    let consulted := Obs.retry obj e.event e.attempts err
    match alg.retryAlgorithm e.event e.attempts err with
    | none => (s, [consulted])
    | some waitTimeMs =>
      if waitTimeMs = -1 then
        (((s.removeNextEvent queueName).1.modifyEntry obj fun e =>
          { e with defer := e.defer.reject err }).processQueue queueName, [consulted])
      else
        (s.addTask (.retryTimer queueName waitTimeMs),
          [consulted, .setTimeout queueName waitTimeMs])

/-- The microtask `() => this.procFn(obj.event)`; calling a `null` process function throws a
`TypeError`, which rejects the chained promise. -/
def runProcFnCall (s : MatrixScheduler T) (alg : Algorithms) (queueName : String) (obj : Nat) :
    MatrixScheduler T × List Obs :=
  match s.procFn with
  | some fn => (s.addTask (.inFlight queueName obj), [.call fn queueName obj])
  | none => s.onRejected alg queueName obj (some typeError)

/-- One step of a run. A continuation that is not pending cannot run: the step does nothing. -/
def step (alg : Algorithms) (s : MatrixScheduler T) : Action T → MatrixScheduler T × List Obs
  | .queueEvent event => (s.queueEvent alg event).1
  | .removeEventFromQueue event => ((s.removeEventFromQueue alg event).1, [])
  | .setProcessFunction fn => (s.setProcessFunction fn, [])
  | .runProcFnCall queueName obj =>
    if .procFnCall queueName obj ∈ s.tasks then
      (s.dropTask (.procFnCall queueName obj)).runProcFnCall alg queueName obj
    else (s, [])
  | .settle queueName obj outcome =>
    if .inFlight queueName obj ∈ s.tasks then
      match outcome with
      | .fulfilled res => ((s.dropTask (.inFlight queueName obj)).onFulfilled queueName obj res, [])
      | .rejected err => (s.dropTask (.inFlight queueName obj)).onRejected alg queueName obj err
    else (s, [])
  | .fireRetryTimer queueName waitTimeMs =>
    if .retryTimer queueName waitTimeMs ∈ s.tasks then
      ((s.dropTask (.retryTimer queueName waitTimeMs)).processQueue queueName, [])
    else (s, [])

end MatrixScheduler

open MatrixScheduler

/-- A step, with its observations appended to the trace so far. -/
def stepTrace (alg : Algorithms) (r : MatrixScheduler T × List Obs) (a : Action T) :
    MatrixScheduler T × List Obs :=
  ((r.1.step alg a).1, r.2 ++ (r.1.step alg a).2)

/-- The state and trace after running `as` from a new scheduler. -/
def exec (alg : Algorithms) (as : List (Action T)) : MatrixScheduler T × List Obs :=
  as.foldl (stepTrace alg) (initial, [])

theorem exec_nil (alg : Algorithms) : exec alg ([] : List (Action T)) = (initial, []) := rfl

theorem exec_append (alg : Algorithms) (as bs : List (Action T)) :
    exec alg (as ++ bs) = bs.foldl (stepTrace alg) (exec alg as) :=
  List.foldl_append ..

theorem exec_append_singleton (alg : Algorithms) (as : List (Action T)) (a : Action T) :
    exec alg (as ++ [a]) =
      (((exec alg as).1.step alg a).1, (exec alg as).2 ++ ((exec alg as).1.step alg a).2) :=
  List.foldl_append ..

/-- Induction over runs: a property of the new scheduler that every step keeps holds after
every run. The step may use any fact already known of every run. -/
theorem exec_induction (alg : Algorithms) {P : MatrixScheduler T → List Obs → Prop}
    (init : P initial [])
    (step : ∀ as a, P (exec alg as).1 (exec alg as).2 →
      P ((exec alg as).1.step alg a).1 ((exec alg as).2 ++ ((exec alg as).1.step alg a).2))
    (as : List (Action T)) : P (exec alg as).1 (exec alg as).2 := by
  induction as using List.reverseRecOn with
  | nil => exact init
  | append_singleton as a ih => rw [exec_append_singleton]; exact step as a ih

end MatrixSdk.Scheduler
