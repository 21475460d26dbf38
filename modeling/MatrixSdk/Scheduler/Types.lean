import Mathlib.Data.List.Nodup

/-! Events, errors, queue entries and the scheduler's state in `src/scheduler.ts`. -/

namespace MatrixSdk.Scheduler

/-- The parts of a `MatrixEvent` the scheduler and its default algorithms read:
`getId()`, `getType()` and `hasAssocation()`. -/
structure MatrixEvent where
  id : Option String
  type : String
  hasAssocation : Bool
  deriving DecidableEq, Repr

/-- The `data` of a `MatrixError`, as far as `RETRY_BACKOFF_RATELIMIT` reads it. -/
structure ErrorData where
  retry_after_ms : Option Int
  deriving DecidableEq, Repr

/-- The fields of a rejection value that `RETRY_BACKOFF_RATELIMIT` reads; an absent field
is `undefined`. A rejection value of `null` or `undefined` is `none : Option MatrixError`. -/
structure MatrixError where
  httpStatus : Option Int
  cors : Option String
  name : Option String
  data : Option ErrorData
  deriving DecidableEq, Repr

/-- The `TypeError` raised by calling `this.procFn` while it is `null`. -/
def typeError : MatrixError := ⟨none, none, some "TypeError", none⟩

/-- `retryAlgorithm(event, attempts, err)`: milliseconds to wait before the next try, `-1`
to give up, `none` when the callback throws. -/
def RetryAlgorithm : Type := MatrixEvent → Nat → Option MatrixError → Option Int

/-- `queueAlgorithm(event)`: the queue to put the event in, `none` for `null`. -/
def QueueAlgorithm : Type := MatrixEvent → Option String

/-- A process function, known to the scheduler only by identity: what it does with an event
is decided by the environment when its promise settles. -/
structure ProcessFunction where
  id : Nat
  deriving DecidableEq, Repr

/-- The state of the promise of a `utils.defer()`. -/
inductive Deferred (T : Type) where
  | pending
  | resolved (res : T)
  | rejected (err : Option MatrixError)
  deriving DecidableEq, Repr

namespace Deferred

variable {T : Type}

/-- `defer.resolve(res)`: a promise settles once. -/
def resolve : Deferred T → T → Deferred T
  | pending, res => resolved res
  | d, _ => d

/-- `defer.reject(err)`: a promise settles once. -/
def reject : Deferred T → Option MatrixError → Deferred T
  | pending, err => rejected err
  | d, _ => d

@[simp] theorem resolve_pending (res : T) : (pending : Deferred T).resolve res = resolved res := rfl

@[simp] theorem reject_pending (err : Option MatrixError) :
    (pending : Deferred T).reject err = rejected err := rfl

end Deferred

/-- `IQueueEntry<T>`. -/
structure IQueueEntry (T : Type) where
  event : MatrixEvent
  defer : Deferred T
  attempts : Nat
  deriving DecidableEq, Repr

/-! ## The record of queues -/

/-- `Record<string, IQueueEntry<T>[]>`: the queue names in the order `Object.keys` lists
them, each with references to its entries. A name occurs once. -/
structure Queues where
  toList : List (String × List Nat)
  nodup : (toList.map Prod.fst).Nodup
  deriving DecidableEq

namespace Queues

def empty : Queues := ⟨[], List.nodup_nil⟩

/-- `Object.keys(this.queues)`. -/
def keys (qs : Queues) : List String := qs.toList.map Prod.fst

/-- `this.queues[name]`. -/
def get? (qs : Queues) (name : String) : Option (List Nat) := qs.toList.lookup name

/-- Update the array stored under `name` in place. -/
def modify (qs : Queues) (name : String) (f : List Nat → List Nat) : Queues :=
  ⟨qs.toList.map fun p => if p.1 = name then (p.1, f p.2) else p, by
    rw [List.map_map]
    convert qs.nodup using 2
    funext p
    simp only [Function.comp_apply]
    split <;> rfl⟩

/-- `if (!this.queues[name]) this.queues[name] = []`. -/
def ensure (qs : Queues) (name : String) : Queues :=
  if h : name ∈ qs.keys then qs
  else ⟨qs.toList ++ [(name, [])], by
    simp only [List.map_append, List.nodup_append, List.map_cons, List.map_nil, List.nodup_singleton,
      List.disjoint_singleton]
    exact ⟨qs.nodup, trivial, h⟩⟩

private theorem lookup_map_update (l : List (String × List Nat)) (n m : String)
    (f : List Nat → List Nat) :
    (l.map fun p => if p.1 = n then (p.1, f p.2) else p).lookup m =
      if m = n then (l.lookup m).map f else l.lookup m := by
  induction l with
  | nil => simp
  | cons p l ih =>
      obtain ⟨k, v⟩ := p
      by_cases hm : m = k
      · subst hm; by_cases hk : m = n <;> simp [List.lookup_cons, hk]
      · have hb := beq_false_of_ne hm
        by_cases hk : k = n
        · subst hk; simp [List.lookup_cons, hb, ih]
        · simp [List.lookup_cons, hk, hb, ih]

private theorem lookup_append_singleton (l : List (String × List Nat)) (n m : String)
    (v : List Nat) :
    (l ++ [(n, v)]).lookup m = (l.lookup m).or (if m = n then some v else none) := by
  induction l with
  | nil => by_cases hm : m = n <;> simp [List.lookup_cons, hm, beq_false_of_ne]
  | cons p l ih =>
      obtain ⟨k, w⟩ := p
      by_cases hm : m = k
      · simp [List.lookup_cons, hm]
      · simp [List.lookup_cons, beq_false_of_ne hm, ih]

theorem isSome_get? (qs : Queues) (name : String) : (qs.get? name).isSome ↔ name ∈ qs.keys := by
  simp only [get?, keys]
  induction qs.toList with
  | nil => simp
  | cons p l ih =>
      obtain ⟨k, w⟩ := p
      by_cases hm : name = k
      · simp [List.lookup_cons, hm]
      · simp only [List.lookup_cons, beq_false_of_ne hm, ih, List.map_cons, List.mem_cons, hm,
          false_or]

@[simp] theorem get?_empty (name : String) : empty.get? name = none := rfl

@[simp] theorem keys_empty : empty.keys = [] := rfl

theorem get?_modify (qs : Queues) (n m : String) (f : List Nat → List Nat) :
    (qs.modify n f).get? m = if m = n then (qs.get? m).map f else qs.get? m :=
  lookup_map_update qs.toList n m f

@[simp] theorem keys_modify (qs : Queues) (n : String) (f : List Nat → List Nat) :
    (qs.modify n f).keys = qs.keys := by
  simp only [keys, modify, List.map_map]
  congr 1
  funext p
  simp only [Function.comp_apply]
  split <;> rfl

theorem get?_ensure (qs : Queues) (n m : String) :
    (qs.ensure n).get? m = if m = n then some ((qs.get? n).getD []) else qs.get? m := by
  unfold ensure
  split
  · rename_i h
    obtain ⟨v, hv⟩ := Option.isSome_iff_exists.mp ((isSome_get? qs n).mpr h)
    split <;> simp_all
  · rename_i h
    have hn : qs.get? n = none := by
      simpa using mt (isSome_get? qs n).mp h
    simp only [get?] at hn ⊢
    rw [lookup_append_singleton]
    by_cases hm : m = n
    · subst hm; simp [hn]
    · simp [hm]

theorem keys_ensure (qs : Queues) (n : String) :
    (qs.ensure n).keys = if n ∈ qs.keys then qs.keys else qs.keys ++ [n] := by
  unfold ensure
  split <;> simp [keys]

end Queues

/-! ## Continuations, actions and observations -/

/-- A continuation a run of the scheduler left pending with the runtime. -/
inductive Task where
  /-- `Promise.resolve().then(() => this.procFn(obj.event))`, not run yet. -/
  | procFnCall (queueName : String) (obj : Nat)
  /-- The promise returned by `procFn(obj.event)`, not settled yet. -/
  | inFlight (queueName : String) (obj : Nat)
  /-- `setTimeout(this.processQueue, waitTimeMs, queueName)`, not fired yet. -/
  | retryTimer (queueName : String) (waitTimeMs : Int)
  deriving DecidableEq, Repr

/-- The queue a continuation belongs to. -/
def Task.queueName : Task → String
  | procFnCall q _ => q
  | inFlight q _ => q
  | retryTimer q _ => q

@[simp] theorem Task.queueName_procFnCall (q : String) (obj : Nat) :
    (procFnCall q obj).queueName = q := rfl
@[simp] theorem Task.queueName_inFlight (q : String) (obj : Nat) :
    (inFlight q obj).queueName = q := rfl
@[simp] theorem Task.queueName_retryTimer (q : String) (w : Int) :
    (retryTimer q w).queueName = q := rfl

/-- How the promise of a `procFn` call settles. -/
inductive Outcome (T : Type) where
  | fulfilled (res : T)
  | rejected (err : Option MatrixError)
  deriving DecidableEq, Repr

/-- What may happen next to a scheduler: a call of one of its public methods, or the runtime
running one of the pending continuations. -/
inductive Action (T : Type) where
  | queueEvent (event : MatrixEvent)
  | removeEventFromQueue (event : MatrixEvent)
  | setProcessFunction (fn : ProcessFunction)
  | runProcFnCall (queueName : String) (obj : Nat)
  | settle (queueName : String) (obj : Nat) (outcome : Outcome T)
  | fireRetryTimer (queueName : String) (waitTimeMs : Int)
  deriving DecidableEq, Repr

/-- What the scheduler does towards its environment: pushing an entry onto a queue, calling
the process function, consulting the retry algorithm, and arming a retry timer. -/
inductive Obs where
  | push (queueName : String) (obj : Nat)
  | call (fn : ProcessFunction) (queueName : String) (obj : Nat)
  | retry (obj : Nat) (event : MatrixEvent) (attempts : Nat) (err : Option MatrixError)
  | setTimeout (queueName : String) (waitTimeMs : Int)
  deriving DecidableEq, Repr

/-- The constructor arguments of `MatrixScheduler`, with its defaults given in
`Algorithms.lean`. -/
structure Algorithms where
  retryAlgorithm : RetryAlgorithm
  queueAlgorithm : QueueAlgorithm

/-- The fields of a `MatrixScheduler` that change, with the heap of queue entries (an entry
is referred to by its index) and the continuations pending with the runtime. -/
structure MatrixScheduler (T : Type) where
  entries : List (IQueueEntry T)
  queues : Queues
  activeQueues : List String
  procFn : Option ProcessFunction
  tasks : List Task

end MatrixSdk.Scheduler
