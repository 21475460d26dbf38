import MatrixSdk.Scheduler.Retries
import MatrixSdk.Scheduler.Promises
import MatrixSdk.Scheduler.Liveness
import Mathlib.Algebra.Order.BigOperators.Group.List
import Mathlib.Algebra.Order.Ring.Nat

/-! The work a scheduler leaves with the runtime runs out, and when it has, every promise not
removed is settled. -/

namespace MatrixSdk.Scheduler

open MatrixScheduler

variable {T : Type} {alg : Algorithms} {s : MatrixScheduler T} {tr : List Obs}

/-- The runtime steps a pending continuation stands for: a scheduled call runs and then
settles; a call in flight settles; a retry timer fires and schedules the next call. -/
def Task.cost : Task → Nat
  | .procFnCall _ _ => 2
  | .inFlight _ _ => 1
  | .retryTimer _ _ => 3

theorem Task.cost_le (t : Task) : t.cost ≤ 3 := by
  cases t <;> simp [Task.cost]

/-- Three runtime steps for each call a pending entry may still get; none for a settled one. -/
def IQueueEntry.cost (e : IQueueEntry T) : Nat :=
  match e.defer with
  | .pending => 3 * (5 - e.attempts)
  | _ => 0

/-- The runtime steps left: the calls every entry may still get, and the pending
continuations. -/
def MatrixScheduler.workLeft (s : MatrixScheduler T) : Nat :=
  (s.entries.map IQueueEntry.cost).sum + (s.tasks.map Task.cost).sum

/-- Whether the action runs a pending continuation. -/
def MatrixScheduler.runs (s : MatrixScheduler T) : Action T → Bool
  | .runProcFnCall q obj => .procFnCall q obj ∈ s.tasks
  | .settle q obj _ => .inFlight q obj ∈ s.tasks
  | .fireRetryTimer q w => .retryTimer q w ∈ s.tasks
  | _ => false

/-- The actions of `bs`, run in turn from `s`, that run a pending continuation. -/
def runtimeSteps (alg : Algorithms) : MatrixScheduler T → List (Action T) → Nat
  | _, [] => 0
  | s, b :: bs => (if s.runs b then 1 else 0) + runtimeSteps alg (s.step alg b).1 bs

/-- The action queues no event and sets no process function: it removes an event, or it is
the runtime's. -/
def Action.QueuesNothing : Action T → Prop
  | .queueEvent _ | .setProcessFunction _ => False
  | _ => True

instance : DecidablePred (@Action.QueuesNothing T)
  | .queueEvent _ | .setProcessFunction _ => isFalse id
  | .removeEventFromQueue _ | .runProcFnCall _ _ | .settle _ _ _ | .fireRetryTimer _ _ =>
    isTrue trivial

/-! ## Costs -/

namespace IQueueEntry

variable {e : IQueueEntry T}

theorem cost_le (e : IQueueEntry T) : e.cost ≤ 15 := by
  unfold cost; split <;> omega

theorem cost_of_pending (hp : e.defer = .pending) : e.cost = 3 * (5 - e.attempts) := by
  simp only [cost, hp]

theorem cost_attempt (hp : e.defer = .pending) :
    { e with attempts := e.attempts + 1 }.cost = 3 * (5 - (e.attempts + 1)) := by
  simp only [cost, hp]

theorem cost_resolve (hp : e.defer = .pending) (res : T) :
    { e with defer := e.defer.resolve res }.cost = 0 := by
  simp only [cost, hp, Deferred.resolve_pending]

theorem cost_reject (hp : e.defer = .pending) (err : Option MatrixError) :
    { e with defer := e.defer.reject err }.cost = 0 := by
  simp only [cost, hp, Deferred.reject_pending]

end IQueueEntry

/-- Changing the element at `n` changes the sum of the images by the change of its image. -/
theorem sum_map_modify_add {α : Type} (g : α → Nat) (f : α → α) :
    ∀ (l : List α) (n : Nat) {x : α}, l[n]? = some x →
      ((l.modify f n).map g).sum + g x = (l.map g).sum + g (f x)
  | [], _, _, h => absurd h (by simp)
  | _ :: _, 0, _, h => by
      simp only [List.getElem?_cons_zero, Option.some.injEq] at h
      subst h
      simp only [List.modify_zero_cons, List.map_cons, List.sum_cons]
      omega
  | _ :: l, n + 1, _, h => by
      have := sum_map_modify_add g f l n (by simpa using h)
      simp only [List.modify_succ_cons, List.map_cons, List.sum_cons]
      omega

namespace MatrixScheduler

theorem workLeft_le (s : MatrixScheduler T) :
    s.workLeft ≤ 15 * s.entries.length + 3 * s.tasks.length := by
  have he := List.sum_le_card_nsmul (s.entries.map IQueueEntry.cost) 15
    (List.forall_mem_map.mpr fun e _ => e.cost_le)
  have ht := List.sum_le_card_nsmul (s.tasks.map Task.cost) 3
    (List.forall_mem_map.mpr fun t _ => t.cost_le)
  simp only [List.length_map, Nat.nsmul_eq_mul] at he ht
  unfold workLeft
  omega

@[simp] theorem workLeft_addTask (t : Task) : (s.addTask t).workLeft = s.workLeft + t.cost := by
  simp [workLeft, Nat.add_assoc]

theorem workLeft_dropTask {t : Task} (ht : t ∈ s.tasks) :
    (s.dropTask t).workLeft + t.cost = s.workLeft := by
  have h := ((List.perm_cons_erase ht).map Task.cost).sum_eq
  simp only [List.map_cons, List.sum_cons] at h
  simp only [workLeft, dropTask_entries, dropTask_tasks, h]
  omega

@[simp] theorem workLeft_removeNextEvent (q : String) :
    (s.removeNextEvent q).1.workLeft = s.workLeft := by
  simp [workLeft]

theorem workLeft_modifyEntry {obj : Nat} {e : IQueueEntry T} (he : s.entries[obj]? = some e)
    (f : IQueueEntry T → IQueueEntry T) :
    (s.modifyEntry obj f).workLeft + e.cost = s.workLeft + (f e).cost := by
  have := sum_map_modify_add IQueueEntry.cost f s.entries obj he
  simp only [workLeft, modifyEntry_entries, modifyEntry_tasks]
  omega

/-- Processing a queue schedules at most one call. -/
theorem workLeft_processQueue_le (q : String) : (s.processQueue q).workLeft ≤ s.workLeft + 2 := by
  cases h : s.queueOf q with
  | nil => rw [processQueue_of_nil s h]; exact Nat.le_add_right _ _
  | cons obj rest => rw [processQueue_of_cons s h, workLeft_addTask]; exact le_rfl

end MatrixScheduler

/-! ## Each continuation lowers the work left -/

section Runtime

variable (hs : Serial s) (hal : Allocated alg s) (hc : Counted s tr)
  (hb : Budgeted (fun _ => True) s tr)

include hs hal hc hb in
/-- The entry of a call in flight is pending, and may still get that call. -/
theorem inFlight_entry_budget {q : String} {obj : Nat} (ht : .inFlight q obj ∈ s.tasks) :
    ∃ e, s.entries[obj]? = some e ∧ e.defer = .pending ∧ e.attempts ≤ 4 := by
  obtain ⟨e, he, hp, hcalls, -⟩ := hc.rejecting hs hal ht
  exact ⟨e, he, hp, by have := hb.3 obj trivial; omega⟩

theorem workLeft_call {q : String} {obj : Nat} (ht : .procFnCall q obj ∈ s.tasks) :
    ((s.dropTask (.procFnCall q obj)).addTask (.inFlight q obj)).workLeft + 1 = s.workLeft := by
  rw [workLeft_addTask, ← workLeft_dropTask ht]
  rfl

theorem workLeft_timer {q : String} {w : Int} (ht : .retryTimer q w ∈ s.tasks) :
    ((s.dropTask (.retryTimer q w)).processQueue q).workLeft + 1 ≤ s.workLeft := by
  have h1 := workLeft_dropTask ht
  have h2 := workLeft_processQueue_le (s := s.dropTask (.retryTimer q w)) q
  simp only [Task.cost] at h1
  omega

include hs hal hc hb in
theorem workLeft_fulfilled {q : String} {obj : Nat} (ht : .inFlight q obj ∈ s.tasks) (res : T) :
    ((s.dropTask (.inFlight q obj)).onFulfilled q obj res).workLeft + 1 ≤ s.workLeft := by
  obtain ⟨e, he, hp, hk⟩ := inFlight_entry_budget hs hal hc hb ht
  have h1 := workLeft_dropTask ht
  have h2 := workLeft_modifyEntry (s := ((s.dropTask (.inFlight q obj)).removeNextEvent q).1)
    (by simpa using he) fun e => { e with defer := e.defer.resolve res }
  have h3 := workLeft_processQueue_le (s := (((s.dropTask (.inFlight q obj)).removeNextEvent q).1.modifyEntry
    obj fun e => { e with defer := e.defer.resolve res })) q
  rw [IQueueEntry.cost_resolve hp, IQueueEntry.cost_of_pending hp, workLeft_removeNextEvent] at h2
  simp only [Task.cost] at h1
  rw [onFulfilled]
  omega

include hs hal hc hb in
theorem workLeft_rejected {q : String} {obj : Nat} (ht : .inFlight q obj ∈ s.tasks)
    (err : Option MatrixError) :
    ((s.dropTask (.inFlight q obj)).onRejected alg q obj err).1.workLeft + 1 ≤ s.workLeft := by
  obtain ⟨e, he, hp, hk⟩ := inFlight_entry_budget hs hal hc hb ht
  have h1 := workLeft_dropTask ht
  simp only [Task.cost] at h1
  have he1 : (s.dropTask (.inFlight q obj)).entries[obj]? = some e := he
  have hinc := workLeft_modifyEntry he1 fun e => { e with attempts := e.attempts + 1 }
  rw [IQueueEntry.cost_of_pending hp, IQueueEntry.cost_attempt hp] at hinc
  rcases onRejected_cases alg q err he1 with ⟨-, hres⟩ | ⟨-, hres⟩ | ⟨w, -, -, hres⟩ <;> rw [hres]
  · -- the retry algorithm throws: the attempt is counted
    dsimp only
    omega
  · -- given up: the entry's promise is rejected
    have he2 : (((s.dropTask (.inFlight q obj)).modifyEntry obj fun e =>
        { e with attempts := e.attempts + 1 }).removeNextEvent q).1.entries[obj]? =
        some { e with attempts := e.attempts + 1 } := by
      simp [getElem?_modifyEntry, he]
    have h2 := workLeft_modifyEntry he2 fun e => { e with defer := e.defer.reject err }
    have h3 := workLeft_processQueue_le (s := ((((s.dropTask (.inFlight q obj)).modifyEntry obj
      fun e => { e with attempts := e.attempts + 1 }).removeNextEvent q).1.modifyEntry obj
      fun e => { e with defer := e.defer.reject err })) q
    rw [IQueueEntry.cost_reject (e := { e with attempts := e.attempts + 1 }) hp,
      IQueueEntry.cost_attempt hp, workLeft_removeNextEvent] at h2
    dsimp only
    omega
  · -- retried after a timer
    dsimp only
    rw [workLeft_addTask]
    simp only [Task.cost]
    omega

include hs hal hc hb in
/-- Every action that queues no event and sets no process function keeps the work left from
growing, and lowers it when it runs a pending continuation. -/
theorem workLeft_step {b : Action T} (hq : b.QueuesNothing) :
    (s.step alg b).1.workLeft + (if s.runs b then 1 else 0) ≤ s.workLeft := by
  cases b with
  | queueEvent _ | setProcessFunction _ => exact hq.elim
  | removeEventFromQueue _ => simp [runs, step, workLeft]
  | runProcFnCall q obj =>
      by_cases ht : .procFnCall q obj ∈ s.tasks
      · obtain ⟨fn, hfn⟩ := Option.ne_none_iff_exists'.mp (hs.consume ht).2.2
        simpa [runs, ht, step_runProcFnCall _ ht hfn] using (workLeft_call ht).le
      · simp [runs, step, ht]
  | settle q obj outcome =>
      by_cases ht : .inFlight q obj ∈ s.tasks
      · cases outcome with
        | fulfilled res =>
            simpa [runs, ht, step_settle_fulfilled _ ht] using workLeft_fulfilled hs hal hc hb ht res
        | rejected err =>
            simpa [runs, ht, step_settle_rejected _ ht] using workLeft_rejected hs hal hc hb ht err
      · simp [runs, step, ht]
  | fireRetryTimer q w =>
      by_cases ht : .retryTimer q w ∈ s.tasks
      · simpa [runs, ht, step_fireRetryTimer _ ht] using workLeft_timer ht
      · simp [runs, step, ht]

end Runtime

/-! ## Runs -/

/-- A run's trace extends the trace of each of its prefixes. -/
theorem exec_trace_prefix (alg : Algorithms) (as bs : List (Action T)) :
    ∃ o, (exec alg (as ++ bs)).2 = (exec alg as).2 ++ o := by
  obtain ⟨-, o, ho, -⟩ := Transition.run alg (P := fun _ => True) (Q := fun _ => True)
    (fun _ _ _ _ _ => ⟨trivial, fun _ _ => trivial⟩) bs (r := exec alg as) trivial
  exact ⟨o, by rw [exec_append, ho]⟩

/-- The runtime's work runs out: under `RETRY_BACKOFF_RATELIMIT`, unless the server names a
wait, once a run queues no more events and sets no process function, at most `workLeft` of its
actions run a continuation, in whatever order the runtime runs them and however the calls
settle; that is at most fifteen per entry and three per pending continuation. -/
theorem runtime_work_bounded (alg : Algorithms) (hdef : alg.retryAlgorithm = retryBackoffRatelimit)
    (as bs : List (Action T)) (hbs : ∀ b ∈ bs, b.QueuesNothing)
    (hwait : ∀ r ev k err, .retry r ev k err ∈ (exec alg (as ++ bs)).2 → ¬ AsksToWait err) :
    runtimeSteps alg (exec alg as).1 bs ≤ (exec alg as).1.workLeft ∧
      (exec alg as).1.workLeft ≤
        15 * (exec alg as).1.entries.length + 3 * (exec alg as).1.tasks.length := by
  refine ⟨?_, workLeft_le _⟩
  induction bs generalizing as with
  | nil => exact Nat.zero_le _
  | cons b bs ih =>
      obtain ⟨o, ho⟩ := exec_trace_prefix alg as (b :: bs)
      have hb := Budgeted.exec alg hdef (fun _ => True) as fun r ev k err _ hm =>
        hwait r ev k err (ho ▸ List.mem_append_left o hm)
      have hstep := workLeft_step (Serial.exec alg as) (Allocated.exec alg as) (Counted.exec alg as)
        hb (hbs b (List.mem_cons_self b bs))
      have hrest := ih (as ++ [b]) (fun b' hb' => hbs b' (List.mem_cons_of_mem b hb'))
        (by simpa using hwait)
      simp only [exec_append_singleton] at hrest
      simp only [runtimeSteps]
      omega

/-- The message's call fails with a 500, its retry timer fires, and the retried call
succeeds. -/
def retriedRun : List (Action Unit) :=
  [.runProcFnCall "message" 0, .settle "message" 0 (.rejected (some serverError)),
    .fireRetryTimer "message" 2000, .runProcFnCall "message" 0, .settle "message" 0 (.fulfilled ())]

theorem retriedRun_work_bounded :
    defaultAlgorithms.retryAlgorithm = retryBackoffRatelimit ∧
      (∀ b ∈ retriedRun, b.QueuesNothing) ∧
      (∀ r ev k err, .retry r ev k err ∈ (exec defaultAlgorithms
        ([.setProcessFunction ⟨0⟩, .queueEvent ⟨some "$m", roomMessage, false⟩] ++ retriedRun)).2 →
          ¬ AsksToWait err) ∧
      runtimeSteps defaultAlgorithms (exec defaultAlgorithms
          [.setProcessFunction ⟨0⟩, .queueEvent ⟨some "$m", roomMessage, false⟩]).1 retriedRun ≤
        (exec defaultAlgorithms
          ([.setProcessFunction ⟨0⟩, .queueEvent ⟨some "$m", roomMessage, false⟩] : List (Action Unit))).1.workLeft ∧
      (exec defaultAlgorithms
          ([.setProcessFunction ⟨0⟩, .queueEvent ⟨some "$m", roomMessage, false⟩] : List (Action Unit))).1.workLeft ≤
        15 * (exec defaultAlgorithms
          ([.setProcessFunction ⟨0⟩, .queueEvent ⟨some "$m", roomMessage, false⟩] : List (Action Unit))).1.entries.length +
        3 * (exec defaultAlgorithms
          ([.setProcessFunction ⟨0⟩, .queueEvent ⟨some "$m", roomMessage, false⟩] : List (Action Unit))).1.tasks.length :=
  have hw : ∀ r ev k err, .retry r ev k err ∈ (exec defaultAlgorithms
      ([.setProcessFunction ⟨0⟩, .queueEvent ⟨some "$m", roomMessage, false⟩] ++ retriedRun)).2 →
        ¬ AsksToWait err := by
    intro r ev k err h
    have htr : (exec defaultAlgorithms
        ([.setProcessFunction ⟨0⟩, .queueEvent ⟨some "$m", roomMessage, false⟩] ++ retriedRun)).2 =
        [.push "message" 0, .call ⟨0⟩ "message" 0,
          .retry 0 ⟨some "$m", roomMessage, false⟩ 1 (some serverError),
          .setTimeout "message" 2000, .call ⟨0⟩ "message" 0] := by decide
    simp only [htr, List.mem_cons, reduceCtorEq, Obs.retry.injEq, List.mem_nil_iff, or_false,
      false_or] at h
    obtain ⟨-, -, -, rfl⟩ := h
    decide
  ⟨rfl, by decide, hw, runtime_work_bounded defaultAlgorithms rfl _ _ (by decide) hw⟩

/-! ## A drained scheduler has settled every promise -/

/-- Every entry whose promise is pending is in a queue, or was named by a removal of `as`. -/
def PendingAccounted (as : List (Action T)) (s : MatrixScheduler T) : Prop :=
  ∀ r e, s.entries[r]? = some e → e.defer = .pending →
    (∃ q, r ∈ s.queueOf q) ∨ ∃ ev, .removeEventFromQueue ev ∈ as ∧ ev.id = e.event.id

namespace PendingAccounted

theorem initial : PendingAccounted [] (initial : MatrixScheduler T) := fun _ _ h =>
  absurd h (by simp [MatrixScheduler.initial])

/-- Every transition keeps every pending entry queued or named by a removal: an entry leaves
its queue only by a removal of its id or when its own call settles, which settles its promise,
and a new entry is queued. -/
theorem step {as : List (Action T)} (h : PendingAccounted as s) (hcq : CallsQueued s)
    (hs : Serial s) (hal : Allocated alg s) (ho : Ordered s tr) (hc : Counted s tr) {a : Action T}
    {r : MatrixScheduler T × List Obs} (hr : s.Transition alg a r) :
    PendingAccounted (as ++ [a]) r.1 := by
  intro x e' he' hp'
  rcases Nat.lt_or_ge x s.entries.length with hlt | hge
  · -- an old entry: its promise was pending, so it was queued or named, and it did not leave
    -- its queue but by a removal
    obtain ⟨e, he⟩ : ∃ e, s.entries[x]? = some e := ⟨_, List.getElem?_eq_getElem hlt⟩
    have hp : e.defer = .pending := by_contra fun hne =>
      hne (hr.settledBy hs he he' (by rw [hp']; exact Ne.symm hne)).was_pending
    have hev := hr.event_eq he he'
    rcases h x e he hp with ⟨q, hq⟩ | ⟨ev, hm, hid⟩
    · by_cases hq' : x ∈ r.1.queueOf q
      · exact .inl ⟨q, hq'⟩
      · rcases hcq.leaves_queue hs hal ho hc hr hq hq' with ⟨ev, rfl, hid⟩ | ⟨outcome, -, -, hset⟩
        · refine .inr ⟨ev, by simp, ?_⟩
          simpa [he, hev, eq_comm] using hid
        · rw [he'] at hset
          cases outcome <;> simp [Outcome.settled, hp'] at hset
    · exact .inr ⟨ev, List.mem_append_left _ hm, hev ▸ hid⟩
  · -- a new entry: only `queueEvent` allocates one, and pushes it onto its queue
    cases hr with
    | @queueEvent q event _ =>
        have hx : x = s.entries.length := by
          have := (List.getElem?_eq_some_iff.mp he').1
          simp only [startProcessingQueues_entries, pushEntry_entries, List.length_append,
            List.length_singleton] at this
          omega
        exact .inl ⟨q, by simp [queueOf_pushEntry, hx]⟩
    | callNull ht hfn => exact absurd hfn (hs.consume ht).2.2
    | @rejected q obj ht err =>
        have hne : x ≠ obj := Nat.ne_of_gt (Nat.lt_of_lt_of_le
          (lt_of_homeOf (hal.2 q obj (.inr ht))) hge)
        rw [getElem?_onRejected_of_ne _ hne] at he'
        simp [List.getElem?_eq_none hge] at he'
    | idle _ | removeEventFromQueue _ | setProcessFunction _ | call _ _ | fulfilled _ _
    | fireRetryTimer _ =>
        simp [onFulfilled, MatrixScheduler.setProcessFunction, List.getElem?_modify,
          List.getElem?_eq_none hge] at he'

theorem exec (alg : Algorithms) (as : List (Action T))
    (hsp : ∀ i (hi : i < as.length), SparesCalls (exec alg (as.take i)).1 as[i]) :
    PendingAccounted as (exec alg as).1 := by
  induction as using List.reverseRecOn with
  | nil => exact initial
  | append_singleton as a ih =>
      have hpre := (sparesCalls_append_singleton hsp).1
      rw [exec_append_singleton]
      exact ((ih hpre).step (CallsQueued.exec alg as hpre) (Serial.exec alg as)
        (Allocated.exec alg as) (Ordered.exec alg as) (Counted.exec alg as)
        (transition_step _ alg a) :)

end PendingAccounted

/-- A drained scheduler has settled every promise but those of the entries a removal took
out: after a run whose removals spare the entries with a pending call, whose retry algorithm
did not throw on the errors it was handed, and that ends with a process function set and no
continuation pending, the promise of every entry `queueEvent` made has settled, unless a
`removeEventFromQueue` of the run named its id. -/
theorem drained_scheduler_settled_all (alg : Algorithms) (as : List (Action T))
    (hsp : ∀ i (hi : i < as.length), SparesCalls (exec alg (as.take i)).1 as[i])
    (hretry : ∀ r ev k err, .retry r ev k err ∈ (exec alg as).2 →
      (alg.retryAlgorithm ev k err).isSome)
    (hfn : (exec alg as).1.procFn ≠ none) (hidle : (exec alg as).1.tasks = [])
    {r : Nat} {e : IQueueEntry T} (he : (exec alg as).1.entries[r]? = some e) :
    e.defer ≠ .pending ∨ ∃ ev, .removeEventFromQueue ev ∈ as ∧ ev.id = e.event.id := by
  by_cases hp : e.defer = .pending
  · rcases PendingAccounted.exec alg as hsp r e he hp with ⟨q, hq⟩ | hrm
    · obtain ⟨hcount, hact⟩ := (Live.exec_of_consulted alg as hretry).2 q
      have hpos := hact hfn (List.ne_nil_of_mem hq)
      have hzero : (exec alg as).1.pending q = 0 := by simp [pending, hidle]
      omega
    · exact .inr hrm
  · exact .inl hp

theorem sparedRun_settled :
    (∀ i (hi : i < sparedRun.length),
      SparesCalls (exec defaultAlgorithms (sparedRun.take i)).1 sparedRun[i]) ∧
      (∀ r ev k err, .retry r ev k err ∈ (exec defaultAlgorithms sparedRun).2 →
        (defaultAlgorithms.retryAlgorithm ev k err).isSome) ∧
      (exec defaultAlgorithms sparedRun).1.procFn ≠ none ∧
      (exec defaultAlgorithms sparedRun).1.tasks = [] ∧
      (exec defaultAlgorithms sparedRun).1.entries[1]? = some ⟨eventB, .pending, 0⟩ ∧
      ((⟨eventB, .pending, 0⟩ : IQueueEntry Unit).defer ≠ .pending ∨
        ∃ ev, .removeEventFromQueue ev ∈ sparedRun ∧ ev.id = eventB.id) :=
  have hretry : ∀ r ev k err, .retry r ev k err ∈ (exec defaultAlgorithms sparedRun).2 →
      (defaultAlgorithms.retryAlgorithm ev k err).isSome := by
    intro r ev k err h
    have htr : (exec defaultAlgorithms sparedRun).2 =
        [.push "message" 0, .push "message" 1, .call ⟨0⟩ "message" 0] := by decide
    simp [htr] at h
  have hfn : (exec defaultAlgorithms sparedRun).1.procFn ≠ none := by decide
  have hidle : (exec defaultAlgorithms sparedRun).1.tasks = [] := by decide
  have he : (exec defaultAlgorithms sparedRun).1.entries[1]? = some ⟨eventB, .pending, 0⟩ := by
    decide
  ⟨sparedRun_sparesCalls, hretry, hfn, hidle, he,
    drained_scheduler_settled_all defaultAlgorithms _ sparedRun_sparesCalls hretry hfn hidle he⟩

end MatrixSdk.Scheduler
