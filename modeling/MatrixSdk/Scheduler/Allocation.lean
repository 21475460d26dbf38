import MatrixSdk.Scheduler.Equations

/-! Every queued or called reference names an allocated entry of its queue, and a run pushes
a queue's entries in allocation order. -/

namespace MatrixSdk.Scheduler

open MatrixScheduler

variable {T : Type} {alg : Algorithms} {s : MatrixScheduler T}

namespace MatrixScheduler

/-- The queue entry `r` belongs to: the one the queue algorithm gives its event. -/
def homeOf (s : MatrixScheduler T) (alg : Algorithms) (r : Nat) : Option String :=
  s.entries[r]?.bind fun e => alg.queueNameOf e.event

/-- A call of `procFn` on entry `r`, made for queue `q`, is scheduled or in flight. -/
def CallPending (s : MatrixScheduler T) (q : String) (r : Nat) : Prop :=
  .procFnCall q r ∈ s.tasks ∨ .inFlight q r ∈ s.tasks

theorem callPending_congr {u : MatrixScheduler T} (ht : u.tasks = s.tasks) {q : String} {r : Nat} :
    u.CallPending q r ↔ s.CallPending q r := by
  simp only [CallPending, ht]

theorem callPending_addTask (t : Task) {q : String} {r : Nat} :
    (s.addTask t).CallPending q r ↔ s.CallPending q r ∨ t = .procFnCall q r ∨ t = .inFlight q r := by
  simp only [CallPending, addTask_tasks, List.mem_append, List.mem_singleton, eq_comm (b := t)]
  tauto

theorem CallPending.of_dropTask {t : Task} {q : String} {r : Nat} (hc : (s.dropTask t).CallPending q r) :
    s.CallPending q r :=
  hc.imp List.mem_of_mem_erase List.mem_of_mem_erase

theorem callPending_dropTask_of_ne {t : Task} {q : String} (ht : t.queueName ≠ q) {r : Nat} :
    (s.dropTask t).CallPending q r ↔ s.CallPending q r := by
  simp only [CallPending, dropTask_tasks]
  rw [List.mem_erase_of_ne (by rintro rfl; exact ht rfl),
    List.mem_erase_of_ne (by rintro rfl; exact ht rfl)]

theorem not_callPending_of_pending {q : String} (hp : s.pending q = 0) (r : Nat) :
    ¬ s.CallPending q r := fun hc =>
  hc.elim (fun ht => (pending_eq_zero _).mp hp _ ht rfl) fun ht => (pending_eq_zero _).mp hp _ ht rfl

theorem lt_of_homeOf {r : Nat} {q : String} (h : s.homeOf alg r = some q) :
    r < s.entries.length := by
  by_contra hr
  simp [homeOf, List.getElem?_eq_none (Nat.le_of_not_lt hr)] at h

theorem homeOf_congr {s' : MatrixScheduler T} (h : s'.entries = s.entries) (r : Nat) :
    s'.homeOf alg r = s.homeOf alg r := by
  simp only [homeOf, h]

theorem homeOf_modifyEntry {obj : Nat} {f : IQueueEntry T → IQueueEntry T}
    (hf : ∀ e, (f e).event = e.event) (r : Nat) :
    (s.modifyEntry obj f).homeOf alg r = s.homeOf alg r := by
  simp only [homeOf, getElem?_modifyEntry]
  split <;> cases s.entries[r]? <;> simp [hf]

theorem homeOf_pushEntry_of_lt {q : String} {event : MatrixEvent} {r : Nat}
    (hr : r < s.entries.length) : (s.pushEntry q event).homeOf alg r = s.homeOf alg r := by
  simp [homeOf, List.getElem?_append_left hr]

theorem homeOf_pushEntry_self (q : String) (event : MatrixEvent) :
    (s.pushEntry q event).homeOf alg s.entries.length = alg.queueNameOf event := by
  simp [homeOf]

/-- The events of the allocated entries, in allocation order. -/
def events (s : MatrixScheduler T) : List MatrixEvent := s.entries.map (·.event)

theorem homeOf_eq_events (r : Nat) : s.homeOf alg r = s.events[r]?.bind alg.queueNameOf := by
  simp only [homeOf, events, List.getElem?_map]
  cases s.entries[r]? <;> rfl

theorem events_modifyEntry {obj : Nat} {f : IQueueEntry T → IQueueEntry T}
    (hf : ∀ e, (f e).event = e.event) : (s.modifyEntry obj f).events = s.events := by
  apply List.ext_getElem?
  intro r
  simp only [events, List.getElem?_map, getElem?_modifyEntry]
  split <;> cases s.entries[r]? <;> simp [hf]

@[simp] theorem events_dropTask (t : Task) : (s.dropTask t).events = s.events := rfl
@[simp] theorem events_addTask (t : Task) : (s.addTask t).events = s.events := rfl
@[simp] theorem events_removeNextEvent (q : String) : (s.removeNextEvent q).1.events = s.events := by
  simp [events]
@[simp] theorem events_processQueue (q : String) : (s.processQueue q).events = s.events := by
  simp [events]
@[simp] theorem events_startProcessingQueues : s.startProcessingQueues.events = s.events := by
  simp [events]

theorem events_onRejected (alg : Algorithms) (q : String) (obj : Nat) (err : Option MatrixError) :
    (s.onRejected alg q obj err).1.events = s.events := by
  have h1 : (s.modifyEntry obj fun e => { e with attempts := e.attempts + 1 }).events = s.events :=
    events_modifyEntry fun _ => rfl
  dsimp only [MatrixScheduler.onRejected]
  split
  · exact h1
  · split
    · exact h1
    · split
      · rw [events_processQueue, events_modifyEntry fun _ => by rfl, events_removeNextEvent, h1]
      · exact h1

/-- A transition keeps the events of the allocated entries, and allocates at the end. -/
theorem Transition.events_prefix {a : Action T} {r : MatrixScheduler T × List Obs}
    (hr : s.Transition alg a r) : s.events <+: r.1.events := by
  cases hr with
  | idle _ => exact List.prefix_refl _
  | @queueEvent q event _ => exact ⟨[event], by simp [events]⟩
  | removeEventFromQueue _ => simp [events]
  | setProcessFunction _ => simp [MatrixScheduler.setProcessFunction, events]
  | call _ _ | fireRetryTimer _ => simp
  | callNull _ _ | rejected _ _ => simp [events_onRejected]
  | fulfilled _ res =>
      simp [onFulfilled, events_modifyEntry (f := fun e => { e with defer := e.defer.resolve res })
        fun _ => rfl]

/-- No transition changes the event of an allocated entry. -/
theorem Transition.event_eq {a : Action T} {r : MatrixScheduler T × List Obs}
    (hr : s.Transition alg a r) {x : Nat} {e e' : IQueueEntry T} (he : s.entries[x]? = some e)
    (he' : r.1.entries[x]? = some e') : e'.event = e.event := by
  obtain ⟨t, ht⟩ := hr.events_prefix
  have hlt : x < s.events.length := by
    simpa [events] using (List.getElem?_eq_some_iff.mp he).1
  have h := congrArg (·[x]?) ht
  dsimp only at h
  rw [List.getElem?_append_left hlt] at h
  simp only [events, List.getElem?_map, he, he', Option.map_some', Option.some.injEq] at h
  exact h.symm

end MatrixScheduler

/-! ## The state -/

/-- Every queued reference, and every reference a pending call is about, names an allocated
entry of that queue. -/
structure Allocated (alg : Algorithms) (s : MatrixScheduler T) : Prop where
  queue_home : ∀ q, ∀ r ∈ s.queueOf q, s.homeOf alg r = some q
  call_home : ∀ q r, s.CallPending q r → s.homeOf alg r = some q

namespace Allocated

theorem initial : Allocated alg (initial : MatrixScheduler T) :=
  ⟨fun _ _ h => by simp at h, fun _ _ h => by simp [CallPending, MatrixScheduler.initial] at h⟩

theorem of_eq (h : Allocated alg s) {s' : MatrixScheduler T} (he : s'.entries = s.entries)
    (hq : ∀ q, (s'.queueOf q).Sublist (s.queueOf q)) (ht : s'.tasks ⊆ s.tasks) :
    Allocated alg s' := by
  refine ⟨fun q r hr => ?_, fun q r hr => ?_⟩
  · rw [homeOf_congr he]; exact h.1 q r ((hq q).subset hr)
  · rw [homeOf_congr he]; exact h.2 q r (hr.imp (@ht _) (@ht _))

theorem dropTask (h : Allocated alg s) (t : Task) : Allocated alg (s.dropTask t) :=
  h.of_eq rfl (fun _ => .refl _) (List.erase_subset _ _)

theorem removeNextEvent (h : Allocated alg s) (q : String) :
    Allocated alg (s.removeNextEvent q).1 :=
  h.of_eq (by simp) (queueOf_removeNextEvent_sublist s q) (by simp)

theorem modifyEntry (h : Allocated alg s) (obj : Nat) (f : IQueueEntry T → IQueueEntry T)
    (hf : ∀ e, (f e).event = e.event) : Allocated alg (s.modifyEntry obj f) :=
  ⟨fun q r hr => (homeOf_modifyEntry hf r).trans (h.1 q r hr),
    fun q r hr => (homeOf_modifyEntry hf r).trans (h.2 q r hr)⟩

theorem addTask (h : Allocated alg s) {t : Task}
    (ht : ∀ q r, (t = .procFnCall q r ∨ t = .inFlight q r) → s.homeOf alg r = some q) :
    Allocated alg (s.addTask t) := by
  refine ⟨h.1, fun q r hr => ?_⟩
  rcases (callPending_addTask t).mp hr with hr | hr
  · exact h.2 q r hr
  · exact ht q r hr

theorem processQueue (h : Allocated alg s) (q : String) : Allocated alg (s.processQueue q) := by
  cases hq : s.queueOf q with
  | nil => rw [processQueue_of_nil s hq]; exact h.of_eq rfl (fun _ => .refl _) (fun _ => id)
  | cons obj rest =>
      rw [processQueue_of_cons s hq]
      refine h.addTask fun q' r hr => ?_
      rcases hr with hr | hr <;> cases hr
      exact h.1 q obj (by simp [hq])

theorem startProcessingQueues (h : Allocated alg s) : Allocated alg s.startProcessingQueues := by
  cases hfn : s.procFn with
  | none => rwa [startProcessingQueues_of_none s hfn]
  | some fn =>
      rw [startProcessingQueues_of_some s hfn]
      refine ⟨h.1, fun q r hr => ?_⟩
      simp only [CallPending, List.mem_append, headCalls, List.mem_filterMap,
        Option.map_eq_some'] at hr
      rcases hr with (hr | ⟨q', -, r', hr', he⟩) | (hr | ⟨q', -, r', hr', he⟩)
      · exact h.2 q r (.inl hr)
      · cases he
        exact h.1 q r (List.mem_of_mem_head? hr')
      · exact h.2 q r (.inr hr)
      · cases he

theorem pushEntry (h : Allocated alg s) {q : String} {event : MatrixEvent}
    (hq : alg.queueNameOf event = some q) : Allocated alg (s.pushEntry q event) := by
  refine ⟨fun q' r hr => ?_, fun q' r hr => ?_⟩
  · rw [queueOf_pushEntry] at hr
    split at hr
    · subst q'
      rcases List.mem_append.mp hr with hr | hr
      · rw [homeOf_pushEntry_of_lt (lt_of_homeOf (h.1 q r hr))]; exact h.1 q r hr
      · rw [List.mem_singleton.mp hr, homeOf_pushEntry_self, hq]
    · rw [homeOf_pushEntry_of_lt (lt_of_homeOf (h.1 q' r hr))]; exact h.1 q' r hr
  · have := h.2 q' r hr
    rw [homeOf_pushEntry_of_lt (lt_of_homeOf this)]; exact this

theorem onRejected (h : Allocated alg s) (q : String) (obj : Nat) (err : Option MatrixError) :
    Allocated alg (s.onRejected alg q obj err).1 := by
  have h1 := h.modifyEntry obj (fun e => { e with attempts := e.attempts + 1 }) fun _ => rfl
  dsimp only [MatrixScheduler.onRejected]
  split
  · exact h1
  · split
    · exact h1
    · split
      · exact ((h1.removeNextEvent q).modifyEntry obj _ fun _ => by rfl).processQueue q
      · exact h1.addTask fun _ _ hr => by rcases hr with hr | hr <;> cases hr

/-- Every transition keeps every reference allocated in its queue. -/
theorem step (h : Allocated alg s) {a : Action T} {r : MatrixScheduler T × List Obs}
    (hr : s.Transition alg a r) : Allocated alg r.1 := by
  cases hr with
  | idle _ => exact h
  | queueEvent hq => exact (h.pushEntry hq).startProcessingQueues
  | removeEventFromQueue event =>
      exact h.of_eq (by simp) (fun q => queueOf_removeEventFromQueue_sublist ..) (by simp)
  | setProcessFunction fn =>
      exact Allocated.startProcessingQueues (s := { s with procFn := some fn }) ⟨h.1, h.2⟩
  | @call q obj _ ht _ =>
      refine (h.dropTask _).addTask fun q' r hr => ?_
      rcases hr with hr | hr <;> cases hr
      exact h.2 q obj (.inl ht)
  | callNull _ _ => exact (h.dropTask _).onRejected _ _ _
  | fulfilled _ res =>
      exact (((h.dropTask _).removeNextEvent _).modifyEntry _ _ fun _ => by rfl).processQueue _
  | rejected _ err => exact (h.dropTask _).onRejected _ _ err
  | fireRetryTimer _ => exact (h.dropTask _).processQueue _

theorem exec (alg : Algorithms) (as : List (Action T)) : Allocated alg (exec alg as).1 :=
  exec_induction alg (P := fun s _ => Allocated alg s) initial
    (fun _ a h => h.step (transition_step _ alg a)) as

end Allocated

/-! ## The trace -/

/-- The entry a push onto queue `q` is about. -/
def Obs.pushedOnto (q : String) : Obs → Option Nat
  | .push q' r => if q' = q then some r else none
  | _ => none

/-- The entry a call of `procFn` for queue `q` is about. -/
def Obs.calledFor (q : String) : Obs → Option Nat
  | .call _ q' r => if q' = q then some r else none
  | _ => none

/-- The entries pushed onto queue `q`, in the order of the trace. -/
def pushesOn (q : String) (tr : List Obs) : List Nat := tr.filterMap (Obs.pushedOnto q)

/-- The entries `procFn` was called on for queue `q`, in the order of the trace. -/
def callsOn (q : String) (tr : List Obs) : List Nat := tr.filterMap (Obs.calledFor q)

@[simp] theorem pushesOn_append (q : String) (tr o : List Obs) :
    pushesOn q (tr ++ o) = pushesOn q tr ++ pushesOn q o := List.filterMap_append ..

@[simp] theorem callsOn_append (q : String) (tr o : List Obs) :
    callsOn q (tr ++ o) = callsOn q tr ++ callsOn q o := List.filterMap_append ..

theorem mem_callsOn {q : String} {tr : List Obs} {r : Nat} :
    r ∈ callsOn q tr ↔ ∃ fn, .call fn q r ∈ tr := by
  simp only [callsOn, List.mem_filterMap]
  constructor
  · rintro ⟨o, ho, he⟩
    cases o <;> simp only [Obs.calledFor, reduceCtorEq] at he
    split at he
    · cases he; subst q; exact ⟨_, ho⟩
    · cases he
  · rintro ⟨fn, ho⟩
    exact ⟨_, ho, by simp [Obs.calledFor]⟩

/-- The trace of a run pushes the entries of each queue in allocation order, calls `procFn`
only on entries of the queue it calls for, and consults the retry algorithm only for
allocated entries. -/
structure Recorded (alg : Algorithms) (s : MatrixScheduler T) (tr : List Obs) : Prop where
  pushes : ∀ q, pushesOn q tr =
    (List.range s.entries.length).filter fun r => s.homeOf alg r = some q
  calls : ∀ fn q r, .call fn q r ∈ tr → s.homeOf alg r = some q
  retries : ∀ r ev k err, .retry r ev k err ∈ tr → r < s.entries.length

namespace Recorded

variable {tr : List Obs}

theorem initial : Recorded alg (initial : MatrixScheduler T) [] :=
  ⟨fun _ => rfl, fun _ _ _ h => absurd h (List.not_mem_nil _),
    fun _ _ _ _ h => absurd h (List.not_mem_nil _)⟩

/-- Steps that allocate nothing and push nothing keep the record. -/
theorem extend (h : Recorded alg s tr) {s' : MatrixScheduler T} {o : List Obs}
    (he : s'.events = s.events) (hpush : ∀ q r, .push q r ∉ o)
    (hcall : ∀ fn q r, .call fn q r ∈ o → s.homeOf alg r = some q)
    (hretry : ∀ r ev k err, .retry r ev k err ∈ o → r < s.entries.length) :
    Recorded alg s' (tr ++ o) := by
  have hl : s'.entries.length = s.entries.length := by
    simpa [events] using congrArg List.length he
  have hh : ∀ r, s'.homeOf alg r = s.homeOf alg r := fun r => by
    rw [homeOf_eq_events, homeOf_eq_events, he]
  have ho : ∀ q, pushesOn q o = [] := fun q => List.filterMap_eq_nil_iff.mpr fun x hx => by
    cases x <;> simp only [Obs.pushedOnto]
    exact absurd hx (hpush _ _)
  refine ⟨fun q => ?_, fun fn q r hr => ?_, fun r ev k err hr => ?_⟩
  · simp only [pushesOn_append, ho, List.append_nil, h.1, hl, hh]
  · rw [hh]
    rcases List.mem_append.mp hr with hr | hr
    · exact h.2 fn q r hr
    · exact hcall fn q r hr
  · rw [hl]
    rcases List.mem_append.mp hr with hr | hr
    · exact h.3 r ev k err hr
    · exact hretry r ev k err hr

theorem congr_events (h : Recorded alg s tr) {s' : MatrixScheduler T} (he : s'.events = s.events) :
    Recorded alg s' tr := by
  simpa using h.extend (o := []) he (fun _ _ => List.not_mem_nil _) (fun _ _ _ => nofun)
    (fun _ _ _ _ => nofun)

theorem onRejected (h : Recorded alg s tr) (q : String) (obj : Nat) (err : Option MatrixError) :
    Recorded alg (s.onRejected alg q obj err).1 (tr ++ (s.onRejected alg q obj err).2) := by
  refine h.extend (events_onRejected alg q obj err) (fun q' r hx => ?_) (fun fn q' r hx => ?_)
    (fun r ev k e hx => ?_)
  all_goals rcases s.mem_onRejected_obs hx with ⟨hlt, _, _, _, hx⟩ | ⟨_, hx⟩ <;> cases hx
  exact hlt

theorem pushEntry (h : Recorded alg s tr) {q : String} {event : MatrixEvent}
    (hq : alg.queueNameOf event = some q) :
    Recorded alg (s.pushEntry q event) (tr ++ [.push q s.entries.length]) := by
  have hlen : (s.pushEntry q event).entries.length = s.entries.length + 1 := by simp
  refine ⟨fun q' => ?_, fun fn q' r hr => ?_, fun r ev k err hr => ?_⟩
  · have hf : (List.range s.entries.length).filter
        (fun r => (s.pushEntry q event).homeOf alg r = some q') =
        (List.range s.entries.length).filter (fun r => s.homeOf alg r = some q') :=
      List.filter_congr fun r hr => by rw [homeOf_pushEntry_of_lt (List.mem_range.mp hr)]
    rw [hlen, List.range_succ, List.filter_append, hf, pushesOn_append, h.1 q']
    by_cases hq' : q = q' <;> simp [pushesOn, Obs.pushedOnto, homeOf_pushEntry_self, hq, hq']
  · rcases List.mem_append.mp hr with hr | hr
    · have := h.2 fn q' r hr
      rw [homeOf_pushEntry_of_lt (lt_of_homeOf this)]; exact this
    · simp at hr
  · rcases List.mem_append.mp hr with hr | hr
    · have := h.3 r ev k err hr; simp; omega
    · simp at hr

/-- Every transition keeps the record of the trace. -/
theorem step (h : Recorded alg s tr) (hal : Allocated alg s) {a : Action T}
    {r : MatrixScheduler T × List Obs} (hr : s.Transition alg a r) :
    Recorded alg r.1 (tr ++ r.2) := by
  cases hr with
  | idle _ => simpa using h
  | queueEvent hq => exact (h.pushEntry hq).congr_events events_startProcessingQueues
  | removeEventFromQueue event =>
      simp only [List.append_nil]
      exact h.congr_events (by simp [events])
  | setProcessFunction fn =>
      simp only [List.append_nil]
      exact h.congr_events (by simp [events, MatrixScheduler.setProcessFunction])
  | call ht _ =>
      refine h.extend (by simp) (by simp) (fun fn q' r hr => ?_) (by simp)
      simp only [List.mem_singleton, Obs.call.injEq] at hr
      obtain ⟨-, rfl, rfl⟩ := hr
      exact hal.2 _ _ (.inl ht)
  | callNull _ _ => exact (h.congr_events (events_dropTask _)).onRejected _ _ _
  | fulfilled _ res =>
      simp only [List.append_nil]
      exact h.congr_events (by simp [MatrixScheduler.onFulfilled, events_modifyEntry])
  | rejected _ err => exact (h.congr_events (events_dropTask _)).onRejected _ _ err
  | fireRetryTimer _ =>
      simp only [List.append_nil]
      exact h.congr_events (by simp)

theorem exec (alg : Algorithms) (as : List (Action T)) :
    Recorded alg (exec alg as).1 (exec alg as).2 :=
  exec_induction alg (P := fun s tr => Recorded alg s tr) initial
    (fun as a h => h.step (Allocated.exec alg as) (transition_step _ alg a)) as

end Recorded

end MatrixSdk.Scheduler
