import MatrixSdk.Scheduler.Semantics

/-! What each operation of the scheduler does to its queues, active queues and pending
continuations. -/

namespace MatrixSdk.Scheduler.MatrixScheduler

variable {T : Type} (s : MatrixScheduler T)

/-- The number of continuations pending for queue `q`. -/
def pending (q : String) : Nat := s.tasks.countP fun t => t.queueName == q

/-! ## Fields -/

section Fields

variable (obj : Nat) (f : IQueueEntry T → IQueueEntry T) (t : Task) (q : String)

@[simp] theorem modifyEntry_entries : (s.modifyEntry obj f).entries = s.entries.modify f obj := rfl
@[simp] theorem modifyEntry_queues : (s.modifyEntry obj f).queues = s.queues := rfl
@[simp] theorem modifyEntry_activeQueues :
    (s.modifyEntry obj f).activeQueues = s.activeQueues := rfl
@[simp] theorem modifyEntry_procFn : (s.modifyEntry obj f).procFn = s.procFn := rfl
@[simp] theorem modifyEntry_tasks : (s.modifyEntry obj f).tasks = s.tasks := rfl

@[simp] theorem dropTask_entries : (s.dropTask t).entries = s.entries := rfl
@[simp] theorem dropTask_queues : (s.dropTask t).queues = s.queues := rfl
@[simp] theorem dropTask_activeQueues : (s.dropTask t).activeQueues = s.activeQueues := rfl
@[simp] theorem dropTask_procFn : (s.dropTask t).procFn = s.procFn := rfl
@[simp] theorem dropTask_tasks : (s.dropTask t).tasks = s.tasks.erase t := rfl

@[simp] theorem addTask_entries : (s.addTask t).entries = s.entries := rfl
@[simp] theorem addTask_queues : (s.addTask t).queues = s.queues := rfl
@[simp] theorem addTask_activeQueues : (s.addTask t).activeQueues = s.activeQueues := rfl
@[simp] theorem addTask_procFn : (s.addTask t).procFn = s.procFn := rfl
@[simp] theorem addTask_tasks : (s.addTask t).tasks = s.tasks ++ [t] := rfl

@[simp] theorem queueOf_modifyEntry : (s.modifyEntry obj f).queueOf q = s.queueOf q := rfl
@[simp] theorem queueOf_dropTask : (s.dropTask t).queueOf q = s.queueOf q := rfl
@[simp] theorem queueOf_addTask : (s.addTask t).queueOf q = s.queueOf q := rfl

@[simp] theorem removeNextEvent_entries : (s.removeNextEvent q).1.entries = s.entries := by
  unfold removeNextEvent; split <;> rfl
@[simp] theorem removeNextEvent_activeQueues :
    (s.removeNextEvent q).1.activeQueues = s.activeQueues := by
  unfold removeNextEvent; split <;> rfl
@[simp] theorem removeNextEvent_procFn : (s.removeNextEvent q).1.procFn = s.procFn := by
  unfold removeNextEvent; split <;> rfl
@[simp] theorem removeNextEvent_tasks : (s.removeNextEvent q).1.tasks = s.tasks := by
  unfold removeNextEvent; split <;> rfl

@[simp] theorem processQueue_entries : (s.processQueue q).entries = s.entries := by
  unfold processQueue; split <;> rfl
@[simp] theorem processQueue_queues : (s.processQueue q).queues = s.queues := by
  unfold processQueue; split <;> rfl
@[simp] theorem processQueue_procFn : (s.processQueue q).procFn = s.procFn := by
  unfold processQueue; split <;> rfl
@[simp] theorem queueOf_processQueue (q' : String) :
    (s.processQueue q).queueOf q' = s.queueOf q' := by
  simp only [queueOf, processQueue_queues]

end Fields

@[simp] theorem pending_initial (q : String) : (initial : MatrixScheduler T).pending q = 0 := rfl

@[simp] theorem queueOf_initial (q : String) : (initial : MatrixScheduler T).queueOf q = [] := rfl

theorem length_modifyEntry (obj : Nat) (f : IQueueEntry T → IQueueEntry T) :
    (s.modifyEntry obj f).entries.length = s.entries.length := List.length_modify ..

theorem getElem?_modifyEntry (obj r : Nat) (f : IQueueEntry T → IQueueEntry T) :
    (s.modifyEntry obj f).entries[r]? = if r = obj then s.entries[r]?.map f else s.entries[r]? := by
  simp only [modifyEntry_entries, List.getElem?_modify]
  by_cases h : r = obj
  · subst h; simp
  · simp [h, Ne.symm h]

/-! ## Queues -/

theorem mem_keys_of_queueOf_ne_nil {q : String} (h : s.queueOf q ≠ []) : q ∈ s.queues.keys := by
  rw [← Queues.isSome_get?]
  cases hq : s.queues.get? q with
  | none => exact absurd (by simp [queueOf, hq]) h
  | some _ => rfl

theorem peekNextEvent_eq (q : String) : s.peekNextEvent q = (s.queueOf q).head? := by
  unfold peekNextEvent queueOf; split <;> simp_all

theorem queueOf_removeNextEvent (q q' : String) :
    (s.removeNextEvent q).1.queueOf q' = if q' = q then (s.queueOf q).tail else s.queueOf q' := by
  unfold removeNextEvent queueOf
  split
  · rename_i h; split <;> simp_all
  · rename_i queue h; rw [Queues.get?_modify]; split <;> simp_all

theorem queueOf_removeNextEvent_sublist (q q' : String) :
    ((s.removeNextEvent q).1.queueOf q').Sublist (s.queueOf q') := by
  rw [queueOf_removeNextEvent]
  split
  · subst q'; exact List.tail_sublist _
  · exact .refl _

theorem removeNextEvent_snd (q : String) : (s.removeNextEvent q).2 = (s.queueOf q).head? := by
  unfold removeNextEvent queueOf; split <;> simp_all

theorem processQueue_of_nil {q : String} (h : s.queueOf q = []) :
    s.processQueue q = { s with activeQueues := s.activeQueues.erase q } := by
  simp [processQueue, peekNextEvent_eq, h]

theorem processQueue_of_cons {q : String} {obj : Nat} {rest : List Nat}
    (h : s.queueOf q = obj :: rest) : s.processQueue q = s.addTask (.procFnCall q obj) := by
  simp [processQueue, peekNextEvent_eq, h]

/-! ## Starting queues -/

/-- The queues `startProcessingQueues` spins up, in order. -/
def startedQueues : List String :=
  s.queues.keys.filter fun q => q ∉ s.activeQueues ∧ s.queueOf q ≠ []

/-- The continuations `startProcessingQueues` leaves for the queues `names`: a call on each
queue's head. -/
def headCalls (names : List String) : List Task :=
  names.filterMap fun q => (s.queueOf q).head?.map (.procFnCall q)

private theorem foldl_spinUp (names : List String) (s : MatrixScheduler T)
    (h : ∀ q ∈ names, s.queueOf q ≠ []) :
    names.foldl spinUp s =
      { s with activeQueues := s.activeQueues ++ names, tasks := s.tasks ++ s.headCalls names } := by
  induction names generalizing s with
  | nil => simp [headCalls]
  | cons q names ih =>
      obtain ⟨obj, rest, hq⟩ := List.exists_cons_of_ne_nil (h q (List.mem_cons_self _ _))
      have hspin : s.spinUp q = { s with activeQueues := s.activeQueues ++ [q] }.addTask
          (.procFnCall q obj) := processQueue_of_cons _ hq
      rw [List.foldl_cons, hspin, ih]
      · simp [headCalls, hq, addTask]
        rfl
      · exact fun q' hq' => h q' (List.mem_cons_of_mem _ hq')

theorem mem_startedQueues {q : String} :
    q ∈ s.startedQueues ↔ q ∉ s.activeQueues ∧ s.queueOf q ≠ [] := by
  simp only [startedQueues, List.mem_filter, decide_eq_true_eq, and_iff_right_iff_imp]
  exact fun h => s.mem_keys_of_queueOf_ne_nil h.2

theorem nodup_startedQueues : s.startedQueues.Nodup := s.queues.nodup.filter _

theorem mem_headCalls {names : List String} {t : Task} (ht : t ∈ s.headCalls names) :
    ∃ q ∈ names, ∃ r, (s.queueOf q).head? = some r ∧ t = .procFnCall q r := by
  obtain ⟨q, hq, r, hr, rfl⟩ : ∃ q ∈ names, ∃ r, _ ∧ Task.procFnCall q r = t := by
    simpa [headCalls, Option.map_eq_some'] using ht
  exact ⟨q, hq, r, hr, rfl⟩

theorem startProcessingQueues_of_none (h : s.procFn = none) : s.startProcessingQueues = s := by
  simp [startProcessingQueues, h]

theorem startProcessingQueues_of_some {fn : ProcessFunction} (h : s.procFn = some fn) :
    s.startProcessingQueues = { s with
      activeQueues := s.activeQueues ++ s.startedQueues
      tasks := s.tasks ++ s.headCalls s.startedQueues } := by
  unfold startProcessingQueues
  split
  · simp_all
  · exact foldl_spinUp s.startedQueues s fun q hq => (s.mem_startedQueues.mp hq).2

/-- The continuations `processQueue` leaves: those there were, and a call on the queue's head. -/
theorem mem_tasks_processQueue {q : String} {t : Task} (ht : t ∈ (s.processQueue q).tasks) :
    t ∈ s.tasks ∨ ∃ r, (s.queueOf q).head? = some r ∧ t = .procFnCall q r := by
  cases h : s.queueOf q with
  | nil => rw [processQueue_of_nil s h] at ht; exact .inl ht
  | cons r rest =>
      rw [processQueue_of_cons s h, addTask_tasks, List.mem_append, List.mem_singleton] at ht
      exact ht.imp id fun ht => ⟨r, rfl, ht⟩

/-- The continuations `startProcessingQueues` leaves: those there were, and a call on the head of
each inactive queue. -/
theorem mem_tasks_startProcessingQueues {t : Task} (ht : t ∈ s.startProcessingQueues.tasks) :
    t ∈ s.tasks ∨ ∃ q r, q ∉ s.activeQueues ∧ (s.queueOf q).head? = some r ∧ t = .procFnCall q r := by
  cases hfn : s.procFn with
  | none => rw [startProcessingQueues_of_none s hfn] at ht; exact .inl ht
  | some fn =>
      rw [startProcessingQueues_of_some s hfn] at ht
      rcases List.mem_append.mp ht with ht | ht
      · exact .inl ht
      · obtain ⟨q, hq, r, hr, rfl⟩ := s.mem_headCalls ht
        exact .inr ⟨q, r, (s.mem_startedQueues.mp hq).1, hr, rfl⟩

@[simp] theorem startProcessingQueues_entries : s.startProcessingQueues.entries = s.entries := by
  cases h : s.procFn
  · rw [startProcessingQueues_of_none s h]
  · rw [startProcessingQueues_of_some s h]

@[simp] theorem startProcessingQueues_queues : s.startProcessingQueues.queues = s.queues := by
  cases h : s.procFn
  · rw [startProcessingQueues_of_none s h]
  · rw [startProcessingQueues_of_some s h]

@[simp] theorem startProcessingQueues_procFn : s.startProcessingQueues.procFn = s.procFn := by
  cases h : s.procFn
  · rw [startProcessingQueues_of_none s h, h]
  · rw [startProcessingQueues_of_some s h, ← h]

@[simp] theorem queueOf_startProcessingQueues (q : String) :
    s.startProcessingQueues.queueOf q = s.queueOf q := by
  simp only [queueOf, startProcessingQueues_queues]


/-! ## Queuing and removing events -/

/-- The state `queueEvent` builds before it starts the queues: a new entry for `event`,
allocated and pushed onto `queueName`. -/
def pushEntry (queueName : String) (event : MatrixEvent) : MatrixScheduler T :=
  { s with
    entries := s.entries ++ [⟨event, .pending, 0⟩]
    queues := (s.queues.ensure queueName).modify queueName (· ++ [s.entries.length]) }

section Queuing

variable (alg : Algorithms) (event : MatrixEvent) (q q' : String)

@[simp] theorem pushEntry_entries :
    (s.pushEntry q event).entries = s.entries ++ [⟨event, .pending, 0⟩] := rfl
@[simp] theorem pushEntry_activeQueues : (s.pushEntry q event).activeQueues = s.activeQueues := rfl
@[simp] theorem pushEntry_procFn : (s.pushEntry q event).procFn = s.procFn := rfl
@[simp] theorem pushEntry_tasks : (s.pushEntry q event).tasks = s.tasks := rfl
@[simp] theorem pending_pushEntry : (s.pushEntry q event).pending q' = s.pending q' := rfl

theorem queueOf_pushEntry :
    (s.pushEntry q event).queueOf q' =
      if q' = q then s.queueOf q ++ [s.entries.length] else s.queueOf q' := by
  simp only [pushEntry, queueOf, Queues.get?_modify, Queues.get?_ensure]
  split <;> simp_all

theorem queueEvent_of_none (h : alg.queueNameOf event = none) :
    s.queueEvent alg event = ((s, []), none) := by
  simp [queueEvent, h]

theorem queueEvent_of_some (h : alg.queueNameOf event = some q) :
    s.queueEvent alg event =
      (((s.pushEntry q event).startProcessingQueues, [.push q s.entries.length]),
        some s.entries.length) := by
  simp [queueEvent, h, pushEntry]

@[simp] theorem removeEventFromQueue_entries :
    (s.removeEventFromQueue alg event).1.entries = s.entries := by
  unfold removeEventFromQueue; split <;> [rfl; split <;> rfl]
@[simp] theorem removeEventFromQueue_activeQueues :
    (s.removeEventFromQueue alg event).1.activeQueues = s.activeQueues := by
  unfold removeEventFromQueue; split <;> [rfl; split <;> rfl]
@[simp] theorem removeEventFromQueue_procFn :
    (s.removeEventFromQueue alg event).1.procFn = s.procFn := by
  unfold removeEventFromQueue; split <;> [rfl; split <;> rfl]
@[simp] theorem removeEventFromQueue_tasks :
    (s.removeEventFromQueue alg event).1.tasks = s.tasks := by
  unfold removeEventFromQueue; split <;> [rfl; split <;> rfl]
@[simp] theorem pending_removeEventFromQueue :
    (s.removeEventFromQueue alg event).1.pending q = s.pending q := by
  simp [pending]

/-- Removing an event takes out of the event's queue the first entry whose event has its id. -/
theorem queueOf_removeEventFromQueue :
    (s.removeEventFromQueue alg event).1.queueOf q =
      if alg.queueNameOf event = some q then
        (s.queueOf q).eraseP fun r => (s.entries[r]?.map fun e => e.event.id) == some event.id
      else s.queueOf q := by
  unfold removeEventFromQueue
  split
  · simp_all
  · rename_i name hname
    split
    · rename_i hq
      by_cases he : name = q
      · subst he; simp [queueOf, hname, hq]
      · simp [hname, he]
    · rename_i queue hq
      simp only [queueOf, Queues.get?_modify, removeElement, hname, Option.some.injEq]
      by_cases he : q = name
      · subst he; simp [hq]
      · simp [he, Ne.symm he]

/-- `removeEventFromQueue` reports whether the event's queue held an entry with the event's id. -/
theorem removeEventFromQueue_snd :
    (s.removeEventFromQueue alg event).2 = true ↔ ∃ q, alg.queueNameOf event = some q ∧
      ∃ r ∈ s.queueOf q, s.entries[r]?.map (fun e => e.event.id) = some event.id := by
  unfold removeEventFromQueue
  split
  · rename_i hname
    simp only [hname, reduceCtorEq, false_and, exists_false, Bool.false_eq_true]
  · rename_i name hname
    simp only [hname, Option.some.injEq, exists_eq_left', queueOf]
    split
    · rename_i hq
      simp only [hq, Option.getD_none, List.not_mem_nil, false_and, exists_false,
        Bool.false_eq_true]
    · rename_i queue hq
      simp only [removeElement, List.any_eq_true, beq_iff_eq, hq, Option.getD_some]

/-- Removing an event only takes entries out of queues. -/
theorem queueOf_removeEventFromQueue_sublist :
    ((s.removeEventFromQueue alg event).1.queueOf q).Sublist (s.queueOf q) := by
  rw [queueOf_removeEventFromQueue]
  split
  · exact List.eraseP_sublist _
  · exact .refl _

/-- Removing an event keeps every entry whose event has another id. -/
theorem mem_queueOf_removeEventFromQueue {r : Nat}
    (hid : s.entries[r]?.map (fun e => e.event.id) ≠ some event.id) (hr : r ∈ s.queueOf q) :
    r ∈ (s.removeEventFromQueue alg event).1.queueOf q := by
  rw [queueOf_removeEventFromQueue]
  split
  · exact (List.mem_eraseP_of_neg (by simpa using hid)).mpr hr
  · exact hr

end Queuing

/-! ## Counting continuations and active queues -/

theorem pending_pos {t : Task} (ht : t ∈ s.tasks) : 0 < s.pending t.queueName :=
  List.countP_pos_iff.mpr ⟨t, ht, by simp⟩

theorem pending_eq_zero {q : String} : s.pending q = 0 ↔ ∀ t ∈ s.tasks, t.queueName ≠ q := by
  simp [pending, List.countP_eq_zero]

theorem pending_addTask (t : Task) (q : String) :
    (s.addTask t).pending q = s.pending q + if t.queueName = q then 1 else 0 := by
  simp only [pending, addTask_tasks, List.countP_append, List.countP_cons, List.countP_nil,
    beq_iff_eq, Nat.zero_add]

theorem pending_dropTask {t : Task} (ht : t ∈ s.tasks) (q : String) :
    (s.dropTask t).pending q = s.pending q - if t.queueName = q then 1 else 0 := by
  have h := (List.perm_cons_erase ht).countP_eq fun t => t.queueName == q
  simp only [pending, dropTask_tasks, h, List.countP_cons, beq_iff_eq]
  omega

/-- A queue with at most one pending continuation has no two different ones. -/
theorem eq_of_pending_le_one {q : String} (h : s.pending q ≤ 1) {t t' : Task} (ht : t ∈ s.tasks)
    (ht' : t' ∈ s.tasks) (hq : t.queueName = q) (hq' : t'.queueName = q) : t = t' := by
  by_contra hne
  have hpos := (s.dropTask t).pending_pos (t := t') ((List.mem_erase_of_ne (Ne.symm hne)).mpr ht')
  rw [hq', pending_dropTask _ ht, if_pos hq] at hpos
  omega

theorem pending_dropTask_of_not_mem {t : Task} (ht : t ∉ s.tasks) (q : String) :
    (s.dropTask t).pending q = s.pending q := by
  simp [pending, List.erase_of_not_mem ht]

theorem pending_dropTask_le (t : Task) (q : String) : (s.dropTask t).pending q ≤ s.pending q := by
  by_cases ht : t ∈ s.tasks
  · rw [pending_dropTask _ ht]; omega
  · rw [pending_dropTask_of_not_mem _ ht]

@[simp] theorem pending_modifyEntry (obj : Nat) (f : IQueueEntry T → IQueueEntry T) (q : String) :
    (s.modifyEntry obj f).pending q = s.pending q := rfl

@[simp] theorem pending_removeNextEvent (q q' : String) :
    (s.removeNextEvent q).1.pending q' = s.pending q' := by
  simp [pending]

theorem pending_processQueue (q q' : String) :
    (s.processQueue q).pending q' = s.pending q' + if q = q' ∧ s.queueOf q ≠ [] then 1 else 0 := by
  cases h : s.queueOf q with
  | nil => simp [processQueue_of_nil s h, pending]
  | cons obj rest => simp [processQueue_of_cons s h, pending_addTask, Task.queueName]

theorem count_processQueue (q q' : String) :
    (s.processQueue q).activeQueues.count q' =
      s.activeQueues.count q' - if q = q' ∧ s.queueOf q = [] then 1 else 0 := by
  cases h : s.queueOf q with
  | nil => simp [processQueue_of_nil s h, List.count_erase]
  | cons obj rest => simp [processQueue_of_cons s h]

private theorem map_queueName_headCalls (names : List String)
    (h : ∀ q ∈ names, s.queueOf q ≠ []) : (s.headCalls names).map Task.queueName = names := by
  induction names with
  | nil => rfl
  | cons q names ih =>
      obtain ⟨obj, rest, hq⟩ := List.exists_cons_of_ne_nil (h q (List.mem_cons_self _ _))
      simp only [headCalls, List.filterMap_cons, hq, List.head?_cons, Option.map_some',
        List.map_cons, Task.queueName] at ih ⊢
      rw [ih fun q' hq' => h q' (List.mem_cons_of_mem _ hq')]

theorem count_startedQueues (q : String) :
    s.startedQueues.count q = if q ∉ s.activeQueues ∧ s.queueOf q ≠ [] then 1 else 0 := by
  simp only [List.count_eq_of_nodup s.nodup_startedQueues, s.mem_startedQueues]

theorem pending_startProcessingQueues (q : String) :
    s.startProcessingQueues.pending q =
      s.pending q + if s.procFn ≠ none ∧ q ∉ s.activeQueues ∧ s.queueOf q ≠ [] then 1 else 0 := by
  cases hfn : s.procFn with
  | none => simp [startProcessingQueues_of_none s hfn]
  | some fn =>
      have hmap := s.map_queueName_headCalls s.startedQueues fun q hq => (s.mem_startedQueues.mp hq).2
      have hcount : (s.headCalls s.startedQueues).countP (fun t => t.queueName == q) =
          s.startedQueues.count q := by
        conv_rhs => rw [← hmap]
        rw [List.count, List.countP_map]
        rfl
      simp only [startProcessingQueues_of_some s hfn, pending, List.countP_append, hcount,
        count_startedQueues, ne_eq, reduceCtorEq, not_false_eq_true, true_and]

theorem count_startProcessingQueues (q : String) :
    s.startProcessingQueues.activeQueues.count q =
      s.activeQueues.count q + if s.procFn ≠ none ∧ q ∉ s.activeQueues ∧ s.queueOf q ≠ [] then 1 else 0 := by
  cases hfn : s.procFn with
  | none => simp [startProcessingQueues_of_none s hfn]
  | some fn =>
      simp only [startProcessingQueues_of_some s hfn, List.count_append, count_startedQueues, ne_eq,
        reduceCtorEq, not_false_eq_true, true_and]

/-! ## What the rejection handler reports -/

/-- The rejection handler reports the consultation of the retry algorithm on an allocated
`obj`, and the retry timer it arms for `q`. -/
theorem mem_onRejected_obs {alg : Algorithms} {q : String} {obj : Nat} {err : Option MatrixError}
    {x : Obs} (hx : x ∈ (s.onRejected alg q obj err).2) :
    (obj < s.entries.length ∧ ∃ ev k e, x = .retry obj ev k e) ∨ ∃ w, x = .setTimeout q w := by
  dsimp only [onRejected] at hx
  split at hx
  · simp at hx
  · rename_i e he
    have hlt : obj < s.entries.length := by
      simpa using (List.getElem?_eq_some_iff.mp he).1
    split at hx
    · exact .inl ⟨hlt, _, _, _, List.mem_singleton.mp hx⟩
    · split at hx
      · exact .inl ⟨hlt, _, _, _, List.mem_singleton.mp hx⟩
      · rcases List.mem_pair.mp hx with hx | hx
        · exact .inl ⟨hlt, _, _, _, hx⟩
        · exact .inr ⟨_, hx⟩

theorem getElem?_onRejected_of_ne {alg : Algorithms} {q : String} {r obj : Nat}
    {err : Option MatrixError} (h : obj ≠ r) :
    (s.onRejected alg q r err).1.entries[obj]? = s.entries[obj]? := by
  have h1 : (s.modifyEntry r fun e => { e with attempts := e.attempts + 1 }).entries[obj]? =
      s.entries[obj]? := by
    rw [getElem?_modifyEntry, if_neg h]
  dsimp only [onRejected]
  split
  · exact h1
  · split
    · exact h1
    · split
      · rw [processQueue_entries, getElem?_modifyEntry, if_neg h, removeNextEvent_entries, h1]
      · exact h1

theorem call_not_mem_onRejected {alg : Algorithms} {q : String} {obj : Nat}
    {err : Option MatrixError} (fn : ProcessFunction) (q' : String) (r : Nat) :
    .call fn q' r ∉ (s.onRejected alg q obj err).2 := fun hx => by
  rcases s.mem_onRejected_obs hx with ⟨-, _, _, _, hx⟩ | ⟨_, hx⟩ <;> cases hx

theorem step_settle_rejected {alg : Algorithms} {q : String} {obj : Nat}
    (ht : .inFlight q obj ∈ s.tasks) (err : Option MatrixError) :
    s.step alg (.settle q obj (.rejected err)) = (s.dropTask (.inFlight q obj)).onRejected alg q obj err := by
  simp [step, ht]

theorem step_settle_fulfilled {alg : Algorithms} {q : String} {obj : Nat}
    (ht : .inFlight q obj ∈ s.tasks) (res : T) :
    s.step alg (.settle q obj (.fulfilled res)) =
      ((s.dropTask (.inFlight q obj)).onFulfilled q obj res, []) := by
  simp [step, ht]

theorem step_runProcFnCall {alg : Algorithms} {q : String} {obj : Nat} {fn : ProcessFunction}
    (ht : .procFnCall q obj ∈ s.tasks) (hfn : s.procFn = some fn) :
    s.step alg (.runProcFnCall q obj) =
      ((s.dropTask (.procFnCall q obj)).addTask (.inFlight q obj), [.call fn q obj]) := by
  simp [step, ht, runProcFnCall, hfn]

theorem step_fireRetryTimer {alg : Algorithms} {q : String} {w : Int}
    (ht : .retryTimer q w ∈ s.tasks) :
    s.step alg (.fireRetryTimer q w) = ((s.dropTask (.retryTimer q w)).processQueue q, []) := by
  simp [step, ht]

/-- What a step of each action can do: nothing (a continuation that is not pending, or an
event no queue takes), the public method called, or the pending continuation run to
completion. The invariants of runs are proved over these cases. -/
inductive Transition (alg : Algorithms) : Action T → MatrixScheduler T × List Obs → Prop
  | idle (a : Action T) : Transition alg a (s, [])
  | queueEvent {q : String} {event : MatrixEvent} (hq : alg.queueNameOf event = some q) :
      Transition alg (.queueEvent event)
        ((s.pushEntry q event).startProcessingQueues, [.push q s.entries.length])
  | removeEventFromQueue (event : MatrixEvent) :
      Transition alg (.removeEventFromQueue event) ((s.removeEventFromQueue alg event).1, [])
  | setProcessFunction (fn : ProcessFunction) :
      Transition alg (.setProcessFunction fn) (s.setProcessFunction fn, [])
  | call {q : String} {obj : Nat} {fn : ProcessFunction} (ht : .procFnCall q obj ∈ s.tasks)
      (hfn : s.procFn = some fn) :
      Transition alg (.runProcFnCall q obj)
        ((s.dropTask (.procFnCall q obj)).addTask (.inFlight q obj), [.call fn q obj])
  | callNull {q : String} {obj : Nat} (ht : .procFnCall q obj ∈ s.tasks) (hfn : s.procFn = none) :
      Transition alg (.runProcFnCall q obj)
        ((s.dropTask (.procFnCall q obj)).onRejected alg q obj (some typeError))
  | fulfilled {q : String} {obj : Nat} (ht : .inFlight q obj ∈ s.tasks) (res : T) :
      Transition alg (.settle q obj (.fulfilled res))
        ((s.dropTask (.inFlight q obj)).onFulfilled q obj res, [])
  | rejected {q : String} {obj : Nat} (ht : .inFlight q obj ∈ s.tasks) (err : Option MatrixError) :
      Transition alg (.settle q obj (.rejected err))
        ((s.dropTask (.inFlight q obj)).onRejected alg q obj err)
  | fireRetryTimer {q : String} {w : Int} (ht : .retryTimer q w ∈ s.tasks) :
      Transition alg (.fireRetryTimer q w) ((s.dropTask (.retryTimer q w)).processQueue q, [])

/-- Every step is a transition of its action. -/
theorem transition_step (alg : Algorithms) (a : Action T) : s.Transition alg a (s.step alg a) := by
  cases a with
  | queueEvent event =>
      cases hq : alg.queueNameOf event with
      | none => simpa [step, queueEvent_of_none _ _ _ hq] using Transition.idle _
      | some q => simpa only [step, queueEvent_of_some _ _ _ _ hq] using Transition.queueEvent hq
  | removeEventFromQueue event => exact .removeEventFromQueue event
  | setProcessFunction fn => exact .setProcessFunction fn
  | runProcFnCall q obj =>
      by_cases ht : .procFnCall q obj ∈ s.tasks
      · cases hfn : s.procFn with
        | none => simpa only [step, if_pos ht, runProcFnCall, dropTask_procFn, hfn] using
            Transition.callNull ht hfn
        | some fn => simpa only [step, if_pos ht, runProcFnCall, dropTask_procFn, hfn] using
            Transition.call ht hfn
      · simpa only [step, if_neg ht] using Transition.idle _
  | settle q obj outcome =>
      by_cases ht : .inFlight q obj ∈ s.tasks
      · cases outcome with
        | fulfilled res => simpa only [step, if_pos ht] using Transition.fulfilled ht res
        | rejected err => simpa only [step, if_pos ht] using Transition.rejected ht err
      · simpa only [step, if_neg ht] using Transition.idle _
  | fireRetryTimer q w =>
      by_cases ht : .retryTimer q w ∈ s.tasks
      · simpa only [step, if_pos ht] using Transition.fireRetryTimer ht
      · simpa only [step, if_neg ht] using Transition.idle _

namespace Transition

variable {s} {alg : Algorithms}

/-- Only running a scheduled call calls the process function: the one that is set, on the
entry the call was scheduled for. -/
theorem call_mem {a : Action T} {r : MatrixScheduler T × List Obs} (hr : s.Transition alg a r)
    {fn : ProcessFunction} {q : String} {obj : Nat} (h : .call fn q obj ∈ r.2) :
    .procFnCall q obj ∈ s.tasks ∧ s.procFn = some fn := by
  cases hr with
  | call ht hfn =>
      obtain ⟨rfl, rfl, rfl⟩ := Obs.call.inj (List.mem_singleton.mp h)
      exact ⟨ht, hfn⟩
  | callNull _ _ => exact absurd h (call_not_mem_onRejected _ _ _ _)
  | rejected _ _ => exact absurd h (call_not_mem_onRejected _ _ _ _)
  | queueEvent _ => simp at h
  | idle _ | removeEventFromQueue _ | setProcessFunction _ | fulfilled _ _ | fireRetryTimer _ =>
      simp at h

/-- What every transition keeps holds along the rest of any run, and the rest of the trace
holds only observations that such transitions make. -/
theorem run {P : MatrixScheduler T → Prop} {Q : Obs → Prop} (alg : Algorithms)
    (hP : ∀ s a r, P s → s.Transition alg a r → P r.1 ∧ ∀ x ∈ r.2, Q x)
    (bs : List (Action T)) {r : MatrixScheduler T × List Obs} (h : P r.1) :
    P (bs.foldl (stepTrace alg) r).1 ∧
      ∃ o, (bs.foldl (stepTrace alg) r).2 = r.2 ++ o ∧ ∀ x ∈ o, Q x := by
  induction bs generalizing r with
  | nil => exact ⟨h, [], by simp, fun _ => nofun⟩
  | cons b bs ih =>
      obtain ⟨h1, h2⟩ := hP _ _ _ h (r.1.transition_step alg b)
      obtain ⟨hd, o, ho, hc⟩ := ih (r := stepTrace alg r b) h1
      refine ⟨hd, (r.1.step alg b).2 ++ o,
        by rw [List.foldl_cons, ho, stepTrace, List.append_assoc], fun x hx => ?_⟩
      rcases List.mem_append.mp hx with hx | hx
      · exact h2 x hx
      · exact hc x hx

end Transition

end MatrixSdk.Scheduler.MatrixScheduler
