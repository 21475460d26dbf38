import MatrixSdk.Scheduler.Counting

/-! How often and how late `RETRY_BACKOFF_RATELIMIT` retries an entry, and what a throwing
retry algorithm leaves behind. -/

namespace MatrixSdk.Scheduler

open MatrixScheduler

variable {T : Type} {alg : Algorithms} {s : MatrixScheduler T} {tr : List Obs}

/-! ## Stalled queues -/

/-- Queue `q` is active with no pending continuation: nothing processes it again. -/
structure Stalled (s : MatrixScheduler T) (q : String) : Prop where
  pending_zero : s.pending q = 0
  active : q ∈ s.activeQueues

namespace Stalled

variable {q : String}

theorem of_le (h : Stalled s q) {u : MatrixScheduler T} (hp : u.pending q ≤ s.pending q)
    (ha : u.activeQueues = s.activeQueues) : Stalled u q :=
  ⟨Nat.le_zero.mp (h.1 ▸ hp), ha ▸ h.2⟩

/-- A pending continuation belongs to another queue. -/
theorem ne_of_mem (h : Stalled s q) {t : Task} (ht : t ∈ s.tasks) : t.queueName ≠ q := fun he =>
  absurd h.1 (Nat.pos_iff_ne_zero.mp (he ▸ s.pending_pos ht))

/-- Taking the one continuation of a queue stalls it, until a step adds another. -/
theorem of_consume (hs : Serial s) {t : Task} (ht : t ∈ s.tasks) :
    Stalled (s.dropTask t) t.queueName :=
  ⟨(hs.consume ht).1, List.count_pos_iff.mp (by
    rw [dropTask_activeQueues, (hs.consume ht).2.1]
    exact Nat.one_pos)⟩

theorem dropTask (h : Stalled s q) (t : Task) : Stalled (s.dropTask t) q :=
  h.of_le (s.pending_dropTask_le t q) rfl

theorem modifyEntry (h : Stalled s q) (r : Nat) (f : IQueueEntry T → IQueueEntry T) :
    Stalled (s.modifyEntry r f) q :=
  h.of_le le_rfl rfl

theorem removeNextEvent (h : Stalled s q) (q' : String) : Stalled (s.removeNextEvent q').1 q :=
  h.of_le (by simp) (by simp)

theorem addTask (h : Stalled s q) {t : Task} (ht : t.queueName ≠ q) : Stalled (s.addTask t) q :=
  h.of_le (by simp [pending_addTask, ht]) rfl

theorem processQueue (h : Stalled s q) {q' : String} (hq : q' ≠ q) :
    Stalled (s.processQueue q') q := by
  refine ⟨by simp [pending_processQueue, hq, h.1], List.count_pos_iff.mp ?_⟩
  rw [count_processQueue, if_neg fun h' => hq h'.1, Nat.sub_zero]
  exact List.count_pos_iff.mpr h.2

theorem startProcessingQueues (h : Stalled s q) : Stalled s.startProcessingQueues q := by
  refine ⟨by simp [pending_startProcessingQueues, h.1, h.2], List.count_pos_iff.mp ?_⟩
  rw [count_startProcessingQueues]
  exact Nat.lt_of_lt_of_le (List.count_pos_iff.mpr h.2) (Nat.le_add_right _ _)

theorem onRejected (h : Stalled s q) {q' : String} (hq : q' ≠ q) (r : Nat)
    (err : Option MatrixError) : Stalled (s.onRejected alg q' r err).1 q := by
  have h1 := h.modifyEntry r fun e => { e with attempts := e.attempts + 1 }
  dsimp only [MatrixScheduler.onRejected]
  split
  · exact h1
  · split
    · exact h1
    · split
      · exact ((h1.removeNextEvent q').modifyEntry r _).processQueue hq
      · exact h1.addTask hq

/-- A stalled queue stays stalled. -/
theorem step (h : Stalled s q) {a : Action T} {r : MatrixScheduler T × List Obs}
    (hr : s.Transition alg a r) : Stalled r.1 q := by
  cases hr with
  | idle _ => exact h
  | @queueEvent q' event _ =>
      exact (h.of_le (u := s.pushEntry q' event) le_rfl rfl).startProcessingQueues
  | removeEventFromQueue event => exact h.of_le (by simp) (by simp)
  | setProcessFunction fn =>
      exact (h.of_le (u := { s with procFn := some fn }) le_rfl rfl).startProcessingQueues
  | call ht _ => exact (h.dropTask _).addTask fun he => h.ne_of_mem ht he
  | callNull ht _ => exact (h.dropTask _).onRejected (h.ne_of_mem ht) _ _
  | fulfilled ht res =>
      exact (((h.dropTask _).removeNextEvent _).modifyEntry _ _).processQueue (h.ne_of_mem ht)
  | rejected ht err => exact (h.dropTask _).onRejected (h.ne_of_mem ht) _ err
  | fireRetryTimer ht => exact (h.dropTask _).processQueue (h.ne_of_mem ht)

/-- A stalled queue stays stalled whatever the run goes on with, and the rest of the run
calls `procFn` for it no more. -/
theorem run (alg : Algorithms) (bs : List (Action T)) {r : MatrixScheduler T × List Obs}
    (h : Stalled r.1 q) :
    Stalled (bs.foldl (stepTrace alg) r).1 q ∧
      ∃ o, (bs.foldl (stepTrace alg) r).2 = r.2 ++ o ∧ ∀ fn obj, .call fn q obj ∉ o := by
  obtain ⟨hd, o, ho, hc⟩ := Transition.run alg (P := fun s => Stalled s q)
    (Q := fun x => ∀ fn obj, x ≠ .call fn q obj)
    (fun _ _ _ h hr => ⟨h.step hr, fun _ hx fn obj he => h.ne_of_mem (hr.call_mem (he ▸ hx)).1 rfl⟩)
    bs h
  exact ⟨hd, o, ho, fun fn obj hx => hc _ hx fn obj rfl⟩

end Stalled

/-- Once a queue has stalled it stays stalled, whatever the run goes on with: it stays in
`activeQueues`, so `startProcessingQueues` passes it over when an event is queued or a process
function is set, and `procFn` is never called for it again. -/
theorem stalled_queue_stays_stalled (alg : Algorithms) (as bs : List (Action T)) (q : String)
    (h : Stalled (exec alg as).1 q) :
    Stalled (exec alg (as ++ bs)).1 q ∧
      ∃ o, (exec alg (as ++ bs)).2 = (exec alg as).2 ++ o ∧ ∀ fn obj, .call fn q obj ∉ o := by
  rw [exec_append]
  exact Stalled.run alg bs h

/-- A message sent once and rejected with no error value (`Promise.reject()`), under the
default algorithms: `RETRY_BACKOFF_RATELIMIT` throws on `err.httpStatus`. -/
def rejectedWithoutErrorRun : List (Action Unit) :=
  [.setProcessFunction ⟨0⟩, .queueEvent ⟨some "$m", roomMessage, false⟩, .runProcFnCall "message" 0,
    .settle "message" 0 (.rejected none)]

/-- After that run the message queue has stalled, and a message queued next and a new process
function leave it stalled, with no further send. -/
theorem rejected_without_error_stalls :
    Stalled (exec defaultAlgorithms rejectedWithoutErrorRun).1 "message" ∧
      Stalled (exec defaultAlgorithms (rejectedWithoutErrorRun ++
        [.queueEvent ⟨some "$n", roomMessage, false⟩, .setProcessFunction ⟨1⟩])).1 "message" ∧
      ∃ o, (exec defaultAlgorithms (rejectedWithoutErrorRun ++
        [.queueEvent ⟨some "$n", roomMessage, false⟩, .setProcessFunction ⟨1⟩])).2 =
          (exec defaultAlgorithms rejectedWithoutErrorRun).2 ++ o ∧
        ∀ fn obj, .call fn "message" obj ∉ o :=
  have h : Stalled (exec defaultAlgorithms rejectedWithoutErrorRun).1 "message" :=
    ⟨by decide, by decide⟩
  ⟨h, stalled_queue_stays_stalled defaultAlgorithms rejectedWithoutErrorRun _ "message" h⟩

/-! ## The budget of `RETRY_BACKOFF_RATELIMIT` -/

/-- Every scheduled call on an entry of `B` is on an entry rejected at most four times. -/
def SchedulesOk (B : Nat → Prop) (s : MatrixScheduler T) : Prop :=
  ∀ q r e, B r → .procFnCall q r ∈ s.tasks → s.entries[r]? = some e → e.attempts ≤ 4

/-- An entry of `B` rejected five times is queued only in stalled queues. -/
def QueuedOk (B : Nat → Prop) (s : MatrixScheduler T) : Prop :=
  ∀ q r e, B r → r ∈ s.queueOf q → s.entries[r]? = some e → 5 ≤ e.attempts → Stalled s q

/-- The budget of the entries of `B`, with `RETRY_BACKOFF_RATELIMIT` and no wait named by the
server for them. -/
structure Budgeted (B : Nat → Prop) (s : MatrixScheduler T) (tr : List Obs) : Prop where
  scheduled : SchedulesOk B s
  queued : QueuedOk B s
  calls : ∀ r, B r → callsTo r tr ≤ 5

variable {B : Nat → Prop}

/-- The entries of `B` in a queue that is not stalled were rejected at most four times. -/
theorem QueuedOk.attempts_le (h : QueuedOk B s) {q : String} (hq : ¬ Stalled s q) {r : Nat}
    (hB : B r) (hr : r ∈ s.queueOf q) {e : IQueueEntry T} (he : s.entries[r]? = some e) :
    e.attempts ≤ 4 :=
  Nat.le_of_lt_succ (Nat.lt_of_not_le fun h5 => hq (h q r e hB hr he h5))

/-- After a step that took a continuation of queue `q0`, every scheduled call is an old one or
one on an entry of `q0`, on an unchanged entry. -/
theorem SchedulesOk.of_acting (h : SchedulesOk B s) (hq : QueuedOk B s) {q0 : String}
    (hns : ¬ Stalled s q0) {u : MatrixScheduler T}
    (ht : ∀ q r, .procFnCall q r ∈ u.tasks → u.entries[r]? = s.entries[r]? ∧
      (.procFnCall q r ∈ s.tasks ∨ r ∈ s.queueOf q0)) : SchedulesOk B u := by
  intro q r e hB hr he
  obtain ⟨heq, hold | hmem⟩ := ht q r hr
  · exact h q r e hB hold (heq ▸ he)
  · exact hq.attempts_le hns hB hmem (heq ▸ he)

/-- After a step that took a continuation of queue `q0` and left every other stalled queue
stalled, an entry rejected five times is one that was already queued there, or its queue
stalled. -/
theorem QueuedOk.of_acting (h : QueuedOk B s) {q0 : String} (hns : ¬ Stalled s q0)
    {u : MatrixScheduler T}
    (hq : ∀ q r e, B r → r ∈ u.queueOf q → u.entries[r]? = some e → 5 ≤ e.attempts →
      Stalled u q ∨ (r ∈ s.queueOf q ∧ s.entries[r]? = some e))
    (hst : ∀ q, q ≠ q0 → Stalled s q → Stalled u q) : QueuedOk B u := by
  intro q r e hB hr he h5
  rcases hq q r e hB hr he h5 with hs' | ⟨hr', he'⟩
  · exact hs'
  · have hs := h q r e hB hr' he' h5
    exact hst q (fun hq0 => hns (hq0 ▸ hs)) hs

theorem attempts_of_pushEntry {q : String} {event : MatrixEvent} {r : Nat} {e : IQueueEntry T}
    (he : (s.pushEntry q event).entries[r]? = some e) : s.entries[r]? = some e ∨ e.attempts = 0 := by
  rcases Nat.lt_or_ge r s.entries.length with hr | hr
  · rw [pushEntry_entries, List.getElem?_append_left hr] at he
    exact .inl he
  · rw [pushEntry_entries, List.getElem?_append_right hr] at he
    obtain rfl := List.mem_singleton.mp (List.getElem?_mem he)
    exact .inr rfl

namespace Budgeted

variable (hs : Serial s) (hal : Allocated alg s) (ho : Ordered s tr) (hc : Counted s tr)

theorem initial : Budgeted B (initial : MatrixScheduler T) [] :=
  ⟨fun _ _ _ _ h => by simp [MatrixScheduler.initial] at h, fun _ _ _ _ h => by simp at h,
    fun _ _ => by simp⟩

theorem pushEntry (h : Budgeted B s tr) (q : String) (event : MatrixEvent) :
    Budgeted B (s.pushEntry q event) (tr ++ [.push q s.entries.length]) := by
  refine ⟨fun q' r e hB ht he => ?_, fun q' r e hB hr he h5 => ?_,
    fun r hB => by simpa using h.3 r hB⟩
  · rcases attempts_of_pushEntry he with he | he
    · exact h.1 q' r e hB ht he
    · omega
  · rcases attempts_of_pushEntry he with he' | he'
    · have hlt := (List.getElem?_eq_some_iff.mp he').1
      have hr' : r ∈ s.queueOf q' := by
        rw [queueOf_pushEntry] at hr
        split at hr
        · subst q'
          rcases List.mem_append.mp hr with hr | hr
          · exact hr
          · exact absurd (List.mem_singleton.mp hr) hlt.ne
        · exact hr
      exact (h.2 q' r e hB hr' he' h5).of_le le_rfl rfl
    · omega

theorem startProcessingQueues (h : Budgeted B s tr) : Budgeted B s.startProcessingQueues tr := by
  refine ⟨fun q r e hB ht he => ?_, fun q r e hB hr he h5 => ?_, h.3⟩
  · rw [startProcessingQueues_entries] at he
    rcases s.mem_tasks_startProcessingQueues ht with ht | ⟨q', r', hq', hr', he'⟩
    · exact h.1 q r e hB ht he
    · cases he'
      exact h.2.attempts_le (fun hst => hq' hst.2) hB (List.mem_of_mem_head? hr') he
  · rw [startProcessingQueues_entries] at he
    rw [queueOf_startProcessingQueues] at hr
    exact (h.2 q r e hB hr he h5).startProcessingQueues

include hs hal hc in
theorem call (h : Budgeted B s tr) {q0 : String} {r : Nat} (ht : .procFnCall q0 r ∈ s.tasks)
    (fn : ProcessFunction) :
    Budgeted B ((s.dropTask (.procFnCall q0 r)).addTask (.inFlight q0 r))
      (tr ++ [.call fn q0 r]) := by
  refine ⟨fun q r' e hB ht' he => ?_, fun q r' e hB hr he h5 => ?_, fun r' hB => ?_⟩
  · simp only [addTask_tasks, dropTask_tasks, List.mem_append, List.mem_singleton,
      reduceCtorEq, or_false] at ht'
    exact h.1 q r' e hB (List.mem_of_mem_erase ht') he
  · have hst := h.2 q r' e hB hr he h5
    exact (hst.dropTask _).addTask fun he => hst.ne_of_mem ht he
  · by_cases hr : r = r'
    · subst hr
      obtain ⟨e, he⟩ := Counted.exists_entry_of_call hal (.inl ht)
      have hcount := ((hc r) e he).2.1
      rw [inFlightOn_eq_zero_of_scheduled hs hal ht, (hc r).pending_of_call (.inl ht) he] at hcount
      have hle := h.1 q0 r e hB ht he
      simp only [callsTo_append, callsTo_cons, callsTo_nil, Obs.isCallOn, beq_self_eq_true,
        if_true, hcount]
      simp at hle ⊢
      omega
    · simpa [hr] using h.3 r' hB

include hs hal ho in
/-- After the call on `r` settled and the head of its queue was shifted, whatever became of `r`,
every scheduled call and every queued entry is within the budget. -/
theorem shifted (h : Budgeted B s tr) {q0 : String} {r : Nat} (ht : .inFlight q0 r ∈ s.tasks)
    {u : MatrixScheduler T} (hq : ∀ q, u.queueOf q = s.queueOf q)
    (hts : u.tasks = s.tasks.erase (.inFlight q0 r))
    (hst : ∀ q, q ≠ q0 → Stalled s q → Stalled u q)
    (he : ∀ r', r' ≠ r → u.entries[r']? = s.entries[r']?) (f : IQueueEntry T → IQueueEntry T) :
    SchedulesOk B (((u.removeNextEvent q0).1.modifyEntry r f).processQueue q0) ∧
      QueuedOk B (((u.removeNextEvent q0).1.modifyEntry r f).processQueue q0) := by
  have hg := Gone.of_settled hs hal ho ht hq hts
  have hns : ¬ Stalled s q0 := fun hst => hst.ne_of_mem ht rfl
  have he' : ∀ r', r' ≠ r →
      (((u.removeNextEvent q0).1.modifyEntry r f).processQueue q0).entries[r']? = s.entries[r']? :=
    fun r' hr => by
      rw [processQueue_entries, getElem?_modifyEntry, if_neg hr, removeNextEvent_entries, he r' hr]
  have hsub : ∀ q, ((u.removeNextEvent q0).1.queueOf q).Sublist (s.queueOf q) := fun q =>
    hq q ▸ queueOf_removeNextEvent_sublist u q0 q
  refine ⟨h.1.of_acting h.2 hns fun q r' ht' => ?_, h.2.of_acting hns (fun q r' e _ hr he'' _ => ?_)
    (fun q hq' hs' => (((hst q hq' hs').removeNextEvent q0).modifyEntry r f).processQueue
      (Ne.symm hq'))⟩
  · rcases mem_tasks_processQueue _ ht' with hold | ⟨h', hh, heq⟩
    · rw [modifyEntry_tasks] at hold
      have hne : r' ≠ r := by rintro rfl; exact hg.2 q (.inl hold)
      rw [removeNextEvent_tasks, hts] at hold
      exact ⟨he' r' hne, .inl (List.mem_of_mem_erase hold)⟩
    · cases heq
      have hmem := List.mem_of_mem_head? hh
      rw [queueOf_modifyEntry] at hmem
      have hne : r' ≠ r := by rintro rfl; exact hg.1 q0 hmem
      exact ⟨he' r' hne, .inr ((hsub q0).subset hmem)⟩
  · rw [queueOf_processQueue, queueOf_modifyEntry] at hr
    have hne : r' ≠ r := by rintro rfl; exact hg.1 q hr
    exact .inr ⟨(hsub q).subset hr, (he' r' hne) ▸ he''⟩

include hs hal ho in
theorem fulfilled (h : Budgeted B s tr) {q0 : String} {r : Nat} (ht : .inFlight q0 r ∈ s.tasks)
    (res : T) : Budgeted B ((s.dropTask (.inFlight q0 r)).onFulfilled q0 r res) tr :=
  have h' := h.shifted hs hal ho ht (u := s.dropTask _) (fun _ => rfl) rfl
    (fun _ _ hs' => hs'.dropTask _) (fun _ _ => rfl) (fun e => { e with defer := e.defer.resolve res })
  ⟨h'.1, h'.2, h.3⟩

include hs hal ho in
theorem rejected (h : Budgeted B s tr) (hdef : alg.retryAlgorithm = retryBackoffRatelimit)
    {q0 : String} {r : Nat} (ht : .inFlight q0 r ∈ s.tasks) (err : Option MatrixError)
    (hwait : ∀ r' ev k err', B r' → .retry r' ev k err' ∈
      ((s.dropTask (.inFlight q0 r)).onRejected alg q0 r err).2 → ¬ AsksToWait err') :
    Budgeted B ((s.dropTask (.inFlight q0 r)).onRejected alg q0 r err).1
      (tr ++ ((s.dropTask (.inFlight q0 r)).onRejected alg q0 r err).2) := by
  obtain ⟨e, he⟩ := Counted.exists_entry_of_call hal (.inr ht)
  have hns : ¬ Stalled s q0 := fun hst => hst.ne_of_mem ht rfl
  have hnc : ∀ q r', .procFnCall q r' ∈ (s.dropTask (.inFlight q0 r)).tasks → r' ≠ r := by
    rintro q r' hr rfl
    exact (Gone.of_settled hs hal ho ht (u := s.dropTask _) (fun _ => rfl) rfl).2 q
      (.inl (by rw [removeNextEvent_tasks]; exact hr))
  have hcalls : ∀ r', B r' →
      callsTo r' (tr ++ ((s.dropTask (.inFlight q0 r)).onRejected alg q0 r err).2) ≤ 5 :=
    fun r' hB => by rw [callsTo_append, callsTo_onRejected, Nat.add_zero]; exact h.3 r' hB
  have hmod : ∀ r', r' ≠ r → ((s.dropTask (.inFlight q0 r)).modifyEntry r
      fun e => { e with attempts := e.attempts + 1 }).entries[r']? = s.entries[r']? :=
    fun r' hr => by rw [getElem?_modifyEntry, if_neg hr]; rfl
  have hold : ∀ q r', .procFnCall q r' ∈ (s.dropTask (.inFlight q0 r)).tasks →
      ((s.dropTask (.inFlight q0 r)).modifyEntry r
        fun e => { e with attempts := e.attempts + 1 }).entries[r']? = s.entries[r']? ∧
      (.procFnCall q r' ∈ s.tasks ∨ r' ∈ s.queueOf q0) :=
    fun q r' hr => ⟨hmod r' (hnc q r' hr), .inl (List.mem_of_mem_erase hr)⟩
  rcases onRejected_cases (s := s.dropTask (.inFlight q0 r)) alg q0 err he with
    ⟨-, hres⟩ | ⟨-, hres⟩ | ⟨w, hw, hr, hres⟩ <;> rw [hres] at hcalls hwait ⊢
  · -- the retry algorithm threw: the queue stalls with its entries in it
    refine ⟨h.1.of_acting h.2 hns hold, h.2.of_acting hns (fun q r' e' _ hr' he' _ => ?_)
      (fun q _ hs' => (hs'.dropTask _).modifyEntry r _), hcalls⟩
    by_cases hrr : r' = r
    · subst hrr
      have hq : q = q0 := Option.some_inj.mp ((hal.1 q r' hr').symm.trans (hal.2 q0 r' (.inr ht)))
      subst hq
      exact .inl ((Stalled.of_consume hs ht).modifyEntry r' _)
    · exact .inr ⟨hr', (hmod r' hrr) ▸ he'⟩
  · -- the retry algorithm gave up: the head of the queue is shifted
    have h' := h.shifted hs hal ho ht (u := (s.dropTask _).modifyEntry r _) (fun _ => rfl) rfl
      (fun _ _ hs' => (hs'.dropTask _).modifyEntry r _) hmod
      (fun e => { e with defer := e.defer.reject err })
    exact ⟨h'.1, h'.2, hcalls⟩
  · -- the retry algorithm named a wait: it allows another try
    refine ⟨h.1.of_acting h.2 hns fun q r' hr' => ?_, h.2.of_acting hns
      (fun q r' e' hB hr' he' h5 => ?_)
      (fun q hq hs' => ((hs'.dropTask _).modifyEntry r _).addTask (Ne.symm hq)), hcalls⟩
    · simp only [addTask_tasks, List.mem_append, List.mem_singleton, reduceCtorEq, or_false] at hr'
      exact hold q r' hr'
    · by_cases hrr : r' = r
      · subst hrr
        rw [hdef] at hr
        have hle := (retryBackoffRatelimit_retries e.event _
          (hwait r' e.event (e.attempts + 1) err hB (by simp)) hr hw).1
        simp only [addTask_entries, getElem?_modifyEntry, if_true, dropTask_entries, he,
          Option.map_some', Option.some_inj] at he'
        subst he'
        exact absurd h5 (by simp only; omega)
      · exact .inr ⟨hr', (hmod r' hrr) ▸ he'⟩

theorem timer (h : Budgeted B s tr) {q0 : String} {w : Int} (ht : .retryTimer q0 w ∈ s.tasks) :
    Budgeted B ((s.dropTask (.retryTimer q0 w)).processQueue q0) tr := by
  have hns : ¬ Stalled s q0 := fun hst => hst.ne_of_mem ht rfl
  refine ⟨h.1.of_acting h.2 hns fun q r ht' => ?_, h.2.of_acting hns
    (fun q r e _ hr he _ => .inr ⟨by simpa using hr, by simpa using he⟩)
    (fun q hq hs' => (hs'.dropTask _).processQueue (Ne.symm hq)), h.3⟩
  rcases mem_tasks_processQueue _ ht' with ht' | ⟨h', hh, heq⟩
  · exact ⟨by simp, .inl (List.mem_of_mem_erase ht')⟩
  · cases heq
    exact ⟨by simp, .inr (List.mem_of_mem_head? hh)⟩

include hs hal ho hc in
/-- Every transition keeps the budget of the entries of `B`, when an error it hands the retry
algorithm for one of them names no wait. -/
theorem step (h : Budgeted B s tr) (hdef : alg.retryAlgorithm = retryBackoffRatelimit)
    {a : Action T} {r : MatrixScheduler T × List Obs} (hr : s.Transition alg a r)
    (hwait : ∀ r' ev k err, B r' → .retry r' ev k err ∈ r.2 → ¬ AsksToWait err) :
    Budgeted B r.1 (tr ++ r.2) := by
  cases hr with
  | idle _ => simpa using h
  | @queueEvent q event _ => exact (h.pushEntry q event).startProcessingQueues
  | removeEventFromQueue event =>
      simp only [List.append_nil]
      exact ⟨fun q r e hB ht he => h.1 q r e hB (by simpa using ht) (by simpa using he),
        fun q r e hB hr he h5 => (h.2 q r e hB ((queueOf_removeEventFromQueue_sublist ..).subset hr)
          (by simpa using he) h5).of_le (by simp) (by simp), h.3⟩
  | setProcessFunction fn =>
      simp only [List.append_nil]
      exact Budgeted.startProcessingQueues (s := { s with procFn := some fn })
        ⟨h.1, fun q r e hB hr he h5 => (h.2 q r e hB hr he h5).of_le le_rfl rfl, h.3⟩
  | call ht _ => exact h.call hs hal hc ht _
  | callNull ht hfn => exact absurd hfn (hs.consume ht).2.2
  | fulfilled ht res => simpa using h.fulfilled hs hal ho ht res
  | rejected ht err => exact h.rejected hs hal ho hdef ht err hwait
  | fireRetryTimer ht => simpa using h.timer ht

/-- The entries of `B` keep their budget along every run in which the server named no wait
for any of them. -/
theorem exec (alg : Algorithms) (hdef : alg.retryAlgorithm = retryBackoffRatelimit)
    (B : Nat → Prop) (as : List (Action T))
    (hwait : ∀ r ev k err, B r → .retry r ev k err ∈ (exec alg as).2 → ¬ AsksToWait err) :
    Budgeted B (exec alg as).1 (exec alg as).2 :=
  exec_induction alg
    (P := fun s tr => (∀ r ev k err, B r → .retry r ev k err ∈ tr → ¬ AsksToWait err) →
      Budgeted B s tr)
    (fun _ => initial)
    (fun as a ih hw => (ih fun r ev k err hB hm => hw r ev k err hB (List.mem_append_left _ hm)).step
      (Serial.exec alg as) (Allocated.exec alg as) (Ordered.exec alg as) (Counted.exec alg as) hdef
      (transition_step _ alg a) fun r ev k err hB hm => hw r ev k err hB (List.mem_append_right _ hm))
    as hwait

end Budgeted

/-! ## Retries counted -/

/-- What the count of rejections gives when the call in flight on an entry fails: the retry
algorithm sees the count; and with `RETRY_BACKOFF_RATELIMIT`, the bound on the calls on an
entry for which the server named no wait, the back-off before the next call, which a retryable
error arms, and the errors given up on at once. -/
structure RetriesCounted (alg : Algorithms) (s : MatrixScheduler T) (tr : List Obs) : Prop where
  consulted : ∀ q obj err, .inFlight q obj ∈ s.tasks → ∃ e, s.entries[obj]? = some e ∧
    .retry obj e.event (callsTo obj tr) err ∈ (s.step alg (.settle q obj (.rejected err))).2 ∧
    callsTo obj tr = retriesOf obj tr + 1
  at_most_five : alg.retryAlgorithm = retryBackoffRatelimit → ∀ obj,
    (∀ ev k err, .retry obj ev k err ∈ tr → ¬ AsksToWait err) → callsTo obj tr ≤ 5
  backoff : alg.retryAlgorithm = retryBackoffRatelimit → ∀ q obj err w,
    .inFlight q obj ∈ s.tasks → ¬ AsksToWait err →
    .setTimeout q w ∈ (s.step alg (.settle q obj (.rejected err))).2 →
    1 ≤ callsTo obj tr ∧ callsTo obj tr ≤ 4 ∧ w = 1000 * 2 ^ callsTo obj tr ∧
      (s.step alg (.settle q obj (.rejected err))).1.pending q = 1
  arms_backoff : alg.retryAlgorithm = retryBackoffRatelimit → ∀ q obj (err : MatrixError),
    .inFlight q obj ∈ s.tasks → ¬ GivesUpAtOnce err → ¬ AsksToWait (some err) →
    (err.name = some "M_LIMIT_EXCEEDED" → err.data ≠ none) → callsTo obj tr ≤ 4 →
    .setTimeout q (1000 * 2 ^ callsTo obj tr) ∈
      (s.step alg (.settle q obj (.rejected (some err)))).2
  given_up : alg.retryAlgorithm = retryBackoffRatelimit → ∀ q obj err,
    .inFlight q obj ∈ s.tasks → GivesUpAtOnce err → ∀ bs : List (Action T),
      (bs.foldl (stepTrace alg) (stepTrace alg (s, tr) (.settle q obj (.rejected (some err))))).1.entries[obj]?.map
          (·.defer) = some (.rejected (some err)) ∧
      callsTo obj (bs.foldl (stepTrace alg)
        (stepTrace alg (s, tr) (.settle q obj (.rejected (some err))))).2 = callsTo obj tr

/-- Retries are counted correctly after every run. -/
theorem retries_counted (alg : Algorithms) (as : List (Action T)) :
    RetriesCounted alg (exec alg as).1 (exec alg as).2 := by
  have hs := Serial.exec alg as
  have hal := Allocated.exec alg as
  have ho := Ordered.exec alg as
  have hc := Counted.exec alg as
  refine ⟨fun q obj err ht => ?_, fun hdef obj hwait => (Budgeted.exec alg hdef (· = obj) as
      fun r ev k err hr hm => hwait ev k err (hr ▸ hm)).3 obj rfl,
    fun hdef q obj err w ht hna hw => ?_, fun hdef q obj err ht hg hna hd hle => ?_,
    fun hdef q obj err ht hgive bs => ?_⟩
  · obtain ⟨e, he, -, hcalls, hretries⟩ := hc.rejecting hs hal ht
    refine ⟨e, he, ?_, by omega⟩
    rw [step_settle_rejected _ ht, hcalls]
    rcases onRejected_cases (s := (exec alg as).1.dropTask (.inFlight q obj)) alg q err he
      with ⟨-, hres⟩ | ⟨-, hres⟩ | ⟨_, -, -, hres⟩ <;> simp [hres]
  · obtain ⟨e, he, -, hcalls, -⟩ := hc.rejecting hs hal ht
    have hp : ((exec alg as).1.dropTask (.inFlight q obj)).pending q = 0 := (hs.consume ht).1
    rw [step_settle_rejected _ ht] at hw ⊢
    rw [hcalls]
    rcases onRejected_cases (s := (exec alg as).1.dropTask (.inFlight q obj)) alg q err he
      with ⟨-, hres⟩ | ⟨-, hres⟩ | ⟨w', hw', hr, hres⟩ <;> rw [hres] at hw ⊢
    · simp at hw
    · simp at hw
    · obtain rfl : w = w' := by simpa using hw
      rw [hdef] at hr
      obtain ⟨hle, hwv⟩ := retryBackoffRatelimit_retries e.event _ hna hr hw'
      exact ⟨by omega, hle, hwv, by simp [pending_addTask, hp]⟩
  · obtain ⟨e, he, -, hcalls, -⟩ := hc.rejecting hs hal ht
    have hr : alg.retryAlgorithm e.event (e.attempts + 1) (some err) =
        some (1000 * 2 ^ (e.attempts + 1)) := by
      rw [hdef, retryBackoffRatelimit_of_retryable _ _ hg hna hd, backoff_of_le (hcalls ▸ hle)]
    have hpos : (0 : Int) < 2 ^ (e.attempts + 1) := by
      exact_mod_cast Nat.two_pow_pos _
    rw [step_settle_rejected _ ht, hcalls]
    rcases onRejected_cases (s := (exec alg as).1.dropTask (.inFlight q obj)) alg q (some err) he
      with ⟨hr', -⟩ | ⟨hr', -⟩ | ⟨w, -, hr', hres⟩ <;> rw [hr] at hr'
    · cases hr'
    · have := Option.some_inj.mp hr'; omega
    · obtain rfl := Option.some_inj.mp hr'
      simp [hres]
  · obtain ⟨e, he, hp, -, -⟩ := hc.rejecting hs hal ht
    have hgive' : alg.retryAlgorithm e.event (e.attempts + 1) (some err) = some (-1) := by
      rw [hdef]; exact retryBackoffRatelimit_of_givesUpAtOnce _ _ hgive
    rcases onRejected_cases (s := (exec alg as).1.dropTask (.inFlight q obj)) alg q
      (some err) he with ⟨hr, -⟩ | ⟨-, hres⟩ | ⟨w, hw, hr, -⟩
    · rw [hgive'] at hr; cases hr
    · have hdead : Dead (stepTrace alg ((exec alg as).1, (exec alg as).2)
          (.settle q obj (.rejected (some err)))).1 obj
          { e with attempts := e.attempts + 1, defer := .rejected (some err) } := by
        simp only [stepTrace, step_settle_rejected _ ht, hres]
        refine ⟨?_, ((Gone.of_settled hs hal ho ht
          (u := ((exec alg as).1.dropTask (.inFlight q obj)).modifyEntry obj _)
          (fun _ => rfl) rfl).modifyEntry obj _).processQueue q⟩
        simp [List.getElem?_modify, he, hp]
      obtain ⟨hd, o, ho', hno⟩ := hdead.run alg bs
      refine ⟨by rw [hd.1]; rfl, ?_⟩
      rw [ho', callsTo_append, callsTo_eq_zero_of_not_mem hno, stepTrace, step_settle_rejected _ ht,
        hres]
      simp
    · rw [hgive'] at hr; exact absurd (Option.some_inj.mp hr).symm hw

/-- Queue a message and start its call. -/
def messageInFlightRun : List (Action Unit) :=
  [.setProcessFunction ⟨0⟩, .queueEvent ⟨some "$m", roomMessage, false⟩, .runProcFnCall "message" 0]

/-- The first call on the message fails: a 500 arms the two-second timer, the queue's one
pending continuation, and a 403 gives the message up for good. -/
theorem retries_counted_default :
    .setTimeout "message" 2000 ∈ ((exec defaultAlgorithms messageInFlightRun).1.step
        defaultAlgorithms (.settle "message" 0 (.rejected (some serverError)))).2 ∧
      ((exec defaultAlgorithms messageInFlightRun).1.step defaultAlgorithms
        (.settle "message" 0 (.rejected (some serverError)))).1.pending "message" = 1 ∧
      ∀ bs : List (Action Unit),
        (bs.foldl (stepTrace defaultAlgorithms) (stepTrace defaultAlgorithms
          ((exec defaultAlgorithms messageInFlightRun).1, (exec defaultAlgorithms messageInFlightRun).2)
          (.settle "message" 0 (.rejected (some forbidden))))).1.entries[0]?.map (·.defer) =
            some (.rejected (some forbidden)) ∧
        callsTo 0 (bs.foldl (stepTrace defaultAlgorithms) (stepTrace defaultAlgorithms
          ((exec defaultAlgorithms messageInFlightRun).1, (exec defaultAlgorithms messageInFlightRun).2)
          (.settle "message" 0 (.rejected (some forbidden))))).2 =
          callsTo 0 (exec defaultAlgorithms messageInFlightRun).2 := by
  have h := retries_counted defaultAlgorithms messageInFlightRun
  have ht : .inFlight "message" 0 ∈ (exec defaultAlgorithms messageInFlightRun).1.tasks := by decide
  have hcalls : callsTo 0 (exec defaultAlgorithms messageInFlightRun).2 = 1 := by decide
  have harm := h.arms_backoff rfl "message" 0 serverError ht (by decide) (by decide) (by decide)
    (by omega)
  rw [hcalls] at harm
  exact ⟨harm, (h.backoff rfl "message" 0 (some serverError) _ ht (by decide) harm).2.2.2,
    h.given_up rfl "message" 0 forbidden ht (by decide)⟩

end MatrixSdk.Scheduler
