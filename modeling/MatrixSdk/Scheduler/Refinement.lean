import MatrixSdk.Scheduler.FifoSpec
import MatrixSdk.Scheduler.DroppedEntry

/-! The scheduler refines `FifoSpec` while `removeEventFromQueue` spares the entries of
pending calls. -/

namespace MatrixSdk.Scheduler

open MatrixScheduler FifoSpec

variable {T : Type} {alg : Algorithms} {s : MatrixScheduler T} {σ : State T}

/-- The outcome a promise settled with; none while it is pending. -/
def Deferred.outcome? : Deferred T → Option (Outcome T)
  | .pending => none
  | .resolved res => some (.fulfilled res)
  | .rejected err => some (.rejected err)

@[simp] theorem Deferred.outcome?_settled (o : Outcome T) : (Outcome.settled o).outcome? = some o := by
  cases o <;> rfl

theorem Deferred.outcome?_eq_none {d : Deferred T} : d.outcome? = none ↔ d = .pending := by
  cases d <;> simp [outcome?]

namespace MatrixScheduler

/-- The outcome of entry `r`'s promise, once it is allocated and settled. -/
def outcomeOf (s : MatrixScheduler T) (r : Nat) : Option (Outcome T) :=
  s.entries[r]?.bind fun e => e.defer.outcome?

theorem outcomeOf_modifyEntry {f : IQueueEntry T → IQueueEntry T} (hf : ∀ e, (f e).defer = e.defer)
    (obj r : Nat) : (s.modifyEntry obj f).outcomeOf r = s.outcomeOf r := by
  simp only [outcomeOf, getElem?_modifyEntry]
  split <;> cases s.entries[r]? <;> simp [hf]

/-- A new entry's promise is pending. -/
theorem outcomeOf_pushEntry (q : String) (event : MatrixEvent) (r : Nat) :
    (s.pushEntry q event).outcomeOf r = s.outcomeOf r := by
  simp only [outcomeOf, pushEntry_entries]
  rcases Nat.lt_or_ge r s.entries.length with hr | hr
  · rw [List.getElem?_append_left hr]
  · rw [List.getElem?_append_right hr, List.getElem?_eq_none hr]
    match r - s.entries.length with
    | 0 => rfl
    | _ + 1 => rfl

end MatrixScheduler

/-- The specification state `σ` describes the scheduler `s`: the same queues, a send in progress
exactly where a call is scheduled or in flight, the outcomes of the settled promises, and the
size of the heap as the next entry. -/
structure Abstracts (s : MatrixScheduler T) (σ : State T) : Prop where
  queue : ∀ q, σ.queue q = s.queueOf q
  sending : ∀ q r, σ.sending q = some r ↔ s.CallPending q r
  outcome : ∀ r, σ.outcome r = s.outcomeOf r
  next : σ.next = s.entries.length

namespace Abstracts

theorem initial : Abstracts (initial : MatrixScheduler T) FifoSpec.init :=
  ⟨fun _ => rfl, fun _ _ => by simp [FifoSpec.init, CallPending, MatrixScheduler.initial],
    fun _ => rfl, rfl⟩

/-- An operation that changes only the queues changes only the abstract queues. -/
theorem withQueues (h : Abstracts s σ) {u : MatrixScheduler T} (ht : u.tasks = s.tasks)
    (he : u.entries = s.entries) {g : String → List Nat} (hg : ∀ q, g q = u.queueOf q) :
    Abstracts u { σ with queue := g } :=
  ⟨hg, fun q r => (h.sending q r).trans (callPending_congr ht).symm,
    fun r => by rw [h.outcome, outcomeOf, outcomeOf, he], he ▸ h.next⟩

theorem of_eq (h : Abstracts s σ) {u : MatrixScheduler T} (hq : u.queues = s.queues)
    (ht : u.tasks = s.tasks) (he : u.entries = s.entries) : Abstracts u σ :=
  h.withQueues ht he fun q => by rw [h.queue, queueOf, queueOf, hq]

theorem sending_eq_none (h : Abstracts s σ) {q : String} (hp : s.pending q = 0) :
    σ.sending q = none :=
  Option.eq_none_iff_forall_not_mem.mpr fun r hr =>
    not_callPending_of_pending hp r ((h.sending q r).mp hr)

/-- A pending call is on the head of its queue: what the specification's invariant says of the
entry being sent. -/
theorem head_of_callPending (h : Abstracts s σ) (hi : Inv σ) {q : String} {r : Nat}
    (hc : s.CallPending q r) : (s.queueOf q).head? = some r :=
  h.queue q ▸ hi.sending_head q r ((h.sending q r).mpr hc)

/-- A queued entry is allocated, and its promise is pending. -/
theorem pending_of_queued (h : Abstracts s σ) (hi : Inv σ) {q : String} {r : Nat}
    (hr : r ∈ σ.queue q) : ∃ e, s.entries[r]? = some e ∧ e.defer = .pending := by
  have hlt : r < s.entries.length := h.next ▸ hi.lt_next q r hr
  have hopen := (h.outcome r).symm.trans (hi.open_of_queued q r hr)
  rw [outcomeOf, List.getElem?_eq_getElem hlt, Option.some_bind] at hopen
  exact ⟨_, List.getElem?_eq_getElem hlt, Deferred.outcome?_eq_none.mp hopen⟩

theorem modifyEntry (h : Abstracts s σ) (obj : Nat) {f : IQueueEntry T → IQueueEntry T}
    (hf : ∀ e, (f e).defer = e.defer) : Abstracts (s.modifyEntry obj f) σ :=
  ⟨h.queue, h.sending, fun r => (h.outcome r).trans (outcomeOf_modifyEntry hf obj r).symm,
    h.next.trans (length_modifyEntry s obj f).symm⟩

theorem addTimer (h : Abstracts s σ) (q : String) (w : Int) :
    Abstracts (s.addTask (.retryTimer q w)) σ :=
  ⟨h.queue, fun q' r => by simp [h.sending, callPending_addTask], h.outcome, h.next⟩

theorem dropTimer (h : Abstracts s σ) (q : String) (w : Int) :
    Abstracts (s.dropTask (.retryTimer q w)) σ :=
  ⟨h.queue, fun q' r => by
    simp only [h.sending, CallPending, dropTask_tasks]
    rw [List.mem_erase_of_ne (by simp), List.mem_erase_of_ne (by simp)], h.outcome, h.next⟩

/-- Taking the one continuation of a queue ends its send. -/
theorem dropTask (h : Abstracts s σ) (hs : Serial s) {t : Task} (ht : t ∈ s.tasks) :
    Abstracts (s.dropTask t) { σ with sending := Function.update σ.sending t.queueName none } := by
  refine ⟨h.queue, fun q r => ?_, h.outcome, h.next⟩
  dsimp only
  by_cases hq : q = t.queueName
  · subst hq
    simp only [Function.update_same, reduceCtorEq, false_iff]
    exact not_callPending_of_pending (hs.consume ht).1 r
  · rw [Function.update_noteq hq, h.sending, callPending_dropTask_of_ne (Ne.symm hq)]

/-- Scheduling the call on the head of a queue with no send in progress starts sending it. -/
theorem addCall (h : Abstracts s σ) {q : String} {r : Nat} (hn : σ.sending q = none) :
    Abstracts (s.addTask (.procFnCall q r)) { σ with sending := Function.update σ.sending q (some r) } := by
  refine ⟨h.queue, fun q' x => ?_, h.outcome, h.next⟩
  dsimp only
  rw [callPending_addTask, ← h.sending]
  by_cases hq : q' = q
  · subst hq
    simp [hn, eq_comm]
  · simp [Function.update_noteq hq, Ne.symm hq]

/-- Running a scheduled call keeps the send in progress. -/
theorem call (h : Abstracts s σ) (hs : Serial s) {q : String} {obj : Nat}
    (ht : .procFnCall q obj ∈ s.tasks) :
    Abstracts ((s.dropTask (.procFnCall q obj)).addTask (.inFlight q obj)) σ := by
  refine ⟨h.queue, fun q' x => ?_, h.outcome, h.next⟩
  have hd := h.dropTask hs ht
  rw [callPending_addTask, ← hd.sending]
  by_cases hq : q' = q
  · subst hq
    have hobj : σ.sending q' = some obj := (h.sending q' obj).mpr (.inl ht)
    simp [hobj, eq_comm]
  · simp [Function.update_noteq hq, Ne.symm hq]

theorem processQueue (h : Abstracts s σ) {q : String} (hn : σ.sending q = none) :
    ∃ σ', Relation.ReflTransGen Step σ σ' ∧ Abstracts (s.processQueue q) σ' := by
  cases hq : s.queueOf q with
  | nil => exact ⟨σ, .refl, by rw [processQueue_of_nil s hq]; exact h.of_eq rfl rfl rfl⟩
  | cons r rest =>
      rw [processQueue_of_cons s hq]
      exact ⟨_, .single (.start σ ((h.queue q).trans hq) hn), h.addCall hn⟩

/-- Scheduling the calls on the heads of queues with no send in progress starts them one after
the other. -/
theorem headCalls (h : Abstracts s σ) {names : List String} (hnd : names.Nodup)
    (hn : ∀ q ∈ names, σ.sending q = none) :
    ∃ σ', Relation.ReflTransGen Step σ σ' ∧
      Abstracts { s with tasks := s.tasks ++ s.headCalls names } σ' := by
  induction names generalizing s σ with
  | nil => exact ⟨σ, .refl, h.of_eq rfl (by simp [headCalls]) rfl⟩
  | cons q names ih =>
      have hnd' := List.nodup_cons.mp hnd
      cases hq : s.queueOf q with
      | nil =>
          obtain ⟨σ', hσ', h'⟩ := ih h hnd'.2 fun q' hq' => hn q' (List.mem_cons_of_mem _ hq')
          exact ⟨σ', hσ', h'.of_eq rfl (by simp [headCalls, hq]) rfl⟩
      | cons r rest =>
          have hq0 := hn q (List.mem_cons_self _ _)
          obtain ⟨σ', hσ', h'⟩ := ih (h.addCall (r := r) hq0) hnd'.2 fun q' hq' => by
            have hne : q' ≠ q := fun he => hnd'.1 (he ▸ hq')
            dsimp only
            rw [Function.update_noteq hne]
            exact hn q' (List.mem_cons_of_mem _ hq')
          exact ⟨σ', .head (.start σ ((h.queue q).trans hq) hq0) hσ',
            h'.of_eq rfl (by simp [headCalls, hq]) rfl⟩

/-- `startProcessingQueues` starts a send from every queue it spins up. -/
theorem startProcessingQueues (h : Abstracts s σ) (hs : Serial s) :
    ∃ σ', Relation.ReflTransGen Step σ σ' ∧ Abstracts s.startProcessingQueues σ' := by
  cases hfn : s.procFn with
  | none => exact ⟨σ, .refl, by rw [startProcessingQueues_of_none s hfn]; exact h⟩
  | some fn =>
      obtain ⟨σ', hσ', h'⟩ := h.headCalls s.nodup_startedQueues fun q hq => h.sending_eq_none (by
        have := hs.pending_le_active q
        rw [List.count_eq_zero_of_not_mem (s.mem_startedQueues.mp hq).1] at this
        omega)
      exact ⟨σ', hσ', by rw [startProcessingQueues_of_some s hfn]; exact h'.of_eq rfl rfl rfl⟩

/-- `queueEvent` allocates the next entry at the back of its queue. -/
theorem pushEntry (h : Abstracts s σ) (q : String) (event : MatrixEvent) :
    Abstracts (s.pushEntry q event)
      { σ with queue := Function.update σ.queue q (σ.queue q ++ [σ.next]), next := σ.next + 1 } := by
  refine ⟨fun q' => ?_, fun q' r => (h.sending q' r).trans (callPending_congr rfl).symm,
    fun r => (h.outcome r).trans (outcomeOf_pushEntry q event r).symm, by simp [h.next]⟩
  dsimp only
  rw [queueOf_pushEntry, Function.update_apply]
  split_ifs
  · rw [h.queue, h.next]
  · exact h.queue q'

/-- `removeEventFromQueue` cancels the first entry of the event's queue with the event's id,
which, sparing the pending calls, is not being sent. -/
theorem removeEventFromQueue (h : Abstracts s σ) (event : MatrixEvent)
    (hsp : SparesCalls s (.removeEventFromQueue event)) :
    ∃ σ', Relation.ReflTransGen Step σ σ' ∧ Abstracts (s.removeEventFromQueue alg event).1 σ' := by
  have hq := queueOf_removeEventFromQueue s alg event
  have hu := fun g => h.withQueues (g := g) (u := (s.removeEventFromQueue alg event).1) (by simp)
    (by simp)
  cases hname : alg.queueNameOf event with
  | none => exact ⟨σ, .refl, hu _ fun q => by rw [hq, hname, if_neg nofun, h.queue]⟩
  | some name =>
      by_cases hx : ∃ x ∈ s.queueOf name,
          ((s.entries[x]?.map fun e => e.event.id) == some event.id) = true
      · obtain ⟨x, hx, hpx⟩ := hx
        obtain ⟨x, l₁, l₂, -, hpx, hl, he⟩ := List.exists_of_eraseP
          (p := fun r => (s.entries[r]?.map fun e => e.event.id) == some event.id) hx hpx
        have hs : σ.sending name ≠ some x := fun hs =>
          hsp name x ((h.sending name x).mp hs) (beq_iff_eq.mp hpx)
        refine ⟨_, .single (.cancel σ ((h.queue name).trans hl) hs), hu _ fun q => ?_⟩
        rw [hq, hname, Function.update_apply]
        by_cases hqn : q = name
        · subst hqn
          simp [he]
        · simp [hqn, Ne.symm hqn, h.queue]
      · refine ⟨σ, .refl, hu _ fun q => ?_⟩
        rw [hq, hname, h.queue]
        split_ifs with hqn
        · cases hqn
          exact (List.eraseP_of_forall_not fun x hm hpx => hx ⟨x, hm, hpx⟩).symm
        · rfl

/-- The settlement of the call on `obj`, the head of `q`, whose continuation has been taken:
the entry leaves its queue with its outcome. -/
theorem settle {u : MatrixScheduler T} {q : String} {obj : Nat} {rest : List Nat}
    (h : Abstracts u { σ with sending := Function.update σ.sending q none }) (hi : Inv σ)
    (hq : σ.queue q = obj :: rest) {o : Outcome T} {f : IQueueEntry T → IQueueEntry T}
    (hf : ∀ e, e.defer = .pending → (f e).defer = o.settled) :
    Abstracts ((u.removeNextEvent q).1.modifyEntry obj f)
      ⟨Function.update σ.queue q rest, Function.update σ.sending q none,
        Function.update σ.outcome obj (some o), σ.next⟩ := by
  obtain ⟨e, he, hpend⟩ := h.pending_of_queued (hi.pause q) (hq ▸ List.mem_cons_self obj rest)
  refine ⟨fun q' => ?_, fun q' r => (h.sending q' r).trans (callPending_congr (by simp)).symm,
    fun r => ?_, by simpa [length_modifyEntry] using h.next⟩
  · dsimp only
    rw [queueOf_modifyEntry, queueOf_removeNextEvent, Function.update_apply, ← h.queue, ← h.queue]
    dsimp only
    split_ifs
    · rw [hq, List.tail_cons]
    · rfl
  · dsimp only
    rw [Function.update_apply, outcomeOf, getElem?_modifyEntry, removeNextEvent_entries]
    split_ifs with hr
    · subst hr
      simp [he, hf e hpend]
    · exact h.outcome r

/-- Every transition of the scheduler that spares the pending calls is matched by steps of the
specification. -/
theorem step (h : Abstracts s σ) (hi : Inv σ) (hs : Serial s) {a : Action T}
    {r : MatrixScheduler T × List Obs} (hr : s.Transition alg a r) (hsp : SparesCalls s a) :
    ∃ σ', Relation.ReflTransGen Step σ σ' ∧ Abstracts r.1 σ' := by
  cases hr with
  | idle _ => exact ⟨σ, .refl, h⟩
  | @queueEvent q event _ =>
      obtain ⟨σ', hσ', h'⟩ :=
        (h.pushEntry q event).startProcessingQueues (hs.of_eq rfl rfl rfl : Serial (s.pushEntry q event))
      exact ⟨σ', .head (.enqueue σ q) hσ', h'⟩
  | removeEventFromQueue event => exact h.removeEventFromQueue event hsp
  | setProcessFunction fn =>
      exact (h.of_eq rfl rfl rfl : Abstracts { s with procFn := some fn } σ).startProcessingQueues
        ⟨hs.1, hs.2, nofun⟩
  | call ht _ => exact ⟨σ, .refl, h.call hs ht⟩
  | callNull ht hfn => exact absurd hfn (hs.consume ht).2.2
  | @fulfilled q obj ht res =>
      have hsq : σ.sending q = some obj := (h.sending q obj).mpr (.inr ht)
      have hq := List.eq_cons_of_mem_head? (hi.sending_head q obj hsq)
      obtain ⟨σ', hσ', h'⟩ := ((h.dropTask hs ht).settle hi hq (o := .fulfilled res)
        (f := fun e => { e with defer := e.defer.resolve res })
        fun e he => by simp [he, Outcome.settled]).processQueue (Function.update_same _ _ _)
      exact ⟨σ', .head (.settle σ hq hsq _) hσ', h'⟩
  | @rejected q obj ht err =>
      have hsq : σ.sending q = some obj := (h.sending q obj).mpr (.inr ht)
      have hq := List.eq_cons_of_mem_head? (hi.sending_head q obj hsq)
      have hd := h.dropTask hs ht
      obtain ⟨e, he, -⟩ := hd.pending_of_queued (hi.pause q) (hq ▸ List.mem_cons_self _ _)
      have hc := hd.modifyEntry obj (f := fun e => { e with attempts := e.attempts + 1 }) fun _ => rfl
      rcases onRejected_cases alg q err he with
        ⟨-, hres⟩ | ⟨-, hres⟩ | ⟨w, -, -, hres⟩ <;> rw [hres]
      · exact ⟨_, .single (.pause σ hsq), hc⟩
      · obtain ⟨σ', hσ', h'⟩ := (hc.settle hi hq (o := .rejected err)
          (f := fun e => { e with defer := e.defer.reject err })
          fun e he => by simp [he, Outcome.settled]).processQueue (Function.update_same _ _ _)
        exact ⟨σ', .head (.settle σ hq hsq _) hσ', h'⟩
      · exact ⟨_, .single (.pause σ hsq), hc.addTimer q w⟩
  | @fireRetryTimer q w ht =>
      have hd := h.dropTimer q w
      exact hd.processQueue (hd.sending_eq_none (hs.consume ht).1)

end Abstracts

/-- The scheduler refines its specification: along a run whose every `removeEventFromQueue`
spares the entries with a pending call, every state the scheduler reaches is described by a
state the specification reaches. -/
theorem scheduler_refines_fifoSpec (alg : Algorithms) (as : List (Action T))
    (hsp : ∀ i (hi : i < as.length), SparesCalls (exec alg (as.take i)).1 as[i]) :
    ∃ σ, FifoSpec.Reachable σ ∧ Abstracts (exec alg as).1 σ := by
  induction as using List.reverseRecOn with
  | nil => exact ⟨FifoSpec.init, Relation.ReflTransGen.refl, Abstracts.initial⟩
  | append_singleton as a ih =>
      obtain ⟨hpre, hlast⟩ := sparesCalls_append_singleton hsp
      obtain ⟨σ, hσ, h⟩ := ih hpre
      obtain ⟨σ', hσ', h'⟩ := h.step hσ.inv (Serial.exec alg as) (transition_step _ alg a) hlast
      rw [exec_append_singleton]
      exact ⟨σ', hσ.trans hσ', h'⟩

theorem sparedRun_refines_fifoSpec :
    (∀ i (hi : i < sparedRun.length),
      SparesCalls (exec defaultAlgorithms (sparedRun.take i)).1 sparedRun[i]) ∧
    ∃ σ, FifoSpec.Reachable σ ∧ Abstracts (exec defaultAlgorithms sparedRun).1 σ :=
  ⟨sparedRun_sparesCalls, scheduler_refines_fifoSpec defaultAlgorithms sparedRun sparedRun_sparesCalls⟩

/-- Removing `A` while its call is in flight leaves a state no state of the specification
describes: the call is no longer on the head of its queue. -/
theorem droppedEntryRun_not_abstracted :
    ¬ ∃ σ, FifoSpec.Reachable σ ∧
      Abstracts (exec defaultAlgorithms (droppedEntryRun.take 5)).1 σ := by
  rintro ⟨σ, hσ, h⟩
  have hhead := h.head_of_callPending hσ.inv (q := "message") (r := 0) (.inr (by decide))
  exact absurd hhead (by decide)

end MatrixSdk.Scheduler
