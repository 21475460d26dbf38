import MatrixSdk.Scheduler.Order

/-! When the retry algorithm does not throw, no queue stalls. -/

namespace MatrixSdk.Scheduler

open MatrixScheduler

variable {T : Type} {alg : Algorithms} {s : MatrixScheduler T}

/-- At queue `q`: as many pending continuations as occurrences among the active queues, and
active when it has entries and a process function is set. -/
def LiveAt (s : MatrixScheduler T) (q : String) : Prop :=
  s.pending q = s.activeQueues.count q ∧
    (s.procFn ≠ none → s.queueOf q ≠ [] → 0 < s.activeQueues.count q)

/-- The invariant of a scheduler whose retry algorithm does not throw. -/
structure Live (s : MatrixScheduler T) : Prop where
  serial : Serial s
  live_at : ∀ q, LiveAt s q

/-- The state while a continuation of queue `q` runs: the invariant holds at every other
queue, and `q` is active with nothing pending. -/
structure LiveBut (s : MatrixScheduler T) (q : String) : Prop where
  serial : Serial s
  live_at : ∀ q', q' ≠ q → LiveAt s q'
  pending_zero : s.pending q = 0
  active_one : s.activeQueues.count q = 1
  procFn_ne_none : s.procFn ≠ none

namespace Live

theorem initial : Live (initial : MatrixScheduler T) :=
  ⟨Serial.initial, fun _ => ⟨rfl, fun h => absurd rfl h⟩⟩

/-- Before the queues start, exact counts everywhere are enough: starting them activates every
queue with entries. -/
theorem startProcessingQueues (hs : Serial s) (he : ∀ q, s.pending q = s.activeQueues.count q) :
    Live s.startProcessingQueues := by
  refine ⟨hs.startProcessingQueues, fun q => ⟨?_, fun hfn hq => ?_⟩⟩
  · rw [pending_startProcessingQueues, count_startProcessingQueues, he]
  · rw [count_startProcessingQueues]
    rw [startProcessingQueues_procFn] at hfn
    rw [queueOf_startProcessingQueues] at hq
    by_cases ha : q ∈ s.activeQueues
    · have := List.count_pos_iff.mpr ha; omega
    · rw [if_pos ⟨hfn, ha, hq⟩]; omega

theorem consume (h : Live s) {t : Task} (ht : t ∈ s.tasks) :
    LiveBut (s.dropTask t) t.queueName := by
  obtain ⟨hp, ha, hfn⟩ := h.serial.consume ht
  refine ⟨h.serial.dropTask t, fun q' hq' => ?_, hp, ha, hfn⟩
  have := h.live_at q'
  simpa [LiveAt, pending_dropTask _ ht, Ne.symm hq'] using this

end Live

namespace LiveBut

variable {q : String}

theorem removeNextEvent (h : LiveBut s q) : LiveBut (s.removeNextEvent q).1 q := by
  refine ⟨h.1.removeNextEvent q, fun q' hq' => ?_, by simpa using h.3, by simpa using h.4,
    by simpa using h.5⟩
  simpa [LiveAt, queueOf_removeNextEvent, hq'] using h.2 q' hq'

theorem modifyEntry (h : LiveBut s q) (obj : Nat) (f : IQueueEntry T → IQueueEntry T) :
    LiveBut (s.modifyEntry obj f) q :=
  ⟨h.1.modifyEntry obj f, h.2, h.3, h.4, h.5⟩

theorem processQueue (h : LiveBut s q) : Live (s.processQueue q) := by
  refine ⟨h.1.processQueue h.3 h.4 h.5, fun q' => ?_⟩
  unfold LiveAt
  rw [pending_processQueue, count_processQueue, processQueue_procFn, queueOf_processQueue]
  by_cases hq : q = q'
  · subst hq
    have := h.3; have := h.4
    split_ifs <;> simp_all
  · simpa [LiveAt, hq] using h.2 q' (Ne.symm hq)

theorem addTask (h : LiveBut s q) {t : Task} (ht : t.queueName = q) : Live (s.addTask t) := by
  refine ⟨h.1.addTask (ht ▸ h.3) (ht ▸ h.4) h.5, fun q' => ?_⟩
  unfold LiveAt
  rw [pending_addTask, addTask_activeQueues, addTask_procFn, queueOf_addTask, ht]
  by_cases hq : q = q'
  · subst hq; simp [h.3, h.4]
  · simpa [LiveAt, hq] using h.2 q' (Ne.symm hq)

/-- The rejection handler, when the retry algorithm does not throw on what it is handed. -/
theorem onRejected (h : LiveBut s q) {obj : Nat} (hobj : obj < s.entries.length)
    (err : Option MatrixError)
    (hretry : ∀ r ev k err', .retry r ev k err' ∈ (s.onRejected alg q obj err).2 →
      (alg.retryAlgorithm ev k err').isSome) :
    Live (s.onRejected alg q obj err).1 := by
  have h1 := h.modifyEntry obj fun e => { e with attempts := e.attempts + 1 }
  revert hretry
  dsimp only [MatrixScheduler.onRejected]
  split
  · rename_i he
    rw [List.getElem?_eq_none_iff, length_modifyEntry] at he
    omega
  · rename_i e _
    split
    · rename_i hr
      exact fun hretry => absurd (hretry _ _ _ _ (List.mem_singleton_self _)) (by simp [hr])
    · split
      · exact fun _ => (h1.removeNextEvent.modifyEntry obj _).processQueue
      · exact fun _ => h1.addTask rfl

end LiveBut

namespace Live

/-- Every transition keeps the invariant, when the retry algorithm does not throw on what
the transition hands it. -/
theorem step (h : Live s) (hal : Allocated alg s) {a : Action T}
    {r : MatrixScheduler T × List Obs} (hr : s.Transition alg a r)
    (hretry : ∀ r' ev k err, .retry r' ev k err ∈ r.2 → (alg.retryAlgorithm ev k err).isSome) :
    Live r.1 := by
  cases hr with
  | idle _ => exact h
  | queueEvent _ =>
      exact Live.startProcessingQueues (h.serial.of_eq rfl rfl rfl) fun q' => (h.2 q').1
  | removeEventFromQueue event =>
      refine ⟨h.1.of_eq (by simp) (by simp) (by simp), fun q => ⟨by simpa using (h.2 q).1,
        fun hfn hq => ?_⟩⟩
      have hs := queueOf_removeEventFromQueue_sublist s alg event q
      simpa using (h.2 q).2 (by simpa using hfn) fun he => hq (List.eq_nil_of_sublist_nil (he ▸ hs))
  | setProcessFunction fn =>
      exact Live.startProcessingQueues (s := { s with procFn := some fn }) ⟨h.1.1, h.1.2, nofun⟩
        fun q => (h.2 q).1
  | call ht _ => exact (h.consume ht).addTask rfl
  | callNull ht hfn => exact absurd hfn (h.consume ht).5
  | fulfilled ht res => exact ((h.consume ht).removeNextEvent.modifyEntry _ _).processQueue
  | @rejected q obj ht err =>
      exact (h.consume ht).onRejected (lt_of_homeOf (hal.2 q obj (.inr ht))) err hretry
  | fireRetryTimer ht => exact (h.consume ht).processQueue

/-- The invariant holds after every run whose retry algorithm did not throw on the errors it
was handed. -/
theorem exec_of_consulted (alg : Algorithms) (as : List (Action T))
    (hretry : ∀ r ev k err, .retry r ev k err ∈ (exec alg as).2 →
      (alg.retryAlgorithm ev k err).isSome) : Live (exec alg as).1 :=
  exec_induction alg
    (P := fun s tr => (∀ r ev k err, .retry r ev k err ∈ tr → (alg.retryAlgorithm ev k err).isSome) →
      Live s)
    (fun _ => initial)
    (fun as a ih hw => (ih fun r ev k err hm => hw r ev k err (List.mem_append_left _ hm)).step
      (Allocated.exec alg as) (transition_step _ alg a)
      fun r ev k err hm => hw r ev k err (List.mem_append_right _ hm))
    as hretry

end Live

end MatrixSdk.Scheduler
