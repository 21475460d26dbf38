import MatrixSdk.Scheduler.Equations

/-! A queue has at most one pending continuation, and only while it is active. -/

namespace MatrixSdk.Scheduler

open MatrixScheduler

variable {T : Type} {s : MatrixScheduler T}

/-- The continuation invariant of every reachable scheduler. -/
structure Serial (s : MatrixScheduler T) : Prop where
  active_le_one : ∀ q, s.activeQueues.count q ≤ 1
  pending_le_active : ∀ q, s.pending q ≤ s.activeQueues.count q
  tasks_of_procFn : s.procFn = none → s.tasks = []

namespace Serial

theorem initial : Serial (initial : MatrixScheduler T) :=
  ⟨fun _ => by simp [MatrixScheduler.initial], fun _ => by simp, fun _ => rfl⟩

theorem of_eq (h : Serial s) {s' : MatrixScheduler T} (ha : s'.activeQueues = s.activeQueues)
    (ht : s'.tasks = s.tasks) (hp : s'.procFn = s.procFn) : Serial s' := by
  have hpend : ∀ q, s'.pending q = s.pending q := fun q => by simp only [pending, ht]
  exact ⟨fun q => ha ▸ h.1 q, fun q => by rw [hpend, ha]; exact h.2 q,
    fun hn => ht ▸ h.3 (hp ▸ hn)⟩

theorem dropTask (h : Serial s) (t : Task) : Serial (s.dropTask t) := by
  refine ⟨h.1, fun q => ?_, fun hn => by simp [h.3 hn]⟩
  by_cases ht : t ∈ s.tasks
  · have := h.2 q
    rw [pending_dropTask _ ht]
    simp only [dropTask_activeQueues]
    omega
  · rw [pending_dropTask_of_not_mem _ ht]; exact h.2 q

/-- Taking a pending continuation of a queue leaves that queue active with nothing pending. -/
theorem consume (h : Serial s) {t : Task} (ht : t ∈ s.tasks) :
    (s.dropTask t).pending t.queueName = 0 ∧ s.activeQueues.count t.queueName = 1 ∧
      s.procFn ≠ none := by
  have hpos := s.pending_pos ht
  have h1 := h.1 t.queueName
  have h2 := h.2 t.queueName
  refine ⟨by rw [pending_dropTask _ ht]; simp; omega, by omega, fun hn => by simp [h.3 hn] at ht⟩

theorem removeNextEvent (h : Serial s) (q : String) : Serial (s.removeNextEvent q).1 :=
  h.of_eq (by simp) (by simp) (by simp)

theorem modifyEntry (h : Serial s) (obj : Nat) (f : IQueueEntry T → IQueueEntry T) :
    Serial (s.modifyEntry obj f) :=
  h.of_eq rfl rfl rfl

theorem processQueue (h : Serial s) {q : String} (hp : s.pending q = 0)
    (ha : s.activeQueues.count q = 1) (hfn : s.procFn ≠ none) : Serial (s.processQueue q) := by
  refine ⟨fun q' => ?_, fun q' => ?_, fun hn => absurd (by simpa using hn) hfn⟩
  · rw [count_processQueue]; have := h.1 q'; omega
  · rw [pending_processQueue, count_processQueue]
    by_cases hq : q = q'
    · subst hq; split_ifs <;> simp_all
    · simp only [hq, false_and, if_false, Nat.add_zero, Nat.sub_zero]; exact h.2 q'

theorem addTask (h : Serial s) {t : Task} (hp : s.pending t.queueName = 0)
    (ha : s.activeQueues.count t.queueName = 1) (hfn : s.procFn ≠ none) :
    Serial (s.addTask t) := by
  refine ⟨h.1, fun q => ?_, fun hn => absurd hn hfn⟩
  rw [pending_addTask, addTask_activeQueues]
  by_cases hq : t.queueName = q
  · subst hq; simp [hp, ha]
  · simp only [hq, if_false, Nat.add_zero]; exact h.2 q

theorem startProcessingQueues (h : Serial s) : Serial s.startProcessingQueues := by
  refine ⟨fun q => ?_, fun q => ?_, fun hn => ?_⟩
  · rw [count_startProcessingQueues]
    split_ifs with hc
    · rw [List.count_eq_zero_of_not_mem hc.2.1]
    · simpa using h.1 q
  · rw [pending_startProcessingQueues, count_startProcessingQueues]
    have := h.2 q
    split_ifs <;> omega
  · rw [startProcessingQueues_procFn] at hn
    rw [startProcessingQueues_of_none _ hn]
    exact h.3 hn

theorem onRejected (h : Serial s) (alg : Algorithms) {q : String} (obj : Nat)
    (err : Option MatrixError) (hp : s.pending q = 0) (ha : s.activeQueues.count q = 1)
    (hfn : s.procFn ≠ none) : Serial (s.onRejected alg q obj err).1 := by
  have h1 := h.modifyEntry obj fun e => { e with attempts := e.attempts + 1 }
  dsimp only [MatrixScheduler.onRejected]
  split
  · exact h1
  · split
    · exact h1
    · split
      · exact ((h1.removeNextEvent q).modifyEntry obj _).processQueue (by simpa using hp)
          (by simpa using ha) (by simpa using hfn)
      · exact h1.addTask (by simpa using hp) (by simpa using ha) (by simpa using hfn)

/-- Every transition keeps the continuation invariant. -/
theorem step (h : Serial s) {alg : Algorithms} {a : Action T}
    {r : MatrixScheduler T × List Obs} (hr : s.Transition alg a r) : Serial r.1 := by
  cases hr with
  | idle _ => exact h
  | queueEvent _ => exact (h.of_eq rfl rfl rfl : Serial (s.pushEntry _ _)).startProcessingQueues
  | removeEventFromQueue event => exact h.of_eq (by simp) (by simp) (by simp)
  | setProcessFunction fn =>
      exact (⟨h.1, h.2, nofun⟩ : Serial { s with procFn := some fn }).startProcessingQueues
  | call ht _ =>
      obtain ⟨hp, ha, hfn⟩ := h.consume ht
      exact (h.dropTask _).addTask hp ha (by simpa using hfn)
  | callNull ht hfn => exact absurd hfn (h.consume ht).2.2
  | fulfilled ht res =>
      obtain ⟨hp, ha, hfn⟩ := h.consume ht
      exact (((h.dropTask _).removeNextEvent _).modifyEntry _ _).processQueue
        (by simpa using hp) (by simpa using ha) (by simpa using hfn)
  | rejected ht err =>
      obtain ⟨hp, ha, hfn⟩ := h.consume ht
      exact (h.dropTask _).onRejected alg _ err hp ha (by simpa using hfn)
  | fireRetryTimer ht =>
      obtain ⟨hp, ha, hfn⟩ := h.consume ht
      exact (h.dropTask _).processQueue hp ha (by simpa using hfn)

theorem exec (alg : Algorithms) (as : List (Action T)) : Serial (exec alg as).1 :=
  exec_induction alg (P := fun s _ => Serial s) initial
    (fun _ a h => h.step (transition_step _ alg a)) as

end Serial

end MatrixSdk.Scheduler
