import MatrixSdk.Scheduler.DroppedEntry

/-! Only its own call settles the promise of an entry; an entry removed before its call stays
pending for ever. -/

namespace MatrixSdk.Scheduler

open MatrixScheduler

variable {T : Type} {alg : Algorithms} {s : MatrixScheduler T}

/-- How the promise of entry `obj` settled in a step from `s` by action `a`, the entry holding
`e` before and `e'` after: it was pending, and `a` is the settlement of the call in flight on
`obj`, whose outcome it took; a rejection settles it only when the retry algorithm gives up. -/
structure SettledBy (alg : Algorithms) (s : MatrixScheduler T) (a : Action T) (obj : Nat)
    (e e' : IQueueEntry T) : Prop where
  was_pending : e.defer = .pending
  own_call : ∃ q outcome, a = .settle q obj outcome ∧ .inFlight q obj ∈ s.tasks ∧
    e'.defer = outcome.settled ∧
    ∀ err, outcome = .rejected err → alg.retryAlgorithm e.event (e.attempts + 1) err = some (-1)

namespace MatrixScheduler.Transition

/-- A transition that changes the promise of an entry settles it by the entry's own call. -/
theorem settledBy (hs : Serial s) {a : Action T} {r : MatrixScheduler T × List Obs}
    (hr : s.Transition alg a r) {obj : Nat} {e e' : IQueueEntry T}
    (he : s.entries[obj]? = some e) (he' : r.1.entries[obj]? = some e') (hd : e'.defer ≠ e.defer) :
    SettledBy alg s a obj e e' := by
  have hlt : obj < s.entries.length := (List.getElem?_eq_some_iff.mp he).1
  have hsame (h : r.1.entries[obj]? = s.entries[obj]?) : SettledBy alg s a obj e e' :=
    absurd (by rw [he', he] at h; cases h; rfl) hd
  cases hr with
  | idle _ => exact hsame rfl
  | queueEvent _ => exact hsame (by simp [List.getElem?_append_left hlt])
  | removeEventFromQueue _ => exact hsame (by simp)
  | setProcessFunction _ => exact hsame (by simp [MatrixScheduler.setProcessFunction])
  | call _ _ => exact hsame (by simp)
  | callNull ht hfn => exact absurd hfn (hs.consume ht).2.2
  | @fulfilled q x ht res =>
      by_cases hx : obj = x
      · subst hx
        obtain rfl : { e with defer := e.defer.resolve res } = e' := by
          simpa [onFulfilled, getElem?_modifyEntry, he] using he'
        cases hp : e.defer with
        | pending => exact ⟨hp, q, .fulfilled res, rfl, ht, by simp [hp, Outcome.settled],
            fun _ h => Outcome.noConfusion h⟩
        | resolved _ | rejected _ => exact absurd (by simp [hp, Deferred.resolve]) hd
      · exact hsame (by
          dsimp only
          rw [onFulfilled, processQueue_entries, getElem?_modifyEntry, if_neg hx,
            removeNextEvent_entries, dropTask_entries])
  | @rejected q x ht err =>
      by_cases hx : obj = x
      · subst hx
        rcases onRejected_cases (s := s.dropTask (.inFlight q obj)) alg q err he with
          ⟨-, hres⟩ | ⟨hgive, hres⟩ | ⟨w, -, -, hres⟩ <;>
          simp only [hres, getElem?_modifyEntry, processQueue_entries, removeNextEvent_entries,
            addTask_entries, dropTask_entries, he, if_true, Option.map_some', Option.some.injEq] at he'
        · exact absurd (by rw [← he']) hd
        · subst he'
          cases hp : e.defer with
          | pending =>
              exact ⟨hp, q, .rejected err, rfl, ht, by simp [hp, Outcome.settled],
                fun _ h => by cases h; exact hgive⟩
          | resolved _ | rejected _ => exact absurd (by simp [hp, Deferred.reject]) hd
        · exact absurd (by rw [← he']) hd
      · exact hsame (getElem?_onRejected_of_ne _ hx)
  | fireRetryTimer _ => exact hsame (by simp)

end MatrixScheduler.Transition

/-- Only the settlement of an entry's own call settles its promise: whenever a step of a run
changes the promise of an entry, the step settled it by the entry's own call. -/
theorem promise_settled_by_own_call (alg : Algorithms) (as : List (Action T)) (a : Action T)
    {obj : Nat} {e e' : IQueueEntry T} (he : (exec alg as).1.entries[obj]? = some e)
    (he' : (exec alg (as ++ [a])).1.entries[obj]? = some e') (hd : e'.defer ≠ e.defer) :
    SettledBy alg (exec alg as).1 a obj e e' := by
  rw [exec_append_singleton] at he'
  exact ((exec alg as).1.transition_step alg a).settledBy (Serial.exec alg as) he he' hd

/-- `removeEventFromQueue` leaves the promise of an entry it takes out before its call is
scheduled pending for ever: the entry was pending, and whatever the run goes on with leaves it
as it is and never passes it to `procFn`. -/
theorem removed_entry_never_settles (alg : Algorithms) (as bs : List (Action T))
    (event : MatrixEvent) {q : String} {obj : Nat} (hq : obj ∈ (exec alg as).1.queueOf q)
    (hrm : obj ∉ ((exec alg as).1.removeEventFromQueue alg event).1.queueOf q)
    (hnc : ¬ (exec alg as).1.CallPending q obj) :
    ∃ e, (exec alg as).1.entries[obj]? = some e ∧ e.defer = .pending ∧
      (exec alg (as ++ .removeEventFromQueue event :: bs)).1.entries[obj]? = some e ∧
      ∃ o, (exec alg (as ++ .removeEventFromQueue event :: bs)).2 = (exec alg as).2 ++ o ∧
        ∀ fn q', .call fn q' obj ∉ o := by
  have hal := Allocated.exec alg as
  obtain ⟨e, he, hp⟩ := (Counted.exec alg as).pending_of_mem_queueOf hal hq
  have hhome := hal.1 q obj hq
  -- after the removal the entry is in no queue, and no call on it is pending
  have hdead : Dead ((exec alg as).1.removeEventFromQueue alg event).1 obj e := by
    refine ⟨by simpa using he, fun q' h' => ?_, fun q' hc => ?_⟩
    · have hold := (queueOf_removeEventFromQueue_sublist _ alg event q').subset h'
      obtain rfl : q' = q := Option.some_inj.mp ((hal.1 q' obj hold).symm.trans hhome)
      exact hrm h'
    · have hold : (exec alg as).1.CallPending q' obj := (callPending_congr (by simp)).mp hc
      obtain rfl : q' = q := Option.some_inj.mp ((hal.2 q' obj hold).symm.trans hhome)
      exact hnc hold
  have hrun : exec alg (as ++ .removeEventFromQueue event :: bs) =
      bs.foldl (stepTrace alg) (((exec alg as).1.removeEventFromQueue alg event).1, (exec alg as).2) := by
    rw [List.append_cons, exec_append, exec_append_singleton]
    simp only [step, List.append_nil]
  obtain ⟨hd, o, ho, hno⟩ := hdead.run alg bs
    (r := (((exec alg as).1.removeEventFromQueue alg event).1, (exec alg as).2))
  exact ⟨e, he, hp, hrun ▸ hd.1, o, hrun ▸ ho, hno⟩

theorem removed_message_never_settles :
    1 ∈ (exec defaultAlgorithms (sparedRun.take 4)).1.queueOf "message" ∧
      1 ∉ ((exec defaultAlgorithms (sparedRun.take 4)).1.removeEventFromQueue defaultAlgorithms
        eventB).1.queueOf "message" ∧
      ¬ (exec defaultAlgorithms (sparedRun.take 4)).1.CallPending "message" 1 ∧
      ∃ e, (exec defaultAlgorithms (sparedRun.take 4)).1.entries[1]? = some e ∧
        e.defer = .pending ∧
        (exec defaultAlgorithms (sparedRun.take 4 ++ [.removeEventFromQueue eventB,
          .settle "message" 0 (.fulfilled ())])).1.entries[1]? = some e ∧
        ∃ o, (exec defaultAlgorithms (sparedRun.take 4 ++ [.removeEventFromQueue eventB,
            .settle "message" 0 (.fulfilled ())])).2 =
            (exec defaultAlgorithms (sparedRun.take 4)).2 ++ o ∧
          ∀ fn q', .call fn q' 1 ∉ o :=
  have hq : 1 ∈ (exec defaultAlgorithms (sparedRun.take 4)).1.queueOf "message" := by decide
  have hrm : 1 ∉ ((exec defaultAlgorithms (sparedRun.take 4)).1.removeEventFromQueue
      defaultAlgorithms eventB).1.queueOf "message" := by decide
  have hnc : ¬ (exec defaultAlgorithms (sparedRun.take 4)).1.CallPending "message" 1 := by
    unfold CallPending; decide
  ⟨hq, hrm, hnc, removed_entry_never_settles defaultAlgorithms _ [.settle "message" 0 (.fulfilled ())]
    eventB hq hrm hnc⟩

end MatrixSdk.Scheduler
