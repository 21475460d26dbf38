import MatrixSdk.Scheduler.Counting

/-! An entry leaves its queue only by its own removal or its own call settling, unless
`removeEventFromQueue` takes out the entry of a call in flight: then the next one is dropped. -/

namespace MatrixSdk.Scheduler

open MatrixScheduler

variable {T : Type} {alg : Algorithms} {s : MatrixScheduler T} {tr : List Obs}

/-- Every pending call is on an entry still in its queue. -/
def CallsQueued (s : MatrixScheduler T) : Prop := ∀ q r, s.CallPending q r → r ∈ s.queueOf q

/-- The action takes no entry with a pending call out of its queue: a `removeEventFromQueue`
names the id of no entry whose call is scheduled or in flight. -/
def SparesCalls (s : MatrixScheduler T) : Action T → Prop
  | .removeEventFromQueue event =>
      ∀ q r, s.CallPending q r → s.entries[r]?.map (fun e => e.event.id) ≠ some event.id
  | _ => True

/-- The promise of an entry whose call settled with `outcome`. -/
def Outcome.settled : Outcome T → Deferred T
  | .fulfilled res => .resolved res
  | .rejected err => .rejected err

/-- Sparing the pending calls along a run extended by one action: along the run, and at the
action. -/
theorem sparesCalls_append_singleton {as : List (Action T)} {a : Action T}
    (hsp : ∀ i (hi : i < (as ++ [a]).length),
      SparesCalls (exec alg ((as ++ [a]).take i)).1 (as ++ [a])[i]) :
    (∀ i (hi : i < as.length), SparesCalls (exec alg (as.take i)).1 as[i]) ∧
      SparesCalls (exec alg as).1 a := by
  refine ⟨fun i hi => ?_, by simpa using hsp as.length (by simp)⟩
  have h := hsp i (by simp only [List.length_append, List.length_singleton]; omega)
  rwa [List.take_append_of_le_length hi.le, List.getElem_append_left hi] at h

namespace CallsQueued

theorem initial : CallsQueued (initial : MatrixScheduler T) := fun _ _ h => by
  simp [CallPending, MatrixScheduler.initial] at h

theorem of_subset (h : CallsQueued s) {u : MatrixScheduler T} (ht : u.tasks ⊆ s.tasks)
    (hq : ∀ q, s.queueOf q ⊆ u.queueOf q) : CallsQueued u :=
  fun q r hc => hq q (h q r (hc.imp (@ht _) (@ht _)))

theorem dropTask (h : CallsQueued s) (t : Task) : CallsQueued (s.dropTask t) :=
  h.of_subset (List.erase_subset _ _) fun _ => List.Subset.refl _

theorem modifyEntry (h : CallsQueued s) (r : Nat) (f : IQueueEntry T → IQueueEntry T) :
    CallsQueued (s.modifyEntry r f) :=
  h.of_subset (List.Subset.refl _) fun _ => List.Subset.refl _

/-- Shifting the head of a queue with no pending continuation. -/
theorem removeNextEvent (h : CallsQueued s) {q : String} (hp : s.pending q = 0) :
    CallsQueued (s.removeNextEvent q).1 := fun q' r hc => by
  have hc' : s.CallPending q' r := by simpa [CallPending] using hc
  have hq : q' ≠ q := by
    rintro rfl
    rcases hc' with hc' | hc' <;> exact (pending_eq_zero _).mp hp _ hc' rfl
  rw [queueOf_removeNextEvent, if_neg hq]
  exact h q' r hc'

theorem processQueue (h : CallsQueued s) (q : String) : CallsQueued (s.processQueue q) :=
  fun q' r hc => by
    rw [queueOf_processQueue]
    rcases hc with hc | hc <;> rcases s.mem_tasks_processQueue hc with hc | ⟨r', hr', he⟩
    · exact h q' r (.inl hc)
    · cases he
      exact List.mem_of_mem_head? hr'
    · exact h q' r (.inr hc)
    · cases he

theorem startProcessingQueues (h : CallsQueued s) : CallsQueued s.startProcessingQueues :=
  fun q r hc => by
    rw [queueOf_startProcessingQueues]
    rcases hc with hc | hc <;> rcases s.mem_tasks_startProcessingQueues hc with
      hc | ⟨q', r', -, hr', he⟩
    · exact h q r (.inl hc)
    · cases he
      exact List.mem_of_mem_head? hr'
    · exact h q r (.inr hc)
    · cases he

theorem onRejected (h : CallsQueued s) {q : String} (hp : s.pending q = 0) (r : Nat)
    (err : Option MatrixError) : CallsQueued (s.onRejected alg q r err).1 := by
  have h1 := h.modifyEntry r fun e => { e with attempts := e.attempts + 1 }
  dsimp only [MatrixScheduler.onRejected]
  split
  · exact h1
  · split
    · exact h1
    · split
      · exact ((h1.removeNextEvent (by simpa using hp)).modifyEntry r _).processQueue q
      · intro q' x hx
        rw [queueOf_addTask]
        exact h1 q' x (by simpa [callPending_addTask] using hx)

/-- Every transition of an action that spares the pending calls keeps every pending call on a
queued entry. -/
theorem step (h : CallsQueued s) (hs : Serial s) {a : Action T}
    {r : MatrixScheduler T × List Obs} (hr : s.Transition alg a r) (hsp : SparesCalls s a) :
    CallsQueued r.1 := by
  cases hr with
  | idle _ => exact h
  | @queueEvent q event _ =>
      refine (h.of_subset (u := s.pushEntry q event) (List.Subset.refl _)
        fun q' x hx => ?_).startProcessingQueues
      rw [queueOf_pushEntry]
      split
      · subst q'
        exact List.mem_append_left _ hx
      · exact hx
  | removeEventFromQueue event =>
      intro q x hx
      have hx' : s.CallPending q x := by simpa [CallPending] using hx
      exact mem_queueOf_removeEventFromQueue _ _ _ _ (hsp q x hx') (h q x hx')
  | setProcessFunction fn =>
      exact CallsQueued.startProcessingQueues (s := { s with procFn := some fn }) h
  | @call q x _ ht _ =>
      intro q' x' hx
      rcases (callPending_addTask _).mp hx with hx | hx | hx
      · exact h q' x' hx.of_dropTask
      · cases hx
      · cases hx
        exact h q x (.inl ht)
  | callNull ht hfn => exact absurd hfn (hs.consume ht).2.2
  | fulfilled ht res =>
      exact (((h.dropTask _).removeNextEvent (hs.consume ht).1).modifyEntry _ _).processQueue _
  | rejected ht err => exact (h.dropTask _).onRejected (hs.consume ht).1 _ err
  | fireRetryTimer _ => exact (h.dropTask _).processQueue _

/-- Along a run whose every action spares the pending calls, every pending call is on a
queued entry. -/
theorem exec (alg : Algorithms) (as : List (Action T))
    (hsp : ∀ i (hi : i < as.length), SparesCalls (exec alg (as.take i)).1 as[i]) :
    CallsQueued (exec alg as).1 := by
  induction as using List.reverseRecOn with
  | nil => exact initial
  | append_singleton as a ih =>
      obtain ⟨hpre, hlast⟩ := sparesCalls_append_singleton hsp
      rw [exec_append_singleton]
      exact ((ih hpre).step (Serial.exec alg as) (transition_step _ alg a) hlast :)

/-- Shifting the head of the queue of a call in flight takes out the called entry and no
other. -/
theorem eq_of_shifted (h : CallsQueued s) (ho : Ordered s tr) {q0 : String} {r0 : Nat}
    (ht : .inFlight q0 r0 ∈ s.tasks) {u : MatrixScheduler T}
    (hu : ∀ q, u.queueOf q = s.queueOf q) {q : String} {x : Nat} (hin : x ∈ s.queueOf q)
    (hout : x ∉ (u.removeNextEvent q0).1.queueOf q) :
    q = q0 ∧ x = r0 := by
  rw [queueOf_removeNextEvent, hu, hu] at hout
  split at hout
  · subst q
    obtain ⟨rest, hl⟩ : ∃ rest, s.queueOf q0 = r0 :: rest :=
      ⟨_, List.eq_cons_of_mem_head? (ho.head_of_callPending (.inr ht) (h _ _ (.inr ht)))⟩
    rw [hl, List.tail_cons] at hout
    rw [hl] at hin
    exact ⟨rfl, (List.mem_cons.mp hin).resolve_right hout⟩
  · exact absurd hin hout

/-- What takes entry `x` out of queue `q` in a step, while every pending call is on a queued
entry: `removeEventFromQueue` on an event with its id, or the settlement of its own call,
which settles its pending promise. -/
theorem leaves_queue (h : CallsQueued s) (hs : Serial s) (hal : Allocated alg s)
    (ho : Ordered s tr) (hc : Counted s tr) {a : Action T} {r : MatrixScheduler T × List Obs}
    (hr : s.Transition alg a r) {q : String} {x : Nat} (hin : x ∈ s.queueOf q)
    (hout : x ∉ r.1.queueOf q) :
    (∃ event, a = .removeEventFromQueue event ∧
        s.entries[x]?.map (fun e => e.event.id) = some event.id) ∨
      ∃ outcome, a = .settle q x outcome ∧ s.entries[x]?.map (·.defer) = some .pending ∧
        r.1.entries[x]?.map (·.defer) = some (Outcome.settled outcome) := by
  cases hr with
  | idle _ => exact absurd hin hout
  | @queueEvent q' event _ =>
      refine absurd ?_ hout
      rw [queueOf_startProcessingQueues, queueOf_pushEntry]
      split
      · subst q'
        exact List.mem_append_left _ hin
      · exact hin
  | removeEventFromQueue event =>
      exact .inl ⟨event, rfl, by_contra fun hid =>
        hout (mem_queueOf_removeEventFromQueue _ _ _ _ hid hin)⟩
  | setProcessFunction fn => exact absurd (by simpa [setProcessFunction] using hin) hout
  | call _ _ => exact absurd (by simpa using hin) hout
  | callNull ht hfn => exact absurd hfn (hs.consume ht).2.2
  | @fulfilled q0 r0 ht res =>
      simp only [onFulfilled, queueOf_processQueue, queueOf_modifyEntry] at hout
      obtain ⟨rfl, rfl⟩ := h.eq_of_shifted ho ht (u := s.dropTask _) (fun _ => rfl) hin hout
      obtain ⟨e, he⟩ := Counted.exists_entry_of_call hal (.inr ht)
      have hp := (hc x).pending_of_call (.inr ht) he
      refine .inr ⟨.fulfilled res, rfl, by simp [he, hp], ?_⟩
      simp [onFulfilled, getElem?_modifyEntry, he, hp, Outcome.settled]
  | @rejected q0 r0 ht err =>
      obtain ⟨e, he⟩ := Counted.exists_entry_of_call hal (.inr ht)
      have hp := (hc r0).pending_of_call (.inr ht) he
      rcases onRejected_cases (s := s.dropTask (.inFlight q0 r0)) alg q0 err he with
        ⟨-, hres⟩ | ⟨-, hres⟩ | ⟨w, -, -, hres⟩ <;> rw [hres] at hout ⊢
      · exact absurd (by simpa using hin) hout
      · simp only [queueOf_processQueue, queueOf_modifyEntry] at hout
        obtain ⟨rfl, rfl⟩ := h.eq_of_shifted ho ht (u := (s.dropTask _).modifyEntry r0 _)
          (fun _ => rfl) hin hout
        refine .inr ⟨.rejected err, rfl, by simp [he, hp], ?_⟩
        simp [getElem?_modifyEntry, he, hp, Outcome.settled]
      · exact absurd (by simpa using hin) hout
  | fireRetryTimer _ => exact absurd (by simpa using hin) hout

end CallsQueued

/-- No queued entry is lost while `removeEventFromQueue` spares the entries whose call is
pending: at every step of such a run, an entry leaves its queue only by `removeEventFromQueue`
on an event with its id, or by the settlement of its own call, which settles its promise with
the call's outcome. -/
theorem entry_leaves_queue_by_removal_or_settlement (alg : Algorithms) (as : List (Action T))
    (hsp : ∀ i (hi : i < as.length), SparesCalls (exec alg (as.take i)).1 as[i])
    (i : Nat) (hi : i < as.length) (q : String) (x : Nat)
    (hin : x ∈ (exec alg (as.take i)).1.queueOf q)
    (hout : x ∉ (exec alg (as.take (i + 1))).1.queueOf q) :
    (∃ event, as[i] = .removeEventFromQueue event ∧
        (exec alg (as.take i)).1.entries[x]?.map (fun e => e.event.id) = some event.id) ∨
      ∃ outcome, as[i] = .settle q x outcome ∧
        (exec alg (as.take i)).1.entries[x]?.map (·.defer) = some .pending ∧
        (exec alg (as.take (i + 1))).1.entries[x]?.map (·.defer) =
          some (Outcome.settled outcome) := by
  have hsp' : ∀ j (hj : j < (as.take i).length),
      SparesCalls (exec alg ((as.take i).take j)).1 (as.take i)[j] := fun j hj => by
    have hji : j < i := by simp only [List.length_take] at hj; omega
    simpa [List.take_take, Nat.min_eq_left hji.le, List.getElem_take] using hsp j (by omega)
  rw [← List.take_concat_get as i hi, List.concat_eq_append, exec_append_singleton] at hout ⊢
  exact (CallsQueued.exec alg _ hsp').leaves_queue (Serial.exec alg _) (Allocated.exec alg _)
    (Ordered.exec alg _) (Counted.exec alg _) (transition_step _ alg _) hin hout

/-- Two messages for the `"message"` queue. -/
def eventA : MatrixEvent := ⟨some "$a", roomMessage, false⟩

def eventB : MatrixEvent := ⟨some "$b", roomMessage, false⟩

/-- Queue `A` and `B`, let the call on `A` start, remove `B`, and let the call on `A`
succeed. -/
def sparedRun : List (Action Unit) :=
  [.setProcessFunction ⟨0⟩, .queueEvent eventA, .queueEvent eventB, .runProcFnCall "message" 0,
    .removeEventFromQueue eventB, .settle "message" 0 (.fulfilled ())]

/-- Removing `B` while the call on `A` is in flight spares the pending calls. -/
theorem sparedRun_sparesCalls (i : Nat) (hi : i < sparedRun.length) :
    SparesCalls (exec defaultAlgorithms (sparedRun.take i)).1 sparedRun[i] :=
  match i, hi with
  | 0, _ | 1, _ | 2, _ | 3, _ | 5, _ => trivial
  | 4, _ => fun q r hc => by
      have ht : (exec defaultAlgorithms (sparedRun.take 4)).1.tasks = [.inFlight "message" 0] := by
        decide
      simp only [CallPending, ht, List.mem_singleton, reduceCtorEq, false_or,
        Task.inFlight.injEq] at hc
      obtain ⟨rfl, rfl⟩ := hc
      decide
  | n + 6, h => absurd h (by simp [sparedRun])

/-- Removing `B` spares the call on `A`, and `A` leaves the queue when its call settles. -/
theorem spared_call_settles :
    (∀ i (hi : i < sparedRun.length),
      SparesCalls (exec defaultAlgorithms (sparedRun.take i)).1 sparedRun[i]) ∧
    0 ∈ (exec defaultAlgorithms (sparedRun.take 5)).1.queueOf "message" ∧
    0 ∉ (exec defaultAlgorithms (sparedRun.take 6)).1.queueOf "message" ∧
    ((∃ event, sparedRun.get ⟨5, by decide⟩ = .removeEventFromQueue event ∧
        (exec defaultAlgorithms (sparedRun.take 5)).1.entries[0]?.map (fun e => e.event.id) =
          some event.id) ∨
      ∃ outcome, sparedRun.get ⟨5, by decide⟩ = .settle "message" 0 outcome ∧
        (exec defaultAlgorithms (sparedRun.take 5)).1.entries[0]?.map (·.defer) = some .pending ∧
        (exec defaultAlgorithms (sparedRun.take 6)).1.entries[0]?.map (·.defer) =
          some (Outcome.settled outcome)) :=
  have hin : 0 ∈ (exec defaultAlgorithms (sparedRun.take 5)).1.queueOf "message" := by decide
  have hout : 0 ∉ (exec defaultAlgorithms (sparedRun.take 6)).1.queueOf "message" := by decide
  ⟨sparedRun_sparesCalls, hin, hout, entry_leaves_queue_by_removal_or_settlement defaultAlgorithms
    sparedRun sparedRun_sparesCalls 5 (by decide) "message" 0 hin hout⟩

/-- Queue `A` and `B`, let the call on `A` start, remove `A`, and let its call succeed. -/
def droppedEntryRun : List (Action Unit) :=
  [.setProcessFunction ⟨0⟩, .queueEvent eventA, .queueEvent eventB, .runProcFnCall "message" 0,
    .removeEventFromQueue eventA, .settle "message" 0 (.fulfilled ())]

theorem droppedEntryRun_dead :
    Dead (exec defaultAlgorithms droppedEntryRun).1 1 ⟨eventB, .pending, 0⟩ := by
  have hkeys : (exec defaultAlgorithms droppedEntryRun).1.queues.keys = ["message"] := by decide
  have hq : (exec defaultAlgorithms droppedEntryRun).1.queueOf "message" = [] := by decide
  have ht : (exec defaultAlgorithms droppedEntryRun).1.tasks = [] := by decide
  refine ⟨by decide, fun q h => ?_, fun q h => ?_⟩
  · have hk := (exec defaultAlgorithms droppedEntryRun).1.mem_keys_of_queueOf_ne_nil
      (List.ne_nil_of_mem h)
    rw [hkeys, List.mem_singleton] at hk
    subst hk
    rw [hq] at h
    exact List.not_mem_nil _ h
  · simp [CallPending, ht] at h

/-- `B` is pushed onto `"message"` and never taken out by `removeEventFromQueue`. Just before
the call on `A` settles, `B` is the only entry of the queue; the settlement shifts it off. From
then on, whatever the run goes on with, `B` is never passed to `procFn` and its promise stays
pending. -/
theorem queued_entry_dropped_unsent :
    .push "message" 1 ∈ (exec defaultAlgorithms droppedEntryRun).2 ∧
    (∀ event, .removeEventFromQueue event ∈ droppedEntryRun → event.id ≠ eventB.id) ∧
    (exec defaultAlgorithms (droppedEntryRun.take 5)).1.queueOf "message" = [1] ∧
    .inFlight "message" 0 ∈ (exec defaultAlgorithms (droppedEntryRun.take 5)).1.tasks ∧
    droppedEntryRun.drop 5 = [.settle "message" 0 (.fulfilled ())] ∧
    (exec defaultAlgorithms droppedEntryRun).1.queueOf "message" = [] ∧
    ∀ bs : List (Action Unit),
      (exec defaultAlgorithms (droppedEntryRun ++ bs)).1.entries[1]? = some ⟨eventB, .pending, 0⟩ ∧
      ∀ fn q, .call fn q 1 ∉ (exec defaultAlgorithms (droppedEntryRun ++ bs)).2 := by
  have htr : (exec defaultAlgorithms droppedEntryRun).2 =
      [.push "message" 0, .push "message" 1, .call ⟨0⟩ "message" 0] := by decide
  refine ⟨by rw [htr]; simp, fun event h => ?_, by decide, by decide, rfl, by decide, fun bs => ?_⟩
  · simp only [droppedEntryRun, List.mem_cons, Action.removeEventFromQueue.injEq, reduceCtorEq,
      List.mem_nil_iff, or_false, false_or] at h
    subst h
    decide
  · rw [exec_append]
    obtain ⟨hd, o, ho, hc⟩ := droppedEntryRun_dead.run defaultAlgorithms bs
    refine ⟨hd.1, fun fn q h => ?_⟩
    rw [ho, htr] at h
    simp only [List.cons_append, List.mem_cons, reduceCtorEq, Obs.call.injEq, List.nil_append,
      false_or] at h
    rcases h with ⟨-, -, h⟩ | h
    · cases h
    · exact hc fn q h

end MatrixSdk.Scheduler
