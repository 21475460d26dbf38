import MatrixSdk.Scheduler.Order

/-! An entry in no queue and with no pending call is never touched again. -/

namespace MatrixSdk.Scheduler

open MatrixScheduler

variable {T : Type} {alg : Algorithms} {s : MatrixScheduler T} {tr : List Obs} {obj : Nat}

/-- Entry `obj` is in no queue and no call on it is pending. -/
structure Gone (s : MatrixScheduler T) (obj : Nat) : Prop where
  not_queued : ∀ q, obj ∉ s.queueOf q
  not_called : ∀ q, ¬ s.CallPending q obj

namespace Gone

theorem of_sublist (h : Gone s obj) {u : MatrixScheduler T}
    (hq : ∀ q, (u.queueOf q).Sublist (s.queueOf q)) (ht : u.tasks ⊆ s.tasks) : Gone u obj :=
  ⟨fun q hq' => h.1 q ((hq q).subset hq'), fun q hc => h.2 q (hc.imp (@ht _) (@ht _))⟩

theorem dropTask (h : Gone s obj) (t : Task) : Gone (s.dropTask t) obj :=
  h.of_sublist (fun _ => .refl _) (List.erase_subset _ _)

theorem modifyEntry (h : Gone s obj) (r : Nat) (f : IQueueEntry T → IQueueEntry T) :
    Gone (s.modifyEntry r f) obj :=
  h.of_sublist (fun _ => .refl _) fun _ => id

theorem removeNextEvent (h : Gone s obj) (q : String) : Gone (s.removeNextEvent q).1 obj :=
  h.of_sublist (queueOf_removeNextEvent_sublist s q) (by simp)

/-- Adding a continuation that is no call on `obj`. -/
theorem addTask (h : Gone s obj) {t : Task} (ht : ∀ q, t ≠ .procFnCall q obj ∧ t ≠ .inFlight q obj) :
    Gone (s.addTask t) obj := by
  refine ⟨h.1, fun q hc => ?_⟩
  rcases (callPending_addTask t).mp hc with hc | hc | hc
  · exact h.2 q hc
  · exact (ht q).1 hc
  · exact (ht q).2 hc

/-- Scheduling a call on an entry of a queue. -/
theorem addCall (h : Gone s obj) {q : String} {r : Nat} (hr : r ∈ s.queueOf q) :
    Gone (s.addTask (.procFnCall q r)) obj :=
  h.addTask fun q' => ⟨fun he => h.1 q (by cases he; exact hr), nofun⟩

theorem processQueue (h : Gone s obj) (q : String) : Gone (s.processQueue q) obj := by
  cases hq : s.queueOf q with
  | nil => rw [processQueue_of_nil s hq]; exact h.of_sublist (fun _ => .refl _) fun _ => id
  | cons r rest => rw [processQueue_of_cons s hq]; exact h.addCall (by simp [hq])

theorem startProcessingQueues (h : Gone s obj) : Gone s.startProcessingQueues obj := by
  cases hfn : s.procFn with
  | none => rwa [startProcessingQueues_of_none s hfn]
  | some fn =>
      rw [startProcessingQueues_of_some s hfn]
      refine ⟨h.1, fun q hc => ?_⟩
      simp only [CallPending, List.mem_append] at hc
      rcases hc with (hc | hc) | (hc | hc)
      · exact h.2 q (.inl hc)
      · obtain ⟨q', -, r, hr, he⟩ := s.mem_headCalls hc
        cases he; exact h.1 q (List.mem_of_mem_head? hr)
      · exact h.2 q (.inr hc)
      · obtain ⟨_, -, _, -, he⟩ := s.mem_headCalls hc; cases he

theorem pushEntry (h : Gone s obj) (hobj : obj < s.entries.length) (q : String)
    (event : MatrixEvent) : Gone (s.pushEntry q event) obj := by
  refine ⟨fun q' hq' => ?_, h.2⟩
  rw [queueOf_pushEntry] at hq'
  split at hq'
  · rcases List.mem_append.mp hq' with hq' | hq'
    · exact h.1 q hq'
    · exact absurd (List.mem_singleton.mp hq') hobj.ne
  · exact h.1 q' hq'

theorem onRejected (h : Gone s obj) (q : String) (r : Nat) (err : Option MatrixError) :
    Gone (s.onRejected alg q r err).1 obj := by
  have h1 := h.modifyEntry r fun e => { e with attempts := e.attempts + 1 }
  dsimp only [MatrixScheduler.onRejected]
  split
  · exact h1
  · split
    · exact h1
    · split
      · exact ((h1.removeNextEvent q).modifyEntry r _).processQueue q
      · exact h1.addTask fun _ => ⟨nofun, nofun⟩

/-- The entry of a settling call is gone once the continuation is taken and the head of its
queue shifted: the call was alone in its queue, and on the head if its entry was queued. -/
theorem of_settled (hs : Serial s) (hal : Allocated alg s) (ho : Ordered s tr) {q : String}
    (ht : .inFlight q obj ∈ s.tasks) {u : MatrixScheduler T} (hq : ∀ q', u.queueOf q' = s.queueOf q')
    (hts : u.tasks = s.tasks.erase (.inFlight q obj)) : Gone (u.removeNextEvent q).1 obj := by
  have hhome := hal.2 q obj (.inr ht)
  have hnone := (pending_eq_zero _).mp (hs.consume ht).1
  refine ⟨fun q' hq' => ?_, fun q' hc => ?_⟩
  · rw [queueOf_removeNextEvent, hq, hq] at hq'
    split at hq'
    · subst q'
      obtain ⟨x, rest, hx⟩ := List.exists_cons_of_ne_nil (List.ne_nil_of_mem (List.mem_of_mem_tail hq'))
      have hhead := ho.head_of_callPending (.inr ht) (List.mem_of_mem_tail hq')
      rw [hx, List.head?_cons, Option.some_inj] at hhead
      rw [hx, List.tail_cons] at hq'
      exact lt_irrefl obj (hhead ▸ List.rel_of_sorted_cons (hx ▸ ho.1 q) obj hq')
    · rename_i hne
      exact hne (Option.some_inj.mp ((hal.1 q' obj hq').symm.trans hhome))
  · simp only [CallPending, removeNextEvent_tasks, hts] at hc
    have hq' : q' = q := Option.some_inj.mp ((hal.2 q' obj (hc.imp List.mem_of_mem_erase
      List.mem_of_mem_erase)).symm.trans hhome)
    subst q'
    rcases hc with hc | hc
    · exact hnone _ hc rfl
    · exact hnone _ hc rfl

end Gone

/-- Entry `obj` is gone and holds `e`. -/
structure Dead (s : MatrixScheduler T) (obj : Nat) (e : IQueueEntry T) : Prop where
  entry : s.entries[obj]? = some e
  gone : Gone s obj

namespace Dead

variable {e : IQueueEntry T}

/-- No transition touches a gone entry. -/
theorem step (h : Dead s obj e) {a : Action T} {r : MatrixScheduler T × List Obs}
    (hr : s.Transition alg a r) : Dead r.1 obj e := by
  have hlt : obj < s.entries.length := (List.getElem?_eq_some_iff.mp h.1).1
  have hne : ∀ q r, s.CallPending q r → obj ≠ r := fun q r hc hr => h.2.2 q (hr ▸ hc)
  cases hr with
  | idle _ => exact h
  | @queueEvent q event _ =>
      exact ⟨by simp [List.getElem?_append_left hlt, h.1],
        (h.2.pushEntry hlt q event).startProcessingQueues⟩
  | removeEventFromQueue event =>
      exact ⟨by simpa using h.1, h.2.of_sublist
        (fun q => queueOf_removeEventFromQueue_sublist ..) (by simp)⟩
  | setProcessFunction fn =>
      exact ⟨by simpa [setProcessFunction] using h.1,
        Gone.startProcessingQueues (s := { s with procFn := some fn }) ⟨h.2.1, h.2.2⟩⟩
  | @call q r _ ht _ =>
      exact ⟨by simpa using h.1, (h.2.dropTask _).addTask fun q' =>
        ⟨nofun, fun he => hne q r (.inl ht) (by cases he; rfl)⟩⟩
  | @callNull q r ht _ =>
      exact ⟨(getElem?_onRejected_of_ne _ (hne q r (.inl ht))).trans h.1,
        (h.2.dropTask _).onRejected q r _⟩
  | @fulfilled q r ht res =>
      refine ⟨?_, (((h.2.dropTask _).removeNextEvent q).modifyEntry r _).processQueue q⟩
      dsimp only
      rw [onFulfilled, processQueue_entries, getElem?_modifyEntry, if_neg (hne q r (.inr ht)),
        removeNextEvent_entries]
      exact h.1
  | @rejected q r ht err =>
      exact ⟨(getElem?_onRejected_of_ne _ (hne q r (.inr ht))).trans h.1,
        (h.2.dropTask _).onRejected q r err⟩
  | fireRetryTimer _ => exact ⟨by simpa using h.1, (h.2.dropTask _).processQueue _⟩

/-- A dead entry stays dead and unchanged whatever the run goes on with, and the rest of the
run calls `procFn` on it no more. -/
theorem run (alg : Algorithms) (bs : List (Action T)) {r : MatrixScheduler T × List Obs}
    (h : Dead r.1 obj e) :
    Dead (bs.foldl (stepTrace alg) r).1 obj e ∧
      ∃ o, (bs.foldl (stepTrace alg) r).2 = r.2 ++ o ∧ ∀ fn q, .call fn q obj ∉ o := by
  obtain ⟨hd, o, ho, hc⟩ := Transition.run alg (P := fun s => Dead s obj e)
    (Q := fun x => ∀ fn q, x ≠ .call fn q obj)
    (fun _ _ _ h hr => ⟨h.step hr, fun _ hx fn q he => h.2.2 q (.inl (hr.call_mem (he ▸ hx)).1)⟩) bs h
  exact ⟨hd, o, ho, fun fn q hx => hc _ hx fn q rfl⟩

end Dead

end MatrixSdk.Scheduler
