import MatrixSdk.Scheduler.Settlement

/-! `obj.attempts` counts the rejected calls on an entry, each of which consults the retry
algorithm once. -/

namespace MatrixSdk.Scheduler

open MatrixScheduler

variable {T : Type} {alg : Algorithms} {s : MatrixScheduler T} {tr : List Obs} {obj : Nat}

/-! ## Counters -/

/-- Whether an observation is a call of `procFn` on entry `obj`. -/
@[simp] def Obs.isCallOn (obj : Nat) : Obs → Bool
  | .call _ _ r => r == obj
  | .push _ _ | .retry _ _ _ _ | .setTimeout _ _ => false

/-- Whether an observation is a consultation of the retry algorithm on entry `obj`. -/
@[simp] def Obs.isRetryOf (obj : Nat) : Obs → Bool
  | .retry r _ _ _ => r == obj
  | .push _ _ | .call _ _ _ | .setTimeout _ _ => false

/-- The calls of `procFn` on entry `obj` in a trace. -/
def callsTo (obj : Nat) (tr : List Obs) : Nat := tr.countP (Obs.isCallOn obj)

/-- The consultations of the retry algorithm on entry `obj` in a trace. -/
def retriesOf (obj : Nat) (tr : List Obs) : Nat := tr.countP (Obs.isRetryOf obj)

/-- The `attempts` an observation hands the retry algorithm for entry `obj`. -/
@[simp] def Obs.attemptsFor (obj : Nat) : Obs → Option Nat
  | .retry r _ k _ => if r = obj then some k else none
  | .push _ _ | .call _ _ _ | .setTimeout _ _ => none

/-- The `attempts` the retry algorithm was handed for entry `obj`, in the order of the trace. -/
def attemptsOf (obj : Nat) (tr : List Obs) : List Nat := tr.filterMap (Obs.attemptsFor obj)

/-- Whether a continuation is the promise of a call on entry `obj`. -/
@[simp] def Task.isInFlightOn (obj : Nat) : Task → Bool
  | .inFlight _ r => r == obj
  | .procFnCall _ _ | .retryTimer _ _ => false

/-- The calls on entry `obj` in flight. -/
def MatrixScheduler.inFlightOn (s : MatrixScheduler T) (obj : Nat) : Nat :=
  s.tasks.countP (Task.isInFlightOn obj)

/-- Whether a promise was resolved. -/
@[simp] def Deferred.isResolved : Deferred T → Bool
  | .resolved _ => true
  | .pending | .rejected _ => false

@[simp] theorem callsTo_append (tr o : List Obs) :
    callsTo obj (tr ++ o) = callsTo obj tr + callsTo obj o := List.countP_append ..

@[simp] theorem retriesOf_append (tr o : List Obs) :
    retriesOf obj (tr ++ o) = retriesOf obj tr + retriesOf obj o := List.countP_append ..

@[simp] theorem callsTo_nil : callsTo obj [] = 0 := rfl

@[simp] theorem callsTo_cons (o : Obs) (tr : List Obs) :
    callsTo obj (o :: tr) = callsTo obj tr + if o.isCallOn obj then 1 else 0 := List.countP_cons ..

@[simp] theorem retriesOf_cons (o : Obs) (tr : List Obs) :
    retriesOf obj (o :: tr) = retriesOf obj tr + if o.isRetryOf obj then 1 else 0 :=
  List.countP_cons ..

@[simp] theorem retriesOf_nil : retriesOf obj [] = 0 := rfl

@[simp] theorem attemptsOf_append (tr o : List Obs) :
    attemptsOf obj (tr ++ o) = attemptsOf obj tr ++ attemptsOf obj o := List.filterMap_append ..

@[simp] theorem attemptsOf_nil : attemptsOf obj [] = [] := rfl

@[simp] theorem attemptsOf_cons (o : Obs) (tr : List Obs) :
    attemptsOf obj (o :: tr) = (o.attemptsFor obj).toList ++ attemptsOf obj tr := by
  cases h : o.attemptsFor obj <;> simp only [attemptsOf, List.filterMap_cons, h] <;> rfl

theorem callsTo_onRejected (q : String) (r : Nat) (err : Option MatrixError) :
    callsTo obj (s.onRejected alg q r err).2 = 0 :=
  List.countP_eq_zero.mpr fun x hx => by
    rcases s.mem_onRejected_obs hx with ⟨-, _, _, _, rfl⟩ | ⟨_, rfl⟩ <;> simp

theorem retriesOf_onRejected_of_ne {q : String} {r : Nat} (h : obj ≠ r) (err : Option MatrixError) :
    retriesOf obj (s.onRejected alg q r err).2 = 0 :=
  List.countP_eq_zero.mpr fun x hx => by
    rcases s.mem_onRejected_obs hx with ⟨-, _, _, _, rfl⟩ | ⟨_, rfl⟩ <;>
      simp [Ne.symm h]

theorem attemptsOf_onRejected_of_ne {q : String} {r : Nat} (h : obj ≠ r)
    (err : Option MatrixError) : attemptsOf obj (s.onRejected alg q r err).2 = [] :=
  List.filterMap_eq_nil_iff.mpr fun x hx => by
    rcases s.mem_onRejected_obs hx with ⟨-, _, _, _, rfl⟩ | ⟨_, rfl⟩ <;> simp [Ne.symm h]

/-! ## Calls in flight -/

namespace MatrixScheduler

@[simp] theorem inFlightOn_modifyEntry (r : Nat) (f : IQueueEntry T → IQueueEntry T) :
    (s.modifyEntry r f).inFlightOn obj = s.inFlightOn obj := rfl

@[simp] theorem inFlightOn_removeNextEvent (q : String) :
    (s.removeNextEvent q).1.inFlightOn obj = s.inFlightOn obj := by
  simp [inFlightOn]

@[simp] theorem inFlightOn_pushEntry (q : String) (event : MatrixEvent) :
    (s.pushEntry q event).inFlightOn obj = s.inFlightOn obj := rfl

theorem inFlightOn_addTask (t : Task) :
    (s.addTask t).inFlightOn obj = s.inFlightOn obj + if t.isInFlightOn obj then 1 else 0 := by
  simp [inFlightOn, List.countP_cons]

theorem inFlightOn_dropTask (obj : Nat) {t : Task} (ht : t ∈ s.tasks) :
    (s.dropTask t).inFlightOn obj = s.inFlightOn obj - if t.isInFlightOn obj then 1 else 0 := by
  have h := (List.perm_cons_erase ht).countP_eq (Task.isInFlightOn obj)
  simp only [inFlightOn, dropTask_tasks, h, List.countP_cons]
  omega

theorem inFlightOn_dropTask_of_ne {q : String} {r : Nat} (ht : .inFlight q r ∈ s.tasks)
    (hr : r ≠ obj) : (s.dropTask (.inFlight q r)).inFlightOn obj = s.inFlightOn obj := by
  simpa [hr] using s.inFlightOn_dropTask obj ht

@[simp] theorem inFlightOn_processQueue (q : String) :
    (s.processQueue q).inFlightOn obj = s.inFlightOn obj := by
  cases h : s.queueOf q with
  | nil => simp [processQueue_of_nil s h, inFlightOn]
  | cons r rest => simp [processQueue_of_cons s h, inFlightOn_addTask]

@[simp] theorem inFlightOn_startProcessingQueues :
    s.startProcessingQueues.inFlightOn obj = s.inFlightOn obj := by
  cases hfn : s.procFn with
  | none => rw [startProcessingQueues_of_none s hfn]
  | some fn =>
      rw [startProcessingQueues_of_some s hfn]
      simp only [inFlightOn, List.countP_append, Nat.add_right_eq_self, List.countP_eq_zero]
      intro t ht
      obtain ⟨_, -, _, -, rfl⟩ := s.mem_headCalls ht
      simp

theorem inFlightOn_onRejected (q : String) (r : Nat) (err : Option MatrixError) :
    (s.onRejected alg q r err).1.inFlightOn obj = s.inFlightOn obj := by
  dsimp only [onRejected]
  split
  · rfl
  · split
    · rfl
    · split
      · simp
      · simp [inFlightOn_addTask]

end MatrixScheduler

/-- A call in flight is the only one on its entry. -/
theorem inFlightOn_eq_one (hs : Serial s) (hal : Allocated alg s) {q : String} {r : Nat}
    (ht : .inFlight q r ∈ s.tasks) : s.inFlightOn r = 1 := by
  have hle : s.inFlightOn r ≤ s.pending q := List.countP_mono_left fun t ht' hf => by
    cases t with
    | inFlight q' r' =>
        simp only [Task.isInFlightOn, beq_iff_eq] at hf
        subst hf
        have hq := Option.some_inj.mp ((hal.2 q' r' (.inr ht')).symm.trans (hal.2 q r' (.inr ht)))
        simp [hq]
    | _ => simp at hf
  have hpos : 0 < s.inFlightOn r := List.countP_pos_iff.mpr ⟨_, ht, by simp⟩
  have := (hs.2 q).trans (hs.1 q)
  omega

/-- No call is in flight on the entry of a scheduled call. -/
theorem inFlightOn_eq_zero_of_scheduled (hs : Serial s) (hal : Allocated alg s) {q : String}
    {r : Nat} (ht : .procFnCall q r ∈ s.tasks) : s.inFlightOn r = 0 := by
  refine List.countP_eq_zero.mpr fun t ht' hf => ?_
  cases t with
  | inFlight q' r' =>
      simp only [Task.isInFlightOn, beq_iff_eq] at hf
      subst hf
      have hq := Option.some_inj.mp ((hal.2 q' r' (.inr ht')).symm.trans (hal.2 q r' (.inl ht)))
      subst hq
      exact nomatch s.eq_of_pending_le_one ((hs.2 q').trans (hs.1 q')) ht' ht rfl rfl
  | _ => simp at hf

/-! ## Entries not allocated yet -/

theorem retriesOf_eq_zero (hrec : Recorded alg s tr) (h : s.entries.length ≤ obj) :
    retriesOf obj tr = 0 :=
  List.countP_eq_zero.mpr fun x hx hr => by
    cases x with
    | retry r ev k err =>
        simp only [Obs.isRetryOf, beq_iff_eq] at hr
        subst hr
        exact absurd (hrec.3 r ev k err hx) (Nat.not_lt.mpr h)
    | _ => simp at hr

theorem callsTo_eq_zero (hrec : Recorded alg s tr) (h : s.entries.length ≤ obj) :
    callsTo obj tr = 0 :=
  List.countP_eq_zero.mpr fun x hx hc => by
    cases x with
    | call fn q r =>
        simp only [Obs.isCallOn, beq_iff_eq] at hc
        subst hc
        exact absurd (lt_of_homeOf (hrec.2 fn q r hx)) (Nat.not_lt.mpr h)
    | _ => simp at hc

theorem inFlightOn_eq_zero (hal : Allocated alg s) (h : s.entries.length ≤ obj) :
    s.inFlightOn obj = 0 :=
  List.countP_eq_zero.mpr fun t ht hf => by
    cases t with
    | inFlight q r =>
        simp only [Task.isInFlightOn, beq_iff_eq] at hf
        subst hf
        exact absurd (lt_of_homeOf (hal.2 q r (.inr ht))) (Nat.not_lt.mpr h)
    | _ => simp at hf

/-! ## The rejection handler -/

/-- The three ways the rejection handler goes on an allocated entry: the retry algorithm
throws, gives up, or names a wait. -/
theorem onRejected_cases (alg : Algorithms) (q : String) {r : Nat} (err : Option MatrixError) {e : IQueueEntry T}
    (he : s.entries[r]? = some e) :
    (alg.retryAlgorithm e.event (e.attempts + 1) err = none ∧
      s.onRejected alg q r err = (s.modifyEntry r fun e => { e with attempts := e.attempts + 1 },
        [.retry r e.event (e.attempts + 1) err])) ∨
    (alg.retryAlgorithm e.event (e.attempts + 1) err = some (-1) ∧
      s.onRejected alg q r err =
        ((((s.modifyEntry r fun e => { e with attempts := e.attempts + 1 }).removeNextEvent q).1.modifyEntry
          r fun e => { e with defer := e.defer.reject err }).processQueue q,
        [.retry r e.event (e.attempts + 1) err])) ∨
    ∃ w, w ≠ -1 ∧ alg.retryAlgorithm e.event (e.attempts + 1) err = some w ∧
      s.onRejected alg q r err =
        ((s.modifyEntry r fun e => { e with attempts := e.attempts + 1 }).addTask (.retryTimer q w),
          [.retry r e.event (e.attempts + 1) err, .setTimeout q w]) := by
  have h1 : (s.modifyEntry r fun e => { e with attempts := e.attempts + 1 }).entries[r]? =
      some { e with attempts := e.attempts + 1 } := by
    rw [getElem?_modifyEntry, if_pos rfl, he]; rfl
  simp only [onRejected, h1]
  cases hr : alg.retryAlgorithm e.event (e.attempts + 1) err with
  | none => exact .inl ⟨rfl, rfl⟩
  | some w =>
      by_cases hw : w = -1
      · subst hw; exact .inr (.inl ⟨rfl, by simp⟩)
      · exact .inr (.inr ⟨w, hw, rfl, by simp [hw]⟩)

/-! ## The count -/

/-- The count at entry `obj`: its consultations of the retry algorithm are its attempts; its
calls are its attempts, its call in flight and its resolution; and once its promise settled
it is dead. -/
def CountedAt (s : MatrixScheduler T) (tr : List Obs) (obj : Nat) : Prop :=
  ∀ e, s.entries[obj]? = some e →
    retriesOf obj tr = e.attempts ∧
    callsTo obj tr = e.attempts + s.inFlightOn obj + (if e.defer.isResolved then 1 else 0) ∧
    (e.defer ≠ .pending → Dead s obj e)

/-- The count at every entry. -/
def Counted (s : MatrixScheduler T) (tr : List Obs) : Prop := ∀ obj, CountedAt s tr obj

namespace CountedAt

/-- A pending call is on an entry whose promise has not settled. -/
theorem pending_of_call (h : CountedAt s tr obj) {q : String} (hc : s.CallPending q obj)
    {e : IQueueEntry T} (he : s.entries[obj]? = some e) : e.defer = .pending := by
  by_contra hd
  exact ((h e he).2.2 hd).2.2 q hc

/-- A step that does not change entry `obj` and consults nothing on it keeps its count, when
the calls it makes on `obj` are the ones it adds in flight. -/
theorem step_of_entry (h : CountedAt s tr obj) {a : Action T}
    {r : MatrixScheduler T × List Obs} (hst : s.Transition alg a r)
    (he : r.1.entries[obj]? = s.entries[obj]?)
    (hr : retriesOf obj r.2 = 0) (hi : s.inFlightOn obj + callsTo obj r.2 = r.1.inFlightOn obj) :
    CountedAt r.1 (tr ++ r.2) obj := by
  intro e he'
  rw [he] at he'
  obtain ⟨h1, h2, h3⟩ := h e he'
  refine ⟨by rw [retriesOf_append, h1, hr, Nat.add_zero], ?_, fun hd => (h3 hd).step hst⟩
  rw [callsTo_append, h2, ← hi]
  omega

end CountedAt

namespace Counted

variable (hs : Serial s) (hal : Allocated alg s) (ho : Ordered s tr) (hrec : Recorded alg s tr)

theorem initial : Counted (initial : MatrixScheduler T) [] := fun _ _ he => by
  simp [MatrixScheduler.initial] at he

include hal hrec in
theorem queueEvent (h : Counted s tr) {q : String} {event : MatrixEvent}
    (hq : alg.queueNameOf event = some q) :
    Counted (s.pushEntry q event).startProcessingQueues (tr ++ [.push q s.entries.length]) := by
  intro obj
  rcases Nat.lt_or_ge obj s.entries.length with hobj | hobj
  · exact (h obj).step_of_entry (.queueEvent hq) (by simp [List.getElem?_append_left hobj])
      (by simp) (by simp)
  · intro e he
    simp only [startProcessingQueues_entries, pushEntry_entries] at he
    rcases Nat.lt_or_ge s.entries.length obj with hgt | heq
    · rw [List.getElem?_eq_none (by simp; omega)] at he; cases he
    · obtain rfl : obj = s.entries.length := le_antisymm heq hobj
      simp only [List.getElem?_append_right (le_refl _), Nat.sub_self, List.getElem?_cons_zero,
        Option.some_inj] at he
      subst he
      refine ⟨by simp [retriesOf_eq_zero hrec le_rfl], ?_, fun hd => absurd rfl hd⟩
      simp [callsTo_eq_zero hrec le_rfl, inFlightOn_eq_zero hal le_rfl]

theorem exists_entry_of_call (hal : Allocated alg s) {q : String} {r : Nat}
    (hc : s.CallPending q r) : ∃ e, s.entries[r]? = some e :=
  ⟨_, List.getElem?_eq_getElem (lt_of_homeOf (hal.2 q r hc))⟩

include hs hal ho in
/-- The settlement of a call that succeeds moves it from in flight to the resolution. -/
theorem fulfilled_self (h : Counted s tr) {q : String} {r : Nat} (ht : .inFlight q r ∈ s.tasks)
    (res : T) :
    CountedAt ((s.dropTask (.inFlight q r)).onFulfilled q r res) tr r := by
  obtain ⟨e, he⟩ := exists_entry_of_call hal (.inr ht)
  obtain ⟨h1, h2, -⟩ := h r e he
  have hp := (h r).pending_of_call (.inr ht) he
  have hi := inFlightOn_eq_one hs hal ht
  have hi' := s.inFlightOn_dropTask r ht
  intro e' he'
  simp only [onFulfilled, processQueue_entries, getElem?_modifyEntry, if_true,
    removeNextEvent_entries, dropTask_entries, he, Option.map_some', Option.some_inj] at he'
  subst he'
  refine ⟨by simpa using h1, ?_, fun _ => ⟨?_, ?_⟩⟩
  · simp only [beq_self_eq_true, if_true] at hi'
    simp [onFulfilled, hi', hi, h2, hp]
  · simp [onFulfilled, getElem?_modifyEntry, he]
  · exact ((Gone.of_settled hs hal ho ht (u := s.dropTask _) (fun _ => rfl) rfl).modifyEntry r
      _).processQueue q

include hs hal ho in
/-- The settlement of a call that fails moves it from in flight to the attempts, and consults
the retry algorithm once. -/
theorem rejected_self (h : Counted s tr) {q : String} {r : Nat} (ht : .inFlight q r ∈ s.tasks)
    (err : Option MatrixError) :
    CountedAt ((s.dropTask (.inFlight q r)).onRejected alg q r err).1
      (tr ++ ((s.dropTask (.inFlight q r)).onRejected alg q r err).2) r := by
  obtain ⟨e, he⟩ := exists_entry_of_call hal (.inr ht)
  obtain ⟨h1, h2, -⟩ := h r e he
  have hp := (h r).pending_of_call (.inr ht) he
  have hi := inFlightOn_eq_one hs hal ht
  have hi' := s.inFlightOn_dropTask r ht
  simp only [beq_self_eq_true, if_true, hi] at hi'
  have hcalls : callsTo r tr = e.attempts + 1 := by simpa [hi, hp] using h2
  rcases onRejected_cases (s := s.dropTask (.inFlight q r)) alg q err he with
    ⟨-, hres⟩ | ⟨-, hres⟩ | ⟨w, -, -, hres⟩ <;> rw [hres] <;> intro e' he'
  · simp only [getElem?_modifyEntry, if_true, dropTask_entries, he, Option.map_some',
      Option.some_inj] at he'
    subst he'
    refine ⟨by simp [h1], ?_, fun hd => absurd hp hd⟩
    simp [hcalls, hi', hp]
  · simp only [processQueue_entries, getElem?_modifyEntry, if_true, removeNextEvent_entries,
      dropTask_entries, he, Option.map_some', Option.some_inj] at he'
    subst he'
    refine ⟨by simp [h1], ?_, fun _ => ⟨?_, ?_⟩⟩
    · simp [hcalls, hi', hp]
    · simp [getElem?_modifyEntry, he]
    · exact ((Gone.of_settled hs hal ho ht (u := (s.dropTask _).modifyEntry r _) (fun _ => rfl)
        rfl).modifyEntry r _).processQueue q
  · simp only [addTask_entries, getElem?_modifyEntry, if_true, dropTask_entries, he,
      Option.map_some', Option.some_inj] at he'
    subst he'
    refine ⟨by simp [h1], ?_, fun hd => absurd hp hd⟩
    simp [hcalls, hi', inFlightOn_addTask, hp]

include hs hal ho hrec in
/-- Every transition keeps the count. -/
theorem step (h : Counted s tr) {a : Action T} {r : MatrixScheduler T × List Obs}
    (hr : s.Transition alg a r) :
    Counted r.1 (tr ++ r.2) := by
  have hst := hr
  cases hr with
  | idle _ => simpa using h
  | queueEvent hq => exact h.queueEvent hal hrec hq
  | removeEventFromQueue event =>
      exact fun obj => (h obj).step_of_entry hst (by simp) (by simp)
        (by simp [inFlightOn])
  | setProcessFunction fn =>
      refine fun obj => (h obj).step_of_entry hst
        (by simp [setProcessFunction]) (by simp) ?_
      simp only [setProcessFunction, inFlightOn_startProcessingQueues]
      rfl
  | call ht hfn =>
      refine fun obj => (h obj).step_of_entry hst (by simp) (by simp) ?_
      simp [inFlightOn_addTask, inFlightOn_dropTask _ ht]
  | callNull ht hfn => exact absurd hfn (hs.consume ht).2.2
  | @fulfilled q r ht res =>
      intro obj
      by_cases hr : r = obj
      · subst hr
        simpa only [List.append_nil] using h.fulfilled_self hs hal ho ht res
      · refine (h obj).step_of_entry hst ?_ (by simp) ?_
        · simp [onFulfilled, List.getElem?_modify, hr]
        · simp [onFulfilled, inFlightOn_dropTask_of_ne ht hr]
  | @rejected q r ht err =>
      intro obj
      by_cases hr : r = obj
      · subst hr
        exact h.rejected_self hs hal ho ht err
      · exact (h obj).step_of_entry hst (getElem?_onRejected_of_ne _ (Ne.symm hr))
          (retriesOf_onRejected_of_ne (Ne.symm hr) err)
          (by simp only [callsTo_onRejected, inFlightOn_onRejected, inFlightOn_dropTask_of_ne ht hr,
            Nat.add_zero])
  | fireRetryTimer ht =>
      refine fun obj => (h obj).step_of_entry hst (by simp) (by simp) ?_
      simp [inFlightOn_dropTask _ ht]

theorem exec (alg : Algorithms) (as : List (Action T)) : Counted (exec alg as).1 (exec alg as).2 :=
  exec_induction alg (P := fun s tr => Counted s tr) initial
    (fun as a h => h.step (Serial.exec alg as) (Allocated.exec alg as) (Ordered.exec alg as)
      (Recorded.exec alg as) (transition_step _ alg a)) as

/-- The entry of a call in flight: allocated, its promise pending, its calls one more than
its attempts, which count its consultations of the retry algorithm. -/
theorem rejecting (hc : Counted s tr) (hs : Serial s) (hal : Allocated alg s) {q : String}
    {obj : Nat} (ht : .inFlight q obj ∈ s.tasks) :
    ∃ e, s.entries[obj]? = some e ∧ e.defer = .pending ∧
      callsTo obj tr = e.attempts + 1 ∧ retriesOf obj tr = e.attempts := by
  obtain ⟨e, he⟩ := exists_entry_of_call hal (.inr ht)
  obtain ⟨h1, h2, -⟩ := hc obj e he
  have hp := (hc obj).pending_of_call (.inr ht) he
  exact ⟨e, he, hp, by simpa [inFlightOn_eq_one hs hal ht, hp] using h2, h1⟩

/-- A queued entry is allocated, and its promise pending. -/
theorem pending_of_mem_queueOf (hc : Counted s tr) (hal : Allocated alg s) {q : String} {r : Nat}
    (hr : r ∈ s.queueOf q) : ∃ e, s.entries[r]? = some e ∧ e.defer = .pending := by
  obtain ⟨e, he⟩ : ∃ e, s.entries[r]? = some e :=
    ⟨_, List.getElem?_eq_getElem (lt_of_homeOf (hal.1 q r hr))⟩
  exact ⟨e, he, by_contra fun hne => ((hc r e he).2.2 hne).2.1 q hr⟩

end Counted

/-- A promise settles once: after an entry's promise has been resolved or rejected, whatever
the run goes on with leaves the entry as it is and never calls `procFn` on it again. -/
theorem settled_entry_final (alg : Algorithms) (as bs : List (Action T)) {e : IQueueEntry T}
    (he : (exec alg as).1.entries[obj]? = some e) (hd : e.defer ≠ .pending) :
    (exec alg (as ++ bs)).1.entries[obj]? = some e ∧
      ∃ o, (exec alg (as ++ bs)).2 = (exec alg as).2 ++ o ∧ ∀ fn q, .call fn q obj ∉ o := by
  obtain ⟨-, -, hdead⟩ := Counted.exec alg as obj e he
  rw [exec_append]
  obtain ⟨hd', ho⟩ := (hdead hd).run alg bs
  exact ⟨hd'.1, ho⟩

/-- A message sent once and delivered. -/
def deliveredRun : List (Action Unit) :=
  [.setProcessFunction ⟨0⟩, .queueEvent ⟨some "$m", roomMessage, false⟩, .runProcFnCall "message" 0,
    .settle "message" 0 (.fulfilled ())]

/-- Queueing the delivered message again makes a new entry and sends that one: the delivered
entry stays resolved and is not sent again. -/
theorem delivered_entry_not_resent :
    (exec defaultAlgorithms deliveredRun).1.entries[0]? =
        some ⟨⟨some "$m", roomMessage, false⟩, .resolved (), 0⟩ ∧
      (⟨⟨some "$m", roomMessage, false⟩, .resolved (), 0⟩ : IQueueEntry Unit).defer ≠ .pending ∧
      (exec defaultAlgorithms (deliveredRun ++ [.queueEvent ⟨some "$m", roomMessage, false⟩,
          .runProcFnCall "message" 1])).1.entries[0]? =
        some ⟨⟨some "$m", roomMessage, false⟩, .resolved (), 0⟩ ∧
      ∃ o, (exec defaultAlgorithms (deliveredRun ++ [.queueEvent ⟨some "$m", roomMessage, false⟩,
          .runProcFnCall "message" 1])).2 = (exec defaultAlgorithms deliveredRun).2 ++ o ∧
        ∀ fn q, .call fn q 0 ∉ o :=
  have he : (exec defaultAlgorithms deliveredRun).1.entries[0]? =
      some ⟨⟨some "$m", roomMessage, false⟩, .resolved (), 0⟩ := by decide
  have hd : (⟨⟨some "$m", roomMessage, false⟩, .resolved (), 0⟩ : IQueueEntry Unit).defer ≠
      .pending := nofun
  ⟨he, hd, settled_entry_final defaultAlgorithms deliveredRun _ he hd⟩

/-- An entry still in a queue has a pending promise: the promise `queueEvent` returned settles
only once its entry has left its queue. -/
theorem queued_entry_unsettled (alg : Algorithms) (as : List (Action T)) {q : String} {r : Nat}
    (hr : r ∈ (exec alg as).1.queueOf q) :
    (exec alg as).1.entries[r]?.map (·.defer) = some .pending := by
  obtain ⟨e, he, hd⟩ := (Counted.exec alg as).pending_of_mem_queueOf (Allocated.exec alg as) hr
  simp [he, hd]

/-- The message whose call is in flight is still queued, and its promise pending. -/
theorem message_in_flight_unsettled :
    0 ∈ (exec defaultAlgorithms (deliveredRun.take 3)).1.queueOf "message" ∧
      (exec defaultAlgorithms (deliveredRun.take 3)).1.entries[0]?.map (·.defer) = some .pending :=
  have h : 0 ∈ (exec defaultAlgorithms (deliveredRun.take 3)).1.queueOf "message" := by decide
  ⟨h, queued_entry_unsettled defaultAlgorithms _ h⟩

/-! ## The attempts handed to the retry algorithm -/

/-- A transition hands the retry algorithm, for entry `obj`, the attempts that follow the
consultations so far. -/
theorem attemptsOf_transition (hs : Serial s) (hc : Counted s tr) {a : Action T}
    {r : MatrixScheduler T × List Obs} (hr : s.Transition alg a r) :
    attemptsOf obj r.2 = List.range' (retriesOf obj tr + 1) (retriesOf obj r.2) := by
  cases hr with
  | callNull ht hfn => exact absurd hfn (hs.consume ht).2.2
  | @rejected q r ht err =>
      by_cases hr : obj = r
      · subst hr
        cases he : s.entries[obj]? with
        | none => simp [onRejected, getElem?_modifyEntry, he]
        | some e =>
            rw [(hc obj e he).1]
            rcases onRejected_cases (s := s.dropTask (.inFlight q obj)) alg q err he with
              ⟨-, hres⟩ | ⟨-, hres⟩ | ⟨w, -, -, hres⟩ <;> simp [hres]
      · rw [attemptsOf_onRejected_of_ne hr, retriesOf_onRejected_of_ne hr]
        rfl
  | idle _ | queueEvent _ | removeEventFromQueue _ | setProcessFunction _ | call _ _ | fulfilled _ _
    | fireRetryTimer _ => simp

/-- The retry algorithm is handed, for each entry, the attempts 1, 2, 3, … in turn: the
`k`-th consultation on an entry is made with `attempts = k`, never with 0. -/
theorem retry_attempts_count_up (alg : Algorithms) (as : List (Action T)) (obj : Nat) :
    attemptsOf obj (exec alg as).2 = List.range' 1 (retriesOf obj (exec alg as).2) :=
  exec_induction alg (P := fun _ tr => attemptsOf obj tr = List.range' 1 (retriesOf obj tr)) rfl
    (fun as a h => by
      dsimp only at h ⊢
      rw [attemptsOf_append, retriesOf_append, h, attemptsOf_transition (Serial.exec alg as)
        (Counted.exec alg as) (transition_step _ alg a), Nat.add_comm _ 1, List.range'_append_1,
        Nat.add_comm])
    as

theorem callsTo_eq_zero_of_not_mem {o : List Obs} (h : ∀ fn q, .call fn q obj ∉ o) :
    callsTo obj o = 0 :=
  List.countP_eq_zero.mpr fun x hx hc => by
    cases x with
    | call fn q r =>
        simp only [Obs.isCallOn, beq_iff_eq] at hc
        subst hc
        exact h fn q hx
    | _ => simp at hc

end MatrixSdk.Scheduler
