import MatrixSdk.Scheduler.Continuations
import MatrixSdk.Scheduler.Allocation
import Mathlib.Data.List.Sort
import Mathlib.Data.List.Dedup

/-! A queue holds its entries in allocation order, and a pending call is on the earliest entry
it still holds. -/

namespace MatrixSdk.Scheduler

open MatrixScheduler

variable {T : Type} {alg : Algorithms} {s : MatrixScheduler T} {tr : List Obs}

/-- The order invariant of a reachable scheduler and its trace. -/
structure Ordered (s : MatrixScheduler T) (tr : List Obs) : Prop where
  sorted : ∀ q, (s.queueOf q).Sorted (· < ·)
  call_le_queue : ∀ q r, s.CallPending q r → ∀ r' ∈ s.queueOf q, r ≤ r'
  calls_le_queue : ∀ q, ∀ c ∈ callsOn q tr, ∀ r ∈ s.queueOf q, c ≤ r
  calls_le_call : ∀ q r, .procFnCall q r ∈ s.tasks → ∀ c ∈ callsOn q tr, c ≤ r
  calls_sorted : ∀ q, (callsOn q tr).Sorted (· ≤ ·)

theorem callsOn_eq_of_no_call {o : List Obs} (h : ∀ fn q r, .call fn q r ∉ o) (q : String) :
    callsOn q (tr ++ o) = callsOn q tr := by
  rw [callsOn_append, List.append_right_eq_self]
  exact List.eq_nil_iff_forall_not_mem.mpr fun r hr => by
    obtain ⟨fn, hr⟩ := mem_callsOn.mp hr
    exact h fn q r hr

namespace Ordered

theorem initial : Ordered (initial : MatrixScheduler T) [] :=
  ⟨fun _ => by simp, fun _ _ h => by simp [CallPending, MatrixScheduler.initial] at h,
    fun _ _ h => by simp [callsOn] at h, fun _ _ h => by simp [MatrixScheduler.initial] at h,
    fun _ => by simp [callsOn]⟩

theorem of_sublist (h : Ordered s tr) {s' : MatrixScheduler T}
    (hq : ∀ q, (s'.queueOf q).Sublist (s.queueOf q)) (ht : s'.tasks ⊆ s.tasks) :
    Ordered s' tr :=
  ⟨fun q => (h.1 q).sublist (hq q),
    fun q r hr r' hr' => h.2 q r (hr.imp (@ht _) (@ht _)) r' ((hq q).subset hr'),
    fun q c hc r hr => h.3 q c hc r ((hq q).subset hr),
    fun q r hr => h.4 q r (ht hr), h.5⟩

theorem dropTask (h : Ordered s tr) (t : Task) : Ordered (s.dropTask t) tr :=
  h.of_sublist (fun _ => .refl _) (List.erase_subset _ _)

theorem modifyEntry (h : Ordered s tr) (obj : Nat) (f : IQueueEntry T → IQueueEntry T) :
    Ordered (s.modifyEntry obj f) tr :=
  h.of_sublist (fun _ => .refl _) fun _ => id

theorem of_callsOn (h : Ordered s tr) {tr' : List Obs} (hc : ∀ q, callsOn q tr' = callsOn q tr) :
    Ordered s tr' :=
  ⟨h.1, h.2, fun q => hc q ▸ h.3 q, fun q r hr => hc q ▸ h.4 q r hr, fun q => hc q ▸ h.5 q⟩

/-- The head of a queue comes no later than its entries and than every call made for it. -/
theorem head_le (h : Ordered s tr) {q : String} {r : Nat} (hr : (s.queueOf q).head? = some r) :
    (∀ r' ∈ s.queueOf q, r ≤ r') ∧ ∀ c ∈ callsOn q tr, c ≤ r := by
  obtain ⟨rest, hq⟩ : ∃ rest, s.queueOf q = r :: rest := by
    cases hq : s.queueOf q with
    | nil => simp [hq] at hr
    | cons r' rest => simp only [hq, List.head?_cons, Option.some.injEq] at hr; exact ⟨rest, hr ▸ rfl⟩
  refine ⟨fun r' hr' => ?_, fun c hc => h.3 q c hc r (by simp [hq])⟩
  rw [hq] at hr'
  rcases List.mem_cons.mp hr' with rfl | hr'
  · exact le_rfl
  · exact le_of_lt (List.rel_of_sorted_cons (hq ▸ h.1 q) r' hr')

/-- Scheduling a call on the head of its queue keeps the order. -/
theorem addTask_head (h : Ordered s tr) {q : String} {r : Nat} (hr : (s.queueOf q).head? = some r) :
    Ordered (s.addTask (.procFnCall q r)) tr := by
  obtain ⟨hhead, hcalls⟩ := h.head_le hr
  refine ⟨h.1, fun q' r' hc r'' hr'' => ?_, h.3, fun q' r' ht c hc => ?_, h.5⟩
  · rcases (callPending_addTask _).mp hc with hc | hc | hc
    · exact h.2 q' r' hc r'' hr''
    · cases hc; exact hhead r'' hr''
    · cases hc
  · simp only [addTask_tasks, List.mem_append, List.mem_singleton] at ht
    rcases ht with ht | ht
    · exact h.4 q' r' ht c hc
    · cases ht; exact hcalls c hc

theorem addTimer (h : Ordered s tr) (q : String) (w : Int) :
    Ordered (s.addTask (.retryTimer q w)) tr := by
  refine ⟨h.1, fun q' r hr => h.2 q' r (by simpa [callPending_addTask] using hr), h.3,
    fun q' r hr => h.4 q' r (by simpa using hr), h.5⟩

theorem processQueue (h : Ordered s tr) (q : String) : Ordered (s.processQueue q) tr := by
  cases hq : s.queueOf q with
  | nil => rw [processQueue_of_nil s hq]; exact h.of_sublist (fun _ => .refl _) fun _ => id
  | cons r rest => rw [processQueue_of_cons s hq]; exact h.addTask_head (by simp [hq])

theorem startProcessingQueues (h : Ordered s tr) : Ordered s.startProcessingQueues tr := by
  cases hfn : s.procFn with
  | none => rwa [startProcessingQueues_of_none s hfn]
  | some fn =>
      rw [startProcessingQueues_of_some s hfn]
      refine ⟨h.1, fun q r hr r' hr' => ?_, h.3, fun q r hr c hc => ?_, h.5⟩
      · simp only [CallPending, List.mem_append] at hr
        rcases hr with (hr | hr) | (hr | hr)
        · exact h.2 q r (.inl hr) r' hr'
        · obtain ⟨q', -, r'', hr'', he⟩ := s.mem_headCalls hr
          cases he; exact (h.head_le hr'').1 r' hr'
        · exact h.2 q r (.inr hr) r' hr'
        · obtain ⟨_, -, _, -, he⟩ := s.mem_headCalls hr; cases he
      · rcases List.mem_append.mp hr with hr | hr
        · exact h.4 q r hr c hc
        · obtain ⟨q', -, r'', hr'', he⟩ := s.mem_headCalls hr
          cases he; exact (h.head_le hr'').2 c hc

theorem removeNextEvent (h : Ordered s tr) (q : String) : Ordered (s.removeNextEvent q).1 tr :=
  h.of_sublist (queueOf_removeNextEvent_sublist s q) (by simp)

theorem onRejected (h : Ordered s tr) (q : String) (obj : Nat) (err : Option MatrixError) :
    Ordered (s.onRejected alg q obj err).1 (tr ++ (s.onRejected alg q obj err).2) := by
  refine Ordered.of_callsOn ?_ (callsOn_eq_of_no_call s.call_not_mem_onRejected)
  have h1 := h.modifyEntry obj fun e => { e with attempts := e.attempts + 1 }
  dsimp only [MatrixScheduler.onRejected]
  split
  · exact h1
  · split
    · exact h1
    · split
      · exact ((h1.removeNextEvent q).modifyEntry obj _).processQueue q
      · exact h1.addTimer q _

theorem pushEntry (h : Ordered s tr) (hal : Allocated alg s) (hrec : Recorded alg s tr)
    {q : String} {event : MatrixEvent} :
    Ordered (s.pushEntry q event) (tr ++ [.push q s.entries.length]) := by
  have hc : ∀ q', callsOn q' (tr ++ [.push q s.entries.length]) = callsOn q' tr :=
    callsOn_eq_of_no_call (by simp)
  have hq : ∀ q', ∀ r ∈ s.queueOf q', r < s.entries.length :=
    fun q' r hr => lt_of_homeOf (hal.1 q' r hr)
  refine Ordered.of_callsOn (s := s.pushEntry q event) ⟨fun q' => ?_, fun q' r hr r' hr' => ?_, fun q' c hc r hr => ?_,
    h.4, h.5⟩ hc
  · rw [queueOf_pushEntry]
    split
    · subst q'
      exact List.pairwise_append.mpr ⟨h.1 q, List.pairwise_singleton _ _,
        fun a ha b hb => (List.mem_singleton.mp hb) ▸ hq q a ha⟩
    · exact h.1 q'
  · rw [queueOf_pushEntry] at hr'
    have hlt := lt_of_homeOf (hal.2 q' r hr)
    split at hr'
    · subst q'
      rcases List.mem_append.mp hr' with hr' | hr'
      · exact h.2 q r hr r' hr'
      · rw [List.mem_singleton.mp hr']; exact le_of_lt hlt
    · exact h.2 q' r hr r' hr'
  · rw [queueOf_pushEntry] at hr
    obtain ⟨fn, hc'⟩ := mem_callsOn.mp hc
    have hlt := lt_of_homeOf (hrec.2 fn q' c hc')
    split at hr
    · subst q'
      rcases List.mem_append.mp hr with hr | hr
      · exact h.3 q c hc r hr
      · rw [List.mem_singleton.mp hr]; exact le_of_lt hlt
    · exact h.3 q' c hc r hr

/-- Running a scheduled call: the queue had no other continuation, so the call comes after
every earlier call made for the queue. -/
theorem call (h : Ordered s tr) (hs : Serial s) {q : String} {obj : Nat}
    (ht : .procFnCall q obj ∈ s.tasks) (fn : ProcessFunction) :
    Ordered ((s.dropTask (.procFnCall q obj)).addTask (.inFlight q obj))
      (tr ++ [.call fn q obj]) := by
  have hnone := (pending_eq_zero _).mp (hs.consume ht).1
  have hcall : ∀ q', callsOn q' (tr ++ [.call fn q obj]) =
      callsOn q' tr ++ if q = q' then [obj] else [] := fun q' => by
    by_cases hq : q = q' <;> simp [callsOn, Obs.calledFor, hq]
  have hle := h.2 q obj (.inl ht)
  refine ⟨h.1, fun q' r hr r' hr' => ?_, fun q' c hc r hr => ?_, fun q' r hr c hc => ?_,
    fun q' => ?_⟩
  · rcases (callPending_addTask _).mp hr with hr | hr | hr
    · exact h.2 q' r hr.of_dropTask r' hr'
    · cases hr
    · cases hr; exact hle r' hr'
  · rw [hcall] at hc
    rcases List.mem_append.mp hc with hc | hc
    · exact h.3 q' c hc r (by simpa using hr)
    · by_cases hq : q = q'
      · subst hq
        rw [if_pos rfl, List.mem_singleton] at hc
        rw [hc]; exact hle r (by simpa using hr)
      · rw [if_neg hq] at hc; cases hc
  · simp only [addTask_tasks, dropTask_tasks, List.mem_append, List.mem_singleton,
      reduceCtorEq, or_false] at hr
    have hq : q ≠ q' := fun hq => hnone _ hr (by simp [hq])
    rw [hcall, if_neg hq, List.append_nil] at hc
    exact h.4 q' r (List.mem_of_mem_erase hr) c hc
  · rw [hcall]
    split
    · subst q'
      exact List.pairwise_append.mpr ⟨h.5 q, List.pairwise_singleton _ _,
        fun c hc b hb => (List.mem_singleton.mp hb) ▸ h.4 q obj ht c hc⟩
    · simpa using h.5 q'

/-- Every transition keeps the order invariant. -/
theorem step (h : Ordered s tr) (hs : Serial s) (hal : Allocated alg s) (hrec : Recorded alg s tr)
    {a : Action T} {r : MatrixScheduler T × List Obs} (hr : s.Transition alg a r) :
    Ordered r.1 (tr ++ r.2) := by
  cases hr with
  | idle _ => simpa using h
  | queueEvent _ => exact (h.pushEntry hal hrec).startProcessingQueues
  | removeEventFromQueue event =>
      simp only [List.append_nil]
      exact h.of_sublist (fun q => queueOf_removeEventFromQueue_sublist ..) (by simp)
  | setProcessFunction fn =>
      simp only [List.append_nil]
      exact Ordered.startProcessingQueues (s := { s with procFn := some fn }) ⟨h.1, h.2, h.3, h.4, h.5⟩
  | call ht _ => exact h.call hs ht _
  | callNull ht hfn => exact absurd hfn (hs.consume ht).2.2
  | fulfilled _ res =>
      simp only [List.append_nil]
      exact (((h.dropTask _).removeNextEvent _).modifyEntry _ _).processQueue _
  | rejected _ err => exact (h.dropTask _).onRejected _ _ err
  | fireRetryTimer _ =>
      simp only [List.append_nil]
      exact (h.dropTask _).processQueue _

theorem exec (alg : Algorithms) (as : List (Action T)) : Ordered (exec alg as).1 (exec alg as).2 :=
  exec_induction alg (P := fun s tr => Ordered s tr) initial
    (fun as a h => h.step (Serial.exec alg as) (Allocated.exec alg as) (Recorded.exec alg as)
      (transition_step _ alg a)) as

/-- A pending call is on the head of its queue, unless its entry has left the queue. -/
theorem head_of_callPending (h : Ordered s tr) {q : String} {r : Nat} (hr : s.CallPending q r)
    (hq : r ∈ s.queueOf q) : (s.queueOf q).head? = some r := by
  obtain ⟨x, rest, hx⟩ := List.exists_cons_of_ne_nil (List.ne_nil_of_mem hq)
  have hxr : x ≤ r := (h.head_le (by simp [hx])).1 r hq
  have hrx : r ≤ x := h.2 q r hr x (by simp [hx])
  rw [hx, List.head?_cons, le_antisymm hxr hrx]

end Ordered

/-! ## Serving a queue -/

theorem Recorded.pushesOn_sorted (h : Recorded alg s tr) (q : String) :
    (pushesOn q tr).Sorted (· < ·) := by
  rw [h.1 q]; exact (List.pairwise_lt_range _).filter _

/-- The entries called for a queue, each once and in order, were pushed onto it in that
order. -/
theorem Recorded.dedup_callsOn_sublist (h : Recorded alg s tr) (q : String)
    (hs : (callsOn q tr).Sorted (· ≤ ·)) : (callsOn q tr).dedup.Sublist (pushesOn q tr) := by
  refine List.sublist_of_subperm_of_sorted
    (List.subperm_of_subset (List.nodup_dedup _) fun c hc => ?_)
    (hs.sublist (List.dedup_sublist _)) ((h.pushesOn_sorted q).imp le_of_lt)
  obtain ⟨fn, hc⟩ := mem_callsOn.mp (List.mem_dedup.mp hc)
  have hhome := h.2 fn q c hc
  rw [h.1 q]; simp [hhome, lt_of_homeOf hhome]

/-- In a list sorted by `≤`, a value found at two positions is found at every position
between them. -/
theorem getElem?_eq_of_sorted {l : List Nat} (h : l.Sorted (· ≤ ·)) {i j k r : Nat}
    (hij : i ≤ j) (hjk : j ≤ k) (hi : l[i]? = some r) (hk : l[k]? = some r) : l[j]? = some r := by
  obtain ⟨hil, hi⟩ := List.getElem?_eq_some_iff.mp hi
  obtain ⟨hkl, hk⟩ := List.getElem?_eq_some_iff.mp hk
  have hjl : j < l.length := by omega
  have h1 := h.rel_get_of_le (a := ⟨i, hil⟩) (b := ⟨j, hjl⟩) hij
  have h2 := h.rel_get_of_le (a := ⟨j, hjl⟩) (b := ⟨k, hkl⟩) hjk
  simp only [List.get_eq_getElem] at h1 h2
  rw [List.getElem?_eq_getElem hjl, ← hi]
  exact congrArg some (le_antisymm (h2.trans (hk.trans hi.symm).le) h1)

/-- How queue `q` is served, seen from a scheduler, its trace so far and its next step. -/
structure ServedInOrder (alg : Algorithms) (s : MatrixScheduler T) (tr : List Obs) (q : String) :
    Prop where
  active_at_most_once : s.activeQueues.count q ≤ 1
  pending_at_most_one : s.pending q ≤ 1
  call_alone : ∀ a fn obj, .call fn q obj ∈ (s.step alg a).2 →
    (∀ r, .inFlight q r ∉ s.tasks) ∧ ∀ w, .retryTimer q w ∉ s.tasks
  called_in_push_order : (callsOn q tr).dedup.Sublist (pushesOn q tr)
  retries_adjacent : ∀ i j k r : Nat, i ≤ j → j ≤ k → (callsOn q tr)[i]? = some r →
    (callsOn q tr)[k]? = some r → (callsOn q tr)[j]? = some r

/-- Each queue is served in order, one send at a time, after every run. -/
theorem fifo_one_send_at_a_time (alg : Algorithms) (as : List (Action T)) (q : String) :
    ServedInOrder alg (exec alg as).1 (exec alg as).2 q := by
  have hs := Serial.exec alg as
  have ho := Ordered.exec alg as
  have hp : (exec alg as).1.pending q ≤ 1 := (hs.2 q).trans (hs.1 q)
  refine ⟨hs.1 q, hp, fun a fn obj hc => ?_, (Recorded.exec alg as).dedup_callsOn_sublist q (ho.5 q),
    fun i j k r => getElem?_eq_of_sorted (ho.5 q)⟩
  obtain ⟨ht, -⟩ := ((exec alg as).1.transition_step alg a).call_mem hc
  exact ⟨fun r hr => (nomatch (exec alg as).1.eq_of_pending_le_one hp hr ht rfl rfl),
    fun w hw => (nomatch (exec alg as).1.eq_of_pending_le_one hp hw ht rfl rfl)⟩

/-! ## What `getQueueForEvent` lists -/

end MatrixSdk.Scheduler
