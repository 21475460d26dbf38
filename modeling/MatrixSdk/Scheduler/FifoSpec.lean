import MatrixSdk.Scheduler.Types
import Mathlib.Logic.Relation
import Mathlib.Data.List.Sort

/-! What the scheduler is for: each queue sends its entries one at a time, from its head, in
the order they were queued. -/

namespace MatrixSdk.Scheduler.FifoSpec

/-- The queues in FIFO order, the entry being sent from each queue, the outcome of each
settled entry, and the next entry to allocate. -/
structure State (T : Type) where
  queue : String → List Nat
  sending : String → Option Nat
  outcome : Nat → Option (Outcome T)
  next : Nat

variable {T : Type}

/-- No queue, nothing sent, nothing allocated. -/
def init : State T := ⟨fun _ => [], fun _ => none, fun _ => none, 0⟩

/-- One step of the specification. -/
inductive Step : State T → State T → Prop
  /-- A new entry joins the back of a queue. -/
  | enqueue (σ : State T) (q : String) :
      Step σ { σ with
        queue := Function.update σ.queue q (σ.queue q ++ [σ.next]), next := σ.next + 1 }
  /-- An entry that is not being sent leaves its queue unsent. -/
  | cancel (σ : State T) {q : String} {r : Nat} {l₁ l₂ : List Nat}
      (hq : σ.queue q = l₁ ++ r :: l₂) (hs : σ.sending q ≠ some r) :
      Step σ { σ with queue := Function.update σ.queue q (l₁ ++ l₂) }
  /-- The head of a queue with no send in progress starts being sent. -/
  | start (σ : State T) {q : String} {r : Nat} {rest : List Nat} (hq : σ.queue q = r :: rest)
      (hs : σ.sending q = none) :
      Step σ { σ with sending := Function.update σ.sending q (some r) }
  /-- A send fails: the entry stays at the head of its queue, to be sent again later. -/
  | pause (σ : State T) {q : String} {r : Nat} (hs : σ.sending q = some r) :
      Step σ { σ with sending := Function.update σ.sending q none }
  /-- A send settles: the entry leaves the head of its queue with its outcome. -/
  | settle (σ : State T) {q : String} {r : Nat} {rest : List Nat} (hq : σ.queue q = r :: rest)
      (hs : σ.sending q = some r) (o : Outcome T) :
      Step σ ⟨Function.update σ.queue q rest, Function.update σ.sending q none,
        Function.update σ.outcome r (some o), σ.next⟩

/-- The states the specification reaches. -/
def Reachable (σ : State T) : Prop := Relation.ReflTransGen Step init σ

/-- The invariant of the specification: each queue is in allocation order, its entry being
sent is its head, an entry is in one queue at most, and queued or unallocated entries have no
outcome. -/
structure Inv (σ : State T) : Prop where
  sending_head : ∀ q r, σ.sending q = some r → (σ.queue q).head? = some r
  sorted : ∀ q, (σ.queue q).Sorted (· < ·)
  lt_next : ∀ q, ∀ r ∈ σ.queue q, r < σ.next
  one_queue : ∀ q q' r, r ∈ σ.queue q → r ∈ σ.queue q' → q = q'
  open_of_queued : ∀ q, ∀ r ∈ σ.queue q, σ.outcome r = none
  open_of_fresh : ∀ r, σ.next ≤ r → σ.outcome r = none

/-- The entries of a queue after `enqueue` on `q`: those it had, and the new entry on `q`. -/
theorem mem_enqueue {σ : State T} {q q' : String} {r : Nat} :
    r ∈ Function.update σ.queue q (σ.queue q ++ [σ.next]) q' ↔
      r ∈ σ.queue q' ∨ q' = q ∧ r = σ.next := by
  by_cases hq : q' = q
  · subst hq
    simp
  · simp [Function.update_noteq hq, hq]

namespace Inv

variable {σ σ' : State T}

theorem init : Inv (init : State T) :=
  ⟨fun _ _ h => (nomatch h), fun _ => List.sorted_nil, fun _ _ h => (nomatch h),
    fun _ _ _ h => (nomatch h), fun _ _ h => (nomatch h), fun _ _ => rfl⟩

/-- A step that only takes entries out of queues, allocates nothing, changes the outcome of no
queued or unallocated entry, and sends only heads keeps the invariant. -/
theorem shrink (h : Inv σ) (hq : ∀ q, (σ'.queue q).Sublist (σ.queue q)) (hn : σ'.next = σ.next)
    (hs : ∀ q r, σ'.sending q = some r → (σ'.queue q).head? = some r)
    (ho : ∀ q, ∀ r ∈ σ'.queue q, σ'.outcome r = σ.outcome r)
    (hf : ∀ r, σ.next ≤ r → σ'.outcome r = σ.outcome r) : Inv σ' :=
  ⟨hs, fun q => (h.sorted q).sublist (hq q), fun q r hr => hn ▸ h.lt_next q r ((hq q).subset hr),
    fun q q' r h₁ h₂ => h.one_queue q q' r ((hq q).subset h₁) ((hq q').subset h₂),
    fun q r hr => (ho q r hr).trans (h.open_of_queued q r ((hq q).subset hr)),
    fun r hr => (hf r (hn ▸ hr)).trans (h.open_of_fresh r (hn ▸ hr))⟩

theorem enqueue (h : Inv σ) (q : String) :
    Inv { σ with
      queue := Function.update σ.queue q (σ.queue q ++ [σ.next]), next := σ.next + 1 } := by
  have hfresh : ∀ q', σ.next ∉ σ.queue q' := fun q' hm => Nat.lt_irrefl _ (h.lt_next q' _ hm)
  refine ⟨fun q' r hr => ?_, fun q' => ?_, fun q' r hr => ?_, fun q₁ q₂ r h₁ h₂ => ?_,
    fun q' r hr => ?_, fun r hr => h.open_of_fresh r (by dsimp only at hr; omega)⟩
  · have hh := h.sending_head q' r hr
    by_cases hq : q' = q
    · subst hq
      simp [List.head?_append, hh]
    · simpa [Function.update_noteq hq] using hh
  · by_cases hq : q' = q
    · subst hq
      simpa using List.pairwise_append.mpr ⟨h.sorted q', List.pairwise_singleton _ _,
        fun a ha b hb => (List.mem_singleton.mp hb) ▸ h.lt_next q' a ha⟩
    · simpa [Function.update_noteq hq] using h.sorted q'
  · rcases mem_enqueue.mp hr with hr | ⟨-, rfl⟩
    · exact Nat.lt_succ_of_lt (h.lt_next _ r hr)
    · exact Nat.lt_succ_self _
  · rcases mem_enqueue.mp h₁ with m₁ | ⟨rfl, rfl⟩ <;> rcases mem_enqueue.mp h₂ with m₂ | ⟨rfl, he⟩
    · exact h.one_queue _ _ r m₁ m₂
    · exact absurd (he ▸ m₁) (hfresh _)
    · exact absurd m₂ (hfresh _)
    · rfl
  · rcases mem_enqueue.mp hr with hr | ⟨-, rfl⟩
    · exact h.open_of_queued _ r hr
    · exact h.open_of_fresh _ le_rfl

theorem cancel (h : Inv σ) {q : String} {r : Nat} {l₁ l₂ : List Nat}
    (hq : σ.queue q = l₁ ++ r :: l₂) (hs : σ.sending q ≠ some r) :
    Inv { σ with queue := Function.update σ.queue q (l₁ ++ l₂) } := by
  refine h.shrink (fun q' => ?_) rfl (fun q' x hx => ?_) (fun _ _ _ => rfl) (fun _ _ => rfl)
  · simp only [Function.update_apply]
    split_ifs with hq'
    · subst hq'
      exact hq ▸ (List.sublist_cons_self r l₂).append_left l₁
    · exact .refl _
  · have hhead := h.sending_head q' x hx
    simp only [Function.update_apply]
    split_ifs with hq'
    · subst hq'
      rw [hq] at hhead
      cases l₁ with
      | nil => exact absurd (Option.some_inj.mp hhead ▸ hx) hs
      | cons y l₁ => simpa using hhead
    · exact hhead

theorem start (h : Inv σ) {q : String} {r : Nat} {rest : List Nat} (hq : σ.queue q = r :: rest) :
    Inv { σ with sending := Function.update σ.sending q (some r) } := by
  refine h.shrink (fun _ => .refl _) rfl (fun q' x hx => ?_) (fun _ _ _ => rfl) (fun _ _ => rfl)
  simp only [Function.update_apply] at hx
  split_ifs at hx with hq'
  · subst hq'
    simp [hq, Option.some_inj.mp hx]
  · exact h.sending_head q' x hx

theorem pause (h : Inv σ) (q : String) :
    Inv { σ with sending := Function.update σ.sending q none } := by
  refine h.shrink (fun _ => .refl _) rfl (fun q' x hx => ?_) (fun _ _ _ => rfl) (fun _ _ => rfl)
  simp only [Function.update_apply] at hx
  split_ifs at hx
  exact h.sending_head q' x hx

theorem settle (h : Inv σ) {q : String} {r : Nat} {rest : List Nat} (hq : σ.queue q = r :: rest)
    (o : Outcome T) :
    Inv ⟨Function.update σ.queue q rest, Function.update σ.sending q none,
      Function.update σ.outcome r (some o), σ.next⟩ := by
  have hr : r ∈ σ.queue q := hq ▸ List.mem_cons_self r rest
  have hnot : r ∉ rest := fun hm => Nat.lt_irrefl r (List.rel_of_sorted_cons (hq ▸ h.sorted q) r hm)
  refine h.shrink (fun q' => ?_) rfl (fun q' x hx => ?_) (fun q' x hx => ?_) (fun x hx => ?_)
  · simp only [Function.update_apply]
    split_ifs with hq'
    · subst hq'
      exact hq ▸ List.sublist_cons_self r rest
    · exact .refl _
  · simp only [Function.update_apply] at hx ⊢
    split_ifs at hx ⊢
    exact h.sending_head q' x hx
  · have hne : x ≠ r := by
      rintro rfl
      simp only [Function.update_apply] at hx
      split_ifs at hx with hq'
      · exact hnot hx
      · exact hq' (h.one_queue _ _ x hx hr)
    simp only [Function.update_apply, if_neg hne]
  · have hne : x ≠ r := fun he => Nat.not_lt.mpr hx (he ▸ h.lt_next q r hr)
    simp only [Function.update_apply, if_neg hne]

/-- Every step keeps the invariant. -/
theorem step (h : Inv σ) (hs : Step σ σ') : Inv σ' := by
  cases hs with
  | enqueue q => exact h.enqueue q
  | cancel hq hs => exact h.cancel hq hs
  | start hq _ => exact h.start hq
  | pause _ => exact h.pause _
  | settle hq _ o => exact h.settle hq o

end Inv

/-- Every state the specification reaches satisfies the invariant. -/
theorem Reachable.inv {σ : State T} (h : Reachable σ) : Inv σ := by
  induction h with
  | refl => exact Inv.init
  | tail _ hs ih => exact ih.step hs

/-- An outcome, once given, is never changed by any step. -/
theorem outcome_step {σ σ' : State T} (h : Inv σ) (hs : Step σ σ') {r : Nat} {o : Outcome T}
    (ho : σ.outcome r = some o) : σ'.outcome r = some o := by
  cases hs with
  | @settle q r' rest hq _ o' =>
      have hne : r ≠ r' := fun he => by
        rw [he, h.open_of_queued q r' (hq ▸ List.mem_cons_self r' rest)] at ho
        cases ho
      simpa only [Function.update_apply, if_neg hne] using ho
  | enqueue | cancel | start | pause => exact ho

/-- Settled once, settled for good: along every run of the specification from a reachable
state, the outcome of a settled entry stays what it was. -/
theorem outcome_final {σ σ' : State T} (h : Reachable σ) (hs : Relation.ReflTransGen Step σ σ')
    {r : Nat} {o : Outcome T} (ho : σ.outcome r = some o) : σ'.outcome r = some o := by
  induction hs with
  | refl => exact ho
  | tail hr hs ih => exact outcome_step (Reachable.inv (h.trans hr)) hs ih

end MatrixSdk.Scheduler.FifoSpec
