import MatrixSdk.Scheduler.Types
import Mathlib.Algebra.Group.Int

/-! The default retry and queuing algorithms of the constructor, and the back-off schedule
they give. -/

namespace MatrixSdk.Scheduler

/-- `EventType.RoomMessage`. -/
def roomMessage : String := "m.room.message"

/-- `MatrixScheduler.QUEUE_MESSAGES`: messages, and events associated with another event, go
to the `"message"` queue; every other event is sent at once. -/
def queueMessages (event : MatrixEvent) : Option String :=
  if event.type = roomMessage ∨ event.hasAssocation = true then some "message" else none

/-- The tail of `RETRY_BACKOFF_RATELIMIT`: give up after the fourth retry, else wait
`1000 * 2 ^ attempts` milliseconds. -/
def backoff (attempts : Nat) : Int :=
  if attempts > 4 then -1 else 1000 * 2 ^ attempts

/-- `MatrixScheduler.RETRY_BACKOFF_RATELIMIT`. Reading a field of a `null` error, or
`err.data.retry_after_ms` without `data`, throws. -/
def retryBackoffRatelimit (_event : MatrixEvent) (attempts : Nat) :
    Option MatrixError → Option Int
  | none => none
  | some err =>
    if err.httpStatus = some 400 ∨ err.httpStatus = some 403 ∨ err.httpStatus = some 401 then
      some (-1)
    else if err.cors = some "rejected" then some (-1)
    else if err.name = some "M_TOO_LARGE" then some (-1)
    else if err.name = some "M_LIMIT_EXCEEDED" then
      match err.data with
      | none => none
      | some data =>
        match data.retry_after_ms with
        | some waitTime => if waitTime > 0 then some waitTime else some (backoff attempts)
        | none => some (backoff attempts)
    else some (backoff attempts)

/-- The constructor's defaults. -/
def defaultAlgorithms : Algorithms := ⟨retryBackoffRatelimit, queueMessages⟩

/-- An error `RETRY_BACKOFF_RATELIMIT` gives up on at once: a client error status, a
rejected CORS request, or an event too large. -/
def GivesUpAtOnce (err : MatrixError) : Prop :=
  err.httpStatus = some 400 ∨ err.httpStatus = some 401 ∨ err.httpStatus = some 403 ∨
    err.cors = some "rejected" ∨ err.name = some "M_TOO_LARGE"

instance (err : MatrixError) : Decidable (GivesUpAtOnce err) :=
  inferInstanceAs (Decidable (_ ∨ _))

/-- `M_LIMIT_EXCEEDED` with a positive `data.retry_after_ms`: the server names the wait. -/
def AsksToWait : Option MatrixError → Prop
  | some err => err.name = some "M_LIMIT_EXCEEDED" ∧
      ∃ data, err.data = some data ∧ ∃ w, data.retry_after_ms = some w ∧ 0 < w
  | none => False

instance : (err : Option MatrixError) → Decidable (AsksToWait err)
  | none => isFalse id
  | some ⟨_, _, name, data⟩ =>
    match data with
    | none => isFalse (by simp [AsksToWait])
    | some ⟨none⟩ => isFalse (by simp [AsksToWait])
    | some ⟨some w⟩ => decidable_of_iff (name = some "M_LIMIT_EXCEEDED" ∧ 0 < w)
        (by simp [AsksToWait])

theorem backoff_of_le {attempts : Nat} (h : attempts ≤ 4) : backoff attempts = 1000 * 2 ^ attempts :=
  if_neg (by omega)

theorem backoff_of_gt {attempts : Nat} (h : 4 < attempts) : backoff attempts = -1 := if_pos h

theorem retryBackoffRatelimit_of_givesUpAtOnce (event : MatrixEvent) (attempts : Nat)
    {err : MatrixError} (h : GivesUpAtOnce err) :
    retryBackoffRatelimit event attempts (some err) = some (-1) := by
  unfold GivesUpAtOnce at h
  simp only [retryBackoffRatelimit]
  by_cases h1 : err.httpStatus = some 400 ∨ err.httpStatus = some 403 ∨ err.httpStatus = some 401
  · rw [if_pos h1]
  · rw [if_neg h1]
    by_cases h2 : err.cors = some "rejected"
    · rw [if_pos h2]
    · rw [if_neg h2, if_pos (by tauto)]

/-- Unless the server names a wait, `RETRY_BACKOFF_RATELIMIT` either gives up, throws, or
answers the back-off for the attempt. -/
theorem retryBackoffRatelimit_eq_backoff (event : MatrixEvent) (attempts : Nat)
    {err : Option MatrixError} (h : ¬ AsksToWait err) {w : Int}
    (hw : retryBackoffRatelimit event attempts err = some w) : w = -1 ∨ w = backoff attempts := by
  rcases err with _ | err
  · cases hw
  simp only [retryBackoffRatelimit] at hw
  split at hw
  · exact .inl (Option.some_inj.mp hw).symm
  split at hw
  · exact .inl (Option.some_inj.mp hw).symm
  split at hw
  · exact .inl (Option.some_inj.mp hw).symm
  split at hw
  · -- rate limited: the wait the server names if it is positive, else the back-off
    rename_i hlim
    split at hw
    · cases hw
    · rename_i data hdata
      split at hw
      · rename_i waitTime hwait
        split at hw
        · exact absurd ⟨hlim, data, hdata, waitTime, hwait, by assumption⟩ h
        · exact .inr (Option.some_inj.mp hw).symm
      · exact .inr (Option.some_inj.mp hw).symm
  · exact .inr (Option.some_inj.mp hw).symm

/-- The retries `RETRY_BACKOFF_RATELIMIT` allows, unless the server names a wait: attempts
one to four, after `1000 * 2 ^ attempts` milliseconds. -/
theorem retryBackoffRatelimit_retries (event : MatrixEvent) (attempts : Nat)
    {err : Option MatrixError} (h : ¬ AsksToWait err) {w : Int}
    (hw : retryBackoffRatelimit event attempts err = some w) (hw1 : w ≠ -1) :
    attempts ≤ 4 ∧ w = 1000 * 2 ^ attempts := by
  rcases retryBackoffRatelimit_eq_backoff event attempts h hw with rfl | rfl
  · exact absurd rfl hw1
  · by_cases ha : attempts ≤ 4
    · exact ⟨ha, backoff_of_le ha⟩
    · exact absurd (backoff_of_gt (by omega)) hw1

/-- An error `RETRY_BACKOFF_RATELIMIT` neither gives up on at once, nor throws on, nor reads a
wait from: its answer is the back-off for the attempt. -/
theorem retryBackoffRatelimit_of_retryable (event : MatrixEvent) (attempts : Nat)
    {err : MatrixError} (hg : ¬ GivesUpAtOnce err) (hw : ¬ AsksToWait (some err))
    (hd : err.name = some "M_LIMIT_EXCEEDED" → err.data ≠ none) :
    retryBackoffRatelimit event attempts (some err) = some (backoff attempts) := by
  simp only [GivesUpAtOnce, not_or] at hg
  obtain ⟨h400, h401, h403, hcors, hlarge⟩ := hg
  simp only [retryBackoffRatelimit, h400, h401, h403, hcors, hlarge, or_self, if_false]
  split
  · rename_i hlim
    split
    · rename_i hdata; exact absurd hdata (hd hlim)
    · rename_i data hdata
      split
      · rename_i waitTime hwait
        exact if_neg fun hpos => hw ⟨hlim, data, hdata, waitTime, hwait, hpos⟩
      · rfl
  · rfl

example : (List.range 6).map backoff = [1000, 2000, 4000, 8000, 16000, -1] := by decide

/-- A 500 from the server: `RETRY_BACKOFF_RATELIMIT` backs off and retries. -/
def serverError : MatrixError := ⟨some 500, none, none, none⟩

/-- A 403 from the server: `RETRY_BACKOFF_RATELIMIT` gives up at once. -/
def forbidden : MatrixError := ⟨some 403, none, none, none⟩

end MatrixSdk.Scheduler
