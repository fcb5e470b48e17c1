import FastDb.Foundation.Machine

/-! # Noninterference

An observer sees some events of a machine, with what it can tell of them when they are
issued, and what they leave behind as their result. A run has a log of what is seen of it
(`Foundation.Machine.Logged`), and an invariant of runs can speak of the log as well as of
the state (`Foundation.Machine.Logged.invariant`). Where states that agree for the observer
stay so under events it does not see, and answer what it issues alike, two runs in which it
issues the same are the same to it (`Foundation.Machine.Unwinding.log_eq`).
-/

namespace Foundation.Machine

variable {σ ε ι ο : Type*}

/-- What is seen of an event in a state, if it is seen, and of its result afterwards. -/
structure Observer (σ ε ι ο : Type*) where
  issue : σ → ε → Option ι
  result : σ → ο

variable (machine : Machine σ ε) (allowed : σ → ε → Prop) (observer : Observer σ ε ι ο)

/-- A run all of whose steps meet the condition, with what is seen of it. -/
inductive Logged : σ → List (ι × ο) → σ → Prop
  | done (state : σ) : Logged state [] state
  | hidden {first second last : σ} {event : ε} {log : List (ι × ο)}
      (meets : allowed first event) (unseen : observer.issue first event = none)
      (stepped : machine.step first event = some second) (rest : Logged second log last) :
      Logged first log last
  | shown {first second last : σ} {event : ε} {issued : ι} {log : List (ι × ο)}
      (meets : allowed first event) (seen : observer.issue first event = some issued)
      (stepped : machine.step first event = some second) (rest : Logged second log last) :
      Logged first ((issued, observer.result second) :: log) last

/-- **Unwinding.** What is not seen leaves states in agreement, and what is seen is answered
alike in states that agree. -/
structure Unwinding (agree : σ → σ → Prop) : Prop where
  symm : ∀ left right, agree left right → agree right left
  hidden : ∀ left right event next, agree left right → allowed left event →
    observer.issue left event = none → machine.step left event = some next → agree next right
  shown : ∀ left right event other issued next otherNext, agree left right →
    allowed left event → allowed right other → observer.issue left event = some issued →
    observer.issue right other = some issued → machine.step left event = some next →
    machine.step right other = some otherNext →
    observer.result next = observer.result otherNext ∧ agree next otherNext

variable {machine allowed observer} {agree : σ → σ → Prop}

/-- A logged run is a run. -/
theorem Logged.reaches {first last : σ} {log : List (ι × ο)}
    (logged : machine.Logged allowed observer first log last) :
    machine.Reaches allowed first last := by
  induction logged with
  | done state => exact Reaches.refl state
  | hidden meets _ stepped _ ih => exact Reaches.head meets stepped ih
  | shown meets _ stepped _ ih => exact Reaches.head meets stepped ih

/-- **Histories.** What holds at first, with nothing seen, and is kept by every step together
with what is seen of it, holds of the last state and the log. -/
theorem Logged.invariant {first last : σ} {log : List (ι × ο)}
    (logged : machine.Logged allowed observer first log last) (holds : σ → List ι → Prop)
    (initially : holds first [])
    (kept : ∀ before event after past, holds before past → allowed before event →
      machine.step before event = some after →
      holds after (past ++ (observer.issue before event).toList)) :
    holds last (log.map Prod.fst) := by
  suffices from_past : ∀ past, holds first past → holds last (past ++ log.map Prod.fst) from
    from_past [] initially
  clear initially
  induction logged with
  | done state =>
      intro past held
      rwa [List.map_nil, List.append_nil]
  | hidden meets unseen stepped _ ih =>
      intro past held
      have next := kept _ _ _ past held meets stepped
      rw [unseen, Option.toList_none, List.append_nil] at next
      exact ih past next
  | shown meets seen stepped _ ih =>
      intro past held
      have next := ih _ (kept _ _ _ past held meets stepped)
      rwa [seen, Option.toList_some, List.append_assoc] at next

/-- Every run has a log. -/
theorem Reaches.exists_logged {first last : σ} (run : machine.Reaches allowed first last)
    (observer : Observer σ ε ι ο) : ∃ log, machine.Logged allowed observer first log last := by
  induction run using Relation.ReflTransGen.head_induction_on with
  | refl => exact ⟨[], Logged.done last⟩
  | head move _ ih =>
      obtain ⟨event, meets, stepped⟩ := move
      obtain ⟨log, rest⟩ := ih
      cases issue : observer.issue _ event with
      | none => exact ⟨log, Logged.hidden meets issue stepped rest⟩
      | some issued => exact ⟨_, Logged.shown meets issue stepped rest⟩

/-- Up to the first event seen, a run stays in agreement with a state. -/
theorem Unwinding.next_shown (unwinding : Unwinding machine allowed observer agree)
    {state first last : σ} {issued : ι} {result : ο} {log : List (ι × ο)}
    (agrees : agree state first)
    (logged : machine.Logged allowed observer first ((issued, result) :: log) last) :
    ∃ before event after, agree state before ∧ allowed before event ∧
      observer.issue before event = some issued ∧ machine.step before event = some after ∧
      observer.result after = result ∧ machine.Logged allowed observer after log last := by
  generalize whole : (issued, result) :: log = seen at logged
  induction logged with
  | done => cases whole
  | hidden meets unseen stepped _ ih =>
      have still := unwinding.hidden _ _ _ _ (unwinding.symm _ _ agrees) meets unseen stepped
      exact ih (unwinding.symm _ _ still) whole
  | shown meets seen stepped rest _ =>
      obtain ⟨same, rfl⟩ := List.cons.inj whole
      obtain ⟨rfl, rfl⟩ := Prod.mk.inj same
      exact ⟨_, _, _, agrees, meets, seen, stepped, rfl, rest⟩

/-- **Noninterference.** Two runs from states that agree, in which the observer issues the
same, are the same to it. -/
theorem Unwinding.log_eq (unwinding : Unwinding machine allowed observer agree)
    {left right leftLast rightLast : σ} {log otherLog : List (ι × ο)} (agrees : agree left right)
    (logged : machine.Logged allowed observer left log leftLast)
    (otherLogged : machine.Logged allowed observer right otherLog rightLast)
    (same : log.map Prod.fst = otherLog.map Prod.fst) : log = otherLog := by
  induction logged generalizing right otherLog with
  | done => exact (List.map_eq_nil_iff.mp same.symm).symm
  | hidden meets unseen stepped _ ih =>
      exact ih (unwinding.hidden _ _ _ _ agrees meets unseen stepped) otherLogged same
  | shown meets seen stepped _ ih =>
      obtain ⟨⟨issued, result⟩, others, rfl, first, rest⟩ := List.map_eq_cons_iff.mp same.symm
      dsimp only at first
      subst first
      obtain ⟨before, event, after, still, otherMeets, otherSeen, otherStepped, rfl, remaining⟩ :=
        unwinding.next_shown agrees otherLogged
      obtain ⟨sameResult, next⟩ :=
        unwinding.shown _ _ _ _ _ _ _ still meets otherMeets seen otherSeen stepped otherStepped
      rw [sameResult, ih next remaining rest.symm]

end Foundation.Machine
