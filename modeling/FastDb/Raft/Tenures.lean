import FastDb.Raft.Elections

/-! # Tenures

A tenure of a server begins with a step that calls `ToLeader` and lasts while every step
leaves the server a leader. Calls of all kinds are delivered to a leader; those that
rewrite a log or change a term make it a follower, so what is left of a turn within a
tenure appends entries of the leader's own term (`FastDb.Raft.Turn.grows`), and so does
a run of such turns (`FastDb.Raft.Cluster.leader_append_only`). Every leader of every run
is within such a tenure (`FastDb.Raft.Cluster.tenure_of_leader`).
-/

namespace FastDb.Raft

open Foundation

namespace Server

/-- The same term, and a log that is longer by entries of that term at its end. -/
structure Grows (server next : Server) : Prop where
  term : next.term = server.term
  logVec : ∃ entries, next.logVec = server.logVec ++ entries ∧
    ∀ entry ∈ entries, entry.term = server.term

namespace Grows

variable {server next : Server}

theorem of_same (term : next.term = server.term) (logVec : next.logVec = server.logVec) :
    server.Grows next where
  term := term
  logVec := ⟨[], logVec.trans (List.append_nil _).symm, fun _ member => nomatch member⟩

theorem refl (server : Server) : server.Grows server := of_same rfl rfl

/-- One entry of the server's term goes at the end. -/
theorem push {entry : Log} (term : next.term = server.term)
    (pushed : next.logVec = server.logVec ++ [entry]) (own : entry.term = server.term) :
    server.Grows next where
  term := term
  logVec := by
    refine ⟨[entry], pushed, fun other member => ?_⟩
    rw [List.mem_singleton.mp member]
    exact own

theorem trans {last : Server} (first : server.Grows next) (second : next.Grows last) :
    server.Grows last where
  term := second.term.trans first.term
  logVec := by
    obtain ⟨entries, grown, own⟩ := first.logVec
    obtain ⟨others, further, ofNext⟩ := second.logVec
    refine ⟨entries ++ others, ?_, fun entry member => ?_⟩
    · rw [further, grown, List.append_assoc]
    · rcases List.mem_append.mp member with old | new
      · exact own entry old
      · exact (ofNext entry new).trans first.term

end Grows

end Server

section Turns

variable {size : Nat} {server : Server} {input : Input} {effect : Effect}

/-- **One turn** that leaves a leader a leader appends entries of its term. -/
theorem Turn.grows (turn : Turn size server input effect) (leader : server.state = .leader)
    (leads : effect.server.state = .leader) : server.Grows effect.server := by
  cases turn with
  | quiet quiet => exact .of_same quiet.term quiet.logVec
  | stepDown _ down => exact absurd leads down.state_ne
  | campaign campaigns => exact absurd leads (Server.campaign_state_ne campaigns)
  | grant => exact State.noConfusion leads
  | count _ _ candidate => exact State.noConfusion (candidate.symm.trans leader)
  | lead _ _ candidate => exact State.noConfusion (candidate.symm.trans leader)
  | sync =>
      obtain ⟨index, committed⟩ := server.commit_eq
      rw [committed]
      exact .of_same rfl rfl
  -- what a synchronisation rewrites is the log of a follower
  | heartbeat args => exact absurd leads (server.heartbeat_follows args).state_ne
  | confirm args => exact absurd leads (server.follow_follows args).state_ne
  | push args => exact absurd leads (server.push_follows args).state_ne
  | credit => exact .of_same rfl rfl
  | addLog content => exact .push rfl rfl rfl

/-- Nothing but a call of `ToLeader` makes a leader. -/
theorem Turn.elected (turn : Turn size server input effect) (before : server.state ≠ .leader)
    (leads : effect.server.state = .leader) : effect.notes = [.lead server.id server.term] := by
  cases turn with
  | quiet quiet =>
      rcases quiet.state with same | ⟨-, candidate⟩
      · exact absurd (same.symm.trans leads) before
      · exact State.noConfusion (candidate.symm.trans leads)
  | stepDown _ down => exact absurd leads down.state_ne
  | grant => exact State.noConfusion leads
  | lead => rfl
  | sync _ leader => exact absurd leader before
  | heartbeat args => exact absurd leads (server.heartbeat_follows args).state_ne
  | confirm args => exact absurd leads (server.follow_follows args).state_ne
  | push args => exact absurd leads (server.push_follows args).state_ne
  | campaign | count | credit | addLog => exact absurd leads before

end Turns

namespace Cluster

/-- The step leaves the server a leader. -/
def StaysLeader (size id : Nat) (cluster : Cluster) (event : Event) : Prop :=
  ∀ after ∈ cluster.step size event, (after.servers id).state = .leader

instance (size id : Nat) (cluster : Cluster) (event : Event) :
    Decidable (StaysLeader size id cluster event) :=
  inferInstanceAs (Decidable (∀ after ∈ cluster.step size event, _))

/-- A step in which the server calls `ToLeader`. -/
structure CallsToLeader (size id : Nat) (before : Cluster) (event : Event) (first : Cluster) :
    Prop where
  stepped : before.step size event = some first
  noted : ∃ term, first.trace = before.trace ++ [.lead id term]

/-- More of a tenure: every step leaves the server a leader. -/
def Tenure (size id : Nat) : Cluster → Cluster → Prop :=
  (machine size).Reaches (StaysLeader size id)

section Tenures

variable {size id : Nat} {before first earlier later : Cluster} {event : Event}

theorem ids_of_reaches (run : (machine size).Reaches Machine.anyStep (initial size) before)
    (other : Nat) : (before.servers other).id = other := by
  have ids : ∀ other, (before.servers other).id = other := by
    apply run.invariant (fun cluster => ∀ other, (cluster.servers other).id = other)
    · exact ids_initial size
    · intro before event after ids _ stepped
      obtain ⟨id, input, effect, base, change⟩ := step_change stepped
      exact change.ids ids
  exact ids other

/-- **One step** of a tenure. -/
theorem grows_of_step (stepped : earlier.step size event = some later)
    (leader : (earlier.servers id).state = .leader) (leads : (later.servers id).state = .leader) :
    (earlier.servers id).Grows (later.servers id) := by
  obtain ⟨other, input, effect, base, change⟩ := step_change stepped
  by_cases same : id = other
  · subst same
    rw [change.server_self] at leads ⊢
    exact change.turn.grows leader leads
  · rw [change.server_of_ne same]
    exact .refl _

/-- The tenure begins with an entry of the leader's own. -/
theorem CallsToLeader.grows
    (run : (machine size).Reaches Machine.anyStep (initial size) before)
    (calls : CallsToLeader size id before event first) :
    (first.servers id).state = .leader ∧ (before.servers id).Grows (first.servers id) := by
  obtain ⟨stepped, term, noted⟩ := calls
  obtain ⟨other, input, effect, base, change⟩ := step_change stepped
  have notes : .lead id term ∈ effect.notes := by
    rw [List.append_cancel_left (change.trace.symm.trans noted)]
    exact List.mem_singleton_self _
  obtain ⟨leaderId, -, leads, sameTerm, pushed, -⟩ := change.turn.lead_noted notes
  rw [ids_of_reaches run] at leaderId
  subst leaderId
  rw [change.server_self]
  exact ⟨leads, .push sameTerm pushed rfl⟩

/-- In a tenure the leader's log only grows. -/
theorem Tenure.grows (tenure : Tenure size id earlier later)
    (leader : (earlier.servers id).state = .leader) :
    (later.servers id).state = .leader ∧ (earlier.servers id).Grows (later.servers id) := by
  apply Machine.Reaches.invariant tenure (fun cluster =>
    (cluster.servers id).state = .leader ∧ (earlier.servers id).Grows (cluster.servers id))
  · exact ⟨leader, .refl _⟩
  · intro before event after upwards stays stepped
    have leads := stays after stepped
    exact ⟨leads, upwards.2.trans (grows_of_step stepped upwards.1 leads)⟩

end Tenures

/-- **Leader append-only.** From a call of `ToLeader` on, and as long as no step makes the
state of the server other than leader, the server keeps its term, and its log grows by
entries of that term at its end, beginning with what it held before the call. -/
theorem leader_append_only (size : Nat) {id : Nat} {before first earlier later : Cluster}
    {event : Event} (run : (machine size).Reaches Machine.anyStep (initial size) before)
    (calls : CallsToLeader size id before event first) (tenure : Tenure size id first earlier)
    (further : Tenure size id earlier later) :
    (earlier.servers id).state = .leader ∧ (before.servers id).Grows (earlier.servers id) ∧
      (earlier.servers id).Grows (later.servers id) := by
  obtain ⟨leader, begun⟩ := calls.grows run
  obtain ⟨leads, grown⟩ := tenure.grows leader
  exact ⟨leads, begun.trans grown, (further.grows leads).2⟩

/-- The leader takes an entry from a client, is stopped and restarted, passes over a vote
that comes late and takes another entry. -/
theorem leader_append_only_oneLeader :
    ∃ before first earlier later,
      (machine 3).execute Machine.anyStep oneLeader.dropLast (initial 3) = some before ∧
      CallsToLeader 3 1 before (.deliver 2) first ∧
      (machine 3).execute (StaysLeader 3 1) [.addLog 1 "x", .deliver 1, .stop 1] first =
        some earlier ∧
      (machine 3).execute (StaysLeader 3 1) [.reStart 1, .deliver 1, .addLog 1 "y"] earlier =
        some later ∧
      (later.servers 1).logVec.length = 4 ∧ (earlier.servers 1).Grows (later.servers 1) := by
  have ran : ((machine 3).execute Machine.anyStep oneLeader.dropLast (initial 3)).bind
      (fun before => (before.step 3 (.deliver 2)).bind fun first =>
        ((machine 3).execute (StaysLeader 3 1) [.addLog 1 "x", .deliver 1, .stop 1] first).bind
          fun earlier => ((machine 3).execute (StaysLeader 3 1)
            [.reStart 1, .deliver 1, .addLog 1 "y"] earlier).map fun later =>
              decide (first.trace = before.trace ++ [.lead 1 1] ∧
                (later.servers 1).logVec.length = 4)) = some true := by decide +kernel
  obtain ⟨before, reached, ran⟩ := Option.bind_eq_some_iff.mp ran
  obtain ⟨first, stepped, ran⟩ := Option.bind_eq_some_iff.mp ran
  obtain ⟨earlier, held, ran⟩ := Option.bind_eq_some_iff.mp ran
  obtain ⟨later, further, ends⟩ := Option.map_eq_some_iff.mp ran
  obtain ⟨noted, length⟩ := of_decide_eq_true ends
  have calls : CallsToLeader 3 1 before (.deliver 2) first := ⟨stepped, 1, noted⟩
  refine ⟨before, first, earlier, later, reached, calls, held, further, length, ?_⟩
  exact (leader_append_only 3 (Machine.reaches_of_execute reached) calls
    (Machine.reaches_of_execute held) (Machine.reaches_of_execute further)).2.2

/-- **Every leader** of every run is within a tenure. -/
theorem tenure_of_leader (size : Nat) {id : Nat} {cluster : Cluster}
    (run : (machine size).Reaches Machine.anyStep (initial size) cluster)
    (leader : (cluster.servers id).state = .leader) :
    ∃ before event first, (machine size).Reaches Machine.anyStep (initial size) before ∧
      CallsToLeader size id before event first ∧ Tenure size id first cluster := by
  induction run with
  | refl =>
      simp only [initial] at leader
      split at leader <;> exact State.noConfusion leader
  | @tail before after run move ih =>
      obtain ⟨event, -, stepped⟩ := move
      by_cases led : (before.servers id).state = .leader
      · obtain ⟨origin, call, first, reached, calls, tenure⟩ := ih led
        refine ⟨origin, call, first, reached, calls, tenure.tail ⟨event, ?_, stepped⟩⟩
        intro other moves
        rwa [← Option.some.inj (stepped.symm.trans moves)]
      · obtain ⟨other, input, effect, base, change⟩ := step_change stepped
        by_cases same : id = other
        · subst same
          rw [change.server_self] at leader
          have noted : after.trace = before.trace ++ [.lead id (before.servers id).term] := by
            rw [change.trace, change.turn.elected led leader, ids_of_reaches run]
          exact ⟨before, event, after, run, ⟨stepped, _, noted⟩, Machine.Reaches.refl after⟩
        · rw [change.server_of_ne same] at leader
          exact absurd leader led

end Cluster

end FastDb.Raft
