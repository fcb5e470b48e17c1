import FastDb.Raft.Steps

/-! # Terms and votes

A term falls only where a server yields to a request for a vote of a lower term
(`FastDb.Raft.Cluster.step_term_le_iff`), so without such requests terms only grow
(`FastDb.Raft.Cluster.term_mono`). A server that campaigns, or grants a request of a
higher term, then votes for the first time in the term, and two votes in one term
can only come from granting a request of its own term
(`FastDb.Raft.Cluster.one_vote`).
-/

namespace FastDb.Raft

open Foundation

namespace Server

/-- The request of the server's own term that it grants. -/
def joins (server : Server) : Input → Option VoteArgs
  | .call (.requestVote args) =>
      if !server.isStop && server.grants args && args.term = server.term then some args else none
  | _ => none

end Server

namespace Cluster

/-- The history holds a vote of a server in a term for another candidate. -/
def hasVotedOther (cluster : Cluster) (voter term candidate : Nat) : Bool :=
  cluster.trace.any fun
    | .vote id inTerm other => id = voter ∧ inTerm = term ∧ other ≠ candidate
    | _ => false

/-- A request of the server's own term is granted only where the server has voted for
no other candidate in the term. -/
def GrantsOne (cluster : Cluster) (id : Nat) (input : Input) : Prop :=
  ∀ args ∈ (cluster.servers id).joins input,
    cluster.hasVotedOther id args.term args.candidateId = false

instance (cluster : Cluster) (id : Nat) (input : Input) :
    Decidable (GrantsOne cluster id input) :=
  inferInstanceAs (Decidable (∀ args ∈ _, _))

/-- **Sound votes.** No server falls back to a lower term, and none votes for two
candidates in its own term. -/
def SoundVote (cluster : Cluster) (id : Nat) (input : Input) : Prop :=
  KeepsTerm cluster id input ∧ GrantsOne cluster id input

instance (cluster : Cluster) (id : Nat) (input : Input) :
    Decidable (SoundVote cluster id input) := inferInstanceAs (Decidable (_ ∧ _))

/-- Who has voted for no other has voted for the candidate. -/
theorem eq_of_hasVotedOther {cluster : Cluster} {voter term candidate other : Nat}
    (none : cluster.hasVotedOther voter term candidate = false)
    (voted : .vote voter term other ∈ cluster.trace) : candidate = other := by
  rw [hasVotedOther, List.any_eq_false] at none
  by_contra different
  exact none _ voted (by simp [Ne.symm different])

section Step

variable {size : Nat} {cluster after : Cluster} {event : Event} {id : Nat} {input : Input}
  {effect : Effect} {base : List Packet}

theorem Change.term_le (change : Change size cluster event after id input effect base)
    (keepsTerm : KeepsTerm cluster id input) (other : Nat) :
    (cluster.servers other).term ≤ (after.servers other).term := by
  by_cases same : other = id
  · rw [same, change.server_self]
    rcases change.turn.term_le with upwards | ⟨args, yields, sameTerm⟩
    · exact upwards
    · exact sameTerm ▸ keepsTerm args yields
  · rw [change.server_of_ne same]

/-- Where no term falls, votes stay votes of terms that their voters have entered. -/
theorem Change.voteTerm (change : Change size cluster event after id input effect base)
    (keepsTerm : KeepsTerm cluster id input) (ids : ∀ id, (cluster.servers id).id = id)
    (entered : ∀ voter term candidate, .vote voter term candidate ∈ cluster.trace →
      term ≤ (cluster.servers voter).term) {voter term candidate : Nat}
    (voted : .vote voter term candidate ∈ after.trace) : term ≤ (after.servers voter).term := by
  rcases change.mem_trace.mp voted with old | new
  · exact (entered voter term candidate old).trans (change.term_le keepsTerm voter)
  · obtain ⟨voterId, sameTerm, -⟩ := change.turn.vote_noted new
    rw [voterId, ids, change.server_self, sameTerm]

/-- The steps that lower no term are those of the condition. -/
theorem step_term_le_iff (stepped : cluster.step size event = some after) :
    (∀ id, (cluster.servers id).term ≤ (after.servers id).term) ↔
      Meets KeepsTerm cluster event := by
  constructor
  · rintro upwards ⟨id, input⟩ member args yields
    obtain ⟨other, given, handled⟩ := step_handled stepped
    obtain ⟨rfl, rfl⟩ := Prod.mk.inj (Option.some.inj (handled.given.symm.trans member))
    have higher := upwards other
    rw [handled.server_self] at higher
    cases given with
    | call call =>
        cases call with
        | requestVote request =>
            have same : request = args := by
              rw [Server.yields, Option.mem_def, Option.ite_none_right_eq_some] at yields
              exact Option.some.inj yields.2
            subst same
            exact higher.trans (Server.requestVote_term yields).le
        | replyVote | requestAppendEntries | replyAppendEntries =>
            exact absurd yields (Option.not_mem_none args)
    | timer | election | client | stop | reStart => exact absurd yields (Option.not_mem_none args)
  · intro meets
    obtain ⟨id, input, effect, base, change⟩ := step_change stepped
    exact change.term_le (meets (id, input) change.given)

end Step

/-- **Term monotonicity.** In every run in which no server yields to a request for a
vote of a lower term, the term of every server only grows. -/
theorem term_mono (size : Nat) {earlier later : Cluster}
    (run : (machine size).Reaches (Meets KeepsTerm) earlier later) (id : Nat) :
    (earlier.servers id).term ≤ (later.servers id).term := by
  apply run.invariant (fun cluster => (earlier.servers id).term ≤ (cluster.servers id).term)
  · exact le_rfl
  · intro before event after upwards meets stepped
    exact upwards.trans ((step_term_le_iff stepped).mpr meets id)

/-- Server 1 campaigns twice, and its second request reaches server 2 first. -/
def secondRequest : List Event :=
  List.replicate 6 (.update 1) ++ [.election 1, .election 1, .deliver 4]

/-- Server 2 enters term 2 and server 1 has entered it before. -/
theorem term_mono_secondRequest :
    ∃ cluster, (machine 3).execute (Meets KeepsTerm) secondRequest (initial 3) = some cluster ∧
      (cluster.servers 2).term = 2 ∧
      ∀ id, ((initial 3).servers id).term ≤ (cluster.servers id).term := by
  have ran : ((machine 3).execute (Meets KeepsTerm) secondRequest (initial 3)).map
      (fun cluster => (cluster.servers 2).term) = some 2 := by decide +kernel
  obtain ⟨cluster, reached, term⟩ := Option.map_eq_some_iff.mp ran
  exact ⟨cluster, reached, term, term_mono 3 (Machine.reaches_of_execute reached)⟩

/-- The first request of server 1 arrives after the second, and server 2 falls back. -/
theorem term_falls :
    ∃ earlier later, (machine 3).Reaches Machine.anyStep (initial 3) earlier ∧
      (machine 3).Reaches Machine.anyStep earlier later ∧
      (earlier.servers 2).term = 2 ∧ (later.servers 2).term = 1 := by
  have ran : ((machine 3).execute Machine.anyStep secondRequest (initial 3)).bind
      (fun earlier => ((machine 3).execute Machine.anyStep [.deliver 1] earlier).map fun later =>
        ((earlier.servers 2).term, (later.servers 2).term)) = some (2, 1) := by decide +kernel
  obtain ⟨earlier, first, more⟩ := Option.bind_eq_some_iff.mp ran
  obtain ⟨later, rest, terms⟩ := Option.map_eq_some_iff.mp more
  exact ⟨earlier, later, Machine.reaches_of_execute first, Machine.reaches_of_execute rest,
    congrArg Prod.fst terms, congrArg Prod.snd terms⟩

/-! ## One vote in a term -/

/-- Votes are cast up to the voter's term, for one candidate each. -/
structure Votes (cluster : Cluster) : Prop where
  ids : ∀ id, (cluster.servers id).id = id
  voteTerm : ∀ voter term candidate, .vote voter term candidate ∈ cluster.trace →
    term ≤ (cluster.servers voter).term
  once : ∀ voter term candidate other, .vote voter term candidate ∈ cluster.trace →
    .vote voter term other ∈ cluster.trace → candidate = other

theorem votes_initial (size : Nat) : Votes (initial size) where
  ids := ids_initial size
  voteTerm _ _ _ member := nomatch member
  once _ _ _ _ member := nomatch member

section Step

variable {size : Nat} {cluster after : Cluster} {event : Event} {id : Nat} {input : Input}
  {effect : Effect} {base : List Packet}

/-- A vote of a turn is the only one of the server in its term, but for a request of its
own term. -/
theorem Votes.noted_eq (votes : Votes cluster)
    (change : Change size cluster event after id input effect base)
    (sound : SoundVote cluster id input) {voter term candidate other : Nat}
    (noted : .vote voter term candidate ∈ effect.notes)
    (voted : .vote voter term other ∈ cluster.trace) : candidate = other := by
  obtain ⟨voterId, sameTerm, running, -, own | ⟨args, given, granted, rfl, rfl⟩⟩ :=
    change.turn.vote_noted noted
  · have low := votes.voteTerm voter term other voted
    rw [voterId, votes.ids] at low
    omega
  · rw [votes.ids] at voterId
    subst voterId
    have current := sound.1 args (by
      rw [given, Server.yields, running, granted]
      exact Option.mem_some_self _)
    have low := votes.voteTerm voter args.term other voted
    refine eq_of_hasVotedOther (sound.2 args ?_) voted
    have same : args.term = (cluster.servers voter).term := Nat.le_antisymm low current
    simp [given, Server.joins, running, granted, same]

/-- A step with a sound vote keeps the votes. -/
theorem Votes.of_change (votes : Votes cluster)
    (change : Change size cluster event after id input effect base)
    (sound : SoundVote cluster id input) : Votes after where
  ids := change.ids votes.ids
  voteTerm _ _ _ voted := change.voteTerm sound.1 votes.ids votes.voteTerm voted
  once voter term candidate other voted otherVoted := by
    rcases change.mem_trace.mp voted with old | new
    · rcases change.mem_trace.mp otherVoted with otherOld | otherNew
      · exact votes.once voter term candidate other old otherOld
      · exact (votes.noted_eq change sound otherNew old).symm
    · rcases change.mem_trace.mp otherVoted with otherOld | otherNew
      · exact votes.noted_eq change sound new otherOld
      · exact change.turn.vote_unique new otherNew

end Step

/-- **One vote per term.** In every run in which no server falls back to a lower term or
grants a request of its own term after voting for another candidate, all votes of a
server in a term go to one candidate. -/
theorem one_vote (size : Nat) {cluster : Cluster}
    (run : (machine size).Reaches (Meets SoundVote) (initial size) cluster)
    {voter term candidate other : Nat} (voted : .vote voter term candidate ∈ cluster.trace)
    (otherVoted : .vote voter term other ∈ cluster.trace) : candidate = other := by
  have votes : Votes cluster := by
    apply run.invariant Votes (votes_initial size)
    intro before event after votes meets stepped
    obtain ⟨id, input, effect, base, change⟩ := step_change stepped
    exact votes.of_change change (meets (id, input) change.given)
  exact votes.once voter term candidate other voted otherVoted

/-- Servers 1 and 2 campaign in term 1 and ask for votes. -/
def twoRequests : List Event :=
  List.replicate 6 (.update 1) ++ List.replicate 6 (.update 2) ++ [.election 1, .election 2]

/-- Server 3 votes for the candidate whose request comes first. -/
theorem one_vote_twoRequests :
    ∃ cluster, (machine 3).execute (Meets SoundVote) (twoRequests ++ [.deliver 2])
        (initial 3) = some cluster ∧ .vote 3 1 1 ∈ cluster.trace ∧
      ∀ other, .vote 3 1 other ∈ cluster.trace → other = 1 := by
  have ran : ((machine 3).execute (Meets SoundVote) (twoRequests ++ [.deliver 2])
      (initial 3)).map (fun cluster => decide (.vote 3 1 1 ∈ cluster.trace)) = some true := by
    decide +kernel
  obtain ⟨cluster, reached, voted⟩ := Option.map_eq_some_iff.mp ran
  exact ⟨cluster, reached, of_decide_eq_true voted, fun other otherVoted =>
    one_vote 3 (Machine.reaches_of_execute reached) otherVoted (of_decide_eq_true voted)⟩

/-- Server 3 votes for both candidates. -/
theorem two_votes :
    ∃ cluster, (machine 3).Reaches Machine.anyStep (initial 3) cluster ∧
      .vote 3 1 1 ∈ cluster.trace ∧ .vote 3 1 2 ∈ cluster.trace := by
  have ran : ((machine 3).execute Machine.anyStep (twoRequests ++ [.deliver 2, .deliver 4])
      (initial 3)).map (fun cluster =>
        decide (.vote 3 1 1 ∈ cluster.trace ∧ .vote 3 1 2 ∈ cluster.trace)) = some true := by
    decide +kernel
  obtain ⟨cluster, reached, voted⟩ := Option.map_eq_some_iff.mp ran
  exact ⟨cluster, Machine.reaches_of_execute reached, of_decide_eq_true voted⟩

end Cluster

end FastDb.Raft
