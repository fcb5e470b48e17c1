import FastDb.Raft.Elections
import FastDb.Raft.Terms

/-! # Genuine quorums

A leader needs more than half of the servers even where servers vote for several
candidates in a term: while terms only grow, a candidate campaigns once in a term, so
it asks every server for its vote once, and no server votes for it twice
(`FastDb.Raft.Cluster.Quorums`). What the candidate counts is then backed by distinct
servers (`FastDb.Raft.Cluster.genuine_quorum`).
-/

namespace FastDb.Raft

open Foundation

/-- Two requests to one server for its vote for one candidate in one term. -/
def Packet.Twin (left right : Packet) : Prop :=
  left.target = right.target ∧ ∃ args others, left.call = .requestVote args ∧
    right.call = .requestVote others ∧ args.term = others.term ∧
    args.candidateId = others.candidateId

theorem Packet.Twin.symm {left right : Packet} (twin : left.Twin right) : right.Twin left := by
  obtain ⟨target, args, others, first, second, term, candidate⟩ := twin
  exact ⟨target.symm, others, args, second, first, term.symm, candidate.symm⟩

/-- A turn asks a server for its vote once. -/
theorem Turn.sent_single {size : Nat} {server : Server} {input : Input} {effect : Effect}
    (turn : Turn size server input effect) :
    effect.sent.Pairwise fun left right => ¬ left.Twin right := by
  -- requests are sent in a campaign only
  have unasked : (∀ target args, ⟨target, .requestVote args⟩ ∉ effect.sent) →
      effect.sent.Pairwise fun left right => ¬ left.Twin right := by
    intro none
    apply List.pairwise_of_forall_mem_list
    rintro ⟨target, call⟩ member other - ⟨-, args, others, rfl, -⟩
    exact none target args member
  cases turn with
  | quiet quiet => exact unasked fun target args asks => quiet.inert.sent _ asks
  | stepDown _ down => exact unasked fun target args asks => down.inert.sent _ asks
  | campaign =>
      apply List.pairwise_map.mpr
      apply (List.nodup_range.filter _).imp
      rintro left right different ⟨same, -⟩
      exact different same
  | sync =>
      apply unasked
      intro target args asks
      obtain ⟨nextIndex, same⟩ := server.of_broadcast asks
      exact Call.noConfusion same
  | grant | confirm | push => exact List.pairwise_singleton _ _
  | count | lead | heartbeat | credit | addLog => exact List.Pairwise.nil

namespace Cluster

/-- **Sound counting.** No server falls back to a lower term, and a candidate counts the
votes of its own term and needs more than half. -/
def SoundCount (size : Nat) (cluster : Cluster) (id : Nat) (input : Input) : Prop :=
  KeepsTerm cluster id input ∧ CountsOwnTerm cluster id input ∧
    CountsNoHalf size cluster id input

instance (size : Nat) (cluster : Cluster) (id : Nat) (input : Input) :
    Decidable (SoundCount size cluster id input) := inferInstanceAs (Decidable (_ ∧ _))

/-- **Votes asked for once.** -/
structure Quorums (size : Nat) (cluster : Cluster) : Prop where
  tally : Tally size cluster
  voteTerm : ∀ voter term candidate, .vote voter term candidate ∈ cluster.trace →
    term ≤ (cluster.servers voter).term
  fresh : ∀ target args, ⟨target, .requestVote args⟩ ∈ cluster.net →
    .vote target args.term args.candidateId ∉ cluster.trace
  single : cluster.net.Pairwise fun left right => ¬ left.Twin right
  elected : ∀ leader term, .lead leader term ∈ cluster.trace →
    size < 2 * (cluster.supporters size leader term).card

theorem quorums_initial (size : Nat) : Quorums size (initial size) where
  tally := tally_initial size
  voteTerm _ _ _ member := nomatch member
  fresh _ _ member := nomatch member
  single := List.Pairwise.nil
  elected _ _ member := nomatch member

section Step

variable {size : Nat} {cluster after : Cluster} {event : Event} {id : Nat} {input : Input}
  {effect : Effect} {base : List Packet}

/-- Nobody has voted for a server in a term it has not entered. -/
theorem Quorums.unvoted_next (quorums : Quorums size cluster) (voter candidate : Nat) :
    .vote voter ((cluster.servers candidate).term + 1) candidate ∉ cluster.trace := by
  intro voted
  have low := quorums.voteTerm candidate _ _ (quorums.tally.own voter _ candidate voted)
  omega

/-- The requests that remain in flight when one is delivered are others. -/
theorem Quorums.not_twin (quorums : Quorums size cluster)
    (change : Change size cluster event after id input effect base) {call : Call}
    (given : input = .call call) {packet : Packet} (member : packet ∈ base) :
    ¬ Packet.Twin ⟨id, call⟩ packet := by
  obtain ⟨slot, found, rfl⟩ := change.taken call given
  obtain ⟨inside, found⟩ := List.getElem?_eq_some_iff.mp found
  have permuted := (List.getElem_cons_eraseIdx_perm inside).pairwise_iff
    (R := fun left right : Packet => ¬ left.Twin right) (fun apart twin => apart twin.symm)
  rw [found] at permuted
  exact (List.pairwise_cons.mp (permuted.mpr quorums.single)).1 packet member

/-- A turn casts no vote twice. -/
theorem Quorums.unvoted (quorums : Quorums size cluster)
    (change : Change size cluster event after id input effect base) {term candidate : Nat}
    (noted : .vote id term candidate ∈ effect.notes) :
    .vote id term candidate ∉ cluster.trace := by
  obtain ⟨-, -, -, -, ⟨rfl, rfl, -⟩ | ⟨args, given, -, rfl, rfl⟩⟩ := change.turn.vote_noted noted
  · rw [quorums.tally.ids]
    exact quorums.unvoted_next id id
  · exact quorums.fresh id args (change.flying given)

/-- What is still in flight has not been answered by a turn. -/
theorem Quorums.fresh_kept (quorums : Quorums size cluster)
    (change : Change size cluster event after id input effect base) {target : Nat}
    {args : VoteArgs} (member : ⟨target, .requestVote args⟩ ∈ base) :
    .vote target args.term args.candidateId ∉ after.trace := by
  have flying := change.kept.subset member
  intro voted
  rcases change.mem_trace.mp voted with old | new
  · exact quorums.fresh target args flying old
  · obtain ⟨rfl, -, -, -, ⟨next, own, -⟩ | ⟨others, given, -, term, candidate⟩⟩ :=
      change.turn.vote_noted new
    · have asked := quorums.tally.asked _ args flying
      rw [own, next, quorums.tally.ids] at asked
      exact quorums.unvoted_next id id asked
    · refine quorums.not_twin change given member ⟨?_, others, args, rfl, rfl, term, candidate⟩
      exact (quorums.tally.ids id).symm

/-- **One turn** of a step that counts soundly keeps the votes asked for once. -/
theorem Quorums.of_change (quorums : Quorums size cluster)
    (change : Change size cluster event after id input effect base)
    (sound : SoundCount size cluster id input) : Quorums size after where
  tally := quorums.tally.of_change change (fun _ _ => quorums.unvoted change) sound.2.1
  voteTerm _ _ _ voted := change.voteTerm sound.1 quorums.tally.ids quorums.voteTerm voted
  fresh target args member := by
    rw [change.net] at member
    rcases List.mem_append.mp member with old | new
    · exact quorums.fresh_kept change old
    · obtain ⟨foreign, candidate, next, -⟩ := change.turn.request_sent new
      rw [candidate, next, quorums.tally.ids]
      rw [quorums.tally.ids] at foreign
      intro voted
      rcases change.mem_trace.mp voted with old | noted
      · exact quorums.unvoted_next target id old
      · obtain ⟨voterId, -⟩ := change.turn.vote_noted noted
        exact foreign (voterId.trans (quorums.tally.ids id))
  single := by
    rw [change.net]
    refine List.pairwise_append.mpr
      ⟨quorums.single.sublist change.kept, change.turn.sent_single, ?_⟩
    rintro ⟨target, call⟩ old ⟨other, otherCall⟩ new ⟨-, args, others, rfl, rfl, term, candidate⟩
    obtain ⟨-, own, next, -⟩ := change.turn.request_sent new
    have asked := quorums.tally.asked target args (change.kept.subset old)
    rw [candidate, own, term, next, quorums.tally.ids] at asked
    exact quorums.unvoted_next id id asked
  elected leader term led := by
    rcases change.mem_trace.mp led with old | new
    · have half := quorums.elected leader term old
      have grows := change.supporters_mono leader term
      omega
    · obtain ⟨used, half, within⟩ := quorums.tally.elected change sound.2.1 sound.2.2 new
      omega

end Step

/-- **Genuine quorum.** In every run in which no server falls back to a lower term and
candidates count the votes of their own term, never exactly half of the servers, a
leader has been voted for in its term by itself and by more than half of the servers. -/
theorem genuine_quorum (size : Nat) {cluster : Cluster}
    (run : (machine size).Reaches (Meets (SoundCount size)) (initial size) cluster)
    {leader term : Nat} (led : .lead leader term ∈ cluster.trace) :
    leader ∈ cluster.supporters size leader term ∧
      size < 2 * (cluster.supporters size leader term).card := by
  have quorums : Quorums size cluster := by
    apply run.invariant (Quorums size) (quorums_initial size)
    intro before event after quorums meets stepped
    obtain ⟨id, input, effect, base, change⟩ := step_change stepped
    exact quorums.of_change change (meets (id, input) change.given)
  have half := quorums.elected leader term led
  obtain ⟨voter, supports⟩ := Finset.card_pos.mp (show
    0 < (cluster.supporters size leader term).card by omega)
  have own := quorums.tally.own voter term leader (Finset.mem_filter.mp supports).2
  refine ⟨Finset.mem_filter.mpr ⟨mem_members.mpr ?_, own⟩, half⟩
  exact quorums.tally.voters leader term leader own

/-- Of three servers two have voted for the leader of term 1, one of them itself. -/
theorem genuine_quorum_oneLeader :
    ∃ cluster, (machine 3).execute (Meets (SoundCount 3)) oneLeader (initial 3) = some cluster ∧
      .lead 1 1 ∈ cluster.trace ∧ 1 ∈ cluster.supporters 3 1 1 ∧
      3 < 2 * (cluster.supporters 3 1 1).card := by
  have ran : ((machine 3).execute (Meets (SoundCount 3)) oneLeader (initial 3)).map
      (fun cluster => decide (.lead 1 1 ∈ cluster.trace)) = some true := by decide +kernel
  obtain ⟨cluster, reached, led⟩ := Option.map_eq_some_iff.mp ran
  exact ⟨cluster, reached, of_decide_eq_true led,
    genuine_quorum 3 (Machine.reaches_of_execute reached) (of_decide_eq_true led)⟩

/-- Of four servers, server 1 campaigns and server 2 votes for it. -/
def halfVotes : List Event :=
  List.replicate 6 (.update 1) ++ [.election 1, .deliver 1, .deliver 3]

/-- Two votes of four make a leader. -/
theorem half_leads :
    ∃ cluster, (machine 4).Reaches Machine.anyStep (initial 4) cluster ∧
      .lead 1 1 ∈ cluster.trace ∧ ¬ 4 < 2 * (cluster.supporters 4 1 1).card := by
  have ran : ((machine 4).execute Machine.anyStep halfVotes (initial 4)).map (fun cluster =>
      decide (.lead 1 1 ∈ cluster.trace ∧ ¬ 4 < 2 * (cluster.supporters 4 1 1).card)) =
      some true := by decide +kernel
  obtain ⟨cluster, reached, led⟩ := Option.map_eq_some_iff.mp ran
  exact ⟨cluster, Machine.reaches_of_execute reached, of_decide_eq_true led⟩

end Cluster

end FastDb.Raft
