import FastDb.Foundation.Quorum
import FastDb.Raft.Tally

/-! # Elections

While every server votes at most once in a term, and a candidate counts replies of
its own term only and needs more than half of the servers, a term has at most one
leader (`FastDb.Raft.Cluster.election_safety`). The invariant accounts for votes
(`FastDb.Raft.Cluster.Elections`): of an elected leader a majority of its support is
used up, and since spare support never shrinks it stays used up.
-/

namespace FastDb.Raft

open Foundation

namespace Cluster

/-- **Accounting of votes.** -/
structure Elections (size : Nat) (cluster : Cluster) : Prop where
  running : ∀ id, (cluster.servers id).isStop = false → Started size id
  ids : ∀ id, (cluster.servers id).id = id
  counting : ∀ id, 0 < (cluster.servers id).voteCount → (cluster.servers id).state = .candidate
  voters : ∀ voter term candidate, .vote voter term candidate ∈ cluster.trace →
    Started size voter
  positive : ∀ voter term candidate, .vote voter term candidate ∈ cluster.trace → 1 ≤ term
  once : ∀ voter term candidate other, .vote voter term candidate ∈ cluster.trace →
    .vote voter term other ∈ cluster.trace → candidate = other
  own : ∀ voter term candidate, .vote voter term candidate ∈ cluster.trace →
    .vote candidate term candidate ∈ cluster.trace
  asked : ∀ target args, ⟨target, .requestVote args⟩ ∈ cluster.net →
    .vote args.candidateId args.term args.candidateId ∈ cluster.trace
  backed : ∀ candidate term, cluster.counted candidate term + cluster.inFlight candidate term ≤
    (cluster.supporters size candidate term).card
  elected : ∀ candidate term, .lead candidate term ∈ cluster.trace → ∃ used, size < 2 * used ∧
    used + (cluster.counted candidate term + cluster.inFlight candidate term) ≤
      (cluster.supporters size candidate term).card

/-- Who has not voted has noted no vote. -/
theorem hasVoted_eq_false {cluster : Cluster} {voter term : Nat} :
    cluster.hasVoted voter term = false ↔
      ∀ candidate, .vote voter term candidate ∉ cluster.trace := by
  rw [hasVoted, List.any_eq_false]
  constructor
  · intro absent candidate member
    exact absent _ member (by simp)
  · rintro absent (⟨id, inTerm, candidate⟩ | _ | _ | _) member voted
    · simp only [decide_eq_true_eq] at voted
      obtain ⟨rfl, rfl⟩ := voted
      exact absent candidate member
    all_goals exact Bool.false_ne_true voted

/-- Initially nobody has voted. -/
theorem elections_initial (size : Nat) : Elections size (initial size) where
  running := running_initial size
  ids := ids_initial size
  counting := (tally_initial size).counting
  voters _ _ _ member := nomatch member
  positive _ _ _ member := nomatch member
  once _ _ _ _ member := nomatch member
  own _ _ _ member := nomatch member
  asked _ _ member := nomatch member
  backed := (tally_initial size).backed
  elected _ _ member := nomatch member

section Step

variable {size : Nat} {cluster after : Cluster} {event : Event} {id : Nat} {input : Input}
  {effect : Effect} {base : List Packet}

/-- The elections count votes that are noted. -/
theorem Elections.tally (elections : Elections size cluster) : Tally size cluster :=
  { elections with }

/-- A leader has voted for itself. -/
theorem Elections.voted_of_lead (elections : Elections size cluster) {candidate term : Nat}
    (led : .lead candidate term ∈ cluster.trace) :
    .vote candidate term candidate ∈ cluster.trace := by
  obtain ⟨used, half, within⟩ := elections.elected candidate term led
  have nonempty : 0 < (cluster.supporters size candidate term).card := by omega
  obtain ⟨voter, member⟩ := Finset.card_pos.mp nonempty
  exact elections.own voter term candidate (Finset.mem_filter.mp member).2

/-- A first vote in a term is of a server that has cast none in it. -/
theorem FirstVote.unvoted (first : FirstVote cluster id input)
    (change : Change size cluster event after id input effect base) {voter term candidate : Nat}
    (noted : .vote voter term candidate ∈ effect.notes) (other : Nat) :
    .vote id term other ∉ cluster.trace := by
  obtain ⟨-, -, -, casts, -⟩ := change.turn.vote_noted noted
  exact hasVoted_eq_false.mp (first term casts) other

/-- **One step.** A step that casts first votes and counts its own term's votes,
never exactly half of the servers, keeps the account. -/
theorem Elections.step (elections : Elections size cluster)
    (sound : cluster.Meets (SoundElection size) event)
    (stepped : cluster.step size event = some after) : Elections size after := by
  obtain ⟨id, input, effect, base, change⟩ := step_change stepped
  have meets : SoundElection size cluster id input := sound (id, input) change.given
  obtain ⟨first, ownTerm, noHalf⟩ := meets
  have fresh : ∀ term candidate, .vote id term candidate ∈ effect.notes →
      .vote id term candidate ∉ cluster.trace := fun term candidate noted =>
    first.unvoted change noted candidate
  have tally := elections.tally.of_change change fresh ownTerm
  have balanced := elections.tally.balance change fresh ownTerm
  have unvoted : ∀ {voter term candidate other : Nat},
      .vote voter term candidate ∈ effect.notes → .vote voter term other ∉ cluster.trace := by
    intro voter term candidate other noted
    obtain ⟨voterId, -⟩ := change.turn.vote_noted noted
    rw [voterId, elections.ids]
    exact first.unvoted change noted other
  exact { tally with
    once := by
      intro voter term candidate other voted otherVoted
      rcases change.mem_trace.mp voted with old | new
      · rcases change.mem_trace.mp otherVoted with otherOld | otherNew
        · exact elections.once voter term candidate other old otherOld
        · exact absurd old (unvoted otherNew)
      · rcases change.mem_trace.mp otherVoted with otherOld | otherNew
        · exact absurd otherOld (unvoted new)
        · exact change.turn.vote_unique new otherNew
    elected := by
      intro candidate term led
      rcases change.mem_trace.mp led with old | new
      · obtain ⟨used, half, within⟩ := elections.elected candidate term old
        have kept := balanced candidate term
        exact ⟨used, half, by omega⟩
      · exact elections.tally.elected change ownTerm noHalf new }

/-- The account holds along every run of sound elections. -/
theorem elections_of_reaches
    (run : (machine size).Reaches (Meets (SoundElection size)) (initial size) cluster) :
    Elections size cluster :=
  run.invariant (Elections size) (elections_initial size) fun _ _ _ elections sound stepped =>
    elections.step sound stepped

/-- The servers that elected a leader. -/
theorem Elections.majority (elections : Elections size cluster) {leader term : Nat}
    (led : .lead leader term ∈ cluster.trace) :
    Majority (members size) (cluster.supporters size leader term) := by
  obtain ⟨used, half, within⟩ := elections.elected leader term led
  refine ⟨Finset.filter_subset _ _, ?_⟩
  rw [card_members]
  omega

/-- Leaders of one term are one server. -/
theorem Elections.leader_unique (elections : Elections size cluster) {leader other term : Nat}
    (led : .lead leader term ∈ cluster.trace) (otherLed : .lead other term ∈ cluster.trace) :
    leader = other := by
  obtain ⟨voter, voted, otherVoted⟩ :=
    (elections.majority led).exists_mem_inter (elections.majority otherLed)
  exact elections.once voter term leader other (Finset.mem_filter.mp voted).2
    (Finset.mem_filter.mp otherVoted).2

/-- A candidate that wins has not led its term before. -/
theorem Elections.not_led_of_wins (elections : Elections size cluster)
    (wins : size < 2 * ((cluster.servers id).voteCount + 1))
    (flying : 0 < cluster.inFlight id (cluster.servers id).term) (leader : Nat) :
    .lead leader (cluster.servers id).term ∉ cluster.trace := by
  intro led
  have backed := elections.backed id (cluster.servers id).term
  rw [counted, if_pos rfl] at backed
  have support : Majority (members size)
      (cluster.supporters size id (cluster.servers id).term) := by
    refine ⟨Finset.filter_subset _ _, ?_⟩
    rw [card_members]
    omega
  obtain ⟨voter, voted, otherVoted⟩ := support.exists_mem_inter (elections.majority led)
  obtain rfl : id = leader := elections.once voter _ id leader (Finset.mem_filter.mp voted).2
    (Finset.mem_filter.mp otherVoted).2
  obtain ⟨used, half, within⟩ := elections.elected id _ led
  have few := Finset.card_le_card support.1
  rw [card_members] at few
  rw [counted, if_pos rfl] at within
  omega

/-- The turn that makes a candidate the leader is the first of its term. -/
theorem Elections.not_led_before (elections : Elections size cluster) {reply : VoteReply}
    (change : Change size cluster event after id (.call (.replyVote reply)) effect base)
    (running : (cluster.servers id).isStop = false)
    (candidate : (cluster.servers id).state = .candidate) (granted : reply.voteGranted = true)
    (wins : (cluster.servers id).wins (allObjKey size) = true)
    (sound : SoundElection size cluster id (.call (.replyVote reply))) (leader : Nat) :
    .lead leader (cluster.servers id).term ∉ cluster.trace := by
  have counts : reply ∈ (cluster.servers id).counts (.call (.replyVote reply)) := by
    simp [Server.counts, running, candidate, granted]
  have ownTerm : reply.term = (cluster.servers id).term := sound.2.1 reply counts
  have notHalf : ((cluster.servers id).voteCount + 1) * 2 ≠ size := sound.2.2 reply counts
  simp only [Server.wins, allObjKey, List.length_range, Nat.add_sub_cancel,
    decide_eq_true_eq] at wins
  refine elections.not_led_of_wins (by omega) ?_ leader
  rw [← change.inFlight_taken (by rw [← ownTerm, ← granted])]
  exact Nat.succ_pos _

end Step

/-- **Election safety.** In every run whose steps cast first votes and count the
votes of their own term, never exactly half of the servers, the servers that
became leaders in one term are one server. -/
theorem election_safety (size : Nat) {cluster : Cluster}
    (run : (machine size).Reaches (Meets (SoundElection size)) (initial size) cluster)
    {leader other term : Nat} (led : .lead leader term ∈ cluster.trace)
    (otherLed : .lead other term ∈ cluster.trace) : leader = other :=
  (elections_of_reaches run).leader_unique led otherLed

/-- Server 1 times out, campaigns and is elected by server 3. -/
def oneLeader : List Event :=
  List.replicate 6 (.update 1) ++ [.election 1, .deliver 2, .deliver 2]

/-- The elected server is the only leader of its term. -/
theorem election_safety_oneLeader :
    ∃ cluster, (machine 3).execute (Meets (SoundElection 3)) oneLeader (initial 3) = some cluster ∧
      .lead 1 1 ∈ cluster.trace ∧ ∀ other, .lead other 1 ∈ cluster.trace → other = 1 := by
  have ran : ((machine 3).execute (Meets (SoundElection 3)) oneLeader (initial 3)).map
      (fun cluster => decide (.lead 1 1 ∈ cluster.trace)) = some true := by decide +kernel
  obtain ⟨cluster, reached, led⟩ := Option.map_eq_some_iff.mp ran
  exact ⟨cluster, reached, of_decide_eq_true led, fun other otherLed =>
    election_safety 3 (Machine.reaches_of_execute reached) otherLed (of_decide_eq_true led)⟩

/-- Servers 1 and 2 time out and campaign in the same term, and server 3 votes for
both. -/
def twoLeaders : List Event :=
  List.replicate 6 (.update 1) ++ List.replicate 6 (.update 2) ++
    [.election 1, .election 2, .deliver 2, .deliver 4, .deliver 4, .deliver 4]

/-- One term, two leaders. -/
theorem twoLeaders_lead :
    ∃ cluster, (machine 3).Reaches Machine.anyStep (initial 3) cluster ∧
      .lead 1 1 ∈ cluster.trace ∧ .lead 2 1 ∈ cluster.trace := by
  have ran : ((machine 3).execute Machine.anyStep twoLeaders (initial 3)).map
      (fun cluster => decide (.lead 1 1 ∈ cluster.trace ∧ .lead 2 1 ∈ cluster.trace)) =
      some true := by decide +kernel
  obtain ⟨cluster, reached, led⟩ := Option.map_eq_some_iff.mp ran
  exact ⟨cluster, Machine.reaches_of_execute reached, of_decide_eq_true led⟩

end Cluster

end FastDb.Raft
