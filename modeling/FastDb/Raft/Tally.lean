import Mathlib.Order.Interval.Finset.Nat
import FastDb.Raft.Turns

/-! # Accounting of votes

What a candidate has counted in a term and what is in flight to it stay within the
servers that voted for it (`FastDb.Raft.Cluster.Tally`). For that a candidate counts
replies of its own term only, and no server votes twice for one candidate in one
term: the spare support of a candidate, the votes for it that are neither counted
nor in flight, then never shrinks (`FastDb.Raft.Cluster.Tally.balance`).
-/

namespace FastDb.Raft

open Foundation

/-- The servers that are started. -/
def members (size : Nat) : Finset Nat := Finset.Icc 1 size

theorem mem_members {size id : Nat} : id ∈ members size ↔ Started size id := Finset.mem_Icc

/-- There are as many members as the size. -/
theorem card_members (size : Nat) : (members size).card = size := Nat.card_Icc 1 size

/-- The delivery of a granted vote. -/
def grantedReply (candidate term : Nat) : Packet where
  target := candidate
  call := .replyVote { term := term, voteGranted := true }

namespace Cluster

/-- The servers that voted for a candidate in a term. -/
def supporters (cluster : Cluster) (size candidate term : Nat) : Finset Nat :=
  (members size).filter fun voter => .vote voter term candidate ∈ cluster.trace

/-- The votes a candidate has counted in a term. -/
def counted (cluster : Cluster) (candidate term : Nat) : Nat :=
  if (cluster.servers candidate).term = term then (cluster.servers candidate).voteCount else 0

/-- The granted votes in flight to a candidate. -/
def inFlight (cluster : Cluster) (candidate term : Nat) : Nat :=
  cluster.net.count (grantedReply candidate term)

/-- Votes are cast by started servers, for candidates that asked for them, and back
what is counted. -/
structure Tally (size : Nat) (cluster : Cluster) : Prop where
  running : ∀ id, (cluster.servers id).isStop = false → Started size id
  ids : ∀ id, (cluster.servers id).id = id
  counting : ∀ id, 0 < (cluster.servers id).voteCount → (cluster.servers id).state = .candidate
  voters : ∀ voter term candidate, .vote voter term candidate ∈ cluster.trace →
    Started size voter
  positive : ∀ voter term candidate, .vote voter term candidate ∈ cluster.trace → 1 ≤ term
  own : ∀ voter term candidate, .vote voter term candidate ∈ cluster.trace →
    .vote candidate term candidate ∈ cluster.trace
  asked : ∀ target args, ⟨target, .requestVote args⟩ ∈ cluster.net →
    .vote args.candidateId args.term args.candidateId ∈ cluster.trace
  backed : ∀ candidate term, cluster.counted candidate term + cluster.inFlight candidate term ≤
    (cluster.supporters size candidate term).card

theorem initial_voteCount (size id : Nat) : ((initial size).servers id).voteCount = 0 := by
  simp only [initial]
  split <;> rfl

theorem running_initial (size id : Nat) (runs : ((initial size).servers id).isStop = false) :
    Started size id := by
  by_contra outside
  simp only [initial, outside, ↓reduceIte, Bool.true_eq_false] at runs

/-- Initially nobody has voted. -/
theorem tally_initial (size : Nat) : Tally size (initial size) where
  running := running_initial size
  ids := ids_initial size
  counting id positive := absurd positive (by rw [initial_voteCount]; exact Nat.lt_irrefl 0)
  voters _ _ _ member := nomatch member
  positive _ _ _ member := nomatch member
  own _ _ _ member := nomatch member
  asked _ _ member := nomatch member
  backed candidate term := by
    rw [counted, initial_voteCount, ite_self]
    exact Nat.zero_le _

section Change

variable {size : Nat} {cluster after : Cluster} {event : Event} {id : Nat} {input : Input}
  {effect : Effect} {base : List Packet}

/-- What is in flight to a candidate, when no vote is granted. -/
theorem Change.inFlight_le (change : Change size cluster event after id input effect base)
    {candidate term : Nat} (ungranted : grantedReply candidate term ∉ effect.sent) :
    after.inFlight candidate term ≤ cluster.inFlight candidate term := by
  rw [inFlight, inFlight, change.net, List.count_append, List.count_eq_zero.mpr ungranted]
  exact change.kept.count_le _

/-- Taking a granted vote off the network. -/
theorem Change.inFlight_taken (change : Change size cluster event after id input effect base)
    {term : Nat} (taken : input = .call (.replyVote { term := term, voteGranted := true })) :
    after.inFlight id term + 1 = cluster.inFlight id term := by
  have ungranted : grantedReply id term ∉ effect.sent := by
    intro granted
    obtain ⟨args, other, -⟩ := change.turn.granted_sent granted
    exact Call.noConfusion (Input.call.inj (taken.symm.trans other))
  obtain ⟨slot, found, rfl⟩ := change.taken _ taken
  obtain ⟨inside, found⟩ := List.getElem?_eq_some_iff.mp found
  have permuted := (List.getElem_cons_eraseIdx_perm inside).count_eq (grantedReply id term)
  rw [found, ← grantedReply, List.count_cons_self] at permuted
  rw [inFlight, inFlight, change.net, List.count_append, List.count_eq_zero.mpr ungranted,
    Nat.add_zero, permuted]

/-- Support never shrinks. -/
theorem Change.supporters_mono (change : Change size cluster event after id input effect base)
    (candidate term : Nat) :
    (cluster.supporters size candidate term).card ≤
      (after.supporters size candidate term).card := by
  apply Finset.card_le_card
  intro voter member
  rw [supporters, Finset.mem_filter] at member ⊢
  exact ⟨member.1, change.mem_trace.mpr (Or.inl member.2)⟩

/-- A first vote for a candidate in a term adds a supporter. -/
theorem Change.supporters_succ (change : Change size cluster event after id input effect base)
    {candidate term : Nat} (started : Started size id)
    (noted : .vote id term candidate ∈ effect.notes)
    (first : .vote id term candidate ∉ cluster.trace) :
    (cluster.supporters size candidate term).card + 1 ≤
      (after.supporters size candidate term).card := by
  have absent : id ∉ cluster.supporters size candidate term := fun member =>
    first (Finset.mem_filter.mp member).2
  rw [← Finset.card_insert_of_notMem absent]
  apply Finset.card_le_card
  intro voter member
  rw [supporters, Finset.mem_filter, change.mem_trace]
  rcases Finset.mem_insert.mp member with same | old
  · exact ⟨mem_members.mpr (same ▸ started), Or.inr (same ▸ noted)⟩
  · exact ⟨(Finset.mem_filter.mp old).1, Or.inl (Finset.mem_filter.mp old).2⟩

/-- Counting concerns the server of the turn only. -/
theorem Change.counted_of_ne (change : Change size cluster event after id input effect base)
    {candidate : Nat} (different : candidate ≠ id) (term : Nat) :
    after.counted candidate term = cluster.counted candidate term := by
  rw [counted, counted, change.server_of_ne different]

/-- A granted vote that is sent is paid for by the vote noted with it. -/
theorem Tally.inFlight_le (tally : Tally size cluster)
    (change : Change size cluster event after id input effect base) (candidate term : Nat) :
    after.inFlight candidate term ≤ cluster.inFlight candidate term ∨
      (∃ args, input = .call (.requestVote args)) ∧ .vote id term candidate ∈ effect.notes ∧
        after.inFlight candidate term ≤ cluster.inFlight candidate term + 1 := by
  by_cases granted : grantedReply candidate term ∈ effect.sent
  · obtain ⟨args, given, noted, sent⟩ := change.turn.granted_sent granted
    rw [tally.ids] at noted
    refine Or.inr ⟨⟨args, given⟩, noted, ?_⟩
    rw [inFlight, inFlight, change.net, List.count_append, sent, ← grantedReply,
      List.count_singleton_self]
    exact Nat.add_le_add_right (change.kept.count_le _) 1
  · exact Or.inl (change.inFlight_le granted)

/-- **Spare support never shrinks.** A step that counts votes of its own term and casts
none twice for one candidate in one term adds at most as much to what is counted and
in flight as to the support. -/
theorem Tally.balance (tally : Tally size cluster)
    (change : Change size cluster event after id input effect base)
    (fresh : ∀ term candidate, .vote id term candidate ∈ effect.notes →
      .vote id term candidate ∉ cluster.trace)
    (ownTerm : CountsOwnTerm cluster id input) (candidate term : Nat) :
    after.counted candidate term + after.inFlight candidate term +
        (cluster.supporters size candidate term).card ≤
      cluster.counted candidate term + cluster.inFlight candidate term +
        (after.supporters size candidate term).card := by
  have grows := change.supporters_mono candidate term
  have gains : .vote id term candidate ∈ effect.notes →
      (cluster.supporters size candidate term).card + 1 ≤
        (after.supporters size candidate term).card := by
    intro noted
    obtain ⟨-, -, running, -⟩ := change.turn.vote_noted noted
    exact change.supporters_succ (tally.running id running) noted (fresh term candidate noted)
  have flight := tally.inFlight_le change candidate term
  have fewer : after.counted candidate term ≤ cluster.counted candidate term →
      after.counted candidate term + after.inFlight candidate term +
          (cluster.supporters size candidate term).card ≤
        cluster.counted candidate term + cluster.inFlight candidate term +
          (after.supporters size candidate term).card := by
    intro less
    rcases flight with same | ⟨-, noted, more⟩
    · omega
    · have gained := gains noted
      omega
  by_cases same : candidate = id
  · subst same
    have here : after.counted candidate term =
        if effect.server.term = term then effect.server.voteCount else 0 := by
      rw [counted, change.server_self]
    rcases change.turn.counted (tally.counting candidate) with zero | ⟨count, sameTerm, -⟩ |
      ⟨given, one, nextTerm, -, noted⟩ | ⟨more, sameTerm, -, reply, counts, given⟩
    · rw [zero, ite_self] at here
      exact fewer (here ▸ Nat.zero_le _)
    · rw [count, sameTerm] at here
      exact fewer (here ▸ le_rfl)
    · by_cases current : effect.server.term = term
      · -- the first vote of a campaign is the candidate's own
        subst current
        rw [if_pos rfl, one] at here
        rw [tally.ids, ← nextTerm] at noted
        have gained := gains noted
        rcases flight with less | ⟨⟨args, other⟩, -⟩
        · omega
        · exact Input.noConfusion (given.symm.trans other)
      · rw [if_neg current] at here
        exact fewer (here ▸ Nat.zero_le _)
    · by_cases current : (cluster.servers candidate).term = term
      · have replyTerm : reply.term = term := (ownTerm reply counts).trans current
        have taken := change.inFlight_taken (replyTerm ▸ given)
        have before : cluster.counted candidate term = (cluster.servers candidate).voteCount :=
          if_pos current
        rw [sameTerm, if_pos current, more] at here
        omega
      · rw [sameTerm, if_neg current] at here
        exact fewer (here ▸ Nat.zero_le _)
  · exact fewer (change.counted_of_ne same term).le

/-- **One turn** of a step that casts no vote twice keeps the account. -/
theorem Tally.of_change (tally : Tally size cluster)
    (change : Change size cluster event after id input effect base)
    (fresh : ∀ term candidate, .vote id term candidate ∈ effect.notes →
      .vote id term candidate ∉ cluster.trace)
    (ownTerm : CountsOwnTerm cluster id input) : Tally size after where
  running := change.running tally.running
  ids := change.ids tally.ids
  counting other positive := by
    by_cases same : other = id
    · subst same
      rw [change.server_self] at positive ⊢
      rcases change.turn.counted (tally.counting other) with zero | ⟨count, -, sameState⟩ |
        ⟨-, -, -, candidate, -⟩ | ⟨-, -, candidate, -⟩
      · exact absurd positive (zero ▸ Nat.lt_irrefl 0)
      · rw [sameState]
        exact tally.counting other (count ▸ positive)
      · exact candidate
      · exact candidate
    · rw [change.server_of_ne same] at positive ⊢
      exact tally.counting other positive
  voters voter term candidate voted := by
    rcases change.mem_trace.mp voted with old | new
    · exact tally.voters voter term candidate old
    · obtain ⟨voterId, -, running, -⟩ := change.turn.vote_noted new
      rw [voterId, tally.ids]
      exact tally.running id running
  positive voter term candidate voted := by
    rcases change.mem_trace.mp voted with old | new
    · exact tally.positive voter term candidate old
    · obtain ⟨-, -, -, -, ⟨rfl, -⟩ | ⟨args, given, -, rfl, -⟩⟩ := change.turn.vote_noted new
      · exact Nat.succ_le_succ (Nat.zero_le _)
      · exact tally.positive _ _ _ (tally.asked id args (change.flying given))
  own voter term candidate voted := by
    apply change.mem_trace.mpr
    rcases change.mem_trace.mp voted with old | new
    · exact Or.inl (tally.own voter term candidate old)
    · obtain ⟨rfl, -, -, -, ⟨-, rfl, -⟩ | ⟨args, given, -, rfl, rfl⟩⟩ := change.turn.vote_noted new
      · exact Or.inr new
      · exact Or.inl (tally.asked id args (change.flying given))
  asked target args member := by
    apply change.mem_trace.mpr
    rcases change.mem_net member with old | new
    · exact Or.inl (tally.asked target args old)
    · obtain ⟨-, candidateId, term, noted⟩ := change.turn.request_sent new
      rw [candidateId, term]
      exact Or.inr noted
  backed candidate term := by
    have before := tally.backed candidate term
    have balanced := tally.balance change fresh ownTerm candidate term
    omega

/-- Of a new leader more than half of the servers are used up: those counted and the one
just counted. -/
theorem Tally.elected (tally : Tally size cluster)
    (change : Change size cluster event after id input effect base)
    (ownTerm : CountsOwnTerm cluster id input) (noHalf : CountsNoHalf size cluster id input)
    {leader term : Nat} (led : .lead leader term ∈ effect.notes) :
    ∃ used, size < 2 * used ∧ used + (after.counted leader term + after.inFlight leader term) ≤
      (after.supporters size leader term).card := by
  obtain ⟨leaderId, rfl, -, -, -, zero, wins, reply, counts, given⟩ :=
    change.turn.lead_noted led
  rw [tally.ids] at leaderId
  subst leaderId
  have notHalf : ((cluster.servers leader).voteCount + 1) * 2 ≠ size := noHalf reply counts
  simp only [Server.wins, allObjKey, List.length_range, Nat.add_sub_cancel,
    decide_eq_true_eq] at wins
  have taken := change.inFlight_taken (ownTerm reply counts ▸ given)
  have backed := tally.backed leader (cluster.servers leader).term
  have now : after.counted leader (cluster.servers leader).term = 0 := by
    rw [counted, change.server_self, zero, ite_self]
  have grows := change.supporters_mono leader (cluster.servers leader).term
  rw [counted, if_pos rfl] at backed
  refine ⟨(cluster.servers leader).voteCount + 1, ?_, ?_⟩
  · omega
  · omega

end Change

end Cluster

end FastDb.Raft
