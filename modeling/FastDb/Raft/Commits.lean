import FastDb.Foundation.LeaderCompleteness
import FastDb.Raft.LeaderLogs

/-! # Committed entries

The cluster, seen as a replication in terms: the servers' terms and logs, the
references the leaders build, and of the history the votes, the leaders and the
acknowledgements (`FastDb.Raft.Cluster.history`). The invariant
(`FastDb.Raft.Cluster.Commits`) keeps the replication safe and every commit index,
in the servers and in flight, below entries that are chosen. Each kind of turn that
moves the replication has a lemma that says which move it is.
-/

namespace FastDb.Raft

open Foundation

namespace Cluster

/-- A server has acknowledged, in a term, at least that many entries. -/
def Acked (cluster : Cluster) (id term count : Nat) : Prop :=
  ∃ number, count ≤ number ∧ .acked id term number ∈ cluster.trace

/-- What is checked to be acknowledged is so. -/
theorem acked_of_hasAcked {cluster : Cluster} {id term count : Nat}
    (acked : cluster.hasAcked id term count = true) : cluster.Acked id term count := by
  obtain ⟨note, member, found⟩ := List.any_eq_true.mp acked
  cases note with
  | acked other inTerm number =>
      simp only [decide_eq_true_eq] at found
      obtain ⟨rfl, rfl, fewer⟩ := found
      exact ⟨number, fewer, member⟩
  | vote | lead | applied => exact absurd found Bool.false_ne_true

theorem lastTerm_concat (front : List Log) (entry : Log) :
    lastTerm (front ++ [entry]) = entry.term := by
  rw [lastTerm, List.getLast?_concat]
  rfl

/-- The comparison of logs that a vote depends on. -/
theorem newerThan_of_lastTerm {newer older : List Log}
    (compared : lastTerm older < lastTerm newer ∨
      lastTerm newer = lastTerm older ∧ older.length ≤ newer.length) :
    Replication.NewerThan Log.term newer older := by
  rintro front entry rfl
  rw [lastTerm_concat] at compared
  rcases List.eq_nil_or_concat' newer with rfl | ⟨newerFront, newerEntry, rfl⟩
  · rcases compared with later | ⟨-, longer⟩
    · exact absurd later (Nat.not_lt_zero _)
    · rw [List.length_append, List.length_singleton] at longer
      exact absurd longer (Nat.not_succ_le_zero _)
  · rw [lastTerm_concat] at compared
    exact ⟨newerFront, newerEntry, rfl, compared⟩

/-- The replication a cluster carries out, with the references of the leaders and
the logs the candidates asked for votes with. Every started server holds the first
entry, which counts as acknowledged in term 0. -/
def history (size : Nat) (leaderLog : Nat → List Log) (ballot : Nat → Nat → List Log)
    (cluster : Cluster) : Replication Nat Log where
  term id := (cluster.servers id).term
  log id := (cluster.servers id).logVec
  leaderLog := leaderLog
  led term := term = 0 ∨ ∃ leader, .lead leader term ∈ cluster.trace
  vote voter term candidate := .vote voter term candidate ∈ cluster.trace
  ballot := ballot
  acked id term count := Started size id ∧ term = 0 ∧ count ≤ 1 ∨ cluster.Acked id term count

/-- The first entries of a log are chosen in the cluster by a given term. -/
abbrev Settled (size : Nat) (leaderLog : Nat → List Log) (ballot : Nat → Nat → List Log)
    (cluster : Cluster) : Nat → List Log → Nat → Prop :=
  Replication.Covered Log.term (members size) (history size leaderLog ballot cluster)

/-- The logs of the candidates once a server campaigns. -/
def campaigned (ballot : Nat → Nat → List Log) (id : Nat) (server : Server) :
    Nat → Nat → List Log := fun candidate term =>
  if candidate = id ∧ term = server.term + 1 then server.logVec else ballot candidate term

/-- **Committed entries are chosen**, in the logs and in what is in flight. -/
structure Commits (size : Nat) (leaderLog : Nat → List Log) (ballot : Nat → Nat → List Log)
    (cluster : Cluster) : Prop where
  safe : Replication.Safe Log.term (members size) (history size leaderLog ballot cluster)
  ackers : ∀ id term count, .acked id term count ∈ cluster.trace → Started size id
  candidates : ∀ id, .vote id (cluster.servers id).term id ∈ cluster.trace →
    ballot id (cluster.servers id).term = (cluster.servers id).logVec ∨
      ∃ leader, .lead leader (cluster.servers id).term ∈ cluster.trace
  asked : ∀ target args, ⟨target, .requestVote args⟩ ∈ cluster.net →
    args.lastLogIndex = ((ballot args.candidateId args.term).length : Int) - 1 ∧
      args.lastLogTerm = lastTerm (ballot args.candidateId args.term)
  committed : ∀ id, Started size id → Settled size leaderLog ballot cluster
    (cluster.servers id).term (cluster.servers id).logVec ((cluster.servers id).commitIndex + 1)
  sentCommit : ∀ target args, ⟨target, .requestAppendEntries args⟩ ∈ cluster.net →
    Settled size leaderLog ballot cluster args.term (leaderLog args.term) (args.commitIndex + 1)
  matched : ∀ id, (cluster.servers id).state = .leader → ∀ (other index : Nat),
    (cluster.servers id).matchIndexVec[other]? = some index → 0 < index →
    cluster.Acked other (cluster.servers id).term (index + 1)
  matchSize : ∀ id, (cluster.servers id).matchIndexVec = [] ∨
    (cluster.servers id).matchIndexVec.length = size + 1

/-- Initially term 0 is all there is. -/
theorem commits_initial (size : Nat) :
    Commits size (fun term => if term = 0 then [Server.startLog] else []) (fun _ _ => [])
      (initial size) := by
  have logs := logs_initial size
  have logOf : ∀ id, Started size id → ((initial size).servers id).logVec = [Server.startLog] :=
    fun id started => by simp only [initial, started, ↓reduceIte]; rfl
  have noTrace : ∀ note, note ∉ (initial size).trace := fun _ => List.not_mem_nil
  have terms : ∀ id, ((initial size).servers id).term = 0 := fun id => by
    simp only [initial]
    split <;> rfl
  have zero : ∀ {id term count : Nat}, (history size (fun term => if term = 0 then
      [Server.startLog] else []) (fun _ _ => []) (initial size)).acked id term count →
      Started size id ∧ term = 0 ∧ count ≤ 1 := by
    rintro id term count (start | ⟨_, -, member⟩)
    · exact start
    · exact absurd member (noTrace _)
  exact {
    safe := {
      anchored := logs.anchored
      leaders := logs.leaders
      bounded := by
        intro term entry member
        simp only [history] at member
        split at member
        · rw [List.mem_singleton.mp member]
          exact Nat.zero_le _
        · cases member
      logTerms := by
        intro id entry member
        simp only [history, initial] at member
        split at member
        · rw [List.mem_singleton.mp member]
          exact Nat.zero_le _
        · cases member
      unled := fun term none => if_neg fun zero => none (Or.inl zero)
      elected := fun term led positive => by
        rcases led with zero | ⟨leader, member⟩
        · exact absurd zero positive
        · exact absurd member (noTrace _)
      voteTerm := fun _ _ _ voted => absurd voted (noTrace _)
      ballots := fun _ _ _ voted => absurd voted (noTrace _)
      ackTerm := fun id term count acked => by
        rw [(zero acked).2.1]
        exact Nat.zero_le _
      ackBound := fun id term count acked => by
        obtain ⟨-, rfl, few⟩ := zero acked
        exact few
      kept := by
        intro id term front own acked _
        obtain ⟨started, rfl, -⟩ := zero acked
        have held : (history size (fun term => if term = 0 then [Server.startLog] else [])
            (fun _ _ => []) (initial size)).log id = [Server.startLog] := logOf id started
        rw [held]
        exact own.isPrefix
      carried := fun _ _ _ voted => absurd voted (noTrace _)
      complete := by
        rintro later (rfl | ⟨leader, member⟩) term front below
        · exact absurd below (Nat.not_lt_zero _)
        · exact absurd member (noTrace _) }
    ackers := fun _ _ _ member => absurd member (noTrace _)
    candidates := fun _ member => absurd member (noTrace _)
    asked := fun _ _ member => absurd member List.not_mem_nil
    committed := by
      intro id started
      have commit : ((initial size).servers id).commitIndex = 0 := by
        simp only [initial]
        split <;> rfl
      rw [logOf id started, commit]
      refine ⟨le_rfl, 0, Nat.zero_le _, [Server.startLog],
        ⟨List.prefix_refl _, [], _, rfl, rfl⟩, ⟨members size, Majority.self ⟨id, ?_⟩, ?_⟩,
        List.prefix_refl _⟩
      · exact mem_members.mpr started
      · exact fun member inside => Or.inl ⟨mem_members.mp inside, rfl, le_rfl⟩
    sentCommit := fun _ _ member => absurd member List.not_mem_nil
    matched := by
      intro id leader
      simp only [initial] at leader
      split at leader <;> cases leader
    matchSize := fun id => by
      left
      simp only [initial]
      split <;> rfl }

section Change

variable {size : Nat} {cluster after : Cluster} {event : Event} {id : Nat} {input : Input}
  {effect : Effect} {base : List Packet} {leaderLog later : Nat → List Log}
  {ballot ballots : Nat → Nat → List Log}

/-- A field of all servers after a step. -/
theorem Change.map_servers {α : Type} (field : Server → α)
    (change : Change size cluster event after id input effect base) :
    (fun other => field (after.servers other)) =
      Function.update (fun other => field (cluster.servers other)) id (field effect.server) := by
  funext other
  rw [Function.update_apply]
  split
  · next same => rw [same, change.server_self]
  · next different => rw [change.server_of_ne different]

/-- What is acknowledged stays so. -/
theorem Change.acked (change : Change size cluster event after id input effect base)
    {other term count : Nat} (acked : cluster.Acked other term count) :
    after.Acked other term count := by
  obtain ⟨number, fewer, member⟩ := acked
  exact ⟨number, fewer, change.mem_trace.mpr (Or.inl member)⟩

/-- What is settled stays settled. -/
theorem Change.settled (change : Change size cluster event after id input effect base)
    (references : ∀ term, leaderLog term <+: later term) {term count : Nat} {log : List Log}
    (settled : Settled size leaderLog ballot cluster term log count) :
    Settled size later ballots after term log count :=
  settled.persists references fun _ _ _ acked => acked.imp_right change.acked

/-- Without a new leader the terms that are led stay the same. -/
theorem Change.led_iff (change : Change size cluster event after id input effect base)
    (unled : ∀ leader term, .lead leader term ∉ effect.notes) (term : Nat) :
    (term = 0 ∨ ∃ leader, .lead leader term ∈ after.trace) ↔
      (term = 0 ∨ ∃ leader, .lead leader term ∈ cluster.trace) := by
  refine or_congr_right (exists_congr fun leader => ?_)
  rw [change.mem_trace]
  exact or_iff_left (unled leader term)

/-- A step that votes for nobody leaves the votes. -/
theorem Change.vote_iff (change : Change size cluster event after id input effect base)
    (unvoted : ∀ voter term candidate, .vote voter term candidate ∉ effect.notes)
    (voter term candidate : Nat) : .vote voter term candidate ∈ after.trace ↔
      .vote voter term candidate ∈ cluster.trace :=
  change.mem_trace.trans (or_iff_left (unvoted voter term candidate))

/-- A step that acknowledges nothing leaves the acknowledgements. -/
theorem Change.acked_iff (change : Change size cluster event after id input effect base)
    (unacked : ∀ server term count, .acked server term count ∉ effect.notes)
    (server term count : Nat) :
    (Started size server ∧ term = 0 ∧ count ≤ 1 ∨ after.Acked server term count) ↔
      (Started size server ∧ term = 0 ∧ count ≤ 1 ∨ cluster.Acked server term count) := by
  refine or_congr_right (exists_congr fun number => and_congr_right fun _ => ?_)
  rw [change.mem_trace]
  exact or_iff_left (unacked server term number)

/-- The parts of the replication that a turn without votes, leaders or
acknowledgements leaves alone. -/
theorem Change.history_eq (change : Change size cluster event after id input effect base)
    (unvoted : ∀ voter term candidate, .vote voter term candidate ∉ effect.notes)
    (unled : ∀ leader term, .lead leader term ∉ effect.notes)
    (unacked : ∀ server term count, .acked server term count ∉ effect.notes) :
    history size later ballots after =
      { history size later ballots cluster with
        term := Function.update (history size later ballots cluster).term id effect.server.term
        log := Function.update (history size later ballots cluster).log id
          effect.server.logVec } :=
  Replication.eq_of_fields (change.map_servers Server.term) (change.map_servers Server.logVec) rfl
    (change.led_iff unled) (change.vote_iff unvoted) rfl (change.acked_iff unacked)

/-- A turn keeps the invariant when it keeps the replication safe and what it leaves
of its own server, and sends, satisfies it. -/
theorem Commits.of_turn (commits : Commits size leaderLog ballot cluster)
    (change : Change size cluster event after id input effect base)
    (elections : Elections size cluster)
    (references : ∀ term, leaderLog term <+: later term)
    (safe : Replication.Safe Log.term (members size) (history size later ballots after))
    (sameBallots : ∀ voter term candidate, .vote voter term candidate ∈ cluster.trace →
      ballots candidate term = ballot candidate term)
    (ownVotes : ∀ voter term candidate, .vote voter term candidate ∈ effect.notes → voter = id)
    (ownAcks : ∀ server term count, .acked server term count ∈ effect.notes →
      Started size server)
    (candidate : .vote id effect.server.term id ∈ after.trace →
      ballots id effect.server.term = effect.server.logVec ∨
        ∃ leader, .lead leader effect.server.term ∈ after.trace)
    (asks : ∀ target args, ⟨target, .requestVote args⟩ ∈ effect.sent →
      args.lastLogIndex = ((ballots args.candidateId args.term).length : Int) - 1 ∧
        args.lastLogTerm = lastTerm (ballots args.candidateId args.term))
    (commit : Started size id → Settled size later ballots after effect.server.term
      effect.server.logVec (effect.server.commitIndex + 1))
    (sends : ∀ target args, ⟨target, .requestAppendEntries args⟩ ∈ effect.sent →
      Settled size later ballots after args.term (later args.term) (args.commitIndex + 1))
    (matched : effect.server.state = .leader → ∀ (other index : Nat),
      effect.server.matchIndexVec[other]? = some index → 0 < index →
      after.Acked other effect.server.term (index + 1))
    (matchSize : effect.server.matchIndexVec = [] ∨
      effect.server.matchIndexVec.length = size + 1) :
    Commits size later ballots after where
  safe := safe
  ackers other term count member := by
    rcases change.mem_trace.mp member with old | new
    · exact commits.ackers other term count old
    · exact ownAcks other term count new
  candidates other voted := by
    by_cases same : other = id
    · subst same
      rw [change.server_self] at voted ⊢
      exact candidate voted
    · rw [change.server_of_ne same] at voted ⊢
      rcases change.mem_trace.mp voted with old | new
      · rw [sameBallots other _ other old]
        exact (commits.candidates other old).imp_right fun ⟨leader, led⟩ =>
          ⟨leader, change.mem_trace.mpr (Or.inl led)⟩
      · exact absurd (ownVotes other _ other new) same
  asked target args member := by
    rcases change.mem_net member with old | new
    · rw [sameBallots _ _ _ (elections.asked target args old)]
      exact commits.asked target args old
    · exact asks target args new
  committed other started := by
    by_cases same : other = id
    · subst same
      rw [change.server_self]
      exact commit started
    · rw [change.server_of_ne same]
      exact change.settled references (commits.committed other started)
  sentCommit target args member := by
    rcases change.mem_net member with old | new
    · exact (change.settled references (commits.sentCommit target args old)).extend
        (references args.term)
    · exact sends target args new
  matched other leader otherId index found positive := by
    by_cases same : other = id
    · subst same
      rw [change.server_self] at leader found ⊢
      exact matched leader otherId index found positive
    · rw [change.server_of_ne same] at leader found ⊢
      exact change.acked (commits.matched other leader otherId index found positive)
  matchSize other := by
    by_cases same : other = id
    · subst same
      rw [change.server_self]
      exact matchSize
    · rw [change.server_of_ne same]
      exact commits.matchSize other

/-- A server that is still in the term it has voted for itself in. -/
theorem Commits.candidate_of_raised (commits : Commits size leaderLog ballot cluster)
    {term : Nat} (upwards : (cluster.servers id).term ≤ term)
    (voted : .vote id term id ∈ cluster.trace) :
    ballot id term = (cluster.servers id).logVec ∨ ∃ leader, .lead leader term ∈ cluster.trace := by
  have passed : term ≤ (cluster.servers id).term := commits.safe.voteTerm id term id voted
  obtain rfl : term = (cluster.servers id).term := Nat.le_antisymm passed upwards
  exact commits.candidates id voted

/-- **Entering a term.** A turn that keeps the log, and neither votes nor leads nor
acknowledges. -/
theorem Commits.of_raised (commits : Commits size leaderLog ballot cluster)
    (change : Change size cluster event after id input effect base)
    (elections : Elections size cluster)
    (upwards : (cluster.servers id).term ≤ effect.server.term)
    (sameLog : effect.server.logVec = (cluster.servers id).logVec)
    (inert : ∀ note ∈ effect.notes, note.Inert)
    (unasked : ∀ target args, ⟨target, .requestVote args⟩ ∉ effect.sent)
    (commit : Started size id → Settled size leaderLog ballot cluster effect.server.term
      (cluster.servers id).logVec (effect.server.commitIndex + 1))
    (sends : ∀ target args, ⟨target, .requestAppendEntries args⟩ ∈ effect.sent →
      Settled size leaderLog ballot cluster args.term (leaderLog args.term) (args.commitIndex + 1))
    (matched : effect.server.state = .leader → ∀ (other index : Nat),
      effect.server.matchIndexVec[other]? = some index → 0 < index →
      cluster.Acked other effect.server.term (index + 1))
    (matchSize : effect.server.matchIndexVec = [] ∨
      effect.server.matchIndexVec.length = size + 1) :
    Commits size leaderLog ballot after := by
  have unvoted : ∀ voter term candidate, .vote voter term candidate ∉ effect.notes :=
    fun _ _ _ member => inert _ member
  have unled : ∀ leader term, .lead leader term ∉ effect.notes := fun _ _ member => inert _ member
  have unacked : ∀ server term count, .acked server term count ∉ effect.notes :=
    fun _ _ _ member => inert _ member
  have references : ∀ term, leaderLog term <+: leaderLog term := fun _ => List.prefix_refl _
  refine commits.of_turn change elections references ?_ (fun _ _ _ _ => rfl)
    (fun voter term candidate noted => absurd noted (unvoted voter term candidate))
    (fun server term count noted => absurd noted (unacked server term count)) ?_
    (fun target args sent => absurd sent (unasked target args)) ?_ ?_ ?_ matchSize
  · rw [change.history_eq unvoted unled unacked, sameLog]
    have safe := commits.safe.raise upwards
    rwa [Replication.raise, ← Function.update_eq_self id (history _ _ _ _).log] at safe
  · intro voted
    rw [sameLog]
    have old := (change.mem_trace.mp voted).resolve_right (unvoted _ _ _)
    exact (commits.candidate_of_raised upwards old).imp_right fun ⟨leader, led⟩ =>
      ⟨leader, change.mem_trace.mpr (Or.inl led)⟩
  · intro started
    rw [sameLog]
    exact change.settled references (commit started)
  · exact fun target args sent => change.settled references (sends target args sent)
  · exact fun leader other index found positive =>
      change.acked (matched leader other index found positive)

/-- **The commit rule.** What a leader commits to is acknowledged by a majority and
ends in an entry of its term. -/
theorem Commits.commit (commits : Commits size leaderLog ballot cluster)
    (logs : Logs leaderLog cluster) (started : Started size id) :
    Settled size leaderLog ballot cluster (cluster.servers id).term (cluster.servers id).logVec
      ((cluster.servers id).commit.commitIndex + 1) := by
  have before := commits.committed id started
  rw [Server.commit]
  split
  · next elected =>
      obtain ⟨leader, nonempty, current⟩ := elected
      rcases Nat.le_total (Server.midIndex (cluster.servers id).matchIndexVec)
        (cluster.servers id).commitIndex with low | high
      · exact before.of_le (Nat.succ_le_succ (max_eq_right low).le)
      rcases Nat.eq_zero_or_pos (Server.midIndex (cluster.servers id).matchIndexVec) with
        zero | positive
      · exact before.of_le (Nat.succ_le_succ (max_le (zero ▸ Nat.zero_le _) le_rfl))
      obtain ⟨-, entry, found, ownTerm⟩ := termAt_eq_some.mp current
      rw [Int.toNat_natCast] at found
      have inside := (List.getElem?_eq_some_iff.mp found).1
      have front := take_succ_of_getElem? found
      have sized : (cluster.servers id).matchIndexVec.length = (members size).card + 1 := by
        rw [card_members]
        exact (commits.matchSize id).resolve_left nonempty
      have acked := commits.matched id leader
      obtain ⟨quorum, majority, reached⟩ := majority_of_middle sized
        fun other index at_other above => mem_members.mpr (by
          obtain ⟨number, -, noted⟩ := acked other index at_other (positive.trans_le above)
          exact commits.ackers _ _ _ noted)
      have lengths : ((cluster.servers id).logVec.take
          (Server.midIndex (cluster.servers id).matchIndexVec + 1)).length =
          Server.midIndex (cluster.servers id).matchIndexVec + 1 :=
        List.length_take_of_le inside
      rw [max_eq_left high]
      refine ⟨inside, _, le_rfl, _, ⟨?_, _, entry, front, ownTerm⟩, ⟨quorum, majority, ?_⟩,
        List.prefix_refl _⟩
      · change _ <+: leaderLog _
        rw [(logs.leading id leader).2.1]
        exact List.take_prefix _ _
      · intro other member
        obtain ⟨index, at_other, above⟩ := reached other member
        obtain ⟨number, more, noted⟩ := acked other index at_other (positive.trans_le above)
        refine Or.inr ⟨number, ?_, noted⟩
        rw [lengths]
        exact (Nat.succ_le_succ above).trans more
  · exact before

/-- **Following a heartbeat.** The commit index sent along is followed up to an entry
that matches. -/
theorem Commits.heartbeat (commits : Commits size leaderLog ballot cluster)
    (logs : Logs leaderLog cluster) {args : AppendEntriesArgs}
    (flying : ⟨id, .requestAppendEntries args⟩ ∈ cluster.net)
    (current : (cluster.servers id).term ≤ args.term) (started : Started size id) :
    Settled size leaderLog ballot cluster args.term (cluster.servers id).logVec
      ((((cluster.servers id).follow args).heartbeatCommit args).commitIndex + 1) := by
  rw [Server.heartbeatCommit, Server.follow_commitIndex, Server.follow_logVec]
  split
  · next follows =>
      obtain ⟨snapshot, nextIndex, isPrefix, sent⟩ := logs.sent id args flying
      obtain ⟨position, previous, inSnapshot, inLog, agree⟩ :=
        logs.take_previous isPrefix sent follows.2
      have settled := commits.sentCommit id args flying
      have index : (min args.preLogIndex args.commitIndex).toNat =
          min position args.commitIndex := by
        rw [previous]
        omega
      change Settled _ _ _ _ _ _ ((min args.preLogIndex args.commitIndex).toNat + 1)
      rw [index]
      have fewer : min position args.commitIndex + 1 ≤ position + 1 := by omega
      refine (settled.of_le (Nat.add_le_add_right (min_le_right _ _) 1)).congr
        (fewer.trans inLog) ?_
      -- both agree with the log of the leader when it sent the call
      have inReference : snapshot.take (position + 1) =
          (leaderLog args.term).take (position + 1) := by
        obtain ⟨rest, whole⟩ := isPrefix
        rw [← whole, List.take_append_of_le_length inSnapshot]
      rw [← min_eq_left fewer, ← List.take_take, agree, inReference, List.take_take]
  · rw [Server.follow_commitIndex]
    exact (commits.committed id started).mono current

/-- **A vote.** A turn that enters a term and votes in it. -/
theorem Commits.of_vote (commits : Commits size leaderLog ballot cluster)
    (change : Change size cluster event after id input effect base)
    (elections : Elections size cluster) (candidate : Nat)
    (upwards : (cluster.servers id).term ≤ effect.server.term)
    (sameLog : effect.server.logVec = (cluster.servers id).logVec)
    (sameCommit : effect.server.commitIndex = (cluster.servers id).commitIndex)
    (sameMatch : effect.server.matchIndexVec = (cluster.servers id).matchIndexVec)
    (role : effect.server.state ≠ .leader)
    (noted : effect.notes = [.vote id effect.server.term candidate])
    (safe : Replication.Safe Log.term (members size)
      (((history size leaderLog ballots cluster).raise id effect.server.term).grant id
        effect.server.term candidate))
    (sameBallots : ∀ voter term candidate, .vote voter term candidate ∈ cluster.trace →
      ballots candidate term = ballot candidate term)
    (own : .vote id effect.server.term id ∈ after.trace →
      ballots id effect.server.term = (cluster.servers id).logVec)
    (unsent : ∀ target args, ⟨target, .requestAppendEntries args⟩ ∉ effect.sent)
    (asks : ∀ target args, ⟨target, .requestVote args⟩ ∈ effect.sent →
      args.lastLogIndex = ((ballots args.candidateId args.term).length : Int) - 1 ∧
        args.lastLogTerm = lastTerm (ballots args.candidateId args.term)) :
    Commits size leaderLog ballots after := by
  have notes : ∀ note ∈ effect.notes, note = .vote id effect.server.term candidate :=
    fun note member => List.mem_singleton.mp (noted ▸ member)
  have references : ∀ term, leaderLog term <+: leaderLog term := fun _ => List.prefix_refl _
  refine commits.of_turn change elections references ?_ sameBallots
    (fun voter term choice member => (Note.vote.inj (notes _ member)).1)
    (fun _ _ _ member => Note.noConfusion (notes _ member))
    (fun voted => Or.inl (sameLog.symm ▸ own voted)) asks ?_
    (fun target args sent => absurd sent (unsent target args))
    (fun leader => absurd leader role) (sameMatch.symm ▸ commits.matchSize id)
  · have same : history size leaderLog ballots after =
        ((history size leaderLog ballots cluster).raise id effect.server.term).grant id
          effect.server.term candidate := by
      refine Replication.eq_of_fields (change.map_servers Server.term) ?_ rfl
        (change.led_iff fun _ _ member => Note.noConfusion (notes _ member))
        (fun voter term choice => ?_) rfl
        (change.acked_iff fun _ _ _ member => Note.noConfusion (notes _ member))
      · apply (change.map_servers Server.logVec).trans
        rw [sameLog]
        exact Function.update_eq_self id _
      · refine change.mem_trace.trans (or_congr_right ?_)
        rw [noted, List.mem_singleton, Note.vote.injEq]
    exact same.symm ▸ safe
  · intro started
    rw [sameLog, sameCommit]
    exact change.settled references ((commits.committed id started).mono upwards)

theorem Commits.of_campaign (commits : Commits size leaderLog ballot cluster)
    (change : Change size cluster event after id .election {
      server := (cluster.servers id).campaign
      sent := ((allObjKey size).filter fun other => other ≠ (cluster.servers id).id).map
        fun other => { target := other
                       call := .requestVote (cluster.servers id).campaign.voteArgs }
      notes := [.vote (cluster.servers id).id (cluster.servers id).campaign.term
        (cluster.servers id).id] } base)
    (elections : Elections size cluster) (campaigns : (cluster.servers id).campaigns = true)
    (first : ∀ candidate, .vote id ((cluster.servers id).term + 1) candidate ∉ cluster.trace) :
    Commits size leaderLog (campaigned ballot id (cluster.servers id)) after := by
  have unasked : ∀ voter, .vote voter ((cluster.servers id).term + 1) id ∉ cluster.trace :=
    fun voter voted => first id (elections.own voter _ id voted)
  have upwards := Nat.le_succ (cluster.servers id).term
  have raised := commits.safe.raise upwards
  have entered : (cluster.servers id).term + 1 ≤ ((history size leaderLog ballot cluster).raise id
      ((cluster.servers id).term + 1)).term id := by
    rw [Replication.raise_term, if_pos rfl]
  have sameBallots : ∀ voter term candidate, .vote voter term candidate ∈ cluster.trace →
      campaigned ballot id (cluster.servers id) candidate term = ballot candidate term := by
    intro voter term candidate voted
    apply if_neg
    rintro ⟨rfl, rfl⟩
    exact unasked voter voted
  have ownBallot : campaigned ballot id (cluster.servers id) id ((cluster.servers id).term + 1) =
      (cluster.servers id).logVec := if_pos ⟨rfl, rfl⟩
  refine commits.of_vote change elections id upwards rfl rfl rfl
    (Server.campaign_state_ne campaigns) ?_ (raised.campaign entered unasked ?_) sameBallots
    (fun _ => ownBallot) ?_ ?_
  · rw [elections.ids]
  · exact fun entry member => Nat.lt_succ_of_le (commits.safe.logTerms id entry member)
  · intro target args member
    obtain ⟨other, -, same⟩ := List.mem_map.mp member
    exact Call.noConfusion (congrArg Packet.call same)
  · intro target args member
    obtain ⟨other, -, same⟩ := List.mem_map.mp member
    rw [← Call.requestVote.inj (congrArg Packet.call same)]
    have candidateId : (cluster.servers id).campaign.voteArgs.candidateId = id := elections.ids id
    rw [candidateId]
    change _ = ((campaigned ballot id (cluster.servers id) id
      ((cluster.servers id).term + 1)).length : Int) - 1 ∧ _ = lastTerm (campaigned ballot id
        (cluster.servers id) id ((cluster.servers id).term + 1))
    rw [ownBallot]
    exact ⟨rfl, rfl⟩

theorem Commits.of_grant (commits : Commits size leaderLog ballot cluster) {args : VoteArgs}
    (change : Change size cluster event after id (.call (.requestVote args)) {
      server := (cluster.servers id).toFollower args.term args.candidateId
      sent := [grantedReply args.candidateId args.term]
      notes := [.vote (cluster.servers id).id args.term args.candidateId] } base)
    (elections : Elections size cluster) (granted : (cluster.servers id).grants args = true)
    (upwards : (cluster.servers id).term ≤ args.term)
    (first : ∀ candidate, .vote id args.term candidate ∉ cluster.trace) :
    Commits size leaderLog ballot after := by
  have flying := change.flying rfl
  have candidacy := elections.asked id args flying
  obtain ⟨lastIndex, lastOf⟩ := commits.asked id args flying
  have raised := commits.safe.raise upwards
  have entered : args.term ≤
      ((history size leaderLog ballot cluster).raise id args.term).term id := by
    rw [Replication.raise_term, if_pos rfl]
  have newer : Replication.NewerThan Log.term (ballot args.candidateId args.term)
      (cluster.servers id).logVec := by
    rw [Server.grants, decide_eq_true_eq, lastIndex, lastOf] at granted
    refine newerThan_of_lastTerm (granted.2.imp_right fun ⟨sameTerm, longer⟩ => ⟨sameTerm, ?_⟩)
    omega
  refine commits.of_vote change elections args.candidateId upwards rfl rfl rfl
    (fun leader => State.noConfusion leader) ?_ (raised.grant entered ⟨_, candidacy⟩ newer)
    (fun _ _ _ _ => rfl) ?_ ?_ ?_
  · rw [elections.ids]
    rfl
  · -- a server that has voted for itself in the term does not grant
    intro voted
    rcases change.mem_trace.mp voted with old | new
    · exact absurd old (first id)
    · obtain ⟨-, -, own⟩ := Note.vote.inj (List.mem_singleton.mp new)
      exact absurd (own ▸ candidacy) (first id)
  · exact fun target others member =>
      Call.noConfusion (congrArg Packet.call (List.mem_singleton.mp member))
  · exact fun target others member =>
      Call.noConfusion (congrArg Packet.call (List.mem_singleton.mp member))

/-- **A longer reference.** A leader, new or not, whose log holds the open fronts of all
lower terms appends an entry of its own. -/
theorem Commits.of_grown (commits : Commits size leaderLog ballot cluster)
    (change : Change size cluster event after id input effect base)
    (elections : Elections size cluster) (logs : Logs leaderLog cluster) (entry : Log)
    (sameTerm : effect.server.term = (cluster.servers id).term)
    (grown : effect.server.logVec = (cluster.servers id).logVec ++ [entry])
    (sameCommit : effect.server.commitIndex = (cluster.servers id).commitIndex)
    (leader : effect.server.state = .leader) (silent : effect.sent = [])
    (ownTerm : entry.term = effect.server.term)
    (notes : ∀ note ∈ effect.notes, note = .lead id effect.server.term)
    (led : .lead id effect.server.term ∈ after.trace)
    (extended : leaderLog effect.server.term <+: (cluster.servers id).logVec)
    (elected : effect.server.term ≠ 0 → ∃ quorum candidate, Majority (members size) quorum ∧
      ∀ voter ∈ quorum, .vote voter effect.server.term candidate ∈ cluster.trace)
    (covers : ∀ earlier own, earlier < effect.server.term →
      Replication.Own Log.term (history size leaderLog ballot cluster) earlier own →
      Replication.IsOpen (members size) (history size leaderLog ballot cluster) earlier
        own.length → own <+: (cluster.servers id).logVec)
    (matched : ∀ (other index : Nat), effect.server.matchIndexVec[other]? = some index →
      0 < index → cluster.Acked other effect.server.term (index + 1))
    (matchSize : effect.server.matchIndexVec = [] ∨
      effect.server.matchIndexVec.length = size + 1) :
    Commits size (record leaderLog effect.server) ballot after := by
  have recorded : record leaderLog effect.server =
      Function.update leaderLog effect.server.term effect.server.logVec := if_pos leader
  have references : ∀ term, leaderLog term <+: record leaderLog effect.server term := by
    intro term
    rw [recorded, Function.update_apply]
    split
    · next same =>
        rw [same, grown]
        exact extended.trans (List.prefix_append _ _)
    · exact List.prefix_refl _
  have below : ∀ entry ∈ (cluster.servers id).logVec, entry.term ≤ effect.server.term :=
    sameTerm ▸ commits.safe.logTerms id
  have wider := commits.safe.grow extended (logs.anchored id) below ownTerm elected covers
  rw [← grown] at wider
  have here : ((history size leaderLog ballot cluster).grow effect.server.term
      effect.server.logVec).leaderLog effect.server.term = effect.server.logVec :=
    Function.update_self ..
  have same : history size (record leaderLog effect.server) ballot after =
      ((history size leaderLog ballot cluster).grow effect.server.term
        effect.server.logVec).rewrite id effect.server.logVec := by
    refine Replication.eq_of_fields ?_ (change.map_servers Server.logVec) recorded
      (fun term => ?_) (change.vote_iff fun _ _ _ member => Note.noConfusion (notes _ member)) rfl
      (change.acked_iff fun _ _ _ member => Note.noConfusion (notes _ member))
    · apply (change.map_servers Server.term).trans
      rw [sameTerm]
      exact Function.update_eq_self id _
    · constructor
      · rintro (zero | ⟨other, member⟩)
        · exact Or.inl (Or.inl zero)
        · rcases change.mem_trace.mp member with old | new
          · exact Or.inl (Or.inr ⟨other, old⟩)
          · exact Or.inr (Note.lead.inj (notes _ new)).2
      · rintro ((zero | ⟨other, old⟩) | rfl)
        · exact Or.inl zero
        · exact Or.inr ⟨other, change.mem_trace.mpr (Or.inl old)⟩
        · exact Or.inr ⟨id, led⟩
  refine commits.of_turn change elections references ?_ (fun _ _ _ _ => rfl)
    (fun _ _ _ member => Note.noConfusion (notes _ member))
    (fun _ _ _ member => Note.noConfusion (notes _ member)) (fun _ => Or.inr ⟨id, led⟩)
    (fun _ _ member => absurd member (silent ▸ List.not_mem_nil)) ?_
    (fun _ _ member => absurd member (silent ▸ List.not_mem_nil))
    (fun _ other index found positive => change.acked (matched other index found positive))
    matchSize
  · rw [same]
    apply wider.rewrite_extended
    · have anchored := wider.leaders effect.server.term
      rwa [here] at anchored
    · intro entry member
      have low := wider.bounded effect.server.term entry (here.symm ▸ member)
      exact low.trans sameTerm.le
    · rw [grown]
      exact List.prefix_append _ _
  · intro started
    rw [sameTerm, sameCommit, grown]
    exact (change.settled references (commits.committed id started)).extend
      (List.prefix_append _ _)

/-- A reference stands for a leader. -/
theorem Commits.led_of_reference (commits : Commits size leaderLog ballot cluster)
    {snapshot : List Log} {term : Nat} (reference : snapshot <+: leaderLog term)
    (nonempty : snapshot ≠ []) : (history size leaderLog ballot cluster).led term := by
  by_contra none
  have empty : leaderLog term = [] := commits.safe.unled term none
  exact nonempty (List.prefix_nil.mp (empty ▸ reference))

/-- **An acknowledgement.** A turn that enters the term of a leader and leaves a log that
holds the entries it acknowledges. -/
theorem Commits.of_acked (commits : Commits size leaderLog ballot cluster)
    (change : Change size cluster event after id input effect base)
    (elections : Elections size cluster) {snapshot log : List Log} {term count : Nat}
    (running : (cluster.servers id).isStop = false) (entered : effect.server.term = term)
    (reference : snapshot <+: leaderLog term) (nonempty : snapshot ≠ [])
    (sameLog : effect.server.logVec = log) (counted : count = snapshot.length)
    (noted : effect.notes = [.acked id term count]) (role : effect.server.state = .folower)
    (unsent : ∀ packet ∈ effect.sent, packet.call.Inert)
    (sameMatch : effect.server.matchIndexVec = (cluster.servers id).matchIndexVec)
    (safe : Replication.Safe Log.term (members size)
      (((history size leaderLog ballot cluster).raise id term).rewrite id log))
    (held : snapshot <+: log)
    (commit : Settled size leaderLog ballot cluster term log (effect.server.commitIndex + 1)) :
    Commits size leaderLog ballot after := by
  subst entered
  have notes : ∀ note ∈ effect.notes, note = .acked id effect.server.term count :=
    fun note member => List.mem_singleton.mp (noted ▸ member)
  have references : ∀ term, leaderLog term <+: leaderLog term := fun _ => List.prefix_refl _
  have started := elections.running id running
  have led := commits.led_of_reference reference nonempty
  refine commits.of_turn change elections references ?_ (fun _ _ _ _ => rfl)
    (fun _ _ _ member => Note.noConfusion (notes _ member))
    (fun server term number member => (Note.acked.inj (notes _ member)).1 ▸ started) ?_
    (fun _ _ member => (unsent _ member).elim) ?_ (fun _ _ member => (unsent _ member).elim)
    (fun leader => State.noConfusion (role.symm.trans leader))
    (sameMatch.symm ▸ commits.matchSize id)
  · have same : history size leaderLog ballot after =
        (((history size leaderLog ballot cluster).raise id effect.server.term).rewrite id
          log).acknowledge id effect.server.term count := by
      refine Replication.eq_of_fields (change.map_servers Server.term) ?_ rfl
        (change.led_iff fun _ _ member => Note.noConfusion (notes _ member))
        (change.vote_iff fun _ _ _ member => Note.noConfusion (notes _ member)) rfl
        fun other term number => ?_
      · exact sameLog ▸ change.map_servers Server.logVec
      · constructor
        · rintro (start | ⟨more, fewer, member⟩)
          · exact Or.inl (Or.inl start)
          · rcases change.mem_trace.mp member with old | new
            · exact Or.inl (Or.inr ⟨more, fewer, old⟩)
            · obtain ⟨rfl, rfl, rfl⟩ := Note.acked.inj (notes _ new)
              exact Or.inr ⟨rfl, rfl, fewer⟩
        · rintro ((start | acked) | ⟨rfl, rfl, fewer⟩)
          · exact Or.inl start
          · exact Or.inr (change.acked acked)
          · refine Or.inr ⟨count, fewer, change.mem_trace.mpr (Or.inr ?_)⟩
            rw [noted]
            exact List.mem_singleton_self _
    rw [same]
    refine safe.acknowledge ?_ (counted ▸ reference.length_le) ?_
    · exact (Replication.raise_term ..).trans (if_pos rfl)
    · have whole : (leaderLog effect.server.term).take count = snapshot :=
        counted ▸ (List.prefix_iff_eq_take.mp reference).symm
      change (leaderLog effect.server.term).take count <+:
        Function.update (fun other => (cluster.servers other).logVec) id log id
      rw [whole, Function.update_self]
      exact held
  · intro voted
    rcases led with zero | ⟨leader, member⟩
    · have old := (change.mem_trace.mp voted).resolve_right
        fun member => Note.noConfusion (notes _ member)
      exact absurd (elections.positive _ _ _ old) (by rw [zero]; exact Nat.not_succ_le_zero 0)
    · exact Or.inr ⟨leader, change.mem_trace.mpr (Or.inl member)⟩
  · intro _
    rw [sameLog]
    exact change.settled references commit

end Change

end Cluster

end FastDb.Raft
