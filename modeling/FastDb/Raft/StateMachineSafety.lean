import FastDb.Raft.Commits

/-! # State machine safety

Every turn of a sound step keeps committed entries chosen
(`FastDb.Raft.Cluster.Commits.of_change`), so along a run what is settled stays
settled (`FastDb.Raft.Cluster.commits_of_reaches`), and entries below commit indices
agree, at any two moments of a run (`FastDb.Raft.Cluster.state_machine_safety`).
-/

namespace FastDb.Raft

open Foundation

namespace Cluster

section Change

variable {size : Nat} {cluster after : Cluster} {event : Event} {id : Nat} {input : Input}
  {effect : Effect} {base : List Packet} {leaderLog : Nat → List Log}
  {ballot : Nat → Nat → List Log}

/-- A candidate becomes the leader of its term: the log it asked for votes with holds
the open fronts of all lower terms. -/
theorem Commits.of_lead (commits : Commits size leaderLog ballot cluster)
    (logs : Logs leaderLog cluster) {reply : VoteReply}
    (change : Change size cluster event after id (.call (.replyVote reply)) {
      server := { cluster.servers id with
        voteCount := (cluster.servers id).voteCount + 1 }.toLeader (allObjKey size)
      notes := [.lead (cluster.servers id).id (cluster.servers id).term] } base)
    (elections : Elections size cluster) (afterwards : Elections size after)
    (unled : ∀ leader, .lead leader (cluster.servers id).term ∉ cluster.trace) :
    Commits size (record leaderLog ({ cluster.servers id with
      voteCount := (cluster.servers id).voteCount + 1 }.toLeader (allObjKey size))) ballot
      after := by
  have led : .lead id (cluster.servers id).term ∈ after.trace := by
    refine change.mem_trace.mpr (Or.inr ?_)
    rw [elections.ids]
    exact List.mem_singleton_self _
  have sameVotes : ∀ voter term candidate, .vote voter term candidate ∈ after.trace →
      .vote voter term candidate ∈ cluster.trace := fun voter term candidate voted =>
    (change.mem_trace.mp voted).resolve_right fun member =>
      Note.noConfusion (List.mem_singleton.mp member)
  have own := sameVotes _ _ _ (afterwards.voted_of_lead led)
  have asked : ballot id (cluster.servers id).term = (cluster.servers id).logVec :=
    (commits.candidates id own).resolve_right fun ⟨leader, was⟩ => unled leader was
  have first : leaderLog (cluster.servers id).term = [] :=
    logs.unled _ (Nat.one_le_iff_ne_zero.mp (elections.positive _ _ _ own)) unled
  have majority := afterwards.majority led
  have voted : ∀ voter ∈ after.supporters size id (cluster.servers id).term,
      .vote voter (cluster.servers id).term id ∈ cluster.trace := fun voter member =>
    sameVotes _ _ _ (Finset.mem_filter.mp member).2
  refine commits.of_grown change elections logs _ rfl rfl rfl rfl rfl rfl ?_ led ?_
    (fun _ => ⟨_, id, majority, voted⟩) ?_ ?_ (Or.inr ?_)
  · intro note member
    rw [List.mem_singleton.mp member, elections.ids]
    rfl
  · change leaderLog (cluster.servers id).term <+: _
    rw [first]
    exact List.nil_prefix
  · rw [← asked]
    exact commits.safe.covers_of_elected majority voted
  · intro other index found positive
    have zero := List.eq_of_mem_replicate (List.mem_of_getElem? found)
    exact absurd positive (zero ▸ Nat.lt_irrefl 0)
  · exact (List.length_replicate ..).trans (List.length_range ..)

/-- A server that has committed the entries sent holds the log of their leader. -/
theorem Commits.confirmed (commits : Commits size leaderLog ballot cluster)
    (logs : Logs leaderLog cluster) {args : AppendEntriesArgs}
    (flying : ⟨id, .requestAppendEntries args⟩ ∈ cluster.net) (started : Started size id)
    (current : (cluster.servers id).term ≤ args.term) (entries : args.logVec ≠ [])
    (already : (cluster.servers id).alreadyCommitted args = true) :
    ∃ snapshot nextIndex, snapshot <+: leaderLog args.term ∧ SentFrom snapshot args nextIndex ∧
      snapshot <+: (cluster.servers id).logVec := by
  obtain ⟨snapshot, nextIndex, isPrefix, sent⟩ := logs.sent id args flying
  refine ⟨snapshot, nextIndex, isPrefix, sent, ?_⟩
  have counted := sent.ackCount_eq entries
  have committed := commits.committed id started
  have led := commits.led_of_reference isPrefix sent.nonempty
  have own := committed.prefix_reference commits.safe current led
  rw [Server.alreadyCommitted, decide_eq_true_eq] at already
  refine (List.prefix_of_prefix_length_le isPrefix own ?_).trans (List.take_prefix _ _)
  rw [List.length_take_of_le committed.1]
  omega

/-- A server confirms entries that it has committed. -/
theorem Commits.of_confirm (commits : Commits size leaderLog ballot cluster)
    (logs : Logs leaderLog cluster) {args : AppendEntriesArgs}
    (change : Change size cluster event after id (.call (.requestAppendEntries args)) {
      server := (cluster.servers id).follow args
      sent := [((cluster.servers id).follow args).appendReply args true]
      notes := [(cluster.servers id).ackNote args] } base)
    (elections : Elections size cluster) (running : (cluster.servers id).isStop = false)
    (current : (cluster.servers id).term ≤ args.term) (entries : args.logVec ≠ [])
    (already : (cluster.servers id).alreadyCommitted args = true) :
    Commits size leaderLog ballot after := by
  have started := elections.running id running
  obtain ⟨snapshot, nextIndex, isPrefix, sent, held⟩ :=
    commits.confirmed logs (change.flying rfl) started current entries already
  have counted := sent.ackCount_eq entries
  refine commits.of_acked change elections running (Server.follow_term _ args) isPrefix
    sent.nonempty (Server.follow_logVec _ args) counted ?_ (Server.follow_state _ args)
    (fun packet member => List.mem_singleton.mp member ▸ trivial)
    (Server.follow_matchIndexVec _ args) ?_ held ?_
  · rw [Server.ackNote, elections.ids]
  · have raised := commits.safe.raise current
    exact raised.rewrite_extended (raised.anchored id) (raised.logTerms id) (List.prefix_refl _)
  · rw [Server.follow_commitIndex]
    exact (commits.committed id started).mono current

/-- **Following a push.** The commit index sent along is followed up to the entry before
the ones pushed. -/
theorem Commits.push (commits : Commits size leaderLog ballot cluster)
    {args : AppendEntriesArgs} {snapshot : List Log} {nextIndex : Nat}
    (flying : ⟨id, .requestAppendEntries args⟩ ∈ cluster.net) (started : Started size id)
    (isPrefix : snapshot <+: leaderLog args.term) (sent : SentFrom snapshot args nextIndex)
    (current : (cluster.servers id).term ≤ args.term) (entries : args.logVec ≠ [])
    (fresh : (cluster.servers id).alreadyCommitted args = false) :
    Settled size leaderLog ballot cluster args.term snapshot
      ((((cluster.servers id).follow args).logPush args).commitIndex + 1) := by
  have counted := sent.ackCount_eq entries
  have led := commits.led_of_reference isPrefix sent.nonempty
  rw [Server.alreadyCommitted, decide_eq_false_iff_not] at fresh
  have before : Settled size leaderLog ballot cluster args.term snapshot
      ((cluster.servers id).commitIndex + 1) :=
    (commits.committed id started).transfer commits.safe current led isPrefix (by omega)
  rw [Server.logPush]
  simp only [Server.follow_commitIndex]
  split
  · next behind =>
      rcases Int.le_total args.preLogIndex (cluster.servers id).commitIndex with low | high
      · apply before.of_le
        dsimp only
        omega
      · have settled := commits.sentCommit id args flying
        refine (settled.of_le ?_).shorten isPrefix ?_
        · dsimp only
          omega
        · rw [← counted]
          dsimp only
          omega
  · exact before

/-- A server pushes the entries sent to it, none of which it holds with more entries
after them. -/
theorem Commits.of_push (commits : Commits size leaderLog ballot cluster)
    (logs : Logs leaderLog cluster) {args : AppendEntriesArgs}
    (change : Change size cluster event after id (.call (.requestAppendEntries args)) {
      server := ((cluster.servers id).follow args).logPush args
      sent := [(((cluster.servers id).follow args).logPush args).appendReply args true]
      notes := [(cluster.servers id).ackNote args] } base)
    (elections : Elections size cluster)
    (pushes : args ∈ (cluster.servers id).pushes (.call (.requestAppendEntries args)))
    (uncut : (cluster.servers id).contains args = false) :
    Commits size leaderLog ballot after := by
  obtain ⟨snapshot, nextIndex, isPrefix, sent, within, -, complete⟩ :=
    logs.pushed change rfl pushes
  obtain ⟨running, current, entries, fresh, -⟩ := Server.of_pushes pushes
  have counted := sent.ackCount_eq entries
  have follows := (cluster.servers id).push_follows args
  refine commits.of_acked change elections running follows.term isPrefix sent.nonempty
    ((Server.push_logVec _ args).trans complete) counted ?_ follows.state
    (fun packet member => List.mem_singleton.mp member ▸ trivial) follows.matchIndexVec ?_
    (List.prefix_refl _) (commits.push (change.flying rfl) (elections.running id running)
      isPrefix sent current entries fresh)
  · rw [Server.ackNote, elections.ids]
  · have raised := commits.safe.raise current
    exact raised.rewrite_reference ((Replication.raise_term ..).trans (if_pos rfl)) isPrefix
      sent.nonempty (sent.eq_of_uncut entries uncut)

/-- **Counting a success.** A match index stays below what its follower has acknowledged. -/
theorem Commits.credit (commits : Commits size leaderLog ballot cluster)
    (leader : (cluster.servers id).state = .leader) {follower matchIndex count : Nat}
    (matched : (cluster.servers id).matchIndexVec[follower]? = some matchIndex)
    (acked : cluster.Acked follower (cluster.servers id).term count) (other index : Nat)
    (found : ((cluster.servers id).matchIndexVec.set follower
      (max matchIndex (count - 1)))[other]? = some index) (positive : 0 < index) :
    cluster.Acked other (cluster.servers id).term (index + 1) := by
  rw [List.getElem?_set] at found
  split at found
  · next same =>
      obtain ⟨-, value⟩ := Option.ite_none_right_eq_some.mp found
      obtain rfl := Option.some.inj value
      subst same
      rcases max_choice matchIndex (count - 1) with old | new
      · rw [old] at positive ⊢
        exact commits.matched id leader follower matchIndex matched positive
      · rw [new] at positive ⊢
        rwa [Nat.sub_add_cancel (by omega)]
  · exact commits.matched id leader other index found positive

/-- A leader commits, goes through the apply loop and sends its log. -/
theorem Commits.of_sync (commits : Commits size leaderLog ballot cluster)
    (logs : Logs leaderLog cluster)
    (change : Change size cluster event after id .timer
      { (cluster.servers id).commit.apply with
        sent := (cluster.servers id).broadcast (allObjKey size) } base)
    (elections : Elections size cluster) (running : (cluster.servers id).isStop = false)
    (leader : (cluster.servers id).state = .leader) : Commits size leaderLog ballot after := by
  have started := elections.running id running
  have settled := commits.commit logs started
  obtain ⟨index, committed⟩ := (cluster.servers id).commit_eq
  have sameTerm : (cluster.servers id).commit.apply.server.term = (cluster.servers id).term := by
    rw [committed]
    rfl
  have sameLog : (cluster.servers id).commit.apply.server.logVec =
      (cluster.servers id).logVec := by
    rw [committed]
    rfl
  have sameMatch : (cluster.servers id).commit.apply.server.matchIndexVec =
      (cluster.servers id).matchIndexVec := by
    rw [committed]
    rfl
  refine commits.of_raised change elections sameTerm.ge sameLog ?_ ?_ ?_ ?_ ?_
    (sameMatch.symm ▸ commits.matchSize id)
  · intro note member
    obtain ⟨position, -, rfl⟩ := List.mem_map.mp member
    exact trivial
  · intro target args member
    obtain ⟨nextIndex, same⟩ := Server.of_broadcast _ member
    exact Call.noConfusion same
  · intro _
    rw [sameTerm]
    exact settled
  · intro target args member
    obtain ⟨-, reference, nonempty⟩ := logs.leading id leader
    obtain ⟨ofTerm, ofCommit, -⟩ := sentFrom_of_broadcast nonempty member
    rw [ofTerm, ofCommit, reference]
    exact commits.committed id started
  · intro _ other position found positive
    rw [sameTerm]
    exact commits.matched id leader other position (sameMatch ▸ found) positive

/-- A server follows the commit index of a synchronisation without entries. -/
theorem Commits.of_heartbeat (commits : Commits size leaderLog ballot cluster)
    (logs : Logs leaderLog cluster) {args : AppendEntriesArgs}
    (change : Change size cluster event after id (.call (.requestAppendEntries args)) {
      server := ((cluster.servers id).follow args).heartbeatCommit args } base)
    (elections : Elections size cluster) (running : (cluster.servers id).isStop = false)
    (current : (cluster.servers id).term ≤ args.term) :
    Commits size leaderLog ballot after := by
  have settled := commits.heartbeat logs (change.flying rfl) current
    (elections.running id running)
  have follows := (cluster.servers id).heartbeat_follows args
  have inert := Effect.inert_of_silent (((cluster.servers id).follow args).heartbeatCommit args)
  refine commits.of_raised change elections (current.trans follows.term.ge)
    (Server.heartbeat_logVec _ args) inert.notes (fun _ _ member => inert.sent _ member) ?_
    (fun _ _ member => (inert.sent _ member).elim)
    (fun leader => absurd leader follows.state_ne)
    (follows.matchIndexVec.symm ▸ commits.matchSize id)
  intro _
  rw [follows.term]
  exact settled

/-- A leader counts entries that a follower has acknowledged. -/
theorem Commits.of_credit (commits : Commits size leaderLog ballot cluster)
    {reply : AppendEntriesReply} {nextIndex matchIndex count : Nat}
    (change : Change size cluster event after id (.call (.replyAppendEntries reply)) {
      server := { cluster.servers id with
        matchIndexVec := (cluster.servers id).matchIndexVec.set reply.id
          (max matchIndex (count - 1))
        nextIndexVec := (cluster.servers id).nextIndexVec.set reply.id nextIndex } } base)
    (elections : Elections size cluster) (leader : (cluster.servers id).state = .leader)
    (matched : (cluster.servers id).matchIndexVec[reply.id]? = some matchIndex)
    (acked : cluster.Acked reply.id (cluster.servers id).term count) :
    Commits size leaderLog ballot after := by
  refine commits.of_raised change elections le_rfl rfl (fun _ member => nomatch member)
    (fun _ _ member => nomatch member) (commits.committed id) (fun _ _ member => nomatch member)
    (fun _ => commits.credit leader matched acked) ?_
  rw [List.length_set, List.set_eq_nil_iff]
  exact commits.matchSize id

/-- **One turn.** Every sound turn keeps committed entries chosen. -/
theorem Commits.of_change (commits : Commits size leaderLog ballot cluster)
    (logs : Logs leaderLog cluster)
    (change : Change size cluster event after id input effect base)
    (elections : Elections size cluster) (afterwards : Elections size after)
    (sound : SoundReplication size cluster id input) :
    ∃ ballots, Commits size (record leaderLog effect.server) ballots after := by
  obtain ⟨sound, keepsTerm, keepsEntries, countsAcked⟩ := sound
  -- most turns record nothing and raise a term at most
  have unrecorded : ∀ {ballots : Nat → Nat → List Log}, (effect.server.state = .leader →
      (cluster.servers id).state = .leader ∧ effect.server.term = (cluster.servers id).term ∧
        effect.server.logVec = (cluster.servers id).logVec) →
      Commits size leaderLog ballots after →
      ∃ ballots, Commits size (record leaderLog effect.server) ballots after := by
    intro ballots leads kept
    rw [logs.record_eq leads]
    exact ⟨ballots, kept⟩
  have unasked : effect.Inert → ∀ target args, ⟨target, .requestVote args⟩ ∉ effect.sent :=
    fun inert target args member => inert.sent _ member
  have unsent : effect.Inert → ∀ target args, ⟨target, .requestAppendEntries args⟩ ∈ effect.sent →
      Settled size leaderLog ballot cluster args.term (leaderLog args.term)
        (args.commitIndex + 1) :=
    fun inert target args member => (inert.sent _ member).elim
  have turn := change.turn
  cases turn with
  | quiet quiet =>
      have leads : effect.server.state = .leader → (cluster.servers id).state = .leader := by
        intro leader
        rcases quiet.state with same | ⟨-, candidate⟩
        · exact same ▸ leader
        · exact State.noConfusion (candidate.symm.trans leader)
      refine unrecorded (fun leader => ⟨leads leader, quiet.term, quiet.logVec⟩)
        (commits.of_raised change elections quiet.term.ge quiet.logVec quiet.inert.notes
          (unasked quiet.inert) ?_ (unsent quiet.inert) ?_ ?_)
      · intro started
        rw [quiet.term, quiet.commitIndex]
        exact commits.committed id started
      · intro leader other index found positive
        rw [quiet.term]
        rcases quiet.matchIndexVec with same | none
        · exact commits.matched id (leads leader) other index (same ▸ found) positive
        · rw [none] at found
          cases found
      · rcases quiet.matchIndexVec with same | none
        · exact same ▸ commits.matchSize id
        · exact Or.inl none
  | stepDown term down source =>
      have upwards : (cluster.servers id).term ≤ effect.server.term := by
        rw [down.term]
        rcases source with higher | ⟨args, yields, rfl⟩
        · exact higher
        · exact keepsTerm args yields
      refine unrecorded (leads_of_ne down.state_ne) (commits.of_raised change elections upwards
        down.logVec down.inert.notes (unasked down.inert) ?_ (unsent down.inert)
        (fun leader => absurd leader down.state_ne)
        (down.matchIndexVec.symm ▸ commits.matchSize id))
      intro started
      rw [down.commitIndex]
      exact (commits.committed id started).mono upwards
  | campaign campaigns =>
      have casts := sound.1 ((cluster.servers id).term + 1) (by
        rw [Server.casts, if_pos campaigns]
        exact Option.mem_some_self _)
      exact unrecorded (leads_of_ne (Server.campaign_state_ne campaigns))
        (commits.of_campaign change elections campaigns (hasVoted_eq_false.mp casts))
  | grant args running granted =>
      have casts := sound.1 args.term (by
        rw [Server.casts, running, granted]
        exact Option.mem_some_self _)
      have upwards := keepsTerm args (by
        rw [Server.yields, running, granted]
        exact Option.mem_some_self _)
      exact unrecorded (leads_of_ne fun leader => State.noConfusion leader)
        (commits.of_grant change elections granted upwards (hasVoted_eq_false.mp casts))
  | count reply running candidate granted =>
      have role : (cluster.servers id).state ≠ .leader := candidate.symm ▸ State.noConfusion
      have inert := Effect.inert_of_silent
        { cluster.servers id with voteCount := (cluster.servers id).voteCount + 1 }
      exact unrecorded (leads_of_ne role) (commits.of_raised change elections le_rfl rfl
        inert.notes (unasked inert) (commits.committed id) (unsent inert)
        (fun leader => absurd leader role) (commits.matchSize id))
  | lead reply running candidate granted wins =>
      exact ⟨ballot, commits.of_lead logs change elections afterwards
        (elections.not_led_before change running candidate granted wins sound)⟩
  | sync running leader =>
      refine unrecorded (fun _ => ?_) (commits.of_sync logs change elections running leader)
      obtain ⟨index, committed⟩ := (cluster.servers id).commit_eq
      rw [committed]
      exact ⟨leader, rfl, rfl⟩
  | heartbeat args running current empty =>
      exact unrecorded (leads_of_follows (Server.heartbeat_follows _ args))
        (commits.of_heartbeat logs change elections running current)
  | confirm args running current entries already =>
      exact unrecorded (leads_of_follows (Server.follow_follows _ args))
        (commits.of_confirm logs change elections running current entries already)
  | push args pushes =>
      exact unrecorded (leads_of_follows (Server.push_follows _ args))
        (commits.of_push logs change elections pushes (keepsEntries args pushes))
  | credit reply running leader success nextIndex matchIndex next matched =>
      have acked := acked_of_hasAcked (countsAcked (reply.id, nextIndex + reply.logCount) (by
        simp [Server.credits, running, leader, success, next]))
      exact unrecorded (fun _ => ⟨leader, rfl, rfl⟩)
        (commits.of_credit change elections leader matched acked)
  | addLog content running leader =>
      obtain ⟨led, reference, -⟩ := logs.leading id leader
      have wasLed : (history size leaderLog ballot cluster).led (cluster.servers id).term :=
        Or.inr ⟨id, led⟩
      refine ⟨ballot, commits.of_grown change elections logs _ rfl rfl rfl leader rfl rfl
        (fun _ member => absurd member List.not_mem_nil) (change.mem_trace.mpr (Or.inl led)) ?_
        (commits.safe.elected _ wasLed) ?_ (commits.matched id leader) (commits.matchSize id)⟩
      · change leaderLog (cluster.servers id).term <+: _
        rw [reference]
      · rw [← reference]
        exact fun earlier own lower owned isOpen =>
          commits.safe.complete _ wasLed earlier own lower owned isOpen

/-- **One step** that is sound keeps the invariants, with references that only grow. -/
theorem Commits.of_step (commits : Commits size leaderLog ballot cluster)
    (logs : Logs leaderLog cluster) (elections : Elections size cluster)
    (sound : Meets (SoundReplication size) cluster event)
    (stepped : cluster.step size event = some after) :
    Elections size after ∧ ∃ later ballots, (∀ term, leaderLog term <+: later term) ∧
      Logs later after ∧ Commits size later ballots after := by
  have elect : Meets (SoundElection size) cluster event := fun given member =>
    (sound given member).1
  have afterwards := elections.step elect stepped
  obtain ⟨id, input, effect, base, change⟩ := step_change stepped
  have meets := sound (id, input) change.given
  obtain ⟨references, logsAfter⟩ := logs.of_change change elections afterwards meets.1
  obtain ⟨ballots, commitsAfter⟩ := commits.of_change logs change elections afterwards meets
  exact ⟨afterwards, _, ballots, references, logsAfter, commitsAfter⟩

/-- **Runs.** The invariants hold along every run of sound steps, and what is settled at
its start stays settled. -/
theorem commits_of_reaches {start : Cluster} (elections : Elections size start)
    (logs : Logs leaderLog start) (commits : Commits size leaderLog ballot start)
    (run : (machine size).Reaches (Meets (SoundReplication size)) start cluster) :
    Elections size cluster ∧ ∃ later ballots, Logs later cluster ∧
      Commits size later ballots cluster ∧ ∀ term log count,
        Settled size leaderLog ballot start term log count →
          Settled size later ballots cluster term log count := by
  refine run.invariant (fun cluster => Elections size cluster ∧ ∃ later ballots,
    Logs later cluster ∧ Commits size later ballots cluster ∧ ∀ term log count,
      Settled size leaderLog ballot start term log count →
        Settled size later ballots cluster term log count)
    ⟨elections, leaderLog, ballot, logs, commits, fun _ _ _ => id⟩ ?_
  rintro before event next ⟨elections, current, asked, logs, commits, kept⟩ sound stepped
  obtain ⟨afterwards, later, ballots, references, logsAfter, commitsAfter⟩ :=
    commits.of_step logs elections sound stepped
  obtain ⟨id, input, effect, base, change⟩ := step_change stepped
  exact ⟨afterwards, later, ballots, logsAfter, commitsAfter, fun term log count settled =>
    change.settled references (kept term log count settled)⟩

end Change

/-- **State machine safety.** In every run of sound steps, what two servers have
committed at one index, at one moment or at two, is one entry. -/
theorem state_machine_safety (size : Nat) {earlier later : Cluster}
    (first : (machine size).Reaches (Meets (SoundReplication size)) (initial size) earlier)
    (rest : (machine size).Reaches (Meets (SoundReplication size)) earlier later)
    {left right index : Nat} (leftStarted : Started size left) (rightStarted : Started size right)
    (leftCommitted : index ≤ (earlier.servers left).commitIndex)
    (rightCommitted : index ≤ (later.servers right).commitIndex) :
    ∃ entry, (earlier.servers left).logVec[index]? = some entry ∧
      (later.servers right).logVec[index]? = some entry := by
  obtain ⟨elections, leaderLog, ballot, logs, commits, -⟩ := commits_of_reaches
    (elections_initial size) (logs_initial size) (commits_initial size) first
  obtain ⟨-, references, ballots, -, commitsLater, kept⟩ :=
    commits_of_reaches elections logs commits rest
  have leftSettled := kept _ _ _ ((commits.committed left leftStarted).of_le
    (Nat.succ_le_succ leftCommitted))
  have rightSettled := (commitsLater.committed right rightStarted).of_le
    (Nat.succ_le_succ rightCommitted)
  have agree := leftSettled.take_eq commitsLater.safe rightSettled
  have found := List.getElem?_eq_getElem (Nat.lt_of_succ_le leftSettled.1)
  refine ⟨_, found, ?_⟩
  have here := congrArg (fun front : List Log => front[index]?) agree
  simp only [List.getElem?_take_of_lt (Nat.lt_succ_self index)] at here
  exact here.symm.trans found

/-- Server 1 is elected and commits the entry of its tenure. -/
def oneCommit : List Event :=
  oneLeader ++ [.update 1, .deliver 3, .deliver 3, .deliver 3, .deliver 3, .update 1]

/-- Server 2 follows the commit index of server 1, with the entry server 1 committed
before. -/
theorem state_machine_safety_oneCommit :
    ∃ earlier later, (machine 3).execute (Meets (SoundReplication 3)) oneCommit (initial 3) =
        some earlier ∧
      (machine 3).execute (Meets (SoundReplication 3)) [.update 1, .deliver 7] earlier =
        some later ∧
      ∃ entry, (earlier.servers 1).logVec[1]? = some entry ∧
        (later.servers 2).logVec[1]? = some entry := by
  have ran : ((machine 3).execute (Meets (SoundReplication 3)) oneCommit (initial 3)).bind
      (fun earlier => ((machine 3).execute (Meets (SoundReplication 3)) [.update 1, .deliver 7]
        earlier).map fun later =>
          ((earlier.servers 1).commitIndex, (later.servers 2).commitIndex)) = some (1, 1) := by
    decide +kernel
  obtain ⟨earlier, first, more⟩ := Option.bind_eq_some_iff.mp ran
  obtain ⟨later, rest, commits⟩ := Option.map_eq_some_iff.mp more
  exact ⟨earlier, later, first, rest, state_machine_safety 3 (Machine.reaches_of_execute first)
    (Machine.reaches_of_execute rest) (by decide) (by decide) (congrArg Prod.fst commits).ge
    (congrArg Prod.snd commits).ge⟩

/-- Of two leaders of one term, server 1 commits its entry, server 3 follows, and server
1 then accepts the log of server 2. -/
def twoCommits : List Event :=
  twoLeaders ++ [.addLog 2 "a", .update 2, .update 1, .deliver 8, .deliver 8, .deliver 8,
    .deliver 8, .update 1, .update 1, .deliver 13, .deliver 5]

/-- One committed index, two entries. -/
theorem twoCommits_logs :
    ∃ cluster, (machine 3).Reaches Machine.anyStep (initial 3) cluster ∧
      (cluster.servers 1).commitIndex = 1 ∧ (cluster.servers 3).commitIndex = 1 ∧
      (cluster.servers 1).logVec[1]? = some ⟨1, 1, true, "ToLeader:2"⟩ ∧
      (cluster.servers 3).logVec[1]? = some ⟨1, 1, true, "ToLeader:1"⟩ := by
  have ran : ((machine 3).execute Machine.anyStep twoCommits (initial 3)).map (fun cluster =>
      decide ((cluster.servers 1).commitIndex = 1 ∧ (cluster.servers 3).commitIndex = 1 ∧
        (cluster.servers 1).logVec[1]? = some ⟨1, 1, true, "ToLeader:2"⟩ ∧
        (cluster.servers 3).logVec[1]? = some ⟨1, 1, true, "ToLeader:1"⟩)) = some true := by
    decide +kernel
  obtain ⟨cluster, reached, differ⟩ := Option.map_eq_some_iff.mp ran
  exact ⟨cluster, Machine.reaches_of_execute reached, of_decide_eq_true differ⟩

end Cluster

end FastDb.Raft
