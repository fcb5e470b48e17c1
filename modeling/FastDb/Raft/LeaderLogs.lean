import FastDb.Foundation.ReplicatedLog
import FastDb.Raft.Elections

/-! # Log matching

With one leader in a term, the log the leader builds is the reference for the
entries of the term. The invariant keeps every log of the cluster and every
synchronisation in flight in line with these references
(`FastDb.Raft.Cluster.Logs`): a follower that accepts entries ends up with the log
the leader had when it sent them (`FastDb.Raft.Server.pushed_eq`). Log matching
(`FastDb.Raft.Cluster.log_matching`) is the agreement of anchored logs.
-/

namespace FastDb.Raft

open Foundation

/-- A synchronisation sent by the leader of its term when its log was the snapshot. -/
structure SentFrom (snapshot : List Log) (args : AppendEntriesArgs) (nextIndex : Nat) : Prop where
  nonempty : snapshot ≠ []
  previous : args.preLogIndex = nextIndex - 1
  previousTerm : args.preLogTerm = (termAt snapshot (nextIndex - 1)).getD 0
  entries : args.logVec = snapshot.drop nextIndex

/-- The term at a position is that of the entry there. -/
theorem termAt_eq_some {logVec : List Log} {position : Int} {term : Nat} :
    termAt logVec position = some term ↔
      0 ≤ position ∧ ∃ entry, logVec[position.toNat]? = some entry ∧ entry.term = term := by
  rw [termAt, Option.ite_none_right_eq_some, Option.map_eq_some_iff]

/-- The term sent along is that of the entry before the ones sent. -/
theorem SentFrom.previousTerm_eq {snapshot : List Log} {args : AppendEntriesArgs}
    {position : Nat} (sent : SentFrom snapshot args (position + 1))
    (inside : position < snapshot.length) : args.preLogTerm = snapshot[position].term := by
  rw [sent.previousTerm, termAt, if_pos (by omega),
    show ((position + 1 : Nat) - 1 : Int).toNat = position by omega,
    List.getElem?_eq_getElem inside]
  rfl

/-- All entries up to the last one sent are those of the log of the leader. -/
theorem SentFrom.ackCount_eq {snapshot : List Log} {args : AppendEntriesArgs} {nextIndex : Nat}
    (sent : SentFrom snapshot args nextIndex) (entries : args.logVec ≠ []) :
    (args.preLogIndex + 1 + args.logVec.length).toNat = snapshot.length := by
  rw [sent.entries, ← List.length_pos_iff, List.length_drop] at entries
  rw [sent.previous, sent.entries, List.length_drop]
  omega

/-- A log that holds the log of the leader without more entries after the ones sent is
that log. -/
theorem SentFrom.eq_of_uncut {server : Server} {snapshot : List Log} {args : AppendEntriesArgs}
    {nextIndex : Nat} (sent : SentFrom snapshot args nextIndex) (entries : args.logVec ≠ [])
    (uncut : server.contains args = false) (held : snapshot <+: server.logVec) :
    snapshot = server.logVec := by
  obtain ⟨rest, whole⟩ := held
  cases rest with
  | nil => rw [← whole, List.append_nil]
  | cons entry rest =>
      -- the entries would be there, with more after them
      have inside : nextIndex ≤ snapshot.length := by
        rw [sent.entries, ← List.length_pos_iff, List.length_drop] at entries
        omega
      have present : server.logVec.drop (args.preLogIndex + 1).toNat =
          args.logVec ++ entry :: rest := by
        rw [sent.previous, show ((nextIndex : Int) - 1 + 1).toNat = nextIndex by omega, ← whole,
          List.drop_append_of_le_length inside, sent.entries]
      rw [Server.contains, present, Bool.and_eq_false_iff] at uncut
      rcases uncut with absent | last
      · exact absurd (List.isPrefixOf_iff_prefix.mpr (List.prefix_append _ _))
          (Bool.eq_false_iff.mp absent)
      · rw [decide_eq_false_iff_not, List.length_append, List.length_cons] at last
        omega

theorem Server.resize_of_le {logVec : List Log} {size : Nat} (within : size ≤ logVec.length) :
    resize logVec size = logVec.take size := by
  rw [resize, Nat.sub_eq_zero_of_le within, List.replicate_zero, List.append_nil]

/-- **Consistency check.** Where it succeeds, the entries complete the log to the
log of the leader. -/
theorem Server.pushed_eq {server : Server} {args : AppendEntriesArgs} {snapshot : List Log}
    {nextIndex : Nat} {leaderLog : Nat → List Log}
    (anchored : Anchored Log.term leaderLog server.logVec)
    (snapshotAnchored : Anchored Log.term leaderLog snapshot)
    (sent : SentFrom snapshot args nextIndex) (entries : args.logVec ≠ [])
    (matching : server.mismatches args = false) :
    nextIndex ≤ server.logVec.length ∧
      server.logVec.take nextIndex = snapshot.take nextIndex ∧ server.pushed args = snapshot := by
  simp only [mismatches, decide_eq_false_iff_not, not_or, not_and, not_not, Int.not_le,
    sent.previous] at matching
  obtain ⟨inside, checked⟩ := matching
  have within : nextIndex ≤ server.logVec.length := by omega
  have more : nextIndex < snapshot.length := by
    by_contra short
    rw [sent.entries, List.drop_eq_nil_of_le (Nat.not_lt.mp short)] at entries
    exact entries rfl
  have samePrefix : server.logVec.take nextIndex = snapshot.take nextIndex := by
    cases nextIndex with
    | zero => rw [List.take_zero, List.take_zero]
    | succ position =>
        have earlier := Nat.lt_of_succ_lt more
        obtain ⟨-, entry, here, sameTerm⟩ := termAt_eq_some.mp (checked (by omega))
        rw [show ((position + 1 : Nat) - 1 : Int).toNat = position by omega] at here
        exact anchored.take_eq snapshotAnchored here (List.getElem?_eq_getElem earlier)
          (sameTerm.trans (sent.previousTerm_eq earlier))
  refine ⟨within, samePrefix, ?_⟩
  rw [pushed, sent.previous, show ((nextIndex : Int) - 1 + 1).toNat = nextIndex by omega,
    resize_of_le within, samePrefix, sent.entries, List.take_append_drop]

namespace Cluster

/-- **Reference logs.** The logs built by the leaders, and what follows them. -/
structure Logs (leaderLog : Nat → List Log) (cluster : Cluster) : Prop where
  genesis : leaderLog 0 = [Server.startLog]
  unled : ∀ term, term ≠ 0 → (∀ leader, .lead leader term ∉ cluster.trace) → leaderLog term = []
  anchored : ∀ id, Anchored Log.term leaderLog (cluster.servers id).logVec
  leaders : ∀ term, Anchored Log.term leaderLog (leaderLog term)
  indexed : ∀ term (position : Nat) (entry : Log), (leaderLog term)[position]? = some entry →
    entry.index = position
  leading : ∀ id, (cluster.servers id).state = .leader →
    .lead id (cluster.servers id).term ∈ cluster.trace ∧
    leaderLog (cluster.servers id).term = (cluster.servers id).logVec ∧
    (cluster.servers id).logVec ≠ []
  sent : ∀ target args, ⟨target, .requestAppendEntries args⟩ ∈ cluster.net →
    ∃ snapshot nextIndex, snapshot <+: leaderLog args.term ∧ SentFrom snapshot args nextIndex

/-- Each started server holds the first entry, which term 0 stands for. -/
theorem logs_initial (size : Nat) :
    Logs (fun term => if term = 0 then [Server.startLog] else []) (initial size) := by
  have start : Anchored Log.term (fun term => if term = 0 then [Server.startLog] else [])
      [Server.startLog] := Anchored.nil.concat (List.prefix_refl _)
  exact {
    genesis := rfl
    unled := fun term positive _ => if_neg positive
    anchored := by
      intro id
      simp only [initial]
      split
      · exact start
      · exact Anchored.nil
    leaders := by
      intro term
      split
      · exact start
      · exact Anchored.nil
    indexed := by
      intro term position entry found
      split at found
      · obtain ⟨inside, rfl⟩ := List.getElem?_eq_some_iff.mp found
        obtain rfl : position = 0 := by simpa using inside
        rfl
      · cases found
    leading := by
      intro id leader
      simp only [initial] at leader
      split at leader <;> cases leader
    sent := fun _ _ member => absurd member List.not_mem_nil }

/-- The references after a turn: a leader's log is the reference of its term. -/
def record (leaderLog : Nat → List Log) (server : Server) : Nat → List Log :=
  if server.state = .leader then Function.update leaderLog server.term server.logVec
  else leaderLog

section Change

variable {size : Nat} {cluster after : Cluster} {event : Event} {id : Nat} {input : Input}
  {effect : Effect} {base : List Packet} {leaderLog : Nat → List Log}

/-- Nothing is recorded of a server that leads neither more nor otherwise. -/
theorem Logs.record_eq (logs : Logs leaderLog cluster)
    (leads : effect.server.state = .leader → (cluster.servers id).state = .leader ∧
      effect.server.term = (cluster.servers id).term ∧
      effect.server.logVec = (cluster.servers id).logVec) :
    record leaderLog effect.server = leaderLog := by
  rw [record]
  split
  · next leader =>
      obtain ⟨was, sameTerm, sameLog⟩ := leads leader
      rw [sameTerm, sameLog, ← (logs.leading id was).2.1, Function.update_eq_self]
  · rfl

/-- A turn that records nothing: the log of the server is anchored, and what it
sends comes from the references. -/
theorem Logs.of_unrecorded (logs : Logs leaderLog cluster)
    (change : Change size cluster event after id input effect base)
    (leads : effect.server.state = .leader → (cluster.servers id).state = .leader ∧
      effect.server.term = (cluster.servers id).term ∧
      effect.server.logVec = (cluster.servers id).logVec)
    (anchored : Anchored Log.term leaderLog effect.server.logVec)
    (sends : ∀ target args, ⟨target, .requestAppendEntries args⟩ ∈ effect.sent →
      ∃ snapshot nextIndex, snapshot <+: leaderLog args.term ∧ SentFrom snapshot args nextIndex) :
    Logs leaderLog after where
  genesis := logs.genesis
  unled term positive none := logs.unled term positive fun leader led =>
    none leader (change.mem_trace.mpr (Or.inl led))
  anchored other := by
    by_cases same : other = id
    · subst same
      rw [change.server_self]
      exact anchored
    · rw [change.server_of_ne same]
      exact logs.anchored other
  leaders := logs.leaders
  indexed := logs.indexed
  leading other leader := by
    by_cases same : other = id
    · subst same
      rw [change.server_self] at leader ⊢
      obtain ⟨was, sameTerm, sameLog⟩ := leads leader
      obtain ⟨led, reference, nonempty⟩ := logs.leading other was
      rw [sameTerm, sameLog]
      exact ⟨change.mem_trace.mpr (Or.inl led), reference, nonempty⟩
    · rw [change.server_of_ne same] at leader ⊢
      obtain ⟨led, reference, nonempty⟩ := logs.leading other leader
      exact ⟨change.mem_trace.mpr (Or.inl led), reference, nonempty⟩
  sent target args member := by
    rcases change.mem_net member with old | new
    · exact logs.sent target args old
    · exact sends target args new

/-- A leader that appends an entry of its own term. -/
theorem Logs.of_grown (logs : Logs leaderLog cluster)
    (change : Change size cluster event after id input effect base)
    (elections : Elections size after) {entry : Log}
    (leader : effect.server.state = .leader)
    (led : .lead id effect.server.term ∈ after.trace)
    (grown : effect.server.logVec = (cluster.servers id).logVec ++ [entry])
    (ownTerm : entry.term = effect.server.term)
    (ownIndex : entry.index = (cluster.servers id).logVec.length)
    (extended : leaderLog effect.server.term <+: (cluster.servers id).logVec)
    (silent : effect.sent = []) :
    (∀ term, leaderLog term <+: record leaderLog effect.server term) ∧
      Logs (record leaderLog effect.server) after := by
  have positive : effect.server.term ≠ 0 :=
    Nat.one_le_iff_ne_zero.mp (elections.positive _ _ _ (elections.voted_of_lead led))
  have recorded : record leaderLog effect.server =
      Function.update leaderLog effect.server.term effect.server.logVec := if_pos leader
  have here : record leaderLog effect.server effect.server.term = effect.server.logVec := by
    rw [recorded, Function.update_self]
  have elsewhere : ∀ term, term ≠ effect.server.term →
      record leaderLog effect.server term = leaderLog term := fun term different => by
    rw [recorded, Function.update_of_ne different]
  have later : ∀ term, leaderLog term <+: record leaderLog effect.server term := by
    intro term
    by_cases same : term = effect.server.term
    · rw [same, here, grown]
      exact extended.trans (List.prefix_append _ _)
    · rw [elsewhere term same]
  have anchored : Anchored Log.term (record leaderLog effect.server) effect.server.logVec := by
    rw [grown]
    apply ((logs.anchored id).mono later).concat
    rw [ownTerm, here, grown]
  refine ⟨later, ?_⟩
  exact {
    genesis := by rw [elsewhere 0 (Ne.symm positive), logs.genesis]
    unled := by
      intro term nonzero none
      have different : term ≠ effect.server.term := by
        rintro rfl
        exact none id led
      rw [elsewhere term different]
      exact logs.unled term nonzero fun leader was => none leader (change.mem_trace.mpr
        (Or.inl was))
    anchored := by
      intro other
      by_cases same : other = id
      · subst same
        rw [change.server_self]
        exact anchored
      · rw [change.server_of_ne same]
        exact (logs.anchored other).mono later
    leaders := by
      intro term
      by_cases same : term = effect.server.term
      · rw [same, here]
        exact anchored
      · rw [elsewhere term same]
        exact (logs.leaders term).mono later
    indexed := by
      intro term position found at_position
      by_cases same : term = effect.server.term
      · rw [same, here, grown] at at_position
        rcases Nat.lt_or_ge position (cluster.servers id).logVec.length with old | new
        · rw [List.getElem?_append_left old] at at_position
          exact logs.indexed _ _ _ ((logs.anchored id).getElem? at_position)
        · rw [List.getElem?_append_right new] at at_position
          obtain ⟨inside, rfl⟩ := List.getElem?_eq_some_iff.mp at_position
          rw [List.length_singleton] at inside
          have last : position = (cluster.servers id).logVec.length := by omega
          rw [List.getElem_singleton, ownIndex, last]
      · rw [elsewhere term same] at at_position
        exact logs.indexed term position found at_position
    leading := by
      intro other otherLeader
      by_cases same : other = id
      · subst same
        rw [change.server_self]
        exact ⟨led, here, by rw [grown]; exact List.concat_ne_nil _ _⟩
      · rw [change.server_of_ne same] at otherLeader ⊢
        obtain ⟨otherLed, reference, nonempty⟩ := logs.leading other otherLeader
        have stillLed := change.mem_trace.mpr (Or.inl otherLed)
        refine ⟨stillLed, ?_, nonempty⟩
        rw [elsewhere, reference]
        intro sameTerm
        exact same (elections.leader_unique stillLed (sameTerm ▸ led))
    sent := by
      intro target args member
      rcases change.mem_net member with old | new
      · obtain ⟨snapshot, nextIndex, isPrefix, sentFrom⟩ := logs.sent target args old
        exact ⟨snapshot, nextIndex, isPrefix.trans (later _), sentFrom⟩
      · exact absurd new (silent ▸ List.not_mem_nil) }

/-- A server that does not become a leader records nothing. -/
theorem leads_of_ne {server next : Server} (role : next.state ≠ .leader) :
    next.state = .leader → server.state = .leader ∧ next.term = server.term ∧
      next.logVec = server.logVec := fun leader => absurd leader role

theorem leads_of_follows {server next : Server} {args : AppendEntriesArgs}
    (follows : Follows server args next) : next.state = .leader →
      server.state = .leader ∧ next.term = server.term ∧ next.logVec = server.logVec :=
  leads_of_ne follows.state_ne

/-- An accepted synchronisation: the entries complete the log to a prefix of the
reference of the term. -/
theorem Logs.pushed (logs : Logs leaderLog cluster)
    (change : Change size cluster event after id input effect base) {args : AppendEntriesArgs}
    (given : input = .call (.requestAppendEntries args))
    (pushes : args ∈ (cluster.servers id).pushes (.call (.requestAppendEntries args))) :
    ∃ snapshot nextIndex, snapshot <+: leaderLog args.term ∧ SentFrom snapshot args nextIndex ∧
      nextIndex ≤ (cluster.servers id).logVec.length ∧
      (cluster.servers id).logVec.take nextIndex = snapshot.take nextIndex ∧
      (cluster.servers id).pushed args = snapshot := by
  obtain ⟨snapshot, nextIndex, isPrefix, sent⟩ := logs.sent id args (change.flying given)
  obtain ⟨-, -, entries, -, matching⟩ := Server.of_pushes pushes
  exact ⟨snapshot, nextIndex, isPrefix, sent, Server.pushed_eq (logs.anchored id)
    ((logs.leaders args.term).of_shorter isPrefix) sent entries matching⟩

/-- A synchronisation carries the log of its leader. -/
theorem sentFrom_of_broadcast {server : Server} {keys : List Nat} {target : Nat}
    {args : AppendEntriesArgs} (nonempty : server.logVec ≠ [])
    (member : ⟨target, .requestAppendEntries args⟩ ∈ server.broadcast keys) :
    args.term = server.term ∧ args.commitIndex = server.commitIndex ∧
      ∃ nextIndex, SentFrom server.logVec args nextIndex := by
  obtain ⟨nextIndex, same⟩ := server.of_broadcast member
  obtain rfl := Call.requestAppendEntries.inj same
  exact ⟨rfl, rfl, nextIndex, nonempty, rfl, rfl, rfl⟩

/-- Where the entry before the ones sent is of the term sent along, the logs agree up
to it. -/
theorem Logs.take_previous (logs : Logs leaderLog cluster) {args : AppendEntriesArgs}
    {snapshot : List Log} {nextIndex : Nat} (isPrefix : snapshot <+: leaderLog args.term)
    (sent : SentFrom snapshot args nextIndex)
    (matching : termAt (cluster.servers id).logVec args.preLogIndex = some args.preLogTerm) :
    ∃ position : Nat, args.preLogIndex = position ∧ position < snapshot.length ∧
      position < (cluster.servers id).logVec.length ∧
      (cluster.servers id).logVec.take (position + 1) = snapshot.take (position + 1) := by
  obtain ⟨positive, entry, found, sameTerm⟩ := termAt_eq_some.mp matching
  cases nextIndex with
  | zero => exact absurd positive (by rw [sent.previous]; decide)
  | succ position =>
      have previous : args.preLogIndex = position := by
        rw [sent.previous]
        omega
      rw [previous, Int.toNat_natCast] at found
      have inLog := (List.getElem?_eq_some_iff.mp found).1
      rcases Nat.lt_or_ge position snapshot.length with inside | outside
      · exact ⟨position, previous, inside, inLog, (logs.anchored id).take_eq
          ((logs.leaders args.term).of_shorter isPrefix) found (List.getElem?_eq_getElem inside)
          (sameTerm.trans (sent.previousTerm_eq inside))⟩
      · -- past the snapshot the term sent along is 0, which only the first entry has
        have zero : args.preLogTerm = 0 := by
          rw [sent.previousTerm, termAt, if_pos (by omega),
            show ((position + 1 : Nat) - 1 : Int).toNat = position by omega,
            List.getElem?_eq_none outside]
          rfl
        have first := (logs.anchored id).getElem? found
        rw [sameTerm, zero, logs.genesis] at first
        have inFirst := (List.getElem?_eq_some_iff.mp first).1
        rw [List.length_singleton] at inFirst
        have nonempty := List.length_pos_of_ne_nil sent.nonempty
        omega

/-- **One turn.** The references only grow, and the logs follow them. -/
theorem Logs.of_change (logs : Logs leaderLog cluster)
    (change : Change size cluster event after id input effect base)
    (elections : Elections size cluster) (afterwards : Elections size after)
    (sound : SoundElection size cluster id input) :
    (∀ term, leaderLog term <+: record leaderLog effect.server term) ∧
      Logs (record leaderLog effect.server) after := by
  -- most turns record nothing
  have unrecorded : ∀ (leads : effect.server.state = .leader →
      (cluster.servers id).state = .leader ∧ effect.server.term = (cluster.servers id).term ∧
        effect.server.logVec = (cluster.servers id).logVec),
      Anchored Log.term leaderLog effect.server.logVec →
      (∀ target args, ⟨target, .requestAppendEntries args⟩ ∈ effect.sent →
        ∃ snapshot nextIndex, snapshot <+: leaderLog args.term ∧
          SentFrom snapshot args nextIndex) →
      (∀ term, leaderLog term <+: record leaderLog effect.server term) ∧
        Logs (record leaderLog effect.server) after := by
    intro leads anchored sends
    rw [logs.record_eq leads]
    exact ⟨fun term => List.prefix_refl _, logs.of_unrecorded change leads anchored sends⟩
  have unsent : effect.Inert → ∀ target args, ⟨target, .requestAppendEntries args⟩ ∈ effect.sent →
      ∃ snapshot nextIndex, snapshot <+: leaderLog args.term ∧ SentFrom snapshot args nextIndex :=
    fun inert target args member => (inert.sent _ member).elim
  have turn := change.turn
  cases turn with
  | quiet quiet =>
      refine unrecorded (fun leader => ?_) ?_ (unsent quiet.inert)
      · rcases quiet.state with same | ⟨-, candidate⟩
        · exact ⟨same ▸ leader, quiet.term, quiet.logVec⟩
        · rw [candidate] at leader
          cases leader
      · rw [quiet.logVec]
        exact logs.anchored id
  | stepDown term down =>
      refine unrecorded (leads_of_ne down.state_ne) ?_ (unsent down.inert)
      rw [down.logVec]
      exact logs.anchored id
  | campaign campaigns =>
      refine unrecorded (leads_of_ne (Server.campaign_state_ne campaigns)) (logs.anchored id) ?_
      intro target args member
      obtain ⟨other, -, same⟩ := List.mem_map.mp member
      exact Call.noConfusion (congrArg Packet.call same)
  | grant args running granted =>
      refine unrecorded (leads_of_ne fun leader => State.noConfusion leader) (logs.anchored id) ?_
      intro target args member
      exact Call.noConfusion (congrArg Packet.call (List.mem_singleton.mp member))
  | count reply running candidate granted =>
      refine unrecorded (leads_of_ne ?_) (logs.anchored id)
        (fun _ _ member => absurd member List.not_mem_nil)
      rw [candidate]
      decide
  | lead reply running candidate granted wins =>
      have led : .lead id (cluster.servers id).term ∈ after.trace := by
        refine change.mem_trace.mpr (Or.inr ?_)
        rw [elections.ids]
        exact List.mem_singleton_self _
      have unled : leaderLog (cluster.servers id).term = [] :=
        logs.unled _ (Nat.one_le_iff_ne_zero.mp (afterwards.positive _ _ _
          (afterwards.voted_of_lead led)))
          (elections.not_led_before change running candidate granted wins sound)
      refine logs.of_grown change afterwards rfl led rfl rfl rfl ?_ rfl
      change leaderLog (cluster.servers id).term <+: _
      rw [unled]
      exact List.nil_prefix
  | sync running leader =>
      obtain ⟨index, committed⟩ := (cluster.servers id).commit_eq
      refine unrecorded (fun _ => ?_) ?_ ?_
      · rw [committed]
        exact ⟨leader, rfl, rfl⟩
      · rw [committed]
        exact logs.anchored id
      · intro target args member
        obtain ⟨-, reference, nonempty⟩ := logs.leading id leader
        obtain ⟨sameTerm, -, nextIndex, sent⟩ := sentFrom_of_broadcast nonempty member
        refine ⟨_, nextIndex, ?_, sent⟩
        rw [sameTerm, reference]
  | heartbeat args =>
      refine unrecorded (leads_of_follows (Server.heartbeat_follows _ args)) ?_
        (fun _ _ member => absurd member List.not_mem_nil)
      rw [Server.heartbeat_logVec]
      exact logs.anchored id
  | confirm args =>
      refine unrecorded (leads_of_follows (Server.follow_follows _ args)) ?_ ?_
      · rw [Server.follow_logVec]
        exact logs.anchored id
      · intro target others member
        exact Call.noConfusion (congrArg Packet.call (List.mem_singleton.mp member))
  | push args pushes =>
      obtain ⟨snapshot, nextIndex, isPrefix, -, -, -, complete⟩ := logs.pushed change rfl pushes
      refine unrecorded (leads_of_follows (Server.push_follows _ args)) ?_ ?_
      · rw [Server.push_logVec, complete]
        exact (logs.leaders args.term).of_shorter isPrefix
      · intro target others member
        exact Call.noConfusion (congrArg Packet.call (List.mem_singleton.mp member))
  | credit reply running leader =>
      exact unrecorded (fun _ => ⟨leader, rfl, rfl⟩) (logs.anchored id)
        (fun _ _ member => absurd member List.not_mem_nil)
  | addLog content running leader =>
      obtain ⟨led, reference, -⟩ := logs.leading id leader
      refine logs.of_grown change afterwards leader (change.mem_trace.mpr (Or.inl led)) rfl rfl rfl
        ?_ rfl
      change leaderLog (cluster.servers id).term <+: _
      rw [reference]

/-- The references exist along every run of sound elections. -/
theorem logs_of_reaches
    (run : (machine size).Reaches (Meets (SoundElection size)) (initial size) cluster) :
    ∃ leaderLog, Logs leaderLog cluster := by
  refine (run.invariant (fun cluster => Elections size cluster ∧
    ∃ leaderLog, Logs leaderLog cluster) ⟨elections_initial size, _, logs_initial size⟩ ?_).2
  rintro before event next ⟨elections, leaderLog, logs⟩ sound stepped
  have afterwards := elections.step sound stepped
  obtain ⟨id, input, effect, base, change⟩ := step_change stepped
  exact ⟨afterwards, _, (logs.of_change change elections afterwards
    (sound (id, input) change.given)).2⟩

end Change

/-- **Log matching.** In every run whose steps cast first votes and count the votes
of their own term, never exactly half of the servers, entries of one index and one
term are one entry at one position, and the logs that hold them agree before it. -/
theorem log_matching (size : Nat) {cluster : Cluster}
    (run : (machine size).Reaches (Meets (SoundElection size)) (initial size) cluster)
    {left right position otherPosition : Nat} {entry other : Log}
    (found : (cluster.servers left).logVec[position]? = some entry)
    (otherFound : (cluster.servers right).logVec[otherPosition]? = some other)
    (sameIndex : entry.index = other.index) (sameTerm : entry.term = other.term) :
    position = otherPosition ∧ entry = other ∧
      (cluster.servers left).logVec.take position =
        (cluster.servers right).logVec.take position := by
  obtain ⟨leaderLog, logs⟩ := logs_of_reaches run
  have anchored := logs.anchored left
  have otherAnchored := logs.anchored right
  have place := logs.indexed _ _ _ (anchored.getElem? found)
  have otherPlace := logs.indexed _ _ _ (otherAnchored.getElem? otherFound)
  obtain rfl : position = otherPosition := by omega
  have agree := anchored.take_eq otherAnchored found otherFound sameTerm
  rw [take_succ_of_getElem? found, take_succ_of_getElem? otherFound] at agree
  obtain ⟨before, last⟩ := List.append_inj' agree rfl
  exact ⟨rfl, List.singleton_inj.mp last, before⟩

/-- Server 1 is elected, adds an entry, and server 2 accepts its log. -/
def oneFollower : List Event :=
  oneLeader ++ [.addLog 1 "x", .update 1, .deliver 3]

/-- The entry a follower accepted is the one the leader holds. -/
theorem log_matching_oneFollower :
    ∃ cluster, (machine 3).execute (Meets (SoundElection 3)) oneFollower (initial 3) =
        some cluster ∧
      ∀ entry other, (cluster.servers 1).logVec[2]? = some entry →
        (cluster.servers 2).logVec[2]? = some other → entry = other := by
  have ran : ((machine 3).execute (Meets (SoundElection 3)) oneFollower (initial 3)).map
      (fun cluster => ((cluster.servers 1).logVec[2]?, (cluster.servers 2).logVec[2]?)) =
      some (some ⟨2, 1, false, "x"⟩, some ⟨2, 1, false, "x"⟩) := by decide +kernel
  obtain ⟨cluster, reached, entries⟩ := Option.map_eq_some_iff.mp ran
  refine ⟨cluster, reached, fun entry other found otherFound => ?_⟩
  have first := found.symm.trans (congrArg Prod.fst entries)
  have second := otherFound.symm.trans (congrArg Prod.snd entries)
  exact (log_matching 3 (Machine.reaches_of_execute reached) found otherFound
    (by rw [Option.some.inj first, Option.some.inj second])
    (by rw [Option.some.inj first, Option.some.inj second])).2.1

/-- Two leaders of one term, each with an entry of its own at position 1. -/
theorem twoLeaders_logs :
    ∃ cluster, (machine 3).Reaches Machine.anyStep (initial 3) cluster ∧
      (cluster.servers 1).logVec[1]? = some ⟨1, 1, true, "ToLeader:1"⟩ ∧
      (cluster.servers 2).logVec[1]? = some ⟨1, 1, true, "ToLeader:2"⟩ := by
  have ran : ((machine 3).execute Machine.anyStep twoLeaders (initial 3)).map
      (fun cluster => ((cluster.servers 1).logVec[1]?, (cluster.servers 2).logVec[1]?)) =
      some (some ⟨1, 1, true, "ToLeader:1"⟩, some ⟨1, 1, true, "ToLeader:2"⟩) := by
    decide +kernel
  obtain ⟨cluster, reached, entries⟩ := Option.map_eq_some_iff.mp ran
  exact ⟨cluster, Machine.reaches_of_execute reached, congrArg Prod.fst entries,
    congrArg Prod.snd entries⟩

end Cluster

end FastDb.Raft
