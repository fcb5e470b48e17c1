import FastDb.Raft.StateMachineSafety

/-! # Match indices

A follower that has acknowledged entries of a leader holds them until it accepts entries
of a leader of a higher term (`FastDb.Raft.Cluster.Held`): another push of the same term
either reaches at least as far or cuts nothing off. A leader that counts acknowledged
entries only then has match indices inside its log, up to which its followers agree with
it (`FastDb.Raft.Cluster.match_index_sound`).
-/

namespace FastDb.Raft

open Foundation

namespace Cluster

/-- A server has accepted entries of a leader of a higher term. -/
def Passed (cluster : Cluster) (id term : Nat) : Prop :=
  ∃ higher count, term < higher ∧ .acked id higher count ∈ cluster.trace

/-- **Acknowledged entries** are held until entries of a higher term are accepted. -/
def Held (leaderLog : Nat → List Log) (cluster : Cluster) : Prop :=
  ∀ id term count, .acked id term count ∈ cluster.trace →
    (leaderLog term).take count <+: (cluster.servers id).logVec ∨ cluster.Passed id term

section Change

variable {size : Nat} {cluster after : Cluster} {event : Event} {id : Nat} {input : Input}
  {effect : Effect} {base : List Packet} {leaderLog later : Nat → List Log}
  {ballot : Nat → Nat → List Log}

/-- A server that has passed a term has passed it later. -/
theorem Change.passed (change : Change size cluster event after id input effect base)
    {other term : Nat} (passed : cluster.Passed other term) : after.Passed other term := by
  obtain ⟨higher, count, above, member⟩ := passed
  exact ⟨higher, count, above, change.mem_trace.mpr (Or.inl member)⟩

/-- Acknowledged entries are entries of the reference, which only grows after them. -/
theorem Commits.take_later (commits : Commits size leaderLog ballot cluster)
    (references : ∀ term, leaderLog term <+: later term) {other term count : Nat}
    (acked : .acked other term count ∈ cluster.trace) :
    (later term).take count = (leaderLog term).take count := by
  have bound : count ≤ (leaderLog term).length :=
    commits.safe.ackBound other term count (Or.inr ⟨count, le_rfl, acked⟩)
  obtain ⟨rest, grown⟩ := references term
  rw [← grown, List.take_append_of_le_length bound]

/-- What a server has acknowledged and a turn of it leaves. -/
theorem Held.of_turn (held : Held leaderLog cluster)
    (commits : Commits size leaderLog ballot cluster) (logs : Logs leaderLog cluster)
    (change : Change size cluster event after id input effect base)
    (ids : ∀ id, (cluster.servers id).id = id) (uncut : KeepsEntries cluster id input)
    {term count : Nat} (acked : .acked id term count ∈ cluster.trace) :
    (leaderLog term).take count <+: effect.server.logVec ∨ after.Passed id term := by
  rcases held id term count acked with holds | passed
  · rcases change.turn.log with kept | ⟨args, pushes, given, pushed, noted⟩
    · exact Or.inl (holds.trans kept)
    · have uncutHere := uncut args pushes
      subst given
      obtain ⟨-, current, entries, -⟩ := Server.of_pushes pushes
      have entered : term ≤ (cluster.servers id).term :=
        commits.safe.ackTerm id term count (Or.inr ⟨count, le_rfl, acked⟩)
      rcases (entered.trans current).eq_or_lt with rfl | higher
      · -- both come from one reference: the push reaches as far, or cuts nothing off
        obtain ⟨snapshot, nextIndex, isPrefix, sent, -, -, complete⟩ :=
          logs.pushed change rfl pushes
        rw [pushed, complete]
        left
        rcases List.prefix_or_prefix_of_prefix (List.take_prefix count _) isPrefix with
          shorter | longer
        · exact shorter
        · rw [sent.eq_of_uncut entries uncutHere (longer.trans holds)]
          exact holds
      · refine Or.inr ⟨args.term, (args.preLogIndex + 1 + args.logVec.length).toNat, higher, ?_⟩
        rw [Server.ackNote, ids] at noted
        exact change.mem_trace.mpr (Or.inr noted)
  · exact Or.inr (change.passed passed)

/-- What a turn acknowledges it leaves in the log. -/
theorem Commits.held_of_noted (commits : Commits size leaderLog ballot cluster)
    (logs : Logs leaderLog cluster) (elections : Elections size cluster)
    (change : Change size cluster event after id input effect base) {other term count : Nat}
    (noted : .acked other term count ∈ effect.notes) :
    other = id ∧ count ≤ (leaderLog term).length ∧
      (leaderLog term).take count <+: effect.server.logVec := by
  obtain ⟨args, given, ack, running, current, entries, source⟩ := change.turn.acked_noted noted
  subst given
  obtain ⟨sameId, rfl, rfl⟩ := Note.acked.inj ack
  refine ⟨sameId.symm.trans (elections.ids id), ?_⟩
  have flying := change.flying rfl
  have holds : ∃ snapshot nextIndex, snapshot <+: leaderLog args.term ∧
      SentFrom snapshot args nextIndex ∧ snapshot <+: effect.server.logVec := by
    rcases source with ⟨pushes, pushed⟩ | ⟨already, same⟩
    · obtain ⟨snapshot, nextIndex, isPrefix, sent, -, -, complete⟩ :=
        logs.pushed change rfl pushes
      exact ⟨snapshot, nextIndex, isPrefix, sent, by rw [pushed, complete]⟩
    · rw [same]
      exact commits.confirmed logs flying (elections.running id running) current entries already
  obtain ⟨snapshot, nextIndex, isPrefix, sent, holds⟩ := holds
  rw [sent.ackCount_eq entries]
  exact ⟨isPrefix.length_le, (List.prefix_iff_eq_take.mp isPrefix) ▸ holds⟩

/-- **One turn** that cuts no entries off keeps acknowledged entries held. -/
theorem Held.of_change (held : Held leaderLog cluster)
    (commits : Commits size leaderLog ballot cluster) (logs : Logs leaderLog cluster)
    (elections : Elections size cluster)
    (change : Change size cluster event after id input effect base)
    (references : ∀ term, leaderLog term <+: later term)
    (uncut : KeepsEntries cluster id input) : Held later after := by
  intro other term count acked
  rcases change.mem_trace.mp acked with old | new
  · rw [commits.take_later references old]
    by_cases same : other = id
    · subst same
      rw [change.server_self]
      exact held.of_turn commits logs change elections.ids uncut old
    · rw [change.server_of_ne same]
      exact (held other term count old).imp_right change.passed
  · obtain ⟨rfl, bound, holds⟩ := commits.held_of_noted logs elections change new
    obtain ⟨rest, grown⟩ := references term
    rw [change.server_self, ← grown, List.take_append_of_le_length bound]
    exact Or.inl holds

/-- Acknowledged entries are held along every run of sound steps. -/
theorem held_of_reaches
    (run : (machine size).Reaches (Meets (SoundReplication size)) (initial size) cluster) :
    ∃ leaderLog ballot, Logs leaderLog cluster ∧ Commits size leaderLog ballot cluster ∧
      Held leaderLog cluster := by
  refine (run.invariant (fun cluster => Elections size cluster ∧ ∃ leaderLog ballot,
    Logs leaderLog cluster ∧ Commits size leaderLog ballot cluster ∧ Held leaderLog cluster)
    ⟨elections_initial size, _, _, logs_initial size, commits_initial size, ?_⟩ ?_).2
  · intro id term count acked
    exact absurd acked List.not_mem_nil
  · rintro before event next ⟨elections, leaderLog, ballot, logs, commits, held⟩ sound stepped
    obtain ⟨afterwards, later, ballots, references, logsAfter, commitsAfter⟩ :=
      commits.of_step logs elections sound stepped
    obtain ⟨id, input, effect, base, change⟩ := step_change stepped
    obtain ⟨-, -, uncut, -⟩ : SoundReplication size before id input :=
      sound (id, input) change.given
    exact ⟨afterwards, later, ballots, logsAfter, commitsAfter,
      held.of_change commits logs elections change references uncut⟩

end Change

/-- The middle of the match indices is one of them. -/
theorem midIndex_mem {matchIndexVec : List Nat} (nonempty : matchIndexVec ≠ []) :
    Server.midIndex matchIndexVec ∈ matchIndexVec := by
  have inside : matchIndexVec.length / 2 < (matchIndexVec.insertionSort (· ≤ ·)).length := by
    rw [List.length_insertionSort]
    exact Nat.div_lt_self (List.length_pos_of_ne_nil nonempty) Nat.one_lt_two
  rw [Server.midIndex, List.getD_eq_getElem?_getD, List.getElem?_eq_getElem inside,
    Option.getD_some]
  exact (List.perm_insertionSort _ _).subset (List.getElem_mem inside)

/-- **Match-index soundness.** In every run of sound steps, every match index of a leader
is inside its log, a follower agrees with the leader up to it unless it has accepted
entries of a leader of a higher term since, and the middle one is inside the log too. -/
theorem match_index_sound (size : Nat) {cluster : Cluster}
    (run : (machine size).Reaches (Meets (SoundReplication size)) (initial size) cluster)
    {leader : Nat} (leads : (cluster.servers leader).state = .leader) :
    (∀ (follower index : Nat), (cluster.servers leader).matchIndexVec[follower]? = some index →
      index < (cluster.servers leader).logVec.length ∧
        (0 < index → (∀ position ≤ index, (cluster.servers follower).logVec[position]? =
          (cluster.servers leader).logVec[position]?) ∨
            cluster.Passed follower (cluster.servers leader).term)) ∧
      Server.midIndex (cluster.servers leader).matchIndexVec <
        (cluster.servers leader).logVec.length := by
  obtain ⟨leaderLog, ballot, logs, commits, held⟩ := held_of_reaches run
  obtain ⟨-, reference, nonempty⟩ := logs.leading leader leads
  have matched : ∀ (follower index : Nat),
      (cluster.servers leader).matchIndexVec[follower]? = some index →
      index < (cluster.servers leader).logVec.length ∧
        (0 < index → (∀ position ≤ index, (cluster.servers follower).logVec[position]? =
          (cluster.servers leader).logVec[position]?) ∨
            cluster.Passed follower (cluster.servers leader).term) := by
    intro follower index found
    rcases Nat.eq_zero_or_pos index with rfl | positive
    · exact ⟨List.length_pos_of_ne_nil nonempty, fun positive => absurd positive (Nat.lt_irrefl 0)⟩
    · obtain ⟨count, further, acked⟩ := commits.matched leader leads follower index found positive
      have bound : count ≤ (leaderLog (cluster.servers leader).term).length :=
        commits.safe.ackBound follower _ count (Or.inr ⟨count, le_rfl, acked⟩)
      rw [reference] at bound
      refine ⟨further.trans bound, fun _ => ?_⟩
      refine (held follower _ count acked).imp_left fun holds position low => ?_
      rw [reference] at holds
      have inside : position < ((cluster.servers leader).logVec.take count).length := by
        rw [List.length_take_of_le bound]
        omega
      obtain ⟨rest, whole⟩ := holds
      rw [← whole, List.getElem?_append_left inside, List.getElem?_take_of_lt (by omega)]
  refine ⟨matched, ?_⟩
  by_cases empty : (cluster.servers leader).matchIndexVec = []
  · rw [empty]
    exact List.length_pos_of_ne_nil nonempty
  · obtain ⟨follower, found⟩ := List.mem_iff_getElem?.mp (midIndex_mem empty)
    exact (matched follower _ found).1

/-- After the tenure's entry is acknowledged by server 3, leader and follower agree up to
the match index. -/
theorem match_index_sound_oneCommit :
    ∃ cluster, (machine 3).execute (Meets (SoundReplication 3)) oneCommit (initial 3) =
        some cluster ∧ (cluster.servers 1).matchIndexVec[3]? = some 1 ∧
      ((∀ position ≤ 1, (cluster.servers 3).logVec[position]? =
        (cluster.servers 1).logVec[position]?) ∨
          cluster.Passed 3 (cluster.servers 1).term) := by
  have ran : ((machine 3).execute (Meets (SoundReplication 3)) oneCommit (initial 3)).map
      (fun cluster => decide ((cluster.servers 1).state = .leader ∧
        (cluster.servers 1).matchIndexVec[3]? = some 1)) = some true := by decide +kernel
  obtain ⟨cluster, reached, matched⟩ := Option.map_eq_some_iff.mp ran
  obtain ⟨leads, found⟩ := of_decide_eq_true matched
  exact ⟨cluster, reached, found, ((match_index_sound 3 (Machine.reaches_of_execute reached)
    leads).1 3 1 found).2 Nat.one_pos⟩

/-- The leader sends its log twice before a reply, and server 2 answers both. -/
def twoReplies : List Event :=
  oneLeader ++ [.update 1, .update 1, .deliver 3, .deliver 5, .deliver 6, .deliver 6]

/-- The match index is past the log of the leader. -/
theorem match_index_past :
    ∃ cluster, (machine 3).Reaches Machine.anyStep (initial 3) cluster ∧
      (cluster.servers 1).isStop = false ∧ (cluster.servers 1).state = .leader ∧
      (cluster.servers 1).logVec.length = 2 ∧
      (cluster.servers 1).matchIndexVec[2]? = some 3 := by
  have ran : ((machine 3).execute Machine.anyStep twoReplies (initial 3)).map (fun cluster =>
      decide ((cluster.servers 1).isStop = false ∧ (cluster.servers 1).state = .leader ∧
        (cluster.servers 1).logVec.length = 2 ∧
        (cluster.servers 1).matchIndexVec[2]? = some 3)) = some true := by decide +kernel
  obtain ⟨cluster, reached, past⟩ := Option.map_eq_some_iff.mp ran
  exact ⟨cluster, Machine.reaches_of_execute reached, of_decide_eq_true past⟩

end Cluster

end FastDb.Raft
