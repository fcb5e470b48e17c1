import FastDb.Raft.LeaderLogs

/-! # What a server acknowledges

`AddLog` answers a client with `0` for success and with `m_votedfor` for failure, and
these differ where the server has voted for somebody
(`FastDb.Raft.Server.addLog_truthful_iff`). A server that has accepted the entries of
a synchronisation keeps them when an earlier one of the same leader is delivered
late, unless that one is pushed and ends before them
(`FastDb.Raft.late_append_keeps_iff`).
-/

namespace FastDb.Raft

open Foundation

/-! ## Clients -/

namespace Server

/-- `AddLog` appends the client's entry, of the current term, and changes nothing else. -/
def Appends (server after : Server) (content : String) : Prop :=
  ∃ log : Log, log.content = content ∧ log.term = server.term ∧
    after = { server with logVec := server.logVec ++ [log] }

/-- What `AddLog` returns tells whether it appended, and a failure changes nothing. -/
structure Truthful (server : Server) (content : String) : Prop where
  appended : (server.addLog content).1 = 0 ↔ server.Appends (server.addLog content).2 content
  unchanged : (server.addLog content).1 ≠ 0 → (server.addLog content).2 = server

/-- A running leader appends. -/
theorem addLog_of_leader {server : Server} (running : server.isStop = false)
    (leader : server.state = .leader) (content : String) :
    server.addLog content =
      (0, { server with logVec := server.logVec ++ [server.clientLog content] }) := by
  rw [addLog, if_neg]
  rw [running, leader]
  exact fun refused => refused.elim Bool.false_ne_true (absurd rfl)

/-- Any other server returns its last vote. -/
theorem addLog_of_refused {server : Server}
    (refused : ¬(server.isStop = false ∧ server.state = .leader)) (content : String) :
    server.addLog content = (server.votedfor, server) := by
  rw [addLog, if_pos]
  rw [not_and_or, Bool.not_eq_false] at refused
  exact refused

/-- A server that stays as it is has appended nothing. -/
theorem not_appends_self (server : Server) (content : String) :
    ¬server.Appends server content := by
  intro appends
  obtain ⟨log, -, -, same⟩ := appends
  have longer := congrArg (fun server : Server => server.logVec.length) same
  dsimp only at longer
  rw [List.length_append, List.length_singleton] at longer
  omega

/-- **Truthful answers.** In every state of a server, what `AddLog` returns tells
whether it appended exactly when the server is a running leader or has voted. -/
theorem addLog_truthful_iff (server : Server) (content : String) :
    server.Truthful content ↔
      server.isStop = false ∧ server.state = .leader ∨ server.votedfor ≠ 0 := by
  by_cases leads : server.isStop = false ∧ server.state = .leader
  · have added := addLog_of_leader leads.1 leads.2 content
    refine iff_of_true ⟨?_, ?_⟩ (Or.inl leads)
    · rw [added]
      exact iff_of_true rfl ⟨server.clientLog content, rfl, rfl, rfl⟩
    · rw [added]
      exact fun failed => absurd rfl failed
  · have refused := addLog_of_refused leads content
    constructor
    · intro truthful
      right
      intro unvoted
      -- the failure is reported as a success
      have appended := truthful.appended.mp (by rw [refused]; exact unvoted)
      rw [refused] at appended
      exact server.not_appends_self content appended
    · intro condition
      have voted := condition.resolve_left leads
      refine ⟨?_, ?_⟩
      · rw [refused]
        exact iff_of_false voted (server.not_appends_self content)
      · rw [refused]
        exact fun _ => rfl

/-- A server just started answers `0` and appends nothing. -/
theorem addLog_untruthful_started :
    ∃ cluster, (Cluster.machine 1).Reaches Machine.anyStep (Cluster.initial 1) cluster ∧
      ((cluster.servers 1).addLog "entry").1 = 0 ∧
      ((cluster.servers 1).addLog "entry").2.logVec = (cluster.servers 1).logVec ∧
      ¬(cluster.servers 1).Truthful "entry" := by
  refine ⟨Cluster.initial 1, .refl _, rfl, rfl, ?_⟩
  rw [addLog_truthful_iff]
  decide

end Server

/-! ## Synchronisations -/

namespace Server

/-- The two states are of one tenure of a leader, whose log only grows. -/
structure SameTenure (earlier later : Server) : Prop where
  id : earlier.id = later.id
  term : earlier.term = later.term
  grown : earlier.logVec <+: later.logVec

/-- The server takes the entries of a synchronisation as they are: none, committed
ones, or ones after an entry that matches. -/
def Accepts (server : Server) (args : AppendEntriesArgs) : Prop :=
  server.isStop = false ∧ server.term ≤ args.term ∧
    (args.logVec = [] ∨ server.alreadyCommitted args = true ∨ server.mismatches args = false)

/-- The log has every entry of a synchronisation where the leader put it. -/
def HoldsEntries (server : Server) (args : AppendEntriesArgs) : Prop :=
  args.logVec <+: server.logVec.drop (args.preLogIndex + 1).toNat

instance (server : Server) (args : AppendEntriesArgs) : Decidable (server.Accepts args) :=
  inferInstanceAs (Decidable (_ ∧ _ ∧ _))

instance (server : Server) (args : AppendEntriesArgs) : Decidable (server.HoldsEntries args) :=
  inferInstanceAs (Decidable (_ <+: _))

variable {server : Server} {args : AppendEntriesArgs}

/-- Only a synchronisation that is pushed changes the log. -/
theorem requestAppendEntries_logVec (server : Server) (args : AppendEntriesArgs) :
    (server.requestAppendEntries args).server.logVec =
      if server.pushes (.call (.requestAppendEntries args)) = none then server.logVec
      else server.pushed args := by
  rw [requestAppendEntries, pushes]
  dsimp only
  rw [follow_alreadyCommitted, follow_mismatches]
  split
  · next stopped => rw [stopped]; rfl
  · next running =>
      rw [Bool.not_eq_true] at running
      rw [running]
      split
      · next higher => simp [Nat.not_le.mpr higher]
      · next current =>
          split
          · next empty => simp [empty]
          · next entries =>
              cases committed : server.alreadyCommitted args with
              | true => simp
              | false =>
                  cases mismatched : server.mismatches args with
                  | true => simp
                  | false => simp [Nat.not_lt.mp current, entries]

/-- The entries sent begin at the next index. -/
theorem appendEntriesArgs_start (server : Server) (nextIndex : Nat) :
    ((server.appendEntriesArgs nextIndex).preLogIndex + 1).toNat = nextIndex := by
  show ((nextIndex : Int) - 1 + 1).toNat = nextIndex
  omega

/-- Entries pushed follow the part of the log before them. -/
theorem pushed_of_matching (matching : server.mismatches args = false) :
    (args.preLogIndex + 1).toNat ≤ server.logVec.length ∧
      server.pushed args = server.logVec.take (args.preLogIndex + 1).toNat ++ args.logVec := by
  simp only [mismatches, decide_eq_false_iff_not, not_or, Int.not_le] at matching
  have within : (args.preLogIndex + 1).toNat ≤ server.logVec.length := by omega
  exact ⟨within, by rw [pushed, resize_of_le within]⟩

/-- A call pushes nothing or its own arguments. -/
theorem pushes_eq_none_or (server : Server) (args : AppendEntriesArgs) :
    server.pushes (.call (.requestAppendEntries args)) = none ∨
      args ∈ server.pushes (.call (.requestAppendEntries args)) := by
  rw [pushes]
  split
  · exact Or.inr rfl
  · exact Or.inl rfl

/-- What a leader's entries leave where they are pushed. -/
theorem pushed_from {leader : Server} {nextIndex : Nat}
    (pushes : leader.appendEntriesArgs nextIndex ∈
      server.pushes (.call (.requestAppendEntries (leader.appendEntriesArgs nextIndex)))) :
    nextIndex ≤ server.logVec.length ∧ nextIndex < leader.logVec.length ∧
      (server.requestAppendEntries (leader.appendEntriesArgs nextIndex)).server.logVec =
        server.logVec.take nextIndex ++ leader.logVec.drop nextIndex := by
  obtain ⟨-, -, entries, -, matching⟩ := of_pushes pushes
  obtain ⟨within, whole⟩ := pushed_of_matching matching
  rw [appendEntriesArgs_start] at within whole
  have pushed : server.pushes
      (.call (.requestAppendEntries (leader.appendEntriesArgs nextIndex))) ≠ none := by
    rw [pushes]
    exact Option.some_ne_none _
  refine ⟨within, ?_, by rw [requestAppendEntries_logVec, if_neg pushed, whole]; rfl⟩
  rw [← List.length_pos_iff] at entries
  simp only [appendEntriesArgs, List.length_drop] at entries
  omega

/-- A server holds the entries sent exactly if they begin its log from there on. -/
theorem holdsEntries_from (server leader : Server) (nextIndex : Nat) :
    server.HoldsEntries (leader.appendEntriesArgs nextIndex) ↔
      leader.logVec.drop nextIndex <+: server.logVec.drop nextIndex := by
  rw [HoldsEntries, appendEntriesArgs_start]
  rfl

/-- Entries that are accepted are in the log, or the server has committed as many. -/
theorem Accepts.holds_or_committed (accepted : server.Accepts args) :
    (server.requestAppendEntries args).server.HoldsEntries args ∨
      args.logVec ≠ [] ∧
        (server.requestAppendEntries args).server.alreadyCommitted args = true := by
  obtain ⟨running, current, taken⟩ := accepted
  by_cases empty : args.logVec = []
  · left
    rw [HoldsEntries, empty]
    exact List.nil_prefix
  · cases committed : server.alreadyCommitted args with
    | true =>
        right
        have fresh := (server.follow_alreadyCommitted args).trans committed
        simp only [requestAppendEntries, running, Nat.not_lt.mpr current, empty, fresh,
          Bool.false_eq_true, ↓reduceIte]
        exact ⟨empty, trivial⟩
    | false =>
        left
        have matching := (taken.resolve_left empty).resolve_left (by rw [committed]; decide)
        obtain ⟨within, whole⟩ := pushed_of_matching matching
        have pushes : server.pushes (.call (.requestAppendEntries args)) ≠ none := by
          simp [Server.pushes, running, current, empty, committed, matching]
        rw [HoldsEntries, requestAppendEntries_logVec, if_neg pushes, whole,
          List.drop_left' (List.length_take_of_le within)]

end Server

/-- Entries after a position stay where a log is rewritten from another position on with
entries of the same log. -/
theorem drop_prefix_rewritten {log leaderLog : List Log} {first second : Nat}
    (within : first ≤ log.length) (inside : first ≤ leaderLog.length)
    (held : leaderLog.drop second <+: log.drop second) :
    leaderLog.drop second <+: (log.take first ++ leaderLog.drop first).drop second := by
  rcases Nat.le_total first second with before | behind
  · have cut : (log.take first).drop second = [] :=
      List.drop_eq_nil_of_le (by rw [List.length_take_of_le within]; exact before)
    rw [List.drop_append, List.length_take_of_le within, List.drop_drop,
      Nat.add_sub_cancel' before, cut, List.nil_append]
  · -- what was kept holds the beginning of the entries, what was written the rest
    obtain ⟨rest, whole⟩ := held
    have reached : first - second ≤ (leaderLog.drop second).length := by
      rw [List.length_drop]
      omega
    have kept : (log.take first).drop second = (leaderLog.drop second).take (first - second) := by
      rw [List.drop_take, ← whole, List.take_append_of_le_length reached]
    have written : leaderLog.drop first = (leaderLog.drop second).drop (first - second) := by
      rw [List.drop_drop, Nat.add_sub_cancel' behind]
    rw [List.drop_append_of_le_length (by rw [List.length_take_of_le within]; exact behind), kept,
      written, List.take_append_drop]

section LateAppend

variable {follower earlier later : Server} {first second : Nat}

/-- Of two synchronisations of one tenure the earlier one ends no later, so where the
later one is committed, it is not pushed. -/
theorem pushes_late_of_committed (first : Nat) (tenure : Server.SameTenure earlier later)
    (entries : (later.appendEntriesArgs second).logVec ≠ [])
    (committed : follower.alreadyCommitted (later.appendEntriesArgs second) = true) :
    follower.pushes (.call (.requestAppendEntries (earlier.appendEntriesArgs first))) = none := by
  refine (Server.pushes_eq_none_or _ _).resolve_right fun pushes => ?_
  obtain ⟨-, -, more, fresh, -⟩ := Server.of_pushes pushes
  have shorter := tenure.grown.length_le
  simp only [Server.alreadyCommitted, Server.appendEntriesArgs, decide_eq_true_eq,
    decide_eq_false_iff_not, ← List.length_pos_iff, List.length_drop] at *
  omega

/-- A synchronisation that ends before the entries it finds cuts them off. -/
theorem not_holds_of_shorter (tenure : Server.SameTenure earlier later)
    (entries : (later.appendEntriesArgs second).logVec ≠ [])
    (lengths : earlier.logVec.length ≠ later.logVec.length)
    (pushes : earlier.appendEntriesArgs first ∈
      follower.pushes (.call (.requestAppendEntries (earlier.appendEntriesArgs first)))) :
    ¬(follower.requestAppendEntries (earlier.appendEntriesArgs first)).server.HoldsEntries
      (later.appendEntriesArgs second) := by
  intro held
  obtain ⟨within, inside, whole⟩ := Server.pushed_from pushes
  rw [Server.holdsEntries_from, whole] at held
  have shorter := tenure.grown.length_le
  have long := held.length_le
  simp only [Server.appendEntriesArgs, ← List.length_pos_iff, List.length_drop, List.length_append,
    List.length_take_of_le within] at entries long
  omega

/-- A synchronisation with the same log keeps the entries it finds. -/
theorem holds_of_same_log (tenure : Server.SameTenure earlier later)
    (lengths : earlier.logVec.length = later.logVec.length)
    (pushes : earlier.appendEntriesArgs first ∈
      follower.pushes (.call (.requestAppendEntries (earlier.appendEntriesArgs first))))
    (held : follower.HoldsEntries (later.appendEntriesArgs second)) :
    (follower.requestAppendEntries (earlier.appendEntriesArgs first)).server.HoldsEntries
      (later.appendEntriesArgs second) := by
  obtain ⟨within, inside, whole⟩ := Server.pushed_from pushes
  have same := tenure.grown.eq_of_length lengths
  rw [Server.holdsEntries_from] at held ⊢
  rw [same] at inside whole
  rw [whole]
  exact drop_prefix_rewritten within inside.le held

/-- **Late synchronisations.** After a synchronisation is accepted, an earlier one of
the same tenure leaves its entries in the log exactly when they were there and the
earlier one is not pushed, or has nothing to cut off: the later one is without entries
or ends where it does. -/
theorem late_append_keeps_iff (follower : Server) (first second : Nat)
    (tenure : Server.SameTenure earlier later)
    (accepted : follower.Accepts (later.appendEntriesArgs second)) :
    (((follower.requestAppendEntries (later.appendEntriesArgs second)).server.requestAppendEntries
        (earlier.appendEntriesArgs first)).server.HoldsEntries (later.appendEntriesArgs second)) ↔
      (follower.requestAppendEntries (later.appendEntriesArgs second)).server.HoldsEntries
          (later.appendEntriesArgs second) ∧
        ((follower.requestAppendEntries (later.appendEntriesArgs second)).server.pushes
            (.call (.requestAppendEntries (earlier.appendEntriesArgs first))) = none ∨
          (later.appendEntriesArgs second).logVec = [] ∨
          earlier.logVec.length = later.logVec.length) := by
  have entered := accepted.holds_or_committed
  generalize (follower.requestAppendEntries (later.appendEntriesArgs second)).server = after at *
  rcases Server.pushes_eq_none_or after (earlier.appendEntriesArgs first) with idle | pushes
  · -- the log stays as it is
    have same := after.requestAppendEntries_logVec (earlier.appendEntriesArgs first)
    rw [if_pos idle] at same
    rw [Server.HoldsEntries, Server.HoldsEntries, same]
    exact (and_iff_left (Or.inl idle)).symm
  · have held : after.HoldsEntries (later.appendEntriesArgs second) := by
      refine entered.resolve_right fun committed => ?_
      have idle := pushes_late_of_committed first tenure committed.1 committed.2
      rw [idle] at pushes
      cases pushes
    constructor
    · intro kept
      refine ⟨held, Or.inr ?_⟩
      by_contra cut
      rw [not_or] at cut
      exact not_holds_of_shorter tenure cut.1 cut.2 pushes kept
    · intro condition
      obtain ⟨-, idle | empty | lengths⟩ := condition
      · rw [idle] at pushes
        cases pushes
      · rw [Server.HoldsEntries, empty]
        exact List.nil_prefix
      · exact holds_of_same_log tenure lengths pushes held

end LateAppend

/-- The leader of three servers after its election in the first term. -/
def electedLeader : Server :=
  { (Server.start { id := 1 }).campaign with state := .candidate }.toLeader (allObjKey 3)

/-- Two synchronisations with the same log, the later one from position 1 on. -/
theorem late_append_keeps_same_log :
    (((Server.start { id := 2 }).requestAppendEntries
      (electedLeader.appendEntriesArgs 1)).server.requestAppendEntries
        (electedLeader.appendEntriesArgs 0)).server.HoldsEntries
          (electedLeader.appendEntriesArgs 1) :=
  (late_append_keeps_iff (Server.start { id := 2 }) 0 1
    ⟨rfl, rfl, List.prefix_rfl⟩ (by decide)).mpr ⟨by decide, by decide⟩

namespace Cluster

/-- A leader synchronises, adds an entry and synchronises again; server 2 accepts the second
synchronisation, and the first one cuts the entry off. -/
theorem late_append_cuts :
    ∃ sending later, (machine 3).Reaches Machine.anyStep (initial 3) sending ∧
      (machine 3).Reaches Machine.anyStep sending later ∧
      ⟨2, .requestAppendEntries ((sending.servers 1).appendEntriesArgs 0)⟩ ∈ later.net ∧
      ⟨2, .requestAppendEntries ((later.servers 1).appendEntriesArgs 0)⟩ ∈ later.net ∧
      (sending.servers 1).SameTenure (later.servers 1) ∧
      (later.servers 2).Accepts ((later.servers 1).appendEntriesArgs 0) ∧
      ¬(((later.servers 2).requestAppendEntries
          ((later.servers 1).appendEntriesArgs 0)).server.requestAppendEntries
          ((sending.servers 1).appendEntriesArgs 0)).server.HoldsEntries
            ((later.servers 1).appendEntriesArgs 0) := by
  have ran : ((machine 3).execute Machine.anyStep (oneLeader ++ [.update 1]) (initial 3)).bind
      (fun sending => ((machine 3).execute Machine.anyStep [.addLog 1 "x", .update 1] sending).map
        fun later => decide (
          ⟨2, .requestAppendEntries ((sending.servers 1).appendEntriesArgs 0)⟩ ∈ later.net ∧
          ⟨2, .requestAppendEntries ((later.servers 1).appendEntriesArgs 0)⟩ ∈ later.net ∧
          ((sending.servers 1).id = (later.servers 1).id ∧
            (sending.servers 1).term = (later.servers 1).term ∧
            (sending.servers 1).logVec <+: (later.servers 1).logVec) ∧
          (later.servers 2).Accepts ((later.servers 1).appendEntriesArgs 0) ∧
          ¬(((later.servers 2).requestAppendEntries
              ((later.servers 1).appendEntriesArgs 0)).server.requestAppendEntries
              ((sending.servers 1).appendEntriesArgs 0)).server.HoldsEntries
                ((later.servers 1).appendEntriesArgs 0))) = some true := by decide +kernel
  obtain ⟨sending, reached, rest⟩ := Option.bind_eq_some_iff.mp ran
  obtain ⟨later, grown, checked⟩ := Option.map_eq_some_iff.mp rest
  obtain ⟨first, second, tenure, accepted, cut⟩ := of_decide_eq_true checked
  exact ⟨sending, later, Machine.reaches_of_execute reached, Machine.reaches_of_execute grown,
    first, second, ⟨tenure.1, tenure.2.1, tenure.2.2⟩, accepted, cut⟩

end Cluster

end FastDb.Raft
