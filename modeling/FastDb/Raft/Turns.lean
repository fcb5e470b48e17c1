import FastDb.Raft.Cluster

/-! # What a step can do

Every event is one turn of one server. A turn is quiet, a step down to another
term, or one of the ten branches that vote, count, lead, write a log, acknowledge
or commit (`FastDb.Raft.Turn`); the quiet turns are all alike for the guarantees.
`FastDb.Raft.Cluster.step_change` says once what a step of the cluster does, and
the invariants are proved from it, one case for each kind of turn.
-/

namespace FastDb.Raft

open Foundation

/-- A call that neither asks for a vote nor grants one nor synchronises. -/
def Call.Inert : Call → Prop
  | .requestVote _ => False
  | .replyVote reply => reply.voteGranted = false
  | .requestAppendEntries _ => False
  | .replyAppendEntries _ => True

/-- A note of the apply loop. -/
def Note.Inert : Note → Prop
  | .applied .. => True
  | _ => False

/-- Nothing sent or noted bears on the guarantees. -/
structure Effect.Inert (effect : Effect) : Prop where
  sent : ∀ packet ∈ effect.sent, packet.call.Inert
  notes : ∀ note ∈ effect.notes, note.Inert

/-- A turn that leaves the term, the log and the commit index alone, and the role
but for a timeout. -/
structure Quiet (server : Server) (input : Input) (effect : Effect) : Prop where
  id : effect.server.id = server.id
  term : effect.server.term = server.term
  logVec : effect.server.logVec = server.logVec
  commitIndex : effect.server.commitIndex = server.commitIndex
  state : effect.server.state = server.state ∨
    server.state = .folower ∧ effect.server.state = .candidate
  voteCount : effect.server.voteCount = server.voteCount ∨ effect.server.voteCount = 0
  matchIndexVec : effect.server.matchIndexVec = server.matchIndexVec ∨
    effect.server.matchIndexVec = []
  isStop : effect.server.isStop = server.isStop ∨ input = .stop ∨ input = .reStart
  inert : effect.Inert

/-- A turn that makes the server a follower in a term and leaves the log and the
commit index alone. -/
structure StepsDown (server : Server) (term : Nat) (effect : Effect) : Prop where
  id : effect.server.id = server.id
  term : effect.server.term = term
  logVec : effect.server.logVec = server.logVec
  commitIndex : effect.server.commitIndex = server.commitIndex
  state : effect.server.state = .folower
  voteCount : effect.server.voteCount = 0 ∨
    server.state = .folower ∧ effect.server.voteCount = server.voteCount
  matchIndexVec : effect.server.matchIndexVec = server.matchIndexVec
  isStop : effect.server.isStop = server.isStop
  inert : effect.Inert

/-- Who steps down does not lead. -/
theorem StepsDown.state_ne {server : Server} {term : Nat} {effect : Effect}
    (down : StepsDown server term effect) : effect.server.state ≠ .leader := by
  intro leads
  exact State.noConfusion (down.state.symm.trans leads)

/-- What accepting a synchronisation makes of a server, but for its log and its commit
index: a follower in the term of the leader. -/
structure Follows (server : Server) (args : AppendEntriesArgs) (next : Server) : Prop where
  id : next.id = server.id
  isStop : next.isStop = server.isStop
  state : next.state = .folower
  term : next.term = args.term
  voteCount : next.voteCount = 0 ∨ server.state = .folower ∧ next.voteCount = server.voteCount
  matchIndexVec : next.matchIndexVec = server.matchIndexVec
  lastApplied : next.lastApplied = server.lastApplied

/-- Who accepts a synchronisation does not lead. -/
theorem Follows.state_ne {server next : Server} {args : AppendEntriesArgs}
    (follows : Follows server args next) : next.state ≠ .leader := by
  intro leads
  exact State.noConfusion (follows.state.symm.trans leads)

/-- Who campaigns is a running candidate. -/
theorem Server.campaigns_iff {server : Server} :
    server.campaigns = true ↔ server.isStop = false ∧ server.state = .candidate := by
  rw [campaigns, Bool.and_eq_true, Bool.not_eq_true', decide_eq_true_eq]

/-- A campaign does not make a leader. -/
theorem Server.campaign_state_ne {server : Server} (campaigns : server.campaigns = true) :
    server.campaign.state ≠ .leader := by
  obtain ⟨-, candidate⟩ := campaigns_iff.mp campaigns
  intro leads
  exact State.noConfusion (candidate.symm.trans leads)

/-- The kinds of turns. -/
inductive Turn (size : Nat) (server : Server) : Input → Effect → Prop where
  | quiet {input : Input} {effect : Effect} (quiet : Quiet server input effect) :
      Turn size server input effect
  | stepDown {call : Call} {effect : Effect} (term : Nat)
      (down : StepsDown server term effect)
      (source : server.term ≤ term ∨ ∃ args ∈ server.yields (.call call), args.term = term) :
      Turn size server (.call call) effect
  | campaign (campaigns : server.campaigns = true) :
      Turn size server .election {
        server := server.campaign
        sent := ((allObjKey size).filter fun id => id ≠ server.id).map fun id =>
          { target := id, call := .requestVote server.campaign.voteArgs }
        notes := [.vote server.id server.campaign.term server.id] }
  | grant (args : VoteArgs) (running : server.isStop = false)
      (granted : server.grants args = true) :
      Turn size server (.call (.requestVote args)) {
        server := server.toFollower args.term args.candidateId
        sent := [{ target := args.candidateId
                   call := .replyVote { term := args.term, voteGranted := true } }]
        notes := [.vote server.id args.term args.candidateId] }
  | count (reply : VoteReply) (running : server.isStop = false)
      (candidate : server.state = .candidate) (granted : reply.voteGranted = true) :
      Turn size server (.call (.replyVote reply)) {
        server := { server with voteCount := server.voteCount + 1 } }
  | lead (reply : VoteReply) (running : server.isStop = false)
      (candidate : server.state = .candidate) (granted : reply.voteGranted = true)
      (wins : server.wins (allObjKey size) = true) :
      Turn size server (.call (.replyVote reply)) {
        server := { server with voteCount := server.voteCount + 1 }.toLeader (allObjKey size)
        notes := [.lead server.id server.term] }
  | sync (running : server.isStop = false) (leader : server.state = .leader) :
      Turn size server .timer
        { server.commit.apply with sent := server.broadcast (allObjKey size) }
  | heartbeat (args : AppendEntriesArgs) (running : server.isStop = false)
      (current : server.term ≤ args.term) (empty : args.logVec = []) :
      Turn size server (.call (.requestAppendEntries args)) {
        server := (server.follow args).heartbeatCommit args }
  | confirm (args : AppendEntriesArgs) (running : server.isStop = false)
      (current : server.term ≤ args.term) (entries : args.logVec ≠ [])
      (committed : server.alreadyCommitted args = true) :
      Turn size server (.call (.requestAppendEntries args)) {
        server := server.follow args
        sent := [(server.follow args).appendReply args true]
        notes := [server.ackNote args] }
  | push (args : AppendEntriesArgs) (pushes : args ∈ server.pushes
        (.call (.requestAppendEntries args))) :
      Turn size server (.call (.requestAppendEntries args)) {
        server := (server.follow args).logPush args
        sent := [((server.follow args).logPush args).appendReply args true]
        notes := [server.ackNote args] }
  | credit (reply : AppendEntriesReply) (running : server.isStop = false)
      (leader : server.state = .leader) (success : reply.success = true)
      (nextIndex matchIndex : Nat) (next : server.nextIndexVec[reply.id]? = some nextIndex)
      (matched : server.matchIndexVec[reply.id]? = some matchIndex) :
      Turn size server (.call (.replyAppendEntries reply)) {
        server := { server with
          matchIndexVec := server.matchIndexVec.set reply.id
            (max matchIndex (nextIndex + reply.logCount - 1))
          nextIndexVec := server.nextIndexVec.set reply.id (nextIndex + reply.logCount) } }
  | addLog (content : String) (running : server.isStop = false)
      (leader : server.state = .leader) :
      Turn size server (.client content) {
        server := { server with logVec := server.logVec ++ [server.clientLog content] } }

section Handlers

variable (size : Nat) (server : Server)

/-- An effect that neither changes the server nor sends or notes is inert. -/
theorem Effect.inert_of_silent (server : Server) : Effect.Inert { server } :=
  ⟨(fun _ member => nomatch member), (fun _ member => nomatch member)⟩

/-- A server that stays as it is is quiet. -/
theorem Quiet.same (server : Server) (input : Input) : Quiet server input { server } where
  id := rfl
  term := rfl
  logVec := rfl
  commitIndex := rfl
  state := Or.inl rfl
  voteCount := Or.inl rfl
  matchIndexVec := Or.inl rfl
  isStop := Or.inl rfl
  inert := Effect.inert_of_silent server

/-- A timer keeps to the apply loop unless the server is a leader. -/
theorem Server.update_turn :
    Turn size server .timer (server.update (allObjKey size)) := by
  have applies : ∀ server : Server, server.apply.Inert := by
    intro server
    refine ⟨(fun _ member => nomatch member), fun note member => ?_⟩
    obtain ⟨index, -, rfl⟩ := List.mem_map.mp member
    exact trivial
  rw [update]
  split
  · exact .quiet (Quiet.same server _)
  · next running =>
      split
      · next leader => exact .sync (Bool.eq_false_iff.mpr running) leader
      · exact .quiet ⟨rfl, rfl, rfl, rfl, Or.inl rfl, Or.inl rfl, Or.inl rfl, Or.inl rfl,
          applies _⟩
      · next follower =>
          refine .quiet ⟨?_, ?_, ?_, ?_, ?_, ?_, ?_, ?_, applies _⟩
          all_goals dsimp only
          all_goals split
          all_goals first
            | rfl
            | exact Or.inl rfl
            | exact Or.inr ⟨follower, rfl⟩
      · exact .quiet (Quiet.same server _)

/-- `RequestVote` is a turn. -/
theorem Server.requestVote_turn (args : VoteArgs) :
    Turn size server (.call (.requestVote args)) (server.requestVote args) := by
  rw [requestVote]
  split
  · exact .quiet (Quiet.same server _)
  · next running =>
      have runs : server.isStop = false := Bool.eq_false_iff.mpr running
      cases granted : server.grants args with
      | true => exact .grant args runs granted
      | false =>
          by_cases leader : server.state = .leader
          · simp only [leader, ↓reduceIte, Bool.false_eq_true]
            refine .stepDown args.term ⟨rfl, rfl, rfl, rfl, rfl, Or.inl rfl, rfl, rfl, ?_, ?_⟩
              (Or.inr ⟨args, ?_, rfl⟩)
            · exact fun packet member => List.mem_singleton.mp member ▸ rfl
            · exact fun _ member => nomatch member
            · simp [yields, runs, leader]
          · simp only [leader, ↓reduceIte, Bool.false_eq_true]
            refine .quiet ⟨rfl, rfl, rfl, rfl, Or.inl rfl, Or.inl rfl, Or.inl rfl, Or.inl rfl,
              ?_, ?_⟩
            · exact fun packet member => List.mem_singleton.mp member ▸ rfl
            · exact fun _ member => nomatch member

/-- `ReplyVote` is a turn. -/
theorem Server.replyVote_turn (reply : VoteReply) :
    Turn size server (.call (.replyVote reply)) (server.replyVote (allObjKey size) reply) := by
  rw [replyVote]
  split
  · exact .quiet (Quiet.same server _)
  · next active =>
      rw [not_or, Bool.not_eq_true, not_not] at active
      obtain ⟨running, candidate⟩ := active
      split
      · next granted =>
          dsimp only
          split
          · next wins => exact .lead reply running candidate granted wins
          · exact .count reply running candidate granted
      · split
        · next higher =>
            exact .stepDown reply.term ⟨rfl, rfl, rfl, rfl, rfl, Or.inl rfl, rfl, rfl,
              Effect.inert_of_silent _⟩ (Or.inl (Nat.le_of_lt higher))
        · exact .quiet (Quiet.same server _)

@[simp] theorem Server.follow_id (args : AppendEntriesArgs) :
    (server.follow args).id = server.id := by
  rw [follow]
  dsimp only
  split <;> rfl

@[simp] theorem Server.follow_term (args : AppendEntriesArgs) :
    (server.follow args).term = args.term := by
  rw [follow]
  dsimp only
  split <;> rfl

@[simp] theorem Server.follow_logVec (args : AppendEntriesArgs) :
    (server.follow args).logVec = server.logVec := by
  rw [follow]
  dsimp only
  split <;> rfl

/-- What is pushed does not depend on the leader followed. -/
theorem Server.follow_pushed (args : AppendEntriesArgs) :
    (server.follow args).pushed args = server.pushed args := by
  rw [pushed, pushed, follow_logVec]

@[simp] theorem Server.follow_commitIndex (args : AppendEntriesArgs) :
    (server.follow args).commitIndex = server.commitIndex := by
  rw [follow]
  dsimp only
  split <;> rfl

@[simp] theorem Server.follow_matchIndexVec (args : AppendEntriesArgs) :
    (server.follow args).matchIndexVec = server.matchIndexVec := by
  rw [follow]
  dsimp only
  split <;> rfl

@[simp] theorem Server.follow_isStop (args : AppendEntriesArgs) :
    (server.follow args).isStop = server.isStop := by
  rw [follow]
  dsimp only
  split <;> rfl

@[simp] theorem Server.follow_state (args : AppendEntriesArgs) :
    (server.follow args).state = .folower := by
  rw [follow]
  dsimp only
  split
  · rfl
  · next follower => exact not_not.mp follower

/-- Following counts the votes anew, or the server followed already. -/
theorem Server.follow_voteCount (args : AppendEntriesArgs) :
    (server.follow args).voteCount = 0 ∨
      server.state = .folower ∧ (server.follow args).voteCount = server.voteCount := by
  rw [follow]
  dsimp only
  split
  · exact Or.inl rfl
  · next follower => exact Or.inr ⟨not_not.mp follower, rfl⟩

@[simp] theorem Server.follow_lastApplied (args : AppendEntriesArgs) :
    (server.follow args).lastApplied = server.lastApplied := by
  rw [follow]
  dsimp only
  split <;> rfl

/-- Following does not change whether the entries sent are committed. -/
theorem Server.follow_alreadyCommitted (args : AppendEntriesArgs) :
    (server.follow args).alreadyCommitted args = server.alreadyCommitted args := by
  rw [alreadyCommitted, alreadyCommitted, follow_commitIndex]

/-- Following leaves the check of the entry before. -/
theorem Server.follow_mismatches (args : AppendEntriesArgs) :
    (server.follow args).mismatches args = server.mismatches args := by
  rw [mismatches, mismatches, follow_logVec]

/-- Committing sets the commit index and nothing else. -/
theorem Server.commit_eq : ∃ index, server.commit = { server with commitIndex := index } := by
  rw [commit]
  split
  · exact ⟨_, rfl⟩
  · exact ⟨server.commitIndex, rfl⟩

/-- A heartbeat sets the commit index only. -/
theorem Server.heartbeatCommit_eq (args : AppendEntriesArgs) :
    ∃ index, server.heartbeatCommit args = { server with commitIndex := index } := by
  rw [heartbeatCommit]
  split
  · exact ⟨_, rfl⟩
  · exact ⟨server.commitIndex, rfl⟩

/-- Pushing sets the log and the commit index and nothing else. -/
theorem Server.logPush_eq (args : AppendEntriesArgs) : ∃ index, server.logPush args =
    { server with logVec := server.pushed args, commitIndex := index } := by
  rw [logPush]
  dsimp only
  split
  · exact ⟨_, rfl⟩
  · exact ⟨server.commitIndex, rfl⟩

/-- Following alone. -/
theorem Server.follow_follows (args : AppendEntriesArgs) :
    Follows server args (server.follow args) where
  id := server.follow_id args
  isStop := server.follow_isStop args
  state := server.follow_state args
  term := server.follow_term args
  voteCount := server.follow_voteCount args
  matchIndexVec := server.follow_matchIndexVec args
  lastApplied := server.follow_lastApplied args

/-- Following with a heartbeat. -/
theorem Server.heartbeat_follows (args : AppendEntriesArgs) :
    Follows server args ((server.follow args).heartbeatCommit args) := by
  obtain ⟨index, committed⟩ := (server.follow args).heartbeatCommit_eq args
  rw [committed]
  exact { server.follow_follows args with }

/-- Following with entries. -/
theorem Server.push_follows (args : AppendEntriesArgs) :
    Follows server args ((server.follow args).logPush args) := by
  obtain ⟨index, pushed⟩ := (server.follow args).logPush_eq args
  rw [pushed]
  exact { server.follow_follows args with }

/-- A heartbeat leaves the log. -/
@[simp] theorem Server.heartbeat_logVec (args : AppendEntriesArgs) :
    ((server.follow args).heartbeatCommit args).logVec = server.logVec := by
  obtain ⟨index, committed⟩ := (server.follow args).heartbeatCommit_eq args
  rw [committed]
  exact server.follow_logVec args

/-- Entries are pushed onto the server's log. -/
@[simp] theorem Server.push_logVec (args : AppendEntriesArgs) :
    ((server.follow args).logPush args).logVec = server.pushed args := by
  obtain ⟨index, pushed⟩ := (server.follow args).logPush_eq args
  rw [pushed]
  exact server.follow_pushed args

/-- What is sent along in a broadcast synchronises. -/
theorem Server.of_broadcast {keys : List Nat} {packet : Packet}
    (member : packet ∈ server.broadcast keys) :
    ∃ nextIndex, packet.call = .requestAppendEntries (server.appendEntriesArgs nextIndex) := by
  obtain ⟨target, -, sends⟩ := List.mem_filterMap.mp member
  split at sends
  · cases sends
  · obtain ⟨nextIndex, -, same⟩ := Option.map_eq_some_iff.mp sends
    exact ⟨nextIndex, congrArg Packet.call same.symm⟩

/-- `RequestAppendEntries` is a turn. -/
theorem Server.requestAppendEntries_turn (args : AppendEntriesArgs) :
    Turn size server (.call (.requestAppendEntries args)) (server.requestAppendEntries args) := by
  have single : ∀ (after : Server) (result : Bool), Effect.Inert {
      server := after, sent := [after.appendReply args result] } := fun after result =>
    ⟨(fun packet member => List.mem_singleton.mp member ▸ trivial),
      (fun _ member => nomatch member)⟩
  rw [requestAppendEntries]
  split
  · exact .quiet (Quiet.same server _)
  · next running =>
      have runs : server.isStop = false := Bool.eq_false_iff.mpr running
      split
      · exact .quiet ⟨rfl, rfl, rfl, rfl, Or.inl rfl, Or.inl rfl, Or.inl rfl, Or.inl rfl,
          single server false⟩
      · next fresh =>
          have current : server.term ≤ args.term := Nat.le_of_not_lt fresh
          have sameNote : (server.follow args).ackNote args = server.ackNote args := by
            rw [ackNote, ackNote, follow_id]
          have pushNote : ((server.follow args).logPush args).ackNote args =
              server.ackNote args := by
            rw [ackNote, ackNote, (server.push_follows args).id]
          dsimp only
          rw [follow_alreadyCommitted, follow_mismatches, sameNote, pushNote]
          split
          · next empty => exact .heartbeat args runs current empty
          · next entries =>
              split
              · next committed => exact .confirm args runs current entries committed
              · next uncommitted =>
                  split
                  · exact .stepDown args.term ⟨server.follow_id args, server.follow_term args,
                      server.follow_logVec args, server.follow_commitIndex args,
                      server.follow_state args, server.follow_voteCount args,
                      server.follow_matchIndexVec args, server.follow_isStop args, single _ false⟩
                      (Or.inl current)
                  · next matching =>
                      refine .push args ?_
                      simp [pushes, runs, current, entries, Bool.eq_false_iff.mpr uncommitted,
                        Bool.eq_false_iff.mpr matching]

/-- `ReplyAppendEntries` is a turn. -/
theorem Server.replyAppendEntries_turn (reply : AppendEntriesReply) :
    Turn size server (.call (.replyAppendEntries reply)) (server.replyAppendEntries reply) := by
  rw [replyAppendEntries]
  split
  · exact .quiet (Quiet.same server _)
  · next active =>
      rw [not_or, Bool.not_eq_true, not_not] at active
      obtain ⟨running, leader⟩ := active
      split
      · exact .quiet (Quiet.same server _)
      · next nextIndex next =>
          split
          · next success =>
              split
              · exact .quiet (Quiet.same server _)
              · next matchIndex matched =>
                  exact .credit reply running leader success nextIndex matchIndex next matched
          · split
            · exact .quiet ⟨rfl, rfl, rfl, rfl, Or.inl rfl, Or.inl rfl, Or.inl rfl, Or.inl rfl,
                Effect.inert_of_silent _⟩
            · exact .quiet (Quiet.same server _)

/-- A delivery is a turn. -/
theorem Call.deliver_turn (call : Call) :
    Turn size server (.call call) (call.deliver (allObjKey size) server) := by
  cases call with
  | requestVote args => exact server.requestVote_turn size args
  | replyVote reply => exact server.replyVote_turn size reply
  | requestAppendEntries args => exact server.requestAppendEntries_turn size args
  | replyAppendEntries reply => exact server.replyAppendEntries_turn size reply

/-- `AddLog` is a turn. -/
theorem Server.addLog_turn (content : String) :
    Turn size server (.client content) { server := (server.addLog content).2 } := by
  rw [addLog]
  split
  · exact .quiet (Quiet.same server _)
  · next active =>
      rw [not_or, Bool.not_eq_true, not_not] at active
      exact .addLog content active.1 active.2

/-- `Stop` is a turn. -/
theorem Server.stop_turn : Turn size server .stop { server := server.stop } :=
  .quiet ⟨rfl, rfl, rfl, rfl, Or.inl rfl, Or.inl rfl, Or.inl rfl, Or.inr (Or.inl rfl),
    Effect.inert_of_silent _⟩

/-- `ReStart` is a turn. -/
theorem Server.reStart_turn : Turn size server .reStart { server := server.reStart } :=
  .quiet ⟨rfl, rfl, rfl, rfl, Or.inl rfl, Or.inr rfl, Or.inr rfl, Or.inr (Or.inr rfl),
    Effect.inert_of_silent _⟩

end Handlers

/-- What is delivered does not stop or start a server. -/
theorem Turn.isStop {size : Nat} {server : Server} {input : Input} {effect : Effect}
    (turn : Turn size server input effect) :
    effect.server.isStop = server.isStop ∨ input = .stop ∨ input = .reStart := by
  cases turn with
  | quiet quiet => exact quiet.isStop
  | stepDown _ down => exact Or.inl down.isStop
  | sync =>
      obtain ⟨index, committed⟩ := server.commit_eq
      exact Or.inl (by rw [committed]; rfl)
  | heartbeat args => exact Or.inl (server.heartbeat_follows args).isStop
  | confirm args => exact Or.inl (server.follow_follows args).isStop
  | push args => exact Or.inl (server.push_follows args).isStop
  | campaign | grant | count | lead | credit | addLog => exact Or.inl rfl

/-- Entries are pushed by a running server, in the term of their leader or from a lower
one, past what it has committed and after an entry that matches. -/
theorem Server.of_pushes {server : Server} {args : AppendEntriesArgs}
    (pushes : args ∈ server.pushes (.call (.requestAppendEntries args))) :
    server.isStop = false ∧ server.term ≤ args.term ∧ args.logVec ≠ [] ∧
      server.alreadyCommitted args = false ∧ server.mismatches args = false := by
  rw [Server.pushes, Option.mem_def, Option.ite_none_right_eq_some] at pushes
  simp only [Bool.and_eq_true, Bool.not_eq_true', decide_eq_true_eq] at pushes
  obtain ⟨⟨⟨⟨⟨running, current⟩, entries⟩, fresh⟩, matching⟩, -⟩ := pushes
  exact ⟨running, current, entries, fresh, matching⟩

section Inversion

variable {size : Nat} {server : Server} {input : Input} {effect : Effect}

/-- No turn changes the id. -/
theorem Turn.id (turn : Turn size server input effect) : effect.server.id = server.id := by
  cases turn with
  | quiet quiet => exact quiet.id
  | stepDown _ down => exact down.id
  | sync =>
      obtain ⟨index, committed⟩ := server.commit_eq
      rw [committed]
      rfl
  | heartbeat args => exact (server.heartbeat_follows args).id
  | confirm args => exact (server.follow_follows args).id
  | push args => exact (server.push_follows args).id
  | campaign | grant | count | lead | credit | addLog => rfl

/-- Only a request for a vote lowers a term. -/
theorem Turn.term_le (turn : Turn size server input effect) :
    server.term ≤ effect.server.term ∨
      ∃ args ∈ server.yields input, effect.server.term = args.term := by
  cases turn with
  | quiet quiet => exact Or.inl quiet.term.ge
  | stepDown term down source =>
      rw [down.term]
      exact source.imp_right fun ⟨args, yields, same⟩ => ⟨args, yields, same.symm⟩
  | campaign => exact Or.inl (Nat.le_succ _)
  | grant args running granted =>
      refine Or.inr ⟨args, ?_, rfl⟩
      rw [Server.yields, running, granted]
      exact Option.mem_some_self _
  | sync =>
      obtain ⟨index, committed⟩ := server.commit_eq
      rw [committed]
      exact Or.inl le_rfl
  | heartbeat args running current =>
      exact Or.inl (current.trans (server.heartbeat_follows args).term.ge)
  | confirm args running current =>
      exact Or.inl (current.trans (server.follow_follows args).term.ge)
  | push args pushes =>
      obtain ⟨-, current, -⟩ := Server.of_pushes pushes
      exact Or.inl (current.trans (server.push_follows args).term.ge)
  | count | lead | credit | addLog => exact Or.inl le_rfl

/-- A request for a vote that is yielded to sets the term. -/
theorem Server.requestVote_term {args : VoteArgs}
    (yields : args ∈ server.yields (.call (.requestVote args))) :
    (server.requestVote args).server.term = args.term := by
  rw [Server.yields, Option.mem_def, Option.ite_none_right_eq_some] at yields
  simp only [Bool.and_eq_true, Bool.not_eq_true', Bool.or_eq_true, decide_eq_true_eq] at yields
  obtain ⟨⟨running, source⟩, -⟩ := yields
  rw [requestVote, running]
  cases granted : server.grants args with
  | true => rfl
  | false =>
      rw [granted] at source
      simp only [Bool.false_eq_true, false_or] at source
      simp only [source, Bool.false_eq_true, ↓reduceIte]
      rfl

/-- Where a vote comes from: the server's own in a campaign, or a request granted. -/
theorem Turn.vote_noted (turn : Turn size server input effect) {voter term candidate : Nat}
    (noted : .vote voter term candidate ∈ effect.notes) :
    voter = server.id ∧ effect.server.term = term ∧ server.isStop = false ∧
      term ∈ server.casts input ∧
      (term = server.term + 1 ∧ candidate = server.id ∧ input = .election ∨
        ∃ args, input = .call (.requestVote args) ∧ server.grants args = true ∧
          args.term = term ∧ args.candidateId = candidate) := by
  cases turn with
  | quiet quiet => exact (quiet.inert.notes _ noted).elim
  | stepDown _ down => exact (down.inert.notes _ noted).elim
  | campaign campaigns =>
      obtain ⟨rfl, rfl, rfl⟩ := Note.vote.inj (List.mem_singleton.mp noted)
      have casts : server.campaign.term ∈ server.casts .election := by
        rw [Server.casts, if_pos campaigns]
        exact Option.mem_some_self _
      obtain ⟨running, -⟩ := Server.campaigns_iff.mp campaigns
      exact ⟨rfl, rfl, running, casts, Or.inl ⟨rfl, rfl, rfl⟩⟩
  | grant args running granted =>
      obtain ⟨rfl, rfl, rfl⟩ := Note.vote.inj (List.mem_singleton.mp noted)
      refine ⟨rfl, rfl, running, ?_, Or.inr ⟨args, rfl, granted, rfl, rfl⟩⟩
      rw [Server.casts, running, granted]
      exact Option.mem_some_self _
  | lead => exact Note.noConfusion (List.mem_singleton.mp noted)
  | sync =>
      obtain ⟨index, -, same⟩ := List.mem_map.mp noted
      exact Note.noConfusion same
  | confirm => exact Note.noConfusion (List.mem_singleton.mp noted)
  | push => exact Note.noConfusion (List.mem_singleton.mp noted)
  | count | heartbeat | credit | addLog => exact absurd noted List.not_mem_nil

/-- One turn casts one vote at most. -/
theorem Turn.vote_unique (turn : Turn size server input effect)
    {voter term candidate other : Nat} (noted : .vote voter term candidate ∈ effect.notes)
    (otherNoted : .vote voter term other ∈ effect.notes) : candidate = other := by
  obtain ⟨-, -, -, -, ⟨-, rfl, given⟩ | ⟨args, given, -, -, rfl⟩⟩ := turn.vote_noted noted
  · obtain ⟨-, -, -, -, ⟨-, rfl, -⟩ | ⟨others, otherGiven, -⟩⟩ := turn.vote_noted otherNoted
    · rfl
    · exact Input.noConfusion (given.symm.trans otherGiven)
  · obtain ⟨-, -, -, -, ⟨-, -, otherGiven⟩ | ⟨others, otherGiven, -, -, rfl⟩⟩ :=
      turn.vote_noted otherNoted
    · exact Input.noConfusion (given.symm.trans otherGiven)
    · obtain rfl := Call.requestVote.inj (Input.call.inj (given.symm.trans otherGiven))
      rfl

/-- Where a granted vote comes from. -/
theorem Turn.granted_sent (turn : Turn size server input effect) {target term : Nat}
    (granted : ⟨target, .replyVote { term := term, voteGranted := true }⟩ ∈ effect.sent) :
    ∃ args, input = .call (.requestVote args) ∧ .vote server.id term target ∈ effect.notes ∧
      effect.sent = [⟨target, .replyVote { term := term, voteGranted := true }⟩] := by
  cases turn with
  | quiet quiet => exact Bool.noConfusion (quiet.inert.sent _ granted)
  | stepDown _ down => exact Bool.noConfusion (down.inert.sent _ granted)
  | campaign =>
      obtain ⟨other, -, same⟩ := List.mem_map.mp granted
      exact Call.noConfusion (congrArg Packet.call same)
  | grant args running =>
      have same := List.mem_singleton.mp granted
      obtain rfl : target = args.candidateId := congrArg Packet.target same
      obtain rfl : term = args.term :=
        congrArg VoteReply.term (Call.replyVote.inj (congrArg Packet.call same))
      exact ⟨args, rfl, List.mem_singleton_self _, rfl⟩
  | sync =>
      obtain ⟨nextIndex, same⟩ := server.of_broadcast granted
      exact Call.noConfusion same
  | confirm | push => exact Call.noConfusion (congrArg Packet.call (List.mem_singleton.mp granted))
  | count | lead | heartbeat | credit | addLog => exact absurd granted List.not_mem_nil

/-- Where a request for a vote comes from. -/
theorem Turn.request_sent (turn : Turn size server input effect) {target : Nat} {args : VoteArgs}
    (asks : ⟨target, .requestVote args⟩ ∈ effect.sent) :
    target ≠ server.id ∧ args.candidateId = server.id ∧ args.term = server.term + 1 ∧
      .vote server.id (server.term + 1) server.id ∈ effect.notes := by
  cases turn with
  | quiet quiet => exact (quiet.inert.sent _ asks).elim
  | stepDown _ down => exact (down.inert.sent _ asks).elim
  | campaign =>
      obtain ⟨other, foreign, same⟩ := List.mem_map.mp asks
      obtain rfl : other = target := congrArg Packet.target same
      obtain rfl := Call.requestVote.inj (congrArg Packet.call same)
      exact ⟨of_decide_eq_true (List.mem_filter.mp foreign).2, rfl, rfl,
        List.mem_singleton_self _⟩
  | grant | confirm | push =>
      exact Call.noConfusion (congrArg Packet.call (List.mem_singleton.mp asks))
  | sync =>
      obtain ⟨nextIndex, same⟩ := server.of_broadcast asks
      exact Call.noConfusion same
  | count | lead | heartbeat | credit | addLog => exact absurd asks List.not_mem_nil

/-- A tenure begins with a granted vote that is counted, and an entry of the leader. -/
theorem Turn.lead_noted (turn : Turn size server input effect) {leader term : Nat}
    (noted : .lead leader term ∈ effect.notes) :
    leader = server.id ∧ term = server.term ∧ effect.server.state = .leader ∧
      effect.server.term = server.term ∧
      effect.server.logVec = server.logVec ++ [server.leaderLog] ∧
      effect.server.voteCount = 0 ∧ server.wins (allObjKey size) = true ∧
      ∃ reply ∈ server.counts input,
        input = .call (.replyVote { term := reply.term, voteGranted := true }) := by
  cases turn with
  | quiet quiet => exact (quiet.inert.notes _ noted).elim
  | stepDown _ down => exact (down.inert.notes _ noted).elim
  | lead reply running candidate granted wins =>
      obtain ⟨rfl, rfl⟩ := Note.lead.inj (List.mem_singleton.mp noted)
      refine ⟨rfl, rfl, rfl, rfl, rfl, rfl, wins, reply, ?_, by rw [← granted]⟩
      simp [Server.counts, running, candidate, granted]
  | campaign | grant | confirm | push => exact Note.noConfusion (List.mem_singleton.mp noted)
  | sync =>
      obtain ⟨index, -, same⟩ := List.mem_map.mp noted
      exact Note.noConfusion same
  | count | heartbeat | credit | addLog => exact absurd noted List.not_mem_nil

/-- What a turn does to the votes counted, which only a candidate has. -/
theorem Turn.counted (turn : Turn size server input effect)
    (counting : 0 < server.voteCount → server.state = .candidate) :
    effect.server.voteCount = 0 ∨
      effect.server.voteCount = server.voteCount ∧ effect.server.term = server.term ∧
        effect.server.state = server.state ∨
      input = .election ∧ effect.server.voteCount = 1 ∧ effect.server.term = server.term + 1 ∧
        effect.server.state = .candidate ∧
        .vote server.id (server.term + 1) server.id ∈ effect.notes ∨
      effect.server.voteCount = server.voteCount + 1 ∧ effect.server.term = server.term ∧
        effect.server.state = .candidate ∧ ∃ reply ∈ server.counts input,
          input = .call (.replyVote { term := reply.term, voteGranted := true }) := by
  have idle : server.state ≠ .candidate → server.voteCount = 0 := by
    intro role
    by_contra positive
    exact role (counting (Nat.pos_of_ne_zero positive))
  have followed : ∀ {args next}, Follows server args next → next.voteCount = 0 := by
    intro args next follows
    rcases follows.voteCount with zero | ⟨follower, same⟩
    · exact zero
    · exact same.trans (idle (by rw [follower]; decide))
  cases turn with
  | quiet quiet =>
      rcases quiet.voteCount with same | zero
      · rcases quiet.state with sameState | ⟨follower, -⟩
        · exact Or.inr (Or.inl ⟨same, quiet.term, sameState⟩)
        · exact Or.inl (same.trans (idle (by rw [follower]; decide)))
      · exact Or.inl zero
  | stepDown _ down =>
      rcases down.voteCount with zero | ⟨follower, same⟩
      · exact Or.inl zero
      · exact Or.inl (same.trans (idle (by rw [follower]; decide)))
  | campaign campaigns =>
      obtain ⟨-, candidate⟩ := Server.campaigns_iff.mp campaigns
      exact Or.inr (Or.inr (Or.inl ⟨rfl, rfl, rfl, candidate, List.mem_singleton_self _⟩))
  | grant | lead => exact Or.inl rfl
  | count reply running candidate granted =>
      refine Or.inr (Or.inr (Or.inr ⟨rfl, rfl, candidate, reply, ?_, by rw [← granted]⟩))
      simp [Server.counts, running, candidate, granted]
  | sync =>
      obtain ⟨index, committed⟩ := server.commit_eq
      rw [committed]
      exact Or.inr (Or.inl ⟨rfl, rfl, rfl⟩)
  | heartbeat args => exact Or.inl (followed (server.heartbeat_follows args))
  | confirm args => exact Or.inl (followed (server.follow_follows args))
  | push args => exact Or.inl (followed (server.push_follows args))
  | credit | addLog => exact Or.inr (Or.inl ⟨rfl, rfl, rfl⟩)

/-- Where a synchronisation comes from. -/
theorem Turn.append_sent (turn : Turn size server input effect) {target : Nat}
    {args : AppendEntriesArgs} (sends : ⟨target, .requestAppendEntries args⟩ ∈ effect.sent) :
    server.isStop = false ∧ server.state = .leader ∧
      ∃ nextIndex, args = server.appendEntriesArgs nextIndex := by
  cases turn with
  | quiet quiet => exact (quiet.inert.sent _ sends).elim
  | stepDown _ down => exact (down.inert.sent _ sends).elim
  | campaign =>
      obtain ⟨other, -, same⟩ := List.mem_map.mp sends
      exact Call.noConfusion (congrArg Packet.call same)
  | grant | confirm | push =>
      exact Call.noConfusion (congrArg Packet.call (List.mem_singleton.mp sends))
  | sync running leader =>
      obtain ⟨nextIndex, same⟩ := server.of_broadcast sends
      exact ⟨running, leader, nextIndex, Call.requestAppendEntries.inj same⟩
  | count | lead | heartbeat | credit | addLog => exact absurd sends List.not_mem_nil

/-- A turn keeps what a log starts with, unless it pushes entries. -/
theorem Turn.log (turn : Turn size server input effect) :
    server.logVec <+: effect.server.logVec ∨
      ∃ args ∈ server.pushes input, input = .call (.requestAppendEntries args) ∧
        effect.server.logVec = server.pushed args ∧ server.ackNote args ∈ effect.notes := by
  have same := List.prefix_refl server.logVec
  cases turn with
  | quiet quiet => exact Or.inl (quiet.logVec.symm ▸ same)
  | stepDown _ down => exact Or.inl (down.logVec.symm ▸ same)
  | sync =>
      obtain ⟨index, committed⟩ := server.commit_eq
      rw [committed]
      exact Or.inl same
  | heartbeat args => exact Or.inl ((server.heartbeat_logVec args).symm ▸ same)
  | confirm args => exact Or.inl ((server.follow_logVec args).symm ▸ same)
  | push args pushes =>
      exact Or.inr ⟨args, pushes, rfl, server.push_logVec args, List.mem_singleton_self _⟩
  | lead | addLog => exact Or.inl (List.prefix_append _ _)
  | campaign | grant | count | credit => exact Or.inl same

/-- Where an acknowledgement comes from: entries pushed, or entries already committed. -/
theorem Turn.acked_noted (turn : Turn size server input effect) {id term count : Nat}
    (noted : .acked id term count ∈ effect.notes) :
    ∃ args, input = .call (.requestAppendEntries args) ∧
      server.ackNote args = .acked id term count ∧ server.isStop = false ∧
      server.term ≤ args.term ∧ args.logVec ≠ [] ∧ (args ∈ server.pushes input ∧
        effect.server.logVec = server.pushed args ∨ server.alreadyCommitted args = true ∧
          effect.server.logVec = server.logVec) := by
  cases turn with
  | quiet quiet => exact (quiet.inert.notes _ noted).elim
  | stepDown _ down => exact (down.inert.notes _ noted).elim
  | campaign | grant | lead => exact Note.noConfusion (List.mem_singleton.mp noted)
  | sync =>
      obtain ⟨index, -, same⟩ := List.mem_map.mp noted
      exact Note.noConfusion same
  | confirm args running current entries committed =>
      exact ⟨args, rfl, (List.mem_singleton.mp noted).symm, running, current, entries,
        Or.inr ⟨committed, server.follow_logVec args⟩⟩
  | push args pushes =>
      obtain ⟨running, current, entries, -⟩ := Server.of_pushes pushes
      exact ⟨args, rfl, (List.mem_singleton.mp noted).symm, running, current, entries,
        Or.inl ⟨pushes, server.push_logVec args⟩⟩
  | count | heartbeat | credit | addLog => exact absurd noted List.not_mem_nil

end Inversion

namespace Cluster

/-- **A step** of a cluster: a turn of one server, of what is in flight the call it
takes, and nothing else. -/
structure Change (size : Nat) (cluster : Cluster) (event : Event) (after : Cluster) (id : Nat)
    (input : Input) (effect : Effect) (base : List Packet) : Prop where
  given : cluster.input event = some (id, input)
  turn : Turn size (cluster.servers id) input effect
  kept : base.Sublist cluster.net
  taken : ∀ call, input = .call call → ∃ slot, cluster.net[slot]? = some ⟨id, call⟩ ∧
    base = cluster.net.eraseIdx slot
  servers : after.servers = Function.update cluster.servers id effect.server
  net : after.net = base ++ effect.sent
  trace : after.trace = cluster.trace ++ effect.notes
  started : Started size id ∨ effect.server.isStop = (cluster.servers id).isStop

/-- A step is the turn of one server. -/
theorem step_change {size : Nat} {cluster after : Cluster} {event : Event}
    (stepped : cluster.step size event = some after) :
    ∃ id input effect base, Change size cluster event after id input effect base := by
  cases event with
  | update id =>
      simp only [step, Option.ite_none_right_eq_some, Option.some.injEq] at stepped
      obtain ⟨started, rfl⟩ := stepped
      refine ⟨id, .timer, _, cluster.net, rfl, (cluster.servers id).update_turn size,
        List.Sublist.refl _, (fun _ same => nomatch same), ?_, ?_, ?_, Or.inl started⟩
      all_goals split <;> rfl
  | election id =>
      simp only [step, Option.ite_none_right_eq_some] at stepped
      obtain ⟨live, stepped⟩ := stepped
      rw [Server.election] at stepped
      split at stepped
      · next effect campaigned =>
          rw [Option.ite_none_right_eq_some, Option.some.injEq] at campaigned
          obtain ⟨campaigns, rfl⟩ := campaigned
          obtain rfl := Option.some.inj stepped
          exact ⟨id, .election, _, cluster.net, rfl, .campaign campaigns, List.Sublist.refl _,
            (fun _ same => nomatch same), rfl, rfl, rfl, Or.inr rfl⟩
      · obtain rfl := Option.some.inj stepped
        refine ⟨id, .election, { server := cluster.servers id }, cluster.net, rfl,
          .quiet (Quiet.same _ _), List.Sublist.refl _, (fun _ same => nomatch same), ?_, ?_, ?_,
          Or.inr rfl⟩
        · exact (Function.update_eq_self id cluster.servers).symm
        · exact (List.append_nil _).symm
        · exact (List.append_nil _).symm
  | deliver slot =>
      simp only [step, Option.map_eq_some_iff] at stepped
      obtain ⟨⟨id, call⟩, found, rfl⟩ := stepped
      have turn := call.deliver_turn size (cluster.servers id)
      refine ⟨id, .call call, _, cluster.net.eraseIdx slot, ?_, turn,
        List.eraseIdx_sublist _ _, ?_, rfl, rfl, rfl, Or.inr ?_⟩
      · rw [input, found]
        rfl
      · rintro other ⟨⟩
        exact ⟨slot, found, rfl⟩
      · rcases turn.isStop with same | ⟨⟨⟩⟩ | ⟨⟨⟩⟩
        exact same
  | addLog id content =>
      simp only [step, Option.ite_none_right_eq_some, Option.some.injEq] at stepped
      obtain ⟨started, rfl⟩ := stepped
      exact ⟨id, .client content, _, cluster.net, rfl,
        (cluster.servers id).addLog_turn size content, List.Sublist.refl _,
        (fun _ same => nomatch same), rfl, rfl, rfl, Or.inl started⟩
  | stop id =>
      simp only [step, Option.ite_none_right_eq_some, Option.some.injEq] at stepped
      obtain ⟨started, rfl⟩ := stepped
      exact ⟨id, .stop, _, cluster.net, rfl, (cluster.servers id).stop_turn size,
        List.Sublist.refl _, (fun _ same => nomatch same), rfl, rfl, rfl, Or.inl started⟩
  | reStart id =>
      simp only [step, Option.ite_none_right_eq_some, Option.some.injEq] at stepped
      obtain ⟨started, rfl⟩ := stepped
      exact ⟨id, .reStart, _, cluster.net, rfl, (cluster.servers id).reStart_turn size,
        List.Sublist.refl _, (fun _ same => nomatch same), rfl, rfl, rfl, Or.inl started⟩

section Change

variable {size : Nat} {cluster after : Cluster} {event : Event} {id : Nat} {input : Input}
  {effect : Effect} {base : List Packet}

/-- The server whose turn it is. -/
theorem Change.server_self (change : Change size cluster event after id input effect base) :
    after.servers id = effect.server := by
  rw [change.servers, Function.update_self]

/-- The other servers stay as they are. -/
theorem Change.server_of_ne (change : Change size cluster event after id input effect base)
    {other : Nat} (different : other ≠ id) : after.servers other = cluster.servers other := by
  rw [change.servers, Function.update_of_ne different]

/-- The trace grows by what the turn notes. -/
theorem Change.mem_trace (change : Change size cluster event after id input effect base)
    {note : Note} : note ∈ after.trace ↔ note ∈ cluster.trace ∨ note ∈ effect.notes := by
  rw [change.trace, List.mem_append]

/-- New packets are sent by the turn. -/
theorem Change.mem_net (change : Change size cluster event after id input effect base)
    {packet : Packet} (member : packet ∈ after.net) : packet ∈ cluster.net ∨
      packet ∈ effect.sent := by
  rw [change.net] at member
  exact (List.mem_append.mp member).imp_left fun old => change.kept.subset old

/-- What is delivered was in flight. -/
theorem Change.flying (change : Change size cluster event after id input effect base)
    {call : Call} (given : input = .call call) : ⟨id, call⟩ ∈ cluster.net := by
  obtain ⟨slot, found, -⟩ := change.taken call given
  exact List.mem_of_getElem? found

/-- Only members run. -/
theorem Change.running (change : Change size cluster event after id input effect base)
    (running : ∀ id, (cluster.servers id).isStop = false → Started size id) :
    ∀ id, (after.servers id).isStop = false → Started size id := by
  intro other runs
  by_cases same : other = id
  · subst same
    rw [change.server_self] at runs
    rcases change.started with started | unchanged
    · exact started
    · exact running other (unchanged ▸ runs)
  · rw [change.server_of_ne same] at runs
    exact running other runs

/-- Who a server is does not change. -/
theorem Change.ids (change : Change size cluster event after id input effect base)
    (ids : ∀ id, (cluster.servers id).id = id) (other : Nat) :
    (after.servers other).id = other := by
  by_cases same : other = id
  · rw [same, change.server_self, change.turn.id, ids]
  · rw [change.server_of_ne same, ids]

/-- At first every server has its id. -/
theorem ids_initial (size id : Nat) : ((initial size).servers id).id = id := by
  simp only [initial]
  split <;> rfl

end Change

end Cluster

end FastDb.Raft
