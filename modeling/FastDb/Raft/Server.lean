import Mathlib.Data.List.Sort

/-! # The Raft server

`raft::server` of `test/raft`. Every handler takes the mutex for its whole body,
so a handler is a function of the state it finds; what it submits to the thread
pool is the list of calls it returns. Next to the state a handler returns notes:
the votes it casts, the tenures it begins, the entries it acknowledges and the
log entries it applies. Notes are a history for the statements about runs; no
handler reads one. Terms, identifiers, counters and log positions are unbounded,
and positions that may be `-1` are integers.
-/

namespace FastDb.Raft

/-- `raft::Log`. -/
structure Log where
  index : Int := -1
  term : Nat := 0
  isServer : Bool := false
  content : String := ""
deriving DecidableEq, Inhabited

/-- `raft::State`. -/
inductive State where
  | none
  | leader
  | candidate
  | folower
deriving DecidableEq

/-- `VoteArgs`. -/
structure VoteArgs where
  term : Nat
  candidateId : Nat
  lastLogIndex : Int
  lastLogTerm : Nat
deriving DecidableEq

/-- `VoteReply`. -/
structure VoteReply where
  term : Nat
  voteGranted : Bool
deriving DecidableEq

/-- `AppendEntriesArgs`. -/
structure AppendEntriesArgs where
  term : Nat
  leaderId : Nat
  preLogIndex : Int
  preLogTerm : Nat
  commitIndex : Nat
  logVec : List Log
deriving DecidableEq

/-- `AppendEntriesReply`. -/
structure AppendEntriesReply where
  id : Nat
  term : Nat
  logCount : Nat
  success : Bool
  commitIndex : Nat
deriving DecidableEq

/-- A call submitted to the thread pool. -/
inductive Call where
  | requestVote (args : VoteArgs)
  | replyVote (reply : VoteReply)
  | requestAppendEntries (args : AppendEntriesArgs)
  | replyAppendEntries (reply : AppendEntriesReply)
deriving DecidableEq

/-- A submitted call and the server it is a call of. -/
structure Packet where
  target : Nat
  call : Call
deriving DecidableEq

/-- What the history of a run records. -/
inductive Note where
  /-- A vote in a term, its own or one granted. -/
  | vote (voter term candidate : Nat)
  /-- A call of `ToLeader`. -/
  | lead (id term : Nat)
  /-- A success reply to the leader of a term, for that many entries of its log. -/
  | acked (id term count : Nat)
  /-- One iteration of the apply loop; `none` is its failure branch. -/
  | applied (id index : Nat) (log : Option Log)
deriving DecidableEq

/-- The members of `raft::server` that its handlers read. -/
structure Server where
  id : Nat
  isStop : Bool := true
  heartbeat : Nat := 0
  voteCount : Nat := 0
  state : State := .none
  term : Nat := 0
  votedfor : Nat := 0
  logVec : List Log := []
  commitIndex : Nat := 0
  lastApplied : Nat := 0
  nextIndexVec : List Nat := []
  matchIndexVec : List Nat := []

/-- What a handler leaves: its state, the calls it submits, and the notes. -/
structure Effect where
  server : Server
  sent : List Packet := []
  notes : List Note := []

/-- `m_log_vec.empty() ? 0 : m_log_vec.back().term`. -/
def lastTerm (logVec : List Log) : Nat := (logVec.getLast?.map Log.term).getD 0

/-- The term of the entry at a position, where there is one. -/
def termAt (logVec : List Log) (position : Int) : Option Nat :=
  if 0 ≤ position then logVec[position.toNat]?.map Log.term else none

namespace Server

/-- The entry `Start` pushes. -/
def startLog : Log := { index := 0, term := 0, isServer := true, content := "Start" }

/-- `Start`. -/
def start (server : Server) : Server := { server with
  isStop := false
  heartbeat := 0
  voteCount := 0
  state := .folower
  term := 0
  votedfor := 0
  logVec := [startLog]
  commitIndex := 0
  lastApplied := 0
  nextIndexVec := []
  matchIndexVec := [] }

/-- `Stop`. -/
def stop (server : Server) : Server := { server with isStop := true }

/-- `ReStart`, which leaves `m_state` as it is. -/
def reStart (server : Server) : Server := { server with
  isStop := false
  heartbeat := 0
  voteCount := 0
  nextIndexVec := []
  matchIndexVec := [] }

/-- `ToFollower`. -/
def toFollower (server : Server) (term votedfor : Nat) : Server := { server with
  state := .folower
  heartbeat := 0
  voteCount := 0
  term := term
  votedfor := votedfor }

/-- The entry `ToLeader` pushes. -/
def leaderLog (server : Server) : Log where
  index := server.logVec.length
  term := server.term
  isServer := true
  content := "ToLeader:" ++ toString server.id

/-- `ToLeader`, with the keys of all servers. -/
def toLeader (server : Server) (keys : List Nat) : Server := { server with
  state := .leader
  heartbeat := 0
  voteCount := 0
  votedfor := 0
  nextIndexVec := List.replicate keys.length 0
  matchIndexVec := List.replicate keys.length 0
  logVec := server.logVec ++ [server.leaderLog] }

/-- The entry `AddLog` pushes. -/
def clientLog (server : Server) (content : String) : Log where
  index := server.logVec.length
  term := server.term
  isServer := false
  content := content

/-- `AddLog`: what it returns and the state it leaves. -/
def addLog (server : Server) (content : String) : Nat × Server :=
  if server.isStop ∨ server.state ≠ .leader then (server.votedfor, server)
  else (0, { server with logVec := server.logVec ++ [server.clientLog content] })

/-- `ApplyLogVec`. -/
def applyLogVec (server : Server) : List Log :=
  (server.logVec.take (server.lastApplied + 1)).filter fun log => !log.isServer

/-! ## The timer -/

/-- The arguments of the synchronisation with a follower at `next_index`. -/
def appendEntriesArgs (server : Server) (nextIndex : Nat) : AppendEntriesArgs where
  term := server.term
  leaderId := server.id
  preLogIndex := nextIndex - 1
  preLogTerm := (termAt server.logVec (nextIndex - 1)).getD 0
  commitIndex := server.commitIndex
  logVec := server.logVec.drop nextIndex

/-- The synchronisation of a leader with the servers its vectors index. -/
def broadcast (server : Server) (keys : List Nat) : List Packet :=
  keys.filterMap fun id =>
    if id = server.id then none
    else server.nextIndexVec[id]?.map fun nextIndex =>
      { target := id, call := .requestAppendEntries (server.appendEntriesArgs nextIndex) }

/-- The match index in the middle of the sorted vector. -/
def midIndex (matchIndexVec : List Nat) : Nat :=
  (matchIndexVec.insertionSort (· ≤ ·)).getD (matchIndexVec.length / 2) 0

/-- A leader commits up to the middle match index when its entry there is of the
current term; a read past the log is taken as not committing. -/
def commit (server : Server) : Server :=
  if server.state = .leader ∧ server.matchIndexVec ≠ [] ∧
      termAt server.logVec (midIndex server.matchIndexVec) = some server.term then
    { server with commitIndex := max (midIndex server.matchIndexVec) server.commitIndex }
  else server

/-- The positions the apply loop goes through. -/
def applyRange (server : Server) : List Nat :=
  List.range' server.lastApplied (server.commitIndex + 1 - server.lastApplied)

/-- The apply loop, `for (; m_last_applied <= m_commit_index; ++m_last_applied)`. -/
def apply (server : Server) : Effect where
  server := { server with lastApplied := max server.lastApplied (server.commitIndex + 1) }
  notes := server.applyRange.map fun index => .applied server.id index server.logVec[index]?

/-- Whether an iteration of `Update` submits an `Election`. -/
def timesOut (server : Server) : Bool :=
  !server.isStop && server.state = .folower && server.heartbeat + 1 = 6

/-- One iteration of `Update`. -/
def update (server : Server) (keys : List Nat) : Effect :=
  if server.isStop then { server }
  else match server.state with
    | .leader => { server.commit.apply with sent := server.broadcast keys }
    | .candidate => server.apply
    | .folower =>
        let server := { server with heartbeat := server.heartbeat + 1 }
        let server :=
          if server.heartbeat = 6 then { server with heartbeat := 0, state := .candidate }
          else server
        server.apply
    | .none => { server }

/-! ## Elections -/

/-- The state of the next term, with the server's own vote. -/
def campaign (server : Server) : Server := { server with
  voteCount := 1
  term := server.term + 1
  votedfor := server.id }

/-- The arguments of `RequestVote`. -/
def voteArgs (server : Server) : VoteArgs where
  term := server.term
  candidateId := server.id
  lastLogIndex := server.logVec.length - 1
  lastLogTerm := lastTerm server.logVec

/-- Whether an iteration of `Election` campaigns rather than leaves the loop. -/
def campaigns (server : Server) : Bool := !server.isStop && server.state = .candidate

/-- One iteration of `Election`; `none` leaves the loop. -/
def election (server : Server) (keys : List Nat) : Option Effect :=
  if server.campaigns then
    some {
      server := server.campaign
      sent := (keys.filter fun id => id ≠ server.id).map fun id =>
        { target := id, call := .requestVote server.campaign.voteArgs }
      notes := [.vote server.id server.campaign.term server.id] }
  else none

/-- Whether `RequestVote` grants: the terms and the last vote allow it, and the log
of the candidate is at least as new. -/
def grants (server : Server) (args : VoteArgs) : Bool :=
  (server.term ≤ args.term ∨ server.votedfor = 0 ∨ server.votedfor = args.candidateId) ∧
    (lastTerm server.logVec < args.lastLogTerm ∨
      args.lastLogTerm = lastTerm server.logVec ∧
        (server.logVec.length : Int) - 1 ≤ args.lastLogIndex)

/-- `RequestVote`. -/
def requestVote (server : Server) (args : VoteArgs) : Effect :=
  if server.isStop then { server }
  else
    let granted := server.grants args
    let after :=
      if granted then server.toFollower args.term args.candidateId
      else if server.state = .leader then server.toFollower args.term 0
      else server
    { server := after
      sent := [{ target := args.candidateId
                 call := .replyVote { term := after.term, voteGranted := granted } }]
      notes := if granted then [.vote server.id args.term args.candidateId] else [] }

/-- Whether one more vote makes a candidate the leader. -/
def wins (server : Server) (keys : List Nat) : Bool :=
  keys.length - 1 ≤ (server.voteCount + 1) * 2

/-- `ReplyVote`. -/
def replyVote (server : Server) (keys : List Nat) (reply : VoteReply) : Effect :=
  if server.isStop ∨ server.state ≠ .candidate then { server }
  else if reply.voteGranted then
    let counted := { server with voteCount := server.voteCount + 1 }
    if server.wins keys then
      { server := counted.toLeader keys, notes := [.lead server.id server.term] }
    else { server := counted }
  else if server.term < reply.term then { server := server.toFollower reply.term 0 }
  else { server }

/-! ## Log synchronisation -/

/-- The server after the leader's term is accepted. -/
def follow (server : Server) (args : AppendEntriesArgs) : Server :=
  let server := { server with heartbeat := 0, term := args.term }
  if server.state ≠ .folower then server.toFollower args.term args.leaderId else server

/-- The commit index after a call without entries. -/
def heartbeatCommit (server : Server) (args : AppendEntriesArgs) : Server :=
  if server.commitIndex < args.commitIndex ∧
      termAt server.logVec args.preLogIndex = some args.preLogTerm then
    { server with commitIndex := (min args.preLogIndex args.commitIndex).toNat }
  else server

/-- Whether the entries sent end within the committed ones. -/
def alreadyCommitted (server : Server) (args : AppendEntriesArgs) : Bool :=
  args.preLogIndex + args.logVec.length ≤ server.commitIndex

/-- Whether the entry before the ones sent is missing or of another term. -/
def mismatches (server : Server) (args : AppendEntriesArgs) : Bool :=
  (server.logVec.length : Int) ≤ args.preLogIndex ∨
    0 ≤ args.preLogIndex ∧ termAt server.logVec args.preLogIndex ≠ some args.preLogTerm

/-- `m_log_vec.resize(size)`. -/
def resize (logVec : List Log) (size : Nat) : List Log :=
  logVec.take size ++ List.replicate (size - logVec.length) { index := -1 }

/-- The log after the entries sent are pushed. -/
def pushed (server : Server) (args : AppendEntriesArgs) : List Log :=
  resize server.logVec (args.preLogIndex + 1).toNat ++ args.logVec

/-- Pushes the entries sent and follows the leader's commit index. -/
def logPush (server : Server) (args : AppendEntriesArgs) : Server :=
  let server := { server with logVec := server.pushed args }
  if server.commitIndex < args.commitIndex then
    { server with
      commitIndex := (min (args.commitIndex : Int)
        (max args.preLogIndex server.commitIndex)).toNat }
  else server

/-- The call that returns a result to the leader. -/
def appendReply (server : Server) (args : AppendEntriesArgs) (success : Bool) : Packet where
  target := args.leaderId
  call := .replyAppendEntries {
    id := server.id
    term := server.term
    logCount := args.logVec.length
    success := success
    commitIndex := server.commitIndex }

/-- The acknowledgement of all entries up to the last one sent. -/
def ackNote (server : Server) (args : AppendEntriesArgs) : Note :=
  .acked server.id args.term (args.preLogIndex + 1 + args.logVec.length).toNat

/-- `RequestAppendEntries`. -/
def requestAppendEntries (server : Server) (args : AppendEntriesArgs) : Effect :=
  if server.isStop then { server }
  else if args.term < server.term then { server, sent := [server.appendReply args false] }
  else
    let server := server.follow args
    if args.logVec = [] then { server := server.heartbeatCommit args }
    else if server.alreadyCommitted args then
      { server, sent := [server.appendReply args true], notes := [server.ackNote args] }
    else if server.mismatches args then { server, sent := [server.appendReply args false] }
    else
      let server := server.logPush args
      { server, sent := [server.appendReply args true], notes := [server.ackNote args] }

/-- `ReplyAppendEntries`. -/
def replyAppendEntries (server : Server) (reply : AppendEntriesReply) : Effect :=
  if server.isStop ∨ server.state ≠ .leader then { server }
  else match server.nextIndexVec[reply.id]? with
    | none => { server }
    | some nextIndex =>
        if reply.success then
          match server.matchIndexVec[reply.id]? with
          | none => { server }
          | some matchIndex =>
              { server := { server with
                  matchIndexVec := server.matchIndexVec.set reply.id
                    (max matchIndex (nextIndex + reply.logCount - 1))
                  nextIndexVec := server.nextIndexVec.set reply.id
                    (nextIndex + reply.logCount) } }
        else if reply.term ≤ server.term then
          { server := { server with
              nextIndexVec := server.nextIndexVec.set reply.id (reply.commitIndex + 1) } }
        else { server }

end Server

/-- A delivered call. -/
def Call.deliver (keys : List Nat) (server : Server) : Call → Effect
  | .requestVote args => server.requestVote args
  | .replyVote reply => server.replyVote keys reply
  | .requestAppendEntries args => server.requestAppendEntries args
  | .replyAppendEntries reply => server.replyAppendEntries reply

/-- What a server is given to handle. -/
inductive Input where
  | timer
  | election
  | call (call : Call)
  | client (content : String)
  | stop
  | reStart
deriving DecidableEq

/-! ## The branches the guarantees depend on -/

namespace Server

/-- The term in which the server casts a vote, its own or one it grants. -/
def casts (server : Server) : Input → Option Nat
  | .election => if server.campaigns then some (server.term + 1) else none
  | .call (.requestVote args) =>
      if !server.isStop && server.grants args then some args.term else none
  | _ => none

/-- The granted reply that `ReplyVote` counts. -/
def counts (server : Server) : Input → Option VoteReply
  | .call (.replyVote reply) =>
      if !server.isStop && server.state = .candidate && reply.voteGranted then some reply else none
  | _ => none

/-- The request for a vote that makes the server a follower in its term. -/
def yields (server : Server) : Input → Option VoteArgs
  | .call (.requestVote args) =>
      if !server.isStop && (server.grants args || server.state = .leader) then some args else none
  | _ => none

/-- The synchronisation whose entries are pushed. -/
def pushes (server : Server) : Input → Option AppendEntriesArgs
  | .call (.requestAppendEntries args) =>
      if !server.isStop && server.term ≤ args.term && args.logVec ≠ [] &&
        !server.alreadyCommitted args && !server.mismatches args then some args else none
  | _ => none

/-- The follower and the number of entries for which a success is counted. -/
def credits (server : Server) : Input → Option (Nat × Nat)
  | .call (.replyAppendEntries reply) =>
      if !server.isStop && server.state = .leader && reply.success then
        server.nextIndexVec[reply.id]?.map fun nextIndex => (reply.id, nextIndex + reply.logCount)
      else none
  | _ => none

/-- The entries sent are in the log already, with more entries after them. -/
def contains (server : Server) (args : AppendEntriesArgs) : Bool :=
  let present := server.logVec.drop (args.preLogIndex + 1).toNat
  args.logVec.isPrefixOf present && args.logVec.length < present.length

end Server

end FastDb.Raft
