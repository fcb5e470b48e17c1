import FastDb.Raft.Elections
import FastDb.Raft.Steps

/-! # Roles across stops and restarts

A leader works with two vectors that only `ToLeader` sets up, and a candidate with an
election that only the timer starts. Every handler keeps a role so backed, in whatever
phase a stop comes (`FastDb.Raft.Server.Backed.handle`), but for `ReStart`, which
clears the vectors and starts no election while it leaves the role
(`FastDb.Raft.Cluster.role_backed`).
-/

namespace FastDb.Raft

open Foundation

namespace Server

/-- What a role works with: the vectors of a leader, an election of a candidate. -/
structure Backed (keys : List Nat) (server : Server) (live : Nat) : Prop where
  leader : server.state = .leader → server.nextIndexVec.length = keys.length ∧
    server.matchIndexVec.length = keys.length
  candidate : server.isStop = false → server.state = .candidate → 0 < live

section Handlers

variable {keys : List Nat} {server : Server} {live : Nat}

theorem Backed.of_follower (follower : server.state = .folower) : Backed keys server live where
  leader leads := State.noConfusion (follower.symm.trans leads)
  candidate _ stands := State.noConfusion (follower.symm.trans stands)

/-- A server whose role and vectors are those of another is backed like it. -/
theorem Backed.of_same {other : Server} (backed : Backed keys server live)
    (isStop : other.isStop = server.isStop) (state : other.state = server.state)
    (next : other.nextIndexVec = server.nextIndexVec)
    (matched : other.matchIndexVec = server.matchIndexVec) : Backed keys other live where
  leader leads := by
    rw [next, matched]
    exact backed.leader (state.symm.trans leads)
  candidate running stands :=
    backed.candidate (isStop.symm.trans running) (state.symm.trans stands)

theorem Backed.mono {more : Nat} (backed : Backed keys server live) (grows : live ≤ more) :
    Backed keys server more where
  leader := backed.leader
  candidate running stands := (backed.candidate running stands).trans_le grows

/-- The timer that makes a candidate starts an election. -/
theorem Backed.update (backed : Backed keys server live) :
    Backed keys (server.update keys).server (server.liveElections live .timer) := by
  have kept : Backed keys server (server.liveElections live .timer) := by
    apply backed.mono
    rw [liveElections]
    split
    · exact Nat.le_succ live
    · exact le_rfl
  rw [Server.update]
  split
  · exact kept
  · next running =>
      split
      · obtain ⟨index, committed⟩ := server.commit_eq
        rw [committed]
        exact kept.of_same rfl rfl rfl rfl
      · exact kept.of_same rfl rfl rfl rfl
      · next follower =>
          dsimp only
          split
          · next last =>
              refine ⟨fun leads => State.noConfusion leads, fun _ _ => ?_⟩
              have times : server.timesOut = true := by
                simp [timesOut, Bool.eq_false_iff.mpr running, follower, last]
              rw [liveElections, if_pos times]
              exact Nat.succ_pos live
          · exact Backed.of_follower follower
      · exact kept

/-- An election ends only where the server is stopped or no candidate. -/
theorem Backed.election (backed : Backed keys server live) :
    Backed keys ((server.election keys).getD { server }).server
      (server.liveElections live .election) := by
  rw [liveElections, Server.election]
  split
  · exact backed.of_same rfl rfl rfl rfl
  · next idle =>
      refine ⟨backed.leader, fun running stands => absurd ?_ idle⟩
      exact campaigns_iff.mpr ⟨running, stands⟩

theorem Backed.requestVote (backed : Backed keys server live) (args : VoteArgs) :
    Backed keys (server.requestVote args).server live := by
  rw [Server.requestVote]
  split
  · exact backed
  · dsimp only
    split
    · exact Backed.of_follower rfl
    · split
      · exact Backed.of_follower rfl
      · exact backed

/-- `ToLeader` sets up the vectors. -/
theorem Backed.replyVote (backed : Backed keys server live) (reply : VoteReply) :
    Backed keys (server.replyVote keys reply).server live := by
  rw [Server.replyVote]
  split
  · exact backed
  · split
    · dsimp only
      split
      · refine ⟨fun _ => ?_, fun _ stands => State.noConfusion stands⟩
        exact ⟨List.length_replicate .., List.length_replicate ..⟩
      · exact backed.of_same rfl rfl rfl rfl
    · split
      · exact Backed.of_follower rfl
      · exact backed

theorem Backed.requestAppendEntries (backed : Backed keys server live)
    (args : AppendEntriesArgs) : Backed keys (server.requestAppendEntries args).server live := by
  rw [Server.requestAppendEntries]
  split
  · exact backed
  · split
    · exact backed
    · dsimp only
      split
      · exact Backed.of_follower (server.heartbeat_follows args).state
      · split
        · exact Backed.of_follower (server.follow_follows args).state
        · split
          · exact Backed.of_follower (server.follow_follows args).state
          · exact Backed.of_follower (server.push_follows args).state

/-- Setting an entry keeps the length of a vector. -/
theorem Backed.of_set {other : Server} (backed : Backed keys server live)
    (leads : server.state = .leader) (state : other.state = server.state)
    (next : other.nextIndexVec.length = server.nextIndexVec.length)
    (matched : other.matchIndexVec.length = server.matchIndexVec.length) :
    Backed keys other live where
  leader _ := by
    rw [next, matched]
    exact backed.leader leads
  candidate _ stands := State.noConfusion (leads.symm.trans (state.symm.trans stands))

theorem Backed.replyAppendEntries (backed : Backed keys server live)
    (reply : AppendEntriesReply) : Backed keys (server.replyAppendEntries reply).server live := by
  rw [Server.replyAppendEntries]
  split
  · exact backed
  · next active =>
      rw [not_or, not_not] at active
      split
      · exact backed
      · split
        · split
          · exact backed
          · exact backed.of_set active.2 rfl (List.length_set ..) (List.length_set ..)
        · split
          · exact backed.of_set active.2 rfl (List.length_set ..) rfl
          · exact backed

theorem Backed.addLog (backed : Backed keys server live) (content : String) :
    Backed keys (server.addLog content).2 live := by
  rw [Server.addLog]
  split
  · exact backed
  · exact backed.of_same rfl rfl rfl rfl

/-- **Inputs** keep a role backed, but for a restart in the middle of it. -/
theorem Backed.handle (backed : Backed keys server live) (input : Input)
    (restarts : input = .reStart → server.state ≠ .leader ∧
      (server.state = .candidate → 0 < live)) :
    Backed keys (server.handle keys input).server (server.liveElections live input) := by
  cases input with
  | timer => exact backed.update
  | election => exact backed.election
  | call call =>
      cases call with
      | requestVote args => exact backed.requestVote args
      | replyVote reply => exact backed.replyVote reply
      | requestAppendEntries args => exact backed.requestAppendEntries args
      | replyAppendEntries reply => exact backed.replyAppendEntries reply
  | client content => exact backed.addLog content
  | stop => exact ⟨backed.leader, fun running => Bool.noConfusion running⟩
  | reStart =>
      obtain ⟨follows, elects⟩ := restarts rfl
      exact ⟨fun leads => absurd leads follows, fun _ => elects⟩

end Handlers

end Server

namespace Cluster

/-- A restart finds neither a leader nor a candidate without a live election. -/
def KeepsRole (cluster : Cluster) (id : Nat) (input : Input) : Prop :=
  input = .reStart → (cluster.servers id).state ≠ .leader ∧
    ((cluster.servers id).state = .candidate → 0 < cluster.elections id)

instance (cluster : Cluster) (id : Nat) (input : Input) :
    Decidable (KeepsRole cluster id input) := inferInstanceAs (Decidable (_ → _))

theorem backed_initial (size id : Nat) :
    ((initial size).servers id).Backed (allObjKey size) ((initial size).elections id) := by
  simp only [initial]
  split
  · exact Server.Backed.of_follower rfl
  · exact ⟨fun leads => State.noConfusion leads, fun _ stands => State.noConfusion stands⟩

section Step

variable {size : Nat} {cluster after : Cluster} {event : Event}

/-- **One step** keeps all roles backed exactly where it restarts no server in the middle of
a role. -/
theorem backed_step_iff
    (backed : ∀ id, (cluster.servers id).Backed (allObjKey size) (cluster.elections id))
    (stepped : cluster.step size event = some after) :
    (∀ id, (after.servers id).Backed (allObjKey size) (after.elections id)) ↔
      cluster.Meets KeepsRole event := by
  obtain ⟨other, input, handled⟩ := step_handled stepped
  constructor
  · rintro kept ⟨id, given⟩ member rfl
    obtain ⟨rfl, rfl⟩ := Prod.mk.inj (Option.some.inj (handled.given.symm.trans member))
    have here := kept other
    rw [handled.server_self, handled.elections, Function.update_self] at here
    refine ⟨fun leads => ?_, fun stands => here.candidate rfl stands⟩
    have length : 0 = (allObjKey size).length := (here.leader leads).1
    rw [allObjKey, List.length_range] at length
    exact absurd length.symm (Nat.succ_ne_zero size)
  · intro meets id
    by_cases same : id = other
    · subst same
      rw [handled.server_self, handled.elections, Function.update_self]
      exact (backed id).handle input (meets (id, input) handled.given)
    · rw [handled.server_of_ne same, handled.elections, Function.update_of_ne same]
      exact backed id

end Step

/-- **Role invariant.** In every run in which no leader and no candidate without a live
election is restarted, a running leader has vectors that every registered server
indexes, and a running candidate has a live election. -/
theorem role_backed (size : Nat) {cluster : Cluster}
    (run : (machine size).Reaches (Meets KeepsRole) (initial size) cluster) {id : Nat}
    (running : (cluster.servers id).isStop = false) :
    ((cluster.servers id).state = .leader → ∀ key ∈ allObjKey size,
      key < (cluster.servers id).nextIndexVec.length ∧
        key < (cluster.servers id).matchIndexVec.length) ∧
      ((cluster.servers id).state = .candidate → 0 < cluster.elections id) := by
  have backed : ∀ id, (cluster.servers id).Backed (allObjKey size) (cluster.elections id) := by
    apply run.invariant
      (fun cluster => ∀ id, (cluster.servers id).Backed (allObjKey size) (cluster.elections id))
    · exact backed_initial size
    · intro before event after backed meets stepped
      exact (backed_step_iff backed stepped).mpr meets
  refine ⟨fun leads key registered => ?_, (backed id).candidate running⟩
  obtain ⟨next, matched⟩ := (backed id).leader leads
  have inside : key < (allObjKey size).length := by
    rw [allObjKey, List.length_range]
    exact List.mem_range.mp registered
  exact ⟨next ▸ inside, matched ▸ inside⟩

/-- Server 2 is stopped and restarted as a follower while server 1 leads. -/
theorem role_backed_oneLeader :
    ∃ cluster, (machine 3).execute (Meets KeepsRole) (oneLeader ++ [.stop 2, .reStart 2])
        (initial 3) = some cluster ∧ (cluster.servers 1).state = .leader ∧
      ∀ key ∈ allObjKey 3, key < (cluster.servers 1).nextIndexVec.length ∧
        key < (cluster.servers 1).matchIndexVec.length := by
  have ran : ((machine 3).execute (Meets KeepsRole) (oneLeader ++ [.stop 2, .reStart 2])
      (initial 3)).map (fun cluster =>
        ((cluster.servers 1).isStop, (cluster.servers 1).state)) = some (false, .leader) := by
    decide +kernel
  obtain ⟨cluster, reached, role⟩ := Option.map_eq_some_iff.mp ran
  have leads : (cluster.servers 1).state = .leader := congrArg Prod.snd role
  exact ⟨cluster, reached, leads, (role_backed 3 (Machine.reaches_of_execute reached)
    (congrArg Prod.fst role)).1 leads⟩

/-- The leader is stopped and restarted: it leads without vectors. A candidate is stopped,
its election ends, and it is restarted: it stands without an election. -/
theorem role_unbacked :
    (∃ cluster, (machine 3).Reaches Machine.anyStep (initial 3) cluster ∧
      (cluster.servers 1).isStop = false ∧ (cluster.servers 1).state = .leader ∧
      (cluster.servers 1).nextIndexVec = []) ∧
    ∃ cluster, (machine 3).Reaches Machine.anyStep (initial 3) cluster ∧
      (cluster.servers 1).isStop = false ∧ (cluster.servers 1).state = .candidate ∧
      cluster.elections 1 = 0 := by
  constructor
  · have ran : ((machine 3).execute Machine.anyStep (oneLeader ++ [.stop 1, .reStart 1])
        (initial 3)).map (fun cluster => decide ((cluster.servers 1).isStop = false ∧
          (cluster.servers 1).state = .leader ∧ (cluster.servers 1).nextIndexVec = [])) =
        some true := by decide +kernel
    obtain ⟨cluster, reached, role⟩ := Option.map_eq_some_iff.mp ran
    exact ⟨cluster, Machine.reaches_of_execute reached, of_decide_eq_true role⟩
  · have ran : ((machine 3).execute Machine.anyStep (List.replicate 6 (.update 1) ++
        [.stop 1, .election 1, .reStart 1]) (initial 3)).map (fun cluster =>
          decide ((cluster.servers 1).isStop = false ∧ (cluster.servers 1).state = .candidate ∧
            cluster.elections 1 = 0)) = some true := by decide +kernel
    obtain ⟨cluster, reached, role⟩ := Option.map_eq_some_iff.mp ran
    exact ⟨cluster, Machine.reaches_of_execute reached, of_decide_eq_true role⟩

end Cluster

end FastDb.Raft
