import FastDb.Foundation.Machine
import FastDb.Raft.Server

/-! # The Raft cluster

Servers `1..size`, each started once, and the print server `0` that is registered
with them and never started. The calls in flight are delivered once each, in any
order, and an iteration of a timer, of an election loop, a client's `AddLog`, a
stop and a restart come at any time, so a run is any sequence of events of the
machine below. The number of live `Election` tasks of each server and the history
of the run are part of the state.

The second part lists the conditions on a step under which the guarantees of the
protocol hold, one for each branch of the handlers that breaks one.
-/

namespace FastDb.Raft

open Foundation

/-- The servers of a factory, the calls in flight, and what the past of the run has shown. -/
structure Cluster where
  servers : Nat → Server
  net : List Packet
  elections : Nat → Nat
  trace : List Note

/-- What can happen next. -/
inductive Event where
  | update (id : Nat)
  | election (id : Nat)
  | deliver (slot : Nat)
  | addLog (id : Nat) (content : String)
  | stop (id : Nat)
  | reStart (id : Nat)
deriving DecidableEq

/-- The keys of the factory, in order. -/
def allObjKey (size : Nat) : List Nat := List.range (size + 1)

/-- The servers that are started. -/
def Started (size id : Nat) : Prop := 1 ≤ id ∧ id ≤ size

instance (size id : Nat) : Decidable (Started size id) := inferInstanceAs (Decidable (_ ∧ _))

namespace Cluster

/-- Every server started, nothing in flight. -/
def initial (size : Nat) : Cluster where
  servers id := if Started size id then Server.start { id } else { id }
  net := []
  elections _ := 0
  trace := []

/-- Takes over what a handler of a server leaves. -/
def absorb (cluster : Cluster) (id : Nat) (effect : Effect) : Cluster := { cluster with
  servers := Function.update cluster.servers id effect.server
  net := cluster.net ++ effect.sent
  trace := cluster.trace ++ effect.notes }

/-- One event; an event of a server that is not started, a delivery from an empty
slot and an iteration of an election that is not live are not enabled. -/
def step (size : Nat) (cluster : Cluster) : Event → Option Cluster
  | .update id =>
      if Started size id then
        let after := cluster.absorb id ((cluster.servers id).update (allObjKey size))
        some (if (cluster.servers id).timesOut then { after with
          elections := Function.update cluster.elections id (cluster.elections id + 1) }
        else after)
      else none
  | .election id =>
      if 0 < cluster.elections id then
        match (cluster.servers id).election (allObjKey size) with
        | some effect => some (cluster.absorb id effect)
        | none => some { cluster with
            elections := Function.update cluster.elections id (cluster.elections id - 1) }
      else none
  | .deliver slot =>
      cluster.net[slot]?.map fun packet =>
        { cluster with net := cluster.net.eraseIdx slot }.absorb packet.target
          (packet.call.deliver (allObjKey size) (cluster.servers packet.target))
  | .addLog id content =>
      if Started size id then
        some (cluster.absorb id { server := ((cluster.servers id).addLog content).2 })
      else none
  | .stop id =>
      if Started size id then some (cluster.absorb id { server := (cluster.servers id).stop })
      else none
  | .reStart id =>
      if Started size id then some (cluster.absorb id { server := (cluster.servers id).reStart })
      else none

/-- The machine of a cluster with that many servers. -/
def machine (size : Nat) : Machine Cluster Event where
  step := step size

/-! ## Conditions on a step -/

/-- The server an event is of, and what it is given. -/
def input (cluster : Cluster) : Event → Option (Nat × Input)
  | .update id => some (id, .timer)
  | .election id => some (id, .election)
  | .deliver slot => cluster.net[slot]?.map fun packet => (packet.target, .call packet.call)
  | .addLog id content => some (id, .client content)
  | .stop id => some (id, .stop)
  | .reStart id => some (id, .reStart)

/-- A condition on what a server is given, as a condition on the event. -/
def Meets (condition : Cluster → Nat → Input → Prop) (cluster : Cluster) (event : Event) : Prop :=
  ∀ given ∈ cluster.input event, condition cluster given.1 given.2

instance (condition : Cluster → Nat → Input → Prop)
    [∀ cluster id input, Decidable (condition cluster id input)] (cluster : Cluster)
    (event : Event) : Decidable (Meets condition cluster event) :=
  inferInstanceAs (Decidable (∀ given ∈ cluster.input event, _))

/-- The history holds a vote of a server in a term. -/
def hasVoted (cluster : Cluster) (voter term : Nat) : Bool :=
  cluster.trace.any fun
    | .vote id inTerm _ => id = voter ∧ inTerm = term
    | _ => false

/-- The history holds an acknowledgement, in a term, of at least that many entries. -/
def hasAcked (cluster : Cluster) (id term count : Nat) : Bool :=
  cluster.trace.any fun
    | .acked other inTerm acked => other = id ∧ inTerm = term ∧ count ≤ acked
    | _ => false

/-- A server votes, for itself or by granting, in a term in which it has cast no vote. -/
def FirstVote (cluster : Cluster) (id : Nat) (input : Input) : Prop :=
  ∀ term ∈ (cluster.servers id).casts input, cluster.hasVoted id term = false

/-- A vote is counted in the term it was granted in. -/
def CountsOwnTerm (cluster : Cluster) (id : Nat) (input : Input) : Prop :=
  ∀ reply ∈ (cluster.servers id).counts input, reply.term = (cluster.servers id).term

/-- The votes counted are not exactly half of the servers. -/
def CountsNoHalf (size : Nat) (cluster : Cluster) (id : Nat) (input : Input) : Prop :=
  ∀ _reply ∈ (cluster.servers id).counts input,
    ((cluster.servers id).voteCount + 1) * 2 ≠ size

/-- A request for a vote that makes a server a follower is not of a lower term. -/
def KeepsTerm (cluster : Cluster) (id : Nat) (input : Input) : Prop :=
  ∀ args ∈ (cluster.servers id).yields input, (cluster.servers id).term ≤ args.term

/-- Entries are pushed only where they do not cut off entries that follow them. -/
def KeepsEntries (cluster : Cluster) (id : Nat) (input : Input) : Prop :=
  ∀ args ∈ (cluster.servers id).pushes input, (cluster.servers id).contains args = false

/-- A success is counted up to an entry that the follower has acknowledged in the
term of the leader. -/
def CountsAcked (cluster : Cluster) (id : Nat) (input : Input) : Prop :=
  ∀ credit ∈ (cluster.servers id).credits input,
    cluster.hasAcked credit.1 (cluster.servers id).term credit.2

instance (cluster : Cluster) (id : Nat) (input : Input) :
    Decidable (FirstVote cluster id input) :=
  inferInstanceAs (Decidable (∀ term ∈ _, _))

instance (cluster : Cluster) (id : Nat) (input : Input) :
    Decidable (CountsOwnTerm cluster id input) :=
  inferInstanceAs (Decidable (∀ reply ∈ _, _))

instance (size : Nat) (cluster : Cluster) (id : Nat) (input : Input) :
    Decidable (CountsNoHalf size cluster id input) :=
  inferInstanceAs (Decidable (∀ reply ∈ _, _))

instance (cluster : Cluster) (id : Nat) (input : Input) :
    Decidable (KeepsTerm cluster id input) :=
  inferInstanceAs (Decidable (∀ args ∈ _, _))

instance (cluster : Cluster) (id : Nat) (input : Input) :
    Decidable (KeepsEntries cluster id input) :=
  inferInstanceAs (Decidable (∀ args ∈ _, _))

instance (cluster : Cluster) (id : Nat) (input : Input) :
    Decidable (CountsAcked cluster id input) :=
  inferInstanceAs (Decidable (∀ credit ∈ _, _))

/-- **Sound elections.** No server votes twice in a term, and a candidate counts
the votes of its own term and needs more than half. -/
def SoundElection (size : Nat) (cluster : Cluster) (id : Nat) (input : Input) : Prop :=
  FirstVote cluster id input ∧ CountsOwnTerm cluster id input ∧
    CountsNoHalf size cluster id input

/-- **Sound replication.** Besides, no server falls back to a lower term, no entries
are cut off by a part of them, and only acknowledged entries are counted. -/
def SoundReplication (size : Nat) (cluster : Cluster) (id : Nat) (input : Input) : Prop :=
  SoundElection size cluster id input ∧ KeepsTerm cluster id input ∧
    KeepsEntries cluster id input ∧ CountsAcked cluster id input

instance (size : Nat) (cluster : Cluster) (id : Nat) (input : Input) :
    Decidable (SoundElection size cluster id input) := inferInstanceAs (Decidable (_ ∧ _))

instance (size : Nat) (cluster : Cluster) (id : Nat) (input : Input) :
    Decidable (SoundReplication size cluster id input) := inferInstanceAs (Decidable (_ ∧ _))

end Cluster

end FastDb.Raft
