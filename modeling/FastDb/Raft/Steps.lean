import FastDb.Raft.Turns

/-! # Steps as handled inputs

Every event gives one server one input. Where a guarantee depends on more of the
state than the kinds of turns tell apart (the apply loop, the vectors of a leader,
the live elections), the step is followed through the handler itself
(`FastDb.Raft.Cluster.step_handled`).
-/

namespace FastDb.Raft

open Foundation

namespace Server

/-- What a server does with an input. -/
def handle (server : Server) (keys : List Nat) : Input → Effect
  | .timer => server.update keys
  | .election => (server.election keys).getD { server }
  | .call call => call.deliver keys server
  | .client content => { server := (server.addLog content).2 }
  | .stop => { server := server.stop }
  | .reStart => { server := server.reStart }

/-- The live elections of a server after an input. -/
def liveElections (server : Server) (live : Nat) : Input → Nat
  | .timer => if server.timesOut then live + 1 else live
  | .election => if server.campaigns then live else live - 1
  | _ => live

end Server

namespace Cluster

/-- **A step**, followed through the handler. -/
structure Handled (size : Nat) (cluster : Cluster) (event : Event) (after : Cluster) (id : Nat)
    (input : Input) : Prop where
  given : cluster.input event = some (id, input)
  servers : after.servers = Function.update cluster.servers id
    ((cluster.servers id).handle (allObjKey size) input).server
  trace : after.trace = cluster.trace ++
    ((cluster.servers id).handle (allObjKey size) input).notes
  elections : after.elections = Function.update cluster.elections id
    ((cluster.servers id).liveElections (cluster.elections id) input)
  net : ∀ packet ∈ after.net, packet ∈ cluster.net ∨
    packet ∈ ((cluster.servers id).handle (allObjKey size) input).sent

/-- A step is the handling of one input by one server. -/
theorem step_handled {size : Nat} {cluster after : Cluster} {event : Event}
    (stepped : cluster.step size event = some after) :
    ∃ id input, Handled size cluster event after id input := by
  cases event with
  | update id =>
      simp only [step, Option.ite_none_right_eq_some, Option.some.injEq] at stepped
      obtain ⟨-, rfl⟩ := stepped
      refine ⟨id, .timer, rfl, ?_, ?_, ?_, fun packet member => ?_⟩
      · split <;> rfl
      · split <;> rfl
      · rw [Server.liveElections]
        split
        · rfl
        · exact (Function.update_eq_self id cluster.elections).symm
      · split at member
        · exact List.mem_append.mp member
        · exact List.mem_append.mp member
  | election id =>
      simp only [step, Option.ite_none_right_eq_some] at stepped
      obtain ⟨-, stepped⟩ := stepped
      by_cases campaigns : (cluster.servers id).campaigns = true
      · rw [Server.election, if_pos campaigns] at stepped
        obtain rfl := Option.some.inj stepped
        refine ⟨id, .election, rfl, ?_, ?_, ?_, fun packet member => ?_⟩
        · rw [Server.handle, Server.election, if_pos campaigns]
          rfl
        · rw [Server.handle, Server.election, if_pos campaigns]
          rfl
        · rw [Server.liveElections, if_pos campaigns]
          exact (Function.update_eq_self id cluster.elections).symm
        · rw [Server.handle, Server.election, if_pos campaigns]
          exact List.mem_append.mp member
      · rw [Server.election, if_neg campaigns] at stepped
        obtain rfl := Option.some.inj stepped
        refine ⟨id, .election, rfl, ?_, ?_, ?_, fun _ => Or.inl⟩
        · rw [Server.handle, Server.election, if_neg campaigns]
          exact (Function.update_eq_self id cluster.servers).symm
        · rw [Server.handle, Server.election, if_neg campaigns]
          exact (List.append_nil _).symm
        · rw [Server.liveElections, if_neg campaigns]
  | deliver slot =>
      simp only [step, Option.map_eq_some_iff] at stepped
      obtain ⟨⟨id, call⟩, found, rfl⟩ := stepped
      refine ⟨id, .call call, ?_, rfl, rfl, (Function.update_eq_self id cluster.elections).symm,
        fun packet member => ?_⟩
      · rw [input, found]
        rfl
      · exact (List.mem_append.mp member).imp_left List.mem_of_mem_eraseIdx
  | addLog id content =>
      simp only [step, Option.ite_none_right_eq_some, Option.some.injEq] at stepped
      obtain ⟨-, rfl⟩ := stepped
      exact ⟨id, .client content, rfl, rfl, rfl,
        (Function.update_eq_self id cluster.elections).symm, fun _ => List.mem_append.mp⟩
  | stop id =>
      simp only [step, Option.ite_none_right_eq_some, Option.some.injEq] at stepped
      obtain ⟨-, rfl⟩ := stepped
      exact ⟨id, .stop, rfl, rfl, rfl, (Function.update_eq_self id cluster.elections).symm,
        fun _ => List.mem_append.mp⟩
  | reStart id =>
      simp only [step, Option.ite_none_right_eq_some, Option.some.injEq] at stepped
      obtain ⟨-, rfl⟩ := stepped
      exact ⟨id, .reStart, rfl, rfl, rfl, (Function.update_eq_self id cluster.elections).symm,
        fun _ => List.mem_append.mp⟩

section Handled

variable {size : Nat} {cluster after : Cluster} {event : Event} {id : Nat} {input : Input}

/-- The server that handles the input. -/
theorem Handled.server_self (handled : Handled size cluster event after id input) :
    after.servers id = ((cluster.servers id).handle (allObjKey size) input).server := by
  rw [handled.servers, Function.update_self]

/-- The other servers stay as they are. -/
theorem Handled.server_of_ne (handled : Handled size cluster event after id input) {other : Nat}
    (different : other ≠ id) : after.servers other = cluster.servers other := by
  rw [handled.servers, Function.update_of_ne different]

end Handled

end Cluster

end FastDb.Raft
