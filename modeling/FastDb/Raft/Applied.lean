import FastDb.Raft.StateMachineSafety
import FastDb.Raft.Steps

/-! # Commit indices and applied entries

In every run, with no condition on its steps, commit indices only grow and stay
inside the logs (`FastDb.Raft.Cluster.Within`): what a synchronisation without entries
carries as its commit index is not past the entry it is sent after. So the apply loop
goes through the positions one after the other and finds an entry at each
(`FastDb.Raft.Cluster.commit_index_valid`). It leaves `m_last_applied` one past the last
position it has gone through, where `ApplyLogVec` reads on
(`FastDb.Raft.Cluster.applyLogVec_committed_iff`).
-/

namespace FastDb.Raft

open Foundation

/-! ## Commit indices -/

namespace Server

/-- Committing moves the index up, inside the log. -/
theorem commit_within {server : Server} (within : server.commitIndex < server.logVec.length) :
    server.commitIndex ≤ server.commit.commitIndex ∧
      server.commit.commitIndex < server.commit.logVec.length := by
  rw [commit]
  split
  · next commits =>
      obtain ⟨-, entry, found, -⟩ := termAt_eq_some.mp commits.2.2
      rw [Int.toNat_natCast] at found
      have inside := (List.getElem?_eq_some_iff.mp found).1
      exact ⟨Nat.le_max_right _ _, Nat.max_lt.mpr ⟨inside, within⟩⟩
  · exact ⟨le_rfl, within⟩

/-- The commit index sent along is followed where it is not past the entry before. -/
theorem heartbeatCommit_within {server : Server} {args : AppendEntriesArgs}
    (within : server.commitIndex < server.logVec.length)
    (low : (args.commitIndex : Int) ≤ args.preLogIndex) :
    server.commitIndex ≤ (server.heartbeatCommit args).commitIndex ∧
      (server.heartbeatCommit args).commitIndex < (server.heartbeatCommit args).logVec.length := by
  rw [heartbeatCommit]
  split
  · next behind =>
      obtain ⟨-, entry, found, -⟩ := termAt_eq_some.mp behind.2
      have inside := (List.getElem?_eq_some_iff.mp found).1
      have ahead := behind.1
      rw [min_eq_right low, Int.toNat_natCast]
      dsimp only
      exact ⟨ahead.le, by omega⟩
  · exact ⟨le_rfl, within⟩

/-- Pushed entries end past the commit index. -/
theorem logPush_within {server : Server} {args : AppendEntriesArgs}
    (fresh : server.alreadyCommitted args = false) (matching : server.mismatches args = false) :
    server.commitIndex ≤ (server.logPush args).commitIndex ∧
      (server.logPush args).commitIndex < (server.logPush args).logVec.length := by
  simp only [alreadyCommitted, decide_eq_false_iff_not, Int.not_le] at fresh
  simp only [mismatches, decide_eq_false_iff_not, not_or, Int.not_le] at matching
  have inside := matching.1
  have length : (server.pushed args).length =
      (args.preLogIndex + 1).toNat + args.logVec.length := by
    rw [pushed, resize_of_le (by omega), List.length_append, List.length_take, min_eq_left]
    omega
  rw [logPush]
  dsimp only
  split
  · next behind =>
      dsimp only
      rw [length]
      omega
  · dsimp only
    rw [length]
    omega

end Server

/-- A turn keeps the commit index inside the log and does not lower it. -/
theorem Turn.commit_within {size : Nat} {server : Server} {input : Input} {effect : Effect}
    (turn : Turn size server input effect) (within : server.commitIndex < server.logVec.length)
    (low : ∀ args, input = .call (.requestAppendEntries args) → args.logVec = [] →
      (args.commitIndex : Int) ≤ args.preLogIndex) :
    server.commitIndex ≤ effect.server.commitIndex ∧
      effect.server.commitIndex < effect.server.logVec.length := by
  have longer : ∀ entry, server.commitIndex < (server.logVec ++ [entry]).length := by
    intro entry
    rw [List.length_append]
    exact Nat.lt_add_right _ within
  cases turn with
  | quiet quiet =>
      rw [quiet.commitIndex, quiet.logVec]
      exact ⟨le_rfl, within⟩
  | stepDown _ down =>
      rw [down.commitIndex, down.logVec]
      exact ⟨le_rfl, within⟩
  | campaign | grant | count | credit => exact ⟨le_rfl, within⟩
  | lead | addLog => exact ⟨le_rfl, longer _⟩
  | sync => exact Server.commit_within within
  | heartbeat args running current empty =>
      have followed : (server.follow args).commitIndex < (server.follow args).logVec.length := by
        rw [server.follow_commitIndex, server.follow_logVec]
        exact within
      have kept := Server.heartbeatCommit_within followed (low args rfl empty)
      rwa [server.follow_commitIndex] at kept
  | confirm args =>
      dsimp only
      rw [server.follow_commitIndex, server.follow_logVec]
      exact ⟨le_rfl, within⟩
  | push args pushes =>
      obtain ⟨-, -, -, fresh, matching⟩ := Server.of_pushes pushes
      rw [← server.follow_alreadyCommitted] at fresh
      rw [← server.follow_mismatches] at matching
      have kept := Server.logPush_within fresh matching
      rwa [server.follow_commitIndex] at kept

/-- A server that has a role keeps one. -/
theorem Turn.acts {size : Nat} {server : Server} {input : Input} {effect : Effect}
    (turn : Turn size server input effect) (acts : server.state ≠ .none) :
    effect.server.state ≠ .none := by
  cases turn with
  | quiet quiet =>
      rcases quiet.state with same | ⟨-, candidate⟩
      · rwa [same]
      · rw [candidate]
        exact State.noConfusion
  | stepDown _ down =>
      rw [down.state]
      exact State.noConfusion
  | campaign | count | credit | addLog => exact acts
  | grant | lead => exact State.noConfusion
  | sync =>
      obtain ⟨index, committed⟩ := server.commit_eq
      rwa [committed]
  | heartbeat args =>
      rw [(server.heartbeat_follows args).state]
      exact State.noConfusion
  | confirm args =>
      rw [(server.follow_follows args).state]
      exact State.noConfusion
  | push args =>
      rw [(server.push_follows args).state]
      exact State.noConfusion

namespace Cluster

/-- **Commit indices** are inside the logs, and a synchronisation without entries carries
none past the entry it is sent after. -/
structure Within (size : Nat) (cluster : Cluster) : Prop where
  running : ∀ id, (cluster.servers id).isStop = false → Started size id
  inside : ∀ id, Started size id →
    (cluster.servers id).commitIndex < (cluster.servers id).logVec.length
  acting : ∀ id, Started size id → (cluster.servers id).state ≠ .none
  sent : ∀ target args, ⟨target, .requestAppendEntries args⟩ ∈ cluster.net → args.logVec = [] →
    (args.commitIndex : Int) ≤ args.preLogIndex

theorem within_initial (size : Nat) : Within size (initial size) where
  running := running_initial size
  inside id started := by
    simp only [initial, started, ↓reduceIte]
    exact Nat.zero_lt_one
  acting id started := by
    simp only [initial, started, ↓reduceIte]
    exact State.noConfusion
  sent _ _ member := nomatch member

section Step

variable {size : Nat} {cluster after : Cluster} {event : Event} {id : Nat} {input : Input}
  {effect : Effect} {base : List Packet}

/-- A turn keeps the index of its server inside the log. -/
theorem Within.turn (within : Within size cluster)
    (change : Change size cluster event after id input effect base) (started : Started size id) :
    (cluster.servers id).commitIndex ≤ effect.server.commitIndex ∧
      effect.server.commitIndex < effect.server.logVec.length := by
  apply change.turn.commit_within (within.inside id started)
  intro args given empty
  exact within.sent id args (change.flying given) empty

/-- **One turn** keeps commit indices inside the logs. -/
theorem Within.of_change (within : Within size cluster)
    (change : Change size cluster event after id input effect base) : Within size after where
  running := change.running within.running
  inside other started := by
    by_cases same : other = id
    · subst same
      rw [change.server_self]
      exact (within.turn change started).2
    · rw [change.server_of_ne same]
      exact within.inside other started
  acting other started := by
    by_cases same : other = id
    · subst same
      rw [change.server_self]
      exact change.turn.acts (within.acting other started)
    · rw [change.server_of_ne same]
      exact within.acting other started
  sent target args member empty := by
    rcases change.mem_net member with old | new
    · exact within.sent target args old empty
    · obtain ⟨running, -, nextIndex, rfl⟩ := change.turn.append_sent new
      have inside := within.inside id (within.running id running)
      have all : (cluster.servers id).logVec.length ≤ nextIndex := List.drop_eq_nil_iff.mp empty
      change ((cluster.servers id).commitIndex : Int) ≤ (nextIndex : Int) - 1
      omega

theorem Within.commit_le (within : Within size cluster)
    (change : Change size cluster event after id input effect base) {other : Nat}
    (started : Started size other) :
    (cluster.servers other).commitIndex ≤ (after.servers other).commitIndex := by
  by_cases same : other = id
  · subst same
    rw [change.server_self]
    exact (within.turn change started).1
  · rw [change.server_of_ne same]

end Step

end Cluster

/-! ## The apply loop -/

namespace Server

/-- A turn that goes through the apply loop. -/
structure Applies (server : Server) (effect : Effect) : Prop where
  lastApplied : effect.server.lastApplied =
    max server.lastApplied (effect.server.commitIndex + 1)
  notes : effect.notes = (List.range' server.lastApplied
    (effect.server.commitIndex + 1 - server.lastApplied)).map fun index =>
      .applied server.id index effect.server.logVec[index]?

/-- A turn that does not. -/
structure Idles (server : Server) (effect : Effect) : Prop where
  lastApplied : effect.server.lastApplied = server.lastApplied
  notes : ∀ id index log, .applied id index log ∉ effect.notes

section Handlers

variable {server : Server}

/-- A turn that notes nothing applies nothing. -/
theorem Idles.of_silent {effect : Effect} (same : effect.server.lastApplied = server.lastApplied)
    (silent : effect.notes = []) : server.Idles effect where
  lastApplied := same
  notes _ _ _ := silent ▸ List.not_mem_nil

/-- A turn that notes something else applies nothing. -/
theorem Idles.of_noted {effect : Effect} {note : Note}
    (same : effect.server.lastApplied = server.lastApplied) (noted : effect.notes = [note])
    (other : ∀ id index log, .applied id index log ≠ note) : server.Idles effect where
  lastApplied := same
  notes id index log member := other id index log (List.mem_singleton.mp (noted ▸ member))

/-- The timer of a running server goes through the apply loop. -/
theorem applies_of_running (running : server.isStop = false) (acts : server.state ≠ .none)
    (keys : List Nat) : server.Applies (server.update keys) := by
  rw [update, if_neg (by rw [running]; exact Bool.noConfusion)]
  split
  · obtain ⟨index, committed⟩ := server.commit_eq
    rw [committed]
    exact ⟨rfl, rfl⟩
  · exact ⟨rfl, rfl⟩
  · dsimp only
    split
    · exact ⟨rfl, rfl⟩
    · exact ⟨rfl, rfl⟩
  · next inactive => exact absurd inactive acts

/-- An iteration of `Update` applies or idles. -/
theorem update_applies (server : Server) (keys : List Nat) :
    server.Applies (server.update keys) ∨ server.Idles (server.update keys) := by
  by_cases running : server.isStop = false
  · by_cases acts : server.state = .none
    · right
      rw [update, if_neg (by rw [running]; exact Bool.noConfusion), acts]
      exact Idles.of_silent rfl rfl
    · exact Or.inl (applies_of_running running acts keys)
  · right
    rw [update, if_pos (Bool.eq_true_of_not_eq_false running)]
    exact Idles.of_silent rfl rfl

theorem election_idles (server : Server) (keys : List Nat) :
    server.Idles ((server.election keys).getD { server }) := by
  rw [election]
  split
  · exact Idles.of_noted rfl rfl fun _ _ _ => Note.noConfusion
  · exact Idles.of_silent rfl rfl

theorem requestVote_idles (server : Server) (args : VoteArgs) :
    server.Idles (server.requestVote args) := by
  rw [requestVote]
  split
  · exact Idles.of_silent rfl rfl
  · dsimp only
    split
    · exact Idles.of_noted rfl rfl fun _ _ _ => Note.noConfusion
    · split
      · exact Idles.of_silent rfl rfl
      · exact Idles.of_silent rfl rfl

theorem replyVote_idles (server : Server) (keys : List Nat) (reply : VoteReply) :
    server.Idles (server.replyVote keys reply) := by
  rw [replyVote]
  split
  · exact Idles.of_silent rfl rfl
  · split
    · dsimp only
      split
      · exact Idles.of_noted rfl rfl fun _ _ _ => Note.noConfusion
      · exact Idles.of_silent rfl rfl
    · split
      · exact Idles.of_silent rfl rfl
      · exact Idles.of_silent rfl rfl

theorem requestAppendEntries_idles (server : Server) (args : AppendEntriesArgs) :
    server.Idles (server.requestAppendEntries args) := by
  have followed := (server.follow_follows args).lastApplied
  rw [requestAppendEntries]
  split
  · exact Idles.of_silent rfl rfl
  · split
    · exact Idles.of_silent rfl rfl
    · dsimp only
      split
      · exact Idles.of_silent (server.heartbeat_follows args).lastApplied rfl
      · split
        · exact Idles.of_noted followed rfl fun _ _ _ => Note.noConfusion
        · split
          · exact Idles.of_silent followed rfl
          · exact Idles.of_noted (server.push_follows args).lastApplied rfl
              fun _ _ _ => Note.noConfusion

theorem replyAppendEntries_idles (server : Server) (reply : AppendEntriesReply) :
    server.Idles (server.replyAppendEntries reply) := by
  rw [replyAppendEntries]
  split
  · exact Idles.of_silent rfl rfl
  · split
    · exact Idles.of_silent rfl rfl
    · split
      · split
        · exact Idles.of_silent rfl rfl
        · exact Idles.of_silent rfl rfl
      · split
        · exact Idles.of_silent rfl rfl
        · exact Idles.of_silent rfl rfl

/-- `AddLog` applies nothing. -/
theorem addLog_lastApplied (server : Server) (content : String) :
    (server.addLog content).2.lastApplied = server.lastApplied := by
  rw [addLog]
  split <;> rfl

/-- Only the timer goes through the apply loop. -/
theorem handle_applies (server : Server) (keys : List Nat) (input : Input) :
    server.Applies (server.handle keys input) ∨ server.Idles (server.handle keys input) := by
  cases input with
  | timer => exact server.update_applies keys
  | election => exact Or.inr (server.election_idles keys)
  | call call =>
      right
      cases call with
      | requestVote args => exact server.requestVote_idles args
      | replyVote reply => exact server.replyVote_idles keys reply
      | requestAppendEntries args => exact server.requestAppendEntries_idles args
      | replyAppendEntries reply => exact server.replyAppendEntries_idles reply
  | client content => exact Or.inr (Idles.of_silent (server.addLog_lastApplied content) rfl)
  | stop => exact Or.inr (Idles.of_silent rfl rfl)
  | reStart => exact Or.inr (Idles.of_silent rfl rfl)

end Handlers

end Server

namespace Cluster

/-- The iteration of the apply loop of a server that a note is of. -/
def iteration (id : Nat) : Note → Option (Nat × Option Log)
  | .applied other index log => if other = id then some (index, log) else none
  | _ => none

/-- The iterations of the apply loop of a server so far. -/
def appliedBy (cluster : Cluster) (id : Nat) : List (Nat × Option Log) :=
  cluster.trace.filterMap (iteration id)

/-- **The apply loop** has gone through all positions up to the last one, and found an
entry at each. -/
structure Applied (size : Nat) (cluster : Cluster) : Prop where
  ids : ∀ id, (cluster.servers id).id = id
  ahead : ∀ id, Started size id →
    (cluster.servers id).lastApplied ≤ (cluster.servers id).commitIndex + 1
  positions : ∀ id, Started size id →
    (cluster.appliedBy id).map Prod.fst = List.range (cluster.servers id).lastApplied
  found : ∀ id, Started size id → ∀ iterated ∈ cluster.appliedBy id, iterated.2.isSome = true

theorem applied_initial (size : Nat) : Applied size (initial size) where
  ids := ids_initial size
  ahead id started := by
    simp only [initial, started, ↓reduceIte]
    exact Nat.zero_le _
  positions id started := by
    simp only [initial, started, ↓reduceIte]
    rfl
  found _ _ _ member := nomatch member

section Step

variable {size : Nat} {cluster after : Cluster} {event : Event} {id : Nat} {input : Input}

/-- The iterations a turn adds. -/
theorem Handled.appliedBy (handled : Handled size cluster event after id input) (other : Nat) :
    after.appliedBy other = cluster.appliedBy other ++
      ((cluster.servers id).handle (allObjKey size) input).notes.filterMap (iteration other) := by
  rw [Cluster.appliedBy, handled.trace, List.filterMap_append, Cluster.appliedBy]

theorem filterMap_iteration_of_idles {server : Server} {effect : Effect}
    (idles : server.Idles effect) (other : Nat) :
    effect.notes.filterMap (iteration other) = [] := by
  apply List.filterMap_eq_nil_iff.mpr
  intro note member
  cases note with
  | applied id index log => exact absurd member (idles.notes id index log)
  | vote | lead | acked => rfl

/-- Of the iterations of one server no other server has any. -/
theorem filterMap_iteration_of_applies {server : Server} {effect : Effect}
    (applies : server.Applies effect) (other : Nat) :
    effect.notes.filterMap (iteration other) = if server.id = other then
      (List.range' server.lastApplied (effect.server.commitIndex + 1 - server.lastApplied)).map
        fun index => (index, effect.server.logVec[index]?) else [] := by
  rw [applies.notes, List.filterMap_map]
  split
  · next same =>
      rw [← List.filterMap_eq_map]
      apply List.filterMap_congr
      intro index _
      exact if_pos same
  · next different =>
      apply List.filterMap_eq_nil_iff.mpr
      intro index _
      exact if_neg different

/-- Positions up to a bound, behind those gone through already. -/
theorem range_append_range' (count bound : Nat) :
    List.range count ++ List.range' count (bound - count) = List.range (max count bound) := by
  have shifted : List.range' 0 count ++ List.range' (0 + count) (bound - count) =
      List.range' 0 (count + (bound - count)) := List.range'_append_1
  rw [Nat.zero_add] at shifted
  rw [List.range_eq_range', List.range_eq_range', shifted]
  congr 1
  omega

/-- A turn through the apply loop goes on where the last one ended. -/
theorem Applied.of_applies (applied : Applied size cluster) (within : Within size after)
    (upwards : ∀ id, Started size id →
      (cluster.servers id).commitIndex ≤ (after.servers id).commitIndex)
    (ids : ∀ id, (after.servers id).id = id)
    (handled : Handled size cluster event after id input)
    (applies : (cluster.servers id).Applies ((cluster.servers id).handle (allObjKey size) input)) :
    Applied size after := by
  have lastApplied := applies.lastApplied
  have iterations := filterMap_iteration_of_applies applies
  rw [← handled.server_self] at lastApplied iterations
  have added : ∀ other, after.appliedBy other = cluster.appliedBy other ++
      if id = other then (List.range' (cluster.servers id).lastApplied
        ((after.servers id).commitIndex + 1 - (cluster.servers id).lastApplied)).map
          fun index => (index, (after.servers id).logVec[index]?) else [] := by
    intro other
    rw [handled.appliedBy, iterations, applied.ids]
  exact {
    ids := ids
    ahead := by
      intro other started
      by_cases same : other = id
      · subst same
        have low := applied.ahead other started
        have grows := upwards other started
        omega
      · rw [handled.server_of_ne same]
        exact applied.ahead other started
    positions := by
      intro other started
      rw [added]
      by_cases same : other = id
      · subst same
        have first : (Prod.fst ∘ fun index : Nat => (index, (after.servers other).logVec[index]?)) =
            fun index => index := rfl
        rw [if_pos rfl, List.map_append, applied.positions other started, List.map_map, first,
          List.map_id', range_append_range', lastApplied]
      · rw [if_neg (Ne.symm same), List.append_nil, handled.server_of_ne same]
        exact applied.positions other started
    found := by
      intro other started iterated member
      rw [added] at member
      rcases List.mem_append.mp member with old | new
      · exact applied.found other started iterated old
      · split at new
        · next same =>
            subst same
            obtain ⟨index, inRange, rfl⟩ := List.mem_map.mp new
            obtain ⟨first, last⟩ := List.mem_range'_1.mp inRange
            have inside := within.inside id started
            rw [List.getElem?_eq_getElem (by omega)]
            rfl
        · exact absurd new List.not_mem_nil }

/-- Any other turn leaves what the apply loop has gone through. -/
theorem Applied.of_idles (applied : Applied size cluster)
    (upwards : ∀ id, Started size id →
      (cluster.servers id).commitIndex ≤ (after.servers id).commitIndex)
    (ids : ∀ id, (after.servers id).id = id)
    (handled : Handled size cluster event after id input)
    (idles : (cluster.servers id).Idles ((cluster.servers id).handle (allObjKey size) input)) :
    Applied size after := by
  have lastApplied := idles.lastApplied
  rw [← handled.server_self] at lastApplied
  have same : ∀ other, (after.servers other).lastApplied =
      (cluster.servers other).lastApplied := by
    intro other
    by_cases here : other = id
    · rw [here, lastApplied]
    · rw [handled.server_of_ne here]
  have added : ∀ other, after.appliedBy other = cluster.appliedBy other := by
    intro other
    rw [handled.appliedBy, filterMap_iteration_of_idles idles, List.append_nil]
  exact {
    ids := ids
    ahead := by
      intro other started
      rw [same]
      exact (applied.ahead other started).trans (Nat.succ_le_succ (upwards other started))
    positions := by
      intro other started
      rw [added, same]
      exact applied.positions other started
    found := by
      intro other started
      rw [added]
      exact applied.found other started }

/-- **One step** goes through the apply loop where the last one ended, or not at all. -/
theorem Applied.of_handled (applied : Applied size cluster) (within : Within size after)
    (upwards : ∀ id, Started size id →
      (cluster.servers id).commitIndex ≤ (after.servers id).commitIndex)
    (ids : ∀ id, (after.servers id).id = id)
    (handled : Handled size cluster event after id input) : Applied size after := by
  rcases (cluster.servers id).handle_applies (allObjKey size) input with applies | idles
  · exact applied.of_applies within upwards ids handled applies
  · exact applied.of_idles upwards ids handled idles

/-- Along every run commit indices stay inside the logs and only grow, and the apply loop
follows them. -/
theorem applied_of_reaches {allowed : Cluster → Event → Prop} {start : Cluster}
    (within : Within size start) (applied : Applied size start)
    (run : (machine size).Reaches allowed start cluster) :
    Within size cluster ∧ Applied size cluster ∧ ∀ id, Started size id →
      (start.servers id).commitIndex ≤ (cluster.servers id).commitIndex := by
  apply run.invariant (fun cluster => Within size cluster ∧ Applied size cluster ∧
    ∀ id, Started size id →
      (start.servers id).commitIndex ≤ (cluster.servers id).commitIndex)
  · exact ⟨within, applied, fun _ _ => le_rfl⟩
  · intro before event after invariants _ stepped
    obtain ⟨within, applied, upwards⟩ := invariants
    obtain ⟨id, input, effect, base, change⟩ := step_change stepped
    obtain ⟨other, given, handled⟩ := step_handled stepped
    have inside := within.of_change change
    refine ⟨inside, ?_, ?_⟩
    · exact applied.of_handled inside (fun _ => within.commit_le change)
        (change.ids applied.ids) handled
    · intro server started
      exact (upwards server started).trans (within.commit_le change started)

end Step

/-- An iteration of the timer of a running server applies all that is committed. -/
theorem lastApplied_of_update {size : Nat} {cluster after : Cluster} {id : Nat}
    (within : Within size cluster) (applied : Applied size cluster)
    (running : (cluster.servers id).isStop = false)
    (stepped : (machine size).step cluster (.update id) = some after) :
    (after.servers id).lastApplied = (after.servers id).commitIndex + 1 := by
  change cluster.step size (.update id) = some after at stepped
  obtain ⟨other, input, handled⟩ := step_handled stepped
  have given : some (id, Input.timer) = some (other, input) := handled.given
  cases given
  have started := within.running id running
  obtain ⟨own, given, effect, base, change⟩ := step_change stepped
  have grows := within.commit_le change started
  have low := applied.ahead id started
  have applies := Server.applies_of_running running (within.acting id started) (allObjKey size)
  have last := applies.lastApplied
  rw [handled.server_self] at grows ⊢
  change (((cluster.servers id).update (allObjKey size)).server).lastApplied = _ at last
  rw [Server.handle] at grows ⊢
  omega

/-- **Commit index validity.** Between any two moments of any run the commit index of a
started server does not fall, it is inside the log, and the apply loop has gone through
the positions below `m_last_applied` once each, in order, with an entry at each; after an
iteration of the timer of a running server these are all positions up to the commit index. -/
theorem commit_index_valid (size : Nat) {earlier later : Cluster}
    (first : (machine size).Reaches Machine.anyStep (initial size) earlier)
    (rest : (machine size).Reaches Machine.anyStep earlier later) {id : Nat}
    (started : Started size id) :
    (earlier.servers id).commitIndex ≤ (later.servers id).commitIndex ∧
      (later.servers id).commitIndex < (later.servers id).logVec.length ∧
      (later.appliedBy id).map Prod.fst = List.range (later.servers id).lastApplied ∧
      (∀ iterated ∈ later.appliedBy id, iterated.2.isSome = true) ∧
      ∀ after, (later.servers id).isStop = false →
        (machine size).step later (.update id) = some after →
          (after.servers id).lastApplied = (after.servers id).commitIndex + 1 ∧
          (after.appliedBy id).map Prod.fst =
            List.range ((after.servers id).commitIndex + 1) := by
  obtain ⟨withinFirst, appliedFirst, -⟩ :=
    applied_of_reaches (within_initial size) (applied_initial size) first
  obtain ⟨within, applied, upwards⟩ := applied_of_reaches withinFirst appliedFirst rest
  refine ⟨upwards id started, within.inside id started, applied.positions id started,
    applied.found id started, fun after running stepped => ?_⟩
  have all := lastApplied_of_update within applied running stepped
  have next : (machine size).Reaches Machine.anyStep later after :=
    .head trivial stepped (.refl after)
  obtain ⟨-, appliedAfter, -⟩ := applied_of_reaches within applied next
  exact ⟨all, all ▸ appliedAfter.positions id started⟩

/-- A client's entry reaches the followers of server 1, which acknowledge it. -/
def oneEntry : List Event :=
  [.addLog 1 "x", .update 1, .deliver 3, .deliver 3, .deliver 3, .deliver 3]

/-- Server 1 commits the client's entry and applies it with the entries before. -/
theorem commit_index_valid_oneEntry :
    ∃ earlier later after,
      (machine 3).execute Machine.anyStep oneLeader (initial 3) = some earlier ∧
      (machine 3).execute Machine.anyStep oneEntry earlier = some later ∧
      (machine 3).step later (.update 1) = some after ∧
      (earlier.servers 1).commitIndex ≤ (later.servers 1).commitIndex ∧
      (later.appliedBy 1).map Prod.fst = [0] ∧ (after.servers 1).commitIndex = 2 ∧
      (after.appliedBy 1).map Prod.fst = [0, 1, 2] := by
  have ran : ((machine 3).execute Machine.anyStep oneLeader (initial 3)).bind (fun earlier =>
      ((machine 3).execute Machine.anyStep oneEntry earlier).bind fun later =>
        ((machine 3).step later (.update 1)).map fun after =>
          decide ((later.servers 1).isStop = false ∧ (later.servers 1).lastApplied = 1 ∧
            (after.servers 1).commitIndex = 2)) = some true := by decide +kernel
  obtain ⟨earlier, first, more⟩ := Option.bind_eq_some_iff.mp ran
  obtain ⟨later, rest, more⟩ := Option.bind_eq_some_iff.mp more
  obtain ⟨after, stepped, checked⟩ := Option.map_eq_some_iff.mp more
  obtain ⟨running, last, committed⟩ := of_decide_eq_true checked
  obtain ⟨grows, -, positions, -, next⟩ := commit_index_valid 3 (Machine.reaches_of_execute first)
    (Machine.reaches_of_execute rest) (show Started 3 1 by decide)
  rw [last] at positions
  obtain ⟨-, all⟩ := next after running stepped
  rw [committed] at all
  exact ⟨earlier, later, after, first, rest, stepped, grows, positions, committed, all⟩

end Cluster

/-! ## Exposed entries -/

namespace Server

/-- The entry at a position, where it is a client's. -/
def clientAt (server : Server) (position : Nat) : Option Log :=
  server.logVec[position]?.filter fun log => !log.isServer

/-- `ApplyLogVec` reads the positions up to `m_last_applied` and returns the entries of
clients. -/
theorem applyLogVec_eq (server : Server) :
    server.applyLogVec = (List.range (server.lastApplied + 1)).filterMap server.clientAt := by
  rw [applyLogVec]
  generalize server.lastApplied + 1 = count
  induction count with
  | zero => rfl
  | succ count ih =>
      rw [List.take_add_one, List.filter_append, ih, List.range_succ, List.filterMap_append]
      congr 1
      rw [List.filterMap_cons, clientAt]
      cases server.logVec[count]? with
      | none => rfl
      | some entry =>
          rw [Option.filter_some, Option.toList_some, List.filter_singleton]
          cases entry.isServer with
          | true => rfl
          | false => rfl

/-- Reading on one position further returns nothing more where no client's entry is. -/
theorem applyLogVec_eq_iff (server : Server) :
    server.applyLogVec = (List.range server.lastApplied).filterMap server.clientAt ↔
      server.clientAt server.lastApplied = none := by
  rw [applyLogVec_eq, List.range_succ, List.filterMap_append, List.append_right_eq_self]
  cases found : server.clientAt server.lastApplied with
  | none => simp [found]
  | some entry => simp [found]

end Server

namespace Cluster

/-- **Only committed entries are exposed** where no client's entry is one past the last
position the apply loop has gone through. In every state that is when all entries
returned by `ApplyLogVec` are at positions up to the commit index and are those of the
positions gone through, in order. -/
theorem applyLogVec_committed_iff (size : Nat) {cluster : Cluster}
    (run : (machine size).Reaches Machine.anyStep (initial size) cluster) {id : Nat}
    (started : Started size id) :
    ((∀ position ≤ (cluster.servers id).lastApplied,
        ((cluster.servers id).clientAt position).isSome = true →
          position ≤ (cluster.servers id).commitIndex) ∧
      (cluster.servers id).applyLogVec =
        ((cluster.appliedBy id).map Prod.fst).filterMap (cluster.servers id).clientAt) ↔
      (cluster.servers id).clientAt (cluster.servers id).lastApplied = none := by
  obtain ⟨-, applied, -⟩ := applied_of_reaches (within_initial size) (applied_initial size) run
  rw [applied.positions id started, Server.applyLogVec_eq_iff]
  refine ⟨And.right, fun none => ⟨fun position low client => ?_, none⟩⟩
  have ahead := applied.ahead id started
  rcases Nat.eq_or_lt_of_le low with same | lower
  · rw [same, none] at client
    exact Bool.noConfusion client
  · omega

/-- After the client's entry is committed and applied, it is exposed and nothing else. -/
theorem applyLogVec_committed_oneEntry :
    ∃ cluster, (machine 3).execute Machine.anyStep (oneLeader ++ oneEntry ++ [.update 1])
        (initial 3) = some cluster ∧
      (cluster.servers 1).applyLogVec.map Log.content = ["x"] ∧
      (cluster.servers 1).applyLogVec =
        ((cluster.appliedBy 1).map Prod.fst).filterMap (cluster.servers 1).clientAt := by
  have ran : ((machine 3).execute Machine.anyStep (oneLeader ++ oneEntry ++ [.update 1])
      (initial 3)).map (fun cluster =>
        decide ((cluster.servers 1).clientAt (cluster.servers 1).lastApplied = none ∧
          (cluster.servers 1).applyLogVec.map Log.content = ["x"])) = some true := by
    decide +kernel
  obtain ⟨cluster, reached, checked⟩ := Option.map_eq_some_iff.mp ran
  obtain ⟨none, exposed⟩ := of_decide_eq_true checked
  exact ⟨cluster, reached, exposed, ((applyLogVec_committed_iff 3
    (Machine.reaches_of_execute reached) (by decide)).mpr none).2⟩

/-- An entry added after a commit is exposed before it is sent to anyone. -/
theorem applyLogVec_uncommitted :
    ∃ cluster, (machine 3).Reaches Machine.anyStep (initial 3) cluster ∧
      (cluster.servers 1).commitIndex = 1 ∧
      (cluster.servers 1).logVec[2]? = some ⟨2, 1, false, "x"⟩ ∧
      (cluster.servers 1).applyLogVec = [⟨2, 1, false, "x"⟩] := by
  have ran : ((machine 3).execute Machine.anyStep (oneCommit ++ [.addLog 1 "x"])
      (initial 3)).map (fun cluster => decide ((cluster.servers 1).commitIndex = 1 ∧
        (cluster.servers 1).logVec[2]? = some ⟨2, 1, false, "x"⟩ ∧
        (cluster.servers 1).applyLogVec = [⟨2, 1, false, "x"⟩])) = some true := by decide +kernel
  obtain ⟨cluster, reached, exposed⟩ := Option.map_eq_some_iff.mp ran
  exact ⟨cluster, Machine.reaches_of_execute reached, of_decide_eq_true exposed⟩

end Cluster

end FastDb.Raft
