import FastDb.Raft.LeaderLogs

/-! # Log positions

An entry carries the position it was appended at. In every run, with no condition on its
steps, logs are numbered from zero and what a synchronisation carries is numbered on from
the entry it is sent after (`FastDb.Raft.Cluster.Indexed`): a leader sends the end of a
log, and a follower cuts its own log back to where those entries start.
-/

namespace FastDb.Raft

open Foundation

/-- Entries that are numbered one after the other. -/
def Consecutive (first : Int) (logVec : List Log) : Prop :=
  ∀ (position : Nat) entry, logVec[position]? = some entry → entry.index = first + position

namespace Consecutive

variable {first : Int} {logVec rest : List Log}

theorem take (consecutive : Consecutive first logVec) (count : Nat) :
    Consecutive first (logVec.take count) := by
  intro position entry found
  rw [List.getElem?_take] at found
  split at found
  · exact consecutive position entry found
  · cases found

/-- What is left begins that many numbers later. -/
theorem drop (consecutive : Consecutive first logVec) (count : Nat) :
    Consecutive (first + count) (logVec.drop count) := by
  intro position entry found
  rw [List.getElem?_drop] at found
  have numbered := consecutive (count + position) entry found
  rw [numbered, Int.natCast_add, add_assoc]

theorem append (before : Consecutive first logVec)
    (after : Consecutive (first + logVec.length) rest) : Consecutive first (logVec ++ rest) := by
  intro position entry found
  rcases Nat.lt_or_ge position logVec.length with inside | past
  · rw [List.getElem?_append_left inside] at found
    exact before position entry found
  · rw [List.getElem?_append_right past] at found
    have numbered := after _ entry found
    omega

theorem singleton {entry : Log} (numbered : entry.index = first) : Consecutive first [entry] := by
  intro position other found
  obtain ⟨inside, rfl⟩ := List.getElem?_eq_some_iff.mp found
  obtain rfl : position = 0 := Nat.lt_one_iff.mp inside
  exact numbered.trans (add_zero first).symm

/-- An entry numbered by the length of the log goes at its end. -/
theorem push (consecutive : Consecutive 0 logVec) {entry : Log}
    (numbered : entry.index = logVec.length) : Consecutive 0 (logVec ++ [entry]) := by
  apply consecutive.append
  apply singleton
  rw [numbered, zero_add]

end Consecutive

/-- A log that is numbered from zero and has an entry. -/
structure Server.Numbered (server : Server) : Prop where
  nonempty : server.logVec ≠ []
  consecutive : Consecutive 0 server.logVec

/-- A synchronisation whose entries are numbered on from the one it is sent after. -/
structure AppendEntriesArgs.Numbered (args : AppendEntriesArgs) : Prop where
  low : -1 ≤ args.preLogIndex
  consecutive : Consecutive (args.preLogIndex + 1) args.logVec

namespace Server

variable {server : Server}

/-- The numbers depend on the log only. -/
theorem Numbered.of_logVec {next : Server} (numbered : server.Numbered)
    (same : next.logVec = server.logVec) : next.Numbered where
  nonempty := same.symm ▸ numbered.nonempty
  consecutive := same.symm ▸ numbered.consecutive

/-- An entry with the next number. -/
theorem Numbered.push {next : Server} {entry : Log} (numbered : server.Numbered)
    (pushed : next.logVec = server.logVec ++ [entry])
    (index : entry.index = server.logVec.length) : next.Numbered where
  nonempty := by
    rw [pushed]
    exact List.append_ne_nil_of_left_ne_nil numbered.nonempty _
  consecutive := by
    rw [pushed]
    exact numbered.consecutive.push index

/-- What a leader sends, from whatever position. -/
theorem Numbered.appendEntriesArgs (numbered : server.Numbered) (nextIndex : Nat) :
    (server.appendEntriesArgs nextIndex).Numbered where
  low := by
    change (-1 : Int) ≤ (nextIndex : Int) - 1
    omega
  consecutive := by
    have dropped := numbered.consecutive.drop nextIndex
    rw [zero_add] at dropped
    change Consecutive ((nextIndex : Int) - 1 + 1) (server.logVec.drop nextIndex)
    rwa [sub_add_cancel]

/-- Where the entry before those sent is there, the log is cut back to it. -/
theorem Numbered.pushed (numbered : server.Numbered) {args : AppendEntriesArgs}
    (sent : args.Numbered) (entries : args.logVec ≠ []) (matching : server.mismatches args = false)
    {next : Server} (pushed : next.logVec = server.pushed args) : next.Numbered := by
  have low := sent.low
  simp only [mismatches, decide_eq_false_iff_not, not_or, Int.not_le] at matching
  have inside : (args.preLogIndex + 1).toNat ≤ server.logVec.length := by omega
  have cut : next.logVec = server.logVec.take (args.preLogIndex + 1).toNat ++ args.logVec := by
    rw [pushed, Server.pushed, resize_of_le inside]
  constructor
  · rw [cut]
    exact List.append_ne_nil_of_right_ne_nil _ entries
  · rw [cut]
    apply (numbered.consecutive.take _).append
    rw [List.length_take_of_le inside, zero_add, Int.toNat_of_nonneg (by omega)]
    exact sent.consecutive

end Server

/-- **One turn** keeps a log numbered, given that what it receives is. -/
theorem Turn.numbered {size : Nat} {server : Server} {input : Input} {effect : Effect}
    (turn : Turn size server input effect) (numbered : server.Numbered)
    (sent : ∀ args, input = .call (.requestAppendEntries args) → args.Numbered) :
    effect.server.Numbered := by
  cases turn with
  | quiet quiet => exact numbered.of_logVec quiet.logVec
  | stepDown _ down => exact numbered.of_logVec down.logVec
  | campaign | grant | count | credit => exact numbered.of_logVec rfl
  | lead | addLog => exact numbered.push rfl rfl
  | sync =>
      obtain ⟨index, committed⟩ := server.commit_eq
      rw [committed]
      exact numbered.of_logVec rfl
  | heartbeat args => exact numbered.of_logVec (server.heartbeat_logVec args)
  | confirm args => exact numbered.of_logVec (server.follow_logVec args)
  | push args pushes =>
      obtain ⟨-, -, entries, -, matching⟩ := Server.of_pushes pushes
      exact numbered.pushed (sent args rfl) entries matching (server.push_logVec args)

namespace Cluster

/-- **Log indices.** The logs of started servers are numbered from zero, and what is in
flight is numbered on from the entry it is sent after. -/
structure Indexed (size : Nat) (cluster : Cluster) : Prop where
  running : ∀ id, (cluster.servers id).isStop = false → Started size id
  logs : ∀ id, Started size id → (cluster.servers id).Numbered
  sent : ∀ target args, ⟨target, .requestAppendEntries args⟩ ∈ cluster.net → args.Numbered

theorem indexed_initial (size : Nat) : Indexed size (initial size) where
  running := running_initial size
  logs id started := by
    simp only [initial, started, ↓reduceIte]
    exact ⟨List.cons_ne_nil _ _, Consecutive.singleton rfl⟩
  sent _ _ member := nomatch member

/-- **One step** keeps logs and messages numbered. -/
theorem Indexed.of_change {size : Nat} {cluster after : Cluster} {event : Event} {id : Nat}
    {input : Input} {effect : Effect} {base : List Packet} (indexed : Indexed size cluster)
    (change : Change size cluster event after id input effect base) : Indexed size after where
  running := change.running indexed.running
  logs other started := by
    by_cases same : other = id
    · subst same
      rw [change.server_self]
      apply change.turn.numbered (indexed.logs other started)
      intro args given
      exact indexed.sent other args (change.flying given)
    · rw [change.server_of_ne same]
      exact indexed.logs other started
  sent target args member := by
    rcases change.mem_net member with old | new
    · exact indexed.sent target args old
    · obtain ⟨running, -, nextIndex, rfl⟩ := change.turn.append_sent new
      exact (indexed.logs id (indexed.running id running)).appendEntriesArgs nextIndex

theorem indexed_of_reaches {size : Nat} {cluster : Cluster}
    (run : (machine size).Reaches Machine.anyStep (initial size) cluster) :
    Indexed size cluster := by
  apply run.invariant (Indexed size)
  · exact indexed_initial size
  · intro before event after indexed _ stepped
    obtain ⟨id, input, effect, base, change⟩ := step_change stepped
    exact indexed.of_change change

/-- **Log indexing.** In every state of every run the log of a started server has an
entry and each entry carries its position, and a synchronisation in flight carries
consecutive entries, the first of them one past the entry it is sent after. -/
theorem log_indexed (size : Nat) {cluster : Cluster}
    (run : (machine size).Reaches Machine.anyStep (initial size) cluster) :
    (∀ id, Started size id → (cluster.servers id).logVec ≠ [] ∧
      ∀ (position : Nat) (entry : Log), (cluster.servers id).logVec[position]? = some entry →
        entry.index = position) ∧
      ∀ target args, ⟨target, .requestAppendEntries args⟩ ∈ cluster.net →
        -1 ≤ args.preLogIndex ∧ ∀ (position : Nat) (entry : Log),
          args.logVec[position]? = some entry →
            entry.index = args.preLogIndex + 1 + position := by
  have indexed := indexed_of_reaches run
  constructor
  · intro id started
    obtain ⟨nonempty, consecutive⟩ := indexed.logs id started
    refine ⟨nonempty, fun position entry found => ?_⟩
    rw [consecutive position entry found, zero_add]
  · intro target args member
    obtain ⟨low, consecutive⟩ := indexed.sent target args member
    exact ⟨low, consecutive⟩

/-- The entry a leader takes from a client carries the position behind that of its own. -/
theorem log_indexed_addLog :
    ∃ cluster entry, (machine 3).execute Machine.anyStep
        (oneLeader ++ [.addLog 1 "x", .update 1]) (initial 3) = some cluster ∧
      (cluster.servers 1).logVec[2]? = some entry ∧ entry.index = 2 := by
  have ran : ((machine 3).execute Machine.anyStep (oneLeader ++ [.addLog 1 "x", .update 1])
      (initial 3)).bind (fun cluster => (cluster.servers 1).logVec[2]?) =
        some ⟨2, 1, false, "x"⟩ := by decide +kernel
  obtain ⟨cluster, reached, found⟩ := Option.bind_eq_some_iff.mp ran
  have indexed := log_indexed 3 (Machine.reaches_of_execute reached)
  exact ⟨cluster, _, reached, found, (indexed.1 1 (by decide)).2 2 _ found⟩

end Cluster

end FastDb.Raft
