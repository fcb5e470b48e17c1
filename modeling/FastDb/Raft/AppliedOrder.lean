import FastDb.Raft.Applied
import FastDb.Raft.StateMachineSafety

/-! # Leaders and applied entries

What a server has committed is in the log of every leader of its term or a later one
(`FastDb.Raft.Cluster.leader_completeness`). The iterations of the apply loops that the
history of a run records went through committed entries, so two servers, at one moment or
at two, have applied the same entries in the same order, one of them perhaps further than
the other (`FastDb.Raft.Cluster.applied_in_order`).
-/

namespace FastDb.Raft

open Foundation

namespace Cluster

/-- **Leader completeness.** In every run of sound steps, the log of a leader begins with
all that a server had committed at an earlier moment in a term that is not later than the
leader's. -/
theorem leader_completeness (size : Nat) {earlier later : Cluster}
    (first : (machine size).Reaches (Meets (SoundReplication size)) (initial size) earlier)
    (rest : (machine size).Reaches (Meets (SoundReplication size)) earlier later)
    {id leader : Nat} (started : Started size id)
    (leads : (later.servers leader).state = .leader)
    (notBefore : (earlier.servers id).term ≤ (later.servers leader).term) :
    (earlier.servers id).logVec.take ((earlier.servers id).commitIndex + 1) <+:
      (later.servers leader).logVec := by
  obtain ⟨elections, leaderLog, ballot, logs, commits, -⟩ := commits_of_reaches
    (elections_initial size) (logs_initial size) (commits_initial size) first
  obtain ⟨-, references, ballots, logsLater, commitsLater, kept⟩ :=
    commits_of_reaches elections logs commits rest
  obtain ⟨elected, reference, -⟩ := logsLater.leading leader leads
  have settled := kept _ _ _ (commits.committed id started)
  rw [← reference]
  exact settled.prefix_reference commitsLater.safe notBefore (Or.inr ⟨leader, elected⟩)

/-- Server 2 times out, campaigns and is elected by server 3. -/
def secondLeader : List Event :=
  List.replicate 6 (.update 2) ++ [.election 2, .deliver 8, .deliver 8]

/-- What server 1 committed in term 1 is in the log of server 2, which leads term 2 and
has not committed it. -/
theorem leader_completeness_secondLeader :
    ∃ earlier later, (machine 3).execute (Meets (SoundReplication 3)) oneCommit (initial 3) =
        some earlier ∧
      (machine 3).execute (Meets (SoundReplication 3)) secondLeader earlier = some later ∧
      (later.servers 2).commitIndex = 0 ∧
      (earlier.servers 1).logVec.take ((earlier.servers 1).commitIndex + 1) <+:
        (later.servers 2).logVec := by
  have ran : ((machine 3).execute (Meets (SoundReplication 3)) oneCommit (initial 3)).bind
      (fun earlier => ((machine 3).execute (Meets (SoundReplication 3)) secondLeader
        earlier).map fun later => ((later.servers 2).state, (earlier.servers 1).term,
          (later.servers 2).term, (later.servers 2).commitIndex)) = some (.leader, 1, 2, 0) := by
    decide +kernel
  obtain ⟨earlier, first, more⟩ := Option.bind_eq_some_iff.mp ran
  obtain ⟨later, rest, found⟩ := Option.map_eq_some_iff.mp more
  obtain ⟨leads, terms⟩ := Prod.mk.inj found
  obtain ⟨before, after⟩ := Prod.mk.inj terms
  obtain ⟨after, commit⟩ := Prod.mk.inj after
  refine ⟨earlier, later, first, rest, commit, ?_⟩
  apply leader_completeness 3 (Machine.reaches_of_execute first)
    (Machine.reaches_of_execute rest) (by decide) leads
  rw [before, after]
  exact Nat.le_succ 1

/-! ## The entries the apply loops went through -/

/-- What an iteration of an apply loop found is settled. -/
def AppliedSettled (size : Nat) (leaderLog : Nat → List Log) (ballot : Nat → Nat → List Log)
    (cluster : Cluster) : Prop :=
  ∀ id, Started size id → ∀ iterated ∈ cluster.appliedBy id, ∃ term log,
    Settled size leaderLog ballot cluster term log (iterated.1 + 1) ∧
      log[iterated.1]? = iterated.2

section Step

variable {size : Nat} {cluster after : Cluster} {event : Event} {id : Nat} {input : Input}
  {leaderLog later : Nat → List Log} {ballot ballots : Nat → Nat → List Log}

/-- What two iterations found at one position is one entry. -/
theorem AppliedSettled.eq_of_position (safe : Replication.Safe Log.term (members size)
      (history size leaderLog ballot cluster))
    {term other : Nat} {log otherLog : List Log} {position : Nat}
    (settled : Settled size leaderLog ballot cluster term log (position + 1))
    (otherSettled : Settled size leaderLog ballot cluster other otherLog (position + 1)) :
    log[position]? = otherLog[position]? := by
  have agree := settled.take_eq safe otherSettled
  have here := congrArg (fun front : List Log => front[position]?) agree
  simpa only [List.getElem?_take_of_lt (Nat.lt_succ_self position)] using here

/-- The iterations of one step are of committed entries, and what was settled before
stays settled. -/
theorem AppliedSettled.of_step (applied : AppliedSettled size leaderLog ballot cluster)
    (ids : ∀ id, (cluster.servers id).id = id)
    (commitsAfter : Commits size later ballots after)
    (kept : ∀ term log count, Settled size leaderLog ballot cluster term log count →
      Settled size later ballots after term log count)
    (handled : Handled size cluster event after id input) :
    AppliedSettled size later ballots after := by
  intro other started iterated member
  rw [handled.appliedBy] at member
  rcases List.mem_append.mp member with old | new
  · obtain ⟨term, log, settled, found⟩ := applied other started iterated old
    exact ⟨term, log, kept _ _ _ settled, found⟩
  · rcases (cluster.servers id).handle_applies (allObjKey size) input with applies | idles
    · have iterations := filterMap_iteration_of_applies applies other
      rw [ids, ← handled.server_self] at iterations
      rw [iterations] at new
      split at new
      · next same =>
          subst same
          obtain ⟨index, inRange, rfl⟩ := List.mem_map.mp new
          obtain ⟨low, high⟩ := List.mem_range'_1.mp inRange
          have inside : index + 1 ≤ (after.servers id).commitIndex + 1 := by omega
          exact ⟨_, _, (commitsAfter.committed id started).of_le inside, rfl⟩
      · exact absurd new List.not_mem_nil
    · rw [filterMap_iteration_of_idles idles] at new
      exact absurd new List.not_mem_nil

end Step

/-- What is known along a run of sound steps of the entries applied in it. -/
theorem AppliedSettled.of_reaches {size : Nat} {start cluster : Cluster}
    {leaderLog : Nat → List Log} {ballot : Nat → Nat → List Log}
    (ids : ∀ id, (start.servers id).id = id) (elections : Elections size start)
    (logs : Logs leaderLog start) (commits : Commits size leaderLog ballot start)
    (applied : AppliedSettled size leaderLog ballot start)
    (run : (machine size).Reaches (Meets (SoundReplication size)) start cluster) :
    (∀ id, (cluster.servers id).id = id) ∧ Elections size cluster ∧ ∃ later ballots,
      Logs later cluster ∧ Commits size later ballots cluster ∧
      AppliedSettled size later ballots cluster ∧ ∀ term log count,
        Settled size leaderLog ballot start term log count →
          Settled size later ballots cluster term log count := by
  refine run.invariant (fun cluster => (∀ id, (cluster.servers id).id = id) ∧
    Elections size cluster ∧ ∃ later ballots, Logs later cluster ∧
      Commits size later ballots cluster ∧ AppliedSettled size later ballots cluster ∧
      ∀ term log count, Settled size leaderLog ballot start term log count →
        Settled size later ballots cluster term log count)
    ⟨ids, elections, leaderLog, ballot, logs, commits, applied, fun _ _ _ => id⟩ ?_
  intro before event next known sound stepped
  obtain ⟨ids, elections, current, asked, logs, commits, applied, kept⟩ := known
  obtain ⟨afterwards, later, ballots, references, logsAfter, commitsAfter⟩ :=
    commits.of_step logs elections sound stepped
  obtain ⟨id, input, effect, base, change⟩ := step_change stepped
  obtain ⟨other, given, handled⟩ := step_handled stepped
  have persists : ∀ term log count, Settled size current asked before term log count →
      Settled size later ballots next term log count :=
    fun _ _ _ settled => change.settled references settled
  exact ⟨change.ids ids, afterwards, later, ballots, logsAfter, commitsAfter,
    applied.of_step ids commitsAfter persists handled,
    fun term log count settled => persists _ _ _ (kept term log count settled)⟩

/-- Lists of numbered entries that agree where both have an entry are prefixes of one
another. -/
theorem prefix_of_numbered {α : Type} {left right : List (Nat × α)} {fewer more : Nat}
    (leftNumbers : left.map Prod.fst = List.range fewer)
    (rightNumbers : right.map Prod.fst = List.range more) (bound : fewer ≤ more)
    (agree : ∀ number first second, (number, first) ∈ left → (number, second) ∈ right →
      first = second) : left <+: right := by
  have leftLength : left.length = fewer := by
    have counted := congrArg List.length leftNumbers
    rwa [List.length_map, List.length_range] at counted
  have rightLength : right.length = more := by
    have counted := congrArg List.length rightNumbers
    rwa [List.length_map, List.length_range] at counted
  have numberOf : ∀ {entries : List (Nat × α)} {count : Nat},
      entries.map Prod.fst = List.range count → ∀ (position : Nat)
        (inside : position < entries.length), (entries[position]).1 = position := by
    intro entries count numbers position inside
    have here := congrArg (fun list : List Nat => list[position]?) numbers
    simp only [List.getElem?_map, List.getElem?_eq_getElem inside, Option.map_some] at here
    obtain ⟨_, found⟩ := List.getElem?_eq_some_iff.mp here.symm
    rw [← found, List.getElem_range]
  rw [List.prefix_iff_eq_take]
  apply List.ext_getElem
  · rw [List.length_take]
    omega
  · intro position inside insideTake
    have insideRight : position < right.length := by omega
    rw [List.getElem_take]
    have leftNumber := numberOf leftNumbers position inside
    have rightNumber := numberOf rightNumbers position insideRight
    refine Prod.ext (leftNumber.trans rightNumber.symm) (agree position _ _ ?_ ?_)
    · rw [show (position, (left[position]).2) = left[position] from
        Prod.ext leftNumber.symm rfl]
      exact List.getElem_mem inside
    · rw [show (position, (right[position]).2) = right[position] from
        Prod.ext rightNumber.symm rfl]
      exact List.getElem_mem insideRight

/-- **One order of application.** In every run of sound steps, of what two servers have
applied, at one moment or at two, one is a prefix of the other. -/
theorem applied_in_order (size : Nat) {earlier later : Cluster}
    (first : (machine size).Reaches (Meets (SoundReplication size)) (initial size) earlier)
    (rest : (machine size).Reaches (Meets (SoundReplication size)) earlier later)
    {left right : Nat} (leftStarted : Started size left) (rightStarted : Started size right) :
    earlier.appliedBy left <+: later.appliedBy right ∨
      later.appliedBy right <+: earlier.appliedBy left := by
  obtain ⟨withinEarlier, appliedEarlier, -⟩ :=
    applied_of_reaches (within_initial size) (applied_initial size) first
  obtain ⟨-, appliedLater, -⟩ := applied_of_reaches withinEarlier appliedEarlier rest
  have fresh : AppliedSettled size (fun term => if term = 0 then [Server.startLog] else [])
      (fun _ _ => []) (initial size) := fun _ _ _ member => nomatch member
  obtain ⟨ids, elections, leaderLog, ballot, logs, commits, settledEarlier, -⟩ :=
    fresh.of_reaches (ids_initial size) (elections_initial size) (logs_initial size)
      (commits_initial size) first
  obtain ⟨-, -, references, ballots, -, commitsLater, settledLater, kept⟩ :=
    settledEarlier.of_reaches ids elections logs commits rest
  have agree : ∀ position found other, (position, found) ∈ earlier.appliedBy left →
      (position, other) ∈ later.appliedBy right → found = other := by
    intro position found other leftMember rightMember
    obtain ⟨_, _, leftSettled, leftFound⟩ := settledEarlier left leftStarted _ leftMember
    obtain ⟨_, _, rightSettled, rightFound⟩ := settledLater right rightStarted _ rightMember
    have same := AppliedSettled.eq_of_position commitsLater.safe (kept _ _ _ leftSettled)
      rightSettled
    exact leftFound.symm.trans (same.trans rightFound)
  have leftNumbers := appliedEarlier.positions left leftStarted
  have rightNumbers := appliedLater.positions right rightStarted
  rcases Nat.le_total (earlier.servers left).lastApplied (later.servers right).lastApplied with
    behind | ahead
  · exact Or.inl (prefix_of_numbered leftNumbers rightNumbers behind agree)
  · exact Or.inr (prefix_of_numbered rightNumbers leftNumbers ahead
      fun position found other member earlierMember =>
        (agree position other found earlierMember member).symm)

/-- Server 2 follows server 1 and applies the two entries server 1 applied before. -/
theorem applied_in_order_follower :
    ∃ earlier later, (machine 3).execute (Meets (SoundReplication 3)) oneCommit (initial 3) =
        some earlier ∧
      (machine 3).execute (Meets (SoundReplication 3)) [.update 1, .deliver 7, .update 2]
        earlier = some later ∧
      ((earlier.appliedBy 1).length, (later.appliedBy 2).length) = (2, 2) ∧
      (earlier.appliedBy 1 <+: later.appliedBy 2 ∨ later.appliedBy 2 <+: earlier.appliedBy 1) := by
  have ran : ((machine 3).execute (Meets (SoundReplication 3)) oneCommit (initial 3)).bind
      (fun earlier => ((machine 3).execute (Meets (SoundReplication 3))
        [.update 1, .deliver 7, .update 2] earlier).map fun later =>
          ((earlier.appliedBy 1).length, (later.appliedBy 2).length)) = some (2, 2) := by
    decide +kernel
  obtain ⟨earlier, first, more⟩ := Option.bind_eq_some_iff.mp ran
  obtain ⟨later, rest, lengths⟩ := Option.map_eq_some_iff.mp more
  exact ⟨earlier, later, first, rest, lengths, applied_in_order 3
    (Machine.reaches_of_execute first) (Machine.reaches_of_execute rest) (by decide)
    (by decide)⟩

end Cluster

end FastDb.Raft
