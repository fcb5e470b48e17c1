import Mathlib.Data.Nat.Find
import FastDb.Raft.LeaderLogs
import FastDb.Raft.Steps

/-! # The commit rule

A leader commits up to the middle of its sorted match indices. The vector has a slot
for the print server and one for the leader itself, and neither is ever counted up, so
the middle is the last position that half of the slots reach, not the last one that a
majority of the servers has. The two differ by one follower
(`FastDb.Raft.Server.Slotted.halfReaches_iff_followers`,
`FastDb.Raft.Server.majorityHas_iff_followers`), so they lead to one commit index unless a
bare majority ends or begins at an entry of the term
(`FastDb.Raft.Cluster.commit_exact_iff`).
-/

namespace FastDb.Raft

open Foundation

namespace Server

/-- A server has the leader's log up to a position; the leader has its whole log. -/
def HasUpTo (server : Server) (position id : Nat) : Prop :=
  if id = server.id then position < server.logVec.length
  else position ≤ server.matchIndexVec.getD id 0

instance (server : Server) (position id : Nat) : Decidable (server.HasUpTo position id) :=
  inferInstanceAs (Decidable (ite _ _ _))

/-- More than half of the servers have the leader's log up to a position. -/
def MajorityHas (size : Nat) (server : Server) (position : Nat) : Prop :=
  Majority (members size) ((members size).filter (server.HasUpTo position))

instance (size : Nat) (server : Server) : DecidablePred (server.MajorityHas size) :=
  fun _ => inferInstanceAs (Decidable (_ ∧ _))

/-- **Majority rule.** The commit index moves to the last position that a majority has, if
that is ahead of it and its entry is of the current term. -/
def exactCommit (size : Nat) (server : Server) : Nat :=
  let last := Nat.findGreatest (server.MajorityHas size) (server.logVec.length - 1)
  if server.commitIndex < last ∧ termAt server.logVec last = some server.term then last
  else server.commitIndex

/-- At least half of the slots reach a position. -/
def HalfReaches (server : Server) (position : Nat) : Prop :=
  server.matchIndexVec ≠ [] ∧ server.matchIndexVec.length ≤
    2 * server.matchIndexVec.countP fun matchIndex => position ≤ matchIndex

instance (server : Server) : DecidablePred server.HalfReaches :=
  fun _ => inferInstanceAs (Decidable (_ ∧ _))

/-- The last position with a property that positions lose as they grow. -/
def Last (has : Nat → Prop) (position : Nat) : Prop := has position ∧ ¬has (position + 1)

instance (has : Nat → Prop) [DecidablePred has] : DecidablePred (Last has) :=
  fun _ => inferInstanceAs (Decidable (_ ∧ _))

section Rules

variable {size : Nat} {server : Server}

/-- Who has one position more has this one. -/
theorem HasUpTo.of_succ {position id : Nat} (has : server.HasUpTo (position + 1) id) :
    server.HasUpTo position id := by
  unfold HasUpTo at has ⊢
  split
  · next own =>
      rw [if_pos own] at has
      omega
  · next other =>
      rw [if_neg other] at has
      omega

/-- A majority that has one position more has this one. -/
theorem MajorityHas.of_succ {position : Nat} (has : server.MajorityHas size (position + 1)) :
    server.MajorityHas size position := by
  refine ⟨Finset.filter_subset _ _, lt_of_lt_of_le has.2 (Nat.mul_le_mul_left 2 ?_)⟩
  apply Finset.card_le_card
  apply Finset.monotone_filter_right
  exact fun id _ => HasUpTo.of_succ

/-- No server has more than the log. -/
theorem not_majorityHas_length
    (within : ∀ id, server.matchIndexVec.getD id 0 < server.logVec.length) :
    ¬server.MajorityHas size server.logVec.length := by
  intro has
  have few := has.2
  rw [Finset.filter_false_of_mem] at few
  · exact Nat.not_lt_zero _ few
  · intro id _ reaches
    unfold HasUpTo at reaches
    split at reaches
    · exact lt_irrefl _ reaches
    · exact absurd (within id) (Nat.not_lt.mpr reaches)

/-- Past position 0, the position of the majority rule is the last one a majority has. -/
theorem findGreatest_eq_iff_last
    (within : ∀ id, server.matchIndexVec.getD id 0 < server.logVec.length) {position : Nat}
    (positive : 0 < position) :
    Nat.findGreatest (server.MajorityHas size) (server.logVec.length - 1) = position ↔
      Last (server.MajorityHas size) position := by
  have fewer : ∀ {low high}, low ≤ high → server.MajorityHas size high →
      server.MajorityHas size low := by
    intro low high above
    induction above with
    | refl => exact fun has => has
    | step _ ih => exact fun has => ih has.of_succ
  have nonempty := within 0
  have bounded : ∀ {other}, server.MajorityHas size other → other < server.logVec.length := by
    intro other has
    by_contra beyond
    exact not_majorityHas_length within (fewer (Nat.not_lt.mp beyond) has)
  rw [Nat.findGreatest_eq_iff]
  constructor
  · intro greatest
    obtain ⟨inside, has, none⟩ := greatest
    refine ⟨has positive.ne', fun more => ?_⟩
    have next := bounded more
    exact none (Nat.lt_succ_self position) (by omega) more
  · intro last
    have inside := bounded last.1
    refine ⟨by omega, fun _ => last.1, fun other ahead _ has => ?_⟩
    exact last.2 (fewer ahead has)

/-- The middle match index is the last position that half of the slots reach. -/
theorem midIndex_eq_iff_last (nonempty : server.matchIndexVec ≠ []) {position : Nat} :
    midIndex server.matchIndexVec = position ↔ Last server.HalfReaches position := by
  rw [Last, HalfReaches, HalfReaches, ← le_middle_iff nonempty, ← le_middle_iff nonempty]
  change _ ↔ (_ ∧ position ≤ midIndex server.matchIndexVec) ∧
    ¬(_ ∧ position + 1 ≤ midIndex server.matchIndexVec)
  rw [and_iff_right nonempty, and_iff_right nonempty]
  omega

/-- An iteration of a running leader commits by the rule. -/
theorem update_commitIndex (running : server.isStop = false) (leader : server.state = .leader)
    (keys : List Nat) :
    (server.update keys).server.commitIndex = server.commit.commitIndex := by
  rw [update, if_neg (by rw [running]; decide), leader]
  rfl

/-- The timer of a leader moves the commit index to the middle match index, if that is
ahead of it and its entry is of the current term. -/
theorem update_commitIndex_eq_iff (running : server.isStop = false)
    (leader : server.state = .leader) (keys : List Nat) (position : Nat)
    (ahead : server.commitIndex < position) :
    (server.update keys).server.commitIndex = position ↔
      Last server.HalfReaches position ∧ termAt server.logVec position = some server.term := by
  rw [update_commitIndex running leader]
  unfold commit
  split
  · next commits =>
      obtain ⟨-, nonempty, current⟩ := commits
      rw [← midIndex_eq_iff_last nonempty]
      change max (midIndex server.matchIndexVec) server.commitIndex = position ↔ _
      constructor
      · intro moved
        obtain rfl : midIndex server.matchIndexVec = position := by omega
        exact ⟨rfl, current⟩
      · intro middle
        rw [middle.1]
        omega
  · next stays =>
      refine iff_of_false ahead.ne fun half => stays ?_
      obtain rfl := (midIndex_eq_iff_last half.1.1.1).mpr half.1
      exact ⟨leader, half.1.1.1, half.2⟩

/-- The exact commit by the last position that a majority has. -/
theorem exactCommit_eq_iff (size : Nat)
    (within : ∀ id, server.matchIndexVec.getD id 0 < server.logVec.length) (position : Nat)
    (ahead : server.commitIndex < position) :
    server.exactCommit size = position ↔
      Last (server.MajorityHas size) position ∧
        termAt server.logVec position = some server.term := by
  rw [← findGreatest_eq_iff_last within (Nat.zero_lt_of_lt ahead)]
  unfold exactCommit
  dsimp only
  split
  · next commits =>
      constructor
      · intro moved
        rw [moved] at commits
        exact ⟨moved, commits.2⟩
      · exact And.left
  · next stays =>
      refine iff_of_false ahead.ne fun last => stays ?_
      rw [last.1]
      exact ⟨ahead, last.2⟩

/-- An iteration does not take the commit index back. -/
theorem le_update_commitIndex (running : server.isStop = false)
    (leader : server.state = .leader) (keys : List Nat) :
    server.commitIndex ≤ (server.update keys).server.commitIndex := by
  rw [update_commitIndex running leader]
  unfold commit
  split
  · exact le_max_right _ _
  · exact le_rfl

/-- The exact commit does not go back either. -/
theorem le_exactCommit (size : Nat) (server : Server) :
    server.commitIndex ≤ server.exactCommit size := by
  unfold exactCommit
  dsimp only
  split
  · next commits => exact commits.1.le
  · exact le_rfl

/-- The timer and the majority rule lead to one commit index when the positions ahead of it with
an entry of the current term are last for both or for neither. -/
theorem commit_eq_exact_iff (size : Nat) (server : Server) (keys : List Nat)
    (running : server.isStop = false) (leader : server.state = .leader)
    (within : ∀ id, server.matchIndexVec.getD id 0 < server.logVec.length) :
    (server.update keys).server.commitIndex = server.exactCommit size ↔
      ∀ position, server.commitIndex < position →
        termAt server.logVec position = some server.term →
          (Last server.HalfReaches position ↔ Last (server.MajorityHas size) position) := by
  have code := update_commitIndex_eq_iff running leader keys
  have rule := exactCommit_eq_iff size within
  constructor
  · intro same position ahead current
    have moves := code position ahead
    rw [same, rule position ahead] at moves
    simpa only [current, and_true] using moves.symm
  · intro agree
    have moves : ∀ position, server.commitIndex < position →
        ((server.update keys).server.commitIndex = position ↔
          server.exactCommit size = position) := by
      intro position ahead
      rw [code position ahead, rule position ahead]
      exact and_congr_left (agree position ahead)
    rcases Nat.eq_or_lt_of_le (le_update_commitIndex running leader keys) with stays | ahead
    · rcases Nat.eq_or_lt_of_le (le_exactCommit size server) with kept | ahead
      · rw [← stays, ← kept]
      · exact (moves _ ahead).mpr rfl
    · exact ((moves _ ahead).mp rfl).symm

end Rules

section Followers

variable {size : Nat} {server : Server}

/-- The other servers that have the leader's log up to a position. -/
def followersUpTo (size : Nat) (server : Server) (position : Nat) : Finset Nat :=
  (members size).filter fun id => id ≠ server.id ∧ position ≤ server.matchIndexVec.getD id 0

/-- A majority has a position of the log when the leader and its followers are one. -/
theorem majorityHas_iff_followers (registered : Started size server.id) {position : Nat}
    (inside : position < server.logVec.length) :
    server.MajorityHas size position ↔
      size < 2 * ((server.followersUpTo size position).card + 1) := by
  have split : (members size).filter (server.HasUpTo position) =
      insert server.id (server.followersUpTo size position) := by
    ext id
    by_cases own : id = server.id
    · subst own
      simp [HasUpTo, inside, mem_members.mpr registered]
    · simp [HasUpTo, followersUpTo, own]
  rw [MajorityHas, Majority, split, Finset.card_insert_of_notMem (by simp [followersUpTo]),
    card_members, and_iff_right]
  rw [← split]
  exact Finset.filter_subset _ _

/-- No more followers have a position than have the one before. -/
theorem followersUpTo_succ_le (size : Nat) (server : Server) (position : Nat) :
    (server.followersUpTo size (position + 1)).card ≤
      (server.followersUpTo size position).card := by
  apply Finset.card_le_card
  apply Finset.monotone_filter_right
  intro id _ follows
  exact ⟨follows.1, Nat.le_of_succ_le follows.2⟩

/-- No follower has more than the log. -/
theorem followersUpTo_length (size : Nat)
    (within : ∀ id, server.matchIndexVec.getD id 0 < server.logVec.length) :
    (server.followersUpTo size server.logVec.length).card = 0 := by
  rw [Finset.card_eq_zero, followersUpTo, Finset.filter_eq_empty_iff]
  intro id _ follows
  exact absurd (within id) (Nat.not_lt.mpr follows.2)

/-- The vector of match indices as `ToLeader` sets it up and `ReplyAppendEntries` counts it up,
or as `ReStart` clears it: one slot for each server, and one for the print server, which is
never counted up and neither is the server's own. -/
structure Slotted (size : Nat) (server : Server) : Prop where
  registered : Started size server.id
  shape : server.matchIndexVec = [] ∨ server.matchIndexVec.length = size + 1
  printSlot : server.matchIndexVec.getD 0 0 = 0
  ownSlot : server.matchIndexVec.getD server.id 0 = 0

/-- A bare majority has the log up to a position of it: the leader, and half of the servers
rounded down by their match indices. -/
def BareMajority (size : Nat) (server : Server) (position : Nat) : Prop :=
  position < server.logVec.length ∧ (server.followersUpTo size position).card = size / 2

instance (size : Nat) (server : Server) : DecidablePred (server.BareMajority size) :=
  fun _ => inferInstanceAs (Decidable (_ ∧ _))

/-- The slots that reach a position are those of the followers that do. -/
theorem Slotted.reaching (slotted : server.Slotted size)
    (shape : server.matchIndexVec.length = size + 1) {position : Nat} (positive : 0 < position) :
    (Finset.range server.matchIndexVec.length).filter (fun id =>
      server.matchIndexVec[id]?.any (fun matchIndex => decide (position ≤ matchIndex)) = true) =
      server.followersUpTo size position := by
  have printSlot := slotted.printSlot
  have ownSlot := slotted.ownSlot
  ext id
  rw [Finset.mem_filter, followersUpTo, Finset.mem_filter, mem_members, Finset.mem_range, shape,
    Option.any_eq_true]
  constructor
  · intro reaches
    obtain ⟨inside, matchIndex, found, above⟩ := reaches
    have slot : server.matchIndexVec.getD id 0 = matchIndex := by
      rw [List.getD_eq_getElem?_getD, found, Option.getD_some]
    rw [decide_eq_true_eq] at above
    refine ⟨⟨?_, by omega⟩, ?_, slot ▸ above⟩
    · by_contra print
      obtain rfl : id = 0 := by omega
      omega
    · intro own
      rw [own] at slot
      omega
  · intro follows
    obtain ⟨registered, -, above⟩ := follows
    have inside : id < server.matchIndexVec.length := by
      rw [shape]
      exact Nat.lt_succ_of_le registered.2
    refine ⟨Nat.lt_succ_of_le registered.2, _, List.getElem?_eq_getElem inside, ?_⟩
    rw [List.getD_eq_getElem?_getD, List.getElem?_eq_getElem inside, Option.getD_some] at above
    exact decide_eq_true above

/-- **One follower more.** Half of the slots reach a position only when that many followers
alone do. -/
theorem Slotted.halfReaches_iff_followers (slotted : server.Slotted size) {position : Nat}
    (positive : 0 < position) :
    server.HalfReaches position ↔ size < 2 * (server.followersUpTo size position).card := by
  rcases slotted.shape with cleared | shape
  · have nobody : server.followersUpTo size position = ∅ := by
      rw [followersUpTo, Finset.filter_eq_empty_iff]
      intro id _ follows
      rw [cleared, List.getD_nil] at follows
      omega
    rw [nobody, Finset.card_empty]
    exact iff_of_false (fun half => half.1 cleared) (Nat.not_lt_zero _)
  · rw [HalfReaches, ← card_filter_range_eq_countP, slotted.reaching shape positive, shape,
      and_iff_right]
    · exact Nat.succ_le_iff
    · rw [← List.length_pos_iff]
      omega

/-- A position of the log is last for both rules or for neither unless a bare majority has one
of it and the next position only. -/
theorem Slotted.last_iff_last (slotted : server.Slotted size)
    (within : ∀ id, server.matchIndexVec.getD id 0 < server.logVec.length) {position : Nat}
    (positive : 0 < position) (inside : position < server.logVec.length) :
    (Last server.HalfReaches position ↔ Last (server.MajorityHas size) position) ↔
      (server.BareMajority size position ↔ server.BareMajority size (position + 1)) := by
  have fewer := followersUpTo_succ_le size server position
  have here := majorityHas_iff_followers slotted.registered inside
  simp only [Last, BareMajority, here, slotted.halfReaches_iff_followers positive,
    slotted.halfReaches_iff_followers (show 0 < position + 1 from Nat.succ_pos position)]
  rcases Nat.lt_or_eq_of_le (show position + 1 ≤ server.logVec.length from inside) with
    further | last
  · rw [majorityHas_iff_followers slotted.registered further]
    simp only [inside, further, true_and]
    omega
  · have nobody := followersUpTo_length size within
    have none : ¬server.MajorityHas size server.logVec.length := not_majorityHas_length within
    rw [← last] at nobody none
    simp only [none, inside, not_false_eq_true, and_true, true_and, nobody]
    omega

/-- **Exact commits** of a leader, by the match indices of its followers. -/
theorem Slotted.commit_eq_exact_iff (slotted : server.Slotted size) (keys : List Nat)
    (running : server.isStop = false) (leader : server.state = .leader)
    (within : ∀ id, server.matchIndexVec.getD id 0 < server.logVec.length) :
    (server.update keys).server.commitIndex = server.exactCommit size ↔
      ∀ position, server.commitIndex < position →
        termAt server.logVec position = some server.term →
          (server.BareMajority size position ↔ server.BareMajority size (position + 1)) := by
  rw [Server.commit_eq_exact_iff size server keys running leader within]
  refine forall_congr' fun position => forall_congr' fun ahead => forall_congr' fun current => ?_
  obtain ⟨-, entry, found, -⟩ := termAt_eq_some.mp current
  rw [Int.toNat_natCast] at found
  exact slotted.last_iff_last within (Nat.zero_lt_of_lt ahead)
    (List.getElem?_eq_some_iff.mp found).1

end Followers

end Server

/-! ## The slots along a run -/

/-- What a turn makes of the match indices. -/
theorem Turn.matchIndexVec {size : Nat} {server : Server} {input : Input} {effect : Effect}
    (turn : Turn size server input effect) :
    effect.server.matchIndexVec = server.matchIndexVec ∨ effect.server.matchIndexVec = [] ∨
      effect.server.matchIndexVec = List.replicate (size + 1) 0 ∨
      ∃ reply value, input = .call (.replyAppendEntries reply) ∧
        effect.server.matchIndexVec = server.matchIndexVec.set reply.id value := by
  cases turn with
  | quiet quiet => exact quiet.matchIndexVec.imp_right Or.inl
  | stepDown _ down => exact Or.inl down.matchIndexVec
  | campaign | grant | count | addLog => exact Or.inl rfl
  | lead =>
      refine Or.inr (Or.inr (Or.inl ?_))
      simp only [Server.toLeader, allObjKey, List.length_range]
  | sync =>
      obtain ⟨index, committed⟩ := server.commit_eq
      rw [committed]
      exact Or.inl rfl
  | heartbeat args => exact Or.inl (server.heartbeat_follows args).matchIndexVec
  | confirm args => exact Or.inl (server.follow_follows args).matchIndexVec
  | push args => exact Or.inl (server.push_follows args).matchIndexVec
  | credit reply => exact Or.inr (Or.inr (Or.inr ⟨reply, _, rfl, rfl⟩))

/-- A request to append entries is answered to its leader. -/
theorem Server.sent_of_requestAppendEntries {server : Server} {args : AppendEntriesArgs}
    {packet : Packet} (member : packet ∈ (server.requestAppendEntries args).sent) :
    server.isStop = false ∧ ∃ (answer : Server) (success : Bool), answer.id = server.id ∧
      packet = answer.appendReply args success := by
  rw [requestAppendEntries] at member
  split at member
  · cases member
  · next running =>
      refine ⟨Bool.eq_false_of_not_eq_true running, ?_⟩
      split at member
      · exact ⟨server, false, rfl, List.mem_singleton.mp member⟩
      · dsimp only at member
        split at member
        · cases member
        · split at member
          · exact ⟨_, true, server.follow_id args, List.mem_singleton.mp member⟩
          · split at member
            · exact ⟨_, false, server.follow_id args, List.mem_singleton.mp member⟩
            · exact ⟨_, true, (server.push_follows args).id, List.mem_singleton.mp member⟩

/-- A packet of the log synchronisation: a request to another server than the leader, and a
reply to a request that is being handled. -/
theorem Server.sent_of_handle {server : Server} {keys : List Nat} {input : Input} {packet : Packet}
    (member : packet ∈ (server.handle keys input).sent) :
    (∀ args, packet.call = .requestAppendEntries args → packet.target ≠ args.leaderId) ∧
      ∀ reply, packet.call = .replyAppendEntries reply → server.isStop = false ∧
        reply.id = server.id ∧
        ∃ args, input = .call (.requestAppendEntries args) ∧ packet.target = args.leaderId := by
  cases input with
  | timer =>
      have sent : packet ∈ server.broadcast keys := by
        rw [handle, update] at member
        split at member
        · cases member
        · split at member
          · exact member
          all_goals cases member
      obtain ⟨target, -, sends⟩ := List.mem_filterMap.mp sent
      split at sends
      · cases sends
      · next other =>
          obtain ⟨nextIndex, -, rfl⟩ := Option.map_eq_some_iff.mp sends
          refine ⟨fun args same => ?_, (fun _ same => by cases same)⟩
          obtain rfl := Call.requestAppendEntries.inj same
          exact other
  | election =>
      rw [handle, election] at member
      split at member
      · obtain ⟨target, -, rfl⟩ := List.mem_map.mp member
        exact ⟨(fun _ same => by cases same), (fun _ same => by cases same)⟩
      · cases member
  | call call =>
      cases call with
      | requestVote args =>
          rw [handle, Call.deliver, requestVote] at member
          split at member
          · cases member
          · obtain rfl := List.mem_singleton.mp member
            exact ⟨(fun _ same => by cases same), (fun _ same => by cases same)⟩
      | replyVote reply =>
          rw [handle, Call.deliver, replyVote] at member
          repeat' split at member
          all_goals cases member
      | requestAppendEntries args =>
          obtain ⟨running, answer, success, own, rfl⟩ := sent_of_requestAppendEntries member
          refine ⟨(fun _ same => by cases same), fun reply same => ?_⟩
          obtain rfl := Call.replyAppendEntries.inj same
          exact ⟨running, own, args, rfl, rfl⟩
      | replyAppendEntries reply =>
          rw [handle, Call.deliver, replyAppendEntries] at member
          repeat' split at member
          all_goals cases member
  | client | stop | reStart => cases member

namespace Cluster

/-- **Slots.** Match indices are kept in the slots of the servers, and what is in flight is about
no other: requests go to others than the leader, and replies come from servers that are started. -/
structure Slots (size : Nat) (cluster : Cluster) : Prop where
  running : ∀ id, (cluster.servers id).isStop = false → Started size id
  ids : ∀ id, (cluster.servers id).id = id
  slotted : ∀ id, Started size id → (cluster.servers id).Slotted size
  requests : ∀ packet ∈ cluster.net, ∀ args, packet.call = .requestAppendEntries args →
    packet.target ≠ args.leaderId
  replies : ∀ packet ∈ cluster.net, ∀ reply, packet.call = .replyAppendEntries reply →
    Started size reply.id ∧ reply.id ≠ packet.target

theorem slots_initial (size : Nat) : Slots size (initial size) where
  running := running_initial size
  ids := ids_initial size
  slotted id started := by
    simp only [initial, started, ↓reduceIte]
    exact ⟨started, Or.inl rfl, rfl, rfl⟩
  requests _ member := nomatch member
  replies _ member := nomatch member

/-- **One step** keeps the slots. -/
theorem Slots.step {size : Nat} {cluster after : Cluster} {event : Event}
    (slots : Slots size cluster) (stepped : cluster.step size event = some after) :
    Slots size after := by
  obtain ⟨id, input, effect, base, change⟩ := step_change stepped
  obtain ⟨other, given, handled⟩ := step_handled stepped
  obtain ⟨rfl, rfl⟩ := Prod.mk.inj (Option.some.inj (handled.given.symm.trans change.given))
  have sends (packet : Packet) (member : packet ∈ after.net) := handled.net packet member
  refine ⟨change.running slots.running, change.ids slots.ids, fun id started => ?_,
    fun packet member args same => ?_, fun packet member reply same => ?_⟩
  · by_cases own : id = other
    · subst own
      obtain ⟨registered, shape, printSlot, ownSlot⟩ := slots.slotted id started
      have same := change.turn.id
      rw [change.server_self]
      rcases change.turn.matchIndexVec with kept | cleared | fresh | ⟨reply, value, called, counted⟩
      · exact ⟨by rwa [same], by rwa [kept], by rwa [kept], by rwa [kept, same]⟩
      · exact ⟨by rwa [same], Or.inl cleared, by rw [cleared]; rfl, by rw [cleared]; rfl⟩
      · refine ⟨by rwa [same], Or.inr (by rw [fresh, List.length_replicate]), ?_, ?_⟩
        · rw [fresh, List.replicate_succ, List.getD_cons_zero]
        · rw [fresh, List.getD_eq_getElem?_getD, List.getElem?_replicate]
          split <;> rfl
      · obtain ⟨positive, different⟩ := slots.replies _ (change.flying called) reply rfl
        have foreign : reply.id ≠ (cluster.servers id).id := by rwa [slots.ids]
        have unprinted : reply.id ≠ 0 := Nat.ne_of_gt positive.1
        refine ⟨by rwa [same], ?_, ?_, ?_⟩
        · rw [counted, List.length_set]
          exact shape.imp_left fun empty => by rw [empty, List.set_nil]
        · rw [counted, List.getD_eq_getElem?_getD, List.getElem?_set_ne unprinted,
            ← List.getD_eq_getElem?_getD, printSlot]
        · rw [counted, same, List.getD_eq_getElem?_getD, List.getElem?_set_ne foreign,
            ← List.getD_eq_getElem?_getD, ownSlot]
    · rw [change.server_of_ne own]
      exact slots.slotted id started
  · rcases sends packet member with old | new
    · exact slots.requests packet old args same
    · exact (Server.sent_of_handle new).1 args same
  · rcases sends packet member with old | new
    · exact slots.replies packet old reply same
    · obtain ⟨running, own, args, called, target⟩ := (Server.sent_of_handle new).2 reply same
      have different := slots.requests _ (change.flying called) args rfl
      rw [slots.ids] at own
      exact ⟨own ▸ slots.running other running, by rw [own, target]; exact different⟩

/-- **Exact commits.** One iteration of the timer of a running leader moves the commit index as
the majority rule does exactly when every position ahead of it with an entry of the current term
has a bare majority if and only if the next one has. This holds of any vector of match indices
with a slot for each server and for the print server of which those of the print server and the
leader are not counted up, or an empty one; and in every run each server has such a vector. -/
theorem commit_exact_iff (size : Nat) :
    (∀ (server : Server) (keys : List Nat), server.Slotted size → server.isStop = false →
      server.state = .leader →
      (∀ id, server.matchIndexVec.getD id 0 < server.logVec.length) →
        ((server.update keys).server.commitIndex = server.exactCommit size ↔
          ∀ position, server.commitIndex < position →
            termAt server.logVec position = some server.term →
              (server.BareMajority size position ↔ server.BareMajority size (position + 1)))) ∧
      ∀ cluster, (machine size).Reaches Machine.anyStep (initial size) cluster →
        ∀ id, Started size id → (cluster.servers id).Slotted size := by
  constructor
  · intro server keys slotted running leader within
    exact slotted.commit_eq_exact_iff keys running leader within
  · intro cluster run
    exact (run.invariant (Slots size) (slots_initial size)
      fun _ _ _ slots _ stepped => slots.step stepped).slotted

/-- A leader in its first term that both followers have acknowledged. -/
def acknowledgedLeader : Server where
  id := 1
  isStop := false
  state := .leader
  term := 1
  logVec := [Server.startLog, { index := 1, term := 1, isServer := true, content := "ToLeader:1" }]
  matchIndexVec := [0, 0, 1, 1]

/-- All three servers have the leader's entry, and both rules commit it. -/
theorem commit_exact_acknowledgedLeader :
    (acknowledgedLeader.update (allObjKey 3)).server.commitIndex =
        acknowledgedLeader.exactCommit 3 ∧ acknowledgedLeader.exactCommit 3 = 1 := by
  have slotted : acknowledgedLeader.Slotted 3 := ⟨by decide, Or.inr rfl, rfl, rfl⟩
  refine ⟨((commit_exact_iff 3).1 acknowledgedLeader (allObjKey 3) slotted rfl rfl ?_).mpr ?_,
    by decide⟩
  · intro id
    match id with
    | 0 | 1 | 2 | 3 => decide
    | _ + 4 => exact Nat.two_pos
  · intro position ahead current
    match position with
    | 1 => decide
    | _ + 2 => cases current

/-- Server 1 leads, synchronises, and server 2 answers. -/
def oneAcknowledgement : List Event := oneLeader ++ [.update 1, .deliver 3, .deliver 4]

/-- Two of three servers have the leader's entry, and the leader does not commit it. -/
theorem commit_not_exact :
    ∃ cluster, (machine 3).Reaches Machine.anyStep (initial 3) cluster ∧
      (cluster.servers 1).isStop = false ∧ (cluster.servers 1).state = .leader ∧
      (cluster.servers 1).matchIndexVec = [0, 0, 1, 0] ∧
      (cluster.servers 1).logVec.length = 2 ∧
      ((cluster.servers 1).update (allObjKey 3)).server.commitIndex = 0 ∧
      (cluster.servers 1).exactCommit 3 = 1 := by
  have ran : ((machine 3).execute Machine.anyStep oneAcknowledgement (initial 3)).map
      (fun cluster => decide ((cluster.servers 1).isStop = false ∧
        (cluster.servers 1).state = .leader ∧
        (cluster.servers 1).matchIndexVec = [0, 0, 1, 0] ∧
        (cluster.servers 1).logVec.length = 2 ∧
        ((cluster.servers 1).update (allObjKey 3)).server.commitIndex = 0 ∧
        (cluster.servers 1).exactCommit 3 = 1)) = some true := by decide +kernel
  obtain ⟨cluster, reached, late⟩ := Option.map_eq_some_iff.mp ran
  exact ⟨cluster, Machine.reaches_of_execute reached, of_decide_eq_true late⟩

end Cluster

end FastDb.Raft
