import FastDb.Foundation.ReplicatedLog

/-! # Leader completeness

A replication in terms: members vote for the leaders of terms, a leader builds the
reference log of its term, members take over prefixes of references and acknowledge
them. A front of a reference that ends in an entry of its own term is chosen when a
majority has acknowledged it (`Foundation.Replication.Chosen`); it is open while a
majority has acknowledged it or may still do so, having not passed the term
(`Foundation.Replication.IsOpen`). The invariant (`Foundation.Replication.Safe`)
states everything of open fronts: a member keeps those it has acknowledged, a
candidate carries those its voters have acknowledged, and a leader holds those of
all lower terms. Closed fronts stay closed, so no statement of it looks ahead.

Chosen fronts are open. The references of all later leaders extend a chosen front
(`Foundation.Replication.Safe.prefix_of_chosen`), and any two chosen fronts are
comparable.
-/

namespace Foundation

/-- What has happened in a replication: the terms and logs of the servers, the
references and which terms have a leader, the votes and the logs candidates asked
them with, and the acknowledged numbers of entries. -/
structure Replication (σ ε : Type*) where
  term : σ → Nat
  log : σ → List ε
  leaderLog : Nat → List ε
  led : Nat → Prop
  vote : σ → Nat → σ → Prop
  ballot : σ → Nat → List ε
  acked : σ → Nat → Nat → Prop

namespace Replication

variable {σ ε : Type*} {termOf : ε → Nat} {members : Finset σ} {replication : Replication σ ε}

/-- The fields determine a replication. -/
theorem eq_of_fields {left right : Replication σ ε} (term : left.term = right.term)
    (log : left.log = right.log) (leaderLog : left.leaderLog = right.leaderLog)
    (led : ∀ term, left.led term ↔ right.led term)
    (vote : ∀ voter term candidate, left.vote voter term candidate ↔
      right.vote voter term candidate)
    (ballot : left.ballot = right.ballot)
    (acked : ∀ server term count, left.acked server term count ↔
      right.acked server term count) : left = right := by
  have sameLed : left.led = right.led := funext fun term => propext (led term)
  have sameVote : left.vote = right.vote := funext fun voter => funext fun term =>
    funext fun candidate => propext (vote voter term candidate)
  have sameAcked : left.acked = right.acked := funext fun server => funext fun term =>
    funext fun count => propext (acked server term count)
  cases left
  cases right
  cases term
  cases log
  cases leaderLog
  cases ballot
  cases sameLed
  cases sameVote
  cases sameAcked
  rfl

/-- A front of the reference of a term that ends in an entry of the term. -/
structure Own (termOf : ε → Nat) (replication : Replication σ ε) (term : Nat) (front : List ε) :
    Prop where
  isPrefix : front <+: replication.leaderLog term
  last : ∃ before entry, front = before ++ [entry] ∧ termOf entry = term

/-- A majority has acknowledged the entries or has not passed the term. -/
def IsOpen (members : Finset σ) (replication : Replication σ ε) (term count : Nat) : Prop :=
  ∃ quorum, Majority members quorum ∧
    ∀ member ∈ quorum, replication.acked member term count ∨ replication.term member ≤ term

/-- A majority has acknowledged the entries. -/
def Chosen (members : Finset σ) (replication : Replication σ ε) (term count : Nat) : Prop :=
  ∃ quorum, Majority members quorum ∧ ∀ member ∈ quorum, replication.acked member term count

/-- What is chosen is open. -/
theorem Chosen.isOpen {term count : Nat} (chosen : Chosen members replication term count) :
    IsOpen members replication term count := by
  obtain ⟨quorum, majority, acked⟩ := chosen
  exact ⟨quorum, majority, fun member inside => Or.inl (acked member inside)⟩

/-- A log with an entry of the leader's own is not empty. -/
theorem Own.nonempty {term : Nat} {front : List ε} (own : Own termOf replication term front) :
    0 < front.length := by
  obtain ⟨before, entry, rfl, -⟩ := own.last
  rw [List.length_append, List.length_singleton]
  exact Nat.succ_pos _

/-- A log at least as new as another: its last entry is of a later term, or of the
same term and no nearer to the start. -/
def NewerThan (termOf : ε → Nat) (newer older : List ε) : Prop :=
  ∀ front entry, older = front ++ [entry] → ∃ newerFront newerEntry,
    newer = newerFront ++ [newerEntry] ∧ (termOf entry < termOf newerEntry ∨
      termOf newerEntry = termOf entry ∧ older.length ≤ newer.length)

/-- **Safety of a replication.** -/
structure Safe (termOf : ε → Nat) (members : Finset σ) (replication : Replication σ ε) :
    Prop where
  anchored : ∀ server, Anchored termOf replication.leaderLog (replication.log server)
  leaders : ∀ term, Anchored termOf replication.leaderLog (replication.leaderLog term)
  bounded : ∀ term, ∀ entry ∈ replication.leaderLog term, termOf entry ≤ term
  logTerms : ∀ server, ∀ entry ∈ replication.log server,
    termOf entry ≤ replication.term server
  unled : ∀ term, ¬ replication.led term → replication.leaderLog term = []
  elected : ∀ term, replication.led term → term ≠ 0 → ∃ quorum candidate,
    Majority members quorum ∧ ∀ voter ∈ quorum, replication.vote voter term candidate
  voteTerm : ∀ voter term candidate, replication.vote voter term candidate →
    term ≤ replication.term voter
  ballots : ∀ voter term candidate, replication.vote voter term candidate →
    Anchored termOf replication.leaderLog (replication.ballot candidate term) ∧
      ∀ entry ∈ replication.ballot candidate term, termOf entry < term
  ackTerm : ∀ server term count, replication.acked server term count →
    term ≤ replication.term server
  ackBound : ∀ server term count, replication.acked server term count →
    count ≤ (replication.leaderLog term).length
  kept : ∀ server term front, Own termOf replication term front →
    replication.acked server term front.length → IsOpen members replication term front.length →
    front <+: replication.log server
  carried : ∀ voter later candidate, replication.vote voter later candidate →
    ∀ term front, term < later → Own termOf replication term front →
    replication.acked voter term front.length → IsOpen members replication term front.length →
    front <+: replication.ballot candidate later
  complete : ∀ later, replication.led later → ∀ term front, term < later →
    Own termOf replication term front → IsOpen members replication term front.length →
    front <+: replication.leaderLog later

/-- A server enters a later term. -/
def raise [DecidableEq σ] (replication : Replication σ ε) (server : σ) (term : Nat) :
    Replication σ ε :=
  { replication with term := Function.update replication.term server term }

/-- The terms after one server's is raised. -/
theorem raise_term [DecidableEq σ] (server other : σ) (term : Nat) :
    (replication.raise server term).term other =
      if other = server then term else replication.term other := Function.update_apply ..

/-- A candidate votes for itself and asks for votes with the log it has. -/
def campaign [DecidableEq σ] (replication : Replication σ ε) (candidate : σ) (term : Nat) :
    Replication σ ε :=
  { replication with
    vote := fun voter inTerm choice => replication.vote voter inTerm choice ∨
      voter = candidate ∧ inTerm = term ∧ choice = candidate
    ballot := fun choice inTerm => if choice = candidate ∧ inTerm = term
      then replication.log candidate else replication.ballot choice inTerm }

/-- A server votes for a candidate. -/
def grant (replication : Replication σ ε) (server : σ) (term : Nat) (candidate : σ) :
    Replication σ ε :=
  { replication with
    vote := fun voter inTerm choice => replication.vote voter inTerm choice ∨
      voter = server ∧ inTerm = term ∧ choice = candidate }

/-- The leader of a term sets or extends its reference. -/
def grow (replication : Replication σ ε) (term : Nat) (reference : List ε) : Replication σ ε :=
  { replication with
    led := fun inTerm => replication.led inTerm ∨ inTerm = term
    leaderLog := Function.update replication.leaderLog term reference }

/-- A server takes over another log. -/
def rewrite [DecidableEq σ] (replication : Replication σ ε) (server : σ) (log : List ε) :
    Replication σ ε :=
  { replication with log := Function.update replication.log server log }

/-- A server acknowledges entries of the reference of a term. -/
def acknowledge (replication : Replication σ ε) (server : σ) (term count : Nat) :
    Replication σ ε :=
  { replication with
    acked := fun other inTerm fewer => replication.acked other inTerm fewer ∨
      other = server ∧ inTerm = term ∧ fewer ≤ count }

namespace Safe

/-- The terms of a server only grow, so what is closed stays closed. -/
theorem isOpen_of_raise [DecidableEq σ] {server : σ} {later term count : Nat}
    (upwards : replication.term server ≤ later)
    (isOpen : IsOpen members (replication.raise server later) term count) :
    IsOpen members replication term count := by
  obtain ⟨quorum, majority, still⟩ := isOpen
  refine ⟨quorum, majority, fun member inside => (still member inside).imp_right fun low => ?_⟩
  rw [raise_term] at low
  split at low
  · next same => exact same ▸ upwards.trans low
  · exact low

/-- Raising a term is safe. -/
theorem raise [DecidableEq σ] (safe : Safe termOf members replication) {server : σ} {later : Nat}
    (upwards : replication.term server ≤ later) :
    Safe termOf members (replication.raise server later) := by
  have higher : ∀ other, replication.term other ≤ (replication.raise server later).term other := by
    intro other
    rw [raise_term]
    split
    · next same => exact same ▸ upwards
    · exact le_rfl
  exact { safe with
    logTerms := fun other entry member => (safe.logTerms other entry member).trans (higher other)
    voteTerm := fun voter term candidate voted =>
      (safe.voteTerm voter term candidate voted).trans (higher voter)
    ackTerm := fun other term count acked =>
      (safe.ackTerm other term count acked).trans (higher other)
    kept := fun other term front own acked isOpen =>
      safe.kept other term front ⟨own.1, own.2⟩ acked (isOpen_of_raise upwards isOpen)
    carried := fun voter later candidate voted term front below own acked isOpen =>
      safe.carried voter later candidate voted term front below ⟨own.1, own.2⟩ acked
        (isOpen_of_raise upwards isOpen)
    complete := fun later led term front below own isOpen =>
      safe.complete later led term front below ⟨own.1, own.2⟩ (isOpen_of_raise upwards isOpen) }

/-- Opening a campaign in a term of one's own is safe. -/
theorem campaign [DecidableEq σ] (safe : Safe termOf members replication) {candidate : σ}
    {term : Nat} (entered : term ≤ replication.term candidate)
    (first : ∀ voter, ¬ replication.vote voter term candidate)
    (older : ∀ entry ∈ replication.log candidate, termOf entry < term) :
    Safe termOf members (replication.campaign candidate term) := by
  have sameBallot : ∀ voter inTerm choice, replication.vote voter inTerm choice →
      (replication.campaign candidate term).ballot choice inTerm =
        replication.ballot choice inTerm := by
    intro voter inTerm choice voted
    apply if_neg
    rintro ⟨rfl, rfl⟩
    exact first voter voted
  have newBallot : (replication.campaign candidate term).ballot candidate term =
      replication.log candidate := if_pos ⟨rfl, rfl⟩
  exact { safe with
    elected := by
      intro inTerm led positive
      obtain ⟨quorum, choice, majority, voted⟩ := safe.elected inTerm led positive
      exact ⟨quorum, choice, majority, fun voter inside => Or.inl (voted voter inside)⟩
    voteTerm := by
      rintro voter inTerm choice (voted | ⟨rfl, rfl, rfl⟩)
      · exact safe.voteTerm voter inTerm choice voted
      · exact entered
    ballots := by
      rintro voter inTerm choice (voted | ⟨rfl, rfl, rfl⟩)
      · rw [sameBallot voter inTerm choice voted]
        exact safe.ballots voter inTerm choice voted
      · rw [newBallot]
        exact ⟨safe.anchored _, older⟩
    kept := fun other inTerm front own => safe.kept other inTerm front ⟨own.1, own.2⟩
    carried := by
      rintro voter later choice (voted | ⟨rfl, rfl, rfl⟩) inTerm front below own acked isOpen
      · rw [sameBallot voter later choice voted]
        exact safe.carried voter later choice voted inTerm front below ⟨own.1, own.2⟩ acked isOpen
      · rw [newBallot]
        exact safe.kept _ inTerm front ⟨own.1, own.2⟩ acked isOpen
    complete := fun later led inTerm front below own =>
      safe.complete later led inTerm front below ⟨own.1, own.2⟩ }

/-- **Up-to-date logs.** An anchored log that is at least as new as a member's log
holds the open fronts that log holds. -/
theorem prefix_of_newerThan (safe : Safe termOf members replication) {newer older front : List ε}
    {term : Nat} (anchored : Anchored termOf replication.leaderLog newer)
    (olderAnchored : Anchored termOf replication.leaderLog older)
    (isNewer : NewerThan termOf newer older) (own : Own termOf replication term front)
    (isOpen : IsOpen members replication term front.length) (held : front <+: older) :
    front <+: newer := by
  obtain ⟨before, entry, spelled, ownTerm⟩ := own.last
  -- the last entries of both logs
  rcases List.eq_nil_or_concat' older with rfl | ⟨olderFront, olderLast, olderSpelled⟩
  · exact absurd own.nonempty (by rw [List.prefix_nil.mp held]; exact Nat.lt_irrefl 0)
  obtain ⟨newerFront, newerLast, newerSpelled, compared⟩ :=
    isNewer olderFront olderLast olderSpelled
  have olderReference : older <+: replication.leaderLog (termOf olderLast) := by
    rw [olderSpelled] at olderAnchored ⊢
    exact olderAnchored _ _ (List.prefix_refl _)
  have newerReference : newer <+: replication.leaderLog (termOf newerLast) := by
    rw [newerSpelled] at anchored ⊢
    exact anchored _ _ (List.prefix_refl _)
  have notLater : term ≤ termOf olderLast := by
    have member : entry ∈ replication.leaderLog (termOf olderLast) :=
      (held.trans olderReference).subset (spelled ▸ List.mem_append_right _
        (List.mem_singleton_self _))
    exact ownTerm ▸ safe.bounded _ entry member
  rcases compared with higher | ⟨sameTerm, longer⟩
  · have ledNewer : replication.led (termOf newerLast) := by
      by_contra none
      have empty := safe.unled _ none
      rw [empty, newerSpelled, List.prefix_nil] at newerReference
      exact List.concat_ne_nil _ _ newerReference
    have inReference := safe.complete _ ledNewer term front (notLater.trans_lt higher) own isOpen
    rcases Nat.le_total front.length newer.length with short | long
    · exact List.prefix_of_prefix_length_le inReference newerReference short
    · -- the last entry of the newer log would be one of the lower term
      have inside : newer <+: replication.leaderLog term :=
        (List.prefix_of_prefix_length_le newerReference inReference long).trans own.isPrefix
      have member : newerLast ∈ replication.leaderLog term := inside.subset (by
        rw [newerSpelled]
        exact List.mem_append_right _ (List.mem_singleton_self _))
      have low := safe.bounded term newerLast member
      omega
  · rw [← sameTerm] at olderReference
    exact held.trans (List.prefix_of_prefix_length_le olderReference newerReference longer)

/-- Granting a vote to a newer log is safe. -/
theorem grant (safe : Safe termOf members replication) {server candidate : σ} {term : Nat}
    (entered : term ≤ replication.term server)
    (asked : ∃ voter, replication.vote voter term candidate)
    (newer : NewerThan termOf (replication.ballot candidate term) (replication.log server)) :
    Safe termOf members (replication.grant server term candidate) := by
  obtain ⟨asker, candidacy⟩ := asked
  obtain ⟨anchored, below⟩ := safe.ballots asker term candidate candidacy
  exact { safe with
    elected := by
      intro inTerm led positive
      obtain ⟨quorum, choice, majority, voted⟩ := safe.elected inTerm led positive
      exact ⟨quorum, choice, majority, fun voter inside => Or.inl (voted voter inside)⟩
    voteTerm := by
      rintro voter inTerm choice (voted | ⟨rfl, rfl, rfl⟩)
      · exact safe.voteTerm voter inTerm choice voted
      · exact entered
    ballots := by
      rintro voter inTerm choice (voted | ⟨rfl, rfl, rfl⟩)
      · exact safe.ballots voter inTerm choice voted
      · exact ⟨anchored, below⟩
    kept := fun other inTerm front own => safe.kept other inTerm front ⟨own.1, own.2⟩
    carried := by
      rintro voter later choice (voted | ⟨rfl, rfl, rfl⟩) inTerm front lower own acked isOpen
      · exact safe.carried voter later choice voted inTerm front lower ⟨own.1, own.2⟩ acked isOpen
      · have owned : Own termOf replication inTerm front := ⟨own.1, own.2⟩
        exact safe.prefix_of_newerThan anchored (safe.anchored _) newer owned isOpen
          (safe.kept _ inTerm front owned acked isOpen)
    complete := fun later led inTerm front lower own =>
      safe.complete later led inTerm front lower ⟨own.1, own.2⟩ }

/-- Where a later leader exists, entries nobody has acknowledged are closed. -/
theorem not_isOpen_of_unacked [DecidableEq σ] (safe : Safe termOf members replication)
    {term later count : Nat} (led : replication.led later) (above : term < later)
    (unacked : ∀ member, ¬ replication.acked member term count) :
    ¬ IsOpen members replication term count := by
  rintro ⟨quorum, majority, still⟩
  obtain ⟨voters, candidate, votersMajority, voted⟩ := safe.elected later led (by omega)
  obtain ⟨member, inQuorum, inVoters⟩ := majority.exists_mem_inter votersMajority
  have passed := safe.voteTerm member later candidate (voted member inVoters)
  rcases still member inQuorum with acked | low
  · exact unacked member acked
  · omega

/-- A leader sets or extends its reference by one entry of its term. -/
theorem grow [DecidableEq σ] (safe : Safe termOf members replication) {term : Nat}
    {front : List ε} {last : ε} (extended : replication.leaderLog term <+: front)
    (anchored : Anchored termOf replication.leaderLog front)
    (below : ∀ entry ∈ front, termOf entry ≤ term) (ownTerm : termOf last = term)
    (elected : term ≠ 0 → ∃ quorum candidate, Majority members quorum ∧
      ∀ voter ∈ quorum, replication.vote voter term candidate)
    (covers : ∀ earlier own, earlier < term → Own termOf replication earlier own →
      IsOpen members replication earlier own.length → own <+: front) :
    Safe termOf members (replication.grow term (front ++ [last])) := by
  have here : (replication.grow term (front ++ [last])).leaderLog term = front ++ [last] :=
    Function.update_self ..
  have elsewhere : ∀ other, other ≠ term →
      (replication.grow term (front ++ [last])).leaderLog other = replication.leaderLog other :=
    fun other different => Function.update_of_ne different ..
  have later : ∀ other, replication.leaderLog other <+:
      (replication.grow term (front ++ [last])).leaderLog other := by
    intro other
    by_cases same : other = term
    · rw [same, here]
      exact extended.trans (List.prefix_append _ _)
    · rw [elsewhere other same]
  -- a front of the new reference is one of the old, or not yet acknowledged
  have owned : ∀ other own, Own termOf (replication.grow term (front ++ [last])) other own →
      Own termOf replication other own ∨ other = term ∧
        ∀ member, ¬ replication.acked member other own.length := by
    intro other own ownNew
    by_cases same : other = term
    · subst same
      rcases Nat.lt_or_ge (replication.leaderLog other).length own.length with long | short
      · exact Or.inr ⟨rfl, fun member acked =>
          absurd (safe.ackBound member other own.length acked) (Nat.not_le.mpr long)⟩
      · have inside := ownNew.isPrefix
        rw [here] at inside
        exact Or.inl ⟨List.prefix_of_prefix_length_le inside
          (extended.trans (List.prefix_append _ _)) short, ownNew.last⟩
    · have inside := ownNew.isPrefix
      rw [elsewhere other same] at inside
      exact Or.inl ⟨inside, ownNew.last⟩
  have frontAnchored : Anchored termOf (replication.grow term (front ++ [last])).leaderLog
      (front ++ [last]) := by
    apply (anchored.mono later).concat
    rw [ownTerm, here]
  exact {
    anchored := fun server => (safe.anchored server).mono later
    leaders := by
      intro other
      by_cases same : other = term
      · rw [same, here]
        exact frontAnchored
      · rw [elsewhere other same]
        exact (safe.leaders other).mono later
    bounded := by
      intro other entry member
      by_cases same : other = term
      · rw [same, here] at member
        rcases List.mem_append.mp member with old | new
        · exact same ▸ below entry old
        · rw [List.mem_singleton.mp new, ownTerm, same]
      · rw [elsewhere other same] at member
        exact safe.bounded other entry member
    logTerms := safe.logTerms
    unled := by
      intro other none
      rw [elsewhere other fun same => none (Or.inr same)]
      exact safe.unled other fun led => none (Or.inl led)
    elected := by
      rintro other (led | rfl) positive
      · exact safe.elected other led positive
      · exact elected positive
    voteTerm := safe.voteTerm
    ballots := fun voter other candidate voted =>
      ⟨(safe.ballots voter other candidate voted).1.mono later,
        (safe.ballots voter other candidate voted).2⟩
    ackTerm := safe.ackTerm
    ackBound := fun server other count acked =>
      (safe.ackBound server other count acked).trans (later other).length_le
    kept := by
      intro server other own ownNew acked isOpen
      rcases owned other own ownNew with old | ⟨-, unacked⟩
      · exact safe.kept server other own old acked isOpen
      · exact absurd acked (unacked server)
    carried := by
      intro voter above candidate voted other own lower ownNew acked isOpen
      rcases owned other own ownNew with old | ⟨-, unacked⟩
      · exact safe.carried voter above candidate voted other own lower old acked isOpen
      · exact absurd acked (unacked voter)
    complete := by
      intro above led other own lower ownNew isOpen
      by_cases same : above = term
      · subst same
        rw [here]
        rcases owned other own ownNew with old | ⟨rfl, -⟩
        · exact (covers other own lower old isOpen).trans (List.prefix_append _ _)
        · exact absurd lower (Nat.lt_irrefl _)
      · rw [elsewhere above same]
        have wasLed : replication.led above := led.resolve_right same
        rcases owned other own ownNew with old | ⟨-, unacked⟩
        · exact safe.complete above wasLed other own lower old isOpen
        · exact absurd isOpen (safe.not_isOpen_of_unacked wasLed lower unacked) }

/-- **A new leader.** The log that a majority voted for holds every open front. -/
theorem covers_of_elected [DecidableEq σ] (safe : Safe termOf members replication)
    {candidate : σ} {term : Nat} {quorum : Finset σ} (majority : Majority members quorum)
    (voted : ∀ voter ∈ quorum, replication.vote voter term candidate) :
    ∀ earlier own, earlier < term → Own termOf replication earlier own →
      IsOpen members replication earlier own.length →
      own <+: replication.ballot candidate term := by
  intro earlier own lower owned isOpen
  obtain ⟨others, othersMajority, still⟩ := isOpen
  obtain ⟨voter, inQuorum, inOthers⟩ := majority.exists_mem_inter othersMajority
  have passed := safe.voteTerm voter term candidate (voted voter inQuorum)
  rcases still voter inOthers with acked | low
  · exact safe.carried voter term candidate (voted voter inQuorum) earlier own lower owned acked
      ⟨others, othersMajority, still⟩
  · omega

/-- A server takes over a log that holds the open fronts it has acknowledged. -/
theorem rewrite [DecidableEq σ] (safe : Safe termOf members replication) {server : σ}
    {log : List ε} (anchored : Anchored termOf replication.leaderLog log)
    (below : ∀ entry ∈ log, termOf entry ≤ replication.term server)
    (keeps : ∀ term front, Own termOf replication term front →
      replication.acked server term front.length → IsOpen members replication term front.length →
      front <+: replication.log server → front <+: log) :
    Safe termOf members (replication.rewrite server log) := by
  have here : (replication.rewrite server log).log server = log := Function.update_self ..
  have elsewhere : ∀ other, other ≠ server →
      (replication.rewrite server log).log other = replication.log other :=
    fun other different => Function.update_of_ne different ..
  exact { safe with
    anchored := by
      intro other
      by_cases same : other = server
      · rw [same, here]
        exact anchored
      · rw [elsewhere other same]
        exact safe.anchored other
    logTerms := by
      intro other entry member
      by_cases same : other = server
      · rw [same, here] at member
        exact same ▸ below entry member
      · rw [elsewhere other same] at member
        exact safe.logTerms other entry member
    kept := by
      intro other term front own acked isOpen
      have old : Own termOf replication term front := ⟨own.1, own.2⟩
      have held := safe.kept other term front old acked isOpen
      by_cases same : other = server
      · subst same
        rw [here]
        exact keeps term front old acked isOpen held
      · rw [elsewhere other same]
        exact held
    carried := fun voter later candidate voted term front lower own =>
      safe.carried voter later candidate voted term front lower ⟨own.1, own.2⟩
    complete := fun later led term front lower own =>
      safe.complete later led term front lower ⟨own.1, own.2⟩ }

/-- A server may extend its log. -/
theorem rewrite_extended [DecidableEq σ] (safe : Safe termOf members replication) {server : σ}
    {log : List ε} (anchored : Anchored termOf replication.leaderLog log)
    (below : ∀ entry ∈ log, termOf entry ≤ replication.term server)
    (extended : replication.log server <+: log) :
    Safe termOf members (replication.rewrite server log) :=
  safe.rewrite anchored below fun _ _ _ _ _ held => held.trans extended

/-- **Taking over a reference.** A server may replace its log by a front of the
reference of its term or a later one, unless it would only cut entries off. -/
theorem rewrite_reference [DecidableEq σ] (safe : Safe termOf members replication) {server : σ}
    {log : List ε} {term : Nat} (current : replication.term server = term)
    (reference : log <+: replication.leaderLog term) (nonempty : log ≠ [])
    (notCut : log <+: replication.log server → log = replication.log server) :
    Safe termOf members (replication.rewrite server log) := by
  refine safe.rewrite ((safe.leaders term).of_shorter reference)
    (fun entry member => current ▸ safe.bounded term entry (reference.subset member)) ?_
  intro earlier front own acked isOpen held
  have notAbove : earlier ≤ term := current ▸ safe.ackTerm server earlier front.length acked
  have inReference : front <+: replication.leaderLog term := by
    rcases Nat.lt_or_eq_of_le notAbove with lower | rfl
    · refine safe.complete term ?_ earlier front lower own isOpen
      by_contra none
      rw [safe.unled term none, List.prefix_nil] at reference
      exact nonempty reference
    · exact own.isPrefix
  rcases Nat.le_total front.length log.length with short | long
  · exact List.prefix_of_prefix_length_le inReference reference short
  · -- the shorter log is a part of what the server holds
    have cut := List.prefix_of_prefix_length_le reference inReference long
    rw [notCut (cut.trans held)]
    exact held

/-- A server in the term acknowledges entries of the reference that it holds. -/
theorem acknowledge (safe : Safe termOf members replication) {server : σ} {term count : Nat}
    (current : replication.term server = term)
    (within : count ≤ (replication.leaderLog term).length)
    (held : (replication.leaderLog term).take count <+: replication.log server) :
    Safe termOf members (replication.acknowledge server term count) := by
  -- whoever acknowledges in a term has not passed it
  have wasOpen : ∀ other number, IsOpen members (replication.acknowledge server term count) other
      number → IsOpen members replication other number := by
    rintro other number ⟨quorum, majority, still⟩
    refine ⟨quorum, majority, fun member inside => ?_⟩
    rcases still member inside with (acked | ⟨rfl, rfl, -⟩) | low
    · exact Or.inl acked
    · exact Or.inr current.le
    · exact Or.inr low
  exact { safe with
    ackTerm := by
      rintro other inTerm number (acked | ⟨rfl, rfl, -⟩)
      · exact safe.ackTerm other inTerm number acked
      · exact current.ge
    ackBound := by
      rintro other inTerm number (acked | ⟨rfl, rfl, fewer⟩)
      · exact safe.ackBound other inTerm number acked
      · exact fewer.trans within
    kept := by
      rintro other inTerm front own (acked | ⟨rfl, rfl, fewer⟩) isOpen
      · exact safe.kept other inTerm front ⟨own.1, own.2⟩ acked (wasOpen _ _ isOpen)
      · refine (List.prefix_of_prefix_length_le own.isPrefix (List.take_prefix count _) ?_).trans
          held
        rw [List.length_take]
        exact le_min fewer (fewer.trans within)
    carried := by
      rintro voter later candidate voted inTerm front lower own (acked | ⟨rfl, rfl, -⟩) isOpen
      · exact safe.carried voter later candidate voted inTerm front lower ⟨own.1, own.2⟩ acked
          (wasOpen _ _ isOpen)
      · have passed := safe.voteTerm _ later candidate voted
        omega
    complete := fun later led inTerm front lower own isOpen =>
      safe.complete later led inTerm front lower ⟨own.1, own.2⟩ (wasOpen _ _ isOpen) }

/-- A term with entries of its own was led. -/
theorem led_of_own (safe : Safe termOf members replication) {term : Nat} {front : List ε}
    (own : Own termOf replication term front) : replication.led term := by
  by_contra none
  have inside := own.isPrefix
  rw [safe.unled term none, List.prefix_nil] at inside
  exact absurd own.nonempty (by rw [inside]; exact Nat.lt_irrefl 0)

/-- **Leader completeness.** A chosen front is a front of the references of its term
and of all later ones. -/
theorem prefix_of_chosen (safe : Safe termOf members replication) {term later : Nat}
    {front : List ε} (own : Own termOf replication term front)
    (chosen : Chosen members replication term front.length) (notBefore : term ≤ later)
    (led : replication.led later) : front <+: replication.leaderLog later := by
  rcases Nat.lt_or_eq_of_le notBefore with lower | rfl
  · exact safe.complete later led term front lower own chosen.isOpen
  · exact own.isPrefix

end Safe

/-- The first entries of a log are those of a front chosen by a given term. -/
def Covered (termOf : ε → Nat) (members : Finset σ) (replication : Replication σ ε) (term : Nat)
    (log : List ε) (count : Nat) : Prop :=
  count ≤ log.length ∧ ∃ chosenTerm ≤ term, ∃ front, Own termOf replication chosenTerm front ∧
    Chosen members replication chosenTerm front.length ∧ log.take count <+: front

namespace Covered

variable {term later count : Nat} {log other : List ε}

theorem mono (covered : Covered termOf members replication term log count)
    (notBefore : term ≤ later) : Covered termOf members replication later log count := by
  obtain ⟨within, chosenTerm, before, rest⟩ := covered
  exact ⟨within, chosenTerm, before.trans notBefore, rest⟩

/-- What is covered stays covered: references grow, acknowledgements are kept. -/
theorem persists {next : Replication σ ε}
    (covered : Covered termOf members replication term log count)
    (references : ∀ term, replication.leaderLog term <+: next.leaderLog term)
    (acknowledgements : ∀ server term count, replication.acked server term count →
      next.acked server term count) :
    Covered termOf members next term log count := by
  obtain ⟨within, chosenTerm, before, front, own, ⟨quorum, majority, acked⟩, inside⟩ := covered
  exact ⟨within, chosenTerm, before, front, ⟨own.isPrefix.trans (references _), own.last⟩,
    ⟨quorum, majority, fun member inQuorum =>
      acknowledgements _ _ _ (acked member inQuorum)⟩, inside⟩

/-- Logs with the same first entries. -/
theorem congr (covered : Covered termOf members replication term log count)
    (within : count ≤ other.length) (same : other.take count = log.take count) :
    Covered termOf members replication term other count := by
  obtain ⟨-, chosenTerm, before, front, own, chosen, inside⟩ := covered
  exact ⟨within, chosenTerm, before, front, own, chosen, same ▸ inside⟩

/-- A log that continues a covered front. -/
theorem extend (covered : Covered termOf members replication term log count)
    (longer : log <+: other) : Covered termOf members replication term other count := by
  apply covered.congr (covered.1.trans longer.length_le)
  obtain ⟨rest, rfl⟩ := longer
  exact List.take_append_of_le_length covered.1

/-- A front that is long enough. -/
theorem shorten (covered : Covered termOf members replication term log count)
    (shorter : other <+: log) (within : count ≤ other.length) :
    Covered termOf members replication term other count := by
  apply covered.congr within
  obtain ⟨rest, rfl⟩ := shorter
  exact (List.take_append_of_le_length within).symm

theorem of_le {fewer : Nat} (covered : Covered termOf members replication term log count)
    (less : fewer ≤ count) : Covered termOf members replication term log fewer := by
  obtain ⟨within, chosenTerm, before, front, own, chosen, inside⟩ := covered
  refine ⟨less.trans within, chosenTerm, before, front, own, chosen, ?_⟩
  exact (List.take_prefix_take_left less).trans inside

/-- A log of a covered front is a front of the references from the term on. -/
theorem prefix_reference (covered : Covered termOf members replication term log count)
    (safe : Safe termOf members replication) (notBefore : term ≤ later)
    (led : replication.led later) : log.take count <+: replication.leaderLog later := by
  obtain ⟨-, chosenTerm, before, front, own, chosen, inside⟩ := covered
  exact inside.trans (safe.prefix_of_chosen own chosen (before.trans notBefore) led)

/-- A front of a later reference that is long enough is covered as well. -/
theorem transfer (covered : Covered termOf members replication term log count)
    (safe : Safe termOf members replication) (notBefore : term ≤ later)
    (led : replication.led later) (reference : other <+: replication.leaderLog later)
    (within : count ≤ other.length) :
    Covered termOf members replication later other count := by
  apply (covered.mono notBefore).congr within
  refine eq_of_prefix_of_length_eq ((List.take_prefix count other).trans reference)
    (covered.prefix_reference safe notBefore led) ?_
  rw [List.length_take, List.length_take, min_eq_left within, min_eq_left covered.1]

/-- **Agreement.** Covered fronts of the same length are the same. -/
theorem take_eq (covered : Covered termOf members replication term log count)
    (safe : Safe termOf members replication)
    (otherCovered : Covered termOf members replication later other count) :
    log.take count = other.take count := by
  have sameLength : (log.take count).length = (other.take count).length := by
    rw [List.length_take, List.length_take, min_eq_left covered.1, min_eq_left otherCovered.1]
  obtain ⟨-, first, -, front, own, chosen, inside⟩ := covered
  obtain ⟨-, second, -, otherFront, otherOwn, otherChosen, otherInside⟩ := otherCovered
  rcases Nat.le_total first second with before | before
  · have led := safe.led_of_own otherOwn
    exact eq_of_prefix_of_length_eq (inside.trans (safe.prefix_of_chosen own chosen before led))
      (otherInside.trans otherOwn.isPrefix) sameLength
  · have led := safe.led_of_own own
    exact eq_of_prefix_of_length_eq (inside.trans own.isPrefix)
      (otherInside.trans (safe.prefix_of_chosen otherOwn otherChosen before led)) sameLength

end Covered

end Replication

end Foundation
