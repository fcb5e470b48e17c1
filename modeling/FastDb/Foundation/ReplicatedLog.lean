import Mathlib.Data.List.Infix
import Mathlib.Logic.Function.Basic
import FastDb.Foundation.Quorum

/-! # Logs replicated by the leaders of terms

The log that the leader of a term builds is the reference for the entries of that
term. A log is anchored when each of its entries, with everything before it, is a
prefix of the reference of the entry's term (`Foundation.Anchored`); two anchored
logs with entries of one term at one position agree up to it
(`Foundation.Anchored.take_eq`).
-/

namespace Foundation

section Anchored

variable {ε : Type*} {termOf : ε → Nat} {leaderLog : Nat → List ε} {log : List ε}

/-- A position of a list as the end of a prefix. -/
theorem take_succ_of_getElem? {position : Nat} {entry : ε} (found : log[position]? = some entry) :
    log.take (position + 1) = log.take position ++ [entry] := by
  rw [List.take_add_one, found]
  rfl

/-- A log has the entries of its prefixes. -/
theorem getElem?_of_prefix {shorter : List ε} (isPrefix : shorter <+: log) {position : Nat}
    {entry : ε} (found : shorter[position]? = some entry) : log[position]? = some entry := by
  obtain ⟨rest, rfl⟩ := isPrefix
  rw [List.getElem?_append_left (List.getElem?_eq_some_iff.mp found).1, found]

/-- Prefixes of one length are equal. -/
theorem eq_of_prefix_of_length_eq {left right : List ε} (leftPrefix : left <+: log)
    (rightPrefix : right <+: log) (sameLength : left.length = right.length) : left = right :=
  (List.prefix_of_prefix_length_le leftPrefix rightPrefix sameLength.le).eq_of_length sameLength

/-- Every entry of a log, with what is before it, comes from the leader of its term. -/
def Anchored (termOf : ε → Nat) (leaderLog : Nat → List ε) (log : List ε) : Prop :=
  ∀ front entry, front ++ [entry] <+: log → front ++ [entry] <+: leaderLog (termOf entry)

theorem Anchored.nil : Anchored termOf leaderLog [] := fun front entry isPrefix =>
  absurd (List.prefix_nil.mp isPrefix) (List.append_ne_nil_of_right_ne_nil front
    (List.cons_ne_nil entry []))

theorem Anchored.of_shorter {shorter : List ε} (anchored : Anchored termOf leaderLog log)
    (isPrefix : shorter <+: log) : Anchored termOf leaderLog shorter :=
  fun front entry inside => anchored front entry (inside.trans isPrefix)

/-- Leaders only extend their logs. -/
theorem Anchored.mono {later : Nat → List ε} (anchored : Anchored termOf leaderLog log)
    (extended : ∀ term, leaderLog term <+: later term) : Anchored termOf later log :=
  fun front entry inside => (anchored front entry inside).trans (extended _)

/-- One more entry, which its leader has appended to the same log. -/
theorem Anchored.concat {last : ε} (anchored : Anchored termOf leaderLog log)
    (appended : log ++ [last] <+: leaderLog (termOf last)) :
    Anchored termOf leaderLog (log ++ [last]) := by
  intro front entry inside
  rcases List.prefix_concat_iff.mp inside with whole | earlier
  · obtain ⟨rfl, single⟩ := List.append_inj' whole rfl
    obtain rfl := List.singleton_inj.mp single
    exact appended
  · exact anchored front entry earlier

/-- **Agreement.** Anchored logs with entries of one term at one position agree up
to that position. -/
theorem Anchored.take_eq {other : List ε} (anchored : Anchored termOf leaderLog log)
    (otherAnchored : Anchored termOf leaderLog other) {position : Nat} {entry otherEntry : ε}
    (found : log[position]? = some entry) (otherFound : other[position]? = some otherEntry)
    (sameTerm : termOf entry = termOf otherEntry) :
    log.take (position + 1) = other.take (position + 1) := by
  have left := anchored _ _ (take_succ_of_getElem? found ▸ List.take_prefix _ _)
  have right := otherAnchored _ _ (take_succ_of_getElem? otherFound ▸ List.take_prefix _ _)
  rw [← take_succ_of_getElem? found] at left
  rw [← take_succ_of_getElem? otherFound, ← sameTerm] at right
  apply eq_of_prefix_of_length_eq left right
  have inside := (List.getElem?_eq_some_iff.mp found).1
  have otherInside := (List.getElem?_eq_some_iff.mp otherFound).1
  rw [List.length_take, List.length_take]
  omega

/-- Each entry of an anchored log is an entry of a leader, at the same position. -/
theorem Anchored.getElem? (anchored : Anchored termOf leaderLog log) {position : Nat}
    {entry : ε} (found : log[position]? = some entry) :
    (leaderLog (termOf entry))[position]? = some entry := by
  have isPrefix := anchored _ _ (take_succ_of_getElem? found ▸ List.take_prefix _ _)
  rw [← take_succ_of_getElem? found] at isPrefix
  refine getElem?_of_prefix isPrefix ?_
  rw [List.getElem?_take_of_lt (Nat.lt_succ_self _), found]

end Anchored

end Foundation
