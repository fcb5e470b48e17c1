import Mathlib.Data.List.Basic
import Mathlib.Data.List.Chain
import Mathlib.Data.List.DropRight

/-! # Tokens of a stream

The tokens of a stream are its longest nonempty runs of symbols that are not separators
(`Foundation.tokens`). A separator cuts a stream in two without touching the tokens on
either side (`Foundation.tokens_append_cons`), and everything about tokens follows from the
first separator after the first token (`Foundation.tokens_induction`). A tokenizer that
works in place blanks the separators right after a token (`Foundation.endTokens`), which
leaves a stream as it is exactly when none of its separators follows a token
(`Foundation.endTokens_eq_self_iff`). The separators at the ends of a stream may be dropped
from either end first (`Foundation.rdropWhile_dropWhile`).
-/

namespace Foundation

variable {α : Type*} {separator : α → Bool}

/-- The longest nonempty runs of symbols that are not separators, in order. -/
def tokens (separator : α → Bool) (stream : List α) : List (List α) :=
  (stream.splitOnP separator).filter fun run => !run.isEmpty

@[simp] theorem tokens_nil : tokens separator [] = [] := by
  rw [tokens, List.splitOnP_nil]
  rfl

/-- **A separator** divides the tokens. -/
theorem tokens_append_cons (front rest : List α) {symbol : α} (separates : separator symbol) :
    tokens separator (front ++ symbol :: rest) =
      tokens separator front ++ tokens separator rest := by
  rw [tokens, List.splitOnP_append_cons front rest separates, List.filter_append, tokens, tokens]

theorem tokens_cons (rest : List α) {symbol : α} (separates : separator symbol) :
    tokens separator (symbol :: rest) = tokens separator rest := by
  rw [← List.nil_append (symbol :: rest), tokens_append_cons [] rest separates, tokens_nil,
    List.nil_append]

/-- Separators before a stream are skipped. -/
theorem tokens_skip {skipped : List α} (separators : ∀ symbol ∈ skipped, separator symbol)
    (rest : List α) : tokens separator (skipped ++ rest) = tokens separator rest := by
  induction skipped with
  | nil => rfl
  | cons symbol skipped ih =>
      obtain ⟨first, others⟩ := List.forall_mem_cons.mp separators
      rw [List.cons_append, tokens_cons _ first, ih others]

theorem tokens_of_separators {skipped : List α}
    (separators : ∀ symbol ∈ skipped, separator symbol) : tokens separator skipped = [] := by
  rw [← List.append_nil skipped, tokens_skip separators, tokens_nil]

/-- A nonempty run is a token. -/
theorem tokens_run {run : List α} (nonempty : run ≠ [])
    (isRun : ∀ symbol ∈ run, separator symbol = false) : tokens separator run = [run] := by
  rw [tokens, List.splitOnP_eq_singleton isRun]
  cases run with
  | nil => exact absurd rfl nonempty
  | cons symbol run => rfl

/-- A stream satisfies a predicate throughout or up to a first symbol. -/
theorem forall_or_exists_first (holds : α → Bool) (stream : List α) :
    (∀ symbol ∈ stream, holds symbol = true) ∨
      ∃ front symbol rest, stream = front ++ symbol :: rest ∧
        (∀ symbol ∈ front, holds symbol = true) ∧ holds symbol = false := by
  induction stream with
  | nil => exact .inl fun _ member => absurd member List.not_mem_nil
  | cons first stream ih =>
      cases here : holds first with
      | false => exact .inr ⟨[], first, stream, rfl, fun _ member => (nomatch member), here⟩
      | true =>
          rcases ih with throughout | ⟨front, symbol, rest, rfl, before, ends⟩
          · exact .inl (List.forall_mem_cons.mpr ⟨here, throughout⟩)
          · exact .inr ⟨first :: front, symbol, rest, rfl,
              List.forall_mem_cons.mpr ⟨here, before⟩, ends⟩

/-- A run ends at the first symbol that does not continue it. -/
theorem takeWhile_append_stop {continues : α → Bool} {run : List α} {stop : α}
    (isRun : ∀ symbol ∈ run, continues symbol = true) (stops : continues stop = false)
    (rest : List α) : (run ++ stop :: rest).takeWhile continues = run := by
  rw [List.takeWhile_append_of_pos isRun, List.takeWhile_cons_of_neg, List.append_nil]
  rw [stops]
  exact Bool.false_ne_true

/-- **Induction** on the tokens of a stream: no token is left, a token ends the stream, or a
separator follows the first token. -/
@[elab_as_elim]
theorem tokens_induction (separator : α → Bool) {motive : List α → Prop} (stream : List α)
    (none : ∀ skipped, (∀ symbol ∈ skipped, separator symbol = true) → motive skipped)
    (last : ∀ skipped run, (∀ symbol ∈ skipped, separator symbol = true) → run ≠ [] →
      (∀ symbol ∈ run, separator symbol = false) → motive (skipped ++ run))
    (next : ∀ skipped run symbol rest, (∀ symbol ∈ skipped, separator symbol = true) →
      run ≠ [] → (∀ symbol ∈ run, separator symbol = false) → separator symbol = true →
      motive rest → motive (skipped ++ (run ++ symbol :: rest))) : motive stream := by
  induction size : stream.length using Nat.strongRecOn generalizing stream with
  | _ bound ih =>
      subst size
      obtain skipped | ⟨skipped, first, tail, rfl, separators, starts⟩ :=
        forall_or_exists_first separator stream
      · exact none stream skipped
      · obtain isRun | ⟨run, symbol, rest, rfl, isRun, separates⟩ :=
          forall_or_exists_first (fun symbol => !separator symbol) tail
        · refine last skipped (first :: tail) separators (List.cons_ne_nil _ _) ?_
          exact List.forall_mem_cons.mpr
            ⟨starts, fun symbol member => by simpa using isRun _ member⟩
        · refine next skipped (first :: run) symbol rest separators (List.cons_ne_nil _ _) ?_
            (by simpa using separates) (ih rest.length ?_ rest rfl)
          · exact List.forall_mem_cons.mpr
              ⟨starts, fun symbol member => by simpa using isRun _ member⟩
          · simp only [List.length_append, List.length_cons]
            omega

/-- Every separator right after a symbol that is none becomes a blank; `inside` says whether
such a symbol stands before the stream. -/
def endTokens (separator : α → Bool) (blank : α) : Bool → List α → List α
  | _, [] => []
  | inside, symbol :: rest =>
      if separator symbol then
        (if inside then blank else symbol) :: endTokens separator blank false rest
      else symbol :: endTokens separator blank true rest

variable {blank : α}

theorem endTokens_skip {skipped : List α} (separators : ∀ symbol ∈ skipped, separator symbol = true)
    (rest : List α) :
    endTokens separator blank false (skipped ++ rest) =
      skipped ++ endTokens separator blank false rest := by
  induction skipped with
  | nil => rfl
  | cons symbol skipped ih =>
      obtain ⟨first, others⟩ := List.forall_mem_cons.mp separators
      rw [List.cons_append, endTokens, if_pos first, ih others]
      rfl

theorem endTokens_run {run : List α} (isRun : ∀ symbol ∈ run, separator symbol = false)
    (nonempty : run ≠ []) (inside : Bool) (rest : List α) :
    endTokens separator blank inside (run ++ rest) =
      run ++ endTokens separator blank true rest := by
  induction run generalizing inside with
  | nil => exact absurd rfl nonempty
  | cons symbol run ih =>
      obtain ⟨first, others⟩ := List.forall_mem_cons.mp isRun
      have start : endTokens separator blank inside (symbol :: run ++ rest) =
          symbol :: endTokens separator blank true (run ++ rest) :=
        if_neg (by rw [first]; exact Bool.false_ne_true)
      cases run with
      | nil => exact start
      | cons second run => rw [start, ih others (List.cons_ne_nil _ _)]; rfl

theorem endTokens_last {run : List α} (isRun : ∀ symbol ∈ run, separator symbol = false)
    (nonempty : run ≠ []) (inside : Bool) : endTokens separator blank inside run = run := by
  conv_lhs => rw [← List.append_nil run, endTokens_run isRun nonempty]
  exact List.append_nil run

/-- Ending tokens keeps the length. -/
theorem length_endTokens (inside : Bool) (stream : List α) :
    (endTokens separator blank inside stream).length = stream.length := by
  induction stream generalizing inside with
  | nil => rfl
  | cons symbol rest ih =>
      rw [endTokens]
      split <;> rw [List.length_cons, List.length_cons, ih]

theorem endTokens_of_separators {skipped : List α}
    (separators : ∀ symbol ∈ skipped, separator symbol = true) :
    endTokens separator blank false skipped = skipped := by
  conv_lhs => rw [← List.append_nil skipped, endTokens_skip separators]
  exact List.append_nil skipped

/-- **Blanking** leaves a stream as it is exactly when no separator stands right after a
symbol that is none. -/
theorem endTokens_eq_self_iff (different : separator blank = false) (inside : Bool)
    (stream : List α) :
    endTokens separator blank inside stream = stream ↔
      (inside = true → ∀ symbol ∈ stream.head?, separator symbol = false) ∧
        stream.IsChain fun symbol next => separator next = true → separator symbol = true := by
  induction stream generalizing inside with
  | nil => simp [endTokens]
  | cons symbol rest ih =>
      rw [List.isChain_cons, List.head?_cons]
      cases separates : separator symbol with
      | true =>
          have kept : (if inside then blank else symbol) = symbol ↔ inside = false := by
            cases inside with
            | false => simp
            | true =>
                have other : blank ≠ symbol := by
                  rintro rfl
                  rw [different] at separates
                  cases separates
                simp [other]
          rw [endTokens, if_pos separates, List.cons_eq_cons, ih, kept]
          simp [separates]
      | false =>
          have step : endTokens separator blank inside (symbol :: rest) =
              symbol :: endTokens separator blank true rest :=
            if_neg (by rw [separates]; exact Bool.false_ne_true)
          rw [step, List.cons_eq_cons, ih]
          simp [separates]

section Ends

theorem rdropWhile_cons (symbol : α) (rest : List α) :
    (symbol :: rest).rdropWhile separator =
      if rest.rdropWhile separator = [] ∧ separator symbol = true then []
      else symbol :: rest.rdropWhile separator := by
  rw [List.rdropWhile, List.reverse_cons, List.dropWhile_append]
  by_cases none : rest.rdropWhile separator = []
  · have gone : rest.reverse.dropWhile separator = [] := List.reverse_eq_nil_iff.mp none
    rw [gone, none, List.isEmpty_nil, if_pos rfl]
    cases separates : separator symbol with
    | true => simp [separates]
    | false => simp [separates]
  · have left : (rest.reverse.dropWhile separator).isEmpty = false := by
      rw [List.isEmpty_eq_false_iff]
      exact fun gone => none (List.reverse_eq_nil_iff.mpr gone)
    rw [left, if_neg Bool.false_ne_true, if_neg fun both => none both.1, List.reverse_append]
    rfl

/-- **The ends** of a stream are independent of each other. -/
theorem rdropWhile_dropWhile (separator : α → Bool) (stream : List α) :
    (stream.dropWhile separator).rdropWhile separator =
      (stream.rdropWhile separator).dropWhile separator := by
  induction stream with
  | nil => rfl
  | cons symbol rest ih =>
      rw [rdropWhile_cons]
      cases separates : separator symbol with
      | true =>
          rw [List.dropWhile_cons_of_pos separates, ih]
          by_cases none : rest.rdropWhile separator = []
          · rw [none, if_pos ⟨rfl, rfl⟩]
          · rw [if_neg fun both => none both.1, List.dropWhile_cons_of_pos separates]
      | false =>
          have stops : ¬ separator symbol = true := by simp [separates]
          rw [List.dropWhile_cons_of_neg stops, if_neg fun both => Bool.false_ne_true both.2,
            List.dropWhile_cons_of_neg stops, rdropWhile_cons, if_neg fun both => stops both.2]

end Ends

end Foundation
