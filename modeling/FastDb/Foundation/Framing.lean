import Mathlib.Data.List.Basic

/-! # Self-delimiting encodings

A framing encodes a value as a word over an alphabet together with a decoder
that reads the value back off the front of any stream beginning with that word
and returns what follows. The law carried by the structure
(`Foundation.Framing.decode_encode`) is what makes the encoding
self-delimiting: no continuation of the stream changes the value read or moves
the place where the next one starts. Framings compose under a leading marker, a
trailing terminator, an explicit length and an explicit count, and a stream of
frames decodes to exactly the values encoded, whatever their contents
(`Foundation.Framing.decodeAll_flatMap`).
-/

namespace Foundation

variable {α β γ : Type*}

/-- An encoding of `β` over the alphabet `α` that a decoder recovers from the
front of every stream. -/
structure Framing (α β : Type*) where
  encode : β → List α
  decode : List α → Option (β × List α)
  decode_encode : ∀ value rest, decode (encode value ++ rest) = some (value, rest)

/-- The suffix of a stream after a fixed word; `none` when the stream does not
begin with it. -/
def stripWord [DecidableEq α] : List α → List α → Option (List α)
  | [], stream => some stream
  | _ :: _, [] => none
  | expected :: word, symbol :: stream =>
      if symbol = expected then stripWord word stream else none

/-- A word in front is stripped. -/
@[simp] theorem stripWord_append [DecidableEq α] (word rest : List α) :
    stripWord word (word ++ rest) = some rest := by
  induction word with
  | nil => rfl
  | cons symbol word ih => simp only [List.cons_append, stripWord, ↓reduceIte, ih]

namespace Framing

/-- Two encodings cannot be confused, whatever follows either of them. -/
theorem encode_append_inj (framing : Framing α β) {first second : β} {left right : List α}
    (same : framing.encode first ++ left = framing.encode second ++ right) :
    first = second ∧ left = right := by
  have decoded := framing.decode_encode first left
  rw [same, framing.decode_encode] at decoded
  have pair := Option.some.inj decoded
  exact ⟨(congrArg Prod.fst pair).symm, (congrArg Prod.snd pair).symm⟩

/-- What is framed differently is different. -/
theorem encode_injective (framing : Framing α β) : Function.Injective framing.encode := by
  intro first second same
  have extended : framing.encode first ++ [] = framing.encode second ++ [] := by rw [same]
  exact (framing.encode_append_inj extended).1

section Word

variable [DecidableEq α]

/-- A framing announced by a fixed word. -/
def marked (word : List α) (framing : Framing α β) : Framing α β where
  encode value := word ++ framing.encode value
  decode stream := (stripWord word stream).bind framing.decode
  decode_encode value rest := by
    rw [List.append_assoc, stripWord_append, Option.bind_some, framing.decode_encode]

/-- A framing closed by a fixed word. -/
def terminated (framing : Framing α β) (word : List α) : Framing α β where
  encode value := framing.encode value ++ word
  decode stream := (framing.decode stream).bind fun (value, rest) =>
    (stripWord word rest).map fun rest => (value, rest)
  decode_encode value rest := by
    rw [List.append_assoc, framing.decode_encode, Option.bind_some]
    simp only [stripWord_append, Option.map_some]

end Word

/-- A word of arbitrary symbols announced by its length: the payload is never
inspected. -/
def sized (count : Framing α Nat) : Framing α (List α) where
  encode payload := count.encode payload.length ++ payload
  decode stream := (count.decode stream).bind fun (length, rest) =>
    if length ≤ rest.length then some (rest.take length, rest.drop length) else none
  decode_encode payload rest := by
    rw [List.append_assoc, count.decode_encode, Option.bind_some]
    simp only [List.length_append, Nat.le_add_right, ↓reduceIte, List.take_left, List.drop_left]

/-- Reads a fixed number of frames. -/
def decodeMany (item : Framing α β) : Nat → List α → Option (List β × List α)
  | 0, stream => some ([], stream)
  | count + 1, stream => (item.decode stream).bind fun (value, rest) =>
      (item.decodeMany count rest).map fun (values, rest) => (value :: values, rest)

/-- So many encodings are decoded one after another. -/
theorem decodeMany_flatMap (item : Framing α β) (values : List β) (rest : List α) :
    item.decodeMany values.length (values.flatMap item.encode ++ rest) = some (values, rest) := by
  induction values with
  | nil => rfl
  | cons value values ih =>
      simp only [List.length_cons, List.flatMap_cons, List.append_assoc, decodeMany,
        item.decode_encode, Option.bind_some, ih, Option.map_some]

/-- A sequence of frames announced by their number. -/
def counted (count : Framing α Nat) (item : Framing α β) : Framing α (List β) where
  encode values := count.encode values.length ++ values.flatMap item.encode
  decode stream := (count.decode stream).bind fun (number, rest) => item.decodeMany number rest
  decode_encode values rest := by
    rw [List.append_assoc, count.decode_encode, Option.bind_some]
    exact item.decodeMany_flatMap values rest

/-- Reads frames until the stream is empty or none can be read: the values, and
what is left of the stream. The fuel bounds the number of frames. -/
def decodeUpTo (item : Framing α β) : Nat → List α → List β × List α
  | 0, stream => ([], stream)
  | fuel + 1, stream =>
      match item.decode stream with
      | some (value, rest) =>
          let (values, left) := item.decodeUpTo fuel rest
          (value :: values, left)
      | none => ([], stream)

/-- Reads every frame of a stream. A nonempty frame consumes at least one
symbol, so the length of the stream is fuel enough. -/
def decodeAll (item : Framing α β) (stream : List α) : List β × List α :=
  item.decodeUpTo stream.length stream

/-- As many encodings as there are, with enough fuel. -/
theorem decodeUpTo_flatMap (item : Framing α β) (values : List β) (fuel : Nat)
    (empty : item.decode [] = none) (enough : values.length ≤ fuel) :
    item.decodeUpTo fuel (values.flatMap item.encode) = (values, []) := by
  induction values generalizing fuel with
  | nil =>
      cases fuel with
      | zero => rfl
      | succ fuel => simp only [List.flatMap_nil, decodeUpTo, empty]
  | cons value values ih =>
      cases fuel with
      | zero => exact absurd enough (by simp)
      | succ fuel =>
          simp only [List.flatMap_cons, decodeUpTo, item.decode_encode,
            ih fuel (Nat.le_of_succ_le_succ enough)]

/-- **A stream of frames is lossless.** When the empty stream holds no frame,
reading every frame of a concatenation of encodings returns the encoded values
in order and consumes the whole stream. -/
theorem decodeAll_flatMap (item : Framing α β) (empty : item.decode [] = none)
    (values : List β) : item.decodeAll (values.flatMap item.encode) = (values, []) := by
  apply item.decodeUpTo_flatMap values _ empty
  have nonempty : ∀ value, 0 < (item.encode value).length := by
    intro value
    by_contra none
    have blank : item.encode value = [] := List.length_eq_zero_iff.mp (by omega)
    have decoded := item.decode_encode value []
    rw [blank, List.append_nil, empty] at decoded
    cases decoded
  induction values with
  | nil => exact Nat.le_refl 0
  | cons value values ih =>
      rw [List.flatMap_cons, List.length_append, List.length_cons]
      have := nonempty value
      omega

end Framing

end Foundation
