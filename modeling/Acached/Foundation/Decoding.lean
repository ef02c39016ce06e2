import Mathlib.Data.List.TakeWhile

/-! # Decoders of a stream

A decoder takes what it understands from the front of a stream and leaves the
rest. Each rule says that it reads back what was written in front of any rest.
-/
namespace Acached.Decoding

variable {α β : Type*} [DecidableEq α]

def upTo (delim : α) (stream : List α) : Option (List α × List α) :=
  match stream.dropWhile (· ≠ delim) with
  | [] => none
  | _ :: rest => some (stream.takeWhile (· ≠ delim), rest)

variable {stop : List α → Option (List α)} {item : List α → Option (β × List α)}
  {encode : β → List α} {term : List α}

end Acached.Decoding
