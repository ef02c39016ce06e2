import Acached.Foundation.Decoding
import Acached.Server.Reference

/-! # What a client reads

The answers to a client's commands stand in one stream of bytes. A `VALUE` line
says how long its value is, and so the stream is read back as the answers that
were written, whatever the values are.
-/
namespace Acached.Server
open CString Receive Decoding

/-- The answer to a set, or to a get with the keys and values that were found. -/
inductive Response where
  | stored
  | values (items : List (Bytes × Bytes))
  deriving DecidableEq, Repr

namespace Response

def bytes : Response → Bytes
  | .stored => Reply.stored
  | .values items => items.flatMap (fun x => valueAnswer x.1 x.2) ++ Reply.endLine

def Plain : Response → Prop
  | .stored => True
  | .values items => ∀ x ∈ items, 32 ∉ x.1

end Response

end Acached.Server
