import Acached.Foundation.CString
import Acached.Foundation.Gather
import Acached.HashTable.Table

/-! # Queueing a reply

The reply state of a connection, and `aConn::QReply` with the early flush of
`aConn::WriteIOVReply` as a program whose steps are the atomic accesses to that
state. The result of `sendmsg` is an input of its step.
-/
namespace Acached.Reply
open CString Gather HashTable

def crlf : Bytes := [13, 10]

def stored : Bytes := [83, 84, 79, 82, 69, 68, 13, 10]

def endLine : Bytes := [69, 78, 68, 13, 10]

/-- The `VALUE` line that `snprintf` makes in `QReply`. -/
def valueLine (key : Bytes) (vallen : ℕ) : Bytes :=
  [86, 65, 76, 85, 69, 32] ++ key ++ [32, 48, 32] ++
    (Nat.toDigits 10 vallen).map (fun c => UInt8.ofNat c.toNat) ++ [32, 49, 13, 10]

def valueOf (r : KVdata) : Bytes := (r.data.drop r.keylen).take r.vallen

/-- The line end that `QReply` writes into the record, behind the value. -/
def terminate (r : KVdata) : KVdata :=
  { r with data := r.data.take (r.keylen + r.vallen) ++ crlf ++ r.data.drop (r.keylen + r.vallen + 2) }

/-- Number of entries of the arrays in `iovReply`, `ACONN_IOV_REPLY_SIZE_INIT`. -/
def iovSize : ℕ := 12288

def iovMax : ℤ := 1024

/-- The reply fields of `aConn`: `iovec` holds the bytes an entry still has to send and `written`
its `AC_IOVREPLY_DESC_WRITTEN` bit. What entries were filled with and the bytes handed to the
socket are recorded in `original` and `sent`. -/
structure IovReply where
  iovIndex : ℕ
  windexlast : ℕ
  totalsize : UInt32
  writingflag : Bool
  iovec : ℕ → Bytes
  written : ℕ → Bool
  original : ℕ → Option Bytes
  sent : Bytes

def IovReply.init : IovReply where
  iovIndex := 0
  windexlast := 0
  totalsize := 0
  writingflag := false
  iovec _ := []
  written _ := false
  original _ := none
  sent := []

def IovReply.addIOVReply (s : IovReply) (ptr : Bytes) (index : ℕ) : IovReply :=
  { s with
    iovec := Function.update s.iovec index ptr
    written := Function.update s.written index true
    original := Function.update s.original index (some ptr) }

/-- The loop of `CheckIOVTotalWritten` from the entry `i` on, with `n` entries to go: the first
entry at which the total reaches `writeret`, and that total. The total is a `uint32_t`. -/
def reachWritten (iovec : ℕ → Bytes) (writeret : ℕ) : ℕ → ℕ → ℕ → Option (ℕ × ℕ)
  | _, 0, _ => none
  | i, n + 1, total =>
    let total := (total + (iovec i).length) % 2 ^ 32
    if writeret ≤ total then some (i, total) else reachWritten iovec writeret (i + 1) n total

/-- `aConn::CheckIOVTotalWritten` for a positive `writeret`: the new end, and the entries with the
one that was sent in part moved on. Without a total that reaches `writeret` no end is set. -/
def checkIOVTotalWritten (iovec : ℕ → Bytes) (start count writeret : ℕ) :
    Option (ℕ × (ℕ → Bytes)) :=
  (reachWritten iovec writeret start count 0).map fun (i, total) =>
    if total = writeret then (i + 1, iovec)
    else
      let seek := writeret - (total - (iovec i).length)
      (i, Function.update iovec i ((iovec i).drop seek))

/-- The loop over the `WRITTEN` bits from `i` on, with `n` rounds to go. It tests `index`, the
entry just filled, in every round. -/
def checkWritten (written : ℕ → Bool) (index : ℕ) : ℕ → ℕ → ℕ
  | _, 0 => index
  | i, n + 1 => if written index = false then i else checkWritten written index (i + 1) n

inductive QPc where
  | reserve (hdr val : Bytes)
  | fillHdr (index : ℕ) (hdr val : Bytes)
  | fillVal (index : ℕ) (size : ℕ) (val : Bytes)
  | addTotal (index size : ℕ)
  | readWindex (index : ℕ) (totalsize : UInt32)
  | check (index : ℕ) (totalsize : UInt32) (y : ℕ)
  | takeFlag (start : ℕ) (count : ℤ)
  | sendmsg (start : ℕ) (count : ℤ)
  | account (start count writeret : ℕ)
  | advance (start iovEnd writeret : ℕ)
  | release (ret : ℤ)
  | subTotal (ret : ℕ)
  | done
  deriving DecidableEq, Repr

/-- One step of `QReply`; `r` is what `sendmsg` returns. -/
def QPc.step (r : ℤ) : QPc → IovReply → Option (QPc × IovReply)
  | .reserve hdr val, s =>
    some (.fillHdr s.iovIndex hdr val, { s with iovIndex := s.iovIndex + 2 })
  | .fillHdr index hdr val, s =>
    some (.fillVal (index + 1) hdr.length val, s.addIOVReply hdr index)
  | .fillVal index size val, s =>
    some (.addTotal index (size + val.length), s.addIOVReply val index)
  | .addTotal index size, s =>
    let totalsize := s.totalsize + UInt32.ofNat size
    some (.readWindex index totalsize, { s with totalsize := totalsize })
  | .readWindex index totalsize, s => some (.check index totalsize s.windexlast, s)
  | .check index totalsize y, s =>
    let newindex := checkWritten s.written index y (index - y)
    let index := min newindex index
    let count : ℤ := index - y
    if 126 * 1024 < totalsize ∨ 1024 < count % 2 ^ 32 then some (.takeFlag y count, s)
    else some (.done, s)
  | .takeFlag start count, s =>
    if s.writingflag then some (.done, s)
    else some (.sendmsg start (min count iovMax), { s with writingflag := true })
  | .sendmsg start count, s =>
    if r ≤ 0 then some (.release r, s)
    else if 0 ≤ count ∧ r ≤ (gather s.iovec start count.toNat).length then
      some (.account start count.toNat r.toNat,
        { s with sent := s.sent ++ (gather s.iovec start count.toNat).take r.toNat })
    else none
  | .account start count writeret, s =>
    (checkIOVTotalWritten s.iovec start count writeret).map fun (iovEnd, iovec) =>
      (.advance start iovEnd writeret, { s with iovec := iovec })
  | .advance start iovEnd writeret, s =>
    some (.release writeret,
      { s with windexlast := if s.windexlast = start then iovEnd else s.windexlast })
  | .release ret, s =>
    some (if 0 < ret then .subTotal ret.toNat else .done, { s with writingflag := false })
  | .subTotal ret, s => some (.done, { s with totalsize := s.totalsize - UInt32.ofNat ret })
  | .done, _ => none

end Acached.Reply
