import Mathlib

/-!
# Fragments of a watch response (`server/src/watch.rs`, `etcd/api/etcdserverpb/rpc.proto`)

A response of `max` encoded bytes or more with two or more events is sent as responses of whole
events. `prost` measures it: a field at its default is left out, an integer is a varint, and a
message or a byte string has its length before it.
-/

namespace Fastetcd.Server.Pb

structure ResponseHeader where
  clusterId : UInt64 := 0
  memberId : UInt64 := 0
  revision : Int64 := 0
  raftTerm : UInt64 := 0
deriving DecidableEq

structure KeyValue where
  key : List UInt8 := []
  createRevision : Int64 := 0
  modRevision : Int64 := 0
  version : Int64 := 0
  value : List UInt8 := []
  lease : Int64 := 0
deriving DecidableEq

structure Event where
  type : Int32 := 0
  kv : Option KeyValue := none
  prevKv : Option KeyValue := none
deriving DecidableEq

structure WatchResponse where
  header : Option ResponseHeader := none
  watchId : Int64 := 0
  created : Bool := false
  canceled : Bool := false
  compactRevision : Int64 := 0
  cancelReason : String := ""
  fragment : Bool := false
  events : List Event := []
deriving DecidableEq

/-! ## Encoded lengths -/

/-- `encoded_len_varint`. -/
def varintLen (value : Nat) : Nat := (Nat.log2 (value ||| 1) * 9 + 73) / 64

/-- An integer field; every field number here has a key of one byte. -/
def intLen (value : UInt64) : Nat := if value = 0 then 0 else 1 + varintLen value.toNat

def boolLen (value : Bool) : Nat := if value then 2 else 0

/-- A field of `len` bytes with their length before them. -/
def delimitedLen (len : Nat) : Nat := 1 + varintLen len + len

def bytesLen (len : Nat) : Nat := if len = 0 then 0 else delimitedLen len

def ResponseHeader.encodedLen (h : ResponseHeader) : Nat :=
  intLen h.clusterId + intLen h.memberId + intLen h.revision.toUInt64 + intLen h.raftTerm

def KeyValue.encodedLen (kv : KeyValue) : Nat :=
  bytesLen kv.key.length + intLen kv.createRevision.toUInt64 + intLen kv.modRevision.toUInt64 +
    intLen kv.version.toUInt64 + bytesLen kv.value.length + intLen kv.lease.toUInt64

def Event.encodedLen (e : Event) : Nat :=
  intLen e.type.toInt64.toUInt64 + e.kv.elim 0 (delimitedLen ·.encodedLen) +
    e.prevKv.elim 0 (delimitedLen ·.encodedLen)

def WatchResponse.encodedLen (r : WatchResponse) : Nat :=
  r.header.elim 0 (delimitedLen ·.encodedLen) + intLen r.watchId.toUInt64 + boolLen r.created +
    boolLen r.canceled + intLen r.compactRevision.toUInt64 + bytesLen r.cancelReason.utf8ByteSize +
    boolLen r.fragment + (r.events.map (delimitedLen ·.encodedLen)).sum

/-! ## The loops -/

section Loops

variable {α : Type} (tooLong : List α → Bool)

/-- The inner loop: events move from the front of the queue to the part, until one makes a part of
more than one event too long and goes back. -/
def fillPart (cur : List α) : (queue : List α) → List α × List α
  | [] => (cur, [])
  | ev :: queue =>
    if 1 < (cur ++ [ev]).length ∧ tooLong (cur ++ [ev]) then (cur, ev :: queue)
    else fillPart (cur ++ [ev]) queue

variable {tooLong}

/-- The part and what is left in the queue are what there was. -/
theorem fillPart_append (cur queue : List α) :
    (fillPart tooLong cur queue).1 ++ (fillPart tooLong cur queue).2 = cur ++ queue := by
  induction queue generalizing cur with
  | nil => rfl
  | cons ev queue ih =>
    rw [fillPart]
    split
    · rfl
    · rw [ih, List.append_assoc]
      rfl

/-- The part only grows. -/
theorem length_le_fillPart (cur queue : List α) :
    cur.length ≤ (fillPart tooLong cur queue).1.length := by
  induction queue generalizing cur with
  | nil => exact Nat.le_refl _
  | cons ev queue ih =>
    rw [fillPart]
    split
    · exact Nat.le_refl _
    · have grown := ih (cur ++ [ev])
      rw [List.length_append] at grown
      omega

/-- A part always takes the first event of the queue. -/
theorem fillPart_pos (ev : α) (queue : List α) :
    0 < (fillPart tooLong [] (ev :: queue)).1.length := by
  rw [fillPart, if_neg (by simp)]
  exact length_le_fillPart [ev] queue

theorem fillPart_shorter (ev : α) (queue : List α) :
    (fillPart tooLong [] (ev :: queue)).2.length < (ev :: queue).length := by
  have whole := congrArg List.length (@fillPart_append _ tooLong [] (ev :: queue))
  have taken := @fillPart_pos _ tooLong ev queue
  rw [List.length_append, List.nil_append] at whole
  omega

variable (tooLong)

/-- The outer loop: the parts, each with whether events are left after it. -/
def splitParts : (queue : List α) → List (List α × Bool)
  | [] => []
  | ev :: queue =>
    let filled := fillPart tooLong [] (ev :: queue)
    (filled.1, !filled.2.isEmpty) :: splitParts filled.2
termination_by queue => queue.length
decreasing_by exact fillPart_shorter ev queue

end Loops

def fragments (resp : WatchResponse) (max : Nat) : List WatchResponse :=
  if resp.encodedLen < max ∨ resp.events.length < 2 then [resp]
  else
    let empty := { resp with events := [], fragment := true }
    (splitParts (fun events => max ≤ { empty with events }.encodedLen) resp.events).map
      fun part => { empty with events := part.1, fragment := part.2 }

end Fastetcd.Server.Pb
