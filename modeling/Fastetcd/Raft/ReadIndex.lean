import Mathlib.Data.Finset.Card

/-!
# Confirmation rounds of the read barrier (`raft/src/read_index.rs`)

A leader with other voters confirms that none of a newer term has been elected before it serves a
read. It asks the voters for the term of the vote they saved last (`ConfirmLeader`) and needs a
quorum, in every config of a joint membership, that answers no newer term than its own. Rounds go
one at a time; a read uses the first round that started after it arrived, its own or another's.

What raft's metrics say is taken as it comes: a round has any term, configs and index. A call may be
dropped where it waits. The wait for the state machine to apply the index, the path of a sole voter
and the one through `ensure_linearizable` are left out.
-/

namespace Fastetcd.Raft.ReadIndex

abbrev NodeId := Nat

/-- The voters that confirmed are a majority of every config. -/
def quorum (configs : List (Finset NodeId)) (confirmed : Finset NodeId) : Bool :=
  configs.all fun cfg => decide ((cfg.filter (· ∈ confirmed)).card * 2 > cfg.card)

/-- A call of `multi_voter_read_index`, with the number of rounds it found started. -/
structure Reader where
  arrival : Nat
  /-- the terms that were saved when it arrived -/
  seen : NodeId → Nat

/-- A round under way, held by the call that started it. -/
structure Round where
  reader : Reader
  number : Nat
  me : NodeId
  term : Nat
  configs : List (Finset NodeId)
  index : Nat
  confirmed : Finset NodeId
  /-- the terms that were saved when it started -/
  opened : NodeId → Nat

/-- A call that was answered, by the round of `by_` if it was confirmed. -/
structure Answered where
  reader : Reader
  by_ : Option Round

structure State where
  /-- the term of the vote each member saved last -/
  saved : NodeId → Nat
  started : Nat := 0
  /-- the last round that ended, and itself if it was confirmed -/
  last : Option (Nat × Option Round) := none
  holder : Option Round := none
  waiting : List Reader := []
  answered : List Answered := []

/-- The call that holds the round ends it. -/
def State.ended (c : State) (round : Round) (result : Option Round) : State :=
  { c with
    last := some (round.number, result), holder := none
    answered := ⟨round.reader, result⟩ :: c.answered }

inductive Step (c : State) : State → Prop
  /-- `save_vote`: the mark only rises. -/
  | save (id : NodeId) (term : Nat) :
      Step c { c with saved := Function.update c.saved id (max (c.saved id) term) }
  | arrive : Step c { c with waiting := ⟨c.started, c.saved⟩ :: c.waiting }
  /-- A call gets the lock and finds that a round has started and ended since it arrived. -/
  | join {before after : List Reader} {r : Reader} {number : Nat} {result : Option Round}
      (free : c.holder = none) (waits : c.waiting = before ++ r :: after)
      (ended : c.last = some (number, result)) (later : number > r.arrival) :
      Step c { c with waiting := before ++ after, answered := ⟨r, result⟩ :: c.answered }
  /-- A call gets the lock and starts a round. -/
  | start {before after : List Reader} {r : Reader} (me : NodeId) (term : Nat)
      (configs : List (Finset NodeId)) (index : Nat) (free : c.holder = none)
      (waits : c.waiting = before ++ r :: after)
      (none : ∀ ended, c.last = some ended → ended.1 ≤ r.arrival) (saved : c.saved me = term) :
      Step c { c with
        started := c.started + 1, waiting := before ++ after
        holder := some ⟨r, c.started + 1, me, term, configs, index, {me}, c.saved⟩ }
  /-- A voter answers no newer term. -/
  | confirm {round : Round} {cfg : Finset NodeId} {id : NodeId} (held : c.holder = some round)
      (asked : cfg ∈ round.configs ∧ id ∈ cfg) (older : c.saved id ≤ round.term) :
      Step c { c with holder := some { round with confirmed := insert id round.confirmed } }
  | finish {round : Round} (held : c.holder = some round)
      (enough : quorum round.configs round.confirmed = true)
      (saved : c.saved round.me = round.term) : Step c (c.ended round (some round))
  /-- The round ends without a confirmation, for whatever reason. -/
  | refuse {round : Round} (held : c.holder = some round) : Step c (c.ended round none)
  | dropWaiting {before after : List Reader} {r : Reader}
      (waits : c.waiting = before ++ r :: after) : Step c { c with waiting := before ++ after }
  | dropHolder : Step c { c with holder := none }

inductive Run : State → Prop
  | start (saved : NodeId → Nat) : Run { saved }
  | step {c d : State} (run : Run c) (step : Step c d) : Run d

end Fastetcd.Raft.ReadIndex
