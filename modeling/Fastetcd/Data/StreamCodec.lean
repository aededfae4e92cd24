import Fastetcd.Data.Bincode

/-!
# Values read from a stream

`bincode::deserialize_from` reads a value from a stream that may end before the value does. A codec
is a writer and a reader of one type with two laws: what is written reads back in front of any rest,
and a stream that ends inside a value is answered `unexpectedEof`. The laws hold of the format's
integers and options and are kept by products, fixed-width arrays and counted sequences.

A sender is a reader that sends operations on as it reads. `Sends` says what it does with one
encoding, whole or cut, and is closed under sequencing.
-/

namespace Fastetcd.StreamCodec

open Bincode (leBytes ofLeBytes)

/-- Why a read failed: the stream ended inside the value, or the bytes are not one. -/
inductive ReadError where
  | unexpectedEof
  | invalidData
deriving DecidableEq

abbrev Reader (α : Type) := List UInt8 → Except ReadError (α × List UInt8)

/-- `p` is `bytes` with its end cut off. -/
def Cuts (p bytes : List UInt8) : Prop := p <+: bytes ∧ p ≠ bytes

instance (p bytes : List UInt8) : Decidable (Cuts p bytes) := inferInstanceAs (Decidable (_ ∧ _))

theorem Cuts.length_lt {p bytes : List UInt8} (cut : Cuts p bytes) : p.length < bytes.length :=
  Nat.lt_of_le_of_ne cut.1.length_le fun eq => cut.2 (cut.1.eq_of_length eq)

theorem Cuts.append {p u v : List UInt8} (cut : Cuts p (u ++ v)) :
    Cuts p u ∨ ∃ q, p = u ++ q ∧ Cuts q v := by
  obtain ⟨isPrefix, ne⟩ := cut
  obtain before | ⟨q, rfl⟩ := List.prefix_or_prefix_of_prefix isPrefix (List.prefix_append u v)
  · by_cases all : p = u
    · subst all
      refine .inr ⟨[], (List.append_nil p).symm, List.nil_prefix, ?_⟩
      rintro rfl
      exact ne (List.append_nil p).symm
    · exact .inl ⟨before, all⟩
  · refine .inr ⟨q, rfl, (List.prefix_append_right_inj u).mp isPrefix, ?_⟩
    rintro rfl
    exact ne rfl

theorem Cuts.cons {p bytes : List UInt8} {b : UInt8} (cut : Cuts p (b :: bytes)) :
    p = [] ∨ ∃ q, p = b :: q ∧ Cuts q bytes := by
  cases p with
  | nil => exact .inl rfl
  | cons a q =>
    obtain ⟨rfl, isPrefix⟩ := List.cons_prefix_cons.mp cut.1
    refine .inr ⟨q, rfl, isPrefix, ?_⟩
    rintro rfl
    exact cut.2 rfl

theorem not_cuts_nil (p : List UInt8) : ¬ Cuts p [] := fun cut => cut.2 (List.prefix_nil.mp cut.1)

/-! ## Codecs -/

/-- A writer and a reader of one type. -/
structure Codec (α : Type) where
  encode : α → List UInt8
  read : Reader α
  whole : ∀ a rest, read (encode a ++ rest) = .ok (a, rest)
  cut : ∀ a p, Cuts p (encode a) → read p = .error .unexpectedEof

namespace Codec

variable {α β : Type}

/-- `u8`. -/
def byte : Codec UInt8 where
  encode b := [b]
  read
    | [] => .error .unexpectedEof
    | b :: rest => .ok (b, rest)
  whole _ _ := rfl
  cut := by
    intro b p cut
    obtain rfl | ⟨q, -, cut⟩ := cut.cons
    · rfl
    · exact absurd cut (not_cuts_nil q)

/-- `u64`, little-endian. -/
def u64 : Codec UInt64 where
  encode n := leBytes 8 n.toNat
  read bytes :=
    if 8 ≤ bytes.length then .ok (UInt64.ofNat (ofLeBytes (bytes.take 8)), bytes.drop 8)
    else .error .unexpectedEof
  whole := by
    intro n rest
    have fits : n.toNat < 256 ^ 8 := n.toNat_lt
    have length := Bincode.length_leBytes 8 n.toNat
    rw [if_pos (by simp), List.take_left' length, List.drop_left' length,
      Bincode.ofLeBytes_leBytes fits, UInt64.ofNat_toNat]
  cut := by
    intro n p cut
    have shorter : p.length < 8 := cut.length_lt.trans_eq (Bincode.length_leBytes 8 n.toNat)
    exact if_neg (Nat.not_le.mpr shorter)

/-- A value, then one whose codec depends on it. -/
def sigma {β : α → Type} (first : Codec α) (second : (a : α) → Codec (β a)) :
    Codec (Σ a, β a) where
  encode v := first.encode v.1 ++ (second v.1).encode v.2
  read bytes := do
    let (a, rest) ← first.read bytes
    let (b, rest) ← (second a).read rest
    return (⟨a, b⟩, rest)
  whole := by
    intro v rest
    rw [List.append_assoc, first.whole]
    show ((second v.1).read ((second v.1).encode v.2 ++ rest) >>= _) = _
    rw [(second v.1).whole]
    rfl
  cut := by
    intro v p cut
    obtain inFirst | ⟨q, rfl, inSecond⟩ := cut.append
    · rw [first.cut v.1 p inFirst]
      rfl
    · rw [first.whole]
      show ((second v.1).read q >>= _) = _
      rw [(second v.1).cut v.2 q inSecond]
      rfl

/-- A type written as another one's values; `pack` may forget what `unpack` does not write. -/
def iso (codec : Codec α) (pack : α → β) (unpack : β → α) (inverse : ∀ b, pack (unpack b) = b) :
    Codec β where
  encode b := codec.encode (unpack b)
  read bytes := do
    let (a, rest) ← codec.read bytes
    return (pack a, rest)
  whole := by
    intro b rest
    rw [codec.whole]
    show Except.ok (pack (unpack b), rest) = _
    rw [inverse]
  cut := by
    intro b p cut
    rw [codec.cut (unpack b) p cut]
    rfl

def pair (first : Codec α) (second : Codec β) : Codec (α × β) :=
  (first.sigma fun _ => second).iso (fun v => (v.1, v.2)) (fun v => ⟨v.1, v.2⟩) fun _ => rfl

/-- `Option`: one byte, `0` or `1`, and after a `1` the value. -/
def option (codec : Codec α) : Codec (Option α) where
  encode
    | none => [0]
    | some a => 1 :: codec.encode a
  read
    | [] => .error .unexpectedEof
    | 0 :: rest => .ok (none, rest)
    | 1 :: rest => do
      let (a, rest) ← codec.read rest
      return (some a, rest)
    | _ => .error .invalidData
  whole := by
    intro v rest
    cases v with
    | none => rfl
    | some a =>
      show (codec.read (codec.encode a ++ rest) >>= _) = _
      rw [codec.whole]
      rfl
  cut := by
    intro v p cut
    cases v with
    | none =>
      obtain rfl | ⟨q, -, cut⟩ := cut.cons
      · rfl
      · exact absurd cut (not_cuts_nil q)
    | some a =>
      obtain rfl | ⟨q, rfl, inValue⟩ := cut.cons
      · rfl
      · show (codec.read q >>= _) = _
        rw [codec.cut a q inValue]
        rfl

/-- `[T; n]`: the items one after the other. -/
def array (codec : Codec α) : (n : Nat) → Codec { items : List α // items.length = n }
  | 0 =>
    { encode := fun _ => []
      read := fun bytes => .ok (⟨[], rfl⟩, bytes)
      whole := by
        rintro ⟨items, length⟩ rest
        cases List.length_eq_zero_iff.mp length
        rfl
      cut := fun _ p cut => absurd cut (not_cuts_nil p) }
  | n + 1 =>
    (codec.pair (codec.array n)).iso
      (fun v => ⟨v.1 :: v.2.1, congrArg Nat.succ v.2.2⟩)
      (fun v => (v.1.head (List.ne_nil_of_length_eq_add_one v.2),
        ⟨v.1.tail, by rw [List.length_tail, v.2, Nat.add_sub_cancel]⟩))
      fun v => Subtype.ext (List.cons_head_tail _)

end Codec

/-- `Vec`: as many items as a `u64` says. -/
abbrev Vec (α : Type) := Σ n : UInt64, { items : List α // items.length = n.toNat }

namespace Vec

variable {α : Type}

def toList (v : Vec α) : List α := v.2.1

end Vec

def Codec.vec {α : Type} (codec : Codec α) : Codec (Vec α) := u64.sigma fun n => codec.array n.toNat

/-! ## Senders -/

/-- A reader that sends operations on as it reads: what it sent, and what it answered. -/
def Sender (Op α : Type) := List UInt8 → List Op × Except ReadError (α × List UInt8)

namespace Sender

variable {Op α β : Type}

def bind (d : Sender Op α) (k : α → Sender Op β) : Sender Op β := fun bytes =>
  match d bytes with
  | (sent, .error e) => (sent, .error e)
  | (sent, .ok (a, rest)) => (sent ++ (k a rest).1, (k a rest).2)

instance : Monad (Sender Op) where
  pure a := fun bytes => ([], .ok (a, bytes))
  bind := Sender.bind

def read (codec : Codec α) : Sender Op α := fun bytes => ([], codec.read bytes)

def send (ops : List Op) : Sender Op Unit := fun bytes => (ops, .ok ((), bytes))

def fail (e : ReadError) : Sender Op α := fun _ => ([], .error e)

/-- A value that may be missing: a stream that ends before it, or inside it, has none. -/
def readTrailer (codec : Codec α) : Sender Op (Option α) := fun bytes =>
  match codec.read bytes with
  | .ok (a, rest) => ([], .ok (some a, rest))
  | .error .unexpectedEof => ([], .ok (none, []))
  | .error e => ([], .error e)

theorem bind_ok {d : Sender Op α} {k : α → Sender Op β} {bytes rest : List UInt8} {sent : List Op}
    {a : α} (h : d bytes = (sent, .ok (a, rest))) :
    (d >>= k) bytes = (sent ++ (k a rest).1, (k a rest).2) := by
  show Sender.bind d k bytes = _
  rw [Sender.bind, h]

theorem bind_error {d : Sender Op α} {k : α → Sender Op β} {bytes : List UInt8} {e : ReadError}
    (h : (d bytes).2 = .error e) : ((d >>= k) bytes).2 = .error e := by
  have answer : d bytes = ((d bytes).1, .error e) := Prod.ext rfl h
  show (Sender.bind d k bytes).2 = _
  rw [Sender.bind, answer]

theorem readTrailer_whole (codec : Codec α) (a : α) (rest : List UInt8) :
    (readTrailer codec : Sender Op _) (codec.encode a ++ rest) = ([], .ok (some a, rest)) := by
  rw [readTrailer, codec.whole]

theorem readTrailer_cut (codec : Codec α) {a : α} {p : List UInt8} (cut : Cuts p (codec.encode a)) :
    (readTrailer codec : Sender Op _) p = ([], .ok (none, [])) := by
  rw [readTrailer, codec.cut a p cut]

end Sender

/-- What a sender does with the encoding of `a`: it sends `sent` when the encoding is whole, and
fails when its end is cut off. -/
structure Sends {Op α : Type} (d : Sender Op α) (bytes : List UInt8) (sent : List Op) (a : α) :
    Prop where
  whole : ∀ rest, d (bytes ++ rest) = (sent, .ok (a, rest))
  cut : ∀ p, Cuts p bytes → (d p).2 = .error .unexpectedEof

namespace Sends

variable {Op α β : Type}

theorem read (codec : Codec α) (a : α) :
    Sends (Sender.read codec : Sender Op α) (codec.encode a) [] a where
  whole rest := Prod.ext rfl (codec.whole a rest)
  cut p cut := codec.cut a p cut

theorem send (ops : List Op) : Sends (Sender.send ops) [] ops () where
  whole _ := rfl
  cut p cut := absurd cut (not_cuts_nil p)

theorem pure (a : α) : Sends (Pure.pure a : Sender Op α) [] [] a where
  whole _ := rfl
  cut p cut := absurd cut (not_cuts_nil p)

theorem bind {d : Sender Op α} {k : α → Sender Op β} {u v : List UInt8} {sent sent' : List Op}
    {a : α} {b : β} (first : Sends d u sent a) (second : Sends (k a) v sent' b) :
    Sends (d >>= k) (u ++ v) (sent ++ sent') b where
  whole rest := by
    rw [List.append_assoc, Sender.bind_ok (first.whole (v ++ rest)), second.whole]
  cut p cut := by
    obtain inFirst | ⟨q, rfl, inSecond⟩ := cut.append
    · exact Sender.bind_error (first.cut p inFirst)
    · rw [Sender.bind_ok (first.whole q)]
      exact second.cut q inSecond

/-- A step that reads nothing. -/
theorem bind_nil {d : Sender Op α} {k : α → Sender Op β} {v : List UInt8} {sent sent' : List Op}
    {a : α} {b : β} (first : Sends d [] sent a) (second : Sends (k a) v sent' b) :
    Sends (d >>= k) v (sent ++ sent') b := first.bind second

end Sends

end Fastetcd.StreamCodec
