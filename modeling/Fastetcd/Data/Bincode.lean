import Mathlib

/-!
# The `bincode` format

`bincode::serialize` with its defaults: fixed-width little-endian integers, a `u64` count before
the items of a string or a vector, one byte for a `bool`, a `u32` tag before an enum's payload.
A reader answers the value and the bytes after it, or `none` where `bincode::deserialize` fails;
bytes after the value are ignored, as the source's defaults ignore them.
-/

namespace Fastetcd.Bincode

/-- What a reader of an `α` does with the bytes it is given. -/
abbrev Reader (α : Type) := List UInt8 → Option (α × List UInt8)

/-- The `width` little-endian bytes of `n`. -/
def leBytes : (width n : Nat) → List UInt8
  | 0, _ => []
  | width + 1, n => UInt8.ofNat n :: leBytes width (n / 256)

def ofLeBytes (bytes : List UInt8) : Nat := bytes.foldr (fun b acc => b.toNat + 256 * acc) 0

def readNat (width : Nat) : Reader Nat := fun bytes =>
  if width ≤ bytes.length then some (ofLeBytes (bytes.take width), bytes.drop width) else none

def encodeBytes (bytes : List UInt8) : List UInt8 := leBytes 8 bytes.length ++ bytes

def readBytes : Reader (List UInt8) := fun bytes => do
  let (n, rest) ← readNat 8 bytes
  if n ≤ rest.length then some (rest.take n, rest.drop n) else none

def encodeBool (b : Bool) : List UInt8 := [if b then 1 else 0]

def readBool : Reader Bool
  | 0 :: rest => some (false, rest)
  | 1 :: rest => some (true, rest)
  | _ => none

def encodeList {α : Type} (encode : α → List UInt8) (items : List α) : List UInt8 :=
  leBytes 8 items.length ++ items.flatMap encode

def readItems {α : Type} (read : Reader α) : Nat → Reader (List α)
  | 0, bytes => some ([], bytes)
  | n + 1, bytes => do
    let (item, rest) ← read bytes
    let (items, rest) ← readItems read n rest
    some (item :: items, rest)

def readList {α : Type} (read : Reader α) : Reader (List α) := fun bytes => do
  let (n, rest) ← readNat 8 bytes
  readItems read n rest

/-- The UTF-8 bytes of a string (`as_bytes`). -/
def asBytes (s : String) : List UInt8 := s.toUTF8.data.toList

/-- `String::from_utf8`. -/
def fromUtf8 (bytes : List UInt8) : Option String := String.fromUTF8? ⟨bytes.toArray⟩

def encodeString (s : String) : List UInt8 := encodeBytes (asBytes s)

def readString : Reader String := fun bytes => do
  let (text, rest) ← readBytes bytes
  let s ← fromUtf8 text
  some (s, rest)

/-! ## What is written reads back -/

@[simp]
theorem length_leBytes (width n : Nat) : (leBytes width n).length = width := by
  induction width generalizing n with
  | zero => rfl
  | succ width ih => rw [leBytes, List.length_cons, ih]

theorem ofLeBytes_leBytes {width n : Nat} (fits : n < 256 ^ width) :
    ofLeBytes (leBytes width n) = n := by
  induction width generalizing n with
  | zero =>
    rw [Nat.pow_zero] at fits
    exact (Nat.lt_one_iff.mp fits).symm
  | succ width ih =>
    have low : (UInt8.ofNat n).toNat = n % 256 := UInt8.toNat_ofNat'
    have high : ofLeBytes (leBytes width (n / 256)) = n / 256 := ih (by
      rw [Nat.pow_succ] at fits
      omega)
    show (UInt8.ofNat n).toNat + 256 * ofLeBytes (leBytes width (n / 256)) = n
    rw [low, high]
    omega

theorem readNat_leBytes {width n : Nat} (fits : n < 256 ^ width) (rest : List UInt8) :
    readNat width (leBytes width n ++ rest) = some (n, rest) := by
  rw [readNat, if_pos (by simp), List.take_left' (length_leBytes width n),
    List.drop_left' (length_leBytes width n), ofLeBytes_leBytes fits]

theorem readBytes_encodeBytes {bytes : List UInt8} (fits : bytes.length < 256 ^ 8)
    (rest : List UInt8) : readBytes (encodeBytes bytes ++ rest) = some (bytes, rest) := by
  simp [readBytes, encodeBytes, readNat_leBytes fits]

theorem readBool_encodeBool (b : Bool) (rest : List UInt8) :
    readBool (encodeBool b ++ rest) = some (b, rest) := by
  cases b <;> rfl

theorem fromUtf8_asBytes (s : String) : fromUtf8 (asBytes s) = some s := by
  have bytes : (⟨(asBytes s).toArray⟩ : ByteArray) = s.toByteArray := by
    rw [asBytes, Array.toArray_toList]
    rfl
  rw [fromUtf8, bytes, String.fromUTF8?, dif_pos s.isValidUTF8]
  rfl

theorem asBytes_injective {s s' : String} (eq : asBytes s = asBytes s') : s = s' :=
  Option.some.inj ((fromUtf8_asBytes s).symm.trans (eq ▸ fromUtf8_asBytes s'))

theorem readString_encodeString {s : String} (fits : (asBytes s).length < 256 ^ 8)
    (rest : List UInt8) : readString (encodeString s ++ rest) = some (s, rest) := by
  simp [readString, encodeString, readBytes_encodeBytes fits, fromUtf8_asBytes]

theorem readItems_encode {α : Type} {encode : α → List UInt8} {read : Reader α} {items : List α}
    (each : ∀ item ∈ items, ∀ rest, read (encode item ++ rest) = some (item, rest))
    (rest : List UInt8) :
    readItems read items.length (items.flatMap encode ++ rest) = some (items, rest) := by
  induction items with
  | nil => rfl
  | cons item items ih =>
    have first := each item List.mem_cons_self
    have others := ih fun item mem => each item (List.mem_cons_of_mem _ mem)
    simp [readItems, first, others]

theorem readList_encodeList {α : Type} {encode : α → List UInt8} {read : Reader α} {items : List α}
    (fits : items.length < 256 ^ 8)
    (each : ∀ item ∈ items, ∀ rest, read (encode item ++ rest) = some (item, rest))
    (rest : List UInt8) : readList read (encodeList encode items ++ rest) = some (items, rest) := by
  simp [readList, encodeList, readNat_leBytes fits, readItems_encode each]

/-- Encoded items are at least as long as their count and as any part of one of them. -/
theorem le_length_flatMap {α : Type} {encode : α → List UInt8} {size : α → Nat}
    (le : ∀ item, size item < (encode item).length) (items : List α) :
    items.length ≤ (items.flatMap encode).length ∧
      ∀ item ∈ items, size item ≤ (items.flatMap encode).length := by
  induction items with
  | nil => exact ⟨Nat.le_refl _, nofun⟩
  | cons first items ih =>
    have first_le := le first
    rw [List.flatMap_cons, List.length_append, List.length_cons]
    refine ⟨by omega, ?_⟩
    intro item mem
    obtain rfl | mem := List.mem_cons.mp mem
    · omega
    · have item_le := ih.2 item mem
      omega

end Fastetcd.Bincode
