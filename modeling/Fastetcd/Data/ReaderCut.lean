import Fastetcd.Data.Bincode

/-!
# Readers and cut input

A reader that answers from the bytes it has read answers the same in front of more bytes (`Local`).
So one that reads a value back from its encoding fails on an encoding that is cut short.
-/

namespace Fastetcd.Bincode

variable {α β : Type}

/-- `Vec<T>`, `String` and structs are read one part after the other. -/
def Reader.andThen (read : Reader α) (next : α → Reader β) : Reader β := fun bytes => do
  let (a, rest) ← read bytes
  next a rest

def Reader.value (a : α) : Reader α := fun bytes => some (a, bytes)

/-- Where `read` fails or `check` does, reading fails. -/
def Reader.filterMap (read : Reader α) (check : α → Option β) : Reader β := fun bytes => do
  let (a, rest) ← read bytes
  let b ← check a
  some (b, rest)

def Local (read : Reader α) : Prop :=
  ∀ bytes a rest, read bytes = some (a, rest) →
    ∀ more, read (bytes ++ more) = some (a, rest ++ more)

/-- `bytes` read back as `a`, whatever comes after them. -/
def Reads (read : Reader α) (bytes : List UInt8) (a : α) : Prop :=
  ∀ rest, read (bytes ++ rest) = some (a, rest)

theorem Reads.cut {read : Reader α} {bytes part : List UInt8} {a : α} (reads : Reads read bytes a)
    (isLocal : Local read) (before : part <+: bytes) (shorter : part ≠ bytes) : read part = none := by
  obtain ⟨more, rfl⟩ := before
  cases found : read part with
  | none => rfl
  | some result =>
    have whole := reads []
    rw [List.append_nil, isLocal part result.1 result.2 found more] at whole
    have nothing : result.2 ++ more = [] := congrArg Prod.snd (Option.some.inj whole)
    rw [(List.append_eq_nil_iff.mp nothing).2, List.append_nil] at shorter
    exact absurd rfl shorter

/-! ## Combinators -/

theorem Local.value (a : α) : Local (Reader.value a) := by
  intro bytes b rest read more
  cases read
  rfl

theorem Local.andThen {read : Reader α} {next : α → Reader β} (first : Local read)
    (second : ∀ a, Local (next a)) : Local (read.andThen next) := by
  intro bytes b rest found more
  rw [Reader.andThen, Option.bind_eq_bind, Option.bind_eq_some_iff] at found
  obtain ⟨⟨a, mid⟩, here, there⟩ := found
  rw [Reader.andThen, first bytes a mid here more]
  exact second a mid b rest there more

theorem Local.filterMap {read : Reader α} {check : α → Option β} (first : Local read) :
    Local (read.filterMap check) := by
  intro bytes b rest found more
  rw [Reader.filterMap, Option.bind_eq_bind, Option.bind_eq_some_iff] at found
  obtain ⟨⟨a, mid⟩, here, there⟩ := found
  simp only [Option.bind_eq_bind, Option.bind_eq_some_iff, Option.some.injEq, Prod.mk.injEq] at there
  obtain ⟨b', checked, rfl, rfl⟩ := there
  rw [Reader.filterMap, first bytes a mid here more]
  simp only [Option.bind_eq_bind, Option.bind_some, checked]

theorem Reads.value (a : α) : Reads (Reader.value a) [] a := fun _ => rfl

theorem Reads.andThen {read : Reader α} {next : α → Reader β} {u v : List UInt8} {a : α} {b : β}
    (first : Reads read u a) (second : Reads (next a) v b) :
    Reads (read.andThen next) (u ++ v) b := by
  intro rest
  rw [Reader.andThen, List.append_assoc, first]
  exact second rest

theorem Reads.filterMap {read : Reader α} {check : α → Option β} {u : List UInt8} {a : α} {b : β}
    (first : Reads read u a) (checked : check a = some b) : Reads (read.filterMap check) u b := by
  intro rest
  rw [Reader.filterMap, first]
  simp only [Option.bind_eq_bind, Option.bind_some, checked]

/-! ## The format's readers -/

theorem Local.readNat (width : Nat) : Local (readNat width) := by
  intro bytes n rest found more
  rw [Bincode.readNat] at found
  split at found
  · rename_i long
    cases found
    have longer : width ≤ (bytes ++ more).length := by
      rw [List.length_append]
      omega
    rw [Bincode.readNat, if_pos longer, List.take_append_of_le_length long,
      List.drop_append_of_le_length long]
  · cases found

/-- As many bytes as a count said. -/
def readCounted (n : Nat) : Reader (List UInt8) := fun bytes =>
  if n ≤ bytes.length then some (bytes.take n, bytes.drop n) else none

theorem Local.readCounted (n : Nat) : Local (readCounted n) := by
  intro bytes a rest found more
  rw [Bincode.readCounted] at found
  split at found
  · rename_i long
    cases found
    have longer : n ≤ (bytes ++ more).length := by
      rw [List.length_append]
      omega
    rw [Bincode.readCounted, if_pos longer, List.take_append_of_le_length long,
      List.drop_append_of_le_length long]
  · cases found

theorem Local.readBytes : Local readBytes :=
  show Local ((Bincode.readNat 8).andThen Bincode.readCounted) from
    Local.andThen (Local.readNat 8) Local.readCounted

theorem Local.readString : Local readString :=
  show Local (Bincode.readBytes.filterMap fromUtf8) from Local.filterMap Local.readBytes

theorem Local.readItems {read : Reader α} (each : Local read) (n : Nat) :
    Local (readItems read n) := by
  induction n with
  | zero => exact Local.value []
  | succ n ih =>
    show Local (read.andThen fun item => (Bincode.readItems read n).andThen fun items =>
      Reader.value (item :: items))
    exact Local.andThen each fun item => Local.andThen ih fun items => Local.value (item :: items)

theorem Local.readList {read : Reader α} (each : Local read) : Local (readList read) :=
  show Local ((Bincode.readNat 8).andThen fun n => Bincode.readItems read n) from
    Local.andThen (Local.readNat 8) fun n => Local.readItems each n

/-! ## `u64` and `Option` -/

def encodeU64 (n : UInt64) : List UInt8 := leBytes 8 n.toNat

def readU64 : Reader UInt64 := (readNat 8).filterMap fun n => some (UInt64.ofNat n)

def encodeOption (encode : α → List UInt8) : Option α → List UInt8
  | none => [0]
  | some a => 1 :: encode a

def readByte : Reader UInt8
  | [] => none
  | b :: rest => some (b, rest)

/-- One byte, `0` or `1`, and after a `1` the value. -/
def readOption (read : Reader α) : Reader (Option α) := readByte.andThen fun tag =>
  if tag = 0 then .value none
  else if tag = 1 then read.andThen fun a => .value (some a)
  else fun _ => none

theorem length_encodeU64 (n : UInt64) : (encodeU64 n).length = 8 := length_leBytes 8 _

theorem Reads.u64 (n : UInt64) : Reads readU64 (encodeU64 n) n := by
  have read : Reads (Bincode.readNat 8) (encodeU64 n) n.toNat := readNat_leBytes n.toNat_lt
  refine Reads.filterMap read ?_
  rw [UInt64.ofNat_toNat]

theorem Local.readU64 : Local readU64 := Local.filterMap (Local.readNat 8)

theorem Reads.byte (b : UInt8) : Reads readByte [b] b := fun _ => rfl

theorem Local.readByte : Local readByte := by
  intro bytes b rest found more
  cases bytes with
  | nil => cases found
  | cons b bytes =>
    cases found
    rfl

theorem Reads.option {encode : α → List UInt8} {read : Reader α} {v : Option α}
    (each : ∀ a ∈ v, Reads read (encode a) a) : Reads (readOption read) (encodeOption encode v) v := by
  cases v with
  | none => exact Reads.andThen (Reads.byte 0) (Reads.value none)
  | some a =>
    have value : Reads (read.andThen fun a => .value (some a)) (encode a ++ []) (some a) :=
      Reads.andThen (each a rfl) (Reads.value (some a))
    rw [List.append_nil] at value
    exact Reads.andThen (Reads.byte 1) value

theorem Local.readOption {read : Reader α} (each : Local read) : Local (readOption read) := by
  refine Local.andThen Local.readByte fun tag => ?_
  split
  · exact Local.value none
  · split
    · exact Local.andThen each fun a => Local.value (some a)
    · exact fun _ _ _ found => nomatch found

theorem Reads.string {s : String} (fits : (asBytes s).length < 256 ^ 8) :
    Reads Bincode.readString (encodeString s) s := readString_encodeString fits

theorem Reads.bytes {bytes : List UInt8} (fits : bytes.length < 256 ^ 8) :
    Reads Bincode.readBytes (encodeBytes bytes) bytes := readBytes_encodeBytes fits

theorem Reads.list {encode : α → List UInt8} {read : Reader α} {items : List α}
    (fits : items.length < 256 ^ 8) (each : ∀ item ∈ items, Reads read (encode item) item) :
    Reads (Bincode.readList read) (encodeList encode items) items := readList_encodeList fits each

end Fastetcd.Bincode
