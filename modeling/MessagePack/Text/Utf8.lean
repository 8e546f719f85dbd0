namespace MessagePack.Text

def utf8 (s : String) : List UInt8 :=
  s.toUTF8.data.toList

/-- The text that the bytes spell, if they are UTF-8. -/
def ofUtf8? (bytes : List UInt8) : Option String :=
  String.fromUTF8? ⟨bytes.toArray⟩

/-- Where bytes stop being UTF-8: after `index` good bytes come `length` bytes that no continuation
can mend, or a sequence that the end of the input cuts short. -/
structure Utf8Fault where
  index : Nat
  length : Option Nat
  deriving DecidableEq, Repr

def Utf8Fault.message (fault : Utf8Fault) : String :=
  match fault.length with
  | some n => s!"invalid utf-8 sequence of {n} bytes from index {fault.index}"
  | none => s!"incomplete utf-8 byte sequence from index {fault.index}"

/-- The ranges that the bytes after a lead byte must lie in; nothing for a byte that leads none.
The first range is narrower where a longer form, a surrogate or too large a number would slip in. -/
def followers? (lead : UInt8) : Option (List (UInt8 × UInt8)) :=
  let any : UInt8 × UInt8 := (0x80, 0xbf)
  if lead < 0x80 then some []
  else if lead < 0xc2 then none
  else if lead < 0xe0 then some [any]
  else if lead = 0xe0 then some [(0xa0, 0xbf), any]
  else if lead = 0xed then some [(0x80, 0x9f), any]
  else if lead < 0xf0 then some [any, any]
  else if lead = 0xf0 then some [(0x90, 0xbf), any, any]
  else if lead < 0xf4 then some [any, any, any]
  else if lead = 0xf4 then some [(0x80, 0x8f), any, any]
  else none

/-- How a sequence turns out: `n` good bytes, `n` bytes beyond repair, or cut short. -/
inductive Sequence where
  | whole (n : Nat)
  | broken (n : Nat)
  | cut
  deriving DecidableEq, Repr

def Sequence.follow : List (UInt8 × UInt8) → List UInt8 → Nat → Sequence
  | [], _, n => .whole n
  | _ :: _, [], _ => .cut
  | (low, high) :: ranges, b :: rest, n =>
    if low ≤ b ∧ b ≤ high then follow ranges rest (n + 1) else .broken n

def Sequence.start (lead : UInt8) (rest : List UInt8) : Sequence :=
  match followers? lead with
  | none => .broken 1
  | some ranges => follow ranges rest 1

/-- The first fault after `index` bytes, of which the next `skip` belong to a good sequence. -/
def utf8FaultFrom : Nat → Nat → List UInt8 → Option Utf8Fault
  | _, _, [] => none
  | skip + 1, index, _ :: rest => utf8FaultFrom skip (index + 1) rest
  | 0, index, lead :: rest =>
    match Sequence.start lead rest with
    | .whole n => utf8FaultFrom (n - 1) (index + 1) rest
    | .broken n => some ⟨index, some n⟩
    | .cut => some ⟨index, none⟩

def utf8Fault? (bytes : List UInt8) : Option Utf8Fault :=
  utf8FaultFrom 0 0 bytes

/-- The bytes of U+FFFD, which stands for what cannot be read. -/
def replacement : List UInt8 := [0xef, 0xbf, 0xbd]

def mendFrom : Nat → List UInt8 → List UInt8
  | _, [] => []
  | skip + 1, _ :: rest => mendFrom skip rest
  | 0, lead :: rest =>
    match Sequence.start lead rest with
    | .whole n => (lead :: rest).take n ++ mendFrom (n - 1) rest
    | .broken n => replacement ++ mendFrom (n - 1) rest
    | .cut => replacement

/-- The text of any bytes: each stretch beyond repair, and a sequence cut short, reads as U+FFFD. -/
def mend (bytes : List UInt8) : String :=
  (ofUtf8? (mendFrom 0 bytes)).getD ""

end MessagePack.Text
