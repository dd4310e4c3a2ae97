import Dragon.Text.Hex

/-!
# Reading UTF-8

Bytes that are no UTF-8 are reported with the position of the first sequence that fails: the faulty
byte, or the range of the bytes of the sequence that were still good.
-/
namespace Dragon.Text.Utf8

inductive Reason where
  | invalidStart
  | invalidContinuation
  | unexpectedEnd
  deriving DecidableEq, Repr

/-- The bytes from `first` to `last` are not the text of a character. -/
structure Fault where
  byte : Nat
  first : Nat
  last : Nat
  reason : Reason
  deriving DecidableEq, Repr

def Reason.text : Reason → String
  | .invalidStart => "invalid start byte"
  | .invalidContinuation => "invalid continuation byte"
  | .unexpectedEnd => "unexpected end of data"

def Fault.message (f : Fault) : String :=
  let place :=
    if f.first == f.last then
      s!"byte 0x{String.ofList (hex 2 f.byte)} in position {f.first}"
    else s!"bytes in position {f.first}-{f.last}"
  s!"'utf-8' codec can't decode {place}: {f.reason.text}"

/-- The continuation bytes that a leading byte asks for: the range of the first one, and how many
follow it. -/
def continuation? (lead : Nat) : Option (Nat × Nat × Nat) :=
  if 0xC2 ≤ lead && lead ≤ 0xDF then some (0x80, 0xBF, 0)
  else if lead == 0xE0 then some (0xA0, 0xBF, 1)
  else if lead == 0xED then some (0x80, 0x9F, 1)
  else if 0xE1 ≤ lead && lead ≤ 0xEF then some (0x80, 0xBF, 1)
  else if lead == 0xF0 then some (0x90, 0xBF, 2)
  else if 0xF1 ≤ lead && lead ≤ 0xF3 then some (0x80, 0xBF, 2)
  else if lead == 0xF4 then some (0x80, 0x8F, 2)
  else none

/-- The first fault at or after a position. The sequence in progress started with `lead` at
`start` and still wants a byte between `low` and `high` and `more` bytes after that; `none` means
that a new sequence starts. -/
def findFault (pos : Nat) (open? : Option (Nat × Nat × Nat × Nat × Nat)) :
    List Nat → Option Fault
  | [] => open?.map fun (lead, start, _) => ⟨lead, start, pos - 1, .unexpectedEnd⟩
  | b :: rest =>
    match open? with
    | some (lead, start, low, high, more) =>
      if low ≤ b && b ≤ high then
        match more with
        | 0 => findFault (pos + 1) none rest
        | more + 1 => findFault (pos + 1) (some (lead, start, 0x80, 0xBF, more)) rest
      else some ⟨lead, start, pos - 1, .invalidContinuation⟩
    | none =>
      if b < 0x80 then findFault (pos + 1) none rest
      else match continuation? b with
        | some (low, high, more) => findFault (pos + 1) (some (b, pos, low, high, more)) rest
        | none => some ⟨b, pos, pos, .invalidStart⟩

/-- The text that bytes encode. -/
def decode (bytes : ByteArray) : Except Fault String :=
  match String.fromUTF8? bytes with
  | some text => .ok text
  | none => .error ((findFault 0 none (bytes.toList.map (·.toNat))).getD ⟨0, 0, 0, .invalidStart⟩)

end Dragon.Text.Utf8
