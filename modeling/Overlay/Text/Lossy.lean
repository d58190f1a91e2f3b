/-!
# Reading damaged UTF-8

Bytes are read as UTF-8, and every longest run that begins a character but does not complete it,
as well as every byte that begins none, is read as the replacement character.
-/

namespace Overlay.Text

def replacement : Char := '\uFFFD'

/-- What the byte after a first byte must lie between, and how many bytes follow in all. -/
def follow? (b : UInt8) : Option (Nat × UInt8 × UInt8) :=
  if 0xC2 ≤ b ∧ b ≤ 0xDF then some (1, 0x80, 0xBF)
  else if b = 0xE0 then some (2, 0xA0, 0xBF)
  else if b = 0xED then some (2, 0x80, 0x9F)
  else if 0xE1 ≤ b ∧ b ≤ 0xEF then some (2, 0x80, 0xBF)
  else if b = 0xF0 then some (3, 0x90, 0xBF)
  else if b = 0xF4 then some (3, 0x80, 0x8F)
  else if 0xF1 ≤ b ∧ b ≤ 0xF3 then some (3, 0x80, 0xBF)
  else none

/-- The value bits that a first byte of a sequence with `n` following bytes holds. -/
def leadValue (n : Nat) (b : UInt8) : Nat := b.toNat % Nat.pow 2 (6 - n)

/-- A character under way: the value so far, the bytes that are missing, and the bounds of the
next one. -/
structure Unfinished where
  value : Nat
  missing : Nat
  low : UInt8 := 0x80
  high : UInt8 := 0xBF

/-- Begins with a byte: the characters it completes, and the character it starts. -/
def start (b : UInt8) : List Char × Option Unfinished :=
  if b < 0x80 then ([Char.ofNat b.toNat], none)
  else match follow? b with
    | some (n, low, high) => ([], some ⟨leadValue n b, n, low, high⟩)
    | none => ([replacement], none)

def lossyFrom : Option Unfinished → List UInt8 → List Char
  | none, [] => []
  | some _, [] => [replacement]
  | none, b :: rest =>
    let (done, next) := start b
    done ++ lossyFrom next rest
  | some p, b :: rest =>
    if p.low ≤ b ∧ b ≤ p.high then
      let value := p.value * 64 + b.toNat % 64
      if p.missing = 1 then Char.ofNat value :: lossyFrom none rest
      else lossyFrom (some ⟨value, p.missing - 1, 0x80, 0xBF⟩) rest
    else
      let (done, next) := start b
      replacement :: done ++ lossyFrom next rest

def lossy (bytes : List UInt8) : String := String.ofList (lossyFrom none bytes)

end Overlay.Text
