/-!
# The layout of records

Archives are made of records, whose numbers are little-endian and stand at fixed places behind a
signature of four bytes.
-/

namespace Overlay.Archive

/-- A little-endian number of `width` bytes at a place. -/
def number? (bytes : ByteArray) : (width place : Nat) → Option Nat
  | 0, _ => some 0
  | width + 1, place => do
    let low ← bytes[place]?
    let high ← number? bytes width (place + 1)
    pure (low.toNat + 256 * high)

def slice? (bytes : ByteArray) (place size : Nat) : Option ByteArray :=
  if place + size ≤ bytes.size then some (bytes.extract place (place + size)) else none

def endSignature : Nat := 0x06054B50
def longEndSignature : Nat := 0x06064B50
def locatorSignature : Nat := 0x07064B50
def directorySignature : Nat := 0x02014B50
def fileSignature : Nat := 0x04034B50

/-- Whether a record of the given signature begins at a place. -/
def begins (bytes : ByteArray) (signature place : Nat) : Bool :=
  number? bytes 4 place == some signature

end Overlay.Archive
