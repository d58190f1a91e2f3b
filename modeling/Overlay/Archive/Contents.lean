import Overlay.Archive.Directory
import Overlay.Archive.Inflate
import Overlay.IoError

/-!
# The contents of a file in an archive

The file's own header comes before its data, which is stored or deflated. What comes of it has to
have the checksum of the directory; its stated size is not relied on. An archive is kept open and
its bytes may be replaced: where a file's data begins is looked up once and remembered.
-/

namespace Overlay.Archive

structure Source where
  bytes : ByteArray
  /-- Where the data of the files that were read before begins. -/
  known : List (String × Nat) := []

/-- Where the data of the file whose own header is at a place begins. -/
def dataStart? (bytes : ByteArray) (place : Nat) : Option Nat := do
  guard (begins bytes fileSignature place)
  let nameLength ← number? bytes 2 (place + 26)
  let extraLength ← number? bytes 2 (place + 28)
  pure (place + 30 + nameLength + extraLength)

namespace Source

def dataStart? (source : Source) (header : FileHeader) : Option Nat :=
  match source.known.lookup header.name with
  | some start => some start
  | none => Archive.dataStart? source.bytes header.headerStart

def knownAfter (source : Source) (header : FileHeader) : List (String × Nat) :=
  match source.known.lookup header.name, source.dataStart? header with
  | none, some start => (header.name, start) :: source.known
  | _, _ => source.known

end Source

def faultKind : InflateFault → IoKind
  | .malformed => .invalidInput
  | .endedEarly => .unexpectedEof

def contents (source : Source) (header : FileHeader) : Except IoKind ByteArray := do
  if header.encrypted then throw .invalidData
  match source.dataStart? header with
  | none => throw .invalidData
  | some start =>
    let stop := min (start + header.compressedSize) source.bytes.size
    let raw := source.bytes.extract start stop
    let data ←
      match header.method with
      | 0 => pure raw
      | 8 => (inflate raw).mapError faultKind
      | _ => throw .invalidData
    if (crc32 data).toNat ≠ header.crc then throw .invalidData
    pure data

end Overlay.Archive
