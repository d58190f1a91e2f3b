import Overlay.Archive.EndRecord
import Overlay.Archive.ExtraField
import Overlay.Text.CodePage437
import Overlay.Text.Lossy

/-!
# The directory of an archive

The directory has a header for every file, and all files come before it. Otherwise what a header
says is taken as it is: that the file's own header is where it should be shows when the file is
read.
-/

namespace Overlay.Archive

structure FileHeader where
  name : String
  method : Nat
  encrypted : Bool
  crc : Nat
  compressedSize : Nat
  /-- Where the file's own header should be. -/
  headerStart : Nat
deriving DecidableEq

/-- The method number that stands for encryption with a method of its own. -/
def sealedMethod : Nat := 99

/-- A text of an archive, in UTF-8 or in the code page that is usual otherwise. -/
def textOf (utf8 : Bool) (raw : ByteArray) : String :=
  if utf8 then Text.lossy raw.data.toList
  else String.ofList (raw.data.toList.map Text.codePage437)

/-- Reads the directory's header at a place and says where the next one is. -/
def fileHeader? (bytes : ByteArray) (ends : EndRecord) (place : Nat) :
    Option (FileHeader × Nat) := do
  guard (begins bytes directorySignature place)
  let flags ← number? bytes 2 (place + 8)
  let method ← number? bytes 2 (place + 10)
  let crc ← number? bytes 4 (place + 16)
  let compressedSize ← number? bytes 4 (place + 20)
  let size ← number? bytes 4 (place + 24)
  let nameLength ← number? bytes 2 (place + 28)
  let extraLength ← number? bytes 2 (place + 30)
  let commentLength ← number? bytes 2 (place + 32)
  let headerStart ← number? bytes 4 (place + 42)
  let namePlace := place + headerSize
  let extraPlace := namePlace + nameLength
  let commentPlace := extraPlace + extraLength
  let rawName ← slice? bytes namePlace nameLength
  let extra ← slice? bytes extraPlace extraLength
  let rawComment ← slice? bytes commentPlace commentLength
  let utf8 := flags.testBit 11
  let a ← amend? extra 0
    { rawName, name := textOf utf8 rawName, comment := textOf utf8 rawComment, size
      compressedSize, headerStart, method }
  guard (a.method ≠ sealedMethod ∨ a.encrypted)
  let headerStart := a.headerStart + ends.shift
  guard (headerStart < ends.directoryStart)
  let encrypted := flags.testBit 0 || a.encrypted
  pure (⟨a.name, a.method, encrypted, crc, a.compressedSize, headerStart⟩,
    commentPlace + commentLength)

def fileHeaders? (bytes : ByteArray) (ends : EndRecord) : (count place : Nat) →
    Option (List FileHeader)
  | 0, _ => some []
  | count + 1, place => do
    let (header, next) ← fileHeader? bytes ends place
    let rest ← fileHeaders? bytes ends count next
    pure (header :: rest)

/-- Of the files of one name, the last one at the place of the first. -/
def byName (headers : List FileHeader) : List FileHeader :=
  headers.foldl (fun kept header =>
    if kept.any (·.name == header.name) then
      kept.map fun k => if k.name == header.name then header else k
    else kept ++ [header]) []

def directory? (bytes : ByteArray) : Option (List FileHeader) :=
  (endPlaces bytes).findSome? fun place => do
    let ends ← endRecord? bytes place
    byName <$> fileHeaders? bytes ends ends.count ends.directoryStart

end Overlay.Archive
