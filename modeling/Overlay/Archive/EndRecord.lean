import Overlay.Archive.Layout

/-!
# The end of an archive

An archive ends with a record that says where its directory is. If its numbers do not fit, a
locator right before it leads to a long record that has them. The places that these records state
are counted from where the archive begins: what lies before that shifts all of them by the same
amount.
-/

namespace Overlay.Archive

/-- What the end of an archive says about its directory. -/
structure EndRecord where
  count : Nat
  /-- How much later a place is than stated. -/
  shift : Nat
  directoryStart : Nat
deriving DecidableEq

/-- The places of the end records that are possible, the last one first. -/
def endPlaces (bytes : ByteArray) : List Nat :=
  (List.range bytes.size).reverse.filter (begins bytes endSignature)

structure ShortEnd where
  place : Nat
  disk : Nat
  directoryDisk : Nat
  countHere : Nat
  count : Nat
  directoryStart : Nat

def shortEnd? (bytes : ByteArray) (place : Nat) : Option ShortEnd := do
  let disk ← number? bytes 2 (place + 4)
  let directoryDisk ← number? bytes 2 (place + 6)
  let countHere ← number? bytes 2 (place + 8)
  let count ← number? bytes 2 (place + 10)
  let directoryStart ← number? bytes 4 (place + 16)
  let comment ← number? bytes 2 (place + 20)
  guard (place + 22 + comment ≤ bytes.size)
  pure ⟨place, disk, directoryDisk, countHere, count, directoryStart⟩

/-- Whether a number of the record may have been too large for it. -/
def ShortEnd.overflows (short : ShortEnd) : Bool :=
  short.count == 0xFFFF || short.directoryStart == 0xFFFFFFFF

/-- The directory begins at the first header from the stated place on. -/
def ShortEnd.resolve? (bytes : ByteArray) (short : ShortEnd) : Option EndRecord := do
  guard (short.disk = short.directoryDisk)
  let stated := short.directoryStart
  if short.count = 0 then
    let shift := short.place - stated
    pure ⟨short.countHere, shift, stated + shift⟩
  else
    guard (stated < short.place)
    let start ← (List.range' stated (short.place - stated)).find? fun p =>
      p + 4 ≤ short.place && begins bytes directorySignature p
    pure ⟨short.countHere, start - stated, start⟩

/-- A locator: where the long record is said to be, and on which disk. -/
structure Locator where
  place : Nat
  disk : Nat
  stated : Nat
  disks : Nat

def locator? (bytes : ByteArray) (endPlace : Nat) : Option Locator := do
  guard (20 ≤ endPlace)
  let place := endPlace - 20
  guard (begins bytes locatorSignature place)
  let disk ← number? bytes 4 (place + 4)
  let stated ← number? bytes 8 (place + 8)
  let disks ← number? bytes 4 (place + 16)
  pure ⟨place, disk, stated, disks⟩

structure LongEnd where
  place : Nat
  versionMade : Nat
  versionNeeded : Nat
  disk : Nat
  directoryDisk : Nat
  countHere : Nat
  count : Nat
  directoryStart : Nat

/-- The size of a directory's header without what has a length of its own. -/
def headerSize : Nat := 46

/-- A long end record has to reach up to its locator, and there has to be room for the directory
before it. -/
def longEnd? (bytes : ByteArray) (locator : Locator) (place : Nat) : Option LongEnd := do
  guard (begins bytes longEndSignature place)
  let size ← number? bytes 8 (place + 4)
  guard (44 ≤ size ∧ place + 12 + size = locator.place)
  let versionMade ← number? bytes 2 (place + 12)
  let versionNeeded ← number? bytes 2 (place + 14)
  let disk ← number? bytes 4 (place + 16)
  let directoryDisk ← number? bytes 4 (place + 20)
  let countHere ← number? bytes 8 (place + 24)
  let count ← number? bytes 8 (place + 32)
  let directoryStart ← number? bytes 8 (place + 48)
  guard (directoryDisk = locator.disk)
  guard (count * headerSize + directoryStart ≤ place)
  pure ⟨place, versionMade, versionNeeded, disk, directoryDisk, countHere, count, directoryStart⟩

/-- The first long end record from the stated place on gives the shift. -/
def Locator.resolve? (bytes : ByteArray) (locator : Locator) : Option EndRecord := do
  guard (locator.stated < locator.place ∧ locator.disks ≤ 1)
  let long ← (List.range' locator.stated (locator.place - locator.stated)).findSome?
    (longEnd? bytes locator)
  guard (long.countHere ≤ long.count)
  guard (long.versionNeeded ≤ long.versionMade)
  guard (long.disk = long.directoryDisk)
  let shift := long.place - locator.stated
  pure ⟨long.count, shift, long.directoryStart + shift⟩

/-- What the end record at a place says, by itself or by the long one it stands for. -/
def endRecord? (bytes : ByteArray) (place : Nat) : Option EndRecord := do
  let short ← shortEnd? bytes place
  match if short.overflows then locator? bytes place else none with
  | some locator => locator.resolve? bytes
  | none => short.resolve? bytes

end Overlay.Archive
