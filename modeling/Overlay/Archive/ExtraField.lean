import Overlay.Archive.Checksum
import Overlay.Archive.Layout

/-!
# Extra fields

A header may have fields of further kinds, which add to what it says or take its place. A field
that is read is checked, and one that breaks its rules makes the archive unreadable. The fields
end where one is cut off; what it had said by then stays.
-/

namespace Overlay.Archive

structure Amendable where
  rawName : ByteArray
  name : String
  comment : String
  size : Nat
  compressedSize : Nat
  headerStart : Nat
  method : Nat
  /-- Whether a field says how the file is encrypted. -/
  encrypted : Bool := false

inductive Amendment where
  | amended (a : Amendable)
  /-- The field's data ends early, and no other field follows. -/
  | cutOff (a : Amendable)
  | malformed

/-- Nothing is changed, if all of the field is there. -/
def unchanged (extra : ByteArray) (place length : Nat) (a : Amendable) : Amendment :=
  if place + length ≤ extra.size then .amended a else .cutOff a

/-- The number of four bytes that stands for one kept elsewhere. -/
def elsewhere : Nat := 0xFFFFFFFF

/-- Numbers of eight bytes: those that the header keeps elsewhere, or all three if there is room
for them. -/
def wideNumbers (extra : ByteArray) (place length : Nat) (a : Amendable) : Amendment :=
  let takes (n : Nat) : Bool := 24 ≤ length || n == elsewhere
  let after (n place : Nat) : Nat := if takes n then place + 8 else place
  let wide (n place : Nat) : Nat := if takes n then (number? extra 8 place).getD n else n
  let compressedPlace := after a.size place
  let startPlace := after a.compressedSize compressedPlace
  let stop := after a.headerStart startPlace
  let amended := { a with
    size := wide a.size place
    compressedSize := wide a.compressedSize compressedPlace
    headerStart := wide a.headerStart startPlace }
  if extra.size < stop then .cutOff amended
  else if place + length < stop then .malformed
  else .amended amended

/-- Three times of a file in one attribute of its own length. -/
def fileTimes (extra : ByteArray) (place length : Nat) (a : Amendable) : Amendment :=
  if length ≠ 32 then .malformed
  else match number? extra 2 (place + 4), number? extra 2 (place + 6) with
    | some 1, some 24 => unchanged extra place length a
    | some 1, none | none, _ => .cutOff a
    | some _, _ => .malformed

/-- Up to three times of a file. There is one for each flag, unless the length leaves room for
just one. -/
def flaggedTimes (extra : ByteArray) (place length : Nat) (a : Amendable) : Amendment :=
  match number? extra 1 place with
  | none => .cutOff a
  | some flags =>
    let times := (List.range 3).countP flags.testBit
    if flags < 8 ∧ (length = 5 ∨ length = 1 + 4 * times) then unchanged extra place length a
    else .malformed

/-- How a file is encrypted, and the method it had before. -/
def encryption (extra : ByteArray) (place length : Nat) (a : Amendable) : Amendment :=
  if length ≠ 7 then .malformed
  else match number? extra 2 place, number? extra 2 (place + 2), number? extra 1 (place + 4),
      number? extra 2 (place + 5) with
    | some version, some vendor, some strength, some method =>
      if version ∈ [1, 2] ∧ vendor = 0x4541 ∧ strength ∈ [1, 2, 3] then
        .amended { a with method := method, encrypted := true }
      else .malformed
    | _, _, _, _ => .cutOff a

/-- A text in UTF-8 that takes the place of an old one, whose checksum it has to know. -/
def replacement (extra : ByteArray) (place length : Nat) (old : ByteArray) (a : Amendable)
    (put : ByteArray → String → Amendable) : Amendment :=
  match number? extra 4 (place + 1) with
  | none => .cutOff a
  | some crc =>
    if length < 5 then .malformed
    else match slice? extra (place + 5) (length - 5) with
      | none => .cutOff a
      | some new =>
        match String.fromUTF8? new with
        | none => .malformed
        | some text => if (crc32 old).toNat = crc then .amended (put new text) else .malformed

def amendment (extra : ByteArray) (kind place length : Nat) (a : Amendable) : Amendment :=
  match kind with
  | 0x0001 => wideNumbers extra place length a
  | 0x000A => fileTimes extra place length a
  | 0x5455 => flaggedTimes extra place length a
  | 0x6375 => replacement extra place length a.comment.toUTF8 a fun _ text =>
      { a with comment := text }
  | 0x7075 => replacement extra place length a.rawName a fun raw text =>
      { a with rawName := raw, name := text }
  | 0x9901 => encryption extra place length a
  | _ => unchanged extra place length a

/-- Reads extra fields, each of a kind, a length and that many bytes, from a place on. -/
def amend? (extra : ByteArray) (place : Nat) (a : Amendable) : Option Amendable :=
  if place + 4 ≤ extra.size then do
    let kind ← number? extra 2 place
    let length ← number? extra 2 (place + 2)
    match amendment extra kind (place + 4) length a with
    | .amended a => amend? extra (place + 4 + length) a
    | .cutOff a => some a
    | .malformed => none
  else some a
termination_by extra.size - place

end Overlay.Archive
