/-!
# Hash of a path

The hash of a text is the polynomial of its UTF-8 bytes at 31, modulo 2^32. It can be continued:
hashing a text that goes on needs only the hash of its beginning.
-/

namespace Overlay

def utf8 (s : String) : List UInt8 := s.toByteArray.data.toList

@[simp] theorem utf8_append (s t : String) : utf8 (s ++ t) = utf8 s ++ utf8 t := by
  simp [utf8, String.toByteArray_append]

@[simp] theorem utf8_inj {s t : String} : utf8 s = utf8 t ↔ s = t := by
  constructor
  · intro h
    rw [← String.toByteArray_inj]
    exact ByteArray.ext (Array.toList_inj.1 h)
  · rintro rfl; rfl

def hashByte (hash : UInt32) (b : UInt8) : UInt32 := hash * 31 + b.toUInt32

def hashFrom (seed : UInt32) (bytes : List UInt8) : UInt32 := bytes.foldl hashByte seed

@[simp] theorem hashFrom_nil (seed : UInt32) : hashFrom seed [] = seed := rfl

@[simp] theorem hashFrom_append (seed : UInt32) (a b : List UInt8) :
    hashFrom seed (a ++ b) = hashFrom (hashFrom seed a) b := List.foldl_append

def hashText (s : String) : UInt32 := hashFrom 0 (utf8 s)

end Overlay
