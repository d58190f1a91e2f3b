import Overlay.Root.Basic

/-!
# Roots that answer from tables

A root whose answers are written down one by one. They need not agree with each other, which makes
it the general case of a root that does not change.
-/

namespace Overlay

structure RootTables where
  name : String
  kind : RootKind
  listing : List EntryPath := []
  /-- Keys as they are asked for, each with the path it leads to. -/
  targets : List (String × EntryPath) := []
  contents : List (String × ByteArray) := []
  walk : Walk := .unsupported name

namespace RootTables

def toRoot {σ : Type} (tables : RootTables) : Root σ where
  name := tables.name
  kind := tables.kind
  listing _ := tables.listing
  resolve _ key := tables.targets.lookup key
  walk := tables.walk
  read _ path :=
    match tables.contents.lookup path.render with
    | some bytes => .ok bytes
    | none => .error (.missing path.render tables.name)
  shown _ := "ScriptedRoot(" ++ tables.name ++ ")"

end RootTables

end Overlay
