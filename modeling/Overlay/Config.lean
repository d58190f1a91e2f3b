import Overlay.Event
import Overlay.Text.Blank

/-!
# Configuration of a class path

Four settings, each read from an environment variable of its own. A value that is not understood
is reported and the default stands.
-/

namespace Overlay

structure Config where
  /-- Index paths with the custom hash table instead of the standard map. -/
  customTable : Bool := true
  /-- Check every lookup against asking each root in turn. -/
  validate : Bool := false
  /-- Directory roots are expected, so adding one is not worth a warning. -/
  development : Bool := false
  /-- The most archive scans that run at once. -/
  maxScanners : Nat := 4
deriving DecidableEq, Inhabited

namespace Config

inductive Setting where
  | disableCustomTable
  | validate
  | development
  | maxScanners
deriving DecidableEq

def Setting.envName : Setting → String
  | disableCustomTable => "VIRTUAL_CLASSPATH_DISABLE_CUSTOM_TABLE"
  | validate => "VIRTUAL_CLASSPATH_VALIDATE"
  | development => "VIRTUAL_CLASSPATH_DEVELOPMENT"
  | maxScanners => "VIRTUAL_CLASSPATH_MAX_SCANNERS"

/-- The characters of a value between its blanks, if it is UTF-8 at all. -/
def trimmed? (value : ByteArray) : Option (List Char) :=
  (String.fromUTF8? value).map fun s => Text.trim s.toList

def flag? (value : ByteArray) : Option Bool := do
  let word := String.ofList ((← trimmed? value).map Char.toLower)
  if word ∈ ["1", "true", "yes", "on"] then some true
  else if word ∈ ["0", "false", "no", "off", ""] then some false
  else none

def decimal (digits : List Char) : Nat :=
  digits.foldl (fun n c => n * 10 + (c.toNat - '0'.toNat)) 0

/-- A positive number below 2^64, in decimal digits that a plus sign may lead. -/
def count? (value : ByteArray) : Option Nat := do
  let digits := match ← trimmed? value with
    | '+' :: rest => rest
    | cs => cs
  if digits ≠ [] ∧ digits.all Char.isDigit ∧ 0 < decimal digits ∧ decimal digits < UInt64.size then
    some (decimal digits)
  else none

/-- The value of one variable, or the default with a report if the value is not understood. -/
def setting {α : Type} (parse : ByteArray → Option α) (complaint : Event) (default : α) :
    Option ByteArray → Logged α
  | none => pure default
  | some value => match parse value with
    | some a => pure a
    | none => do
      Logged.log complaint
      pure default

def flagOf (lookup : String → Option ByteArray) (s : Setting) (default : Bool) : Logged Bool :=
  setting flag? (.invalidFlag s.envName) default (lookup s.envName)

def ofLookup (lookup : String → Option ByteArray) : Logged Config := do
  let defaults : Config := {}
  let maxScanners ← setting count? (.invalidCount Setting.maxScanners.envName)
    defaults.maxScanners (lookup Setting.maxScanners.envName)
  let disabled ← flagOf lookup .disableCustomTable (!defaults.customTable)
  let validate ← flagOf lookup .validate defaults.validate
  let development ← flagOf lookup .development defaults.development
  pure ⟨!disabled, validate, development, maxScanners⟩

def withMaxScanners (config : Config) (n : Nat) : Config := { config with maxScanners := max n 1 }

def shown (config : Config) : String :=
  Text.record "ClassPathConfig"
    [("custom_table", toString config.customTable), ("validate", toString config.validate),
      ("development", toString config.development),
      ("max_scanners", Nat.repr config.maxScanners)]

end Config

end Overlay
