import Overlay.Text.Quoted

/-!
# Events worth a line in the log

Every event is a constructor with what it is about; `Event.level`, `Event.message` and
`Event.fields` say how it is reported. `Logged` is a value together with the events on the way
to it.

Some fields of a report are left out, since nothing here reads them: how long an indexed archive
took (`elapsed`), what a failed scan failed with (`error`), which value of a variable was refused
(`value`), and from where the path that every root has was asked for (`backtrace`). Events for
debugging are left out as a whole, and so is that of a worker for which no thread could be started.
-/

namespace Overlay

inductive Level where
  | trace
  | info
  | warn
  | error
deriving DecidableEq

namespace Level

def name : Level → String
  | trace => "TRACE"
  | info => "INFO"
  | warn => "WARN"
  | error => "ERROR"

end Level

structure LookupDetail where
  operation : String
  path : String
  fallback : String
  index : String
  found : String
deriving DecidableEq

inductive Event where
  /-- The path table moved to more buckets. -/
  | grown (capacity newCapacity : Nat)
  | indexed (root : String) (folders files : Nat)
  /-- A walk came to its root directory a second time. -/
  | rootRepeated (root : String) (folders files : Nat)
  | scanFailed (root : String)
  | scanCrashed
  | writableRoot (root : String)
  | unindexedRoot (root : String)
  | unlistedRoot (root : String)
  /-- Several roots have the path of the key, and a lookup wanted one of them. -/
  | ambiguous (key : String) (roots : List String)
  | escapingEntry (archive entry : String)
  | invalidFlag (key : String)
  | invalidCount (key : String)
  | detail (lookup : LookupDetail)
  | mismatch (operation path report : String)
deriving DecidableEq

inductive FieldValue where
  | text (s : String)
  | number (n : Nat)
deriving DecidableEq

namespace Event

def level : Event → Level
  | grown .. | detail _ => .trace
  | indexed .. | rootRepeated .. => .info
  | scanCrashed | mismatch .. => .error
  | _ => .warn

def message : Event → String
  | grown .. => "Growing the path table"
  | indexed .. => "Indexed archive"
  | rootRepeated .. =>
    "Ending the scan early, encountered the root directory multiple times"
  | scanFailed _ => "Failed to index archive, lookups will keep asking it directly"
  | scanCrashed => "A scan task panicked"
  | writableRoot _ =>
    "Adding a read/write memory root to the class path, every lookup will have to ask it directly"
  | unindexedRoot _ =>
    "Adding an unindexed root to the class path, every lookup will have to ask it directly"
  | unlistedRoot _ =>
    "Read-only memory root lists no entries, every lookup will have to ask it directly"
  | ambiguous key _ =>
    if key = "/" then "Every root contains '/', but only a single one can be returned!"
    else "Multiple paths added for '" ++ key ++ "', but only a single one can be returned!"
  | escapingEntry .. => "Skipping archive entry which escapes the archive root"
  | invalidFlag _ => "Ignoring invalid boolean flag"
  | invalidCount _ => "Ignoring invalid scanner count, expected a positive integer"
  | detail lookup => lookup.operation
  | mismatch _ _ report => "Class path lookup mismatch\n" ++ report

def fields : Event → List (String × FieldValue)
  | grown capacity newCapacity => [("from", .number capacity), ("to", .number newCapacity)]
  | indexed root folders files | rootRepeated root folders files =>
    [("root", .text root), ("folders", .number folders), ("files", .number files)]
  | scanFailed root | writableRoot root | unindexedRoot root | unlistedRoot root =>
    [("root", .text root)]
  | scanCrashed => []
  | ambiguous _ roots => [("roots", .text (Text.bracketed (roots.map Text.quoted)))]
  | escapingEntry archive entry => [("archive", .text archive), ("entry", .text entry)]
  | invalidFlag key | invalidCount key => [("key", .text key)]
  | detail lookup =>
    [("path", .text lookup.path), ("fallback", .text lookup.fallback),
      ("index", .text lookup.index), ("found", .text lookup.found)]
  | mismatch operation path _ => [("operation", .text operation), ("path", .text path)]

end Event

/-- A value and the events logged on the way to it, the first one first. -/
structure Logged (α : Type) where
  value : α
  events : List Event

namespace Logged

variable {α β : Type}

def log (event : Event) : Logged Unit := ⟨(), [event]⟩

instance : Monad Logged where
  pure a := ⟨a, []⟩
  bind x f := ⟨(f x.value).value, x.events ++ (f x.value).events⟩

@[simp] theorem value_pure (a : α) : (pure a : Logged α).value = a := rfl

@[simp] theorem events_pure (a : α) : (pure a : Logged α).events = [] := rfl

@[simp] theorem value_bind (x : Logged α) (f : α → Logged β) :
    (x >>= f).value = (f x.value).value := rfl

@[simp] theorem events_bind (x : Logged α) (f : α → Logged β) :
    (x >>= f).events = x.events ++ (f x.value).events := rfl

@[simp] theorem value_map (f : α → β) (x : Logged α) : (f <$> x).value = f x.value := rfl

@[simp] theorem events_map (f : α → β) (x : Logged α) : (f <$> x).events = x.events := by
  simp [Functor.map]

instance : LawfulMonad Logged :=
  LawfulMonad.mk' Logged
    (fun x => by cases x; simp [Functor.map])
    (fun _ _ => rfl)
    (fun x f g => by simp [bind])

end Logged

end Overlay
