import DurableFlow.Json.Slots
import DurableFlow.Text

/-!
# Settings

The settings of an engine say where positions are kept and what is logged. They are written as a
record, in which every slot may be left out. Decoding (`Settings.decode`) checks the form alone and
`Settings.check` the contents; `Settings.read` does both. `Settings.toJson` writes settings.
-/

namespace DurableFlow

/-- Where positions are kept. -/
inductive StoreSettings
  | memory
  | database (url : String) (maxConnections : UInt32)
  deriving DecidableEq, Repr

/-- The settings of an engine. -/
structure Settings where
  store : StoreSettings := .memory
  logFilter : String := "info"
  deriving DecidableEq, Repr

/-- What is wrong with settings. -/
inductive SettingsError
  /-- The file cannot be read, or is not text. -/
  | unreadable (path : String)
  /-- The text is not of the form of settings. -/
  | malformed
  | blankFilter
  | blankUrl
  | noConnections
  deriving DecidableEq, Repr

namespace SettingsError

def message : SettingsError → String
  | unreadable path => "failed to read config file " ++ path
  | malformed => "invalid config JSON"
  | blankFilter => "invalid config: log_filter must not be empty"
  | blankUrl => "invalid config: sqlite store url must not be empty"
  | noConnections => "invalid config: sqlite store max_connections must be at least 1"

end SettingsError

namespace StoreSettings

/-- The number of connections where none is given. -/
def defaultConnections : UInt32 := 5

/-- The store of a kind with the slots of that kind. -/
def ofSlots (kind : String) (slots : List String → Option (List (Option Document))) :
    Option StoreSettings :=
  if kind = "memory" then (slots []).map fun _ => memory
  else if kind = "sqlite" then do
    let found ← slots ["url", "max_connections"]
    match found with
    | [some url, none] => return database (← url.text?) defaultConnections
    | [some url, some max] =>
      return database (← url.text?) (UInt32.ofNat (← max.natBelow? UInt32.size))
    | _ => none
  else none

/-- Decodes a store: an object with its kind as the field `type`, or a list that starts with it. -/
def decode : Document → Option StoreSettings
  | .object fields => do
    let kind ← (← Document.slot? "type" fields)
    let rest := fields.filter fun f => f.1 != some "type"
    ofSlots (← kind.text?) fun names => Document.slots names false (.object rest)
  | .list (kind :: rest) => do
    ofSlots (← kind.text?) fun names => Document.slots names false (.list rest)
  | _ => none

/-- What is wrong with the contents. -/
def fault? : StoreSettings → Option SettingsError
  | memory => none
  | database url maxConnections =>
    if isBlank url then some .blankUrl
    else if maxConnections = 0 then some .noConnections
    else none

/-- The store as it is written. -/
def toJson : StoreSettings → Json
  | memory => Json.ofFields [("type", .text "memory")]
  | database url maxConnections =>
    Json.ofFields [("type", .text "sqlite"), ("url", .text url),
      ("max_connections", Json.ofNat maxConnections.toNat)]

end StoreSettings

namespace Settings

/-- Decodes settings; the document of the store has to have a value as a whole. -/
def decode (d : Document) : Option Settings := do
  match ← d.slots ["store", "log_filter"] true with
  | [store, filter] =>
    let store ← match store with
      | some store => do
        let _ ← store.valueWithin (Document.depthLimit - 1)
        StoreSettings.decode store
      | none => some .memory
    let logFilter ← match filter with
      | some filter => filter.text?
      | none => some "info"
    return { store, logFilter }
  | _ => none

/-- What is wrong with the contents; the filter is looked at first. -/
def fault? (s : Settings) : Option SettingsError :=
  if isBlank s.logFilter then some .blankFilter else s.store.fault?

/-- The settings, unless something is wrong with their contents. -/
def check (s : Settings) : Except SettingsError Settings :=
  match s.fault? with
  | some e => .error e
  | none => .ok s

/-- The settings that a text is. -/
def read (s : String) : Except SettingsError Settings :=
  match (Document.read s).bind decode with
  | some settings => settings.check
  | none => .error .malformed

/-- The settings that the bytes of a file are, if there is such a file. -/
def load (path : String) (content : Option ByteArray) : Except SettingsError Settings :=
  match content.bind String.fromUTF8? with
  | some s => read s
  | none => .error (.unreadable path)

/-- The settings as they are written. -/
def toJson (s : Settings) : Json :=
  Json.ofFields [("store", s.store.toJson), ("log_filter", .text s.logFilter)]

end Settings

end DurableFlow
