import DurableFlow.Registry
import DurableFlow.Settings
import DurableFlow.Store

/-!
# Assembly

An engine is put together from settings and entries, all or nothing: the settings are checked, then
the registry is built, and only then the store is opened that the settings name, unless one is
supplied.
-/

namespace DurableFlow

/-- Why nothing was put together. -/
inductive AssemblyError
  | settings (error : SettingsError)
  | engine (fault : Fault)
  | store (error : StoreError)

/-- What is done while an engine is put together. -/
inductive Startup
  /-- The factory of an entry runs. -/
  | ran (name : String)
  /-- The store is opened that settings name. -/
  | opened (store : StoreSettings)
  deriving DecidableEq

/-- What an engine is put together from. -/
structure Assembly where
  settings : Settings := {}
  /-- Where the database is to be found that the settings may name. -/
  databases : Databases
  entries : List Entry := []
  services : Services := .empty
  /-- The store that takes the place of the one that the settings name. -/
  supplied : Option Store := none

namespace Assembly

/-- Opens the store that settings name; also tells that it was opened. -/
def openStore (databases : Databases) (s : StoreSettings) :
    List Startup × Except StoreError Store :=
  ([.opened s], match s with
    | .memory => .ok {}
    | .database url connections =>
      (databases.reach url connections).map fun db => { backing := .database db })

/-- Puts an engine together; also tells what was done for it. -/
def build (a : Assembly) : List Startup × Except AssemblyError (Registry × Store) :=
  match a.settings.fault? with
  | some e => ([], .error (.settings e))
  | none =>
    let (ran, result) := Registry.build a.services a.entries
    let done := ran.map Startup.ran
    match result with
    | .error f => (done, .error (.engine f))
    | .ok registry =>
      match a.supplied with
      | some store => (done, .ok (registry, store))
      | none =>
        let (opened, result) := openStore a.databases a.settings.store
        match result with
        | .ok store => (done ++ opened, .ok (registry, store))
        | .error e => (done ++ opened, .error (.store e))

end Assembly

end DurableFlow
