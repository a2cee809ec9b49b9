import AppRegistry.Json.Reader
import AppRegistry.Records.Store
import AppRegistry.Text.LowerCase

/-!
# Store configuration

Where a registry keeps its records is chosen by two variables or by a JSON document with the name of
the backend under `backend`. The name of a backend is compared in lower case only in a variable.
-/

namespace AppRegistry

/-- Which store to open. -/
inductive StoreConfig where
  | memory
  | disk (root : WrittenPath)
deriving DecidableEq, Repr

/-- Why there is no configuration. -/
inductive ConfigError where
  | unknownBackend (name : String)
  | noDataDirectory
  | malformed
deriving DecidableEq, Repr

/-- The variable that names the backend. -/
def backendVariable : String := "APPMETA_BACKEND"

/-- The variable that names the root of a disk store. -/
def rootVariable : String := "APPMETA_STORE_DIR"

/-- The wording of a configuration error. -/
def ConfigError.message : ConfigError → String
  | unknownBackend name => s!"Invalid configuration: unknown {backendVariable} '{name}'"
  | noDataDirectory =>
    s!"Invalid configuration: no local data directory on this platform; set {rootVariable}"
  | malformed => "Invalid configuration: unexpected form"

namespace StoreConfig

/-- The root of a disk store that is given none: a directory of its own in the local data
directory. -/
def defaultRoot (dataDirectory : WrittenPath) : WrittenPath := dataDirectory ++ "/appmeta"

/-- The configuration in some variables. Without a backend records are kept in memory. -/
def ofVariables (value? : String → Option String) (dataDirectory : Option WrittenPath) :
    Except ConfigError StoreConfig :=
  let name := Text.lower ((value? backendVariable).getD "memory")
  if name = "memory" ∨ name = "mem" then .ok .memory
  else if name = "disk" ∨ name = "local" then
    match value? rootVariable, dataDirectory with
    | none, none | some "", none => .error .noDataDirectory
    | none, some d | some "", some d => .ok (.disk (defaultRoot d))
    | some root, _ => .ok (.disk root)
  else .error (.unknownBackend name)

/-! ## JSON form -/

/-- The only value under a name. -/
def single? (name : String) (fields : List (String × Json)) : Option Json :=
  match fields.filter fun f => f.1 == name with
  | [f] => some f.2
  | _ => none

/-- A configuration is written as an object. It may also be read from a list of the backend and its
fields; other fields of an object are ignored. -/
instance : Codec StoreConfig where
  encode
    | memory => .object [("backend", .string "memory")]
    | disk root => .object [("backend", .string "disk"), ("root", .string root)]
  decode?
    | .object fields =>
      match single? "backend" fields with
      | some (.string "memory") => some memory
      | some (.string "disk") => do return disk (← decode? (← single? "root" fields))
      | _ => none
    | .array [.string "memory"] => some memory
    | .array [.string "disk", root] => do return disk (← decode? root)
    | _ => none

/-- Reads a configuration document. -/
def ofText (s : String) : Except ConfigError StoreConfig :=
  match Json.read? s >>= decode? with
  | some c => .ok c
  | none => .error .malformed

/-! ## Opening the store -/

/-- Opens the store; the root of a disk store is created if it is missing. -/
def openStore : StoreConfig → Disk.Task Store
  | memory => pure (.memory .empty)
  | disk root => do return .disk (← Disk.createAt root)

end StoreConfig

end AppRegistry
