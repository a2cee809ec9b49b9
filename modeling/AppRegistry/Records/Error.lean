import AppRegistry.Files.Tree
import AppRegistry.Key.Basic

/-!
# Storage errors

What can go wrong between a transaction and the place where its records are kept. A missing record
is no error.
-/

namespace AppRegistry

/-- Why a directory cannot be the root of a store. -/
inductive RootFault where
  | unreachable (cause : FileError)
  | notADirectory
deriving DecidableEq, Repr

/-- A failure of the storage layer. -/
inductive StorageError where
  | key (cause : KeyError)
  /-- A value that has no JSON form. -/
  | serialization (key : Key) (reason : String)
  /-- A record that does not have the form asked for, or is no JSON at all. -/
  | deserialization (key : Key)
  | rootInvalid (path : String) (fault : RootFault)
  | io (path : String) (cause : FileError)
  | journal (path : String)
  | poisoned
deriving DecidableEq, Repr

/-- The wording of a file error. -/
def FileError.message : FileError → String
  | .notFound => "no such file or directory"
  | .notADirectory => "not a directory"
  | .isADirectory => "is a directory"
  | .alreadyExists => "file exists"
  | .notEmpty => "directory not empty"
  | .nameTooLong => "file name too long"
  | .invalidName => "invalid file name"
  | .intoItself => "directory moved into itself"

/-- The wording of a root fault. -/
def RootFault.message : RootFault → String
  | .unreachable cause => cause.message
  | .notADirectory => "Root path must be a directory."

/-- The wording of a storage error. -/
def StorageError.message : StorageError → String
  | .key cause => cause.message
  | .serialization k reason =>
    s!"An error occurred while serializing the record at '{k.text}': {reason}"
  | .deserialization k =>
    s!"An error occurred while deserializing the record at '{k.text}': unexpected form"
  | .rootInvalid path fault => s!"Store root '{path}' is invalid: {fault.message}"
  | .io path cause => s!"I/O failure on '{path}': {cause.message}"
  | .journal path => s!"Commit journal '{path}' is unreadable: unexpected form"
  | .poisoned => "The store lock was poisoned by a panicking transaction"

end AppRegistry
