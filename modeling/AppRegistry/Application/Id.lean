import AppRegistry.Json.Codec

/-!
# Identifiers

Accounts hold applications, applications hold programs, and programs run. An identifier is a plain
value: whether its names can stand in a storage key is decided where a key is built.
-/

namespace AppRegistry

/-- An account, which scopes applications, streams and datasets. -/
structure AccountId where
  name : String
deriving DecidableEq, Repr, Ord

/-- An application, unique within its account. -/
structure ApplicationId where
  account : AccountId
  name : String
deriving DecidableEq, Repr, Ord

/-- A program, unique within its application. Its kind is no part of the identifier. -/
structure ProgramId where
  application : ApplicationId
  name : String
deriving DecidableEq, Repr, Ord

/-- One execution of a program, as its caller names it. -/
structure RunId where
  name : String
deriving DecidableEq, Repr, Ord

/-- The application of an account with a name. -/
def AccountId.application (a : AccountId) (name : String) : ApplicationId := ⟨a, name⟩

/-- The program of an application with a name. -/
def ApplicationId.program (a : ApplicationId) (name : String) : ProgramId := ⟨a, name⟩

/-- The account of a program. -/
def ProgramId.account (p : ProgramId) : AccountId := p.application.account

/-! ## Written forms -/

/-- The names with slashes between them. -/
def ApplicationId.text (a : ApplicationId) : String := a.account.name ++ "/" ++ a.name

/-- The names with slashes between them. -/
def ProgramId.text (p : ProgramId) : String := p.application.text ++ "/" ++ p.name

instance : Codec AccountId where
  encode a := encode a.name
  decode? j := (decode? j).map AccountId.mk

instance : Codec RunId where
  encode r := encode r.name
  decode? j := (decode? j).map RunId.mk

instance : Codec ApplicationId where
  encode a := .object [("account", encode a.account), ("name", encode a.name)]
  decode? j := do
    let f ← Json.readFields? ["account", "name"] j
    pure ⟨← f.required "account", ← f.required "name"⟩

instance : Codec ProgramId where
  encode p := .object [("application", encode p.application), ("name", encode p.name)]
  decode? j := do
    let f ← Json.readFields? ["application", "name"] j
    pure ⟨← f.required "application", ← f.required "name"⟩

end AppRegistry
