import AppRegistry.Registry.Error
import AppRegistry.Registry.Layout
import AppRegistry.Registry.Record

/-!
# Applications and catalogs

The transactions over the applications of an account and over its catalog of streams and datasets.
The catalog gains what a deployed specification declares and loses nothing when an application goes.

A name that cannot stand in a key belongs to nothing that is stored: a question about it finds
nothing, and a removal does nothing.
-/

namespace AppRegistry

open RegistryTransaction

namespace Application

/-! ## Reading -/

/-- The record of an application. -/
def record? (id : ApplicationId) : RegistryTransaction (Option ApplicationRecord) :=
  match Layout.application id with
  | .error _ => pure none
  | .ok k => fetch ApplicationRecord k

/-- The record of an application that has to be there. -/
def required (id : ApplicationId) : RegistryTransaction ApplicationRecord := do
  match ← record? id with
  | some r => pure r
  | none => .reject (.applicationNotFound id)

/-- Something of the record of an application. -/
def ofRecord {α : Type} (f : ApplicationRecord → α) (id : ApplicationId) : Query (Option α) :=
  .ask do return (← record? id).map f

/-- The specifications of the applications of an account, by name. -/
def specifications (a : AccountId) : Query (List Specification) :=
  match Layout.ofAccount .applications a with
  | .error _ => .known (.ok [])
  | .ok k => .ask do
    return (← fetchRange ApplicationRecord (.all k)).map fun e => e.2.specification

/-- The programs of the stored specification of an application that a candidate would remove. -/
def deleted (id : ApplicationId) (candidate : Specification) : Query (List ProgramDeclaration) :=
  .ask do
    match ← record? id with
    | none => return []
    | some r => return deletedPrograms r.specification candidate

/-! ## Names in use -/

/-- The single components that follow a key in the keys of the store. -/
def namesUnder (k : Except KeyError Key) : RegistryTransaction (OrderedSet String) :=
  match k with
  | .error _ => pure ∅
  | .ok k => do
    let found ← demand (Transaction.scanOver (.all k))
    return OrderedSet.ofList <| found.filterMap fun e =>
      match (e.1.below? k).map (·.components) with
      | some [name] => some name
      | _ => none

/-! ## Deploying -/

/-- Puts the streams and datasets of a specification into the catalog of an account, in place of
those with the same names. -/
def mergeCatalog (a : AccountId) (s : Specification) : RegistryTransaction Unit := do
  s.streams.values.forM fun d => do put (← demandKey (Layout.stream a d.name)) d
  s.datasets.values.forM fun d => do put (← demandKey (Layout.dataset a d.name)) d

/-- Prepares the deployment of a specification: the record of the application and its key. -/
def deploy (id : ApplicationId) (k : Key) (s : Specification) (location : ArchiveLocation)
    (now : Instant) : RegistryTransaction (Key × ApplicationRecord) := do
  let _ ← fetch ApplicationRecord k
  mergeCatalog id.account s
  return (k, ⟨s, location, now⟩)

/-! ## Removing -/

/-- Removes an application with the arguments of its programs. -/
def removeOne (id : ApplicationId) : RegistryTransaction Unit :=
  match Layout.application id with
  | .error _ => pure ()
  | .ok k => do
    let _ ← demand (Transaction.deleteAt k)
    let _ ← demand (Transaction.deleteBelow (← demandKey (Layout.ofApplication .arguments id)))

/-- Removes an application; there need not be one. -/
def remove (id : ApplicationId) : Query Unit := .ask (removeOne id)

/-- Removes every application of an account. The catalog stays. -/
def removeAll (a : AccountId) : Query Unit := .ask do
  let names ← namesUnder (Layout.ofAccount .applications a)
  names.members.forM fun name => removeOne (a.application name)

end Application

namespace Account

/-- Removes everything that is stored for an account. -/
def remove (a : AccountId) : Query Unit :=
  match Layout.account a with
  | .error _ => .known (.ok ())
  | .ok keys => .ask <| keys.forM fun k => do
    let _ ← demand (Transaction.deleteBelow k)

/-- The names of the streams of an account. -/
def streams (a : AccountId) : Query (OrderedSet String) :=
  .ask (Application.namesUnder (Layout.ofAccount .streams a))

/-- The names of the datasets of an account. -/
def datasets (a : AccountId) : Query (OrderedSet String) :=
  .ask (Application.namesUnder (Layout.ofAccount .datasets a))

/-- A stream of an account. -/
def stream (a : AccountId) (name : String) : Query (Option StreamDeclaration) :=
  match Layout.stream a name with
  | .error _ => .known (.ok none)
  | .ok k => .ask (fetch StreamDeclaration k)

/-- A dataset of an account. -/
def dataset (a : AccountId) (name : String) : Query (Option DatasetDeclaration) :=
  match Layout.dataset a name with
  | .error _ => .known (.ok none)
  | .ok k => .ask (fetch DatasetDeclaration k)

end Account

end AppRegistry
