import AppRegistry.Registry.Applications

/-!
# Instance counts

The number of instances of a flowlet, of a runnable of a service or of a procedure is part of the
stored specification. To set it is to patch that specification in one place.
-/

namespace AppRegistry

/-- What has an instance count, within a program. -/
inductive Scalable where
  | flowlet (name : String)
  | runnable (name : String)
  | procedure
deriving DecidableEq, Repr

namespace Scalable

/-- The kind of program that has such a part. -/
def kind : Scalable → ProgramKind
  | flowlet _ => .flow
  | runnable _ => .service
  | procedure => .procedure

/-- The instance count of a part of a program. -/
def count (s : Specification) (p : ProgramId) : Scalable → Except RegistryError UInt32
  | flowlet name =>
    match s.flows.get? p.name with
    | none => .error (.programNotFound p .flow)
    | some f =>
      match f.flowlets.get? name with
      | none => .error (.runnableNotFound p .flow name)
      | some part => .ok part.instances
  | runnable name =>
    match s.services.get? p.name with
    | none => .error (.programNotFound p .service)
    | some v =>
      match v.runnables.get? name with
      | none => .error (.runnableNotFound p .service name)
      | some part => .ok part.instances
  | procedure =>
    match s.procedures.get? p.name with
    | none => .error (.programNotFound p .procedure)
    | some part => .ok part.instances

/-- The specification with another instance count for a part of a program, if it has that part. -/
def setCount (s : Specification) (p : ProgramId) (n : UInt32) : Scalable → Specification
  | flowlet name =>
    match s.flows.get? p.name with
    | none => s
    | some f =>
      match f.flowlets.get? name with
      | none => s
      | some part =>
        let flow := { f with flowlets := f.flowlets.insert name { part with instances := n } }
        { s with flows := s.flows.insert p.name flow }
  | runnable name =>
    match s.services.get? p.name with
    | none => s
    | some v =>
      match v.runnables.get? name with
      | none => s
      | some part =>
        let service := { v with runnables := v.runnables.insert name { part with instances := n } }
        { s with services := s.services.insert p.name service }
  | procedure =>
    match s.procedures.get? p.name with
    | none => s
    | some part =>
      { s with procedures := s.procedures.insert p.name { part with instances := n } }

/-- The stored instance count of a part of a program. -/
def stored (p : ProgramId) (x : Scalable) : Query UInt32 := .ask do
  let r ← Application.required p.application
  match x.count r.specification p with
  | .error e => .reject e
  | .ok n => return n

/-- Prepares another instance count: the patched record of the application and its key. -/
def patch (p : ProgramId) (x : Scalable) (n : UInt32) (now : Instant) :
    RegistryTransaction (Key × ApplicationRecord) := do
  let r ← Application.required p.application
  match x.count r.specification p with
  | .error e => .reject e
  | .ok _ =>
    let k ← RegistryTransaction.demandKey (Layout.application p.application)
    return (k, { r with specification := x.setCount r.specification p n, lastUpdated := now })

end Scalable

end AppRegistry
