import AppRegistry.Application.Program

/-!
# Application specifications

A specification lists the programs that an application declares and the streams and datasets it
refers to, by name. The four ways to ask for a program (`programs`, `program?`, `contains`, `count`)
go through the same five maps.

`deletedPrograms` tells which programs a new specification would remove.
-/

namespace AppRegistry

/-! ## Streams and datasets -/

/-- A stream, which belongs to the account. -/
structure StreamDeclaration where
  name : String
deriving DecidableEq, Repr

/-- A dataset, which belongs to the account. -/
structure DatasetDeclaration where
  name : String
  typeName : String
  properties : OrderedMap String String := ∅
deriving DecidableEq, Repr

/-- Sets a property of a dataset. -/
def DatasetDeclaration.withProperty (d : DatasetDeclaration) (key value : String) :
    DatasetDeclaration :=
  { d with properties := d.properties.insert key value }

instance : Codec StreamDeclaration where
  encode s := .object [("name", encode s.name)]
  decode? j := do
    let f ← Json.readFields? ["name"] j
    pure ⟨← f.required "name"⟩

instance : Codec DatasetDeclaration where
  encode d := .object [("name", encode d.name), ("type_name", encode d.typeName),
    ("properties", encode d.properties)]
  decode? j := do
    let f ← Json.readFields? ["name", "type_name", "properties"] j
    pure ⟨← f.required "name", ← f.required "type_name", ← f.defaulted "properties" ∅⟩

/-! ## Specifications -/

/-- Everything that an application declares. -/
structure Specification where
  name : String := ""
  description : String := ""
  streams : OrderedMap String StreamDeclaration := ∅
  datasets : OrderedMap String DatasetDeclaration := ∅
  flows : OrderedMap String Flow := ∅
  procedures : OrderedMap String Procedure := ∅
  batchJobs : OrderedMap String BatchJob := ∅
  workflows : OrderedMap String Workflow := ∅
  services : OrderedMap String Service := ∅
deriving DecidableEq, Repr

instance : Codec Specification where
  encode s := .object [("name", encode s.name), ("description", encode s.description),
    ("streams", encode s.streams), ("datasets", encode s.datasets), ("flows", encode s.flows),
    ("procedures", encode s.procedures), ("batch_jobs", encode s.batchJobs),
    ("workflows", encode s.workflows), ("services", encode s.services)]
  decode? j := do
    let f ← Json.readFields? ["name", "description", "streams", "datasets", "flows", "procedures",
      "batch_jobs", "workflows", "services"] j
    pure ⟨← f.defaulted "name" "", ← f.defaulted "description" "", ← f.defaulted "streams" ∅,
      ← f.defaulted "datasets" ∅, ← f.defaulted "flows" ∅, ← f.defaulted "procedures" ∅,
      ← f.defaulted "batch_jobs" ∅, ← f.defaulted "workflows" ∅, ← f.defaulted "services" ∅⟩

namespace Specification

/-! ## Building a specification -/

/-- Adds a stream under its name. -/
def withStream (s : Specification) (d : StreamDeclaration) : Specification :=
  { s with streams := s.streams.insert d.name d }

/-- Adds a dataset under its name. -/
def withDataset (s : Specification) (d : DatasetDeclaration) : Specification :=
  { s with datasets := s.datasets.insert d.name d }

/-- Adds a program under its name, in place of a program of the same kind and name. -/
def withProgram (s : Specification) : ProgramDeclaration → Specification
  | .flow f => { s with flows := s.flows.insert f.name f }
  | .procedure p => { s with procedures := s.procedures.insert p.name p }
  | .batchJob b => { s with batchJobs := s.batchJobs.insert b.name b }
  | .workflow w => { s with workflows := s.workflows.insert w.name w }
  | .service v => { s with services := s.services.insert v.name v }

/-! ## Asking for programs -/

/-- Every program, kind by kind, and within a kind by name. -/
def programs (s : Specification) : List ProgramDeclaration :=
  s.flows.values.map .flow ++ s.procedures.values.map .procedure ++
    s.batchJobs.values.map .batchJob ++ s.workflows.values.map .workflow ++
    s.services.values.map .service

/-- The program of a kind with a name. -/
def program? (s : Specification) (kind : ProgramKind) (name : String) :
    Option ProgramDeclaration :=
  match kind with
  | .flow => (s.flows.get? name).map .flow
  | .procedure => (s.procedures.get? name).map .procedure
  | .batchJob => (s.batchJobs.get? name).map .batchJob
  | .workflow => (s.workflows.get? name).map .workflow
  | .service => (s.services.get? name).map .service

/-- Whether there is a program with a key. -/
def contains (s : Specification) (k : ProgramKey) : Bool :=
  match k.kind with
  | .flow => s.flows.contains k.name
  | .procedure => s.procedures.contains k.name
  | .batchJob => s.batchJobs.contains k.name
  | .workflow => s.workflows.contains k.name
  | .service => s.services.contains k.name

/-- The number of programs. -/
def count (s : Specification) : Nat :=
  s.flows.size + s.procedures.size + s.batchJobs.size + s.workflows.size + s.services.size

/-! ## Instances -/

/-- The instance counts of the flowlets, the runnables and the procedures. -/
def instanceCounts (s : Specification) : List UInt32 :=
  s.flows.values.flatMap (fun f => f.flowlets.values.map (·.instances)) ++
    s.services.values.flatMap (fun v => v.runnables.values.map (·.instances)) ++
    s.procedures.values.map (·.instances)

end Specification

/-! ## Comparing specifications -/

/-- The programs of a stored specification of which a candidate has none with the same kind and
name. A change of class deletes nothing. -/
def deletedPrograms (stored candidate : Specification) : List ProgramDeclaration :=
  stored.programs.filter fun p => !candidate.contains p.key

end AppRegistry
