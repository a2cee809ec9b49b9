import AppRegistry.Json.Codec

/-!
# Program declarations

An application declares programs of five kinds. Within the application a program is known by its
kind and its name (`ProgramDeclaration.key`); the class that implements it plays no part in that.

Flowlets, procedures and the runnables of a service run in a number of instances.
-/

namespace AppRegistry

/-! ## Kinds and keys -/

/-- The kinds of programs. -/
inductive ProgramKind where
  | flow
  | procedure
  | batchJob
  | workflow
  | service
deriving DecidableEq, Repr, Ord

namespace ProgramKind

/-- Every kind, in the order in which programs are listed. -/
def all : List ProgramKind := [flow, procedure, batchJob, workflow, service]

/-- The kind in a sentence. -/
def text : ProgramKind → String
  | flow => "flow"
  | procedure => "procedure"
  | batchJob => "batch job"
  | workflow => "workflow"
  | service => "service"

/-- The kind in a record. -/
def tag : ProgramKind → String
  | flow => "Flow"
  | procedure => "Procedure"
  | batchJob => "BatchJob"
  | workflow => "Workflow"
  | service => "Service"

/-- The kind with a tag. -/
def ofTag? (s : String) : Option ProgramKind := all.find? fun k => k.tag == s

end ProgramKind

/-- A kind is written as its tag; it may also be read from an object with the tag over null. -/
instance : Codec ProgramKind where
  encode k := .string k.tag
  decode?
    | .string s => ProgramKind.ofTag? s
    | .object [(s, .null)] => ProgramKind.ofTag? s
    | _ => none

/-- What makes two declarations of one application the same program. -/
structure ProgramKey where
  kind : ProgramKind
  name : String
deriving DecidableEq, Repr, Ord

/-! ## Flows -/

/-- One flowlet of a flow. -/
structure Flowlet where
  name : String
  className : String
  instances : UInt32 := 1
  datasets : OrderedSet String := ∅
deriving DecidableEq, Repr

/-- An edge of a flow, from a stream or a flowlet to a flowlet. -/
structure Connection where
  source : String
  target : String
deriving DecidableEq, Repr

/-- A flow of connected flowlets. -/
structure Flow where
  name : String
  className : String
  description : String := ""
  flowlets : OrderedMap String Flowlet := ∅
  connections : List Connection := []
deriving DecidableEq, Repr

/-- Declares that a flowlet uses a dataset. -/
def Flowlet.withDataset (f : Flowlet) (dataset : String) : Flowlet :=
  { f with datasets := f.datasets.add dataset }

/-- Adds a flowlet under its name. -/
def Flow.withFlowlet (f : Flow) (flowlet : Flowlet) : Flow :=
  { f with flowlets := f.flowlets.insert flowlet.name flowlet }

/-- Adds an edge. -/
def Flow.connect (f : Flow) (source target : String) : Flow :=
  { f with connections := f.connections ++ [⟨source, target⟩] }

instance : Codec Flowlet where
  encode f := .object [("name", encode f.name), ("class_name", encode f.className),
    ("instances", encode f.instances), ("datasets", encode f.datasets)]
  decode? j := do
    let f ← Json.readFields? ["name", "class_name", "instances", "datasets"] j
    pure ⟨← f.required "name", ← f.required "class_name", ← f.required "instances",
      ← f.defaulted "datasets" ∅⟩

instance : Codec Connection where
  encode c := .object [("from", encode c.source), ("to", encode c.target)]
  decode? j := do
    let f ← Json.readFields? ["from", "to"] j
    pure ⟨← f.required "from", ← f.required "to"⟩

instance : Codec Flow where
  encode f := .object [("name", encode f.name), ("class_name", encode f.className),
    ("description", encode f.description), ("flowlets", encode f.flowlets),
    ("connections", encode f.connections)]
  decode? j := do
    let f ← Json.readFields? ["name", "class_name", "description", "flowlets", "connections"] j
    pure ⟨← f.required "name", ← f.required "class_name", ← f.defaulted "description" "",
      ← f.defaulted "flowlets" ∅, ← f.defaulted "connections" []⟩

/-! ## Procedures -/

/-- A procedure that answers queries. -/
structure Procedure where
  name : String
  className : String
  description : String := ""
  instances : UInt32 := 1
  datasets : OrderedSet String := ∅
deriving DecidableEq, Repr

/-- Declares that a procedure uses a dataset. -/
def Procedure.withDataset (p : Procedure) (dataset : String) : Procedure :=
  { p with datasets := p.datasets.add dataset }

instance : Codec Procedure where
  encode p := .object [("name", encode p.name), ("class_name", encode p.className),
    ("description", encode p.description), ("instances", encode p.instances),
    ("datasets", encode p.datasets)]
  decode? j := do
    let f ← Json.readFields? ["name", "class_name", "description", "instances", "datasets"] j
    pure ⟨← f.required "name", ← f.required "class_name", ← f.defaulted "description" "",
      ← f.required "instances", ← f.defaulted "datasets" ∅⟩

/-! ## Batch jobs -/

/-- A job from one dataset to another. -/
structure BatchJob where
  name : String
  className : String
  description : String := ""
  input : Option String := none
  output : Option String := none
deriving DecidableEq, Repr

/-- Declares the dataset that a job reads. -/
def BatchJob.reading (b : BatchJob) (dataset : String) : BatchJob := { b with input := dataset }

/-- Declares the dataset that a job writes. -/
def BatchJob.writing (b : BatchJob) (dataset : String) : BatchJob := { b with output := dataset }

instance : Codec BatchJob where
  encode b := .object [("name", encode b.name), ("class_name", encode b.className),
    ("description", encode b.description), ("input_dataset", encode b.input),
    ("output_dataset", encode b.output)]
  decode? j := do
    let f ← Json.readFields?
      ["name", "class_name", "description", "input_dataset", "output_dataset"] j
    pure ⟨← f.required "name", ← f.required "class_name", ← f.defaulted "description" "",
      ← f.optionalDefaulted "input_dataset", ← f.optionalDefaulted "output_dataset"⟩

/-! ## Workflows -/

/-- Actions that run in order. -/
structure Workflow where
  name : String
  className : String
  description : String := ""
  actions : List String := []
deriving DecidableEq, Repr

/-- Adds an action at the end. -/
def Workflow.followedBy (w : Workflow) (action : String) : Workflow :=
  { w with actions := w.actions ++ [action] }

instance : Codec Workflow where
  encode w := .object [("name", encode w.name), ("class_name", encode w.className),
    ("description", encode w.description), ("actions", encode w.actions)]
  decode? j := do
    let f ← Json.readFields? ["name", "class_name", "description", "actions"] j
    pure ⟨← f.required "name", ← f.required "class_name", ← f.defaulted "description" "",
      ← f.defaulted "actions" []⟩

/-! ## Services -/

/-- One runnable of a service, which scales by itself. -/
structure Runnable where
  name : String
  className : String
  instances : UInt32 := 1
deriving DecidableEq, Repr

/-- A service made of runnables. -/
structure Service where
  name : String
  className : String
  description : String := ""
  runnables : OrderedMap String Runnable := ∅
deriving DecidableEq, Repr

/-- Adds a runnable under its name. -/
def Service.withRunnable (s : Service) (r : Runnable) : Service :=
  { s with runnables := s.runnables.insert r.name r }

instance : Codec Runnable where
  encode r := .object [("name", encode r.name), ("class_name", encode r.className),
    ("instances", encode r.instances)]
  decode? j := do
    let f ← Json.readFields? ["name", "class_name", "instances"] j
    pure ⟨← f.required "name", ← f.required "class_name", ← f.required "instances"⟩

instance : Codec Service where
  encode s := .object [("name", encode s.name), ("class_name", encode s.className),
    ("description", encode s.description), ("runnables", encode s.runnables)]
  decode? j := do
    let f ← Json.readFields? ["name", "class_name", "description", "runnables"] j
    pure ⟨← f.required "name", ← f.required "class_name", ← f.defaulted "description" "",
      ← f.defaulted "runnables" ∅⟩

/-! ## Programs of any kind -/

/-- A program declaration of any kind. -/
inductive ProgramDeclaration where
  | flow (f : Flow)
  | procedure (p : Procedure)
  | batchJob (b : BatchJob)
  | workflow (w : Workflow)
  | service (s : Service)
deriving DecidableEq, Repr

namespace ProgramDeclaration

/-- The kind of a program. -/
def kind : ProgramDeclaration → ProgramKind
  | flow _ => .flow
  | procedure _ => .procedure
  | batchJob _ => .batchJob
  | workflow _ => .workflow
  | service _ => .service

/-- The declared name of a program. -/
def name : ProgramDeclaration → String
  | flow f => f.name
  | procedure p => p.name
  | batchJob b => b.name
  | workflow w => w.name
  | service s => s.name

/-- The class that implements a program. -/
def className : ProgramDeclaration → String
  | flow f => f.className
  | procedure p => p.className
  | batchJob b => b.className
  | workflow w => w.className
  | service s => s.className

/-- What makes a program itself within its application. -/
def key (p : ProgramDeclaration) : ProgramKey := ⟨p.kind, p.name⟩

/-- The fields of a program. -/
def body : ProgramDeclaration → Json
  | flow f => encode f
  | procedure p => encode p
  | batchJob b => encode b
  | workflow w => encode w
  | service s => encode s

/-- Reads the fields of a program of a kind. -/
def ofBody? (j : Json) : ProgramKind → Option ProgramDeclaration
  | .flow => (decode? j).map flow
  | .procedure => (decode? j).map procedure
  | .batchJob => (decode? j).map batchJob
  | .workflow => (decode? j).map workflow
  | .service => (decode? j).map service

end ProgramDeclaration

/-- A program is written as an object with its fields under the tag of its kind. -/
instance : Codec ProgramDeclaration where
  encode p := .object [(p.kind.tag, p.body)]
  decode?
    | .object [(s, j)] => ProgramKind.ofTag? s >>= ProgramDeclaration.ofBody? j
    | _ => none

end AppRegistry
