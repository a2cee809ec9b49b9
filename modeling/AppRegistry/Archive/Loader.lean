import AppRegistry.Application.Id
import AppRegistry.Application.Specification
import AppRegistry.Archive.Location

/-!
# Program loaders

A loader turns a deployed archive into programs. The registry hands it the location of the archive
with the stored specification and tells it when that specification changes, in two steps: the loader
stages the change while the transaction is open, where it can still refuse it, and applies the
staged change once the transaction has committed.
-/

namespace AppRegistry

/-- A program as it was loaded, with the specification that it was loaded from. -/
structure LoadedProgram where
  id : ProgramId
  kind : ProgramKind
  location : ArchiveLocation
  specification : Specification
deriving DecidableEq, Repr

/-- The declaration of a loaded program in its specification. -/
def LoadedProgram.declaration? (p : LoadedProgram) : Option ProgramDeclaration :=
  p.specification.program? p.kind p.id.name

/-- Why a loader fails. -/
inductive LoaderError where
  | notLocal (location : ArchiveLocation)
  | cannotOpen (manifest : WrittenPath)
  | corrupt (manifest : WrittenPath)
  | undeclared (location : ArchiveLocation) (kind : ProgramKind) (name : String)
  | cannotCreate (directory : WrittenPath)
  | cannotStage (manifest : WrittenPath)
  | cannotWrite (manifest : WrittenPath)
  | other (reason : String)
deriving DecidableEq, Repr

/-- The wording of a loader error. -/
def LoaderError.message : LoaderError → String
  | notLocal l => s!"archive '{l.uri}' is not a local path"
  | cannotOpen p => s!"cannot open manifest '{p}'"
  | corrupt p => s!"corrupt manifest '{p}'"
  | undeclared l kind name => s!"archive '{l.uri}' declares no {kind.text} '{name}'"
  | cannotCreate d => s!"cannot create '{d}'"
  | cannotStage p => s!"cannot stage '{p}'"
  | cannotWrite p => s!"cannot write '{p}'"
  | other reason => reason

/-- What comes of staging a change. -/
inductive Staging (υ : Type) where
  | staged (update : υ)
  | refused (e : LoaderError)
  | panicked
deriving DecidableEq, Repr

/-- What comes of applying a change or of loading a program. -/
inductive LoaderOutcome (α : Type) where
  | ok (a : α)
  | error (e : LoaderError)
  | panicked
deriving DecidableEq, Repr

/-- The outcome of a step that does not panic. -/
def LoaderOutcome.ofExcept {α : Type} : Except LoaderError α → LoaderOutcome α
  | .ok a => .ok a
  | .error e => .error e

/-- A loader with a state of its own in `σ`. An update that was staged is either applied or
discarded, once. Every step may panic but that which discards an update. -/
structure Loader (σ : Type) where
  /-- A staged change. -/
  Update : Type
  stage : ArchiveLocation → Specification → StateT σ Script (Staging Update)
  apply : Update → StateT σ Script (LoaderOutcome Unit)
  discard : Update → StateT σ Script Unit
  load : ArchiveLocation → ProgramId → ProgramKind → Specification →
    StateT σ Script (LoaderOutcome LoadedProgram)

namespace Loader

/-- The loader that takes programs from the stored specification and touches no archive. -/
def ofSpecification (σ : Type) : Loader σ where
  Update := Unit
  stage _ _ := pure (.staged ())
  apply _ := pure (.ok ())
  discard _ := pure ()
  load location program kind specification := pure (.ok ⟨program, kind, location, specification⟩)

end Loader

end AppRegistry
