import AppRegistry.Proofs.Application.Programs
import Mathlib.Data.List.Induction

/-!
# Building a specification

A specification is built from a name by adding programs, streams and datasets, one after the other
(`Specification.built`).

**Theorem (`Specification.built_lookups`).** In a specification that was built, every map is keyed by
the declared names. Every declared program is listed once, in the order of the keys, and the listing,
the count, the look-up and the test for a key agree. The program with a key is the one that was added
last with it.

Adding changes one map at the declared name alone, so what stands under a key is decided by the items
with that key (`program?_built`), and every map stays keyed (`Named.add`).
-/

namespace AppRegistry

namespace OrderedMap

variable {α : Type} {name : α → String} {m : OrderedMap String α}

/-- Whether every entry stands under its own name. -/
def NamedBy (name : α → String) (m : OrderedMap String α) : Prop :=
  ∀ k v, m.get? k = some v → name v = k

theorem NamedBy.insert (h : m.NamedBy name) (v : α) : (m.insert (name v) v).NamedBy name := by
  intro k w hw
  rw [get?_insert] at hw
  split at hw
  · next hk =>
    cases hw
    exact hk
  · exact h k w hw

end OrderedMap

namespace Specification

/-! ## Items -/

/-- Something to add to a specification. -/
inductive Item where
  | program (d : ProgramDeclaration)
  | stream (d : StreamDeclaration)
  | dataset (d : DatasetDeclaration)
deriving DecidableEq, Repr

/-- The program that an item is. -/
def Item.program? : Item → Option ProgramDeclaration
  | program d => some d
  | _ => none

/-- Adds an item under its name. -/
def add (s : Specification) : Item → Specification
  | .program d => s.withProgram d
  | .stream d => s.withStream d
  | .dataset d => s.withDataset d

/-- The specification with a name to which some items were added in turn. -/
def built (name : String) (items : List Item) : Specification := items.foldl add { name := name }

/-- The program that was added last with a key. -/
def lastAdded (items : List Item) (k : ProgramKey) : Option ProgramDeclaration :=
  ((items.filterMap Item.program?).filter (·.key = k)).getLast?

variable {s : Specification}

theorem built_concat (name : String) (items : List Item) (item : Item) :
    built name (items ++ [item]) = (built name items).add item := by
  rw [built, List.foldl_append]
  rfl

/-! ## Names -/

/-- Whether every map is keyed by the declared names of its entries. -/
structure Named (s : Specification) : Prop where
  streams : s.streams.NamedBy (·.name)
  datasets : s.datasets.NamedBy (·.name)
  flows : s.flows.NamedBy (·.name)
  procedures : s.procedures.NamedBy (·.name)
  batchJobs : s.batchJobs.NamedBy (·.name)
  workflows : s.workflows.NamedBy (·.name)
  services : s.services.NamedBy (·.name)

theorem Named.keyed (h : s.Named) : s.Keyed := by
  intro kind name d hd
  cases kind <;> obtain ⟨x, hx, rfl⟩ := Option.map_eq_some_iff.mp hd
  case flow => exact h.flows name x hx
  case procedure => exact h.procedures name x hx
  case batchJob => exact h.batchJobs name x hx
  case workflow => exact h.workflows name x hx
  case service => exact h.services name x hx

/-- **Adding keeps every map keyed.** -/
theorem Named.add (h : s.Named) (item : Item) : (s.add item).Named := by
  cases item with
  | stream d => exact { h with streams := h.streams.insert d }
  | dataset d => exact { h with datasets := h.datasets.insert d }
  | program d =>
    cases d with
    | flow f => exact { h with flows := h.flows.insert f }
    | procedure p => exact { h with procedures := h.procedures.insert p }
    | batchJob b => exact { h with batchJobs := h.batchJobs.insert b }
    | workflow w => exact { h with workflows := h.workflows.insert w }
    | service v => exact { h with services := h.services.insert v }

theorem named_built (name : String) (items : List Item) : (built name items).Named := by
  induction items using List.reverseRecOn with
  | nil => exact ⟨nofun, nofun, nofun, nofun, nofun, nofun, nofun⟩
  | append_singleton items item ih =>
    rw [built_concat]
    exact ih.add item

/-! ## What stands under a key -/

theorem lastAdded_append (items items' : List Item) (k : ProgramKey) :
    lastAdded (items ++ items') k = (lastAdded items' k).or (lastAdded items k) := by
  rw [lastAdded, List.filterMap_append, List.filter_append, List.getLast?_append]
  rfl

/-- An item without a key does not matter for it. -/
theorem lastAdded_cons_of_ne {item : Item} {k : ProgramKey}
    (h : ∀ d, item = .program d → d.key ≠ k) (items : List Item) :
    lastAdded (item :: items) k = lastAdded items k := by
  cases item with
  | program d => simp [lastAdded, Item.program?, h d rfl]
  | stream | dataset => rfl

theorem lastAdded_program (d : ProgramDeclaration) (k : ProgramKey) :
    lastAdded [.program d] k = if d.key = k then some d else none := by
  by_cases hd : d.key = k <;> simp [lastAdded, Item.program?, hd]

/-- **Under a key stands the program that was added last with it.** -/
theorem program?_built (name : String) (items : List Item) (kind : ProgramKind) (n : String) :
    (built name items).program? kind n = lastAdded items ⟨kind, n⟩ := by
  -- From the end of the list, for the last addition is the one that counts.
  induction items using List.reverseRecOn with
  | nil => cases kind <;> rfl
  | append_singleton items item ih =>
    rw [built_concat, lastAdded_append, ← ih]
    cases item with
    | program d =>
      rw [add, program?_withProgram, lastAdded_program]
      split <;> rfl
    | stream | dataset => cases kind <;> rfl

/-- **All ways to ask for programs agree on a specification that was built.** The maps are keyed by
the declared names. The listing is strictly ascending, holds just the programs that were added last
with their keys, and is as long as the count says. A program is found under a kind and a name if it is
listed with that key, and some program is found if the key is contained. It is the one that was added
last with the key, so an item without the key might as well not have been added. -/
theorem built_lookups (name : String) (items : List Item) :
    (built name items).Named ∧
    ((built name items).programs.Pairwise fun d e => compare d.key e.key = .lt) ∧
    (built name items).programs.Nodup ∧
    (∀ d, d ∈ (built name items).programs ↔ lastAdded items d.key = some d) ∧
    (built name items).programs.length = (built name items).count ∧
    (∀ kind n d, (built name items).program? kind n = some d ↔
      d ∈ (built name items).programs ∧ d.key = ⟨kind, n⟩) ∧
    (∀ kind n, (built name items).contains ⟨kind, n⟩ = true ↔
      ∃ d, (built name items).program? kind n = some d) ∧
    (∀ kind n, (built name items).program? kind n = lastAdded items ⟨kind, n⟩) ∧
    ∀ kind n before item after, items = before ++ item :: after →
      (∀ d, item = .program d → d.key ≠ ⟨kind, n⟩) →
        (built name items).program? kind n = (built name (before ++ after)).program? kind n := by
  have hkeyed := (named_built name items).keyed
  refine ⟨named_built name items, hkeyed.pairwise_programs, hkeyed.nodup_programs, fun d => ?_,
    length_programs _, fun kind n d => hkeyed.program?_eq_some_iff, fun kind n => ?_,
    program?_built name items, ?_⟩
  · rw [hkeyed.mem_programs_iff, program?_built]
    rfl
  · rw [contains_eq, Option.isSome_iff_exists]
  · rintro kind n before item after rfl hitem
    rw [program?_built, program?_built, lastAdded_append, lastAdded_append,
      lastAdded_cons_of_ne hitem]

/-- A flow named `Counter`. -/
def counterFlow (className : String) : Item := .program (.flow ⟨"Counter", className, "", ∅, []⟩)

/-- A batch job with the name of the flow. -/
def counterJob : Item := .program (.batchJob ⟨"Counter", "Job", "", none, none⟩)

/-- A flow that is replaced after a job with its name was added. -/
def counters : List Item := [counterFlow "Old", counterJob, .stream ⟨"text"⟩, counterFlow "New"]

theorem built_lookups_counters :
    (∀ d, counterJob = .program d → d.key ≠ ⟨.flow, "Counter"⟩) ∧
    (built "Sample" counters).program? .flow "Counter" =
      (built "Sample" (counters.eraseIdx 1)).program? .flow "Counter" ∧
    (built "Sample" counters).program? .flow "Counter" =
      some (.flow ⟨"Counter", "New", "", ∅, []⟩) ∧
    (built "Sample" counters).count = 2 := by
  obtain ⟨-, -, -, -, hcount, -, -, hlast, hother⟩ := built_lookups "Sample" counters
  have hjob : ∀ d, counterJob = .program d → d.key ≠ ⟨.flow, "Counter"⟩ := by
    rintro d hd
    cases hd
    decide
  refine ⟨hjob, hother .flow "Counter" [_] _ [_, _] rfl hjob, (hlast .flow "Counter").trans ?_, ?_⟩
  · decide
  · rw [← hcount]
    decide

end Specification

end AppRegistry
