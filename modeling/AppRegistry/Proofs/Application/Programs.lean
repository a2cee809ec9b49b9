import AppRegistry.Application.Specification
import AppRegistry.Proofs.Records.Maps

/-!
# The programs of a specification

The same five maps are listed by `Specification.programs`, counted by `Specification.count`, tested
by `Specification.contains` and looked up by `Specification.program?`. A specification in which every
program stands under its own name (`Specification.Keyed`, which building one part by part keeps) has
one program of each kind and name, and then all four agree on it.

Main results: the programs are listed in strictly ascending order of their keys
(`Specification.Keyed.pairwise_programs`), and so are those that a candidate would remove, which are
those whose key no program of the candidate has (`mem_deletedPrograms_iff`). A program that stands
under another name may go astray, and then its own specification would remove it
(`Specification.deletedPrograms_self`).
-/

namespace AppRegistry

theorem OrderedMap.mem_map_values_iff {κ α β : Type} [Ord κ] [Std.TransOrd κ] [Std.LawfulEqOrd κ]
    {m : OrderedMap κ α} {f : α → β} {b : β} :
    b ∈ m.values.map f ↔ ∃ k, (m.get? k).map f = some b := by
  simp only [List.mem_map, mem_values_iff, Option.map_eq_some_iff]
  constructor
  · rintro ⟨v, ⟨k, hv⟩, hb⟩
    exact ⟨k, v, hv, hb⟩
  · rintro ⟨k, v, hv, hb⟩
    exact ⟨v, ⟨k, hv⟩, hb⟩

/-- Keys are compared by kind and then by name. -/
theorem ProgramKey.compare_eq (a b : ProgramKey) :
    compare a b = (compare a.kind b.kind).then (compare a.name b.name) := by
  obtain ⟨kind, name⟩ := a
  obtain ⟨kind', name'⟩ := b
  show instOrdProgramKey.ord _ _ = _
  simp [instOrdProgramKey.ord]

theorem ProgramKey.compare_self (a : ProgramKey) : compare a a = .eq := by
  have hkind : compare a.kind a.kind = .eq := by cases a.kind <;> rfl
  have hname : compare a.name a.name = .eq := Std.ReflCmp.compare_self
  rw [compare_eq, hkind, hname]
  rfl

namespace Specification

variable {s : Specification} {d : ProgramDeclaration} {kind : ProgramKind} {name : String}

/-! ## Ways to ask -/

/-- The programs of one kind, by name. -/
def programsOf (s : Specification) : ProgramKind → List ProgramDeclaration
  | .flow => s.flows.values.map .flow
  | .procedure => s.procedures.values.map .procedure
  | .batchJob => s.batchJobs.values.map .batchJob
  | .workflow => s.workflows.values.map .workflow
  | .service => s.services.values.map .service

theorem programs_eq (s : Specification) : s.programs = ProgramKind.all.flatMap s.programsOf := by
  simp [programs, ProgramKind.all, programsOf]

theorem kind_of_program? (h : s.program? kind name = some d) : d.kind = kind := by
  cases kind <;>
  · obtain ⟨x, -, rfl⟩ := Option.map_eq_some_iff.mp h
    rfl

theorem mem_programsOf_iff : d ∈ s.programsOf kind ↔ ∃ name, s.program? kind name = some d := by
  cases kind <;> exact OrderedMap.mem_map_values_iff

/-- A program is listed if it is found under some name. -/
theorem mem_programs_iff : d ∈ s.programs ↔ ∃ name, s.program? d.kind name = some d := by
  rw [programs_eq, List.mem_flatMap]
  constructor
  · rintro ⟨kind, -, hd⟩
    obtain ⟨name, hname⟩ := mem_programsOf_iff.mp hd
    exact ⟨name, (kind_of_program? hname).symm ▸ hname⟩
  · intro h
    exact ⟨d.kind, by cases d.kind <;> decide, mem_programsOf_iff.mpr h⟩

theorem length_programs (s : Specification) : s.programs.length = s.count := by
  simp only [programs, count, OrderedMap.values, OrderedMap.size, List.length_append,
    List.length_map]

theorem contains_eq (s : Specification) (k : ProgramKey) :
    s.contains k = (s.program? k.kind k.name).isSome := by
  obtain ⟨kind, name⟩ := k
  cases kind <;> simp [contains, program?, OrderedMap.contains]

/-! ## Programs under their own names -/

/-- Whether every program stands under its own name. -/
def Keyed (s : Specification) : Prop :=
  ∀ kind name d, s.program? kind name = some d → d.name = name

theorem keyed_empty : Keyed {} := by
  intro kind name d h
  cases kind <;> cases h

theorem program?_withProgram (s : Specification) (d : ProgramDeclaration) (kind : ProgramKind)
    (name : String) : (s.withProgram d).program? kind name =
      if d.key = ⟨kind, name⟩ then some d else s.program? kind name := by
  by_cases hkey : d.key = ⟨kind, name⟩
  · obtain ⟨rfl, rfl⟩ : d.kind = kind ∧ d.name = name := by
      rwa [ProgramDeclaration.key, ProgramKey.mk.injEq] at hkey
    rw [if_pos hkey]
    cases d <;>
      simp [withProgram, program?, ProgramDeclaration.kind, ProgramDeclaration.name,
        OrderedMap.get?_insert]
  · rw [if_neg hkey]
    cases d <;> cases kind <;>
      simp_all [withProgram, program?, ProgramDeclaration.key, ProgramDeclaration.kind,
        ProgramDeclaration.name, OrderedMap.get?_insert]

/-- **Building a specification part by part keeps every program under its own name.** -/
theorem Keyed.withProgram (h : s.Keyed) (d : ProgramDeclaration) : (s.withProgram d).Keyed := by
  intro kind name d' hd'
  rw [program?_withProgram] at hd'
  split at hd'
  · next hkey =>
    cases hd'
    exact congrArg ProgramKey.name hkey
  · exact h kind name d' hd'

namespace Keyed

variable {c : Specification} {k : ProgramKey}

theorem mem_programs_iff (h : s.Keyed) : d ∈ s.programs ↔ s.program? d.kind d.name = some d := by
  rw [Specification.mem_programs_iff]
  constructor
  · rintro ⟨name, hd⟩
    rwa [h _ _ _ hd]
  · exact fun hd => ⟨d.name, hd⟩

/-- A program is found under its kind and its name if it is listed. -/
theorem program?_eq_some_iff (h : s.Keyed) :
    s.program? kind name = some d ↔ d ∈ s.programs ∧ d.key = ⟨kind, name⟩ := by
  rw [h.mem_programs_iff]
  constructor
  · intro hd
    obtain rfl := kind_of_program? hd
    obtain rfl := h _ _ _ hd
    exact ⟨hd, rfl⟩
  · rintro ⟨hd, hkey⟩
    obtain ⟨rfl, rfl⟩ : d.kind = kind ∧ d.name = name := by
      rwa [ProgramDeclaration.key, ProgramKey.mk.injEq] at hkey
    exact hd

/-- A key is that of a program if it is found. -/
theorem exists_key_iff (h : s.Keyed) :
    (∃ d ∈ s.programs, d.key = k) ↔ (s.program? k.kind k.name).isSome := by
  rw [Option.isSome_iff_exists]
  constructor
  · rintro ⟨d, hd, rfl⟩
    exact ⟨d, h.mem_programs_iff.mp hd⟩
  · rintro ⟨d, hd⟩
    have hkey : d.key = k := by
      rw [ProgramDeclaration.key, kind_of_program? hd, h _ _ _ hd]
    exact ⟨d, Specification.mem_programs_iff.mpr ⟨k.name, (kind_of_program? hd).symm ▸ hd⟩, hkey⟩

/-- The programs of one map, if they are of one kind and stand under their own names. -/
theorem pairwise_map_values {α : Type} {m : OrderedMap String α} {f : α → ProgramDeclaration}
    (hkey : ∀ name v, m.get? name = some v → (f v).key = ⟨kind, name⟩) :
    (m.values.map f).Pairwise fun d e => compare d.key e.key = .lt := by
  have hkey' : ∀ e ∈ m.toList, (f e.2).key = ⟨kind, e.1⟩ := fun e he =>
    hkey e.1 e.2 ((OrderedMap.mem_toList_iff m e.1 e.2).mp he)
  refine List.pairwise_map.mpr (List.pairwise_map.mpr (m.ascending.imp_of_mem fun ha hb hlt => ?_))
  rw [hkey' _ ha, hkey' _ hb, ProgramKey.compare_eq, hlt]
  cases kind <;> rfl

/-- **Programs are listed in strictly ascending order of their keys**: kind by kind, and within a
kind by name. -/
theorem pairwise_programs (h : s.Keyed) :
    s.programs.Pairwise fun d e => compare d.key e.key = .lt := by
  rw [programs_eq, List.pairwise_flatMap]
  constructor
  · intro kind _
    have hkey : ∀ name d, s.program? kind name = some d → d.key = ⟨kind, name⟩ := fun name d hd => by
      rw [ProgramDeclaration.key, kind_of_program? hd, h kind name d hd]
    cases kind <;>
      exact pairwise_map_values fun name v hv => hkey name _ (congrArg (Option.map _) hv)
  · have hkinds : ProgramKind.all.Pairwise fun a b => compare a b = .lt := by decide
    refine hkinds.imp fun {a b} hlt d hd e he => ?_
    obtain ⟨_, hd⟩ := mem_programsOf_iff.mp hd
    obtain ⟨_, he⟩ := mem_programsOf_iff.mp he
    rw [ProgramKey.compare_eq, ProgramDeclaration.key, ProgramDeclaration.key, kind_of_program? hd,
      kind_of_program? he, hlt]
    rfl

/-- No program is listed twice. -/
theorem nodup_programs (h : s.Keyed) : s.programs.Nodup := by
  refine h.pairwise_programs.imp fun {d e} hlt heq => ?_
  rw [heq, ProgramKey.compare_self] at hlt
  cases hlt

end Keyed

end Specification

/-! ## What a candidate would remove -/

section Deleted
variable {s c : Specification} {d : ProgramDeclaration}

/-- **The programs that a candidate would remove are listed in strictly ascending order of their
keys.** -/
theorem pairwise_deletedPrograms (hs : s.Keyed) (c : Specification) :
    (deletedPrograms s c).Pairwise fun d e => compare d.key e.key = .lt :=
  hs.pairwise_programs.sublist List.filter_sublist

/-- **They are those whose kind and name no program of the candidate has**, whatever its class. -/
theorem mem_deletedPrograms_iff (hc : c.Keyed) :
    d ∈ deletedPrograms s c ↔ d ∈ s.programs ∧ ∀ e ∈ c.programs, e.key ≠ d.key := by
  rw [deletedPrograms, List.mem_filter, Bool.not_eq_true', Specification.contains_eq,
    Bool.eq_false_iff, Ne, ← hc.exists_key_iff]
  simp only [not_exists, not_and, ne_eq]

/-- A key of a program that would be removed is found, and the candidate does not have it. -/
theorem exists_deleted_key_iff (hs : s.Keyed) (hc : c.Keyed) {k : ProgramKey} :
    (∃ d ∈ deletedPrograms s c, d.key = k) ↔
      (s.program? k.kind k.name).isSome ∧ c.program? k.kind k.name = none := by
  rw [← hs.exists_key_iff, ← Option.not_isSome_iff_eq_none, ← hc.exists_key_iff]
  constructor
  · rintro ⟨d, hd, rfl⟩
    obtain ⟨hmem, hnone⟩ := (mem_deletedPrograms_iff hc).mp hd
    exact ⟨⟨d, hmem, rfl⟩, fun ⟨e, he, hkey⟩ => hnone e he hkey⟩
  · rintro ⟨⟨d, hd, rfl⟩, hnone⟩
    exact ⟨d, (mem_deletedPrograms_iff hc).mpr ⟨hd, fun e he hkey => hnone ⟨e, he, hkey⟩⟩, rfl⟩

end Deleted

/-! ## A specification against itself -/

namespace Specification

variable {s : Specification} {d : ProgramDeclaration}

/-- The programs under whose own name no program of their kind stands. -/
def strays (s : Specification) : List ProgramDeclaration :=
  s.programs.filter fun d => (s.program? d.kind d.name).isNone

/-- **A specification would remove its own strays.** A program is known by its name and looked for
in the maps, and only in a `Keyed` specification are these the same. -/
theorem deletedPrograms_self (s : Specification) : deletedPrograms s s = s.strays := by
  refine List.filter_congr fun d _ => ?_
  rw [contains_eq, Option.not_isSome]
  rfl

theorem strays_eq_nil_iff :
    s.strays = [] ↔ ∀ d ∈ s.programs, (s.program? d.kind d.name).isSome := by
  rw [strays, List.filter_eq_nil_iff]
  simp only [Option.isNone_iff_eq_none, Option.isSome_iff_ne_none, ne_eq]

theorem Keyed.strays_eq_nil (h : s.Keyed) : s.strays = [] :=
  strays_eq_nil_iff.mpr fun d hd => by rw [h.mem_programs_iff.mp hd, Option.isSome_some]

end Specification

end AppRegistry
