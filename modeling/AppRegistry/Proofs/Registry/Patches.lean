import AppRegistry.Proofs.Records.Maps
import AppRegistry.Registry.Instances

/-!
# Patches of one instance count

A specification is all but its instance counts (`Specification.unscaled`), together with these
counts (`Scalable.instances?`): `Specification.ext_counts`. To set a count changes that count and
nothing else (`Scalable.patches_setCount`), so counts of different parts can be set in any order
(`Scalable.setCount_comm`).
-/

namespace AppRegistry

/-! ## Maps -/

namespace OrderedMap

variable {κ α β : Type} [Ord κ] [Std.TransOrd κ] [Std.LawfulEqOrd κ] {m m' : OrderedMap κ α}
  {f : α → β}

/-- What cannot tell a value from the one in its place cannot tell the maps apart. -/
theorem mapValues_insert_of_get? [DecidableEq κ] {k : κ} {v w : α} (hk : m.get? k = some w)
    (hf : f v = f w) : (m.insert k v).mapValues f = m.mapValues f := by
  refine ext_get? fun l => ?_
  rw [get?_mapValues, get?_mapValues, get?_insert]
  split
  · next hkl =>
    rw [← hkl, hk, Option.map_some, Option.map_some, hf]
  · rfl

theorem insert_insert [DecidableEq κ] (m : OrderedMap κ α) (k : κ) (v w : α) :
    (m.insert k v).insert k w = m.insert k w := by
  refine ext_get? fun l => ?_
  simp only [get?_insert]
  split <;> rfl

theorem insert_comm [DecidableEq κ] {k l : κ} (hkl : k ≠ l) (m : OrderedMap κ α) (v w : α) :
    (m.insert k v).insert l w = (m.insert l w).insert k v := by
  refine ext_get? fun j => ?_
  simp only [get?_insert]
  by_cases hj : l = j
  · rw [if_pos hj, if_neg (hj ▸ hkl), if_pos hj]
  · rw [if_neg hj, if_neg hj]

/-- Maps are the same if their values are the same up to what `f` leaves out and then altogether. -/
theorem eq_of_mapValues (h : m.mapValues f = m'.mapValues f)
    (hinj : ∀ k v w, m.get? k = some v → m'.get? k = some w → f v = f w → v = w) : m = m' := by
  refine ext_get? fun k => ?_
  have hk := congrArg (·.get? k) h
  simp only [get?_mapValues] at hk
  cases hv : m.get? k with
  | none =>
    rw [hv, Option.map_none] at hk
    exact (Option.map_eq_none_iff.mp hk.symm).symm
  | some v =>
    rw [hv, Option.map_some] at hk
    obtain ⟨w, hw, hvw⟩ := Option.map_eq_some_iff.mp hk.symm
    rw [hw, hinj k v w hv hw hvw.symm]

end OrderedMap

/-! ## Specifications and their counts -/

/-- A flowlet without its instance count. -/
def Flowlet.unscaled (x : Flowlet) : Flowlet := { x with instances := 0 }

/-- A runnable without its instance count. -/
def Runnable.unscaled (x : Runnable) : Runnable := { x with instances := 0 }

/-- A procedure without its instance count. -/
def Procedure.unscaled (x : Procedure) : Procedure := { x with instances := 0 }

/-- A flow without its instance counts. -/
def Flow.unscaled (f : Flow) : Flow :=
  { f with flowlets := f.flowlets.mapValues Flowlet.unscaled }

/-- A service without its instance counts. -/
def Service.unscaled (v : Service) : Service :=
  { v with runnables := v.runnables.mapValues Runnable.unscaled }

/-- A specification without its instance counts. -/
def Specification.unscaled (s : Specification) : Specification :=
  { s with
    flows := s.flows.mapValues Flow.unscaled
    services := s.services.mapValues Service.unscaled
    procedures := s.procedures.mapValues Procedure.unscaled }

namespace Scalable

/-- The instance count of a part of the program with a name, if there is that part. -/
def instances? (s : Specification) (name : String) : Scalable → Option UInt32
  | flowlet part => (s.flows.get? name).bind fun f => (f.flowlets.get? part).map (·.instances)
  | runnable part => (s.services.get? name).bind fun v => (v.runnables.get? part).map (·.instances)
  | procedure => (s.procedures.get? name).map (·.instances)

/-- The name of a part within its program. A procedure is its own only part. -/
def part : Scalable → String
  | flowlet name | runnable name => name
  | procedure => ""

variable {s s' : Specification} {p q : ProgramId} {x y : Scalable} {n c : UInt32} {name : String}

/-- **A count is looked up by the kind and name of the program**, and then by the part. -/
theorem count_eq (s : Specification) (p : ProgramId) (x : Scalable) : x.count s p =
    match s.program? x.kind p.name, x.instances? s p.name with
    | none, _ => .error (.programNotFound p x.kind)
    | some _, none => .error (.runnableNotFound p x.kind x.part)
    | some _, some n => .ok n := by
  cases x with
  | flowlet part =>
    simp only [count, kind, Specification.program?, instances?, Scalable.part]
    cases s.flows.get? p.name with
    | none => rfl
    | some f => cases hpart : f.flowlets.get? part <;> simp [hpart]
  | runnable part =>
    simp only [count, kind, Specification.program?, instances?, Scalable.part]
    cases s.services.get? p.name with
    | none => rfl
    | some v => cases hpart : v.runnables.get? part <;> simp [hpart]
  | procedure =>
    simp only [count, kind, Specification.program?, instances?]
    cases s.procedures.get? p.name <;> rfl

/-- A part belongs to a program of its kind. -/
theorem isSome_program?_of_instances? (h : x.instances? s name = some n) :
    (s.program? x.kind name).isSome := by
  cases x with
  | flowlet part =>
    simp only [instances?, Option.bind_eq_some_iff] at h
    obtain ⟨f, hf, -⟩ := h
    simp [kind, Specification.program?, hf]
  | runnable part =>
    simp only [instances?, Option.bind_eq_some_iff] at h
    obtain ⟨v, hv, -⟩ := h
    simp [kind, Specification.program?, hv]
  | procedure =>
    simp only [instances?, Option.map_eq_some_iff] at h
    obtain ⟨y, hy, -⟩ := h
    simp [kind, Specification.program?, hy]

theorem count_eq_ok_iff : x.count s p = .ok n ↔ x.instances? s p.name = some n := by
  rw [count_eq]
  constructor
  · intro h
    split at h
    · cases h
    · cases h
    · next hn => exact (Except.ok.inj h) ▸ hn
  · intro h
    obtain ⟨d, hd⟩ := Option.isSome_iff_exists.mp (isSome_program?_of_instances? h)
    rw [hd, h]

end Scalable

/-- A specification that has programs of the same kinds and names has the same programs. -/
theorem Specification.isSome_program?_unscaled (s : Specification) (kind : ProgramKind)
    (name : String) : (s.unscaled.program? kind name).isSome = (s.program? kind name).isSome := by
  cases kind <;> simp [program?, unscaled, OrderedMap.get?_mapValues]

/-- **A specification is what it is without its counts, together with these.** -/
theorem Specification.ext_counts {s s' : Specification} (h : s.unscaled = s'.unscaled)
    (hcounts : ∀ name (x : Scalable), x.instances? s name = x.instances? s' name) : s = s' := by
  have hflows : s.flows = s'.flows := by
    refine OrderedMap.eq_of_mapValues (congrArg Specification.flows h) fun name f f' hf hf' he => ?_
    -- The parts of a flow differ at most in their counts, which are those that are read.
    have hparts : f.flowlets = f'.flowlets := by
      have hsame : f.flowlets.mapValues Flowlet.unscaled = f'.flowlets.mapValues _ :=
        congrArg Flow.flowlets he
      refine OrderedMap.eq_of_mapValues hsame fun part y y' hy hy' he => ?_
      have hcount := hcounts name (.flowlet part)
      simp only [Scalable.instances?, hf, hf', Option.bind_some, hy, hy', Option.map_some,
        Option.some.injEq] at hcount
      obtain ⟨⟩ := y
      obtain ⟨⟩ := y'
      simp_all [Flowlet.unscaled]
    obtain ⟨⟩ := f
    obtain ⟨⟩ := f'
    simp_all [Flow.unscaled]
  have hservices : s.services = s'.services := by
    refine OrderedMap.eq_of_mapValues (congrArg Specification.services h)
      fun name v v' hv hv' he => ?_
    have hparts : v.runnables = v'.runnables := by
      have hsame : v.runnables.mapValues Runnable.unscaled = v'.runnables.mapValues _ :=
        congrArg Service.runnables he
      refine OrderedMap.eq_of_mapValues hsame fun part y y' hy hy' he => ?_
      have hcount := hcounts name (.runnable part)
      simp only [Scalable.instances?, hv, hv', Option.bind_some, hy, hy', Option.map_some,
        Option.some.injEq] at hcount
      obtain ⟨⟩ := y
      obtain ⟨⟩ := y'
      simp_all [Runnable.unscaled]
    obtain ⟨⟩ := v
    obtain ⟨⟩ := v'
    simp_all [Service.unscaled]
  have hprocedures : s.procedures = s'.procedures := by
    refine OrderedMap.eq_of_mapValues (congrArg Specification.procedures h)
      fun name y y' hy hy' he => ?_
    have hcount := hcounts name .procedure
    simp only [Scalable.instances?, hy, hy', Option.map_some, Option.some.injEq] at hcount
    obtain ⟨⟩ := y
    obtain ⟨⟩ := y'
    simp_all [Procedure.unscaled]
  obtain ⟨⟩ := s
  obtain ⟨⟩ := s'
  simp_all [Specification.unscaled]

/-! ## Setting a count -/

/-- One specification is another with the instance count of one part set: nothing else differs. -/
structure Scalable.Patches (x : Scalable) (name : String) (n : UInt32) (s s' : Specification) :
    Prop where
  count : x.instances? s' name = some n
  others : ∀ name' (y : Scalable), (name', y) ≠ (name, x) →
    y.instances? s' name' = y.instances? s name'
  rest : s'.unscaled = s.unscaled

namespace Scalable

variable {s s' : Specification} {p q : ProgramId} {x y : Scalable} {n c d : UInt32} {name : String}

theorem unscaled_setCount (s : Specification) (p : ProgramId) (x : Scalable) (n : UInt32) :
    (x.setCount s p n).unscaled = s.unscaled := by
  cases x with
  | flowlet part =>
    simp only [setCount]
    cases hf : s.flows.get? p.name with
    | none => rfl
    | some f =>
      simp only
      cases hpart : f.flowlets.get? part with
      | none => rfl
      | some y =>
        simp only [Specification.unscaled]
        rw [OrderedMap.mapValues_insert_of_get? hf]
        simp only [Flow.unscaled]
        rw [OrderedMap.mapValues_insert_of_get? hpart]
        rfl
  | runnable part =>
    simp only [setCount]
    cases hv : s.services.get? p.name with
    | none => rfl
    | some v =>
      simp only
      cases hpart : v.runnables.get? part with
      | none => rfl
      | some y =>
        simp only [Specification.unscaled]
        rw [OrderedMap.mapValues_insert_of_get? hv]
        simp only [Service.unscaled]
        rw [OrderedMap.mapValues_insert_of_get? hpart]
        rfl
  | procedure =>
    simp only [setCount]
    cases hy : s.procedures.get? p.name with
    | none => rfl
    | some y =>
      simp only [Specification.unscaled]
      rw [OrderedMap.mapValues_insert_of_get? hy]
      rfl

/-- A part that has an instance count gets the one that is set. -/
theorem instances?_setCount (h : x.instances? s p.name = some c) (n : UInt32) :
    x.instances? (x.setCount s p n) p.name = some n := by
  cases x with
  | flowlet part =>
    obtain ⟨f, hf, hpart⟩ := Option.bind_eq_some_iff.mp h
    obtain ⟨y, hy, -⟩ := Option.map_eq_some_iff.mp hpart
    simp [instances?, setCount, hf, hy, OrderedMap.get?_insert]
  | runnable part =>
    obtain ⟨v, hv, hpart⟩ := Option.bind_eq_some_iff.mp h
    obtain ⟨y, hy, -⟩ := Option.map_eq_some_iff.mp hpart
    simp [instances?, setCount, hv, hy, OrderedMap.get?_insert]
  | procedure =>
    obtain ⟨y, hy, -⟩ := Option.map_eq_some_iff.mp h
    simp [instances?, setCount, hy, OrderedMap.get?_insert]

theorem instances?_setCount_of_ne (h : (name, y) ≠ (p.name, x)) :
    y.instances? (x.setCount s p n) name = y.instances? s name := by
  cases x with
  | flowlet part =>
    simp only [setCount]
    cases hf : s.flows.get? p.name with
    | none => rfl
    | some f =>
      simp only
      cases hpart : f.flowlets.get? part with
      | none => rfl
      | some z =>
        cases y with
        | flowlet part' =>
          simp only [instances?, OrderedMap.get?_insert]
          -- Two flowlets of one flow differ in their own names.
          by_cases hname : p.name = name
          · subst hname
            have hne : part ≠ part' := fun he => h (by rw [he])
            simp [hne, hf, OrderedMap.get?_insert]
          · simp [hname]
        | runnable | procedure => rfl
  | runnable part =>
    simp only [setCount]
    cases hv : s.services.get? p.name with
    | none => rfl
    | some v =>
      simp only
      cases hpart : v.runnables.get? part with
      | none => rfl
      | some z =>
        cases y with
        | runnable part' =>
          simp only [instances?, OrderedMap.get?_insert]
          by_cases hname : p.name = name
          · subst hname
            have hne : part ≠ part' := fun he => h (by rw [he])
            simp [hne, hv, OrderedMap.get?_insert]
          · simp [hname]
        | flowlet | procedure => rfl
  | procedure =>
    simp only [setCount]
    cases hz : s.procedures.get? p.name with
    | none => rfl
    | some z =>
      cases y with
      | procedure =>
        have hname : p.name ≠ name := fun he => h (by rw [he])
        simp [instances?, OrderedMap.get?_insert, hname]
      | flowlet | runnable => rfl

/-- **To set a count is to patch that count.** -/
theorem patches_setCount (h : x.instances? s p.name = some c) (n : UInt32) :
    x.Patches p.name n s (x.setCount s p n) where
  count := instances?_setCount h n
  others _ _ hne := instances?_setCount_of_ne hne
  rest := unscaled_setCount s p x n

theorem isSome_program?_setCount (kind : ProgramKind) (name : String) :
    ((x.setCount s p n).program? kind name).isSome = (s.program? kind name).isSome := by
  rw [← Specification.isSome_program?_unscaled, unscaled_setCount,
    Specification.isSome_program?_unscaled]

/-- What is answered about one part does not depend on the count of another. -/
theorem count_setCount_of_ne (h : (q.name, y) ≠ (p.name, x)) :
    y.count (x.setCount s p n) q = y.count s q := by
  have hprogram := isSome_program?_setCount (s := s) (p := p) (x := x) (n := n) y.kind q.name
  rw [count_eq, count_eq, instances?_setCount_of_ne h]
  cases hd : s.program? y.kind q.name with
  | none =>
    rw [hd] at hprogram
    rw [Option.isNone_iff_eq_none.mp (Option.isSome_eq_false_iff.mp hprogram)]
  | some d =>
    rw [hd] at hprogram
    obtain ⟨d', hd'⟩ := Option.isSome_iff_exists.mp hprogram
    rw [hd']
    cases y.instances? s q.name <;> rfl

/-- **Counts of different parts are set in any order.** -/
theorem setCount_comm (hne : (q.name, y) ≠ (p.name, x)) (hx : x.instances? s p.name = some c)
    (hy : y.instances? s q.name = some d) (n n' : UInt32) :
    y.setCount (x.setCount s p n) q n' = x.setCount (y.setCount s q n') p n := by
  have hy' : y.instances? (x.setCount s p n) q.name = some d := by
    rw [instances?_setCount_of_ne hne, hy]
  have hx' : x.instances? (y.setCount s q n') p.name = some c := by
    rw [instances?_setCount_of_ne hne.symm, hx]
  have hfirst := patches_setCount hx n
  have hsecond := patches_setCount hy n'
  have hlater := patches_setCount hy' n'
  have hlater' := patches_setCount hx' n
  -- Both sides patch the same two counts, so they read alike everywhere.
  refine Specification.ext_counts ?_ fun name z => ?_
  · rw [hlater.rest, hfirst.rest, hlater'.rest, hsecond.rest]
  · by_cases hzx : (name, z) = (p.name, x)
    · obtain ⟨rfl, rfl⟩ := Prod.mk.inj hzx
      rw [hlater.others _ _ hne.symm, hfirst.count, hlater'.count]
    · rw [hlater'.others name z hzx]
      by_cases hzy : (name, z) = (q.name, y)
      · obtain ⟨rfl, rfl⟩ := Prod.mk.inj hzy
        rw [hlater.count, hsecond.count]
      · rw [hlater.others name z hzy, hfirst.others name z hzx, hsecond.others name z hzy]

end Scalable

end AppRegistry
