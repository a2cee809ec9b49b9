import AppRegistry.Proofs.Registry.Requests

/-!
# A registry on records in memory

In memory a commit cannot fail, so what a request comes to follows from its transaction on the map
of records and from the steps of the loader, whatever loader it is.

Main results: `Registry.ask_inMemory`, `Registry.load_inMemory` and `Registry.publish_inMemory`, one
for each kind of request that reads the store.
-/

namespace AppRegistry

variable {σ α : Type} {L : Loader σ} {m : OrderedMap Key Json} {y : σ} {t : FileTree}

/-- Records in memory on which no transaction has panicked. -/
def Store.ofMap (m : OrderedMap Key Json) : Store := .memory ⟨m, false⟩

namespace Registry

variable {b : Bool}

/-- **A question** commits what its transaction makes of the records, if that ends with a result. -/
theorem ask_inMemory (f : α → Reply) (tx : RegistryTransaction α) :
    (serve L ⟨.ofMap m, b, y⟩ (.ask f tx)).run t = match tx.runOn m with
      | (.done a, m') => ((.reply (f a), ⟨.ofMap m', b, y⟩), t)
      | (.rejected e, _) => ((.error e, ⟨.ofMap m, b, y⟩), t)
      | (.panicked, _) => ((.panicked, ⟨.memory ⟨m, true⟩, b, y⟩), t) := by
  have htransact := Memory.transact_eq m tx
  simp only [serve, transact, Store.ofMap, Store.transact, Script.run_bind, Script.run_pure,
    htransact]
  rcases tx.runOn m with ⟨_ | _ | _, copy⟩ <;> rfl

/-- **The loading of a program** leaves the records as they are. -/
theorem load_inMemory (p : ProgramId) (kind : ProgramKind) :
    (serve L ⟨.ofMap m, b, y⟩ (.load p kind)).run t =
      match ((Application.required p.application).runOn m).1 with
      | .done r =>
        if (r.specification.program? kind p.name).isNone then
          ((.error (.programNotFound p kind), ⟨.ofMap m, b, y⟩), t)
        else match ((L.load r.location p kind r.specification).run y).run t with
          | ((.error cause, y), t) => ((.error (.loader p.text cause), ⟨.ofMap m, b, y⟩), t)
          | ((.panicked, y), t) => ((.panicked, ⟨.ofMap m, b, y⟩), t)
          | ((.ok program, y), t) => ((.reply (.program program), ⟨.ofMap m, b, y⟩), t)
      | .rejected e => ((.error e, ⟨.ofMap m, b, y⟩), t)
      | .panicked => ((.panicked, ⟨.memory ⟨m, true⟩, b, y⟩), t) := by
  have htransact := Memory.transact_eq m (Application.required p.application)
  have hsame := runOn_required p.application m
  simp only [serve, loadProgram, transact, Store.ofMap, Store.transact, Script.run_bind,
    Script.run_pure, htransact]
  generalize (Application.required p.application).runOn m = runs at hsame
  obtain ⟨out, copy⟩ := runs
  obtain rfl : copy = m := hsame
  cases out with
  | done r =>
    simp only
    split
    · rfl
    · simp only [Script.run_bind, withLoader_run]
      rcases ((L.load r.location p kind r.specification).run y).run t with
        ⟨⟨_ | _ | _, _⟩, _⟩ <;> rfl
  | rejected e => rfl
  | panicked => rfl

/-- **A publication** stages the record that its transaction ends with and commits. What is left is
to apply what was staged, on a registry that has the records of the commit. -/
theorem publish_inMemory (target : String) (tx : RegistryTransaction (Key × ApplicationRecord)) :
    (serve L ⟨.ofMap m, false, y⟩ (.publish target tx)).run t = match tx.runOn m with
      | (.done (k, r), m') =>
        match ((L.stage r.location r.specification).run y).run t with
        | ((.staged u, y), t) =>
          (applyCommitted L ⟨.ofMap (m'.insert k (stored r)), false, y⟩ target u).run t
        | ((.refused cause, y), t) => ((.error (.loader target cause), ⟨.ofMap m, false, y⟩), t)
        | ((.panicked, y), t) => ((.panicked, ⟨.memory ⟨m, true⟩, true, y⟩), t)
      | (.rejected e, _) => ((.error e, ⟨.ofMap m, false, y⟩), t)
      | (.panicked, _) => ((.panicked, ⟨.memory ⟨m, true⟩, true, y⟩), t) := by
  obtain ⟨hout, hsees⟩ := (Memory.sees ⟨m, false⟩).run (tx.staysIn_true m)
  have hview : (Store.ofMap m).view.run t = (.ok ⟨.ofMap m, ∅⟩, t) := rfl
  simp only [serve, publish, Bool.false_eq_true, if_false, Script.run_bind, hview]
  generalize Overlay.run ⟨.ofMap m, ∅⟩ tx = run at hout hsees
  generalize tx.runOn m = runs at hout hsees
  obtain ⟨out, o⟩ := run
  obtain ⟨out', copy⟩ := runs
  obtain rfl : out = out' := hout
  obtain rfl : _ = copy := hsees.copy_eq
  cases out with
  | rejected e => rfl
  | panicked => rfl
  | done e =>
    obtain ⟨k, r⟩ := e
    simp only [Script.run_bind, withLoader_run]
    rcases ((L.stage r.location r.specification).run y).run t with ⟨⟨_ | _ | _, y'⟩, t'⟩
    · next u =>
      have hcommit : ((Store.ofMap m).commit (o.stage k (some (encode r).sorted)).staged).run t' =
          ((.ok (), .ofMap ((Changes.applyAll m o.staged.toList).insert k (stored r))), t') :=
        congrArg (fun m => ((Except.ok (), Store.ofMap m), t'))
          (Changes.applyAll_insert m o.staged k (some (encode r).sorted))
      simp only [commitAndApply, Script.run_bind, hcommit]
    · rfl
    · rfl

end Registry

end AppRegistry
