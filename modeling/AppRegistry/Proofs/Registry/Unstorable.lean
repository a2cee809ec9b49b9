import AppRegistry.Proofs.Registry.Catalog
import AppRegistry.Proofs.Registry.Settling

/-!
# Names that cannot be stored

A name that is no key component can stand in no key, so nothing is ever stored under it. Each
operation takes such a name in one of two ways. One that looks something up or removes something
finds nothing, and one that writes refuses the key.

**Theorem (`unstorable_absent`).** In every reachable state an operation that names something that
cannot be stored is answered as one about something absent (`Operation.FindsNothing`), and the
registry and its files stay as they are.

Where the key that the operation is about cannot be made, its request is already fixed: it looks at
no record whatever the store holds (`Request.Idles`). A deployment is different. It can be stored
itself and still declare a stream or a dataset that cannot, and then it meets the bad name after
other entries of the catalog have been put; its publication is rejected as a whole.
-/

namespace AppRegistry

open RegistryTransaction

variable {σ : Type} {L : Loader σ} {g : Registry σ} {m : OrderedMap Key Json} {t : FileTree}
  {id : ApplicationId} {a : AccountId} {p : ProgramId} {now : Instant}

/-! ## Keys that cannot be made -/

namespace Layout

variable {x : Except KeyError Key} {c : String} {l : List String}

/-- There is no key with a bad component after the keyspace. -/
theorem Spells.isError (h : Spells x (c :: l)) (hl : ∃ d ∈ l, ¬ Component.IsValid d) :
    ∃ e, x = .error e := by
  obtain ⟨d, hd, hbad⟩ := hl
  cases x with
  | error e => exact ⟨e, rfl⟩
  | ok k => exact absurd (h.isValid rfl d (List.mem_cons_of_mem c hd)) hbad

/-- The keys over an account can all be made or none. -/
theorem account_isError {e : KeyError} {s : Keyspace} (h : ofAccount s a = .error e) :
    ∃ e, account a = .error e := by
  cases hkeys : account a with
  | error e => exact ⟨e, rfl⟩
  | ok keys =>
    obtain ⟨k, -, hk⟩ := (mem_of_mapM_eq_ok hkeys).2 s s.mem_all
    cases h.symm.trans hk

end Layout

/-! ## Operations about nothing -/

namespace Operation

/-- The names that enter the keys of what an operation is about. -/
def names : Operation → List String
  | addApplication id s _ => [id.account.name, id.name] ++
    (s.streams.values.map (·.name) ++ s.datasets.values.map (·.name))
  | specification id | location id | lastUpdated id | deletedPrograms id _
  | removeApplication id => [id.account.name, id.name]
  | specifications a | removeApplications a | removeAccount a | streams a | datasets a => [a.name]
  | stream a name | dataset a name => [a.name, name]
  | setInstances p _ _ | instances p _ | loadProgram p _ =>
    [p.application.account.name, p.application.name]
  | startRun p r _ | stopRun p r _ _ | run p r =>
    [p.account.name, p.application.name, p.name, r.name]
  | runHistory p _ _ _ | activeRuns p | setArguments p _ | arguments p =>
    [p.account.name, p.application.name, p.name]

/-- Whether an operation names something that cannot be stored. -/
def Unstorable (op : Operation) : Prop := ∃ c ∈ op.names, ¬ Component.IsValid c

instance (op : Operation) : Decidable op.Unstorable :=
  inferInstanceAs (Decidable (∃ c ∈ op.names, ¬ Component.IsValid c))

/-- Whether an operation is answered as one about something that is not there. To look for it or to
remove it is no error, to change it, to load it or to store something with it is one. -/
def FindsNothing (answer : Answer) : Operation → Prop
  | addApplication _ _ _ => ∃ e, answer = .error e
  | specification _ => answer = .reply (.specification none)
  | location _ => answer = .reply (.location none)
  | lastUpdated _ => answer = .reply (.instant none)
  | specifications _ => answer = .reply (.specifications [])
  | deletedPrograms _ _ => answer = .reply (.programs [])
  | removeApplication _ | removeApplications _ | removeAccount _ => answer = .reply .done
  | streams _ | datasets _ => answer = .reply (.names ∅)
  | stream _ _ => answer = .reply (.stream none)
  | dataset _ _ => answer = .reply (.dataset none)
  | setInstances p _ n => answer =
    .error (if n < 1 then .invalidInstances n else .applicationNotFound p.application)
  | instances p _ | loadProgram p _ => answer = .error (.applicationNotFound p.application)
  | startRun _ _ _ | setArguments _ _ => ∃ e, answer = .error (.storage (.key e))
  | stopRun p r _ _ => answer = .error (.invalidRunState p r .notRunning)
  | run _ _ => answer = .reply (.run none)
  | runHistory _ _ _ _ | activeRuns _ => answer = .reply (.runs [])
  | arguments _ => answer = .reply (.arguments ∅)

end Operation

/-! ## Requests that look at no record -/

/-- Requests that are answered in one way whatever is stored: they go to no record. -/
inductive Request.Idles : Request → Answer → Prop
  | known (answer) : Idles (.known answer) answer
  | replied {α : Type} {f : α → Reply} (b) : Idles (.ask f (pure b)) (.reply (f b))
  | rejected {α : Type} {f : α → Reply} (e) : Idles (.ask f (.reject e)) (.error e)
  | unpublished {target} (e) : Idles (.publish target (.reject e)) (.error e)
  | unloaded {p kind e} (h : Application.required p.application = .reject e) :
    Idles (.load p kind) (.error e)

/-- To commit nothing changes nothing. -/
theorem Store.commit_empty (s : Store) : (s.commit ∅).run t = ((.ok (), s), t) := by
  cases s <;> rfl

namespace Registry

/-- **A request that looks at no record** changes nothing, neither the records nor the loader. -/
theorem IsReady.serve_of_idles (h : g.IsReady) {rq : Request} {answer : Answer}
    (hrq : rq.Idles answer) : (g.serve L rq).run t = ((answer, g), t) := by
  have hpoisoned := h.store.isPoisoned
  cases hrq with
  | known => rfl
  | replied b =>
    have htransact : (g.store.transact (pure b : RegistryTransaction _)).run t =
        ((.committed b, g.store), t) := by
      rw [Store.transact_run hpoisoned]
      show (match ((g.store.commit ∅).run t).1 with | _ => _, ((g.store.commit ∅).run t).2) = _
      rw [Store.commit_empty]
    simp only [serve, transact, Script.run_bind, Script.run_pure, htransact]
    rfl
  | rejected e =>
    simp only [serve, transact, Script.run_bind, Script.run_pure, Store.transact_run hpoisoned]
    rfl
  | unpublished e =>
    simp only [serve, publish, h.fresh, Bool.false_eq_true, if_false, Script.run_bind,
      Store.view_run hpoisoned]
    rfl
  | unloaded hrequired =>
    simp only [serve, loadProgram, transact, Script.run_bind, Script.run_pure, hrequired,
      Store.transact_run hpoisoned]
    rfl

end Registry

/-! ## What becomes of a bad key -/

section BadKeys
variable {e : KeyError}

theorem record?_of_error (h : Layout.application id = .error e) :
    Application.record? id = pure none := by
  unfold Application.record?
  rw [h]

theorem required_of_error (h : Layout.application id = .error e) :
    Application.required id = .reject (.applicationNotFound id) := by
  unfold Application.required
  rw [record?_of_error h]
  rfl

theorem runRecord?_of_error {r : RunId} (h : Layout.runIndex p r = .error e) :
    Run.record? p r = pure none := by
  unfold Run.record?
  rw [h]

/-- What is put into a catalog can be stored. -/
theorem Catalog.Puts.isValid {δ : Type} [Codec δ] {c : Catalog δ} {l : List δ}
    {m' : OrderedMap Key Json} (h : c.Puts a l m m') {name : String} (hname : name ∈ l.map c.name) :
    Component.IsValid name := by
  obtain ⟨d, hd, rfl⟩ := List.mem_map.mp hname
  obtain ⟨k, hk⟩ := h.isOk d hd
  exact (Layout.spells_ofApplication c.keyspace _).isValid hk _ (by simp [AccountId.application])

/-- **A specification that declares what cannot be stored is rejected**, wherever the bad name is
among its streams and datasets. -/
theorem runOn_deploy_of_unstorable (hm : AllStorable m) {k : Key} {s : Specification}
    {archive : ArchiveLocation} {F : Footprint} {target : String}
    (halike : (Request.publish target (Application.deploy id k s archive now)).Alike F
      (.publish target (Application.deploy id k s archive now)))
    (hbad : ∃ c ∈ s.streams.values.map (·.name) ++ s.datasets.values.map (·.name),
      ¬ Component.IsValid c) :
    ∃ e, ((Application.deploy id k s archive now).runOn m).1 = .rejected e := by
  obtain ⟨R, htx⟩ : ∃ R, Alike F R (Application.deploy id k s archive now)
      (Application.deploy id k s archive now) := by
    cases halike with
    | publish htx => exact ⟨_, htx⟩
  have hends := (htx.runOn (hm.agreeOn F.reads)).1
  generalize hruns : (Application.deploy id k s archive now).runOn m = ran at hends
  obtain ⟨out, after⟩ := ran
  cases hends with
  | rejected e => exact ⟨e, rfl⟩
  | done =>
    -- To get through it would have to make a key of the bad name.
    obtain ⟨_, copy, -, hrest⟩ := Transaction.of_runOn_bind hruns
    obtain ⟨_, merged, hmerge, -⟩ := Transaction.of_runOn_bind hrest
    obtain ⟨c, hc, hinvalid⟩ := hbad
    rcases List.mem_append.mp hc with hc | hc
    · exact absurd ((Catalog.merged_streams _ _ _ _ hmerge).isValid hc) hinvalid
    · exact absurd ((Catalog.merged_datasets _ _ _ _ hmerge).isValid hc) hinvalid

end BadKeys

/-! ## Each operation -/

section Operations
open Layout

/-- **Where its own key cannot be made an operation looks at no record**, and it is answered as one
about something absent. -/
theorem Operation.idles_of_unstorable {op : Operation} (h : op.Unstorable)
    (hop : ∀ id s archive, op ≠ .addApplication id s archive) (now : Instant) :
    ∃ answer, (op.request now).Idles answer ∧ op.FindsNothing answer := by
  -- The bad name is in the key that each of these operations makes first.
  cases op with
  | addApplication id s archive => exact absurd rfl (hop id s archive)
  | specification id | location id | lastUpdated id =>
    obtain ⟨e, he⟩ := (spells_ofApplication .applications id).isError h
    simp only [request, Application.ofRecord, record?_of_error he]
    exact ⟨_, .replied none, rfl⟩
  | deletedPrograms id candidate =>
    obtain ⟨e, he⟩ := (spells_ofApplication .applications id).isError h
    simp only [request, Application.deleted, record?_of_error he]
    exact ⟨_, .replied [], rfl⟩
  | removeApplication id =>
    obtain ⟨e, he⟩ := (spells_ofApplication .applications id).isError h
    have hnone : Application.removeOne id = pure () := by
      unfold Application.removeOne
      rw [show Layout.application id = .error e from he]
    simp only [request, Application.remove, hnone]
    exact ⟨_, .replied (), rfl⟩
  | specifications a =>
    obtain ⟨e, he⟩ := (spells_ofAccount .applications a).isError h
    simp only [request, Application.specifications, he]
    exact ⟨_, .known _, rfl⟩
  | removeApplications a =>
    obtain ⟨e, he⟩ := (spells_ofAccount .applications a).isError h
    simp only [request, Application.removeAll, he]
    exact ⟨_, .replied (), rfl⟩
  | removeAccount a =>
    obtain ⟨_, hone⟩ := (spells_ofAccount .applications a).isError h
    obtain ⟨e, he⟩ := account_isError hone
    simp only [request, Account.remove, he]
    exact ⟨_, .known _, rfl⟩
  | streams a =>
    obtain ⟨e, he⟩ := (spells_ofAccount .streams a).isError h
    simp only [request, Account.streams, he]
    exact ⟨_, .replied ∅, rfl⟩
  | datasets a =>
    obtain ⟨e, he⟩ := (spells_ofAccount .datasets a).isError h
    simp only [request, Account.datasets, he]
    exact ⟨_, .replied ∅, rfl⟩
  | stream a name =>
    obtain ⟨e, he⟩ := (spells_stream a name).isError h
    simp only [request, Account.stream, he]
    exact ⟨_, .known _, rfl⟩
  | dataset a name =>
    obtain ⟨e, he⟩ := (spells_dataset a name).isError h
    simp only [request, Account.dataset, he]
    exact ⟨_, .known _, rfl⟩
  | setInstances p x n =>
    obtain ⟨e, he⟩ := (spells_ofApplication .applications p.application).isError h
    simp only [request, Scalable.patch, required_of_error he]
    by_cases hn : n < 1
    · rw [if_pos hn]
      exact ⟨_, .known _, by rw [FindsNothing, if_pos hn]⟩
    · rw [if_neg hn]
      exact ⟨_, .unpublished _, by rw [FindsNothing, if_neg hn]⟩
  | instances p x =>
    obtain ⟨e, he⟩ := (spells_ofApplication .applications p.application).isError h
    simp only [request, Scalable.stored, required_of_error he]
    exact ⟨_, .rejected _, rfl⟩
  | loadProgram p kind =>
    obtain ⟨e, he⟩ := (spells_ofApplication .applications p.application).isError h
    exact ⟨_, .unloaded (required_of_error he), rfl⟩
  | startRun p r time =>
    obtain ⟨e, he⟩ := (spells_runIndex p r).isError h
    simp only [request, Run.start, he]
    exact ⟨_, .rejected _, e, rfl⟩
  | stopRun p r time status =>
    obtain ⟨e, he⟩ := (spells_runIndex p r).isError h
    simp only [request, Run.stop, runRecord?_of_error he]
    exact ⟨_, .rejected _, rfl⟩
  | run p r =>
    obtain ⟨e, he⟩ := (spells_runIndex p r).isError h
    simp only [request, Run.find, runRecord?_of_error he]
    exact ⟨_, .replied none, rfl⟩
  | runHistory p low high limit =>
    obtain ⟨e, he⟩ := (spells_ofProgram .runs p).isError h
    simp only [request, Run.history, he, ite_self]
    exact ⟨_, .known _, rfl⟩
  | activeRuns p =>
    obtain ⟨e, he⟩ := (spells_ofProgram .runs p).isError h
    simp only [request, Run.active, he]
    exact ⟨_, .known _, rfl⟩
  | setArguments p args =>
    obtain ⟨e, he⟩ := (spells_ofProgram .arguments p).isError h
    simp only [request, Run.setArguments, Layout.arguments, he]
    exact ⟨_, .rejected _, e, rfl⟩
  | arguments p =>
    obtain ⟨e, he⟩ := (spells_ofProgram .arguments p).isError h
    simp only [request, Run.arguments, Layout.arguments, he]
    exact ⟨_, .known _, rfl⟩

end Operations

namespace Registry

/-- **A deployment with a name that cannot be stored** is refused and changes nothing. -/
theorem Holds.addApplication_of_unstorable (h : g.Holds m t) {s : Specification}
    {archive : ArchiveLocation} (hbad : (Operation.addApplication id s archive).Unstorable)
    (now : Instant) : ∃ e, (g.serve L ((Operation.addApplication id s archive).request now)).run t =
      ((.error e, g), t) := by
  have halike := (Operation.addApplication id s archive).alike now now
  cases hcounts : s.instanceCounts.find? (· < 1) with
  | some n =>
    simp only [Operation.request, hcounts]
    exact ⟨_, rfl⟩
  | none =>
    cases hk : Layout.application id with
    | error e =>
      simp only [Operation.request, hcounts, hk]
      exact ⟨_, rfl⟩
    | ok k =>
      simp only [Operation.request, hcounts, hk] at halike ⊢
      -- The key of the application can be made, so the bad name is one of a stream or a dataset.
      have hdeclared : ∃ c ∈ s.streams.values.map (·.name) ++ s.datasets.values.map (·.name),
          ¬ Component.IsValid c := by
        obtain ⟨c, hc, hinvalid⟩ := hbad
        rcases List.mem_append.mp hc with hc | hc
        · obtain ⟨e, he⟩ := (Layout.spells_ofApplication .applications id).isError
            ⟨c, hc, hinvalid⟩
          cases hk.symm.trans he
        · exact ⟨c, hc, hinvalid⟩
      obtain ⟨e, he⟩ := runOn_deploy_of_unstorable h.storable halike hdeclared
      obtain ⟨e', hrun, -⟩ := h.publish_of_rejected (L := L) halike he
      exact ⟨e', hrun⟩

/-- **Names that cannot be stored are absent everywhere.** In every reachable state an operation
that names an account, an application, a program, a run, a stream or a dataset that cannot be stored
is answered as one about something that is not there, and neither the registry with its records nor
any file changes. -/
theorem unstorable_absent {past : List (Operation × Answer)} (h : Reached L past g t)
    (now : Instant) (op : Operation) (hop : op.Unstorable) : ∃ answer,
    (perform L g now op).run t = ((answer, g), t) ∧ op.FindsNothing answer := by
  obtain ⟨m, hholds, -⟩ := h.exists_admissible
  rw [perform_eq_serve]
  -- A deployment alone gets as far as reading before it meets a bad name.
  by_cases hadd : ∃ id s archive, op = .addApplication id s archive
  · obtain ⟨id, s, archive, rfl⟩ := hadd
    obtain ⟨e, hrun⟩ := hholds.addApplication_of_unstorable (L := L) hop now
    exact ⟨_, hrun, e, rfl⟩
  · obtain ⟨answer, hidles, hnothing⟩ := Operation.idles_of_unstorable hop
      (fun id s archive heq => hadd ⟨id, s, archive, heq⟩) now
    exact ⟨answer, (holds_iff.mp hholds).2.serve_of_idles hidles, hnothing⟩

/-! ### Names with a dot in front -/

/-- An application that cannot be stored. -/
def hidden : ApplicationId := ⟨⟨"acme"⟩, ".shop"⟩

/-- A shop that declares a stream that can be stored and one that cannot. -/
def leaking : Specification := { streams := .ofList [("in", ⟨"orders"⟩), ("out", ⟨"a/b"⟩)] }

/-- Operations that name something that cannot be stored, each in another place. -/
def unspeakable : List Operation :=
  [.specification hidden, .removeApplication hidden, .removeAccount ⟨""⟩,
    .setInstances (hidden.program "price") .procedure 2, .addApplication shop leaking ⟨"shop.jar"⟩,
    .stopRun (shop.program "price") ⟨"r\\1"⟩ 20 "COMPLETED",
    .setArguments (shop.program ".price") ∅]

theorem unstorable_absent_running : ∃ past g t, Reached (.ofSpecification Unit) past g t ∧
    ∀ op ∈ unspeakable, op.Unstorable ∧ ∃ answer,
      (perform (.ofSpecification Unit) g noon op).run t = ((answer, g), t) ∧
      op.FindsNothing answer := by
  have hreached := reached_settleAll () .empty running (by decide +kernel)
  have hnames : ∀ op ∈ unspeakable, op.Unstorable := by decide +kernel
  exact ⟨_, _, _, hreached, fun op hop =>
    ⟨hnames op hop, unstorable_absent hreached noon op (hnames op hop)⟩⟩

end Registry

end AppRegistry
