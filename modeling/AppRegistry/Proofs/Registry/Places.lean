import AppRegistry.Proofs.Registry.Keys

/-!
# The layout is unambiguous

A record is stored for one thing (`Place`), and scans and removals work below one key (`Scope`).

**Theorem (`layout_unambiguous`).** A place has a key if its names are valid components, and then a
key of its own. The key lies below the keys over its own account only, in a scope of its own keyspace
only, and there only with its own program or application.

Every key starts with its keyspace and its account, as components and not as texts (`spells_key`). So
neither a keyspace nor an account whose name starts another one's can be taken for it, whatever the
names below look like.
-/

namespace AppRegistry

/-- What a record is stored for. -/
inductive Place where
  | application (id : ApplicationId)
  | stream (a : AccountId) (name : String)
  | dataset (a : AccountId) (name : String)
  | run (p : ProgramId) (start : Int64) (r : RunId)
  | runIndex (p : ProgramId) (r : RunId)
  | arguments (p : ProgramId)
deriving DecidableEq, Repr

/-- What is scanned or removed at once: all of an account in a keyspace (its listings and its
removal), the arguments of the programs of an application (its removal), or the runs of a program
(its history and its active runs). -/
inductive Scope where
  | account (s : Keyspace) (a : AccountId)
  | arguments (id : ApplicationId)
  | runs (p : ProgramId)
deriving DecidableEq, Repr

variable {k base : Key}

namespace Place

/-- The key of a place. -/
def key : Place → Except KeyError Key
  | application id => Layout.application id
  | stream a name => Layout.stream a name
  | dataset a name => Layout.dataset a name
  | run p start r => Layout.run p start r
  | runIndex p r => Layout.runIndex p r
  | arguments p => Layout.arguments p

/-- The keyspace of a place. -/
def keyspace : Place → Keyspace
  | application _ => .applications
  | stream _ _ => .streams
  | dataset _ _ => .datasets
  | run _ _ _ => .runs
  | runIndex _ _ => .runIndex
  | arguments _ => .arguments

/-- The account that a place belongs to. -/
def account : Place → AccountId
  | application id => id.account
  | stream a _ | dataset a _ => a
  | run p _ _ | runIndex p _ | arguments p => p.account

/-- What follows the account in the key of a place. -/
def rest : Place → List String
  | application id => [id.name]
  | stream _ name | dataset _ name => [name]
  | run p start r => [p.application.name, p.name, Layout.descending start, r.name]
  | runIndex p r => [p.application.name, p.name, r.name]
  | arguments p => [p.application.name, p.name]

/-- The names that enter the key of a place. -/
def names : Place → List String
  | application id => [id.account.name, id.name]
  | stream a name | dataset a name => [a.name, name]
  | run p _ r | runIndex p r => [p.account.name, p.application.name, p.name, r.name]
  | arguments p => [p.account.name, p.application.name, p.name]

variable {x y : Place}

theorem spells_key (x : Place) :
    Layout.Spells x.key (x.keyspace.name :: x.account.name :: x.rest) := by
  cases x with
  | application id => exact Layout.spells_ofApplication .applications id
  | stream a name => exact Layout.spells_stream a name
  | dataset a name => exact Layout.spells_dataset a name
  | run p start r => exact Layout.spells_run p start r
  | runIndex p r => exact Layout.spells_runIndex p r
  | arguments p => exact Layout.spells_ofProgram .arguments p

theorem holds_key (h : x.key = .ok k) : x.keyspace.Holds x.account k :=
  x.spells_key.holds h List.prefix_rfl

/-- A place has a key if its names are valid components. The name of a keyspace is one, and so is
every written time. -/
theorem exists_key_iff (x : Place) :
    (∃ k, x.key = .ok k) ↔ ∀ name ∈ x.names, Component.IsValid name := by
  rw [x.spells_key.isOk_iff, List.forall_mem_cons, and_iff_right x.keyspace.isValid_name]
  cases x <;> simp [account, rest, names, Layout.isValid_descending]

/-- **A place has a key of its own.** The keyspace tells the kind of the place, and within a kind the
components tell all of it. -/
theorem eq_of_key (hx : x.key = .ok k) (hy : y.key = .ok k) : x = y := by
  have hkeyspace : x.keyspace = y.keyspace := ((holds_key hx).unique (holds_key hy)).1
  cases x with
  | application id =>
    cases y with
    | application id' => rw [Layout.ofApplication_inj hx hy]
    | _ => cases hkeyspace
  -- The keys of streams and datasets are built as that of an application of the account is.
  | stream a name =>
    cases y with
    | stream a' name' =>
      have hsame : a.application name = a'.application name' := Layout.ofApplication_inj hx hy
      cases hsame
      rfl
    | _ => cases hkeyspace
  | dataset a name =>
    cases y with
    | dataset a' name' =>
      have hsame : a.application name = a'.application name' := Layout.ofApplication_inj hx hy
      cases hsame
      rfl
    | _ => cases hkeyspace
  | run p start r =>
    cases y with
    | run p' start' r' =>
      obtain ⟨rfl, rfl, rfl⟩ := Layout.run_inj hx hy
      rfl
    | _ => cases hkeyspace
  | runIndex p r =>
    cases y with
    | runIndex p' r' =>
      obtain ⟨rfl, rfl⟩ := Layout.runIndex_inj hx hy
      rfl
    | _ => cases hkeyspace
  | arguments p =>
    cases y with
    | arguments p' => rw [Layout.ofProgram_inj hx hy]
    | _ => cases hkeyspace

end Place

namespace Scope

/-- The key at or below which a scope lies. -/
def key : Scope → Except KeyError Key
  | account s a => Layout.ofAccount s a
  | arguments id => Layout.ofApplication .arguments id
  | runs p => Layout.ofProgram .runs p

/-- The keyspace that a scope is meant for. -/
def keyspace : Scope → Keyspace
  | account s _ => s
  | arguments _ => .arguments
  | runs _ => .runs

/-- A scope lies in its keyspace, with one account. -/
theorem exists_holds {scope : Scope} (h : scope.key = .ok base) (hk : k.isBelow base = true) :
    ∃ a, scope.keyspace.Holds a k := by
  have hprefix := Key.isBelow_iff.mp hk
  cases scope with
  | account s a => exact ⟨a, (Layout.spells_ofAccount s a).holds h hprefix⟩
  | arguments id =>
    exact ⟨id.account, (Layout.spells_ofApplication .arguments id).holds h hprefix⟩
  | runs p => exact ⟨p.account, (Layout.spells_ofProgram .runs p).holds h hprefix⟩

end Scope

/-- **The layout is unambiguous.** Two places share a key only if they are the same; a key has one of
the keys over an account above it just if its place belongs to the account; below the key over the
arguments of an application lie those of its programs, and below the key over the runs of a program
its own runs; and no key lies in a scope of another keyspace. -/
theorem layout_unambiguous :
    (∀ x : Place, (∃ k, x.key = .ok k) ↔ ∀ name ∈ x.names, Component.IsValid name) ∧
    (∀ (x y : Place) (k : Key), x.key = .ok k → y.key = .ok k → x = y) ∧
    (∀ (x : Place) (k : Key) (a : AccountId) (keys : List Key), x.key = .ok k →
      Layout.account a = .ok keys →
        ((∃ base ∈ keys, k.isBelow base = true) ↔ x.account = a)) ∧
    (∀ (p : ProgramId) (id : ApplicationId) (k base : Key), Layout.arguments p = .ok k →
      Layout.ofApplication .arguments id = .ok base →
        (k.isBelow base = true ↔ p.application = id)) ∧
    (∀ (p q : ProgramId) (start : Int64) (r : RunId) (k base : Key),
      Layout.run p start r = .ok k → Layout.ofProgram .runs q = .ok base →
        (k.isBelow base = true ↔ p = q)) ∧
    ∀ (x : Place) (scope : Scope) (k base : Key), x.key = .ok k → scope.key = .ok base →
      k.isBelow base = true → x.keyspace = scope.keyspace := by
  refine ⟨Place.exists_key_iff, fun x y k => Place.eq_of_key, fun x k a keys hx hkeys => ?_,
    fun p id k base => Layout.isBelow_ofApplication_iff,
    fun p q start r k base => Layout.isBelow_runs_iff, fun x scope k base hx hbase hbelow => ?_⟩
  · have hholds := Place.holds_key hx
    rw [Layout.isBelow_account_iff hkeys]
    constructor
    · rintro ⟨s, hs⟩
      exact (hholds.unique hs).2
    · rintro rfl
      exact ⟨x.keyspace, hholds⟩
  · obtain ⟨a, ha⟩ := Scope.exists_holds hbase hbelow
    exact ((Place.holds_key hx).unique ha).1

/-- A program all of whose names are the name of a keyspace that starts another one's. -/
def runOfRuns : ProgramId := ⟨⟨⟨"run"⟩, "run"⟩, "run"⟩

theorem layout_unambiguous_runOfRuns : ∃ k l args keys runs base,
    (Place.run runOfRuns 0 ⟨"run"⟩).key = .ok k ∧
    (Place.runIndex runOfRuns ⟨"run"⟩).key = .ok l ∧ k ≠ l ∧
    Layout.account ⟨"run"⟩ = .ok keys ∧ (∃ base ∈ keys, l.isBelow base = true) ∧
    Layout.ofProgram .runs runOfRuns = .ok runs ∧ k.isBelow runs = true ∧
    ¬ l.isBelow runs = true ∧
    Layout.arguments runOfRuns = .ok args ∧
    Layout.ofApplication .arguments ⟨⟨"run"⟩, "runidx"⟩ = .ok base ∧
    ¬ args.isBelow base = true := by
  obtain ⟨hnames, hunique, haccount, harguments, hruns, hscope⟩ := layout_unambiguous
  obtain ⟨k, hk⟩ := (hnames (.run runOfRuns 0 ⟨"run"⟩)).mpr (by decide)
  obtain ⟨l, hl⟩ := (hnames (.runIndex runOfRuns ⟨"run"⟩)).mpr (by decide)
  obtain ⟨args, hargs⟩ := (hnames (.arguments runOfRuns)).mpr (by decide)
  obtain ⟨runs, hbase⟩ := (Layout.spells_ofProgram .runs runOfRuns).isOk (by decide)
  obtain ⟨base, hother⟩ :=
    (Layout.spells_ofApplication .arguments ⟨⟨"run"⟩, "runidx"⟩).isOk (by decide)
  have hkeys : ∃ keys, Layout.account ⟨"run"⟩ = .ok keys := ⟨_, rfl⟩
  obtain ⟨keys, hkeys⟩ := hkeys
  refine ⟨k, l, args, keys, runs, base, hk, hl, ?_, hkeys, (haccount _ l _ keys hl hkeys).mpr rfl,
    hbase, (hruns _ _ 0 _ k runs hk hbase).mpr rfl, ?_, hargs, hother, ?_⟩
  · rintro rfl
    cases hunique _ _ k hk hl
  · intro hbelow
    cases hscope _ (.runs runOfRuns) l runs hl hbase hbelow
  · intro hbelow
    exact absurd ((harguments _ _ args base hargs hother).mp hbelow) (by decide)

end AppRegistry
