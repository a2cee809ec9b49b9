import AppRegistry.Proofs.Registry.InMemory

/-!
# Publications are atomic

A change that the loader must follow has two commit points, that of the store and that of the
loader. Before the first, whatever fails leaves the records as they were and nothing is applied.
After it the change stands, whether or not the loader can apply it.

Main result: `Registry.publication_atomic`, for any loader and for records in memory in any state.
What the loader did is read off a log (`Loader.logged`). The store is not in that log. That it
commits first shows when the loader is exchanged for one that applies the change in another way or
panics over it: the records are the same then (`Registry.CommitsBefore`).

How a request ends is said once (`Request.Ends`), and this is all that the main result needs.
-/

namespace AppRegistry

variable {σ : Type} {L : Loader σ} {m m' : OrderedMap Key Json} {x : Memory} {b : Bool} {y : σ}
  {t : FileTree}

/-! ## A log of what a loader does -/

namespace Loader

/-- What happens to a staged change. -/
inductive Event (υ : Type) where
  | staged (location : ArchiveLocation) (s : Specification) (update : υ)
  | applied (update : υ) (outcome : LoaderOutcome Unit)
  | discarded (update : υ)

/-- What is logged of a change that was to be staged. -/
def Event.ofStaging {υ : Type} (location : ArchiveLocation) (s : Specification) :
    Staging υ → List (Event υ)
  | .staged u => [.staged location s u]
  | _ => []

/-- A loader that also logs what happens to staged changes, the latest last. -/
@[reducible] def logged (L : Loader σ) : Loader (σ × List (Event L.Update)) where
  Update := L.Update
  stage location s := fun (y, log) => do
    let (staging, y) ← (L.stage location s).run y
    pure (staging, y, log ++ Event.ofStaging location s staging)
  apply u := fun (y, log) => do
    let (outcome, y) ← (L.apply u).run y
    pure (outcome, y, log ++ [.applied u outcome])
  discard u := fun (y, log) => do
    let ((), y) ← (L.discard u).run y
    pure ((), y, log ++ [.discarded u])
  load location p kind s := fun (y, log) => do
    let (loaded, y) ← (L.load location p kind s).run y
    pure (loaded, y, log)

section Logged
variable {log : List (Event L.Update)} {location : ArchiveLocation} {s : Specification}
  {staging : Staging L.Update} {y' : σ} {t' : FileTree}

theorem logged_stage_run (h : ((L.stage location s).run y).run t = ((staging, y'), t')) :
    ((L.logged.stage location s).run (y, log)).run t =
      ((staging, y', log ++ Event.ofStaging location s staging), t') := by
  show ((L.stage location s).run y >>= fun z => pure _ : Script _).run t = _
  rw [Script.run_bind, h]
  rfl

theorem logged_apply_run {u : L.Update} {outcome : LoaderOutcome Unit}
    (h : ((L.apply u).run y).run t = ((outcome, y'), t')) :
    ((L.logged.apply u).run (y, log)).run t =
      ((outcome, y', log ++ [.applied u outcome]), t') := by
  show ((L.apply u).run y >>= fun z => pure _ : Script _).run t = _
  rw [Script.run_bind, h]
  rfl

theorem logged_load_run {p : ProgramId} {kind : ProgramKind}
    {loaded : LoaderOutcome LoadedProgram}
    (h : ((L.load location p kind s).run y).run t = ((loaded, y'), t')) :
    ((L.logged.load location p kind s).run (y, log)).run t = ((loaded, y', log), t') := by
  show ((L.load location p kind s).run y >>= fun z => pure _ : Script _).run t = _
  rw [Script.run_bind, h]
  rfl

end Logged

end Loader

/-! ## How a request ends -/

/-- How a request on records in memory ends, with what the loader logs. The records change through
a question that gets through, or through a publication that goes all the way: the loader stages a
change, the change is committed, and what is left is to apply it. -/
inductive Request.Ends (L : Loader σ) (x : Memory) (b : Bool) (y : σ) (t : FileTree) :
    Request → Answer → Memory → Bool → σ → List (Loader.Event L.Update) → FileTree → Prop
  | known (a) : Ends L x b y t (.known a) a x b y [] t
  | failed {rq e x' b' y' t'} (hrecords : x'.records = x.records) :
      Ends L x b y t rq (.error e) x' b' y' [] t'
  | panicked {rq x' b' y' t'} (hrecords : x'.records = x.records) :
      Ends L x b y t rq .panicked x' b' y' [] t'
  | loaded {p kind reply y' t'} : Ends L x b y t (.load p kind) (.reply reply) x b y' [] t'
  | replied {α : Type} {f : α → Reply} {tx : RegistryTransaction α} {reply x'} :
      Ends L x b y t (.ask f tx) (.reply reply) x' b y [] t
  | published {target tx k r m' staged u y₁ t₁ outcome a x' b' y' t'} (hx : x.poisoned = false)
      (hb : b = false) (hrun : tx.runOn x.records = (.done (k, r), m'))
      (hstage : ((L.stage r.location r.specification).run y).run t = ((.staged u, y₁), t₁))
      (hcommit : x.commit staged = x') (hinsert : x' = ⟨m'.insert k (stored r), false⟩)
      (happly : ((L.apply u).run y₁).run t₁ = ((outcome, y'), t'))
      (hleft : (Registry.applyCommitted L ⟨.memory x', false, y₁⟩ target u).run t₁ =
        ((a, ⟨.memory x', b', y'⟩), t')) :
      Ends L x b y t (.publish target tx) a x' b' y'
        [.staged r.location r.specification u, .applied u outcome] t'

/-- The copy that a transaction leaves, with one more record, can be committed. -/
theorem Memory.exists_commit {ε α : Type} {tx : Transaction ε α} {out : Outcome ε α}
    (h : tx.runOn m = (out, m')) (k : Key) (v : Json) :
    ∃ staged, (Memory.mk m false).commit staged = ⟨m'.insert k v, false⟩ := by
  obtain ⟨-, hsees⟩ := (Memory.sees ⟨m, false⟩).run (tx.staysIn_true m)
  rw [h] at hsees
  refine ⟨((Overlay.run ⟨.ofMap m, ∅⟩ tx).2.stage k (some v)).staged, congrArg (Memory.mk · false) ?_⟩
  exact (Changes.applyAll_insert m _ k (some v)).trans (congrArg (·.insert k v) hsees.copy_eq)

namespace Registry

/-- A publication that gets as far as the commit has the change applied next, whichever way the
loader applies it. -/
theorem publish_of_staged (target : String)
    {tx : RegistryTransaction (Key × ApplicationRecord)} {k : Key} {r : ApplicationRecord}
    {u : L.Update} {y₁ : σ} {t₁ : FileTree} (hrun : tx.runOn m = (.done (k, r), m'))
    (hstage : ((L.stage r.location r.specification).run y).run t = ((.staged u, y₁), t₁))
    (apply : L.Update → StateT σ Script (LoaderOutcome Unit)) :
    (serve { L with apply } ⟨.memory ⟨m, false⟩, false, y⟩ (.publish target tx)).run t =
      (applyCommitted { L with apply } ⟨.memory ⟨m'.insert k (stored r), false⟩, false, y₁⟩
        target u).run t₁ := by
  have hserve := publish_inMemory (L := { L with apply }) (m := m) (y := y) (t := t) target tx
  simp only [hrun, hstage] at hserve
  exact hserve

/-- **Every request ends in one of these ways.** -/
theorem serve_logged (L : Loader σ) (x : Memory) (b : Bool) (y : σ) (t : FileTree) (rq : Request) :
    ∃ a x' b' y' log t', (serve L.logged ⟨.memory x, b, (y, [])⟩ rq).run t =
        ((a, ⟨.memory x', b', (y', log)⟩), t') ∧ rq.Ends L x b y t a x' b' y' log t' := by
  -- A poisoned store refuses every transaction, so from here on the store is not poisoned.
  cases hx : x.poisoned with
  | true =>
    have hserve := serve_poisoned (L := L.logged) (s := .memory x) (b := b) (y := (y, []))
      (t := t) hx rq
    cases rq with
    | known a => exact ⟨_, _, _, _, _, _, hserve, .known a⟩
    | _ => exact ⟨_, _, _, _, _, _, hserve, .failed rfl⟩
  | false =>
    obtain ⟨m, poisoned⟩ := x
    obtain rfl : poisoned = false := hx
    cases rq with
    | known a => exact ⟨a, _, b, y, [], t, rfl, .known a⟩
    | ask f tx =>
      have hserve := ask_inMemory (L := L.logged) (m := m) (b := b) (y := (y, [])) (t := t) f tx
      generalize tx.runOn m = runs at hserve
      obtain ⟨a | e | _, m'⟩ := runs
      · exact ⟨_, _, _, _, _, _, hserve, .replied⟩
      · exact ⟨_, _, _, _, _, _, hserve, .failed rfl⟩
      · exact ⟨_, _, _, _, _, _, hserve, .panicked rfl⟩
    | publish target tx =>
      cases b with
      | true => exact ⟨_, _, true, y, [], t, rfl, .failed rfl⟩
      | false =>
        have hserve := publish_inMemory (L := L.logged) (m := m) (y := (y, [])) (t := t) target tx
        generalize hruns : tx.runOn m = runs at hserve
        obtain ⟨⟨k, r⟩ | e | _, m'⟩ := runs
        · generalize hstage : ((L.stage r.location r.specification).run y).run t = staging
          obtain ⟨⟨staging, y₁⟩, t₁⟩ := staging
          simp only [Loader.logged_stage_run hstage] at hserve
          cases staging with
          | refused cause => exact ⟨_, _, _, _, _, _, hserve, .failed rfl⟩
          | panicked => exact ⟨_, _, _, _, _, _, hserve, .panicked rfl⟩
          | staged u =>
            -- In memory the commit cannot fail, so what is left is to apply the change.
            obtain ⟨staged, hcommit⟩ := Memory.exists_commit hruns k (stored r)
            have hleft := applyCommitted_run (L := L) (t := t₁) target u
              (g := ⟨.memory ⟨m'.insert k (stored r), false⟩, false, y₁⟩)
            generalize happly : ((L.apply u).run y₁).run t₁ = applied at hleft
            obtain ⟨⟨outcome, y'⟩, t'⟩ := applied
            simp only [applyCommitted_run, Loader.logged_apply_run happly] at hserve
            cases outcome <;>
              exact ⟨_, _, _, _, _, _, hserve, .published rfl rfl hruns hstage hcommit rfl happly hleft⟩
        · exact ⟨_, _, _, _, _, _, hserve, .failed rfl⟩
        · exact ⟨_, _, _, _, _, _, hserve, .panicked rfl⟩
    | load p kind =>
      have hserve := load_inMemory (L := L.logged) (m := m) (b := b) (y := (y, [])) (t := t) p kind
      generalize ((Application.required p.application).runOn m).1 = out at hserve
      cases out with
      | done r =>
        simp only at hserve
        split at hserve
        · exact ⟨_, _, _, _, _, _, hserve, .failed rfl⟩
        · generalize hload : ((L.load r.location p kind r.specification).run y).run t = loaded
          obtain ⟨⟨loaded, y'⟩, t'⟩ := loaded
          simp only [Loader.logged_load_run hload] at hserve
          cases loaded with
          | error cause => exact ⟨_, _, _, _, _, _, hserve, .failed rfl⟩
          | panicked => exact ⟨_, _, _, _, _, _, hserve, .panicked rfl⟩
          | ok program => exact ⟨_, _, _, _, _, _, hserve, .loaded⟩
      | rejected e => exact ⟨_, _, _, _, _, _, hserve, .failed rfl⟩
      | panicked => exact ⟨_, _, _, _, _, _, hserve, .panicked rfl⟩

end Registry

/-! ## Operations that publish -/

/-- The application whose specification an operation publishes. -/
def Operation.publishes : Operation → Option ApplicationId
  | .addApplication id _ _ => some id
  | .setInstances p _ _ => some p.application
  | _ => none

/-- What is published is the record of the application. -/
theorem Operation.request_of_publishes {op : Operation} {id : ApplicationId}
    (h : op.publishes = some id) (now : Instant) :
    (∃ e, op.request now = .known (.error e)) ∨
      ∃ target tx, op.request now = .publish target tx ∧
        ∀ m k r m', tx.runOn m = (.done (k, r), m') → Layout.application id = .ok k := by
  cases op with
  | addApplication id' s archive =>
    obtain rfl : id' = id := Option.some.inj h
    simp only [Operation.request]
    cases s.instanceCounts.find? (· < 1) with
    | some n => exact .inl ⟨_, rfl⟩
    | none =>
      cases hk : Layout.application id' with
      | error e => exact .inl ⟨_, rfl⟩
      | ok k =>
        refine .inr ⟨_, _, rfl, fun m k' r m' hrun => ?_⟩
        -- The record is read and the catalogs are merged before the key is given back.
        obtain ⟨_, _, -, hrun⟩ := Transaction.of_runOn_bind hrun
        obtain ⟨_, _, -, hrun⟩ := Transaction.of_runOn_bind hrun
        cases hrun
        rfl
  | setInstances p part n =>
    obtain rfl : p.application = id := Option.some.inj h
    simp only [Operation.request]
    split
    · exact .inl ⟨_, rfl⟩
    · refine .inr ⟨_, _, rfl, fun m k r m' hrun => ?_⟩
      obtain ⟨record, _, -, hrun⟩ := Transaction.of_runOn_bind hrun
      split at hrun
      · cases hrun
      · obtain ⟨k', _, hkey, hrun⟩ := Transaction.of_runOn_bind hrun
        cases hrun
        cases hk : Layout.application p.application with
        | error e =>
          rw [hk] at hkey
          cases hkey
        | ok l =>
          rw [hk] at hkey
          cases hkey
          rfl
  | _ => cases h

section Requests
variable {op : Operation} {now : Instant}

/-- An operation that publishes nothing is a question or loads a program. -/
theorem Operation.request_of_not_publishes (h : op.publishes = none) (now : Instant) :
    (∃ (α : Type) (f : α → Reply) (q : Query α), op.request now = q.request f) ∨
      ∃ p kind, op.request now = .load p kind := by
  cases op with
  | addApplication | setInstances => cases h
  | loadProgram p kind => exact .inr ⟨p, kind, rfl⟩
  | _ =>
    simp only [Operation.request]
    exact .inl ⟨_, _, _, rfl⟩

theorem Operation.request_ne_panicked (op : Operation) (now : Instant) :
    op.request now ≠ .known .panicked := by
  cases hop : op.publishes with
  | some id =>
    rcases op.request_of_publishes hop now with ⟨e, h⟩ | ⟨target, tx, h, -⟩ <;> rw [h] <;> nofun
  | none =>
    rcases Operation.request_of_not_publishes hop now with ⟨α, f, (_ | _) | _, h⟩ | ⟨p, kind, h⟩ <;>
      rw [h] <;> nofun

/-- What asks for a publication publishes something. -/
theorem Operation.publishes_of_request {target : String}
    {tx : RegistryTransaction (Key × ApplicationRecord)} (h : op.request now = .publish target tx) :
    ∃ id, op.publishes = some id := by
  cases hop : op.publishes with
  | some id => exact ⟨id, rfl⟩
  | none =>
    rcases Operation.request_of_not_publishes hop now with
      ⟨α, f, (_ | _) | _, h'⟩ | ⟨p, kind, h'⟩ <;> cases h'.symm.trans h

/-- What asks neither for a publication nor fails at once publishes nothing. -/
theorem Operation.publishes_eq_none (op : Operation) (now : Instant)
    (herror : ∀ e, op.request now ≠ .known (.error e))
    (hpublish : ∀ target tx, op.request now ≠ .publish target tx) : op.publishes = none := by
  cases hop : op.publishes with
  | none => rfl
  | some id =>
    rcases op.request_of_publishes hop now with ⟨e, h⟩ | ⟨target, tx, h, -⟩
    · exact absurd h (herror e)
    · exact absurd h (hpublish target tx)

end Requests

namespace Registry

/-- Whether an operation commits before it has a change applied. When the loader is to apply `u`, the
records are already those of `x'`, and what is left to do is to apply `u` on them. This holds for
every way in which the loader might apply it, so no outcome, nor a panic, comes before the commit. -/
structure CommitsBefore (L : Loader σ) (x : Memory) (b : Bool) (y : σ) (now : Instant)
    (op : Operation) (t : FileTree) (x' : Memory) (u : L.Update) (y₁ : σ) (t₁ : FileTree) :
    Prop where
  commits : ∃ staged, x.commit staged = x'
  leaves : ∃ target, ∀ apply, (perform { L with apply } ⟨.memory x, b, y⟩ now op).run t =
    (applyCommitted { L with apply } ⟨.memory x', b, y₁⟩ target u).run t₁

section CommitsBefore
variable {now : Instant} {op : Operation} {x' : Memory} {u : L.Update} {y₁ : σ} {t₁ : FileTree}

/-- Had the loader applied the change, the operation would have got through with the same records. -/
theorem CommitsBefore.of_applies (h : CommitsBefore L x b y now op t x' u y₁ t₁)
    (apply : L.Update → StateT σ Script (LoaderOutcome Unit))
    (happlies : ∀ u y t, (((apply u).run y).run t).1.1 = .ok ()) :
    ∃ y₂ t₂, (perform { L with apply } ⟨.memory x, b, y⟩ now op).run t =
      ((.reply .done, ⟨.memory x', b, y₂⟩), t₂) := by
  obtain ⟨target, hleaves⟩ := h.leaves
  have happlied := happlies u y₁ t₁
  rw [hleaves, applyCommitted_run]
  generalize ((apply u).run y₁).run t₁ = applied at happlied
  obtain ⟨⟨outcome, y₂⟩, t₂⟩ := applied
  obtain rfl : outcome = .ok () := happlied
  exact ⟨y₂, t₂, rfl⟩

/-- A loader that panics over the change leaves the records of the commit, and nothing is published
any more. -/
theorem CommitsBefore.of_panics (h : CommitsBefore L x b y now op t x' u y₁ t₁)
    (apply : L.Update → StateT σ Script (LoaderOutcome Unit))
    (hpanics : ∀ u y t, (((apply u).run y).run t).1.1 = .panicked) :
    ∃ y₂ t₂, (perform { L with apply } ⟨.memory x, b, y⟩ now op).run t =
      ((.panicked, ⟨.memory x', true, y₂⟩), t₂) := by
  obtain ⟨target, hleaves⟩ := h.leaves
  have hpanicked := hpanics u y₁ t₁
  rw [hleaves, applyCommitted_run]
  generalize ((apply u).run y₁).run t₁ = applied at hpanicked
  obtain ⟨⟨outcome, y₂⟩, t₂⟩ := applied
  obtain rfl : outcome = .panicked := hpanicked
  exact ⟨y₂, t₂, rfl⟩

end CommitsBefore

/-- **Operations and the loader are atomic together.** Take any loader and records in memory in any
state. An operation that fails leaves the records as they were and applies nothing, unless it is the
application of a staged change that fails. In this case the operation fails with the cause, and the
records are those that it would have left had the loader applied the change. Whatever is applied is
applied after the commit. A deployment or a change of an instance count that gets through has staged
and applied one change, that for the specification that is now stored. -/
theorem publication_atomic (L : Loader σ) (x : Memory) (b : Bool) (y : σ) (now : Instant)
    (op : Operation) (t : FileTree) :
    ∃ a x' b' y' log t', (perform L.logged ⟨.memory x, b, (y, [])⟩ now op).run t =
        ((a, ⟨.memory x', b', (y', log)⟩), t') ∧
      (∀ e, a = .error e → (∀ u cause, .applied u (.error cause) ∉ log) →
        x'.records = x.records ∧ ∀ u outcome, .applied u outcome ∉ log) ∧
      (∀ u cause, .applied u (.error cause) ∈ log → (∃ target, a = .error (.loader target cause)) ∧
        ∀ apply, (∀ u y t, (((apply u).run y).run t).1.1 = .ok ()) →
          ∃ y₁ t₁, (perform { L with apply } ⟨.memory x, b, y⟩ now op).run t =
            ((.reply .done, ⟨.memory x', b', y₁⟩), t₁)) ∧
      (∀ u outcome, .applied u outcome ∈ log → ∃ y₁ t₁,
        CommitsBefore L x b y now op t x' u y₁ t₁ ∧
          ((L.apply u).run y₁).run t₁ = ((outcome, y'), t')) ∧
      ∀ id reply, op.publishes = some id → a = .reply reply →
        ∃ (k : Key) (record : ApplicationRecord) (u : L.Update) (y₁ : σ) (t₁ : FileTree),
          Layout.application id = .ok k ∧ x'.records.get? k = some (stored record) ∧
          ((L.stage record.location record.specification).run y).run t = ((.staged u, y₁), t₁) ∧
          CommitsBefore L x b y now op t x' u y₁ t₁ ∧
          ((L.apply u).run y₁).run t₁ = ((.ok (), y'), t') ∧
          log = [.staged record.location record.specification u, .applied u (.ok ())] := by
  have hperform : ∀ L : Loader σ, perform L ⟨.memory x, b, y⟩ now op =
      serve L ⟨.memory x, b, y⟩ (op.request now) := fun L => perform_eq_serve now op
  rw [perform_eq_serve]
  obtain ⟨a, x', b', y', log, t', hserve, hends⟩ := serve_logged L x b y t (op.request now)
  refine ⟨a, x', b', y', log, t', hserve, ?_⟩
  generalize hrq : op.request now = rq at hserve hends hperform
  have hnone : ∀ u outcome, Loader.Event.applied u outcome ∉ ([] : List (Loader.Event L.Update)) :=
    fun _ _ => List.not_mem_nil
  cases hends with
  | known a =>
    refine ⟨fun _ _ _ => ⟨rfl, hnone⟩,
      fun _ _ hmem => absurd hmem (hnone _ _),
      fun _ _ hmem => absurd hmem (hnone _ _), ?_⟩
    rintro id reply hop rfl
    rcases op.request_of_publishes hop now with ⟨e, hreq⟩ | ⟨target, tx, hreq, -⟩
    · cases hreq.symm.trans hrq
    · cases hreq.symm.trans hrq
  | failed hrecords | panicked hrecords =>
    refine ⟨fun _ _ _ => ⟨hrecords, hnone⟩,
      fun _ _ hmem => absurd hmem (hnone _ _),
      fun _ _ hmem => absurd hmem (hnone _ _), ?_⟩
    rintro id reply - ⟨⟩
  | loaded | replied =>
    refine ⟨?_, fun _ _ hmem => absurd hmem (hnone _ _),
      fun _ _ hmem => absurd hmem (hnone _ _), fun id reply hop _ => ?_⟩
    · rintro e ⟨⟩
    · rcases op.request_of_publishes hop now with ⟨e, hreq⟩ | ⟨target, tx, hreq, -⟩
      · cases hreq.symm.trans hrq
      · cases hreq.symm.trans hrq
  | @published target tx k r m' staged u y₁ t₁ outcome _ _ _ _ _ hx hb hrun hstage hcommit hinsert
      happly hleft =>
    obtain ⟨m, poisoned⟩ := x
    obtain rfl : poisoned = false := hx
    obtain rfl : b = false := hb
    have hbefore : CommitsBefore L ⟨m, false⟩ false y now op t x' u y₁ t₁ := by
      refine ⟨⟨staged, hcommit⟩, target, fun apply => ?_⟩
      rw [hperform, hinsert]
      exact publish_of_staged target hrun hstage apply
    have honly : ∀ u' outcome', Loader.Event.applied u' outcome' ∈
        [.staged r.location r.specification u, .applied u outcome] →
        u' = u ∧ outcome' = outcome := by
      simp
    -- What is left once the change is committed decides the answer.
    rw [applyCommitted_run, happly] at hleft
    refine ⟨fun e ha hunapplied => ?_, fun u' cause hmem => ?_, fun u' outcome' hmem => ?_,
      fun id reply hop ha => ?_⟩
    · cases outcome with
      | error cause => exact absurd (by simp) (hunapplied u cause)
      | ok | panicked =>
        cases hleft
        cases ha
    · obtain ⟨rfl, rfl⟩ := honly _ _ hmem
      cases hleft
      exact ⟨⟨target, rfl⟩, fun apply happlies => hbefore.of_applies apply happlies⟩
    · obtain ⟨rfl, rfl⟩ := honly _ _ hmem
      exact ⟨y₁, t₁, hbefore, happly⟩
    · cases outcome with
      | error | panicked =>
        cases hleft
        cases ha
      | ok v =>
        rcases op.request_of_publishes hop now with ⟨e, hreq⟩ | ⟨target', tx', hreq, hkey⟩
        · cases hreq.symm.trans hrq
        · cases hreq.symm.trans hrq
          refine ⟨k, r, u, y₁, t₁, hkey _ _ _ _ hrun, ?_, hstage, hbefore, happly, rfl⟩
          rw [hinsert, OrderedMap.get?_insert, if_pos rfl]

/-! ### A loader that cannot apply a change -/

/-- A loader that stages every change and can apply none. -/
def unable : Loader Unit :=
  { Loader.ofSpecification Unit with apply := fun _ => pure (.error (.other "read only")) }

/-- The deployment of an application without any part. -/
def deployment : Operation :=
  .addApplication ⟨⟨"acme"⟩, "shop"⟩ ⟨"shop", "", ∅, ∅, ∅, ∅, ∅, ∅, ∅⟩ ⟨"shop.jar"⟩

/-- The time of the deployment. -/
def midnight : Instant := ⟨⟨2024, 5, 1⟩, 0, 0, 0, by decide⟩

/-- The change stands although the loader could not apply it, and it would stand if the loader had
panicked instead. -/
theorem publication_atomic_unable : ∃ target x' b' y' log t' y₁ t₁ y₂ t₂,
    (perform unable.logged ⟨.memory .empty, false, ((), [])⟩ midnight deployment).run .empty =
      ((.error (.loader target (.other "read only")), ⟨.memory x', b', (y', log)⟩), t') ∧
    (perform (.ofSpecification Unit) ⟨.memory .empty, false, ()⟩ midnight deployment).run .empty =
      ((.reply .done, ⟨.memory x', b', y₁⟩), t₁) ∧
    (perform { unable with apply := fun _ => pure .panicked } ⟨.memory .empty, false, ()⟩ midnight
      deployment).run .empty = ((.panicked, ⟨.memory x', true, y₂⟩), t₂) := by
  obtain ⟨a, x', b', y', log, t', hrun, -, hfails, hbefore, -⟩ :=
    publication_atomic unable .empty false () midnight deployment .empty
  have hlog : log = [.staged ⟨"shop.jar"⟩ ⟨"shop", "", ∅, ∅, ∅, ∅, ∅, ∅, ∅⟩ (),
      .applied () (.error (.other "read only"))] :=
    (congrArg (·.1.2.loaderState.2) hrun).symm.trans rfl
  have hmem : .applied () (.error (.other "read only")) ∈ log := by simp [hlog]
  obtain ⟨⟨target, rfl⟩, hother⟩ := hfails () (.other "read only") hmem
  obtain ⟨y₁, t₁, hdone⟩ := hother (Loader.ofSpecification Unit).apply fun _ _ _ => rfl
  obtain ⟨_, _, hcommits, -⟩ := hbefore () _ hmem
  obtain ⟨y₂, t₂, hpanicked⟩ := hcommits.of_panics (fun _ => pure .panicked) fun _ _ _ => rfl
  exact ⟨target, x', b', y', log, t', y₁, t₁, y₂, t₂, hrun, hdone, hpanicked⟩

end Registry

end AppRegistry
