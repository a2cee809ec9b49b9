import AppRegistry.Proofs.Registry.Stores
import AppRegistry.Registry.Basic

/-!
# What an operation asks of the store

Each operation comes down to one of four requests: an answer that needs no store, a transaction, a
publication, or the loading of a program (`Operation.request`, `Registry.perform_eq_serve`).

What a request may answer and what it leaves is said once, over a map (`Request.Gives`). A registry
that has the records of a map serves a request in just that way, or it fails or panics and keeps the
map (`Registry.Keeps.serve`). One that can commit fails only for want of room
(`Registry.Holds.serve`).
-/

namespace AppRegistry

variable {σ α : Type} {L : Loader σ} {g : Registry σ} {m : OrderedMap Key Json} {t t' : FileTree}

/-! ## Requests -/

/-- What an operation asks for. -/
inductive Request : Type 1 where
  | known (a : Answer)
  | ask {α : Type} (f : α → Reply) (t : RegistryTransaction α)
  | publish (target : String) (t : RegistryTransaction (Key × ApplicationRecord))
  | load (p : ProgramId) (kind : ProgramKind)

/-- The request of a question. -/
def Query.request (f : α → Reply) : Query α → Request
  | .known (.ok a) => .known (.reply (f a))
  | .known (.error e) => .known (.error e)
  | .ask t => .ask f t

/-- The request of an operation. -/
def Operation.request (now : Instant) : Operation → Request
  | .addApplication id s archive =>
    match s.instanceCounts.find? (· < 1) with
    | some n => .known (.error (.invalidInstances n))
    | none =>
      match Layout.application id with
      | .error e => .known (.error (.storage (.key e)))
      | .ok k => .publish id.text (Application.deploy id k s archive now)
  | .specification id => (Application.ofRecord (·.specification) id).request .specification
  | .location id => (Application.ofRecord (·.location) id).request .location
  | .lastUpdated id => (Application.ofRecord (·.lastUpdated) id).request .instant
  | .specifications a => (Application.specifications a).request .specifications
  | .deletedPrograms id candidate => (Application.deleted id candidate).request .programs
  | .removeApplication id => (Application.remove id).request fun _ => .done
  | .removeApplications a => (Application.removeAll a).request fun _ => .done
  | .removeAccount a => (Account.remove a).request fun _ => .done
  | .streams a => (Account.streams a).request .names
  | .datasets a => (Account.datasets a).request .names
  | .stream a name => (Account.stream a name).request .stream
  | .dataset a name => (Account.dataset a name).request .dataset
  | .setInstances p x n =>
    if n < 1 then .known (.error (.invalidInstances n)) else .publish p.text (x.patch p n now)
  | .instances p x => (x.stored p).request .count
  | .loadProgram p kind => .load p kind
  | .startRun p r time => (Run.start p r time).request fun _ => .done
  | .stopRun p r time status => (Run.stop p r time status).request fun _ => .done
  | .run p r => (Run.find p r).request .run
  | .runHistory p low high limit => (Run.history p low high limit).request .runs
  | .activeRuns p => (Run.active p).request .runs
  | .setArguments p args => (Run.setArguments p args).request fun _ => .done
  | .arguments p => (Run.arguments p).request .arguments

namespace Registry

/-- Answers a request. -/
def serve (L : Loader σ) (g : Registry σ) : Request → Script (Answer × Registry σ)
  | .known a => pure (a, g)
  | .ask f t => do
    let (ending, g) ← g.transact t
    pure (answerOf f ending, g)
  | .publish target t => publish L g target t
  | .load p kind => loadProgram L g p kind

theorem query_eq_serve (f : α → Reply) (q : Query α) : g.query f q = g.serve L (q.request f) := by
  rcases q with (_ | _) | _ <;> rfl

/-- **An operation is answered as its request is.** -/
theorem perform_eq_serve (now : Instant) (op : Operation) :
    perform L g now op = g.serve L (op.request now) := by
  cases op with
  | addApplication id s archive =>
    simp only [perform, addApplication, Operation.request]
    cases s.instanceCounts.find? (· < 1) with
    | some n => rfl
    | none => cases Layout.application id <;> rfl
  | setInstances p x n =>
    simp only [perform, setInstances, Operation.request]
    split <;> rfl
  | loadProgram p kind =>
    simp only [perform, Operation.request]
    rfl
  | _ =>
    simp only [perform, Operation.request]
    exact query_eq_serve _ _

end Registry

/-! ## What a request gives -/

/-- What a request may answer over a map, and the map after it. A publication that got through
leaves its record whatever the loader makes of it afterwards, also if the loader panics. -/
inductive Request.Gives (m : OrderedMap Key Json) :
    Request → Answer → OrderedMap Key Json → Prop
  | known (a) : Gives m (.known a) a m
  | replied {α : Type} {f : α → Reply} {t a m'} (h : t.runOn m = (.done a, m')) :
      Gives m (.ask f t) (.reply (f a)) m'
  | rejected {α : Type} {f : α → Reply} {t e m'} (h : t.runOn m = (.rejected e, m')) :
      Gives m (.ask f t) (.error e) m
  | published {target t k r m' answer} (h : t.runOn m = (.done (k, r), m'))
      (hanswer : answer = .reply .done ∨ (∃ cause, answer = .error (.loader target cause)) ∨
        answer = .panicked) :
      Gives m (.publish target t) answer (m'.insert k (stored r))
  | unpublished {target t} (e) : Gives m (.publish target t) (.error e) m
  | loaded {p kind} (answer) : Gives m (.load p kind) answer m

section Ask
variable {f : α → Reply} {tx : RegistryTransaction α} {a : Answer} {m' copy : OrderedMap Key Json}

theorem Request.Gives.of_done (h : (Request.ask f tx).Gives m a m') (b : α)
    (hrun : tx.runOn m = (.done b, copy)) : a = .reply (f b) ∧ m' = copy := by
  cases h with
  | replied h =>
    cases h.symm.trans hrun
    exact ⟨rfl, rfl⟩
  | rejected h => cases h.symm.trans hrun

theorem Request.Gives.of_reply {r : Reply} (h : (Request.ask f tx).Gives m (.reply r) m') :
    ∃ b, tx.runOn m = (.done b, m') ∧ r = f b := by
  cases h with
  | replied h => exact ⟨_, h, rfl⟩

theorem Request.Gives.of_rejected {e : RegistryError} (h : (Request.ask f tx).Gives m a m')
    (copy : OrderedMap Key Json) (hrun : tx.runOn m = (.rejected e, copy)) :
    a = .error e ∧ m' = m := by
  cases h with
  | replied h => cases h.symm.trans hrun
  | rejected h =>
    cases h.symm.trans hrun
    exact ⟨rfl, rfl⟩

end Ask

/-- Answers that are the same but for the time at which an application was last updated. -/
inductive Answer.Agrees : Answer → Answer → Prop
  | same (a) : Agrees a a
  | updated (i j : Instant) : Agrees (.reply (.instant (some i))) (.reply (.instant (some j)))

/-- Requests that come down to transactions that run alike. -/
inductive Request.Alike (F : Footprint) : Request → Request → Prop
  | known (a) : Request.Alike F (.known a) (.known a)
  | ask {α β : Type} {R : α → β → Prop} {f : α → Reply} {f' : β → Reply} {t t'}
      (h : AppRegistry.Alike F R t t')
      (hf : ∀ a b, R a b → Answer.Agrees (.reply (f a)) (.reply (f' b))) :
      Request.Alike F (.ask f t) (.ask f' t')
  | publish {target t t'}
      (h : AppRegistry.Alike F (fun x y => x.1 = y.1 ∧ F.writes x.1 ∧
        (∃ a, Keyspace.applications.Holds a x.1) ∧ x.2.Agrees y.2) t t') :
      Request.Alike F (.publish target t) (.publish target t')
  | load {p kind}
      (h : AppRegistry.Alike F ApplicationRecord.Agrees (Application.required p.application)
        (Application.required p.application)) :
      Request.Alike F (.load p kind) (.load p kind)

section Gives
variable {F : Footprint} {rq rq' : Request} {a : Answer} {m' : OrderedMap Key Json}

/-- **A key where a request does not write keeps its record.** -/
theorem Request.Gives.get?_eq (h : rq.Gives m a m') (hrq : rq.Alike F rq') (hm : AllStorable m)
    {k : Key} (hk : ¬ F.writes k) : m'.get? k = m.get? k := by
  have hself := hm.agreeOn F.reads
  cases h with
  | known | rejected | unpublished | loaded => rfl
  | replied h =>
    cases hrq with
    | ask halike hf =>
      have hkept := halike.get?_runOn hself hk
      rwa [h] at hkept
  | published h hanswer =>
    cases hrq with
    | publish halike =>
      have hkept := halike.get?_runOn hself hk
      have hend := (halike.runOn hself).1
      rw [h] at hkept hend
      generalize (Transaction.runOn _ m).1 = out at hend
      cases hend with
      | done hxy =>
        rw [OrderedMap.get?_insert, if_neg]
        · exact hkept
        · rintro rfl
          exact hk hxy.2.1

theorem storable_application (r : ApplicationRecord) : Disk.Storable (stored r) :=
  storable_stored (tame_encode_application r) (by decide)

theorem AllStorable.insert (h : AllStorable m) {k : Key} {v : Json} (hv : Disk.Storable v) :
    AllStorable (m.insert k v) := OrderedMap.forall_insert k h hv

theorem Request.Gives.allStorable (h : rq.Gives m a m') (hrq : rq.Alike F rq)
    (hm : AllStorable m) : AllStorable m' := by
  cases h with
  | known | rejected | unpublished | loaded => exact hm
  | replied h =>
    cases hrq with
    | ask halike hf =>
      have hafter := halike.allStorable_runOn hm
      rwa [h] at hafter
  | published h hanswer =>
    cases hrq with
    | publish halike =>
      have hafter := halike.allStorable_runOn hm
      rw [h] at hafter
      exact hafter.insert (storable_application _)

end Gives

/-! ## Transactions on the store -/

/-- A transaction on a store, in its three parts. -/
theorem Store.transact_run {ε : Type} {s : Store} (hpoisoned : s.isPoisoned = false)
    (tx : Transaction ε α) : (s.transact tx).run t =
      match Overlay.run ⟨s.snapshot t, ∅⟩ tx with
      | (.rejected e, _) => ((.rejected e, s), t)
      | (.panicked, _) => ((.panicked, s.poison), t)
      | (.done a, o) => (match ((s.commit o.staged).run t).1 with
        | (.error e, s) => (.failed e, s)
        | (.ok (), s) => (.committed a, s), ((s.commit o.staged).run t).2) := by
  cases s with
  | memory x =>
    have hx : x.poisoned = false := hpoisoned
    have hsnapshot : (Store.memory x).snapshot t = .ofMap x.records := rfl
    simp only [Store.transact, Script.run_pure, Memory.transact, hx, Bool.false_eq_true, if_false,
      hsnapshot]
    rcases Overlay.run ⟨.ofMap x.records, ∅⟩ tx with ⟨_ | _ | _, o⟩ <;> rfl
  | disk d =>
    obtain ⟨root, poisoned⟩ := d
    obtain rfl : poisoned = false := hpoisoned
    simp only [Store.transact, Script.run_bind, Disk.transact_run, Store.snapshot, Store.commit]
    rcases Overlay.run ⟨Disk.snapshot root t, ∅⟩ tx with ⟨_ | _ | _, o⟩
    · simp only
      cases ((Disk.commit root o.staged).run t).1 <;> rfl
    · rfl
    · rfl

theorem Store.transact_poisoned {ε : Type} {s : Store} (hpoisoned : s.isPoisoned = true)
    (tx : Transaction ε α) : (s.transact tx).run t = ((.failed .poisoned, s), t) := by
  cases s with
  | memory x => simp only [Store.transact, Script.run_pure, Memory.transact_of_poisoned hpoisoned]
  | disk d =>
    have hd : d.poisoned = true := hpoisoned
    simp only [Store.transact, Script.run_bind, Disk.transact, hd, if_true, Script.run_pure]

/-- **A transaction on a store that has a map** ends as it does on the map, or it fails and leaves
the map. It fails on a store that can commit only for want of room. -/
theorem Store.Keeps.transact {s : Store} (h : s.Keeps m t) {F : Footprint} {R : α → α → Prop}
    {tx : RegistryTransaction α} (htx : Alike F R tx tx) (hm : AllStorable m) :
    ∃ ending s' t' m', (s.transact tx).run t = ((ending, s'), t') ∧ s'.Keeps m' t' ∧
      s'.root? = s.root? ∧ (s.IsReady → s'.IsReady) ∧
      ((∃ a, tx.runOn m = (.done a, m') ∧ ending = .committed a) ∨
        m' = m ∧ (∃ e m'', tx.runOn m = (.rejected e, m'') ∧ ending = .rejected e) ∨
        m' = m ∧ (∃ e, ending = .rejected (.storage e) ∨ ending = .failed e) ∧
          (s.IsReady → ∃ k, F.reads k ∧ ¬ s.HasRoom k)) := by
  have hself := hm.agreeOn F.reads
  cases hpoisoned : s.isPoisoned with
  | true =>
    refine ⟨_, s, t, m, Store.transact_poisoned hpoisoned tx, h, rfl, id, .inr (.inr ⟨rfl, ?_⟩)⟩
    exact ⟨⟨_, .inr rfl⟩, fun hready => nomatch hpoisoned.symm.trans hready.isPoisoned⟩
  | false =>
    rw [Store.transact_run hpoisoned]
    -- What runs in the overlay ends as on the map, unless a key that is read has no room.
    rcases h.run htx hself with ⟨e, k, hout, hk, hroom⟩ | ⟨hout, hcopy, hstaged⟩
    · generalize Overlay.run ⟨s.snapshot t, ∅⟩ tx = r at hout
      obtain ⟨out, o⟩ := r
      obtain rfl : out = _ := hout
      exact ⟨_, s, t, m, rfl, h, rfl, id, .inr (.inr ⟨rfl, ⟨e, .inl rfl⟩, fun _ => ⟨k, hk, hroom⟩⟩)⟩
    · have hend := (htx.runOn hself).1
      generalize Overlay.run ⟨s.snapshot t, ∅⟩ tx = r at hout hcopy hstaged
      generalize tx.runOn m = runs at hout hcopy hend
      obtain ⟨out, o⟩ := r
      obtain ⟨out', m'⟩ := runs
      obtain rfl : out = out' := hout
      obtain rfl : _ = m' := hcopy
      cases out with
      | panicked => cases hend
      | rejected e => exact ⟨_, s, t, m, rfl, h, rfl, id, .inr (.inl ⟨rfl, e, _, rfl, rfl⟩)⟩
      | done a =>
        rcases h.commit hstaged with ⟨e, t', hcommit, hafter, hroom⟩ |
          ⟨s', t', hcommit, hafter, hroot, hready⟩
        · refine ⟨.failed e, s, t', m, by simp only [hcommit], hafter, rfl, id,
            .inr (.inr ⟨rfl, ⟨e, .inr rfl⟩, fun hready => ?_⟩)⟩
          obtain ⟨k, hk, hnone⟩ := hroom hready
          exact ⟨k, F.reads_of_writes k hk, hnone⟩
        · exact ⟨.committed a, s', t', _, by simp only [hcommit], hafter, hroot, hready,
            .inl ⟨a, rfl, rfl⟩⟩

section StaysIn
variable {s : Store} {ε : Type} {tx : Transaction ε α}

theorem Store.Holds.sees (h : s.Holds m t) :
    Overlay.Sees s.HasRoom ⟨s.snapshot t, ∅⟩ m m := by
  obtain ⟨hkeeps, -⟩ := Store.holds_iff.mp h
  exact ⟨⟨fun k hk => hkeeps.sees.base.get k (hkeeps.get_of_hasRoom hk), hkeeps.sees.base.range⟩,
    hkeeps.sees.copy_eq⟩

/-- Changes for which there is room are committed. -/
theorem Store.Holds.commit (h : s.Holds m t) {staged : Changes}
    (hstaged : staged.StaysIn s.HasRoom Disk.Storable) :
    ∃ s' t', (s.commit staged).run t = ((.ok (), s'), t') ∧
      s'.Holds (Changes.applyAll m staged.toList) t' ∧ s'.root? = s.root? := by
  obtain ⟨hkeeps, hready⟩ := Store.holds_iff.mp h
  rcases hkeeps.commit hstaged with ⟨_, _, _, _, hroom⟩ | ⟨s', t', hrun, hafter, hroot, hstays⟩
  · obtain ⟨k, hk, hnone⟩ := hroom hready
    exact absurd hk hnone
  · exact ⟨s', t', hrun, Store.holds_iff.mpr ⟨hafter, hstays hready⟩, hroot⟩

/-- **A transaction that stays where the store has room** is committed with what it ends with on the
map. Only a scan goes anywhere, for it finds the records of the map whatever room there is. -/
theorem Store.Holds.transact_of_staysIn (h : s.Holds m t) {a : α} {m' : OrderedMap Key Json}
    (hruns : tx.runOn m = (.done a, m')) (hstays : tx.StaysIn s.HasRoom Disk.Storable m) :
    ∃ s' t', (s.transact tx).run t = ((.committed a, s'), t') ∧ s'.Holds m' t' ∧
      s'.root? = s.root? := by
  obtain ⟨-, hready⟩ := Store.holds_iff.mp h
  obtain ⟨hends, hcopy⟩ := h.sees.run hstays
  have hstaged := h.sees.run_staysIn hstays Changes.staysIn_empty
  rw [hruns] at hends hcopy
  rw [Store.transact_run hready.isPoisoned]
  generalize Overlay.run ⟨s.snapshot t, ∅⟩ tx = ran at hends hcopy hstaged
  obtain ⟨out, o⟩ := ran
  obtain rfl : out = .done a := hends
  obtain rfl : _ = m' := hcopy.copy_eq
  obtain ⟨s', t', hcommit, hafter, hroot⟩ := h.commit hstaged
  exact ⟨s', t', by simp only [hcommit], hafter, hroot⟩

/-- A transaction that stays where the store has room changes nothing if it is rejected. -/
theorem Store.Holds.transact_of_rejected (h : s.Holds m t) {e : ε}
    {m' : OrderedMap Key Json} (hruns : tx.runOn m = (.rejected e, m'))
    (hstays : tx.StaysIn s.HasRoom Disk.Storable m) :
    (s.transact tx).run t = ((.rejected e, s), t) := by
  obtain ⟨-, hready⟩ := Store.holds_iff.mp h
  have hends := (h.sees.run hstays).1
  rw [hruns] at hends
  rw [Store.transact_run hready.isPoisoned]
  generalize Overlay.run ⟨s.snapshot t, ∅⟩ tx = ran at hends
  obtain ⟨out, o⟩ := ran
  obtain rfl : out = .rejected e := hends
  rfl

end StaysIn

/-- To ask for a record that has to be there changes nothing. -/
theorem runOn_required (id : ApplicationId) (m : OrderedMap Key Json) :
    ((Application.required id).runOn m).2 = m := by
  unfold Application.required Application.record?
  cases Layout.application id with
  | error e => rfl
  | ok k =>
    rw [Transaction.runOn_bind, runOn_fetch]
    cases m.get? k with
    | none => rfl
    | some v =>
      simp only
      cases (decode? v : Option ApplicationRecord) <;> rfl

/-! ## Loaders beside the store -/

/-- Whether a script leaves all at and below a directory alone. -/
def Script.Spares (root : Path) (x : Script α) : Prop :=
  ∀ t q, root <+: q → (x.run t).2.get? q = t.get? q

/-- Whether a loader leaves all at and below a directory alone. -/
structure Loader.Spares (L : Loader σ) (root : Path) : Prop where
  stage : ∀ l s x, ((L.stage l s).run x).Spares root
  apply : ∀ u x, ((L.apply u).run x).Spares root
  discard : ∀ u x, ((L.discard u).run x).Spares root
  load : ∀ l p kind s x, ((L.load l p kind s).run x).Spares root

/-- Whether an answer tells of a change that was committed and that the loader could not apply: it
fails with the cause, or it panics as the loader does. -/
def Loader.Unapplied (L : Loader σ) (target : String) (a : Answer) : Prop :=
  (∃ cause, a = .error (.loader target cause) ∧
    ∃ u x t, (((L.apply u).run x).run t).1.1 = .error cause) ∨
  a = .panicked ∧ ∃ u x t, (((L.apply u).run x).run t).1.1 = .panicked

/-- Whether a loader never fails to apply a change. -/
def Loader.Applies (L : Loader σ) : Prop := ∀ u x t, (((L.apply u).run x).run t).1.1 = .ok ()

theorem Loader.Applies.not_unapplied (h : L.Applies) (target : String) (a : Answer) :
    ¬ L.Unapplied target a := by
  rintro (⟨cause, -, u, x, t, hfails⟩ | ⟨-, u, x, t, hpanics⟩)
  · cases (h u x t).symm.trans hfails
  · cases (h u x t).symm.trans hpanics

/-- Whether the loader applied all that was committed, as far as the answers tell. -/
def Loader.AppliedIn (L : Loader σ) (past : List (Operation × Answer)) : Prop :=
  ∀ e ∈ past, ∀ target, ¬ L.Unapplied target e.2

theorem Loader.Applies.appliedIn (h : L.Applies) (past : List (Operation × Answer)) :
    L.AppliedIn past := fun e _ target => h.not_unapplied target e.2

theorem Loader.not_unapplied_reply (r : Reply) (target : String) :
    ¬ L.Unapplied target (.reply r) := by
  rintro (⟨cause, hcause, -⟩ | ⟨hpanicked, -⟩)
  · cases hcause
  · cases hpanicked

theorem Store.Keeps.spared {s : Store} (h : s.Keeps m t) {x : Script α}
    (hx : ∀ root, s.root? = some root → x.Spares root) : s.Keeps m (x.run t).2 := by
  cases s with
  | memory y => exact h
  | disk d => exact Disk.Mirrors.congr h (hx d.root rfl t)

/-! ## Serving requests -/

/-- A script that has nothing left to do gives what it is to give. -/
theorem Script.of_run_pure {β : Type} {a a' : α} {b b' : β}
    (h : (pure (a, b) : Script (α × β)).run t = ((a', b'), t')) : a = a' ∧ b = b' ∧ t = t' := by
  cases h
  exact ⟨rfl, rfl, rfl⟩

namespace Registry

/-- Whether a registry has the records of a map, whatever may have panicked in it. -/
structure Keeps (m : OrderedMap Key Json) (t : FileTree) (g : Registry σ) : Prop where
  store : g.store.Keeps m t
  storable : AllStorable m

/-- Whether a registry can commit, and nothing has panicked in it. -/
structure IsReady (g : Registry σ) : Prop where
  store : g.store.IsReady
  fresh : g.publishingPoisoned = false

/-- Whether a registry keeps the records of a map, and nothing has panicked in it. -/
structure Holds (m : OrderedMap Key Json) (t : FileTree) (g : Registry σ) : Prop where
  store : g.store.Holds m t
  storable : AllStorable m
  fresh : g.publishingPoisoned = false

theorem holds_iff : g.Holds m t ↔ g.Keeps m t ∧ g.IsReady := by
  constructor
  · intro h
    obtain ⟨hkeeps, hready⟩ := Store.holds_iff.mp h.store
    exact ⟨⟨hkeeps, h.storable⟩, hready, h.fresh⟩
  · intro h
    exact ⟨Store.holds_iff.mpr ⟨h.1.store, h.2.store⟩, h.1.storable, h.2.fresh⟩

/-- What becomes of a registry that serves a request, whatever may panic: it gives what the request
gives over its map, or it fails and keeps the map. A registry that can commit stays so unless the
request panics, and only want of room makes it fail. A request that does not get through changes
nothing, unless the loader could not apply a change. -/
def Responds (L : Loader σ) (g : Registry σ) (m : OrderedMap Key Json) (F : Footprint)
    (rq : Request) (a : Answer) (g' : Registry σ) (t' : FileTree) : Prop :=
  ∃ m', g'.Keeps m' t' ∧ g'.store.root? = g.store.root? ∧
    (g.IsReady → a ≠ .panicked → g'.IsReady) ∧
    (m' = m ∨ (∃ r, a = .reply r) ∨ ∃ target, L.Unapplied target a) ∧
    (rq.Gives m a m' ∨ m' = m ∧ (a = .panicked ∨
      (∃ e, a = .error (.storage e)) ∧ (g.IsReady → ∃ k, F.reads k ∧ ¬ g.store.HasRoom k)))

/-- What becomes of a registry that serves a request: it gives what the request gives over its map,
or its store has no room and keeps the map. A request that does not get through changes nothing,
unless the loader could not apply a change. -/
def Serves (L : Loader σ) (g : Registry σ) (m : OrderedMap Key Json) (F : Footprint) (rq : Request)
    (a : Answer) (g' : Registry σ) (t' : FileTree) : Prop :=
  ∃ m', g'.Holds m' t' ∧ g'.store.root? = g.store.root? ∧
    (m' = m ∨ (∃ r, a = .reply r) ∨ ∃ target, L.Unapplied target a) ∧
    (rq.Gives m a m' ∨
      m' = m ∧ (∃ e, a = .error (.storage e)) ∧ ∃ k, F.reads k ∧ ¬ g.store.HasRoom k)

variable {F : Footprint} {g' : Registry σ} {a : Answer}

theorem Responds.serves {rq : Request} (h : Responds L g m F rq a g' t') (hready : g.IsReady)
    (ha : a ≠ .panicked) : Serves L g m F rq a g' t' := by
  obtain ⟨m', hkeeps, hroot, hstays, hchanged, hends⟩ := h
  refine ⟨m', holds_iff.mpr ⟨hkeeps, hstays hready ha⟩, hroot, hchanged, ?_⟩
  rcases hends with hgives | ⟨hm, hpanic | ⟨he, hroom⟩⟩
  · exact .inl hgives
  · exact absurd hpanic ha
  · exact .inr ⟨hm, he, hroom hready⟩

theorem Keeps.poison (h : g.Keeps m t) : g.poison.Keeps m t := ⟨h.store.poison, h.storable⟩

/-- A question does not panic. -/
theorem Keeps.ask (h : g.Keeps m t) {f : α → Reply} {tx : RegistryTransaction α}
    (hrq : (Request.ask f tx).Alike F (.ask f tx))
    (hrun : (g.serve L (.ask f tx)).run t = ((a, g'), t')) :
    Responds L g m F (.ask f tx) a g' t' ∧ a ≠ .panicked := by
  obtain ⟨R, htx⟩ : ∃ R : α → α → Prop, Alike F R tx tx := by
    cases hrq with
    | ask halike _ => exact ⟨_, halike⟩
  obtain ⟨ending, s', t₂, m', htransact, hafter, hroot, hready, hends⟩ :=
    h.store.transact htx h.storable
  have hrun' : (g.serve L (.ask f tx)).run t =
      ((answerOf f ending, { g with store := s' }), t₂) := by
    simp only [serve, transact, Script.run_bind, Script.run_pure, htransact]
  obtain ⟨⟨rfl, rfl⟩, rfl⟩ : (answerOf f ending = a ∧ { g with store := s' } = g') ∧ t₂ = t' := by
    simpa using hrun'.symm.trans hrun
  have hready' : g.IsReady → answerOf f ending ≠ .panicked →
      ({ g with store := s' } : Registry σ).IsReady := fun hg _ => ⟨hready hg.store, hg.fresh⟩
  rcases hends with ⟨a, hruns, rfl⟩ | ⟨rfl, e, m'', hruns, rfl⟩ | ⟨rfl, ⟨e, hending⟩, hroom⟩
  · have hgives : (Request.ask f tx).Gives m (.reply (f a)) m' := .replied hruns
    exact ⟨⟨m', ⟨hafter, hgives.allStorable hrq h.storable⟩, hroot, hready', .inr (.inl ⟨_, rfl⟩),
      .inl hgives⟩, nofun⟩
  · exact ⟨⟨m', ⟨hafter, h.storable⟩, hroot, hready', .inl rfl, .inl (.rejected hruns)⟩, nofun⟩
  · have hanswer : answerOf f ending = .error (.storage e) := by
      rcases hending with rfl | rfl <;> rfl
    rw [hanswer] at hready' ⊢
    exact ⟨⟨m', ⟨hafter, h.storable⟩, hroot, hready', .inl rfl, .inr ⟨rfl, .inr ⟨⟨e, rfl⟩,
      fun hg => hroom hg.store⟩⟩⟩, nofun⟩

theorem Holds.ask (h : g.Holds m t) {f : α → Reply} {tx : RegistryTransaction α}
    (hrq : (Request.ask f tx).Alike F (.ask f tx))
    (hrun : (g.serve L (.ask f tx)).run t = ((a, g'), t')) :
    Serves L g m F (.ask f tx) a g' t' := by
  obtain ⟨hkeeps, hready⟩ := holds_iff.mp h
  obtain ⟨hresponds, ha⟩ := hkeeps.ask hrq hrun
  exact hresponds.serves hready ha

/-- **A question that stays where the store has room is answered from the map.** -/
theorem Holds.answers (h : g.Holds m t) {now : Instant} {op : Operation} {f : α → Reply}
    {tx : RegistryTransaction α} {b : α} {c : OrderedMap Key Json}
    (hop : op.request now = .ask f tx) (hruns : tx.runOn m = (.done b, c))
    (hstays : tx.StaysIn g.store.HasRoom Disk.Storable m) :
    ((perform L g now op).run t).1.1 = .reply (f b) := by
  obtain ⟨s', t', htransact, -⟩ := h.store.transact_of_staysIn hruns hstays
  rw [perform_eq_serve, hop]
  simp only [Registry.serve, Registry.transact, Script.run_bind, Script.run_pure, htransact]
  rfl

theorem withLoader_run (step : StateT σ Script α) : (g.withLoader step).run t =
    ((((step.run g.loaderState).run t).1.1,
      { g with loaderState := ((step.run g.loaderState).run t).1.2 }),
      ((step.run g.loaderState).run t).2) := by
  simp only [withLoader, Script.run_bind, Script.run_pure]

/-- The application of a change that has been committed leaves the store to itself, whatever comes of
it. -/
theorem applyCommitted_run (target : String) (u : L.Update) :
    (applyCommitted L g target u).run t =
      match ((L.apply u).run g.loaderState).run t with
      | ((.ok (), y), t) => ((.reply .done, { g with loaderState := y }), t)
      | ((.error cause, y), t) =>
        ((.error (.loader target cause), { g with loaderState := y }), t)
      | ((.panicked, y), t) =>
        ((.panicked, { g with publishingPoisoned := true, loaderState := y }), t) := by
  simp only [applyCommitted, Script.run_bind, withLoader_run]
  rcases ((L.apply u).run g.loaderState).run t with ⟨⟨_ | _ | _, _⟩, _⟩ <;> rfl

/-- Once a transaction has panicked no request reaches the records. -/
theorem serve_poisoned {s : Store} {b : Bool} {y : σ} (h : s.isPoisoned = true) (rq : Request) :
    (serve L ⟨s, b, y⟩ rq).run t =
      ((match rq with | .known a => a | _ => .error (.storage .poisoned), ⟨s, b, y⟩), t) := by
  cases rq with
  | known a => rfl
  | ask f tx =>
    simp only [serve, transact, Script.run_bind, Script.run_pure, Store.transact_poisoned h]
    rfl
  | publish target tx =>
    cases b with
    | true => rfl
    | false => simp only [serve, publish, Bool.false_eq_true, if_false, Script.run_bind,
        Store.view_run_poisoned h, Script.run_pure]
  | load p kind =>
    simp only [serve, loadProgram, transact, Script.run_bind, Script.run_pure,
      Store.transact_poisoned h]

/-- A step of a loader that leaves the store alone keeps the map. -/
theorem Keeps.withLoader (h : g.Keeps m t) {step : StateT σ Script α}
    (hstep : ∀ root, g.store.root? = some root → (step.run g.loaderState).Spares root) :
    ((g.withLoader step).run t).1.2.Keeps m ((g.withLoader step).run t).2 ∧
      ((g.withLoader step).run t).1.2.store = g.store ∧
      (g.IsReady → ((g.withLoader step).run t).1.2.IsReady) := by
  rw [withLoader_run]
  exact ⟨⟨h.store.spared hstep, h.storable⟩, rfl, fun hg => ⟨hg.store, hg.fresh⟩⟩

section Publications
variable {target : String}

/-- A change that has been committed stays, whatever comes of its application. -/
theorem Keeps.applyCommitted (h : g.Keeps m t)
    (hL : ∀ root, g.store.root? = some root → L.Spares root) {update : L.Update}
    (hrun : (applyCommitted L g target update).run t = ((a, g'), t')) :
    g'.Keeps m t' ∧ g'.store = g.store ∧ (g.IsReady → a ≠ .panicked → g'.IsReady) ∧
      (a = .reply .done ∨ L.Unapplied target a) := by
  have hspared := h.store.spared fun root hr => (hL root hr).apply update g.loaderState
  rw [applyCommitted_run] at hrun
  generalize hran : ((L.apply update).run g.loaderState).run t = x at hspared hrun
  obtain ⟨⟨_ | cause | _, y⟩, t₁⟩ := x
  · cases hrun
    exact ⟨⟨hspared, h.storable⟩, rfl, fun hg _ => ⟨hg.store, hg.fresh⟩, .inl rfl⟩
  · cases hrun
    exact ⟨⟨hspared, h.storable⟩, rfl, fun hg _ => ⟨hg.store, hg.fresh⟩,
      .inr (.inl ⟨cause, rfl, update, g.loaderState, t, by rw [hran]⟩)⟩
  · cases hrun
    exact ⟨⟨hspared, h.storable⟩, rfl, fun _ ha => absurd rfl ha,
      .inr (.inr ⟨rfl, update, g.loaderState, t, by rw [hran]⟩)⟩

theorem Keeps.commitAndApply (h : g.Keeps m t)
    (hL : ∀ root, g.store.root? = some root → L.Spares root) {staged : Changes}
    {update : L.Update} (hstaged : staged.StaysIn F.writes Disk.Storable)
    (hstorable : AllStorable (Changes.applyAll m staged.toList))
    (hrun : (commitAndApply L g target staged update).run t = ((a, g'), t')) :
    ∃ m', g'.Keeps m' t' ∧ g'.store.root? = g.store.root? ∧
      (g.IsReady → a ≠ .panicked → g'.IsReady) ∧
      (m' = Changes.applyAll m staged.toList ∧
        (a = .reply .done ∨ L.Unapplied target a) ∨
      m' = m ∧ ∃ e, a = .error e) := by
  rw [Registry.commitAndApply, Script.run_bind] at hrun
  -- A commit that fails takes the staged change back, and one that succeeds is kept whatever
  -- follows.
  rcases h.store.commit hstaged with ⟨e, t₁, hcommit, hafter, -⟩ |
    ⟨s', t₁, hcommit, hafter, hroot, hready⟩
  · obtain ⟨hdiscard, hstore, hready⟩ := Keeps.withLoader (g := { g with store := g.store })
      ⟨hafter, h.storable⟩ fun root hr => (hL root hr).discard update g.loaderState
    simp only [hcommit, Script.run_bind] at hrun
    obtain ⟨rfl, rfl, rfl⟩ := Script.of_run_pure hrun
    exact ⟨m, hdiscard, congrArg Store.root? hstore, fun hg _ => hready hg, .inr ⟨rfl, _, rfl⟩⟩
  · simp only [hcommit] at hrun
    obtain ⟨hkeeps, hstore, hready', hanswer⟩ := Keeps.applyCommitted (g := { g with store := s' })
      ⟨hafter, hstorable⟩ (fun root hr => hL root (hroot ▸ hr)) hrun
    exact ⟨_, hkeeps, (congrArg Store.root? hstore).trans hroot,
      fun hg => hready' ⟨hready hg.store, hg.fresh⟩, .inl ⟨rfl, hanswer⟩⟩

theorem Keeps.publish (h : g.Keeps m t) (hL : ∀ root, g.store.root? = some root → L.Spares root)
    {tx : RegistryTransaction (Key × ApplicationRecord)}
    (hrq : (Request.publish target tx).Alike F (.publish target tx))
    (hrun : (g.serve L (.publish target tx)).run t = ((a, g'), t')) :
    Responds L g m F (.publish target tx) a g' t' := by
  have hself := h.storable.agreeOn F.reads
  have hrefused : ∀ e, Responds L g m F (.publish target tx) (.error e) g t := fun e =>
    ⟨m, h, rfl, fun hg _ => hg, .inl rfl, .inl (.unpublished e)⟩
  cases hrq with
  | publish htx =>
    simp only [Registry.serve, Registry.publish] at hrun
    split at hrun
    · obtain ⟨rfl, rfl, rfl⟩ := Script.of_run_pure hrun
      exact hrefused _
    rw [Script.run_bind] at hrun
    cases hpoisoned : g.store.isPoisoned with
    | true =>
      rw [Store.view_run_poisoned hpoisoned] at hrun
      obtain ⟨rfl, rfl, rfl⟩ := Script.of_run_pure hrun
      exact hrefused _
    | false =>
    rw [Store.view_run hpoisoned] at hrun
    simp only at hrun
    -- The transaction is run without a commit: only what it has staged, with the record put in, is
    -- committed after the loader has staged its part.
    rcases h.store.run htx hself with ⟨e, k, hout, -, -⟩ | ⟨hout, hcopy, hstaged⟩
    · generalize Overlay.run ⟨g.store.snapshot t, ∅⟩ tx = r at hout hrun
      obtain ⟨out, o⟩ := r
      obtain rfl : out = _ := hout
      obtain ⟨rfl, rfl, rfl⟩ := Script.of_run_pure hrun
      exact hrefused _
    · have hend := (htx.runOn hself).1
      have hstorable := htx.allStorable_runOn h.storable
      generalize Overlay.run ⟨g.store.snapshot t, ∅⟩ tx = r at hout hcopy hstaged hrun
      generalize hruns : tx.runOn m = runs at hout hcopy hend hstorable
      obtain ⟨out, o⟩ := r
      obtain ⟨out', m'⟩ := runs
      obtain rfl : out = out' := hout
      obtain rfl : _ = m' := hcopy
      cases out with
      | panicked => cases hend
      | rejected e =>
        obtain ⟨rfl, rfl, rfl⟩ := Script.of_run_pure hrun
        exact hrefused e
      | done x =>
        obtain ⟨k, record⟩ := x
        cases hend with
        | done hx =>
          have hstage := h.withLoader fun root hr =>
            (hL root hr).stage record.location record.specification g.loaderState
          simp only [Script.run_bind] at hrun
          generalize (g.withLoader (L.stage record.location record.specification)).run t = y
            at hstage hrun
          obtain ⟨⟨staging, g₁⟩, t₁⟩ := y
          obtain ⟨hkeeps, hstore, hready⟩ := hstage
          cases staging with
          | refused cause =>
            obtain ⟨rfl, rfl, rfl⟩ := Script.of_run_pure hrun
            exact ⟨m, hkeeps, congrArg Store.root? hstore, fun hg _ => hready hg, .inl rfl,
              .inl (.unpublished _)⟩
          | panicked =>
            obtain ⟨rfl, rfl, rfl⟩ := Script.of_run_pure hrun
            exact ⟨m, hkeeps.poison, (Store.root?_poison _).trans (congrArg Store.root? hstore),
              fun _ ha => absurd rfl ha, .inl rfl, .inr ⟨rfl, .inl rfl⟩⟩
          | staged update =>
            -- The record is the last change staged, so it is also the last one made.
            have hinsert : Changes.applyAll m (o.stage k (some (stored record))).staged.toList =
                (Changes.applyAll m o.staged.toList).insert k (stored record) :=
              Changes.applyAll_insert m o.staged k _
            obtain ⟨m', hafter, hroot, hready', hends⟩ := hkeeps.commitAndApply
              (fun root hr => hL root (hstore ▸ hr))
              (hstaged.insert hx.2.1 fun j hj => Option.some.inj hj ▸ storable_application record)
              (hinsert ▸ hstorable.insert (storable_application record)) hrun
            have hroot' := hroot.trans (congrArg Store.root? hstore)
            have hready'' : g.IsReady → a ≠ .panicked → g'.IsReady := fun hg =>
              hready' (hready hg)
            rcases hends with ⟨rfl, hanswer⟩ | ⟨rfl, e, rfl⟩
            · refine ⟨_, hafter, hroot', hready'', ?_, .inl ?_⟩
              · exact .inr (hanswer.imp (⟨_, ·⟩) (⟨target, ·⟩))
              · show Request.Gives m _ a
                  (Changes.applyAll m (o.stage k (some (stored record))).staged.toList)
                rw [hinsert]
                exact .published hruns (hanswer.imp_right
                  (Or.imp (fun ⟨cause, h, _⟩ => ⟨cause, h⟩) And.left))
            · exact ⟨m', hafter, hroot', hready'', .inl rfl, .inl (.unpublished e)⟩

end Publications

/-- A program that is loaded is what the loader makes of the record of the application. -/
theorem Keeps.load (h : g.Keeps m t) (hL : ∀ root, g.store.root? = some root → L.Spares root)
    {p : ProgramId} {kind : ProgramKind} (hrq : (Request.load p kind).Alike F (.load p kind))
    (hrun : (g.serve L (.load p kind)).run t = ((a, g'), t')) :
    Responds L g m F (.load p kind) a g' t' ∧
      ∀ r, a = .reply r → ∃ record program y t₁,
        (Application.required p.application).runOn m = (.done record, m) ∧
        (((L.load record.location p kind record.specification).run y).run t₁).1.1 = .ok program ∧
        r = .program program := by
  cases hrq with
  | load htx =>
    obtain ⟨ending, s', t₁, m', htransact, hafter, hroot, hready, hends⟩ :=
      h.store.transact htx h.storable
    -- To load only reads, so it leaves the map however the transaction ends.
    obtain rfl : m' = m := by
      rcases hends with ⟨r, hruns, -⟩ | ⟨hm, -⟩ | ⟨hm, -⟩
      · exact (congrArg Prod.snd hruns).symm.trans (runOn_required p.application m)
      · exact hm
      · exact hm
    have hkeeps : Keeps m' t₁ { g with store := s' } := ⟨hafter, h.storable⟩
    have hready' : g.IsReady → Registry.IsReady { g with store := s' } := fun hg =>
      ⟨hready hg.store, hg.fresh⟩
    simp only [Registry.serve, Registry.loadProgram, Registry.transact, Script.run_bind,
      Script.run_pure, htransact] at hrun
    have hresponds : g'.Keeps m' t' → g'.store = s' →
        (Registry.IsReady { g with store := s' } → g'.IsReady) →
        Responds L g m' F (.load p kind) a g' t' := fun hkeeps hstore hstays =>
      ⟨m', hkeeps, (congrArg Store.root? hstore).trans hroot, fun hg _ => hstays (hready' hg),
        .inl rfl, .inl (.loaded a)⟩
    cases ending with
    | committed record =>
      simp only at hrun
      split at hrun
      · obtain ⟨rfl, rfl, rfl⟩ := Script.of_run_pure hrun
        exact ⟨hresponds hkeeps rfl id, fun r hr => by cases hr⟩
      · obtain ⟨hkeeps', hstore, hstays⟩ := hkeeps.withLoader fun root hr =>
          (hL root (hroot ▸ hr)).load record.location p kind record.specification g.loaderState
        rw [Script.run_bind] at hrun
        rw [withLoader_run] at hkeeps' hstore hstays hrun
        generalize hload : ((L.load _ p kind _).run _).run t₁ = y at hkeeps' hstore hstays hrun
        obtain ⟨⟨loaded, y'⟩, t₂⟩ := y
        cases loaded with
        | error cause =>
          obtain ⟨rfl, rfl, rfl⟩ := Script.of_run_pure hrun
          exact ⟨hresponds hkeeps' hstore hstays, fun r hr => by cases hr⟩
        | panicked =>
          obtain ⟨rfl, rfl, rfl⟩ := Script.of_run_pure hrun
          exact ⟨hresponds hkeeps' hstore hstays, fun r hr => by cases hr⟩
        | ok program =>
          obtain ⟨rfl, rfl, rfl⟩ := Script.of_run_pure hrun
          refine ⟨hresponds hkeeps' hstore hstays, ?_⟩
          rintro r ⟨⟩
          refine ⟨record, program, _, t₁, ?_, congrArg (·.1.1) hload, rfl⟩
          rcases hends with ⟨_, hruns, hending⟩ | ⟨-, _, _, -, hending⟩ | ⟨-, ⟨e, hending⟩, -⟩
          · exact Ending.committed.inj hending ▸ hruns
          · cases hending
          · rcases hending with hending | hending <;> cases hending
    | _ =>
      obtain ⟨rfl, rfl, rfl⟩ := Script.of_run_pure hrun
      exact ⟨hresponds hkeeps rfl id, fun r hr => by cases hr⟩

/-- **A registry serves a request as the request goes over its map**, or it fails or panics and
keeps the map. -/
theorem Keeps.serve (h : g.Keeps m t) (hL : ∀ root, g.store.root? = some root → L.Spares root)
    {rq : Request} (hrq : rq.Alike F rq) (hrun : (g.serve L rq).run t = ((a, g'), t')) :
    Responds L g m F rq a g' t' := by
  cases rq with
  | known b =>
    obtain ⟨⟨rfl, rfl⟩, rfl⟩ : (b = a ∧ g = g') ∧ t = t' := by simpa [Registry.serve] using hrun
    exact ⟨m, h, rfl, fun hg _ => hg, .inl rfl, .inl (.known b)⟩
  | ask f tx => exact (h.ask hrq hrun).1
  | publish target tx => exact h.publish hL hrq hrun
  | load p kind => exact (h.load hL hrq hrun).1

/-- **A registry that can commit serves a request as the request goes over its map**, or its store
fails for want of room and keeps the map. -/
theorem Holds.serve (h : g.Holds m t) (hL : ∀ root, g.store.root? = some root → L.Spares root)
    {rq : Request} (hrq : rq.Alike F rq) (hrun : (g.serve L rq).run t = ((a, g'), t'))
    (ha : a ≠ .panicked) : Serves L g m F rq a g' t' := by
  obtain ⟨hkeeps, hready⟩ := holds_iff.mp h
  exact (hkeeps.serve hL hrq hrun).serves hready ha

end Registry

end AppRegistry
