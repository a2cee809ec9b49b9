import AppRegistry.Proofs.Registry.Lifecycle
import AppRegistry.Proofs.Registry.Settling

/-!
# Removals remove what they own

An application owns its record and the arguments of its programs (`Application.Owns`), and an
account owns all that lies with it (`AccountId.Owns`).

**Theorem (`removals_exact`).** In every reachable state, to remove an application, all applications
of an account or the account removes what is owned and leaves every other record as it was. To
remove all applications leaves the same as to remove them one by one, in any order. Once the account
is removed, every question about it is answered as on an empty store, and its runs start anew.

An application is found by its key, but its arguments are found by a scan below a key. As records
are well typed, what such a scan finds belongs to a program of the application
(`isBelow_arguments_iff`).
-/

namespace AppRegistry

open RegistryTransaction

variable {m m' m'' : OrderedMap Key Json} {k l : Key} {P Q : Key → Prop} {id : ApplicationId}
  {a : AccountId} {now : Instant}

/-! ## Maps without some records -/

/-- Whether a map has no record at the keys in `P`, and every other record of the first map. -/
def Without (P : Key → Prop) (m m' : OrderedMap Key Json) : Prop :=
  ∀ k, (P k → m'.get? k = none) ∧ (¬ P k → m'.get? k = m.get? k)

namespace Without

theorem refl (hP : ∀ k, ¬ P k) : Without P m m := fun k => ⟨fun h => absurd h (hP k), fun _ => rfl⟩

/-- There is one such map. -/
theorem unique (h : Without P m m') (h' : Without P m m'') : m' = m'' := by
  refine OrderedMap.ext_get? fun k => ?_
  by_cases hk : P k
  · rw [(h k).1 hk, (h' k).1 hk]
  · rw [(h k).2 hk, (h' k).2 hk]

theorem trans (h : Without P m m') (h' : Without Q m' m'') :
    Without (fun k => P k ∨ Q k) m m'' := by
  intro k
  by_cases hQ : Q k
  · exact ⟨fun _ => (h' k).1 hQ, fun hk => absurd (.inr hQ) hk⟩
  · rw [(h' k).2 hQ]
    exact ⟨fun hk => (h k).1 (hk.resolve_right hQ), fun hk => (h k).2 fun hP => hk (.inl hP)⟩

/-- It does not matter what `P` says of keys without a record. -/
theorem congr (h : Without P m m') (hPQ : ∀ k v, m.get? k = some v → (P k ↔ Q k)) :
    Without Q m m' := by
  intro k
  cases hk : m.get? k with
  | none =>
    have hnone : m'.get? k = none := by
      by_cases hP : P k
      · exact (h k).1 hP
      · exact ((h k).2 hP).trans hk
    exact ⟨fun _ => hnone, fun _ => hnone⟩
  | some v =>
    rw [← hPQ k v hk, ← hk]
    exact h k

theorem allAdmissible (h : Without Q m m') (hm : AllAdmissible P m) : AllAdmissible P m' := by
  intro k v hv
  by_cases hk : Q k
  · cases ((h k).1 hk).symm.trans hv
  · exact hm k v ((h k).2 hk ▸ hv)

end Without

/-! ## Applications -/

/-- Whether a key is that of the record of an application or of the arguments of one of its
programs. -/
def Application.Owns (id : ApplicationId) (k : Key) : Prop :=
  Layout.application id = .ok k ∨ ∃ name, Layout.arguments (id.program name) = .ok k

section Layout
variable {base : Key} {p : ProgramId}

/-- What is well typed and lies below the key over the arguments of an application is that of the
arguments of one of its programs. -/
theorem isBelow_arguments_iff {v : Json} (hbase : Layout.ofApplication .arguments id = .ok base)
    (hv : WellTyped k v) :
    k.isBelow base = true ↔ ∃ name, Layout.arguments (id.program name) = .ok k := by
  constructor
  · intro hbelow
    obtain ⟨p, args, hk, -⟩ := hv.typed
      ((Layout.spells_ofApplication .arguments id).holds hbase (Key.isBelow_iff.mp hbelow))
    obtain rfl := (Layout.isBelow_ofApplication_iff hk hbase).mp hbelow
    exact ⟨p.name, hk⟩
  · rintro ⟨name, hk⟩
    exact (Layout.isBelow_ofApplication_iff hk hbase).mpr rfl

/-- An application one of whose programs has a key for its arguments has one itself. -/
theorem Layout.application_isOk_of_arguments {name : String}
    (hk : Layout.arguments (id.program name) = .ok k) : ∃ l, Layout.application id = .ok l := by
  refine (Layout.spells_ofApplication .applications id).isOk fun c hc => ?_
  have hvalid := (Layout.spells_ofProgram .arguments (id.program name)).isValid hk
  simp only [List.mem_cons, List.not_mem_nil, or_false] at hc hvalid
  rcases hc with rfl | rfl | rfl
  · exact Keyspace.isValid_name _
  · exact hvalid _ (.inr (.inl rfl))
  · exact hvalid _ (.inr (.inr (.inl rfl)))

end Layout

/-- **The removal of an application removes what it owns.** -/
theorem runOn_removeOne_without (hm : AllAdmissible P m) (id : ApplicationId) : ∃ copy,
    (Application.removeOne id).runOn m = (.done (), copy) ∧
      Without (Application.Owns id) m copy := by
  cases hk : Layout.application id with
  | error e =>
    refine ⟨m, runOn_removeOne_of_error hk m, .refl fun l hl => ?_⟩
    rcases hl with hl | ⟨name, hl⟩
    · cases hk.symm.trans hl
    · obtain ⟨_, hok⟩ := Layout.application_isOk_of_arguments hl
      cases hk.symm.trans hok
  | ok k =>
    obtain ⟨base, hbase⟩ := Layout.ofApplication_isOk hk .arguments
    refine ⟨_, runOn_removeOne_of_ok hk hbase m, ?_⟩
    have herased : Without (fun l => k = l ∨ l.isBelow base = true) m
        ((m.erase k).filter fun l _ => !l.isBelow base) := by
      intro l
      rw [OrderedMap.get?_filter, OrderedMap.get?_erase]
      by_cases hkl : k = l
      · simp [hkl]
      · cases hbelow : l.isBelow base <;> cases m.get? l <;> simp [hkl, hbelow, Option.filter]
    refine herased.congr fun l v hv => or_congr ?_ (isBelow_arguments_iff hbase (hm l v hv).typed)
    rw [hk, Except.ok.injEq]

theorem runOn_removeEach_without (hm : AllAdmissible P m) (a : AccountId) (names : List String) :
    ∃ copy, (names.forM fun name => Application.removeOne (a.application name)).runOn m =
      (.done (), copy) ∧
      Without (fun k => ∃ name ∈ names, Application.Owns (a.application name) k) m copy := by
  induction names generalizing m with
  | nil => exact ⟨m, rfl, .refl fun k ⟨_, hname, _⟩ => nomatch hname⟩
  | cons name names ih =>
    obtain ⟨m₁, hrun₁, hone⟩ := runOn_removeOne_without hm (a.application name)
    obtain ⟨copy, hrun, hrest⟩ := ih (hone.allAdmissible hm)
    refine ⟨copy, ?_, (hone.trans hrest).congr fun k v _ => ?_⟩
    · show (Application.removeOne (a.application name) >>= fun _ => names.forM _).runOn m = _
      rw [Transaction.runOn_bind, hrun₁]
      exact hrun
    · simp only [List.mem_cons, exists_eq_or_imp]

/-! ## What removals are settled to -/

section Settled

theorem settle_removeApplication (hm : AllAdmissible P m) (id : ApplicationId) (now : Instant) :
    ∃ m', ((Operation.removeApplication id).request now).settle m = (.reply .done, m') ∧
      Without (Application.Owns id) m m' := by
  obtain ⟨copy, hrun, hcopy⟩ := runOn_removeOne_without hm id
  refine ⟨copy, ?_, hcopy⟩
  show (Request.ask _ (Application.removeOne id)).settle m = _
  rw [Request.settle, hrun]

/-- An application is stored if there is a record at its key. -/
def Application.IsStored (m : OrderedMap Key Json) (id : ApplicationId) : Prop :=
  ∃ k, Layout.application id = .ok k ∧ (m.get? k).isSome

/-- **The removal of all applications of an account removes what the stored ones own.** -/
theorem runOn_removeAll_without (hm : AllAdmissible P m) (a : AccountId) : ∃ tx copy,
    Application.removeAll a = .ask tx ∧ tx.runOn m = (.done (), copy) ∧
      Without (fun k => ∃ name, Application.IsStored m (a.application name) ∧
        Application.Owns (a.application name) k) m copy := by
  obtain ⟨copy, hrun, hcopy⟩ :=
    runOn_removeEach_without hm a (OrderedSet.ofList (namesIn .applications a m)).members
  refine ⟨_, copy, rfl, ?_, hcopy.congr fun k v _ => ?_⟩
  · rw [Transaction.runOn_bind, runOn_namesUnder]
    exact hrun
  · refine exists_congr fun name => and_congr_left fun _ => ?_
    rw [OrderedSet.mem_members_ofList, mem_namesIn_iff]
    rfl

theorem settle_removeApplications (hm : AllAdmissible P m) (now : Instant) {names : List String}
    (hnames : ∀ name, name ∈ names ↔ Application.IsStored m (a.application name)) :
    ∃ m', ((Operation.removeApplications a).request now).settle m = (.reply .done, m') ∧
      Without (fun k => ∃ name ∈ names, Application.Owns (a.application name) k) m m' := by
  obtain ⟨tx, copy, hask, hrun, hcopy⟩ := runOn_removeAll_without hm a
  refine ⟨copy, ?_, hcopy.congr fun k v _ => ?_⟩
  · simp only [Operation.request, hask, Query.request, Request.settle, hrun]
  · simp only [hnames]

theorem settle_removeAccount (hm : AllStorable m) (a : AccountId) (now : Instant) :
    ∃ m', ((Operation.removeAccount a).request now).settle m = (.reply .done, m') ∧
      Without a.Owns m m' := by
  have halike := (Operation.removeAccount a).alike now now
  have hgives := halike.gives_settle hm
  obtain ⟨hanswer, hnone⟩ := gives_removeAccount hgives
  refine ⟨_, Prod.ext hanswer rfl, fun k => ⟨hnone k, fun hk => ?_⟩⟩
  exact hgives.get?_eq halike hm hk

end Settled

/-! ## Questions about nothing -/

/-- What a query replies is made of its result. -/
theorem Query.reply_of_settle {β : Type} {f : β → Reply} {q : Query β} {r : Reply}
    (h : ((q.request f).settle m).1 = .reply r) : ∃ b, r = f b := by
  obtain (e | b) | tx := q
  · cases h
  · exact ⟨b, (Answer.reply.inj h).symm⟩
  · rw [Query.request, Request.settle] at h
    generalize tx.runOn m = ran at h
    obtain ⟨b | e | _, copy⟩ := ran
    · exact ⟨b, (Answer.reply.inj h).symm⟩
    · cases h
    · cases h

theorem runOn_record?_of_none (h : ∀ k, Layout.application id = .ok k → m.get? k = none) :
    (Application.record? id).runOn m = (.done none, m) := by
  unfold Application.record?
  cases hk : Layout.application id with
  | error e => rfl
  | ok k =>
    simp only
    rw [runOn_fetch, h k hk]

theorem runOn_required_of_none (h : ∀ k, Layout.application id = .ok k → m.get? k = none) :
    (Application.required id).runOn m = (.rejected (.applicationNotFound id), m) := by
  unfold Application.required
  rw [Transaction.runOn_bind, runOn_record?_of_none h]
  rfl

/-- An empty store has no time of a last update. -/
theorem settle_empty_ne_instant {op : Operation} (hop : op.IsQuestion) (now i : Instant) :
    ((op.request now).settle ∅).1 ≠ .reply (.instant (some i)) := by
  intro h
  -- Only a question for the time of the last update replies with a time, and an empty store has
  -- none.
  cases op with
  | addApplication | removeApplication | removeApplications | removeAccount | setInstances
  | startRun | stopRun | setArguments => exact hop
  | loadProgram p kind =>
    have hnone : (Application.required p.application).runOn ∅ =
        (.rejected (.applicationNotFound p.application), ∅) := runOn_required_of_none fun _ _ => rfl
    simp only [Operation.request, Request.settle, hnone] at h
    cases h
  | lastUpdated id =>
    have hnone : (Application.record? id).runOn ∅ = (.done none, ∅) :=
      runOn_record?_of_none fun _ _ => rfl
    simp only [Operation.request, Application.ofRecord, Query.request, Request.settle,
      Transaction.runOn_bind, hnone, runOn_pure] at h
    cases h
  | _ =>
    simp only [Operation.request] at h
    obtain ⟨b, hb⟩ := Query.reply_of_settle h
    cases hb

/-- **A question about an account without records** is settled as over the empty map. -/
theorem settle_of_owns_nothing {op : Operation} (hop : op.IsQuestion) (hm : AllStorable m)
    (hnone : ∀ k, op.account.Owns k → m.get? k = none) (now : Instant) :
    ((op.request now).settle m).1 = ((op.request now).settle ∅).1 := by
  have hagree : AgreeOn op.account.Owns m ∅ := by
    intro k hk
    rw [hnone k hk, OrderedMap.get?_empty]
    exact .none
  have hanswers := (Registry.settle_of_account_eq now now rfl hm Registry.allStorable_empty hagree).1
  have hinstant := settle_empty_ne_instant hop now
  generalize ((op.request now).settle m).1 = x at hanswers
  generalize ((op.request now).settle ∅).1 = y at hanswers hinstant
  cases hanswers with
  | same => rfl
  | updated i j => exact absurd rfl (hinstant j)

/-! ## Reachable states -/

namespace Registry

variable {σ : Type} {L : Loader σ} {g : Registry σ} {t : FileTree}
  {past : List (Operation × Answer)}

/-- **Applications removed one by one**, in any order. -/
theorem Holds.performAll_removals (h : g.Holds m t) (hm : AllAdmissible g.store.HasRoom m)
    (a : AccountId) {names : List String} {ops : List TimedOperation}
    (hops : ops.map (·.2) = names.map fun name => .removeApplication (a.application name))
    (hroom : ∀ name ∈ names, ∀ k, Layout.application (a.application name) = .ok k →
      g.store.HasRoom k) :
    ∃ answers g' t' m', (Registry.performAll L g ops).run t = ((answers, g'), t') ∧
      (∀ b ∈ answers, b = .reply .done) ∧ g'.Holds m' t' ∧
      Without (fun k => ∃ name ∈ names, Application.Owns (a.application name) k) m m' := by
  -- Each removal is made of the map that the ones before it have left, and what is removed adds up.
  induction names generalizing g m t ops with
  | nil =>
    obtain rfl : ops = [] := List.map_eq_nil_iff.mp hops
    exact ⟨[], g, t, m, rfl, by simp, h, .refl fun k ⟨_, hname, _⟩ => nomatch hname⟩
  | cons name names ih =>
    obtain ⟨⟨now, op⟩, ops, rfl, hhead, htail⟩ := List.map_eq_cons_iff.mp hops
    obtain rfl : op = .removeApplication (a.application name) := hhead
    obtain ⟨m₁, hsettle, hone⟩ := settle_removeApplication hm (a.application name) now
    obtain ⟨g₁, t₁, hrun₁, hholds₁, hroot₁⟩ := h.performs_query (L := L) hm
      (.removeApplication (a.application name)) trivial (hroom name List.mem_cons_self) hsettle
    have hsame := Store.hasRoom_congr hroot₁
    obtain ⟨answers, g', t', m', hrun, hdone, hholds, hrest⟩ := ih hholds₁
      (hsame ▸ hone.allAdmissible hm) htail
      (hsame ▸ fun name hname => hroom name (List.mem_cons_of_mem _ hname))
    refine ⟨.reply .done :: answers, g', t', m', ?_, ?_, hholds, ?_⟩
    · simp only [Registry.performAll, Script.run_bind, Script.run_pure, hrun₁, hrun]
    · exact List.forall_mem_cons.mpr ⟨rfl, hdone⟩
    · refine (hone.trans hrest).congr fun k v _ => ?_
      simp only [List.mem_cons, exists_eq_or_imp]

/-- A question about an account without records is answered as it is settled, whatever loader there
is: where an application is missing no loader is asked. -/
theorem Holds.settles_question (h : g.Holds m t) (hm : AllAdmissible g.store.HasRoom m)
    {op : Operation} (hop : op.IsQuestion) (hnone : ∀ k, op.account.Owns k → m.get? k = none)
    (now : Instant) (hroom : ∀ k, op.Addresses k → g.store.HasRoom k) :
    Settles L g t m (op.request now) := by
  cases op with
  | addApplication | removeApplication | removeApplications | removeAccount | setInstances
  | startRun | stopRun | setArguments => exact hop.elim
  | loadProgram p kind =>
    refine h.settles_load_of_rejected hm (Operation.sound (.loadProgram p kind) now hroom)
      (congrArg Prod.fst (runOn_required_of_none fun k hk => ?_))
    exact hnone k (Layout.owns_application hk)
  | _ =>
    refine h.settles_query hm _ ?_ now hroom
    trivial

/-- **Removals remove exactly what is owned.** In every reachable state, to remove a stored
application removes its record and the arguments of its programs, to remove all applications of an
account does so for each of them, as it does to remove them one by one in any order, and to remove
an account removes all that lies with it. Every other record is left as it was.

Once an account is removed, every question about it is answered as on an empty store, as far as the
files of the keys that it names are within the limits, and so is every start of a run. -/
theorem removals_exact (h : Reached L past g t) : ∃ m, g.Holds m t ∧
    (∀ now id, Application.IsStored m id → ∃ g' t' m',
      (perform L g now (.removeApplication id)).run t = ((.reply .done, g'), t') ∧
      g'.Holds m' t' ∧ Without (Application.Owns id) m m') ∧
    (∀ now a (names : List String) (ops : List TimedOperation),
      (∀ name, name ∈ names ↔ Application.IsStored m (a.application name)) →
      ops.map (·.2) =
        names.map (fun name => .removeApplication (a.application name)) →
      ∃ g₁ t₁ answers g₂ t₂ m',
        (perform L g now (.removeApplications a)).run t = ((.reply .done, g₁), t₁) ∧
        (performAll L g ops).run t = ((answers, g₂), t₂) ∧
        (∀ b ∈ answers, b = .reply .done) ∧ g₁.Holds m' t₁ ∧ g₂.Holds m' t₂ ∧
        Without (fun k => ∃ name ∈ names, Application.Owns (a.application name) k) m m') ∧
    ∀ now a, ∃ g' t' m',
      (perform L g now (.removeAccount a)).run t = ((.reply .done, g'), t') ∧
      g'.Holds m' t' ∧ Without a.Owns m m' ∧
      (∀ now' op y t₀, op.IsQuestion → op.account = a →
        (∀ k, op.Addresses k → g.store.HasRoom k) →
        ((perform L g' now' op).run t').1.1 =
          ((perform L (onStore (.memory .empty) y) now' op).run t₀).1.1) ∧
      ∀ now' p r time, p.account = a → (∃ k, Layout.runIndex p r = .ok k) →
        (∀ k, Run.Owns p r k → g.store.HasRoom k) →
        ((perform L g' now' (.startRun p r time)).run t').1.1 = .reply .done := by
  obtain ⟨m, hholds, hm⟩ := h.exists_admissible
  refine ⟨m, hholds, ?_, ?_, ?_⟩
  · intro now id hstored
    obtain ⟨m', hsettle, hwithout⟩ := settle_removeApplication hm id now
    obtain ⟨g', t', hrun, hafter, -⟩ := hholds.settles_query (L := L) hm
      (.removeApplication id) trivial now fun k hk => by
        -- The record is stored, so there was room for its key.
        obtain ⟨l, hl, hsome⟩ := hstored
        obtain rfl : k = l := Except.ok.inj (hk.symm.trans hl)
        obtain ⟨v, hv⟩ := Option.isSome_iff_exists.mp hsome
        exact (hm k v hv).place
    rw [← perform_eq_serve, hsettle] at hrun
    rw [hsettle] at hafter
    exact ⟨g', t', m', hrun, hafter, hwithout⟩
  · intro now a names ops hnames hops
    obtain ⟨m₁, hsettle, hwithout₁⟩ := settle_removeApplications hm now hnames
    obtain ⟨g₁, t₁, hrun₁, hafter₁, -⟩ := hholds.settles_query (L := L) hm
      (.removeApplications a) trivial now nofun
    rw [← perform_eq_serve, hsettle] at hrun₁
    rw [hsettle] at hafter₁
    obtain ⟨answers, g₂, t₂, m₂, hrun₂, hdone, hafter₂, hwithout₂⟩ :=
      hholds.performAll_removals (L := L) hm a hops fun name hname k hk => by
        obtain ⟨l, hl, hsome⟩ := (hnames name).mp hname
        obtain rfl : k = l := Except.ok.inj (hk.symm.trans hl)
        obtain ⟨v, hv⟩ := Option.isSome_iff_exists.mp hsome
        exact (hm k v hv).place
    -- Both ways leave exactly what none of the applications owns, and that determines the map.
    obtain rfl : m₁ = m₂ := hwithout₁.unique hwithout₂
    exact ⟨g₁, t₁, answers, g₂, t₂, m₁, hrun₁, hrun₂, hdone, hafter₁, hafter₂, hwithout₁⟩
  · intro now a
    obtain ⟨m', hsettle, hwithout⟩ := settle_removeAccount hm.storable a now
    obtain ⟨g', t', hrun, hafter, hroot⟩ := hholds.settles_query (L := L) hm
      (.removeAccount a) trivial now nofun
    rw [← perform_eq_serve, hsettle] at hrun
    rw [hsettle] at hafter
    -- Without the account, its questions are settled as over the empty map.
    have hsame := Store.hasRoom_congr hroot
    have hm' : AllAdmissible g'.store.HasRoom m' := hsame ▸ hwithout.allAdmissible hm
    refine ⟨g', t', m', hrun, hafter, hwithout, ?_, ?_⟩
    · rintro now' op y t₀ hop rfl hroom
      have hempty : (onStore (.memory .empty) y).Holds ∅ t₀ :=
        ⟨Store.holds_empty_memory t₀, allStorable_empty, rfl⟩
      obtain ⟨_, _, hanswers, -⟩ := hafter.settles_question (L := L) hm' hop
        (fun k hk => (hwithout k).1 hk) now' (hsame ▸ hroom)
      obtain ⟨_, _, hanswers₀, -⟩ := hempty.settles_question (L := L) allAdmissible_empty hop
        (fun k _ => rfl) now' fun k _ => nofun
      rw [perform_eq_serve, perform_eq_serve, hanswers, hanswers₀]
      exact settle_of_owns_nothing hop hm'.storable (fun k hk => (hwithout k).1 hk) now'
    · rintro now' p r time rfl ⟨index, hindex⟩ hroom
      obtain ⟨k, hk⟩ := Layout.run_isOk hindex time
      have hgives := ((Operation.startRun p r time).alike now' now').gives_settle hm'.storable
      -- The index of the run lies with the account, so the run counts as new.
      have hfree : m'.get? index = none := (hwithout index).1 (Run.Owns.account (.inl hindex))
      obtain ⟨hanswer, -⟩ := Run.gives_start hindex hk hfree hgives
      obtain ⟨_, _, hrun', -⟩ := hafter.settles_query (L := L) hm'
        (.startRun p r time) trivial now' (hsame ▸ hroom)
      rw [perform_eq_serve, hrun']
      exact hanswer

/-! ### A procedure that runs -/

theorem removals_exact_running : ∃ past g t, Reached (.ofSpecification Unit) past g t ∧
    ∃ m, g.Holds m t ∧ Application.IsStored m shop ∧
      (∃ g' t' m', (perform (.ofSpecification Unit) g noon (.removeApplication shop)).run t =
        ((.reply .done, g'), t') ∧ g'.Holds m' t' ∧ Without (Application.Owns shop) m m') ∧
      (∃ g₁ t₁ answers g₂ t₂ m',
        (perform (.ofSpecification Unit) g noon (.removeApplications shop.account)).run t =
          ((.reply .done, g₁), t₁) ∧
        (performAll (.ofSpecification Unit) g ((namesIn .applications shop.account m).map fun name =>
          (noon, .removeApplication (shop.account.application name)))).run t =
            ((answers, g₂), t₂) ∧ g₁.Holds m' t₁ ∧ g₂.Holds m' t₂) ∧
      ∃ g' t', (perform (.ofSpecification Unit) g noon (.removeAccount shop.account)).run t =
          ((.reply .done, g'), t') ∧
        ((perform (.ofSpecification Unit) g' noon (.activeRuns (shop.program "price"))).run t').1.1 =
          .reply (.runs []) ∧
        ((perform (.ofSpecification Unit) g' noon
          (.startRun (shop.program "price") ⟨"r1"⟩ 10)).run t').1.1 = .reply .done := by
  have hreached := reached_settleAll () .empty running (by decide +kernel)
  have hroom : ∀ k, (onStore (.ofMap (settleAll ∅ running).2) ()).store.HasRoom k := fun _ => nofun
  obtain ⟨m, hholds, hone, hall, haccount⟩ := removals_exact hreached
  obtain rfl : (settleAll ∅ running).2 = m := congrArg Memory.records hholds.store
  have hstored : Application.IsStored (settleAll ∅ running).2 shop :=
    ⟨⟨["app", "acme", "shop"], by decide⟩, by decide +kernel, by decide +kernel⟩
  obtain ⟨g₁, t₁, answers, g₂, t₂, m', hrun₁, hrun₂, -, hholds₁, hholds₂, -⟩ :=
    hall noon shop.account (namesIn .applications shop.account (settleAll ∅ running).2)
      ((namesIn .applications shop.account (settleAll ∅ running).2).map fun name =>
        (noon, .removeApplication (shop.account.application name)))
      (fun name => mem_namesIn_iff) (by rw [List.map_map]; rfl)
  obtain ⟨g', t', -, hgone, -, -, hquestions, hstarts⟩ := haccount noon shop.account
  refine ⟨_, _, _, hreached, _, hholds, hstored, hone noon shop hstored,
    ⟨g₁, t₁, answers, g₂, t₂, m', hrun₁, hrun₂, hholds₁, hholds₂⟩, g', t', hgone, ?_, ?_⟩
  · rw [hquestions noon (.activeRuns (shop.program "price")) () .empty trivial rfl fun k _ => hroom k]
    decide +kernel
  · exact hstarts noon (shop.program "price") ⟨"r1"⟩ 10 rfl
      ⟨⟨["runidx", "acme", "shop", "price", "r1"], by decide⟩, by decide +kernel⟩ fun k _ => hroom k

end Registry

end AppRegistry
