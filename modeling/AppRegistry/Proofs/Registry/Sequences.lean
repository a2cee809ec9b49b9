import AppRegistry.Proofs.Registry.Confinement

/-!
# Operations one after another

`Registry.performAll` performs operations one after another, each at a time of day of its own.

Main result: `Registry.Reached.exists_holds`. An invariant of the map that every operation keeps,
along with what has been asked and answered so far, holds in every state that operations on an empty
store lead to (`Registry.Reached`).
-/

namespace AppRegistry

/-- An operation with the time of day at which it is performed. -/
abbrev TimedOperation := Instant × Operation

namespace Registry

variable {σ : Type} {L : Loader σ} {g g' : Registry σ} {m : OrderedMap Key Json}
  {t t' : FileTree}

/-- Performs operations one after another and lists the answers. -/
def performAll (L : Loader σ) (g : Registry σ) :
    List TimedOperation → Script (List Answer × Registry σ)
  | [] => pure ([], g)
  | (now, op) :: rest => do
    let (a, g) ← perform L g now op
    let (answers, g) ← performAll L g rest
    pure (a :: answers, g)

/-- A time of day at which the operations of an example are performed. -/
def noon : Instant := ⟨⟨2024, 6, 1⟩, 720, 0, 0, by decide⟩

/-- What has been asked and answered, the latest last. -/
def history (ops : List TimedOperation) (answers : List Answer) : List (Operation × Answer) :=
  (ops.map (·.2)).zip answers

theorem history_cons (now : Instant) (op : Operation) (ops : List TimedOperation) (a : Answer)
    (answers : List Answer) :
    history ((now, op) :: ops) (a :: answers) = (op, a) :: history ops answers := rfl

/-- **An invariant that each operation keeps holds after any sequence of operations**, whatever may
panic. -/
theorem Keeps.performAll {P : List (Operation × Answer) → OrderedMap Key Json → Prop}
    (hgives : ∀ past now op a m m', AllStorable m → P past m →
      ((op : Operation).request now).Gives m a m' →
      (m' = m ∨ (∃ r, a = .reply r) ∨ ∃ target, L.Unapplied target a) → P (past ++ [(op, a)]) m')
    (hfails : ∀ past op a m, (a = .panicked ∨ ∃ e, a = .error (.storage e)) → P past m →
      P (past ++ [(op, a)]) m)
    (past : List (Operation × Answer)) (hP : P past m) (h : g.Keeps m t)
    (hL : ∀ root, g.store.root? = some root → L.Spares root) {ops : List TimedOperation}
    {answers : List Answer} (hrun : (performAll L g ops).run t = ((answers, g'), t')) :
    ∃ m', g'.Keeps m' t' ∧ g'.store.root? = g.store.root? ∧
      (g.IsReady → .panicked ∉ answers → g'.IsReady) ∧ P (past ++ history ops answers) m' := by
  induction ops generalizing g t m past answers with
  | nil =>
    obtain ⟨⟨rfl, rfl⟩, rfl⟩ : (answers = [] ∧ g' = g) ∧ t' = t := by
      simpa [Registry.performAll] using hrun.symm
    exact ⟨m, h, rfl, fun hg _ => hg, by simpa [history] using hP⟩
  | cons x ops ih =>
    obtain ⟨now, op⟩ := x
    rw [Registry.performAll, Script.run_bind] at hrun
    generalize hone : (perform L g now op).run t = y at hrun
    obtain ⟨⟨a, g₁⟩, t₁⟩ := y
    simp only [Script.run_bind] at hrun
    generalize hrest : (Registry.performAll L g₁ ops).run t₁ = z at hrun
    obtain ⟨⟨answers', g₂⟩, t₂⟩ := z
    obtain ⟨rfl, rfl, rfl⟩ := Script.of_run_pure hrun
    rw [perform_eq_serve] at hone
    obtain ⟨m₁, hkeeps, hroot, hready, hchanged, hends⟩ := h.serve hL (op.alike now now) hone
    -- A panic and a storage error leave the map as it was.
    have hP₁ : P (past ++ [(op, a)]) m₁ := by
      rcases hends with hgave | ⟨rfl, hpanic | ⟨he, -⟩⟩
      · exact hgives past now op a m m₁ h.storable hP hgave hchanged
      · exact hfails past op a m₁ (.inl hpanic) hP
      · exact hfails past op a m₁ (.inr he) hP
    obtain ⟨m', hafter, hroot', hready', hP'⟩ :=
      ih _ hP₁ hkeeps (fun root hr => hL root (hroot ▸ hr)) hrest
    refine ⟨m', hafter, hroot'.trans hroot, fun hg hpanic => ?_, ?_⟩
    · rw [List.mem_cons, not_or] at hpanic
      exact hready' (hready hg (Ne.symm hpanic.1)) hpanic.2
    · rw [history_cons, List.append_cons]
      exact hP'

/-- **An invariant that each operation keeps holds after any sequence of operations** on a registry
that can commit, if none panics. -/
theorem Holds.performAll {P : List (Operation × Answer) → OrderedMap Key Json → Prop}
    (hgives : ∀ past now op a m m', AllStorable m → P past m →
      ((op : Operation).request now).Gives m a m' →
      (m' = m ∨ (∃ r, a = .reply r) ∨ ∃ target, L.Unapplied target a) → P (past ++ [(op, a)]) m')
    (hfails : ∀ past op e m, P past m → P (past ++ [(op, .error (.storage e))]) m)
    (hP : P [] m) (h : g.Holds m t)
    (hL : ∀ root, g.store.root? = some root → L.Spares root) {ops : List TimedOperation}
    {answers : List Answer} (hrun : (performAll L g ops).run t = ((answers, g'), t'))
    (hpanic : .panicked ∉ answers) :
    ∃ m', g'.Holds m' t' ∧ g'.store.root? = g.store.root? ∧ P (history ops answers) m' := by
  obtain ⟨hkeeps, hready⟩ := holds_iff.mp h
  -- Up to the first panic, which does not come, the invariant is kept.
  obtain ⟨m', hafter, hroot, hstays, hP'⟩ := hkeeps.performAll
    (P := fun past m => (∀ e ∈ past, e.2 ≠ .panicked) → P past m)
    (fun past now op a m m' hm hP hgave hchanged hnone =>
      hgives past now op a m m' hm (hP fun e he => hnone e (by simp [he])) hgave hchanged)
    (fun past op a m ha hP hnone => by
      rcases ha with rfl | ⟨e, rfl⟩
      · exact absurd rfl (hnone (op, .panicked) (by simp))
      · exact hfails past op e m (hP fun e he => hnone e (by simp [he])))
    [] (fun _ => hP) hL hrun
  refine ⟨m', holds_iff.mpr ⟨hafter, hstays hready hpanic⟩, hroot, hP' fun e he hpanicked => ?_⟩
  exact hpanic (hpanicked ▸ (List.of_mem_zip he).2)

/-! ## Reachable states -/

/-- Whether a registry and a file tree are what operations on an empty store lead to, with all that
was asked and answered. The store may be in memory or on disk, the loader leaves its files alone,
and nothing panicked. -/
def Reached (L : Loader σ) (past : List (Operation × Answer)) (g : Registry σ) (t : FileTree) :
    Prop :=
  ∃ (store : Store) (x : σ) (t₀ : FileTree) (ops : List TimedOperation) (answers : List Answer),
    store.Holds ∅ t₀ ∧ (∀ root, store.root? = some root → L.Spares root) ∧
    (performAll L (onStore store x) ops).run t₀ = ((answers, g), t) ∧ .panicked ∉ answers ∧
    past = history ops answers

/-- One more operation after others. -/
theorem performAll_concat {g₁ : Registry σ} {t₁ : FileTree} {now : Instant} {op : Operation}
    {ops : List TimedOperation} {answers : List Answer} {a : Answer}
    (hrun : (performAll L g ops).run t = ((answers, g₁), t₁))
    (hop : (perform L g₁ now op).run t₁ = ((a, g'), t')) :
    (performAll L g (ops ++ [(now, op)])).run t = ((answers ++ [a], g'), t') ∧
      answers.length = ops.length := by
  induction ops generalizing g t answers with
  | nil =>
    obtain ⟨rfl, rfl, rfl⟩ := Script.of_run_pure hrun
    simp [performAll, hop]
  | cons e ops ih =>
    obtain ⟨now₀, op₀⟩ := e
    rw [performAll, Script.run_bind] at hrun
    generalize hfirst : (perform L g now₀ op₀).run t = x at hrun
    obtain ⟨⟨a₀, g₀⟩, t₀⟩ := x
    simp only [Script.run_bind] at hrun
    generalize hrest : (performAll L g₀ ops).run t₀ = y at hrun
    obtain ⟨⟨answers₀, g₂⟩, t₂⟩ := y
    obtain ⟨rfl, rfl, rfl⟩ := Script.of_run_pure hrun
    -- The operation comes after those that follow the first one, from where that one left off.
    obtain ⟨hconcat, hlength⟩ := ih hrest
    refine ⟨?_, congrArg (· + 1) hlength⟩
    rw [List.cons_append, performAll, Script.run_bind, hfirst]
    simp only [Script.run_bind, Script.run_pure, hconcat, List.cons_append]

/-- An operation leads from a reachable state to a reachable state, unless it panics. -/
theorem Reached.perform {past : List (Operation × Answer)} (h : Reached L past g t) {now : Instant}
    {op : Operation} {a : Answer} (hrun : (perform L g now op).run t = ((a, g'), t'))
    (ha : a ≠ .panicked) : Reached L (past ++ [(op, a)]) g' t' := by
  obtain ⟨store, x, t₀, ops, answers, hstore, hL, hbefore, hpanic, rfl⟩ := h
  obtain ⟨hafter, hlength⟩ := performAll_concat hbefore hrun
  refine ⟨store, x, t₀, _, _, hstore, hL, hafter, ?_, ?_⟩
  · simpa [hpanic] using ha.symm
  · rw [history, history, List.map_append, List.zip_append (by simp [hlength])]
    rfl

/-- Whether a registry and a file tree are what operations on an empty store lead to, whatever has
panicked: a loader may panic when it stages a change and when it applies one. The store may be in
memory or on disk, and the loader leaves its files alone. -/
def Arises (L : Loader σ) (g : Registry σ) (t : FileTree) : Prop :=
  ∃ (store : Store) (x : σ) (t₀ : FileTree) (ops : List TimedOperation) (answers : List Answer),
    store.Keeps ∅ t₀ ∧ (∀ root, store.root? = some root → L.Spares root) ∧
    (performAll L (onStore store x) ops).run t₀ = ((answers, g), t)

/-- Operations on an empty store in memory, none of which panics, lead to a reachable state. -/
theorem reached_inMemory (L : Loader σ) (x : σ) (t₀ : FileTree) (ops : List TimedOperation)
    (answers : List Answer)
    (hanswers : ((performAll L (onStore (.memory .empty) x) ops).run t₀).1.1 = answers)
    (hpanic : .panicked ∉ answers) :
    ∃ g t, Reached L (history ops answers) g t ∧ g.store.root? = none := by
  generalize hrun : (performAll L (onStore (.memory .empty) x) ops).run t₀ = ran at hanswers
  obtain ⟨⟨_, g⟩, t⟩ := ran
  obtain rfl := hanswers
  have hstart : (onStore (.memory .empty) x).Holds ∅ t₀ :=
    ⟨Store.holds_empty_memory _, fun k v h => by simp at h, rfl⟩
  obtain ⟨-, -, hroot, -⟩ := hstart.performAll (P := fun _ _ => True)
    (fun _ _ _ _ _ _ _ _ _ _ => trivial) (fun _ _ _ _ _ => trivial) trivial nofun hrun hpanic
  exact ⟨g, t, ⟨.memory .empty, x, t₀, ops, _, Store.holds_empty_memory _, nofun, hrun, hpanic, rfl⟩,
    hroot⟩

/-- **An invariant that each operation keeps holds in every reachable state.** -/
theorem Reached.exists_holds {P : List (Operation × Answer) → OrderedMap Key Json → Prop}
    {past : List (Operation × Answer)} (h : Reached L past g t) (hempty : P [] ∅)
    (hgives : ∀ past now op a m m', AllStorable m → P past m →
      ((op : Operation).request now).Gives m a m' →
      (m' = m ∨ (∃ r, a = .reply r) ∨ ∃ target, L.Unapplied target a) → P (past ++ [(op, a)]) m')
    (hfails : ∀ past op e m, P past m → P (past ++ [(op, .error (.storage e))]) m) :
    ∃ m, g.Holds m t ∧ P past m := by
  obtain ⟨store, x, t₀, ops, answers, hstore, hL, hrun, hpanic, rfl⟩ := h
  have hstart : (onStore store x).Holds ∅ t₀ := ⟨hstore, fun k v h => by simp at h, rfl⟩
  obtain ⟨m, hholds, -, hP⟩ := hstart.performAll hgives hfails hempty hL hrun hpanic
  exact ⟨m, hholds, hP⟩

/-- **An invariant of the map that each operation keeps holds in every state**, also once something
has panicked. -/
theorem Arises.exists_keeps {P : OrderedMap Key Json → Prop} (h : Arises L g t) (hempty : P ∅)
    (hgives : ∀ now op a m m', AllStorable m → P m → ((op : Operation).request now).Gives m a m' →
      P m') :
    ∃ m, g.Keeps m t ∧ P m ∧ ∀ root, g.store.root? = some root → L.Spares root := by
  obtain ⟨store, x, t₀, ops, answers, hstore, hL, hrun⟩ := h
  have hstart : (onStore store x).Keeps ∅ t₀ := ⟨hstore, fun k v h => by simp at h⟩
  -- What was asked and answered is of no account here.
  obtain ⟨m, hkeeps, hroot, -, hP⟩ := hstart.performAll (P := fun _ m => P m)
    (fun _ now op a m m' hm hP hg _ => hgives now op a m m' hm hP hg) (fun _ _ _ _ _ hP => hP) []
    hempty hL hrun
  exact ⟨m, hkeeps, hP, fun root hr => hL root (hroot ▸ hr)⟩

/-- If the loader applied all that was committed, only the operations that get through count. -/
theorem Reached.exists_holds_of_appliedIn
    {P : List (Operation × Answer) → OrderedMap Key Json → Prop}
    {past : List (Operation × Answer)} (h : Reached L past g t) (happlied : L.AppliedIn past)
    (hempty : P [] ∅)
    (hreply : ∀ past now op r m m', AllStorable m → P past m →
      ((op : Operation).request now).Gives m (.reply r) m' → P (past ++ [(op, .reply r)]) m')
    (hfails : ∀ past op a m, (∀ r, a ≠ .reply r) → P past m → P (past ++ [(op, a)]) m) :
    ∃ m, g.Holds m t ∧ P past m := by
  have hbefore : ∀ {past : List (Operation × Answer)} {e}, L.AppliedIn (past ++ [e]) →
      L.AppliedIn past := fun h e he => h e (List.mem_append_left _ he)
  -- The condition on the answers goes along, for it is about the run so far.
  suffices hholds : ∃ m, g.Holds m t ∧ (L.AppliedIn past → P past m) by
    obtain ⟨m, hholds, hP⟩ := hholds
    exact ⟨m, hholds, hP happlied⟩
  refine h.exists_holds (P := fun past m => L.AppliedIn past → P past m) (fun _ => hempty)
    (fun past now op a m m' hm hP hgives hchanged happlied => ?_) fun past op e m hP happlied =>
      hfails past op (.error (.storage e)) m (fun _ => nofun) (hP (hbefore happlied))
  by_cases hgot : ∃ r, a = .reply r
  · obtain ⟨r, rfl⟩ := hgot
    exact hreply past now op r m m' hm (hP (hbefore happlied)) hgives
  · rcases hchanged with rfl | hgot' | ⟨target, hunapplied⟩
    · exact hfails past op a m' (fun r hr => hgot ⟨r, hr⟩) (hP (hbefore happlied))
    · exact absurd hgot' hgot
    · exact absurd hunapplied (happlied (op, a) (by simp) target)

end Registry

end AppRegistry
