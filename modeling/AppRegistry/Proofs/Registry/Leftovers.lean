import AppRegistry.Proofs.Registry.Ownership

/-!
# Arguments without an application

The arguments of a program may be set while its application is not deployed. To remove an
application deletes its record and then all below the key of its arguments, and does the second
whether or not there was a record.

**Theorem (`removal_of_unstored`).** In every reachable state, to remove an application that is not
stored takes away the arguments of its programs and leaves every other record as it was. Nothing
changes if no arguments were set since the application or its account was last removed.

That arguments were set is read off the history (`Application.Argued`): whatever stands at a key of
arguments after an operation either stood there before or was set by it (`arguments_of_gives`).
-/

namespace AppRegistry

open RegistryTransaction

variable {m m' : OrderedMap Key Json} {k : Key} {v : Json} {P : Key → Prop} {id : ApplicationId}
  {name : String} {past : List (Operation × Answer)} {op : Operation} {answer : Answer}
  {now : Instant}

theorem Without.eq_of_none (h : Without P m m') (hnone : ∀ k, P k → m.get? k = none) : m' = m :=
  h.unique fun k => ⟨hnone k, fun _ => rfl⟩

theorem Without.of_get?_eq_some (h : Without P m m') (hv : m'.get? k = some v) :
    ¬ P k ∧ m.get? k = some v := by
  by_cases hk : P k
  · cases ((h k).1 hk).symm.trans hv
  · exact ⟨hk, (h k).2 hk ▸ hv⟩

namespace Application

/-- Whether a key is that of the arguments of a program of an application. -/
def OwnsArguments (id : ApplicationId) (k : Key) : Prop :=
  ∃ name, Layout.arguments (id.program name) = .ok k

/-- Whether arguments were set for a program of an application and neither the application nor its
account has been removed since. -/
def Argued (id : ApplicationId) (past : List (Operation × Answer)) : Prop :=
  ∃ before after name args reply,
    past = before ++ (.setArguments (id.program name) args, .reply reply) :: after ∧
    ∀ r, (.removeApplication id, .reply r) ∉ after ∧ (.removeAccount id.account, .reply r) ∉ after

theorem not_isStored (hk : Layout.application id = .ok k) (hnone : m.get? k = none) :
    ¬ IsStored m id := by
  rintro ⟨l, hl, hsome⟩
  obtain rfl : k = l := Except.ok.inj (hk.symm.trans hl)
  simp [hnone] at hsome

namespace Argued

theorem set (name : String) (args : RunArguments) (reply : Reply) :
    Argued id (past ++ [(.setArguments (id.program name) args, .reply reply)]) :=
  ⟨past, [], name, args, reply, rfl, by simp⟩

/-- What was set stays so until a removal. -/
theorem concat (h : Argued id past)
    (hkept : ∀ r, answer = .reply r → op ≠ .removeApplication id ∧ op ≠ .removeAccount id.account) :
    Argued id (past ++ [(op, answer)]) := by
  obtain ⟨before, after, name, args, reply, rfl, hafter⟩ := h
  refine ⟨before, after ++ [(op, answer)], name, args, reply, by simp, fun r => ?_⟩
  have hnew : (op, answer) ≠ (.removeApplication id, .reply r) ∧
      (op, answer) ≠ (.removeAccount id.account, .reply r) :=
    ⟨fun he => (hkept r (congrArg Prod.snd he)).1 (congrArg Prod.fst he),
      fun he => (hkept r (congrArg Prod.snd he)).2 (congrArg Prod.fst he)⟩
  simp [hafter r, hnew.1.symm, hnew.2.symm]

end Argued

end Application

/-! ## What an operation does to arguments -/

/-- Arguments are put at their key if there is such a key. -/
theorem gives_setArguments {p : ProgramId} {args : RunArguments}
    (h : ((Run.setArguments p args).request fun _ => .done).Gives m answer m') :
    m' = m ∨ answer = .reply .done ∧
      ∃ k, Layout.arguments p = .ok k ∧ m' = m.insert k (stored args) := by
  unfold Run.setArguments at h
  cases hk : Layout.arguments p with
  | error e =>
    rw [hk] at h
    exact .inl (h.of_rejected m rfl).2
  | ok k =>
    rw [hk] at h
    obtain ⟨hanswer, hm'⟩ := h.of_done () rfl
    exact .inr ⟨hanswer, k, rfl, hm'⟩

/-- **Arguments come from where they are set**, and a removal of the application or of its account
leaves none. -/
theorem arguments_of_gives (hm : AllAdmissible P m) (hg : (op.request now).Gives m answer m')
    (hk : Layout.arguments (id.program name) = .ok k) (hv : m'.get? k = some v) :
    (∃ args, op = .setArguments (id.program name) args ∧ answer = .reply .done) ∨
      m.get? k = some v ∧ op ≠ .removeApplication id ∧ op ≠ .removeAccount id.account := by
  have hholds : Keyspace.arguments.Holds id.account k :=
    (Layout.spells_ofProgram .arguments (id.program name)).holds hk List.prefix_rfl
  -- What an operation does not write was there before it. The operations that write arguments are
  -- few.
  by_cases hw : op.Writes k
  · cases op with
    | setArguments p args =>
      rcases gives_setArguments hg with rfl | ⟨hanswer, l, hl, rfl⟩
      · exact .inr ⟨hv, by simp⟩
      · rw [OrderedMap.get?_insert] at hv
        split at hv
        · next hlk =>
          obtain rfl := Layout.ofProgram_inj hk (hlk ▸ hl)
          exact .inl ⟨args, rfl, hanswer⟩
        · exact .inr ⟨hv, by simp⟩
    | removeApplication id' =>
      obtain ⟨copy, hrun, hwithout⟩ := runOn_removeOne_without hm id'
      obtain ⟨-, rfl⟩ := hg.of_done () hrun
      -- What survives the removal of an application belongs to another one.
      obtain ⟨hnot, hv⟩ := hwithout.of_get?_eq_some hv
      refine .inr ⟨hv, ?_, by simp⟩
      rintro ⟨⟩
      exact hnot (.inr ⟨name, hk⟩)
    | removeApplications b =>
      obtain ⟨tx, copy, hask, hrun, hwithout⟩ := runOn_removeAll_without hm b
      simp only [Operation.request, hask] at hg
      obtain ⟨-, rfl⟩ := hg.of_done () hrun
      exact .inr ⟨(hwithout.of_get?_eq_some hv).2, by simp⟩
    | removeAccount b => cases ((gives_removeAccount hg).2 k hw).symm.trans hv
    | addApplication id' s archive =>
      rcases hw with hw | hw | hw <;> cases (hholds.unique hw).1
    | setInstances p x n => cases (hholds.unique hw).1
    | startRun p r time | stopRun p r time status =>
      rcases hw with hw | ⟨_, hw⟩
      · cases (hholds.unique (Layout.holds_runIndex hw)).1
      · cases (hholds.unique (Layout.holds_run hw)).1
    | _ => exact hw.elim
  · rw [hg.get?_eq (op.alike now now) hm.storable hw] at hv
    refine .inr ⟨hv, ?_, ?_⟩
    · rintro rfl
      exact hw (.inr hholds)
    · rintro rfl
      exact hw ⟨_, hholds⟩

namespace Registry

variable {σ : Type} {L : Loader σ} {g : Registry σ} {t : FileTree}

/-- **In every reachable state the arguments that are stored have been set.** -/
theorem Reached.exists_argued (h : Reached L past g t) :
    ∃ m, g.Holds m t ∧ AllAdmissible g.store.HasRoom m ∧
      ∀ id k, Application.OwnsArguments id k → (m.get? k).isSome → Application.Argued id past := by
  have hexists := h.exists_holds
    (P := fun past m => AllAdmissible (fun _ => True) m ∧
      ∀ id k, Application.OwnsArguments id k → (m.get? k).isSome → Application.Argued id past)
    ⟨allAdmissible_empty, fun _ _ _ hsome => by simp at hsome⟩ ?gives ?fails
  case gives =>
    rintro past now op answer m m' - ⟨hm, hargued⟩ hg -
    refine ⟨(op.sound now fun _ _ => trivial).gives hm hg, ?_⟩
    rintro id k ⟨name, hk⟩ hsome
    obtain ⟨v, hv⟩ := Option.isSome_iff_exists.mp hsome
    rcases arguments_of_gives hm hg hk hv with ⟨args, rfl, rfl⟩ | ⟨hv, hremoves⟩
    · exact .set name args .done
    · have hstored : (m.get? k).isSome := Option.isSome_iff_exists.mpr ⟨v, hv⟩
      exact (hargued id k ⟨name, hk⟩ hstored).concat fun _ _ => hremoves
  case fails =>
    rintro past op e m ⟨hm, hargued⟩
    exact ⟨hm, fun id k hk hsome => (hargued id k hk hsome).concat fun _ he => nomatch he⟩
  obtain ⟨m, hholds, hm, hargued⟩ := hexists
  exact ⟨m, hholds, h.allAdmissible hholds hm, hargued⟩

/-- **To remove an application that is not stored** takes away the arguments of its programs, and
every other record stays. Nothing changes if no arguments were set for one of its programs since the
application or its account was last removed. The removal is no error, unless the record of the
application would lie in a file for which there is no room; then nothing changes either. -/
theorem removal_of_unstored (h : Reached L past g t) : ∃ m, g.Holds m t ∧
    ∀ now id, ¬ Application.IsStored m id → ∃ answer g' t' m',
      (perform L g now (.removeApplication id)).run t = ((answer, g'), t') ∧ g'.Holds m' t' ∧
      (answer = .reply .done ∧ Without (Application.OwnsArguments id) m m' ∨
        m' = m ∧ (∃ e, answer = .error (.storage e)) ∧
          ∃ k, Layout.application id = .ok k ∧ ¬ g.store.HasRoom k) ∧
      (¬ Application.Argued id past → m' = m) := by
  obtain ⟨m, hholds, hm, hargued⟩ := h.exists_argued
  refine ⟨m, hholds, fun now id hstored => ?_⟩
  obtain ⟨copy, hruns, hwithout⟩ := runOn_removeOne_without hm id
  -- The record itself was not there, so the removal takes only arguments.
  have hwithout : Without (Application.OwnsArguments id) m copy := hwithout.congr fun k v hv =>
    ⟨fun hk => hk.resolve_left fun hk => hstored ⟨k, hk, by rw [hv]; rfl⟩, .inr⟩
  have hsame : ¬ Application.Argued id past → copy = m := fun hnone =>
    hwithout.eq_of_none fun k hk => Option.not_isSome_iff_eq_none.mp fun hsome =>
      hnone (hargued id k hk hsome)
  by_cases hroom : ∀ k, Layout.application id = .ok k → g.store.HasRoom k
  · have hsettle : ((Operation.removeApplication id).request now).settle m =
        (.reply .done, copy) := by
      show (Request.ask _ (Application.removeOne id)).settle m = _
      rw [Request.settle, hruns]
    obtain ⟨g', t', hrun, hafter, -⟩ :=
      hholds.performs_query (L := L) hm (.removeApplication id) trivial hroom hsettle
    exact ⟨_, g', t', copy, hrun, hafter, .inl ⟨rfl, hwithout⟩, hsame⟩
  · -- Without room for the record the transaction may stop where it reads it, and then nothing is
    -- committed.
    simp only [not_forall, exists_prop] at hroom
    generalize hrun : (perform L g now (.removeApplication id)).run t = ran
    obtain ⟨⟨answer, g'⟩, t'⟩ := ran
    have hserve := hrun
    rw [perform_eq_serve] at hserve
    obtain ⟨m', hafter, -, -, hgives | ⟨rfl, he, -⟩⟩ :=
      hholds.ask ((Operation.removeApplication id).alike now now) hserve
    · obtain ⟨rfl, rfl⟩ := hgives.of_done () hruns
      exact ⟨_, g', t', m', rfl, hafter, .inl ⟨rfl, hwithout⟩, hsame⟩
    · exact ⟨answer, g', t', m', rfl, hafter, .inr ⟨rfl, he, hroom⟩, fun _ => rfl⟩

/-! ### Arguments set too early -/

/-- The procedure gets arguments, and its application is never deployed. -/
def early : List TimedOperation :=
  [(noon, .setArguments (shop.program "price") (.ofList [("currency", "EUR")]))]

theorem removal_of_unstored_early : ∃ past g t, Reached (.ofSpecification Unit) past g t ∧
    ∃ m, g.Holds m t ∧
      (¬ Application.IsStored m shop ∧ ∃ g' t' m',
        (perform (.ofSpecification Unit) g noon (.removeApplication shop)).run t =
          ((.reply .done, g'), t') ∧ g'.Holds m' t' ∧
        Without (Application.OwnsArguments shop) m m') ∧
      ¬ Application.IsStored m (shopOf "b") ∧ ¬ Application.Argued (shopOf "b") past ∧
      ∃ answer g' t',
        (perform (.ofSpecification Unit) g noon (.removeApplication (shopOf "b"))).run t =
          ((answer, g'), t') ∧ g'.Holds m t' := by
  have hreached := reached_settleAll () .empty early (by decide +kernel)
  obtain ⟨m, hholds, hremoval⟩ := removal_of_unstored hreached
  obtain rfl : (settleAll ∅ early).2 = m := congrArg Memory.records hholds.store
  have hshop : ¬ Application.IsStored (settleAll ∅ early).2 shop :=
    Application.not_isStored (k := ⟨["app", "acme", "shop"], by decide⟩) (by decide +kernel)
      (by decide +kernel)
  have hother : ¬ Application.IsStored (settleAll ∅ early).2 (shopOf "b") :=
    Application.not_isStored (k := ⟨["app", "b", "shop"], by decide⟩) (by decide +kernel)
      (by decide +kernel)
  have hargued : ¬ Application.Argued (shopOf "b") (history early (settleAll ∅ early).1) := by
    rintro ⟨before, after, name, args, reply, heq, -⟩
    have hmem : (Operation.setArguments ((shopOf "b").program name) args, Answer.reply reply) ∈
        history early (settleAll ∅ early).1 := by simp [heq]
    simpa [early, shopOf, shop, ApplicationId.program] using (List.of_mem_zip hmem).1
  obtain ⟨answer, g', t', m', hrun, hholds', hends, -⟩ := hremoval noon shop hshop
  obtain ⟨answer₂, g₂, t₂, m₂, hrun₂, hholds₂, -, hsame⟩ := hremoval noon (shopOf "b") hother
  obtain rfl := hsame hargued
  obtain ⟨rfl, hwithout⟩ := hends.resolve_right fun ⟨_, _, _, _, hroom⟩ => hroom nofun
  exact ⟨_, _, _, hreached, _, hholds, ⟨hshop, g', t', m', hrun, hholds', hwithout⟩, hother,
    hargued, answer₂, g₂, t₂, hrun₂, hholds₂⟩

/-- An application that is not stored loses the arguments of its programs when it is removed. -/
theorem removal_loses_arguments : ∃ past g t g' t', Reached (.ofSpecification Unit) past g t ∧
    ((perform (.ofSpecification Unit) g noon (.specification shop)).run t).1.1 =
      .reply (.specification none) ∧
    ((perform (.ofSpecification Unit) g noon (.arguments (shop.program "price"))).run t).1.1 =
      .reply (.arguments (.ofList [("currency", "EUR")])) ∧
    (perform (.ofSpecification Unit) g noon (.removeApplication shop)).run t =
      ((.reply .done, g'), t') ∧
    ((perform (.ofSpecification Unit) g' noon (.arguments (shop.program "price"))).run t').1.1 =
      .reply (.arguments ∅) := by
  refine ⟨_, _, _, _, _, reached_settleAll () .empty early (by decide +kernel), ?_, ?_,
    Prod.ext (Prod.ext ?_ rfl) rfl, ?_⟩
  · decide +kernel
  · decide +kernel
  · decide +kernel
  · decide +kernel

end Registry

end AppRegistry
