import AppRegistry.Proofs.Registry.Listing

/-!
# What a removal leaves

A removal always gets through. The removal of an application leaves nothing at its key and keeps the
records of all other applications; the removal of the applications of an account leaves none of
them; and the removal of an account leaves nothing that lies with it.
-/

namespace AppRegistry

open RegistryTransaction

variable {m m' : OrderedMap Key Json} {a : Answer} {b : AccountId} {id : ApplicationId}

/-! ## One application and all of them -/

/-- An application that has a key has one for its arguments. -/
theorem Layout.ofApplication_isOk {k : Key} (h : Layout.application id = .ok k) (s : Keyspace) :
    ∃ l, Layout.ofApplication s id = .ok l := by
  refine (Layout.spells_ofApplication s id).isOk fun c hc => ?_
  have hvalid := (Layout.spells_ofApplication .applications id).isValid h
  simp only [List.mem_cons, List.not_mem_nil, or_false] at hc hvalid
  rcases hc with rfl | hc
  · exact s.isValid_name
  · exact hvalid c (.inr hc)

theorem runOn_removeOne_of_ok {k base : Key} (hk : Layout.application id = .ok k)
    (hbase : Layout.ofApplication .arguments id = .ok base) (m : OrderedMap Key Json) :
    (Application.removeOne id).runOn m =
      (.done (), (m.erase k).filter fun l _ => !l.isBelow base) := by
  have hdelete : (demand (Transaction.deleteAt k)).runOn m = (.done (m.contains k), m.erase k) := rfl
  simp only [Application.removeOne, hk, Transaction.runOn_bind, hdelete, hbase, runOn_demandKey_ok,
    runOn_deleteBelow]
  rfl

theorem runOn_removeOne_of_error {e : KeyError} (hk : Layout.application id = .error e)
    (m : OrderedMap Key Json) : (Application.removeOne id).runOn m = (.done (), m) := by
  rw [Application.removeOne, hk]
  rfl

theorem runOn_removeOne (id : ApplicationId) (m : OrderedMap Key Json) : ∃ copy,
    (Application.removeOne id).runOn m = (.done (), copy) ∧
    ∀ b l, Keyspace.applications.Holds b l →
      (Layout.application id = .ok l → copy.get? l = none) ∧
      (Layout.application id ≠ .ok l → copy.get? l = m.get? l) := by
  cases hk : Layout.application id with
  | error e => exact ⟨m, runOn_removeOne_of_error hk m, fun b l _ => ⟨nofun, fun _ => rfl⟩⟩
  | ok k =>
    obtain ⟨base, hbase⟩ := Layout.ofApplication_isOk hk .arguments
    refine ⟨_, runOn_removeOne_of_ok hk hbase m, fun b l hl => ?_⟩
    -- The arguments of programs lie in another keyspace.
    have hnot : l.isBelow base = false := by
      rw [Bool.eq_false_iff]
      intro hbelow
      have harguments := (Layout.spells_ofApplication .arguments id).holds hbase
        (Key.isBelow_iff.mp hbelow)
      cases (harguments.unique hl).1
    have hget : ((m.erase k).filter fun l _ => !l.isBelow base).get? l =
        if k = l then none else m.get? l := by
      rw [OrderedMap.get?_filter, OrderedMap.get?_erase, hnot]
      split
      · rfl
      · cases m.get? l <;> rfl
    rw [hget]
    exact ⟨fun h => if_pos (Except.ok.inj h), fun h => if_neg fun hkl => h (congrArg _ hkl)⟩

theorem runOn_removeEach (b : AccountId) (names : List String) (m : OrderedMap Key Json) : ∃ copy,
    (names.forM fun name => Application.removeOne (b.application name)).runOn m =
      (.done (), copy) ∧
    ∀ l, Keyspace.applications.Holds b l →
      ((m.get? l = none ∨ ∃ name ∈ names, Layout.application (b.application name) = .ok l) →
        copy.get? l = none) ∧
      ∀ v, copy.get? l = some v → m.get? l = some v := by
  induction names generalizing m with
  | nil =>
    refine ⟨m, rfl, fun l _ => ⟨?_, fun _ => id⟩⟩
    rintro (hl | ⟨_, hname, -⟩)
    · exact hl
    · cases hname
  | cons name names ih =>
    obtain ⟨m₁, hrun₁, hone⟩ := runOn_removeOne (b.application name) m
    obtain ⟨copy, hrun, hcopy⟩ := ih m₁
    refine ⟨copy, ?_, fun l hl => ⟨fun hgone => (hcopy l hl).1 ?_, fun v hv => ?_⟩⟩
    · show (Application.removeOne (b.application name) >>= fun _ => names.forM _).runOn m = _
      rw [Transaction.runOn_bind, hrun₁]
      exact hrun
    · obtain ⟨hremoved, hkept⟩ := hone b l hl
      by_cases hk : Layout.application (b.application name) = .ok l
      · exact .inl (hremoved hk)
      · rw [hkept hk]
        refine hgone.imp_right ?_
        rintro ⟨name', hmem, hk'⟩
        rcases List.mem_cons.mp hmem with rfl | hmem
        · exact absurd hk' hk
        · exact ⟨name', hmem, hk'⟩
    · have hv₁ := (hcopy l hl).2 v hv
      by_cases hk : Layout.application (b.application name) = .ok l
      · cases ((hone b l hl).1 hk).symm.trans hv₁
      · rwa [(hone b l hl).2 hk] at hv₁

/-- The removal of an application leaves nothing at its key and keeps every other application. -/
theorem gives_removeApplication (h : ((Application.remove id).request fun _ => .done).Gives m a m') :
    a = .reply .done ∧ ∀ b l, Keyspace.applications.Holds b l →
      (Layout.application id = .ok l → m'.get? l = none) ∧
      (Layout.application id ≠ .ok l → m'.get? l = m.get? l) := by
  obtain ⟨copy, hrun, hcopy⟩ := runOn_removeOne id m
  obtain ⟨rfl, rfl⟩ := h.of_done () hrun
  exact ⟨rfl, hcopy⟩

/-- The removal of the applications of an account leaves none of them and puts nothing in. -/
theorem gives_removeApplications
    (h : ((Application.removeAll b).request fun _ => .done).Gives m a m') :
    a = .reply .done ∧ ∀ k, Keyspace.applications.Holds b k →
      ((m.get? k = none ∨ ∃ name, Layout.application (b.application name) = .ok k) →
        m'.get? k = none) ∧
      ∀ v, m'.get? k = some v → m.get? k = some v := by
  have hnames := runOn_namesUnder .applications b m
  obtain ⟨copy, hrun, hcopy⟩ :=
    runOn_removeEach b (OrderedSet.ofList (namesIn .applications b m)).members m
  obtain ⟨rfl, rfl⟩ : a = .reply .done ∧ m' = copy := by
    refine h.of_done () ?_
    simp only [Transaction.runOn_bind, hnames]
    exact hrun
  refine ⟨rfl, fun k hb => ⟨fun hgone => (hcopy k hb).1 ?_, (hcopy k hb).2⟩⟩
  rcases hgone with hget | ⟨name, hk⟩
  · exact .inl hget
  · cases hget : m.get? k with
    | none => exact .inl rfl
    | some v =>
      refine .inr ⟨name, (OrderedSet.mem_members_ofList _ _).mpr ?_, hk⟩
      exact mem_namesIn_iff.mpr ⟨k, hk, by rw [hget]; rfl⟩

/-! ## All of an account -/

theorem runOn_deleteAllBelow (keys : List Key) (m : OrderedMap Key Json) : ∃ copy,
    (keys.forM fun k => do let _ ← demand (Transaction.deleteBelow k) :
      RegistryTransaction Unit).runOn m = (.done (), copy) ∧
    ∀ l, (m.get? l = none ∨ ∃ k ∈ keys, l.isBelow k = true) → copy.get? l = none := by
  induction keys generalizing m with
  | nil => exact ⟨m, rfl, fun l hl => hl.elim id fun ⟨_, hk, _⟩ => nomatch hk⟩
  | cons k keys ih =>
    obtain ⟨copy, hrun, hnone⟩ := ih (m.filter fun l _ => !l.isBelow k)
    refine ⟨copy, ?_, fun l hl => hnone l ?_⟩
    · show ((demand (Transaction.deleteBelow k) >>= fun _ => pure ()) >>= fun _ =>
        keys.forM _ : RegistryTransaction Unit).runOn m = _
      simp only [Transaction.runOn_bind, runOn_deleteBelow, runOn_pure]
      exact hrun
    · rw [OrderedMap.get?_filter]
      rcases hl with hl | ⟨k', hk', hl⟩
      · exact .inl (by rw [hl]; rfl)
      · rcases List.mem_cons.mp hk' with rfl | hk'
        · refine .inl ?_
          cases m.get? l <;> simp [Option.filter, hl]
        · exact .inr ⟨k', hk', hl⟩

/-- The removal of an account leaves nothing that lies with it. -/
theorem gives_removeAccount (h : ((Account.remove b).request fun _ => .done).Gives m a m') :
    a = .reply .done ∧ ∀ k, b.Owns k → m'.get? k = none := by
  unfold Account.remove at h
  cases hkeys : Layout.account b with
  | error e =>
    rw [hkeys] at h
    cases h with
    | known => exact ⟨rfl, fun k hk => absurd hk (Layout.not_owns_of_account_error hkeys)⟩
  | ok keys =>
    rw [hkeys] at h
    obtain ⟨copy, hrun, hnone⟩ := runOn_deleteAllBelow keys m
    obtain ⟨rfl, rfl⟩ := h.of_done () hrun
    exact ⟨rfl, fun k hk => hnone k (.inr ((Layout.isBelow_account_iff hkeys).mpr hk))⟩

end AppRegistry
