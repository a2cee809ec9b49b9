import AppRegistry.Proofs.Registry.Confinement

/-!
# What a publication leaves

A deployment that gets through leaves the record of the application, with the specification and the
location as they were given, over what the merge into the catalog leaves. A change of an instance
count that gets through finds the record of the application and leaves it with the new count.
-/

namespace AppRegistry

open RegistryTransaction

variable {m m' : OrderedMap Key Json} {id : ApplicationId} {r : ApplicationRecord} {reply : Reply}
  {a : Answer} {now : Instant}

/-- The record of an application is read of its key. -/
theorem record?_of_runOn (h : (Application.record? id).runOn m = (.done (some r), m')) :
    m' = m ∧ ∃ k v, Layout.application id = .ok k ∧ m.get? k = some v ∧ decode? v = some r := by
  unfold Application.record? at h
  cases hk : Layout.application id with
  | error e =>
    rw [hk] at h
    cases h
  | ok k =>
    simp only [hk, runOn_fetch] at h
    cases hv : m.get? k with
    | none =>
      rw [hv] at h
      cases h
    | some v =>
      simp only [hv] at h
      cases hr : (decode? v : Option ApplicationRecord) with
      | none =>
        rw [hr] at h
        cases h
      | some r' =>
        rw [hr] at h
        cases h
        exact ⟨rfl, k, v, rfl, hv, hr⟩

/-- A record that has to be there is read of its key. -/
theorem required_of_runOn (h : (Application.required id).runOn m = (.done r, m')) :
    m' = m ∧ ∃ k v, Layout.application id = .ok k ∧ m.get? k = some v ∧ decode? v = some r := by
  obtain ⟨found, copy, hfound, hends⟩ := Transaction.of_runOn_bind h
  cases found with
  | none => cases hends
  | some r' =>
    cases hends
    exact record?_of_runOn hfound

/-- A read leaves the records as they are. -/
theorem fetch_of_runOn {α : Type} [Codec α] {k : Key} {x : Option α}
    (h : (fetch α k).runOn m = (.done x, m')) : m' = m := by
  rw [runOn_fetch] at h
  cases hv : m.get? k with
  | none =>
    rw [hv] at h
    cases h
    rfl
  | some v =>
    simp only [hv] at h
    cases hd : (decode? v : Option α) with
    | none =>
      rw [hd] at h
      cases h
    | some a =>
      rw [hd] at h
      cases h
      rfl

/-- **A deployment** fails and changes nothing, or it leaves the record of a specification of which
every part runs. -/
theorem gives_addApplication_cases {s : Specification} {archive : ArchiveLocation}
    (h : ((Operation.addApplication id s archive).request now).Gives m a m') :
    (m' = m ∧ ∃ e, a = .error e) ∨ s.instanceCounts.find? (· < 1) = none ∧
      ∃ k catalog, Layout.application id = .ok k ∧
        (Application.mergeCatalog id.account s).runOn m = (.done (), catalog) ∧
        m' = catalog.insert k (stored (⟨s, archive, now⟩ : ApplicationRecord)) := by
  simp only [Operation.request] at h
  cases hcounts : s.instanceCounts.find? (· < 1) with
  | some n =>
    rw [hcounts] at h
    cases h
    exact .inl ⟨rfl, _, rfl⟩
  | none =>
    cases hk : Layout.application id with
    | error e =>
      simp only [hcounts, hk] at h
      cases h
      exact .inl ⟨rfl, _, rfl⟩
    | ok k =>
      simp only [hcounts, hk] at h
      cases h with
      | unpublished e => exact .inl ⟨rfl, e, rfl⟩
      | published hrun =>
        obtain ⟨_, copy, hfetch, hmerges⟩ := Transaction.of_runOn_bind hrun
        obtain rfl := fetch_of_runOn hfetch
        obtain ⟨_, catalog, hmerge, hends⟩ := Transaction.of_runOn_bind hmerges
        cases hends
        exact .inr ⟨rfl, _, _, rfl, hmerge, rfl⟩

/-- **A deployment that gets through.** -/
theorem gives_addApplication {s : Specification} {archive : ArchiveLocation}
    (h : ((Operation.addApplication id s archive).request now).Gives m (.reply reply) m') :
    ∃ k catalog, Layout.application id = .ok k ∧
      (Application.mergeCatalog id.account s).runOn m = (.done (), catalog) ∧
      m' = catalog.insert k (stored (⟨s, archive, now⟩ : ApplicationRecord)) := by
  rcases gives_addApplication_cases h with ⟨-, e, he⟩ | ⟨-, hdeployed⟩
  · cases he
  · exact hdeployed

/-- **A change of an instance count** fails and changes nothing, or the count is at least one and
the record of the application gets it. -/
theorem gives_setInstances_cases {p : ProgramId} {x : Scalable} {n : UInt32}
    (h : ((Operation.setInstances p x n).request now).Gives m a m') :
    (m' = m ∧ ∃ e, a = .error e) ∨ 1 ≤ n ∧
      ∃ k v, ∃ r : ApplicationRecord, ∃ c, Layout.application p.application = .ok k ∧
        m.get? k = some v ∧ decode? v = some r ∧ x.count r.specification p = .ok c ∧
        m' = m.insert k (stored { r with
          specification := x.setCount r.specification p n, lastUpdated := now }) := by
  simp only [Operation.request] at h
  split at h
  · cases h
    exact .inl ⟨rfl, _, rfl⟩
  · next hn =>
    cases h with
    | unpublished e => exact .inl ⟨rfl, e, rfl⟩
    | published hrun =>
      obtain ⟨r, copy, hrequired, hpatch⟩ := Transaction.of_runOn_bind hrun
      obtain ⟨rfl, k, v, hk, hv, hr⟩ := required_of_runOn hrequired
      cases hc : x.count r.specification p with
      | error e =>
        simp only [hc] at hpatch
        cases hpatch
      | ok c =>
        simp only [hc, hk, Transaction.runOn_bind, runOn_demandKey_ok] at hpatch
        cases hpatch
        exact .inr ⟨UInt32.not_lt.mp hn, _, v, r, c, hk, hv, hr, hc, rfl⟩

/-- **A change of an instance count that gets through.** -/
theorem gives_setInstances {p : ProgramId} {x : Scalable} {n : UInt32}
    (h : ((Operation.setInstances p x n).request now).Gives m (.reply reply) m') :
    ∃ k v, ∃ r : ApplicationRecord, ∃ c, Layout.application p.application = .ok k ∧
      m.get? k = some v ∧ decode? v = some r ∧ x.count r.specification p = .ok c ∧
      m' = m.insert k (stored { r with
        specification := x.setCount r.specification p n, lastUpdated := now }) := by
  rcases gives_setInstances_cases h with ⟨-, e, he⟩ | ⟨-, hpatched⟩
  · cases he
  · exact hpatched

/-- The merge into a catalog keeps away from the records of applications. -/
theorem get?_mergeCatalog {a b : AccountId} {s : Specification} {catalog : OrderedMap Key Json}
    (hm : AllStorable m) (h : (Application.mergeCatalog a s).runOn m = (.done (), catalog))
    {k : Key} (hk : Keyspace.applications.Holds b k) : catalog.get? k = m.get? k := by
  let places : Footprint := ⟨fun k => Keyspace.streams.Holds a k ∨ Keyspace.datasets.Holds a k,
    fun k => Keyspace.streams.Holds a k ∨ Keyspace.datasets.Holds a k, fun _ => id⟩
  have hkept := (alike_mergeCatalog (F := places) s (fun _ => .inl) fun _ => .inr).get?_runOn
    (hm.agreeOn _) (k := k) (by
      rintro (h | h)
      · exact h.not_application (by decide) b hk
      · exact h.not_application (by decide) b hk)
  rwa [h] at hkept

end AppRegistry
