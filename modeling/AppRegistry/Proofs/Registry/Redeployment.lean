import AppRegistry.Proofs.Application.Programs
import AppRegistry.Proofs.Registry.Scaling

/-!
# The difference predicts the redeployment

`deletedPrograms` compares a stored specification with a candidate before the candidate takes its
place.

**Theorem (`difference_predicts_redeployment`).** If every program of both specifications stands
under its own name, the difference lists, in strictly ascending order of their keys, the programs of
the stored specification whose kind and name no program of the candidate has. In a reachable state
in which the candidate is deployed, these are the keys of the programs that are loaded before the
deployment and not found after it.

What is loaded is decided by the record of the application (`AllAdmissible.settle_load`), and the
deployment replaces this record whatever else it puts into the catalog.

**Theorem (`difference_after_deployment`).** The difference of a specification that has just been
deployed with itself lists its strays (`Specification.strays`). There is none if every program
stands under its own name, but nothing makes sure of that
(`redeployment_removes_misplaced`).
-/

namespace AppRegistry

open RegistryTransaction Application

variable {m m' : OrderedMap Key Json} {P : Key → Prop} {id : ApplicationId}
  {candidate : Specification} {location : ArchiveLocation} {now : Instant}

/-- The difference is that of the stored specification, and nothing if none is stored. -/
theorem AllAdmissible.settle_deletedPrograms (hm : AllAdmissible P m) (id : ApplicationId)
    (candidate : Specification) (now : Instant) :
    ((Operation.deletedPrograms id candidate).request now).settle m =
      (.reply (.programs (match recordIn m id with
        | none => []
        | some (_, r) => deletedPrograms r.specification candidate)), m) := by
  simp only [Operation.request, deleted, Query.request, Request.settle, Transaction.runOn_bind,
    hm.runOn_record?]
  cases recordIn m id <;> rfl

/-- After a deployment the record of the application is that of what was deployed. -/
theorem recordIn_of_gives_addApplication {reply : Reply}
    (h : ((Operation.addApplication id candidate location).request now).Gives m (.reply reply) m') :
    ∃ k, recordIn m' id = some (k, ⟨candidate, location, now⟩) := by
  obtain ⟨k, catalog, hk, -, rfl⟩ := gives_addApplication h
  exact ⟨k, (recordIn_insert hk _).trans (if_pos rfl)⟩

namespace Registry

variable {σ : Type} {L : Loader σ} {s : Specification}

/-- After a deployment that got through, the registry holds the record of what was deployed. -/
theorem Reached.exists_deployed {past : List (Operation × Answer)} {g g' : Registry σ}
    {t t' : FileTree} (h : Reached L past g t)
    (hrun : (Registry.perform L g now (.addApplication id candidate location)).run t =
      ((.reply .done, g'), t')) :
    ∃ m' k, g'.Holds m' t' ∧ AllAdmissible g'.store.HasRoom m' ∧
      recordIn m' id = some (k, ⟨candidate, location, now⟩) := by
  obtain ⟨m, hholds, hm⟩ := h.exists_admissible
  obtain ⟨m', hafter, hm', hgives | ⟨-, e, he⟩⟩ := h.exists_gives hholds hm hrun nofun
  · obtain ⟨k, hrecord⟩ := recordIn_of_gives_addApplication hgives
    exact ⟨m', k, hafter, hm', hrecord⟩
  · cases he

/-- **The difference predicts the redeployment.** Take any two specifications in which every program
stands under its own name. The difference lists, in strictly ascending order of their keys, the
programs of the first whose kind and name no program of the second has. If the first is stored in a
reachable state and the second is deployed there, the difference is what is answered before the
deployment, and its keys are those of the programs that are loaded before and not found after. -/
theorem difference_predicts_redeployment :
    (∀ s c : Specification, s.Keyed → c.Keyed →
      ((deletedPrograms s c).Pairwise fun d e => compare d.key e.key = .lt) ∧
      ∀ d, d ∈ deletedPrograms s c ↔ d ∈ s.programs ∧ ∀ e ∈ c.programs, e.key ≠ d.key) ∧
    ∀ (past : List (Operation × Answer)) (g : Registry σ) t,
      Reached (.ofSpecification σ) past g t → ∃ m, g.Holds m t ∧
        ∀ id k r candidate location now g' t', recordIn m id = some (k, r) →
          r.specification.Keyed → candidate.Keyed →
          (perform (.ofSpecification σ) g now (.addApplication id candidate location)).run t =
            ((.reply .done, g'), t') →
          (∀ now', ((perform (.ofSpecification σ) g now' (.deletedPrograms id candidate)).run t).1.1 =
            .reply (.programs (deletedPrograms r.specification candidate))) ∧
          ∀ now' now'' kind name,
            (∃ d ∈ deletedPrograms r.specification candidate, d.key = ⟨kind, name⟩) ↔
              (∃ program, ((perform (.ofSpecification σ) g now'
                (.loadProgram (id.program name) kind)).run t).1.1 = .reply (.program program)) ∧
              ((perform (.ofSpecification σ) g' now''
                (.loadProgram (id.program name) kind)).run t').1.1 =
                  .error (.programNotFound (id.program name) kind) := by
  refine ⟨fun s c hs hc => ⟨pairwise_deletedPrograms hs c, fun d => mem_deletedPrograms_iff hc⟩, ?_⟩
  intro past g t h
  obtain ⟨m, hholds, hm⟩ := h.exists_admissible
  refine ⟨m, hholds, fun id k r candidate location now g' t' hrecord hs hc hrun => ⟨?_, ?_⟩⟩
  · intro now'
    obtain ⟨_, _, hdeleted, -⟩ := hholds.settles hm
      ((Operation.deletedPrograms id candidate).sound now' fun _ hl =>
        hm.place_of_recordIn hrecord hl)
    rw [perform_eq_serve, hdeleted, hm.settle_deletedPrograms, hrecord]
  · intro now' now'' kind name
    obtain ⟨m', k', hafter, hm', hrecord'⟩ := h.exists_deployed hrun
    rw [exists_deleted_key_iff hs hc, hholds.answers_load (p := id.program name) hm hrecord,
      hafter.answers_load (p := id.program name) hm' hrecord']
    simp only [ApplicationId.program]
    -- A key is in the difference if the first specification has it and the second does not.
    by_cases hold : r.specification.program? kind name = none <;>
      by_cases hnew : candidate.program? kind name = none <;>
        simp [hold, hnew, Option.isSome_iff_ne_none]

/-! ### A service that goes and a procedure that stays -/

theorem keyed_pricing (n : UInt32) : (pricing n).Keyed :=
  Specification.keyed_empty.withProgram (.procedure ⟨"price", "Price", "", n, ∅⟩)

theorem keyed_namesakes : namesakes.Keyed := by
  unfold namesakes
  exact (keyed_pricing 2).withProgram _

theorem difference_predicts_redeployment_namesakes : ∃ past g t,
    Reached (.ofSpecification Unit) past g t ∧ namesakes.Keyed ∧ (pricing 3).Keyed ∧
    ∃ m k r, g.Holds m t ∧ recordIn m shop = some (k, r) ∧ r.specification = namesakes ∧
      ∃ g' t', (perform (.ofSpecification Unit) g noon
          (.addApplication shop (pricing 3) ⟨"shop.jar"⟩)).run t = ((.reply .done, g'), t') ∧
        ((perform (.ofSpecification Unit) g noon (.deletedPrograms shop (pricing 3))).run t).1.1 =
          .reply (.programs (deletedPrograms namesakes (pricing 3))) ∧
        (∃ program, ((perform (.ofSpecification Unit) g noon
          (.loadProgram (shop.program "price") .service)).run t).1.1 =
            .reply (.program program)) ∧
        ((perform (.ofSpecification Unit) g' noon
          (.loadProgram (shop.program "price") .service)).run t').1.1 =
            .error (.programNotFound (shop.program "price") .service) := by
  have hreached := reached_settleAll () .empty withNamesakes (by decide +kernel)
  obtain ⟨-, hpredicts⟩ := difference_predicts_redeployment (σ := Unit)
  obtain ⟨m, hholds, hdeployed⟩ := hpredicts _ _ _ hreached
  obtain rfl : (settleAll ∅ withNamesakes).2 = m := congrArg Memory.records hholds.store
  obtain ⟨k, r, hrecord, hr⟩ := recordIn_withNamesakes
  have hdone : ((perform (.ofSpecification Unit)
      (onStore (.ofMap (settleAll ∅ withNamesakes).2) ()) noon
      (.addApplication shop (pricing 3) ⟨"shop.jar"⟩)).run .empty).1.1 = .reply .done := by
    decide +kernel
  generalize hadd : (perform (.ofSpecification Unit)
    (onStore (.ofMap (settleAll ∅ withNamesakes).2) ()) noon
    (.addApplication shop (pricing 3) ⟨"shop.jar"⟩)).run .empty = ran at hdone
  obtain ⟨⟨a, g'⟩, t'⟩ := ran
  obtain rfl : a = .reply .done := hdone
  obtain ⟨hdeleted, hkeys⟩ := hdeployed shop k r (pricing 3) ⟨"shop.jar"⟩ noon g' t' hrecord
    (hr ▸ keyed_namesakes) (keyed_pricing 3) hadd
  have hgone : ∃ d ∈ deletedPrograms r.specification (pricing 3), d.key = ⟨.service, "price"⟩ := by
    rw [hr]
    decide +kernel
  obtain ⟨hbefore, hafter⟩ := (hkeys noon noon .service "price").mp hgone
  exact ⟨_, _, _, hreached, keyed_namesakes, keyed_pricing 3, _, k, r, hholds, hrecord, hr, g', t',
    hadd, hr ▸ hdeleted noon, hbefore, hafter⟩

/-! ### The same specification again -/

/-- **A specification that was just deployed would remove its strays.** Whatever loader there is, the
difference of the stored specification with the same one lists, in the order of the listing, the
programs under whose own name no program of their kind stands. It is empty exactly if the own name of
every program is taken by a program of its kind, and so whenever every program stands under its own
name. -/
theorem difference_after_deployment {past : List (Operation × Answer)} {g g' : Registry σ}
    {t t' : FileTree} (h : Reached L past g t)
    (hrun : (perform L g now (.addApplication id s location)).run t = ((.reply .done, g'), t')) :
    (∀ now', ((perform L g' now' (.deletedPrograms id s)).run t').1.1 =
      .reply (.programs s.strays)) ∧
    (s.strays = [] ↔ ∀ d ∈ s.programs, (s.program? d.kind d.name).isSome) ∧
    (s.Keyed → s.strays = []) := by
  refine ⟨fun now' => ?_, Specification.strays_eq_nil_iff, Specification.Keyed.strays_eq_nil⟩
  obtain ⟨m, k, hholds, hm, hrecord⟩ := h.exists_deployed hrun
  obtain ⟨_, _, hdeleted, -⟩ := hholds.settles_query (L := L) hm (.deletedPrograms id s) trivial now'
    fun _ hl => hm.place_of_recordIn hrecord hl
  rw [perform_eq_serve, hdeleted, hm.settle_deletedPrograms, hrecord]
  exact congrArg (Answer.reply ∘ Reply.programs) s.deletedPrograms_self

/-- Two procedures, each under the name of the other. -/
def exchanged : Specification :=
  { procedures := .ofList [("buy", ⟨"sell", "Sell", "", 1, ∅⟩), ("sell", ⟨"buy", "Buy", "", 1, ∅⟩)] }

theorem difference_after_deployment_exchanged : ∃ g t g' t',
    Reached (.ofSpecification Unit) [] g t ∧ ¬ exchanged.Keyed ∧
    (perform (.ofSpecification Unit) g noon (.addApplication shop exchanged ⟨"shop.jar"⟩)).run t =
      ((.reply .done, g'), t') ∧
    ((perform (.ofSpecification Unit) g' noon (.deletedPrograms shop exchanged)).run t').1.1 =
      .reply (.programs []) := by
  have hreached := reached_settleAll () .empty [] (by decide)
  obtain ⟨g', t', hadd⟩ : ∃ g' t', (perform (.ofSpecification Unit)
      (onStore (.ofMap (settleAll ∅ []).2) ()) noon
      (.addApplication shop exchanged ⟨"shop.jar"⟩)).run .empty = ((.reply .done, g'), t') :=
    ⟨_, _, Prod.ext (Prod.ext (by decide +kernel) rfl) rfl⟩
  obtain ⟨hanswer, hnone, -⟩ := difference_after_deployment hreached hadd
  have hstrays : exchanged.strays = [] := hnone.mpr (by decide +kernel)
  -- Nothing is astray, although no program stands under its own name.
  refine ⟨_, _, g', t', hreached, fun hkeyed => ?_, hadd, hstrays ▸ hanswer noon⟩
  exact absurd (hkeyed .procedure "buy" (.procedure ⟨"sell", "Sell", "", 1, ∅⟩) (by decide +kernel))
    (by decide)

/-- A procedure under another name than its own. -/
def misplaced : Specification :=
  { procedures := .ofList [("cost", ⟨"price", "Price", "", 1, ∅⟩)] }

/-- A deployed specification would remove the program that it has under another name. -/
theorem redeployment_removes_misplaced : ∃ g t g' t', Reached (.ofSpecification Unit) [] g t ∧
    (perform (.ofSpecification Unit) g noon (.addApplication shop misplaced ⟨"shop.jar"⟩)).run t =
      ((.reply .done, g'), t') ∧
    ((perform (.ofSpecification Unit) g' noon (.deletedPrograms shop misplaced)).run t').1.1 =
      .reply (.programs [.procedure ⟨"price", "Price", "", 1, ∅⟩]) := by
  refine ⟨_, _, _, _, reached_settleAll () .empty [] (by decide), Prod.ext (Prod.ext ?_ rfl) rfl, ?_⟩
  · decide +kernel
  · decide +kernel

end Registry

end AppRegistry
