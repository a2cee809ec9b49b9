import AppRegistry.Proofs.Files.Runs

/-!
# Calls that fail

A disturbed run records which calls fail (`Script.failures`). A script `Reports` failures when a
call that fails makes it end in a bad result, whatever comes after the call, unless the failure is
one that the script is made for (`Forgiven`): a directory that is there already, a parent directory
that is still to be made, or a file to be removed that is missing.
-/

namespace AppRegistry

variable {α β : Type}

/-- A failure that is no reason to give up, given the tree after it. -/
def Forgiven (t : FileTree) : FileCall → FileError → Prop
  | .createDirectory p, .alreadyExists => t.isDirectory p = true
  | .createDirectory _, .notFound | .removeFile _, .notFound => True
  | _, _ => False

namespace Script

/-- The calls that fail in a disturbed run, each with the tree after it. -/
def failures : Script α → List (Option Fault) → FileTree → List (FileTree × FileCall × FileError)
  | done _, _, _ => []
  | look next, plan, t => (next t).failures plan t
  | call c next, plan, t =>
    let rest := (next (t.answer c plan.head?.join).1).failures plan.tail
      (t.answer c plan.head?.join).2
    match (t.answer c plan.head?.join).1 with
    | .ok _ => rest
    | .error e => ((t.answer c plan.head?.join).2, c, e) :: rest

/-- The script ends in a bad result whatever it meets. -/
def Ends (bad : α → Prop) (s : Script α) (t : FileTree) : Prop :=
  ∀ plan, bad (s.runUnder plan t).1

/-- Every failure that is not forgiven makes the script end in a bad result. -/
def Reports (bad : α → Prop) : Script α → Prop
  | done _ => True
  | look next => ∀ t, (next t).Reports bad
  | call c next => (∀ r, (next r).Reports bad) ∧
      ∀ t e, ¬ Forgiven t c e → (next (.error e)).Ends bad t

variable {bad : α → Prop}

theorem ends_pure {a : α} (h : bad a) (t : FileTree) : (pure a : Script α).Ends bad t := fun _ => h

theorem Ends.bind {s : Script α} {f : α → Script β} {bad' : β → Prop} {t : FileTree}
    (h : s.Ends bad t) (hf : ∀ a t, bad a → (f a).Ends bad' t) : (s >>= f).Ends bad' t := by
  intro plan
  rw [runUnder_bind]
  exact hf _ _ (h plan) _

theorem reports_pure (a : α) : (pure a : Script α).Reports bad := trivial

theorem reports_make {bad : Except FileError Unit → Prop} {c : FileCall}
    (h : ∀ t e, ¬ Forgiven t c e → bad (.error e)) : (make c).Reports bad := by
  unfold make
  split
  · exact ⟨fun _ => trivial, fun t e hf => ends_pure (h t e hf) t⟩
  · trivial

theorem Reports.bind {s : Script α} {f : α → Script β} {bad' : β → Prop} (h : s.Reports bad)
    (hf : ∀ a, (f a).Reports bad') (hbad : ∀ a t, bad a → (f a).Ends bad' t) :
    (s >>= f).Reports bad' := by
  show (s.bind f).Reports bad'
  induction s with
  | done a => exact hf a
  | look next ih => exact fun t => ih t (h t)
  | call c next ih =>
    exact ⟨fun r => ih r (h.1 r), fun t e he => (h.2 t e he).bind hbad⟩

theorem Reports.ends_bad {s : Script α} (h : s.Reports bad) (plan : List (Option Fault))
    {t : FileTree} (hfail : ∃ x ∈ s.failures plan t, ¬ Forgiven x.1 x.2.1 x.2.2) :
    bad (s.runUnder plan t).1 := by
  induction s generalizing plan t with
  | done a =>
    obtain ⟨x, hx, -⟩ := hfail
    exact absurd hx List.not_mem_nil
  | look next ih => exact ih t (h t) plan hfail
  | call c next ih =>
    have hrest := ih _ (h.1 (t.answer c plan.head?.join).1) plan.tail
      (t := (t.answer c plan.head?.join).2)
    simp only [failures] at hfail
    simp only [runUnder]
    cases hr : (t.answer c plan.head?.join).1 with
    | ok u =>
      rw [hr] at hfail hrest
      exact hrest hfail
    | error e =>
      rw [hr] at hfail hrest
      obtain ⟨x, hx, hnot⟩ := hfail
      rcases List.mem_cons.mp hx with rfl | hx
      · exact h.2 _ e hnot _
      · exact hrest ⟨x, hx, hnot⟩

/-! ## Making and removing -/

/-- A failure for another reason than that something is missing. -/
def IsBlocked (r : Except FileError Unit) : Prop := ∃ e, e ≠ .notFound ∧ r = .error e

theorem reports_createUnlessThere (d : Path) :
    (createUnlessThere (make (.createDirectory d)) fun t => t.isDirectory d).Reports IsBlocked := by
  unfold createUnlessThere make
  split
  · refine ⟨fun r => ?_, fun t e he plan => ?_⟩
    · -- Only a directory that is there already is looked at again.
      rcases r with e | u
      · cases e <;> first
          | trivial
          | exact fun t => show Reports IsBlocked (if t.isDirectory d = true then pure (.ok ())
              else pure (.error .alreadyExists)) by split <;> trivial
      · trivial
    · by_cases hthere : e = .alreadyExists
      · subst hthere
        have hd : t.isDirectory d = false := by simpa [Forgiven] using he
        show IsBlocked ((if t.isDirectory d = true then pure (.ok ())
          else pure (.error .alreadyExists) : Script (Except FileError Unit)).runUnder plan t).1
        rw [hd]
        exact ⟨.alreadyExists, by decide, rfl⟩
      · cases e <;> first
          | exact ⟨_, by decide, rfl⟩
          | exact absurd rfl hthere
          | exact absurd trivial he
  · trivial

theorem reports_createFrom (l : List Path) :
    (createFrom (fun d => make (.createDirectory d)) (fun d t => t.isDirectory d) l).Reports
      IsBlocked := by
  induction l with
  | nil => exact reports_pure _
  | cons d parents ih =>
    unfold createFrom
    refine (reports_createUnlessThere d).bind (fun r => ?_) fun r t hr => ?_
    · split
      · refine ih.bind (fun r => ?_) fun r t hr => ?_
        · split
          · exact reports_createUnlessThere d
          · exact reports_pure _
        · obtain ⟨e, he, rfl⟩ := hr
          exact ends_pure ⟨e, he, rfl⟩ t
      · exact reports_pure _
    · obtain ⟨e, he, rfl⟩ := hr
      cases e <;> first
        | exact ends_pure ⟨_, he, rfl⟩ t
        | exact absurd rfl he

theorem reports_createDirectories (p : Path) : (createDirectories p).Reports IsBlocked :=
  reports_createFrom _

theorem reports_removeIfPresent (p : Path) : (removeIfPresent p).Reports IsBlocked := by
  unfold removeIfPresent
  have hmake : (make (.removeFile p)).Reports IsBlocked :=
    reports_make fun t e he => ⟨e, fun hmissing => he (hmissing ▸ trivial), rfl⟩
  refine hmake.bind (fun r => ?_) fun r t hr => ?_
  · split <;> exact reports_pure _
  · obtain ⟨e, he, rfl⟩ := hr
    cases e <;> first
      | exact ends_pure ⟨_, he, rfl⟩ t
      | exact absurd rfl he

end Script

end AppRegistry
