import AppRegistry.Files.Call

/-!
# File scripts

A script is a program over one file tree: it looks at the tree, makes file calls one after another,
and may choose each step by the results so far. As the calls are listed one by one, a run can also
be followed up to any call. `Script.run` runs a script to its end, and `Script.run_bind` states that
scripts run one after another.

`Script.attempt` makes a call, and `Script.make` does so where the written forms of the paths are
short enough. `createDirectories` makes a directory with the parents that are missing.
-/

namespace AppRegistry

/-- A program over a file tree. -/
inductive Script (α : Type) where
  | done (a : α)
  | look (next : FileTree → Script α)
  | call (c : FileCall) (next : Except FileError Unit → Script α)

namespace Script

variable {α β : Type}

/-- Runs one script and then the script chosen by its result. -/
protected def bind : Script α → (α → Script β) → Script β
  | done a, f => f a
  | look next, f => look fun t => (next t).bind f
  | call c next, f => call c fun r => (next r).bind f

instance : Monad Script where
  pure := done
  bind := Script.bind

instance : LawfulMonad Script := LawfulMonad.mk' Script
  (fun s => by
    induction s with
    | done a => rfl
    | look next ih => exact congrArg look (funext ih)
    | call c next ih => exact congrArg (call c) (funext ih))
  (fun _ _ => rfl)
  (fun s f g => by
    induction s with
    | done a => rfl
    | look next ih => exact congrArg look (funext ih)
    | call c next ih => exact congrArg (call c) (funext ih))

/-- Runs a script to its end. A call that fails leaves the tree alone. -/
def run : Script α → FileTree → α × FileTree
  | done a, t => (a, t)
  | look next, t => (next t).run t
  | call c next, t =>
    match t.run c with
    | .ok t' => (next (.ok ())).run t'
    | .error e => (next (.error e)).run t

@[simp] theorem run_pure (a : α) (t : FileTree) : (pure a : Script α).run t = (a, t) := rfl

@[simp] theorem run_bind (s : Script α) (f : α → Script β) (t : FileTree) :
    (s >>= f).run t = (f (s.run t).1).run (s.run t).2 := by
  show (s.bind f).run t = _
  induction s generalizing t with
  | done a => rfl
  | look next ih => simp [Script.bind, run, ih]
  | call c next ih =>
    simp only [Script.bind, run]
    split <;> simp [ih]

/-! ## Steps -/

/-- Reads something off the tree. -/
def see (f : FileTree → α) : Script α := look fun t => done (f t)

/-- Makes one call. -/
def attempt (c : FileCall) : Script (Except FileError Unit) := call c done

/-- Makes one call by the written forms of its paths. -/
def make (c : FileCall) : Script (Except FileError Unit) :=
  if c.paths.all Path.fits then attempt c else pure (.error .nameTooLong)

@[simp] theorem run_see (f : FileTree → α) (t : FileTree) : (see f).run t = (f t, t) := rfl

@[simp] theorem run_map (f : α → β) (s : Script α) (t : FileTree) :
    (f <$> s).run t = (f (s.run t).1, (s.run t).2) := by
  rw [map_eq_pure_bind, run_bind, run_pure]

/-- A call that succeeds changes the tree, and one that fails leaves it alone. -/
theorem run_attempt (c : FileCall) (t : FileTree) :
    (attempt c).run t =
      match t.run c with
      | .ok t' => (.ok (), t')
      | .error e => (.error e, t) := by
  unfold attempt run
  split <;> rfl

theorem make_of_fits {c : FileCall} (h : ∀ p ∈ c.paths, p.fits = true) : make c = attempt c :=
  if_pos (List.all_eq_true.mpr h)

/-- Removes a file; there need not be one. -/
def removeIfPresent (p : Path) : Script (Except FileError Unit) := do
  match ← make (.removeFile p) with
  | .error .notFound => pure (.ok ())
  | r => pure r

/-- Creates one directory, unless it is there. -/
def createUnlessThere (create : Script (Except FileError Unit)) (isThere : FileTree → Bool) :
    Script (Except FileError Unit) := do
  match ← create with
  | .error .alreadyExists =>
    if ← see isThere then pure (.ok ()) else pure (.error .alreadyExists)
  | r => pure r

/-- Creates the first of some directories, each the parent of the one before. A parent is created
only when the directory cannot be made for want of it. -/
def createFrom (create : β → Script (Except FileError Unit)) (isThere : β → FileTree → Bool) :
    List β → Script (Except FileError Unit)
  | [] => pure (.ok ())
  | d :: parents => do
    match ← createUnlessThere (create d) (isThere d) with
    | .error .notFound =>
      match ← createFrom create isThere parents with
      | .ok () => createUnlessThere (create d) (isThere d)
      | .error e => pure (.error e)
    | r => pure r

/-- A path and its parents, deepest first, without the root. -/
def ancestors (p : Path) : List Path :=
  (List.range p.length).map fun i => p.take (p.length - i)

/-- Creates a directory and the parents that are missing. -/
def createDirectories (p : Path) : Script (Except FileError Unit) :=
  createFrom (fun d => make (.createDirectory d)) (fun d t => t.isDirectory d) (ancestors p)

end Script

end AppRegistry
