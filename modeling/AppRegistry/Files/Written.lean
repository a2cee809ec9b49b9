import AppRegistry.Files.Script

/-!
# Written paths

A path is written with `/` between its names. It is absolute or starts at the working directory, and
it may hold empty names, `.` and `..`. `WrittenPath.resolve` finds the place that a written path
names in a tree, and `WrittenPath.parent?` the written form of what it lies in.

A directory that has been removed while it was held on to has no path of its own any more. Nothing
is found in it and nothing can be created there, but a written path may lead through it and up
again.
-/

namespace AppRegistry

/-- A path as it is written. -/
abbrev WrittenPath := String

namespace WrittenPath

/-! ## Taking a written path apart -/

/-- The parts between slashes. -/
def parts (s : WrittenPath) : List String := (s.toList.splitOn '/').map String.ofList

/-- Whether a written path starts at the root. -/
def isAbsolute (s : WrittenPath) : Bool := s.toList.head? == some '/'

/-- Whether a written path has a slash at its end, so that it can only name a directory. -/
def endsInSlash (s : WrittenPath) : Bool := s.toList.getLast? == some '/'

/-- Whether the last part that is not empty is a name and no dots. -/
def endsInName (s : WrittenPath) : Bool :=
  match (parts s).reverse.find? (· ≠ "") with
  | none => false
  | some part => part ≠ "." && part ≠ ".."

/-- Whether a part names nothing. -/
def isBlank (part : String) : Bool := part == "" || part == "."

/-- The parts without the last one that names something; the blank parts around it go as well. -/
def dropLastPart (parts : List String) : List String :=
  ((parts.reverse.dropWhile isBlank).drop 1 |>.dropWhile isBlank).reverse

/-- What a written path lies in. The root and the empty path lie in nothing, and a path of one
name lies in the empty path. A dot at the very start counts as a name. -/
def parent? (s : WrittenPath) : Option WrittenPath :=
  if s.isAbsolute then
    if (parts s).all isBlank then none
    else some ("/" ++ "/".intercalate (dropLastPart ((parts s).drop 1)))
  else
    match parts s with
    | "." :: rest =>
      if rest.all isBlank then some "" else some ("/".intercalate ("." :: dropLastPart rest))
    | p => if p.all isBlank then none else some ("/".intercalate (dropLastPart p))

/-- A written path and all that it lies in, innermost first; `fuel` bounds their number. -/
def ancestorsFuel : Nat → WrittenPath → List WrittenPath
  | 0, _ => []
  | fuel + 1, s =>
    match s.parent? with
    | none => []
    | some p => s :: ancestorsFuel fuel p

/-- A written path and all that it lies in, innermost first, without the root and the empty path. -/
def ancestors (s : WrittenPath) : List WrittenPath := ancestorsFuel (s.length + 1) s

/-! ## Putting written paths together -/

/-- The path `s` seen from the directory `d`. -/
def within (d s : WrittenPath) : WrittenPath :=
  if s.isAbsolute then s else if d.endsInSlash then d ++ s else d ++ "/" ++ s

/-- The same path written from the root. There is none from a working directory that has been
removed. -/
def absolute? (t : FileTree) (s : WrittenPath) : Option WrittenPath :=
  if s.isAbsolute then some s else t.working.path?.map fun p => within p.text s

/-! ## Finding the place -/

/-- Whether there is a directory to stand in. -/
def requireDirectory (t : FileTree) (here : Standpoint) : Except FileError Unit :=
  match here.path? with
  | none => .ok ()
  | some p =>
    match t.require p with
    | .error e => .error e
    | .ok .directory => .ok ()
    | .ok (.file _) => .error .notADirectory

/-- Follows parts from a place. The dots need a directory to stand in. -/
def follow (t : FileTree) (here : Standpoint) : List String → Except FileError Standpoint
  | [] => .ok here
  | part :: rest =>
    if part = "" then follow t here rest
    else if part = "." then do requireDirectory t here; follow t here rest
    else if part = ".." then do requireDirectory t here; follow t here.up rest
    else
      match here.path? with
      | none => .error .notFound
      | some p => follow t ⟨p ++ [part], 0⟩ rest

/-- The place that a written path names. Nothing needs to be there yet. -/
def resolve (t : FileTree) (s : WrittenPath) : Except FileError Standpoint :=
  if s = "" then .error .notFound
  else if s.toList.contains '\x00' then .error .invalidName
  else if Path.limit ≤ s.utf8ByteSize then .error .nameTooLong
  else follow t (if s.isAbsolute then .root else t.working) (parts s)

/-- The entry that a written path names, with its place. -/
def find (t : FileTree) (s : WrittenPath) : Except FileError (Path × Entry) := do
  match (← resolve t s).path? with
  | none => .error .notFound
  | some p =>
    let entry ← t.require p
    if entry ≠ .directory ∧ s.endsInSlash then .error .notADirectory else .ok (p, entry)

/-- Whether a written path names a directory, be it one that has been removed. -/
def isDirectory (t : FileTree) (s : WrittenPath) : Bool :=
  match resolve t s with
  | .error _ => false
  | .ok here => (requireDirectory t here).isOk

/-! ## Scripts -/

/-- Makes a call at the place that a written path names. A removed directory is in its way. -/
def callAt (s : WrittenPath) (c : Path → FileCall) : Script (Except FileError Unit) := do
  match ← Script.see fun t => resolve t s with
  | .error e => pure (.error e)
  | .ok here =>
    match here.path? with
    | none => pure (.error .alreadyExists)
    | some p => Script.attempt (c p)

/-- Moves an entry between the places that two written paths name. -/
def rename (s target : WrittenPath) : Script (Except FileError Unit) := do
  match ← Script.see fun t => find t s with
  | .error e => pure (.error e)
  | .ok (p, entry) =>
    if !(s.endsInName && target.endsInName) then pure (.error .invalidName)
    else if entry ≠ .directory ∧ target.endsInSlash then pure (.error .notADirectory)
    else callAt target (.rename p)

/-- Creates a directory and the parents that are missing. The empty path asks for nothing. -/
def createDirectories (s : WrittenPath) : Script (Except FileError Unit) :=
  Script.createFrom (fun d => callAt d .createDirectory) (fun d t => isDirectory t d) (ancestors s)

end WrittenPath

end AppRegistry
