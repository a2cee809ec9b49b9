import AppRegistry.Files.Script
import AppRegistry.Json.Printer
import AppRegistry.Json.Reader
import AppRegistry.Records.Overlay

/-!
# Records as files

The record of a key is a file in the directory that the key names below the root of the store. As no
component of a key starts with a dot, the file names used here are never those of a directory of
another key.

`Disk.snapshot` is how a transaction sees the records of a file tree: a read opens one file, and a
scan walks the directories of its range.
-/

namespace AppRegistry.Disk

/-! ## File names -/

/-- The file that holds a record. -/
def recordName : String := ".record.json"

/-- The file that holds a record until its commit lands. -/
def stagingName : String := ".record.json.tmp"

/-- The file that holds the record that a commit replaces. -/
def backupName : String := ".record.json.bak"

/-- The file at the root that tells what a commit touches. -/
def journalName : String := ".journal.json"

/-- The file that holds the journal until it is complete. -/
def journalStagingName : String := ".journal.json.tmp"

/-! ## Paths -/

/-- The directory of a key. -/
def directory (root : Path) (k : Key) : Path := root ++ k.components

/-- The record file of a key. -/
def recordPath (root : Path) (k : Key) : Path := directory root k ++ [recordName]

/-- The staging file of a key. -/
def stagingPath (root : Path) (k : Key) : Path := directory root k ++ [stagingName]

/-- The backup file of a key. -/
def backupPath (root : Path) (k : Key) : Path := directory root k ++ [backupName]

/-- The journal of a store. -/
def journalPath (root : Path) : Path := root ++ [journalName]

/-- The journal of a store while it is written. -/
def journalStagingPath (root : Path) : Path := root ++ [journalStagingName]

/-! ## Reading records -/

/-- The written form of a record. -/
def recordBytes (j : Json) : ByteArray := j.compact.toUTF8

/-- The record of a key. -/
def recordAt (root : Path) (t : FileTree) (k : Key) : Except StorageError (Option Json) :=
  match t.find (recordPath root k) with
  | .error .notFound => .ok none
  | .error e => .error (.io (Path.text (recordPath root k)) e)
  | .ok .directory => .error (.deserialization k)
  | .ok (.file bytes) =>
    match Json.readBytes? bytes with
    | none => .error (.deserialization k)
    | some j => .ok (some j.sorted)

/-- Whether a walk of a range visits the file at a path from the base of the range. A directory
directly below the base is entered only if the range admits its name. -/
def visits (r : KeyRange) : Path → Bool
  | name :: _ :: _ => r.admits name
  | _ => true

/-- The components of the keys whose record files a walk of a range visits, in path order. -/
def visited (root : Path) (t : FileTree) (r : KeyRange) : List (List String) :=
  (t.below (directory root r.base)).filterMap fun
    | (p, .file _) =>
      if visits r p && p.getLast? == some recordName then some (r.base.components ++ p.dropLast)
      else none
    | (_, .directory) => none

/-- Reads the records with the given components, of which the range picks its own, up to the first
that cannot be read. -/
def collect (root : Path) (t : FileTree) (r : KeyRange) :
    List (List String) → Except StorageError (List (Key × Json))
  | [] => .ok []
  | components :: rest => do
    let k ← (Key.ofComponents components).mapError .key
    let found ← if r.contains k then recordAt root t k else .ok none
    let others ← collect root t r rest
    pure ((found.toList.map (k, ·)) ++ others)

/-- The records in a range. The walk puts a record file among its sibling directories, so key order
is restored at the end. -/
def recordsIn (root : Path) (t : FileTree) (r : KeyRange) :
    Except StorageError (List (Key × Json)) :=
  if t.isDirectory (directory root r.base) then
    (collect root t r (visited root t r)).map fun found => (OrderedMap.ofList found).toList
  else .ok []

/-- The records of a file tree as a transaction sees them. -/
def snapshot (root : Path) (t : FileTree) : Snapshot where
  get k := recordAt root t k
  range r := recordsIn root t r

end AppRegistry.Disk
