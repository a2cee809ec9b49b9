import AppRegistry.Files.Written
import AppRegistry.Json.Codec

/-!
# Archive locations

An application is deployed from an archive. The location of the archive is kept word for word; a
`file:` address or a bare path is local, and beside a local archive there is room for a manifest.
-/

namespace AppRegistry

/-- The location of an archive. -/
structure ArchiveLocation where
  uri : String
deriving DecidableEq, Repr

instance : Codec ArchiveLocation where
  encode l := encode l.uri
  decode? j := (decode? j).map ArchiveLocation.mk

namespace ArchiveLocation

/-- Whether a text stands somewhere in another. -/
def occursIn (part : List Char) : List Char → Bool
  | [] => part.isEmpty
  | c :: rest => part.isPrefixOf (c :: rest) || occursIn part rest

/-- The local path of an archive: the address without `file://`, unless it names another scheme. -/
def localPath? (l : ArchiveLocation) : Option WrittenPath :=
  let path :=
    if "file://".toList.isPrefixOf l.uri.toList then String.ofList (l.uri.toList.drop 7) else l.uri
  if occursIn "://".toList path.toList then none else some path

/-- What the name of a manifest adds to the name of its archive. -/
def manifestEnding : String := ".spec.json"

/-- The path of the manifest beside a local archive. -/
def manifestPath? (l : ArchiveLocation) : Option WrittenPath :=
  l.localPath?.map (· ++ manifestEnding)

end ArchiveLocation

end AppRegistry
