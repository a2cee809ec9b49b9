import AppRegistry.Key.Basic

/-!
# Key ranges

A range holds the keys at or below a base key, optionally only those whose next component lies
between two bounds. Bounds are compared as plain texts and need not be valid components.

An ascending walk from `KeyRange.start` may stop at the first key for which `KeyRange.isPast`
holds; `KeyRange.contains` decides for each key on the way.
-/

namespace AppRegistry

/-- The keys at or below `base`, with inclusive bounds on the component after `base`. -/
structure KeyRange where
  base : Key
  lower : Option String
  upper : Option String
deriving DecidableEq, Repr

namespace KeyRange

/-- Every key at or below `base`. -/
def all (base : Key) : KeyRange := ⟨base, none, none⟩

/-- The keys below `base` whose next component lies between the bounds. -/
def between (base : Key) (lower upper : String) : KeyRange := ⟨base, some lower, some upper⟩

/-- The components at which an ascending walk of the range may start. -/
def start (r : KeyRange) : List String := r.base.components ++ r.lower.toList

/-- Whether a component lies between the bounds. -/
def admits (r : KeyRange) (c : String) : Bool :=
  r.lower.all (fun b => (compare b c).isLE) && r.upper.all (fun b => (compare c b).isLE)

/-- Whether the range holds a key. The base itself is held only by a range without bounds. -/
def contains (r : KeyRange) (k : Key) : Bool :=
  match k.below? r.base with
  | none => false
  | some rest =>
    match rest.components with
    | [] => r.lower.isNone && r.upper.isNone
    | c :: _ => r.admits c

/-- Whether an ascending walk that began at `start` can stop at `k`. -/
def isPast (r : KeyRange) (k : Key) : Bool :=
  match k.below? r.base with
  | none => true
  | some rest =>
    match rest.components, r.upper with
    | c :: _, some u => compare c u == .gt
    | _, _ => false

end KeyRange

end AppRegistry
