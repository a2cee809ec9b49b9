import AppRegistry.Text.CaseRanges

/-!
# Lower case

The lower-case form of a text. A capital sigma at the end of a word becomes a final sigma, and a
capital I with a dot becomes two characters; every other character is changed by itself.
-/

namespace AppRegistry.Text

/-- Whether a character lies in one of some ranges. -/
def inRanges (l : List (Nat × Nat)) (c : Char) : Bool :=
  l.any fun r => r.1 ≤ c.toNat && c.toNat ≤ r.2

/-- Cased characters. -/
def isCased : Char → Bool := inRanges casedRanges

/-- Characters that case passes over. -/
def isCaseIgnorable : Char → Bool := inRanges caseIgnorableRanges

/-- Whether a range holds a character. -/
def CaseRange.contains (r : CaseRange) (c : Char) : Bool :=
  r.first ≤ c.toNat && c.toNat ≤ r.last && (c.toNat - r.first) % r.step == 0

/-- The lower-case form of a character by itself. -/
def lowerChar (c : Char) : List Char :=
  if c = '\u0130' then ['i', '\u0307']
  else
    match lowerRanges.find? (·.contains c) with
    | some r => [Char.ofNat (c.toNat + r.shift).toNat]
    | none => [c]

/-- Whether the first character that case does not pass over is cased. -/
def meetsCased (cs : List Char) : Bool := (cs.dropWhile isCaseIgnorable).head?.any isCased

/-- The lower-case form of the characters that follow `before`, which is listed last first. -/
def lowerFrom (before : List Char) : List Char → List Char
  | [] => []
  | c :: rest =>
    (if c = 'Σ' then [if meetsCased before && !meetsCased rest then 'ς' else 'σ']
      else lowerChar c) ++ lowerFrom (c :: before) rest

/-- The lower-case form of a text. -/
def lower (s : String) : String := String.ofList (lowerFrom [] s.toList)

end AppRegistry.Text
