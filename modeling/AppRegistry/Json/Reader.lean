import AppRegistry.Json.Token

/-!
# Reading JSON

`Json.ofTokens?` builds a value from tokens with a stack of open brackets, one token at a time. The
fields of an object stay as they were written.

There are two ways to read. `Json.read?` reads a value to keep: every part of it must have a value,
and brackets open at most `depthLimit` deep. `Json.readRecordBytes?` reads for a decoder of records,
which passes over unknown fields: there a part without a value and deep nesting are no fault as long
as no field needs them. As a string without a text is such a part, the bytes of a record need not
encode a text.
-/

namespace AppRegistry.Json

/-! ## Building a value -/

/-- What stands for a part without a value: a fraction, which no field of a record takes. -/
def unusable : Json := number (.real ⟨false, 0, 0⟩)

/-- An open bracket with what it holds so far, last first. -/
inductive Frame where
  | items (read : List Json)
  /-- An object, with the name whose value comes next. -/
  | fields (read : List (Option String × Json)) (name : Option String)
deriving DecidableEq, Repr

/-- What may come next. The stack holds the open brackets, innermost first. -/
inductive Expecting where
  | value (stack : List Frame)
  | firstItem (stack : List Frame)
  | firstName (stack : List Frame)
  | nextName (read : List (Option String × Json)) (stack : List Frame)
  | colon (read : List (Option String × Json)) (name : Option String) (stack : List Frame)
  | afterItem (read : List Json) (stack : List Frame)
  | afterField (read : List (Option String × Json)) (stack : List Frame)
  | nothing (result : Json)
deriving DecidableEq, Repr

/-- The object with some fields, given last first. With a name that is no text it has no value. -/
def ofFields (read : List (Option String × Json)) : Json :=
  match read.reverse.mapM fun f => f.1.map (·, f.2) with
  | some fields => object fields
  | none => unusable

namespace Expecting

/-- Hands a finished value to the innermost open bracket. -/
def deliver (j : Json) : List Frame → Expecting
  | [] => nothing j
  | .items read :: stack => afterItem (j :: read) stack
  | .fields read name :: stack => afterField ((name, j) :: read) stack

/-- Takes a token where a value must start. -/
def startValue (stack : List Frame) : Token → Option Expecting
  | .scalar j => some (deliver (j.getD unusable) stack)
  | .string s => some (deliver ((s.map string).getD unusable) stack)
  | .beginArray => some (firstItem stack)
  | .beginObject => some (firstName stack)
  | _ => none

/-- Takes one token. -/
def step : Expecting → Token → Option Expecting
  | value stack, t => startValue stack t
  | firstItem stack, .endArray => some (deliver (.array []) stack)
  | firstItem stack, t => startValue (.items [] :: stack) t
  | firstName stack, .endObject => some (deliver (.object []) stack)
  | firstName stack, .string n => some (colon [] n stack)
  | nextName read stack, .string n => some (colon read n stack)
  | colon read n stack, .colon => some (value (.fields read n :: stack))
  | afterItem read stack, .comma => some (value (.items read :: stack))
  | afterItem read stack, .endArray => some (deliver (.array read.reverse) stack)
  | afterField read stack, .comma => some (nextName read stack)
  | afterField read stack, .endObject => some (deliver (ofFields read) stack)
  | _, _ => none

/-- The value read, if it is complete. -/
def result? : Expecting → Option Json
  | nothing j => some j
  | _ => none

end Expecting

/-- Builds a value from all the tokens. -/
def ofTokens? (ts : List Token) : Option Json := do
  (← ts.foldlM Expecting.step (.value [])).result?

/-! ## Reading a value to keep -/

/-- How deep brackets may nest in a value to keep. -/
def depthLimit : Nat := 127

/-- Whether a token has a value, where it should. -/
def Token.isSound : Token → Bool
  | .string s => s.isSome
  | .scalar j => j.isSome
  | _ => true

/-- Whether brackets nest at most `limit` deep, of which `opened` are open. -/
def nestsWithin (limit : Nat) (opened : Nat) : List Token → Bool
  | [] => true
  | .beginArray :: rest | .beginObject :: rest =>
    opened < limit && nestsWithin limit (opened + 1) rest
  | .endArray :: rest | .endObject :: rest => nestsWithin limit (opened - 1) rest
  | _ :: rest => nestsWithin limit opened rest

/-- Reads a text as one value to keep. -/
def read? (s : String) : Option Json := do
  let ts ← Token.scan s.toList
  if ts.all Token.isSound && nestsWithin depthLimit 0 ts then ofTokens? ts else none

/-- Reads bytes as one value to keep. -/
def readBytes? (b : ByteArray) : Option Json := String.fromUTF8? b >>= read?

/-! ## Reading a record -/

/-- Reads bytes as one value for a decoder of records. -/
def readRecordBytes? (b : ByteArray) : Option Json := Token.scanBytes b >>= ofTokens?

end AppRegistry.Json
