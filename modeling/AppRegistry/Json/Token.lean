import AppRegistry.Json.Basic

/-!
# JSON tokens

`Token.scan` cuts a text into brackets, separators and scalars. It reads one character at a time:
a `Scanner` holds the tokens so far and what it is in the middle of, and a character it cannot use
ends the scan without a result. A bare word or number is taken up to the next blank, bracket,
separator or quote and then checked as a whole. `Token.scanBytes` does the same with bytes, which
need not encode a text: bytes that are part of no character may stand in a string.

A number too large for a double, a string with half of a surrogate pair and a string whose bytes
encode no text are well formed, but they have no value. A token says so, and a reader decides
whether that matters.
-/

namespace AppRegistry.Json

/-- A lexical unit. -/
inductive Token where
  | beginArray
  | endArray
  | beginObject
  | endObject
  | colon
  | comma
  /-- A string, without its text if half of a surrogate pair stands alone in it or if its bytes encode
  no text. -/
  | string (s : Option String)
  /-- `null`, a truth value or a number, without its value if the number is too large. -/
  | scalar (j : Option Json)
deriving DecidableEq, Repr

namespace Token

/-! ## Numbers -/

/-- The decimal digits at the start, and the rest. -/
def digits (cs : List Char) : List Char × List Char :=
  (cs.takeWhile (·.isDigit), cs.dropWhile (·.isDigit))

/-- The number that decimal digits write. -/
def ofDigits (ds : List Char) : Nat := ds.foldl (fun n c => 10 * n + (c.toNat - '0'.toNat)) 0

/-- An optional minus sign, and the rest. -/
def sign : List Char → Bool × List Char
  | '-' :: r => (true, r)
  | cs => (false, cs)

/-- A fraction part, if one starts here: its digits and the rest. -/
def fraction? : List Char → Option (List Char × List Char)
  | '.' :: r =>
    let (ds, rest) := digits r
    if ds = [] then none else some (ds, rest)
  | cs => some ([], cs)

/-- An exponent part that takes all that is left. -/
def exponent? : List Char → Option Int
  | [] => some 0
  | e :: r =>
    if e = 'e' ∨ e = 'E' then
      let (negative, r) := match r with
        | '+' :: r => (false, r)
        | r => sign r
      let (ds, rest) := digits r
      if ds = [] ∨ rest ≠ [] then none
      else some (if negative then -(ofDigits ds : Int) else ofDigits ds)
    else none

/-- One more than the greatest number of 64 bits. -/
def wordLimit : Nat := 18446744073709551616

/-- Takes digits behind a number as long as 64 bits hold the result: the result, and how many digits
are left over. -/
def gather (n : Nat) : List Char → Nat × Nat
  | [] => (n, 0)
  | c :: rest =>
    let m := 10 * n + (c.toNat - '0'.toNat)
    if m < wordLimit then gather m rest else (n, rest.length + 1)

/-- Reads a whole number token. An integer of 64 bits stays one, except minus zero; every other
number is a fraction. Of its digits only those count that 64 bits hold, and a number too large for a
double has no value. -/
def number? (cs : List Char) : Option (Option Number) := do
  let (negative, cs) := sign cs
  let (whole, cs) := digits cs
  if whole = [] ∨ (whole.head? = some '0' ∧ whole.length ≠ 1) then none
  else
    let (part, rest) ← fraction? cs
    let exponent ← exponent? rest
    let n := ofDigits whole
    if part = [] ∧ rest = [] ∧ !negative ∧ n < wordLimit then some (some (.int n))
    else if part = [] ∧ rest = [] ∧ negative ∧ 0 < n ∧ n ≤ 9223372036854775808 then
      some (some (.int (-n)))
    else
      let (n, above) := gather 0 whole
      let (n, below) := gather n part
      let exponent := exponent + above + below - part.length
      some ((Decimal.ofParts? negative n exponent).map .real)

/-- Reads a bare word or number. -/
def bare? (cs : List Char) : Option Token :=
  if cs = "null".toList then some (.scalar (some .null))
  else if cs = "true".toList then some (.scalar (some (.bool true)))
  else if cs = "false".toList then some (.scalar (some (.bool false)))
  else (number? cs).map fun n => .scalar (n.map .number)

/-! ## Strings -/

/-- The character that an escape of one letter stands for. -/
def shortEscape? (c : Char) : Option Char :=
  match c with
  | '"' => some '"'
  | '\\' => some '\\'
  | '/' => some '/'
  | 'b' => some '\x08'
  | 'f' => some '\x0c'
  | 'n' => some '\n'
  | 'r' => some '\r'
  | 't' => some '\t'
  | _ => none

/-- The text that the numbers of some characters make. A character above U+FFFF may be given by a
pair of surrogates; one that stands alone is no character. -/
def charactersOf? : List Nat → Option (List Char)
  | [] => some []
  | n :: rest =>
    if n.isValidChar then (charactersOf? rest).map (Char.ofNat n :: ·)
    else
      match rest with
      | m :: rest =>
        if n < 0xDC00 ∧ 0xDC00 ≤ m ∧ m < 0xE000 then
          (charactersOf? rest).map
            (Char.ofNat (0x10000 + (n - 0xD800) * 0x400 + (m - 0xDC00)) :: ·)
        else none
      | [] => none

/-- The string that the numbers of some characters make, given last first. -/
def ofNumbers (read : List Nat) : Token := .string ((charactersOf? read.reverse).map String.ofList)

/-! ## The scanner -/

/-- The blanks that may stand between tokens. -/
def isBlank (c : Char) : Bool := c = ' ' || c = '\t' || c = '\n' || c = '\r'

/-- The token that a bracket or a separator is. -/
def punctuation? (c : Char) : Option Token :=
  match c with
  | '[' => some .beginArray
  | ']' => some .endArray
  | '{' => some .beginObject
  | '}' => some .endObject
  | ':' => some .colon
  | ',' => some .comma
  | _ => none

/-- The value of a hexadecimal digit. -/
def hexDigit? (c : Char) : Option Nat :=
  if c.isDigit then some (c.toNat - '0'.toNat)
  else if 'a' ≤ c ∧ c ≤ 'f' then some (c.toNat - 'a'.toNat + 10)
  else if 'A' ≤ c ∧ c ≤ 'F' then some (c.toNat - 'A'.toNat + 10)
  else none

/-- What the scanner is in the middle of. What was read so far stands last first: characters of a
bare word, and the numbers of the characters of a string. -/
inductive Mode where
  | between
  | bare (read : List Char)
  | quoted (read : List Nat)
  /-- After a backslash. -/
  | escape (read : List Nat)
  /-- Inside the four digits of a numbered character. -/
  | numbered (read : List Nat) (value : Nat) (count : Nat)
deriving DecidableEq, Repr

/-- The tokens so far, last first, and what comes next. -/
structure Scanner where
  tokens : List Token
  mode : Mode
deriving DecidableEq, Repr

/-- Takes one character. -/
def Scanner.step (s : Scanner) (c : Char) : Option Scanner :=
  match s.mode with
  | .between =>
    if isBlank c then some s
    else if c = '"' then some ⟨s.tokens, .quoted []⟩
    else match punctuation? c with
      | some t => some ⟨t :: s.tokens, .between⟩
      | none => some ⟨s.tokens, .bare [c]⟩
  | .bare read =>
    let flushed := bare? read.reverse
    if isBlank c then flushed.map fun t => ⟨t :: s.tokens, .between⟩
    else if c = '"' then flushed.map fun t => ⟨t :: s.tokens, .quoted []⟩
    else match punctuation? c with
      | some p => flushed.map fun t => ⟨p :: t :: s.tokens, .between⟩
      | none => some ⟨s.tokens, .bare (c :: read)⟩
  | .quoted read =>
    if c = '"' then some ⟨ofNumbers read :: s.tokens, .between⟩
    else if c = '\\' then some ⟨s.tokens, .escape read⟩
    else if c.toNat < 0x20 then none
    else some ⟨s.tokens, .quoted (c.toNat :: read)⟩
  | .escape read =>
    if c = 'u' then some ⟨s.tokens, .numbered read 0 0⟩
    else (shortEscape? c).map fun d => ⟨s.tokens, .quoted (d.toNat :: read)⟩
  | .numbered read value count => do
    let value := 16 * value + (← hexDigit? c)
    if count = 3 then some ⟨s.tokens, .quoted (value :: read)⟩
    else some ⟨s.tokens, .numbered read value (count + 1)⟩

/-- The number that stands for a byte that is part of no character: no character has it. -/
def noCharacter : Nat := 0x110000

/-- Takes one character, or a byte that is part of none. Such a byte may stand only in a string. -/
def Scanner.take (s : Scanner) : Option Char → Option Scanner
  | some c => s.step c
  | none =>
    match s.mode with
    | .quoted read => some ⟨s.tokens, .quoted (noCharacter :: read)⟩
    | _ => none

/-- The tokens, first first, if the text may end here. -/
def Scanner.finish? (s : Scanner) : Option (List Token) :=
  match s.mode with
  | .between => some s.tokens.reverse
  | .bare read => (bare? read.reverse).map fun t => (t :: s.tokens).reverse
  | _ => none

/-- Cuts a text into tokens. -/
def scan (cs : List Char) : Option (List Token) := do
  (← cs.foldlM Scanner.step ⟨[], .between⟩).finish?

/-- The characters that bytes encode from a position on, with nothing for each byte that is part of
no character. -/
def charactersFrom (b : ByteArray) (i : Nat) : List (Option Char) :=
  if i < b.size then
    match b.utf8DecodeChar? i with
    | some c => some c :: charactersFrom b (i + c.utf8Size)
    | none => none :: charactersFrom b (i + 1)
  else []
termination_by b.size - i
decreasing_by
  · have := c.utf8Size_pos
    omega
  · omega

/-- Cuts bytes into tokens. -/
def scanBytes (b : ByteArray) : Option (List Token) := do
  (← (charactersFrom b 0).foldlM Scanner.take ⟨[], .between⟩).finish?

end Token

end AppRegistry.Json
