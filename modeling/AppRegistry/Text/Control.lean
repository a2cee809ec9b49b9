/-!
# Control characters

The class of control characters and the quoted form in which a message shows one character.
-/

namespace AppRegistry.Text

/-- Control characters: U+0000 to U+001F and U+007F to U+009F. -/
def isControl (c : Char) : Bool :=
  c.val < 0x20 || (0x7f ≤ c.val && c.val ≤ 0x9f)

/-- A natural number in lower-case hexadecimal, without padding. -/
def hex (n : Nat) : String := String.ofList (Nat.toDigits 16 n)

/-- A character between single quotes. A backslash and the control characters are escaped:
`\t`, `\n`, `\r` and `\0` have a short form, the others are written by their number. -/
def quotedChar (c : Char) : String :=
  let body :=
    if c = '\\' then "\\\\"
    else if c = '\t' then "\\t"
    else if c = '\n' then "\\n"
    else if c = '\r' then "\\r"
    else if c = '\x00' then "\\0"
    else if isControl c then "\\u\x7b" ++ hex c.toNat ++ "\x7d"
    else c.toString
  "'" ++ body ++ "'"

end AppRegistry.Text
