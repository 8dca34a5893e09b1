import Clausal.Text.Invisible

/-!
# Quoted text

The written form of a string inside a list: between double quotes, with a backslash before a
quote or a backslash, the four short escapes for line feed, carriage return, tab and NUL, and
every other invisible character as its code point in braces.
-/

namespace Clausal.Text

/-- A code point as an escape: lowercase hexadecimal digits in braces, no leading zeros. -/
def escapeCodePoint (c : Char) : String :=
  "\\u\x7b" ++ String.ofList (Nat.toDigits 16 c.toNat) ++ "\x7d"

/-- How one character stands in a quoted text. ASCII needs no table. -/
def escapeChar (c : Char) : String :=
  match c with
  | '"' => "\\\""
  | '\\' => "\\\\"
  | '\n' => "\\n"
  | '\r' => "\\r"
  | '\t' => "\\t"
  | '\x00' => "\\0"
  | c =>
    let visible := if c.toNat < 0x7F then 0x20 ≤ c.toNat else !isInvisible c
    if visible then c.toString else escapeCodePoint c

/-- The text between double quotes, escaped. -/
def quoted (text : String) : String :=
  "\"" ++ String.join (text.toList.map escapeChar) ++ "\""

end Clausal.Text
