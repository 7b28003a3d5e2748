import Acceptor.Text.Printable

/-!
  Acceptor.Text.Quoted — texts shown between double quotes

  Messages show a text so that every character of it can be told: a quote, a backslash and the
  common controls get a short escape, any other character without a glyph its number.
-/

namespace Acceptor.Text

/-- How one character of a quoted text is shown. -/
def escape (c : Char) : String :=
  if c = '\x00' then "\\0"
  else if c = '\t' then "\\t"
  else if c = '\r' then "\\r"
  else if c = '\n' then "\\n"
  else if c = '"' then "\\\""
  else if c = '\\' then "\\\\"
  else if isPrintable c then c.toString
  else "\\u\x7b" ++ String.ofList (Nat.toDigits 16 c.toNat) ++ "\x7d"

/-- A text between double quotes. -/
def quote (s : String) : String :=
  "\"" ++ String.join (s.toList.map escape) ++ "\""

end Acceptor.Text
