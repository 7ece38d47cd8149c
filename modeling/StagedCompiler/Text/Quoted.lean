import StagedCompiler.Text.Printable

/-!
Texts and characters in quotes, as listings show them. Line ends, tabs, NUL,
the backslash and the quote in use have short escapes; any other character
without a graphic form is written by its number.
-/

namespace StagedCompiler.Text

/-- The digits of a number in lower-case hexadecimal, without leading zeros. -/
def hexDigits (n : Nat) : String :=
  String.ofList (Nat.toDigits 16 n)

def escapeIn (quote : Char) (c : Char) : String :=
  if c = '\x00' then "\\0"
  else if c = '\t' then "\\t"
  else if c = '\r' then "\\r"
  else if c = '\n' then "\\n"
  else if c = '\\' then "\\\\"
  else if c = quote then "\\" ++ c.toString
  else if isPrintable c then c.toString
  else "\\u\x7b" ++ hexDigits c.toNat ++ "\x7d"

def quoteString (text : String) : String :=
  "\"" ++ String.join (text.toList.map (escapeIn '"')) ++ "\""

def quoteChar (c : Char) : String :=
  "'" ++ escapeIn '\'' c ++ "'"

end StagedCompiler.Text
