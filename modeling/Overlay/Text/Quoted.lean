import Overlay.Text.Shapeless

/-!
# Quoted texts

A text in double quotes on one line: the quote and the backslash are escaped, the common controls
have letters, and every other character without a shape of its own is written by its number.
-/

namespace Overlay.Text

/-- Lower case hexadecimal digits, without leading zeros. -/
def hexDigits (n : Nat) : String := String.ofList (Nat.toDigits 16 n)

/-- Hexadecimal digits, filled with zeros to at least `width`. -/
def hexPadded (width n : Nat) : String :=
  let digits := Nat.toDigits 16 n
  String.ofList (List.replicate (width - digits.length) '0' ++ digits)

def quoteChar (c : Char) : String :=
  match c with
  | '\x00' => "\\0"
  | '\t' => "\\t"
  | '\r' => "\\r"
  | '\n' => "\\n"
  | '\\' => "\\\\"
  | '"' => "\\\""
  | c => if isShapeless c then "\\u\x7b" ++ hexDigits c.toNat ++ "\x7d" else c.toString

def quoted (s : String) : String :=
  "\"" ++ String.join (s.toList.map quoteChar) ++ "\""

def bracketed (items : List String) : String := "[" ++ ", ".intercalate items ++ "]"

def optional : Option String → String
  | none => "None"
  | some s => "Some(" ++ s ++ ")"

/-- A named record and the texts of its fields. -/
def record (name : String) (fields : List (String × String)) : String :=
  name ++ " \x7b " ++ ", ".intercalate (fields.map fun f => f.1 ++ ": " ++ f.2) ++ " \x7d"

end Overlay.Text
