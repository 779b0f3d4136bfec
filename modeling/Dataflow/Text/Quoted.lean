import Dataflow.Text.Unprintable
import Dataflow.Text.Combining
/-!
# Quoted texts and enclosed lists

Names and string values are written between double quotes.  Quotes, backslashes and the four named controls get
a backslash form; a character that cannot be seen on its own, because it combines with the quote or letter
before it or has no printed form, is written by its code point.  All others stand for themselves.

A list of texts is written with commas between them, inside one kind of bracket; the empty list is the bracket
alone.
-/
namespace Dataflow.Text

def hexDigits (n : Nat) : String := String.ofList (Nat.toDigits 16 n)

/-- The written form of one character between double quotes. -/
def escape (c : Char) : String :=
  match c with
  | '\x00' => "\\0"
  | '\t' => "\\t"
  | '\r' => "\\r"
  | '\n' => "\\n"
  | '\\' => "\\\\"
  | '"' => "\\\""
  | c =>
    if ' ' ≤ c && c ≤ '~' then c.toString
    else if isCombining c || isUnprintable c then "\\u\x7b" ++ hexDigits c.toNat ++ "\x7d"
    else c.toString

def quoted (s : String) : String :=
  "\"" ++ String.join (s.toList.map escape) ++ "\""

/-- A list in brackets. -/
def bracketed (items : List String) : String := "[" ++ ", ".intercalate items ++ "]"

/-- A list in parentheses. -/
def parenthesized (items : List String) : String := "(" ++ ", ".intercalate items ++ ")"

end Dataflow.Text
