/-
Text in double quotes, for people to read.

A quoted text shows every character of the text: one that is graphic as it is, one
that is not by its short escape or its code point.  The two characters the form itself
uses, the double quote and the backslash, are escaped as well.
-/
import CommandShell.Text.Graphic

namespace CommandShell.Quoted

/-- The code point of a character in lower-case hexadecimal, as an escape. -/
def byNumber (c : Char) : List Char :=
  ['\\', 'u', '\x7b'] ++ Nat.toDigits 16 c.toNat ++ ['\x7d']

/-- How one character of the text is shown. -/
def showChar (c : Char) : List Char :=
  if c = '\x00' then ['\\', '0']
  else if c = '\t' then ['\\', 't']
  else if c = '\r' then ['\\', 'r']
  else if c = '\n' then ['\\', 'n']
  else if c = '"' then ['\\', '"']
  else if c = '\\' then ['\\', '\\']
  else if Graphic.isGraphic c then [c]
  else byNumber c

/-- A text in quotes. -/
def text (s : String) : String :=
  String.ofList (['"'] ++ s.toList.flatMap showChar ++ ['"'])

/-- A list of texts, each in quotes. -/
def texts (ss : List String) : String :=
  "[" ++ ", ".intercalate (ss.map text) ++ "]"

end CommandShell.Quoted
