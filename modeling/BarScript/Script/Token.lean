import BarScript.Number.Text
import BarScript.Text.Printable

/-!
# Tokens

The words of the script language: numbers, strings, words and marks. Keywords
are words like any other; which words are reserved is for the parser to ask.

A position counts lines and columns from one. Only a line feed ends a line,
and a column is a code point. The position of an offset is where reading the
text up to it arrives.
-/

namespace BarScript

/-- A line and a column. The position `0:0` stands for no place in a text. -/
structure Position where
  line : Nat := 0
  column : Nat := 0
deriving Repr, DecidableEq

namespace Position

def start : Position := ⟨1, 1⟩

def next (p : Position) (c : Char) : Position :=
  if c == '\n' then ⟨p.line + 1, 1⟩ else ⟨p.line, p.column + 1⟩

def past (p : Position) (cs : List Char) : Position :=
  cs.foldl next p

end Position

/-- What a token is. -/
inductive TokenKind where
  | number (x : Float)
  | str (s : String)
  | word (w : String)
  | mark (m : String)
  | eof

/-- A token: what it is, where it begins, and whether a line ended between the
token before it and its beginning. -/
structure Token where
  kind : TokenKind
  pos : Position
  newlineBefore : Bool

namespace TokenKind

def describe : TokenKind → String
  | number x => "number " ++ Number.Layout.message.text x
  | str s => "string " ++ Text.quoted s
  | word w => "`" ++ w ++ "`"
  | mark m => "`" ++ m ++ "`"
  | eof => "end of input"

def isMark (k : TokenKind) (m : String) : Bool :=
  match k with
  | mark n => n == m
  | _ => false

def isWord (k : TokenKind) (w : String) : Bool :=
  match k with
  | word v => v == w
  | _ => false

def isEof : TokenKind → Bool
  | eof => true
  | _ => false

end TokenKind

/-- The marks. A mark stands before every mark that is the beginning of it, so
the first one that fits is the longest. -/
def marks : List String :=
  ["===", "!==", "**=", "...", "==", "!=", "<=", ">=", "&&", "||", "??", "=>", "++", "--", "+=",
    "-=", "*=", "/=", "%=", "**", "+", "-", "*", "/", "%", "<", ">", "=", "!", "?", ":", ";", ",",
    ".", "(", ")", "\x7b", "\x7d", "[", "]"]

def reservedWords : List String :=
  ["const", "let", "var", "if", "else", "for", "while", "do", "return", "break", "continue",
    "function", "true", "false", "null", "undefined", "this", "new", "typeof", "delete", "in",
    "of", "class", "switch", "case", "default", "try", "catch", "finally", "throw", "void",
    "instanceof", "yield", "await", "async", "with"]

def isReserved (w : String) : Bool :=
  reservedWords.contains w

end BarScript
