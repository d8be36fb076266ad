import BarScript.Number.Read
import BarScript.Script.Error
import BarScript.Text.CharClass

/-!
# From text to tokens

The text is read from left to right by a reader that knows its position. In
front of a token stand blanks and comments; a token is the longest text of its
kind. A reader moves its position along with every character it passes, so a
token's position is that of its first character.
-/

namespace BarScript

/-- What is left of a text, and where it begins. -/
structure Reader where
  rest : List Char
  pos : Position

namespace Reader

def ofString (s : String) : Reader :=
  ⟨s.toList, .start⟩

/-- The reader after the next `n` characters. -/
def drop (r : Reader) (n : Nat) : Reader :=
  ⟨r.rest.drop n, r.pos.past (r.rest.take n)⟩

def next (r : Reader) : Reader :=
  match r.rest with
  | [] => r
  | c :: rest => ⟨rest, r.pos.next c⟩

/-- The longest run of characters with a property, and the reader after it. -/
def span (r : Reader) (p : Char → Bool) : List Char × Reader :=
  let run := r.rest.takeWhile p
  (run, ⟨r.rest.dropWhile p, r.pos.past run⟩)

def peek? (r : Reader) (n : Nat) : Option Char :=
  r.rest[n]?

/-- Whether the character `n` places ahead has a property. -/
def peekIs (r : Reader) (n : Nat) (p : Char → Bool) : Bool :=
  (r.peek? n).any p

end Reader

abbrev Scan (α : Type) := Except CompileError α

def scanError (issue : ParseIssue) (pos : Position) : Scan α :=
  .error (.parse issue pos)

/-! ## Blanks and comments -/

/-- What skipped text is part of. -/
inductive Skipping where
  | blanks
  | lineComment
  /-- A block comment and where it began. -/
  | blockComment (pos : Position)

/-- Skips blanks and comments, and tells whether a line ended in them. -/
def skipFrom (newline : Bool) : Skipping → Position → List Char → Scan (Bool × Reader)
  | .blanks, pos, [] => .ok (newline, ⟨[], pos⟩)
  | .blanks, pos, '/' :: '/' :: rest =>
    skipFrom newline .lineComment ((pos.next '/').next '/') rest
  | .blanks, pos, '/' :: '*' :: rest =>
    skipFrom newline (.blockComment pos) ((pos.next '/').next '*') rest
  | .blanks, pos, c :: rest =>
    if c == '\n' then skipFrom true .blanks (pos.next c) rest
    else if Text.isBlank c then skipFrom newline .blanks (pos.next c) rest
    else .ok (newline, ⟨c :: rest, pos⟩)
  | .lineComment, pos, [] => .ok (newline, ⟨[], pos⟩)
  | .lineComment, pos, c :: rest =>
    if c == '\n' then skipFrom true .blanks (pos.next c) rest
    else skipFrom newline .lineComment (pos.next c) rest
  | .blockComment start, _, [] => scanError .unterminatedComment start
  | .blockComment _, pos, '*' :: '/' :: rest =>
    skipFrom newline .blanks ((pos.next '*').next '/') rest
  | .blockComment start, pos, c :: rest =>
    skipFrom (newline || c == '\n') (.blockComment start) (pos.next c) rest

/-- Skips blanks and comments in front of a token. -/
def Reader.skip (r : Reader) : Scan (Bool × Reader) :=
  skipFrom false .blanks r.pos r.rest

/-! ## Numbers -/

def isHexDigit (c : Char) : Bool :=
  c.isDigit || 'a' ≤ c && c ≤ 'f' || 'A' ≤ c && c ≤ 'F'

def hexDigitValue (c : Char) : Nat :=
  if c.isDigit then c.toNat - '0'.toNat
  else if 'a' ≤ c then c.toNat - 'a'.toNat + 10
  else c.toNat - 'A'.toNat + 10

/-- The number that hexadecimal digits spell. -/
def ofHexDigits (ds : List Char) : Nat :=
  ds.foldl (fun n c => 16 * n + hexDigitValue c) 0

/-- A hexadecimal literal, after its `0x`: digits whose value a 64-bit word
holds. -/
def scanHex (start : Position) (r : Reader) : Scan (TokenKind × Reader) :=
  let (ds, r) := r.span isHexDigit
  let n := ofHexDigits ds
  if ds.isEmpty || 18446744073709551616 ≤ n then scanError .malformedHex start
  else .ok (.number (Float.ofNat n), r)

/-- The fraction of a literal. A point belongs to the literal unless a letter
follows it, so that `1.` is a number and `1.abs` a field of one. -/
def scanFraction (r : Reader) : List Char × Reader :=
  if r.peekIs 0 (· == '.') then
    if r.peekIs 1 Char.isDigit then r.next.span Char.isDigit
    else if r.peekIs 1 Text.isLetter then ([], r)
    else ([], r.next)
  else ([], r)

/-- The exponent of a literal. Without a digit after it the `e` is no part of
the literal. -/
def scanExponent (r : Reader) : Int × Reader :=
  if r.peekIs 0 (fun c => c == 'e' || c == 'E') then
    if r.peekIs 1 (fun c => c == '+' || c == '-') && r.peekIs 2 Char.isDigit then
      let (ds, r') := (r.drop 2).span Char.isDigit
      let n : Int := Number.ofDigits ds
      (if r.peekIs 1 (· == '-') then -n else n, r')
    else if r.peekIs 1 Char.isDigit then
      let (ds, r') := (r.drop 1).span Char.isDigit
      (Number.ofDigits ds, r')
    else (0, r)
  else (0, r)

/-- A number literal. No letter may follow it. -/
def scanNumber (r : Reader) : Scan (TokenKind × Reader) :=
  if r.peekIs 0 (· == '0') && r.peekIs 1 (fun c => c == 'x' || c == 'X') then
    scanHex r.pos (r.drop 2)
  else
    let (whole, r) := r.span Char.isDigit
    let (fraction, r) := scanFraction r
    let (exponent, r) := scanExponent r
    if r.peekIs 0 (fun c => Text.isLetter c || c == '_') then scanError .wordAfterNumber r.pos
    else .ok (.number (Number.ofNumeral whole fraction exponent), r)

/-! ## Strings -/

/-- Four hexadecimal digits of an escape that began at `start`. -/
def scanUnit (start : Position) (r : Reader) : Scan (Nat × Reader) :=
  let ds := r.rest.take 4
  if ds.length = 4 && ds.all isHexDigit then .ok (ofHexDigits ds, r.drop 4)
  else scanError .malformedEscape start

def charOf (start : Position) (n : Nat) : Scan Char :=
  if n.isValidChar then .ok (Char.ofNat n) else scanError .malformedEscape start

/-- The character of an escape by number. A leading surrogate takes the next
escape as its second half. -/
def scanEscape (start : Position) (r : Reader) : Scan (Char × Reader) := do
  let (high, r) ← scanUnit start r
  if 0xd800 ≤ high && high < 0xdc00 && r.peekIs 0 (· == '\\') && r.peekIs 1 (· == 'u') then
    let (low, r) ← scanUnit start (r.drop 2)
    let c ← charOf start (0x10000 + (high - 0xd800) * 0x400 + low - 0xdc00)
    return (c, r)
  else
    let c ← charOf start high
    return (c, r)

/-- The character of an escape by letter; any other character stands for
itself. -/
def escapedChar (c : Char) : Char :=
  if c == 'n' then '\n'
  else if c == 't' then '\t'
  else if c == 'r' then '\r'
  else if c == 'b' then Char.ofNat 8
  else if c == 'f' then Char.ofNat 12
  else if c == '0' then Char.ofNat 0
  else c

/-- The rest of a string that began at `start`; `acc` holds its characters in
reverse. Every character of the string uses up one of `fuel`. -/
def scanStringFrom (quote : Char) (start : Position) :
    (fuel : Nat) → (acc : List Char) → Reader → Scan (String × Reader)
  | 0, _, _ => scanError .unterminatedString start
  | fuel + 1, acc, r =>
    match r.rest with
    | [] => scanError .unterminatedString start
    | c :: rest =>
      if c == quote then .ok (String.ofList acc.reverse, r.next)
      else if c == '\n' then scanError .unterminatedString start
      else if c == '\\' then
        match rest with
        | [] => scanError .unterminatedString start
        | 'u' :: _ =>
          match scanEscape r.next.pos r.next.next with
          | .ok (c, r) => scanStringFrom quote start fuel (c :: acc) r
          | .error e => .error e
        | e :: _ => scanStringFrom quote start fuel (escapedChar e :: acc) r.next.next
      else scanStringFrom quote start fuel (c :: acc) r.next

def scanString (quote : Char) (r : Reader) : Scan (TokenKind × Reader) := do
  let (s, r') ← scanStringFrom quote r.pos (r.rest.length + 1) [] r.next
  return (.str s, r')

/-! ## Words and marks -/

def beginsWord (c : Char) : Bool :=
  Text.isLetter c || c == '_' || c == '$'

/-- Whether a character may continue a word. -/
def continuesWord (c : Char) : Bool :=
  Text.isLetter c || Text.isNumeral c || c == '_' || c == '$'

def scanWord (r : Reader) : TokenKind × Reader :=
  let (w, r) := r.span continuesWord
  (.word (String.ofList w), r)

def scanMark (r : Reader) : Scan (TokenKind × Reader) :=
  match marks.find? fun m => m.toList.isPrefixOf r.rest with
  | some m => .ok (.mark m, r.drop m.length)
  | none => scanError (.unknownCharacter (r.rest.headD ' ')) r.pos

/-! ## Tokens -/

/-- The token that begins with the character `c`, the next one. -/
def scanToken (c : Char) (r : Reader) : Scan (TokenKind × Reader) :=
  if c.isDigit || c == '.' && r.peekIs 1 Char.isDigit then scanNumber r
  else if c == '"' || c == '\'' then scanString c r
  else if beginsWord c then .ok (scanWord r)
  else scanMark r

/-- The tokens from a reader on, the last of which ends the text. Every token
uses up one of `fuel`. -/
def tokensFrom : (fuel : Nat) → Reader → Scan (List Token)
  | 0, r => scanError (.unknownCharacter (r.rest.headD ' ')) r.pos
  | fuel + 1, r => do
    let (newline, r) ← r.skip
    match r.rest with
    | [] => return [⟨.eof, r.pos, true⟩]
    | c :: _ =>
      let (kind, r') ← scanToken c r
      let rest ← tokensFrom fuel r'
      return ⟨kind, r.pos, newline⟩ :: rest

/-- The tokens of a text, its end the last of them. -/
def tokenize (s : String) : Scan (List Token) :=
  tokensFrom (s.length + 1) (.ofString s)

end BarScript
