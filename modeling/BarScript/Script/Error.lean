import BarScript.Script.Token

/-!
# Why a script does not compile

Every failure has a cause and a position. Causes are data; their wording is
given once, here.
-/

namespace BarScript

/-- What the text of a script violates. -/
inductive ParseIssue where
  | unterminatedComment
  | unterminatedString
  | malformedEscape
  | malformedHex
  | wordAfterNumber
  | unknownCharacter (c : Char)
  /-- Something else should have stood here. -/
  | expected (wanted : String) (found : TokenKind)
  | notAFunction
  | wrongParamCount (found : Nat)
  | unsupportedKeyword (w : String)
  | uninitializedPattern
  | reservedBinding (w : String)
  | reservedShorthand (w : String)
  | nonClassicLoop
  | defaultParam
  | commaExpression
  | invalidAssignTarget
  | invalidUpdateTarget
  | arrayHole

def ParseIssue.message : ParseIssue → String
  | unterminatedComment => "unterminated comment"
  | unterminatedString => "unterminated string"
  | malformedEscape => "malformed unicode escape"
  | malformedHex => "malformed hex literal"
  | wordAfterNumber => "identifier starts immediately after number"
  | unknownCharacter c => "unexpected character `" ++ c.toString ++ "`"
  | expected wanted found => "expected " ++ wanted ++ ", found " ++ found.describe
  | notAFunction => "script must be a single root function taking the context"
  | wrongParamCount found =>
    "root function must take exactly one context parameter, found " ++ Nat.repr found
  | unsupportedKeyword w => "unsupported keyword `" ++ w ++ "`"
  | uninitializedPattern => "destructuring declaration needs an initializer"
  | reservedBinding w => "`" ++ w ++ "` cannot be used as a binding"
  | reservedShorthand w => "`" ++ w ++ "` cannot be used as a shorthand property"
  | nonClassicLoop => "only classic `for (init; test; update)` loops are supported"
  | defaultParam => "default parameter values are not supported"
  | commaExpression => "comma expressions are not supported"
  | invalidAssignTarget => "invalid assignment target"
  | invalidUpdateTarget => "invalid update target"
  | arrayHole => "array literal holes are not supported"

/-- What a script does that has no form as a slot. -/
inductive Construct where
  | patternInLoopHeader
  | patternOfPlainValue
  | assignToContextName (name : String)
  | assignTarget

def Construct.text : Construct → String
  | patternInLoopHeader => "destructuring in a loop header"
  | patternOfPlainValue => "destructuring of a value not read from the context"
  | assignToContextName name => "assignment to context-bound name `" ++ name ++ "`"
  | assignTarget => "assignment target"

/-- Why a script does not compile, and where. -/
inductive CompileError where
  | parse (issue : ParseIssue) (pos : Position)
  | unresolved (name : String) (pos : Position)
  | unsupported (construct : Construct) (pos : Position)

namespace CompileError

def pos : CompileError → Position
  | parse _ p => p
  | unresolved _ p => p
  | unsupported _ p => p

def place (p : Position) : String :=
  Nat.repr p.line ++ ":" ++ Nat.repr p.column

def message : CompileError → String
  | parse issue p => "parse error at " ++ place p ++ ": " ++ issue.message
  | unresolved name p => "unresolved variable `" ++ name ++ "` at " ++ place p
  | unsupported construct p => "unsupported construct at " ++ place p ++ ": " ++ construct.text

end CompileError

end BarScript
