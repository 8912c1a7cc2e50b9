import Lisplet.Kind
import Lisplet.Number.Integer

/-!
# Errors

An error has a cause and a trail. The cause is fixed when the error is raised; values that belong
to it are kept as the text they had at that moment. The trail grows while the error travels
outward: every expression it leaves adds its own text, the innermost one first.
-/

namespace Lisplet

/-- What the reader found wrong with a source. -/
inductive Complaint where
  | unexpectedEnd
  | unexpectedCloseParen
  | unexpectedCloseBrace
  | unexpectedCharacter
  | nestingTooDeep
  | invalidNumber
  | invalidPath
  | unterminatedString
  | badLiteral
  | mismatchedOpenParen
  | mismatchedOpenBrace
  | mismatchedCloseParen
  | mismatchedCloseBrace
  | colonExpected
  | valueExpected
  | keyExpected
  deriving DecidableEq, Repr

def Complaint.text : Complaint → String
  | .unexpectedEnd => "unexpected end of input"
  | .unexpectedCloseParen => "unexpected close parenthesis"
  | .unexpectedCloseBrace => "unexpected close brace"
  | .unexpectedCharacter => "unexpected character"
  | .nestingTooDeep => "nesting too deep"
  | .invalidNumber => "invalid number format"
  | .invalidPath => "invalid symbol path"
  | .unterminatedString => "unterminated string"
  | .badLiteral => "bad literal"
  | .mismatchedOpenParen => "mismatched open parenthesis"
  | .mismatchedOpenBrace => "mismatched open brace"
  | .mismatchedCloseParen => "mismatched close parenthesis"
  | .mismatchedCloseBrace => "mismatched close brace"
  | .colonExpected => "':' expected after struct key"
  | .valueExpected => "struct value expected"
  | .keyExpected => "struct key expected"

/-- Why an evaluation failed. Operands of type `String` are the texts of the values involved. -/
inductive Cause where
  /-- A message given by the program or its host. -/
  | thrown (message : String)
  /-- A source that cannot be read, with the offending part of it. -/
  | malformed (what fragment : String)
  | unboundSymbol (name : String)
  | keyNotFound (key path : String)
  | typeMismatch (kind : Kind) (found : String)
  | functionExpected (found : String)
  | tooFewArguments (name : String)
  | tooManyArguments (firstExtra : String)
  | improperLabels
  | strayReturn
  | strayBreak
  | gotoTargetNotFound (target : String)
  | depthExceeded
  | invalidSymbolPath (path : String)
  | labelNameExpected (found : String)
  | thenExpected
  | invalidLocalName (found : String)
  | parameterListExpected (found : String)
  | loopBodyExpected
  | identifierExpected (found : String)
  | invalidKey (found : String)
  | indexOutOfRange (index : Int64)
  | insufficientArguments
  | containerExpected (found : String)
  | integerOverflow (left right : Int64)
  | divisionByZero
  | notComparable (left right : String)
  deriving DecidableEq

def Cause.message : Cause → String
  | .thrown message => message
  | .malformed what fragment => what ++ " ### " ++ fragment
  | .unboundSymbol name => "unbound symbol [" ++ name ++ "]"
  | .keyNotFound key path => "struct key not found [" ++ key ++ "] in [" ++ path ++ "]"
  | .typeMismatch kind found => kind.name ++ " expected [" ++ found ++ "]"
  | .functionExpected found => "function expected [" ++ found ++ "]"
  | .tooFewArguments name => "too few arguments [" ++ name ++ "]"
  | .tooManyArguments extra => "too many arguments [" ++ extra ++ "]"
  | .improperLabels => "improper use of labels"
  | .strayReturn => "return used outside of block, loop or lambda"
  | .strayBreak => "break used outside of block or loop"
  | .gotoTargetNotFound target => "goto target not found [" ++ target ++ "]"
  | .depthExceeded => "maximum evaluation depth exceeded"
  | .invalidSymbolPath path => "invalid symbol path [" ++ path ++ "]"
  | .labelNameExpected found => "label name expected [" ++ found ++ "]"
  | .thenExpected => "then expression expected"
  | .invalidLocalName found => "invalid local name [" ++ found ++ "]"
  | .parameterListExpected found => "parameter list expected [" ++ found ++ "]"
  | .loopBodyExpected => "loop body expected"
  | .identifierExpected found => "identifier expected [" ++ found ++ "]"
  | .invalidKey found => "invalid key [" ++ found ++ "]"
  | .indexOutOfRange index => "index out of range [" ++ Integer.text index ++ "]"
  | .insufficientArguments => "insufficient arguments"
  | .containerExpected found => "struct or list expected [" ++ found ++ "]"
  | .integerOverflow left right =>
    "integer overflow [" ++ Integer.text left ++ " " ++ Integer.text right ++ "]"
  | .divisionByZero => "division by zero"
  | .notComparable left right => "values are not comparable [" ++ left ++ " " ++ right ++ "]"

/-- A cause, with the texts of the expressions the error has left so far. -/
structure Error where
  cause : Cause
  /-- Breadcrumbs, the first one left first. -/
  trail : List String := []
  deriving DecidableEq

namespace Error

def message (e : Error) : String :=
  e.cause.message

def context (e : Error) : String :=
  String.join (e.trail.map (" ### " ++ ·))

def report (e : Error) : String :=
  e.message ++ e.context

def withCrumb (e : Error) (crumb : String) : Error :=
  { e with trail := e.trail ++ [crumb] }

/-- A source that cannot be read: the complaint about a part of it, with the whole as context. -/
def malformed (what fragment source : String) : Error :=
  { cause := .malformed what fragment, trail := [source] }

/-- Two errors are the same to a program when they read the same. -/
def same (e f : Error) : Bool :=
  e.message == f.message && e.context == f.context

end Error

end Lisplet
