import FrontEnd.Location
import FrontEnd.Operator
import FrontEnd.Token

/-!
# What can go wrong

Errors are causes; each kind of cause has one function that words it.

* `SyntaxError`, `TypeError` : what is wrong with a program, found by reading and by checking it;
* `InternalError` : a step of the front end that was asked for something it never has to answer;
* `Fault` : a cause with its place, `Fault.message` its bare text, and `Fault.report` the text with the place in front.
-/

namespace FrontEnd

/-- `t` between single quotes. -/
def Text.quoted (t : Text) : Text := '\'' :: t ++ ['\'']

/-- Which bound of a loop over a range is meant. -/
inductive BoundSide where
  | start | stop
deriving DecidableEq, Inhabited

/-- The name of a bound in messages. -/
def BoundSide.name : BoundSide → Text
  | start => "From"
  | stop => "To"

/-- What is wrong with the form of a program. -/
inductive SyntaxError where
  | unexpectedEnd
  | expected (kind : TokenKind)
  | unknownType (word : Text)
  | expectedExpression
  | expectedTerm
  | expectedOperator
  | expectedLiteral
  | unexpectedToken (text : Text)
  | danglingOperator (op : Operator)
  | notUnary (op : Operator)
  | notBinary (op : Operator)
  | integerOutOfRange (text : Text)
  | decimalOutOfRange (text : Text)
  | characterLength (text : Text)
  | unknownEscape (c : Char)
  | unterminated (text : Text)
  | boundType (side : BoundSide) (got : Ty)
deriving DecidableEq, Inhabited

/-- How a message names a token that has to stand at a place. -/
def TokenKind.description : TokenKind → Text
  | leftParen => Text.quoted ['(']
  | rightParen => Text.quoted [')']
  | leftBrace => Text.quoted ['{']
  | rightBrace => Text.quoted ['}']
  | leftBracket => Text.quoted ['[']
  | rightBracket => Text.quoted [']']
  | comma => Text.quoted [',']
  | semicolon => Text.quoted [';']
  | colon => Text.quoted [':']
  | operator op => op.spelling.quoted
  | ifWord => "if"
  | elseWord => "else"
  | whileWord => "while"
  | forWord => "for"
  | letWord => "let"
  | funWord => "fun"
  | identifier => "an identifier"
  | typeName => "a type"
  | kind => kind.name

/-- The wording of a syntax error. -/
def SyntaxError.message : SyntaxError → Text
  | unexpectedEnd => "Unexpected end of input"
  | expected kind => "Expected " ++ kind.description
  | unknownType word => "Unknown type " ++ word.quoted
  | expectedExpression => "Expected something"
  | expectedTerm => "Expected a term"
  | expectedOperator => "Expected operator or ';'"
  | expectedLiteral => "Expected literal"
  | unexpectedToken text => "Unexpected " ++ text.quoted
  | danglingOperator op => "Unexpected operator " ++ op.spelling.quoted
  | notUnary op => "Not a unary operator " ++ op.spelling.quoted
  | notBinary op => "Not a binary operator " ++ op.spelling.quoted
  | integerOutOfRange text => "Integer literal out of range " ++ text.quoted
  | decimalOutOfRange text => "Float literal out of range " ++ text.quoted
  | characterLength text => "Invalid character literal " ++ text
  | unknownEscape c => "Unknown escape sequence " ++ Text.quoted ['\\', c]
  | unterminated text => "Unterminated literal " ++ text
  | boundType side got => side.name ++ " in for must be int or float, got " ++ got.keyword

/-- The statements that test a condition. -/
inductive Conditional where
  | ifStatement | whileStatement | forStatement
deriving DecidableEq, Inhabited

/-- The name of a conditional statement in messages. -/
def Conditional.name : Conditional → Text
  | ifStatement => "if"
  | whileStatement => "while"
  | forStatement => "for"

/-- What is wrong with the types or the names of a program. -/
inductive TypeError where
  | unknownVariable (id : Text)
  | variableExists (id : Text)
  | unknownFunction (id : Text)
  | functionExists (id : Text)
  | parameterTwice (id : Text)
  | unaryOperand (op : Operator) (operand : Ty)
  | binaryOperands (op : Operator) (left right : Ty)
  | condition (statement : Conditional) (got : Ty)
  | branches (body orelse : Ty)
  | notAssignable (op : Operator)
  | assigned (id : Text) (declared value : Ty)
  | compoundAssigned (op : Operator) (id : Text) (declared value : Ty)
  | needsReturnType (id : Text)
  | argumentCount (id : Text) (expected got : Nat)
  | argumentType (id : Text) (position : Nat) (expected got : Ty)
  | returnType (annotated got : Ty)
deriving DecidableEq, Inhabited

/-- The wording of a type error. -/
def TypeError.message : TypeError → Text
  | unknownVariable id => "Variable " ++ id.quoted ++ " does not exist here"
  | variableExists id => "Variable " ++ id.quoted ++ " already exist in this scope"
  | unknownFunction id => "Function " ++ id.quoted ++ " does not exist here"
  | functionExists id => "Function " ++ id.quoted ++ " already exist in this scope"
  | parameterTwice id => "Parameter " ++ id.quoted ++ " declared twice"
  | unaryOperand op operand => "Unary operator " ++ op.spelling ++ " is not valid for " ++ operand.name
  | binaryOperands op left right =>
    "Invalid operation " ++ op.spelling ++ " for " ++ left.name ++ " and " ++ right.name
  | condition statement got => "Condition for " ++ statement.name ++ " must be boolean, got " ++ got.name
  | branches body orelse => "If and else branch must have same type, got " ++ body.name ++ " and " ++ orelse.name
  | notAssignable op => "Left side of " ++ op.spelling.quoted ++ " must be a variable"
  | assigned id declared value => "Cannot assign " ++ value.name ++ " to " ++ id ++ " which is " ++ declared.name
  | compoundAssigned op id declared value =>
    "Cannot " ++ (if op = .addAssign then "add" else "subtract" : Text) ++ ' ' :: value.name ++ " to " ++ id ++
      " because it is " ++ declared.name
  | needsReturnType id => "Recursive function " ++ id.quoted ++ " needs type annotations"
  | argumentCount id expected got =>
    "Function " ++ id.quoted ++ " expects " ++ Text.ofNat expected ++ " argument(s), got " ++ Text.ofNat got
  | argumentType id position expected got =>
    "Argument " ++ Text.ofNat position ++ " of " ++ id.quoted ++ " must be " ++ expected.name ++ ", got " ++ got.name
  | returnType annotated got =>
    "Return type does not match annotation, got " ++ got.name ++ " and " ++ annotated.name ++ " was annotated"

/-- A step that was taken where it has no meaning. -/
inductive InternalError where
  | noTerms
  | adjacentOperands
  | notUnary (op : Operator)
  | notBinary (op : Operator)
  | unitLiteral
  | noOpenScope
  | unmatchedLeave
  | unregistered (id : Text)
  | absentScope (id : Nat)
  | nestedTooDeeply
deriving DecidableEq, Inhabited

/-- The wording of an internal error. -/
def InternalError.message : InternalError → Text
  | noTerms => "precedence resolution on an empty term range"
  | adjacentOperands => "adjacent operands in term sequence"
  | notUnary op => op.spelling.quoted ++ " is not a unary operator"
  | notBinary op => op.spelling.quoted ++ " is not a binary operator"
  | unitLiteral => "Unit literal reached the type checker"
  | noOpenScope => "no open scope"
  | unmatchedLeave => "leaveScope without a matching enterScope"
  | unregistered id => "declared function " ++ id.quoted ++ " was never registered"
  | absentScope id => "scope " ++ Text.ofNat id ++ " is not on the frame stack"
  | nestedTooDeeply => "checks nested too deeply"

/-- A cause, with its place when it is a fault of the program. -/
inductive Fault where
  | parse (cause : SyntaxError) (loc : Location)
  | typing (cause : TypeError) (loc : Location)
  | internal (cause : InternalError)
deriving DecidableEq, Inhabited

namespace Fault

/-- The text of a fault without its place. -/
def message : Fault → Text
  | parse cause _ => cause.message
  | typing cause _ => cause.message
  | internal cause => cause.message

/-- The place of a fault of the program. -/
def loc? : Fault → Option Location
  | parse _ loc => some loc
  | typing _ loc => some loc
  | internal _ => none

/-- The text of a fault with its place in front, up to the first zero byte. -/
def report (f : Fault) : Text :=
  ((match f.loc? with
    | some loc => loc.text ++ ": "
    | none => []) ++ f.message).upToNul

end Fault
end FrontEnd
