import MicroJava.Assembly.Operand
import MicroJava.Source.Token

/-! # Problems of a program

Everything that can be wrong with a program text, and its wording. -/

namespace MicroJava

inductive Problem where
  /-- A token of this kind should stand here. -/
  | expected (kind : TokenKind)
  | declarationStart
  | statementStart
  | factorStart
  | relopExpected
  | constantExpected
  /-- A statement starts with a designator and does nothing with it. -/
  | idleStatement
  /-- Tokens follow the program. -/
  | textAfterProgram
  | literal (issue : LiteralIssue)
  | name (error : NameError)
  | operand (error : OperandError)
  | mainMissing
  | mainNotVoid
  | mainHasParameters
  /-- An `int` constant has no number. -/
  | numberConstantExpected
  /-- A `char` constant has no char. -/
  | charConstantExpected
  | constantType
  | typeExpected
  | classExpected
  | tooManyLocals
  | noValue
  | assignmentMismatch
  | valueFromVoid
  | resultMismatch
  | resultMissing
  | notReadable
  | notPrintable
  | notAMethod
  | argumentMismatch
  | tooManyArguments
  | tooFewArguments
  | comparisonMismatch
  /-- References have no order. -/
  | unordered
  | negateNonInt
  | operandsNonInt
  | voidAsValue
  | sizeNonInt
  | indexNonInt
  | notAnArray
  | notAnObject
  | tooLarge
  deriving DecidableEq, Repr

def Problem.text : Problem → String
  | expected kind => kind.name ++ " expected"
  | declarationStart => "invalid start of Declaration"
  | statementStart => "invalid start of statement"
  | factorStart => "invalid start of factor"
  | relopExpected => "relational operator expected"
  | constantExpected => "constant value expected"
  | idleStatement => "assignment or method call expected"
  | textAfterProgram => "end of file found before end of program"
  | literal issue => issue.text
  | name error => error.text
  | operand error => error.text
  | mainMissing => "method main not found"
  | mainNotVoid => "main method must be void"
  | mainHasParameters => "main method must not have parameters"
  | numberConstantExpected => "integer constant expected"
  | charConstantExpected => "char constant expected"
  | constantType => "constants must be of type int or char"
  | typeExpected => "type expected"
  | classExpected => "class type expected"
  | tooManyLocals => "too many local variables"
  | noValue => "identifier does not denote a value"
  | assignmentMismatch => "incompatible types in assignment"
  | valueFromVoid => "void method must not return a value"
  | resultMismatch => "return type must match method type"
  | resultMissing => "return expression expected"
  | notReadable => "can only read int or char variables"
  | notPrintable => "can only print int or char values"
  | notAMethod => "called object is not a method"
  | argumentMismatch => "parameter type mismatch"
  | tooManyArguments => "more actual than formal parameters"
  | tooFewArguments => "fewer actual than formal parameters"
  | comparisonMismatch => "type mismatch"
  | unordered => "invalid compare"
  | negateNonInt => "integer operand required"
  | operandsNonInt => "operands must be of type int"
  | voidAsValue => "procedure called as a function"
  | sizeNonInt => "array size must be an integer"
  | indexNonInt => "index must be an int"
  | notAnArray => "indexed object is not an array"
  | notAnObject => "dereferenced object is not a class"
  | tooLarge => "program too large"

end MicroJava
