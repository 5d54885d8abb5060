import StackC.CType.Basic
import StackC.Token.Basic

namespace StackC

inductive LexicalFault where
  | unexpectedCharacter (c : Char)
  | unterminatedString
  | invalidCharacterLiteral
  | unclosedCharacterLiteral
  | escapeAtEnd
  | unknownEscape (c : Char)
  | invalidInteger (digits : String) (next : Char)
  | integerOutOfRange (digits : String)
  | unsupportedDirective
  | unterminatedComment
deriving DecidableEq, Inhabited

namespace LexicalFault

def message : LexicalFault → String
  | unexpectedCharacter c => s!"Unexpected character: '{c}'"
  | unterminatedString => "Unterminated string literal"
  | invalidCharacterLiteral => "Invalid character literal"
  | unclosedCharacterLiteral => "Expected closing quote in character literal"
  | escapeAtEnd => "Unexpected end of file in escape"
  | unknownEscape c => s!"Unknown escape sequence: \\{c}"
  | invalidInteger digits next => s!"Invalid integer literal: {digits}{next}"
  | integerOutOfRange digits => s!"Integer literal out of range: {digits}"
  | unsupportedDirective => "Preprocessor directives are not supported"
  | unterminatedComment => "Unterminated block comment"

end LexicalFault

inductive GrammarFault where
  | expected (text context : String) (found : Token)
  | expectedIdentifier (found : Token)
  | expectedNumber (found : Token)
  | expectedType (found : Token)
  | expectedExpression (found : Token)
  | expectedTagOrBody
  | unclosedStruct
  | unclosedBlock
  | breakOutsideLoop
  | continueOutsideLoop
  | valuelessStatementExpression
deriving DecidableEq, Inhabited

namespace GrammarFault

def message : GrammarFault → String
  | expected text context found => s!"Expected '{text}' {context}, found {found.describe}"
  | expectedIdentifier found => s!"Expected identifier, found {found.describe}"
  | expectedNumber found => s!"Expected a number, found {found.describe}"
  | expectedType found => s!"Expected type, found {found.describe}"
  | expectedExpression found => s!"Expected expression, found {found.describe}"
  | expectedTagOrBody => "Expected struct tag or '\x7b' after 'struct'"
  | unclosedStruct => "Expected '\x7d' after struct members"
  | unclosedBlock => "Expected '\x7d' before end of file"
  | breakOutsideLoop => "'break' outside of a loop"
  | continueOutsideLoop => "'continue' outside of a loop"
  | valuelessStatementExpression =>
    "statement expression must end with an expression statement"

end GrammarFault

inductive DeclarationFault where
  | redeclaration (name : String)
  | localOutsideFunction (name : String)
  | undeclaredTag (name : String)
  | duplicateMember (name : String)
  | structRedefinition (name : String)
  | negativeArraySize
  | arrayOfVoid
  | innerDimensionOmitted
  | arrayTooLarge
  | voidVariable (name : String)
  | frameTooLarge (total : Nat)
  | unreturnable (name : String) (type : CType)
  | structParameter (name : String)
  | variableAsFunction (name : String)
  | functionAsVariable (name : String)
  | conflictingFunction (name : String)
  | conflictingGlobal (name : String)
  | redefinition (name : String)
  | arraySizeMissing (name : String)
  | undeclaredVariable (name : String)
  | implicitFunction (name : String)
  | tooManyParameters (name : String) (count limit : Nat)
  | stringForNonIntegers
  | stringTooLong
  | excessArrayElements
  | excessStructElements
  | arrayWithoutList
  | structWithoutList
  | scalarNotSingle
  | globalNotConstant
  | unsupportedGlobal (type : CType)

namespace DeclarationFault

def message : DeclarationFault → String
  | redeclaration name => s!"redeclaration of '{name}'"
  | localOutsideFunction name => s!"local '{name}' declared outside of a function"
  | undeclaredTag name => s!"undeclared struct tag '{name}'"
  | duplicateMember name => s!"duplicate member '{name}'"
  | structRedefinition name => s!"redefinition of 'struct {name}'"
  | negativeArraySize => "array size is negative"
  | arrayOfVoid => "array of void"
  | innerDimensionOmitted => "only the first array dimension may be omitted"
  | arrayTooLarge => "array is too large"
  | voidVariable name => s!"variable '{name}' declared void"
  | frameTooLarge total => s!"stack frame is too large ({total} bytes of locals)"
  | unreturnable name type => s!"function '{name}' cannot return '{type.describe}'"
  | structParameter name => s!"struct parameter '{name}' is not supported"
  | variableAsFunction name => s!"'{name}' redeclared as a function"
  | functionAsVariable name => s!"function '{name}' redeclared as a variable"
  | conflictingFunction name => s!"conflicting types for '{name}'"
  | conflictingGlobal name => s!"conflicting types for global '{name}'"
  | redefinition name => s!"redefinition of '{name}'"
  | arraySizeMissing name => s!"array size missing in '{name}'"
  | undeclaredVariable name => s!"undeclared variable '{name}'"
  | implicitFunction name => s!"implicit declaration of function '{name}'"
  | tooManyParameters name count limit =>
    s!"function '{name}' has {count} parameters; at most {limit} are supported"
  | stringForNonIntegers => "string initializer for an array of non-integer type"
  | stringTooLong => "initializer string is too long"
  | excessArrayElements => "excess elements in array initializer"
  | excessStructElements => "excess elements in struct initializer"
  | arrayWithoutList => "array initializer must be a brace list or a string literal"
  | structWithoutList => "struct initializer must be a brace list"
  | scalarNotSingle => "scalar initializer must have exactly one element"
  | globalNotConstant => "global initializer must be an integer constant"
  | unsupportedGlobal type =>
    s!"unsupported initializer for global of type '{type.describe}'"

end DeclarationFault

inductive TypingFault where
  | untyped
  | unknownVariable (id : Nat)
  | effectfulTarget
  | invalidSizeof (type : CType)
  | invalidOperand (op : String) (type : CType)
  | invalidOperands (op : String) (lhs rhs : CType)
  | incompatiblePointers (lhs rhs : CType)
  | zeroSizedPointee (type : CType)
  | unassignableTarget
  | unassignableType (type : CType)
  | unassignableValue (type : CType)
  | mismatchedBranches (first second : CType)
  | unaddressable
  | arrayUnaddressable
  | voidDereference
  | invalidDereference (type : CType)
  | memberOfNonStruct (name : String) (type : CType)
  | memberOfTemporary (name : String)
  | noSuchMember (type : CType) (name : String)
  | nonScalarCondition (type : CType)
  | valueFromVoidFunction
  | unreturnableValue (type : CType)
  | arity (name : String) (variadic : Bool) (expected got : Nat)
  | tooManyArguments (name : String) (count limit : Nat)
  | unpassableValue (type : CType)

namespace TypingFault

def message : TypingFault → String
  | untyped => "expression has no type"
  | unknownVariable id => s!"unknown variable {id}"
  | effectfulTarget => "operand of compound assignment must not have side effects"
  | invalidSizeof type => s!"invalid sizeof target '{type.describe}'"
  | invalidOperand op type => s!"invalid operand to '{op}' (have '{type.describe}')"
  | invalidOperands op lhs rhs =>
    s!"invalid operands to '{op}' ('{lhs.describe}' and '{rhs.describe}')"
  | incompatiblePointers lhs rhs =>
    s!"subtracting incompatible pointers ('{lhs.describe}' and '{rhs.describe}')"
  | zeroSizedPointee type => s!"subtracting pointers to zero-sized type '{type.describe}'"
  | unassignableTarget => "left side of assignment is not assignable"
  | unassignableType type => s!"cannot assign to a value of type '{type.describe}'"
  | unassignableValue type => s!"cannot assign a value of type '{type.describe}'"
  | mismatchedBranches first second =>
    s!"mismatched types in conditional expression ('{first.describe}' and '{second.describe}')"
  | unaddressable => "cannot take the address of this expression"
  | arrayUnaddressable => "array value is not addressable"
  | voidDereference => "dereferencing a 'void *' pointer"
  | invalidDereference type => s!"cannot dereference a value of type '{type.describe}'"
  | memberOfNonStruct name type =>
    s!"member access '{name}' on non-struct type '{type.describe}'"
  | memberOfTemporary name =>
    s!"member access '{name}' on a struct value that is not addressable"
  | noSuchMember type name => s!"'{type.describe}' has no member named '{name}'"
  | nonScalarCondition type => s!"used '{type.describe}' where a scalar is required"
  | valueFromVoidFunction => "void function should not return a value"
  | unreturnableValue type => s!"cannot return a value of type '{type.describe}'"
  | arity name true expected got =>
    s!"function '{name}' expects at least {expected} argument(s), got {got}"
  | arity name false expected got =>
    s!"function '{name}' expects {expected} argument(s), got {got}"
  | tooManyArguments name count limit =>
    s!"call to '{name}' passes {count} arguments; at most {limit} are supported"
  | unpassableValue type => s!"cannot pass a value of type '{type.describe}' as an argument"

end TypingFault

inductive EmissionFault where
  | unknownVariable (id : Nat)
  | parameterSize (name : String) (size : Nat)
  | parameterUnregistered (name : String)
  | noSlot (name : String)
  | stackUnderflow
  | stackImbalance (place : Location) (before after : Nat)
  | shallowJump (target : String)
  | breakOutsideLoop
  | continueOutsideLoop
  | expressionAsStatement (place : Location)
  | statementAsExpression (place : Location)
  | unresolvedSizeof (place : Location)
  | emptyStatementExpression
  | valuelessStatementExpression
  | notAnLvalue (place : Location)
  | unresolvedMember (name : String)
  | untyped (place : Location)
  | unloadable (type : CType)
  | unstorable (type : CType)
  | tooManyArguments (name : String) (count : Nat)

namespace EmissionFault

def message : EmissionFault → String
  | unknownVariable id => s!"unknown variable {id}"
  | parameterSize name size => s!"parameter '{name}' has unsupported size {size}"
  | parameterUnregistered name => s!"parameter '{name}' is not passed in a register"
  | noSlot name => s!"variable '{name}' has no stack slot"
  | stackUnderflow => "operand stack underflow"
  | stackImbalance place before after =>
    s!"operand stack imbalance after statement at {place.describe} " ++
      s!"({before} slots before, {after} after)"
  | shallowJump target => s!"jump to {target} from a shallower stack"
  | breakOutsideLoop => "'break' outside of a loop"
  | continueOutsideLoop => "'continue' outside of a loop"
  | expressionAsStatement place => s!"expression used as a statement at {place.describe}"
  | statementAsExpression place => s!"statement used as an expression at {place.describe}"
  | unresolvedSizeof place => s!"unresolved sizeof at {place.describe}"
  | emptyStatementExpression => "empty statement expression"
  | valuelessStatementExpression => "statement expression does not end with an expression"
  | notAnLvalue place => s!"expression at {place.describe} is not an lvalue"
  | unresolvedMember name => s!"member '{name}' was not resolved"
  | untyped place => s!"expression at {place.describe} has no type"
  | unloadable type => s!"cannot load a value of type '{type.describe}' ({type.size} bytes)"
  | unstorable type => s!"cannot store a value of type '{type.describe}' ({type.size} bytes)"
  | tooManyArguments name count => s!"call to '{name}' passes {count} arguments"

end EmissionFault

end StackC
