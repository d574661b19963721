import IntC.Tree

namespace IntC

/-- The class of a compilation failure. -/
inductive ErrorKind where
  | grammar | duplicateDeclaration | undeclaredIdentifier | invalidLvalue
  | breakOutsideLoop | continueOutsideLoop | incompatibleDeclaration | multipleDefinition
  | conflictingLinkage | nonConstantInitializer | externInitializer | storageClassInForHeader
  | wrongArgumentCount | nameKindMismatch | nestedFunctionDefinition | staticBlockFunction
  | warningAsError | internal
  | other (code : Int)
deriving DecidableEq, Repr, Inhabited

namespace ErrorKind

/-- The kinds, each at the place of its number. -/
def all : List ErrorKind := [
  .grammar, .duplicateDeclaration, .undeclaredIdentifier, .invalidLvalue,
  .breakOutsideLoop, .continueOutsideLoop, .incompatibleDeclaration, .multipleDefinition,
  .conflictingLinkage, .nonConstantInitializer, .externInitializer, .storageClassInForHeader,
  .wrongArgumentCount, .nameKindMismatch, .nestedFunctionDefinition, .staticBlockFunction,
  .warningAsError, .internal]

def ofCode (code : Int) : ErrorKind :=
  match code with
  | .ofNat n => all.getD n (.other code)
  | .negSucc _ => .other code

def name : ErrorKind → String
  | .grammar => "syntax"
  | .duplicateDeclaration => "duplicate-declaration"
  | .undeclaredIdentifier => "undeclared-identifier"
  | .invalidLvalue => "invalid-lvalue"
  | .breakOutsideLoop => "break-outside-loop"
  | .continueOutsideLoop => "continue-outside-loop"
  | .incompatibleDeclaration => "incompatible-declaration"
  | .multipleDefinition => "multiple-definition"
  | .conflictingLinkage => "conflicting-linkage"
  | .nonConstantInitializer => "non-constant-initializer"
  | .externInitializer => "extern-initializer"
  | .storageClassInForHeader => "storage-class-in-for-header"
  | .wrongArgumentCount => "wrong-argument-count"
  | .nameKindMismatch => "name-kind-mismatch"
  | .nestedFunctionDefinition => "nested-function-definition"
  | .staticBlockFunction => "static-block-function"
  | .warningAsError => "warning-as-error"
  | .internal => "internal"
  | .other code => "error(" ++ toString code ++ ")"

end ErrorKind

/-- A broken promise between two passes. No source text leads to one. -/
inductive Breach where
  | atFileScope (kind : NodeKind)
  | statement (kind : NodeKind)
  | expression (kind : NodeKind)
  | unresolved (name : String)
  | missingFunction (name : String)
  | notFunction (name : String)
  | unaryOperator (op : TokenKind)
  | binaryOperator (op : TokenKind)
  | assignmentTo (kind : NodeKind)
  | absentOperand (name : String)
  | operation (name quoted : String)
  | pseudoLeft (name shown : String)
  | parserExhausted
deriving DecidableEq, Repr, Inhabited

def Breach.message : Breach → String
  | .atFileScope kind => "unexpected " ++ kind.name ++ " at file scope"
  | .statement kind => "unexpected statement " ++ kind.name
  | .expression kind => "unexpected expression " ++ kind.name
  | .unresolved name => "'" ++ name ++ "' reached the type checker unresolved"
  | .missingFunction name => "function '" ++ name ++ "' missing from the symbol table"
  | .notFunction name => "'" ++ name ++ "' is not a function"
  | .unaryOperator op => "unknown unary operator " ++ op.describe
  | .binaryOperator op => "unknown binary operator " ++ op.describe
  | .assignmentTo kind => "assignment to " ++ kind.name
  | .absentOperand name => name ++ ": cannot select operand <nil>"
  | .operation name quoted => name ++ ": cannot select instruction " ++ quoted
  | .pseudoLeft name shown =>
    "pseudo register '" ++ name ++ "' survived storage assignment in " ++ shown
  | .parserExhausted => "the parser ran out of steps"

/-- Why a compilation fails. -/
inductive Cause where
  -- lexemes
  | unclosedComment
  | invalidConstant (text : String)
  | decrement
  | bitwise (op : Char)
  | unexpectedCharacter (c : Char)
  -- grammar
  | expected (kind : TokenKind) (found : Token)
  | expectedDeclaration (found : Token)
  | expectedExpression (found : Token)
  | twoStorageClasses
  | typeMissing
  | typeRepeated
  | unclosedBlock
  | functionInForHeader
  | constantTooLarge (text : String)
  | malformedConstant (text : String)
  -- scopes
  | kindConflict (name : String)
  | repeatedParameter (name : String)
  | nestedFunction
  | staticBlockFunction (name : String)
  | conflictingDeclaration (name : String)
  | undeclared (name : String)
  | undeclaredFunction (name : String)
  | notAssignable
  -- loops
  | breakOutsideLoop
  | continueOutsideLoop
  -- declarations and uses
  | conflictingTypes (name : String)
  | redefinition (name : String)
  | staticAfterGlobal (name : String)
  | notConstant
  | otherKind (name : String)
  | conflictingLinkage (name : String)
  | externInitializer (name : String)
  | storageInForHeader (storage : Storage)
  | functionAsVariable (name : String)
  | notCallable (name : String)
  | argumentCount (name : String) (wanted : Int) (given : Nat)
  | warnings (count : Int)
  | breach (what : Breach)
  -- back ends
  | unsupportedBackend (name : String)
  | unsupportedInstruction (shown : String)
  /-- A failure of the given kind with a text of its own. -/
  | custom (kind : ErrorKind) (text : String)
  /-- A failure that no compilation pass reports. -/
  | plain (text : String)
deriving DecidableEq, Repr, Inhabited

namespace Cause

/-- The class of the failure; a failure outside the passes over the program has none. -/
def kind? : Cause → Option ErrorKind
  | .unclosedComment | .invalidConstant _ | .decrement | .bitwise _ | .unexpectedCharacter _
  | .expected .. | .expectedDeclaration _ | .expectedExpression _ | .twoStorageClasses
  | .typeMissing | .typeRepeated | .unclosedBlock | .functionInForHeader
  | .constantTooLarge _ | .malformedConstant _ => some .grammar
  | .kindConflict _ | .repeatedParameter _ | .conflictingDeclaration _ => some .duplicateDeclaration
  | .nestedFunction => some .nestedFunctionDefinition
  | .staticBlockFunction _ => some .staticBlockFunction
  | .undeclared _ | .undeclaredFunction _ => some .undeclaredIdentifier
  | .notAssignable => some .invalidLvalue
  | .breakOutsideLoop => some .breakOutsideLoop
  | .continueOutsideLoop => some .continueOutsideLoop
  | .conflictingTypes _ | .otherKind _ => some .incompatibleDeclaration
  | .redefinition _ => some .multipleDefinition
  | .staticAfterGlobal _ | .conflictingLinkage _ => some .conflictingLinkage
  | .notConstant => some .nonConstantInitializer
  | .externInitializer _ => some .externInitializer
  | .storageInForHeader _ => some .storageClassInForHeader
  | .functionAsVariable _ | .notCallable _ => some .nameKindMismatch
  | .argumentCount .. => some .wrongArgumentCount
  | .warnings _ => some .warningAsError
  | .breach _ => some .internal
  | .custom kind _ => some kind
  | .unsupportedBackend _ | .unsupportedInstruction _ | .plain _ => none

def message : Cause → String
  | .unclosedComment => "unterminated block comment"
  | .invalidConstant text => "invalid constant '" ++ text ++ "'"
  | .decrement => "decrement operator '--' is not supported"
  | .bitwise op => "bitwise operator '" ++ op.toString ++ "' is not supported"
  | .unexpectedCharacter c => "unexpected character '" ++ c.toString ++ "'"
  | .expected kind found => "expected " ++ kind.describe ++ " but found " ++ found.describe
  | .expectedDeclaration found => "expected a declaration but found " ++ found.describe
  | .expectedExpression found => "expected an expression but found " ++ found.describe
  | .twoStorageClasses => "multiple storage classes in declaration specifiers"
  | .typeMissing => "type specifier missing in declaration"
  | .typeRepeated => "invalid type specifier"
  | .unclosedBlock => "expected '\x7d' before end of file"
  | .functionInForHeader => "function declaration in for loop header"
  | .constantTooLarge text => "integer constant '" ++ text ++ "' is too large for type int"
  | .malformedConstant text => "invalid integer constant '" ++ text ++ "'"
  | .kindConflict name | .otherKind name =>
    "'" ++ name ++ "' redeclared as a different kind of symbol"
  | .repeatedParameter name => "redefinition of parameter '" ++ name ++ "'"
  | .nestedFunction => "function definition is not allowed here"
  | .staticBlockFunction name =>
    "invalid storage class for block-scope function '" ++ name ++ "'"
  | .conflictingDeclaration name => "conflicting declaration of '" ++ name ++ "'"
  | .undeclared name => "use of undeclared identifier '" ++ name ++ "'"
  | .undeclaredFunction name => "call to undeclared function '" ++ name ++ "'"
  | .notAssignable => "expression is not assignable"
  | .breakOutsideLoop => "'break' statement not in loop"
  | .continueOutsideLoop => "'continue' statement not in loop"
  | .conflictingTypes name => "conflicting types for '" ++ name ++ "'"
  | .redefinition name => "redefinition of '" ++ name ++ "'"
  | .staticAfterGlobal name =>
    "static declaration of '" ++ name ++ "' follows non-static declaration"
  | .notConstant => "initializer element is not a compile-time constant"
  | .conflictingLinkage name => "conflicting linkage for '" ++ name ++ "'"
  | .externInitializer name => "'extern' variable '" ++ name ++ "' cannot have an initializer"
  | .storageInForHeader storage =>
    "declaration of '" ++ storage.spelling ++ "' variable in 'for' loop initial declaration"
  | .functionAsVariable name => "function '" ++ name ++ "' used as a variable"
  | .notCallable name => "called object '" ++ name ++ "' is not a function"
  | .argumentCount name wanted given =>
    "'" ++ name ++ "' expects " ++ toString wanted ++ " argument(s), " ++ toString given
      ++ " given"
  | .warnings count => toString count ++ " warning(s) treated as errors"
  | .breach what => "internal compiler error: " ++ what.message
  | .unsupportedBackend name => "unsupported backend '" ++ name ++ "'"
  | .unsupportedInstruction shown => "qbe: unsupported instruction " ++ shown
  | .custom _ text | .plain text => text

end Cause

/-- A failure and the place it points at. -/
structure Error where
  cause : Cause
  span : Span := {}
deriving DecidableEq, Repr, Inhabited

namespace Error

/-- The place, where one is known, and the message. -/
def text (error : Error) : String :=
  if error.span.line = 0 then error.cause.message
  else toString error.span.line ++ ":" ++ toString error.span.column ++ ": " ++ error.cause.message

def ofBreach (breach : Breach) : Error := { cause := .breach breach }

end Error

end IntC
