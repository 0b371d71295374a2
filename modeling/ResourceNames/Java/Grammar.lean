import ResourceNames.Java.Kind

/-!
The grammar of Java, as data.

Each rule has a body. Most bodies are a list of alternatives. The body of `expression` is given
by its operators: heads, which start an expression, and tails, which continue one; a tail has a
level, and the higher the level the tighter it binds. An operand is a call of `expression` with
the least level of the tails that may stand in it.
-/
namespace ResourceNames.Java

/-- The rules of the grammar. -/
inductive Rule where
  | compilationUnit | packageDeclaration | importDeclaration | typeDeclaration | modifier
  | classOrInterfaceModifier | variableModifier | classDeclaration | typeParameters
  | typeParameter | typeBound | enumDeclaration | enumConstants | enumConstant
  | enumBodyDeclarations | interfaceDeclaration | classBody | interfaceBody
  | classBodyDeclaration | memberDeclaration | methodDeclaration | methodBody | typeTypeOrVoid
  | genericMethodDeclaration | genericConstructorDeclaration | constructorDeclaration
  | fieldDeclaration | interfaceBodyDeclaration | interfaceMemberDeclaration | constDeclaration
  | constantDeclarator | interfaceMethodDeclaration | interfaceMethodModifier
  | genericInterfaceMethodDeclaration | variableDeclarators | variableDeclarator
  | variableDeclaratorId | variableInitializer | arrayInitializer | classOrInterfaceType
  | typeArgument | qualifiedNameList | formalParameters | formalParameterList | formalParameter
  | lastFormalParameter | qualifiedName | literal | integerLiteral | floatLiteral | annot
  | elementValuePairs | elementValuePair | elementValue | elementValueArrayInitializer
  | annotationTypeDeclaration | annotationTypeBody | annotationTypeElementDeclaration
  | annotationTypeElementRest | annotationMethodOrConstantRest | annotationMethodRest
  | annotationConstantRest | defaultValue | block | blockStatement | localVariableDeclaration
  | localTypeDeclaration | statement | catchClause | catchType | finallyBlock
  | resourceSpecification | resources | resource | switchBlockStatementGroup | switchLabel
  | forControl | forInit | enhancedForControl | parExpression | expressionList | methodCall
  | expression | lambdaExpression | lambdaParameters | lambdaBody | primary | classType
  | creator | createdName | innerCreator | arrayCreatorRest | classCreatorRest
  | explicitGenericInvocation | typeArgumentsOrDiamond | nonWildcardTypeArgumentsOrDiamond
  | nonWildcardTypeArguments | typeList | typeType | primitiveType | typeArguments
  | superSuffix | explicitGenericInvocationSuffix | arguments
  deriving DecidableEq, Repr, Inhabited

namespace Rule

def all : List Rule := [
  .compilationUnit, .packageDeclaration, .importDeclaration, .typeDeclaration, .modifier,
  .classOrInterfaceModifier, .variableModifier, .classDeclaration, .typeParameters,
  .typeParameter, .typeBound, .enumDeclaration, .enumConstants, .enumConstant,
  .enumBodyDeclarations, .interfaceDeclaration, .classBody, .interfaceBody,
  .classBodyDeclaration, .memberDeclaration, .methodDeclaration, .methodBody, .typeTypeOrVoid,
  .genericMethodDeclaration, .genericConstructorDeclaration, .constructorDeclaration,
  .fieldDeclaration, .interfaceBodyDeclaration, .interfaceMemberDeclaration, .constDeclaration,
  .constantDeclarator, .interfaceMethodDeclaration, .interfaceMethodModifier,
  .genericInterfaceMethodDeclaration, .variableDeclarators, .variableDeclarator,
  .variableDeclaratorId, .variableInitializer, .arrayInitializer, .classOrInterfaceType,
  .typeArgument, .qualifiedNameList, .formalParameters, .formalParameterList, .formalParameter,
  .lastFormalParameter, .qualifiedName, .literal, .integerLiteral, .floatLiteral, .annot,
  .elementValuePairs, .elementValuePair, .elementValue, .elementValueArrayInitializer,
  .annotationTypeDeclaration, .annotationTypeBody, .annotationTypeElementDeclaration,
  .annotationTypeElementRest, .annotationMethodOrConstantRest, .annotationMethodRest,
  .annotationConstantRest, .defaultValue, .block, .blockStatement, .localVariableDeclaration,
  .localTypeDeclaration, .statement, .catchClause, .catchType, .finallyBlock,
  .resourceSpecification, .resources, .resource, .switchBlockStatementGroup, .switchLabel,
  .forControl, .forInit, .enhancedForControl, .parExpression, .expressionList, .methodCall,
  .expression, .lambdaExpression, .lambdaParameters, .lambdaBody, .primary, .classType,
  .creator, .createdName, .innerCreator, .arrayCreatorRest, .classCreatorRest,
  .explicitGenericInvocation, .typeArgumentsOrDiamond, .nonWildcardTypeArgumentsOrDiamond,
  .nonWildcardTypeArguments, .typeList, .typeType, .primitiveType, .typeArguments,
  .superSuffix, .explicitGenericInvocationSuffix, .arguments]

def index (r : Rule) : Nat := r.ctorIdx

def name : Rule → String
  | .compilationUnit => "compilationUnit"
  | .packageDeclaration => "packageDeclaration"
  | .importDeclaration => "importDeclaration"
  | .typeDeclaration => "typeDeclaration"
  | .modifier => "modifier"
  | .classOrInterfaceModifier => "classOrInterfaceModifier"
  | .variableModifier => "variableModifier"
  | .classDeclaration => "classDeclaration"
  | .typeParameters => "typeParameters"
  | .typeParameter => "typeParameter"
  | .typeBound => "typeBound"
  | .enumDeclaration => "enumDeclaration"
  | .enumConstants => "enumConstants"
  | .enumConstant => "enumConstant"
  | .enumBodyDeclarations => "enumBodyDeclarations"
  | .interfaceDeclaration => "interfaceDeclaration"
  | .classBody => "classBody"
  | .interfaceBody => "interfaceBody"
  | .classBodyDeclaration => "classBodyDeclaration"
  | .memberDeclaration => "memberDeclaration"
  | .methodDeclaration => "methodDeclaration"
  | .methodBody => "methodBody"
  | .typeTypeOrVoid => "typeTypeOrVoid"
  | .genericMethodDeclaration => "genericMethodDeclaration"
  | .genericConstructorDeclaration => "genericConstructorDeclaration"
  | .constructorDeclaration => "constructorDeclaration"
  | .fieldDeclaration => "fieldDeclaration"
  | .interfaceBodyDeclaration => "interfaceBodyDeclaration"
  | .interfaceMemberDeclaration => "interfaceMemberDeclaration"
  | .constDeclaration => "constDeclaration"
  | .constantDeclarator => "constantDeclarator"
  | .interfaceMethodDeclaration => "interfaceMethodDeclaration"
  | .interfaceMethodModifier => "interfaceMethodModifier"
  | .genericInterfaceMethodDeclaration => "genericInterfaceMethodDeclaration"
  | .variableDeclarators => "variableDeclarators"
  | .variableDeclarator => "variableDeclarator"
  | .variableDeclaratorId => "variableDeclaratorId"
  | .variableInitializer => "variableInitializer"
  | .arrayInitializer => "arrayInitializer"
  | .classOrInterfaceType => "classOrInterfaceType"
  | .typeArgument => "typeArgument"
  | .qualifiedNameList => "qualifiedNameList"
  | .formalParameters => "formalParameters"
  | .formalParameterList => "formalParameterList"
  | .formalParameter => "formalParameter"
  | .lastFormalParameter => "lastFormalParameter"
  | .qualifiedName => "qualifiedName"
  | .literal => "literal"
  | .integerLiteral => "integerLiteral"
  | .floatLiteral => "floatLiteral"
  | .annot => "annotation"
  | .elementValuePairs => "elementValuePairs"
  | .elementValuePair => "elementValuePair"
  | .elementValue => "elementValue"
  | .elementValueArrayInitializer => "elementValueArrayInitializer"
  | .annotationTypeDeclaration => "annotationTypeDeclaration"
  | .annotationTypeBody => "annotationTypeBody"
  | .annotationTypeElementDeclaration => "annotationTypeElementDeclaration"
  | .annotationTypeElementRest => "annotationTypeElementRest"
  | .annotationMethodOrConstantRest => "annotationMethodOrConstantRest"
  | .annotationMethodRest => "annotationMethodRest"
  | .annotationConstantRest => "annotationConstantRest"
  | .defaultValue => "defaultValue"
  | .block => "block"
  | .blockStatement => "blockStatement"
  | .localVariableDeclaration => "localVariableDeclaration"
  | .localTypeDeclaration => "localTypeDeclaration"
  | .statement => "statement"
  | .catchClause => "catchClause"
  | .catchType => "catchType"
  | .finallyBlock => "finallyBlock"
  | .resourceSpecification => "resourceSpecification"
  | .resources => "resources"
  | .resource => "resource"
  | .switchBlockStatementGroup => "switchBlockStatementGroup"
  | .switchLabel => "switchLabel"
  | .forControl => "forControl"
  | .forInit => "forInit"
  | .enhancedForControl => "enhancedForControl"
  | .parExpression => "parExpression"
  | .expressionList => "expressionList"
  | .methodCall => "methodCall"
  | .expression => "expression"
  | .lambdaExpression => "lambdaExpression"
  | .lambdaParameters => "lambdaParameters"
  | .lambdaBody => "lambdaBody"
  | .primary => "primary"
  | .classType => "classType"
  | .creator => "creator"
  | .createdName => "createdName"
  | .innerCreator => "innerCreator"
  | .arrayCreatorRest => "arrayCreatorRest"
  | .classCreatorRest => "classCreatorRest"
  | .explicitGenericInvocation => "explicitGenericInvocation"
  | .typeArgumentsOrDiamond => "typeArgumentsOrDiamond"
  | .nonWildcardTypeArgumentsOrDiamond => "nonWildcardTypeArgumentsOrDiamond"
  | .nonWildcardTypeArguments => "nonWildcardTypeArguments"
  | .typeList => "typeList"
  | .typeType => "typeType"
  | .primitiveType => "primitiveType"
  | .typeArguments => "typeArguments"
  | .superSuffix => "superSuffix"
  | .explicitGenericInvocationSuffix => "explicitGenericInvocationSuffix"
  | .arguments => "arguments"

def ofName? (name : String) : Option Rule := all.find? fun r => r.name == name

end Rule

/-- Parts of a rule that have a name of their own. -/
inductive Field where
  | bop | prefixOp | postfixOp | constructorBody | blockLabel | statementExpression
  | identifierLabel | constantExpression | enumConstantName | forUpdate
  deriving DecidableEq, Repr

def Field.name : Field → String
  | .bop => "bop"
  | .prefixOp => "prefix"
  | .postfixOp => "postfix"
  | .constructorBody => "constructorBody"
  | .blockLabel => "blockLabel"
  | .statementExpression => "statementExpression"
  | .identifierLabel => "identifierLabel"
  | .constantExpression => "constantExpression"
  | .enumConstantName => "enumConstantName"
  | .forUpdate => "forUpdate"

/-- What may stand in the body of a rule. -/
inductive Phrase where
  /-- One token of a kind. -/
  | token (kind : Kind) (field : Option Field)
  /-- One token of some kinds. -/
  | oneOf (kinds : List Kind) (field : Option Field)
  /-- A rule; the level is that of an operand. -/
  | call (rule : Rule) (level : Nat) (field : Option Field)
  /-- Phrases one after another. -/
  | seq (parts : List Phrase)
  /-- One of some phrases. -/
  | choice (alts : List Phrase)
  /-- One of some phrases, or nothing. -/
  | opt (alts : List Phrase)
  /-- A phrase any number of times. -/
  | star (body : Phrase)
  /-- A phrase at least once. -/
  | plus (body : Phrase)
  deriving Repr

inductive Body where
  /-- One of some phrases. -/
  | alternatives (alts : List Phrase)
  /-- One of the heads, then any number of tails, each with its level. -/
  | operators (heads : List Phrase) (tails : List (Nat × Phrase))
  deriving Repr

namespace Grammar

def tok (k : Kind) : Phrase := .token k none

def use (r : Rule) : Phrase := .call r 0 none

/-- An operand whose tails have at least a level. -/
def operand (level : Nat) : Phrase := .call .expression level none

def maybe (ps : List Phrase) : Phrase := .opt [.seq ps]

def many (ps : List Phrase) : Phrase := .star (.seq ps)

def brackets : Phrase := many [tok .lbrack, tok .rbrack]

def parenthesized (r : Rule) : List Phrase := [tok .lparen, maybe [use r], tok .rparen]

def only (ps : List Phrase) : Body := .alternatives [.seq ps]

def anyOf (ps : List Phrase) : Body := .alternatives ps

def kinds (ks : List Kind) : Body := .alternatives [.oneOf ks none]

def statements : List Phrase := [
  .call .block 0 (some .blockLabel),
  .seq [tok .kwAssert, use .expression, maybe [tok .colon, use .expression], tok .semi],
  .seq [tok .kwIf, use .parExpression, use .statement, maybe [tok .kwElse, use .statement]],
  .seq [tok .kwFor, tok .lparen, use .forControl, tok .rparen, use .statement],
  .seq [tok .kwWhile, use .parExpression, use .statement],
  .seq [tok .kwDo, use .statement, tok .kwWhile, use .parExpression, tok .semi],
  .seq [tok .kwTry, use .block,
    .choice [.seq [.plus (use .catchClause), maybe [use .finallyBlock]], use .finallyBlock]],
  .seq [tok .kwTry, use .resourceSpecification, use .block, many [use .catchClause],
    maybe [use .finallyBlock]],
  .seq [tok .kwSwitch, use .parExpression, tok .lbrace, many [use .switchBlockStatementGroup],
    many [use .switchLabel], tok .rbrace],
  .seq [tok .kwSynchronized, use .parExpression, use .block],
  .seq [tok .kwReturn, maybe [use .expression], tok .semi],
  .seq [tok .kwThrow, use .expression, tok .semi],
  .seq [tok .kwBreak, maybe [tok .identifier], tok .semi],
  .seq [tok .kwContinue, maybe [tok .identifier], tok .semi],
  tok .semi,
  .seq [.call .expression 0 (some .statementExpression), tok .semi],
  .seq [.token .identifier (some .identifierLabel), tok .colon, use .statement]]

def heads : List Phrase := [
  use .primary,
  use .methodCall,
  .seq [tok .kwNew, use .creator],
  .seq [tok .lparen, use .typeType, tok .rparen, operand 21],
  .seq [.oneOf [.inc, .dec, .add, .sub] (some .prefixOp), operand 19],
  .seq [.oneOf [.bang, .tilde] (some .prefixOp), operand 18],
  use .lambdaExpression,
  .seq [use .typeType, tok .coloncolon,
    .choice [.seq [maybe [use .typeArguments], tok .identifier], tok .kwNew]],
  .seq [use .classType, tok .coloncolon, maybe [use .typeArguments], tok .kwNew]]

/-- A tail that is an operator and an operand; both bind with the level, and the operand one
tighter, so that a row of such tails nests to the left. -/
def binary (level : Nat) (ks : List Kind) : Nat × Phrase :=
  match ks with
  | [k] => (level, .seq [.token k (some .bop), operand (level + 1)])
  | ks => (level, .seq [.oneOf ks (some .bop), operand (level + 1)])

/-- What continues an expression. The conditional and the assignments nest to the right: their
last operand has their own level. -/
def tails : List (Nat × Phrase) := [
  binary 17 [.mul, .div, .mod],
  binary 16 [.add, .sub],
  (15, .seq [.choice [.seq [tok .lt, tok .lt], .seq [tok .gt, tok .gt, tok .gt],
    .seq [tok .gt, tok .gt]], operand 16]),
  binary 14 [.gt, .lt, .le, .ge],
  binary 12 [.equal, .notequal],
  binary 11 [.bitand],
  binary 10 [.caret],
  binary 9 [.bitor],
  binary 8 [.and],
  binary 7 [.or],
  (6, .seq [.token .question (some .bop), use .expression, tok .colon, operand 6]),
  (5, .seq [.oneOf [.assign, .addAssign, .subAssign, .mulAssign, .divAssign, .andAssign,
    .orAssign, .xorAssign, .modAssign, .lshiftAssign, .rshiftAssign, .urshiftAssign]
    (some .bop), operand 5]),
  (25, .seq [.token .dot (some .bop), .choice [
    tok .identifier,
    use .methodCall,
    tok .kwThis,
    .seq [tok .kwNew, maybe [use .nonWildcardTypeArguments], use .innerCreator],
    .seq [tok .kwSuper, use .superSuffix],
    use .explicitGenericInvocation]]),
  (24, .seq [tok .lbrack, use .expression, tok .rbrack]),
  (20, .oneOf [.inc, .dec] (some .postfixOp)),
  (13, .seq [.token .kwInstanceof (some .bop), use .typeType]),
  (3, .seq [tok .coloncolon, maybe [use .typeArguments], tok .identifier])]

def body : Rule → Body
  | .compilationUnit => only [maybe [use .packageDeclaration], many [use .importDeclaration],
      many [use .typeDeclaration], tok .eof]
  | .packageDeclaration => only [many [use .annot], tok .kwPackage, use .qualifiedName, tok .semi]
  | .importDeclaration => only [tok .kwImport, maybe [tok .kwStatic], use .qualifiedName,
      maybe [tok .dot, tok .mul], tok .semi]
  | .typeDeclaration => .alternatives [
      .seq [many [use .classOrInterfaceModifier], .choice [use .classDeclaration,
        use .enumDeclaration, use .interfaceDeclaration, use .annotationTypeDeclaration]],
      tok .semi]
  | .modifier => anyOf [use .classOrInterfaceModifier, tok .kwNative, tok .kwSynchronized,
      tok .kwTransient, tok .kwVolatile]
  | .classOrInterfaceModifier => anyOf [use .annot, tok .kwPublic, tok .kwProtected,
      tok .kwPrivate, tok .kwStatic, tok .kwAbstract, tok .kwFinal, tok .kwStrictfp]
  | .variableModifier => anyOf [tok .kwFinal, use .annot]
  | .classDeclaration => only [tok .kwClass, tok .identifier, maybe [use .typeParameters],
      maybe [tok .kwExtends, use .typeType], maybe [tok .kwImplements, use .typeList],
      use .classBody]
  | .typeParameters => only [tok .lt, use .typeParameter,
      many [tok .comma, use .typeParameter], tok .gt]
  | .typeParameter => only [many [use .annot], tok .identifier,
      maybe [tok .kwExtends, use .typeBound]]
  | .typeBound => only [use .typeType, many [tok .bitand, use .typeType]]
  | .enumDeclaration => only [tok .kwEnum, tok .identifier,
      maybe [tok .kwImplements, use .typeList], tok .lbrace, maybe [use .enumConstants],
      maybe [tok .comma], maybe [use .enumBodyDeclarations], tok .rbrace]
  | .enumConstants => only [use .enumConstant, many [tok .comma, use .enumConstant]]
  | .enumConstant => only [many [use .annot], tok .identifier, maybe [use .arguments],
      maybe [use .classBody]]
  | .enumBodyDeclarations => only [tok .semi, many [use .classBodyDeclaration]]
  | .interfaceDeclaration => only [tok .kwInterface, tok .identifier,
      maybe [use .typeParameters], maybe [tok .kwExtends, use .typeList], use .interfaceBody]
  | .classBody => only [tok .lbrace, many [use .classBodyDeclaration], tok .rbrace]
  | .interfaceBody => only [tok .lbrace, many [use .interfaceBodyDeclaration], tok .rbrace]
  | .classBodyDeclaration => .alternatives [tok .semi,
      .seq [maybe [tok .kwStatic], use .block],
      .seq [many [use .modifier], use .memberDeclaration]]
  | .memberDeclaration => anyOf [use .methodDeclaration, use .genericMethodDeclaration,
      use .fieldDeclaration, use .constructorDeclaration, use .genericConstructorDeclaration,
      use .interfaceDeclaration, use .annotationTypeDeclaration, use .classDeclaration,
      use .enumDeclaration]
  | .methodDeclaration => only [use .typeTypeOrVoid, tok .identifier, use .formalParameters,
      brackets, maybe [tok .kwThrows, use .qualifiedNameList], use .methodBody]
  | .methodBody => anyOf [use .block, tok .semi]
  | .typeTypeOrVoid => anyOf [use .typeType, tok .kwVoid]
  | .genericMethodDeclaration => only [use .typeParameters, use .methodDeclaration]
  | .genericConstructorDeclaration => only [use .typeParameters, use .constructorDeclaration]
  | .constructorDeclaration => only [tok .identifier, use .formalParameters,
      maybe [tok .kwThrows, use .qualifiedNameList], .call .block 0 (some .constructorBody)]
  | .fieldDeclaration => only [use .typeType, use .variableDeclarators, tok .semi]
  | .interfaceBodyDeclaration => .alternatives [
      .seq [many [use .modifier], use .interfaceMemberDeclaration], tok .semi]
  | .interfaceMemberDeclaration => anyOf [use .constDeclaration, use .interfaceMethodDeclaration,
      use .genericInterfaceMethodDeclaration, use .interfaceDeclaration,
      use .annotationTypeDeclaration, use .classDeclaration, use .enumDeclaration]
  | .constDeclaration => only [use .typeType, use .constantDeclarator,
      many [tok .comma, use .constantDeclarator], tok .semi]
  | .constantDeclarator => only [tok .identifier, brackets, tok .assign,
      use .variableInitializer]
  | .interfaceMethodDeclaration => only [many [use .interfaceMethodModifier],
      .choice [use .typeTypeOrVoid,
        .seq [use .typeParameters, many [use .annot], use .typeTypeOrVoid]],
      tok .identifier, use .formalParameters, brackets,
      maybe [tok .kwThrows, use .qualifiedNameList], use .methodBody]
  | .interfaceMethodModifier => anyOf [use .annot, tok .kwPublic, tok .kwAbstract,
      tok .kwDefault, tok .kwStatic, tok .kwStrictfp]
  | .genericInterfaceMethodDeclaration => only [use .typeParameters,
      use .interfaceMethodDeclaration]
  | .variableDeclarators => only [use .variableDeclarator,
      many [tok .comma, use .variableDeclarator]]
  | .variableDeclarator => only [use .variableDeclaratorId,
      maybe [tok .assign, use .variableInitializer]]
  | .variableDeclaratorId => only [tok .identifier, brackets]
  | .variableInitializer => anyOf [use .arrayInitializer, use .expression]
  | .arrayInitializer => only [tok .lbrace,
      maybe [use .variableInitializer, many [tok .comma, use .variableInitializer],
        maybe [tok .comma]], tok .rbrace]
  | .classOrInterfaceType => only [tok .identifier, maybe [use .typeArguments],
      many [tok .dot, tok .identifier, maybe [use .typeArguments]]]
  | .typeArgument => .alternatives [use .typeType,
      .seq [tok .question, maybe [.oneOf [.kwExtends, .kwSuper] none, use .typeType]]]
  | .qualifiedNameList => only [use .qualifiedName, many [tok .comma, use .qualifiedName]]
  | .formalParameters => only (parenthesized .formalParameterList)
  | .formalParameterList => .alternatives [
      .seq [use .formalParameter, many [tok .comma, use .formalParameter],
        maybe [tok .comma, use .lastFormalParameter]],
      use .lastFormalParameter]
  | .formalParameter => only [many [use .variableModifier], use .typeType,
      use .variableDeclaratorId]
  | .lastFormalParameter => only [many [use .variableModifier], use .typeType, tok .ellipsis,
      use .variableDeclaratorId]
  | .qualifiedName => only [tok .identifier, many [tok .dot, tok .identifier]]
  | .literal => anyOf [use .integerLiteral, use .floatLiteral, tok .charLiteral,
      tok .stringLiteral, tok .boolLiteral, tok .nullLiteral]
  | .integerLiteral => kinds [.decimalLiteral, .hexLiteral, .octLiteral, .binaryLiteral]
  | .floatLiteral => kinds [.floatLiteral, .hexFloatLiteral]
  | .annot => only [tok .atSign, use .qualifiedName,
      maybe [tok .lparen, .opt [use .elementValuePairs, use .elementValue], tok .rparen]]
  | .elementValuePairs => only [use .elementValuePair, many [tok .comma, use .elementValuePair]]
  | .elementValuePair => only [tok .identifier, tok .assign, use .elementValue]
  | .elementValue => anyOf [use .expression, use .annot, use .elementValueArrayInitializer]
  | .elementValueArrayInitializer => only [tok .lbrace,
      maybe [use .elementValue, many [tok .comma, use .elementValue]], maybe [tok .comma],
      tok .rbrace]
  | .annotationTypeDeclaration => only [tok .atSign, tok .kwInterface, tok .identifier,
      use .annotationTypeBody]
  | .annotationTypeBody => only [tok .lbrace, many [use .annotationTypeElementDeclaration],
      tok .rbrace]
  | .annotationTypeElementDeclaration => .alternatives [
      .seq [many [use .modifier], use .annotationTypeElementRest], tok .semi]
  | .annotationTypeElementRest => .alternatives [
      .seq [use .typeType, use .annotationMethodOrConstantRest, tok .semi],
      .seq [use .classDeclaration, maybe [tok .semi]],
      .seq [use .interfaceDeclaration, maybe [tok .semi]],
      .seq [use .enumDeclaration, maybe [tok .semi]],
      .seq [use .annotationTypeDeclaration, maybe [tok .semi]]]
  | .annotationMethodOrConstantRest => anyOf [use .annotationMethodRest,
      use .annotationConstantRest]
  | .annotationMethodRest => only [tok .identifier, tok .lparen, tok .rparen,
      maybe [use .defaultValue]]
  | .annotationConstantRest => only [use .variableDeclarators]
  | .defaultValue => only [tok .kwDefault, use .elementValue]
  | .block => only [tok .lbrace, many [use .blockStatement], tok .rbrace]
  | .blockStatement => .alternatives [.seq [use .localVariableDeclaration, tok .semi],
      use .statement, use .localTypeDeclaration]
  | .localVariableDeclaration => only [many [use .variableModifier], use .typeType,
      use .variableDeclarators]
  | .localTypeDeclaration => .alternatives [
      .seq [many [use .classOrInterfaceModifier],
        .choice [use .classDeclaration, use .interfaceDeclaration]],
      tok .semi]
  | .statement => .alternatives statements
  | .catchClause => only [tok .kwCatch, tok .lparen, many [use .variableModifier],
      use .catchType, tok .identifier, tok .rparen, use .block]
  | .catchType => only [use .qualifiedName, many [tok .bitor, use .qualifiedName]]
  | .finallyBlock => only [tok .kwFinally, use .block]
  | .resourceSpecification => only [tok .lparen, use .resources, maybe [tok .semi], tok .rparen]
  | .resources => only [use .resource, many [tok .semi, use .resource]]
  | .resource => only [many [use .variableModifier], use .classOrInterfaceType,
      use .variableDeclaratorId, tok .assign, use .expression]
  | .switchBlockStatementGroup => only [.plus (use .switchLabel), .plus (use .blockStatement)]
  | .switchLabel => .alternatives [
      .seq [tok .kwCase, .choice [.call .expression 0 (some .constantExpression),
        .token .identifier (some .enumConstantName)], tok .colon],
      .seq [tok .kwDefault, tok .colon]]
  | .forControl => .alternatives [use .enhancedForControl,
      .seq [maybe [use .forInit], tok .semi, maybe [use .expression], tok .semi,
        maybe [.call .expressionList 0 (some .forUpdate)]]]
  | .forInit => anyOf [use .localVariableDeclaration, use .expressionList]
  | .enhancedForControl => only [many [use .variableModifier], use .typeType,
      use .variableDeclaratorId, tok .colon, use .expression]
  | .parExpression => only [tok .lparen, use .expression, tok .rparen]
  | .expressionList => only [use .expression, many [tok .comma, use .expression]]
  | .methodCall => .alternatives [
      .seq (tok .identifier :: parenthesized .expressionList),
      .seq (tok .kwThis :: parenthesized .expressionList),
      .seq (tok .kwSuper :: parenthesized .expressionList)]
  | .expression => .operators heads tails
  | .lambdaExpression => only [use .lambdaParameters, tok .arrow, use .lambdaBody]
  | .lambdaParameters => .alternatives [tok .identifier,
      .seq (parenthesized .formalParameterList),
      .seq [tok .lparen, tok .identifier, many [tok .comma, tok .identifier], tok .rparen]]
  | .lambdaBody => anyOf [use .expression, use .block]
  | .primary => .alternatives [
      .seq [tok .lparen, use .expression, tok .rparen],
      tok .kwThis,
      tok .kwSuper,
      use .literal,
      tok .identifier,
      .seq [use .typeTypeOrVoid, tok .dot, tok .kwClass],
      .seq [use .nonWildcardTypeArguments,
        .choice [use .explicitGenericInvocationSuffix, .seq [tok .kwThis, use .arguments]]]]
  | .classType => only [maybe [use .classOrInterfaceType, tok .dot], many [use .annot],
      tok .identifier, maybe [use .typeArguments]]
  | .creator => .alternatives [
      .seq [use .nonWildcardTypeArguments, use .createdName, use .classCreatorRest],
      .seq [use .createdName, .choice [use .arrayCreatorRest, use .classCreatorRest]]]
  | .createdName => .alternatives [
      .seq [tok .identifier, maybe [use .typeArgumentsOrDiamond],
        many [tok .dot, tok .identifier, maybe [use .typeArgumentsOrDiamond]]],
      use .primitiveType]
  | .innerCreator => only [tok .identifier, maybe [use .nonWildcardTypeArgumentsOrDiamond],
      use .classCreatorRest]
  | .arrayCreatorRest => only [tok .lbrack, .choice [
      .seq [tok .rbrack, brackets, use .arrayInitializer],
      .seq [use .expression, tok .rbrack, many [tok .lbrack, use .expression, tok .rbrack],
        brackets]]]
  | .classCreatorRest => only [use .arguments, maybe [use .classBody]]
  | .explicitGenericInvocation => only [use .nonWildcardTypeArguments,
      use .explicitGenericInvocationSuffix]
  | .typeArgumentsOrDiamond => .alternatives [.seq [tok .lt, tok .gt], use .typeArguments]
  | .nonWildcardTypeArgumentsOrDiamond => .alternatives [.seq [tok .lt, tok .gt],
      use .nonWildcardTypeArguments]
  | .nonWildcardTypeArguments => only [tok .lt, use .typeList, tok .gt]
  | .typeList => only [use .typeType, many [tok .comma, use .typeType]]
  | .typeType => only [maybe [use .annot], .choice [use .classOrInterfaceType,
      use .primitiveType], brackets]
  | .primitiveType => kinds [.kwBoolean, .kwChar, .kwByte, .kwShort, .kwInt, .kwLong, .kwFloat,
      .kwDouble]
  | .typeArguments => only [tok .lt, use .typeArgument, many [tok .comma, use .typeArgument],
      tok .gt]
  | .superSuffix => .alternatives [use .arguments,
      .seq [tok .dot, tok .identifier, maybe [use .arguments]]]
  | .explicitGenericInvocationSuffix => .alternatives [.seq [tok .kwSuper, use .superSuffix],
      .seq [tok .identifier, use .arguments]]
  | .arguments => only (parenthesized .expressionList)

end Grammar

end ResourceNames.Java
