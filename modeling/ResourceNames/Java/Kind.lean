/-!
The kinds of token of a Java source file.

A kind has a number, by which sets of kinds are listed, a name, and, when all its tokens are
spelled the same, that spelling. The end of the input is a kind of its own, numbered below all
others.
-/
namespace ResourceNames.Java

/-- What sort of word a token is. -/
inductive Kind where
  | eof
  | kwAbstract | kwAssert | kwBoolean | kwBreak | kwByte | kwCase | kwCatch | kwChar | kwClass
  | kwConst | kwContinue | kwDefault | kwDo | kwDouble | kwElse | kwEnum | kwExtends | kwFinal
  | kwFinally | kwFloat | kwFor | kwIf | kwGoto | kwImplements | kwImport | kwInstanceof
  | kwInt | kwInterface | kwLong | kwNative | kwNew | kwPackage | kwPrivate | kwProtected
  | kwPublic | kwReturn | kwShort | kwStatic | kwStrictfp | kwSuper | kwSwitch | kwSynchronized
  | kwThis | kwThrow | kwThrows | kwTransient | kwTry | kwVoid | kwVolatile | kwWhile
  | decimalLiteral | hexLiteral | octLiteral | binaryLiteral | floatLiteral | hexFloatLiteral
  | boolLiteral | charLiteral | stringLiteral | nullLiteral | lparen | rparen | lbrace | rbrace
  | lbrack | rbrack | semi | comma | dot | assign | gt | lt | bang | tilde | question | colon
  | equal | le | ge | notequal | and | or | inc | dec | add | sub | mul | div | bitand | bitor
  | caret | mod | addAssign | subAssign | mulAssign | divAssign | andAssign | orAssign
  | xorAssign | modAssign | lshiftAssign | rshiftAssign | urshiftAssign | arrow | coloncolon
  | atSign | ellipsis | ws | comment | lineComment | identifier
  deriving DecidableEq, Repr, Inhabited

namespace Kind

def all : List Kind := [
  .eof, .kwAbstract, .kwAssert, .kwBoolean, .kwBreak, .kwByte, .kwCase, .kwCatch, .kwChar,
  .kwClass, .kwConst, .kwContinue, .kwDefault, .kwDo, .kwDouble, .kwElse, .kwEnum, .kwExtends,
  .kwFinal, .kwFinally, .kwFloat, .kwFor, .kwIf, .kwGoto, .kwImplements, .kwImport,
  .kwInstanceof, .kwInt, .kwInterface, .kwLong, .kwNative, .kwNew, .kwPackage, .kwPrivate,
  .kwProtected, .kwPublic, .kwReturn, .kwShort, .kwStatic, .kwStrictfp, .kwSuper, .kwSwitch,
  .kwSynchronized, .kwThis, .kwThrow, .kwThrows, .kwTransient, .kwTry, .kwVoid, .kwVolatile,
  .kwWhile, .decimalLiteral, .hexLiteral, .octLiteral, .binaryLiteral, .floatLiteral,
  .hexFloatLiteral, .boolLiteral, .charLiteral, .stringLiteral, .nullLiteral, .lparen, .rparen,
  .lbrace, .rbrace, .lbrack, .rbrack, .semi, .comma, .dot, .assign, .gt, .lt, .bang, .tilde,
  .question, .colon, .equal, .le, .ge, .notequal, .and, .or, .inc, .dec, .add, .sub, .mul, .div,
  .bitand, .bitor, .caret, .mod, .addAssign, .subAssign, .mulAssign, .divAssign, .andAssign,
  .orAssign, .xorAssign, .modAssign, .lshiftAssign, .rshiftAssign, .urshiftAssign, .arrow,
  .coloncolon, .atSign, .ellipsis, .ws, .comment, .lineComment, .identifier]

def index (k : Kind) : Nat := k.ctorIdx

/-- The number shown for a kind: the end of the input is `-1`, the others count from one. -/
def number (k : Kind) : Int := if k = .eof then -1 else k.index

def name : Kind → String
  | .eof => "EOF"
  | .kwAbstract => "ABSTRACT"
  | .kwAssert => "ASSERT"
  | .kwBoolean => "BOOLEAN"
  | .kwBreak => "BREAK"
  | .kwByte => "BYTE"
  | .kwCase => "CASE"
  | .kwCatch => "CATCH"
  | .kwChar => "CHAR"
  | .kwClass => "CLASS"
  | .kwConst => "CONST"
  | .kwContinue => "CONTINUE"
  | .kwDefault => "DEFAULT"
  | .kwDo => "DO"
  | .kwDouble => "DOUBLE"
  | .kwElse => "ELSE"
  | .kwEnum => "ENUM"
  | .kwExtends => "EXTENDS"
  | .kwFinal => "FINAL"
  | .kwFinally => "FINALLY"
  | .kwFloat => "FLOAT"
  | .kwFor => "FOR"
  | .kwIf => "IF"
  | .kwGoto => "GOTO"
  | .kwImplements => "IMPLEMENTS"
  | .kwImport => "IMPORT"
  | .kwInstanceof => "INSTANCEOF"
  | .kwInt => "INT"
  | .kwInterface => "INTERFACE"
  | .kwLong => "LONG"
  | .kwNative => "NATIVE"
  | .kwNew => "NEW"
  | .kwPackage => "PACKAGE"
  | .kwPrivate => "PRIVATE"
  | .kwProtected => "PROTECTED"
  | .kwPublic => "PUBLIC"
  | .kwReturn => "RETURN"
  | .kwShort => "SHORT"
  | .kwStatic => "STATIC"
  | .kwStrictfp => "STRICTFP"
  | .kwSuper => "SUPER"
  | .kwSwitch => "SWITCH"
  | .kwSynchronized => "SYNCHRONIZED"
  | .kwThis => "THIS"
  | .kwThrow => "THROW"
  | .kwThrows => "THROWS"
  | .kwTransient => "TRANSIENT"
  | .kwTry => "TRY"
  | .kwVoid => "VOID"
  | .kwVolatile => "VOLATILE"
  | .kwWhile => "WHILE"
  | .decimalLiteral => "DECIMAL_LITERAL"
  | .hexLiteral => "HEX_LITERAL"
  | .octLiteral => "OCT_LITERAL"
  | .binaryLiteral => "BINARY_LITERAL"
  | .floatLiteral => "FLOAT_LITERAL"
  | .hexFloatLiteral => "HEX_FLOAT_LITERAL"
  | .boolLiteral => "BOOL_LITERAL"
  | .charLiteral => "CHAR_LITERAL"
  | .stringLiteral => "STRING_LITERAL"
  | .nullLiteral => "NULL_LITERAL"
  | .lparen => "LPAREN"
  | .rparen => "RPAREN"
  | .lbrace => "LBRACE"
  | .rbrace => "RBRACE"
  | .lbrack => "LBRACK"
  | .rbrack => "RBRACK"
  | .semi => "SEMI"
  | .comma => "COMMA"
  | .dot => "DOT"
  | .assign => "ASSIGN"
  | .gt => "GT"
  | .lt => "LT"
  | .bang => "BANG"
  | .tilde => "TILDE"
  | .question => "QUESTION"
  | .colon => "COLON"
  | .equal => "EQUAL"
  | .le => "LE"
  | .ge => "GE"
  | .notequal => "NOTEQUAL"
  | .and => "AND"
  | .or => "OR"
  | .inc => "INC"
  | .dec => "DEC"
  | .add => "ADD"
  | .sub => "SUB"
  | .mul => "MUL"
  | .div => "DIV"
  | .bitand => "BITAND"
  | .bitor => "BITOR"
  | .caret => "CARET"
  | .mod => "MOD"
  | .addAssign => "ADD_ASSIGN"
  | .subAssign => "SUB_ASSIGN"
  | .mulAssign => "MUL_ASSIGN"
  | .divAssign => "DIV_ASSIGN"
  | .andAssign => "AND_ASSIGN"
  | .orAssign => "OR_ASSIGN"
  | .xorAssign => "XOR_ASSIGN"
  | .modAssign => "MOD_ASSIGN"
  | .lshiftAssign => "LSHIFT_ASSIGN"
  | .rshiftAssign => "RSHIFT_ASSIGN"
  | .urshiftAssign => "URSHIFT_ASSIGN"
  | .arrow => "ARROW"
  | .coloncolon => "COLONCOLON"
  | .atSign => "AT"
  | .ellipsis => "ELLIPSIS"
  | .ws => "WS"
  | .comment => "COMMENT"
  | .lineComment => "LINE_COMMENT"
  | .identifier => "IDENTIFIER"

def spelling? : Kind → Option String
  | .kwAbstract => some "abstract"
  | .kwAssert => some "assert"
  | .kwBoolean => some "boolean"
  | .kwBreak => some "break"
  | .kwByte => some "byte"
  | .kwCase => some "case"
  | .kwCatch => some "catch"
  | .kwChar => some "char"
  | .kwClass => some "class"
  | .kwConst => some "const"
  | .kwContinue => some "continue"
  | .kwDefault => some "default"
  | .kwDo => some "do"
  | .kwDouble => some "double"
  | .kwElse => some "else"
  | .kwEnum => some "enum"
  | .kwExtends => some "extends"
  | .kwFinal => some "final"
  | .kwFinally => some "finally"
  | .kwFloat => some "float"
  | .kwFor => some "for"
  | .kwIf => some "if"
  | .kwGoto => some "goto"
  | .kwImplements => some "implements"
  | .kwImport => some "import"
  | .kwInstanceof => some "instanceof"
  | .kwInt => some "int"
  | .kwInterface => some "interface"
  | .kwLong => some "long"
  | .kwNative => some "native"
  | .kwNew => some "new"
  | .kwPackage => some "package"
  | .kwPrivate => some "private"
  | .kwProtected => some "protected"
  | .kwPublic => some "public"
  | .kwReturn => some "return"
  | .kwShort => some "short"
  | .kwStatic => some "static"
  | .kwStrictfp => some "strictfp"
  | .kwSuper => some "super"
  | .kwSwitch => some "switch"
  | .kwSynchronized => some "synchronized"
  | .kwThis => some "this"
  | .kwThrow => some "throw"
  | .kwThrows => some "throws"
  | .kwTransient => some "transient"
  | .kwTry => some "try"
  | .kwVoid => some "void"
  | .kwVolatile => some "volatile"
  | .kwWhile => some "while"
  | .nullLiteral => some "null"
  | .lparen => some "("
  | .rparen => some ")"
  | .lbrace => some "\x7b"
  | .rbrace => some "\x7d"
  | .lbrack => some "["
  | .rbrack => some "]"
  | .semi => some ";"
  | .comma => some ","
  | .dot => some "."
  | .assign => some "="
  | .gt => some ">"
  | .lt => some "<"
  | .bang => some "!"
  | .tilde => some "~"
  | .question => some "?"
  | .colon => some ":"
  | .equal => some "=="
  | .le => some "<="
  | .ge => some ">="
  | .notequal => some "!="
  | .and => some "&&"
  | .or => some "||"
  | .inc => some "++"
  | .dec => some "--"
  | .add => some "+"
  | .sub => some "-"
  | .mul => some "*"
  | .div => some "/"
  | .bitand => some "&"
  | .bitor => some "|"
  | .caret => some "^"
  | .mod => some "%"
  | .addAssign => some "+="
  | .subAssign => some "-="
  | .mulAssign => some "*="
  | .divAssign => some "/="
  | .andAssign => some "&="
  | .orAssign => some "|="
  | .xorAssign => some "^="
  | .modAssign => some "%="
  | .lshiftAssign => some "<<="
  | .rshiftAssign => some ">>="
  | .urshiftAssign => some ">>>="
  | .arrow => some "->"
  | .coloncolon => some "::"
  | .atSign => some "@"
  | .ellipsis => some "..."
  | _ => none

/-- How a kind is listed in a message: its spelling in quotes, or else its name. -/
def listed (k : Kind) : String :=
  match k, k.spelling? with
  | .eof, _ => "<EOF>"
  | _, some s => "'" ++ s ++ "'"
  | _, none => k.name

/-- Whether a kind stands between the spelled kinds of the numbering without a spelling of its
own: the literals other than `null`. -/
def isUnspelled (k : Kind) : Bool :=
  k matches .decimalLiteral | .hexLiteral | .octLiteral | .binaryLiteral | .floatLiteral
    | .hexFloatLiteral | .boolLiteral | .charLiteral | .stringLiteral

def wanted (k : Kind) : String :=
  match k with
  | .eof => "EOF"
  | k => if k.isUnspelled then "<INVALID>" else k.listed

/-- Blanks and comments are not seen by the grammar. -/
def isHidden (k : Kind) : Bool :=
  k matches .ws | .comment | .lineComment

end Kind

/-! Sets of kinds, as lists in the order of the numbering without repetition. -/
namespace Kinds

def insert (k : Kind) : List Kind → List Kind
  | [] => [k]
  | j :: js =>
    if k.index < j.index then k :: j :: js
    else if k.index = j.index then j :: js
    else j :: insert k js

def union (ks js : List Kind) : List Kind := ks.foldl (fun acc k => insert k acc) js

def ofList (ks : List Kind) : List Kind := union ks []

def disjoint (ks js : List Kind) : Bool := ks.all fun k => !js.contains k

/-- A set as it stands in a message: one member bare, several in braces. -/
def listed : List Kind → String
  | [] => ""
  | [k] => k.listed
  | ks => "\x7b" ++ ", ".intercalate (ks.map Kind.listed) ++ "\x7d"

end Kinds

end ResourceNames.Java
