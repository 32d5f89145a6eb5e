import LoxMachine.Source

/-!
# Tokens

The kinds of token, their names, and the one-line form in which token lists are
shown.
-/

namespace LoxMachine

/-- The reserved words. -/
inductive Keyword where
  | ifWord
  | elseWord
  | whileWord
  | forWord
  | returnWord
  | printWord
  | assertWord
  | thisWord
  | superWord
  | andWord
  | orWord
  | varWord
  | funWord
  | classWord
  | nilWord
  | falseWord
  | trueWord
  deriving DecidableEq

namespace Keyword

def all : List Keyword :=
  [.ifWord, .elseWord, .whileWord, .forWord, .returnWord, .printWord, .assertWord,
    .thisWord, .superWord, .andWord, .orWord, .varWord, .funWord, .classWord,
    .nilWord, .falseWord, .trueWord]

/-- How a keyword is written in a program. -/
def spelling : Keyword → Bytes
  | .ifWord => utf8 "if"
  | .elseWord => utf8 "else"
  | .whileWord => utf8 "while"
  | .forWord => utf8 "for"
  | .returnWord => utf8 "return"
  | .printWord => utf8 "print"
  | .assertWord => utf8 "assert"
  | .thisWord => utf8 "this"
  | .superWord => utf8 "super"
  | .andWord => utf8 "and"
  | .orWord => utf8 "or"
  | .varWord => utf8 "var"
  | .funWord => utf8 "fun"
  | .classWord => utf8 "class"
  | .nilWord => utf8 "nil"
  | .falseWord => utf8 "false"
  | .trueWord => utf8 "true"

/-- The keyword with that spelling. -/
def ofSpelling? (text : Bytes) : Option Keyword :=
  all.find? fun k => k.spelling = text

end Keyword

/-- The kinds of token. -/
inductive Kind where
  | eof
  | leftBrace
  | rightBrace
  | leftParen
  | rightParen
  | minus
  | star
  | slash
  | semicolon
  | comma
  | dot
  | plus
  | bang
  | bangEqual
  | equal
  | equalEqual
  | less
  | lessEqual
  | greater
  | greaterEqual
  | keyword (word : Keyword)
  | number
  | string
  | identifier
  deriving DecidableEq

namespace Kind

/-- Every kind, in the order of their numbers. -/
def all : List Kind :=
  [.eof, .leftBrace, .rightBrace, .leftParen, .rightParen, .minus, .star, .slash,
    .semicolon, .comma, .dot, .plus, .bang, .bangEqual, .equal, .equalEqual, .less,
    .lessEqual, .greater, .greaterEqual]
    ++ Keyword.all.map Kind.keyword
    ++ [.number, .string, .identifier]

/-- The kind of a number. -/
def ofInt? : Int → Option Kind
  | .ofNat n => all[n]?
  | .negSucc _ => none

/-- The name of a kind; a keyword is named by its spelling in capitals. -/
def name : Kind → Bytes
  | .eof => utf8 "EOF"
  | .leftBrace => utf8 "LEFT_BRACE"
  | .rightBrace => utf8 "RIGHT_BRACE"
  | .leftParen => utf8 "LEFT_PAREN"
  | .rightParen => utf8 "RIGHT_PAREN"
  | .minus => utf8 "MINUS"
  | .star => utf8 "STAR"
  | .slash => utf8 "SLASH"
  | .semicolon => utf8 "SEMICOLON"
  | .comma => utf8 "COMMA"
  | .dot => utf8 "DOT"
  | .plus => utf8 "PLUS"
  | .bang => utf8 "BANG"
  | .bangEqual => utf8 "BANG_EQUAL"
  | .equal => utf8 "EQUAL"
  | .equalEqual => utf8 "EQUAL_EQUAL"
  | .less => utf8 "LESS"
  | .lessEqual => utf8 "LESS_EQUAL"
  | .greater => utf8 "GREATER"
  | .greaterEqual => utf8 "GREATER_EQUAL"
  | .keyword word => word.spelling.map Bytes.upperByte
  | .number => utf8 "NUMBER"
  | .string => utf8 "STRING"
  | .identifier => utf8 "IDENTIFIER"

/-- The name of the kind of a number, where a number of no kind is shown as such. -/
def nameOfInt (n : Int) : Bytes :=
  match ofInt? n with
  | some kind => kind.name
  | none => utf8 "Kind(" ++ Bytes.decimalInt n ++ utf8 ")"

def keyword? : Kind → Option Keyword
  | .keyword word => some word
  | _ => none

/-- The width of the longest kind name. -/
def widest : Nat :=
  (all.map fun kind => kind.name.length).foldl max 0

end Kind

/-- A kind, the text it was read from and where that text stands. -/
structure Token where
  kind : Kind
  text : Bytes
  range : Range
  deriving DecidableEq

namespace Token

/-- One line: the kind, the offsets and the text between bars. -/
def toText (token : Token) : Bytes :=
  Bytes.padRight Kind.widest token.kind.name
    ++ utf8 " [" ++ Bytes.padLeft 4 (Bytes.decimal token.range.start)
    ++ utf8 "..<" ++ Bytes.padLeft 4 (Bytes.decimal token.range.stop)
    ++ utf8 "] |" ++ token.text ++ utf8 "|"

/-- A token list, one line each. -/
def dump (tokens : List Token) : Bytes :=
  Bytes.join (utf8 "\n") (tokens.map toText)

end Token

end LoxMachine
