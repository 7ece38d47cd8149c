import StagedCompiler.Decimal.Layout
import StagedCompiler.Interner
import StagedCompiler.Span
import StagedCompiler.Text.Utf8

/-!
Tokens of the source language, with the spellings of its keywords and
punctuation.
-/

namespace StagedCompiler

inductive Keyword where
  | fnKw | letKw | mutKw | ifKw | elseKw | whileKw | forKw | inKw | loopKw | returnKw
  | breakKw | continueKw | structKw | enumKw | traitKw | implKw | matchKw | importKw | useKw
  | pubKw | asKw | selfTypeKw | selfValueKw | typeKw | constKw | staticKw | unsafeKw
  | asyncKw | awaitKw | macroKw | externKw | modKw | whereKw | moveKw | refKw | dynKw
  | crateKw | superKw | trueKw | falseKw
deriving DecidableEq

def Keyword.all : List Keyword :=
  [.fnKw, .letKw, .mutKw, .ifKw, .elseKw, .whileKw, .forKw, .inKw, .loopKw, .returnKw,
   .breakKw, .continueKw, .structKw, .enumKw, .traitKw, .implKw, .matchKw, .importKw, .useKw,
   .pubKw, .asKw, .selfTypeKw, .selfValueKw, .typeKw, .constKw, .staticKw, .unsafeKw, .asyncKw,
   .awaitKw, .macroKw, .externKw, .modKw, .whereKw, .moveKw, .refKw, .dynKw, .crateKw,
   .superKw, .trueKw, .falseKw]

def Keyword.spelling : Keyword → String
  | .fnKw => "fn"
  | .letKw => "let"
  | .mutKw => "mut"
  | .ifKw => "if"
  | .elseKw => "else"
  | .whileKw => "while"
  | .forKw => "for"
  | .inKw => "in"
  | .loopKw => "loop"
  | .returnKw => "return"
  | .breakKw => "break"
  | .continueKw => "continue"
  | .structKw => "struct"
  | .enumKw => "enum"
  | .traitKw => "trait"
  | .implKw => "impl"
  | .matchKw => "match"
  | .importKw => "import"
  | .useKw => "use"
  | .pubKw => "pub"
  | .asKw => "as"
  | .selfTypeKw => "Self"
  | .selfValueKw => "self"
  | .typeKw => "type"
  | .constKw => "const"
  | .staticKw => "static"
  | .unsafeKw => "unsafe"
  | .asyncKw => "async"
  | .awaitKw => "await"
  | .macroKw => "macro"
  | .externKw => "extern"
  | .modKw => "mod"
  | .whereKw => "where"
  | .moveKw => "move"
  | .refKw => "ref"
  | .dynKw => "dyn"
  | .crateKw => "crate"
  | .superKw => "super"
  | .trueKw => "true"
  | .falseKw => "false"

def Keyword.ofWord? (word : String) : Option Keyword :=
  Keyword.all.find? (·.spelling == word)

inductive Punct where
  | dotDotEq | dotDotDot | shlEq | shrEq | colonColon | arrow | fatArrow | dotDot | eqEq
  | bangEq | le | ge | shl | shr | andAnd | orOr | plusEq | minusEq | starEq | slashEq
  | percentEq | ampEq | pipeEq | caretEq | lparen | rparen | lbrace | rbrace | lbracket
  | rbracket | semicolon | comma | colon | dot | question | hash | atSign | eq | plus
  | minus | star | slash | percent | amp | pipe | caret | tilde | lt | gt | bang
deriving DecidableEq

/-- Longer spellings stand before shorter ones. -/
def Punct.all : List Punct :=
  [.dotDotEq, .dotDotDot, .shlEq, .shrEq, .colonColon, .arrow, .fatArrow, .dotDot, .eqEq,
   .bangEq, .le, .ge, .shl, .shr, .andAnd, .orOr, .plusEq, .minusEq, .starEq, .slashEq,
   .percentEq, .ampEq, .pipeEq, .caretEq, .lparen, .rparen, .lbrace, .rbrace, .lbracket,
   .rbracket, .semicolon, .comma, .colon, .dot, .question, .hash, .atSign, .eq, .plus, .minus,
   .star, .slash, .percent, .amp, .pipe, .caret, .tilde, .lt, .gt, .bang]

def Punct.spelling : Punct → String
  | .dotDotEq => "..="
  | .dotDotDot => "..."
  | .shlEq => "<<="
  | .shrEq => ">>="
  | .colonColon => "::"
  | .arrow => "->"
  | .fatArrow => "=>"
  | .dotDot => ".."
  | .eqEq => "=="
  | .bangEq => "!="
  | .le => "<="
  | .ge => ">="
  | .shl => "<<"
  | .shr => ">>"
  | .andAnd => "&&"
  | .orOr => "||"
  | .plusEq => "+="
  | .minusEq => "-="
  | .starEq => "*="
  | .slashEq => "/="
  | .percentEq => "%="
  | .ampEq => "&="
  | .pipeEq => "|="
  | .caretEq => "^="
  | .lparen => "("
  | .rparen => ")"
  | .lbrace => "\x7b"
  | .rbrace => "\x7d"
  | .lbracket => "["
  | .rbracket => "]"
  | .semicolon => ";"
  | .comma => ","
  | .colon => ":"
  | .dot => "."
  | .question => "?"
  | .hash => "#"
  | .atSign => "@"
  | .eq => "="
  | .plus => "+"
  | .minus => "-"
  | .star => "*"
  | .slash => "/"
  | .percent => "%"
  | .amp => "&"
  | .pipe => "|"
  | .caret => "^"
  | .tilde => "~"
  | .lt => "<"
  | .gt => ">"
  | .bang => "!"

def Punct.lexemes : List (List UInt8 × Punct) :=
  Punct.all.map fun p => (Text.bytes p.spelling, p)

/-- The longest punctuation that the bytes start with. -/
def Punct.atFront? (bytes : List UInt8) : Option Punct :=
  (Punct.lexemes.find? fun entry => entry.1.isPrefixOf bytes).map (·.2)

inductive TokenKind where
  /-- The end of the source. -/
  | eof
  | int (value : Int)
  | float (value : Double)
  | str (text : Symbol)
  | char (value : UInt8)
  | ident (name : Symbol)
  | keyword (word : Keyword)
  | punct (mark : Punct)
deriving DecidableEq

structure Token where
  kind : TokenKind
  span : Span
deriving DecidableEq

namespace TokenKind

/-- Floating-point values in messages and listings: all digits, never an
exponent, and no mark on whole numbers. -/
def floatLayout : Decimal.Layout where
  positional _ := true
  wholeMark := false
  plusSign := false
  tie := .up
  notANumber := "NaN"
  infinity := "inf"
  negativeInfinity := "-inf"

def describe : TokenKind → String
  | eof => "end of file"
  | int value => s!"integer `{value}`"
  | float value => "float `" ++ floatLayout.render value ++ "`"
  | str _ => "string literal"
  | char _ => "char literal"
  | ident _ => "identifier"
  | keyword word => "`" ++ word.spelling ++ "`"
  | punct mark => "`" ++ mark.spelling ++ "`"

end TokenKind

end StagedCompiler
