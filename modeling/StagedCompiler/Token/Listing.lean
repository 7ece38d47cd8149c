import StagedCompiler.Text.Quoted
import StagedCompiler.Token.Lexer

/-!
The listing of a source's tokens, one to a line with its place.
-/

namespace StagedCompiler

/-- A token as listings show it: names and literals with their content. -/
def TokenKind.listed (names : Interner) : TokenKind → String
  | ident name => "identifier `" ++ names.resolve name ++ "`"
  | str text => "string " ++ Text.quoteString (names.resolve text)
  | char value => "char " ++ Text.quoteChar (Char.ofNat value.toNat)
  | kind => kind.describe

def Token.line (names : Interner) (t : Token) : String :=
  s!"{t.span.line}:{t.span.col} " ++ t.kind.listed names ++ "\n"

def Lexed.listing (l : Lexed) : String :=
  String.join (l.tokens.toList.map (Token.line l.names))

end StagedCompiler
