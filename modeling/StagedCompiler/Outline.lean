import StagedCompiler.Ast
import StagedCompiler.Text.Quoted
import StagedCompiler.Token.Basic

/-!
The outline of a tree: a line for each node, indented by its depth, with the
kind of the node and what it holds besides its children.
-/

namespace StagedCompiler

def NodeKind.detail {Child : Type} : NodeKind String Child → String
  | function name isPublic .. => " " ++ (if isPublic then "pub " else "") ++ name
  | struct name _ | field name _ | param name .. | letStmt name .. | structLit name _
  | ident name | forStmt name .. => " " ++ name
  | importPath path => " " ++ "::".intercalate path
  | fieldAccess _ name => " ." ++ name
  | assign _ op _ => " " ++ op.text
  | binary op .. => " " ++ op.text
  | unary op _ => " " ++ op.text
  | range _ _ inclusive => if inclusive then " ..=" else " .."
  | int value => " " ++ toString value
  | float value => " " ++ TokenKind.floatLayout.render value
  | str text => " " ++ Text.quoteString text
  | char value => " " ++ Text.quoteChar (Char.ofNat value.toNat)
  | bool value => if value then " true" else " false"
  | primType type => " " ++ type.name
  | namedType name => " " ++ name
  | arrayType _ len => " [; " ++ toString len ++ "]"
  | refType mutable _ => if mutable then " &mut" else " &"
  | program _ | block _ | returnStmt _ | exprStmt _ | ifStmt .. | whileStmt .. | breakStmt
  | continueStmt | call .. | index .. | arrayLit _ => ""

namespace Tree

def outlineIndent (depth : Nat) : String :=
  String.ofList (List.replicate (2 * depth) ' ')

def outlineLines (t : Tree) : Nat → List String :=
  t.fold fun kind _ children depth =>
    (outlineIndent depth ++ kind.label ++ kind.detail ++ "\n") ::
      children.flatMap fun lines => lines (depth + 1)

def outline (t : Tree) : String :=
  String.join (t.outlineLines 0)

end Tree

end StagedCompiler
