import StagedCompiler.Parser.Expr

/-!
Statements and blocks. As for expressions, the first argument is the nesting
still allowed; blocks and conditionals take a level each.
-/

namespace StagedCompiler

def TokenKind.assignOp? : TokenKind → Option AssignOp
  | .punct .eq => some .assign
  | .punct .plusEq => some .add
  | .punct .minusEq => some .sub
  | .punct .starEq => some .mul
  | .punct .slashEq => some .div
  | .punct .percentEq => some .rem
  | .punct .ampEq => some .bitAnd
  | .punct .pipeEq => some .bitOr
  | .punct .caretEq => some .bitXor
  | .punct .shlEq => some .shl
  | .punct .shrEq => some .shr
  | _ => none

namespace Parser

def after {α : Type} (k : TokenKind) (item : Parser α) : Parser (Option α) := do
  if ← eat k then return some (← item) else return none

/-- A declaration `let [mut] name [: type] [= expr];`. -/
def letStmt (depth : Nat) : Parser Built := do
  let start ← expect (.keyword .letKw)
  let mutable ← eat (.keyword .mutKw)
  let (name, _) ← expectIdent
  let ty ← after (.punct .colon) (type depth)
  let init ← after (.punct .eq) (expr depth false)
  let close ← expect (.punct .semicolon)
  build (.letStmt name mutable (ty.map (·.id)) (init.map (·.id))) (start.to close)

/-- A statement `return [expr];`. -/
def returnStmt (depth : Nat) (start : Span) : Parser Built := do
  advance
  let bare := (← isAt (.punct .semicolon)) || (← isAt (.punct .rbrace))
  let value ← if bare then pure none else some <$> expr depth false
  let close ← expect (.punct .semicolon)
  build (.returnStmt (value.map (·.id))) (start.to close)

def jump (kind : NodeKind Symbol NodeId) (start : Span) : Parser Built := do
  advance
  let close ← expect (.punct .semicolon)
  build kind (start.to close)

/-- An assignment or an expression; one token behind the first expression
decides which. -/
def exprOrAssign (depth : Nat) : Parser Built := do
  let lhs ← expr depth false
  match (← current).kind.assignOp? with
  | some op =>
    if !lhs.node.kind.isPlace then fault .notAPlace lhs.span
    advance
    let value ← expr depth false
    let close ← expect (.punct .semicolon)
    build (.assign lhs.id op value.id) (lhs.span.to close)
  | none =>
    let close ← expect (.punct .semicolon)
    build (.exprStmt lhs.id) (lhs.span.to close)

def stmt (depth : Nat) (block conditional : Parser Built) : Parser Built := do
  let t ← current
  match t.kind with
  | .keyword .letKw => letStmt depth
  | .keyword .returnKw => returnStmt depth t.span
  | .keyword .ifKw => conditional
  | .keyword .whileKw =>
    advance
    let cond ← expr depth true
    let body ← block
    build (.whileStmt cond.id body.id) (t.span.to body.span)
  | .keyword .forKw =>
    advance
    let (var, _) ← expectIdent
    let _ ← expect (.keyword .inKw)
    let iter ← expr depth true
    let body ← block
    build (.forStmt var iter.id body.id) (t.span.to body.span)
  | .keyword .breakKw => jump .breakStmt t.span
  | .keyword .continueKw => jump .continueStmt t.span
  | .punct .lbrace => block
  | _ => exprOrAssign depth

def consumed : Parser Nat :=
  fun _ s => .ok (s.consumed, s)

/-- At most `fuel` statements, up to a closing brace. Lone semicolons are
passed over. A statement that took no token is dropped together with the token
that stood in its way. -/
def stmtsUntil (stmt : Parser Built) : Nat → Array NodeId → Parser (List NodeId)
  | 0, done => return done.toList
  | fuel + 1, done => do
    if (← isAt (.punct .rbrace)) || (← isAt .eof) then return done.toList
    if ← eat (.punct .semicolon) then stmtsUntil stmt fuel done
    else
      let before ← consumed
      let s ← stmt
      if (← consumed) = before then
        advance
        stmtsUntil stmt fuel done
      else stmtsUntil stmt fuel (done.push s.id)

def braced (stmt : Parser Built) : Parser Built := do
  let start ← expect (.punct .lbrace)
  let stmts ← stmtsUntil stmt (← rounds) #[]
  let close ← expect (.punct .rbrace)
  build (.block stmts) (start.to close)

def ifElse (depth : Nat) (block conditional : Parser Built) : Parser Built := do
  let start ← expect (.keyword .ifKw)
  let cond ← expr depth true
  let thenBranch ← block
  let elseBranch ← after (.keyword .elseKw) do
    if ← isAt (.keyword .ifKw) then conditional else block
  let last := elseBranch.getD thenBranch
  build (.ifStmt cond.id thenBranch.id (elseBranch.map (·.id))) (start.to last.span)

mutual

def block : Nat → Parser Built
  | 0 => tooDeep
  | depth + 1 => braced (stmt depth (block depth) (conditional depth))

def conditional : Nat → Parser Built
  | 0 => tooDeep
  | depth + 1 => ifElse depth (block depth) (conditional depth)

end

end Parser

end StagedCompiler
