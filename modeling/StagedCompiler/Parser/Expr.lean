import StagedCompiler.Parser.Type

/-!
Expressions, by precedence climbing. The first argument of each reader is the
nesting still allowed: every operand, every infix operator of a chain and
every postfix operation of a chain takes one level, which is given back at the
end of the operand or chain.
-/

namespace StagedCompiler

inductive InfixOp where
  | binary (op : BinaryOp)
  | range (inclusive : Bool)
deriving DecidableEq

def InfixOp.node {Name Child : Type} (lhs rhs : Child) : InfixOp → NodeKind Name Child
  | binary op => .binary op lhs rhs
  | range inclusive => .range lhs rhs inclusive

/-- The precedence and meaning of an infix token; a higher number binds
tighter. -/
def Punct.infixOp? : Punct → Option (Nat × InfixOp)
  | .dotDot => some (1, .range false)
  | .dotDotEq => some (1, .range true)
  | .orOr => some (2, .binary .or)
  | .andAnd => some (3, .binary .and)
  | .pipe => some (4, .binary .bitOr)
  | .caret => some (5, .binary .bitXor)
  | .amp => some (6, .binary .bitAnd)
  | .eqEq => some (7, .binary .eq)
  | .bangEq => some (7, .binary .ne)
  | .lt => some (8, .binary .lt)
  | .le => some (8, .binary .le)
  | .gt => some (8, .binary .gt)
  | .ge => some (8, .binary .ge)
  | .shl => some (9, .binary .shl)
  | .shr => some (9, .binary .shr)
  | .plus => some (10, .binary .add)
  | .minus => some (10, .binary .sub)
  | .star => some (11, .binary .mul)
  | .slash => some (11, .binary .div)
  | .percent => some (11, .binary .rem)
  | _ => none

def TokenKind.infixOp? : TokenKind → Option (Nat × InfixOp)
  | .punct mark => mark.infixOp?
  | _ => none

def Keyword.truth? : Keyword → Option Bool
  | .trueKw => some true
  | .falseKw => some false
  | _ => none

def TokenKind.literal? : TokenKind → Option (NodeKind Symbol NodeId)
  | .int v => some (.int v)
  | .float v => some (.float v)
  | .str sym => some (.str sym)
  | .char c => some (.char c)
  | .keyword word => word.truth?.map .bool
  | _ => none

inductive TokenKind.IsLiteral : TokenKind → NodeKind Symbol NodeId → Prop
  | int (v : Int) : IsLiteral (.int v) (.int v)
  | float (v : Double) : IsLiteral (.float v) (.float v)
  | str (sym : Symbol) : IsLiteral (.str sym) (.str sym)
  | char (v : UInt8) : IsLiteral (.char v) (.char v)
  | bool {word : Keyword} {v : Bool} (h : word.truth? = some v) :
      IsLiteral (.keyword word) (.bool v)

theorem TokenKind.isLiteral {kind : TokenKind} {node : NodeKind Symbol NodeId}
    (h : kind.literal? = some node) : kind.IsLiteral node := by
  cases kind with
  | keyword word =>
    obtain ⟨value, hvalue, rfl⟩ := Option.map_eq_some_iff.mp h
    exact .bool hvalue
  | int _ | float _ | str _ | char _ =>
    cases h
    constructor
  | eof | ident _ | punct _ => cases h

namespace Parser

/-- Whether the front tokens open the body of a struct literal: an empty one,
or one that starts with a field name and a colon. -/
def isAtStructBody : Parser Bool := do
  if ← isAt (.punct .lbrace) then
    match (← peek 1).kind, (← peek 2).kind with
    | .punct .rbrace, _ => return true
    | .ident _, .punct .colon => return true
    | _, _ => return false
  else return false

def fieldInit (nested : Parser Built) : Parser (FieldInit Symbol NodeId) := do
  let (name, span) ← expectIdent
  let _ ← expect (.punct .colon)
  let value ← nested
  return ⟨name, value.id, span.to value.span⟩

def structLiteral (nested : Parser Built) (name : Symbol) (start : Span) : Parser Built := do
  let _ ← expect (.punct .lbrace)
  let fields ← commaList (.punct .rbrace) (fieldInit nested)
  let close ← expect (.punct .rbrace)
  build (.structLit name fields) (start.to close)

def arrayLiteral (nested : Parser Built) : Parser Built := do
  let start ← expect (.punct .lbracket)
  let elems ← commaList (.punct .rbracket) nested
  let close ← expect (.punct .rbracket)
  build (.arrayLit (elems.map (·.id))) (start.to close)

def literal (kind : NodeKind Symbol NodeId) (span : Span) : Parser Built := do
  advance
  build kind span

/-- A literal, a name, or an expression in brackets; `nested` reads what
stands inside brackets. In a header a name is never followed by a struct body.
If nothing of that kind stands at the front, the fault is reported, the token
stays, and a zero is built in its place. -/
def primary (nested : Parser Built) (inHeader : Bool) : Parser Built := do
  let t ← current
  match t.kind.literal? with
  | some kind => literal kind t.span
  | none =>
    match t.kind with
    | .ident sym =>
      advance
      if !inHeader && (← isAtStructBody) then structLiteral nested sym t.span
      else build (.ident sym) t.span
    | .punct .lparen =>
      advance
      let inner ← nested
      let _ ← expect (.punct .rparen)
      return inner
    | .punct .lbracket => arrayLiteral nested
    | found =>
      fault (.expected "expression" found) t.span
      build (.int 0) t.span

def prefixOp? : TokenKind → Option UnaryOp
  | .punct .bang => some .not
  | .punct .minus => some .neg
  | .punct .star => some .deref
  | _ => none

def applyPrefix (operand : Parser Built) (op : UnaryOp) (start : Span) : Parser Built := do
  let x ← operand
  build (.unary op x.id) (start.to x.span)

/-- An operand with its prefixes; `operand` reads one more operand, `bare` one
without prefixes. Two ampersands in one token make two references. -/
def prefixed (operand bare : Parser Built) : Parser Built := do
  let t ← current
  match t.kind with
  | .punct .amp =>
    advance
    let op := if ← eat (.keyword .mutKw) then UnaryOp.refMut else .ref
    applyPrefix operand op t.span
  | .punct .andAnd =>
    advance
    let inner ← applyPrefix operand .ref (← current).span
    build (.unary .ref inner.id) (t.span.to inner.span)
  | kind =>
    match prefixOp? kind with
    | some op =>
      advance
      applyPrefix operand op t.span
    | none => bare

/-- A call, an element or a field of `base`, if one follows. -/
def postfixStep (nested : Parser Built) (base : Built) : Parser Built := do
  let t ← current
  match t.kind with
  | .punct .lparen =>
    advance
    let args ← commaList (.punct .rparen) nested
    let close ← expect (.punct .rparen)
    build (.call base.id (args.map (·.id))) (base.span.to close)
  | .punct .lbracket =>
    advance
    let index ← nested
    let close ← expect (.punct .rbracket)
    build (.index base.id index.id) (base.span.to close)
  | .punct .dot =>
    advance
    let (field, close) ← expectIdent
    build (.fieldAccess base.id field) (base.span.to close)
  | _ => return base

def opensPostfix : TokenKind → Bool
  | .punct .lparen | .punct .lbracket | .punct .dot => true
  | _ => false

mutual

def unary : Nat → Bool → Parser Built
  | 0, _ => tooDeep
  | depth + 1, inHeader =>
    let nested : Parser Built := do infixChain depth false 1 (← unary depth false)
    prefixed (unary depth inHeader) do postfixChain depth (← primary nested inHeader)

def postfixChain : Nat → Built → Parser Built
  | 0, base => do if opensPostfix (← current).kind then tooDeep else return base
  | depth + 1, base => do
    if opensPostfix (← current).kind then
      let nested : Parser Built := do infixChain depth false 1 (← unary depth false)
      postfixChain depth (← postfixStep nested base)
    else return base

/-- The infix operators of at least the given precedence behind `lhs`, from
left to right. -/
def infixChain : Nat → Bool → Nat → Built → Parser Built
  | 0, _, least, lhs => do
    match (← current).kind.infixOp? with
    | some (precedence, _) => if precedence < least then return lhs else tooDeep
    | none => return lhs
  | depth + 1, inHeader, least, lhs => do
    match (← current).kind.infixOp? with
    | some (precedence, op) =>
      if precedence < least then return lhs
      else
        advance
        let rhs ← infixChain depth inHeader (precedence + 1) (← unary depth inHeader)
        let whole ← build (op.node lhs.id rhs.id) (lhs.span.to rhs.span)
        infixChain depth inHeader least whole
    | none => return lhs

end

/-- An expression nested at most `depth` levels deep. In the header of a
control statement a name is never followed by a struct body. -/
def expr (depth : Nat) (inHeader : Bool) : Parser Built := do
  infixChain depth inHeader 1 (← unary depth inHeader)

end Parser

end StagedCompiler
