import StagedCompiler.Parser.Basic

/-!
Types: names, references and arrays.
-/

namespace StagedCompiler.Parser

/-- The length of an array type. One that is missing or negative is reported
and taken as zero. -/
def arrayLength : Parser Nat := do
  let t ← current
  let missing : Parser Nat := do
    fault (.expected "array length" t.kind) t.span
    return 0
  match t.kind with
  | .int n =>
    if 0 ≤ n then
      advance
      return n.toNat
    else missing
  | _ => missing

def type : Nat → Parser Built
  | 0 => tooDeep
  | depth + 1 => do
    let t ← current
    match t.kind with
    | .punct .amp =>
      advance
      let mutable ← eat (.keyword .mutKw)
      let inner ← type depth
      build (.refType mutable inner.id) (t.span.to inner.span)
    | .punct .lbracket =>
      advance
      let elem ← type depth
      let _ ← expect (.punct .semicolon)
      let len ← arrayLength
      let close ← expect (.punct .rbracket)
      build (.arrayType elem.id len) (t.span.to close)
    | .ident sym =>
      advance
      match PrimType.ofName? (← resolve sym) with
      | some prim => build (.primType prim) t.span
      | none => build (.namedType sym) t.span
    | found =>
      fault (.expected "type" found) t.span
      build (.namedType (← intern missingName)) t.span

end StagedCompiler.Parser
