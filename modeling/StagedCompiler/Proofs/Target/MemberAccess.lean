import StagedCompiler.Proofs.Target.SiteCoverage

/-!
How fields are reached. A field of a struct is written behind a dot. A pointer
to a struct is followed by an arrow if it is a variable; behind any other
expression of such a type a dot is written too. So the operator follows the
inferred type for structs of any form, and for pointers only if they are names.
-/

namespace StagedCompiler

namespace Target

def isVariable : Tree → Bool
  | .node (.ident _) _ => true
  | _ => false

def memberOp (s : Scope) (base : Tree) : String :=
  if isThroughPtr s base then "->" else "."

theorem Site.text_member {site : Site} {base : Tree} {field : String} {span : Span}
    (h : site.tree = .node (.fieldAccess base field) span) :
    site.text = expr site.scope false base ++ memberOp site.scope base ++ field := by
  rw [Site.text, h, expr, memberOp]

theorem memberOp_struct {s : Scope} {base : Tree} {struct : String}
    (h : infer s base = some (.struct struct)) : memberOp s base = "." := by
  obtain ⟨kind, span⟩ := base
  cases kind with
  | ident name =>
    rw [infer] at h
    simp [memberOp, isThroughPtr, h, CType.isPtr]
  | _ => rfl

theorem memberOp_pointer {s : Scope} {base : Tree} {struct : String}
    (h : infer s base = some (.ptr (.struct struct))) :
    memberOp s base = if isVariable base then "->" else "." := by
  obtain ⟨kind, span⟩ := base
  cases kind with
  | ident name =>
    rw [infer] at h
    simp [memberOp, isThroughPtr, h, CType.isPtr, isVariable]
  | _ => rfl

/-- In every function of a parsed unit, each field access is written with a dot
behind a struct, and behind a pointer to one with an arrow if the pointer is a
variable, else with a dot. -/
theorem member_operator_by_type {src : String} {opts : Options} {parsed : Parsed}
    {f : FunctionItem} (h : parseSource src opts = .ok parsed)
    (hmem : f.tree ∈ parsed.ast.tree.items) (support : SupportForm) :
    ListedIn (f.sites parsed.ast.tree.items) f.body (render parsed.ast.tree support).c ∧
      ∀ site ∈ f.sites parsed.ast.tree.items, ∀ inner, site.Shows inner →
        ∀ base field place, inner.tree = .node (.fieldAccess base field) place →
          ∃ op before after, site.text = before ++ inner.text ++ after ∧
            inner.text = expr site.scope false base ++ op ++ field ∧
            (∀ struct, infer site.scope base = some (.struct struct) → op = ".") ∧
            ∀ struct, infer site.scope base = some (.ptr (.struct struct)) →
              op = if isVariable base then "->" else "." := by
  refine ⟨f.listedIn_of_parseSource h hmem support, ?_⟩
  intro site _ inner hinner base field place htree
  obtain ⟨before, after, htext⟩ := hinner.exists_text
  have hmember := Site.text_member htree
  rw [hinner.scope_eq] at hmember
  exact ⟨memberOp site.scope base, before, after, htext, hmember, fun _ => memberOp_struct,
    fun _ => memberOp_pointer⟩

/-! ### Sample accesses -/

structure MemberView where
  base : String
  type : Option CType
  isVariable : Bool
  field : String
deriving DecidableEq

def Site.memberView? (site : Site) : Option MemberView :=
  match site.tree with
  | .node (.fieldAccess base field) _ =>
    some ⟨expr site.scope false base, infer site.scope base, isVariable base, field⟩
  | _ => none

def memberViews (items : List Tree) : List MemberView :=
  (FunctionItem.among items).flatMap fun f => (f.sites items).filterMap Site.memberView?

/-- Every view is that of a member access at a site of a function. -/
theorem exists_of_mem_memberViews {items : List Tree} {view : MemberView}
    (h : view ∈ memberViews items) :
    ∃ f : FunctionItem, f.tree ∈ items ∧ ∃ site ∈ f.sites items, ∃ base place,
      site.tree = .node (.fieldAccess base view.field) place ∧
        expr site.scope false base = view.base ∧ infer site.scope base = view.type ∧
          isVariable base = view.isVariable := by
  obtain ⟨f, hf, hview⟩ := List.mem_flatMap.mp h
  obtain ⟨⟨s, bare, kind, place⟩, hsite, hsome⟩ := List.mem_filterMap.mp hview
  refine ⟨f, FunctionItem.tree_mem_of_among hf, _, hsite, ?_⟩
  cases kind with
  | fieldAccess base field =>
    cases hsome
    exact ⟨base, place, rfl, rfl, rfl, rfl⟩
  | _ => cases hsome

def linkSource : String :=
  "struct N\x7bnext:&N,v:i64\x7d fn f(a:N)\x7ba.next.v;\x7d"

/-- Behind a field that is a pointer there is no arrow. -/
theorem member_operator_misses_pointers :
    ∃ (parsed : Parsed) (f : FunctionItem), parseSource linkSource {} = .ok parsed ∧
      f.tree ∈ parsed.ast.tree.items ∧ ∃ site ∈ f.sites parsed.ast.tree.items,
        ∃ base field place, site.tree = .node (.fieldAccess base field) place ∧
          infer site.scope base = some (.ptr (.struct "N")) ∧ site.text = "a.next.v" ∧
          site.text ≠ expr site.scope false base ++ "->" ++ field := by
  have hviews : ((parseSource linkSource {}).toOption.map fun parsed =>
      memberViews parsed.ast.tree.items) =
        some [⟨"a.next", some (.ptr (.struct "N")), false, "v"⟩] := by decide +kernel
  obtain ⟨parsed, hparsed, hseen⟩ := exists_parsed_of_view hviews
  obtain ⟨f, hmem, site, hsite, base, place, htree, hbase, htype, hvariable⟩ :=
    exists_of_mem_memberViews (hseen ▸ List.mem_cons_self)
  have htext : site.text = "a.next.v" := by
    rw [Site.text_member htree, memberOp_pointer htype, hbase, hvariable]
    rfl
  refine ⟨parsed, f, hparsed, hmem, site, hsite, base, "v", place, htree, htype, htext, ?_⟩
  rw [htext, hbase]
  decide

def pointSource : String :=
  "struct P\x7bx:i64\x7d fn f(p:&P,q:P)\x7bp.x=q.x;\x7d"

/-- The two forms behind variables. -/
theorem member_operator_by_type_points :
    ∃ parsed : Parsed, parseSource pointSource {} = .ok parsed ∧
      ∀ text ∈ ["p->x", "q.x"], ∃ before after,
        (render parsed.ast.tree .declarations).c = before ++ text ++ after := by
  have hviews : ((parseSource pointSource {}).toOption.map fun parsed =>
      memberViews parsed.ast.tree.items) =
        some [⟨"p", some (.ptr (.struct "P")), true, "x"⟩,
          ⟨"q", some (.struct "P"), true, "x"⟩] := by
    decide +kernel
  obtain ⟨parsed, hparsed, hseen⟩ := exists_parsed_of_view hviews
  refine ⟨parsed, hparsed, ?_⟩
  simp only [List.forall_mem_cons]
  refine ⟨?_, ?_, by simp⟩
  · obtain ⟨f, hmem, site, hsite, base, place, htree, hbase, htype, hvariable⟩ :=
      exists_of_mem_memberViews (hseen ▸ List.mem_cons_self)
    obtain ⟨hlisted, hops⟩ := member_operator_by_type hparsed hmem .declarations
    obtain ⟨op, _, _, -, htext, -, harrow⟩ := hops site hsite site (.self site) base _ place htree
    rw [harrow "P" htype, hbase, hvariable] at htext
    have hplace := hlisted.exists_text hsite
    rwa [htext] at hplace
  · obtain ⟨f, hmem, site, hsite, base, place, htree, hbase, htype, -⟩ :=
      exists_of_mem_memberViews (hseen ▸ List.mem_cons_of_mem _ List.mem_cons_self)
    obtain ⟨hlisted, hops⟩ := member_operator_by_type hparsed hmem .declarations
    obtain ⟨op, _, _, -, htext, hdot, -⟩ := hops site hsite site (.self site) base _ place htree
    rw [hdot "P" htype, hbase] at htext
    have hplace := hlisted.exists_text hsite
    rwa [htext] at hplace

end Target

end StagedCompiler
