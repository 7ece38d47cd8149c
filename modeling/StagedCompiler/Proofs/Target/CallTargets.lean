import StagedCompiler.Proofs.Target.SiteCoverage

/-!
Which function a call reaches. A call by name is written with the name under
which the function is defined and declared, and its inferred type is the result
type of the definition. A function that has the name of one of the support
library is defined under that name all the same, but calls reach the one of the
library. Result types are written with pointers for arrays.
-/

namespace StagedCompiler

namespace Target

namespace FunctionItem

def result (f : FunctionItem) : CType :=
  retType f.name f.ret

def head (f : FunctionItem) : String :=
  f.result.render ++ " " ++ f.name ++ "(" ++ CSyntax.paramText f.name f.params ++ ")"

end FunctionItem

theorem Builtin.find?_cName {name : String} {b : Builtin} (h : find? name = some b) :
    calleeName name = b.cName ∧ b.cName ≠ name := by
  have hall : ∀ b ∈ all, b.cName ≠ b.name := by decide
  have hname : b.name = name := by simpa using List.find?_some h
  constructor
  · rw [calleeName, h]
  · rw [← hname]
    exact hall b (List.mem_of_find?_eq_some h)

theorem Site.text_call {site : Site} {name : String} {args : List Tree} {place span : Span}
    (h : site.tree = .node (.call (.node (.ident name) place) args) span) :
    site.text = calleeName name ++ "(" ++
      ", ".intercalate (args.map (expr site.scope false)) ++ ")" := by
  rw [Site.text, h, expr_call, calleeText]

section

variable {s : Scope} {name : String} {args : List Tree} {place span : Span}

theorem infer_call_of_builtin {b : Builtin} (h : Builtin.find? name = some b) :
    infer s (.node (.call (.node (.ident name) place) args) span) = some b.retType := by
  rw [infer, h]

theorem infer_call_of_fn {sig : Signature} (h : Builtin.find? name = none)
    (hfn : s.fn? name = some sig) :
    infer s (.node (.call (.node (.ident name) place) args) span) = some sig.ret := by
  rw [infer, h, hfn]
  rfl

end

/-- A function is declared and defined with one head. -/
theorem itemText_function (globals : Scope) (f : FunctionItem) :
    ∃ text, itemText globals f.tree =
      { prototype := if f.name = "main" then "" else f.head ++ ";\n"
        definition := f.head ++ " \x7b\n" ++ text } := by
  have hhead : signature f.name f.params f.ret = f.head :=
    CSyntax.signature_eq f.name f.params f.ret
  refine ⟨bodyText globals (f.name = "main") f.params f.body ++
    ((if f.name = "main" then "    return 0;\n" else "") ++ "\x7d\n\n"), ?_⟩
  simp only [FunctionItem.tree, itemText, hhead, decide_eq_true_eq, String.append_assoc]

/-- In a parsed unit whose functions differ in their names, every call by name of
one of them is written with the name in its definition and its prototype, and
has the result type of their head, unless the name is one of the support
library: then the function of the library is called. -/
theorem call_reaches_definition {src : String} {opts : Options} {parsed : Parsed}
    {caller callee : FunctionItem} (h : parseSource src opts = .ok parsed)
    (hdistinct : (parsed.ast.tree.items.filterMap functionName?).Nodup)
    (hcaller : caller.tree ∈ parsed.ast.tree.items) (hcallee : callee.tree ∈ parsed.ast.tree.items)
    (support : SupportForm) :
    ListedIn (caller.sites parsed.ast.tree.items) caller.body (render parsed.ast.tree support).c ∧
      (render parsed.ast.tree support).c = unitText support
        (parsed.ast.tree.items.map (itemText (declarations parsed.ast.tree.items))) ∧
      (∃ text, itemText (declarations parsed.ast.tree.items) callee.tree =
        { prototype := if callee.name = "main" then "" else callee.head ++ ";\n"
          definition := callee.head ++ " \x7b\n" ++ text }) ∧
      ∀ site ∈ caller.sites parsed.ast.tree.items, ∀ inner, site.Shows inner →
        ∀ args place span,
          inner.tree = .node (.call (.node (.ident callee.name) place) args) span →
            ∃ target before after, site.text = before ++ inner.text ++ after ∧
              inner.text = target ++ "(" ++
                ", ".intercalate (args.map (expr site.scope false)) ++ ")" ∧
              (Builtin.find? callee.name = none →
                target = callee.name ∧ infer site.scope inner.tree = some callee.result) ∧
              ∀ b, Builtin.find? callee.name = some b →
                target = b.cName ∧ target ≠ callee.name ∧
                  infer site.scope inner.tree = some b.retType := by
  have hfn := fn?_declarations hdistinct hcallee
  refine ⟨caller.listedIn_of_parseSource h hcaller support, render_eq _ support,
    itemText_function _ callee, ?_⟩
  intro site hsite inner hinner args place span htree
  obtain ⟨before, after, htext⟩ := hinner.exists_text
  have hcall := Site.text_call htree
  have hknown : site.scope.fn? callee.name =
      (declarations parsed.ast.tree.items).fn? callee.name := by
    rw [Scope.fn?, functionSites_fns hsite, Scope.fn?]
  rw [hinner.scope_eq] at hcall
  refine ⟨calleeName callee.name, before, after, htext, hcall, ?_, ?_⟩
  · intro hnone
    rw [htree, infer_call_of_fn hnone (hknown.trans hfn), calleeName, hnone]
    exact ⟨rfl, rfl⟩
  · intro b hb
    obtain ⟨hname, hne⟩ := Builtin.find?_cName hb
    rw [htree, infer_call_of_builtin hb, hname]
    exact ⟨rfl, hne, rfl⟩

/-! ### Sample calls -/

structure CallView where
  callee : String
  type : Option CType
  text : String
deriving DecidableEq

def Site.callView? (site : Site) : Option CallView :=
  match site.tree with
  | .node (.call (.node (.ident name) _) _) _ =>
    some ⟨name, infer site.scope site.tree, site.text⟩
  | _ => none

structure UnitView where
  calls : List CallView
  heads : List (String × String)
  distinct : Bool
deriving DecidableEq

def unitView (items : List Tree) : UnitView where
  calls := (FunctionItem.among items).flatMap fun f => (f.sites items).filterMap Site.callView?
  heads := (FunctionItem.among items).map fun f => (f.name, f.head)
  distinct := decide (items.filterMap functionName?).Nodup

/-- A view is that of a call by name. -/
theorem Site.eq_of_callView? {site : Site} {view : CallView} (h : site.callView? = some view) :
    (∃ args place span,
      site.tree = .node (.call (.node (.ident view.callee) place) args) span) ∧
      infer site.scope site.tree = view.type ∧ site.text = view.text := by
  obtain ⟨s, bare, kind, span⟩ := site
  cases kind with
  | call target args =>
    obtain ⟨targetKind, place⟩ := target
    cases targetKind with
    | ident name =>
      cases h
      exact ⟨⟨args, place, span, rfl⟩, rfl, rfl⟩
    | _ => cases h
  | _ => cases h

/-- A call seen at a site of one function, with the head of the function that it
names. -/
structure SampleCall (items : List Tree) (caller callee : FunctionItem) (site : Site)
    (view : CallView) (head : String) : Prop where
  distinct : (items.filterMap functionName?).Nodup
  caller_mem : caller.tree ∈ items
  callee_mem : callee.tree ∈ items
  site_mem : site ∈ caller.sites items
  name : callee.name = view.callee
  tree : ∃ args place span,
    site.tree = .node (.call (.node (.ident callee.name) place) args) span
  type : infer site.scope site.tree = view.type
  text : site.text = view.text
  head : callee.head = head

/-- A call and a head that were seen in a unit stand in its items. -/
theorem exists_sampleCall {src : String} {calls : List CallView} {heads : List (String × String)}
    (h : ((parseSource src {}).toOption.map fun parsed => unitView parsed.ast.tree.items) =
      some ⟨calls, heads, true⟩) {view : CallView} {head : String} (hcall : view ∈ calls)
    (hhead : (view.callee, head) ∈ heads) :
    ∃ (parsed : Parsed) (caller callee : FunctionItem) (site : Site),
      parseSource src {} = .ok parsed ∧
        SampleCall parsed.ast.tree.items caller callee site view head := by
  obtain ⟨parsed, hparsed, hseen⟩ := exists_parsed_of_view h
  obtain ⟨rfl, rfl, hdistinct⟩ := UnitView.mk.inj hseen
  obtain ⟨caller, hcaller, hview⟩ := List.mem_flatMap.mp hcall
  obtain ⟨site, hsite, hsome⟩ := List.mem_filterMap.mp hview
  obtain ⟨callee, hcallee, hpair⟩ := List.mem_map.mp hhead
  obtain ⟨hname, hcalleeHead⟩ := Prod.mk.inj hpair
  obtain ⟨htree, htype, htext⟩ := Site.eq_of_callView? hsome
  rw [← hname] at htree
  exact ⟨parsed, caller, callee, site, hparsed, of_decide_eq_true hdistinct,
    FunctionItem.tree_mem_of_among hcaller, FunctionItem.tree_mem_of_among hcallee, hsite, hname,
    htree, htype, htext, hcalleeHead⟩

def shadowSource : String :=
  "fn print(x:i64)\x7b\x7d fn g()\x7bprint(1);\x7d"

def rowSource : String :=
  "fn row()->[i64;3]\x7b\x7d fn g()\x7blet x=row();\x7d"

/-- A call of a function with a name of the support library does not reach it,
and a call with an array as its result has another type than the one that is
written in the definition. -/
theorem calls_miss_definitions :
    (∃ (parsed : Parsed) (caller callee : FunctionItem) (site : Site),
      parseSource shadowSource {} = .ok parsed ∧
        SampleCall parsed.ast.tree.items caller callee site
          ⟨"print", some .void, "__pd_print(1)"⟩ "void print(long long x)") ∧
    ∃ (parsed : Parsed) (caller callee : FunctionItem) (site : Site),
      parseSource rowSource {} = .ok parsed ∧
        SampleCall parsed.ast.tree.items caller callee site
          ⟨"row", some (.array .int 3), "row()"⟩ "long long* row(void)" := by
  constructor
  · have hview : ((parseSource shadowSource {}).toOption.map fun parsed =>
        unitView parsed.ast.tree.items) = some
          ⟨[⟨"print", some .void, "__pd_print(1)"⟩],
            [("print", "void print(long long x)"), ("g", "void g(void)")], true⟩ := by
      decide +kernel
    exact exists_sampleCall hview List.mem_cons_self List.mem_cons_self
  · have hview : ((parseSource rowSource {}).toOption.map fun parsed =>
        unitView parsed.ast.tree.items) = some
          ⟨[⟨"row", some (.array .int 3), "row()"⟩],
            [("row", "long long* row(void)"), ("g", "void g(void)")], true⟩ := by
      decide +kernel
    exact exists_sampleCall hview List.mem_cons_self List.mem_cons_self

def sumSource : String :=
  "fn add(a:i64,b:i64)->i64\x7breturn a+b;\x7d fn main()\x7blet x=add(1,add(2,3));\x7d"

theorem call_reaches_definition_sum :
    ∃ (parsed : Parsed) (caller callee : FunctionItem) (site : Site),
      parseSource sumSource {} = .ok parsed ∧
        SampleCall parsed.ast.tree.items caller callee site
          ⟨"add", some .int, "add(1, add(2, 3))"⟩ "long long add(long long a, long long b)" ∧
        ∃ args : List Tree, site.text = callee.name ++ "(" ++
          ", ".intercalate (args.map (expr site.scope false)) ++ ")" ∧
            infer site.scope site.tree = some callee.result := by
  have hview : ((parseSource sumSource {}).toOption.map fun parsed =>
      unitView parsed.ast.tree.items) = some
        ⟨[⟨"add", some .int, "add(1, add(2, 3))"⟩],
          [("add", "long long add(long long a, long long b)"), ("main", "int main(void)")],
          true⟩ := by
    decide +kernel
  obtain ⟨parsed, caller, callee, site, hparsed, hsample⟩ :=
    exists_sampleCall hview List.mem_cons_self List.mem_cons_self
  obtain ⟨args, place, span, htree⟩ := hsample.tree
  obtain ⟨-, -, -, hcalls⟩ := call_reaches_definition hparsed hsample.distinct hsample.caller_mem
    hsample.callee_mem .declarations
  obtain ⟨target, _, _, -, htext, hown, -⟩ :=
    hcalls site hsample.site_mem site (.self site) args place span htree
  have hnone : Builtin.find? callee.name = none := by
    rw [hsample.name]
    decide
  obtain ⟨rfl, htype⟩ := hown hnone
  exact ⟨parsed, caller, callee, site, hparsed, hsample, args, htext, htype⟩

end Target

end StagedCompiler
