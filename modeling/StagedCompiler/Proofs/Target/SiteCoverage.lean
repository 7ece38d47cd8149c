import StagedCompiler.Proofs.Target.ExprSites

/-!
The sites of a body leave nothing out. In a tree of the shape that parsing
gives, every field access and every call that has a C form is written at one of
the sites or inside its expression, and at all of them the functions of the
unit are known.
-/

namespace StagedCompiler.Target

/-! ### All that is written -/

/-- The children of a node that are written if the node is. Ranges are written
in the heads of loops only, and no other loop is written. -/
def writtenParts : NodeKind String Tree → List Tree
  | .range .. => []
  | .forStmt _ (.node (.range start stop _) _) body => [start, stop, body]
  | .forStmt .. => []
  | kind => kind.children

/-- The second tree is the first one or a written part of it. -/
inductive WrittenIn : Tree → Tree → Prop
  | self (t : Tree) : WrittenIn t t
  | part {kind : NodeKind String Tree} {t u : Tree} (span : Span) :
      t ∈ writtenParts kind → WrittenIn t u → WrittenIn (.node kind span) u

def isAccessOrCall : NodeKind String Tree → Bool
  | .fieldAccess .. | .call .. => true
  | _ => false

/-- Each field access and each call of the tree is written at one of the sites
or inside its expression. -/
def Covers (sites : List Site) (t : Tree) : Prop :=
  ∀ u, WrittenIn t u → isAccessOrCall u.kind = true →
    ∃ site ∈ sites, ∃ inner, site.Shows inner ∧ inner.tree = u

section

variable {n : Nat} {sites sites' : List Site} {t : Tree}

theorem Covers.mono (h : Covers sites t) (hsites : sites ⊆ sites') : Covers sites' t := by
  intro u hu hkind
  obtain ⟨site, hsite, hinner⟩ := h u hu hkind
  exact ⟨site, hsites hsite, hinner⟩

/-- A node that is no such expression itself is covered with its parts. -/
theorem covers_node {kind : NodeKind String Tree} {span : Span}
    (hkind : isAccessOrCall kind = false) (h : ∀ t ∈ writtenParts kind, Covers sites t) :
    Covers sites (.node kind span) := by
  intro u hu haccess
  cases hu with
  | self => exact absurd (hkind.symm.trans haccess) (by decide)
  | part _ hpart hu => exact h _ hpart u hu haccess

theorem covers_type (h : Shape.TypeAt n t) : Covers sites t := by
  induction h with
  | prim | named =>
    apply covers_node rfl
    simp [writtenParts, NodeKind.children]
  | array len span _ ih | ref mutable span _ ih =>
    apply covers_node rfl
    simpa [writtenParts, NodeKind.children] using ih

theorem writtenParts_subset {kind : NodeKind String Tree} (hexpr : kind.isExpr = true) :
    writtenParts kind ⊆ kind.children := by
  cases kind with
  | range => exact List.nil_subset _
  | forStmt => cases hexpr
  | _ => exact fun _ ht => ht

/-- What is written of an expression is written as a part of it, but for the
name of a function that is called. -/
theorem mem_exprParts {kind : NodeKind String Tree} (hexpr : kind.isExpr = true)
    (ht : t ∈ writtenParts kind) :
    (∃ bare, (bare, t) ∈ exprParts kind) ∨ ∃ name span, t = .node (.ident name) span := by
  cases kind with
  | binary op lhs rhs =>
    left
    rcases List.mem_pair.mp ht with rfl | rfl <;> exact ⟨false, by simp [exprParts]⟩
  | index base place =>
    left
    rcases List.mem_pair.mp ht with rfl | rfl <;> exact ⟨false, by simp [exprParts]⟩
  | unary op operand =>
    cases List.mem_singleton.mp ht
    exact .inl ⟨false, List.mem_cons_self⟩
  | fieldAccess base field =>
    cases List.mem_singleton.mp ht
    exact .inl ⟨false, List.mem_cons_self⟩
  | call callee args =>
    obtain ⟨kind, span⟩ := callee
    rcases List.mem_cons.mp ht with rfl | harg
    · cases kind with
      | ident name => exact .inr ⟨name, span, rfl⟩
      | _ => exact .inl ⟨false, List.mem_cons_self⟩
    · have hpart : (false, t) ∈ args.map (false, ·) := List.mem_map_of_mem harg
      left
      cases kind with
      | ident name => exact ⟨false, hpart⟩
      | _ => exact ⟨false, List.mem_cons_of_mem _ hpart⟩
  | arrayLit elems => exact .inl ⟨true, List.mem_map_of_mem ht⟩
  | structLit name fields =>
    obtain ⟨field, hfield, rfl⟩ := List.mem_map.mp ht
    exact .inl ⟨true, List.mem_map_of_mem hfield⟩
  | ident | int | float | str | char | bool | range => cases ht
  | _ => cases hexpr

theorem all_isExpr (h : Shape.Expr n t) : t.all NodeKind.isExpr = true := by
  have hclosed : Shape.ExprClosed fun t => t.all NodeKind.isExpr = true :=
    fun _ _ hexpr hparts => Tree.all_node.mpr ⟨hexpr, hparts⟩
  exact Shape.expr_closed hclosed h

/-- An access or a call that is written in an expression is shown by its site. -/
theorem exists_shows (h : t.all NodeKind.isExpr = true) {u : Tree} (hu : WrittenIn t u)
    (haccess : isAccessOrCall u.kind = true) (s : Scope) (bare : Bool) :
    ∃ inner, (⟨s, bare, t⟩ : Site).Shows inner ∧ inner.tree = u := by
  induction hu generalizing bare with
  | self t => exact ⟨_, .self _, rfl⟩
  | @part kind part u span hpart hu ih =>
    obtain ⟨hexpr, hparts⟩ := Tree.all_node.mp h
    have hchild := hparts part (writtenParts_subset hexpr hpart)
    -- a name that is called has no site of its own, and nothing is written in it
    rcases mem_exprParts hexpr hpart with ⟨bare', hmem⟩ | ⟨name, place, rfl⟩
    · obtain ⟨inner, hinner, htree⟩ := ih hchild haccess bare'
      exact ⟨inner, .part (List.mem_map_of_mem hmem) hinner, htree⟩
    · cases hu with
      | self => cases haccess
      | part _ hnone => cases hnone

theorem covers_expr (h : t.all NodeKind.isExpr = true) {s : Scope} {bare : Bool}
    (hsite : ⟨s, bare, t⟩ ∈ sites) : Covers sites t :=
  fun _ hu haccess => ⟨_, hsite, exists_shows h hu haccess s bare⟩

/-- The sites of a condition cover every access and call in it. -/
theorem covers_condition (h : t.all NodeKind.isExpr = true) (s : Scope) :
    Covers (conditionSites s t) t := by
  intro u hu haccess
  obtain ⟨kind, span⟩ := t
  obtain ⟨inner, hinner, htree⟩ := exists_shows h hu haccess s false
  cases kind with
  | binary op lhs rhs =>
    cases hinner with
    | self =>
      subst htree
      cases haccess
    | part hpart hinner => exact ⟨_, hpart, inner, hinner, htree⟩
  | _ => exact ⟨_, List.mem_singleton_self _, inner, hinner, htree⟩

theorem covers_stmts {ts : List Tree} (h : ∀ t ∈ ts, ∀ s, Covers (stmtSites s t).1 t) (s : Scope) :
    ∀ t ∈ ts, Covers (stmtsSites s ts).1 t := by
  induction ts generalizing s with
  | nil => simp
  | cons first ts ih =>
    intro t ht
    rw [stmtsSites]
    rcases List.mem_cons.mp ht with rfl | ht
    · exact (h t List.mem_cons_self s).mono (List.subset_append_left _ _)
    · have hrest := ih (fun u hu => h u (List.mem_cons_of_mem _ hu)) (stmtSites s first).2 t ht
      exact hrest.mono (List.subset_append_right _ _)

end

theorem covers_forStmt {var : String} {iter body : Tree} (hiter : iter.all NodeKind.isExpr = true)
    (hbody : ∀ s, Covers (stmtSites s body).1 body) (span : Span) (s : Scope) :
    Covers (stmtSites s (.node (.forStmt var iter body) span)).1
      (.node (.forStmt var iter body) span) := by
  obtain ⟨kind, place⟩ := iter
  apply covers_node rfl
  cases kind with
  | range start stop inclusive =>
    have hends := (Tree.all_node.mp hiter).2
    rw [stmtSites, writtenParts]
    simp only [List.forall_mem_cons]
    refine ⟨?_, ?_, ?_, by simp⟩
    · exact covers_expr (hends start (by simp [NodeKind.children])) List.mem_cons_self
    · exact covers_expr (hends stop (by simp [NodeKind.children]))
        (List.mem_cons_of_mem _ List.mem_cons_self)
    · exact (hbody _).mono (List.subset_append_right _ _)
  | _ => exact fun _ hnone => by cases hnone

mutual

/-- No field access and no call of a statement is left out of its sites. -/
theorem stmt_covers {n : Nat} {t : Tree} (h : Shape.StmtAt n t) (s : Scope) :
    Covers (stmtSites s t).1 t := by
  match h with
  | @Shape.StmtAt.letStmt _ type init name mutable span htype hinit =>
    rw [stmtSites]
    apply covers_node rfl
    intro t ht
    rcases List.mem_append.mp ht with ht | ht
    · exact covers_type (htype t (Option.mem_toList.mp ht))
    · exact covers_expr (all_isExpr (hinit t (Option.mem_toList.mp ht))) (List.mem_map_of_mem ht)
  | @Shape.StmtAt.assign _ target value op span htarget hvalue =>
    rw [stmtSites]
    apply covers_node rfl
    intro t ht
    rcases List.mem_pair.mp ht with rfl | rfl
    · exact covers_expr (all_isExpr htarget) List.mem_cons_self
    · exact covers_expr (all_isExpr hvalue) (List.mem_cons_of_mem _ List.mem_cons_self)
  | .returnStmt span hvalue =>
    rw [stmtSites]
    apply covers_node rfl
    intro t ht
    exact covers_expr (all_isExpr (hvalue t (Option.mem_toList.mp ht))) (List.mem_map_of_mem ht)
  | .exprStmt span hexpr =>
    rw [stmtSites]
    apply covers_node rfl
    intro t ht
    cases List.mem_singleton.mp ht
    exact covers_expr (all_isExpr hexpr) List.mem_cons_self
  | .whileStmt span hcond hbody =>
    have hloop := block_covers hbody s
    rw [stmtSites]
    apply covers_node rfl
    intro t ht
    rcases List.mem_pair.mp ht with rfl | rfl
    · exact (covers_condition (all_isExpr hcond) s).mono (List.subset_append_left _ _)
    · exact hloop.mono (List.subset_append_right _ _)
  | .forStmt var span hiter hbody =>
    exact covers_forStmt (all_isExpr hiter) (fun s => block_covers hbody s) span s
  | .breakStmt span => exact covers_node rfl fun _ hnone => by cases hnone
  | .continueStmt span => exact covers_node rfl fun _ hnone => by cases hnone
  | .block hblock => exact block_covers hblock s
  | .conditional hif => exact conditional_covers hif s

theorem block_covers {n : Nat} {t : Tree} (h : Shape.BlockAt n t) (s : Scope) :
    Covers (stmtSites s t).1 t := by
  match h with
  | .mk span hstmts =>
    rw [stmtSites]
    apply covers_node rfl
    exact covers_stmts (fun t ht s => stmt_covers (hstmts t ht) s) s

theorem conditional_covers {n : Nat} {t : Tree} (h : Shape.ConditionalAt n t) (s : Scope) :
    Covers (stmtSites s t).1 t := by
  match h with
  | @Shape.ConditionalAt.mk _ cond thenBranch elseBranch span hcond hthen helse =>
    have hyes := block_covers hthen s
    have hno (t : Tree) (ht : t ∈ elseBranch) (s : Scope) :
        Covers (elseSites s elseBranch).1 t := by
      have hbranch := else_covers (helse t ht) s
      rw [ht, elseSites]
      exact hbranch
    rw [stmtSites]
    apply covers_node rfl
    intro t ht
    rcases List.mem_cons.mp ht with rfl | ht
    · exact (covers_condition (all_isExpr hcond) s).mono (List.subset_append_left _ _)
    rcases List.mem_cons.mp ht with rfl | ht
    · exact hyes.mono fun site hsite => List.mem_append_right _ (List.mem_append_left _ hsite)
    · exact (hno t (Option.mem_toList.mp ht) _).mono fun site hsite =>
        List.mem_append_right _ (List.mem_append_right _ hsite)

theorem else_covers {n : Nat} {t : Tree} (h : Shape.ElseAt n t) (s : Scope) :
    Covers (stmtSites s t).1 t := by
  match h with
  | .block hblock => exact block_covers hblock s
  | .conditional hif => exact conditional_covers hif s

end

/-- The sites stand in the text one behind the other, and no field access and no
call of the body is missing among them. -/
structure ListedIn (sites : List Site) (body : Tree) (text : String) : Prop where
  threaded : Threaded (sites.map Site.text) text
  covers : Covers sites body

theorem ListedIn.exists_text {sites : List Site} {body : Tree} {text : String}
    (h : ListedIn sites body text) {site : Site} (hsite : site ∈ sites) :
    ∃ before after, text = before ++ site.text ++ after :=
  h.threaded.exists_of_mem (List.mem_map_of_mem hsite)

/-! ### What stays known -/

/-- All sites know the same functions as the scope, and so does what is behind
them. -/
def KeepsFns (s : Scope) (out : List Site × Scope) : Prop :=
  (∀ site ∈ out.1, site.scope.fns = s.fns) ∧ out.2.fns = s.fns

theorem keepsFns_nil (s : Scope) : KeepsFns s ([], s) :=
  ⟨List.forall_mem_nil _, rfl⟩

theorem KeepsFns.append {s s' : Scope} {sites : List Site} {out : List Site × Scope}
    (hsites : KeepsFns s (sites, s')) (hout : KeepsFns s' out) :
    KeepsFns s (sites ++ out.1, out.2) := by
  constructor
  · intro site hsite
    rcases List.mem_append.mp hsite with hsite | hsite
    · exact hsites.1 site hsite
    · exact (hout.1 site hsite).trans hsites.2
  · exact hout.2.trans hsites.2

theorem keepsFns_conditionSites (s : Scope) (t : Tree) : KeepsFns s (conditionSites s t, s) := by
  obtain ⟨kind, span⟩ := t
  cases kind <;> simp [KeepsFns, conditionSites]

theorem keepsFns_stmtsSites {ts : List Tree} (h : ∀ t ∈ ts, ∀ s, KeepsFns s (stmtSites s t))
    (s : Scope) : KeepsFns s (stmtsSites s ts) := by
  induction ts generalizing s with
  | nil => exact keepsFns_nil s
  | cons t ts ih =>
    rw [stmtsSites]
    exact (h t List.mem_cons_self s).append (ih (fun u hu => h u (List.mem_cons_of_mem _ hu)) _)

/-- Only variables are declared on the way through a statement. -/
theorem keepsFns_stmtSites (s : Scope) (t : Tree) : KeepsFns s (stmtSites s t) := by
  induction t using Tree.induction generalizing s with
  | step kind span ih =>
    cases kind with
    | letStmt name mutable type init => simp [KeepsFns, stmtSites, Scope.declareVar]
    | assign target op value => simp [KeepsFns, stmtSites]
    | returnStmt value => simp [KeepsFns, stmtSites]
    | exprStmt e => simp [KeepsFns, stmtSites]
    | ifStmt cond thenBranch elseBranch =>
      have hyes := ih thenBranch (by simp [NodeKind.children]) s
      have hno (s : Scope) : KeepsFns s (elseSites s elseBranch) := by
        cases elseBranch with
        | none => exact keepsFns_nil s
        | some t => exact ih t (by simp [NodeKind.children]) s
      rw [stmtSites]
      exact (keepsFns_conditionSites s cond).append (hyes.append (hno _))
    | whileStmt cond body =>
      rw [stmtSites]
      exact (keepsFns_conditionSites s cond).append (ih body (by simp [NodeKind.children]) s)
    | forStmt var iter body =>
      have hbody := ih body (by simp [NodeKind.children]) (s.declareVar var .int)
      obtain ⟨iterKind, place⟩ := iter
      cases iterKind with
      | range start stop inclusive =>
        have hends : KeepsFns s ([⟨s, false, start⟩, ⟨s, false, stop⟩], s.declareVar var .int) := by
          simp [KeepsFns, Scope.declareVar]
        rw [stmtSites]
        exact hends.append hbody
      | _ => exact keepsFns_nil s
    | block body =>
      rw [stmtSites]
      exact keepsFns_stmtsSites (fun t ht s => ih t (by simpa [NodeKind.children] using ht) s) s
    | _ => exact keepsFns_nil s

/-- The sites of a body know the functions of the unit. -/
theorem functionSites_fns {globals : Scope} {params : List Tree} {body : Tree} {site : Site}
    (h : site ∈ functionSites globals params body) : site.scope.fns = globals.fns := by
  have hbind (s : Scope) (params : List (String × Tree)) :
      (CSyntax.bindParams s params).fns = s.fns := by
    unfold CSyntax.bindParams
    induction params generalizing s with
    | nil => rfl
    | cons param params ih => exact ih _
  have hsite := (keepsFns_stmtSites _ body).1 site h
  exact hsite.trans (hbind globals.enterFunction (paramTypes params))

/-! ### Functions of a unit -/

structure FunctionItem where
  name : String
  isPublic : Bool
  params : List Tree
  ret : Option Tree
  body : Tree
  span : Span

namespace FunctionItem

def tree (f : FunctionItem) : Tree :=
  .node (.function f.name f.isPublic f.params f.ret f.body) f.span

def ofTree? : Tree → Option FunctionItem
  | .node (.function name isPublic params ret body) span =>
    some ⟨name, isPublic, params, ret, body, span⟩
  | _ => none

def among (items : List Tree) : List FunctionItem :=
  items.filterMap ofTree?

def sites (f : FunctionItem) (items : List Tree) : List Site :=
  functionSites (declarations items) f.params f.body

theorem tree_mem_of_among {f : FunctionItem} {items : List Tree} (h : f ∈ among items) :
    f.tree ∈ items := by
  obtain ⟨⟨kind, span⟩, ht, hsome⟩ := List.mem_filterMap.mp h
  cases kind with
  | function =>
    cases hsome
    exact ht
  | _ => cases hsome

/-- Every field access and every call of a parsed function has its place in the
text of the unit. -/
theorem listedIn_of_parseSource {src : String} {opts : Options} {parsed : Parsed}
    {f : FunctionItem} (h : parseSource src opts = .ok parsed)
    (hmem : f.tree ∈ parsed.ast.tree.items) (support : SupportForm) :
    ListedIn (f.sites parsed.ast.tree.items) f.body (render parsed.ast.tree support).c := by
  refine ⟨threaded_render hmem support, ?_⟩
  obtain ⟨lexed, -, hread⟩ := lexed_of_parseSource h
  have hshape := readProgram_shape hread
  generalize parsed.ast.tree = t at hmem hshape ⊢
  cases hshape with
  | mk place hitems =>
    cases hitems _ hmem with
    | function _ _ _ _ _ hbody => exact block_covers hbody _

end FunctionItem

/-- A source from which something is seen has been parsed. -/
theorem exists_parsed_of_view {α : Type} {view : List Tree → α} {src : String} {seen : α}
    (h : ((parseSource src {}).toOption.map fun parsed => view parsed.ast.tree.items) = some seen) :
    ∃ parsed, parseSource src {} = .ok parsed ∧ view parsed.ast.tree.items = seen := by
  cases hparsed : parseSource src {} with
  | error =>
    rw [hparsed] at h
    cases h
  | ok parsed =>
    rw [hparsed] at h
    exact ⟨parsed, rfl, Option.some.inj h⟩

end StagedCompiler.Target
