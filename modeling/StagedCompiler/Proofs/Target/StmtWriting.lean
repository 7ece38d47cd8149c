import Mathlib.Data.List.Forall2
import StagedCompiler.Proofs.Target.ReadableTrees

/-!
The lines of generated statements. `mirror` gives the C statement that a
statement of the source language becomes, with the same statements in the same
places; the writer lays it out line by line.
-/

namespace StagedCompiler.CSyntax

open Target (CType Scope Writer WriterState expr condition letType lower)

/-! ### The same statement in C -/

mutual

/-- The C statement with the same structure. A `return` without a value gives
the exit code in `main`. Expressions are the tokens of their texts, which depend
on the variables known so far. -/
def mirror (inMain : Bool) : Tree → StateM Scope CStmt
  | .node (.letStmt name _ type init) _ => do
    let s ← get
    let t := letType s type init
    set (s.declareVar name t)
    return .declare (declared t name (init.map fun e => lexemesOf (expr s true e)))
  | .node (.assign target op value) _ => do
    let s ← get
    return .assign (lexemesOf (expr s false target)) op (lexemesOf (expr s false value))
  | .node (.returnStmt none) _ => return .ret (if inMain then some [.number ['0']] else none)
  | .node (.returnStmt (some value)) _ => do
    return .ret (some (lexemesOf (expr (← get) false value)))
  | .node (.exprStmt e) _ => do return .expr (lexemesOf (expr (← get) false e))
  | .node (.ifStmt cond thenBranch elseBranch) _ => do
    let test := lexemesOf (condition (← get) cond)
    let yes ← mirror inMain thenBranch
    let no ← mirrorElse inMain elseBranch
    return .cond test yes no
  | .node (.whileStmt cond body) _ => do
    let test := lexemesOf (condition (← get) cond)
    return .loop test (← mirror inMain body)
  | .node (.forStmt var (.node (.range start stop inclusive) _) body) _ => do
    let s ← get
    set (s.declareVar var .int)
    let first := declared .int var (some (lexemesOf (expr s false start)))
    let test := .word var :: .mark (if inclusive then .le else .lt) :: lexemesOf (expr s false stop)
    return .count first test [.word var, .mark .plusPlus] (← mirror inMain body)
  | .node .breakStmt _ => return .brk
  | .node .continueStmt _ => return .cont
  | .node (.block body) _ => do return .block (← mirrorAll inMain body)
  | _ => return .empty

def mirrorAll (inMain : Bool) : List Tree → StateM Scope (List CStmt)
  | [] => return []
  | t :: ts => do
    let c ← mirror inMain t
    return c :: (← mirrorAll inMain ts)

def mirrorElse (inMain : Bool) : Option Tree → StateM Scope (Option CStmt)
  | none => return none
  | some t => do return some (← mirror inMain t)

end

/-! ### Lines -/

structure LineOf (text : String) (ts : List Lexeme) : Prop where
  spells : Spells text.toList ts AnyNext
  unbroken : '\n' ∉ text.toList

theorem LineOf.indented {text : String} {ts : List Lexeme} (h : LineOf text ts) (n : Nat) :
    LineOf (String.ofList (List.replicate n ' ') ++ text) ts := by
  have hchars : (String.ofList (List.replicate n ' ') ++ text).toList =
      List.replicate n ' ' ++ text.toList := by
    simp
  have hspells : Spells (List.replicate n ' ' ++ text.toList) ts AnyNext := by
    induction n with
    | zero => exact h.spells
    | succ n ih => exact spells_blank.append_any (ih (by simp))
  constructor
  · rw [hchars]
    exact hspells
  · rw [hchars]
    exact List.not_mem_append (by simp) h.unbroken

section

variable {text : String}

/-- Something that ends before a semicolon, with one behind it. -/
theorem lineOf_semicolon {ts : List Lexeme} {next : Char → Prop} (h : Spells text.toList ts next)
    (hnext : next ';') (hunbroken : '\n' ∉ text.toList) :
    LineOf (text ++ ";") (ts ++ [Lexeme.mark .semicolon]) := by
  have hsemicolon := spells_single ';' .semicolon (by decide)
  constructor
  · rw [String.toList_append]
    exact h.append hsemicolon (starts_cons hnext _)
  · rw [String.toList_append]
    exact List.not_mem_append hunbroken (by decide)

theorem spells_assign (op : AssignOp) :
    Spells op.text.toList [.mark (assignMark op)] (· = ' ') := by
  cases op <;> exact spells_operator (by decide) (by decide) rfl fun _ => rfl

theorem lineOf_expr {types : List String} {more : List Char} (h : Phrase types text more) :
    LineOf (text ++ ";") (lexemesOf text ++ [Lexeme.mark .semicolon]) :=
  lineOf_semicolon h.shown.spells_before (by decide) h.unbroken

/-- The line of an assignment, from the texts of its two sides. -/
theorem lineOf_assign {types : List String} {target value : String} {more more' : List Char}
    (htarget : Phrase types target more) (hvalue : Phrase types value more') (op : AssignOp) :
    LineOf (target ++ " " ++ op.text ++ " " ++ value ++ ";")
      (lexemesOf target ++
        .mark (assignMark op) :: (lexemesOf value ++ [Lexeme.mark .semicolon])) := by
  have hstarts : Starts op.text.toList AnyNext := by
    cases op <;> exact starts_cons trivial _
  have hline : '\n' ∉ op.text.toList := by
    cases op <;> decide
  have hspells := spells_between htarget.shown.spells_before (by decide) (spells_assign op) hstarts
    hvalue.shown.spells_before
  have hchars : (target ++ " " ++ op.text ++ " " ++ value).toList =
      target.toList ++ ([' '] ++ (op.text.toList ++ ([' '] ++ value.toList))) := by
    simp
  rw [← hchars] at hspells
  have hwhole := lineOf_semicolon hspells (by decide) (by
    rw [hchars]
    apply List.not_mem_append htarget.unbroken
    apply List.not_mem_append (by decide)
    apply List.not_mem_append hline
    exact List.not_mem_append (by decide) hvalue.unbroken)
  simpa using hwhole

/-- A keyword in front of something that a semicolon ends. -/
theorem lineOf_return {types : List String} {more : List Char} (h : Phrase types text more) :
    LineOf ("return " ++ text ++ ";")
      (.word "return" :: (lexemesOf text ++ [Lexeme.mark .semicolon])) := by
  have hword : Spells "return".toList [.word "return"] (endsWord · = true) :=
    spells_word (by decide)
  have hspells := hword.append (spells_blank.append_any h.shown.spells_before)
    (starts_cons (by decide) _)
  have hchars : ("return " ++ text).toList = "return".toList ++ ([' '] ++ text.toList) := by
    simp
  rw [← hchars] at hspells
  have hunbroken : '\n' ∉ ("return " ++ text).toList := by
    rw [hchars]
    exact List.not_mem_append (by decide) (List.not_mem_append (by decide) h.unbroken)
  exact lineOf_semicolon hspells (by decide) hunbroken

theorem lineOf_word {w : String} (h : isWord w.toList = true) :
    LineOf (w ++ ";") [.word w, .mark .semicolon] :=
  lineOf_semicolon (spells_word h) (by decide) (newline_not_mem_of_isWordPart (isWord_parts h))

/-- The head of a conditional or a loop. -/
theorem lineOf_head {w inner : String} {ts : List Lexeme} {next : Char → Prop}
    (hw : isWord w.toList = true) (hinner : Spells inner.toList ts next) (hnext : next ')')
    (hunbroken : '\n' ∉ inner.toList) :
    LineOf (w ++ " (" ++ inner ++ ") \x7b")
      (.word w :: .mark .lparen :: (ts ++ [Lexeme.mark .rparen, .mark .lbrace])) := by
  have hopen := spells_single '(' .lparen (by decide)
  have hclose := spells_single ')' .rparen (by decide)
  have hbrace := spells_single '\x7b' .lbrace (by decide)
  have hend := hclose.append_any (spells_blank.append_any hbrace)
  have hparen := hopen.append_any (hinner.append hend (starts_cons hnext _))
  have hspells := (spells_word hw).append (spells_blank.append_any hparen)
    (starts_cons (by decide) _)
  have hchars : (w ++ " (" ++ inner ++ ") \x7b").toList =
      w.toList ++ ([' '] ++ (['('] ++ (inner.toList ++ ([')'] ++ ([' '] ++ ['\x7b']))))) := by
    simp
  constructor
  · rw [hchars]
    simpa using hspells
  · rw [hchars]
    apply List.not_mem_append (newline_not_mem_of_isWordPart (isWord_parts hw))
    apply List.not_mem_append (by decide)
    apply List.not_mem_append (by decide)
    exact List.not_mem_append hunbroken (by decide)

/-- What stands behind the brace that ends a branch. -/
theorem LineOf.behind_brace {ts : List Lexeme} (h : LineOf text ts) :
    LineOf ("\x7d else " ++ text) (.mark .rbrace :: .word "else" :: ts) := by
  have hbrace := spells_single '\x7d' .rbrace (by decide)
  have hword : Spells "else".toList [.word "else"] (endsWord · = true) := spells_word (by decide)
  have helse := hword.append (spells_blank.append_any h.spells) (starts_cons (by decide) _)
  have hspells := hbrace.append_any (spells_blank.append_any helse)
  have hchars : ("\x7d else " ++ text).toList =
      ['\x7d'] ++ ([' '] ++ ("else".toList ++ ([' '] ++ text.toList))) := by
    simp
  constructor
  · rw [hchars]
    simpa using hspells
  · rw [hchars]
    apply List.not_mem_append (by decide)
    apply List.not_mem_append (by decide)
    exact List.not_mem_append (by decide) (List.not_mem_append (by decide) h.unbroken)

theorem lineOf_single {c : Char} {m : Mark} (h : (c, m) ∈ Mark.singles) :
    LineOf (String.ofList [c]) [.mark m] := by
  have hall : ∀ entry ∈ Mark.singles, '\n' ∉ [entry.1] := by decide
  constructor
  · rw [String.toList_ofList]
    exact spells_single c m h
  · rw [String.toList_ofList]
    exact hall _ h

theorem spells_declareInit {t : CType} (ht : isWritable t = true) {name : String}
    (hname : isWord name.toList = true) (hinit : Initializer text) :
    Spells (t.declare name ++ " = " ++ text).toList
        (declared t name (some (lexemesOf text))).tokens (· ∈ followers) ∧
      '\n' ∉ (t.declare name ++ " = " ++ text).toList := by
  obtain ⟨hspells, -, hunbroken⟩ := spells_declare ht hname
  have hwhole := spells_between hspells (by decide) spells_eq (starts_cons trivial _) hinit.spells
  have htokens : (declared t name (some (lexemesOf text))).tokens =
      (declared t name none).tokens ++ .mark .eq :: lexemesOf text := by
    simp [CDecl.tokens, declared]
  have hchars : (t.declare name ++ " = " ++ text).toList =
      (t.declare name).toList ++ ([' '] ++ (['='] ++ ([' '] ++ text.toList))) := by
    simp
  rw [htokens, hchars]
  constructor
  · exact hwhole
  · apply List.not_mem_append hunbroken
    apply List.not_mem_append (by decide)
    apply List.not_mem_append (by decide)
    exact List.not_mem_append (by decide) hinit.unbroken

theorem lineOf_declare {t : CType} (ht : isWritable t = true) {name : String}
    (hname : isWord name.toList = true) :
    LineOf (t.declare name ++ ";") ((declared t name none).tokens ++ [Lexeme.mark .semicolon]) := by
  obtain ⟨hspells, -, hunbroken⟩ := spells_declare ht hname
  exact lineOf_semicolon hspells (by decide) hunbroken

/-- What a counting loop compares its variable with, and how. -/
theorem spells_comparison {var stop : String} (hvar : isWord var.toList = true)
    (hstop : Initializer stop) (inclusive : Bool) :
    Spells (var ++ " " ++ (if inclusive then "<=" else "<") ++ " " ++ stop).toList
      (.word var :: .mark (if inclusive then .le else .lt) :: lexemesOf stop) (· ∈ followers) := by
  have hsign : Spells (if inclusive then "<=" else "<").toList
      [.mark (if inclusive then .le else .lt)] (· = ' ') := by
    apply Spells.of_piece (some (.mark (if inclusive then .le else .lt)))
    · cases inclusive <;> exact quiet_of_plain (by decide)
    · cases inclusive <;> decide
    · intro rest h
      cases rest with
      | nil => cases inclusive <;> rfl
      | cons c rest =>
        have hc : c = ' ' := h c rfl
        rw [hc]
        cases inclusive <;> rfl
  have hstarts : Starts (if inclusive then "<=" else "<").toList AnyNext := by
    cases inclusive <;> exact starts_cons trivial _
  have hwhole := spells_between (spells_word hvar) (by decide) hsign hstarts hstop.spells
  have hchars : (var ++ " " ++ (if inclusive then "<=" else "<") ++ " " ++ stop).toList =
      var.toList ++ ([' '] ++ ((if inclusive then "<=" else "<").toList ++
        ([' '] ++ stop.toList))) := by
    simp
  rw [hchars]
  exact hwhole

theorem spells_increment {var : String} (hvar : isWord var.toList = true) :
    Spells (var ++ "++").toList [.word var, .mark .plusPlus] (· = ')') := by
  have hsign : Spells ['+', '+'] [.mark .plusPlus] (· = ')') := by
    apply Spells.of_piece (some (.mark .plusPlus)) (quiet_of_plain (by decide)) (by simp)
    intro rest h
    cases rest with
    | nil => rfl
    | cons c rest =>
      have hc : c = ')' := h c rfl
      rw [hc]
      rfl
  rw [String.toList_append]
  exact (spells_word hvar).append hsign (starts_cons (by decide) _)

theorem forHead_eq (var start sign stop : String) :
    Target.forHead var start sign stop =
      "for" ++ " (" ++ (Target.CType.int.declare var ++ " = " ++ start ++ "; " ++ var ++ " " ++
        sign ++ " " ++ stop ++ "; " ++ var ++ "++") ++ ") \x7b" := by
  -- The two literals are named, since rewriting compares literals character by character.
  have hparts (first last : String) (hfirst : first = "for" ++ " (" ++ "long long" ++ " ")
      (hlast : last = "++" ++ ") \x7b") :
      first ++ var ++ " = " ++ start ++ "; " ++ var ++ " " ++ sign ++ " " ++ stop ++ "; " ++ var ++
          last =
        "for" ++ " (" ++ ("long long" ++ " " ++ var ++ "" ++ " = " ++ start ++ "; " ++ var ++ " " ++
          sign ++ " " ++ stop ++ "; " ++ var ++ "++") ++ ") \x7b" := by
    rw [hfirst, hlast]
    simp only [String.append_assoc, String.append_empty]
  exact hparts _ _ (by decide) (by decide)

/-- The head of a counting loop, from the texts of its bounds. -/
theorem lineOf_forHead {var start stop : String} (hvar : isWord var.toList = true)
    (hstart : Initializer start) (hstop : Initializer stop) (inclusive : Bool) :
    LineOf (Target.forHead var start (if inclusive then "<=" else "<") stop)
      (.word "for" :: .mark .lparen :: ((declared .int var (some (lexemesOf start))).tokens ++
        Lexeme.mark .semicolon :: ((Lexeme.word var :: .mark (if inclusive then .le else .lt) ::
          lexemesOf stop) ++ Lexeme.mark .semicolon :: ([Lexeme.word var, .mark .plusPlus] ++
            [Lexeme.mark .rparen, .mark .lbrace])))) := by
  obtain ⟨hdecl, hfirst⟩ := spells_declareInit (t := .int) (by decide) hvar hstart
  have hsecond := spells_comparison hvar hstop inclusive
  have hthird := spells_increment hvar
  have hsemicolon := spells_single ';' .semicolon (by decide)
  have hlast := hsemicolon.append_any (spells_blank.append_any hthird)
  have hrest := hsemicolon.append_any
    (spells_blank.append_any (hsecond.append hlast (starts_cons (by decide) _)))
  have hinner := hdecl.append hrest (starts_cons (by decide) _)
  have hword := newline_not_mem_of_isWordPart (isWord_parts hvar)
  have hchars : (Target.CType.int.declare var ++ " = " ++ start ++ "; " ++ var ++ " " ++
      (if inclusive then "<=" else "<") ++ " " ++ stop ++ "; " ++ var ++ "++").toList =
      (Target.CType.int.declare var ++ " = " ++ start).toList ++ ([';'] ++ ([' '] ++
        ((var ++ " " ++ (if inclusive then "<=" else "<") ++ " " ++ stop).toList ++
          ([';'] ++ ([' '] ++ (var ++ "++").toList))))) := by
    simp
  rw [← hchars] at hinner
  have hunbroken : '\n' ∉ (Target.CType.int.declare var ++ " = " ++ start ++ "; " ++ var ++ " " ++
      (if inclusive then "<=" else "<") ++ " " ++ stop ++ "; " ++ var ++ "++").toList := by
    have hsign : '\n' ∉ (if inclusive then "<=" else "<").toList := by
      cases inclusive <;> decide
    rw [hchars]
    simp only [String.toList_append, List.mem_append, not_or] at hfirst ⊢
    exact ⟨hfirst, by decide, by decide, ⟨⟨⟨⟨hword, by decide⟩, hsign⟩, by decide⟩,
      hstop.unbroken⟩, by decide, by decide, hword, by decide⟩
  have hhead := lineOf_head (w := "for") (by decide) hinner (by decide) hunbroken
  rw [forHead_eq]
  simpa using hhead

end

/-! ### What a writer adds -/

/-- Writing adds lines of these tokens, and leads from the first scope to the
second. -/
def Emits (w : Writer Unit) (s s' : Scope) (lines : List (List Lexeme)) : Prop :=
  ∀ st : WriterState, st.scope = s → (w.run st).2.scope = s' ∧
    ∃ texts : List String,
      (w.run st).2.lines.toList = st.lines.toList ++ texts.map (· ++ "\n") ∧
        List.Forall₂ LineOf texts lines

section

variable {w w' : Writer Unit} {s s' s'' : Scope} {ls ls' : List (List Lexeme)}

theorem Emits.bind (h : Emits w s s' ls) (h' : Emits w' s' s'' ls') :
    Emits (w >>= fun _ => w') s s'' (ls ++ ls') := by
  intro st hst
  obtain ⟨hscope, texts, hlines, hall⟩ := h st hst
  obtain ⟨hscope', texts', hlines', hall'⟩ := h' _ hscope
  have hrun : (w >>= fun _ => w').run st = w'.run (w.run st).2 := rfl
  rw [hrun]
  refine ⟨hscope', texts ++ texts', ?_, List.rel_append hall hall'⟩
  rw [hlines', hlines, List.map_append, List.append_assoc]

theorem Emits.silent (h : Emits w s s' []) (h' : Emits w' s' s'' ls) :
    Emits (w >>= fun _ => w') s s'' ls :=
  h.bind h'

theorem emits_pure : Emits (pure ()) s s [] := by
  intro st hst
  exact ⟨hst, [], (List.append_nil _).symm, .nil⟩

theorem emits_note (ns : List Target.Note) : Emits (Writer.note ns) s s [] := by
  intro st hst
  exact ⟨hst, [], (List.append_nil _).symm, .nil⟩

theorem emits_declareVar (name : String) (t : CType) :
    Emits (Writer.declareVar name t) s (s.declareVar name t) [] := by
  intro st hst
  rw [← hst]
  exact ⟨rfl, [], (List.append_nil _).symm, .nil⟩

theorem emits_line (depth : Nat) {text : String} {ts : List Lexeme} (h : LineOf text ts) :
    Emits (Writer.line depth text) s s [ts] := by
  intro st hst
  have hline := h.indented (4 * depth)
  exact ⟨hst, [_], Array.toList_push, .cons hline .nil⟩

/-- What is written next may depend on the scope. -/
theorem emits_get {k : WriterState → Writer Unit}
    (h : ∀ st, st.scope = s → Emits (k st) s s' ls) : Emits (get >>= k) s s' ls :=
  fun st hst => h st hst st hst

theorem emits_written {t : Tree} {k : String → Writer Unit}
    (h : Emits (k (expr s false t)) s s' ls) : Emits (Target.written t >>= k) s s' ls := by
  intro st hst
  have hrun := h ((Writer.note (Target.exprNotes t)).run st).2 hst
  rw [← hst] at hrun
  exact hrun

theorem emits_writtenCondition {t : Tree} {k : String → Writer Unit}
    (h : Emits (k (condition s t)) s s' ls) : Emits (Target.writtenCondition t >>= k) s s' ls := by
  intro st hst
  have hrun := h ((Writer.note (Target.exprNotes t)).run st).2 hst
  rw [← hst] at hrun
  exact hrun

end

end StagedCompiler.CSyntax
