import StagedCompiler.Proofs.CSyntax.Expr

/-!
Statements of C, how they are read from tokens, and how they are laid out in
lines. The reader follows the grammar of the standard as far as blocks,
conditionals, loops, jumps, declarations of one name and expressions go; other
statements are not read. It does not look into expressions: these are runs of
tokens in which brackets are paired, so a semicolon always ends one. Type names
are given, because C cannot tell a declaration from an expression without them.

Main statement: a statement whose branches are blocks is read back from its
lines.
-/

namespace StagedCompiler.CSyntax

/-! ### Runs of tokens -/

def closer? : Mark → Option Mark
  | .lparen => some .rparen
  | .lbracket => some .rbracket
  | .lbrace => some .rbrace
  | _ => none

def isCloser : Mark → Bool
  | .rparen | .rbracket | .rbrace => true
  | _ => false

/-- The closing brackets that are due behind a token, the next one first. -/
def pass? (due : List Mark) : Lexeme → Option (List Mark)
  | .mark m =>
    match closer? m with
    | some c => some (c :: due)
    | none =>
      if isCloser m then if due.head? = some m then some due.tail else none else some due
  | _ => some due

/-- The longest run of allowed tokens at the front. Between brackets all tokens
are allowed. -/
def run? (allowed : Lexeme → Bool) :
    List Mark → List Lexeme → Option (List Lexeme × List Lexeme)
  | due, [] => if due.isEmpty then some ([], []) else none
  | due, t :: rest =>
    if due.isEmpty && !allowed t then some ([], t :: rest)
    else (pass? due t).bind fun due => (run? allowed due rest).map fun r => (t :: r.1, r.2)

/-- A token that does not end an expression. Behind a comma, a question mark or
a colon there would be another one, and such expressions are not read. -/
def isInner : Lexeme → Bool
  | .mark m =>
    !isCloser m && !([Mark.semicolon, .comma, .question, .colon, .hash, .hashHash].contains m)
  | _ => true

def isPlain : Lexeme → Bool
  | .mark m => isInner (.mark m) && (assignOp? m).isNone
  | _ => true

/-- An expression that ends at the given punctuator. -/
def upTo? (stop : Mark) (ts : List Lexeme) : Option (List Lexeme × List Lexeme) :=
  (run? isInner [] ts).bind fun r =>
    if r.2.head? = some (.mark stop) then some (r.1, r.2.tail) else none

def enclosed? (ts : List Lexeme) : Option (List Lexeme × List Lexeme) :=
  if ts.head? = some (.mark .lparen) then upTo? .rparen ts.tail else none

/-! ### Declarations -/

def typeWords : List String :=
  ["char", "const", "double", "float", "int", "long", "short", "signed", "unsigned", "void"]

/-- Whether a token belongs to the words of a type, and whether a tag has to
follow it. -/
def specifier? (tagged : Bool) : Lexeme → Option Bool
  | .word w =>
    if tagged then if isKeyword w then none else some false
    else if w = "struct" then some true
    else if w ∈ typeWords then some false
    else none
  | _ => none

def specifiers (tagged : Bool) : List Lexeme → List Lexeme × List Lexeme
  | [] => ([], [])
  | t :: rest =>
    match specifier? tagged t with
    | some tagged => (t :: (specifiers tagged rest).1, (specifiers tagged rest).2)
    | none => ([], t :: rest)

structure CDecl where
  type : List Lexeme
  name : String
  /-- Array dimensions, with their brackets. -/
  dims : List Lexeme := []
  init : Option (List Lexeme) := none

section

variable (types : List String)

def isTypeName (w : String) : Bool :=
  !isKeyword w && types.contains w

def isFree (w : String) : Bool :=
  !isKeyword w && !types.contains w

def startsDeclaration (ts : List Lexeme) : Bool :=
  match ts.head? with
  | some (.word w) => decide (w = "struct" ∨ w ∈ typeWords) || isTypeName types w
  | _ => false

/-- The words of a type, or a name of one. -/
def typeWordsAt (ts : List Lexeme) : List Lexeme × List Lexeme :=
  match ts.head? with
  | some (.word w) =>
    if isTypeName types w then ([.word w], ts.tail) else specifiers false ts
  | _ => ([], ts)

def declarator? (ts : List Lexeme) : Option ((List Lexeme × String) × List Lexeme) :=
  let (words, rest) := typeWordsAt types ts
  let stars := rest.takeWhile (· == .mark .star)
  let behind := rest.dropWhile (· == .mark .star)
  if words.isEmpty then none
  else
    match behind.head? with
    | some (.word w) =>
      if isFree types w then some ((words ++ stars, w), behind.tail) else none
    | _ => none

def declaration? (ts : List Lexeme) : Option (CDecl × List Lexeme) :=
  (declarator? types ts).bind fun d => (run? (· == .mark .lbracket) [] d.2).bind fun dims =>
    if dims.2.head? = some (.mark .semicolon) then
      some (⟨d.1.1, d.1.2, dims.1, none⟩, dims.2.tail)
    else if dims.2.head? = some (.mark .eq) then
      (upTo? .semicolon dims.2.tail).map fun init =>
        (⟨d.1.1, d.1.2, dims.1, some init.1⟩, init.2)
    else none

end

/-! ### Statements -/

inductive CStmt where
  | declare (d : CDecl)
  | assign (target : List Lexeme) (op : AssignOp) (value : List Lexeme)
  | expr (e : List Lexeme)
  | empty
  | ret (value : Option (List Lexeme))
  | brk
  | cont
  | block (body : List CStmt)
  | cond (test : List Lexeme) (yes : CStmt) (no : Option CStmt)
  | loop (test : List Lexeme) (body : CStmt)
  /-- A loop with a variable of its own. -/
  | count (start : CDecl) (test next : List Lexeme) (body : CStmt)

inductive Head where
  | ifHead | whileHead | forHead | returnHead | breakHead | continueHead

def heads : List (String × Head) :=
  [("if", .ifHead), ("while", .whileHead), ("for", .forHead), ("return", .returnHead),
   ("break", .breakHead), ("continue", .continueHead)]

inductive StmtPart where
  | statement
  /-- The rest of a block, behind some statements. -/
  | items (done : List CStmt)

abbrev StmtReading := StmtPart → List Lexeme → Option (CStmt × List Lexeme)

def simple? (ts : List Lexeme) : Option (CStmt × List Lexeme) :=
  (run? isPlain [] ts).bind fun r =>
    match r.2.head? with
    | some (.mark m) =>
      if m = .semicolon then some (if r.1.isEmpty then .empty else .expr r.1, r.2.tail)
      else
        (assignOp? m).bind fun op =>
          (upTo? .semicolon r.2.tail).map fun v => (.assign r.1 op v.1, v.2)
    | _ => none

def jump? (c : CStmt) (ts : List Lexeme) : Option (CStmt × List Lexeme) :=
  if ts.head? = some (.mark .semicolon) then some (c, ts.tail) else none

section Step

variable (types : List String) (rec : StmtReading)

def condStep (ts : List Lexeme) : Option (CStmt × List Lexeme) :=
  (enclosed? ts).bind fun test => (rec .statement test.2).bind fun yes =>
    if yes.2.head? = some (.word "else") then
      (rec .statement yes.2.tail).map fun no => (.cond test.1 yes.1 (some no.1), no.2)
    else some (.cond test.1 yes.1 none, yes.2)

def loopStep (ts : List Lexeme) : Option (CStmt × List Lexeme) :=
  (enclosed? ts).bind fun test => (rec .statement test.2).map fun body =>
    (.loop test.1 body.1, body.2)

def countStep (ts : List Lexeme) : Option (CStmt × List Lexeme) :=
  if ts.head? = some (.mark .lparen) then
    (declaration? types ts.tail).bind fun start => (upTo? .semicolon start.2).bind fun test =>
      (upTo? .rparen test.2).bind fun next => (rec .statement next.2).map fun body =>
        (.count start.1 test.1 next.1 body.1, body.2)
  else none

def headStep (ts : List Lexeme) : Head → Option (CStmt × List Lexeme)
  | .ifHead => condStep rec ts
  | .whileHead => loopStep rec ts
  | .forHead => countStep types rec ts
  | .returnHead =>
    (upTo? .semicolon ts).map fun r => (.ret (if r.1.isEmpty then none else some r.1), r.2)
  | .breakHead => jump? .brk ts
  | .continueHead => jump? .cont ts

def statementStep (ts : List Lexeme) : Option (CStmt × List Lexeme) :=
  match ts.head? with
  | some (.word w) =>
    match heads.lookup w with
    | some head => headStep types rec ts.tail head
    | none => if isFree types w then simple? ts else none
  | _ => if ts.head? = some (.mark .lbrace) then rec (.items []) ts.tail else simple? ts

def itemsStep (done : List CStmt) (ts : List Lexeme) : Option (CStmt × List Lexeme) :=
  if ts.head? = some (.mark .rbrace) then some (.block done, ts.tail)
  else if startsDeclaration types ts then
    (declaration? types ts).bind fun r => rec (.items (done ++ [.declare r.1])) r.2
  else (rec .statement ts).bind fun r => rec (.items (done ++ [r.1])) r.2

def stmtStep : StmtReading
  | .statement, ts => statementStep types rec ts
  | .items done, ts => itemsStep types rec done ts

end Step

/-- Reading with at most `n` statements inside or behind one another. -/
def readStmt (types : List String) : Nat → StmtReading
  | 0 => fun _ _ => none
  | n + 1 => stmtStep types (readStmt types n)

def ReadsStmt (types : List String) (part : StmtPart) (ts : List Lexeme)
    (r : CStmt × List Lexeme) : Prop :=
  ∃ n, readStmt types n part ts = some r

/-! ### More steps change nothing -/

section Mono

variable {types : List String} {rec rec' : StmtReading} {ts : List Lexeme}
  {r : CStmt × List Lexeme}

def StmtCovers (rec rec' : StmtReading) : Prop :=
  ∀ part ts r, rec part ts = some r → rec' part ts = some r

theorem condStep_mono (h : StmtCovers rec rec') (hr : condStep rec ts = some r) :
    condStep rec' ts = some r := by
  apply bind_mono (fun _ htest => htest) _ hr
  intro test htest
  apply bind_mono (h _ _) _ htest
  intro yes hyes
  split at hyes
  · rw [if_pos ‹_›]
    exact map_mono (h _ _) hyes
  · rw [if_neg ‹_›]
    exact hyes

theorem countStep_mono (h : StmtCovers rec rec') (hr : countStep types rec ts = some r) :
    countStep types rec' ts = some r := by
  rw [countStep] at hr ⊢
  split at hr
  · rw [if_pos ‹_›]
    apply bind_mono (fun _ hstart => hstart) _ hr
    intro start hstart
    apply bind_mono (fun _ htest => htest) _ hstart
    intro test htest
    exact bind_mono (fun _ hnext => hnext) (fun next => map_mono (h _ _)) htest
  · cases hr

theorem headStep_mono (h : StmtCovers rec rec') {head : Head}
    (hr : headStep types rec ts head = some r) : headStep types rec' ts head = some r := by
  cases head with
  | ifHead => exact condStep_mono h hr
  | whileHead => exact bind_mono (fun _ htest => htest) (fun test => map_mono (h _ _)) hr
  | forHead => exact countStep_mono h hr
  | returnHead | breakHead | continueHead => exact hr

theorem statementStep_mono (h : StmtCovers rec rec') (hr : statementStep types rec ts = some r) :
    statementStep types rec' ts = some r := by
  rw [statementStep] at hr ⊢
  split at hr
  · split at hr
    · exact headStep_mono h hr
    · exact hr
  · split at hr
    · rw [if_pos ‹_›]
      exact h _ _ _ hr
    · rw [if_neg ‹_›]
      exact hr

/-- A step reads no less if its parts are read in more ways. -/
theorem stmtStep_mono (h : StmtCovers rec rec') :
    StmtCovers (stmtStep types rec) (stmtStep types rec') := by
  intro part ts r hr
  cases part with
  | statement => exact statementStep_mono h hr
  | items done =>
    rw [stmtStep, itemsStep] at hr ⊢
    split at hr
    · rw [if_pos ‹_›]
      exact hr
    · rw [if_neg ‹_›]
      split at hr
      · rw [if_pos ‹_›]
        exact bind_mono (fun _ hdecl => hdecl) (fun a => h _ _ _) hr
      · rw [if_neg ‹_›]
        exact bind_mono (h _ _) (fun a => h _ _ _) hr

theorem readStmt_mono {n m : Nat} (hle : n ≤ m) :
    StmtCovers (readStmt types n) (readStmt types m) := by
  induction n generalizing m with
  | zero => intro part ts r hr; cases hr
  | succ n ih =>
    cases m with
    | zero => omega
    | succ m => exact stmtStep_mono (ih (Nat.le_of_succ_le_succ hle))

theorem ReadsStmt.both {part part' : StmtPart} {ts' : List Lexeme} {r' : CStmt × List Lexeme}
    (h : ReadsStmt types part ts r) (h' : ReadsStmt types part' ts' r') :
    ∃ n, readStmt types n part ts = some r ∧ readStmt types n part' ts' = some r' := by
  obtain ⟨n, hn⟩ := h
  obtain ⟨m, hm⟩ := h'
  exact ⟨max n m, readStmt_mono (Nat.le_max_left n m) _ _ _ hn,
    readStmt_mono (Nat.le_max_right n m) _ _ _ hm⟩

end Mono

/-! ### Runs in context -/

def isBracket : Lexeme → Bool
  | .mark m => (closer? m).isSome || isCloser m
  | _ => false

/-- Tokens in which brackets are paired, and those outside of brackets have the
property. -/
inductive Nested : (Lexeme → Bool) → List Lexeme → Prop
  | nil {p : Lexeme → Bool} : Nested p []
  | token {p : Lexeme → Bool} {t : Lexeme} {ts : List Lexeme} :
      isBracket t = false → p t = true → Nested p ts → Nested p (t :: ts)
  | group {p : Lexeme → Bool} {m c : Mark} {inside ts : List Lexeme} :
      closer? m = some c → p (.mark m) = true → Nested (fun _ => true) inside → Nested p ts →
        Nested p (.mark m :: (inside ++ .mark c :: ts))

namespace Nested

variable {p q : Lexeme → Bool} {ts us : List Lexeme}

theorem append (h : Nested p ts) (h' : Nested p us) : Nested p (ts ++ us) := by
  induction h with
  | nil => exact h'
  | token hbracket hp _ ih => exact .token hbracket hp (ih h')
  | group hcloser hp hinside _ _ ih =>
    rw [List.cons_append, List.append_assoc, List.cons_append]
    exact .group hcloser hp hinside (ih h')

theorem mono (h : Nested p ts) (hpq : ∀ t, p t = true → q t = true) : Nested q ts := by
  induction h with
  | nil => exact .nil
  | token hbracket hp _ ih => exact .token hbracket (hpq _ hp) (ih hpq)
  | group hcloser hp hinside _ _ ih => exact .group hcloser (hpq _ hp) hinside (ih hpq)

theorem inside (h : Nested p ts) : Nested (fun _ => true) ts :=
  h.mono fun _ _ => rfl

end Nested

section

variable {allowed p : Lexeme → Bool} {ts : List Lexeme}

theorem pass?_of_not_bracket {t : Lexeme} (h : isBracket t = false) (due : List Mark) :
    pass? due t = some due := by
  cases t with
  | mark m =>
    rw [isBracket, Bool.or_eq_false_iff, Option.isSome_eq_false_iff,
      Option.isNone_iff_eq_none] at h
    simp only [pass?, h.1, h.2]
    rfl
  | _ => rfl

theorem closer?_closes {m c : Mark} (h : closer? m = some c) (due : List Mark) :
    pass? due (.mark m) = some (c :: due) ∧ pass? (c :: due) (.mark c) = some due := by
  cases m <;> cases h <;> exact ⟨rfl, rfl⟩

/-- A run goes on over allowed tokens, and between brackets over all of them. -/
theorem run?_append (h : Nested p ts) (due : List Mark)
    (hp : due = [] → ∀ t, p t = true → allowed t = true) (rest : List Lexeme) :
    run? allowed due (ts ++ rest) = (run? allowed due rest).map fun r => (ts ++ r.1, r.2) := by
  have hgo (due : List Mark) (t : Lexeme) (hp : due = [] → allowed t = true) :
      ¬(due.isEmpty && !allowed t) = true := by
    cases due with
    | nil => simp [hp rfl]
    | cons m due => simp
  induction h generalizing due rest with
  | nil => simp
  | @token p t ts hbracket ht _ ih =>
    rw [List.cons_append, run?, if_neg (hgo due t fun hdue => hp hdue t ht),
      pass?_of_not_bracket hbracket, Option.bind_some, ih due hp, Option.map_map]
    rfl
  | @group p m c inside ts hcloser hm _ _ ihinside ih =>
    obtain ⟨hopen, hclose⟩ := closer?_closes hcloser due
    have hinner : run? allowed (c :: due) (inside ++ .mark c :: (ts ++ rest)) = _ :=
      ihinside (c :: due) (by simp) _
    have hlast : run? allowed (c :: due) (.mark c :: (ts ++ rest)) =
        (run? allowed due (ts ++ rest)).map fun r => (.mark c :: r.1, r.2) := by
      rw [run?, if_neg (hgo _ _ (by simp)), hclose, Option.bind_some]
    rw [List.cons_append, List.append_assoc, List.cons_append, run?,
      if_neg (hgo due _ fun hdue => hp hdue _ hm), hopen, Option.bind_some, hinner, hlast,
      ih due hp, Option.map_map, Option.map_map, Option.map_map]
    simp [Function.comp_def]

/-- A run ends before a token that is not allowed. -/
theorem run?_eq (h : Nested allowed ts) {t : Lexeme} (ht : allowed t = false)
    (rest : List Lexeme) : run? allowed [] (ts ++ t :: rest) = some (ts, t :: rest) := by
  rw [run?_append h [] (fun _ _ hp => hp), run?]
  simp [ht]

theorem upTo?_eq (h : Nested isInner ts) (stop : Mark) (hstop : isInner (.mark stop) = false)
    (rest : List Lexeme) : upTo? stop (ts ++ .mark stop :: rest) = some (ts, rest) := by
  rw [upTo?, run?_eq h hstop]
  simp

theorem enclosed?_eq (h : Nested isInner ts) (rest : List Lexeme) :
    enclosed? (.mark .lparen :: (ts ++ .mark .rparen :: rest)) = some (ts, rest) :=
  upTo?_eq h .rparen rfl rest

theorem isInner_of_isPlain {t : Lexeme} (h : isPlain t = true) : isInner t = true := by
  cases t with
  | mark m =>
    rw [isPlain, Bool.and_eq_true] at h
    exact h.1
  | _ => rfl

end

/-! ### Declarations in context -/

def isSpecified (tagged : Bool) : List Lexeme → Bool
  | [] => !tagged
  | t :: ts =>
    match specifier? tagged t with
    | some tagged => isSpecified tagged ts
    | none => false

/-- The words of a type with the stars of pointers behind them. -/
inductive TypeForm : List Lexeme → Prop
  | mk {words : List Lexeme} (stars : Nat) : isSpecified false words = true → words ≠ [] →
      TypeForm (words ++ List.replicate stars (.mark .star))

structure CDecl.Tidy (types : List String) (d : CDecl) : Prop where
  type : TypeForm d.type
  name : isFree types d.name = true
  dims : Nested (· == .mark .lbracket) d.dims
  init : ∀ e ∈ d.init, Nested isInner e

def CDecl.tokens (d : CDecl) : List Lexeme :=
  d.type ++ .word d.name :: (d.dims ++ (d.init.map (.mark .eq :: ·)).getD [])

section

variable {types : List String}

/-- The words of a type are taken up to the first token that is none. -/
theorem specifiers_eq {tagged : Bool} {words rest : List Lexeme}
    (h : isSpecified tagged words = true) (hrest : ∀ t ∈ rest.head?, specifier? false t = none) :
    specifiers tagged (words ++ rest) = (words, rest) := by
  induction words generalizing tagged with
  | nil =>
    cases tagged with
    | true => cases h
    | false =>
      cases rest with
      | nil => rfl
      | cons t rest => simp [specifiers, hrest t rfl]
  | cons t words ih =>
    rw [isSpecified] at h
    rw [List.cons_append, specifiers]
    split at h
    · rw [ih h]
    · cases h

theorem isKeyword_of_mem {w : String} (h : w = "struct" ∨ w ∈ typeWords) : isKeyword w = true := by
  have hall : ∀ v ∈ typeWords, isKeyword v = true := by decide
  rcases h with rfl | h
  · decide
  · exact hall w h

/-- Names are no words of types. -/
theorem not_specifier_of_isFree {w : String} (h : isFree types w = true) :
    ¬(w = "struct" ∨ w ∈ typeWords) := by
  intro hmem
  simp [isFree, isKeyword_of_mem hmem] at h

theorem specifier?_name {w : String} (h : isFree types w = true) :
    specifier? false (.word w) = none := by
  have hnot := not_specifier_of_isFree h
  rw [not_or] at hnot
  simp [specifier?, hnot]

/-- A type starts with a keyword. -/
theorem isSpecified_front {words : List Lexeme} (h : isSpecified false words = true)
    (hne : words ≠ []) :
    ∃ w rest, words = .word w :: rest ∧ (w = "struct" ∨ w ∈ typeWords) := by
  cases words with
  | nil => exact absurd rfl hne
  | cons t rest =>
    cases t with
    | word w =>
      by_cases hmem : w = "struct" ∨ w ∈ typeWords
      · exact ⟨w, rest, rfl, hmem⟩
      · rw [not_or] at hmem
        simp [isSpecified, specifier?, hmem] at h
    | _ => cases h

theorem TypeForm.front {type : List Lexeme} (h : TypeForm type) :
    ∃ w rest, type = .word w :: rest ∧ (w = "struct" ∨ w ∈ typeWords) := by
  obtain ⟨stars, hwords, hne⟩ := h
  obtain ⟨w, rest, rfl, hmem⟩ := isSpecified_front hwords hne
  exact ⟨w, _, rfl, hmem⟩

theorem takeWhile_stars (stars : Nat) {t : Lexeme} (ht : t ≠ .mark .star) (rest : List Lexeme) :
    (List.replicate stars (Lexeme.mark .star) ++ t :: rest).takeWhile (· == .mark .star) =
        List.replicate stars (Lexeme.mark .star) ∧
      (List.replicate stars (Lexeme.mark .star) ++ t :: rest).dropWhile (· == .mark .star) =
        t :: rest := by
  induction stars with
  | zero => simp [ht]
  | succ stars ih =>
    rw [List.replicate_succ, List.cons_append, List.takeWhile_cons_of_pos (by simp),
      List.dropWhile_cons_of_pos (by simp), ih.1, ih.2]
    exact ⟨rfl, rfl⟩

theorem typeWordsAt_eq {words rest : List Lexeme} (h : isSpecified false words = true)
    (hne : words ≠ []) (hrest : ∀ t ∈ rest.head?, specifier? false t = none) :
    typeWordsAt types (words ++ rest) = (words, rest) := by
  obtain ⟨w, more, hwords, hmem⟩ := isSpecified_front h hne
  have hname : isTypeName types w = false := by simp [isTypeName, isKeyword_of_mem hmem]
  have hall := specifiers_eq h hrest
  rw [hwords] at hall ⊢
  simp only [typeWordsAt, List.cons_append, List.head?_cons, hname]
  exact hall

/-- A type and a free name behind it are read as a declarator. -/
theorem declarator?_eq {type : List Lexeme} (h : TypeForm type) {name : String}
    (hname : isFree types name = true) (rest : List Lexeme) :
    declarator? types (type ++ .word name :: rest) = some ((type, name), rest) := by
  obtain ⟨stars, hwords, hne⟩ := h
  rename_i words
  have hnext : ∀ t ∈ (List.replicate stars (Lexeme.mark .star) ++ .word name :: rest).head?,
      specifier? false t = none := by
    intro t ht
    cases stars with
    | zero =>
      cases ht
      exact specifier?_name hname
    | succ stars =>
      cases ht
      rfl
  have htype : typeWordsAt types (words ++ _) = _ := typeWordsAt_eq hwords hne hnext
  obtain ⟨hstars, hbehind⟩ := takeWhile_stars stars (t := .word name) (by simp) rest
  rw [declarator?, List.append_assoc, htype]
  simp only [hstars, hbehind, List.isEmpty_iff, if_neg hne, List.head?_cons, hname, if_true,
    List.tail_cons]

/-- A tidy declaration is read back up to its semicolon. -/
theorem declaration?_eq {d : CDecl} (h : d.Tidy types) (rest : List Lexeme) :
    declaration? types (d.tokens ++ .mark .semicolon :: rest) = some (d, rest) := by
  obtain ⟨type, name, dims, init⟩ := d
  have hdecl := declarator?_eq h.type h.name
    ((dims ++ (init.map (.mark .eq :: ·)).getD []) ++ .mark .semicolon :: rest)
  simp only [CDecl.tokens, List.append_assoc, List.cons_append] at hdecl ⊢
  rw [declaration?, hdecl, Option.bind_some]
  cases init with
  | none =>
    have hdims := run?_eq h.dims (t := .mark .semicolon) rfl rest
    simp only [Option.map_none, Option.getD_none, List.nil_append, hdims, Option.bind_some,
      List.head?_cons, if_true, List.tail_cons]
  | some e =>
    have hdims := run?_eq h.dims (t := .mark .eq) rfl (e ++ .mark .semicolon :: rest)
    have hinit := upTo?_eq (h.init e rfl) .semicolon rfl rest
    simp only [Option.map_some, Option.getD_some, List.cons_append, hdims, Option.bind_some,
      List.head?_cons, List.tail_cons, hinit]
    rfl

end

end StagedCompiler.CSyntax
