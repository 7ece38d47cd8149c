import Std.Data.TreeMap.Lemmas

/-!
The table of names and literal texts. Each distinct text is stored once and
referred to by its place in the table; nothing is ever removed or renumbered.
-/

namespace StagedCompiler

/-- The place of a text in an `Interner`. -/
abbrev Symbol := Nat

/-- Texts in the order of first appearance, with an index kept in step: a text
is indexed at a place exactly if it stands there. -/
structure Interner where
  strings : Array String := #[]
  index : Std.TreeMap String Symbol := {}
  index_iff (text : String) (sym : Symbol) :
    index[text]? = some sym ↔ strings[sym]? = some text := by simp

namespace Interner

def empty : Interner := {}

def get? (t : Interner) (text : String) : Option Symbol :=
  t.index[text]?

/-- The text of a symbol; a symbol of another table has none. -/
def resolve? (t : Interner) (sym : Symbol) : Option String :=
  t.strings[sym]?

/-- The text of a symbol, empty for a symbol of another table. -/
def resolve (t : Interner) (sym : Symbol) : String :=
  (t.resolve? sym).getD ""

def size (t : Interner) : Nat :=
  t.strings.size

def append (t : Interner) (text : String) (fresh : t.index[text]? = none) : Interner where
  strings := t.strings.push text
  index := t.index.insert text t.strings.size
  index_iff := by
    intro other sym
    have unused : t.strings[sym]? ≠ some text := by
      intro h
      rw [(t.index_iff text sym).mpr h] at fresh
      cases fresh
    rw [Std.TreeMap.getElem?_insert, Array.getElem?_push]
    by_cases same : text = other
    · subst same
      by_cases last : sym = t.strings.size
      · simp [last]
      · simp [last, Ne.symm last, unused]
    · by_cases last : sym = t.strings.size
      · subst last
        simp [same, t.index_iff]
      · simp [same, last, t.index_iff]

/-- The symbol of a text, which joins the table at its end if it is new. -/
def intern (t : Interner) (text : String) : Symbol × Interner :=
  match h : t.index[text]? with
  | some sym => (sym, t)
  | none =>
    let sym := t.strings.size
    (sym, t.append text h)

end Interner

end StagedCompiler
