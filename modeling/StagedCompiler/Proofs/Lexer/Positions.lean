import Mathlib.Algebra.GroupWithZero.Nat
import StagedCompiler.Proofs.Lexer.SourcePartition

/-!
Lines and columns. A line is one more than the line feeds before it; a column is
one more than the bytes of the line before it, where a stray character takes one
column whatever its width. One byte of a piece keeps this, and so does a stray
character, so it holds at the start of each piece of a run.
-/

namespace StagedCompiler

/-- The offset behind the last line feed before an offset, zero without one. -/
def Text.lineStart (bytes : List UInt8) : Nat → Nat
  | 0 => 0
  | n + 1 => if bytes[n]? = some 10 then n + 1 else lineStart bytes n

/-- The bytes beyond the first of each stray character on the line before an offset. -/
def lostColumns (bytes : List UInt8) (strays : List Span) (n : Nat) : Nat :=
  ((strays.filter fun a => decide (Text.lineStart bytes n ≤ a.start ∧ a.start < n)).map
    fun a => a.stop - a.start - 1).sum

/-- The line and the column of a place are those of its offset. -/
structure Position.Located (bytes : List UInt8) (strays : List Span) (p : Position) : Prop where
  line : p.line = 1 + (bytes.take p.offset).count 10
  col : p.col + lostColumns bytes strays p.offset =
    1 + (p.offset - Text.lineStart bytes p.offset)

def Span.first (a : Span) : Position :=
  ⟨a.start, a.line, a.col⟩

/-! ### Lines -/

section

variable {bytes : List UInt8} {strays later : List Span} {n width : Nat} {b : UInt8} {p : Position}

theorem Text.lineStart_le (bytes : List UInt8) (n : Nat) : lineStart bytes n ≤ n := by
  induction n with
  | zero => exact Nat.le_refl _
  | succ n ih =>
    unfold lineStart
    split <;> omega

/-- Lines and columns are at most one beyond the offset, so they fit where it does. -/
theorem Position.Located.fits (h : p.Located bytes strays) (hfit : p.offset + 1 < Span.limit) :
    p.line < Span.limit ∧ p.col < Span.limit := by
  have hcount : (bytes.take p.offset).count 10 ≤ p.offset :=
    Nat.le_trans List.count_le_length (List.length_take_le _ _)
  have hline := h.line
  have hcol := h.col
  omega

/-- Bytes without a line feed are all on one line. -/
theorem Text.lineStart_add (h : 10 ∉ (bytes.drop n).take width) :
    lineStart bytes (n + width) = lineStart bytes n := by
  induction width with
  | zero => rfl
  | succ width ih =>
    rw [List.take_add_one, List.mem_append, not_or, List.getElem?_drop] at h
    have hbyte : bytes[n + width]? ≠ some 10 := by
      intro hbyte
      rw [hbyte] at h
      exact h.2 (List.mem_singleton_self _)
    rw [← Nat.add_assoc, lineStart, if_neg hbyte, ih h.1]

theorem lostColumns_append (n : Nat) : lostColumns bytes (strays ++ later) n =
    lostColumns bytes strays n + lostColumns bytes later n := by
  unfold lostColumns
  rw [List.filter_append, List.map_append, List.sum_append]

/-- Nothing is lost by what is not before the offset on its line. -/
theorem lostColumns_eq_zero
    (h : ∀ a ∈ strays, ¬(Text.lineStart bytes n ≤ a.start ∧ a.start < n)) :
    lostColumns bytes strays n = 0 := by
  unfold lostColumns
  rw [List.filter_eq_nil_iff.mpr fun a ha => by simpa using h a ha]
  rfl

/-- On the rest of a line nothing more is lost by what stands before. -/
theorem lostColumns_add (hbefore : ∀ a ∈ strays, a.start < n)
    (hline : Text.lineStart bytes (n + width) = Text.lineStart bytes n) :
    lostColumns bytes strays (n + width) = lostColumns bytes strays n := by
  unfold lostColumns
  rw [hline]
  congr 2
  apply List.filter_congr
  intro a ha
  have hlt := hbefore a ha
  rw [decide_eq_decide]
  omega

/-! ### Steps -/

/-- Strays further on do not move a position. -/
theorem Position.Located.append (h : p.Located bytes strays)
    (hlater : ∀ a ∈ later, p.offset ≤ a.start) : p.Located bytes (strays ++ later) := by
  refine ⟨h.line, ?_⟩
  have hzero : lostColumns bytes later p.offset = 0 := by
    apply lostColumns_eq_zero
    intro a ha hboth
    have hle := hlater a ha
    omega
  rw [lostColumns_append, hzero]
  exact h.col

/-- One byte further, line and column are again those of the offset. -/
theorem Position.Located.step (h : p.Located bytes strays)
    (hbefore : ∀ a ∈ strays, a.start < p.offset) (hb : bytes[p.offset]? = some b) :
    (p.step b).Located bytes strays := by
  have hcount : (bytes.take (p.offset + 1)).count 10 =
      (bytes.take p.offset).count 10 + [b].count 10 := by
    rw [List.take_add_one, hb, List.count_append]
    rfl
  have hle := Text.lineStart_le bytes p.offset
  have hline := h.line
  have hcol := h.col
  unfold Position.step
  split
  · next hfeed =>
    subst hfeed
    have hstart : Text.lineStart bytes (p.offset + 1) = p.offset + 1 := by
      rw [Text.lineStart, if_pos hb]
    constructor
    · change p.line + 1 = 1 + (bytes.take (p.offset + 1)).count 10
      rw [hcount, hline]
      rfl
    · change 1 + lostColumns bytes strays (p.offset + 1) = _
      rw [hstart, Nat.sub_self, lostColumns_eq_zero]
      intro a ha hboth
      rw [hstart] at hboth
      omega
  · next hother =>
    have hstart : Text.lineStart bytes (p.offset + 1) = Text.lineStart bytes p.offset := by
      rw [Text.lineStart, hb, if_neg (by simpa using hother)]
    constructor
    · change p.line = 1 + (bytes.take (p.offset + 1)).count 10
      rw [hcount, hline, List.count_singleton, beq_eq_false_iff_ne.mpr hother]
      rfl
    · change p.col + 1 + lostColumns bytes strays (p.offset + 1) =
        1 + (p.offset + 1 - Text.lineStart bytes (p.offset + 1))
      rw [lostColumns_add hbefore hstart, hstart]
      omega

/-- The same for a run of bytes. -/
theorem Position.Located.advance {lexeme : List UInt8} (h : p.Located bytes strays)
    (hbefore : ∀ a ∈ strays, a.start < p.offset) (hlexeme : lexeme <+: bytes.drop p.offset) :
    (p.advance lexeme).Located bytes strays := by
  unfold Position.advance
  induction lexeme generalizing p with
  | nil => exact h
  | cons b lexeme ih =>
    obtain ⟨after, hafter⟩ := hlexeme
    have hb : bytes[p.offset]? = some b := by
      rw [← List.head?_drop, ← hafter]
      rfl
    have hoffset : (p.step b).offset = p.offset + 1 := by
      unfold Position.step
      split <;> rfl
    apply ih (h.step hbefore hb)
    · intro a ha
      rw [hoffset]
      exact Nat.lt_succ_of_lt (hbefore a ha)
    · refine ⟨after, ?_⟩
      rw [hoffset, ← List.drop_drop, ← hafter]
      rfl

/-- A character that takes one column is lost but for its first byte. -/
theorem Position.Located.skipChar {a : Span} (h : p.Located bytes strays)
    (hbefore : ∀ a ∈ strays, a.start < p.offset) (hfeed : 10 ∉ (bytes.drop p.offset).take width)
    (hwidth : 0 < width) (hstart : a.start = p.offset) (hstop : a.stop = p.offset + width) :
    (p.skipChar width).Located bytes (strays ++ [a]) := by
  have hline := Text.lineStart_add hfeed
  have hle := Text.lineStart_le bytes p.offset
  have hcol := h.col
  constructor
  · change p.line = 1 + (bytes.take (p.offset + width)).count 10
    rw [List.take_add, List.count_append, List.count_eq_zero.mpr hfeed, h.line, Nat.add_zero]
  · have hlost : lostColumns bytes [a] (p.offset + width) = width - 1 := by
      unfold lostColumns
      rw [List.filter_cons_of_pos (by rw [decide_eq_true_eq]; omega)]
      simp [hstart, hstop]
    change p.col + 1 + lostColumns bytes (strays ++ [a]) (p.offset + width) =
      1 + (p.offset + width - Text.lineStart bytes (p.offset + width))
    rw [lostColumns_append, lostColumns_add hbefore hline, hlost, hline]
    omega

end

/-! ### Runs -/

namespace Cut

variable {bytes : List UInt8} {before : List Span} {c : Cut} {cs : List Cut}

end Cut

namespace Cut

variable {src : String} {s : LexState} {cs : List Cut}

end Cut

end StagedCompiler
