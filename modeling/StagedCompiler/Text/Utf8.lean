/-!
Text as UTF-8 bytes. Sources are read byte by byte, so a reader may stand
inside a character; these functions say what stands at the front of a byte
sequence and turn collected bytes back into text.
-/

namespace StagedCompiler.Text

def bytes (text : String) : List UInt8 :=
  text.toByteArray.data.toList

/-- The character that the bytes start with, if a whole one stands there. -/
def firstChar? (bytes : List UInt8) : Option Char :=
  (bytes.take 4).toByteArray.utf8DecodeChar? 0

/-- Character by character, with U+FFFD for each byte that starts no
character. The first `skip` bytes belong to a character already read, and
`done` holds the characters so far, last one first. -/
def decodeFrom (skip : Nat) (done : List Char) : List UInt8 → List Char
  | [] => done.reverse
  | b :: rest =>
    match skip with
    | n + 1 => decodeFrom n done rest
    | 0 =>
      match firstChar? (b :: rest) with
      | some c => decodeFrom (c.utf8Size - 1) (c :: done) rest
      | none => decodeFrom 0 ('\uFFFD' :: done) rest

/-- The text of a byte sequence. A sequence that is the encoding of a text
yields that text; in any other, U+FFFD stands for what cannot be read. -/
def ofBytes (bytes : List UInt8) : String :=
  match String.fromUTF8? bytes.toByteArray with
  | some text => text
  | none => String.ofList (decodeFrom 0 [] bytes)

/-- The text of bytes that each stand for the character with that code. -/
def ofLatin1 (bytes : List UInt8) : String :=
  String.ofList (bytes.map fun b => Char.ofNat b.toNat)

theorem toNat_ofNat_byte (b : UInt8) : (Char.ofNat b.toNat).toNat = b.toNat := by
  have hvalid : b.toNat.isValidChar := .inl (Nat.lt_trans b.toNat_lt (by decide))
  rw [Char.ofNat, dif_pos hvalid]
  rfl

end StagedCompiler.Text
