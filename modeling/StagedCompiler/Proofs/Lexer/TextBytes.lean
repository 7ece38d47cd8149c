import Mathlib.Tactic.SplitIfs
import StagedCompiler.Text.Utf8

/-!
Texts and their bytes. A character of ASCII is the byte of its code, and no byte
of any other character is in ASCII; the bytes of a text give the text back. Every
offset of a text is inside of a character, or one starts there.
-/

namespace StagedCompiler.Text

/-- The longest run at the front ends where the next element does not belong to it. -/
theorem takeWhile_append_head {α : Type} {p : α → Bool} {xs rest : List α}
    (hxs : xs.all p = true) (hrest : ∀ x ∈ rest.head?, p x = false) :
    (xs ++ rest).takeWhile p = xs := by
  rw [List.takeWhile_append_of_pos (List.all_eq_true.mp hxs)]
  cases rest with
  | nil => simp
  | cons x rest => simp [hrest x rfl]

theorem isDigit_iff {c : Char} : c.isDigit = true ↔ 48 ≤ c.toNat ∧ c.toNat ≤ 57 := by
  simp [Char.isDigit, UInt32.le_iff_toNat_le, ← Char.toNat_val]

theorem bytes_append (text more : String) : bytes (text ++ more) = bytes text ++ bytes more := by
  simp [bytes]

theorem bytes_eq (text : String) :
    bytes text = text.toList.flatMap String.utf8EncodeChar := by
  have h : (String.ofList text.toList).toByteArray = text.toList.utf8Encode :=
    String.toByteArray_ofList
  rw [String.ofList_toList] at h
  rw [bytes, h, List.utf8Encode, List.data_toByteArray]

/-- A character is one byte, or its bytes are all outside of ASCII. -/
theorem utf8EncodeChar_cases (c : Char) :
    (∃ b : UInt8, String.utf8EncodeChar c = [b] ∧ Char.ofNat b.toNat = c) ∨
      ∃ b bs, String.utf8EncodeChar c = b :: bs ∧ ∀ d ∈ b :: bs, 128 ≤ d.toNat := by
  rw [String.utf8EncodeChar]
  split_ifs with h1 h2 h3
  · have hbyte : (UInt8.ofNat c.val.toNat).toNat = c.toNat := by
      rw [UInt8.toNat_ofNat']
      exact Nat.mod_eq_of_lt (by omega)
    exact .inl ⟨_, rfl, by rw [hbyte, Char.ofNat_toNat]⟩
  · exact .inr ⟨_, _, rfl, by simp; omega⟩
  · exact .inr ⟨_, _, rfl, by simp; omega⟩
  · exact .inr ⟨_, _, rfl, by simp; omega⟩

/-- A character is decoded exactly where its encoding stands. -/
theorem utf8DecodeChar?_eq_some_iff {array : ByteArray} {c : Char} :
    array.utf8DecodeChar? 0 = some c ↔ String.utf8EncodeChar c <+: array.data.toList := by
  constructor
  · intro h
    obtain ⟨more, rfl⟩ := ByteArray.exists_of_utf8DecodeChar?_eq_some h
    exact ⟨more.data.toList, by simp⟩
  · rintro ⟨more, hmore⟩
    have harray : array = (String.utf8EncodeChar c).toByteArray ++ more.toByteArray := by
      rw [ByteArray.ext_iff, ← Array.toList_inj, ← hmore]
      simp
    rw [harray]
    exact ByteArray.utf8DecodeChar?_utf8EncodeChar_append

/-- A character stands at the front if its bytes do. -/
theorem firstChar?_eq_some_iff {bytes : List UInt8} {c : Char} :
    firstChar? bytes = some c ↔ String.utf8EncodeChar c <+: bytes := by
  rw [firstChar?, utf8DecodeChar?_eq_some_iff, List.data_toByteArray, List.prefix_take_iff]
  -- Four bytes are enough for any character.
  rw [String.length_utf8EncodeChar, and_iff_left c.utf8Size_le_four]

/-- A character stands at an offset unless the offset is inside of one. -/
theorem isSome_firstChar?_drop {src : String} {k : Nat} (hk : k < src.utf8ByteSize) :
    (firstChar? ((bytes src).drop k)).isSome ↔ (⟨k⟩ : String.Pos.Raw).IsValid src := by
  have hnotEnd : (⟨k⟩ : String.Pos.Raw) ≠ src.rawEndPos := by
    intro heq
    rw [String.Pos.Raw.ext_iff] at heq
    exact Nat.ne_of_lt hk heq
  have hdrop :
      (src.toByteArray.extract k src.toByteArray.size).data.toList = (bytes src).drop k := by
    simp [bytes, List.take_of_length_le]
  rw [String.Pos.Raw.isValid_iff_isSome_utf8DecodeChar?, or_iff_right hnotEnd,
    ByteArray.utf8DecodeChar?_eq_utf8DecodeChar?_extract, Option.isSome_iff_exists,
    Option.isSome_iff_exists]
  simp only [firstChar?_eq_some_iff, utf8DecodeChar?_eq_some_iff, hdrop]

theorem bytes_ofList_ascii {cs : List Char} (h : ∀ c ∈ cs, c.toNat < 128) :
    bytes (String.ofList cs) = cs.map fun c => UInt8.ofNat c.toNat := by
  rw [bytes_eq, String.toList_ofList]
  induction cs with
  | nil => rfl
  | cons c cs ih =>
    have hc : c.val.toNat ≤ 127 := Nat.le_of_lt_succ (h c (by simp))
    rw [List.flatMap_cons, ih fun d hd => h d (by simp [hd]), String.utf8EncodeChar, if_pos hc]
    rfl

theorem fromUTF8?_bytes (text : String) :
    String.fromUTF8? (bytes text).toByteArray = some text := by
  have hbytes : (bytes text).toByteArray = text.toByteArray := by
    rw [bytes, ByteArray.ext_iff, List.data_toByteArray, Array.toArray_toList]
  rw [hbytes, String.fromUTF8?, dif_pos text.isValidUTF8]
  rfl

theorem ofBytes_bytes (text : String) : ofBytes (bytes text) = text := by
  rw [ofBytes, fromUTF8?_bytes]

theorem ofLatin1_bytes {text : String} (h : ∀ b ∈ bytes text, b.toNat < 128) :
    ofLatin1 (bytes text) = text := by
  rw [← String.toList_inj, ofLatin1, String.toList_ofList]
  rw [bytes_eq] at h ⊢
  generalize text.toList = cs at h ⊢
  induction cs with
  | nil => rfl
  | cons c cs ih =>
    rw [List.flatMap_cons] at h ⊢
    rcases utf8EncodeChar_cases c with ⟨b, hb, hc⟩ | ⟨b, bs, hb, hhigh⟩
    · rw [List.map_append, ih fun d hd => h d (by simp [hd]), hb, List.map_singleton, hc]
      rfl
    · have hlow := h b (by simp [hb])
      have := hhigh b (by simp)
      omega

theorem bytes_ofLatin1 {bs : List UInt8} (h : ∀ b ∈ bs, b.toNat < 128) :
    bytes (ofLatin1 bs) = bs := by
  have hascii : ∀ c ∈ bs.map fun b => Char.ofNat b.toNat, c.toNat < 128 := by
    intro c hc
    obtain ⟨b, hb, rfl⟩ := List.mem_map.mp hc
    rw [toNat_ofNat_byte]
    exact h b hb
  have hback (b : UInt8) (_ : b ∈ bs) :
      ((fun c : Char => UInt8.ofNat c.toNat) ∘ fun b : UInt8 => Char.ofNat b.toNat) b = id b := by
    rw [Function.comp_apply, toNat_ofNat_byte, UInt8.ofNat_toNat, id]
  rw [ofLatin1, bytes_ofList_ascii hascii, List.map_map, List.map_congr_left hback, List.map_id]

end StagedCompiler.Text
