import ByteLexer.Proofs.Cuts
import ByteLexer.Proofs.Stream
import ByteLexer.Proofs.Utf8

/-!
# Tokens between characters

The default rules look at single bytes, and yet no token of a text begins or ends inside a
character. It begins with a byte below 128, and it ends with one or with the text; such a byte is a
character of its own. So the text falls into three strings, and decoding the bytes of the token
gives the one in the middle.
-/

namespace ByteLexer

open Text.Utf8 (encode decodeLossy)

variable {src : Source} {settings : Settings} {text : String} {pre w rest : List UInt8} {n : Nat}
  {kind : TokenKind} {earlier later : List Token} {token : Token} {l : Lexer}

/-- What the default rules read in a text is a string with one before it and one behind it. -/
lemma Rule.strings_of_defaultReading (htext : encode text = pre ++ (w ++ rest))
    (hlen : (w ++ rest).length ≤ Pattern.unbounded)
    (hread : defaultReading settings (w ++ rest) = some (kind, w)) :
    ∃ front back : String, text = front ++ decodeLossy w ++ back ∧
      encode front = pre ∧ encode (decodeLossy w) = w := by
  have hvalid : Text.Utf8.isValid (pre ++ (w ++ rest)) = true :=
    Text.Utf8.isValid_iff_exists_encode.mpr ⟨text, htext⟩
  have hlast := (defaultReading_cut hlen hread).last
  obtain ⟨b, hb, hascii, -⟩ := first_ascii hread
  cases w with
  | nil => exact (defaultReading_ne_nil hread rfl).elim
  | cons b' w =>
    cases hb
    have hpre := Text.Utf8.isValid_before hvalid hascii
    have hpiece := Text.Utf8.isValid_piece hvalid hascii hlast
    have hrest : Text.Utf8.isValid rest = true := by
      rwa [Text.Utf8.isValid_append_iff hpre, Text.Utf8.isValid_append_iff hpiece] at hvalid
    have hpre := Text.Utf8.encode_decodeLossy hpre
    have hpiece := Text.Utf8.encode_decodeLossy hpiece
    have hrest := Text.Utf8.encode_decodeLossy hrest
    refine ⟨decodeLossy pre, decodeLossy rest, ?_, hpre, hpiece⟩
    apply Text.Utf8.encode_injective
    rw [Text.Utf8.encode_append, Text.Utf8.encode_append, hpre, hpiece, hrest, htext,
      List.append_assoc]

namespace Lexer

/-- A step of the stream that has a token goes over a string, and that string is the lexeme. -/
lemma strings_of_next (htext : src.bytes.toList = encode text)
    (hsize : src.bytes.size ≤ Pattern.unbounded) (hn : n ≤ src.bytes.size)
    (hnext : (before src settings n).next = (some token, l)) :
    ∃ front back : String, text = front ++ token.lexeme ++ back ∧
      front.utf8ByteSize = token.position.offset ∧
      (front ++ token.lexeme).utf8ByteSize = l.cursor.offset := by
  obtain ⟨first, hfirst, -, -, ⟨hnone, -⟩ | ⟨kind, w, hle, hsome, hw, hread⟩⟩ :=
    next_before_cases hsize settings hn
  · cases (Prod.mk.inj (hnext.symm.trans hnone)).1
  · obtain ⟨htoken, rfl⟩ := Prod.mk.inj (hnext.symm.trans hsome)
    obtain rfl := Option.some.inj htoken
    have hcut : encode text = src.bytes.toList.take first ++
        (w ++ src.bytes.toList.drop (first + w.length)) := by
      rw [← htext, ← hw, List.take_append_drop]
    have hlen := length_drop_le hsize first
    rw [hw] at hread hlen
    obtain ⟨front, back, hstrings, hfront, hlexeme⟩ :=
      Rule.strings_of_defaultReading hcut hlen hread
    have hbegin : front.utf8ByteSize = first := by
      rw [← Text.Utf8.length_encode, hfront, List.length_take, Array.length_toList,
        Nat.min_eq_left hfirst]
    have hend : (front ++ decodeLossy w).utf8ByteSize = first + w.length := by
      rw [String.utf8ByteSize_append, hbegin, ← Text.Utf8.length_encode, hlexeme]
    have hoffset : (Token.ofBytes kind (src.placeAt first) w).position.offset = first :=
      Source.offset_placeAt hfirst
    rw [hoffset, offset_before hle]
    exact ⟨front, back, hstrings, hbegin, hend⟩

/-- Every token of a text begins between two characters of the text and ends between two, where the
lexer stands behind it, and its lexeme is the part of the text in between. -/
theorem tokens_between_characters (text : String) (settings : Settings)
    (hfits : FitsMemory (encode text).toArray)
    (htokens : (ofBytes (encode text).toArray settings).tokens.1 = earlier ++ token :: later) :
    ∃ l l', (ofBytes (encode text).toArray settings).Gives earlier l ∧
      l.next = (some token, l') ∧
      String.Pos.Raw.IsValid text ⟨token.position.offset⟩ ∧
      String.Pos.Raw.IsValid text ⟨l'.cursor.offset⟩ ∧
      ∃ front back : String, text = front ++ token.lexeme ++ back ∧
        front.utf8ByteSize = token.position.offset ∧
        (front ++ token.lexeme).utf8ByteSize = l'.cursor.offset := by
  have hsize := hfits.le_unbounded
  obtain ⟨tokens, stop, hrun⟩ := exists_yields ⟨settings.sourceName, (encode text).toArray⟩ settings
  have hall : (ofBytes (encode text).toArray settings).tokens.1 = tokens :=
    congrArg Prod.fst hrun.tokens_eq
  obtain ⟨l, l', hgives, hnext⟩ := hrun.gives_at (hall.symm.trans htokens)
  obtain ⟨n, hn, rfl⟩ := hgives.place (Nat.zero_le _)
  obtain ⟨front, back, htext, hbegin, hend⟩ := strings_of_next List.toList_toArray hsize hn hnext
  refine ⟨_, l', hgives, hnext, ?_, ?_, front, back, htext, hbegin, hend⟩
  · rw [String.Pos.Raw.isValid_iff_exists_append, ← hbegin]
    exact ⟨front, token.lexeme ++ back, htext.trans String.append_assoc, rfl⟩
  · rw [String.Pos.Raw.isValid_iff_exists_append, ← hend]
    exact ⟨front ++ token.lexeme, back, htext, rfl⟩

/-- A backslash in front of a letter of two bytes, of which it escapes the first. -/
theorem tokens_between_characters_escape :
    let text := "/* é */ \"\\é\" x"
    let start := ofBytes (encode text).toArray { keepComments := true }
    let earlier : List Token := [⟨.comment, ⟨1, 1, 0⟩, "/* é */"⟩]
    let token : Token := ⟨.text, ⟨1, 10, 9⟩, "\"\\é\""⟩
    let later : List Token := [⟨.identifier, ⟨1, 16, 15⟩, "x"⟩]
    FitsMemory (encode text).toArray ∧ start.tokens.1 = earlier ++ token :: later ∧
    ∃ l l', start.Gives earlier l ∧ l.next = (some token, l') ∧
      String.Pos.Raw.IsValid text ⟨9⟩ ∧ String.Pos.Raw.IsValid text ⟨l'.cursor.offset⟩ ∧
      ∃ front back : String, text = front ++ token.lexeme ++ back ∧
        front.utf8ByteSize = 9 ∧ (front ++ token.lexeme).utf8ByteSize = l'.cursor.offset := by
  intro text start earlier token later
  have hfits : FitsMemory (encode text).toArray := by decide
  have htokens : start.tokens.1 = earlier ++ token :: later := by decide +kernel
  exact ⟨hfits, htokens, tokens_between_characters text { keepComments := true } hfits htokens⟩

end Lexer

end ByteLexer
