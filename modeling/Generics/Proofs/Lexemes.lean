/-
# The tokens of a byte string

The tokens of a byte string and the blanks between them are all of it. `Lexeme` says which bytes are a token,
given the bytes that come after them, and `Covers` that tokens lie one behind the other from an offset on,
with blanks between them, up to the end of the bytes. No decoding is spoken of: characters stand in the bytes
in their UTF-8 encoding, and a byte at which no character is encoded is a token of its own.

What is a token is read as that token (`Cursor.tokens_lexeme`). So the tokens that are read cover the bytes
(`Cursor.covers_tokens`), and no others do, as far as kinds, offsets and data go (`Covers.facts_eq`). All of
this is over any alphabet that has not the replacement character, which stands for stray bytes, in it. An
alphabet may have blanks and punctuation in it: blanks are skipped first, and identifiers go before
punctuation.
-/

import Generics.Proofs.Lexing

namespace Generics.Expr

open Text

/-- Punctuation is no end, and it can be used. -/
theorem punctuation_kind {c : Char} {kind : Kind} (h : Kind.punctuation? c = some kind) :
    kind ≠ .finish ∧ kind ≠ .illegal := by
  unfold Kind.punctuation? at h
  split at h <;> cases h <;> simp

/-- The bytes of a text's glyphs are those of the text. -/
theorem flatMap_bytes_ofText (s : String) : (Glyph.ofText s).flatMap Glyph.bytes = Bytes.ofText s := by
  rw [Glyph.ofText, List.flatMap_map]
  rfl

/-- The glyphs of a text are shown as the text. -/
theorem textOf_ofText (s : String) : Glyph.textOf (Glyph.ofText s) = s := by
  simp [Glyph.textOf, Glyph.ofText, Glyph.ofChar, Function.comp_def]

section Alphabet

variable [Alphabet]

/-- The character is no blank, opens no identifier, and is no punctuation. -/
structure Unusable (c : Char) : Prop where
  blank : isBlank c = false
  opens : opensIdentifier c = false
  sign : Kind.punctuation? c = none

/-- An alphabet that has not the replacement character in it cannot use it. -/
theorem unusable_replacement (h : Alphabet.Avoids Glyph.replacement) : Unusable Glyph.replacement :=
  ⟨by decide, not_opens_of_avoids h (by decide), rfl⟩

/-- The bytes `lexeme` are a token of a kind that carries a text, before the bytes `rest`. -/
inductive Lexeme : Kind → String → Bytes → Bytes → Prop
  /-- An identifier that does not start with a blank, and with which what follows does not go on. -/
  | ident {s : String} {rest : Bytes} (hs : isIdentifier s = true)
    (hstart : ∀ c ∈ s.toList.head?, isBlank c = false)
    (hrest : ∀ c, String.utf8EncodeChar c <+: rest → extendsIdentifier c = false) :
    Lexeme .ident s (Bytes.ofText s) rest
  /-- A character of punctuation that opens no identifier. -/
  | sign {c : Char} {kind : Kind} {rest : Bytes} (h : Kind.punctuation? c = some kind)
    (hopens : opensIdentifier c = false) :
    Lexeme kind "" (String.utf8EncodeChar c) rest
  /-- A character that cannot be used. -/
  | illegal {c : Char} {rest : Bytes} (h : Unusable c) :
    Lexeme .illegal (String.singleton c) (String.utf8EncodeChar c) rest
  /-- A byte at which no character is encoded. -/
  | stray {b : UInt8} {rest : Bytes} (h : Glyph.Malformed (b :: rest)) :
    Lexeme .illegal (String.singleton Glyph.replacement) [b] rest

/-- From the offset on the bytes are tokens and blanks between them, and then the end. -/
inductive Covers : Nat → Bytes → List Token → Prop
  | finish {offset : Nat} : Covers offset [] [⟨.finish, offset, []⟩]
  | blank {offset : Nat} {c : Char} {rest : Bytes} {ts : List Token} (hc : isBlank c = true)
    (hrest : Covers (offset + (String.utf8EncodeChar c).length) rest ts) :
    Covers offset (String.utf8EncodeChar c ++ rest) ts
  | token {t : Token} {lexeme rest : Bytes} {ts : List Token} (ht : Lexeme t.kind t.data lexeme rest)
    (hrest : Covers (t.offset + lexeme.length) rest ts) : Covers t.offset (lexeme ++ rest) (t :: ts)

namespace Lexeme

variable {kind : Kind} {data : String} {lexeme rest : Bytes}

/-- No bytes are a token for the end. -/
theorem kind_ne_finish (h : Lexeme kind data lexeme rest) : kind ≠ .finish := by
  cases h with
  | sign h => exact (punctuation_kind h).1
  | _ => simp

/-- What cannot be used is one character. -/
theorem unusable (halphabet : Alphabet.Avoids Glyph.replacement) (h : Lexeme .illegal data lexeme rest) : ∃ c, data = String.singleton c ∧ Unusable c := by
  cases h with
  | sign h => exact absurd rfl (punctuation_kind h).2
  | illegal h => exact ⟨_, rfl, h⟩
  | stray => exact ⟨_, rfl, unusable_replacement halphabet⟩

/-- A token takes up some bytes. -/
theorem length_pos (h : Lexeme kind data lexeme rest) : 0 < lexeme.length := by
  cases h with
  | ident hs =>
    obtain ⟨c, cs, hs, -⟩ := isIdentifier_iff.1 hs
    rw [Bytes.ofText, hs, List.flatMap_cons, List.length_append]
    exact Nat.lt_of_lt_of_le (Glyph.encode_length_pos c) (Nat.le_add_right _ _)
  | sign => exact Glyph.encode_length_pos _
  | illegal => exact Glyph.encode_length_pos _
  | stray => exact Nat.one_pos

end Lexeme

namespace Covers

variable {offset : Nat} {bytes : Bytes} {ts : List Token}

/-- The last token is the end of the bytes, and no other token is an end. -/
theorem ends (h : Covers offset bytes ts) : ∃ front, ts = front ++ [⟨.finish, offset + bytes.length, []⟩] ∧
    ∀ t ∈ front, t.kind ≠ .finish := by
  induction h with
  | finish => exact ⟨[], rfl, by simp⟩
  | blank _ _ ih =>
    obtain ⟨front, rfl, hfront⟩ := ih
    exact ⟨front, by rw [List.length_append, Nat.add_assoc], hfront⟩
  | token ht _ ih =>
    obtain ⟨front, rfl, hfront⟩ := ih
    refine ⟨_ :: front, by rw [List.length_append, Nat.add_assoc, List.cons_append], ?_⟩
    exact List.forall_mem_cons.2 ⟨ht.kind_ne_finish, hfront⟩

/-- The tokens stand at the offset or behind it, each one behind the one before. -/
theorem ascends (h : Covers offset bytes ts) :
    (∀ t ∈ ts, offset ≤ t.offset) ∧ ts.Pairwise (·.offset < ·.offset) := by
  induction h with
  | finish => simp
  | blank _ _ ih => exact ⟨fun t ht => Nat.le_trans (Nat.le_add_right _ _) (ih.1 t ht), ih.2⟩
  | @token t lexeme rest ts ht _ ih =>
    have hlater : ∀ t' ∈ ts, t.offset < t'.offset := fun t' ht' => by
      have := ht.length_pos
      have := ih.1 t' ht'
      omega
    refine ⟨List.forall_mem_cons.2 ⟨Nat.le_refl _, fun t' ht' => (hlater t' ht').le⟩, ?_⟩
    exact List.pairwise_cons.2 ⟨hlater, ih.2⟩

/-- A token that cannot be used is one character that cannot. -/
theorem unusable (halphabet : Alphabet.Avoids Glyph.replacement) (h : Covers offset bytes ts) : ∀ t ∈ ts, t.kind = .illegal →
    ∃ c, t.data = String.singleton c ∧ Unusable c := by
  induction h with
  | finish => simp
  | blank _ _ ih => exact ih
  | token ht _ ih =>
    refine List.forall_mem_cons.2 ⟨fun hkind => ?_, ih⟩
    rw [hkind] at ht
    exact ht.unusable halphabet

end Covers

/-! ### The tokens that are read -/

/-- Bytes that no character starts that goes on with an identifier are glyphs that do not. -/
theorem breaks_decode (halphabet : Alphabet.Avoids Glyph.replacement) {rest : Bytes}
    (h : ∀ c, String.utf8EncodeChar c <+: rest → extendsIdentifier c = false) : Breaks (Glyph.decode rest) := by
  rcases Glyph.bytes_cases rest with rfl | ⟨c, more, rfl⟩ | ⟨b, more, rfl, hmalformed⟩
  · simp [Breaks, Glyph.decode_nil]
  · rw [Glyph.decode_char]
    rintro _ ⟨⟩
    exact h c (List.prefix_append _ _)
  · rw [Glyph.decode_malformed hmalformed]
    rintro _ ⟨⟩
    exact halphabet.continues

/-- **Bytes that are left start with a blank or with a token.** -/
theorem lexeme_cases (bytes : Bytes) : bytes = [] ∨
    (∃ c rest, bytes = String.utf8EncodeChar c ++ rest ∧ isBlank c = true) ∨
      ∃ kind data lexeme rest, bytes = lexeme ++ rest ∧ Lexeme kind data lexeme rest := by
  rcases Glyph.bytes_cases bytes with rfl | ⟨c, more, rfl⟩ | ⟨b, more, rfl, hmalformed⟩
  · exact .inl rfl
  · refine .inr ?_
    by_cases hblank : isBlank c = true
    · exact .inl ⟨c, more, rfl, hblank⟩
    refine .inr ?_
    by_cases hopens : opensIdentifier c = true
    · -- the identifier goes on as far as it can
      obtain ⟨s, rest, rfl, hs, hrest⟩ := Glyph.exists_span extendsIdentifier more
      have hident : isIdentifier (String.singleton c ++ s) = true :=
        isIdentifier_iff.2 ⟨c, s.toList, by simp, hopens, hs⟩
      refine ⟨_, _, Bytes.ofText (String.singleton c ++ s), rest, by simp [Bytes.ofText], .ident hident ?_ hrest⟩
      simpa using hblank
    rw [Bool.not_eq_true] at hblank hopens
    cases hsign : Kind.punctuation? c with
    | some kind => exact ⟨kind, _, _, more, rfl, .sign hsign hopens⟩
    | none => exact ⟨_, _, _, more, rfl, .illegal ⟨hblank, hopens, hsign⟩⟩
  · exact .inr (.inr ⟨_, _, [b], more, rfl, .stray hmalformed⟩)

namespace Cursor

variable {offset : Nat} (halphabet : Alphabet.Avoids Glyph.replacement)

/-- A glyph that cannot be used is a token. -/
theorem tokens_illegal {g : Glyph} {gs : List Glyph} (h : Unusable g.char) :
    tokens ⟨offset, g :: gs⟩ = ⟨.illegal, offset, [g]⟩ :: tokens ⟨offset + g.width, gs⟩ := by
  rw [tokens_single h.blank h.opens, Kind.ofSingle, h.sign, Option.getD_none]

include halphabet in
/-- **What is a token is read as that token.** -/
theorem tokens_lexeme {kind : Kind} {data : String} {lexeme rest : Bytes}
    (h : Lexeme kind data lexeme rest) (offset : Nat) : ∃ t : Token, t.kind = kind ∧ t.offset = offset ∧
      t.data = data ∧ tokens ⟨offset, Glyph.decode (lexeme ++ rest)⟩ =
        t :: tokens ⟨offset + lexeme.length, Glyph.decode rest⟩ := by
  cases h with
  | ident hs hstart hrest =>
    refine ⟨⟨.ident, offset, Glyph.ofText data⟩, rfl, rfl, textOf_ofText data, ?_⟩
    rw [Glyph.decode_text, tokens_word hs hstart (breaks_decode halphabet hrest), Glyph.widthAll_eq,
      flatMap_bytes_ofText]
  | @sign c _ _ hsign hopens =>
    refine ⟨⟨kind, offset, [.ofChar c]⟩, rfl, rfl, ?_, ?_⟩
    · unfold Kind.punctuation? at hsign
      split at hsign <;> cases hsign <;> rfl
    · rw [Glyph.decode_char, tokens_sign hsign hopens]
      rfl
  | @illegal c _ h =>
    refine ⟨⟨.illegal, offset, [.ofChar c]⟩, rfl, rfl, ?_, ?_⟩
    · simp [Token.data, Glyph.textOf, Glyph.ofChar]
    · rw [Glyph.decode_char, tokens_illegal (g := .ofChar c) h]
      rfl
  | @stray b _ hmalformed =>
    refine ⟨⟨.illegal, offset, [.stray b]⟩, rfl, rfl, ?_, ?_⟩
    · simp [Token.data, Glyph.textOf, Glyph.stray]
    · rw [List.singleton_append, Glyph.decode_malformed hmalformed,
        tokens_illegal (g := .stray b) (unusable_replacement halphabet)]
      rfl

include halphabet in
/-- **The tokens that are read cover the bytes.** -/
theorem covers_tokens (offset : Nat) (bytes : Bytes) :
    Covers offset bytes (tokens ⟨offset, Glyph.decode bytes⟩) := by
  induction hn : bytes.length using Nat.strongRecOn generalizing offset bytes with
  | ind n ih =>
    have hless {front rest : Bytes} (h : bytes = front ++ rest) (hfront : 0 < front.length) :
        rest.length < n := by
      rw [← hn, h, List.length_append]
      omega
    rcases lexeme_cases bytes with rfl | ⟨c, rest, h, hblank⟩ | ⟨kind, data, lexeme, rest, h, hlexeme⟩
    · rw [Glyph.decode_nil, tokens_nil]
      exact .finish
    · have hrest := ih rest.length (hless h (Glyph.encode_length_pos c))
        (offset + (String.utf8EncodeChar c).length) rest rfl
      rw [h, Glyph.decode_char, tokens_blank hblank]
      exact .blank hblank hrest
    · obtain ⟨t, rfl, rfl, rfl, htokens⟩ := tokens_lexeme halphabet hlexeme offset
      have hrest := ih rest.length (hless h hlexeme.length_pos) (t.offset + lexeme.length) rest rfl
      rw [h, htokens]
      exact .token hlexeme hrest

/-- Behind the end there is the end again. -/
theorem take_nil (offset n : Nat) : take ⟨offset, []⟩ n = List.replicate n ⟨.finish, offset, []⟩ := by
  induction n with
  | zero => rfl
  | succ n ih =>
    have hnext : next ⟨offset, []⟩ = (⟨.finish, offset, []⟩, ⟨offset, []⟩) := rfl
    rw [take, hnext, ih, List.replicate_succ]

/-- **Whoever asks for more tokens gets the end again.** -/
theorem take_tokens (c : Cursor) (n : Nat) :
    c.take (c.tokens.length + n) = c.tokens ++ List.replicate n ⟨.finish, c.limit, []⟩ := by
  fun_induction tokens c with
  | case1 c h =>
    rw [List.length_singleton, Nat.add_comm, take, next_finish c h, take_nil]
    rfl
  | case2 c h ih =>
    rw [List.length_cons, Nat.succ_add, take, ih, limit_next, List.cons_append]

end Cursor

/-- What a token is, apart from its glyphs. -/
def Token.facts (t : Token) : Kind × Nat × String := (t.kind, t.offset, t.data)

/-- **No other tokens cover the bytes** than those that are read. -/
theorem Covers.facts_eq (halphabet : Alphabet.Avoids Glyph.replacement) {offset : Nat} {bytes : Bytes}
    {ts : List Token} (h : Covers offset bytes ts) :
    ts.map Token.facts = (Cursor.tokens ⟨offset, Glyph.decode bytes⟩).map Token.facts := by
  induction h with
  | finish => rw [Glyph.decode_nil, Cursor.tokens_nil]
  | blank hc _ ih =>
    rw [ih, Glyph.decode_char, Cursor.tokens_blank hc]
    rfl
  | @token t _ _ _ ht _ ih =>
    obtain ⟨t', hkind, hoffset, hdata, htokens⟩ := Cursor.tokens_lexeme halphabet ht t.offset
    rw [htokens, List.map_cons, List.map_cons, ih, Token.facts, Token.facts, hkind, hoffset, hdata]

/-- **The tokens of a byte string, and the blanks between them, are all of it.** The tokens lie one behind the
other, with blanks between them and nothing else, from the first byte to the last one: identifiers that go on
as far as they can, punctuation, and characters and single bytes that cannot be used. They stand at ascending
offsets, and the last one and no other is the end, behind all bytes; it is found again however often one goes
on to ask for the next token. What cannot be used is told as one character, which is no blank, opens no
identifier and is no punctuation. -/
theorem Token.scan_covers (halphabet : Alphabet.Avoids Glyph.replacement) (bytes : Bytes) :
    Covers 0 bytes (Token.scan bytes) ∧ (Token.scan bytes).Pairwise (·.offset < ·.offset) ∧
      (∀ t ∈ Token.scan bytes, t.kind = .illegal → ∃ c, t.data = String.singleton c ∧ Unusable c) ∧
      ∃ front, Token.scan bytes = front ++ [⟨.finish, bytes.length, []⟩] ∧
        (∀ t ∈ front, t.kind ≠ .finish) ∧
          ∀ n, (Token.start (Glyph.decode bytes)).take ((Token.scan bytes).length + n) =
            Token.scan bytes ++ List.replicate n ⟨.finish, bytes.length, []⟩ := by
  have hcovers : Covers 0 bytes (Token.scan bytes) := Cursor.covers_tokens halphabet 0 bytes
  obtain ⟨front, hscan, hfront⟩ := hcovers.ends
  rw [Nat.zero_add] at hscan
  refine ⟨hcovers, hcovers.ascends.2, hcovers.unusable halphabet, front, hscan, hfront, fun n => ?_⟩
  have hlimit : (Token.start (Glyph.decode bytes)).limit = bytes.length := by
    rw [Cursor.limit, Token.start, Glyph.widthAll_decode, Nat.zero_add]
  have htake := Cursor.take_tokens (Token.start (Glyph.decode bytes)) n
  rwa [hlimit] at htake

end Alphabet

/-- Over the letters of ASCII: the second byte starts a character of two bytes that a blank cuts short. -/
theorem Token.scan_covers_stray :
    let _ := Alphabet.ascii
    let bytes : Bytes := [0x61, 0xC3, 0x20, 0x3C]
    Covers 0 bytes (Token.scan bytes) ∧ (Token.scan bytes).map Token.facts =
      [(.ident, 0, "a"), (.illegal, 1, String.singleton Glyph.replacement), (.less, 3, ""),
        (.finish, 4, "")] := by
  let _ := Alphabet.ascii
  exact ⟨(Token.scan_covers ⟨by decide, by decide⟩ _).1, by decide +kernel⟩

end Generics.Expr
