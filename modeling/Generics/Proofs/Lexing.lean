/-
# Where tokens are found

The tokens of a byte string end with one token for its end, which stands behind all bytes
(`Token.scan_eq`), and the identifiers among them are spelled with the characters of identifiers
(`Cursor.identifier_of_mem`), whatever the alphabet.

Over an alphabet that has no blanks and no punctuation in it (`Alphabet.Proper`), a text also gives its
tokens as a part of a longer one, if what comes after it does not go on with an identifier at its end.
`Lexes` says this of a text and what holds of its tokens, whatever stands before and after it. It is put
together from words, punctuation and blanks.
-/

import Generics.Expr.Token
import Generics.Proofs.Encoding
import Mathlib.Data.List.TakeWhile

namespace Generics

namespace Glyph

/-- Glyphs one after the other are as wide as both together. -/
@[simp] theorem widthAll_append (gs hs : List Glyph) :
    widthAll (gs ++ hs) = widthAll gs + widthAll hs := by
  induction gs with
  | nil => simp [widthAll]
  | cons g gs ih => simp [widthAll, ih, Nat.add_assoc]

end Glyph

namespace Expr.Cursor

/-- The byte offset after all that is left to read. -/
def limit (c : Cursor) : Nat := c.offset + Glyph.widthAll c.rest

/-- Skipping blanks leaves where the text ends. -/
theorem limit_skipBlanks (c : Cursor) : c.skipBlanks.limit = c.limit := by
  have h := congrArg Glyph.widthAll (List.takeWhile_append_dropWhile (p := (Text.isBlank ·.char)) (l := c.rest))
  rw [Glyph.widthAll_append] at h
  simp only [limit, skipBlanks]
  omega

variable [Alphabet]

/-- Reading a token leaves where the text ends. -/
theorem limit_read (c : Cursor) : c.read.2.limit = c.limit := by
  unfold read
  split
  · rfl
  · next g more hrest =>
    rw [limit, limit, hrest]
    split
    · have h := congrArg Glyph.widthAll
        (List.takeWhile_append_dropWhile (p := (Text.extendsIdentifier ·.char)) (l := more))
      rw [Glyph.widthAll_append] at h
      simp only [Glyph.widthAll]
      omega
    · simp only [Glyph.widthAll]
      omega

/-- Going on to the next token leaves where the text ends. -/
theorem limit_next (c : Cursor) : c.next.2.limit = c.limit :=
  (limit_read c.skipBlanks).trans (limit_skipBlanks c)

/-- The end is found only where nothing is left to read, and there it is found again. -/
theorem read_finish (c : Cursor) (h : c.read.1.kind = .finish) :
    c.read = (⟨.finish, c.limit, []⟩, ⟨c.limit, []⟩) := by
  unfold read at h ⊢
  split
  · next hrest =>
    obtain ⟨offset, rest⟩ := c
    subst hrest
    rfl
  · next g more hrest =>
    split <;> simp_all [Kind.ofSingle_ne_finish]

/-- The last token stands at the end of the text. -/
theorem next_finish (c : Cursor) (h : c.next.1.kind = .finish) :
    c.next = (⟨.finish, c.limit, []⟩, ⟨c.limit, []⟩) :=
  limit_skipBlanks c ▸ read_finish c.skipBlanks h

/-- The last of the tokens is the end, after all that is left to read. -/
theorem tokens_eq_append (c : Cursor) : ∃ ts, c.tokens = ts ++ [⟨.finish, c.limit, []⟩] := by
  fun_induction tokens c with
  | case1 c h => exact ⟨[], by rw [next_finish c h, List.nil_append]⟩
  | case2 c h ih =>
    obtain ⟨ts, hts⟩ := ih
    exact ⟨c.next.1 :: ts, by rw [hts, limit_next, List.cons_append]⟩

end Expr.Cursor

/-- The tokens of bytes are those without the end, and then the end, behind all of them. -/
theorem Expr.Token.scan_eq [Alphabet] (bytes : Bytes) :
    Token.scan bytes = (Token.scan bytes).dropLast ++ [⟨.finish, bytes.length, []⟩] := by
  obtain ⟨ts, hts⟩ := (Token.start (Glyph.decode bytes)).tokens_eq_append
  have hlimit : (Token.start (Glyph.decode bytes)).limit = bytes.length := by
    rw [Cursor.limit, Token.start, Glyph.widthAll_decode, Nat.zero_add]
  rw [Token.scan, hts, hlimit, List.dropLast_concat]

namespace Alphabet

variable [Alphabet]

/-- The character neither opens an identifier of the alphabet nor goes on with one. -/
structure Avoids (c : Char) : Prop where
  opens : Alphabet.opens c = false
  continues : Alphabet.continues c = false

/-- What any alphabet of identifiers is expected to be like: it has no blanks, none of the punctuation and
not the replacement character in it, and it has the letters of ASCII. -/
class Proper : Prop where
  blank {c : Char} (h : Text.isBlank c = true) : Avoids c
  punctuation {c : Char} {kind : Expr.Kind} (h : Expr.Kind.punctuation? c = some kind) : Avoids c
  replacement : Avoids Glyph.replacement
  letter {c : Char} (h : c.isAlpha = true) : Alphabet.opens c = true ∧ Alphabet.continues c = true

end Alphabet

namespace Text

variable [Alphabet]

/-- Whether the text is an identifier. -/
def isIdentifier (s : String) : Bool :=
  match s.toList with
  | [] => false
  | c :: cs => opensIdentifier c && cs.all extendsIdentifier

/-- An identifier is a character that opens it and characters that go on with it. -/
theorem isIdentifier_iff {s : String} : isIdentifier s = true ↔
    ∃ c cs, s.toList = c :: cs ∧ opensIdentifier c = true ∧ ∀ d ∈ cs, extendsIdentifier d = true := by
  unfold isIdentifier
  cases s.toList <;> simp [and_assoc]

end Text

namespace Expr

open Text

/-- The glyphs of a text are put together as the text is. -/
theorem ofText_append {s s' : String} : Glyph.ofText (s ++ s') = Glyph.ofText s ++ Glyph.ofText s' := by
  simp [Glyph.ofText]

/-- The glyphs of a text start with its first character. -/
theorem ofText_singleton {s : String} (c : Char) : Glyph.ofText (String.singleton c ++ s) =
    Glyph.ofChar c :: Glyph.ofText s := by
  simp [Glyph.ofText]

section Alphabet

variable [Alphabet]

/-- A character that the alphabet has not opens no identifier, but for the underscore. -/
theorem not_opens_of_avoids {c : Char} (h : Alphabet.Avoids c) (hc : c ≠ '_') : opensIdentifier c = false := by
  simp [opensIdentifier, h.opens, hc]

/-- A text of letters is an identifier. -/
theorem isIdentifier_of_letters [Alphabet.Proper] {s : String} (hs : s ≠ "") (h : s.toList.all Char.isAlpha = true) :
    isIdentifier s = true := by
  obtain ⟨c, cs, hcs⟩ := List.exists_cons_of_ne_nil (mt String.toList_eq_nil_iff.1 hs)
  rw [hcs, List.all_cons, Bool.and_eq_true] at h
  refine isIdentifier_iff.2 ⟨c, cs, hcs, ?_, fun d hd => (Alphabet.Proper.letter (List.all_eq_true.1 h.2 d hd)).2⟩
  rw [opensIdentifier, (Alphabet.Proper.letter h.1).1, Bool.or_true]

/-- No identifier opens with a blank. -/
theorem not_blank_of_opens [Alphabet.Proper] {c : Char} (h : opensIdentifier c = true) : isBlank c = false := by
  by_contra hblank
  have hblank := Bool.not_eq_false _ ▸ hblank
  have hunder : c ≠ '_' := by
    rintro rfl
    exact absurd hblank (by decide)
  rw [not_opens_of_avoids (Alphabet.Proper.blank hblank) hunder] at h
  cases h

end Alphabet

/-- The characters that are punctuation. -/
def Kind.signs : List Char := ['<', '>', ',', '.', '?', '&', '[', ']', '(', ')']

/-- The characters of punctuation are listed. -/
theorem Kind.mem_signs {c : Char} {kind : Kind} (h : Kind.punctuation? c = some kind) : c ∈ Kind.signs := by
  unfold Kind.punctuation? at h
  split at h
  case h_11 => cases h
  all_goals decide

/-- Punctuation is not blank, and it is no underscore. -/
theorem Kind.punctuation_plain {c : Char} {kind : Kind} (h : Kind.punctuation? c = some kind) :
    isBlank c = false ∧ c ≠ '_' := by
  have hall : Kind.signs.all (fun c => !isBlank c && c != '_') = true := by decide
  have hc := List.all_eq_true.1 hall c (Kind.mem_signs h)
  rwa [Bool.and_eq_true, Bool.not_eq_true', bne_iff_ne] at hc

/-- No identifier opens with punctuation. -/
theorem not_opens_of_punctuation [Alphabet] [Alphabet.Proper] {c : Char} {kind : Kind}
    (h : Kind.punctuation? c = some kind) : opensIdentifier c = false :=
  not_opens_of_avoids (Alphabet.Proper.punctuation h) (Kind.punctuation_plain h).2

/-- No single character is an identifier. -/
theorem Kind.ofSingle_ne_ident (c : Char) : Kind.ofSingle c ≠ .ident := by
  unfold Kind.ofSingle Kind.punctuation?
  split <;> simp

variable [Alphabet]

/-- The glyphs do not go on with an identifier. -/
def Breaks (gs : List Glyph) : Prop := ∀ g ∈ gs.head?, extendsIdentifier g.char = false

/-- Nothing of what does not go on with an identifier belongs to it. -/
theorem Breaks.takeWhile {gs : List Glyph} (h : Breaks gs) :
    gs.takeWhile (extendsIdentifier ·.char) = [] := by
  cases gs with
  | nil => rfl
  | cons g gs => exact List.takeWhile_cons_of_neg (by simp [h g rfl])

/-- All of what does not go on with an identifier is left to read. -/
theorem Breaks.dropWhile {gs : List Glyph} (h : Breaks gs) :
    gs.dropWhile (extendsIdentifier ·.char) = gs := by
  cases gs with
  | nil => rfl
  | cons g gs => exact List.dropWhile_cons_of_neg (by simp [h g rfl])

namespace Cursor

/-- The tokens are the next one and those after it. -/
theorem tokens_of_next {c : Cursor} (h : c.next.1.kind ≠ .finish) :
    c.tokens = c.next.1 :: c.next.2.tokens := by
  rw [tokens, dif_neg h]

/-- Where the next token and what follows are the same, all tokens are. -/
theorem tokens_congr {c c' : Cursor} (h : c.next = c'.next) : c.tokens = c'.tokens := by
  unfold tokens
  simp only [h]

/-- What is read as an identifier is one. -/
theorem read_identifier {c : Cursor} (h : c.read.1.kind = .ident) : isIdentifier c.read.1.data = true := by
  unfold read at h ⊢
  split at h
  · cases h
  · next g more hrest =>
    split at h
    · next hopens =>
      simp only [hopens, if_true]
      refine isIdentifier_iff.2 ⟨g.char, (more.takeWhile (extendsIdentifier ·.char)).map Glyph.char,
        by simp [Token.data, Glyph.textOf], hopens, fun d hd => ?_⟩
      obtain ⟨g', hg', rfl⟩ := List.mem_map.1 hd
      exact List.mem_takeWhile_imp (p := fun g : Glyph => extendsIdentifier g.char) hg'
    · exact absurd h (Kind.ofSingle_ne_ident _)

/-- The identifiers among the tokens are identifiers. -/
theorem identifier_of_mem {c : Cursor} {t : Token} (ht : t ∈ c.tokens) (hkind : t.kind = .ident) :
    isIdentifier t.data = true := by
  fun_induction tokens c with
  | case1 c h =>
    obtain rfl := List.mem_singleton.1 ht
    rw [h] at hkind
    cases hkind
  | case2 c h ih =>
    rcases List.mem_cons.1 ht with rfl | ht
    · exact read_identifier hkind
    · exact ih ht

variable {off : Nat} {gs : List Glyph}

/-- Where nothing is left there is only the end. -/
theorem tokens_nil : tokens ⟨off, []⟩ = [⟨.finish, off, []⟩] := by
  have hnext : next ⟨off, []⟩ = (⟨.finish, off, []⟩, ⟨off, []⟩) := rfl
  rw [tokens]
  simp [hnext]

/-- A blank makes no token. -/
theorem tokens_blank {c : Char} (h : isBlank c = true) :
    tokens ⟨off, .ofChar c :: gs⟩ = tokens ⟨off + (Glyph.ofChar c).width, gs⟩ := by
  refine tokens_congr ?_
  have hchar : isBlank (Glyph.ofChar c).char = true := h
  simp [next, skipBlanks, hchar, Glyph.widthAll, Nat.add_assoc]

/-- A glyph that is neither blank nor opens an identifier is a token. -/
theorem tokens_single {g : Glyph} (hblank : isBlank g.char = false) (hopens : opensIdentifier g.char = false) :
    tokens ⟨off, g :: gs⟩ = ⟨Kind.ofSingle g.char, off, [g]⟩ :: tokens ⟨off + g.width, gs⟩ := by
  have hnext : next ⟨off, g :: gs⟩ = (⟨Kind.ofSingle g.char, off, [g]⟩, ⟨off + g.width, gs⟩) := by
    simp [next, skipBlanks, read, hblank, hopens, Glyph.widthAll]
  rw [tokens_of_next, hnext]
  rw [hnext]
  exact Kind.ofSingle_ne_finish _

/-- A character of punctuation is a token, if it opens no identifier. -/
theorem tokens_sign {c : Char} {kind : Kind} (h : Kind.punctuation? c = some kind)
    (hopens : opensIdentifier c = false) : tokens ⟨off, .ofChar c :: gs⟩ =
      ⟨kind, off, [.ofChar c]⟩ :: tokens ⟨off + (Glyph.ofChar c).width, gs⟩ := by
  have hblank := (Kind.punctuation_plain h).1
  have hkind : Kind.ofSingle (Glyph.ofChar c).char = kind := by
    change (Kind.punctuation? c).getD .illegal = kind
    rw [h]
    rfl
  rw [tokens_single (g := .ofChar c) hblank hopens, hkind]

/-- An identifier is a token, if it does not start with a blank, before glyphs that do not go on with it. -/
theorem tokens_word {w : String} (hw : isIdentifier w = true) (hstart : ∀ c ∈ w.toList.head?, isBlank c = false)
    (hgs : Breaks gs) : tokens ⟨off, Glyph.ofText w ++ gs⟩ =
      ⟨.ident, off, Glyph.ofText w⟩ :: tokens ⟨off + Glyph.widthAll (Glyph.ofText w), gs⟩ := by
  obtain ⟨c, cs, hw, hopens, hextends⟩ := isIdentifier_iff.1 hw
  have hblank : isBlank (Glyph.ofChar c).char = false := hstart c (by rw [hw]; rfl)
  have hopens' : opensIdentifier (Glyph.ofChar c).char = true := hopens
  have hall : ∀ g ∈ cs.map Glyph.ofChar, extendsIdentifier g.char = true := by
    simpa [Glyph.ofChar] using hextends
  have htake : (cs.map Glyph.ofChar ++ gs).takeWhile (extendsIdentifier ·.char) =
      cs.map Glyph.ofChar := by
    rw [List.takeWhile_append_of_pos hall, hgs.takeWhile, List.append_nil]
  have hdrop : (cs.map Glyph.ofChar ++ gs).dropWhile (extendsIdentifier ·.char) = gs := by
    rw [List.dropWhile_append_of_pos hall, hgs.dropWhile]
  have hnext : next ⟨off, Glyph.ofText w ++ gs⟩ =
      (⟨.ident, off, Glyph.ofText w⟩, ⟨off + Glyph.widthAll (Glyph.ofText w), gs⟩) := by
    simp [next, skipBlanks, read, Glyph.ofText, hw, hblank, hopens', htake, hdrop, Glyph.widthAll]
  rw [tokens_of_next, hnext]
  rw [hnext]
  simp

end Cursor

/-- The tokens of the text have the property, wherever it stands before glyphs that do not go on with an
identifier. -/
def Lexes (text : String) (P : List Token → Prop) : Prop :=
  ∀ off gs, Breaks gs → ∃ ts, P ts ∧ Cursor.tokens ⟨off, Glyph.ofText text ++ gs⟩ =
    ts ++ Cursor.tokens ⟨off + Glyph.widthAll (Glyph.ofText text), gs⟩

/-- The text does not go on with an identifier. -/
def Parts (text : String) : Prop := ∀ c ∈ text.toList.head?, extendsIdentifier c = false

section Lexes

variable {s s' : String} {P P' Q : List Token → Prop}

/-- After a text that does not go on with an identifier none of it does. -/
theorem Parts.breaks (h : Parts s) {gs : List Glyph} (hgs : Breaks gs) :
    Breaks (Glyph.ofText s ++ gs) := by
  unfold Glyph.ofText
  cases hs : s.toList with
  | nil => exact hgs
  | cons c cs =>
    rintro g hg
    obtain rfl : Glyph.ofChar c = g := by simpa using hg
    exact h c (by simp [hs])

/-- The empty text does not go on with an identifier. -/
theorem parts_empty : Parts "" := by simp [Parts]

/-- Two texts that do not go on with an identifier do not do so together. -/
theorem Parts.append (h : Parts s) (h' : Parts s') : Parts (s ++ s') := by
  unfold Parts at *
  rw [String.toList_append]
  cases hs : s.toList with
  | nil => exact h'
  | cons c cs =>
    rw [hs] at h
    exact h

/-- Punctuation does not go on with an identifier. -/
theorem parts_sign [Alphabet.Proper] {c : Char} {kind : Kind} (h : Kind.punctuation? c = some kind) :
    Parts (String.singleton c ++ s) := by
  simp [Parts, extendsIdentifier, (Alphabet.Proper.punctuation h).continues]

/-- A blank does not go on with an identifier. -/
theorem parts_blank [Alphabet.Proper] : Parts (" " ++ s) := by
  have hblank : Alphabet.Avoids ' ' := Alphabet.Proper.blank (by decide)
  simp [Parts, extendsIdentifier, hblank.continues]

/-- What tokens are like may be weakened. -/
theorem Lexes.imp (h : Lexes s P) (hP : ∀ ts, P ts → Q ts) : Lexes s Q := by
  intro off gs hgs
  obtain ⟨ts, hts, htokens⟩ := h off gs hgs
  exact ⟨ts, hP ts hts, htokens⟩

/-- The empty text has no tokens. -/
theorem lexes_empty : Lexes "" fun ts => ts = [] := by
  intro off gs _
  exact ⟨[], rfl, rfl⟩

/-- The tokens of two texts are those of the first and those of the second one, if the second one does
not go on with an identifier. -/
theorem Lexes.append (h : Lexes s P) (h' : Lexes s' P') (hs' : Parts s') :
    Lexes (s ++ s') fun ts => ∃ ts₁ ts₂, P ts₁ ∧ P' ts₂ ∧ ts = ts₁ ++ ts₂ := by
  intro off gs hgs
  obtain ⟨ts₁, hts₁, htokens₁⟩ := h off (Glyph.ofText s' ++ gs) (hs'.breaks hgs)
  obtain ⟨ts₂, hts₂, htokens₂⟩ := h' (off + Glyph.widthAll (Glyph.ofText s)) gs hgs
  refine ⟨ts₁ ++ ts₂, ⟨ts₁, ts₂, hts₁, hts₂, rfl⟩, ?_⟩
  rw [ofText_append, List.append_assoc, htokens₁, htokens₂, List.append_assoc, Glyph.widthAll_append,
    Nat.add_assoc]

/-- Punctuation is a token of its kind before the others. -/
theorem Lexes.sign [Alphabet.Proper] {c : Char} {kind : Kind} (hc : Kind.punctuation? c = some kind) (h : Lexes s P) :
    Lexes (String.singleton c ++ s) fun ts => ∃ t ts', t.kind = kind ∧ P ts' ∧ ts = t :: ts' := by
  intro off gs hgs
  obtain ⟨ts, hts, htokens⟩ := h (off + (Glyph.ofChar c).width) gs hgs
  refine ⟨_, ⟨⟨kind, off, [.ofChar c]⟩, ts, rfl, hts, rfl⟩, ?_⟩
  rw [ofText_singleton, List.cons_append, Cursor.tokens_sign hc (not_opens_of_punctuation hc), htokens, Glyph.widthAll, Nat.add_assoc,
    List.cons_append]

/-- A blank before a text leaves its tokens. -/
theorem Lexes.blank (h : Lexes s P) : Lexes (" " ++ s) P := by
  intro off gs hgs
  obtain ⟨ts, hts, htokens⟩ := h (off + (Glyph.ofChar ' ').width) gs hgs
  refine ⟨ts, hts, ?_⟩
  have htext : Glyph.ofText (" " ++ s) = Glyph.ofChar ' ' :: Glyph.ofText s := ofText_singleton ' '
  rw [htext, List.cons_append, Cursor.tokens_blank (by decide), htokens, Glyph.widthAll, Nat.add_assoc]

/-- An identifier is one token. -/
theorem lexes_word [Alphabet.Proper] (h : isIdentifier s = true) :
    Lexes s fun ts => ∃ t, t.kind = .ident ∧ t.data = s ∧ ts = [t] := by
  intro off gs hgs
  have hstart : ∀ c ∈ s.toList.head?, isBlank c = false := by
    obtain ⟨c, cs, hs, hopens, -⟩ := isIdentifier_iff.1 h
    simpa [hs] using not_blank_of_opens hopens
  refine ⟨_, ⟨⟨.ident, off, Glyph.ofText s⟩, rfl, ?_, rfl⟩, Cursor.tokens_word h hstart hgs⟩
  simp [Token.data, Glyph.textOf, Glyph.ofText, Function.comp_def, Glyph.ofChar]

/-- The tokens of a text on its own. -/
theorem Lexes.scan (h : Lexes s P) : P (Token.scan s).dropLast := by
  obtain ⟨ts, hts, htokens⟩ := h 0 [] (by simp [Breaks])
  rw [List.append_nil, Cursor.tokens_nil] at htokens
  rwa [Token.scan, Token.start, Glyph.decode_ofText, htokens, List.dropLast_concat]

end Lexes

end Expr

end Generics
