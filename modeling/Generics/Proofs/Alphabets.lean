/-
# Alphabets as they are expected

The letters and digits of ASCII are an alphabet as it is expected (`Alphabet.ascii_proper`), and so are the
tables of Unicode that commands are run over (`Alphabet.unicode_proper`). Blanks, punctuation and the letters
of ASCII are finitely many characters, so for a given alphabet each of them is looked up.

Of these characters all alphabets as they are expected have the letters only. So a text that is made of them
has the same tokens over all of them (`Token.scan_ascii`), and what is said of the standard catalog, whose
definitions are made of them, does not depend on the alphabet.
-/

import Generics.Proofs.Lexing
import Generics.Text.Unicode

namespace Generics

namespace Text

/-- The code points of blanks. -/
def blanks : List Nat :=
  [0x09, 0x0A, 0x0B, 0x0C, 0x0D, 0x20, 0x85, 0xA0, 0x1680, 0x2000, 0x2001, 0x2002, 0x2003, 0x2004, 0x2005,
    0x2006, 0x2007, 0x2008, 0x2009, 0x200A, 0x2028, 0x2029, 0x202F, 0x205F, 0x3000]

/-- The code points of the letters of ASCII. -/
def letters : List Nat := List.range' 0x41 26 ++ List.range' 0x61 26

/-- The blanks are listed. -/
theorem mem_blanks {c : Char} (h : isBlank c = true) : c.toNat ∈ blanks := by
  simp only [isBlank, Bool.or_eq_true, Bool.and_eq_true, decide_eq_true_eq, beq_iff_eq] at h
  simp only [blanks, List.mem_cons, List.not_mem_nil, or_false]
  omega

/-- The letters of ASCII are listed. -/
theorem mem_letters {c : Char} (h : c.isAlpha = true) : c.toNat ∈ letters := by
  have hrange : (0x41 ≤ c.toNat ∧ c.toNat ≤ 0x5A) ∨ (0x61 ≤ c.toNat ∧ c.toNat ≤ 0x7A) := by
    rcases Bool.or_eq_true_iff.1 h with hupper | hlower
    · exact .inl (of_decide_eq_true hupper)
    · have hbounds : (decide (0x61 ≤ c.toNat) && decide (c.toNat ≤ 0x7A)) = true := hlower
      rw [Bool.and_eq_true, decide_eq_true_eq, decide_eq_true_eq] at hbounds
      exact .inr hbounds
  rw [letters, List.mem_append, List.mem_range'_1, List.mem_range'_1]
  omega

end Text

open Generics.Expr Text

namespace Alphabet

/-- **An alphabet is as expected if it has none of the listed blanks, none of the punctuation and not the
replacement character in it, and all of the listed letters.** -/
theorem proper_of_lists [Alphabet]
    (hblank : ∀ n ∈ blanks, Alphabet.opens (Char.ofNat n) = false ∧ Alphabet.continues (Char.ofNat n) = false)
    (hsign : Kind.signs.all (fun c => !Alphabet.opens c && !Alphabet.continues c) = true)
    (hreplacement : Alphabet.opens Glyph.replacement = false ∧ Alphabet.continues Glyph.replacement = false)
    (hletter : ∀ n ∈ letters, Alphabet.opens (Char.ofNat n) = true ∧ Alphabet.continues (Char.ofNat n) = true) :
    Alphabet.Proper where
  blank {c} h := by
    have hc := hblank _ (mem_blanks h)
    rw [Char.ofNat_toNat] at hc
    exact ⟨hc.1, hc.2⟩
  punctuation h := by
    have hc := List.all_eq_true.1 hsign _ (Kind.mem_signs h)
    rw [Bool.and_eq_true, Bool.not_eq_true', Bool.not_eq_true'] at hc
    exact ⟨hc.1, hc.2⟩
  replacement := ⟨hreplacement.1, hreplacement.2⟩
  letter {c} h := by
    have hc := hletter _ (mem_letters h)
    rwa [Char.ofNat_toNat] at hc

/-- The letters and digits of ASCII are as expected. -/
theorem ascii_proper : @Alphabet.Proper .ascii :=
  @proper_of_lists .ascii (by decide +kernel) (by decide +kernel) (by decide) (by decide +kernel)

/-- The tables of Unicode are as expected. -/
theorem unicode_proper : @Alphabet.Proper .unicode :=
  @proper_of_lists .unicode (by decide +kernel) (by decide +kernel) (by decide +kernel) (by decide +kernel)

end Alphabet

/-! ### Texts that have the same tokens over all alphabets -/

namespace Alphabet

/-- The character is a letter of ASCII, a blank or punctuation. -/
def isCommon (c : Char) : Bool := c.isAlpha || isBlank c || (Kind.punctuation? c).isSome

variable [Alphabet] [Alphabet.Proper]

/-- Of blanks, punctuation and the letters of ASCII an alphabet has the letters. -/
theorem opens_of_common {c : Char} (h : isCommon c = true) :
    opensIdentifier c = c.isAlpha ∧ extendsIdentifier c = c.isAlpha := by
  cases halpha : c.isAlpha with
  | true => exact ⟨by rw [opensIdentifier, (Proper.letter halpha).1, Bool.or_true], (Proper.letter halpha).2⟩
  | false =>
    rw [isCommon, halpha, Bool.false_or, Bool.or_eq_true] at h
    rcases h with hblank | hsign
    · refine ⟨Bool.eq_false_iff.2 fun hopens => ?_, (Proper.blank hblank).continues⟩
      rw [not_blank_of_opens hopens] at hblank
      cases hblank
    · obtain ⟨kind, hsign⟩ := Option.isSome_iff_exists.1 hsign
      exact ⟨not_opens_of_punctuation hsign, (Proper.punctuation hsign).continues⟩

/-- So any alphabet has of them what ASCII has. -/
theorem opens_ascii {c : Char} (h : isCommon c = true) :
    opensIdentifier c = @opensIdentifier .ascii c ∧ extendsIdentifier c = @extendsIdentifier .ascii c := by
  have hascii := @opens_of_common .ascii ascii_proper c h
  exact ⟨(opens_of_common h).1.trans hascii.1.symm, (opens_of_common h).2.trans hascii.2.symm⟩

end Alphabet

/-- Two conditions that agree on a list cut it at the same place. -/
theorem span_congr {α : Type} {p q : α → Bool} {l : List α} (h : ∀ a ∈ l, p a = q a) :
    l.takeWhile p = l.takeWhile q ∧ l.dropWhile p = l.dropWhile q := by
  induction l with
  | nil => exact ⟨rfl, rfl⟩
  | cons a l ih =>
    obtain ⟨ha, hl⟩ := List.forall_mem_cons.1 h
    rw [List.takeWhile_cons, List.takeWhile_cons, List.dropWhile_cons, List.dropWhile_cons, ha, (ih hl).1,
      (ih hl).2]
    exact ⟨rfl, rfl⟩

namespace Expr

namespace Cursor

/-- What is left behind blanks was left before. -/
theorem rest_skipBlanks_subset (c : Cursor) : c.skipBlanks.rest ⊆ c.rest := (List.dropWhile_sublist _).subset

variable [Alphabet]

/-- What is left behind a token was left before. -/
theorem rest_read_subset (c : Cursor) : c.read.2.rest ⊆ c.rest := by
  unfold read
  split
  · exact List.Subset.refl _
  · next g more hrest =>
    rw [hrest]
    split
    · exact List.subset_cons_of_subset _ (List.dropWhile_sublist _).subset
    · exact List.subset_cons_self _ _

variable [Alphabet.Proper]

/-- Before such characters the token is the one over ASCII. -/
theorem read_ascii {c : Cursor} (h : ∀ g ∈ c.rest, Alphabet.isCommon g.char = true) :
    c.read = @Cursor.read .ascii c := by
  unfold read
  split
  · rfl
  · next g more hrest =>
    rw [hrest] at h
    obtain ⟨hg, hmore⟩ := List.forall_mem_cons.1 h
    have hspan := span_congr (p := (extendsIdentifier ·.char)) (q := (@extendsIdentifier .ascii ·.char))
      fun (g' : Glyph) hg' => (Alphabet.opens_ascii (hmore g' hg')).2
    simp only [(Alphabet.opens_ascii hg).1, hspan.1, hspan.2]

/-- **Before such characters the tokens are those over ASCII.** -/
theorem tokens_ascii {c : Cursor} (h : ∀ g ∈ c.rest, Alphabet.isCommon g.char = true) :
    c.tokens = @Cursor.tokens .ascii c := by
  have hnext {c : Cursor} (h : ∀ g ∈ c.rest, Alphabet.isCommon g.char = true) : c.next = @Cursor.next .ascii c :=
    read_ascii fun g hg => h g (rest_skipBlanks_subset c hg)
  fun_induction tokens c with
  | case1 c hfinish =>
    rw [hnext h] at hfinish ⊢
    rw [@tokens.eq_def .ascii, dif_pos hfinish]
  | case2 c hfinish ih =>
    rw [ih fun g hg => h g (rest_skipBlanks_subset c (rest_read_subset c.skipBlanks hg))]
    rw [hnext h] at hfinish ⊢
    exact (@tokens_of_next .ascii c hfinish).symm

end Cursor

/-- The text is made of letters of ASCII, blanks and punctuation. -/
def isCommon (s : String) : Bool := s.toList.all Alphabet.isCommon

/-- **A text of letters of ASCII, blanks and punctuation has the same tokens over all alphabets.** -/
theorem Token.scan_ascii [Alphabet] [Alphabet.Proper] {s : String} (h : isCommon s = true) :
    Token.scan s = @Token.scan .ascii s := by
  refine Cursor.tokens_ascii fun g hg => ?_
  rw [Token.start, Glyph.decode_ofText, Glyph.ofText] at hg
  obtain ⟨c, hc, rfl⟩ := List.mem_map.1 hg
  exact List.all_eq_true.1 h c hc

end Expr

end Generics
