/-
# Byte strings as glyphs

Every byte string is in one way a sequence of characters, each in its UTF-8 encoding, and of single bytes at
which no character is encoded. This is how its glyphs are cut: where a character is encoded the glyph is that
character (`Glyph.decode_char`), and where none is, the glyph is one byte (`Glyph.decode_malformed`). The
shape of the sequences that `first` tells apart is that of the encodings of two, three and four bytes
(`Glyph.two?_eq_some` and the ones after it); the rest follows from it.

So what holds of bytes is shown by induction on what they start with (`Glyph.bytes_induction`).
-/

import Generics.Text.Glyph
import Mathlib.Data.List.TakeWhile
import Mathlib.Tactic.SplitIfs

namespace Generics.Glyph

variable {b b₀ b₁ b₂ b₃ : UInt8} {c c' : Char} {rest more more' : Bytes}

/-! ### The encoding of a character -/

/-- The code of a character is at most `10FFFF` and that of no surrogate. -/
theorem toNat_valid (c : Char) : c.toNat ≤ 0x10FFFF ∧ ¬ (0xD800 ≤ c.toNat ∧ c.toNat ≤ 0xDFFF) := by
  have h : c.toNat.isValidChar := c.valid
  rw [Nat.isValidChar] at h
  omega

/-- A valid number is that of one character. -/
theorem ofNat_eq_iff {n : Nat} (h : n.isValidChar) : Char.ofNat n = c ↔ c.toNat = n := by
  constructor
  · rintro rfl
    rw [Char.ofNat, dif_pos h]
    rfl
  · rintro rfl
    exact Char.ofNat_toNat c

/-- The encoding of a character, by how large its code is. -/
theorem utf8EncodeChar_eq (c : Char) : String.utf8EncodeChar c =
    if c.toNat ≤ 0x7F then [UInt8.ofNat c.toNat]
    else if c.toNat ≤ 0x7FF then
      [UInt8.ofNat (c.toNat / 0x40 % 0x20 + 0xC0), UInt8.ofNat (c.toNat % 0x40 + 0x80)]
    else if c.toNat ≤ 0xFFFF then
      [UInt8.ofNat (c.toNat / 0x1000 % 0x10 + 0xE0), UInt8.ofNat (c.toNat / 0x40 % 0x40 + 0x80),
        UInt8.ofNat (c.toNat % 0x40 + 0x80)]
    else
      [UInt8.ofNat (c.toNat / 0x40000 % 8 + 0xF0), UInt8.ofNat (c.toNat / 0x1000 % 0x40 + 0x80),
        UInt8.ofNat (c.toNat / 0x40 % 0x40 + 0x80), UInt8.ofNat (c.toNat % 0x40 + 0x80)] := rfl

/-- One byte encodes a character of ASCII. -/
theorem encode_one : String.utf8EncodeChar c = [b₀] ↔ c.toNat ≤ 0x7F ∧ b₀.toNat = c.toNat := by
  rw [utf8EncodeChar_eq]
  split_ifs <;> simp only [List.cons.injEq, and_true, UInt8.ofNat_eq_iff_mod_eq_toNat, reduceCtorEq,
    and_false, false_iff] <;> omega

/-- Two bytes encode a character of eleven bits, beyond ASCII. -/
theorem encode_two : String.utf8EncodeChar c = [b₀, b₁] ↔ 0x7F < c.toNat ∧ c.toNat ≤ 0x7FF ∧
    b₀.toNat = c.toNat / 0x40 + 0xC0 ∧ b₁.toNat = c.toNat % 0x40 + 0x80 := by
  rw [utf8EncodeChar_eq]
  split_ifs <;> simp only [List.cons.injEq, and_true, UInt8.ofNat_eq_iff_mod_eq_toNat, reduceCtorEq,
    and_false, false_iff] <;> omega

/-- Three bytes encode a character of sixteen bits, beyond two bytes. -/
theorem encode_three : String.utf8EncodeChar c = [b₀, b₁, b₂] ↔ 0x7FF < c.toNat ∧ c.toNat ≤ 0xFFFF ∧
    b₀.toNat = c.toNat / 0x1000 + 0xE0 ∧ b₁.toNat = c.toNat / 0x40 % 0x40 + 0x80 ∧
      b₂.toNat = c.toNat % 0x40 + 0x80 := by
  rw [utf8EncodeChar_eq]
  split_ifs <;> simp only [List.cons.injEq, and_true, UInt8.ofNat_eq_iff_mod_eq_toNat, reduceCtorEq,
    and_false, false_iff] <;> omega

/-- Four bytes encode all other characters. -/
theorem encode_four : String.utf8EncodeChar c = [b₀, b₁, b₂, b₃] ↔ 0xFFFF < c.toNat ∧
    b₀.toNat = c.toNat / 0x40000 + 0xF0 ∧ b₁.toNat = c.toNat / 0x1000 % 0x40 + 0x80 ∧
      b₂.toNat = c.toNat / 0x40 % 0x40 + 0x80 ∧ b₃.toNat = c.toNat % 0x40 + 0x80 := by
  have h := (toNat_valid c).1
  rw [utf8EncodeChar_eq]
  split_ifs <;> simp only [List.cons.injEq, and_true, UInt8.ofNat_eq_iff_mod_eq_toNat, reduceCtorEq,
    and_false, false_iff] <;> omega

/-- A character is encoded in one to four bytes. -/
theorem encode_cases (c : Char) : (∃ b, String.utf8EncodeChar c = [b]) ∨
    (∃ b₀ b₁, String.utf8EncodeChar c = [b₀, b₁]) ∨
      (∃ b₀ b₁ b₂, String.utf8EncodeChar c = [b₀, b₁, b₂]) ∨
        ∃ b₀ b₁ b₂ b₃, String.utf8EncodeChar c = [b₀, b₁, b₂, b₃] := by
  rw [utf8EncodeChar_eq]
  split_ifs
  · exact .inl ⟨_, rfl⟩
  · exact .inr (.inl ⟨_, _, rfl⟩)
  · exact .inr (.inr (.inl ⟨_, _, _, rfl⟩))
  · exact .inr (.inr (.inr ⟨_, _, _, _, rfl⟩))

/-- At most one character is encoded at the start of some bytes. -/
theorem encode_append_inj (h : String.utf8EncodeChar c ++ more = String.utf8EncodeChar c' ++ more') :
    c = c' ∧ more = more' := by
  have hchar (c : Char) (more : Bytes) :
      (String.utf8EncodeChar c ++ more).toByteArray.utf8DecodeChar? 0 = some c := by
    rw [List.toByteArray_append]
    exact ByteArray.utf8DecodeChar?_utf8EncodeChar_append
  obtain rfl : c = c' := by
    have h' := hchar c more
    rw [h, hchar c' more'] at h'
    exact (Option.some.inj h').symm
  exact ⟨rfl, List.append_cancel_left h⟩

/-! ### The sequences that are told apart -/

/-- **Two bytes are told to be a character that they encode**, and no others are. -/
theorem two?_eq_some : two? b₀ b₁ = some c ↔ String.utf8EncodeChar c = [b₀, b₁] := by
  have h₀ := b₀.toNat_lt
  have h₁ := b₁.toNat_lt
  rw [encode_two]
  unfold two? isContinuation payload
  simp only [Option.ite_none_right_eq_some, Bool.and_eq_true, decide_eq_true_eq, Option.some.injEq,
    UInt8.le_iff_toNat_le, UInt8.reduceToNat]
  constructor
  · rintro ⟨h, hc⟩
    rw [ofNat_eq_iff (by rw [Nat.isValidChar]; omega)] at hc
    omega
  · intro h
    rw [ofNat_eq_iff (by rw [Nat.isValidChar]; omega)]
    omega

/-- Three bytes are read as the character that they encode. -/
theorem three?_eq_some : three? b₀ b₁ b₂ = some c ↔ String.utf8EncodeChar c = [b₀, b₁, b₂] := by
  have h := toNat_valid c
  have h₀ := b₀.toNat_lt
  have h₁ := b₁.toNat_lt
  rw [encode_three]
  unfold three? isContinuation payload
  simp only [Option.ite_none_right_eq_some, Bool.and_eq_true, decide_eq_true_eq, Option.some.injEq,
    UInt8.le_iff_toNat_le, UInt8.reduceToNat, Bool.not_eq_true', Bool.and_eq_false_iff,
    decide_eq_false_iff_not]
  constructor
  · rintro ⟨h, hc⟩
    rw [ofNat_eq_iff (by rw [Nat.isValidChar]; omega)] at hc
    omega
  · intro h
    rw [ofNat_eq_iff (by rw [Nat.isValidChar]; omega)]
    omega

/-- Four bytes are read as the character that they encode. -/
theorem four?_eq_some : four? b₀ b₁ b₂ b₃ = some c ↔ String.utf8EncodeChar c = [b₀, b₁, b₂, b₃] := by
  have h := toNat_valid c
  have h₀ := b₀.toNat_lt
  have h₁ := b₁.toNat_lt
  rw [encode_four]
  unfold four? isContinuation payload
  simp only [Option.ite_none_right_eq_some, Bool.and_eq_true, decide_eq_true_eq, Option.some.injEq,
    UInt8.le_iff_toNat_le, UInt8.reduceToNat]
  constructor
  · rintro ⟨h, hc⟩
    rw [ofNat_eq_iff (by rw [Nat.isValidChar]; omega)] at hc
    omega
  · intro h
    rw [ofNat_eq_iff (by rw [Nat.isValidChar]; omega)]
    omega

/-! ### Bytes at which no character is encoded -/

/-- No character is encoded at the start of the bytes. -/
def Malformed (bytes : Bytes) : Prop := ∀ c, ¬ String.utf8EncodeChar c <+: bytes

/-- A byte that belongs to no character. -/
def stray (b : UInt8) : Glyph := ⟨replacement, [b]⟩

/-- No character is encoded at a byte above `7F` if what follows does not go on as it must. -/
theorem malformed_of_none (hone : 0x80 ≤ b.toNat)
    (htwo : ∀ b₁ more, rest = b₁ :: more → two? b b₁ = none)
    (hthree : ∀ b₁ b₂ more, rest = b₁ :: b₂ :: more → three? b b₁ b₂ = none)
    (hfour : ∀ b₁ b₂ b₃ more, rest = b₁ :: b₂ :: b₃ :: more → four? b b₁ b₂ b₃ = none) :
    Malformed (b :: rest) := by
  rintro c ⟨more, h⟩
  rcases encode_cases c with ⟨b₀, hc⟩ | ⟨b₀, b₁, hc⟩ | ⟨b₀, b₁, b₂, hc⟩ | ⟨b₀, b₁, b₂, b₃, hc⟩ <;>
    rw [hc] at h <;> cases h
  · have := encode_one.1 hc
    omega
  · cases (htwo b₁ more rfl).symm.trans (two?_eq_some.2 hc)
  · cases (hthree b₁ b₂ more rfl).symm.trans (three?_eq_some.2 hc)
  · cases (hfour b₁ b₂ b₃ more rfl).symm.trans (four?_eq_some.2 hc)

/-- The glyph is what the bytes start with: the character that is encoded there, or else one byte. -/
def Heads (bytes : Bytes) (g : Glyph) : Prop :=
  (∃ c more, bytes = String.utf8EncodeChar c ++ more ∧ g = ofChar c) ∨
    ∃ b more, bytes = b :: more ∧ Malformed bytes ∧ g = stray b

/-- Bytes that start with an encoded character head with it. -/
theorem heads_char (h : String.utf8EncodeChar c = b :: rest) : Heads (b :: (rest ++ more)) ⟨c, b :: rest⟩ :=
  .inl ⟨c, more, by rw [h, List.cons_append], by rw [ofChar, h]⟩

/-- Bytes that start with no character head with a lone byte. -/
theorem heads_lone (h : 0x80 ≤ b.toNat → Malformed (b :: rest)) : Heads (b :: rest) (lone b) := by
  by_cases hb : b < 0x80
  · have hlt : b.toNat < 0x80 := by simpa [UInt8.lt_iff_toNat_lt] using hb
    have hcode := (ofNat_eq_iff (n := b.toNat) (by rw [Nat.isValidChar]; omega)).1 rfl
    rw [lone, if_pos hb]
    exact heads_char (encode_one.2 ⟨by omega, hcode.symm⟩)
  · have hle : 0x80 ≤ b.toNat := by simpa [UInt8.lt_iff_toNat_lt] using hb
    exact .inr ⟨b, rest, rfl, h hle, by rw [lone, if_neg hb, stray]⟩

/-- **The first glyph is the character that is encoded at the start**, or else one byte. -/
theorem heads_first (b : UInt8) (rest : Bytes) : Heads (b :: rest) (first b rest) := by
  fun_cases first b rest with
  | case1 b₁ b₂ b₃ more c h => exact heads_char (two?_eq_some.1 h)
  | case2 b₁ b₂ b₃ more c h htwo => exact heads_char (three?_eq_some.1 h)
  | case3 b₁ b₂ b₃ more c h hthree htwo => exact heads_char (four?_eq_some.1 h)
  | case4 b₁ b₂ b₃ more hfour hthree htwo =>
    exact heads_lone fun hb => malformed_of_none hb (by rintro _ _ ⟨⟩; exact htwo)
      (by rintro _ _ _ ⟨⟩; exact hthree) (by rintro _ _ _ _ ⟨⟩; exact hfour)
  | case5 b₁ b₂ c h => exact heads_char (two?_eq_some.1 h)
  | case6 b₁ b₂ c h htwo => exact heads_char (three?_eq_some.1 h)
  | case7 b₁ b₂ hthree htwo =>
    exact heads_lone fun hb => malformed_of_none hb (by rintro _ _ ⟨⟩; exact htwo)
      (by rintro _ _ _ ⟨⟩; exact hthree) (by simp)
  | case8 b₁ c h => exact heads_char (two?_eq_some.1 h)
  | case9 b₁ htwo =>
    exact heads_lone fun hb => malformed_of_none hb (by rintro _ _ ⟨⟩; exact htwo) (by simp) (by simp)
  | case10 => exact heads_lone fun hb => malformed_of_none hb (by simp) (by simp) (by simp)

/-! ### All glyphs -/

/-- No bytes are decoded to nothing. -/
theorem decode_nil : decode [] = [] := by rw [decode]

/-- Bytes are decoded to what they start with, and then the rest is decoded. -/
theorem decode_cons : decode (b :: rest) = first b rest :: decode (rest.drop ((first b rest).width - 1)) := by
  rw [decode]

/-- **A character is read where it is encoded.** -/
theorem decode_char (c : Char) (more : Bytes) :
    decode (String.utf8EncodeChar c ++ more) = ofChar c :: decode more := by
  obtain ⟨b, tail, hc⟩ := List.exists_cons_of_ne_nil (String.utf8EncodeChar_ne_nil (c := c))
  have hfirst : first b (tail ++ more) = ofChar c := by
    rcases heads_first b (tail ++ more) with ⟨c', more', h, hfirst⟩ | ⟨_, _, -, hmalformed, -⟩
    · rw [← List.cons_append, ← hc] at h
      rw [hfirst, (encode_append_inj h).1]
    · exact absurd ⟨more, by rw [hc, List.cons_append]⟩ (hmalformed c)
  rw [hc, List.cons_append, decode_cons, hfirst]
  simp [ofChar, width, hc]

/-- **Where no character is encoded, one byte is read.** -/
theorem decode_malformed (h : Malformed (b :: more)) : decode (b :: more) = stray b :: decode more := by
  have hfirst : first b more = stray b := by
    rcases heads_first b more with ⟨c, more', heq, -⟩ | ⟨b', _, heq, -, hfirst⟩
    · exact absurd ⟨more', heq.symm⟩ (h c)
    · rw [hfirst, (List.cons.inj heq).1]
  rw [decode_cons, hfirst]
  rfl

/-- Bytes are none, or they start with a character, or with a byte at which no character is encoded. -/
theorem bytes_cases (bytes : Bytes) : bytes = [] ∨
    (∃ c more, bytes = String.utf8EncodeChar c ++ more) ∨
      ∃ b more, bytes = b :: more ∧ Malformed (b :: more) := by
  cases bytes with
  | nil => exact .inl rfl
  | cons b rest =>
    rcases heads_first b rest with ⟨c, more, h, -⟩ | ⟨_, _, -, hmalformed, -⟩
    · exact .inr (.inl ⟨c, more, h⟩)
    · exact .inr (.inr ⟨b, rest, rfl, hmalformed⟩)

/-- A character is encoded in at least one byte. -/
theorem encode_length_pos (c : Char) : 0 < (String.utf8EncodeChar c).length :=
  List.length_pos_iff.2 String.utf8EncodeChar_ne_nil

/-- What holds of no bytes, and goes on to a character in front and to a byte at which none is encoded, holds
of all bytes. -/
@[elab_as_elim]
theorem bytes_induction {motive : Bytes → Prop} (nil : motive [])
    (char : ∀ c more, motive more → motive (String.utf8EncodeChar c ++ more))
    (malformed : ∀ b more, Malformed (b :: more) → motive more → motive (b :: more)) (bytes : Bytes) :
    motive bytes := by
  induction hn : bytes.length using Nat.strongRecOn generalizing bytes with
  | ind n ih =>
    rcases bytes_cases bytes with rfl | ⟨c, more, rfl⟩ | ⟨b, more, rfl, hmalformed⟩
    · exact nil
    · have hc := encode_length_pos c
      rw [List.length_append] at hn
      exact char c more (ih _ (by omega) more rfl)
    · exact malformed b more hmalformed (ih _ (hn ▸ Nat.lt_succ_self _) more rfl)

/-- The bytes of the glyphs are the bytes that were read. -/
theorem flatMap_bytes_decode (bytes : Bytes) : (decode bytes).flatMap Glyph.bytes = bytes := by
  induction bytes using bytes_induction with
  | nil => simp [decode_nil]
  | char c more ih => rw [decode_char, List.flatMap_cons, ih, ofChar]
  | malformed b more h ih => rw [decode_malformed h, List.flatMap_cons, ih, stray, List.singleton_append]

/-- Glyphs are as wide as their bytes are many. -/
theorem widthAll_eq (gs : List Glyph) : widthAll gs = (gs.flatMap Glyph.bytes).length := by
  induction gs with
  | nil => rfl
  | cons g gs ih => rw [widthAll, ih, width, List.flatMap_cons, List.length_append]

/-- Glyphs are as wide as the bytes that were read. -/
theorem widthAll_decode (bytes : Bytes) : widthAll (decode bytes) = bytes.length := by
  rw [widthAll_eq, flatMap_bytes_decode]

/-- A text is read where it stands. -/
theorem decode_text (s : String) (more : Bytes) :
    decode (Bytes.ofText s ++ more) = ofText s ++ decode more := by
  rw [ofText, Bytes.ofText]
  induction s.toList with
  | nil => rfl
  | cons c cs ih => rw [List.flatMap_cons, List.append_assoc, decode_char, ih, List.map_cons, List.cons_append]

/-- The glyphs of a text are those of its bytes. -/
theorem decode_ofText (s : String) : decode (Bytes.ofText s) = ofText s := by
  have h := decode_text s []
  rwa [decode_nil, List.append_nil, List.append_nil] at h

/-- A text is shown as it is. -/
theorem toText_ofText (s : String) : (Bytes.ofText s).toText = s := by
  rw [Bytes.toText, decode_ofText]
  simp [textOf, ofText, ofChar, Function.comp_def]

/-- **Bytes start with a text of characters that have a property**, after which no character that has it is
encoded. -/
theorem exists_span (p : Char → Bool) (bytes : Bytes) :
    ∃ (s : String) (rest : Bytes), bytes = Bytes.ofText s ++ rest ∧
      (∀ c ∈ s.toList, p c = true) ∧ ∀ c, String.utf8EncodeChar c <+: rest → p c = false := by
  induction bytes using bytes_induction with
  | nil => exact ⟨"", [], rfl, by simp, by simp⟩
  | char c more ih =>
    by_cases hc : p c = true
    · obtain ⟨s, rest, rfl, hs, hrest⟩ := ih
      refine ⟨String.ofList (c :: s.toList), rest, ?_, ?_, hrest⟩
      · rw [Bytes.ofText, Bytes.ofText, String.toList_ofList, List.flatMap_cons, List.append_assoc]
      · rw [String.toList_ofList]
        exact List.forall_mem_cons.2 ⟨hc, hs⟩
    · refine ⟨"", _, rfl, by simp, fun c' h => ?_⟩
      obtain ⟨more', h⟩ := h
      rw [(encode_append_inj h).1]
      exact Bool.eq_false_iff.2 hc
  | malformed b more h _ => exact ⟨"", _, rfl, by simp, fun c hc => absurd hc (h c)⟩

end Generics.Glyph
