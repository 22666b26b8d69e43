/-
# Characters together with their bytes

Positions in a text are byte offsets, while the rules of the language speak of
characters. A `Glyph` keeps both: the character, and the bytes it was read from.

Reading is total. A byte that starts no well-formed sequence (a stray
continuation byte, an overlong form, a surrogate, a value above `10FFFF`, a
sequence cut short) is a glyph of its own, with the replacement character as its
character. Nothing is dropped: the bytes of the glyphs, put together, are the input.
-/

namespace Generics

/-- Byte strings. -/
abbrev Bytes := List UInt8

/-- The bytes of a text. -/
def Bytes.ofText (s : String) : Bytes := s.toList.flatMap String.utf8EncodeChar

/-- A text can be given wherever bytes are asked for. -/
instance : Coe String Bytes := ⟨Bytes.ofText⟩

/-- A character and the bytes it was read from. -/
structure Glyph where
  /-- The character, `U+FFFD` for a byte that belongs to none. -/
  char : Char
  /-- The bytes, one for a byte that belongs to no character. -/
  bytes : Bytes
deriving DecidableEq, Repr

namespace Glyph

/-- Number of bytes the glyph occupies. -/
def width (g : Glyph) : Nat := g.bytes.length

/-- Number of bytes a stretch of glyphs occupies. -/
def widthAll : List Glyph → Nat
  | [] => 0
  | g :: gs => g.width + widthAll gs

/-- The text of a stretch of glyphs. -/
def textOf (gs : List Glyph) : String := String.ofList (gs.map Glyph.char)

/-- A character with its own encoding. -/
def ofChar (c : Char) : Glyph := ⟨c, String.utf8EncodeChar c⟩

/-- The glyphs of a text. -/
def ofText (s : String) : List Glyph := s.toList.map ofChar

/-- The character standing for a byte that belongs to none. -/
def replacement : Char := Char.ofNat 0xFFFD

/-- Bytes that follow the first one of a sequence. -/
def isContinuation (b : UInt8) : Bool := 0x80 ≤ b && b ≤ 0xBF

/-- The payload of a continuation byte. -/
def payload (b : UInt8) : Nat := b.toNat - 0x80

/-- A byte on its own: itself if it is a character, else the replacement character. -/
def lone (b : UInt8) : Glyph := ⟨if b < 0x80 then Char.ofNat b.toNat else replacement, [b]⟩

/-- The character of a two-byte sequence, if it is one. -/
def two? (b₀ b₁ : UInt8) : Option Char :=
  if 0xC2 ≤ b₀ && b₀ ≤ 0xDF && isContinuation b₁ then
    some (Char.ofNat ((b₀.toNat - 0xC0) * 0x40 + payload b₁))
  else none

/-- The character of a three-byte sequence, if it is one: not overlong and no surrogate. -/
def three? (b₀ b₁ b₂ : UInt8) : Option Char :=
  let code := ((b₀.toNat - 0xE0) * 0x40 + payload b₁) * 0x40 + payload b₂
  if 0xE0 ≤ b₀ && b₀ ≤ 0xEF && isContinuation b₁ && isContinuation b₂
      && 0x800 ≤ code && !(0xD800 ≤ code && code ≤ 0xDFFF) then
    some (Char.ofNat code)
  else none

/-- The character of a four-byte sequence, if it is one: not overlong and at most `10FFFF`. -/
def four? (b₀ b₁ b₂ b₃ : UInt8) : Option Char :=
  let code := (((b₀.toNat - 0xF0) * 0x40 + payload b₁) * 0x40 + payload b₂) * 0x40 + payload b₃
  if 0xF0 ≤ b₀ && b₀ ≤ 0xF4 && isContinuation b₁ && isContinuation b₂ && isContinuation b₃
      && 0x10000 ≤ code && code ≤ 0x10FFFF then
    some (Char.ofNat code)
  else none

/-- The glyph a non-empty byte string starts with. -/
def first (b₀ : UInt8) : Bytes → Glyph
  | b₁ :: b₂ :: b₃ :: _ =>
    match two? b₀ b₁, three? b₀ b₁ b₂, four? b₀ b₁ b₂ b₃ with
    | some c, _, _ => ⟨c, [b₀, b₁]⟩
    | none, some c, _ => ⟨c, [b₀, b₁, b₂]⟩
    | none, none, some c => ⟨c, [b₀, b₁, b₂, b₃]⟩
    | none, none, none => lone b₀
  | [b₁, b₂] =>
    match two? b₀ b₁, three? b₀ b₁ b₂ with
    | some c, _ => ⟨c, [b₀, b₁]⟩
    | none, some c => ⟨c, [b₀, b₁, b₂]⟩
    | none, none => lone b₀
  | [b₁] =>
    match two? b₀ b₁ with
    | some c => ⟨c, [b₀, b₁]⟩
    | none => lone b₀
  | [] => lone b₀

/-- All glyphs of a byte string. -/
def decode (bytes : Bytes) : List Glyph :=
  match bytes with
  | [] => []
  | b :: rest => first b rest :: decode (rest.drop ((first b rest).width - 1))
termination_by bytes.length
decreasing_by simp only [List.length_drop, List.length_cons]; omega

end Glyph

/-- Bytes as they are shown, with the replacement character for bytes that belong to no character. -/
def Bytes.toText (bytes : Bytes) : String := Glyph.textOf (Glyph.decode bytes)

end Generics
