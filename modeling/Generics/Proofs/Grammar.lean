/-
# Derivations in the grammar of type expressions

    type := elem ('&' elem)*
    elem := ('Null' | primitive | name ['<' arg (',' arg)* '>'] | '(' type ')') ('[' ']')*
    arg  := '?' ['extends' type] ['super' type] | type
    name := ident ('.' ident)*

A derivation is a tree over the symbols of this grammar, with the tokens at its leaves. Its word is the
row of these tokens, and its meaning is the type they stand for. A derivation is valid for a reading if
its leaves have the kinds that the grammar asks for and its names are used for what they mean: `Null` and
the primitives for themselves, a variable in scope without arguments, and any other name as a declaration
that is `Object` or known.

A word has at most one valid derivation (`Tree.unique`). Words are told apart before some rest that does
not go on with them: each repetition of the grammar is as long as the tokens after it allow, and whether
an optional part is there shows at its first token.
-/

import Generics.Expr.Parser
import Mathlib.Data.List.Basic
import Mathlib.Logic.Function.Iterate

namespace Generics.Expr

/-- The bounds that a wildcard may be given. -/
inductive Side
  | upper
  | lower
deriving DecidableEq

/-- The word before a bound. -/
def Side.word : Side → String
  | .upper => "extends"
  | .lower => "super"

/-- The bound that is meant by leaving it out. -/
def Side.omitted : Side → Ty
  | .upper => .object
  | .lower => .null

/-- The symbols of the grammar; `members` and `args` are what comes after the first member or argument. -/
inductive Symbol
  | type
  | members
  | elem
  | named
  | args
  | arg
  | bound (side : Side)

/-- What a word of a symbol stands for. -/
abbrev Symbol.Meaning : Symbol → Type
  | .type => Ty
  | .members => List Ty
  | .elem => Ty
  | .named => Ty
  | .args => List Arg
  | .arg => Arg
  | .bound _ => Ty

/-- The tokens of a row of pairs. -/
def pairWord (pairs : List (Token × Token)) : List Token := pairs.flatMap fun p => [p.1, p.2]

/-- The pairs are made of tokens of these kinds. -/
def PairsOf (first second : Kind) (pairs : List (Token × Token)) : Prop :=
  ∀ p ∈ pairs, p.1.kind = first ∧ p.2.kind = second

/-- A dotted name: its first part, and the further parts with the period before each. -/
structure Name where
  first : Token
  more : List (Token × Token)

namespace Name

/-- The tokens of a name. -/
def word (a : Name) : List Token := a.first :: pairWord a.more

/-- The name as text. -/
def text (a : Name) : String := ".".intercalate (a.first.data :: a.more.map fun p => p.2.data)

/-- The parts of the name are identifiers, with periods between them. -/
def Valid (a : Name) : Prop := a.first.kind = .ident ∧ PairsOf .period .ident a.more

/-- A name of one part. -/
def single (t : Token) : Name := ⟨t, []⟩

end Name

/-- Derivations of a symbol. -/
inductive Tree : Symbol → Type
  | type (first : Tree .elem) (more : Tree .members) : Tree .type
  | noMember : Tree .members
  | member (sign : Token) (first : Tree .elem) (more : Tree .members) : Tree .members
  | plain (head : Tree .named) (brackets : List (Token × Token)) : Tree .elem
  | group (left : Token) (inner : Tree .type) (right : Token) (brackets : List (Token × Token)) :
      Tree .elem
  | null (name : Token) : Tree .named
  | prim (name : Token) (p : Primitive) : Tree .named
  | bare (name : Name) : Tree .named
  | applied (name : Name) (left : Token) (first : Tree .arg) (more : Tree .args) (right : Token) :
      Tree .named
  | noArg : Tree .args
  | nextArg (sign : Token) (first : Tree .arg) (more : Tree .args) : Tree .args
  | typed (inner : Tree .type) : Tree .arg
  | wild (sign : Token) (upper : Tree (.bound .upper)) (lower : Tree (.bound .lower)) : Tree .arg
  | omitted (side : Side) : Tree (.bound side)
  | given (side : Side) (name : Token) (inner : Tree .type) : Tree (.bound side)

namespace Tree

/-- The tokens of a derivation. -/
@[simp] def word : {k : Symbol} → Tree k → List Token
  | _, .type first more => first.word ++ more.word
  | _, .noMember => []
  | _, .member sign first more => sign :: (first.word ++ more.word)
  | _, .plain head brackets => head.word ++ pairWord brackets
  | _, .group left inner right brackets => left :: (inner.word ++ right :: pairWord brackets)
  | _, .null name => [name]
  | _, .prim name _ => [name]
  | _, .bare name => name.word
  | _, .applied name left first more right =>
    name.word ++ left :: (first.word ++ (more.word ++ [right]))
  | _, .noArg => []
  | _, .nextArg sign first more => sign :: (first.word ++ more.word)
  | _, .typed inner => inner.word
  | _, .wild sign upper lower => sign :: (upper.word ++ lower.word)
  | _, .omitted _ => []
  | _, .given _ name inner => name :: inner.word

end Tree

/-- The name stands for a declaration. -/
def Reading.Declares (r : Reading) (name : String) : Prop :=
  r.scoped? name = none ∧ (name = objectName ∨ r.known name = true)

/-- What a name means whatever the scope and the declarations. -/
def reserved? (name : String) : Option Ty :=
  if name = "Null" then some .null else (Primitive.named? name).map .prim

/-- The meaning of a name without arguments that starts at a token, by the scope and the declarations. -/
def Reading.bare (r : Reading) (start : Token) (name : String) : Ty :=
  match r.scoped? name with
  | some v => .var (.declared v)
  | none => if name = objectName then .object else .nominal (r.site start) name []

/-- The meaning of a member with further ones: an intersection if there are any. -/
def joined (site : Site) (first : Ty) : List Ty → Ty
  | [] => first
  | t :: ts => .meet site (first :: t :: ts)

namespace Tree

variable (r : Reading)

/-- The derivation uses each token and each name for what it is. -/
def Valid : {k : Symbol} → Tree k → Prop
  | _, .type first more => first.Valid ∧ more.Valid
  | _, .noMember => True
  | _, .member sign first more => sign.kind = .and ∧ first.Valid ∧ more.Valid
  | _, .plain head brackets => head.Valid ∧ PairsOf .leftBracket .rightBracket brackets
  | _, .group left inner right brackets =>
    left.kind = .leftParen ∧ inner.Valid ∧ right.kind = .rightParen ∧
      PairsOf .leftBracket .rightBracket brackets
  | _, .null name => name.isWord "Null" = true
  | _, .prim name p => name.kind = .ident ∧ Primitive.named? name.data = some p
  | _, .bare name =>
    name.Valid ∧ reserved? name.text = none ∧
      ((r.scoped? name.text).isSome = true ∨ r.Declares name.text)
  | _, .applied name left first more right =>
    (name.Valid ∧ reserved? name.text = none ∧ r.Declares name.text) ∧
      left.kind = .less ∧ first.Valid ∧ more.Valid ∧ right.kind = .greater
  | _, .noArg => True
  | _, .nextArg sign first more => sign.kind = .comma ∧ first.Valid ∧ more.Valid
  | _, .typed inner => inner.Valid
  | _, .wild sign upper lower => sign.kind = .question ∧ upper.Valid ∧ lower.Valid
  | _, .omitted _ => True
  | _, .given side name inner => name.isWord side.word = true ∧ inner.Valid

/-- The meaning of a derivation. -/
def denote : {k : Symbol} → Tree k → k.Meaning
  | _, .type first more =>
    joined (r.site (first.word.headD r.atEnd)) first.denote more.denote
  | _, .noMember => []
  | _, .member _ first more => first.denote :: more.denote
  | _, .plain head brackets => Ty.array^[brackets.length] head.denote
  | _, .group _ inner _ brackets => Ty.array^[brackets.length] inner.denote
  | _, .null _ => Ty.null
  | _, .prim _ p => Ty.prim p
  | _, .bare name => r.bare name.first name.text
  | _, .applied name _ first more _ =>
    Ty.nominal (r.site name.first) name.text (first.denote :: more.denote)
  | _, .noArg => []
  | _, .nextArg _ first more => first.denote :: more.denote
  | _, .typed inner => Arg.type inner.denote
  | _, .wild _ upper lower => Arg.wild upper.denote lower.denote
  | _, .omitted side => side.omitted
  | _, .given _ _ inner => inner.denote

end Tree

/-- The tokens are a word of the symbol with this meaning. -/
def Reading.Derives (r : Reading) (k : Symbol) (word : List Token) (a : k.Meaning) : Prop :=
  ∃ d : Tree k, d.Valid r ∧ d.word = word ∧ d.denote r = a

/-- The token after a word of the symbol goes on with it. -/
def Symbol.GoesOn : Symbol → Token → Prop
  | .type, t | .members, t => t.kind ∈ [.and, .leftBracket, .less, .period]
  | .elem, t => t.kind ∈ [.leftBracket, .less, .period]
  | .named, t => t.kind ∈ [.less, .period]
  | .args, t =>
    t.kind ∈ [.comma, .and, .leftBracket, .less, .period] ∨ ∃ side : Side, t.isWord side.word = true
  | .arg, t =>
    t.kind ∈ [.and, .leftBracket, .less, .period] ∨ ∃ side : Side, t.isWord side.word = true
  | .bound side, t => t.kind ∈ [.and, .leftBracket, .less, .period] ∨ t.isWord side.word = true

/-- The rest does not go on with a word of the symbol. -/
def Symbol.Ends (k : Symbol) (rest : List Token) : Prop := ∀ t ∈ rest.head?, ¬ k.GoesOn t

/-- The rest does not start with a token of the kind. -/
def Kind.Absent (kind : Kind) (rest : List Token) : Prop := ∀ t ∈ rest.head?, t.kind ≠ kind

section Ends

variable {rest : List Token}

/-- At the end of the tokens every word ends. -/
@[simp] theorem Symbol.ends_nil (k : Symbol) : k.Ends [] := by simp [Symbol.Ends]

/-- A word ends where the next token does not go on with it. -/
@[simp] theorem Symbol.ends_cons {k : Symbol} {t : Token} : k.Ends (t :: rest) ↔ ¬ k.GoesOn t := by
  simp [Symbol.Ends]

/-- A kind is absent if the next token is of another one. -/
@[simp] theorem Kind.absent_cons {kind : Kind} {t : Token} :
    kind.Absent (t :: rest) ↔ t.kind ≠ kind := by simp [Kind.Absent]

/-- Where a word ends, kinds that go on with it are absent. -/
theorem Symbol.Ends.absent {k : Symbol} {kind : Kind} (h : k.Ends rest)
    (hk : ∀ t : Token, t.kind = kind → k.GoesOn t) : kind.Absent rest :=
  fun t ht hkind => h t ht (hk t hkind)

/-- What goes on with a part of a word at its end goes on with the word. -/
theorem Symbol.Ends.part {k k' : Symbol} (h : k.Ends rest)
    (hk : ∀ t, k'.GoesOn t → k.GoesOn t) : k'.Ends rest :=
  fun t ht hgoes => h t ht (hk t hgoes)

/-- Where a type ends, there are no further members. -/
theorem Symbol.Ends.members (h : Symbol.type.Ends rest) : Symbol.members.Ends rest := h

/-- Where members end, the last one ends. -/
theorem Symbol.Ends.elem (h : Symbol.members.Ends rest) : Symbol.elem.Ends rest :=
  h.part fun t ht => by simp only [GoesOn, List.mem_cons] at ht ⊢; exact .inr ht

/-- Where an element ends, the name in it ends. -/
theorem Symbol.Ends.named (h : Symbol.elem.Ends rest) : Symbol.named.Ends rest :=
  h.part fun t ht => by simp only [GoesOn, List.mem_cons] at ht ⊢; exact .inr ht

/-- Where arguments end, the last one ends. -/
theorem Symbol.Ends.arg (h : Symbol.args.Ends rest) : Symbol.arg.Ends rest :=
  h.part fun t ht => by
    simp only [GoesOn, List.mem_cons] at ht ⊢
    exact ht.imp_left .inr

/-- Where an argument ends, its bounds end. -/
theorem Symbol.Ends.bound (side : Side) (h : Symbol.arg.Ends rest) :
    (Symbol.bound side).Ends rest :=
  h.part fun _ ht => ht.imp_right fun hword => ⟨side, hword⟩

/-- Where a bound ends, the type in it ends. -/
theorem Symbol.Ends.type {side : Side} (h : (Symbol.bound side).Ends rest) :
    Symbol.type.Ends rest :=
  h.part fun _ => .inl

/-- Where an element ends, no brackets follow. -/
theorem Symbol.Ends.no_bracket (h : Symbol.elem.Ends rest) : Kind.leftBracket.Absent rest :=
  h.absent fun t ht => by simp [GoesOn, ht]

/-- Where a name ends, no period follows. -/
theorem Symbol.Ends.no_period (h : Symbol.named.Ends rest) : Kind.period.Absent rest :=
  h.absent fun t ht => by simp [GoesOn, ht]

/-- Where a name ends, no arguments follow. -/
theorem Symbol.Ends.no_less (h : Symbol.named.Ends rest) : Kind.less.Absent rest :=
  h.absent fun t ht => by simp [GoesOn, ht]

/-- A token is a word if it is an identifier with this text. -/
theorem Token.isWord_iff {t : Token} {word : String} :
    t.isWord word = true ↔ t.kind = .ident ∧ t.data = word := by
  simp [Token.isWord]

/-- Punctuation is no word. -/
theorem Token.not_isWord {t : Token} (h : t.kind ≠ .ident) (word : String) :
    t.isWord word = false := by
  simp [Token.isWord, h]

end Ends

namespace Tree

variable {r : Reading} {rest : List Token}

/-- Before further members an element ends. -/
theorem ends_members {m : Tree .members} (hm : m.Valid r) (h : Symbol.members.Ends rest) :
    Symbol.elem.Ends (m.word ++ rest) := by
  cases m with
  | noMember => exact h.elem
  | member sign first more => simp [Symbol.GoesOn, hm.1]

/-- Before brackets the name ends. -/
theorem ends_brackets {brackets : List (Token × Token)}
    (hb : PairsOf .leftBracket .rightBracket brackets) (h : Symbol.elem.Ends rest) :
    Symbol.named.Ends (pairWord brackets ++ rest) := by
  cases brackets with
  | nil => exact h.named
  | cons p ps => simp [pairWord, Symbol.GoesOn, (hb p (by simp)).1]

/-- Before a closing parenthesis a type ends. -/
theorem ends_right {t : Token} (h : t.kind = .rightParen) : Symbol.type.Ends (t :: rest) := by
  simp [Symbol.GoesOn, h]

/-- Before a closing angle bracket the arguments end. -/
theorem ends_greater {t : Token} (h : t.kind = .greater) : Symbol.args.Ends (t :: rest) := by
  simp [Symbol.GoesOn, h, Token.not_isWord]

/-- Before further arguments an argument ends. -/
theorem ends_args {m : Tree .args} (hm : m.Valid r) (h : Symbol.args.Ends rest) :
    Symbol.arg.Ends (m.word ++ rest) := by
  cases m with
  | noArg => exact h.arg
  | nextArg sign first more => simp [Symbol.GoesOn, hm.1, Token.not_isWord]

/-- Before a lower bound the upper one ends. -/
theorem ends_lower {b : Tree (.bound .lower)} (hb : b.Valid r) (h : Symbol.arg.Ends rest) :
    (Symbol.bound .upper).Ends (b.word ++ rest) := by
  cases b with
  | omitted => exact h.bound .upper
  | given _ name inner =>
    obtain ⟨hkind, hdata⟩ := Token.isWord_iff.1 hb.1
    simp [Symbol.GoesOn, hkind, Token.isWord_iff, hdata, Side.word]

end Tree

/-- How many pairs stand in a row is told by what follows them. -/
theorem pairs_unique {first second : Kind} {pairs pairs' : List (Token × Token)}
    {rest rest' : List Token} (hp : PairsOf first second pairs) (hp' : PairsOf first second pairs')
    (hr : first.Absent rest) (hr' : first.Absent rest')
    (h : pairWord pairs ++ rest = pairWord pairs' ++ rest') : pairs = pairs' ∧ rest = rest' := by
  induction pairs generalizing pairs' with
  | nil =>
    cases pairs' with
    | nil => exact ⟨rfl, h⟩
    | cons p' pairs' =>
      subst h
      exact absurd (hp' p' (by simp)).1 (hr p'.1 (by simp [pairWord]))
  | cons p pairs ih =>
    cases pairs' with
    | nil =>
      subst h
      exact absurd (hp p (by simp)).1 (hr' p.1 (by simp [pairWord]))
    | cons p' pairs' =>
      simp only [pairWord, List.flatMap_cons, List.cons_append, List.nil_append,
        List.cons.injEq] at h
      obtain ⟨h₁, h₂, h⟩ := h
      obtain ⟨rfl, rfl⟩ := ih (fun q hq => hp q (by simp [hq])) (fun q hq => hp' q (by simp [hq])) h
      exact ⟨by rw [Prod.ext h₁ h₂], rfl⟩

/-- The text of a name of one part is that of its token. -/
@[simp] theorem Name.single_text (t : Token) : (Name.single t).text = t.data := rfl

/-- A name is told by the tokens, up to where no period follows. -/
theorem Name.unique {a b : Name} {rest rest' : List Token} (ha : a.Valid) (hb : b.Valid)
    (hr : Kind.period.Absent rest) (hr' : Kind.period.Absent rest')
    (h : a.word ++ rest = b.word ++ rest') : a = b ∧ rest = rest' := by
  obtain ⟨first, more⟩ := a
  obtain ⟨first', more'⟩ := b
  obtain ⟨rfl, h⟩ := List.cons.inj h
  obtain ⟨rfl, rfl⟩ := pairs_unique ha.2 hb.2 hr hr' h
  exact ⟨rfl, rfl⟩

namespace Tree

variable {r : Reading}

section Named

/-- The name that a word of `named` starts with. -/
def name : Tree .named → Name
  | .null t => .single t
  | .prim t _ => .single t
  | .bare name => name
  | .applied name _ _ _ _ => name

/-- What comes after the name in a word of `named`. -/
def tail : Tree .named → List Token
  | .null _ => []
  | .prim _ _ => []
  | .bare _ => []
  | .applied _ left first more right => left :: (first.word ++ (more.word ++ [right]))

/-- The meaning of a word of `named` that its name has whatever the scope and the declarations. -/
def fixed? : Tree .named → Option Ty
  | .null _ => some .null
  | .prim _ p => some (.prim p)
  | .bare _ => none
  | .applied _ _ _ _ _ => none

variable {d d' : Tree .named} {rest rest' : List Token}

/-- A derivation of a name and arguments consists of both. -/
theorem word_eq_name (d : Tree .named) : d.word = d.name.word ++ d.tail := by
  cases d <;> simp [name, tail, Name.word, Name.single, pairWord]

/-- The name in a valid derivation is valid. -/
theorem name_valid (hd : d.Valid r) : d.name.Valid := by
  cases d with
  | null t => exact ⟨(Token.isWord_iff.1 hd).1, by simp [PairsOf, name, Name.single]⟩
  | prim t p => exact ⟨hd.1, by simp [PairsOf, name, Name.single]⟩
  | bare name => exact hd.1
  | applied name left first more right => exact hd.1.1

/-- Only reserved names have a fixed meaning. -/
theorem fixed_eq_reserved (hd : d.Valid r) : d.fixed? = reserved? d.name.text := by
  cases d with
  | null t => simp [fixed?, name, reserved?, (Token.isWord_iff.1 hd).2]
  | prim t p =>
    have hnull : t.data ≠ "Null" := by
      intro h
      have hnone : Primitive.named? "Null" = none := by decide
      rw [← h, hd.2] at hnone
      cases hnone
    simp [fixed?, name, reserved?, hnull, hd.2]
  | bare name => exact hd.2.1.symm
  | applied name left first more right => exact hd.1.2.1.symm

/-- What comes after a name does not go on with it. -/
theorem tail_absent (hd : d.Valid r) (h : Symbol.named.Ends rest) :
    Kind.period.Absent (d.tail ++ rest) := by
  cases d with
  | applied name left first more right => simp [tail, hd.2.1]
  | _ => exact h.no_period

/-- The name in a word is unique. -/
theorem name_unique (hd : d.Valid r) (hd' : d'.Valid r) (hr : Symbol.named.Ends rest)
    (hr' : Symbol.named.Ends rest') (h : d.word ++ rest = d'.word ++ rest') :
    d.name = d'.name ∧ d.tail ++ rest = d'.tail ++ rest' := by
  rw [word_eq_name, word_eq_name, List.append_assoc, List.append_assoc] at h
  exact Name.unique (name_valid hd) (name_valid hd') (tail_absent hd hr) (tail_absent hd' hr') h

/-- Two words of `named` with one name are of one form, unless one has arguments. -/
theorem fixed_unique (hd : d.Valid r) (hd' : d'.Valid r) (h : d.name = d'.name) :
    d.fixed? = d'.fixed? := by
  rw [fixed_eq_reserved hd, fixed_eq_reserved hd', h]

end Named

/-- A word of `elem` starts with a name or with a parenthesis. -/
theorem elem_starts {d : Tree .elem} (hd : d.Valid r) :
    ∃ t ts, d.word = t :: ts ∧ (t.kind = .ident ∨ t.kind = .leftParen) := by
  cases d with
  | plain head brackets =>
    have hword : head.word = head.name.first :: (pairWord head.name.more ++ head.tail) :=
      word_eq_name head
    exact ⟨head.name.first, _, by rw [word, hword, List.cons_append], .inl (name_valid hd.1).1⟩
  | group left inner right brackets => exact ⟨left, _, rfl, .inr hd.1⟩

/-- A type starts with an identifier or a parenthesis. -/
theorem type_starts {d : Tree .type} (hd : d.Valid r) :
    ∃ t ts, d.word = t :: ts ∧ (t.kind = .ident ∨ t.kind = .leftParen) := by
  cases d with
  | type first more =>
    obtain ⟨t, ts, hword, ht⟩ := elem_starts hd.1
    exact ⟨t, _, by rw [word, hword, List.cons_append], ht⟩

/-- A type does not start with a question mark. -/
theorem starts_question {d : Tree .type} (hd : d.Valid r) {t : Token} {rest ts : List Token}
    (h : t :: ts = d.word ++ rest) : t.kind ≠ .question := by
  obtain ⟨t', ts', hword, ht⟩ := type_starts hd
  rw [hword] at h
  obtain ⟨rfl, -⟩ := List.cons.inj h
  rcases ht with ht | ht <;> simp [ht]

/-- **A word of the grammar has one derivation.** It also ends where a rest starts that does not go on
with it. -/
theorem unique {k : Symbol} {d d' : Tree k} {rest rest' : List Token} (hd : d.Valid r)
    (hd' : d'.Valid r) (hr : k.Ends rest) (hr' : k.Ends rest')
    (h : d.word ++ rest = d'.word ++ rest') : d = d' ∧ rest = rest' := by
  induction d generalizing rest rest' with
  | type first more ihf ihm =>
    cases d' with
    | type first' more' =>
    simp only [word, List.append_assoc] at h
    obtain ⟨rfl, hmore⟩ := ihf hd.1 hd'.1 (ends_members hd.2 hr) (ends_members hd'.2 hr') h
    obtain ⟨rfl, hrest⟩ := ihm hd.2 hd'.2 hr hr' hmore
    exact ⟨rfl, hrest⟩
  | noMember =>
    cases d' with
    | noMember => exact ⟨rfl, h⟩
    | member sign' first' more' =>
      subst h
      simp [Symbol.GoesOn, hd'.1] at hr
  | member sign first more ihf ihm =>
    cases d' with
    | noMember =>
      subst h
      simp [Symbol.GoesOn, hd.1] at hr'
    | member sign' first' more' =>
      simp only [word, List.cons_append, List.append_assoc, List.cons.injEq] at h
      obtain ⟨rfl, hword⟩ := h
      obtain ⟨-, hf, hm⟩ := hd
      obtain ⟨-, hf', hm'⟩ := hd'
      obtain ⟨rfl, hmore⟩ := ihf hf hf' (ends_members hm hr) (ends_members hm' hr') hword
      obtain ⟨rfl, hrest⟩ := ihm hm hm' hr hr' hmore
      exact ⟨rfl, hrest⟩
  | plain head brackets ih =>
    cases d' with
    | plain head' brackets' =>
      simp only [word, List.append_assoc] at h
      obtain ⟨rfl, hword⟩ := ih hd.1 hd'.1 (ends_brackets hd.2 hr) (ends_brackets hd'.2 hr') h
      obtain ⟨rfl, hrest⟩ := pairs_unique hd.2 hd'.2 hr.no_bracket hr'.no_bracket hword
      exact ⟨rfl, hrest⟩
    | group left' inner' right' brackets' =>
      rw [word, word_eq_name, Name.word, word, List.append_assoc, List.append_assoc] at h
      have hkind := (name_valid hd.1).1
      rw [(List.cons.inj h).1, hd'.1] at hkind
      cases hkind
  | group left inner right brackets ih =>
    cases d' with
    | plain head' brackets' =>
      rw [word, word, word_eq_name, Name.word, List.append_assoc, List.append_assoc] at h
      have hkind := (name_valid hd'.1).1
      rw [← (List.cons.inj h).1, hd.1] at hkind
      cases hkind
    | group left' inner' right' brackets' =>
      simp only [word, List.cons_append, List.append_assoc, List.cons.injEq] at h
      obtain ⟨rfl, hword⟩ := h
      obtain ⟨-, hi, hright, hb⟩ := hd
      obtain ⟨-, hi', hright', hb'⟩ := hd'
      obtain ⟨rfl, hclose⟩ := ih hi hi' (ends_right hright) (ends_right hright') hword
      obtain ⟨rfl, hpairs⟩ := List.cons.inj hclose
      obtain ⟨rfl, hrest⟩ := pairs_unique hb hb' hr.no_bracket hr'.no_bracket hpairs
      exact ⟨rfl, hrest⟩
  | null t =>
    obtain ⟨hname, hrest⟩ := name_unique hd hd' hr hr' h
    have hfixed := fixed_unique hd hd' hname
    cases d' with
    | null t' =>
      obtain ⟨rfl, -⟩ := Name.mk.inj hname
      exact ⟨rfl, hrest⟩
    | _ => cases hfixed
  | prim t p =>
    obtain ⟨hname, hrest⟩ := name_unique hd hd' hr hr' h
    have hfixed := fixed_unique hd hd' hname
    cases d' with
    | prim t' p' =>
      obtain ⟨rfl, -⟩ := Name.mk.inj hname
      cases hfixed
      exact ⟨rfl, hrest⟩
    | _ => cases hfixed
  | bare name =>
    obtain ⟨hname, hrest⟩ := name_unique hd hd' hr hr' h
    have hfixed := fixed_unique hd hd' hname
    cases d' with
    | bare name' => exact ⟨congrArg _ hname, hrest⟩
    | applied name' left' first' more' right' =>
      have hless := hr.no_less
      rw [show rest = _ from hrest] at hless
      exact absurd hd'.2.1 (Kind.absent_cons.1 hless)
    | _ => cases hfixed
  | applied name left first more right ihf ihm =>
    obtain ⟨hname, hword⟩ := name_unique hd hd' hr hr' h
    have hfixed := fixed_unique hd hd' hname
    cases d' with
    | applied name' left' first' more' right' =>
      obtain rfl : name = name' := hname
      simp only [tail, List.cons_append, List.append_assoc, List.cons.injEq] at hword
      obtain ⟨rfl, hword⟩ := hword
      obtain ⟨-, -, hf, hm, hright⟩ := hd
      obtain ⟨-, -, hf', hm', hright'⟩ := hd'
      obtain ⟨rfl, hmore⟩ := ihf hf hf' (ends_args hm (ends_greater hright))
        (ends_args hm' (ends_greater hright')) hword
      obtain ⟨rfl, hclose⟩ := ihm hm hm' (ends_greater hright) (ends_greater hright') hmore
      obtain ⟨rfl, hrest⟩ := List.cons.inj hclose
      exact ⟨rfl, hrest⟩
    | bare name' =>
      have hless := hr'.no_less
      rw [show rest' = _ from hword.symm] at hless
      exact absurd hd.2.1 (Kind.absent_cons.1 hless)
    | _ => cases hfixed
  | noArg =>
    cases d' with
    | noArg => exact ⟨rfl, h⟩
    | nextArg sign' first' more' =>
      subst h
      simp [Symbol.GoesOn, hd'.1] at hr
  | nextArg sign first more ihf ihm =>
    cases d' with
    | noArg =>
      subst h
      simp [Symbol.GoesOn, hd.1] at hr'
    | nextArg sign' first' more' =>
      simp only [word, List.cons_append, List.append_assoc, List.cons.injEq] at h
      obtain ⟨rfl, hword⟩ := h
      obtain ⟨-, hf, hm⟩ := hd
      obtain ⟨-, hf', hm'⟩ := hd'
      obtain ⟨rfl, hmore⟩ := ihf hf hf' (ends_args hm hr) (ends_args hm' hr') hword
      obtain ⟨rfl, hrest⟩ := ihm hm hm' hr hr' hmore
      exact ⟨rfl, hrest⟩
  | typed inner ih =>
    cases d' with
    | typed inner' =>
      obtain ⟨rfl, hrest⟩ := ih hd hd' (hr.bound .upper).type (hr'.bound .upper).type h
      exact ⟨rfl, hrest⟩
    | wild sign' upper' lower' => exact absurd hd'.1 (starts_question hd h.symm)
  | wild sign upper lower ihu ihl =>
    cases d' with
    | typed inner' => exact absurd hd.1 (starts_question hd' h)
    | wild sign' upper' lower' =>
      simp only [word, List.cons_append, List.append_assoc, List.cons.injEq] at h
      obtain ⟨rfl, hword⟩ := h
      obtain ⟨-, hu, hl⟩ := hd
      obtain ⟨-, hu', hl'⟩ := hd'
      obtain ⟨rfl, hlower⟩ := ihu hu hu' (ends_lower hl hr) (ends_lower hl' hr') hword
      obtain ⟨rfl, hrest⟩ := ihl hl hl' (hr.bound .lower) (hr'.bound .lower) hlower
      exact ⟨rfl, hrest⟩
  | omitted side =>
    cases d' with
    | omitted => exact ⟨rfl, h⟩
    | given _ name' inner' =>
      subst h
      simp [Symbol.GoesOn, hd'.1] at hr
  | given side name inner ih =>
    cases d' with
    | omitted =>
      subst h
      simp [Symbol.GoesOn, hd.1] at hr'
    | given _ name' inner' =>
      obtain ⟨rfl, hword⟩ := List.cons.inj h
      obtain ⟨rfl, hrest⟩ := ih hd.2 hd'.2 hr.type hr'.type hword
      exact ⟨rfl, hrest⟩

end Tree

end Generics.Expr
