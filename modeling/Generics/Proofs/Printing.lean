/-
# Types are read back as they are written

The written form of a type is read as an equal type, if the type can be written at all: its variables are
the ones that their names mean in scope, its declarations are known and not hidden by variables, and its
intersections are flat and have at least two members. These are the types that texts are read as, so writing
a type that was read and reading it again gives an equal one (`parse_render`).

For each symbol of the grammar the written form is one of its words (`Reading.Spells`), by the form of the
type. Parentheses are needed only for an intersection under an array, as only there its members would be
followed by a bracket.
-/

import Generics.Proofs.Alphabets
import Generics.Proofs.Parsing
import Generics.Proofs.Reflexivity

namespace Generics

open Text

/-- The text is identifiers with dots between them. -/
def Text.IsDotted [Alphabet] (s : String) : Prop :=
  ∃ part parts, s = ".".intercalate (part :: parts) ∧ ∀ p ∈ part :: parts, isIdentifier p = true

namespace Expr

/-- The text can be the name of a variable or of a declaration. -/
def IsName [Alphabet] (name : String) : Prop := IsDotted name ∧ reserved? name = none

/-- The variable in scope of a name: the last one. -/
def meant? (scope : List TypeVar) (name : String) : Option TypeVar :=
  scope.reverse.find? fun v => v.name == name

end Expr

section Alphabet

variable [Alphabet]

mutual
/-- The type can be written where these names are known and these variables are in scope. -/
def Ty.Printable (known : String → Bool) (scope : List TypeVar) : Ty → Prop
  | .prim p => ∃ name, (p, name) ∈ Primitive.spellings
  | .null => True
  | .nominal _ decl args =>
    Expr.IsName decl ∧ Expr.meant? scope decl = none ∧ (decl = objectName ∨ known decl = true) ∧
      Arg.PrintableAll known scope args
  | .array elem => elem.Printable known scope
  | .inter _ members => 2 ≤ members.length ∧ Ty.PrintableAll known scope members
  | .var (.declared v) => Expr.IsName v.name ∧ Expr.meant? scope v.name = some v
  | .var (.captured _) => False

/-- The argument can be written. An upper bound that is left out is `Object`, whatever that name means in
scope. -/
def Arg.Printable (known : String → Bool) (scope : List TypeVar) : Arg → Prop
  | .type t => t.Printable known scope
  | .wild upper lower =>
    ((∃ site, upper = .nominal site objectName []) ∨ upper.Printable known scope) ∧
      lower.Printable known scope

/-- The types can be written and are no intersections. -/
def Ty.PrintableAll (known : String → Bool) (scope : List TypeVar) : List Ty → Prop
  | [] => True
  | t :: ts => (t.isInter = false ∧ t.Printable known scope) ∧ Ty.PrintableAll known scope ts

/-- The arguments can be written. -/
def Arg.PrintableAll (known : String → Bool) (scope : List TypeVar) : List Arg → Prop
  | [] => True
  | a :: as => a.Printable known scope ∧ Arg.PrintableAll known scope as
end

end Alphabet

/-- The default upper bound is `Object` without arguments, wherever it was built. -/
theorem Ty.isDefaultUpper_iff {t : Ty} :
    t.isDefaultUpper = true ↔ ∃ site, t = .nominal site objectName [] := by
  constructor
  · intro h
    have hshape : Ty.object.sameShape t = true := by
      refine Ty.sameShape_symm ?_
      simp only [Ty.isDefaultUpper, Ty.equal, Bool.and_eq_true] at h
      exact h.2
    obtain ⟨site, args, rfl, hargs⟩ := Ty.eq_of_sameShape_nominal hshape
    obtain rfl := Arg.eq_of_sameShape_nil hargs
    exact ⟨site, rfl⟩
  · rintro ⟨site, rfl⟩
    exact Ty.equal_of_sameShape (by simp [Ty.sameShape, Ty.object, Arg.sameShapeAll])

namespace Expr

/-- A dotted name is scanned as the word of a valid name with that text. -/
theorem lexes_name [Alphabet] [Alphabet.Proper] {s : String} (h : IsDotted s) :
    Lexes s fun ts => ∃ a : Name, a.Valid ∧ a.text = s ∧ a.word = ts := by
  obtain ⟨part, parts, rfl, hparts⟩ := h
  induction parts generalizing part with
  | nil =>
    rw [String.intercalate_singleton]
    refine (lexes_word (hparts part (by simp))).imp ?_
    rintro _ ⟨t, hkind, hdata, rfl⟩
    exact ⟨.single t, ⟨hkind, by simp [PairsOf, Name.single]⟩, hdata, rfl⟩
  | cons second parts ih =>
    rw [String.intercalate_cons_cons, String.append_assoc]
    have hmore := ih second fun p hp => hparts p (List.mem_cons_of_mem _ hp)
    have hdot : Kind.punctuation? '.' = some .period := rfl
    refine ((lexes_word (hparts part (by simp))).append (hmore.sign hdot) (parts_sign hdot)).imp ?_
    rintro _ ⟨_, _, ⟨first, hfirst, hdata, rfl⟩, ⟨dot, _, hperiod, ⟨a, ha, htext, rfl⟩, rfl⟩, rfl⟩
    refine ⟨⟨first, (dot, a.first) :: a.more⟩, ⟨hfirst, ?_⟩, ?_, rfl⟩
    · rintro p hp
      rcases List.mem_cons.1 hp with rfl | hp
      · exact ⟨hperiod, ha.1⟩
      · exact ha.2 p hp
    · rw [← htext, ← hdata, ← String.append_assoc]
      exact String.intercalate_cons_cons

/-- Pairs of tokens behind pairs of tokens are pairs of tokens. -/
theorem PairsOf.append {first second : Kind} {ps qs : List (Token × Token)}
    (hp : PairsOf first second ps) (hq : PairsOf first second qs) : PairsOf first second (ps ++ qs) :=
  fun p h => (List.mem_append.1 h).elim (hp p) (hq p)

/-- The text is a word of the symbol, with a meaning that has the property. -/
def Reading.Spells [Alphabet] (r : Reading) (k : Symbol) (text : String) (Q : k.Meaning → Prop) : Prop :=
  Lexes text fun ts => ∃ a, r.Derives k ts a ∧ Q a

namespace Reading

section Spells

variable [Alphabet] {r : Reading} {s s' : String}

/-- A reserved name spells the type it is reserved for. -/
theorem spells_reserved [Alphabet.Proper] {t : Ty} (h : IsDotted s) (ht : reserved? s = some t) :
    r.Spells .named s fun a => a = t := by
  refine (lexes_name h).imp ?_
  rintro _ ⟨a, ha, rfl, rfl⟩
  exact ⟨t, derives_reserved ha ht, rfl⟩

/-- A name that is in scope or declared spells what it means without arguments. -/
theorem spells_bare [Alphabet.Proper] (h : IsName s) (hs : (r.scoped? s).isSome = true ∨ r.Declares s) :
    r.Spells .named s fun a => ∃ start, a = r.bare start s := by
  refine (lexes_name h.1).imp ?_
  rintro _ ⟨a, ha, rfl, rfl⟩
  exact ⟨_, ⟨.bare a, ⟨ha, h.2, hs⟩, rfl, rfl⟩, a.first, rfl⟩

/-- A declared name with arguments in angle brackets spells the declaration applied to them. -/
theorem spells_applied [Alphabet.Proper] {Q : Arg → Prop} {Q' : List Arg → Prop} {decl : String} (h : IsName decl)
    (hdecl : r.Declares decl) (hfirst : r.Spells .arg s Q) (hmore : r.Spells .args s' Q')
    (hs' : Parts s') :
    r.Spells .named (decl ++ "<" ++ s ++ s' ++ ">") fun a =>
      ∃ site b bs, a = .nominal site decl (b :: bs) ∧ Q b ∧ Q' bs := by
  have hless : Kind.punctuation? '<' = some .less := rfl
  have hgreater : Kind.punctuation? '>' = some .greater := rfl
  have htext : decl ++ "<" ++ s ++ s' ++ ">" =
      decl ++ (String.singleton '<' ++ (s ++ (s' ++ (String.singleton '>' ++ "")))) := by
    simp [← String.append_assoc]
  have hclose := lexes_empty.sign hgreater
  have hmore := Lexes.append hmore hclose (parts_sign hgreater)
  have hargs := Lexes.append hfirst hmore (hs'.append (parts_sign hgreater))
  rw [htext]
  refine ((lexes_name h.1).append (hargs.sign hless) (parts_sign hless)).imp ?_
  rintro _ ⟨_, _, ⟨a, ha, rfl, rfl⟩, ⟨left, _, hleft, ⟨_, _, ⟨_, ⟨d, hd, rfl, rfl⟩, hb⟩,
    ⟨_, _, ⟨_, ⟨ds, hds, rfl, rfl⟩, hbs⟩, ⟨right, _, hright, rfl, rfl⟩, rfl⟩, rfl⟩, rfl⟩, rfl⟩
  exact ⟨_, ⟨.applied a left d ds right, ⟨⟨ha, h.2, hdecl⟩, hleft, hd, hds, hright⟩, rfl, rfl⟩,
    _, _, _, rfl, hb, hbs⟩

/-- What spells a named type spells an element. -/
theorem Spells.elem {Q : Ty → Prop} (h : r.Spells .named s Q) : r.Spells .elem s Q := by
  refine Lexes.imp h ?_
  rintro _ ⟨a, ⟨d, hd, rfl, rfl⟩, ha⟩
  exact ⟨_, ⟨.plain d [], ⟨hd, by simp [PairsOf]⟩, by simp [pairWord], rfl⟩, ha⟩

/-- What spells an element spells a type. -/
theorem Spells.type {Q : Ty → Prop} (h : r.Spells .elem s Q) : r.Spells .type s Q := by
  refine Lexes.imp h ?_
  rintro _ ⟨a, ⟨d, hd, rfl, rfl⟩, ha⟩
  exact ⟨_, ⟨.type d .noMember, ⟨hd, trivial⟩, by simp, rfl⟩, ha⟩

/-- An element with brackets behind it spells an array. -/
theorem Spells.array [Alphabet.Proper] {Q : Ty → Prop} (h : r.Spells .elem s Q) :
    r.Spells .elem (s ++ "[]") fun a => ∃ b, a = .array b ∧ Q b := by
  have hleft : Kind.punctuation? '[' = some .leftBracket := rfl
  have hright : Kind.punctuation? ']' = some .rightBracket := rfl
  refine (Lexes.append h ((lexes_empty.sign hright).sign hleft) (parts_sign hleft)).imp ?_
  rintro _ ⟨_, _, ⟨_, ⟨d, hd, rfl, rfl⟩, hb⟩, ⟨left, _, hleft, ⟨right, _, hright, rfl, rfl⟩, rfl⟩, rfl⟩
  have hpair : PairsOf .leftBracket .rightBracket [(left, right)] := by simp [PairsOf, hleft, hright]
  refine ⟨_, ?_, _, rfl, hb⟩
  cases d with
  | plain head brackets =>
    refine ⟨.plain head (brackets ++ [(left, right)]), ⟨hd.1, hd.2.append hpair⟩,
      by simp [pairWord], ?_⟩
    simp [Tree.denote, Function.iterate_succ_apply']
  | group open_ inner close brackets =>
    refine ⟨.group open_ inner close (brackets ++ [(left, right)]),
      ⟨hd.1, hd.2.1, hd.2.2.1, hd.2.2.2.append hpair⟩, by simp [pairWord], ?_⟩
    simp [Tree.denote, Function.iterate_succ_apply']

/-- A type in parentheses with brackets behind it spells an array: that is how arrays of intersections
are written. -/
theorem Spells.group_array [Alphabet.Proper] {Q : Ty → Prop} (h : r.Spells .type s Q) :
    r.Spells .elem ("(" ++ s ++ ")[]") fun a => ∃ b, a = .array b ∧ Q b := by
  have hopen : Kind.punctuation? '(' = some .leftParen := rfl
  have hclose : Kind.punctuation? ')' = some .rightParen := rfl
  have hleft : Kind.punctuation? '[' = some .leftBracket := rfl
  have hright : Kind.punctuation? ']' = some .rightBracket := rfl
  have hsigns := ((lexes_empty.sign hright).sign hleft).sign hclose
  rw [String.append_assoc]
  refine ((Lexes.append h hsigns (parts_sign hclose)).sign hopen).imp ?_
  rintro _ ⟨start, _, hopen, ⟨_, _, ⟨_, ⟨d, hd, rfl, rfl⟩, hb⟩, ⟨close, _, hclose, ⟨left, _, hleft,
    ⟨right, _, hright, rfl, rfl⟩, rfl⟩, rfl⟩, rfl⟩, rfl⟩
  exact ⟨_, ⟨.group start d close [(left, right)],
    ⟨hopen, hd, hclose, by simp [PairsOf, hleft, hright]⟩, rfl, rfl⟩, _, rfl, hb⟩

/-- An element with members behind it spells the intersection of all of them. -/
theorem spells_joined {Q : Ty → Prop} {Q' : List Ty → Prop} (h : r.Spells .elem s Q)
    (h' : r.Spells .members s' Q') (hs' : Parts s') :
    r.Spells .type (s ++ s') fun a => ∃ site b bs, a = joined site b bs ∧ Q b ∧ Q' bs := by
  refine (Lexes.append h h' hs').imp ?_
  rintro _ ⟨_, _, ⟨_, ⟨d, hd, rfl, rfl⟩, hb⟩, ⟨_, ⟨ds, hds, rfl, rfl⟩, hbs⟩, rfl⟩
  exact ⟨_, ⟨.type d ds, ⟨hd, hds⟩, rfl, rfl⟩, _, _, _, rfl, hb, hbs⟩

/-- The empty text spells no members. -/
theorem spells_noMember : r.Spells .members "" fun bs => bs = [] := by
  refine lexes_empty.imp ?_
  rintro _ rfl
  exact ⟨_, ⟨.noMember, trivial, rfl, rfl⟩, rfl⟩

/-- An ampersand, an element and further members spell one member more. -/
theorem spells_member [Alphabet.Proper] {Q : Ty → Prop} {Q' : List Ty → Prop} (h : r.Spells .elem s Q)
    (h' : r.Spells .members s' Q') (hs' : Parts s') :
    r.Spells .members (" & " ++ s ++ s') fun bs => ∃ b bs', bs = b :: bs' ∧ Q b ∧ Q' bs' := by
  have hand : Kind.punctuation? '&' = some .and := rfl
  have htext : " & " ++ s ++ s' = " " ++ (String.singleton '&' ++ (" " ++ (s ++ s'))) := by
    simp [← String.append_assoc]
  rw [htext]
  refine ((Lexes.append h h' hs').blank.sign hand).blank.imp ?_
  rintro _ ⟨sign, _, hsign, ⟨_, _, ⟨_, ⟨d, hd, rfl, rfl⟩, hb⟩, ⟨_, ⟨ds, hds, rfl, rfl⟩, hbs⟩, rfl⟩, rfl⟩
  exact ⟨_, ⟨.member sign d ds, ⟨hsign, hd, hds⟩, rfl, rfl⟩, _, _, rfl, hb, hbs⟩

/-- The empty text spells no further arguments. -/
theorem spells_noArg : r.Spells .args "" fun bs => bs = [] := by
  refine lexes_empty.imp ?_
  rintro _ rfl
  exact ⟨_, ⟨.noArg, trivial, rfl, rfl⟩, rfl⟩

/-- A comma, an argument and further arguments spell one argument more. -/
theorem spells_nextArg [Alphabet.Proper] {Q : Arg → Prop} {Q' : List Arg → Prop} (h : r.Spells .arg s Q)
    (h' : r.Spells .args s' Q') (hs' : Parts s') :
    r.Spells .args (", " ++ s ++ s') fun bs => ∃ b bs', bs = b :: bs' ∧ Q b ∧ Q' bs' := by
  have hcomma : Kind.punctuation? ',' = some .comma := rfl
  have htext : ", " ++ s ++ s' = String.singleton ',' ++ (" " ++ (s ++ s')) := by
    simp [← String.append_assoc]
  rw [htext]
  refine ((Lexes.append h h' hs').blank.sign hcomma).imp ?_
  rintro _ ⟨sign, _, hsign, ⟨_, _, ⟨_, ⟨d, hd, rfl, rfl⟩, hb⟩, ⟨_, ⟨ds, hds, rfl, rfl⟩, hbs⟩, rfl⟩, rfl⟩
  exact ⟨_, ⟨.nextArg sign d ds, ⟨hsign, hd, hds⟩, rfl, rfl⟩, _, _, rfl, hb, hbs⟩

/-- What spells a type spells an argument. -/
theorem Spells.arg {Q : Ty → Prop} (h : r.Spells .type s Q) :
    r.Spells .arg s fun a => ∃ b, a = .type b ∧ Q b := by
  refine Lexes.imp h ?_
  rintro _ ⟨_, ⟨d, hd, rfl, rfl⟩, hb⟩
  exact ⟨_, ⟨.typed d, hd, rfl, rfl⟩, _, rfl, hb⟩

/-- The empty text spells the bound that is left out. -/
theorem spells_omitted (side : Side) : r.Spells (.bound side) "" fun b => b = side.omitted := by
  refine lexes_empty.imp ?_
  rintro _ rfl
  exact ⟨_, ⟨.omitted side, trivial, rfl, rfl⟩, rfl⟩

/-- The word of a bound with a type behind it spells the bound. -/
theorem spells_given [Alphabet.Proper] (side : Side) {Q : Ty → Prop} (h : r.Spells .type s Q) :
    r.Spells (.bound side) (" " ++ (side.word ++ (" " ++ s))) Q := by
  have hword : isIdentifier side.word = true := by
    cases side <;> exact isIdentifier_of_letters (by decide) (by decide)
  refine ((lexes_word hword).append (Lexes.blank h) parts_blank).blank.imp ?_
  rintro _ ⟨_, _, ⟨name, hkind, hdata, rfl⟩, ⟨_, ⟨d, hd, rfl, rfl⟩, hb⟩, rfl⟩
  exact ⟨_, ⟨.given side name d, ⟨Token.isWord_iff.2 ⟨hkind, hdata⟩, hd⟩, rfl, rfl⟩, hb⟩

/-- A question mark and two bounds spell a wildcard. -/
theorem spells_wild [Alphabet.Proper] {Q Q' : Ty → Prop} (h : r.Spells (.bound .upper) s Q)
    (h' : r.Spells (.bound .lower) s' Q') (hs' : Parts s') :
    r.Spells .arg ("?" ++ s ++ s') fun a => ∃ u l, a = .wild u l ∧ Q u ∧ Q' l := by
  have hquestion : Kind.punctuation? '?' = some .question := rfl
  rw [String.append_assoc]
  refine ((Lexes.append h h' hs').sign hquestion).imp ?_
  rintro _ ⟨sign, _, hsign, ⟨_, _, ⟨_, ⟨d, hd, rfl, rfl⟩, hu⟩, ⟨_, ⟨d', hd', rfl, rfl⟩, hl⟩, rfl⟩, rfl⟩
  exact ⟨_, ⟨.wild sign d d', ⟨hsign, hd, hd'⟩, rfl, rfl⟩, _, _, rfl, hu, hl⟩

end Spells

end Reading

/-- An identifier is a dotted name without dots. -/
theorem isDotted_of_identifier [Alphabet] {s : String} (h : isIdentifier s = true) : IsDotted s :=
  ⟨s, [], by simp, by simpa using h⟩

/-- What is written for further members goes on after any word. -/
theorem parts_renderMore [Alphabet] [Alphabet.Proper] (ts : List Ty) : Parts (Ty.renderMore ts) := by
  cases ts with
  | nil => exact parts_empty
  | cons t ts =>
    have htext : Ty.renderMore (t :: ts) = " " ++ ("& " ++ (t.render ++ Ty.renderMore ts)) := by
      simp [Ty.renderMore, ← String.append_assoc]
    rw [htext]
    exact parts_blank

/-- What is written for further arguments goes on after any word. -/
theorem parts_renderMoreArgs [Alphabet] [Alphabet.Proper] (as : List Arg) : Parts (Arg.renderMore as) := by
  cases as with
  | nil => exact parts_empty
  | cons a as =>
    have htext : Arg.renderMore (a :: as) =
        String.singleton ',' ++ (" " ++ (a.render ++ Arg.renderMore as)) := by
      simp [Arg.renderMore, ← String.append_assoc]
    rw [htext]
    exact parts_sign rfl

/-- Types of the shape of printable members are no intersections, so that joining them does not flatten
anything. -/
theorem flatMap_conjuncts_of_sameShape [Alphabet] {known : String → Bool} {scope : List TypeVar} {bs ts : List Ty}
    (h : Ty.sameShapeAll bs ts = true) (hts : Ty.PrintableAll known scope ts) :
    bs.flatMap Ty.conjuncts = bs := by
  induction bs generalizing ts with
  | nil => rfl
  | cons b bs ih =>
    obtain ⟨t, ts, rfl, hb, hbs⟩ := Ty.eq_of_sameShape_cons h
    have hinter : b.isInter = false := (Ty.isInter_of_sameShape hb).trans hts.1.1
    have hconj : b.conjuncts = [b] := by cases b <;> first | rfl | cases hinter
    rw [List.flatMap_cons, hconj, ih hbs hts.2, List.singleton_append]

/-- Two or more members without intersections among them are joined as they are. -/
theorem sameShape_joined [Alphabet] {known : String → Bool} {scope : List TypeVar} {site site' : Site} {b : Ty}
    {bs members : List Ty} (h : Ty.sameShapeAll (b :: bs) members = true)
    (hmembers : Ty.PrintableAll known scope members) (hlen : 2 ≤ members.length) :
    (joined site b bs).sameShape (.inter site' members) = true := by
  have hflat := flatMap_conjuncts_of_sameShape h hmembers
  cases bs with
  | nil =>
    obtain ⟨t, ts, rfl, -, hts⟩ := Ty.eq_of_sameShape_cons h
    obtain rfl := Ty.eq_of_sameShape_nil hts
    simp at hlen
  | cons b' bs =>
    rw [joined, Ty.meet, hflat]
    simpa only [Ty.sameShape] using h

section Written

variable [Alphabet] {r : Reading}

/-- A text that spells one thing spells whatever follows from it. -/
theorem Reading.Spells.imp {k : Symbol} {s : String} {Q Q' : k.Meaning → Prop} (h : r.Spells k s Q)
    (hQ : ∀ a, Q a → Q' a) : r.Spells k s Q' :=
  Lexes.imp h fun _ ⟨a, hderives, ha⟩ => ⟨a, hderives, hQ a ha⟩

/-- What is written as a name is written as a type. -/
theorem spells_of_named {t : Ty} {s : String} {Q : Ty → Prop} (h : r.Spells .named s Q)
    (hQ : ∀ a, Q a → a.sameShape t = true) :
    (t.isInter = false → r.Spells .elem s fun a => a.sameShape t = true) ∧
      r.Spells .type s fun a => a.sameShape t = true :=
  ⟨fun _ => h.elem.imp hQ, h.elem.type.imp hQ⟩

variable [Alphabet.Proper]

/-- Primitive types are spelled by their names. -/
theorem spells_prim {p : Primitive} (h : ∃ name, (p, name) ∈ Primitive.spellings) :
    r.Spells .named p.render fun a => a = .prim p := by
  obtain ⟨name, hname⟩ := h
  have hall : ∀ entry ∈ Primitive.spellings, entry.1.render ≠ "" ∧
      entry.1.render.toList.all Char.isAlpha = true ∧
        reserved? entry.1.render = some (.prim entry.1) := by decide +kernel
  obtain ⟨hne, hletters, hreserved⟩ := hall _ hname
  exact Reading.spells_reserved (isDotted_of_identifier (isIdentifier_of_letters hne hletters)) hreserved

/-- The null type is spelled by its name. -/
theorem spells_null : r.Spells .named "Null" fun a => a = .null :=
  Reading.spells_reserved (isDotted_of_identifier (isIdentifier_of_letters (by decide) (by decide))) rfl

/-- A variable in scope is spelled by its name, unless a later one hides it. -/
theorem spells_var {v : TypeVar} (h : IsName v.name) (hv : r.scoped? v.name = some v) :
    r.Spells .named v.name fun a => a = .var (.declared v) := by
  refine Lexes.imp (Reading.spells_bare h (.inl (by rw [hv]; rfl))) ?_
  rintro _ ⟨_, hderives, start, rfl⟩
  rw [Reading.bare, hv] at hderives
  exact ⟨_, hderives, rfl⟩

/-- A declaration that no variable hides is spelled by its name. -/
theorem spells_decl {decl : String} (h : IsName decl) (hdecl : r.Declares decl) :
    r.Spells .named decl fun a => ∃ site, a = .nominal site decl [] := by
  refine Lexes.imp (Reading.spells_bare h (.inr hdecl)) ?_
  rintro _ ⟨a, hderives, start, rfl⟩
  refine ⟨_, hderives, ?_⟩
  rw [Reading.bare, hdecl.1]
  dsimp only
  split
  · next hobject => exact ⟨.common, by rw [hobject]; rfl⟩
  · exact ⟨_, rfl⟩

mutual
/-- The written form of a type is a word of `type`, and of `elem` if it is no intersection. -/
theorem spells_type : ∀ t : Ty, t.Printable r.known r.scope →
    (t.isInter = false → r.Spells .elem t.render fun a => a.sameShape t = true) ∧
      r.Spells .type t.render fun a => a.sameShape t = true
  | .prim p, h => spells_of_named (spells_prim h) (by rintro _ rfl; simp [Ty.sameShape])
  | .null, _ => spells_of_named spells_null (by rintro _ rfl; simp [Ty.sameShape])
  | .nominal site decl [], h => by
    rw [Ty.render]
    refine spells_of_named (spells_decl h.1 ⟨h.2.1, h.2.2.1⟩) ?_
    rintro _ ⟨site', rfl⟩
    simp [Ty.sameShape, Arg.sameShapeAll]
  | .nominal site decl (a :: as), h => by
    obtain ⟨hname, hscope, hdecl, ha, has⟩ := h
    rw [Ty.render]
    refine spells_of_named (Reading.spells_applied hname ⟨hscope, hdecl⟩ (spells_arg a ha)
      (spells_args as has) (parts_renderMoreArgs as)) ?_
    rintro _ ⟨site', b, bs, rfl, hb, hbs⟩
    simp [Ty.sameShape, Arg.sameShapeAll, hb, hbs]
  | .array elem, h => by
    have helem := spells_type elem h
    suffices harray : r.Spells .elem (Ty.array elem).render fun a => a.sameShape (.array elem) = true from
      ⟨fun _ => harray, harray.type⟩
    have hshape : ∀ a : Ty, (∃ b, a = .array b ∧ b.sameShape elem = true) →
        a.sameShape (.array elem) = true := by
      rintro _ ⟨b, rfl, hb⟩
      simpa only [Ty.sameShape] using hb
    rw [Ty.render]
    split
    · exact helem.2.group_array.imp hshape
    · next hinter => exact (helem.1 (by simpa using hinter)).array.imp hshape
  | .inter site [], h => absurd h.1 (by simp)
  | .inter site (t :: ts), h => by
    have hfirst := (spells_type t h.2.1.2).1 h.2.1.1
    refine ⟨fun hinter => absurd hinter (by simp [Ty.isInter]), ?_⟩
    rw [Ty.render]
    refine (Reading.spells_joined hfirst (spells_members ts h.2.2) (parts_renderMore ts)).imp ?_
    rintro _ ⟨site', b, bs, rfl, hb, hbs⟩
    exact sameShape_joined (by simp [Ty.sameShapeAll, hb, hbs]) h.2 h.1
  | .var (.declared v), h => spells_of_named (spells_var h.1 h.2) (by rintro _ rfl; simp [Ty.sameShape])
  | .var (.captured i), h => h.elim

/-- Printed arguments spell arguments of their shape. -/
theorem spells_arg : ∀ a : Arg, a.Printable r.known r.scope →
    r.Spells .arg a.render fun b => b.sameShape a = true
  | .type t, h => by
    rw [Arg.render]
    refine (spells_type t h).2.arg.imp ?_
    rintro _ ⟨b, rfl, hb⟩
    simpa only [Arg.sameShape] using hb
  | .wild upper lower, h => by
    have hupper : r.Spells (.bound .upper)
        (if upper.isDefaultUpper then "" else " extends " ++ upper.render)
        fun a => a.sameShape upper = true := by
      split
      · next hdefault =>
        obtain ⟨site, rfl⟩ := Ty.isDefaultUpper_iff.1 hdefault
        refine (Reading.spells_omitted .upper).imp ?_
        rintro _ rfl
        simp [Side.omitted, Ty.object, Ty.sameShape, Arg.sameShapeAll]
      · next hdefault =>
        have hprintable := h.1.resolve_left fun hobject => hdefault (Ty.isDefaultUpper_iff.2 hobject)
        have htext : " extends " ++ upper.render = " " ++ ("extends" ++ (" " ++ upper.render)) := by
          simp [← String.append_assoc]
        rw [htext]
        exact Reading.spells_given .upper (spells_type upper hprintable).2
    have hsuper : " super " ++ lower.render = " " ++ ("super" ++ (" " ++ lower.render)) := by
      simp [← String.append_assoc]
    have hlower : r.Spells (.bound .lower)
        (if lower.isDefaultLower then "" else " super " ++ lower.render)
        fun a => a.sameShape lower = true := by
      split
      · next hdefault =>
        obtain rfl : lower = .null := by cases lower <;> first | rfl | cases hdefault
        refine (Reading.spells_omitted .lower).imp ?_
        rintro _ rfl
        simp [Side.omitted, Ty.sameShape]
      · rw [hsuper]
        exact Reading.spells_given .lower (spells_type lower h.2).2
    have hparts : Parts (if lower.isDefaultLower then "" else " super " ++ lower.render) := by
      split
      · exact parts_empty
      · rw [hsuper]
        exact parts_blank
    rw [Arg.render]
    refine (Reading.spells_wild hupper hlower hparts).imp ?_
    rintro _ ⟨u, l, rfl, hu, hl⟩
    simp [Arg.sameShape, hu, hl]

/-- Printed members spell members of their shape. -/
theorem spells_members : ∀ ts : List Ty, Ty.PrintableAll r.known r.scope ts →
    r.Spells .members (Ty.renderMore ts) fun bs => Ty.sameShapeAll bs ts = true
  | [], _ => by
    rw [Ty.renderMore]
    refine Reading.spells_noMember.imp ?_
    rintro _ rfl
    simp [Ty.sameShapeAll]
  | t :: ts, h => by
    have hfirst := (spells_type t h.1.2).1 h.1.1
    rw [Ty.renderMore]
    refine (Reading.spells_member hfirst (spells_members ts h.2) (parts_renderMore ts)).imp ?_
    rintro _ ⟨b, bs, rfl, hb, hbs⟩
    simp [Ty.sameShapeAll, hb, hbs]

/-- Printed further arguments spell arguments of their shape. -/
theorem spells_args : ∀ as : List Arg, Arg.PrintableAll r.known r.scope as →
    r.Spells .args (Arg.renderMore as) fun bs => Arg.sameShapeAll bs as = true
  | [], _ => by
    rw [Arg.renderMore]
    refine Reading.spells_noArg.imp ?_
    rintro _ rfl
    simp [Arg.sameShapeAll]
  | a :: as, h => by
    rw [Arg.renderMore]
    refine (Reading.spells_nextArg (spells_arg a h.1) (spells_args as h.2)
      (parts_renderMoreArgs as)).imp ?_
    rintro _ ⟨b, bs, rfl, hb, hbs⟩
    simp [Arg.sameShapeAll, hb, hbs]
end

end Written

end Expr

section Printable

variable [Alphabet] {known : String → Bool} {scope : List TypeVar}

/-- Types are printable as members if each of them is printable and no intersection. -/
theorem Ty.printableAll_iff {ts : List Ty} : Ty.PrintableAll known scope ts ↔
    ∀ t ∈ ts, t.isInter = false ∧ t.Printable known scope := by
  induction ts with
  | nil => simp [Ty.PrintableAll]
  | cons t ts ih => simp [Ty.PrintableAll, ih]

/-- What a printable type consists of is printable. -/
theorem Ty.Printable.conjuncts {t : Ty} (h : t.Printable known scope) :
    1 ≤ t.conjuncts.length ∧ Ty.PrintableAll known scope t.conjuncts := by
  cases t with
  | inter site members => exact ⟨by have := h.1; simp only [Ty.conjuncts]; omega, h.2⟩
  | _ => exact ⟨Nat.le_refl 1, ⟨rfl, h⟩, trivial⟩

/-- Joining printable types gives a printable type. -/
theorem Ty.Printable.joined {site : Site} {t : Ty} {ts : List Ty} (h : t.Printable known scope)
    (hts : ∀ u ∈ ts, u.Printable known scope) : (Expr.joined site t ts).Printable known scope := by
  cases ts with
  | nil => exact h
  | cons u us =>
    have hall : ∀ c ∈ (t :: u :: us).flatMap Ty.conjuncts, c.isInter = false ∧ c.Printable known scope := by
      intro c hc
      obtain ⟨w, hw, hc⟩ := List.mem_flatMap.1 hc
      refine Ty.printableAll_iff.1 (Ty.Printable.conjuncts ?_).2 c hc
      rcases List.mem_cons.1 hw with rfl | hw
      · exact h
      · exact hts w hw
    have hlen : 2 ≤ ((t :: u :: us).flatMap Ty.conjuncts).length := by
      have h₁ := h.conjuncts.1
      have h₂ := (hts u (by simp)).conjuncts.1
      simp only [List.flatMap_cons, List.length_append]
      omega
    rw [Expr.joined, Ty.meet]
    split
    · next hnil => simp [hnil] at hlen
    · exact ⟨hlen, Ty.printableAll_iff.2 hall⟩

/-- Arrays of printable types are printable. -/
theorem Ty.Printable.iterate_array {t : Ty} (h : t.Printable known scope) (n : Nat) :
    (Ty.array^[n] t).Printable known scope := by
  induction n with
  | zero => exact h
  | succ n ih =>
    rw [Function.iterate_succ_apply']
    exact ih

end Printable

namespace Expr

/-- What a word of the symbol stands for can be written. -/
def Symbol.Printable [Alphabet] (known : String → Bool) (scope : List TypeVar) : (k : Symbol) → k.Meaning → Prop
  | .type, t | .elem, t | .named, t | .bound .lower, t => Ty.Printable known scope t
  | .members, ts => ∀ t ∈ ts, Ty.Printable known scope t
  | .args, as => Arg.PrintableAll known scope as
  | .arg, a => Arg.Printable known scope a
  | .bound .upper, t => (∃ site, t = .nominal site objectName []) ∨ Ty.Printable known scope t

variable [Alphabet] {r : Reading}

/-- The identifiers among the tokens are identifiers. -/
def Sound (ts : List Token) : Prop := ∀ t ∈ ts, t.kind = .ident → isIdentifier t.data = true

/-- Fewer tokens have fewer identifiers among them. -/
theorem Sound.subset {ts ts' : List Token} (h : Sound ts) (hsub : ts' ⊆ ts) : Sound ts' :=
  fun t ht => h t (hsub ht)

/-- The text of a valid name consists of identifiers with dots between them. -/
theorem Name.isDotted {a : Name} (ha : a.Valid) (h : Sound a.word) : IsDotted a.text := by
  refine ⟨a.first.data, a.more.map fun p => p.2.data, rfl, fun s hs => ?_⟩
  rcases List.mem_cons.1 hs with rfl | hs
  · exact h a.first (by simp [Name.word]) ha.1
  · obtain ⟨p, hp, rfl⟩ := List.mem_map.1 hs
    refine h p.2 (List.mem_cons_of_mem _ (List.mem_flatMap.2 ⟨p, hp, by simp⟩)) (ha.2 p hp).2

/-- What a name means without arguments is printable. -/
theorem printable_bare {name : String} (h : IsName name)
    (hmeans : (r.scoped? name).isSome = true ∨ r.Declares name) (start : Token) :
    (r.bare start name).Printable r.known r.scope := by
  unfold Reading.bare
  split
  · next v hv =>
    have hname : v.name = name := by simpa using List.find?_some hv
    exact ⟨hname ▸ h, hname ▸ hv⟩
  · next hnone =>
    obtain ⟨hscope, hdecl⟩ := hmeans.resolve_left (by simp [hnone])
    split
    · next hobject => exact ⟨hobject ▸ h, hobject ▸ hscope, .inl rfl, trivial⟩
    · exact ⟨h, hscope, hdecl, trivial⟩

/-- The meaning of a derivation can be written. -/
theorem Tree.printable {k : Symbol} {d : Tree k} (hd : d.Valid r) (hsound : Sound d.word) :
    k.Printable r.known r.scope (d.denote r) := by
  induction d with
  | type first more ihf ihm =>
    exact (ihf hd.1 (hsound.subset (by simp [word]))).joined
      (ihm hd.2 (hsound.subset (by simp [word])))
  | noMember => simp [Symbol.Printable, denote]
  | member sign first more ihf ihm =>
    intro t ht
    rcases List.mem_cons.1 ht with rfl | ht
    · exact ihf hd.2.1 (hsound.subset (by intro t; simp +contextual [word]))
    · exact ihm hd.2.2 (hsound.subset (by intro t; simp +contextual [word])) t ht
  | plain head brackets ih =>
    exact (ih hd.1 (hsound.subset (by simp [word]))).iterate_array _
  | group left inner right brackets ih =>
    exact (ih hd.2.1 (hsound.subset (by intro t; simp +contextual [word]))).iterate_array _
  | null t => trivial
  | prim t p => exact ⟨t.data, mem_spellings hd.2⟩
  | bare name => exact printable_bare ⟨Name.isDotted hd.1 hsound, hd.2.1⟩ hd.2.2 _
  | applied name left first more right ihf ihm =>
    obtain ⟨⟨hname, hfree, hscope, hdecl⟩, -, hf, hm, -⟩ := hd
    exact ⟨⟨Name.isDotted hname (hsound.subset (by simp [word])), hfree⟩, hscope, hdecl,
      ihf hf (hsound.subset (by intro t; simp +contextual [word])),
      ihm hm (hsound.subset (by intro t; simp +contextual [word]))⟩
  | noArg => trivial
  | nextArg sign first more ihf ihm =>
    exact ⟨ihf hd.2.1 (hsound.subset (by intro t; simp +contextual [word])),
      ihm hd.2.2 (hsound.subset (by intro t; simp +contextual [word]))⟩
  | typed inner ih => exact ih hd hsound
  | wild sign upper lower ihu ihl =>
    exact ⟨ihu hd.2.1 (hsound.subset (by intro t; simp +contextual [word])),
      ihl hd.2.2 (hsound.subset (by intro t; simp +contextual [word]))⟩
  | omitted side =>
    cases side with
    | upper => exact .inl ⟨_, rfl⟩
    | lower => trivial
  | given side name inner ih =>
    have hinner := ih hd.2 (hsound.subset (by simp [word]))
    cases side with
    | upper => exact .inr hinner
    | lower => exact hinner

section Parse

variable {place : Place} {known : String → Bool} {scope : List TypeVar} {input : Bytes} {t : Ty}

/-- **What is printed is read back.** A printable type, once written, parses to a type that is equal to
it. -/
theorem parse_of_printable [Alphabet.Proper] (h : t.Printable known scope) :
    ∃ t', parse place known scope t.render = .ok t' ∧ t'.equal t = true := by
  obtain ⟨t', ⟨d, hd, hword, rfl⟩, hshape⟩ :=
    ((spells_type (r := ⟨t.render, place, known, scope⟩) t h).2 : Lexes _ _).scan
  exact ⟨_, parse_word hd hword, Ty.equal_of_sameShape hshape⟩

/-- **What is read can be printed**, so that parsing what was printed loses nothing. -/
theorem printable_of_parse (h : parse place known scope input = .ok t) : t.Printable known scope := by
  rcases parse_derives place known scope input with
    ⟨t', hparse, d, hd, hword, rfl⟩ | ⟨tok, -, text, hparse⟩
  · obtain rfl := Except.ok.inj (hparse.symm.trans h)
    refine Tree.printable hd fun tok htok hkind => ?_
    rw [hword] at htok
    exact Cursor.identifier_of_mem (List.dropLast_subset _ htok) hkind
  · rw [hparse] at h
    cases h

end Parse

/-- **Types are read back as they are written.** Over an alphabet as it is expected, a type that can be written
is read back from its written form as an equal type; and what any byte string is read as can be written, over
any alphabet, so its written form is read back. -/
theorem parse_render [Alphabet.Proper] (place : Place) (known : String → Bool) (scope : List TypeVar) :
    (∀ t : Ty, t.Printable known scope →
        ∃ t', parse place known scope t.render = .ok t' ∧ t'.equal t = true) ∧
      (∀ input t, parse place known scope input = .ok t → t.Printable known scope) ∧
      ∀ place' input t, parse place' known scope input = .ok t →
        ∃ t', parse place known scope t.render = .ok t' ∧ t'.equal t = true :=
  ⟨fun _ h => parse_of_printable h, fun _ _ h => printable_of_parse h,
    fun _ _ _ h => parse_of_printable (printable_of_parse h)⟩

end Expr

/-- `(Map.Entry<? super K> & Object)[]` is read back, where `K` is in scope. -/
theorem Expr.parse_render_entry :
    let _ := Alphabet.ascii
    let k : TypeVar := ⟨"Map.Entry", "K", .param 0⟩
    let known : String → Bool := fun name => name == "Map.Entry"
    let t : Ty := .array (.inter .common
      [.nominal .common "Map.Entry" [.wild .object (.var (.declared k))], .object])
    ∃ t', parse (.given 0) known [k] t.render = .ok t' ∧ t'.equal t = true ∧
      t'.Printable known [k] ∧
        ∃ t'', parse (.given 1) known [k] t'.render = .ok t'' ∧ t''.equal t' = true := by
  intro _ k known t
  have hproper : Alphabet.Proper := Alphabet.ascii_proper
  have hentry : IsName "Map.Entry" :=
    ⟨⟨"Map", ["Entry"], by decide, by decide +kernel⟩, by decide⟩
  have hobject : IsName objectName := ⟨⟨"Object", [], by decide, by decide +kernel⟩, by decide⟩
  have hk : IsName "K" := ⟨⟨"K", [], by decide, by decide +kernel⟩, by decide⟩
  have hprintable : t.Printable known [k] :=
    ⟨by decide, ⟨rfl, hentry, by decide, .inr (by decide), ⟨.inl ⟨_, rfl⟩, hk, by decide⟩, trivial⟩,
      ⟨rfl, hobject, by decide, .inl rfl, trivial⟩, trivial⟩
  obtain ⟨t', hparse, hequal⟩ := (parse_render (.given 0) known [k]).1 t hprintable
  exact ⟨t', hparse, hequal, (parse_render (.given 0) known [k]).2.1 _ t' hparse,
    (parse_render (.given 1) known [k]).2.2 (.given 0) _ t' hparse⟩

end Generics
