/-
# The reader accepts the grammar

A byte string is read if and only if its tokens are a word of `type`; what is read is then the meaning of its
one derivation. Any other byte string is refused as unreadable, at one of its tokens (`parse_exact`). Which
characters identifiers are made of does not matter for this, nor whether the bytes are a text.

The two directions are two inductions. Over a derivation: a rule that is given enough depth reads its
word, and stops before a rest that does not go on with it (`Tree.read`). Over the depth: a rule that is
given enough of it for the tokens it gets reads a word of its symbol or blames a token, and does not run
out (`Reading.rule_derives`).
-/

import Generics.Proofs.Grammar
import Generics.Proofs.Lexing
import Mathlib.Tactic.Common

namespace Generics.Expr

/-- The rule for a symbol. -/
def Reading.rule [Alphabet] (r : Reading) : (k : Symbol) → Nat → Rule k.Meaning
  | .type, n => r.type n
  | .members, n => r.members n
  | .elem, n => r.elem n
  | .named, n => r.named n
  | .args, n => r.args n
  | .arg, n => r.arg n
  | .bound side, n => r.wildBound n side.word side.omitted

namespace Reading

variable [Alphabet] (r : Reading) (n : Nat)

/-! ## The rules once unfolded -/

/-- How a type is read: an element, and further ones that are joined to it. -/
theorem rule_type : r.rule .type (n + 1) = (do
    let start ← r.peek
    let first ← r.rule .elem n
    let more ← r.rule .members n
    return joined (r.site start) first more) := by
  refine congrArg (r.peek >>= ·) (funext fun start => congrArg (r.elem n >>= ·) (funext fun first =>
    congrArg (r.members n >>= ·) (funext fun more => ?_)))
  cases more <;> rfl

/-- How members are read: as long as an ampersand follows. -/
theorem rule_members : r.rule .members (n + 1) = (do
    if (← r.peek).kind = .and then
      let _ ← r.take
      let next ← r.rule .elem n
      let more ← r.rule .members n
      return next :: more
    else return []) := by
  rfl

/-- How an element is read: a type in parentheses or a name, and brackets behind it. -/
theorem rule_elem : r.rule .elem (n + 1) = (do
    let start ← r.peek
    match start.kind with
    | .leftParen =>
      let _ ← r.take
      let t ← r.rule .type n
      let _ ← r.expect .rightParen
      r.brackets t n
    | .ident =>
      let t ← r.rule .named n
      r.brackets t n
    | _ => r.problem start ("expected a type, found " ++ start.describe)) := by
  rfl

/-- What a name means that starts at a token and has a token after it; the tokens at the cursor are those
after the name. -/
def lookup (start : Token) (name : String) (after : Token) : Rule Ty :=
  match reserved? name with
  | some t => return t
  | none =>
    if (r.scoped? name).isSome then
      if after.kind = .less then
        r.problem after ("type variable " ++ name ++ " cannot have type arguments")
      else return r.bare start name
    else if name ≠ objectName ∧ r.known name = false then
      r.problem start ("unknown type " ++ name)
    else if after.kind = .less then do
      let _ ← r.take
      let first ← r.rule .arg n
      let more ← r.rule .args n
      let _ ← r.expect .greater
      return .nominal (r.site start) name (first :: more)
    else return r.bare start name

/-- How a named type is read: the name is looked up together with the token behind it. -/
theorem rule_named : r.rule .named (n + 1) = (do
    let start ← r.peek
    let name ← r.name n
    let after ← r.peek
    r.lookup n start name after) := by
  refine congrArg (r.peek >>= ·) (funext fun start => congrArg (r.name n >>= ·) (funext fun name =>
    congrArg (r.peek >>= ·) (funext fun after => ?_)))
  unfold lookup reserved? bare
  by_cases hnull : name = "Null"
  · simp [hnull]
  cases hprim : Primitive.named? name with
  | some p => simp [hnull]
  | none =>
  cases hvar : r.scoped? name with
  | some v => simp [hnull]
  | none =>
    by_cases hobject : name = objectName <;> cases hknown : r.known name <;> simp [*] <;> rfl

/-- How further arguments are read: as long as a comma follows. -/
theorem rule_args : r.rule .args (n + 1) = (do
    if (← r.peek).kind = .comma then
      let _ ← r.take
      let next ← r.rule .arg n
      let more ← r.rule .args n
      return next :: more
    else return []) := by
  rfl

/-- How an argument is read: a question mark with its two bounds, or a type. -/
theorem rule_arg : r.rule .arg (n + 1) = (do
    if (← r.peek).kind = .question then
      let _ ← r.take
      let upper ← r.rule (.bound .upper) n
      let lower ← r.rule (.bound .lower) n
      return .wild upper lower
    else
      let t ← r.rule .type n
      return .type t) := by
  rfl

/-- How a bound is read: only after its word. -/
theorem rule_bound (side : Side) : r.rule (.bound side) (n + 1) = (do
    if (← r.peek).isWord side.word then
      let _ ← r.take
      r.rule .type n
    else return side.omitted) := by
  rfl

end Reading

/-! ## Words are read -/

section Steps

variable {α β : Type} {r : Reading} {ts rest : List Token}

/-- A rule that read something goes on behind it. -/
theorem bind_read {q : Rule α} {f : α → Rule β} {a : α} (h : q ts = .ok (a, rest)) :
    (q >>= f) ts = f a rest := by
  change (q ts).bind (fun x => f x.1 x.2) = _
  rw [h]
  rfl

/-- Peeking gives the token at the cursor, or the end of the input. -/
theorem peek_bind {f : Token → Rule β} : (r.peek >>= f) ts = f (ts.headD r.atEnd) ts := rfl

/-- Peeking before a token gives that token and does not move. -/
theorem peek_cons {f : Token → Rule β} {t : Token} : (r.peek >>= f) (t :: ts) = f t (t :: ts) := rfl

/-- Taking a token moves the cursor behind it. -/
theorem take_bind {f : Token → Rule β} {t : Token} : (r.take >>= f) (t :: ts) = f t ts := rfl

/-- The next token is of no kind that the rest does not start with. -/
theorem head_kind_ne {kind : Kind} (hkind : kind ≠ .finish) (h : kind.Absent rest) :
    (rest.headD r.atEnd).kind ≠ kind := by
  cases rest with
  | nil => exact hkind.symm
  | cons t ts => exact Kind.absent_cons.1 h

variable [Alphabet]

/-- Expecting a kind takes a token of it, and else blames the token with both names. -/
theorem expect_eq (kind : Kind) : r.expect kind ts =
    if (ts.headD r.atEnd).kind = kind then .ok (ts.headD r.atEnd, ts.tail)
    else .error (.unreadable r.input (ts.headD r.atEnd).offset
      ("expected " ++ kind.name ++ ", found " ++ (ts.headD r.atEnd).describe)) := by
  change (if (ts.headD r.atEnd).kind = kind then pure _ else r.problem _ _ : Rule Token) _ = _
  split <;> rfl

/-- Expecting the kind of the token at the cursor takes it. -/
theorem expect_read {kind : Kind} {t : Token} (h : t.kind = kind) :
    r.expect kind (t :: ts) = .ok (t, ts) := by
  rw [expect_eq, List.headD_cons, if_pos h, List.tail_cons]

/-- The parts of a name behind its first one are read up to the first token that is no dot. -/
theorem nameParts_read {more : List (Token × Token)} (hm : PairsOf .period .ident more)
    (hr : Kind.period.Absent rest) {n : Nat} (hn : more.length < n) :
    r.nameParts n (pairWord more ++ rest) = .ok (more.map fun p => p.2.data, rest) := by
  induction more generalizing n with
  | nil =>
    obtain ⟨n, rfl⟩ : ∃ m, n = m + 1 := ⟨n - 1, by omega⟩
    change r.nameParts (n + 1) rest = _
    rw [Reading.nameParts, peek_bind, if_neg (head_kind_ne (by simp) hr)]
    rfl
  | cons p more ih =>
    obtain ⟨n, rfl⟩ : ∃ m, n = m + 1 := ⟨n - 1, by omega⟩
    obtain ⟨hfirst, hsecond⟩ := hm p (by simp)
    have hmore := ih (fun q hq => hm q (by simp [hq])) (n := n) (by simpa using hn)
    change r.nameParts (n + 1) (p.1 :: p.2 :: (pairWord more ++ rest)) = _
    rw [Reading.nameParts, peek_cons, if_pos hfirst, take_bind, bind_read (expect_read hsecond),
      bind_read hmore]
    rfl

/-- A valid name is read as its text. -/
theorem name_read {a : Name} (ha : a.Valid) (hr : Kind.period.Absent rest) {n : Nat}
    (hn : a.more.length < n) : r.name n (a.word ++ rest) = .ok (a.text, rest) := by
  rw [Reading.name, Name.word, List.cons_append, bind_read (expect_read ha.1),
    bind_read (nameParts_read ha.2 hr hn)]
  rfl

/-- Each pair of brackets that is read makes an array of the type before it. -/
theorem brackets_read {brackets : List (Token × Token)}
    (hb : PairsOf .leftBracket .rightBracket brackets) (hr : Kind.leftBracket.Absent rest) {n : Nat}
    (hn : brackets.length < n) (t : Ty) :
    r.brackets t n (pairWord brackets ++ rest) = .ok (Ty.array^[brackets.length] t, rest) := by
  induction brackets generalizing n t with
  | nil =>
    obtain ⟨n, rfl⟩ : ∃ m, n = m + 1 := ⟨n - 1, by omega⟩
    change r.brackets t (n + 1) rest = _
    rw [Reading.brackets, peek_bind, if_neg (head_kind_ne (by simp) hr)]
    rfl
  | cons p brackets ih =>
    obtain ⟨n, rfl⟩ : ∃ m, n = m + 1 := ⟨n - 1, by omega⟩
    obtain ⟨hfirst, hsecond⟩ := hb p (by simp)
    change r.brackets t (n + 1) (p.1 :: p.2 :: (pairWord brackets ++ rest)) = _
    rw [Reading.brackets, peek_cons, if_pos hfirst, take_bind, bind_read (expect_read hsecond),
      ih (fun q hq => hb q (by simp [hq])) (by simpa using hn)]
    rfl

end Steps

namespace Tree

/-- The depth that reading a derivation takes. -/
def height : {k : Symbol} → Tree k → Nat
  | _, .type first more => max first.height more.height + 1
  | _, .noMember => 1
  | _, .member _ first more => max first.height more.height + 1
  | _, .plain head brackets => max head.height (brackets.length + 1) + 1
  | _, .group _ inner _ brackets => max inner.height (brackets.length + 1) + 1
  | _, .null _ => 2
  | _, .prim _ _ => 2
  | _, .bare name => name.more.length + 2
  | _, .applied name _ first more _ =>
    max (name.more.length + 1) (max first.height more.height) + 1
  | _, .noArg => 1
  | _, .nextArg _ first more => max first.height more.height + 1
  | _, .typed inner => inner.height + 1
  | _, .wild _ upper lower => max upper.height lower.height + 1
  | _, .omitted _ => 1
  | _, .given _ _ inner => inner.height + 1

end Tree

/-- Pairs of tokens are twice as many tokens. -/
theorem length_pairWord (pairs : List (Token × Token)) :
    (pairWord pairs).length = 2 * pairs.length := by
  induction pairs with
  | nil => rfl
  | cons p pairs ih =>
    change (pairWord pairs).length + 1 + 1 = _
    rw [ih, List.length_cons]
    omega

/-- How much less than eight for each token the derivations of a symbol may be high: a rule that calls
another before it takes a token leaves it one less. -/
def Symbol.slack : Symbol → Nat
  | .type => 5
  | .elem => 6
  | .named => 7
  | .arg => 4
  | .members | .args | .bound _ => 0

/-- The height of a derivation is bounded by its tokens. -/
theorem Tree.height_le {k : Symbol} (d : Tree k) :
    d.height + k.slack ≤ 8 * d.word.length + 1 := by
  induction d <;>
    simp only [height, word, Symbol.slack, Name.word, List.length_append, List.length_cons,
      List.length_nil, length_pairWord] at * <;>
    omega

namespace Tree

/-- A depth that is greater than something is a successor. -/
theorem depth_succ {h n : Nat} (hn : h + 1 ≤ n) : ∃ m, n = m + 1 ∧ h ≤ m :=
  ⟨n - 1, by omega, by omega⟩

variable [Alphabet] {r : Reading}

/-- A named type without arguments is read as what its name means. -/
theorem named_read_fixed {d : Tree .named} (hd : d.Valid r) {t : Ty} (ht : d.fixed? = some t)
    {rest : List Token} (hr : Symbol.named.Ends rest) {n : Nat} (hn : d.name.more.length < n) :
    r.rule .named (n + 1) (d.name.word ++ rest) = .ok (t, rest) := by
  rw [fixed_eq_reserved hd] at ht
  rw [Reading.rule_named, peek_bind, bind_read (name_read (name_valid hd) hr.no_period hn),
    peek_bind, Reading.lookup]
  simp only [ht]
  rfl

/-- A rule that is given enough depth reads a word of its symbol, before a rest that does not go on with
it, and answers the meaning. -/
theorem read {k : Symbol} {d : Tree k} (hd : d.Valid r) {rest : List Token} (hr : k.Ends rest)
    {n : Nat} (hn : d.height ≤ n) : r.rule k n (d.word ++ rest) = .ok (d.denote r, rest) := by
  induction d generalizing rest n with
  | type first more ihf ihm =>
    obtain ⟨n, rfl, hle⟩ := depth_succ hn
    have hfirst := ihf hd.1 (ends_members hd.2 hr) (Nat.max_le.1 hle).1
    have hmore := ihm hd.2 hr (Nat.max_le.1 hle).2
    have hstart : (first.word ++ (more.word ++ rest)).headD r.atEnd = first.word.headD r.atEnd := by
      obtain ⟨t, ts, hword, -⟩ := elem_starts hd.1
      rw [hword]
      rfl
    rw [word, List.append_assoc]
    rw [Reading.rule_type, peek_bind, bind_read hfirst, bind_read hmore, hstart, denote]
    cases more.denote r <;> rfl
  | noMember =>
    obtain ⟨n, rfl, -⟩ := depth_succ hn
    have hand : (rest.headD r.atEnd).kind ≠ .and :=
      head_kind_ne (by simp) (hr.absent fun t ht => by simp [Symbol.GoesOn, ht])
    change r.rule .members (n + 1) rest = _
    rw [Reading.rule_members, peek_bind, if_neg hand]
    rfl
  | member sign first more ihf ihm =>
    obtain ⟨n, rfl, hle⟩ := depth_succ hn
    obtain ⟨hsign, hf, hm⟩ := hd
    have hfirst := ihf hf (ends_members hm hr) (Nat.max_le.1 hle).1
    have hmore := ihm hm hr (Nat.max_le.1 hle).2
    rw [word, List.cons_append, List.append_assoc]
    rw [Reading.rule_members, peek_cons, if_pos hsign, take_bind, bind_read hfirst, bind_read hmore]
    rfl
  | plain head brackets ih =>
    obtain ⟨n, rfl, hle⟩ := depth_succ hn
    have hhead := ih hd.1 (ends_brackets hd.2 hr) (Nat.max_le.1 hle).1
    have hkind : ((head.word ++ (pairWord brackets ++ rest)).headD r.atEnd).kind = .ident := by
      rw [word_eq_name]
      exact (name_valid hd.1).1
    rw [word, List.append_assoc]
    rw [Reading.rule_elem, peek_bind]
    simp only [hkind]
    rw [bind_read hhead, brackets_read hd.2 hr.no_bracket (Nat.max_le.1 hle).2]
    rfl
  | group left inner right brackets ih =>
    obtain ⟨n, rfl, hle⟩ := depth_succ hn
    obtain ⟨hleft, hi, hright, hb⟩ := hd
    have hends : Symbol.type.Ends (right :: (pairWord brackets ++ rest)) := ends_right hright
    have hinner := ih hi hends (Nat.max_le.1 hle).1
    rw [word, List.cons_append, List.append_assoc, List.cons_append]
    rw [Reading.rule_elem, peek_cons]
    simp only [hleft]
    rw [take_bind, bind_read hinner, bind_read (expect_read hright),
      brackets_read hb hr.no_bracket (Nat.max_le.1 hle).2]
    rfl
  | null t =>
    obtain ⟨n, rfl, hle⟩ := depth_succ hn
    exact named_read_fixed hd rfl hr hle
  | prim t p =>
    obtain ⟨n, rfl, hle⟩ := depth_succ hn
    exact named_read_fixed hd rfl hr hle
  | bare name =>
    obtain ⟨n, rfl, hle⟩ := depth_succ hn
    obtain ⟨hname, hfree, hmeans⟩ := hd
    have hless : (rest.headD r.atEnd).kind ≠ .less := head_kind_ne (by simp) hr.no_less
    change r.rule .named (n + 1) (name.word ++ rest) = _
    rw [Reading.rule_named, peek_bind, bind_read (name_read hname hr.no_period hle), peek_bind,
      Reading.lookup]
    simp only [hfree, if_neg hless]
    split
    · rfl
    · next hvar =>
      have hdecl := (hmeans.resolve_left hvar).2
      rw [if_neg (by simpa [or_iff_not_imp_left] using hdecl)]
      rfl
  | applied name left first more right ihf ihm =>
    obtain ⟨n, rfl, hle⟩ := depth_succ hn
    obtain ⟨⟨hname, hfree, hvar, hdecl⟩, hleft, hf, hm, hright⟩ := hd
    obtain ⟨hparts, hle⟩ := Nat.max_le.1 hle
    have hends : Symbol.args.Ends (right :: rest) := ends_greater hright
    have hfirst := ihf hf (ends_args hm hends) (Nat.max_le.1 hle).1
    have hmore := ihm hm hends (Nat.max_le.1 hle).2
    rw [word, List.append_assoc, List.cons_append, List.append_assoc, List.append_assoc,
      Reading.rule_named, peek_bind, bind_read (name_read hname (by simp [hleft]) hparts), peek_cons,
      Reading.lookup]
    simp only [hfree, hvar, hleft]
    rw [if_neg (by simp), if_neg (by simpa [or_iff_not_imp_left] using hdecl), if_pos trivial,
      take_bind]
    change (r.rule .arg n >>= _) (first.word ++ (more.word ++ right :: rest)) = _
    rw [bind_read hfirst, bind_read hmore, bind_read (expect_read hright)]
    rfl
  | noArg =>
    obtain ⟨n, rfl, -⟩ := depth_succ hn
    have hcomma : (rest.headD r.atEnd).kind ≠ .comma :=
      head_kind_ne (by simp) (hr.absent fun t ht => by simp [Symbol.GoesOn, ht])
    change r.rule .args (n + 1) rest = _
    rw [Reading.rule_args, peek_bind, if_neg hcomma]
    rfl
  | nextArg sign first more ihf ihm =>
    obtain ⟨n, rfl, hle⟩ := depth_succ hn
    obtain ⟨hsign, hf, hm⟩ := hd
    have hfirst := ihf hf (ends_args hm hr) (Nat.max_le.1 hle).1
    have hmore := ihm hm hr (Nat.max_le.1 hle).2
    rw [word, List.cons_append, List.append_assoc]
    rw [Reading.rule_args, peek_cons, if_pos hsign, take_bind, bind_read hfirst, bind_read hmore]
    rfl
  | typed inner ih =>
    obtain ⟨n, rfl, hle⟩ := depth_succ hn
    have hinner := ih hd (hr.bound .upper).type hle
    have hkind : ((inner.word ++ rest).headD r.atEnd).kind ≠ .question := by
      obtain ⟨t, ts, hword, ht⟩ := type_starts hd
      rw [hword]
      rcases ht with ht | ht <;> simp [ht]
    change r.rule .arg (n + 1) (inner.word ++ rest) = _
    rw [Reading.rule_arg, peek_bind, if_neg hkind, bind_read hinner]
    rfl
  | wild sign upper lower ihu ihl =>
    obtain ⟨n, rfl, hle⟩ := depth_succ hn
    obtain ⟨hsign, hu, hl⟩ := hd
    have hupper := ihu hu (ends_lower hl hr) (Nat.max_le.1 hle).1
    have hlower := ihl hl (hr.bound .lower) (Nat.max_le.1 hle).2
    rw [word, List.cons_append, List.append_assoc]
    rw [Reading.rule_arg, peek_cons, if_pos hsign, take_bind, bind_read hupper, bind_read hlower]
    rfl
  | omitted side =>
    obtain ⟨n, rfl, -⟩ := depth_succ hn
    have hword : (rest.headD r.atEnd).isWord side.word = false := by
      cases rest with
      | nil => rfl
      | cons t ts => simpa using fun h => Symbol.ends_cons.1 hr (.inr h)
    change r.rule (.bound side) (n + 1) rest = _
    rw [Reading.rule_bound, peek_bind, hword]
    rfl
  | given side name inner ih =>
    obtain ⟨n, rfl, hle⟩ := depth_succ hn
    change r.rule (.bound side) (n + 1) (name :: (inner.word ++ rest)) = _
    rw [Reading.rule_bound, peek_cons, if_pos hd.1, take_bind]
    exact ih hd.2 hr.type hle

end Tree

/-! ## What is read is a word -/

/-- From the tokens the rule reads some, and answers what it may for them and the rest; or it blames one
of the tokens that may be blamed. -/
def Reading.Parses {α : Type} (r : Reading) (blamed : List Token) (q : Rule α) (ts : List Token)
    (P : α → List Token → List Token → Prop) : Prop :=
  (∃ a read rest, ts = read ++ rest ∧ q ts = .ok (a, rest) ∧ P a read rest) ∨
    ∃ t ∈ blamed, ∃ text, q ts = .error (.unreadable r.input t.offset text)

namespace Reading

section Parses

variable {α β : Type} {r : Reading} {blamed ts : List Token}
  {P P' : α → List Token → List Token → Prop} {Q : β → List Token → List Token → Prop}

/-- A rule that reads nothing parses nothing. -/
theorem parses_pure {a : α} (h : P a [] ts) : r.Parses blamed (pure a) ts P :=
  .inl ⟨a, [], ts, rfl, rfl, h⟩

/-- A rule that reports a problem blames the token it reports. -/
theorem parses_problem {t : Token} (ht : t ∈ blamed) (text : String) :
    r.Parses blamed (r.problem t text) ts P :=
  .inr ⟨t, ht, text, rfl⟩

/-- A rule that parses one thing parses whatever follows from it. -/
theorem Parses.imp {q : Rule α} (h : r.Parses blamed q ts P)
    (hP : ∀ a read rest, ts = read ++ rest → P a read rest → P' a read rest) :
    r.Parses blamed q ts P' := by
  rcases h with ⟨a, read, rest, hts, hq, h⟩ | h
  · exact .inl ⟨a, read, rest, hts, hq, hP a read rest hts h⟩
  · exact .inr h

/-- **Parsing goes on behind what was read**, and the two pieces are put together. -/
theorem Parses.bind {q : Rule α} {f : α → Rule β} (hq : r.Parses blamed q ts P)
    (hf : ∀ a read rest, ts = read ++ rest → P a read rest →
      r.Parses blamed (f a) rest fun b read' rest' => Q b (read ++ read') rest') :
    r.Parses blamed (q >>= f) ts Q := by
  rcases hq with ⟨a, read, rest, hts, hq, hP⟩ | ⟨t, ht, text, hq⟩
  · unfold Parses
    rw [bind_read hq]
    rcases hf a read rest hts hP with ⟨b, read', rest', hrest, hb, hQ⟩ | h
    · exact .inl ⟨b, read ++ read', rest', by rw [hts, hrest, List.append_assoc], hb, hQ⟩
    · exact .inr h
  · refine .inr ⟨t, ht, text, ?_⟩
    change (q ts).bind (fun x => f x.1 x.2) = _
    rw [hq]
    rfl

/-- Peeking parses nothing and goes on with the token at the cursor. -/
theorem parses_peek {f : Token → Rule β} (h : r.Parses blamed (f (ts.headD r.atEnd)) ts Q) :
    r.Parses blamed (r.peek >>= f) ts Q := h

/-- Taking a token puts it before what is read next. -/
theorem parses_take {f : Token → Rule β} {t : Token}
    (h : r.Parses blamed (f t) ts fun b read rest => Q b (t :: read) rest) :
    r.Parses blamed (r.take >>= f) (t :: ts) Q := by
  rcases h with ⟨b, read, rest, hts, hb, hQ⟩ | h
  · exact .inl ⟨b, t :: read, rest, by rw [hts, List.cons_append], hb, hQ⟩
  · exact .inr h

/-- A token that is seen ahead and is not the end can be taken. -/
theorem exists_cons_of_head {kind : Kind} (hkind : kind ≠ .finish)
    (h : (ts.headD r.atEnd).kind = kind) : ∃ t rest, ts = t :: rest ∧ t.kind = kind := by
  cases ts with
  | nil => exact absurd h.symm hkind
  | cons t rest => exact ⟨t, rest, rfl, h⟩

variable (hend : r.atEnd ∈ blamed)
include hend

/-- The token at the cursor may be blamed: it is one of the tokens or the end of the input. -/
theorem head_blamed (hts : ts ⊆ blamed) : ts.headD r.atEnd ∈ blamed := by
  cases ts with
  | nil => exact hend
  | cons t rest => exact hts (by simp)

variable [Alphabet]

/-- Expecting a kind reads one token of it or blames the token at the cursor. -/
theorem parses_expect (kind : Kind) (hkind : kind ≠ .finish) (hts : ts ⊆ blamed) :
    r.Parses blamed (r.expect kind) ts fun t read _ => t.kind = kind ∧ read = [t] := by
  by_cases h : (ts.headD r.atEnd).kind = kind
  · obtain ⟨t, rest, rfl, ht⟩ := exists_cons_of_head hkind h
    exact .inl ⟨t, [t], rest, rfl, expect_read ht, ht, rfl⟩
  · exact .inr ⟨ts.headD r.atEnd, head_blamed hend hts, _, by rw [expect_eq, if_neg h]⟩

/-- The parts of a name that are read are identifiers with dots before them. -/
theorem parses_nameParts (n : Nat) (hts : ts ⊆ blamed) (hn : ts.length < n) :
    r.Parses blamed (r.nameParts n) ts fun parts read _ =>
      ∃ more, PairsOf .period .ident more ∧ pairWord more = read ∧
        more.map (fun p => p.2.data) = parts := by
  induction n generalizing ts with
  | zero => omega
  | succ n ih =>
    rw [nameParts]
    refine parses_peek ?_
    split
    · next hkind =>
      obtain ⟨dot, ts, rfl, hdot⟩ := exists_cons_of_head (by simp) hkind
      obtain ⟨-, hts⟩ := List.cons_subset.1 hts
      refine parses_take (Parses.bind (parses_expect hend .ident (by simp) hts) ?_)
      rintro part _ rest rfl ⟨hpart, rfl⟩
      refine Parses.bind (ih (List.append_subset.1 hts).2 (by simp at hn; omega)) ?_
      rintro _ _ rest' rfl ⟨more, hmore, rfl, rfl⟩
      refine parses_pure ⟨(dot, part) :: more, ?_, by simp [pairWord], rfl⟩
      simpa [PairsOf, hdot, hpart] using hmore
    · exact parses_pure ⟨[], by simp [PairsOf], rfl, rfl⟩

/-- A name that is read is a valid one, with the text it is read as. -/
theorem parses_name (n : Nat) (hts : ts ⊆ blamed) (hn : ts.length ≤ n) :
    r.Parses blamed (r.name n) ts fun text read _ =>
      ∃ a : Name, a.Valid ∧ a.word = read ∧ a.text = text := by
  rw [name]
  refine Parses.bind (parses_expect hend .ident (by simp) hts) ?_
  rintro first _ rest rfl ⟨hfirst, rfl⟩
  refine Parses.bind (parses_nameParts hend n (List.append_subset.1 hts).2 (by simp at hn; omega)) ?_
  rintro _ _ rest' rfl ⟨more, hmore, rfl, rfl⟩
  exact parses_pure ⟨⟨first, more⟩, ⟨hfirst, hmore⟩, by simp [Name.word], rfl⟩

/-- Brackets that are read come in pairs, and each pair makes an array. -/
theorem parses_brackets (n : Nat) (t : Ty) (hts : ts ⊆ blamed) (hn : ts.length < n) :
    r.Parses blamed (r.brackets t n) ts fun a read _ =>
      ∃ brackets, PairsOf .leftBracket .rightBracket brackets ∧ pairWord brackets = read ∧
        Ty.array^[brackets.length] t = a := by
  induction n generalizing ts t with
  | zero => omega
  | succ n ih =>
    rw [brackets]
    refine parses_peek ?_
    split
    · next hkind =>
      obtain ⟨left, ts, rfl, hleft⟩ := exists_cons_of_head (by simp) hkind
      obtain ⟨-, hts⟩ := List.cons_subset.1 hts
      refine parses_take (Parses.bind (parses_expect hend .rightBracket (by simp) hts) ?_)
      rintro right _ rest rfl ⟨hright, rfl⟩
      refine (ih t.array (List.append_subset.1 hts).2 (by simp at hn; omega)).imp ?_
      rintro _ _ rest' rfl ⟨more, hmore, rfl, rfl⟩
      refine ⟨(left, right) :: more, ?_, by simp [pairWord], rfl⟩
      simpa [PairsOf, hleft, hright] using hmore
    · exact parses_pure ⟨[], by simp [PairsOf], rfl, rfl⟩

end Parses

end Reading

/-- The name of a primitive type is one of its spellings. -/
theorem mem_spellings {name : String} {p : Primitive} (h : Primitive.named? name = some p) :
    (p, name) ∈ Primitive.spellings := by
  obtain ⟨entry, hfind, rfl⟩ := Option.map_eq_some_iff.1 h
  have hname : entry.2 = name := by simpa using List.find?_some hfind
  rw [← hname]
  exact List.mem_of_find?_eq_some hfind

/-- The names with a fixed meaning have no dots. -/
theorem reserved_no_dot {name : String} {t : Ty} (h : reserved? name = some t) :
    '.' ∉ name.toList := by
  unfold reserved? at h
  split at h
  · next hnull =>
    rw [hnull]
    decide
  · obtain ⟨p, hp, -⟩ := Option.map_eq_some_iff.1 h
    have hall : ∀ entry ∈ Primitive.spellings, '.' ∉ entry.2.toList := by decide
    exact hall _ (mem_spellings hp)

/-- A reserved name has no dots. -/
theorem Name.eq_single_of_reserved {a : Name} {t : Ty} (h : reserved? a.text = some t) :
    a = .single a.first := by
  obtain ⟨first, more⟩ := a
  cases more with
  | nil => rfl
  | cons p more => exact absurd (by simp [Name.text]) (reserved_no_dot h)

/-- How much depth a rule is given at least, beyond eight for each token. -/
def Symbol.start : Symbol → Nat
  | .type => 3
  | .elem => 2
  | .named => 1
  | .arg => 4
  | .members | .args | .bound _ => 1

namespace Reading

section Derives

variable {r : Reading} {blamed : List Token} {n : Nat}

/-- A name with a fixed meaning is a word with this meaning. -/
theorem derives_reserved {a : Name} (ha : a.Valid) {t : Ty} (ht : reserved? a.text = some t) :
    r.Derives .named a.word t := by
  have hsingle := Name.eq_single_of_reserved ht
  have hdata : a.text = a.first.data := congrArg Name.text hsingle
  have hword : a.word = [a.first] := congrArg Name.word hsingle
  rw [hdata, reserved?] at ht
  rw [hword]
  split at ht
  · next hnull =>
    obtain rfl := Option.some.inj ht
    exact ⟨.null a.first, Token.isWord_iff.2 ⟨ha.1, hnull⟩, rfl, rfl⟩
  · obtain ⟨p, hp, rfl⟩ := Option.map_eq_some_iff.1 ht
    exact ⟨.prim a.first p, ⟨ha.1, hp⟩, rfl, rfl⟩

variable [Alphabet]

/-- **What is looked up has a derivation.** The name is followed by arguments in angle brackets or by
nothing, as the meaning of the name has it. -/
theorem lookup_derives (hend : r.atEnd ∈ blamed)
    (ih : ∀ (k : Symbol) (ts : List Token), ts ⊆ blamed → 8 * ts.length + k.start ≤ n →
      r.Parses blamed (r.rule k n) ts fun a read _ => r.Derives k read a)
    {a : Name} (ha : a.Valid) (hblamed : a.first ∈ blamed) {ts : List Token} (hts : ts ⊆ blamed)
    (hn : 8 * ts.length ≤ n) :
    r.Parses blamed (r.lookup n a.first a.text (ts.headD r.atEnd)) ts fun t read _ =>
      r.Derives .named (a.word ++ read) t := by
  unfold lookup
  split
  · next t ht =>
    exact parses_pure (by rw [List.append_nil]; exact derives_reserved ha ht)
  next hfree =>
  split
  · next hvar =>
    split
    · exact parses_problem (head_blamed hend hts) _
    · exact parses_pure ⟨.bare a, ⟨ha, hfree, .inl hvar⟩, by simp, rfl⟩
  next hvar =>
  split
  · exact parses_problem hblamed _
  next hdecl =>
  have hdecl : r.Declares a.text :=
    ⟨by simpa using hvar, by simpa [or_iff_not_imp_left] using hdecl⟩
  split
  · next hkind =>
    obtain ⟨left, ts, rfl, hleft⟩ := exists_cons_of_head (by simp) hkind
    rw [List.length_cons] at hn
    obtain ⟨-, hts⟩ := List.cons_subset.1 hts
    refine parses_take (Parses.bind (ih .arg ts hts (by simp [Symbol.start]; omega)) ?_)
    rintro _ _ ts rfl ⟨first, hfirst, rfl, rfl⟩
    rw [List.length_append] at hn
    obtain ⟨-, hts⟩ := List.append_subset.1 hts
    refine Parses.bind (ih .args ts hts (by simp [Symbol.start]; omega)) ?_
    rintro _ _ ts rfl ⟨more, hmore, rfl, rfl⟩
    obtain ⟨-, hts⟩ := List.append_subset.1 hts
    refine Parses.bind (parses_expect hend .greater (by simp) hts) ?_
    rintro right _ ts rfl ⟨hright, rfl⟩
    exact parses_pure ⟨.applied a left first more right,
      ⟨⟨ha, hfree, hdecl⟩, hleft, hfirst, hmore, hright⟩, by simp, rfl⟩
  · exact parses_pure ⟨.bare a, ⟨ha, hfree, .inr hdecl⟩, by simp, rfl⟩

/-- A rule that is given enough depth for its tokens reads a word of its symbol and answers the meaning,
or it blames a token. -/
theorem rule_derives (hend : r.atEnd ∈ blamed) (k : Symbol) {ts : List Token} (hts : ts ⊆ blamed)
    (hn : 8 * ts.length + k.start ≤ n) :
    r.Parses blamed (r.rule k n) ts fun a read _ => r.Derives k read a := by
  induction n generalizing k ts with
  | zero => cases k <;> simp [Symbol.start] at hn
  | succ n ih =>
  cases k with
  | type =>
    have hn : 8 * ts.length + 2 ≤ n := by simpa [Symbol.start] using hn
    rw [rule_type]
    refine parses_peek (Parses.bind (ih .elem hts hn) ?_)
    rintro _ _ rest rfl ⟨first, hfirst, rfl, rfl⟩
    rw [List.length_append] at hn
    refine Parses.bind (ih .members (List.append_subset.1 hts).2 (by simp [Symbol.start]; omega)) ?_
    rintro _ _ rest' rfl ⟨more, hmore, rfl, rfl⟩
    refine parses_pure ⟨.type first more, ⟨hfirst, hmore⟩, by simp, ?_⟩
    obtain ⟨t, ts, hword, -⟩ := Tree.elem_starts hfirst
    rw [Tree.denote, hword]
    rfl
  | members =>
    rw [rule_members]
    refine parses_peek ?_
    split
    · next hkind =>
      obtain ⟨sign, ts, rfl, hsign⟩ := exists_cons_of_head (by simp) hkind
      obtain ⟨-, hts⟩ := List.cons_subset.1 hts
      have hn : 8 * ts.length + 8 ≤ n := by simp [Symbol.start] at hn; omega
      refine parses_take (Parses.bind (ih .elem hts (by simp [Symbol.start]; omega)) ?_)
      rintro _ _ rest rfl ⟨first, hfirst, rfl, rfl⟩
      rw [List.length_append] at hn
      refine Parses.bind (ih .members (List.append_subset.1 hts).2 (by simp [Symbol.start]; omega)) ?_
      rintro _ _ rest' rfl ⟨more, hmore, rfl, rfl⟩
      exact parses_pure ⟨.member sign first more, ⟨hsign, hfirst, hmore⟩, by simp, rfl⟩
    · exact parses_pure ⟨.noMember, trivial, rfl, rfl⟩
  | elem =>
    have hn : 8 * ts.length + 1 ≤ n := by simpa [Symbol.start] using hn
    rw [rule_elem]
    refine parses_peek ?_
    split
    · next hkind =>
      obtain ⟨left, ts, rfl, hleft⟩ := exists_cons_of_head (by simp) hkind
      obtain ⟨-, hts⟩ := List.cons_subset.1 hts
      rw [List.length_cons] at hn
      refine parses_take (Parses.bind (ih .type hts (by simp [Symbol.start]; omega)) ?_)
      rintro _ _ rest rfl ⟨inner, hinner, rfl, rfl⟩
      obtain ⟨-, hts⟩ := List.append_subset.1 hts
      refine Parses.bind (parses_expect hend .rightParen (by simp) hts) ?_
      rintro right _ rest rfl ⟨hright, rfl⟩
      refine (parses_brackets hend n _ (List.append_subset.1 hts).2 (by simp at hn; omega)).imp ?_
      rintro _ _ rest' rfl ⟨brackets, hbrackets, rfl, rfl⟩
      exact ⟨.group left inner right brackets, ⟨hleft, hinner, hright, hbrackets⟩,
        by simp, rfl⟩
    · refine Parses.bind (ih .named hts hn) ?_
      rintro _ _ rest rfl ⟨head, hhead, rfl, rfl⟩
      refine (parses_brackets hend n _ (List.append_subset.1 hts).2 (by simp at hn; omega)).imp ?_
      rintro _ _ rest' rfl ⟨brackets, hbrackets, rfl, rfl⟩
      exact ⟨.plain head brackets, ⟨hhead, hbrackets⟩, rfl, rfl⟩
    · exact parses_problem (head_blamed hend hts) _
  | named =>
    have hn : 8 * ts.length ≤ n := by simpa [Symbol.start] using hn
    rw [rule_named]
    refine parses_peek (Parses.bind (parses_name hend n hts (by omega)) ?_)
    rintro _ _ rest rfl ⟨a, ha, rfl, rfl⟩
    have hfirst : a.first ∈ blamed := hts (by simp [Name.word])
    rw [List.length_append] at hn
    exact parses_peek (lookup_derives hend (fun k ts hts hn => ih k hts hn) ha hfirst
      (List.append_subset.1 hts).2 (by omega))
  | args =>
    rw [rule_args]
    refine parses_peek ?_
    split
    · next hkind =>
      obtain ⟨sign, ts, rfl, hsign⟩ := exists_cons_of_head (by simp) hkind
      obtain ⟨-, hts⟩ := List.cons_subset.1 hts
      have hn : 8 * ts.length + 8 ≤ n := by simp [Symbol.start] at hn; omega
      refine parses_take (Parses.bind (ih .arg hts (by simp [Symbol.start]; omega)) ?_)
      rintro _ _ rest rfl ⟨first, hfirst, rfl, rfl⟩
      rw [List.length_append] at hn
      refine Parses.bind (ih .args (List.append_subset.1 hts).2 (by simp [Symbol.start]; omega)) ?_
      rintro _ _ rest' rfl ⟨more, hmore, rfl, rfl⟩
      exact parses_pure ⟨.nextArg sign first more, ⟨hsign, hfirst, hmore⟩, by simp, rfl⟩
    · exact parses_pure ⟨.noArg, trivial, rfl, rfl⟩
  | arg =>
    have hn : 8 * ts.length + 3 ≤ n := by simpa [Symbol.start] using hn
    rw [rule_arg]
    refine parses_peek ?_
    split
    · next hkind =>
      obtain ⟨sign, ts, rfl, hsign⟩ := exists_cons_of_head (by simp) hkind
      obtain ⟨-, hts⟩ := List.cons_subset.1 hts
      rw [List.length_cons] at hn
      refine parses_take (Parses.bind (ih (.bound .upper) hts (by simp [Symbol.start]; omega)) ?_)
      rintro _ _ rest rfl ⟨upper, hupper, rfl, rfl⟩
      rw [List.length_append] at hn
      refine Parses.bind (ih (.bound .lower) (List.append_subset.1 hts).2
        (by simp [Symbol.start]; omega)) ?_
      rintro _ _ rest' rfl ⟨lower, hlower, rfl, rfl⟩
      exact parses_pure ⟨.wild sign upper lower, ⟨hsign, hupper, hlower⟩, by simp, rfl⟩
    · refine Parses.bind (ih .type hts hn) ?_
      rintro _ _ rest rfl ⟨inner, hinner, rfl, rfl⟩
      exact parses_pure ⟨.typed inner, hinner, by simp, rfl⟩
  | bound side =>
    rw [rule_bound]
    refine parses_peek ?_
    split
    · next hword =>
      obtain ⟨name, ts, rfl, -⟩ := exists_cons_of_head (by simp) (Token.isWord_iff.1 hword).1
      obtain ⟨-, hts⟩ := List.cons_subset.1 hts
      refine parses_take ((ih .type hts (by simp [Symbol.start] at hn ⊢; omega)).imp ?_)
      rintro _ _ rest rfl ⟨inner, hinner, rfl, rfl⟩
      exact ⟨.given side name inner, ⟨hword, hinner⟩, rfl, rfl⟩
    · exact parses_pure ⟨.omitted side, trivial, rfl, rfl⟩

end Derives

end Reading

section Parse

variable [Alphabet] {place : Place} {known : String → Bool} {scope : List TypeVar} {input : Bytes}

/-- A text whose tokens are a word of `type` is read as its meaning. -/
theorem parse_word {d : Tree .type} (hd : d.Valid ⟨input, place, known, scope⟩)
    (hword : d.word = (Token.scan input).dropLast) :
    parse place known scope input = .ok (d.denote ⟨input, place, known, scope⟩) := by
  have hdepth : d.height ≤ enough d.word.length := by
    have := d.height_le
    rw [enough]
    omega
  have hread := Tree.read hd (Symbol.ends_nil .type) hdepth
  rw [List.append_nil, hword] at hread
  change Reading.type _ _ _ = _ at hread
  unfold parse
  simp only [hread]

variable (place known scope input) in
/-- A text is read as the meaning of a word of `type` that its tokens are, or it is refused at one of
them. -/
theorem parse_derives :
    (∃ t, parse place known scope input = .ok t ∧ Reading.Derives ⟨input, place, known, scope⟩ .type
        (Token.scan input).dropLast t) ∨
      ∃ t ∈ Token.scan input, ∃ text,
        parse place known scope input = .error (.unreadable input t.offset text) := by
  have hscan := Token.scan_eq input
  generalize hword : (Token.scan input).dropLast = word at hscan ⊢
  have hparse := Reading.rule_derives (r := ⟨input, place, known, scope⟩) (n := enough word.length)
    (hscan ▸ List.mem_append_right word (List.mem_singleton_self _)) .type
    (hscan ▸ List.subset_append_left word _) (by rw [enough, Symbol.start]; omega)
  unfold parse
  simp only [hword]
  rcases hparse with ⟨t, read, rest, hsplit, hread, hderives⟩ | ⟨t, ht, text, hread⟩ <;>
    change Reading.type _ _ _ = _ at hread <;> simp only [hread]
  · cases rest with
    | nil => exact .inl ⟨t, rfl, by rwa [hsplit, List.append_nil]⟩
    | cons next rest => exact .inr ⟨next, by simp [hscan, hsplit], _, rfl⟩
  · exact .inr ⟨t, ht, text, rfl⟩

/-- **The reader accepts exactly its grammar.** A byte string is read as a type if and only if its tokens without
the end have a valid derivation with this meaning, they have at most one, and if they have none it is
refused as unreadable at one of its tokens. -/
theorem parse_exact (place : Place) (known : String → Bool) (scope : List TypeVar) (input : Bytes) :
    let r : Reading := ⟨input, place, known, scope⟩
    let word := (Token.scan input).dropLast
    (∀ t, parse place known scope input = .ok t ↔
        ∃ d : Tree .type, d.Valid r ∧ d.word = word ∧ d.denote r = t) ∧
      (∀ d d' : Tree .type, d.Valid r → d.word = word → d'.Valid r → d'.word = word → d = d') ∧
      ((¬ ∃ d : Tree .type, d.Valid r ∧ d.word = word) →
        ∃ t ∈ Token.scan input, ∃ text,
          parse place known scope input = .error (.unreadable input t.offset text)) := by
  refine ⟨fun t => ⟨fun h => ?_, ?_⟩, fun d d' hd hword hd' hword' => ?_, fun hnone => ?_⟩
  · rcases parse_derives place known scope input with ⟨t', hparse, hderives⟩ | ⟨tok, -, text, hparse⟩
    · obtain rfl : t' = t := Except.ok.inj (hparse.symm.trans h)
      exact hderives
    · rw [hparse] at h
      cases h
  · rintro ⟨d, hd, hword, rfl⟩
    exact parse_word hd hword
  · exact (Tree.unique hd hd' (Symbol.ends_nil _) (Symbol.ends_nil _) (by rw [hword, hword'])).1
  · rcases parse_derives place known scope input with ⟨t, -, d, hd, hword, -⟩ | hrefused
    · exact absurd ⟨d, hd, hword⟩ hnone
    · exact hrefused

end Parse

/-- `Null[]` has one derivation, and `Null` is refused with a stray byte behind it. -/
theorem parse_exact_null_array :
    let _ := Alphabet.ascii
    let stray : Bytes := Bytes.ofText "Null" ++ [0xFF]
    (∃! d : Tree .type, d.Valid ⟨"Null[]", .given 0, fun _ => false, []⟩ ∧
        d.word = (Token.scan "Null[]").dropLast) ∧
      ∃ t ∈ Token.scan stray, ∃ text,
        parse (.given 0) (fun _ => false) [] stray = .error (.unreadable stray t.offset text) := by
  intro _ stray
  obtain ⟨hiff, hunique, -⟩ := parse_exact (.given 0) (fun _ => false) [] "Null[]"
  obtain ⟨hiff', -, hrefused⟩ := parse_exact (.given 0) (fun _ => false) [] stray
  refine ⟨?_, hrefused ?_⟩
  · have hread : (parse (.given 0) (fun _ => false) [] "Null[]").toOption.isSome = true := by
      decide +kernel
    cases hparse : parse (.given 0) (fun _ => false) [] "Null[]" with
    | error f => simp [hparse, Except.toOption] at hread
    | ok t =>
      obtain ⟨d, hd, hword, -⟩ := (hiff t).1 hparse
      exact ⟨d, ⟨hd, hword⟩, fun d' hd' => hunique d' d hd'.1 hd'.2 hd hword⟩
  · rintro ⟨d, hd, hword⟩
    have hread : (parse (.given 0) (fun _ => false) [] stray).toOption.isNone = true := by
      decide +kernel
    rw [(hiff' _).2 ⟨d, hd, hword, rfl⟩] at hread
    cases hread

end Generics.Expr
