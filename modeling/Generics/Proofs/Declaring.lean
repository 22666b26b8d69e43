/-
# Declaring

Definitions are declared together or not at all. Together they are accepted if and only if each has a
name of its own that is new, and each text reads as it should once the names of all of them are known
(`Catalog.declare_iff`). This says nothing about an order, and so neither whether definitions are accepted
nor what is found under a name afterwards depends on how they are listed.

A text that can be read is read as the same type when more names are known: a derivation stays valid, and
what it means does not mention what is known (`Tree.Valid.knowing`). So definitions that are accepted one
list after the other are accepted as one list.

The standard catalog is declared over any alphabet as it is expected, as its definitions are made of letters,
blanks and punctuation (`Catalog.declare_standard`).
-/

import Generics.Proofs.Alphabets
import Generics.Proofs.Parsing
import Generics.Proofs.Sessions
import Mathlib.Data.List.Find
import Mathlib.Data.List.Forall2
import Mathlib.Data.List.Sort
import Mathlib.Data.String.Basic

namespace Generics

namespace Expr

/-! ### Reading with more names known -/

section Knowing

variable {r : Reading} {known : String → Bool}

/-- A derivation stays valid when more names are known. -/
theorem Tree.Valid.knowing (hle : ∀ name, r.known name = true → known name = true) {k : Symbol}
    {d : Tree k} (h : d.Valid r) : d.Valid { r with known } := by
  have hdeclares {name : String} (h : r.Declares name) : { r with known }.Declares name :=
    ⟨h.1, h.2.imp_right (hle name)⟩
  induction d with
  | noMember => exact h
  | null => exact h
  | prim => exact h
  | noArg => exact h
  | omitted => exact h
  | type first more ihfirst ihmore => exact ⟨ihfirst h.1, ihmore h.2⟩
  | member sign first more ihfirst ihmore => exact ⟨h.1, ihfirst h.2.1, ihmore h.2.2⟩
  | plain head brackets ih => exact ⟨ih h.1, h.2⟩
  | group left inner right brackets ih => exact ⟨h.1, ih h.2.1, h.2.2⟩
  | bare name => exact ⟨h.1, h.2.1, h.2.2.imp_right hdeclares⟩
  | applied name left first more right ihfirst ihmore =>
    obtain ⟨⟨hname, hfree, hdecl⟩, hleft, hfirst, hmore, hright⟩ := h
    exact ⟨⟨hname, hfree, hdeclares hdecl⟩, hleft, ihfirst hfirst, ihmore hmore, hright⟩
  | nextArg sign first more ihfirst ihmore => exact ⟨h.1, ihfirst h.2.1, ihmore h.2.2⟩
  | typed inner ih => exact ih h
  | wild sign upper lower ihupper ihlower => exact ⟨h.1, ihupper h.2.1, ihlower h.2.2⟩
  | given side name inner ih => exact ⟨h.1, ih h.2⟩

/-- What a derivation means does not depend on the names that are known. -/
theorem Tree.denote_knowing {k : Symbol} (d : Tree k) : d.denote { r with known } = d.denote r := by
  induction d with
  | noMember | null | prim | noArg | omitted | bare => rfl
  | _ => simp_all only [denote, Reading.site, Reading.atEnd]

/-- **A text is read as the same type when more names are known.** -/
theorem parse_knowing [Alphabet] {place : Place} {scope : List TypeVar} {input : Bytes} {t : Ty}
    {known known' : String → Bool} (hle : ∀ name, known name = true → known' name = true)
    (h : parse place known scope input = .ok t) : parse place known' scope input = .ok t := by
  rcases parse_derives place known scope input with
    ⟨t', hparse, d, hd, hword, rfl⟩ | ⟨_, _, _, hrefused⟩
  · obtain rfl := Except.ok.inj (hparse.symm.trans h)
    rw [← d.denote_knowing]
    exact parse_word (hd.knowing hle) hword
  · rw [hrefused] at h
    cases h

end Knowing

/-- **A text of letters of ASCII, blanks and punctuation reads over any alphabet as over ASCII.** -/
theorem parse_ascii [Alphabet] [Alphabet.Proper] {place : Place} {known : String → Bool} {scope : List TypeVar}
    {text : String} {t : Ty} (htext : isCommon text = true)
    (h : @parse .ascii place known scope text = .ok t) : parse place known scope text = .ok t := by
  rcases @parse_derives .ascii place known scope text with
    ⟨t', hparse, d, hd, hword, rfl⟩ | ⟨_, _, _, hrefused⟩
  · obtain rfl := Except.ok.inj (hparse.symm.trans h)
    exact parse_word hd (by rw [hword, Token.scan_ascii htext])
  · rw [hrefused] at h
    cases h

end Expr

/-! ### What definitions are read as -/

/-- Reading a list from its head on succeeds if the head and the rest are read. -/
theorem map_cons_ok {α : Type} {a : α} {x : Except Failure (List α)} {as : List α} :
    x.map (a :: ·) = .ok as ↔ ∃ rest, x = .ok rest ∧ as = a :: rest := by
  cases x with
  | error f => simp [Except.map]
  | ok rest => simp [Except.map, eq_comm]

namespace Definition

variable [Alphabet] {d : Definition} {known known' : String → Bool}

/-- What a parameter is read as that has this place among the parameters: the bound is what its text is
read as, the top declaration if there is none. -/
structure ReadsParam (d : Definition) (known : String → Bool) (p : ParamDefinition × Nat)
    (param : Parameter) : Prop where
  name : param.name = p.1.name
  unbounded : p.1.bound = "" → param.upper = .object
  bounded : p.1.bound ≠ "" →
    Expr.parse (.bound d.name p.2) known d.vars p.1.bound = .ok param.upper

/-- What a supertype is read as that has this place among the supertypes. -/
structure ReadsParent (d : Definition) (known : String → Bool) (text : String × Nat) (n : Nominal) :
    Prop where
  reads : Expr.parse (.parent d.name text.2) known d.vars text.1 = .ok n.toTy
  other : n.decl ≠ d.name
  tame : n.hasWild = false

/-- The texts in the definition are made of letters of ASCII, blanks and punctuation. -/
def isCommon (d : Definition) : Bool :=
  (d.params.all fun p => Expr.isCommon p.bound) && d.parents.all Expr.isCommon

/-- The definition describes the declaration: parameters and supertypes are read one by one, and no
parameter is bounded by itself. -/
structure Describes (known : String → Bool) (d : Definition) (decl : Declaration) : Prop where
  name : decl.name = d.name
  params : List.Forall₂ (d.ReadsParam known) d.params.zipIdx decl.params
  ranked : d.selfBounded? decl.params = none
  parents : List.Forall₂ (d.ReadsParent known) d.parents.zipIdx decl.parents

/-- A definition describes the same declaration when more names are known. -/
theorem Describes.knowing (hle : ∀ name, known name = true → known' name = true) {decl : Declaration}
    (h : d.Describes known decl) : d.Describes known' decl where
  name := h.name
  params := h.params.imp fun _ _ hp =>
    ⟨hp.name, hp.unbounded, fun hbound => Expr.parse_knowing hle (hp.bounded hbound)⟩
  ranked := h.ranked
  parents := h.parents.imp fun _ _ hn => ⟨Expr.parse_knowing hle hn.reads, hn.other, hn.tame⟩

/-- A parameter is read as what its text is read as. -/
theorem readParam_iff {i : Nat} {p : ParamDefinition} {param : Parameter} :
    d.readParam known i p = .ok param ↔ d.ReadsParam known (p, i) param := by
  constructor
  · intro h
    obtain ⟨hname, hupper⟩ := readParam_ok h
    unfold readParam at h
    split at h
    · next hnone =>
      cases h
      exact ⟨rfl, fun _ => rfl, fun hbound => absurd hnone hbound⟩
    · next hbound =>
      split at h
      · next t ht =>
        cases h
        exact ⟨rfl, fun hnone => absurd hnone hbound, fun _ => ht⟩
      · cases h
  · intro h
    obtain ⟨name, upper⟩ := param
    obtain rfl := h.name
    unfold readParam
    split
    · next hnone => rw [show upper = .object from h.unbounded hnone]
    · next hbound => simp only [h.bounded hbound]

/-- A supertype is read as what its text is read as. -/
theorem readParent_iff {i : Nat} {text : String} {n : Nominal} :
    d.readParent known i text = .ok n ↔ d.ReadsParent known (text, i) n := by
  constructor
  · intro h
    obtain ⟨hreads, hother, htame⟩ := readParent_ok h
    exact ⟨hreads, hother, htame⟩
  · intro h
    have hnominal : Expr.parseNominal (.parent d.name i) known d.vars text = .ok n := by
      rw [Expr.parseNominal, h.reads]
      rfl
    rw [readParent, hnominal]
    simp only [h.other, h.tame, if_false, Bool.false_eq_true]

/-- Parameters are read one by one. -/
theorem readParams_iff {i : Nat} {ps : List ParamDefinition} {params : List Parameter} :
    d.readParams known i ps = .ok params ↔
      List.Forall₂ (d.ReadsParam known) (ps.zipIdx i) params := by
  induction ps generalizing i params with
  | nil =>
    rw [readParams, List.zipIdx_nil, List.forall₂_nil_left_iff]
    exact ⟨fun h => (Except.ok.inj h).symm, fun h => h ▸ rfl⟩
  | cons p ps ih =>
    rw [readParams, List.zipIdx_cons, List.forall₂_cons_left_iff]
    simp only [← readParam_iff, ← ih]
    cases hparam : d.readParam known i p with
    | error f => simp
    | ok param => simp [map_cons_ok]

/-- Supertypes are read one by one. -/
theorem readParents_iff {i : Nat} {texts : List String} {ns : List Nominal} :
    d.readParents known i texts = .ok ns ↔
      List.Forall₂ (d.ReadsParent known) (texts.zipIdx i) ns := by
  induction texts generalizing i ns with
  | nil =>
    rw [readParents, List.zipIdx_nil, List.forall₂_nil_left_iff]
    exact ⟨fun h => (Except.ok.inj h).symm, fun h => h ▸ rfl⟩
  | cons text texts ih =>
    rw [readParents, List.zipIdx_cons, List.forall₂_cons_left_iff]
    simp only [← readParent_iff, ← ih]
    cases hn : d.readParent known i text with
    | error f => simp
    | ok n => simp [map_cons_ok]

/-- **A definition is read as the declaration that it describes.** -/
theorem read_iff {decl : Declaration} : d.read known = .ok decl ↔ d.Describes known decl := by
  constructor
  · intro h
    unfold read at h
    split at h
    · cases h
    · next params hparams =>
      split at h
      · cases h
      · next hranked =>
        cases hparents : d.readParents known 0 d.parents with
        | error f =>
          rw [hparents] at h
          cases h
        | ok parents =>
          rw [hparents] at h
          cases h
          exact ⟨rfl, readParams_iff.1 hparams, hranked, readParents_iff.1 hparents⟩
  · intro h
    obtain ⟨name, params, parents⟩ := decl
    obtain rfl := h.name
    rw [read, readParams_iff.2 h.params]
    simp only [h.ranked, readParents_iff.2 h.parents, Except.map]

/-- Definitions are read one by one. -/
theorem readAll_iff {ds : List Definition} {decls : List Declaration} :
    readAll known ds = .ok decls ↔ List.Forall₂ (Describes known) ds decls := by
  induction ds generalizing decls with
  | nil =>
    rw [readAll, List.forall₂_nil_left_iff]
    exact ⟨fun h => (Except.ok.inj h).symm, fun h => h ▸ rfl⟩
  | cons d ds ih =>
    rw [readAll, List.forall₂_cons_left_iff]
    simp only [← read_iff, ← ih]
    cases hdecl : d.read known with
    | error f => simp
    | ok decl => simp [map_cons_ok]

end Definition

namespace Catalog

variable {c c' c₁ c₂ : Catalog} {defs xs ys : List Definition}

/-! ### Which definitions are accepted -/

/-- The definitions have names of their own that are new. -/
structure Fresh (c : Catalog) (defs : List Definition) : Prop where
  nodup : (defs.map Definition.name).Nodup
  named : ∀ d ∈ defs, d.name ≠ ""
  new : ∀ d ∈ defs, c.has d.name = false

/-- The check of names accepts exactly definitions with new names of their own. -/
theorem fresh_iff : c.checkNames [] defs = .ok () ↔ c.Fresh defs := by
  rw [checkNames_iff]
  constructor
  · rintro ⟨hnodup, hall⟩
    exact ⟨hnodup, fun d hd => (hall d hd).1, fun d hd => (hall d hd).2.1⟩
  · intro h
    exact ⟨h.nodup, fun d hd => ⟨h.named d hd, h.new d hd, List.not_mem_nil⟩⟩

/-- **Definitions are accepted** if their names are new and each describes a declaration, all names being
known; these declarations are then added. -/
theorem declare_iff [Alphabet] : c.declare defs = .ok c' ↔ c.Fresh defs ∧
    ∃ decls, List.Forall₂ (Definition.Describes (c.knows defs)) defs decls ∧
      c' = { c with decls := c.decls ++ decls } := by
  constructor
  · intro h
    obtain ⟨hnames, decls, hread, heq⟩ := declare_eq h
    exact ⟨fresh_iff.1 hnames, decls, Definition.readAll_iff.1 hread, heq⟩
  · rintro ⟨hfresh, decls, hreads, rfl⟩
    rw [declare_def, fresh_iff.2 hfresh, Definition.readAll_iff.2 hreads]
    rfl

/-! ### What is found afterwards -/

/-- The same is found under every name, the same names are listed, and the same parts are unreadable. -/
structure Same (c c' : Catalog) : Prop where
  find : ∀ name, c.find? name = c'.find? name
  names : c.names = c'.names
  free : c.free = c'.free
  faults : c.faults = c'.faults

/-- The catalog with the declarations of the definitions, and with nothing else changed. -/
structure Adds [Alphabet] (c : Catalog) (defs : List Definition) (c' : Catalog) : Prop where
  new : ∀ d ∈ defs, c.find? d.name = none
  added : ∀ d ∈ defs, ∃ decl, c'.find? d.name = some decl ∧ d.Describes (c.knows defs) decl
  kept : ∀ name, name ∉ defs.map Definition.name → c'.find? name = c.find? name
  free : c'.free = c.free
  faults : c'.faults = c.faults

/-- Declarations have the names of the definitions that describe them. -/
theorem names_of_describes [Alphabet] {known : String → Bool} {decls : List Declaration}
    (h : List.Forall₂ (Definition.Describes known) defs decls) :
    decls.map Declaration.name = defs.map Definition.name := by
  induction h with
  | nil => rfl
  | cons hd _ ih => rw [List.map_cons, List.map_cons, hd.name, ih]

/-- What is described is among the declarations. -/
theorem exists_described [Alphabet] {known : String → Bool} {decls : List Declaration}
    (h : List.Forall₂ (Definition.Describes known) defs decls) {d : Definition} (hd : d ∈ defs) :
    ∃ decl ∈ decls, d.Describes known decl := by
  induction h with
  | nil => cases hd
  | cons hhead _ ih =>
    rcases List.mem_cons.1 hd with rfl | hd
    · exact ⟨_, List.mem_cons_self, hhead⟩
    · obtain ⟨decl, hdecl, hdescribes⟩ := ih hd
      exact ⟨decl, List.mem_cons_of_mem _ hdecl, hdescribes⟩

/-- In a longer catalog the older declarations are found first. -/
theorem find?_append {decls : List Declaration} (name : String) :
    ({ c with decls := c.decls ++ decls } : Catalog).find? name =
      (c.find? name).or (({ decls } : Catalog).find? name) := List.find?_append

/-- Nothing is found under a name exactly if the catalog does not have it. -/
theorem find?_eq_none_iff {name : String} : c.find? name = none ↔ c.has name = false := by
  rw [has, Option.isSome_eq_false_iff, Option.isNone_iff_eq_none]

/-- Declaring adds the declarations of the definitions, and nothing else. -/
theorem adds_of_declare [Alphabet] (h : c.declare defs = .ok c') : c.Adds defs c' := by
  obtain ⟨hfresh, decls, hreads, rfl⟩ := declare_iff.1 h
  have hnames := names_of_describes hreads
  have hnew : ∀ d ∈ defs, c.find? d.name = none := fun d hd => find?_eq_none_iff.2 (hfresh.new d hd)
  refine ⟨hnew, fun d hd => ?_, fun name hname => ?_, rfl, rfl⟩
  · obtain ⟨decl, hdecl, hdescribes⟩ := exists_described hreads hd
    refine ⟨decl, ?_, hdescribes⟩
    rw [find?_append, hnew d hd, Option.none_or, ← hdescribes.name]
    exact find?_of_nodup (hnames ▸ hfresh.nodup) hdecl
  · have hnone : ({ decls } : Catalog).find? name = none := by
      rw [find?_eq_none_iff, Bool.eq_false_iff, Ne, has_iff, hnames]
      exact hname
    rw [find?_append, hnone, Option.or_none]

/-! ### The order of definitions -/

/-- What is known does not depend on the order of the definitions. -/
theorem knows_perm (h : xs.Perm ys) : c.knows xs = c.knows ys :=
  funext fun name => by rw [knows, knows, h.any_eq]

/-- Whether definitions are fresh does not depend on their order. -/
theorem Fresh.perm (hfresh : c.Fresh xs) (h : xs.Perm ys) : c.Fresh ys where
  nodup := ((h.map _).nodup_iff).1 hfresh.nodup
  named d hd := hfresh.named d (h.mem_iff.2 hd)
  new d hd := hfresh.new d (h.mem_iff.2 hd)

/-- Declarations in another order are listed under the same names. -/
theorem names_perm {ds ds' : List Declaration} (h : ds.Perm ds') :
    ({ c with decls := ds } : Catalog).names = ({ c with decls := ds' } : Catalog).names :=
  ((List.mergeSort_perm _ _).trans ((h.map _).trans (List.mergeSort_perm _ _).symm)).eq_of_pairwise'
    (List.pairwise_mergeSort' (· ≤ ·) _) (List.pairwise_mergeSort' (· ≤ ·) _)

/-- The order of declarations with names of their own does not show. -/
theorem same_of_perm {decls decls' : List Declaration} (hnodup : (decls.map Declaration.name).Nodup)
    (h : decls.Perm decls') : Same { c with decls := c.decls ++ decls }
      { c with decls := c.decls ++ decls' } where
  find name := by
    rw [find?_append, find?_append]
    congr 1
    refine List.find?_eq_find?_of_perm h fun d hd d' hd' => ?_
    refine List.inj_on_of_nodup_map hnodup hd.1 hd'.1 ?_
    rw [beq_iff_eq.1 hd.2, beq_iff_eq.1 hd'.2]
  names := names_perm (h.append_left _)
  free := rfl
  faults := rfl

/-- **The order of definitions does not matter.** -/
theorem declare_perm [Alphabet] (h : xs.Perm ys) (hdeclare : c.declare xs = .ok c₁) :
    ∃ c₂, c.declare ys = .ok c₂ ∧ c₁.Same c₂ := by
  obtain ⟨hfresh, decls, hreads, rfl⟩ := declare_iff.1 hdeclare
  obtain ⟨decls', hreads', hperm⟩ := List.perm_comp_forall₂ h.symm hreads
  refine ⟨{ c with decls := c.decls ++ decls' }, declare_iff.2 ⟨hfresh.perm h, decls', ?_, rfl⟩, ?_⟩
  · rwa [← knows_perm h]
  · exact same_of_perm (names_of_describes hreads ▸ hfresh.nodup) hperm.symm

/-! ### One list after the other -/

/-- After some definitions were accepted their names are declared, besides those from before. -/
theorem has_declare [Alphabet] (h : c.declare xs = .ok c₁) : c₁.has = c.knows xs := by
  obtain ⟨-, decls, hreads, rfl⟩ := declare_iff.1 h
  refine funext fun name => Bool.eq_iff_iff.2 ?_
  rw [has_iff, knows, Bool.or_eq_true, has_iff, List.map_append, List.mem_append,
    names_of_describes hreads]
  simp

/-- What is known with two lists of definitions is known after declaring the first one. -/
theorem knows_append [Alphabet] (h : c.declare xs = .ok c₁) : c.knows (xs ++ ys) = c₁.knows ys :=
  funext fun name => by
    rw [knows, knows, has_declare h, knows, List.any_append, Bool.or_assoc]

/-- Definitions are fresh together if the second ones are after the first ones. -/
theorem Fresh.append (hx : c.Fresh xs) (hy : c₁.Fresh ys) (h : c₁.has = c.knows xs) :
    c.Fresh (xs ++ ys) where
  nodup := by
    rw [List.map_append]
    refine hx.nodup.append hy.nodup fun name hnamex hnamey => ?_
    obtain ⟨d, hd, rfl⟩ := List.mem_map.1 hnamey
    have hnew := hy.new d hd
    rw [h, knows, Bool.or_eq_false_iff, List.any_eq_false] at hnew
    obtain ⟨d', hd', hname⟩ := List.mem_map.1 hnamex
    exact hnew.2 d' hd' (beq_iff_eq.2 hname)
  named d hd := (List.mem_append.1 hd).elim (hx.named d) (hy.named d)
  new d hd := by
    rcases List.mem_append.1 hd with hd | hd
    · exact hx.new d hd
    · have hnew := hy.new d hd
      rw [h, knows, Bool.or_eq_false_iff] at hnew
      exact hnew.1

/-- **Definitions accepted one list after the other** are accepted as one list. -/
theorem declare_append [Alphabet] (hx : c.declare xs = .ok c₁) (hy : c₁.declare ys = .ok c₂) :
    c.declare (xs ++ ys) = .ok c₂ := by
  have hhas := has_declare hx
  have hknows : c.knows (xs ++ ys) = c₁.knows ys := knows_append hx
  obtain ⟨hfresh, decls, hreads, rfl⟩ := declare_iff.1 hx
  obtain ⟨hfresh', decls', hreads', rfl⟩ := declare_iff.1 hy
  refine declare_iff.2 ⟨hfresh.append hfresh' hhas, decls ++ decls', ?_, by rw [List.append_assoc]⟩
  have hmore : ∀ name, c.knows xs name = true → c.knows (xs ++ ys) name = true := by
    intro name hname
    rw [hknows, knows, hhas, hname, Bool.true_or]
  rw [← hknows] at hreads'
  exact List.rel_append (hreads.imp fun _ _ hd => hd.knowing hmore) hreads'

/-- After an accepted batch the catalog is the one that declaring gives. -/
theorem after_declare [Alphabet] (h : c.declare defs = .ok c') : c.after (.declare defs) = c' := by
  rw [after_declare_eq, h]
  rfl

/-- After a refused batch the catalog is as before. -/
theorem after_refused [Alphabet] {f : Failure} (h : c.declare defs = .error f) : c.after (.declare defs) = c := by
  rw [after_declare_eq, h]
  rfl

/-- A catalog is the same as itself. -/
theorem Same.refl (c : Catalog) : c.Same c := ⟨fun _ => rfl, rfl, rfl, rfl⟩

/-- Lists of the same definitions leave the same catalog, accepted or refused. -/
theorem same_after_perm [Alphabet] (h : xs.Perm ys) : (c.after (.declare xs)).Same (c.after (.declare ys)) := by
  cases hx : c.declare xs with
  | ok c₁ =>
    obtain ⟨c₂, hy, hsame⟩ := declare_perm h hx
    rwa [after_declare hx, after_declare hy]
  | error f =>
    cases hy : c.declare ys with
    | ok c₂ =>
      obtain ⟨c₁, hx', -⟩ := declare_perm h.symm hy
      exact absurd (hx.symm.trans hx') (by simp)
    | error f' =>
      rw [after_refused hx, after_refused hy]
      exact .refl c

/-- **Declaring is atomic and does not depend on the order.** A refused list leaves the catalog as it
was. An accepted one adds the declaration that each definition describes and changes no other. Lists of
the same definitions are accepted together, and the same is found afterwards. Definitions that are
accepted one list after the other are accepted as one list, with the same catalog. -/
theorem declare_atomic [Alphabet] (c : Catalog) (xs : List Definition) :
    (∀ f, c.declare xs = .error f → c.after (.declare xs) = c) ∧
      (∀ c₁, c.declare xs = .ok c₁ → c.after (.declare xs) = c₁ ∧ c.Adds xs c₁) ∧
      (∀ ys, xs.Perm ys →
        ((∃ c₁, c.declare xs = .ok c₁) ↔ ∃ c₂, c.declare ys = .ok c₂) ∧
          (c.after (.declare xs)).Same (c.after (.declare ys))) ∧
      ∀ ys c₁ c₂, c.declare xs = .ok c₁ → c₁.declare ys = .ok c₂ →
        c.declare (xs ++ ys) = .ok c₂ := by
  refine ⟨fun f h => after_refused h, fun c₁ h => ⟨after_declare h, adds_of_declare h⟩,
    fun ys h => ⟨⟨?_, ?_⟩, same_after_perm h⟩, fun ys c₁ c₂ => declare_append⟩
  · rintro ⟨c₁, hx⟩
    exact (declare_perm h hx).imp fun _ hy => hy.1
  · rintro ⟨c₂, hy⟩
    exact (declare_perm h.symm hy).imp fun _ hx => hx.1

/-- `Sub` is a `Base<Sub>`: the two are accepted in either order, and `Sub` alone is refused. -/
theorem declare_atomic_forward :
    let _ := Alphabet.ascii
    let sub : Definition := { name := "Sub", parents := ["Base<Sub>"] }
    let base : Definition := { name := "Base", params := [{ name := "T" }] }
    (∃ c, standard.declare [sub, base] = .ok c ∧ standard.Adds [sub, base] c) ∧
      (standard.after (.declare [sub, base])).Same (standard.after (.declare [base, sub])) ∧
      standard.after (.declare [sub]) = standard := by
  intro _ sub base
  obtain ⟨-, hadds, hperm, -⟩ := declare_atomic standard [sub, base]
  obtain ⟨hrefused, -, -, -⟩ := declare_atomic standard [sub]
  have haccepts : (standard.declare [sub, base]).toOption.isSome = true := by decide +kernel
  have hrefuses : (standard.declare [sub]).toOption.isSome = false := by decide +kernel
  refine ⟨?_, (hperm _ (.swap base sub [])).2, ?_⟩
  · cases h : standard.declare [sub, base] with
    | error f => simp [h, Except.toOption] at haccepts
    | ok c => exact ⟨c, rfl, (hadds c h).2⟩
  · cases h : standard.declare [sub] with
    | error f => exact hrefused f h
    | ok c => simp [h, Except.toOption] at hrefuses

/-! ### The standard catalog -/

/-- Such a definition describes over any alphabet what it describes over ASCII. -/
theorem describes_ascii [Alphabet] [Alphabet.Proper] {known : String → Bool} {d : Definition}
    {decl : Declaration} (hd : d.isCommon = true) (h : @Definition.Describes .ascii known d decl) :
    d.Describes known decl := by
  obtain ⟨hbounds, htexts⟩ := Bool.and_eq_true_iff.1 hd
  have hbounds : ∀ p ∈ d.params.zipIdx, Expr.isCommon p.1.bound = true := fun p hp =>
    List.all_eq_true.1 hbounds p.1 (List.fst_mem_of_mem_zipIdx hp)
  have htexts : ∀ text ∈ d.parents.zipIdx, Expr.isCommon text.1 = true := fun text htext =>
    List.all_eq_true.1 htexts text.1 (List.fst_mem_of_mem_zipIdx htext)
  obtain ⟨hname, hparams, hranked, hparents⟩ := h
  refine ⟨hname, ?_, hranked, ?_⟩
  · refine ((List.forall₂_and_left _ _).2 ⟨hbounds, hparams⟩).imp ?_
    rintro p param ⟨hcommon, hname, hunbounded, hbounded⟩
    exact ⟨hname, hunbounded, fun hbound => Expr.parse_ascii hcommon (hbounded hbound)⟩
  · refine ((List.forall₂_and_left _ _).2 ⟨htexts, hparents⟩).imp ?_
    rintro text n ⟨hcommon, hreads, hother, htame⟩
    exact ⟨Expr.parse_ascii hcommon hreads, hother, htame⟩

/-- **The standard catalog is declared over any alphabet.** -/
theorem declare_standard [Alphabet] [Alphabet.Proper] :
    ({} : Catalog).declare standardDefinitions = .ok standard := by
  have hcommon : ∀ d ∈ standardDefinitions, d.isCommon = true := by decide +kernel
  obtain ⟨hfresh, decls, hreads, heq⟩ := (@declare_iff {} standard standardDefinitions .ascii).1 standard_eq
  refine declare_iff.2 ⟨hfresh, decls, ?_, heq⟩
  exact ((List.forall₂_and_left _ _).2 ⟨hcommon, hreads⟩).imp fun _ _ h => describes_ascii h.1 h.2

end Catalog

end Generics
