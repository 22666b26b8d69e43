/-
# Derivations of subtyping

`Below s Γ a b` is subtyping as a relation on shapes, given by rules and without any order in
which they are tried:

| rule | left side | right side |
| --- | --- | --- |
| `null` | `Null` | anything |
| `raw`, `args` | an applied declaration | an applied declaration |
| `members` | anything | an intersection |
| `top`, `member` | an intersection | no intersection |
| `upper` | a captured variable | no intersection |
| `lower` | not the empty intersection | a captured variable |
| `refl` | a variable | the same variable |
| `component`, `components` | an array | an array |
| `arrayParent` | an array | a declaration |
| `prim` | a primitive | the same primitive |

The rule `args` captures the left side, so its premises stand in a larger scope. What the left
side looks like seen as the declaration of the right side is the relation `Setting.SeenAs`, which
has at most one answer (`Setting.SeenAs.unique`) and commutes with rebuilding
(`Setting.SeenAs.rebuild`).
-/

import Generics.Proofs.Scopes

namespace Generics
namespace Setting

/-- The arguments of a direct supertype of a declaration that is applied to arguments. -/
def inherited (s : Setting) (decl : String) (args : List Arg) (parent : Nominal) : List Arg :=
  if args = [] ∧ s.paramsOf decl ≠ [] then []
  else parent.args.map
    (Arg.rebuild (Subst.zip (s.paramsOf decl) (args.filterMap Arg.type?)).image)

/-- A declaration applied to arguments is, seen as an ancestor, the ancestor applied to the
arguments found. -/
inductive SeenAs (s : Setting) (ancestor : String) : String → List Arg → List Arg → Prop
  | here (args : List Arg) : SeenAs s ancestor ancestor args args
  | up {decl : String} {args found : List Arg} {parent : Nominal} :
    decl ≠ ancestor → Query.Settles s (s.leadsTo? decl ancestor) (.ok (some parent)) →
      SeenAs s ancestor parent.decl (s.inherited decl args parent) found →
        SeenAs s ancestor decl args found

/-- The declaration can be applied to the arguments, none of which is a wildcard. -/
def Fits (s : Setting) (decl : String) (args : List Arg) : Prop :=
  s.Applies decl args.length ∧ ∀ a ∈ args, a.isWild = false

variable {s : Setting} {k : Fragment} {ancestor decl : String} {args found : List Arg}

/-- **There is one way to see an applied declaration as an ancestor.** -/
theorem SeenAs.unique {found' : List Arg} (h : s.SeenAs ancestor decl args found)
    (h' : s.SeenAs ancestor decl args found') : found = found' := by
  induction h with
  | here args =>
    cases h' with
    | here => rfl
    | up hne _ _ => exact absurd rfl hne
  | up hne hlead _ ih =>
    cases h' with
    | here => exact absurd rfl hne
    | up _ hlead' h' =>
      have := hlead.unique hlead'
      injection this with this
      injection this with this
      subst this
      exact ih h'

/-- The way to an ancestor, and how many arguments are found there, depends on the number of
arguments only. -/
theorem SeenAs.of_length (h : s.SeenAs ancestor decl args found) {args' : List Arg}
    (hlen : args'.length = args.length) :
    ∃ found', s.SeenAs ancestor decl args' found' ∧ found'.length = found.length := by
  induction h generalizing args' with
  | here args => exact ⟨args', .here args', hlen⟩
  | @up decl args found parent hne hlead _ ih =>
    have hnil : args' = [] ↔ args = [] := by
      rw [← List.length_eq_zero_iff, ← List.length_eq_zero_iff, hlen]
    have hparent : (s.inherited decl args' parent).length =
        (s.inherited decl args parent).length := by
      simp only [inherited, hnil]
      split <;> simp
    obtain ⟨found', hseen, hfound⟩ := ih hparent
    exact ⟨found', .up hne hlead hseen, hfound⟩

/-- A declaration that can be applied to arguments has none or as many as parameters. -/
theorem Applies.eq_nil_or {l : Lineage} (h : s.Applies decl args.length)
    (hl : s.lineageOf decl = some l) : args = [] ∨ args.length = l.params.length := by
  obtain ⟨l', hl', h⟩ := h
  rw [hl] at hl'
  injection hl' with hl'
  subst hl'
  exact h.imp List.length_eq_zero_iff.1 id

/-- The types among rebuilt arguments are the rebuilt types among them. -/
theorem type?_map_rebuild (f : Var → Ty) (args : List Arg) :
    (args.map (Arg.rebuild f)).filterMap Arg.type? =
      (args.filterMap Arg.type?).map (Ty.rebuild f) := by
  induction args with
  | nil => rfl
  | cons a as ih =>
    cases a with
    | type t => simp [Arg.rebuild, Arg.type?, ih]
    | wild u l => exact ih

/-- Without wildcards there are as many types as arguments. -/
theorem length_types (h : ∀ a ∈ args, a.isWild = false) :
    (args.filterMap Arg.type?).length = args.length := by
  induction args with
  | nil => rfl
  | cons a as ih =>
    have has := ih fun b hb => h b (List.mem_cons_of_mem _ hb)
    cases a with
    | type t => simp [Arg.type?, has]
    | wild u l => cases h _ List.mem_cons_self

/-- Rebuilding leaves wildcards and makes none. -/
theorem isWild_rebuild (f : Var → Ty) (a : Arg) : (a.rebuild f).isWild = a.isWild := by
  cases a <;> rfl

/-- Every known declaration can be applied to no arguments. -/
theorem fits_nil {l : Lineage} (h : s.lineageOf decl = some l) : s.Fits decl [] :=
  ⟨⟨l, h, .inl rfl⟩, by simp⟩

/-- Whether arguments fit does not depend on what is put in the place of variables. -/
theorem fits_rebuild (f : Var → Ty) : s.Fits decl (args.map (Arg.rebuild f)) ↔ s.Fits decl args := by
  rw [Fits, Fits, List.length_map, List.forall_mem_map]
  exact and_congr_right fun _ => forall₂_congr fun a _ => by rw [isWild_rebuild]

/-- Whether a declaration can be applied to arguments is a matter of their shapes. -/
theorem fits_shape : s.Fits decl (args.map Arg.shape) ↔ s.Fits decl args := fits_rebuild .var

/-- The direct supertypes of all declarations fit their declarations. -/
def ParentsFit (s : Setting) : Prop :=
  ∀ decl l, s.lineageOf decl = some l → ∀ n ∈ l.parents, s.Fits n.decl n.args

/-- The direct supertypes of all declarations mention parameters of the declaration only, by their
keys. -/
def ParentsOwn (s : Setting) : Prop :=
  ∀ decl l, s.lineageOf decl = some l → ∀ n ∈ l.parents, ∀ v ∈ n.toTy.vars, ∃ p ∈ l.params, v.key = p.key

/-- Supertypes that fit their declarations are known. -/
theorem ParentsFit.known (hs : s.ParentsFit) : s.ParentsKnown := by
  intro decl l hl n hn
  obtain ⟨l', hl', _⟩ := (hs decl l hl n hn).1
  rw [hl']
  rfl

/-- Regular supertypes fit their declarations. -/
theorem ParentsRegular.fit (hs : s.ParentsRegular k) : s.ParentsFit := by
  intro decl l hl n hn
  obtain ⟨hreg, hwild, _⟩ := hs decl l hl n hn
  rw [Nominal.toTy, Ty.Regular] at hreg
  rw [Nominal.hasWild, List.any_eq_false] at hwild
  exact ⟨hreg.1, fun a ha => by simpa using hwild a ha⟩

/-- In a regular setting supertypes fit their declarations. -/
theorem Regular.parentsFit (hs : s.Regular k) : s.ParentsFit := ParentsRegular.fit hs.parents

/-- Regular supertypes mention parameters of their own declaration only. -/
theorem ParentsRegular.own (hs : s.ParentsRegular k) : s.ParentsOwn := by
  intro decl l hl n hn v hv
  obtain ⟨p, hp, rfl⟩ := (hs decl l hl n hn).2.2 v hv
  exact ⟨p, hp, rfl⟩

/-- In a regular setting supertypes mention parameters of their own declaration only. -/
theorem Regular.parentsOwn (hs : s.Regular k) : s.ParentsOwn := ParentsRegular.own hs.parents

/-- What a direct supertype is where supertypes are regular. -/
theorem ParentsRegular.of_leadsTo (hs : s.ParentsRegular k) {parent : Nominal}
    (h : Query.Settles s (s.leadsTo? decl ancestor) (.ok (some parent))) :
    ∃ l, s.lineageOf decl = some l ∧ parent ∈ l.parents ∧ s.Fits parent.decl parent.args ∧
      Arg.RegularAll s k parent.args ∧
        ∀ v ∈ parent.toTy.vars, ∃ p ∈ l.params, v = .declared p := by
  obtain ⟨⟨l, hl, hmem⟩, _⟩ := leadsTo?_sound h
  obtain ⟨hreg, _, hvars⟩ := hs decl l hl parent hmem
  rw [Nominal.toTy, Ty.Regular] at hreg
  exact ⟨l, hl, hmem, hs.fit decl l hl parent hmem, hreg.2, hvars⟩

/-- What is passed on to a direct supertype fits its declaration. -/
theorem ParentsFit.inherited (hs : s.ParentsFit) {parent : Nominal} {l : Lineage}
    (hl : s.lineageOf decl = some l) (hmem : parent ∈ l.parents) (args : List Arg) :
    s.Fits parent.decl (s.inherited decl args parent) := by
  obtain ⟨hp, hw⟩ := hs decl l hl parent hmem
  rw [Setting.inherited]
  split
  · obtain ⟨l', hl', _⟩ := hp
    exact fits_nil hl'
  · refine ⟨by rwa [List.length_map], fun a ha => ?_⟩
    obtain ⟨b, hb, rfl⟩ := List.mem_map.1 ha
    rw [isWild_rebuild]
    exact hw b hb

/-- What is inherited on the way up fits. -/
theorem Fits.inherited (hs : s.ParentsFit) {parent : Nominal}
    (hlead : Query.Settles s (s.leadsTo? decl ancestor) (.ok (some parent))) :
    s.Fits parent.decl (s.inherited decl args parent) := by
  obtain ⟨⟨l, hl, hmem⟩, _⟩ := leadsTo?_sound hlead
  exact hs.inherited hl hmem args

/-- The arguments given to the parameters are enough for a supertype that is not raw. -/
theorem Fits.length_le {l : Lineage} (h : s.Fits decl args) (hl : s.lineageOf decl = some l)
    (hraw : ¬ (args = [] ∧ s.paramsOf decl ≠ [])) :
    (s.paramsOf decl).length ≤ (args.filterMap Arg.type?).length := by
  rw [length_types h.2]
  rcases h.1.eq_nil_or hl with h0 | h0
  · have : s.paramsOf decl = [] := Classical.byContradiction fun hp => hraw ⟨h0, hp⟩
    simp [this]
  · exact Nat.le_of_eq (by rw [paramsOf_eq hl, h0])

/-- Passing arguments on to a direct supertype commutes with rebuilding. -/
theorem ParentsOwn.inherited_rebuild (hs : s.ParentsOwn) {parent : Nominal} {l : Lineage}
    (hl : s.lineageOf decl = some l) (hmem : parent ∈ l.parents) {f : Var → Ty} (hf : Siteless f)
    (hfits : s.Fits decl args) : s.inherited decl (args.map (Arg.rebuild f)) parent =
      (s.inherited decl args parent).map (Arg.rebuild f) := by
  rw [inherited, inherited]
  by_cases hraw : args = [] ∧ s.paramsOf decl ≠ []
  · rw [if_pos hraw, if_pos (by simpa using hraw), List.map_nil]
  · rw [if_neg hraw, if_neg (by simpa using hraw), type?_map_rebuild]
    have hz := Ty.rebuild_zip (hfits.length_le hl hraw) hf (t := parent.toTy) fun v hv => by
      rw [paramsOf_eq hl]
      exact hs decl l hl parent hmem v hv
    simp only [Nominal.toTy, Ty.rebuild, Arg.rebuildAll_eq_map] at hz
    injection hz with _ _ hz
    exact hz.symm

/-- **Seeing as an ancestor commutes with rebuilding.** -/
theorem SeenAs.rebuild (hs : s.ParentsFit) (hown : s.ParentsOwn) {f : Var → Ty} (hf : Siteless f)
    (h : s.SeenAs ancestor decl args found) (hfits : s.Fits decl args) :
    s.SeenAs ancestor decl (args.map (Arg.rebuild f)) (found.map (Arg.rebuild f)) := by
  induction h with
  | here args => exact .here _
  | up hne hlead _ ih =>
    obtain ⟨⟨l, hl, hmem⟩, _⟩ := leadsTo?_sound hlead
    refine .up hne hlead ?_
    rw [hown.inherited_rebuild hl hmem hf hfits]
    exact ih (Fits.inherited hs hlead)

/-- What is found on the way up fits. -/
theorem SeenAs.fits (hs : s.ParentsFit) (h : s.SeenAs ancestor decl args found)
    (hfits : s.Fits decl args) : s.Fits ancestor found := by
  induction h with
  | here args => exact hfits
  | up hne hlead _ ih => exact ih (Fits.inherited hs hlead)

/-- A property of variables that holds of what is given to parameters. -/
theorem image_zip_cases {ps : List TypeVar} {ts : List Ty} {p : TypeVar} (hp : p ∈ ps)
    (hlen : ps.length ≤ ts.length) :
    ∃ t ∈ ts, (Subst.zip ps ts).image (.declared p) = t.shape := by
  obtain ⟨t, ht⟩ := Option.isSome_iff_exists.1 (Subst.lookup_zip_isSome hlen hp)
  exact ⟨t, Subst.mem_of_lookup_zip ht, by rw [Subst.image, ht]; rfl⟩

/-- The types among arguments are arguments. -/
theorem mem_types {t : Ty} (h : t ∈ args.filterMap Arg.type?) : Arg.type t ∈ args := by
  obtain ⟨a, ha, hat⟩ := List.mem_filterMap.1 h
  cases a with
  | type t' =>
    injection hat with hat
    exact hat ▸ ha
  | wild u l => cases hat

/-- An argument that is passed on is one of the direct supertype, with types among the arguments given
to the parameters put in. -/
theorem mem_inherited (hs : s.ParentsRegular k) {parent : Nominal}
    (hlead : Query.Settles s (s.leadsTo? decl ancestor) (.ok (some parent)))
    (hfits : s.Fits decl args) {a : Arg} (ha : a ∈ s.inherited decl args parent) :
    ∃ b ∈ parent.args, ∃ f : Var → Ty, a = b.rebuild f ∧
      ∀ v ∈ b.vars, ∃ t, Arg.type t ∈ args ∧ f v = t.shape := by
  obtain ⟨l, hl, _, _, _, hvars⟩ := hs.of_leadsTo hlead
  rw [inherited] at ha
  split at ha
  · cases ha
  · next hraw =>
    obtain ⟨b, hb, rfl⟩ := List.mem_map.1 ha
    refine ⟨b, hb, _, rfl, fun v hv => ?_⟩
    obtain ⟨p, hp, rfl⟩ := hvars v (by
      rw [Nominal.toTy, Ty.vars, Arg.mem_varsAll]
      exact ⟨b, hb, hv⟩)
    obtain ⟨t, ht, htv⟩ := image_zip_cases (by rwa [paramsOf_eq hl]) (hfits.length_le hl hraw)
    exact ⟨t, mem_types ht, htv⟩

/-- **What is found is regular and mentions what the arguments mention.** -/
theorem SeenAs.regular_in (hs : s.ParentsRegular k) {j : Fragment}
    (hj : ∀ decl l, s.lineageOf decl = some l → ∀ n ∈ l.parents, n.toTy.Regular s j)
    (h : s.SeenAs ancestor decl args found) (hfits : s.Fits decl args)
    (hreg : ∀ a ∈ args, a.Regular s j) {P : Var → Prop} (hP : ∀ a ∈ args, ∀ v ∈ a.vars, P v) :
    ∀ a ∈ found, a.Regular s j ∧ ∀ v ∈ a.vars, P v := by
  induction h with
  | here args => exact fun a ha => ⟨hreg a ha, hP a ha⟩
  | @up decl args found parent hne hlead _ ih =>
    obtain ⟨l, hl, hmem, _, _, _⟩ := hs.of_leadsTo hlead
    have hpreg := hj decl l hl parent hmem
    rw [Nominal.toTy, Ty.Regular] at hpreg
    have hall : ∀ a ∈ s.inherited decl args parent, a.Regular s j ∧ ∀ v ∈ a.vars, P v := by
      intro a ha
      obtain ⟨b, hb, f, rfl, hf⟩ := mem_inherited hs hlead hfits ha
      refine ⟨(Arg.regularAll_iff.1 hpreg.2 b hb).rebuild fun v hv => ?_, fun v hv => ?_⟩
      · obtain ⟨t, ht, htv⟩ := hf v hv
        have := hreg _ ht
        rw [Arg.Regular] at this
        rw [htv]
        exact this.shape
      · rw [Arg.vars_rebuild, List.mem_flatMap] at hv
        obtain ⟨w, hw, hv⟩ := hv
        obtain ⟨t, ht, htv⟩ := hf w hw
        rw [htv, Ty.vars_shape] at hv
        exact hP _ ht v (by rwa [Arg.vars])
    exact ih (Fits.inherited hs.fit hlead) (fun a ha => (hall a ha).1) fun a ha => (hall a ha).2

/-- What is found on the way up is regular and mentions what the arguments mention. -/
theorem SeenAs.regular (hs : s.Regular k) (h : s.SeenAs ancestor decl args found)
    (hfits : s.Fits decl args) (hreg : ∀ a ∈ args, a.Regular s k) {P : Var → Prop}
    (hP : ∀ a ∈ args, ∀ v ∈ a.vars, P v) : ∀ a ∈ found, a.Regular s k ∧ ∀ v ∈ a.vars, P v :=
  h.regular_in hs.parents (fun decl l hl n hn => (hs.parents decl l hl n hn).1) hfits hreg hP

/-- A declaration that takes arguments can be applied to them. -/
theorem Takes.applies {l : Lineage} (h : s.Takes k decl l args) : s.Applies decl args.length :=
  ⟨l, h.lineage, h.count.imp (fun h => by rw [h]; rfl) id⟩

/-- Arguments after capture fit. -/
theorem fits_captureArgs {l : Lineage} (h : s.Takes k decl l args) (last : Nat) :
    s.Fits decl (captureArgs last args) := by
  refine ⟨by rw [length_captureArgs]; exact h.applies, fun a ha => ?_⟩
  rcases mem_captureArgs ha with ⟨_, ha⟩ | ⟨j, _, rfl⟩
  · exact ha
  · rfl

/-- Captured arguments are regular. -/
theorem regular_captureArgs {l : Lineage} (h : s.Takes k decl l args) (last : Nat) :
    ∀ a ∈ captureArgs last args, a.Regular s k := by
  intro a ha
  rcases mem_captureArgs ha with ⟨ha, _⟩ | ⟨j, _, rfl⟩
  · exact h.regular a ha
  · rw [Arg.Regular, Ty.Regular]
    trivial

end Setting

/-- What is asked of two types when an argument found is to be contained in the one asked for:
pairs of which the first is to be below the second. -/
def Arg.demands : Arg → Arg → List (Ty × Ty)
  | .type t, .type t' => [(t, t'), (t', t)]
  | .type t, .wild upper lower => [(lower, t), (t, upper)]
  | .wild _ _, _ => []

/-- What is asked when arguments found are to be contained in those asked for. -/
def Arg.demandsAll (as bs : List Arg) : List (Ty × Ty) :=
  (as.zip bs).flatMap fun pair => pair.1.demands pair.2

/-- The types that an argument is made of. -/
def Arg.parts : Arg → List Ty
  | .type t => [t]
  | .wild upper lower => [upper, lower]

/-- The types in a rebuilt argument are the types in the argument, rebuilt. -/
theorem Arg.parts_rebuild (f : Var → Ty) (a : Arg) : (a.rebuild f).parts = a.parts.map (Ty.rebuild f) := by
  cases a <;> rfl

/-- Of two lists of arguments that are rebuilt alike, each type in the one is rebuilt like one in the other. -/
theorem Arg.exists_part_rebuilt {f g : Var → Ty} {as bs : List Arg}
    (h : as.map (Arg.rebuild f) = bs.map (Arg.rebuild g)) {a : Arg} (ha : a ∈ as) {t : Ty}
    (ht : t ∈ a.parts) : ∃ b ∈ bs, ∃ u ∈ b.parts, u.rebuild g = t.rebuild f := by
  obtain ⟨b, hb, hab⟩ := Arg.exists_rebuilt h ha
  have hpart : t.rebuild f ∈ (b.rebuild g).parts := by
    rw [hab, Arg.parts_rebuild]
    exact List.mem_map_of_mem ht
  rw [Arg.parts_rebuild] at hpart
  obtain ⟨u, hu, hut⟩ := List.mem_map.1 hpart
  exact ⟨b, hb, u, hu, hut⟩

/-- A variable of a part of an argument is one of the argument. -/
theorem Arg.mem_vars_of_parts {a : Arg} {t : Ty} (h : t ∈ a.parts) {v : Var} (hv : v ∈ t.vars) :
    v ∈ a.vars := by
  cases a with
  | type u =>
    rw [List.mem_singleton.1 h] at hv
    exact hv
  | wild u l =>
    rw [Arg.vars, List.mem_append]
    rcases List.mem_cons.1 h with rfl | h
    · exact .inl hv
    · rw [List.mem_singleton.1 h] at hv
      exact .inr hv

/-- The parts of a regular argument are regular. -/
theorem Arg.Regular.parts {s : Setting} {k : Fragment} {a : Arg} (h : a.Regular s k) {t : Ty}
    (ht : t ∈ a.parts) : t.Regular s k := by
  cases a with
  | type u =>
    rw [Arg.Regular] at h
    rw [List.mem_singleton.1 ht]
    exact h
  | wild u l =>
    rw [Arg.Regular] at h
    rcases List.mem_cons.1 ht with rfl | ht
    · exact h.2.1
    · rw [List.mem_singleton.1 ht]
      exact h.2.2

/-- **Each demand is between a part of an argument found and a part of the one asked for.** -/
theorem Arg.mem_demandsAll {as bs : List Arg} {x : Ty × Ty} (h : x ∈ Arg.demandsAll as bs) :
    ∃ a ∈ as, ∃ b ∈ bs, (x.1 ∈ a.parts ∧ x.2 ∈ b.parts) ∨ (x.1 ∈ b.parts ∧ x.2 ∈ a.parts) := by
  obtain ⟨⟨a, b⟩, hab, hx⟩ := List.mem_flatMap.1 h
  obtain ⟨ha, hb⟩ := List.of_mem_zip hab
  refine ⟨a, ha, b, hb, ?_⟩
  cases a with
  | wild u l => cases hx
  | type t =>
    cases b <;> rcases List.mem_cons.1 hx with rfl | hx
    · exact .inl ⟨List.mem_cons_self, List.mem_cons_self⟩
    · rw [List.mem_singleton.1 hx]
      exact .inr ⟨List.mem_cons_self, List.mem_cons_self⟩
    · exact .inr ⟨List.mem_cons_of_mem _ List.mem_cons_self, List.mem_cons_self⟩
    · rw [List.mem_singleton.1 hx]
      exact .inl ⟨List.mem_cons_self, List.mem_cons_self⟩

/-- The first type is below the second one, where both are shapes. -/
inductive Below (s : Setting) : Scope → Ty → Ty → Prop
  | null (Γ : Scope) (b : Ty) : Below s Γ .null b
  | raw {Γ : Scope} {d e : String} {as : List Arg} :
    Query.Settles s (s.inherits d e) (.ok true) →
      Below s Γ (.nominal .common d as) (.nominal .common e [])
  | args {Γ : Scope} {d e : String} {as bs cs : List Arg} :
    Query.Settles s (s.inherits d e) (.ok true) → bs ≠ [] → (as = [] → s.paramsOf d = []) →
      s.SeenAs e d (Setting.captureArgs Γ.last as) cs → cs.length = bs.length →
        (∀ x ∈ Arg.demandsAll cs bs, Below s (Γ.capture s d as) x.1 x.2) →
          Below s Γ (.nominal .common d as) (.nominal .common e bs)
  | members {Γ : Scope} {a : Ty} {bs : List Ty} :
    (∀ b ∈ bs, Below s Γ a b) → Below s Γ a (.inter .common bs)
  | top {Γ : Scope} {b : Ty} :
    b.isInter = false → Below s Γ .object b → Below s Γ (.inter .common []) b
  | member {Γ : Scope} {a b : Ty} {as : List Ty} :
    b.isInter = false → a ∈ as → Below s Γ a b → Below s Γ (.inter .common as) b
  | upper {Γ : Scope} {i : Nat} {b : Ty} :
    b.isInter = false → Below s Γ (Γ.upper i) b → Below s Γ (.var (.captured i)) b
  | lower {Γ : Scope} {a : Ty} {i : Nat} :
    a ≠ .inter .common [] → Below s Γ a (Γ.lower i) → Below s Γ a (.var (.captured i))
  | refl (Γ : Scope) (v : Var) : Below s Γ (.var v) (.var v)
  | component {Γ : Scope} {a b : Ty} :
    a.isPrim = false → b.isPrim = false → Below s Γ a b → Below s Γ (.array a) (.array b)
  | components (Γ : Scope) (p : Primitive) : Below s Γ (.array (.prim p)) (.array (.prim p))
  | arrayParent {Γ : Scope} {a : Ty} {e : String} :
    s.isArrayParent e [] = true → Below s Γ (.array a) (.nominal .common e [])
  | prim (Γ : Scope) (p : Primitive) : Below s Γ (.prim p) (.prim p)

/-! ### What a derivation rests on -/

namespace Below

variable {s : Setting} {Γ : Scope} {a b : Ty} {d e : String} {as bs : List Arg}

/-- A type is below an intersection if it is below all members. -/
theorem inter_right {ms : List Ty} : Below s Γ a (.inter .common ms) ↔ ∀ m ∈ ms, Below s Γ a m := by
  constructor
  · intro h m hm
    cases h with
    | null => exact .null Γ m
    | members h => exact h m hm
    | top hb => cases hb
    | member hb => cases hb
    | upper hb => cases hb
  · exact .members

/-- The empty intersection is below what the top declaration is below. -/
theorem top_left (hb : b.isInter = false) :
    Below s Γ (.inter .common []) b ↔ Below s Γ .object b := by
  constructor
  · intro h
    cases h with
    | members => cases hb
    | top _ h => exact h
    | member _ h => cases h
    | lower h => exact absurd rfl h
  · exact .top hb

/-- An intersection is below a type if a member is, or if the type is a captured variable whose lower
bound it is below. -/
theorem inter_left {m : Ty} {ms : List Ty} (hb : b.isInter = false) :
    Below s Γ (.inter .common (m :: ms)) b ↔ (∃ c ∈ m :: ms, Below s Γ c b) ∨
      ∃ i, b = .var (.captured i) ∧ Below s Γ (.inter .common (m :: ms)) (Γ.lower i) := by
  constructor
  · intro h
    cases h with
    | members => cases hb
    | member _ hm h => exact .inl ⟨_, hm, h⟩
    | lower _ h => exact .inr ⟨_, rfl, h⟩
  · rintro (⟨c, hc, h⟩ | ⟨i, rfl, h⟩)
    · exact .member hb hc h
    · exact .lower (by simp) h

/-- A captured variable is below itself, below what its upper bound is below, and below captured
variables whose lower bound it is below. -/
theorem var_left {i : Nat} (hb : b.isInter = false) :
    Below s Γ (.var (.captured i)) b ↔ b = .var (.captured i) ∨ Below s Γ (Γ.upper i) b ∨
      ∃ j, b = .var (.captured j) ∧ Below s Γ (.var (.captured i)) (Γ.lower j) := by
  constructor
  · intro h
    cases h with
    | members => cases hb
    | upper _ h => exact .inr (.inl h)
    | lower _ h => exact .inr (.inr ⟨_, rfl, h⟩)
    | refl => exact .inl rfl
  · rintro (rfl | h | ⟨j, rfl, h⟩)
    · exact .refl Γ _
    · exact .upper hb h
    · exact .lower (by simp) h

/-- An applied declaration is below a captured variable if it is below its lower bound. -/
theorem nominal_var {i : Nat} :
    Below s Γ (.nominal .common d as) (.var (.captured i)) ↔
      Below s Γ (.nominal .common d as) (Γ.lower i) := by
  constructor
  · intro h
    cases h with
    | lower _ h => exact h
  · exact .lower (by simp)

/-- An array is below a captured variable if it is below its lower bound. -/
theorem array_var {i : Nat} :
    Below s Γ (.array a) (.var (.captured i)) ↔ Below s Γ (.array a) (Γ.lower i) := by
  constructor
  · intro h
    cases h with
    | lower _ h => exact h
  · exact .lower (by simp)

/-- An applied declaration is below a raw one if it inherits from it. -/
theorem nominal_nil : Below s Γ (.nominal .common d as) (.nominal .common e []) ↔
    Query.Settles s (s.inherits d e) (.ok true) := by
  constructor
  · intro h
    cases h with
    | raw h => exact h
    | args _ h => exact absurd rfl h
  · exact .raw

/-- An applied declaration is below another one with arguments if it inherits from it, is not raw, and
is seen as it with arguments of which all that is demanded holds. -/
theorem nominal_cons (hbs : bs ≠ []) : Below s Γ (.nominal .common d as) (.nominal .common e bs) ↔
    Query.Settles s (s.inherits d e) (.ok true) ∧ (as = [] → s.paramsOf d = []) ∧
      ∃ cs, s.SeenAs e d (Setting.captureArgs Γ.last as) cs ∧ cs.length = bs.length ∧
        ∀ x ∈ Arg.demandsAll cs bs, Below s (Γ.capture s d as) x.1 x.2 := by
  constructor
  · intro h
    cases h with
    | raw => exact absurd rfl hbs
    | args hi _ hraw hseen hlen h => exact ⟨hi, hraw, _, hseen, hlen, h⟩
  · rintro ⟨hi, hraw, cs, hseen, hlen, h⟩
    exact .args hi hbs hraw hseen hlen h

/-- Arrays are below each other as their components are, unless these are primitives. -/
theorem array_array (ha : a.isPrim = false) (hb : b.isPrim = false) :
    Below s Γ (.array a) (.array b) ↔ Below s Γ a b := by
  constructor
  · intro h
    cases h with
    | component _ _ h => exact h
    | components p => cases ha
  · exact .component ha hb

/-- Arrays of primitives are below each other only if they are the same. -/
theorem array_prim (h : a.isPrim = true ∨ b.isPrim = true) :
    Below s Γ (.array a) (.array b) ↔ a = b := by
  constructor
  · intro hab
    cases hab with
    | component ha hb =>
      rw [ha, hb] at h
      rcases h with h | h <;> cases h
    | components => rfl
  · rintro rfl
    cases a with
    | prim p => exact .components Γ p
    | _ => rcases h with h | h <;> cases h

/-- An array is below the declarations that are parents of arrays. -/
theorem array_nominal : Below s Γ (.array a) (.nominal .common e bs) ↔
    s.isArrayParent e bs = true := by
  constructor
  · intro h
    cases h with
    | arrayParent h => exact h
  · intro h
    have hbs : bs = [] := by
      rw [Setting.isArrayParent, Bool.and_eq_true] at h
      exact List.isEmpty_iff.1 h.1
    subst hbs
    exact .arrayParent h

end Below
end Generics
