/-
# Problems that leave no choice

An equality between a type that has an unknown among its arguments, and a type without variables,
breaks down to an equality of that unknown with a type without variables. A problem that has such a
constraint for each of its unknowns (`Problem.Covered`) and can be solved at all is solved without a
choice (`searchWithin_pinned`).
-/

import Generics.Proofs.Ground
import Generics.Proofs.Uniqueness

namespace Generics

/-- A variable is the type, or one of its arguments, or an argument of one of those, and so on. -/
inductive Ty.Exposes (v : Var) : Ty → Prop
  | var : Exposes v (.var v)
  | arg {site : Site} {decl : String} {args : List Arg} {t : Ty} :
    Arg.type t ∈ args → Exposes v t → Exposes v (.nominal site decl args)

namespace Ty.Exposes

variable {v w : Var} {f : Var → Ty} {t : Ty}

/-- A variable that is exposed where another one is put in exposes what the other one does. -/
theorem rebuild (h : t.Exposes v) (hf : (f v).Exposes w) : (t.rebuild f).Exposes w := by
  induction h with
  | var => exact hf
  | arg hmem _ ih =>
    rw [Ty.rebuild_nominal]
    exact .arg (List.mem_map_of_mem hmem) ih

/-- What the shape of a type exposes, the type does. -/
theorem of_shape {x : Ty} (h : x.Exposes v) : ∀ {t : Ty}, t.shape = x → t.Exposes v := by
  induction h with
  | var =>
    intro t ht
    cases t with
    | var w =>
      rw [Ty.shape_var] at ht
      rw [ht]
      exact .var
    | _ => cases ht
  | arg hmem _ ih =>
    intro t ht
    obtain ⟨n, rfl, _, hargs⟩ := Ty.of_shape_nominal ht
    rw [← hargs] at hmem
    obtain ⟨a, ha, hshape⟩ := List.mem_map.1 hmem
    cases a with
    | type u => exact .arg ha (ih (Arg.type.inj hshape))
    | wild _ _ => cases hshape

/-- What stands for an exposed variable is found again among the arguments. -/
theorem mem_vars (h : t.Exposes v) : v ∈ t.vars := by
  induction h with
  | var => exact List.mem_singleton_self v
  | arg hmem _ ih => exact Arg.mem_varsAll.2 ⟨_, hmem, ih⟩

end Ty.Exposes

/-- Seen as the declaration of a target, the variable is an argument where the target has a type and
not a wildcard. -/
def Setting.Tells (s : Setting) (v : Var) (decl : String) (args : List Arg) (target : Nominal) :
    Prop :=
  ∀ found, s.SeenAs target.decl decl args found →
    ∃ t u, (Arg.type t, Arg.type u) ∈ found.zip (target.args.map Arg.shape) ∧ t.Exposes v

namespace Inference

open Query

variable {s : Setting} {k : Fragment} {vars : List TypeVar} {σ : Var → Ty} {Γ : Scope}
  {m m' : Memory} {μ : Marks} {τ : Subst} {v : Var}

/-- A claim that leaves one type for a variable: the variable is an argument where the other side has
a type without variables. -/
inductive Claim.Determines (s : Setting) (v : Var) : Claim → Prop
  | equal {a b : Ty} : a.Exposes v → b.vars = [] → Determines s v ⟨a, .equal, b⟩
  | below {a b : Nominal} : b.args ≠ [] → b.toTy.vars = [] →
    s.Tells v a.decl (a.args.map Arg.shape) b → Determines s v ⟨a.toTy, .below, b.toTy⟩

/-- Where a type without variables is asked for, nothing is replaced. -/
theorem vars_of_replaced {t t' : Ty} (h : Ty.Replaced τ t t') (ht : t.vars = []) :
    t'.shape = t.shape ∧ t'.vars = [] := by
  have hshape : t'.shape = t.shape := by
    rw [h.shape]
    exact Ty.rebuild_eq_shape fun v hv => by rw [ht] at hv; cases hv
  exact ⟨hshape, by rw [← Ty.vars_shape, hshape, Ty.vars_shape, ht]⟩

/-- **Replacing other variables leaves a variable determined.** -/
theorem Constraint.Becomes.determines (hs : s.Regular k) {c c' : Constraint} (h : c.Becomes τ c')
    (hc : c.lhs.Regular s .plain) (hv : τ.lookup v = none) (hdet : c.toClaim.Determines s v) :
    c'.toClaim.Determines s v := by
  obtain ⟨⟨lhs, rel, rhs⟩, origin⟩ := c
  obtain ⟨⟨lhs', rel', rhs'⟩, origin'⟩ := c'
  obtain ⟨hlhs, hrhs, rfl⟩ := h
  have hvar : (τ.image v).Exposes v := by
    rw [Subst.image_of_none hv]
    exact .var
  cases hdet with
  | equal hexp hclosed =>
    exact .equal ((hexp.rebuild hvar).of_shape hlhs.shape) (vars_of_replaced hrhs hclosed).2
  | @below a b hargs hclosed htells =>
    obtain ⟨hrshape, hrclosed⟩ := vars_of_replaced hrhs hclosed
    obtain ⟨y, rfl, hydecl, hyargs⟩ :=
      Ty.of_shape_nominal (hrshape.trans (Ty.shape_nominal b.site b.decl b.args))
    obtain ⟨x, rfl, hxdecl, hxargs⟩ :=
      Ty.of_shape_nominal (hlhs.shape.trans (Ty.rebuild_nominal τ.image a.site a.decl a.args))
    refine .below ?_ hrclosed fun cs hcs => ?_
    · rintro hnil
      rw [hnil, List.map_nil, eq_comm, List.map_eq_nil_iff] at hyargs
      exact hargs hyargs
    · rw [hxdecl, hydecl, hxargs] at hcs
      have hlen : (a.args.map Arg.shape).length = (a.args.map (Arg.rebuild τ.image)).length := by simp
      obtain ⟨ds, hds, _⟩ := hcs.of_length hlen
      obtain ⟨t, u, htu, hexp⟩ := htells ds hds
      have hsame := hds.rebuild hs.parentsFit hs.parentsOwn τ.siteless_image (Setting.fits_shapes hc)
      rw [Arg.map_rebuild_shape] at hsame
      refine ⟨t.rebuild τ.image, u, ?_, hexp.rebuild hvar⟩
      rw [hcs.unique hsame, hyargs, List.zip_map_left]
      exact List.mem_map_of_mem htu

/-- Where no wildcard stands, each type has a type beside it. -/
theorem exists_beside {as bs : List Arg} (hlen : as.length = bs.length)
    (hbs : ∀ b ∈ bs, b.isWild = false) {t : Ty} (ht : Arg.type t ∈ as) :
    ∃ u, (Arg.type t, Arg.type u) ∈ as.zip bs := by
  obtain ⟨i, hi, heq⟩ := List.getElem_of_mem ht
  have hi' : i < bs.length := hlen ▸ hi
  have hzip : (Arg.type t, bs[i]) ∈ as.zip bs :=
    List.mem_iff_getElem.2 ⟨i, by rw [List.length_zip]; omega, by rw [List.getElem_zip, heq]⟩
  have hnowild := hbs _ (List.getElem_mem hi')
  cases hb : bs[i] with
  | wild u l =>
    rw [hb] at hnowild
    cases hnowild
  | type u => exact ⟨u, hb ▸ hzip⟩

/-- A variable that is exposed where the other side has a closed type is determined. -/
theorem Claim.determines_ofArgs {as bs : List Arg} {st : Site} {d : String}
    (hclosed : (Ty.nominal st d bs).vars = []) {t u : Ty} (htu : (Arg.type t, Arg.type u) ∈ as.zip bs)
    (hexp : t.Exposes v) : ∃ c ∈ Claim.ofArgs as bs, c.Determines s v :=
  ⟨⟨t, .equal, u⟩, List.mem_flatMap.2 ⟨_, htu, List.mem_singleton_self _⟩,
    .equal hexp (Setting.vars_of_parts hclosed (List.of_mem_zip htu).2 List.mem_cons_self)⟩

/-- An applied declaration is equal to nothing but an applied declaration. -/
theorem nominal_of_below {st : Site} {d : String} {as : List Arg} {b : Ty} (hb : b.Simple s [])
    (h : s.Under Γ σ (.nominal st d as) b) : ∃ n : Nominal, b = n.toTy := by
  cases b with
  | nominal st' e bs => exact ⟨⟨st', e, bs⟩, rfl⟩
  | var v =>
    have := hb.vars_eq_nil
    cases this
  | inter _ _ => cases hb.isInter
  | _ =>
    rw [Setting.Under, Ty.rebuild_nominal] at h
    cases h

/-- Plain declarations have no wildcards as arguments. -/
theorem not_hasWild {n : Nominal} (h : n.toTy.Regular s .plain) : n.hasWild ≠ true := by
  rw [Nominal.hasWild, Ne, List.any_eq_true]
  rintro ⟨a, ha, hwild⟩
  rw [Ty.Regular.not_wild h a ha] at hwild
  cases hwild

/-- **A claim that determines a variable breaks down to one that does.** -/
theorem Resolves.determines {c : Claim} {cs : List Claim} (hc : c.Simple s vars)
    (hfaces : Setting.FacesInter c) (hholds : c.Holds (s.Under Γ σ))
    (h : s.Resolves k m m' c (.all cs)) (hdet : c.Determines s v) :
    ∃ d ∈ cs, d.Determines s v := by
  cases hdet with
  | @equal a b hexp hclosed =>
    have hb : b.Simple s [] :=
      ⟨(hc.rhs_of_rel (by simp)).regular, fun v hv => by rw [hclosed] at hv; cases hv⟩
    obtain ⟨hbelow, _⟩ := hholds
    cases h with
    | equal _ hequates =>
      cases hexp with
      | var =>
        obtain ⟨w, _, rfl⟩ := hc.lhs.known v (List.mem_singleton_self v)
        have := hfaces.1 w rfl
        rw [hb.isInter] at this
        cases this
      | @arg st d as t hmem hexp =>
        obtain ⟨n, rfl⟩ := nominal_of_below hb hbelow
        cases hequates with
        | args hlen _ hwild =>
          obtain ⟨u, hu⟩ := exists_beside hlen hwild hmem
          exact Claim.determines_ofArgs hclosed hu hexp
        | ways _ _ hwild =>
          exfalso
          rcases hwild ⟨st, d, as⟩ n rfl rfl with hwild | hwild
          · exact not_hasWild (n := ⟨st, d, as⟩) (hc.lhs.regular .plain) hwild
          · exact not_hasWild (hb.regular .plain) hwild
  | @below a b hargs hclosed htells =>
    cases h with
    | below hsplits =>
      obtain ⟨sa, da, as⟩ := a
      obtain ⟨sb, db, bs⟩ := b
      cases hsplits with
      | meets hmeets =>
        obtain ⟨t, u, htu, hexp⟩ := htells _ (hmeets.seen_plain (hc.lhs.regular .plain))
        rw [List.zip_map] at htu
        obtain ⟨⟨a, b⟩, hab, hshapes⟩ := List.mem_map.1 htu
        obtain ⟨hshape, hshape'⟩ := Prod.mk.inj hshapes
        cases a with
        | type t' =>
          cases b with
          | type u' =>
            exact Claim.determines_ofArgs hclosed hab (hexp.of_shape (Arg.type.inj hshape))
          | wild _ _ => cases hshape'
        | wild _ _ => cases hshape
      | always _ _ hnil => exact absurd hnil hargs
      | breaks _ hbreaks => cases hbreaks

/-! ### Unknowns with an equality -/

namespace Problem

variable {p p' : Problem} {c c' : Constraint} {rest : List Constraint}

/-- Each unknown without a solution is to equal a type without variables, or a pending constraint
determines it. -/
def Covered (s : Setting) (p : Problem) : Prop :=
  ∀ u ∈ p.unknowns, u.solution = none →
    (∃ c ∈ u.equal, c.rhs.vars = []) ∨
      ∃ c ∈ p.pending, c.toClaim.Determines s (.declared u.var)

/-- Equalities that were filed stay filed. -/
theorem equal_add {u : Unknown} {d e : Constraint} (h : e ∈ u.equal) : e ∈ (u.add d).equal := by
  unfold Unknown.add
  split
  · exact h
  · exact List.mem_append_left _ h
  · exact h

/-- A constraint that determines a variable is filed with that variable only, as an equality. -/
theorem filed_of_determines {d : Constraint} {w : TypeVar} (hd : d = c ∨ d = c.flip)
    (hlhs : d.lhs = .var (.declared w)) (hdet : c.toClaim.Determines s v) :
    v = .declared w ∧ d.rel = .equal ∧ d.rhs.vars = [] := by
  obtain ⟨⟨lhs, rel, rhs⟩, origin⟩ := c
  cases hdet with
  | equal hexp hclosed =>
    rcases hd with rfl | rfl
    · obtain rfl : lhs = .var (.declared w) := hlhs
      cases hexp
      exact ⟨rfl, rfl, hclosed⟩
    · obtain rfl : rhs = .var (.declared w) := hlhs
      cases hclosed
  | below _ _ _ => rcases hd with rfl | rfl <;> cases hlhs

/-- **A step keeps the unknowns covered.** -/
theorem Moves.covered (hp : p.Tidy s k vars μ) (hpend : p.pending = c :: rest)
    (hcov : p.Covered s) (hbecomes : ∀ u ∈ p.unknowns, u.solution = none →
      c.toClaim.Determines s (.declared u.var) → c'.toClaim.Determines s (.declared u.var))
    (hc : c'.toClaim.Simple s vars) (hholds : c'.Holds (s.Under Γ σ))
    (h : p.Moves s k m m' c' rest (.further p')) : p'.Covered s := by
  -- what covers an unknown is its equality, an older constraint, or the one that is reduced
  have hcases : ∀ u ∈ p.unknowns, u.solution = none → (∃ c ∈ u.equal, c.rhs.vars = []) ∨
      (∃ c ∈ rest, c.toClaim.Determines s (.declared u.var)) ∨
        c'.toClaim.Determines s (.declared u.var) := by
    intro u hu hsol
    rcases hcov u hu hsol with hequal | ⟨d, hd, hdet⟩
    · exact .inl hequal
    · rw [hpend] at hd
      rcases List.mem_cons.1 hd with rfl | hd
      · exact .inr (.inr (hbecomes u hu hsol hdet))
      · exact .inr (.inl ⟨d, hd, hdet⟩)
  cases h with
  | @dropped d u₀ hd _ hlhs _ habove =>
    intro u hu hsol
    rcases hcases u hu hsol with hequal | hrest | hdet
    · exact .inl hequal
    · exact .inr hrest
    · have hrel := (filed_of_determines hd hlhs hdet).2.1
      rw [habove] at hrel
      cases hrel
  | @filed d pre post u₀ hd hus hlhs =>
    have hdistinct : ((pre ++ u₀ :: post).map Unknown.var).Nodup := by
      rw [← hus, hp.domain]
      exact hp.distinct.of_map
    have hother : ∀ u, u ∈ pre ∨ u ∈ post → u.var ≠ u₀.var := by
      rw [List.map_append, List.map_cons, List.nodup_append] at hdistinct
      rintro u (hu | hu) heq
      · exact hdistinct.2.2 _ (List.mem_map_of_mem hu) _ List.mem_cons_self heq
      · exact (List.nodup_cons.1 hdistinct.2.1).1 (heq ▸ List.mem_map_of_mem hu)
    have hkept : ∀ u, u ∈ pre ∨ u ∈ post → u ∈ p.unknowns := by
      intro u hu
      rw [hus]
      exact List.mem_append.2 (hu.imp id (List.mem_cons_of_mem _))
    intro u hu hsol
    have hu' : (u ∈ pre ∨ u ∈ post) ∨ u = u₀.add d := by
      rcases List.mem_append.1 hu with hu | hu
      · exact .inl (.inl hu)
      · exact (List.mem_cons.1 hu).symm.imp .inr id
    rcases hu' with hu' | rfl
    · rcases hcases u (hkept u hu') hsol with hequal | hrest | hdet
      · exact .inl hequal
      · exact .inr hrest
      · exact absurd (Var.declared.inj (filed_of_determines hd hlhs hdet).1) (hother u hu')
    · have hsame : (u₀.add d).solution = u₀.solution ∧ (u₀.add d).var = u₀.var := by
        unfold Unknown.add
        split <;> exact ⟨rfl, rfl⟩
      rw [hsame.1] at hsol
      rw [hsame.2]
      rcases hcases u₀ (by rw [hus]; exact List.mem_append_right _ List.mem_cons_self) hsol with
        ⟨e, he, hclosed⟩ | hrest | hdet
      · exact .inl ⟨e, equal_add he, hclosed⟩
      · exact .inr hrest
      · obtain ⟨_, hrel, hclosed⟩ := filed_of_determines hd hlhs hdet
        refine .inl ⟨d, ?_, hclosed⟩
        unfold Unknown.add
        rw [hrel]
        exact List.mem_append_right _ List.mem_cons_self
  | @reduced cs _ _ hfaces hres =>
    intro u hu hsol
    rcases hcases u hu hsol with hequal | ⟨d, hd, hdet⟩ | hdet
    · exact .inl hequal
    · exact .inr ⟨d, List.mem_append_left _ hd, hdet⟩
    · obtain ⟨claim, hmem, hdet'⟩ := Resolves.determines hc hfaces hholds hres hdet
      obtain ⟨d, hd, rfl⟩ := List.mem_map.1 hmem
      exact .inr ⟨d, List.mem_append_right _ hd, hdet'⟩

/-- A problem in which all unknowns are closed leaves them so. -/
theorem Moves.closed (h : p.Moves s k m m' c rest (.further p'))
    (hclosed : p.unknowns.all Unknown.closed = true) : p'.unknowns.all Unknown.closed = true := by
  cases h with
  | dropped _ _ _ _ _ => exact hclosed
  | @filed d pre post u₀ _ hus _ =>
    have hsame : (u₀.add d).closed = u₀.closed := by
      unfold Unknown.add
      split <;> rfl
    rw [hus] at hclosed
    rw [List.all_append, List.all_cons] at hclosed ⊢
    rwa [hsame]
  | reduced _ _ _ => exact hclosed

/-! ### Settling covered unknowns -/

/-- Closed unknowns have nothing to promote. -/
theorem promote_of_closed (h : p.unknowns.all Unknown.closed = true) : p.promote = p := by
  have hsame : p.unknowns.map (Unknown.promote p.mentions) = p.unknowns := by
    refine (List.map_congr_left fun u hu => ?_).trans (List.map_id _)
    rw [Unknown.promote, List.all_eq_true.1 h u hu]
    rfl
  rw [promote, hsame]

/-- Closed unknowns have nothing to settle. -/
theorem settle_of_closed (h : p.unknowns.all Unknown.closed = true) (n : Nat) :
    settle n p = pure p := by
  cases n with
  | zero => rfl
  | succ n =>
    have hripe : p.unknowns.any Unknown.isRipe = false := by
      rw [List.any_eq_false]
      intro u hu
      rw [Unknown.isRipe, List.all_eq_true.1 h u hu]
      exact Bool.false_ne_true
    rw [settle, promote_of_closed h, hripe]
    rfl

/-- With nothing pending, every unknown has an equality to become its solution. -/
theorem Covered.promote_solved (hp : p.Tidy s k vars μ) (hcov : p.Covered s)
    (hpend : p.pending = []) : ∀ u ∈ p.promote.unknowns, u.solution.isSome = true := by
  intro u' hu'
  obtain ⟨u, hu, rfl⟩ := List.mem_map.1 hu'
  cases hsol : u.solution with
  | some t =>
    obtain ⟨_, hkept⟩ := Unknown.promote_extends p.mentions u
    rw [hkept t hsol]
    rfl
  | none =>
    have hopen : u.closed = false := by
      rw [← Bool.not_eq_true]
      intro hclosed
      have := ((hp.unknowns u hu).closed hclosed).1
      rw [hsol] at this
      cases this
    obtain ⟨c, hc, hclosed⟩ : ∃ c ∈ u.equal, c.rhs.vars = [] := by
      rcases hcov u hu hsol with hequal | ⟨c, hc, _⟩
      · exact hequal
      · rw [hpend] at hc
        cases hc
    have hfound : (u.equal.find? fun c => !p.mentions c.rhs).isSome = true := by
      rw [List.find?_isSome]
      exact ⟨c, hc, by rw [mentions, hclosed]; rfl⟩
    obtain ⟨d, hd⟩ := Option.isSome_iff_exists.1 hfound
    rw [Unknown.promote, hopen, hsol, hd]
    rfl

/-- Handing on closes unknowns that have solutions. -/
theorem closed_of_handed {us us' : List Unknown} {cs : List Constraint}
    (h : Unknown.HandedAll τ us us' cs) (hsolved : ∀ u ∈ us, u.solution.isSome = true) :
    us'.all Unknown.closed = true := by
  rw [List.all_eq_true]
  intro u' hu'
  obtain ⟨u, hu, ds, hhanded⟩ := h.mem.1 u' hu'
  cases hhanded with
  | closed hclosed => exact hclosed
  | solved _ _ _ _ _ => rfl
  | waiting _ hnone _ _ _ =>
    have := hsolved u hu
    rw [hnone] at this
    cases this

/-- **Settling covered unknowns closes them all.** -/
theorem settle_closed (hp : p.Tidy s k vars μ) (hcov : p.Covered s)
    (hpend : p.pending = []) {n : Nat} (h : (settle (n + 1) p).Answers m p' m') :
    p'.unknowns.all Unknown.closed = true := by
  have hsolved := hcov.promote_solved hp hpend
  rw [settle] at h
  split at h
  · obtain ⟨p₁, m₁, hhand, h⟩ := answers_bind.1 h
    obtain ⟨cs, _, _, hhanded⟩ := hand_handed hhand
    have hclosed := closed_of_handed hhanded hsolved
    rw [settle_of_closed hclosed] at h
    obtain ⟨rfl, _⟩ := answers_pure.1 h
    exact hclosed
  · next hripe =>
    obtain ⟨rfl, _⟩ := answers_pure.1 h
    rw [List.all_eq_true]
    intro u hu
    rw [Bool.not_eq_true, List.any_eq_false] at hripe
    have := hripe u hu
    rw [Unknown.isRipe, hsolved u hu] at this
    simpa using this

/-- Nothing is picked for closed unknowns. -/
theorem pickAll_of_closed {mentions : Ty → Bool} {us : List Unknown}
    (h : us.all Unknown.closed = true) : Unknown.pickAll s mentions us = pure (.ok us) := by
  induction us with
  | nil => rfl
  | cons u us ih =>
    rw [List.all_cons, Bool.and_eq_true] at h
    have hpick : u.pick s mentions = pure (.ok u) := by
      rw [Unknown.pick, Unknown.hasClearBounds, h.1]
      rfl
    rw [Unknown.pickAll, hpick, ih h.2]
    rfl

/-- If all unknowns have solutions, so has the outcome. -/
theorem outcome_of_solved (h : ∀ u ∈ p.unknowns, u.solution.isSome = true) :
    p.outcome.solutions.isSome = true := by
  have hnone : (p.unknowns.filter fun u => u.solution.isNone) = [] := by
    rw [List.filter_eq_nil_iff]
    intro u hu hnone
    have := h u hu
    rw [Option.isNone_iff_eq_none.1 hnone] at this
    cases this
  rw [outcome, hnone]
  rfl

/-- Unknowns that are all closed are solved, with nothing left to pick. -/
theorem rests_of_closed (hp : p.Tidy s k vars μ) (hclosed : p.unknowns.all Unknown.closed = true) :
    (p.pick s).Answers m (.ok p) m ∧ p.isRipe = false ∧
      p.outcome.solutions.isSome = true := by
  have hall := List.all_eq_true.1 hclosed
  refine ⟨?_, ?_, outcome_of_solved fun u hu => ((hp.unknowns u hu).closed (hall u hu)).1⟩
  · rw [pick, pickAll_of_closed hclosed]
    rfl
  · rw [isRipe, List.any_eq_false]
    intro u hu
    rw [Unknown.isRipe, hall u hu]
    exact Bool.false_ne_true

/-! ### The search -/

/-- A problem that a filling meets, all of whose unknowns are covered, and in which nothing was
picked. -/
structure Pinned (s : Setting) (k : Fragment) (vars : List TypeVar) (Γ : Scope) (σ : Var → Ty)
    (m : Memory) (p : Problem) : Prop where
  stands : p.Stands s k vars m
  simple : p.Simple s vars
  met : p.Met s Γ σ
  covered : p.Covered s
  picked : p.picked = false

/-- How often a problem may still be advanced, beside once for each reduction. -/
def rounds (p : Problem) : Nat := if p.unknowns.all Unknown.closed then 2 else 3

/-- What a step can make of a problem that is pinned down: it stays so, or it is solved. Only one step
can settle unknowns and leave something to do. -/
inductive Pins (s : Setting) (k : Fragment) (vars : List TypeVar) (Γ : Scope) (σ : Var → Ty)
    (m : Memory) (p : Problem) : Progress → Prop
  | further {p' : Problem} : p'.Pinned s k vars Γ σ m → p'.rounds ≤ p.rounds →
    (p.pending = [] → p'.rounds < p.rounds) → Pins s k vars Γ σ m p (.further p')
  | done {o : Outcome} : o.solutions.isSome = true → o.ambiguous = false →
    Pins s k vars Γ σ m p (.done o)

/-- Reducing the oldest constraint of a pinned problem pins it further. -/
theorem advanceBy_pins (hs : s.Regular k) (hplain : s.Plain) (hacyc : s.Acyclic)
    (hσ : Filling s vars σ) (hnull : ∀ w ∈ vars, σ (.declared w) ≠ .null)
    (hp : p.Pinned s k vars Γ σ m) (hpend : p.pending = c :: rest) :
    ∃ r m', (p.advance s).Answers m r m' ∧ p.Pins s k vars Γ σ m' r := by
  obtain ⟨μ, hg, htidy⟩ := hp.stands.marked
  have hc : c ∈ p.pending := by rw [hpend]; exact List.mem_cons_self
  have htidy₀ : ({ p with pending := rest } : Problem).Tidy s k vars μ :=
    ⟨htidy.domain, htidy.distinct, fun d hd => htidy.pending d (by
      rw [hpend]
      exact List.mem_cons_of_mem _ hd), htidy.unknowns⟩
  obtain ⟨red, m', hred⟩ :=
    reduce_total hs hacyc hp.stands.faithful htidy₀ hg.clean (htidy.pending c hc)
  have hadvance : (p.advance s).Answers m (({ p with pending := rest } : Problem).progress red) m' := by
    rw [advance_eq hpend]
    exact answers_bind.2 ⟨red, m', hred, rfl⟩
  refine ⟨_, m', hadvance, ?_⟩
  generalize ({ p with pending := rest } : Problem).progress red = r at hadvance
  have hby := hadvance
  rw [advance, hpend] at hby
  obtain ⟨c', hbec, hc', hmoves⟩ :=
    advanceBy_moves hs hplain hp.stands.faithful hg htidy hp.simple hpend hby
  have hholds := (hbec.under (hp.simple.pending c hc) (htidy.agrees hp.met.agrees _)).2
    (hp.met.holds.1 c hc)
  obtain ⟨hmet, hdone⟩ := hmoves.met hs hacyc hσ hpend hp.met hc' hholds
  cases r with
  | fork ps => cases hmoves
  | done o =>
    obtain ⟨w, hw, heq⟩ := hdone o rfl
    exact absurd heq (hnull w hw)
  | further p' =>
    have hbecomes : ∀ u ∈ p.unknowns, u.solution = none →
        c.toClaim.Determines s (.declared u.var) → c'.toClaim.Determines s (.declared u.var) := by
      intro u hu hsol hdet
      refine hbec.determines hs ((hp.simple.pending c hc).lhs.regular .plain) ?_ hdet
      cases hlook : (p.solutionsWhere Unknown.closed).lookup (.declared u.var) with
      | none => rfl
      | some t =>
        obtain ⟨u', hu', _, hsol', hkey⟩ := lookup_solutionsWhere hlook
        have hvar := htidy.var_eq (htidy.mem_vars hu') (htidy.mem_vars hu) hkey
        rw [List.inj_on_of_nodup_map (htidy.domain ▸ htidy.distinct.of_map) hu' hu hvar, hsol] at hsol'
        cases hsol'
    have hrounds : p'.rounds ≤ p.rounds := by
      unfold rounds
      by_cases hclosed : p.unknowns.all Unknown.closed = true
      · rw [if_pos hclosed, if_pos (hmoves.closed hclosed)]
      · rw [if_neg hclosed]
        split <;> omega
    obtain ⟨hsimple, hpicked⟩ := hmoves.simple hplain hp.simple hpend hc'
    refine .further ⟨hp.stands.further hs hadvance, hsimple, hmet p' rfl,
      hmoves.covered htidy hpend hp.covered hbecomes hc' hholds, hpicked.trans hp.picked⟩ hrounds ?_
    intro hnil
    rw [hpend] at hnil
    cases hnil

/-- Settling a pinned problem without pending constraints pins it further. -/
theorem advanceSettled_pins (hs : s.Regular k) (hacyc : s.Acyclic) (hσ : Filling s vars σ)
    (hp : p.Pinned s k vars Γ σ m) (hpend : p.pending = []) :
    ∃ r m', (p.advance s).Answers m r m' ∧ p.Pins s k vars Γ σ m' r := by
  obtain ⟨μ, hg, htidy⟩ := hp.stands.marked
  have hm := hp.stands.faithful
  obtain ⟨p₁, m₁, hsettle⟩ := settle_total (p.unknowns.length + 1) p m
  obtain ⟨hst, htidy₁, _⟩ := settle_follows hs hm htidy hg.clean hsettle
  obtain ⟨hsimple₁, hpicked₁⟩ := settle_simple hm hg.clean htidy hp.simple hsettle
  have hmet₁ := settle_met hs hacyc hσ hm hg.clean htidy hp.simple hp.met hsettle
  have hclosed₁ := settle_closed htidy hp.covered hpend hsettle
  cases hpend₁ : p₁.pending with
  | cons c rest =>
    have hadvance : (p.advance s).Answers m (.further p₁) m₁ := by
      rw [advance, hpend]
      refine answers_bind.2 ⟨p₁, m₁, hsettle, ?_⟩
      rw [hpend₁]
      rfl
    have hopen : p.unknowns.all Unknown.closed ≠ true := by
      intro hclosed
      rw [settle_of_closed hclosed] at hsettle
      obtain ⟨rfl, _⟩ := answers_pure.1 hsettle
      rw [hpend] at hpend₁
      cases hpend₁
    have hrounds : p₁.rounds < p.rounds := by
      rw [rounds, rounds, if_pos hclosed₁, if_neg hopen]
      omega
    have hcov : p₁.Covered s := by
      intro u hu hsol
      have := ((htidy₁.unknowns u hu).closed (List.all_eq_true.1 hclosed₁ u hu)).1
      rw [hsol] at this
      cases this
    exact ⟨_, m₁, hadvance, .further ⟨hp.stands.further hs hadvance, hsimple₁, hmet₁, hcov,
      hpicked₁.trans hp.picked⟩ (Nat.le_of_lt hrounds) fun _ => hrounds⟩
  | nil =>
    obtain ⟨hpick, hripe, hsome⟩ := rests_of_closed (s := s) (m := m₁) htidy₁ hclosed₁
    refine ⟨.done p₁.outcome, m₁, ?_, .done hsome ?_⟩
    · rw [advance, hpend]
      refine answers_bind.2 ⟨p₁, m₁, hsettle, ?_⟩
      rw [hpend₁]
      refine answers_bind.2 ⟨.ok p₁, m₁, hpick, ?_⟩
      simp only [hripe]
      rfl
    · rw [outcome_ambiguous, hpicked₁, hp.picked]

end Problem

open Problem

/-- **A problem that is pinned down is solved without a choice**, unless the search runs away. -/
theorem searchWithin_pinned (hs : s.Regular k) (hplain : s.Plain) (hacyc : s.Acyclic)
    (hσ : Filling s vars σ) (hnull : ∀ w ∈ vars, σ (.declared w) ≠ .null) {n : Nat} {p : Problem}
    {effort : Effort} (hp : p.Pinned s k vars Γ σ m) (hn : 1 ≤ n)
    (hrounds : s.options.maxSteps + p.rounds ≤ n + effort.steps) :
    ∃ r m', (searchWithin s n p effort).Answers m r m' ∧
      (r.1.isRunaway = true ∧ r.1.solutions = none ∨
        r.1.solutions.isSome = true ∧ r.1.ambiguous = false) := by
  induction n generalizing p m effort with
  | zero => omega
  | succ n ih =>
    rw [searchWithin_succ]
    by_cases hmax : s.options.maxSteps < (p.spend effort).steps
    · rw [if_pos hmax]
      exact ⟨_, m, rfl, .inl ⟨rfl, rfl⟩⟩
    · rw [if_neg hmax]
      obtain ⟨r, m₁, hr, hpins⟩ : ∃ r m', (p.advance s).Answers m r m' ∧ p.Pins s k vars Γ σ m' r := by
        cases hpend : p.pending with
        | cons c rest => exact advanceBy_pins hs hplain hacyc hσ hnull hp hpend
        | nil => exact advanceSettled_pins hs hacyc hσ hp hpend
      cases hpins with
      | done hsome hunique =>
        exact ⟨_, m₁, answers_bind.2 ⟨_, m₁, hr, rfl⟩, .inr ⟨hsome, hunique⟩⟩
      | @further p' hp' hle hlt =>
        have hrounds' : 1 ≤ n ∧ s.options.maxSteps + p'.rounds ≤ n + (p.spend effort).steps := by
          have htwo : 2 ≤ p'.rounds := by
            unfold rounds
            split <;> omega
          unfold Problem.spend at hmax ⊢
          cases hpend : p.pending with
          | nil =>
            have := hlt hpend
            rw [hpend] at hmax
            simp only [List.isEmpty_nil, if_true] at hmax ⊢
            omega
          | cons c rest =>
            rw [hpend] at hmax
            simp only [List.isEmpty_cons, Bool.false_eq_true, if_false] at hmax ⊢
            omega
        obtain ⟨r, m₂, hr₂, hends⟩ := ih hp' hrounds'.1 hrounds'.2
        exact ⟨r, m₂, answers_bind.2 ⟨_, m₁, hr, hr₂⟩, hends⟩

end Inference
end Generics
