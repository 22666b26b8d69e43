/-
# Catalogs that were grown

A catalog grown from the standard one by declaring, over any alphabets, has no two declarations of one name and no
faults; bounds and supertypes are written over the parameters of their own declaration, no supertype
has a wildcard as an argument, and no parameter is bounded by itself (`Catalog.Grown.orderly`). If
moreover every bound and supertype passes the check and mentions primitives as components of arrays
only, then questions asked over the catalog are regular (`Setting.Vetted.regular`).
-/

import Generics.Catalog.Standard
import Generics.Proofs.Bounding
import Generics.Proofs.Checks
import Generics.Proofs.Registering

namespace Generics

open Generics.Expr (Written)

/-- The catalog of a declaration alone, without its supertypes. -/
def Declaration.alone (d : Declaration) : Catalog := { decls := [⟨d.name, d.params, []⟩] }

/-- Bounds and supertypes are written over the parameters, supertypes have no wildcards as
arguments, and no parameter is bounded by itself. -/
structure Declaration.Orderly (d : Declaration) : Prop where
  bounds : ∀ p ∈ d.params, Written d.vars p.upper
  parents : ∀ n ∈ d.parents, Written d.vars n.toTy ∧ n.hasWild = false
  ranked : ∀ v ∈ d.vars, d.alone.selfBounded v = false

/-- Names are declared once, nothing is unreadable, and every declaration is in order. -/
structure Catalog.Orderly (c : Catalog) : Prop where
  names : (c.decls.map Declaration.name).Nodup
  faults : c.faults = []
  decls : ∀ d ∈ c.decls, d.Orderly

/-- A catalog that was grown from the standard one. -/
inductive Catalog.Grown : Catalog → Prop
  | standard : Grown .standard
  | declare [Alphabet] {c c' : Catalog} {defs : List Definition} :
    Grown c → c.declare defs = .ok c' → Grown c'

namespace Definition

variable {d : Definition} {known : String → Bool}

/-- The variables depend only on the names of the parameters. -/
theorem vars_eq {params : List Parameter} (parents : List Nominal)
    (h : params.map Parameter.name = d.params.map ParamDefinition.name) :
    (⟨d.name, params, parents⟩ : Declaration).vars = d.vars := by
  refine List.ext_getElem? fun i => ?_
  have hi := congrArg (·[i]?) h
  simp only [List.getElem?_map] at hi
  rw [Declaration.vars, vars, List.getElem?_mapIdx, List.getElem?_mapIdx]
  cases hp : params[i]? <;> cases hq : d.params[i]? <;> simp_all

variable [Alphabet]

/-- A parameter keeps its name, and its bound is the top declaration or what its text reads as. -/
theorem readParam_ok {i : Nat} {p : ParamDefinition} {param : Parameter}
    (h : d.readParam known i p = .ok param) : param.name = p.name ∧
      (param.upper = .object ∨ Expr.parse (.bound d.name i) known d.vars p.bound = .ok param.upper) := by
  unfold readParam at h
  split at h
  · cases h
    exact ⟨rfl, .inl rfl⟩
  · split at h
    · next t ht =>
      cases h
      exact ⟨rfl, .inr ht⟩
    · cases h

/-- The bound of a parameter is written over the parameters. -/
theorem readParam_written {i : Nat} {p : ParamDefinition} {param : Parameter}
    (h : d.readParam known i p = .ok param) : Written d.vars param.upper := by
  rcases (readParam_ok h).2 with hobject | hparse
  · exact hobject ▸ .closed rfl rfl
  · exact Expr.parse_written hparse

/-- The parameters are read one by one, and keep their names. -/
theorem readParams_ok {i : Nat} {ps : List ParamDefinition} {params : List Parameter}
    (h : d.readParams known i ps = .ok params) :
    params.map Parameter.name = ps.map ParamDefinition.name ∧
      ∀ param ∈ params, ∃ i, ∃ p ∈ ps, d.readParam known i p = .ok param := by
  induction ps generalizing i params with
  | nil =>
    cases h
    exact ⟨rfl, by simp⟩
  | cons p ps ih =>
    rw [readParams] at h
    split at h
    · cases h
    · next param hparam =>
      cases hrest : d.readParams known (i + 1) ps with
      | error f =>
        rw [hrest] at h
        cases h
      | ok rest =>
        rw [hrest] at h
        cases h
        obtain ⟨hnames, hall⟩ := ih hrest
        refine ⟨by rw [List.map_cons, List.map_cons, (readParam_ok hparam).1, hnames], fun q hq => ?_⟩
        rcases List.mem_cons.1 hq with rfl | hq
        · exact ⟨i, p, List.mem_cons_self, hparam⟩
        · obtain ⟨j, p', hp', hread⟩ := hall q hq
          exact ⟨j, p', List.mem_cons_of_mem _ hp', hread⟩

/-- A supertype is what its text reads as; it is neither the declaration itself nor has it a wildcard as
an argument. -/
theorem readParent_ok {i : Nat} {text : String} {n : Nominal}
    (h : d.readParent known i text = .ok n) :
    Expr.parse (.parent d.name i) known d.vars text = .ok n.toTy ∧ n.decl ≠ d.name ∧
      n.hasWild = false := by
  unfold readParent at h
  split at h
  · cases h
  · next n' hn' =>
    split at h
    · cases h
    · next hself =>
      split at h
      · cases h
      · next hwild =>
        cases h
        refine ⟨?_, hself, by simpa using hwild⟩
        unfold Expr.parseNominal at hn'
        split at hn'
        · cases hn'
        · next t ht =>
          split at hn'
          · next n'' hnom =>
            cases hn'
            cases t with
            | nominal site decl args =>
              cases hnom
              exact ht
            | _ => cases hnom
          · cases hn'

/-- The supertypes are read one by one. -/
theorem readParents_ok {i : Nat} {texts : List String} {ns : List Nominal}
    (h : d.readParents known i texts = .ok ns) :
    ∀ n ∈ ns, ∃ i, ∃ text ∈ texts, d.readParent known i text = .ok n := by
  induction texts generalizing i ns with
  | nil =>
    cases h
    simp
  | cons text texts ih =>
    rw [readParents] at h
    split at h
    · cases h
    · next n hn =>
      cases hrest : d.readParents known (i + 1) texts with
      | error f =>
        rw [hrest] at h
        cases h
      | ok rest =>
        rw [hrest] at h
        cases h
        intro n' hn'
        rcases List.mem_cons.1 hn' with rfl | hn'
        · exact ⟨i, text, List.mem_cons_self, hn⟩
        · obtain ⟨j, text', htext, hread⟩ := ih hrest n' hn'
          exact ⟨j, text', List.mem_cons_of_mem _ htext, hread⟩

/-- A definition is read by reading its bounds, none of which leads back to its parameter, and its
supertypes. -/
theorem read_ok {decl : Declaration} (h : d.read known = .ok decl) :
    decl.name = d.name ∧ decl.vars = d.vars ∧ d.selfBounded? decl.params = none ∧
      (∀ p ∈ decl.params, ∃ i, ∃ p' ∈ d.params, d.readParam known i p' = .ok p) ∧
      ∀ n ∈ decl.parents, ∃ i, ∃ text ∈ d.parents, d.readParent known i text = .ok n := by
  unfold read at h
  split at h
  · cases h
  · next params hparams =>
    split at h
    · cases h
    · next hself =>
      cases hparents : d.readParents known 0 d.parents with
      | error f =>
        rw [hparents] at h
        cases h
      | ok parents =>
        rw [hparents] at h
        cases h
        obtain ⟨hnames, hbounds⟩ := readParams_ok hparams
        exact ⟨rfl, vars_eq parents hnames, hself, hbounds, readParents_ok hparents⟩

/-- **What a definition reads as is in order.** -/
theorem read_orderly {decl : Declaration} (h : d.read known = .ok decl) : decl.Orderly := by
  obtain ⟨hname, hvars, hself, hparams, hparents⟩ := read_ok h
  refine ⟨fun p hp => ?_, fun n hn => ?_, fun v hv => ?_⟩
  · obtain ⟨i, p', -, hread⟩ := hparams p hp
    exact hvars ▸ readParam_written hread
  · obtain ⟨i, text, -, hread⟩ := hparents n hn
    obtain ⟨hparse, -, hwild⟩ := readParent_ok hread
    exact ⟨hvars ▸ Expr.parse_written hparse, hwild⟩
  · have hfind := List.find?_eq_none.1 hself v (hvars ▸ hv)
    rw [Declaration.alone, hname]
    exact Bool.not_eq_true _ ▸ hfind

/-- The definitions are read one by one, and keep their names. -/
theorem readAll_ok {ds : List Definition} {decls : List Declaration}
    (h : readAll known ds = .ok decls) :
    decls.map Declaration.name = ds.map Definition.name ∧
      ∀ decl ∈ decls, ∃ d ∈ ds, d.read known = .ok decl := by
  induction ds generalizing decls with
  | nil =>
    cases h
    exact ⟨rfl, by simp⟩
  | cons d ds ih =>
    rw [readAll] at h
    split at h
    · cases h
    · next decl hdecl =>
      cases hrest : readAll known ds with
      | error f =>
        rw [hrest] at h
        cases h
      | ok rest =>
        rw [hrest] at h
        cases h
        obtain ⟨hnames, hall⟩ := ih hrest
        refine ⟨by rw [List.map_cons, List.map_cons, (read_ok hdecl).1, hnames], fun d' hd' => ?_⟩
        rcases List.mem_cons.1 hd' with rfl | hd'
        · exact ⟨d, List.mem_cons_self, hdecl⟩
        · obtain ⟨def', hdef, hread⟩ := hall d' hd'
          exact ⟨def', List.mem_cons_of_mem _ hdef, hread⟩

end Definition

namespace Catalog

variable {c c' : Catalog} {defs : List Definition}

/-- A name is accepted if it is some name, is not declared, and was not accepted before. -/
theorem checkName_iff {accepted : List String} {d : Definition} :
    c.checkName accepted d = .ok () ↔ d.name ≠ "" ∧ c.has d.name = false ∧ d.name ∉ accepted := by
  unfold checkName
  split
  · next hempty => simp [hempty]
  · next hempty =>
    split
    · next hhas => simp [hhas]
    · next hhas => split <;> simp_all

/-- Names are accepted if each is some name, is not declared, and was not accepted before. -/
theorem checkNames_iff {accepted : List String} : c.checkNames accepted defs = .ok () ↔
    (defs.map Definition.name).Nodup ∧
      ∀ d ∈ defs, d.name ≠ "" ∧ c.has d.name = false ∧ d.name ∉ accepted := by
  induction defs generalizing accepted with
  | nil => simp [checkNames]
  | cons d ds ih =>
    rw [checkNames]
    split
    · next f hname =>
      have hrefused : ¬ (d.name ≠ "" ∧ c.has d.name = false ∧ d.name ∉ accepted) := fun h => by
        simp [checkName_iff.2 h] at hname
      simp only [List.forall_mem_cons, reduceCtorEq, false_iff]
      exact fun h => hrefused h.2.1
    · next hname =>
      have haccepted := checkName_iff.1 hname
      rw [ih]
      simp only [List.map_cons, List.nodup_cons, List.mem_map, List.mem_cons]
      grind

/-- Names that pass differ from each other, from those of the catalog, and from those that were
accepted. -/
theorem checkNames_ok {accepted : List String} (h : c.checkNames accepted defs = .ok ()) :
    (defs.map Definition.name).Nodup ∧
      ∀ d ∈ defs, c.has d.name = false ∧ d.name ∉ accepted :=
  (checkNames_iff.1 h).imp_right fun hall d hd => (hall d hd).2

/-- A catalog has the names of its declarations. -/
theorem has_iff {name : String} : c.has name = true ↔ name ∈ c.decls.map Declaration.name := by
  simp only [has, find?, List.find?_isSome, List.mem_map, beq_iff_eq]

/-- Where names are declared once, every declaration is the one of its name. -/
theorem find?_of_nodup (hnames : (c.decls.map Declaration.name).Nodup) {d : Declaration}
    (hd : d ∈ c.decls) : c.find? d.name = some d := by
  rw [find?]
  generalize c.decls = ds at hd hnames
  induction ds with
  | nil => cases hd
  | cons e ds ih =>
    rw [List.map_cons, List.nodup_cons] at hnames
    rcases List.mem_cons.1 hd with rfl | hd
    · simp
    · have hne : e.name ≠ d.name := fun heq => hnames.1 (heq ▸ List.mem_map_of_mem hd)
      rw [List.find?_cons_of_neg (by simpa using hne)]
      exact ih hd hnames.2

/-- In a catalog in order, every declaration is the one of its name. -/
theorem Orderly.find?_of_mem (h : c.Orderly) {d : Declaration} (hd : d ∈ c.decls) :
    c.find? d.name = some d := find?_of_nodup h.names hd

section Declare

variable [Alphabet]

/-- Declaring checks the names, reads the definitions and adds them at the end. -/
theorem declare_eq (h : c.declare defs = .ok c') : c.checkNames [] defs = .ok () ∧
    ∃ decls, Definition.readAll (c.knows defs) defs = .ok decls ∧
      c' = { c with decls := c.decls ++ decls } := by
  rw [declare_def] at h
  split at h
  · cases h
  · next hnames =>
    cases hread : Definition.readAll (c.knows defs) defs with
    | error f =>
      rw [hread] at h
      cases h
    | ok decls =>
      rw [hread] at h
      injection h with h
      exact ⟨hnames, decls, rfl, h.symm⟩

/-- **Declaring keeps a catalog in order.** -/
theorem Orderly.declare (hc : c.Orderly) (h : c.declare defs = .ok c') : c'.Orderly := by
  obtain ⟨hnames, decls, hread, rfl⟩ := declare_eq h
  obtain ⟨hnodup, hnew⟩ := checkNames_ok hnames
  obtain ⟨hsame, hall⟩ := Definition.readAll_ok hread
  refine ⟨?_, hc.faults, fun d hd => ?_⟩
  · rw [List.map_append, hsame]
    refine hc.names.append hnodup fun name hold hin => ?_
    obtain ⟨d, hd, rfl⟩ := List.mem_map.1 hin
    exact absurd (has_iff.2 hold) (by simp [(hnew d hd).1])
  · rcases List.mem_append.1 hd with hd | hd
    · exact hc.decls d hd
    · obtain ⟨def', -, hdef⟩ := hall d hd
      exact Definition.read_orderly hdef

/-- What was declared before is found after declaring. -/
theorem find?_declare (h : c.declare defs = .ok c') {name : String} {d : Declaration}
    (hd : c.find? name = some d) : c'.find? name = some d := by
  obtain ⟨_, decls, _, rfl⟩ := declare_eq h
  rw [find?, List.find?_append]
  rw [find?] at hd
  rw [hd]
  rfl

/-- Declaring leaves what is free. -/
theorem free_declare (h : c.declare defs = .ok c') : c'.free = c.free := by
  obtain ⟨_, decls, _, rfl⟩ := declare_eq h
  rfl

end Declare

/-- Over the letters of ASCII the standard catalog is declared as it is defined, with the top declaration in
it. -/
theorem standard_declared :
    let _ := Alphabet.ascii
    ({} : Catalog).declare standardDefinitions = .ok standard ∧
      standard.find? objectName = some ⟨objectName, [], []⟩ := by
  decide +kernel

/-- The standard catalog is what declaring its definitions gives. -/
theorem standard_eq :
    let _ := Alphabet.ascii
    ({} : Catalog).declare standardDefinitions = .ok standard := standard_declared.1

namespace Grown

/-- Grown catalogs are in order. -/
theorem orderly (h : c.Grown) : c.Orderly := by
  induction h with
  | standard =>
    let _ := Alphabet.ascii
    have hempty : ({} : Catalog).Orderly := ⟨List.nodup_nil, rfl, by simp⟩
    exact hempty.declare standard_eq
  | declare _ hd ih => exact ih.declare hd

/-- No variable stands outside of the declarations. -/
theorem free_eq (h : c.Grown) : c.free = [] := by
  induction h with
  | standard =>
    let _ := Alphabet.ascii
    exact free_declare standard_eq
  | declare _ hd ih => rw [free_declare hd, ih]

/-- The top declaration is the one of the standard catalog. -/
theorem find?_object (h : c.Grown) : c.find? objectName = some ⟨objectName, [], []⟩ := by
  induction h with
  | standard => exact standard_declared.2
  | declare _ hd ih => exact find?_declare hd ih

end Grown

end Catalog

mutual
/-- A variable that stands in a type by itself stands in it. -/
theorem Ty.mem_vars_of_bareVars {q : TypeVar} :
    ∀ {t : Ty}, q ∈ t.bareVars → Var.declared q ∈ t.vars
  | .prim _, h => by simp [Ty.bareVars] at h
  | .null, h => by simp [Ty.bareVars] at h
  | .nominal _ _ _, h => by simp [Ty.bareVars] at h
  | .array _, h => by simp [Ty.bareVars] at h
  | .var (.captured _), h => by simp [Ty.bareVars] at h
  | .var (.declared v), h => by
    rw [Ty.bareVars, List.mem_singleton] at h
    rw [Ty.vars, h, List.mem_singleton]
  | .inter _ ms, h => by
    rw [Ty.bareVars] at h
    rw [Ty.vars]
    exact Ty.mem_varsAll_of_bareVars h

/-- A variable that stands in types by itself stands in them. -/
theorem Ty.mem_varsAll_of_bareVars {q : TypeVar} :
    ∀ {ts : List Ty}, q ∈ Ty.bareVarsAll ts → Var.declared q ∈ Ty.varsAll ts
  | [], h => by simp [Ty.bareVarsAll] at h
  | t :: ts, h => by
    rw [Ty.bareVarsAll, List.mem_append] at h
    rw [Ty.varsAll, List.mem_append]
    exact h.imp Ty.mem_vars_of_bareVars Ty.mem_varsAll_of_bareVars
end

/-- What a variable in scope means is declared in the scope. -/
theorem Expr.Means.mem {scope : List TypeVar} {v : Var} (h : Expr.Means scope v) :
    ∃ w ∈ scope, v = .declared w := by
  obtain ⟨w, rfl, hw⟩ := h
  exact ⟨w, List.mem_reverse.1 (List.mem_of_find?_eq_some hw), rfl⟩

/-- The bounds and the supertypes that a catalog declares. -/
def Catalog.declaredTypes (c : Catalog) : List Ty :=
  c.decls.flatMap fun d => d.params.map Parameter.upper ++ d.parents.map Nominal.toTy

namespace Declaration

variable {d : Declaration} {c : Catalog}

/-- The parameters of a declaration are under its name. -/
theorem decl_of_mem_vars {v : TypeVar} (hv : v ∈ d.vars) : v.decl = d.name := by
  obtain ⟨i, hi, rfl⟩ := List.mem_mapIdx.1 hv
  rfl

/-- The bound of a parameter is the one that its declaration gives it. -/
theorem upper_eq (hfind : c.find? d.name = some d) {v : TypeVar} (hv : v ∈ d.vars) :
    ∃ p ∈ d.params, c.upper v = p.upper ∧ d.alone.upper v = p.upper := by
  obtain ⟨i, hi, rfl⟩ := List.mem_mapIdx.1 hv
  refine ⟨d.params[i], List.getElem_mem hi, ?_, ?_⟩
  · simp [Catalog.upper, Catalog.bound?, hfind, hi]
  · simp [Catalog.upper, Catalog.bound?, alone, Catalog.find?, hi]

/-- The bound of a parameter is written over the parameters. -/
theorem Orderly.written_upper (h : d.Orderly) (hfind : c.find? d.name = some d) {v : TypeVar}
    (hv : v ∈ d.vars) : Written d.vars (c.upper v) := by
  obtain ⟨p, hp, hupper, _⟩ := upper_eq hfind hv
  exact hupper ▸ h.bounds p hp

/-- Bounds lead from a parameter to the same variables in the declaration alone. -/
theorem alone_bounds (hfind : c.find? d.name = some d) {v w : TypeVar} (hv : v ∈ d.vars) :
    d.alone.Bounds w v ↔ c.Bounds w v := by
  obtain ⟨p, _, hupper, halone⟩ := upper_eq hfind hv
  rw [Catalog.Bounds, Catalog.Bounds, Catalog.boundVars, Catalog.boundVars, hupper, halone]

/-- What a parameter is bounded by is what its name means in the declaration, if bounds are written over
the parameters. -/
theorem means_of_bounds (h : ∀ p ∈ d.params, Written d.vars p.upper) {v w : TypeVar} (hv : v ∈ d.vars)
    (hw : d.alone.Bounds w v) : Expr.Means d.vars (.declared w) := by
  have hfind : d.alone.find? d.name = some ⟨d.name, d.params, []⟩ := by
    simp [alone, Catalog.find?]
  obtain ⟨i, hi, rfl⟩ := List.mem_mapIdx.1 hv
  have hupper : d.alone.upper ⟨d.name, d.params[i].name, .param i⟩ = d.params[i].upper := by
    simp [Catalog.upper, Catalog.bound?, hfind, hi]
  rw [Catalog.Bounds, Catalog.boundVars, hupper] at hw
  exact (h _ (List.getElem_mem hi)).vars _ (Ty.mem_vars_of_bareVars hw)

/-- Bounds written over the parameters lead nowhere else. -/
theorem encloses_of_written (h : ∀ p ∈ d.params, Written d.vars p.upper) :
    d.alone.Encloses d.vars where
  bounds v hv w hw := by
    obtain ⟨w', hw', heq⟩ := (means_of_bounds h hv hw).mem
    cases heq
    exact hw'
  keys v hv w hw v' hv' w' hw' hkey := by
    obtain ⟨x, hx, hfind⟩ := means_of_bounds h hv hw
    obtain ⟨x', hx', hfind'⟩ := means_of_bounds h hv' hw'
    cases hx
    cases hx'
    have hname : w.name = w'.name := by
      simp only [TypeVar.key, VarKey.declared.injEq] at hkey
      exact hkey.2
    rw [hname, hfind'] at hfind
    exact (Option.some.inj hfind).symm
  known v hv w hw := by
    rw [Catalog.boundKeys, List.mem_append, List.mem_flatMap]
    refine .inl ⟨v, ?_, List.mem_map_of_mem hw⟩
    simpa [alone, vars] using hv

/-- The bounds of a declaration in order do not lead out of its parameters. -/
theorem Orderly.encloses (h : d.Orderly) : d.alone.Encloses d.vars := encloses_of_written h.bounds

/-- What a name means is the last parameter that has the key of that parameter. -/
theorem last_of_means {q : TypeVar} (h : Expr.Means d.vars (.declared q)) :
    d.vars.reverse.find? (fun r => r.key == q.key) = some q := by
  obtain ⟨w, hw, hmeans⟩ := h
  cases hw
  -- All parameters have the same declaration, so that a name says as much as a key.
  rw [← hmeans, ← List.head?_filter, ← List.head?_filter]
  congr 1
  refine List.filter_congr fun r hr => ?_
  have hdecl := decl_of_mem_vars (List.mem_reverse.1 hr)
  have hdecl' := decl_of_mem_vars (List.mem_reverse.1 (List.mem_of_find?_eq_some hmeans))
  simp [TypeVar.key, hdecl, hdecl']

/-- **No parameter is bounded by itself**, whatever else is declared. -/
theorem Orderly.not_selfBounded (h : d.Orderly) (hfind : c.find? d.name = some d) {v : TypeVar}
    (hv : v ∈ d.vars) : c.selfBounded v = false := by
  by_contra hself
  rw [Bool.not_eq_false, Catalog.selfBounded] at hself
  obtain ⟨u, hu, w, hw, hkey⟩ := c.climbs_sound hself
  -- the way back leads through bounds of parameters, which are the same in the declaration alone
  have hback : ∀ {w}, Relation.ReflTransGen c.Bounds w u →
      w ∈ d.vars ∧ Relation.TransGen d.alone.Bounds w v := by
    intro w hw
    induction hw using Relation.ReflTransGen.head_induction_on with
    | refl =>
      have hbound := (alone_bounds hfind hv).2 (List.mem_reverse.1 hu)
      exact ⟨h.encloses.bounds v hv u hbound, .single hbound⟩
    | head hstep _ ih =>
      have hbound := (alone_bounds hfind ih.1).2 hstep
      exact ⟨h.encloses.bounds _ ih.1 _ hbound, .head hbound ih.2⟩
  exact h.encloses.key_ne hv (h.ranked v hv) (hback hw).2 hkey

/-- Bounds that are variables come to an end. -/
theorem Orderly.acc (h : d.Orderly) {s : Setting} (hfind : s.catalog.find? d.name = some d)
    {v : TypeVar} (hv : v ∈ d.vars) : Acc s.BareBound v := by
  have hacc : Acc d.alone.Bounds v := h.encloses.acc h.ranked hv
  induction hacc with
  | intro v _ ih =>
    refine ⟨v, fun w hw => ?_⟩
    have hbound : d.alone.Bounds w v := (alone_bounds hfind hv).2 hw.bounds
    exact ih w hbound (h.encloses.bounds v hv w hbound)

end Declaration

namespace Catalog

variable {s : Setting}

/-- What is learnt about a declaration of a grown catalog is what the catalog says. -/
theorem Grown.of_lineage (h : s.catalog.Grown) {decl : String} {l : Lineage}
    (hl : s.lineageOf decl = some l) :
    ∃ d ∈ s.catalog.decls, d.name = decl ∧ s.catalog.find? d.name = some d ∧ l.params = d.vars ∧
      ∀ n ∈ l.parents, n ∈ d.parents ∨ n = .object := by
  unfold Setting.lineageOf at hl
  split at hl
  · next hnone =>
    split at hl
    · next hdecl =>
      rw [hdecl, h.find?_object] at hnone
      cases hnone
    · cases hl
  · next d hfind =>
    have hname : d.name = decl := by simpa using List.find?_some hfind
    split at hl
    · cases hl
    · cases hl
      refine ⟨d, List.mem_of_find?_eq_some hfind, hname, hname ▸ hfind, rfl, fun n hn => ?_⟩
      dsimp only at hn
      split at hn
      · exact .inr (List.mem_singleton.1 hn)
      · exact .inl hn

/-- In a grown catalog the top declaration is plain. -/
theorem Grown.plainObject (h : s.catalog.Grown) : s.PlainObject := by
  have hfault : ∀ part, s.catalog.fault? objectName part = none := by
    intro part
    rw [fault?, h.orderly.faults]
    rfl
  simp [Setting.PlainObject, Setting.lineageOf, h.find?_object, hfault, Declaration.vars]

end Catalog

/-- The catalog was grown, its bounds and supertypes pass the check and mention primitives as
components of arrays only, and every array is below the top declaration. -/
structure Setting.Vetted (s : Setting) : Prop where
  grown : s.catalog.Grown
  accepted : ∀ t ∈ s.catalog.declaredTypes, s.Accepts t
  sparing : ∀ t ∈ s.catalog.declaredTypes, t.sparing = true
  arrays : objectName ∈ s.options.arrayParents

/-- A grown catalog is vetted if its declared types pass the check at some depth. -/
theorem Setting.Vetted.of_within {s : Setting} {n : Nat} (hgrown : s.catalog.Grown)
    (h : ∀ t ∈ s.catalog.declaredTypes, s.acceptsWithin n t = true ∧ t.sparing = true)
    (harrays : objectName ∈ s.options.arrayParents) : s.Vetted :=
  ⟨hgrown, fun t ht => .of_within (h t ht).1, fun t ht => (h t ht).2, harrays⟩

/-- The standard catalog is vetted. -/
theorem Setting.vetted_standard : ({ catalog := .standard } : Setting).Vetted :=
  .of_within (n := 20) .standard (by decide +kernel) (by decide)

/-- **Questions asked over a vetted catalog are regular.** -/
theorem Setting.Vetted.regular {s : Setting} (hv : s.Vetted) : s.Regular .full := by
  have h := hv.grown
  have hc := h.orderly
  have hobject := h.plainObject
  have hreg : ∀ d ∈ s.catalog.decls, ∀ t ∈ d.params.map Parameter.upper ++ d.parents.map Nominal.toTy,
      Written d.vars t → t.Regular s .full := by
    intro d hd t ht hw
    have hmem : t ∈ s.catalog.declaredTypes := List.mem_flatMap.2 ⟨d, hd, ht⟩
    exact (hv.accepted t hmem).regular hw.flat (hv.sparing t hmem)
  refine ⟨hobject, ?_, ?_, fun _ => hv.arrays, ?_, ?_⟩
  · intro decl l hl n hn
    obtain ⟨d, hd, -, hfind, hparams, hparents⟩ := h.of_lineage hl
    rcases hparents n hn with hn | rfl
    · obtain ⟨hw, hwild⟩ := (hc.decls d hd).parents n hn
      refine ⟨hreg d hd _ (List.mem_append_right _ (List.mem_map_of_mem hn)) hw, hwild, ?_⟩
      exact fun v hv => hparams ▸ (hw.vars v hv).mem
    · have hregular : Ty.object.Regular s .full := by
        rw [Ty.object, Ty.Regular]
        exact ⟨⟨_, hobject, .inl rfl⟩, by rw [Arg.RegularAll]; trivial⟩
      exact ⟨hregular, rfl, fun v hv => by cases hv⟩
  · intro decl l hl p hp
    obtain ⟨d, hd, -, hfind, hparams, -⟩ := h.of_lineage hl
    rw [hparams] at hp ⊢
    obtain ⟨q, hq, hupper, -⟩ := Declaration.upper_eq hfind hp
    have hw := (hc.decls d hd).bounds q hq
    rw [hupper]
    refine ⟨hreg d hd _ (List.mem_append_left _ (List.mem_map_of_mem hq)) hw, ?_⟩
    exact fun v hv => (hw.vars v hv).mem
  · intro _ decl l hl p hp
    obtain ⟨d, hd, -, hfind, hparams, -⟩ := h.of_lineage hl
    exact (hc.decls d hd).acc hfind (hparams ▸ hp)
  · intro _ decl l hl p hp q hq
    obtain ⟨d, hd, -, hfind, hparams, -⟩ := h.of_lineage hl
    rw [hparams] at hp ⊢
    have hw := (hc.decls d hd).written_upper hfind hp
    exact Declaration.last_of_means (hw.vars _ (Ty.mem_vars_of_mem_conjuncts hq))

/-- The standard catalog with some definitions in ASCII added, if they can be. -/
def Catalog.extended (defs : List Definition) : Catalog :=
  letI := Alphabet.ascii
  (standard.declare defs).toOption.getD standard

/-- The standard catalog with more definitions is grown. -/
theorem Catalog.grown_extended (defs : List Definition) : (extended defs).Grown := by
  let _ := Alphabet.ascii
  rw [extended]
  cases h : standard.declare defs with
  | error f => exact .standard
  | ok c => exact .declare .standard h

/-- How many declarations stand before the one of a name. -/
def Catalog.position (c : Catalog) (name : String) : Nat := (c.decls.map Declaration.name).idxOf name

/-- Every declaration but the top one stands after those that it inherits from. -/
def Catalog.InOrder (c : Catalog) : Prop :=
  ∀ d ∈ c.decls, d.name ≠ objectName → ∀ parent ∈ objectName :: d.parents.map Nominal.decl,
    c.position parent < c.position d.name

instance (c : Catalog) : Decidable c.InOrder :=
  inferInstanceAs (Decidable (∀ d ∈ c.decls, d.name ≠ objectName →
    ∀ parent ∈ objectName :: d.parents.map Nominal.decl, c.position parent < c.position d.name))

/-- In a catalog in order, direct supertypes stand before what inherits from them. -/
theorem Catalog.Grown.position_lt {s : Setting} (h : s.catalog.Grown) (horder : s.catalog.InOrder)
    {decl parent : String} (hparent : s.Parent decl parent) :
    s.catalog.position parent < s.catalog.position decl := by
  obtain ⟨l, hl, n, hn, rfl⟩ := hparent
  obtain ⟨d, hd, rfl, -, -, hparents⟩ := h.of_lineage hl
  have hname : d.name ≠ objectName := by
    intro hname
    rw [hname, h.plainObject] at hl
    cases hl
    cases hn
  refine horder d hd hname n.decl (List.mem_cons.2 ?_)
  rcases hparents n hn with hn | rfl
  · exact .inr (List.mem_map_of_mem hn)
  · exact .inl rfl

/-- **Inheritance is acyclic** if every declaration stands after those that it inherits from. -/
theorem Catalog.Grown.acyclic {s : Setting} (h : s.catalog.Grown) (horder : s.catalog.InOrder) :
    s.Acyclic := by
  intro decl hcycle
  have hlt : ∀ {e}, Relation.TransGen s.Parent decl e →
      s.catalog.position e < s.catalog.position decl := by
    intro e he
    induction he with
    | single hstep => exact h.position_lt horder hstep
    | tail _ hstep ih => exact Nat.lt_trans (h.position_lt horder hstep) ih
  exact Nat.lt_irrefl _ (hlt hcycle)

/-- Inheritance has no cycle in the standard catalog. -/
theorem Setting.acyclic_standard : ({ catalog := .standard } : Setting).Acyclic :=
  Catalog.Grown.standard.acyclic (by decide +kernel)

end Generics
