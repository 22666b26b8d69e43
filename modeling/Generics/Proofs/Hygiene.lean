/-
# The names of parameters

The parameters of a declaration get other names, in its parameter list, in its bounds and in its
supertypes (`Catalog.renaming`). If nothing else mentions them, the catalog gets these names throughout
(`Setting.renaming_eq_rename`), and an inference takes the same turns over both (`infer_mirrors`).

That the result is the same, and not only the same up to the names, needs that it mentions no variable
with another name. Unknowns are solved by types that mention none of them. And a name that is mentioned
neither in what is asked nor in what is remembered is not mentioned in the result: it could be exchanged
for any other such name, and the inference would be the same (`not_mem_inferred`).

So the names do not matter unless the target mentions the parameters of the declaration (`hygienic`). If
it does, they do (`hygiene_refuted`): the unknowns are the parameters themselves, and what the target
mentions is taken for an unknown.
-/

import Generics.Proofs.Catalogs
import Generics.Proofs.Discipline
import Generics.Proofs.Inferring
import Generics.Proofs.Namesakes

namespace Generics

/-- Other names for the variables of one declaration. -/
def Renaming.within (decl : String) {τ : String → String} (hτ : Function.Injective τ) : Renaming where
  name d n := if d = decl then τ n else n
  injective d := by
    by_cases hd : d = decl
    · simpa only [if_pos hd] using hτ
    · intro a b h
      simpa only [if_neg hd] using h

section Within

variable {decl d : String} {τ : String → String} {hτ : Function.Injective τ}

/-- Within its declaration a parameter gets its other name. -/
theorem Renaming.within_of_eq (h : d = decl) (n : String) : (Renaming.within decl hτ).name d n = τ n :=
  if_pos h

/-- In other declarations parameters keep their names. -/
theorem Renaming.within_of_ne (h : d ≠ decl) (n : String) : (Renaming.within decl hτ).name d n = n :=
  if_neg h

/-- Other names for parameters leave numbers. -/
theorem Renaming.number_within : (Renaming.within decl hτ).number = id := lift_zero 0

end Within

/-- The catalog in which the parameters of one declaration have other names, in its parameter list, its
bounds and its supertypes. -/
def Catalog.renaming (C : Catalog) (decl : String) (ρ : Renaming) : Catalog :=
  { C with decls := C.decls.map fun d => if d.name = decl then d.rename ρ else d }

/-- The setting with other names for the parameters of one declaration. -/
def Setting.renaming (s : Setting) (decl : String) (ρ : Renaming) : Setting :=
  { s with catalog := s.catalog.renaming decl ρ }

/-- The bounds and supertypes of a declaration. -/
def Declaration.types (d : Declaration) : List Ty :=
  d.params.map Parameter.upper ++ d.parents.map Nominal.toTy

/-- Names are declared once, bounds and supertypes mention no variables but the parameters of their own
declaration, and variables outside of declarations are not bounded by the parameters of this one. -/
structure Catalog.Scoped (C : Catalog) (decl : String) : Prop where
  names : (C.decls.map Declaration.name).Nodup
  own : ∀ d ∈ C.decls, ∀ t ∈ d.types, ∀ v, .declared v ∈ t.vars → v ∈ d.vars
  free : ∀ t ∈ C.free, ∀ v, .declared v ∈ t.vars → v.decl ≠ decl

/-- The variables in the bounds of the captured variables. -/
def Memory.vars (m : Memory) : List Var := m.captured.flatMap fun x => x.upper.vars ++ x.lower.vars

/-- A variable of a declaration is one of its parameters. -/
theorem Declaration.mem_vars {d : Declaration} {v : TypeVar} (h : v ∈ d.vars) :
    v.decl = d.name ∧ v.name ∈ d.params.map Parameter.name := by
  obtain ⟨i, hi, rfl⟩ := List.mem_mapIdx.1 h
  exact ⟨rfl, List.mem_map.2 ⟨_, List.getElem_mem hi, rfl⟩⟩

/-- A grown catalog is scoped. -/
theorem Catalog.Grown.scoped {C : Catalog} (h : C.Grown) (decl : String) : C.Scoped decl where
  names := h.orderly.names
  own d hd t ht v hv := by
    have hwritten : Expr.Written d.vars t := by
      rcases List.mem_append.1 ht with ht | ht
      · obtain ⟨p, hp, rfl⟩ := List.mem_map.1 ht
        exact (h.orderly.decls d hd).bounds p hp
      · obtain ⟨n, hn, rfl⟩ := List.mem_map.1 ht
        exact ((h.orderly.decls d hd).parents n hn).1
    obtain ⟨w, hmem, hw⟩ := (hwritten.vars _ hv).mem
    cases hw
    exact hmem
  free t ht := by
    rw [h.free_eq] at ht
    cases ht

section Within

variable {decl : String} {τ : String → String} {hτ : Function.Injective τ}

/-- A variable whose name stays is the same one. -/
theorem TypeVar.rename_within {v : TypeVar} (h : v.decl = decl → τ v.name = v.name) :
    v.rename (.within decl hτ) = v := by
  by_cases hv : v.decl = decl
  · rw [rename, Renaming.within_of_eq hv, h hv]
  · rw [rename, Renaming.within_of_ne hv]

/-- A type that mentions no name that changes stays as it is. -/
theorem Ty.rename_within {t : Ty} (h : ∀ v, .declared v ∈ t.vars → v.decl = decl → τ v.name = v.name) :
    t.rename (.within decl hτ) = t := by
  rw [Ty.rename_eq_renumber fun v hv => TypeVar.rename_within (h v hv), Renaming.number_within, Ty.renumber_id]

/-- An applied declaration that mentions no name that changes stays as it is. -/
theorem Nominal.rename_within {n : Nominal}
    (h : ∀ v, .declared v ∈ n.toTy.vars → v.decl = decl → τ v.name = v.name) :
    n.rename (.within decl hτ) = n := by
  rw [Nominal.rename_eq_renumber fun v hv => TypeVar.rename_within (h v hv), Renaming.number_within]
  exact Nominal.renumber_eq_self fun _ _ => rfl

/-- A declaration in which the names of its own variables stay, and which mentions no other variables. -/
theorem Declaration.rename_within {d : Declaration}
    (hown : ∀ t ∈ d.types, ∀ v, .declared v ∈ t.vars → v ∈ d.vars)
    (hnames : d.name = decl → ∀ p ∈ d.params, τ p.name = p.name) : d.rename (.within decl hτ) = d := by
  have hvars : ∀ t ∈ d.types, ∀ v, .declared v ∈ t.vars → v.decl = decl → τ v.name = v.name := by
    intro t ht v hv hdecl
    obtain ⟨hname, hmem⟩ := d.mem_vars (hown t ht v hv)
    obtain ⟨p, hp, hpname⟩ := List.mem_map.1 hmem
    rw [← hpname]
    exact hnames (hname.symm.trans hdecl) p hp
  refine Declaration.rename_eq_self (fun p hp => ?_) (fun p hp => ?_) fun n hn => ?_
  · by_cases hd : d.name = decl
    · rw [Renaming.within_of_eq hd, hnames hd p hp]
    · rw [Renaming.within_of_ne hd]
  · exact Ty.rename_within (hvars _ (List.mem_append_left _ (List.mem_map_of_mem hp)))
  · exact Nominal.rename_within (hvars _ (List.mem_append_right _ (List.mem_map_of_mem hn)))

variable {s : Setting} (hs : s.catalog.Scoped decl)
include hs

/-- What stands outside of declarations stays as it is. -/
theorem Catalog.Scoped.free_rename : s.catalog.free.map (Ty.rename (.within decl hτ)) = s.catalog.free :=
  map_eq_self fun t ht => Ty.rename_within fun v hv hdecl => absurd hdecl (hs.free t ht v hv)

/-- **Where the parameters of a declaration get other names, the whole catalog does**, since nothing else
mentions them. -/
theorem Setting.renaming_eq_rename : s.renaming decl (.within decl hτ) = s.rename (.within decl hτ) := by
  have hdecls : (s.catalog.decls.map fun d => if d.name = decl then d.rename (.within decl hτ) else d) =
      s.catalog.decls.map (Declaration.rename (.within decl hτ)) := by
    refine List.map_congr_left fun d hd => ?_
    split
    · rfl
    · next hname => exact (Declaration.rename_within (hs.own d hd) fun h => absurd h hname).symm
  rw [Setting.renaming, Setting.rename, Catalog.renaming, Catalog.rename, hdecls, hs.free_rename]

/-- Where no name changes the setting stays as it is. -/
theorem Setting.rename_within
    (hnames : ∀ d ∈ s.catalog.decls, d.name = decl → ∀ p ∈ d.params, τ p.name = p.name) :
    s.rename (.within decl hτ) = s :=
  Setting.rename_eq_self
    (fun d hd => Declaration.rename_within (hs.own d hd) (hnames d hd))
    fun t ht => Ty.rename_within fun v hv hdecl => absurd hdecl (hs.free t ht v hv)

end Within

/-- Lineages are found under the same names after renaming. -/
theorem Setting.lineageOf_rename (s : Setting) (ρ : Renaming) (decl : String) :
    (s.rename ρ).lineageOf decl = (s.lineageOf decl).map (Lineage.rename ρ) := by
  have hfind : (s.rename ρ).catalog.find? decl = (s.catalog.find? decl).map (Declaration.rename ρ) :=
    Catalog.find?_rename decl
  have hfault : ∀ part, (s.rename ρ).catalog.fault? decl part = s.catalog.fault? decl part :=
    fun _ => rfl
  rw [lineageOf, lineageOf, hfind, hfault, hfault]
  cases s.catalog.find? decl with
  | none =>
    dsimp only [Option.map_none]
    split <;> rfl
  | some d =>
    have hempty : (d.rename ρ).parents.isEmpty = d.parents.isEmpty := by simp [Declaration.rename]
    dsimp only [Option.map_some]
    rw [hempty, Declaration.vars_rename]
    split
    · rfl
    · split <;> rfl

/-- The parameters of a lineage are those of the declaration. -/
theorem Setting.params_of_lineageOf {s : Setting} (hnames : (s.catalog.decls.map Declaration.name).Nodup)
    {d : Declaration} (hd : d ∈ s.catalog.decls) {l : Lineage} (hl : s.lineageOf d.name = some l) :
    l.params = d.vars := by
  rw [lineageOf, Catalog.find?_of_nodup hnames hd] at hl
  dsimp only at hl
  split at hl
  · cases hl
  · cases hl
    rfl

/-- What is remembered of a catalog stays with it. -/
theorem Memory.Faithful.rename_within {s : Setting} {m : Memory} (hm : m.Faithful s) {decl : String}
    {τ : String → String} {hτ : Function.Injective τ} (hs : s.rename (.within decl hτ) = s)
    (hvars : ∀ v, .declared v ∈ m.vars → v.decl = decl → τ v.name = v.name) :
    m.rename (.within decl hτ) = m := by
  have hknown : ∀ l ∈ m.known, l.rename (.within decl hτ) = l := by
    intro l hl
    have hlineage := hm.1 l hl
    rw [← hs, Setting.lineageOf_rename, hm.1 l hl] at hlineage
    exact Option.some.inj hlineage
  have hroutes : ∀ r ∈ m.routes, r.rename (.within decl hτ) = r := by
    intro r hr
    have hseek := (Setting.seek?_mirrors (s := { catalog := s.catalog }) (ρ := .within decl hτ)
      r.decl r.ancestor {} (Nat.le_refl 0)).2.2
    have hcatalog : Setting.rename (.within decl hτ) { catalog := s.catalog } =
        { catalog := s.catalog } := by
      rw [Setting.rename, show s.catalog.rename (.within decl hτ) = s.catalog from
        congrArg Setting.catalog hs]
    have hempty : Memory.rename (.within decl hτ) {} = {} := rfl
    rw [hcatalog, hempty, hm.2 r hr] at hseek
    have hparent : r.parent.map (Nominal.rename (.within decl hτ)) = r.parent := by
      cases hseek with
      | ok h => exact h.symm
    rw [Route.rename, hparent]
  have hcaptured : ∀ x ∈ m.captured, x.rename (.within decl hτ) = x := by
    intro x hx
    have hx : ∀ v, .declared v ∈ x.upper.vars ++ x.lower.vars → v.decl = decl → τ v.name = v.name :=
      fun v hv => hvars v (List.mem_flatMap.2 ⟨x, hx, hv⟩)
    refine Captured.rename_eq_self (congrFun Renaming.number_within x.id) ?_ ?_
    · exact Ty.rename_within fun v hv => hx v (List.mem_append_left _ hv)
    · exact Ty.rename_within fun v hv => hx v (List.mem_append_right _ hv)
  simp only [Memory.rename, map_eq_self hknown, map_eq_self hroutes, map_eq_self hcaptured]
  rfl

namespace Inference

open Query

variable {s : Setting} {m m' : Memory} {target : Ty} {decl goal : String} {i : Inferred}

/-- What other names leave as it is, an inference leaves so too. -/
theorem Inferred.rename_eq_self {ρ : Renaming} (hs : s.rename ρ = s) (hm : m.rename ρ = m)
    (hlast : ρ.after ≤ m.lastCaptured) (ht : target.rename ρ = target)
    (h : (infer s target goal).Answers m i m') : i.rename ρ = i := by
  have hmirrors := (infer_mirrors (s := s) (ρ := ρ) target goal m hlast).2.2
  rw [hs, hm, ht, show (infer s target goal).outcome m = (.ok i, m') from h] at hmirrors
  cases hmirrors with
  | ok h => exact h.symm

/-- **A variable that is mentioned nowhere is not mentioned in the result.** -/
theorem not_mem_inferred (hs : s.catalog.Scoped decl) (hm : m.Faithful s) {name : String}
    (hparams : ∀ d ∈ s.catalog.decls, d.name = decl → name ∉ d.params.map Parameter.name)
    (hvars : ∀ v, .declared v ∈ target.vars ++ m.vars → v.decl = decl → v.name ≠ name)
    (h : (infer s target goal).Answers m i m') {v : TypeVar} (hdecl : v.decl = decl)
    (hname : v.name = name) : .declared v ∉ i.result.toTy.vars := by
  intro hv
  -- a name that is not even mentioned in the result takes the place of the name
  obtain ⟨other, hother⟩ := Infinite.exists_notMem_finset
    (s.catalog.decls.flatMap (fun d => d.params.map Parameter.name) ++
      (target.vars ++ m.vars ++ i.result.toTy.vars).map Var.name).toFinset
  rw [List.mem_toFinset, List.mem_append, not_or] at hother
  obtain ⟨hunnamed, hunmentioned⟩ := hother
  let ρ : Renaming := .within decl (Equiv.swap name other).injective
  have hstay : ∀ w, .declared w ∈ target.vars ++ m.vars → w.decl = decl →
      Equiv.swap name other w.name = w.name := by
    refine fun w hw hwdecl => Equiv.swap_apply_of_ne_of_ne (hvars w hw hwdecl) fun heq => ?_
    exact hunmentioned (List.mem_map.2 ⟨_, List.mem_append_left _ hw, heq⟩)
  have hsetting : s.rename ρ = s := by
    refine Setting.rename_within hs fun d hd hd' p hp => Equiv.swap_apply_of_ne_of_ne ?_ ?_
    · rintro rfl
      exact hparams d hd hd' (List.mem_map_of_mem hp)
    · rintro rfl
      exact hunnamed (List.mem_flatMap.2 ⟨d, hd, List.mem_map_of_mem hp⟩)
  have hmemory : m.rename ρ = m :=
    hm.rename_within hsetting fun w hw => hstay w (List.mem_append_right _ hw)
  have htarget : target.rename ρ = target :=
    Ty.rename_within fun w hw => hstay w (List.mem_append_left _ hw)
  have hresult : i.result.rename ρ = i.result :=
    congrArg Inferred.result (Inferred.rename_eq_self hsetting hmemory (Nat.zero_le _) htarget h)
  have hrenamed : .declared (v.rename ρ) ∈ i.result.toTy.vars := by
    rw [← hresult, Nominal.toTy_rename, Ty.vars_rename]
    exact List.mem_map_of_mem hv
  have hv' : (v.rename ρ).name = other := by
    rw [TypeVar.rename, Renaming.within_of_eq hdecl, hname, Equiv.swap_apply_left]
  exact hunmentioned (List.mem_map.2 ⟨_, List.mem_append_right _ hrenamed, hv'⟩)

/-- No parameter of the declaration is mentioned in the result. -/
theorem param_not_mem_inferred (hs : s.catalog.Scoped decl) (hm : m.Faithful s)
    (h : (infer s target decl).Answers m i m') {d : Declaration} (hd : d ∈ s.catalog.decls)
    (hname : d.name = decl) {v : TypeVar} (hdecl : v.decl = decl)
    (hv : v.name ∈ d.params.map Parameter.name) : .declared v ∉ i.result.toTy.vars := by
  intro hmem
  obtain ⟨rfl, l, types, hc⟩ := infer_answers hm h
  obtain ⟨site, m₁, m₂, o, -, hsearch, htypes, -, -⟩ := hc.found
  obtain ⟨t, ht, hvt⟩ : ∃ t ∈ types, .declared v ∈ t.vars := by
    rw [Nominal.toTy, Ty.vars, Arg.mem_varsAll, hc.args] at hmem
    obtain ⟨a, ha, hva⟩ := hmem
    obtain ⟨t, ht, rfl⟩ := List.mem_map.1 ha
    exact ⟨t, ht, hva⟩
  obtain ⟨w, hw, hkey⟩ : ∃ w ∈ l.params, w.key = v.key := by
    obtain ⟨p, hp, hpv⟩ := List.mem_map.1 hv
    obtain ⟨j, hj, rfl⟩ := List.getElem_of_mem hp
    refine ⟨⟨d.name, d.params[j].name, .param j⟩, ?_, ?_⟩
    · rw [Setting.params_of_lineageOf hs.names hd (hname ▸ hc.lineage)]
      exact List.mem_mapIdx.2 ⟨j, hj, rfl⟩
    · rw [TypeVar.key, TypeVar.key, hpv, hname, hdecl]
  have hment := (search_proper s (Problem.Kept.start s l.params _) _ _ _ hsearch types htypes t ht).2
  rw [mentionsAny, List.any_eq_false] at hment
  exact hment _ hvt (List.any_eq_true.2 ⟨w, hw, by rw [hkey]; exact beq_self_eq_true _⟩)

/-- Every variable in a result keeps its name, if the variables of the target and of the bounds in memory
do. -/
theorem inferred_rename_within (hs : s.catalog.Scoped decl) (hm : m.Faithful s) {τ : String → String}
    {hτ : Function.Injective τ}
    (hvars : ∀ v, .declared v ∈ target.vars ++ m.vars → v.decl = decl → τ v.name = v.name)
    (h : (infer s target decl).Answers m i m') :
    i.result.rename (.within decl hτ) = i.result := by
  refine Nominal.rename_within fun v hv hdecl => ?_
  by_contra hmoved
  -- a variable that gets another name is either a parameter or mentioned nowhere
  refine not_mem_inferred hs hm (fun d hd hname hparam => ?_) (fun w hw hwdecl hwname => ?_) h hdecl rfl hv
  · exact param_not_mem_inferred hs hm h hd hname hdecl hparam hv
  · exact hmoved (hwname ▸ hvars w hw hwdecl)

/-- **The names of parameters do not matter** for a target that does not mention them. Let a declaration
get other names for its parameters, in its parameter list, its bounds and its supertypes, where names that
are exchanged are mentioned as variables of the declaration neither in the target nor in the bounds of
captured variables. Then an inference fails over both catalogs with failures of one kind, or it succeeds
over both with the same result, the same verdict and the same effort. -/
theorem hygienic (hs : s.catalog.Scoped decl) (hm : m.Faithful s) {τ : String → String}
    (hτ : Function.Injective τ)
    (hvars : ∀ v, .declared v ∈ target.vars ++ m.vars → v.decl = decl → τ v.name = v.name) :
    Corresponds (fun i i' => i'.result = i.result ∧ i'.unique = i.unique ∧ i'.effort = i.effort)
      ((infer s target decl).outcome m).1
      ((infer (s.renaming decl (.within decl hτ)) target decl).outcome
        (m.rename (.within decl hτ))).1 := by
  have htarget : target.rename (.within decl hτ) = target :=
    Ty.rename_within fun v hv => hvars v (List.mem_append_left _ hv)
  have hmirrors := (infer_mirrors (s := s) (ρ := .within decl hτ) target decl m (Nat.zero_le _)).2.2
  rw [htarget, ← Setting.renaming_eq_rename hs] at hmirrors
  generalize hfirst : (infer s target decl).outcome m = first at hmirrors ⊢
  obtain ⟨r, m'⟩ := first
  generalize ((infer (s.renaming decl (.within decl hτ)) target decl).outcome _).1 = r' at hmirrors ⊢
  cases hmirrors with
  | error h => exact .error h
  | ok h =>
    subst h
    exact .ok ⟨inferred_rename_within hs hm hvars hfirst, rfl, rfl⟩

/-- `List<ArrayList<? extends E>>`, where `E` is the parameter of `Collection`. -/
def elements : Ty := .nominal ⟨.given 0, [0]⟩ "List" [.type (.nominal ⟨.given 0, [5]⟩ "ArrayList"
  [.wild (.var (.declared ⟨"Collection", "E", .param 0⟩)) .null])]

/-- The parameter of `ArrayList` may be called `F`: the result for a target that mentions the parameter of
another declaration is the same. -/
theorem hygienic_elements :
    let s : Setting := { catalog := .standard }
    let s' := s.renaming "ArrayList" (.within "ArrayList" (Equiv.swap "E" "F").injective)
    s'.catalog.varsOf "ArrayList" = [⟨"ArrayList", "F", .param 0⟩] ∧
      ∃ i m' i' m'', (infer s elements "ArrayList").Answers {} i m' ∧ i.unique = true ∧
        (infer s' elements "ArrayList").Answers {} i' m'' ∧ i'.result = i.result ∧ i'.unique = true := by
  intro s s'
  have hall : s'.catalog.varsOf "ArrayList" = [⟨"ArrayList", "F", .param 0⟩] ∧
      ((infer s elements "ArrayList").outcome {}).1.map Inferred.unique = .ok true := by decide +kernel
  refine ⟨hall.1, ?_⟩
  obtain ⟨i, m', hinfer, hunique⟩ := exists_answers hall.2
  have hothers : ∀ v, .declared v ∈ elements.vars ++ ({} : Memory).vars → v.decl = "ArrayList" →
      Equiv.swap "E" "F" v.name = v.name := by
    intro v hv hdecl
    have hvars : elements.vars ++ ({} : Memory).vars =
        [.declared ⟨"Collection", "E", .param 0⟩] := by decide +kernel
    rw [hvars, List.mem_singleton] at hv
    cases hv
    exact absurd hdecl (by decide)
  have hsame := hygienic (s := s) (Catalog.Grown.standard.scoped "ArrayList") (Memory.faithful_empty s)
    (Equiv.swap "E" "F").injective hothers
  rw [show (infer s elements "ArrayList").outcome {} = (.ok i, m') from hinfer] at hsame
  generalize hrun : (infer (s.renaming "ArrayList" _) elements "ArrayList").outcome _ = r at hsame
  obtain ⟨r, m''⟩ := r
  cases hsame with
  | @ok _ i' h => exact ⟨i, m', i', m'', hinfer, hunique, hrun, h.1, h.2.1.trans hunique⟩

/-- If the target mentions the parameter `E` of `ArrayList` itself, it is taken for the unknown: for
`List<E>` the result is `ArrayList<Object>`, one of several. Where the parameter is called `F`, it is
`ArrayList<E>`, and no other one is possible. -/
theorem hygiene_refuted :
    let s : Setting := { catalog := .standard }
    let s' := s.renaming "ArrayList" (.within "ArrayList" (Equiv.swap "E" "F").injective)
    let own : Ty := .var (.declared ⟨"ArrayList", "E", .param 0⟩)
    let target : Ty := .nominal ⟨.given 0, [0]⟩ "List" [.type own]
    ((infer s target "ArrayList").outcome {}).1.map (fun i => (i.result.args, i.unique)) =
        .ok ([.type .object], false) ∧
      ((infer s' target "ArrayList").outcome {}).1.map (fun i => (i.result.args, i.unique)) =
        .ok ([.type own], true) := by
  decide +kernel

end Inference
end Generics
