/-
# Arguments as fillings

Arguments with which a declaration is well-formed and below a target are a filling that meets the
problem that inferring solves (`Instance.met`). So what is known about searches of problems that are
met says how the arguments that are inferred relate to all others.
-/

import Generics.Proofs.Aptness
import Generics.Proofs.Uniqueness

namespace Generics

/-- A simple type is simple over more unknowns. -/
theorem Ty.Simple.mono {s : Setting} {vars vars' : List TypeVar} {t : Ty} (h : t.Simple s vars)
    (hsub : ∀ v ∈ vars, v ∈ vars') : t.Simple s vars' :=
  ⟨h.regular, fun v hv => (h.known v hv).imp fun _ hw => ⟨hsub _ hw.1, hw.2⟩⟩

/-- What may be asked for may be over more unknowns. -/
theorem Setting.Asked.mono {s : Setting} {vars vars' : List TypeVar} {t : Ty} (h : s.Asked vars t)
    (hsub : ∀ v ∈ vars, v ∈ vars') : s.Asked vars' t := by
  rcases h with h | ⟨n, hn, hopen⟩
  · exact .inl (h.mono hsub)
  · exact .inr ⟨n, hn, fun a ha t ht => (hopen a ha t ht).mono hsub⟩

/-- A comparison affirms that the first type is below the second one, if it may nest deep enough. -/
def Setting.Confirms (s : Setting) (a b : Ty) : Prop :=
  ∃ n m', ((s.withDepth n).below a b).Answers {} true m'

/-- What a comparison of closed types affirms has a derivation. -/
theorem Setting.Confirms.below {s : Setting} {k : Fragment} (hs : s.Regular k) {a b : Ty}
    (h : s.Confirms a b) (ha : a.Closed s k) (hb : b.Closed s k) (Γ : Scope) :
    Below s Γ a.shape b.shape := by
  obtain ⟨n, m', h⟩ := h
  rw [Setting.below_withDepth] at h
  have hdecides := (Setting.decidesWithin hs n).below (Memory.scope {}) _ a b
    (ha.comparable hb _) {} true m' ⟨Memory.faithful_empty s, .refl _, Memory.tame_empty s k⟩ h
  exact (ha.below_iff hs hb _ Γ).1 (hdecides.2.1 rfl)

namespace Inference

open Query Setting

variable {s : Setting} {k : Fragment} {m m' : Memory} {decl : String} {l : Lineage} {target : Ty}

/-- **The problem that inferring solves is simple** for a target without variables. -/
theorem simple_infer (hplain : s.Plain) (hl : s.lineageOf decl = some l) (htarget : s.Asked [] target)
    (site : Site) : (inferProblem s site decl l.params target).Simple s l.params := by
  have hvar : ∀ p ∈ l.params, (Ty.var (.declared p)).Simple s l.params := fun p hp =>
    ⟨fun _ => by rw [Ty.Regular]; trivial, fun v hv => ⟨p, hp, List.mem_singleton.1 hv⟩⟩
  refine ⟨fun c hc => ?_, fun u hu c hc => ?_, fun u hu t ht => ?_⟩
  · rcases List.mem_append.1 hc with hc | hc
    · obtain ⟨p, hp, rfl | rfl⟩ := Problem.pending_start hc
      · refine ⟨hvar p hp, .inl ⟨fun k => hplain.bounds k decl l hl p hp, fun v hv => ?_⟩⟩
        obtain ⟨q, hq, hv⟩ := (hplain.regular.bounds decl l hl p hp).2 v hv
        exact ⟨q, hq, hv⟩
      · exact ⟨hvar p hp, .inl ⟨fun _ => by rw [Ty.Regular]; trivial, fun v hv => by cases hv⟩⟩
    · obtain rfl := List.mem_singleton.1 hc
      refine ⟨⟨fun k => ?_, fun v hv => ?_⟩, ?_⟩
      · rw [Ty.Regular, Arg.regularAll_iff, ownArgs, List.length_map]
        refine ⟨⟨l, hl, .inr rfl⟩, fun a ha => ?_⟩
        obtain ⟨p, hp, rfl⟩ := List.mem_map.1 ha
        exact (hvar p hp).regular k
      · rcases known_own (A := fun _ => False) site decl l.params v hv with ⟨w, rfl, hw⟩ | ⟨_, _, hno⟩
        · exact ⟨w, hw, rfl⟩
        · exact hno.elim
      · refine (htarget.mono (by simp)).imp id fun hopen => ⟨rfl, ?_, hopen⟩
        rintro ⟨v, hv⟩
        cases hv
  · obtain ⟨p, _, rfl⟩ := List.mem_map.1 hu
    cases hc
  · obtain ⟨p, _, rfl⟩ := List.mem_map.1 hu
    cases ht

/-- Closed plain arguments within the bounds of the parameters, with which a declaration is below the
target. -/
structure Instance (s : Setting) (decl : String) (l : Lineage) (target : Ty) (types : List Ty) :
    Prop where
  length : l.params.length = types.length
  regular : ∀ t ∈ types, t.Regular s .plain
  closed : ∀ t ∈ types, t.vars = []
  prims : ∀ t ∈ types, t.isPrim = false
  bounds : s.InBounds l.params types
  below : ∀ Γ, Below s Γ (.nominal .common decl ((types.map Ty.shape).map .type)) target.shape

namespace Instance

variable {types : List Ty}

/-- The arguments of an instance are a filling. -/
theorem filling (h : Instance s decl l target types) :
    Filling s l.params (Subst.zip l.params types).image := by
  have hcloses : Closes s .plain types :=
    ⟨fun t ht => ⟨h.regular t ht, by
      cases t with
      | inter _ _ => cases (h.regular _ ht).1
      | _ => rfl⟩, h.closed, h.prims⟩
  refine ⟨⟨Subst.siteless_image _, fun v => (hcloses.image v).1, fun v => (hcloses.image v).2⟩, ?_, ?_⟩
  · exact fun w hw => (hcloses.image_declared h.length hw).1
  · exact fun w hw => (hcloses.image_declared h.length hw).2

/-- **Such arguments meet the problem that inferring solves.** -/
theorem met (h : Instance s decl l target types) (hnames : (l.params.map TypeVar.name).Nodup)
    (htarget : target.vars = []) (site : Site) (Γ : Scope) :
    (inferProblem s site decl l.params target).Met s Γ (Subst.zip l.params types).image := by
  refine ⟨fun u hu t ht => ?_, fun c hc => ?_, fun u hu c hc => ?_⟩
  · obtain ⟨p, _, rfl⟩ := List.mem_map.1 hu
    cases ht
  · rcases List.mem_append.1 hc with hc | hc
    · obtain ⟨p, hp, rfl | rfl⟩ := Problem.pending_start hc
      · obtain ⟨i, hi, rfl⟩ := List.getElem_of_mem hp
        have hi' : i < types.length := h.length ▸ hi
        have ht : (l.params[i], types[i]) ∈ l.params.zip types :=
          List.mem_iff_getElem.2 ⟨i, by rw [List.length_zip]; omega, List.getElem_zip⟩
        have hbound := h.bounds _ ht Γ
        rw [← Subst.image_of_some (Subst.lookup_zip_of_mem h.length (keys_nodup hnames) ht)] at hbound
        exact hbound
      · exact .null Γ _
    · obtain rfl := List.mem_singleton.1 hc
      have hclosed : target.rebuild (Subst.zip l.params types).image = target.shape :=
        Ty.rebuild_eq_shape fun v hv => by rw [htarget] at hv; cases hv
      change Below s Γ _ _
      rw [rebuild_own, Subst.image_zip h.length (keys_nodup hnames), hclosed]
      exact h.below Γ
  · obtain ⟨p, _, rfl⟩ := List.mem_map.1 hu
    cases hc

/-- The types among types are all of them. -/
theorem types_map (types : List Ty) : (types.map Arg.type).filterMap Arg.type? = types := by
  induction types with
  | nil => rfl
  | cons t types ih => rw [List.map_cons, List.filterMap_cons_some (by rfl), ih]

/-- Arguments with which the declaration is accepted, and affirmed to be below the target. -/
theorem of_confirms (hs : s.Regular k) (hplain : s.Regular .plain) {n : Nominal}
    (hl : s.lineageOf n.decl = some l) (hlen : n.args.length = l.params.length)
    (hreg : ∀ k, n.toTy.Regular s k) (hvars : n.toTy.vars = []) (haccepts : s.Accepts n.toTy)
    (hconfirms : s.Confirms n.toTy target) (htarget : target.Closed s k) :
    Instance s n.decl l target (n.args.filterMap Arg.type?) := by
  have hnowild := Ty.Regular.not_wild (hreg .plain)
  have hargs : ∀ k, ∀ t ∈ n.args.filterMap Arg.type?, t.Regular s k := by
    intro k t ht
    have hk := hreg k
    rw [Nominal.toTy, Ty.Regular, Arg.regularAll_iff] at hk
    exact hk.2 _ (mem_types ht)
  refine ⟨by rw [length_types hnowild, hlen], hargs .plain,
    fun t ht => vars_of_parts hvars (mem_types ht) List.mem_cons_self,
    fun t ht => (hargs .full t ht).not_prim, ?_, fun Γ => ?_⟩
  · obtain ⟨depth, m', hcheck⟩ := haccepts
    have hapt := Ty.Apt.of_check hplain (Memory.faithful_empty s) (hreg .plain) hvars hcheck
    rw [Nominal.toTy, Ty.Apt] at hapt
    obtain ⟨_, l', hl', _, hnil | ⟨_, hbounds⟩⟩ := hapt
    · rw [hnil]
      intro x hx
      rw [List.filterMap_nil, List.zip_nil_right] at hx
      cases hx
    · rw [hl, Option.some.injEq] at hl'
      rwa [← hl'] at hbounds
  · have hbelow := hconfirms.below hs ⟨.inr (hreg k), hvars⟩ htarget Γ
    rw [Nominal.toTy, Ty.shape_nominal, ← Arg.map_types hnowild, List.map_map] at hbelow
    rw [List.map_map]
    exact hbelow

end Instance

end Inference
end Generics
