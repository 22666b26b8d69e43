/-
# Where solutions come from

A search takes types apart, sees them as their ancestors and puts solutions in the place of unknowns.
A property of types is `Setting.Stable` if it is handed on that way. If it holds of all types that stand in a
simple problem at the start, it holds of what stands in every later one (`Problem.All`), and so of the
solutions (`searchWithin_all`).

Stability is asked for with regard to the solutions that the search ends with. The solutions on the way
are among those (`Problem.Solved.agrees`), so a property may speak of a type with all solutions put in,
long before they are known.
-/

import Generics.Proofs.Instances

namespace Generics

/-- What a search makes of types with the property has the property. The search is for the given unknowns
and ends with the solutions `σ`. -/
structure Setting.Stable (s : Setting) (vars : List TypeVar) (σ : Var → Ty) (T : Ty → Prop) : Prop where
  shape {t u : Ty} : t.shape = u.shape → T t → T u
  unknown {w : TypeVar} : w ∈ vars → T (.var (.declared w))
  parts {site : Site} {decl : String} {args : List Arg} : T (.nominal site decl args) →
    ∀ a ∈ args, ∀ t ∈ a.parts, T t
  seen {n : Nominal} {ancestor : String} {found : List Arg} : T n.toTy → n.toTy.Simple s vars →
    s.SeenAs ancestor n.decl (n.args.map Arg.shape) found → ∀ t, Arg.type t ∈ found → T t
  component {t : Ty} : T (.array t) → T t
  put {t : Ty} {τ : Subst} : T t → τ.Agrees (· ∈ vars) σ →
    (∀ v u, τ.lookup v = some u → T u ∧ u.Simple s []) → T (t.rebuild τ.image)

/-- **Solutions that are put into a type keep the property**, if they have it and are simple. -/
theorem Setting.Stable.replaced {s : Setting} {vars : List TypeVar} {σ : Var → Ty} {T : Ty → Prop}
    (hT : s.Stable vars σ T) {τ : Subst} {t t' : Ty} (h : Ty.Replaced τ t t') (ht : T t)
    (hτ : τ.Agrees (· ∈ vars) σ) (hput : ∀ v u, τ.lookup v = some u → T u ∧ u.Simple s []) : T t' :=
  hT.shape ((Ty.shape_rebuild (Subst.siteless_image τ) t).trans h.shape.symm) (hT.put ht hτ hput)

namespace Inference

open Query

variable {s : Setting} {k : Fragment} {vars : List TypeVar} {σ : Var → Ty} {T : Ty → Prop}
  {m m' : Memory} {μ : Marks}

/-- All types that stand in the problem have the property. -/
structure Problem.All (T : Ty → Prop) (p : Problem) : Prop where
  pending : ∀ c ∈ p.pending, T c.lhs ∧ T c.rhs
  filed : ∀ u ∈ p.unknowns, ∀ c ∈ u.filed, T c.rhs
  solved : ∀ u ∈ p.unknowns, ∀ t, u.solution = some t → T t

/-! ### Reducing -/

/-- What arguments are asked to be is asked of their parts. -/
theorem Claim.all_ofArgs {as bs : List Arg} (has : ∀ a ∈ as, ∀ t ∈ a.parts, T t)
    (hbs : ∀ b ∈ bs, ∀ t ∈ b.parts, T t) : ∀ c ∈ Claim.ofArgs as bs, T c.lhs ∧ T c.rhs := by
  intro c hc
  obtain ⟨a, ha, b, hb, ⟨hl, hr⟩ | ⟨hl, hr⟩⟩ := Claim.mem_ofArgs hc
  · exact ⟨has a ha _ hl, hbs b hb _ hr⟩
  · exact ⟨hbs b hb _ hl, has a ha _ hr⟩

/-- **What a comparison asks for is asked of types with the property.** -/
theorem splits_all (hplain : s.Plain) (hT : s.Stable vars σ T) {a b : Ty} (ha : a.Simple s vars)
    (hb : s.Asked vars b) (hTa : T a) (hTb : T b) {cs : List Claim}
    (h : s.Splits k m m' a b (.all cs)) : ∀ c ∈ cs, T c.lhs ∧ T c.rhs := by
  cases h with
  | @meets x y found hmeets =>
    refine Claim.all_ofArgs (fun c hc u hu => ?_) (hT.parts hTb)
    obtain ⟨t, rfl, _⟩ := hmeets.simple hplain ha c hc
    obtain rfl := List.mem_singleton.1 hu
    have hseen := hmeets.seen_plain (ha.regular .plain)
    exact hT.shape (Ty.shape_shape u) (hT.seen hTa ha hseen u.shape (List.mem_map_of_mem hc))
  | always _ _ _ => exact fun c hc => absurd hc List.not_mem_nil
  | breaks _ hbreaks =>
    rcases hbreaks.simple ha hb with ⟨hnever, _⟩ | hnil | ⟨x, y, rfl, rfl, _, _, hone⟩
    · cases hnever
    · cases hnil
      exact fun c hc => absurd hc List.not_mem_nil
    · cases hone
      intro c hc
      rw [List.mem_singleton] at hc
      subst hc
      exact ⟨hT.component hTa, hT.component hTb⟩

/-- What a claim is reduced to is on types with the property. -/
theorem resolves_all (hplain : s.Plain) (hT : s.Stable vars σ T) {c : Claim} (hc : c.Simple s vars)
    (hall : T c.lhs ∧ T c.rhs) {cs : List Claim} (h : s.Resolves k m m' c (.all cs)) :
    ∀ d ∈ cs, T d.lhs ∧ T d.rhs := by
  cases h with
  | below h => exact splits_all hplain hT hc.lhs hc.asked hall.1 hall.2 h
  | above h => exact splits_all hplain hT (hc.rhs_of_rel (by simp)) (.inl hc.lhs) hall.2 hall.1 h
  | equal _ h =>
    cases h with
    | args _ _ _ => exact Claim.all_ofArgs (hT.parts hall.1) (hT.parts hall.2)
    | ways =>
      intro d hd
      rw [List.mem_cons, List.mem_singleton] at hd
      rcases hd with rfl | rfl <;> exact hall

namespace Problem

variable {p p' : Problem} {c c' : Constraint} {rest : List Constraint}

/-- What takes the place of unknowns has the property. -/
theorem All.solutions (hall : p.All T) (hsimple : p.Simple s vars) (cond : Unknown → Bool) :
    ∀ v u, (p.solutionsWhere cond).lookup v = some u → T u ∧ u.Simple s [] := by
  intro v t hlook
  obtain ⟨u, hu, _, ht, _⟩ := lookup_solutionsWhere hlook
  exact ⟨hall.solved u hu t ht, hsimple.solved u hu t ht⟩

/-- Replacing unknowns by solutions leaves types with the property. -/
theorem All.becomes (hT : s.Stable vars σ T) (hall : p.All T) (hp : p.Tidy s k vars μ)
    (hsimple : p.Simple s vars) (hagree : p.Agrees σ) {cond : Unknown → Bool}
    (h : c.Becomes (p.solutionsWhere cond) c') (hc : T c.lhs ∧ T c.rhs) : T c'.lhs ∧ T c'.rhs :=
  ⟨hT.replaced h.lhs hc.1 (hp.agrees hagree _) (hall.solutions hsimple cond),
    hT.replaced h.rhs hc.2 (hp.agrees hagree _) (hall.solutions hsimple cond)⟩

/-- A filed constraint is on types with the property. -/
theorem All.of_filed (hT : s.Stable vars σ T) (hall : p.All T) (hp : p.Tidy s k vars μ) {u : Unknown}
    (hu : u ∈ p.unknowns) (hc : c ∈ u.filed) : T c.lhs ∧ T c.rhs := by
  refine ⟨?_, hall.filed u hu c hc⟩
  rw [((hp.unknowns u hu).fits c hc).lhs]
  exact hT.unknown (hp.mem_vars hu)

/-- **Reducing the oldest constraint leaves types with the property.** -/
theorem Moves.all (hplain : s.Plain) (hT : s.Stable vars σ T) (hall : p.All T)
    (hpend : p.pending = c' :: rest) (hc : c.toClaim.Simple s vars) (hTc : T c.lhs ∧ T c.rhs)
    (h : p.Moves s k m m' c rest (.further p')) : p'.All T := by
  have hrest : ∀ d ∈ rest, T d.lhs ∧ T d.rhs := fun d hd =>
    hall.pending d (by rw [hpend]; exact List.mem_cons_of_mem _ hd)
  cases h with
  | dropped _ _ _ _ _ => exact ⟨hrest, hall.filed, hall.solved⟩
  | @filed d pre post u hd hus _ =>
    have hrhs : T d.rhs := by
      rcases hd with rfl | rfl
      · exact hTc.2
      · exact hTc.1
    refine ⟨hrest, fun x hx e he => ?_, fun x hx t ht => ?_⟩
    · obtain ⟨y, hy, -, -, hfiled⟩ := Unknown.mem_add hus hx
      rcases hfiled e he with rfl | he
      · exact hrhs
      · exact hall.filed y hy e he
    · obtain ⟨y, hy, -, hsol, -⟩ := Unknown.mem_add hus hx
      exact hall.solved y hy t (hsol.trans ht)
  | @reduced cs _ _ _ hres =>
    refine ⟨fun d hd => ?_, hall.filed, hall.solved⟩
    rcases List.mem_append.1 hd with hd | hd
    · exact hrest d hd
    · exact resolves_all hplain hT hc hTc hres d.toClaim (List.mem_map_of_mem hd)

/-! ### Settling -/

/-- Promoting pending constraints moves types from one place of the problem to another. -/
theorem promote_all (hall : p.All T) : p.promote.All T where
  pending := hall.pending
  filed u hu c hc := by
    obtain ⟨u₀, hu₀, _, hfiled, _⟩ := mem_promote hu
    exact hall.filed u₀ hu₀ c (hfiled c hc)
  solved u hu t ht := by
    obtain ⟨u₀, hu₀, _, _, hsol | ⟨c, hc, _, hsol⟩⟩ := mem_promote hu
    · exact hall.solved u₀ hu₀ t (hsol ▸ ht)
    · rw [hsol, Option.some.injEq] at ht
      exact ht ▸ hall.filed u₀ hu₀ c (List.mem_append_left _ (List.mem_append_right _ hc))

/-- Handing solutions to the remaining constraints keeps the property. -/
theorem hand_all (hT : s.Stable vars σ T) (hp : p.Tidy s k vars μ) (hsimple : p.Simple s vars)
    (hall : p.All T) (hagree : p.Agrees σ) (h : p.hand.Answers m p' m') : p'.All T := by
  obtain ⟨cs, hpend, _, hhanded⟩ := hand_handed h
  have hnew : ∀ u ∈ p.unknowns, ∀ u' ds, u.Handed (p.solutionsWhere fun u => u.solution.isSome) u' ds →
      ∀ c, c ∈ ds ∨ c ∈ u'.filed → T c.lhs ∧ T c.rhs := by
    intro u hu u' ds hhanded c hc
    rcases hhanded.filed hc with hc | ⟨d, hd, hbec⟩
    · exact hall.of_filed hT hp hu hc
    · exact hall.becomes hT hp hsimple hagree hbec (hall.of_filed hT hp hu hd)
  refine ⟨fun c hc => ?_, fun u' hu' c hc => ?_, fun u' hu' t ht => ?_⟩
  · rw [hpend] at hc
    rcases List.mem_append.1 hc with hc | hc
    · exact hall.pending c hc
    · obtain ⟨u, hu, u', ds, h, hc⟩ := hhanded.mem.2 c hc
      exact hnew u hu u' ds h c (.inl hc)
  · obtain ⟨u, hu, ds, h⟩ := hhanded.mem.1 u' hu'
    exact (hnew u hu u' ds h c (.inr hc)).2
  · obtain ⟨u, hu, ds, h⟩ := hhanded.mem.1 u' hu'
    exact hall.solved u hu t (h.solution ▸ ht)

/-- **Settling by equalities leaves types with the property**, if the solutions it comes to are those at the
end. -/
theorem settle_all (hs : s.Regular k) (hT : s.Stable vars σ T) (hm : m.Faithful s)
    (hsub : ∀ i, μ.clean i → μ.used i) (hp : p.Tidy s k vars μ) (hsimple : p.Simple s vars)
    (hall : p.All T) {n : Nat} (h : (settle n p).Answers m p' m') (hagree : p'.Agrees σ) :
    p'.All T := by
  induction n generalizing p m with
  | zero =>
    obtain ⟨rfl, rfl⟩ := answers_pure.1 h
    exact hall
  | succ n ih =>
    rw [settle] at h
    split at h
    · obtain ⟨p₁, m₁, hhand, h⟩ := answers_bind.1 h
      have htidy := promote_tidy hp
      have hsimple := promote_simple hp hsimple
      obtain ⟨hst, htidy₁, hlead⟩ := hand_follows hm htidy hsub hhand
      have hagree₁ := Agrees.of_kept (settle_follows hs hst.faithful htidy₁ hsub h).2.2.kept hagree
      exact ih hst.faithful htidy₁ (hand_simple htidy hsimple hhand).1 (hand_all hT htidy hsimple
        (promote_all hall) (.of_kept hlead.kept hagree₁) hhand) h
    · obtain ⟨rfl, rfl⟩ := answers_pure.1 h
      exact promote_all hall

/-- What is picked was filed. -/
theorem pick_all (hall : p.All T) (h : (p.pick s).Answers m (.ok p') m') : p'.All T := by
  obtain ⟨hpicks, hpend, _⟩ := pick_picked h
  refine ⟨hpend ▸ hall.pending, fun u' hu' c hc => ?_, fun u' hu' t ht => ?_⟩
  · obtain ⟨u, hu, hpicked⟩ := exists_of_forall₂_right hpicks hu'
    cases hpicked with
    | none => exact hall.filed _ hu c hc
    | bound _ _ _ _ =>
      simp only [Unknown.filed, List.nil_append, List.append_nil] at hc
      exact hall.filed u hu c (List.mem_append_left _ (List.mem_append_right _ hc))
  · obtain ⟨u, hu, hpicked⟩ := exists_of_forall₂_right hpicks hu'
    cases hpicked with
    | none => exact hall.solved _ hu t ht
    | @bound c _ _ hc _ =>
      rw [Option.some.injEq] at ht
      subst ht
      refine hall.filed u hu c ?_
      rcases List.mem_append.1 hc with hc | hc
      · exact List.mem_append_right _ hc
      · exact List.mem_append_left _ (List.mem_append_left _ hc)

/-- Picking changes no solution that is there already. -/
theorem agrees_of_pick (h : (p.pick s).Answers m (.ok p') m') (hagree : p'.Agrees σ) : p.Agrees σ := by
  intro u hu t ht
  obtain ⟨u', hu', hpicked⟩ := exists_of_forall₂ (pick_picked h).1 hu
  cases hpicked with
  | none => exact hagree u hu' t ht
  | bound _ hnone _ _ =>
    rw [hnone] at ht
    cases ht

end Problem

open Problem

/-- **The solutions that a search of a simple problem ends with have the property**, if all types in the
problem have it. -/
theorem searchWithin_all (hs : s.Regular k) (hplain : s.Plain) {n : Nat} {p : Problem}
    {effort : Effort} {r : Outcome × Effort} (hp : p.Stands s k vars m) (hsimple : p.Simple s vars)
    (h : (searchWithin s n p effort).Answers m r m') {types : List Ty}
    (htypes : r.1.solutions = some types)
    (hT : s.Stable vars (Subst.zip vars types).image T) (hall : p.All T) : ∀ t ∈ types, T t := by
  induction n generalizing p effort m with
  | zero => exact absurd h answers_throw
  | succ n ih =>
    have hclosed : ∀ t ∈ types, t.vars = [] := fun t ht =>
      (((searchWithin_simple hs hplain hp hsimple h).2 types htypes).1 t ht).vars_eq_nil
    -- A later problem of the search has the solutions at the end as well.
    have hlater : ∀ {q : Problem} {m : Memory} {effort : Effort}, q.Stands s k vars m →
        (searchWithin s n q effort).Answers m r m' → q.Agrees (Subst.zip vars types).image :=
      fun hq h => ((searchWithin_solved hs n _ _ _ _ _ hq h).2 types htypes).agrees hclosed
    have hagree := ((searchWithin_solved hs (n + 1) _ _ _ _ _ hp h).2 types htypes).agrees hclosed
    rcases searchWithin_round hs hplain hp hsimple h htypes with
      ⟨p', m₁, hprogress, hstands, hsimple', hnext⟩ | ⟨p₁, m₁, hsettle, hsolved⟩
    · obtain ⟨μ, hg, htidy, hadvances⟩ := advance_cases hs hplain hp hsimple hprogress
      cases hadvances with
      | @moves c _ _ hpend hbec hc' hmoves =>
        have hc : c ∈ p.pending := by rw [hpend]; exact List.mem_cons_self
        have hTc := hall.becomes hT htidy hsimple hagree hbec (hall.pending c hc)
        exact ih hstands hsimple' hnext (hmoves.all hplain hT hall hpend hc' hTc)
      | settles hsettle hrests =>
        have hsettled := settle_all hs hT hp.faithful hg.clean htidy hsimple hall hsettle
        have hagree' := hlater hstands hnext
        cases hrests with
        | pending _ _ => exact ih hstands hsimple' hnext (hsettled hagree')
        | picked _ hpick _ =>
          have hall₂ := pick_all (hsettled (agrees_of_pick hpick hagree')) hpick
          exact ih hstands hsimple' hnext ⟨hall₂.pending, hall₂.filed, hall₂.solved⟩
    · obtain ⟨μ, hg, htidy⟩ := hp.marked
      obtain ⟨_, htidy₁, _⟩ := settle_follows hs hp.faithful htidy hg.clean hsettle
      have hall₁ := settle_all hs hT hp.faithful hg.clean htidy hsimple hall hsettle
        (agrees_of_solutions htidy₁ hsolved hclosed)
      intro t ht
      obtain ⟨u, hu, hsol⟩ := exists_of_forall₂_right hsolved ht
      exact hall₁.solved u hu t hsol

end Inference
end Generics
