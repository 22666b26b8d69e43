/-
# Solving for plain parameters

In the plain fragment, that is over types without wildcards and intersections, what is derived is also
affirmed by the comparison of types: no depth makes it answer no, and some depth is enough for it to
answer yes (`affirms_below`). The problem of solving for the parameters of a declaration is one that a
search keeps tidy (`stands_start`), and what holds with closed solutions in the place of the
parameters is affirmed (`Claim.Concerns.affirms`).
-/

import Generics.Proofs.Depths
import Generics.Proofs.Searches

namespace Generics

/-! ### Asking at every depth -/

mutual
/-- A plain type is plain whatever its sites are. -/
theorem Ty.Regular.of_shape {s : Setting} :
    ∀ {t : Ty}, t.shape.Regular s .plain → t.Regular s .plain
  | .prim _, _ => rfl
  | .null, _ => trivial
  | .nominal st d as, h => by
    rw [Ty.shape, Ty.rebuild, Ty.Regular, Arg.rebuildAll_eq_map, List.length_map,
      ← Arg.rebuildAll_eq_map] at h
    rw [Ty.Regular]
    exact ⟨h.1, Arg.RegularAll.of_shape h.2⟩
  | .array e, h => by
    rw [Ty.shape_array, Ty.Regular, Ty.isPrim_shape] at h
    rw [Ty.Regular]
    exact h.imp_right Ty.Regular.of_shape
  | .inter st ms, h => by
    rw [Ty.shape, Ty.rebuild, Ty.Regular] at h
    cases h.1
  | .var _, _ => trivial

/-- Arguments are plain if their shapes are. -/
theorem Arg.RegularAll.of_shape {s : Setting} :
    ∀ {as : List Arg}, Arg.RegularAll s .plain (Arg.rebuildAll .var as) → Arg.RegularAll s .plain as
  | [], _ => trivial
  | .type t :: as, h => by
    rw [Arg.rebuildAll, Arg.rebuild, Arg.RegularAll, Arg.Regular] at h
    rw [Arg.RegularAll, Arg.Regular]
    exact ⟨Ty.Regular.of_shape h.1, Arg.RegularAll.of_shape h.2⟩
  | .wild _ _ :: _, h => by
    rw [Arg.rebuildAll, Arg.rebuild, Arg.RegularAll, Arg.Regular] at h
    cases h.1.1
end

/-- Without wildcards every memory is tame, as nothing is captured. -/
theorem Memory.tame_plain (s : Setting) (m : Memory) : m.Tame s .plain :=
  fun _ => ⟨Ty.Regular.of_shape, Ty.Regular.of_shape⟩

namespace Setting

open Query

variable {s : Setting}

/-- A question to be asked at any depth is affirmed: no depth makes it answer no, and from some depth
on it answers yes, whatever the memory has learnt. -/
def Affirms (s : Setting) (ask : Setting → Query Bool) : Prop :=
  (∀ n m r m', m.Faithful s → (ask (s.withDepth n)).Answers m r m' → r = true) ∧
    ∃ depth, ∀ n, depth ≤ n → ∀ m, m.Faithful s →
      ∃ m', (ask (s.withDepth n)).Answers m true m'

/-- A question to be asked at any depth is denied: no depth makes it answer yes, and from some depth
on it answers no, whatever the memory has learnt. -/
def Denies (s : Setting) (ask : Setting → Query Bool) : Prop :=
  (∀ n m r m', m.Faithful s → (ask (s.withDepth n)).Answers m r m' → r = false) ∧
    ∃ depth, ∀ n, depth ≤ n → ∀ m, m.Faithful s →
      ∃ m', (ask (s.withDepth n)).Answers m false m'

/-- A question that is affirmed is not denied. -/
theorem Affirms.not_denies {ask : Setting → Query Bool} (h : s.Affirms ask) : ¬ s.Denies ask := by
  rintro ⟨hno, depth, hdenies⟩
  obtain ⟨m', hr⟩ := hdenies depth (Nat.le_refl _) {} (Memory.faithful_empty s)
  exact Bool.false_ne_true (h.1 depth {} false m' (Memory.faithful_empty s) hr)

/-- Equivalence is asked by comparing both ways, with an empty trail. -/
theorem equivalent_withDepth (s : Setting) (n : Nat) (a b : Ty) :
    (s.withDepth n).equivalent a b = equivalentBy (s.belowWithin n []) a b := by
  have hsub : (s.withDepth n).below = s.belowWithin n [] :=
    funext fun a => funext fun b => below_withDepth s n a b
  rw [equivalent, hsub]

/-- A plain type without variables, compared in the scope without any. -/
theorem comparable_closed {a b : Ty} (Γ : Scope) (ha : a.Regular s .plain) (hb : b.Regular s .plain)
    (hav : a.vars = []) (hbv : b.vars = []) : s.Comparable .plain Γ (fun _ => False) a b where
  sound := Γ.sound_empty s .plain
  left := ha.whole
  right := hb.whole
  leftOver v hv := by rw [hav] at hv; cases hv
  rightOver v hv := by rw [hbv] at hv; cases hv

/-- A faithful memory is within its own scope. -/
theorem within_self (s : Setting) {m : Memory} (hm : m.Faithful s) : m.Within s .plain m.scope :=
  ⟨hm, .refl _, m.tame_plain s⟩

/-- **A derivation between plain types without variables is affirmed by the comparison.** -/
theorem affirms_below (hs : s.Regular .plain) (hacyc : s.Acyclic) {a b : Ty}
    (ha : a.Regular s .plain) (hb : b.Regular s .plain) (hav : a.vars = []) (hbv : b.vars = [])
    (h : ∀ Γ, Below s Γ a.shape b.shape) : s.Affirms fun s => s.below a b := by
  constructor
  · intro n m r m' hm hr
    simp only [below_withDepth] at hr
    exact ((decidesWithin hs n).below m.scope _ a b (comparable_closed _ ha hb hav hbv) m r m'
      (within_self s hm) hr).2.2 (h m.scope)
  · obtain ⟨depth, hdepth⟩ := DeepFor.of_below hs hacyc (h (Memory.scope {}))
    refine ⟨depth, fun n hn m hm => ?_⟩
    obtain ⟨m', hr, _⟩ := hdepth a b rfl rfl ha hb hav hbv n hn [] m hm
    exact ⟨m', by simp only [below_withDepth]; exact hr⟩

/-- **Equivalence is affirmed of types that are below each other.** -/
theorem affirms_equivalent (hs : s.Regular .plain) (hacyc : s.Acyclic) {a b : Ty}
    (ha : a.Regular s .plain) (hb : b.Regular s .plain) (hav : a.vars = []) (hbv : b.vars = [])
    (h₁ : ∀ Γ, Below s Γ a.shape b.shape) (h₂ : ∀ Γ, Below s Γ b.shape a.shape) :
    s.Affirms fun s => s.equivalent a b := by
  constructor
  · intro n m r m' hm hr
    simp only [equivalent_withDepth] at hr
    exact (equivalentBy_decides hs (decidesWithin hs n).below
      (comparable_closed m.scope ha hb hav hbv) m r m' (within_self s hm) hr).2.2
      ⟨h₁ m.scope, h₂ m.scope⟩
  · obtain ⟨d₁, hd₁⟩ := DeepFor.of_below hs hacyc (h₁ (Memory.scope {}))
    obtain ⟨d₂, hd₂⟩ := DeepFor.of_below hs hacyc (h₂ (Memory.scope {}))
    refine ⟨max d₁ d₂, fun n hn m hm => ?_⟩
    obtain ⟨m', hr, _⟩ := Deep.equivalentBy
      ((hd₁ a b rfl rfl ha hb hav hbv).mono (Nat.le_max_left d₁ d₂))
      ((hd₂ b a rfl rfl hb ha hbv hav).mono (Nat.le_max_right d₁ d₂)) hn hm
    exact ⟨m', by simp only [equivalent_withDepth]; exact hr⟩

end Setting

namespace Inference

open Query Setting

variable {s : Setting} {k : Fragment} {m m' : Memory}

/-! ### The problem that is started with -/

/-- No variable is marked. -/
def Marks.none : Marks := ⟨fun _ => False, fun _ => False⟩

/-- Every scope is grounded if no variable is marked. -/
theorem grounded_none (s : Setting) (k : Fragment) (U : TypeVar → Prop) (Γ : Scope) :
    Γ.Grounded s k U Marks.none where
  sound := Γ.sound_empty s k
  clean _ := id
  le_last _ h := h.elim
  regular _ h := h.elim
  known _ h := h.elim
  plain _ _ := id
  closed _ _ := id

/-- **The problem of solving for the parameters of a declaration is tidy**, if the constraints on
them are. -/
theorem stands_start (hs : s.Regular k) {decl : String} {l : Lineage}
    (hl : s.lineageOf decl = some l) (hnodup : (l.params.map TypeVar.key).Nodup)
    (hm : m.Faithful s) (htame : m.Tame s k) {cs : List Constraint}
    (hcs : ∀ c ∈ cs, s.Tidy k (· ∈ l.params) Marks.none c.lhs c.rhs) :
    ((Problem.start s l.params).push cs).Stands s k l.params m where
  faithful := hm
  tame := htame
  marked := by
    refine ⟨Marks.none, grounded_none s k _ _, ?_, hnodup, fun c hc => ?_, fun u hu => ?_⟩
    · simp [Problem.start, Problem.push, Function.comp_def]
    · rcases List.mem_append.1 hc with hc | hc
      · obtain ⟨p, hp, hc⟩ := Problem.pending_start hc
        obtain ⟨hreg, hvars⟩ := hs.bounds decl l hl p hp
        have hvar : (Ty.var (.declared p)).Known (· ∈ l.params) (fun _ => False) := by
          intro v hv
          rw [Ty.vars, List.mem_singleton] at hv
          exact .inl ⟨p, hv, hp⟩
        have hupper : (s.catalog.upper p).Known (· ∈ l.params) (fun _ => False) := fun v hv =>
          .inl ((hvars v hv).imp fun q hq => ⟨hq.2, hq.1⟩)
        rcases hc with rfl | rfl
        · exact Setting.Tidy.of_regular trivial hreg hvar hupper
            (.inr (.inr ⟨hvar, hupper, .inr (.inl ⟨p, rfl⟩)⟩))
        · exact Setting.Tidy.of_regular trivial trivial hvar Ty.Known.null (.inr (.inl Ty.over_null))
      · exact hcs c hc
    · obtain ⟨p, _, rfl⟩ := List.mem_map.1 hu
      refine ⟨?_, ?_, ?_, ?_, ?_, ?_⟩ <;> simp [Unknown.filed]

/-! ### Claims with the solutions put in -/

namespace Claim

/-- The claim with types in the place of variables; its sides are built at the given sites. -/
def subst (σ : Subst) (left right : Site) (c : Claim) : Claim :=
  ⟨c.lhs.subst σ left, c.rel, c.rhs.subst σ right⟩

/-- The question whether the claim holds. -/
def ask (c : Claim) (s : Setting) : Query Bool :=
  match c.rel with
  | .below => s.below c.lhs c.rhs
  | .equal => s.equivalent c.lhs c.rhs
  | .above => s.below c.rhs c.lhs

/-- The claim is about plain types that mention parameters of the declaration only. -/
structure Concerns (s : Setting) (decl : String) (c : Claim) : Prop where
  left : c.lhs.Regular s .plain
  right : c.rhs.Regular s .plain
  leftVars : ∀ v ∈ c.lhs.vars, ∃ p ∈ s.paramsOf decl, v = .declared p
  rightVars : ∀ v ∈ c.rhs.vars, ∃ p ∈ s.paramsOf decl, v = .declared p

end Claim

/-- The claim that a parameter is within its bound. -/
def boundClaim (s : Setting) (p : TypeVar) : Claim :=
  ⟨.var (.declared p), .below, s.catalog.upper p⟩

/-- That a parameter is within its bound concerns the declaration. -/
theorem Claim.concerns_bound (hs : s.Regular .plain) {decl : String} {l : Lineage}
    (hl : s.lineageOf decl = some l) {p : TypeVar} (hp : p ∈ l.params) :
    (boundClaim s p).Concerns s decl where
  left := trivial
  right := (hs.bounds decl l hl p hp).1
  leftVars v hv := by
    rw [boundClaim, Ty.vars, List.mem_singleton] at hv
    exact ⟨p, paramsOf_eq hl ▸ hp, hv⟩
  rightVars v hv := paramsOf_eq hl ▸ (hs.bounds decl l hl p hp).2 v hv

/-- Types over the parameters mention known variables only. -/
theorem known_of_params {decl : String} {t : Ty}
    (h : ∀ v ∈ t.vars, ∃ p ∈ s.paramsOf decl, v = .declared p) :
    t.Known (· ∈ s.paramsOf decl) (fun _ => False) := fun v hv =>
  .inl ((h v hv).imp fun _ hp => ⟨hp.2, hp.1⟩)

/-- A side of the claim is plain and without variables once solutions are put in. -/
theorem Closes.subst {params : List TypeVar} {types : List Ty} (h : Closes s .plain types)
    (hlen : params.length = types.length) {t : Ty} (ht : t.Regular s .plain)
    (hvars : ∀ v ∈ t.vars, ∃ p ∈ params, v = .declared p) (site : Site) :
    (t.subst (Subst.zip params types) site).Regular s .plain ∧
      (t.subst (Subst.zip params types) site).vars = [] := by
  constructor
  · exact ht.subst _ site fun v _ u hu => (h.regular u (Subst.mem_of_lookup_zip hu)).1
  · rw [← Ty.vars_shape, Ty.shape_subst]
    refine List.eq_nil_iff_forall_not_mem.2 fun v hv => ?_
    obtain ⟨w, hw, hv⟩ := Ty.mem_vars_rebuild.1 hv
    obtain ⟨p, hp, rfl⟩ := hvars w hw
    rw [(h.image_declared hlen hp).2] at hv
    cases hv

/-- **What holds with the solutions put in is affirmed.** -/
theorem Claim.Concerns.affirms (hs : s.Regular .plain) (hacyc : s.Acyclic) {decl : String}
    {types : List Ty} {c : Claim} (hc : c.Concerns s decl) (hcloses : Closes s .plain types)
    (hlen : (s.paramsOf decl).length = types.length)
    (h : ∀ Γ, c.Holds fun a b => Below s Γ (a.rebuild (Subst.zip (s.paramsOf decl) types).image)
      (b.rebuild (Subst.zip (s.paramsOf decl) types).image)) (left right : Site) :
    s.Affirms (c.subst (Subst.zip (s.paramsOf decl) types) left right).ask := by
  obtain ⟨hl, hlv⟩ := hcloses.subst hlen hc.left hc.leftVars left
  obtain ⟨hr, hrv⟩ := hcloses.subst hlen hc.right hc.rightVars right
  obtain ⟨a, rel, b⟩ := c
  simp only [← Ty.shape_subst _ left a, ← Ty.shape_subst _ right b, Claim.Holds] at h
  cases rel with
  | below => exact affirms_below hs hacyc hl hr hlv hrv h
  | equal => exact affirms_equivalent hs hacyc hl hr hlv hrv (fun Γ => (h Γ).1) fun Γ => (h Γ).2
  | above => exact affirms_below hs hacyc hr hl hrv hlv h

end Inference
end Generics
