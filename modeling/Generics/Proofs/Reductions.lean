/-
# What a reduction asks for

Reducing that a type is below another one looks at the two types, and at the bounds of captured
variables. What it then asks for is written as a `Verdict`: several claims together, one claim out
of several, or nothing that could hold. `Setting.Splits` lists, form by form, which verdict comes
of two types, and `Constraint.reduceBelow_answers` says that a reduction answers one of these.

Both directions of the correctness of reductions are read off that list. If what is asked for holds
under all realizations, then so does the constraint (`Setting.Splits.good`). If the left type is
below the right one, then what is asked for is derived too (`Setting.Splits.below`).
-/

import Generics.Inference.Reduction
import Generics.Proofs.Decisions
import Mathlib.Data.List.Zip

namespace Generics
namespace Inference

/-- The types of a claim are related by `P` as it says. -/
def Claim.Holds (P : Ty → Ty → Prop) (c : Claim) : Prop :=
  match c.rel with
  | .below => P c.lhs c.rhs
  | .equal => P c.lhs c.rhs ∧ P c.rhs c.lhs
  | .above => P c.rhs c.lhs

/-- What a claim says of weaker relations follows. -/
theorem Claim.Holds.mono {P Q : Ty → Ty → Prop} {c : Claim} (h : c.Holds P)
    (hPQ : ∀ a b, P a b → Q a b) : c.Holds Q := by
  obtain ⟨lhs, rel, rhs⟩ := c
  cases rel with
  | below => exact hPQ _ _ h
  | equal => exact ⟨hPQ _ _ h.1, hPQ _ _ h.2⟩
  | above => exact hPQ _ _ h

/-- What is asked for in the place of a constraint. -/
inductive Verdict
  /-- These together. -/
  | all (cs : List Claim)
  /-- One of these. -/
  | one (cs : List Claim)
  /-- It cannot hold. -/
  | never

namespace Verdict

/-- What is asked for holds. -/
def Holds (P : Ty → Ty → Prop) : Verdict → Prop
  | .all cs => ∀ c ∈ cs, c.Holds P
  | .one cs => ∃ c ∈ cs, c.Holds P
  | .never => False

/-- The claims that are asked for. -/
def claims : Verdict → List Claim
  | .all cs => cs
  | .one cs => cs
  | .never => []

end Verdict

/-- A reduction asks for what the verdict says. -/
def Reduction.Asks : Reduction → Verdict → Prop
  | .allOf cs, .all claims => cs.map Constraint.toClaim = claims
  | .oneOf cs, .one claims => cs.map Constraint.toClaim = claims
  | .refuted _, .never => True
  | _, _ => False

namespace Claim

/-- The claims between an argument found and the one asked for. -/
def ofArg : Arg → Arg → List Claim
  | .type t, .wild upper lower => [⟨lower, .below, t⟩, ⟨t, .below, upper⟩]
  | .type t, .type t' => [⟨t, .equal, t'⟩]
  | .wild _ _, _ => []

/-- The claims between the arguments found and those asked for. -/
def ofArgs (as bs : List Arg) : List Claim :=
  (as.zip bs).flatMap fun pair => ofArg pair.1 pair.2

/-- The claims between two arguments say what containment of the one in the other demands. -/
theorem ofArg_holds {P : Ty → Ty → Prop} (a b : Arg) :
    (∀ c ∈ ofArg a b, c.Holds P) ↔ ∀ x ∈ a.demands b, P x.1 x.2 := by
  cases a <;> cases b <;> simp [ofArg, Arg.demands, Holds]

/-- The claims between arguments are the demands on them. -/
theorem ofArgs_holds {P : Ty → Ty → Prop} (as bs : List Arg) :
    (∀ c ∈ ofArgs as bs, c.Holds P) ↔ ∀ x ∈ Arg.demandsAll as bs, P x.1 x.2 := by
  simp only [ofArgs, Arg.demandsAll, List.mem_flatMap]
  constructor
  · rintro h x ⟨pair, hpair, hx⟩
    exact (ofArg_holds _ _).1 (fun c hc => h c ⟨pair, hpair, hc⟩) x hx
  · rintro h c ⟨pair, hpair, hc⟩
    exact (ofArg_holds _ _).2 (fun x hx => h x ⟨pair, hpair, hx⟩) c hc

/-- The claims between arguments are about their parts. -/
theorem mem_ofArgs {as bs : List Arg} {c : Claim} (h : c ∈ ofArgs as bs) :
    ∃ a ∈ as, ∃ b ∈ bs, (c.lhs ∈ a.parts ∧ c.rhs ∈ b.parts) ∨
      (c.lhs ∈ b.parts ∧ c.rhs ∈ a.parts) := by
  obtain ⟨⟨a, b⟩, hpair, hc⟩ := List.mem_flatMap.1 h
  refine ⟨a, (List.of_mem_zip hpair).1, b, (List.of_mem_zip hpair).2, ?_⟩
  cases a <;> cases b <;> simp only [ofArg, List.mem_cons, List.not_mem_nil, or_false] at hc
  · rw [hc]
    exact .inl ⟨List.mem_cons_self, List.mem_cons_self⟩
  · rcases hc with rfl | rfl
    · exact .inr ⟨by simp [Arg.parts], by simp [Arg.parts]⟩
    · exact .inl ⟨by simp [Arg.parts], by simp [Arg.parts]⟩

end Claim

/-- Matching an argument that is no wildcard asks for containment. -/
theorem Constraint.matchArg_eq (c : Constraint) {a : Arg} (h : a.isWild = false) (b : Arg) :
    ∃ cs, c.matchArg a b = some cs ∧ cs.map toClaim = Claim.ofArg a b := by
  cases a with
  | wild _ _ => cases h
  | type t => cases b <;> exact ⟨_, rfl, rfl⟩

/-- Matching arguments without wildcards asks for containment of all of them. -/
theorem Constraint.matchArgs_eq (c : Constraint) {as : List Arg}
    (h : ∀ a ∈ as, a.isWild = false) (bs : List Arg) :
    ∃ cs, c.matchArgs as bs = some cs ∧ cs.map toClaim = Claim.ofArgs as bs := by
  induction as generalizing bs with
  | nil => exact ⟨[], by simp [matchArgs], by simp [Claim.ofArgs]⟩
  | cons a as ih =>
    cases bs with
    | nil => exact ⟨[], by simp [matchArgs], by simp [Claim.ofArgs]⟩
    | cons b bs =>
      obtain ⟨cs, hcs, hclaims⟩ := c.matchArg_eq (h a List.mem_cons_self) b
      obtain ⟨more, hmore, hrest⟩ := ih (fun a ha => h a (List.mem_cons_of_mem _ ha)) bs
      refine ⟨cs ++ more, by rw [matchArgs, hcs, hmore], ?_⟩
      rw [List.map_append, hclaims, hrest]
      simp [Claim.ofArgs]

end Inference

/-- What is put in for variables has no site and is neither an intersection nor a primitive. -/
structure Proper (f : Var → Ty) : Prop where
  siteless : Siteless f
  flat : ∀ v, (f v).isInter = false
  prims : ∀ v, (f v).isPrim = false

/-- Variables that stay are proper. -/
theorem Proper.var : Proper .var := ⟨fun _ => rfl, fun _ => rfl, fun _ => rfl⟩

/-- A rebuilt type is primitive if the type was. -/
theorem Proper.isPrim_rebuild {f : Var → Ty} (hf : Proper f) (t : Ty) :
    (t.rebuild f).isPrim = t.isPrim := by
  cases t with
  | var v => exact hf.prims v
  | _ => rfl

namespace Setting

open Query Inference

/-- What comes of two types that are not both applied declarations, with the bounds that the
memory has. -/
inductive Breaks (s : Setting) (m : Memory) : Ty → Ty → Verdict → Prop
  | null (b : Ty) : Breaks s m .null b (.all [])
  | members (a : Ty) (st : Site) (ms : List Ty) :
    Breaks s m a (.inter st ms) (.all (ms.map (⟨a, .below, ·⟩)))
  | top (st : Site) {b : Ty} :
    b.isInter = false → Breaks s m (.inter st []) b (.all [⟨.object, .below, b⟩])
  | member (st : Site) {ms : List Ty} {b : Ty} : ms ≠ [] → b.isInter = false → (∀ w, b ≠ .var w) →
    Breaks s m (.inter st ms) b (.one (ms.map (⟨·, .below, b⟩)))
  | memberUnknown (st : Site) {ms : List Ty} (v : TypeVar) : ms ≠ [] →
    Breaks s m (.inter st ms) (.var (.declared v))
      (.one (ms.map (⟨·, .below, .var (.declared v)⟩) ++ [⟨.inter st ms, .below, .null⟩]))
  | memberCaptured (st : Site) {ms : List Ty} (i : Nat) : ms ≠ [] →
    Breaks s m (.inter st ms) (.var (.captured i))
      (.one (ms.map (⟨·, .below, .var (.captured i)⟩) ++ [⟨.inter st ms, .below, m.lower i⟩]))
  | same (i : Nat) : Breaks s m (.var (.captured i)) (.var (.captured i)) (.all [])
  | captured {i j : Nat} : i ≠ j → Breaks s m (.var (.captured i)) (.var (.captured j))
      (.one [⟨m.upper i, .below, .var (.captured j)⟩, ⟨.var (.captured i), .below, m.lower j⟩])
  | upper (i : Nat) {b : Ty} : b.isInter = false → (∀ w, b ≠ .var w) →
    Breaks s m (.var (.captured i)) b (.all [⟨m.upper i, .below, b⟩])
  | lower {a : Ty} (i : Nat) : a.isInter = false → (∀ v, a ≠ .var v) →
    Breaks s m a (.var (.captured i)) (.all [⟨a, .below, m.lower i⟩])
  | component {a b : Ty} : a.isPrim = false → b.isPrim = false →
    Breaks s m (.array a) (.array b) (.all [⟨a, .below, b⟩])
  | components (p : Primitive) : Breaks s m (.array (.prim p)) (.array (.prim p)) (.all [])
  | arrayParent (a : Ty) (st : Site) {e : String} : s.isArrayParent e [] = true →
    Breaks s m (.array a) (.nominal st e []) (.all [])
  | prim (p : Primitive) : Breaks s m (.prim p) (.prim p) (.all [])
  | never {a b : Ty} : (∀ f, Proper f → ∀ Γ, ¬ Below s Γ (a.rebuild f) (b.rebuild f)) →
    Breaks s m a b .never

/-- What comes of two types, and the memory afterwards. -/
inductive Splits (s : Setting) (k : Fragment) (m m' : Memory) : Ty → Ty → Verdict → Prop
  | meets {a b : Nominal} {cs : List Arg} : s.Meets k m a b cs m' →
    Splits s k m m' a.toTy b.toTy (.all (Claim.ofArgs cs b.args))
  | always {a b : Nominal} : m.Stays s m' → Settles s (s.inherits a.decl b.decl) (.ok true) →
    b.args = [] → Splits s k m m' a.toTy b.toTy (.all [])
  | apart {a b : Nominal} : m.Grows s k m' → ¬ s.CanMeet a b →
    Splits s k m m' a.toTy b.toTy .never
  | breaks {a b : Ty} {v : Verdict} : m' = m → s.Breaks m a b v → Splits s k m m' a b v

/-! ### What a reduction answers -/

variable {s : Setting} {k : Fragment} {m m' : Memory} {a b : Ty}

/-- A regular applied declaration takes its arguments. -/
theorem takes_of_regular {a : Nominal} (h : a.toTy.Regular s k) :
    ∃ l, s.Takes k a.decl l a.args := by
  rw [Nominal.toTy, Ty.Regular] at h
  obtain ⟨⟨l, hl, hcount⟩, hargs⟩ := h
  refine ⟨l, hl, ?_, Arg.regularAll_iff.1 hargs⟩
  rcases hcount with hcount | hcount
  · exact .inl (List.length_eq_zero_iff.1 hcount)
  · exact .inr hcount

/-- Forgetting identities keeps arguments right. -/
theorem Takes.shape {l : Lineage} {d : String} {as : List Arg} (h : s.Takes k d l as) :
    s.Takes k d l (as.map Arg.shape) where
  lineage := h.lineage
  count := h.count.imp (by rintro rfl; rfl) fun hlen => by rw [List.length_map, hlen]
  regular := by
    intro a ha
    obtain ⟨a', ha', rfl⟩ := List.mem_map.1 ha
    exact (h.regular a' ha').rebuild fun _ _ => by rw [Ty.Regular]; trivial

/-- The upper bound of a captured variable is read off the memory. -/
theorem upper_answers {i : Nat} {t : Ty} (h : (s.upper (.captured i)).Answers m t m') :
    t = m.upper i ∧ m' = m := by
  obtain ⟨m₀, m₁, hget, hpure⟩ := answers_bind.1 h
  obtain ⟨rfl, rfl⟩ := answers_get.1 hget
  exact answers_pure.1 hpure

/-- The lower bound of a captured variable is read off the memory. -/
theorem lower_answers {i : Nat} {t : Ty} (h : (s.lower (.captured i)).Answers m t m') :
    t = m.lower i ∧ m' = m := by
  obtain ⟨m₀, m₁, hget, hpure⟩ := answers_bind.1 h
  obtain ⟨rfl, rfl⟩ := answers_get.1 hget
  exact answers_pure.1 hpure

end Setting

namespace Inference

open Query Setting

namespace Constraint

variable {s : Setting} {k : Fragment} {m m' : Memory} {a b : Ty} {r : Reduction}

/-- Reducing that applied declarations are below each other goes through their meeting. -/
theorem reduceNominal_eq (s : Setting) (c : Constraint) (a b : Nominal) :
    c.reduceNominal s a b = s.meeting a b >>= fun
      | .never => pure (.refuted c.failure)
      | .always => pure (.allOf [])
      | .found args =>
        match c.matchArgs args b.args with
        | some cs => pure (.allOf cs)
        | none => pure (.refuted c.failure) := by
  rw [reduceNominal, meeting, bind_assoc]
  refine congrArg _ (funext fun inherits => ?_)
  cases inherits with
  | false => simp
  | true =>
    cases b.args.isEmpty with
    | true => simp
    | false =>
      simp only [if_true, Bool.false_eq_true, if_false, bind_assoc]
      refine congrArg _ (funext fun raw => ?_)
      cases raw with
      | true => simp
      | false =>
        simp only [Bool.false_eq_true, if_false, bind_assoc]
        refine congrArg _ (funext fun r => ?_)
        cases r with
        | none => simp
        | some n =>
          by_cases h : n.args.length = b.args.length
          · cases hmatch : c.matchArgs n.args b.args <;> simp [h, hmatch]
          · simp [h]

/-- **What reducing a comparison of applied declarations asks for** is what the comparison comes to. -/
theorem reduceNominal_answers (hs : s.Regular k) {c : Constraint} {a b : Nominal}
    (hm : m.Faithful s) (ha : a.toTy.Regular s k) (hb : b.toTy.Regular s k)
    (h : (c.reduceNominal s a b).Answers m r m') :
    ∃ v, s.Splits k m m' a.toTy b.toTy v ∧ r.Asks v := by
  rw [reduceNominal_eq] at h
  obtain ⟨l, htakes⟩ := takes_of_regular ha
  obtain ⟨meet, m₁, hmeet, h⟩ := answers_bind.1 h
  obtain ⟨hnever, halways, hfound⟩ := meeting_answers hs hm htakes hb hmeet
  cases meet with
  | never =>
    obtain ⟨rfl, rfl⟩ := answers_pure.1 h
    obtain ⟨hg, hnot⟩ := hnever rfl
    exact ⟨.never, .apart hg hnot, trivial⟩
  | always =>
    obtain ⟨rfl, rfl⟩ := answers_pure.1 h
    obtain ⟨hst, hi, hnil⟩ := halways rfl
    exact ⟨.all [], .always hst hi hnil, rfl⟩
  | found cs =>
    have hmeets := hfound cs rfl
    obtain ⟨ds, hds, hclaims⟩ :=
      c.matchArgs_eq (hmeets.isWild hs htakes.shape) b.args
    simp only [hds] at h
    obtain ⟨rfl, rfl⟩ := answers_pure.1 h
    exact ⟨.all (Claim.ofArgs cs b.args), .meets hmeets, hclaims⟩

/-- Reducing that an intersection is below no intersection. -/
theorem reduceBelow_inter {c : Constraint} {st : Site} {ms : List Ty} (hb : b.isInter = false)
    (h : (c.reduceBelow s (.inter st ms) b).Answers m r m') :
    ∃ v, m' = m ∧ s.Breaks m (.inter st ms) b v ∧ r.Asks v := by
  cases ms with
  | nil =>
    have hr : (pure (.allOf [c.child .object .below b]) : Query Reduction).Answers m r m' := by
      cases b <;> first | exact h | cases hb
    obtain ⟨rfl, rfl⟩ := answers_pure.1 hr
    exact ⟨_, rfl, .top st hb, rfl⟩
  | cons t ts =>
    cases b with
    | var w =>
      obtain ⟨lower, m₁, hlower, hrest⟩ := answers_bind.1 h
      obtain ⟨rfl, rfl⟩ := answers_pure.1 hrest
      cases w with
      | declared v =>
        obtain ⟨rfl, rfl⟩ := answers_pure.1 hlower
        refine ⟨_, rfl, .memberUnknown st v (List.cons_ne_nil t ts), ?_⟩
        simp [Reduction.Asks, child, Function.comp_def]
      | captured i =>
        obtain ⟨rfl, rfl⟩ := lower_answers hlower
        refine ⟨_, rfl, .memberCaptured st i (List.cons_ne_nil t ts), ?_⟩
        simp [Reduction.Asks, child, Function.comp_def]
    | inter st' ms' => cases hb
    | _ =>
      obtain ⟨rfl, rfl⟩ := answers_pure.1 h
      refine ⟨_, rfl, .member st (List.cons_ne_nil t ts) rfl (fun _ h => by cases h), ?_⟩
      simp [Reduction.Asks, child, Function.comp_def]

/-- Reducing that a captured variable is below no intersection. -/
theorem reduceBelow_captured {c : Constraint} {i : Nat} (hb : b.isInter = false)
    (hunknown : ∀ v, b ≠ .var (.declared v))
    (h : (c.reduceBelow s (.var (.captured i)) b).Answers m r m') :
    ∃ v, m' = m ∧ s.Breaks m (.var (.captured i)) b v ∧ r.Asks v := by
  cases b with
  | var w =>
    cases w with
    | declared v => exact absurd rfl (hunknown v)
    | captured j =>
      simp only [reduceBelow] at h
      by_cases hij : i = j
      · subst hij
        rw [if_pos (by simp [Ty.equal, Ty.sameShape])] at h
        obtain ⟨rfl, rfl⟩ := answers_pure.1 h
        exact ⟨_, rfl, .same i, rfl⟩
      · rw [if_neg (by simpa [Ty.equal, Ty.sameShape, Var.key] using fun _ => hij)] at h
        obtain ⟨upper, m₁, hupper, h⟩ := answers_bind.1 h
        obtain ⟨rfl, rfl⟩ := upper_answers hupper
        obtain ⟨lower, m₁, hlower, h⟩ := answers_bind.1 h
        obtain ⟨rfl, rfl⟩ := lower_answers hlower
        obtain ⟨rfl, rfl⟩ := answers_pure.1 h
        exact ⟨_, rfl, .captured hij, rfl⟩
  | inter st' ms' => cases hb
  | _ =>
    obtain ⟨upper, m₁, hupper, h⟩ := answers_bind.1 h
    obtain ⟨rfl, rfl⟩ := upper_answers hupper
    obtain ⟨rfl, rfl⟩ := answers_pure.1 h
    exact ⟨_, rfl, .upper i rfl (fun _ h => by cases h), rfl⟩

/-- Reducing that something is below a captured variable asks for its lower bound. -/
theorem reduceBelow_lower {c : Constraint} {w : Var} (hnull : a ≠ .null) (hi : a.isInter = false)
    (hvar : ∀ v, a ≠ .var v) (hunknown : ∀ v, w ≠ .declared v)
    (h : (c.reduceBelow s a (.var w)).Answers m r m') :
    ∃ v, m' = m ∧ s.Breaks m a (.var w) v ∧ r.Asks v := by
  cases w with
  | declared v => exact absurd rfl (hunknown v)
  | captured j =>
    have h : (s.lower (.captured j) >>= fun lower => pure (.allOf [c.child a .below lower])).Answers m r m' := by
      cases a with
      | null => exact absurd rfl hnull
      | inter st ms => cases hi
      | var v => exact absurd rfl (hvar v)
      | _ => exact h
    obtain ⟨lower, m₁, hlower, h⟩ := answers_bind.1 h
    obtain ⟨rfl, rfl⟩ := lower_answers hlower
    obtain ⟨rfl, rfl⟩ := answers_pure.1 h
    exact ⟨_, rfl, .lower j hi hvar, rfl⟩

/-- Reducing a comparison with an array asks for what the comparison comes to. -/
theorem reduceArray_asks (s : Setting) (m : Memory) (c : Constraint) (a b : Ty) :
    ∃ v, s.Breaks m (.array a) (.array b) v ∧ (c.reduceArray a b).Asks v := by
  unfold reduceArray
  split
  · next hp =>
    rw [Bool.or_eq_true] at hp
    split
    · next hab =>
      subst hab
      rw [or_self] at hp
      cases a with
      | prim p => exact ⟨_, .components p, rfl⟩
      | _ => cases hp
    · next hab =>
      refine ⟨.never, .never fun f hf Γ hbelow => hab ?_, trivial⟩
      rw [Ty.rebuild, Ty.rebuild,
        Below.array_prim (by rwa [hf.isPrim_rebuild, hf.isPrim_rebuild])] at hbelow
      have hprim := congrArg Ty.isPrim hbelow
      rw [hf.isPrim_rebuild, hf.isPrim_rebuild] at hprim
      rw [← hprim, or_self] at hp
      cases a with
      | prim p =>
        cases b with
        | prim q => exact hbelow
        | _ => cases hprim
      | _ => cases hp
  · next hp =>
    rw [Bool.or_eq_true, not_or, Bool.not_eq_true, Bool.not_eq_true] at hp
    exact ⟨_, .component hp.1 hp.2, rfl⟩

/-- **What a reduction of a comparison asks for.** A declared variable faces intersections only:
anything else on it is filed. -/
theorem reduceBelow_answers (hs : s.Regular k) {c : Constraint} (hm : m.Faithful s)
    (ha : a.Whole s k) (hb : b.Whole s k)
    (hua : ∀ v, a = .var (.declared v) → b.isInter = true)
    (hub : ∀ v, b = .var (.declared v) → a.isInter = true)
    (h : (c.reduceBelow s a b).Answers m r m') :
    ∃ v, s.Splits k m m' a b v ∧ r.Asks v := by
  have hbreaks : (∃ v, m' = m ∧ s.Breaks m a b v ∧ r.Asks v) →
      ∃ v, s.Splits k m m' a b v ∧ r.Asks v := by
    rintro ⟨v, hm', hv, hr⟩
    exact ⟨v, .breaks hm' hv, hr⟩
  cases hbi : b.isInter with
  | true =>
    cases b with
    | inter st ms =>
      cases a with
      | null =>
        obtain ⟨rfl, rfl⟩ := answers_pure.1 h
        exact hbreaks ⟨_, rfl, .null _, rfl⟩
      | _ =>
        obtain ⟨rfl, rfl⟩ := answers_pure.1 h
        refine hbreaks ⟨_, rfl, .members _ st ms, ?_⟩
        simp [Reduction.Asks, child, Function.comp_def]
    | _ => cases hbi
  | false =>
    cases a with
    | null =>
      have hr : (pure (.allOf []) : Query Reduction).Answers m r m' := by cases b <;> exact h
      obtain ⟨rfl, rfl⟩ := answers_pure.1 hr
      exact hbreaks ⟨_, rfl, .null _, rfl⟩
    | inter st ms => exact hbreaks (reduceBelow_inter hbi h)
    | var v =>
      cases v with
      | declared v =>
        rw [hua v rfl] at hbi
        cases hbi
      | captured i =>
        refine hbreaks (reduceBelow_captured hbi (fun v hv => ?_) h)
        cases hub v hv
    | nominal sa da aa =>
      cases b with
      | nominal sb db ab =>
        exact reduceNominal_answers (a := ⟨sa, da, aa⟩) (b := ⟨sb, db, ab⟩) hs hm ha.nominal
          hb.nominal h
      | var w =>
        refine hbreaks (reduceBelow_lower (by simp) rfl (by simp) (fun v hv => ?_) h)
        cases hub v (congrArg Ty.var hv)
      | inter st ms => cases hbi
      | _ =>
        obtain ⟨rfl, rfl⟩ := answers_pure.1 h
        exact hbreaks ⟨_, rfl, .never (fun f _ Γ hbelow => by cases hbelow), trivial⟩
    | array e =>
      cases b with
      | array e' =>
        obtain ⟨rfl, rfl⟩ := answers_pure.1 h
        obtain ⟨v, hv, hr⟩ := reduceArray_asks s m' c e e'
        exact hbreaks ⟨v, rfl, hv, hr⟩
      | nominal st d as =>
        obtain ⟨rfl, rfl⟩ := answers_pure.1 h
        by_cases hparent : s.isArrayParent d as = true
        · have has : as = [] := by
            rw [isArrayParent, Bool.and_eq_true] at hparent
            exact List.isEmpty_iff.1 hparent.1
          subst has
          exact hbreaks ⟨_, rfl, .arrayParent e st hparent, by rw [if_pos hparent]; rfl⟩
        · refine hbreaks ⟨_, rfl, .never fun f _ Γ hbelow => hparent ?_,
            by rw [if_neg hparent]; trivial⟩
          rw [Ty.rebuild_nominal] at hbelow
          have happlied := Below.array_nominal.1 hbelow
          simpa [isArrayParent] using happlied
      | var w =>
        refine hbreaks (reduceBelow_lower (by simp) rfl (by simp) (fun v hv => ?_) h)
        cases hub v (congrArg Ty.var hv)
      | inter st ms => cases hbi
      | _ =>
        obtain ⟨rfl, rfl⟩ := answers_pure.1 h
        refine hbreaks ⟨_, rfl, .never fun f _ Γ hbelow => ?_, trivial⟩
        change Below s Γ (.array (e.rebuild f)) _ at hbelow
        generalize e.rebuild f = x at hbelow
        cases hbelow
    | prim p =>
      cases b with
      | prim q =>
        obtain ⟨rfl, rfl⟩ := answers_pure.1 h
        by_cases hpq : p = q
        · subst hpq
          exact hbreaks ⟨_, rfl, .prim p, by rw [if_pos rfl]; rfl⟩
        · refine hbreaks ⟨_, rfl, .never fun f _ Γ hbelow => ?_, by rw [if_neg hpq]; trivial⟩
          cases hbelow
          exact hpq rfl
      | var w =>
        refine hbreaks (reduceBelow_lower (by simp) rfl (by simp) (fun v hv => ?_) h)
        cases hub v (congrArg Ty.var hv)
      | inter st ms => cases hbi
      | _ =>
        obtain ⟨rfl, rfl⟩ := answers_pure.1 h
        exact hbreaks ⟨_, rfl, .never (fun f _ Γ hbelow => by cases hbelow), trivial⟩

end Constraint
end Inference

/-! ### What is asked for, and the constraint -/

/-- What is below `Null` is below every type that is no intersection. -/
theorem Below.of_null {s : Setting} {Γ : Scope} {a b : Ty} (h : Below s Γ a .null)
    (hb : b.isInter = false) : Below s Γ a b := by
  generalize hn : Ty.null = n at h
  induction h with
  | null Γ _ => exact .null Γ b
  | top _ _ ih => exact .top hb (ih hn)
  | member _ hmem _ ih => exact .member hb hmem (ih hn)
  | upper _ _ ih => exact .upper hb (ih hn)
  | _ => cases hn

namespace Good

variable {s : Setting} {k : Fragment} {Γ : Scope} {U : TypeVar → Prop} {σ : Var → Ty} {a b : Ty}

/-- What is below `Null` in every realization is below every type that is no intersection. -/
theorem of_null (h : Good s k Γ U σ a .null) (hb : b.isInter = false) : Good s k Γ U σ a b :=
  fun R ha _ => Below.of_null (h R ha fun _ hv => by cases hv) (by rwa [R.isInter_put])

/-- Whether a comparison is good does not depend on identities on the left. -/
theorem shape_left (h : Good s k Γ U σ a b) : Good s k Γ U σ a.shape b := by
  rw [← shape_iff, Ty.shape_shape, shape_iff]
  exact h

/-- Whether a comparison is good does not depend on identities on the right. -/
theorem shape_right (h : Good s k Γ U σ a b) : Good s k Γ U σ a b.shape := by
  rw [← shape_iff, Ty.shape_shape, shape_iff]
  exact h

end Good

namespace Setting

open Query Inference

variable {s : Setting} {k : Fragment} {m m' : Memory} {a b : Ty} {v : Verdict}
  {U : TypeVar → Prop} {σ : Var → Ty}

/-- **A comparison is good if what comes of it holds.** -/
theorem Breaks.good (hs : s.Regular k) (ha : a.Whole s k) (hb : b.Whole s k) (h : s.Breaks m a b v)
    (hv : v.Holds (Good s k m.scope U σ)) : Good s k m.scope U σ a b := by
  cases h with
  | null b => exact .null
  | members a st ms =>
    refine .members (fun t ht => (hb.members t ht).1) fun t ht => ?_
    exact hv ⟨a, .below, t⟩ (List.mem_map_of_mem ht)
  | top st hbi => exact .top hbi (hv ⟨.object, .below, b⟩ List.mem_cons_self)
  | member st hne hbi hvar =>
    obtain ⟨c, hc, hholds⟩ := hv
    obtain ⟨t, ht, rfl⟩ := List.mem_map.1 hc
    exact .member (fun t ht => (ha.members t ht).1) hbi ht hholds
  | memberUnknown st w hne =>
    obtain ⟨c, hc, hholds⟩ := hv
    rcases List.mem_append.1 hc with hc | hc
    · obtain ⟨t, ht, rfl⟩ := List.mem_map.1 hc
      exact .member (fun t ht => (ha.members t ht).1) rfl ht hholds
    · rw [List.mem_singleton] at hc
      subst hc
      exact Good.of_null hholds rfl
  | memberCaptured st i hne =>
    obtain ⟨c, hc, hholds⟩ := hv
    rcases List.mem_append.1 hc with hc | hc
    · obtain ⟨t, ht, rfl⟩ := List.mem_map.1 hc
      exact .member (fun t ht => (ha.members t ht).1) rfl ht hholds
    · rw [List.mem_singleton] at hc
      subst hc
      exact .lower (Good.shape_right hholds)
  | same i => exact .self hs (by rw [Ty.Regular]; trivial)
  | captured hne =>
    obtain ⟨c, hc, hholds⟩ := hv
    rw [List.mem_cons, List.mem_singleton] at hc
    rcases hc with rfl | rfl
    · exact .upper rfl (Good.shape_left hholds)
    · exact .lower (Good.shape_right hholds)
  | upper i hbi hvar => exact .upper hbi (Good.shape_left (hv _ List.mem_cons_self))
  | lower i hai hvar => exact .lower (Good.shape_right (hv _ List.mem_cons_self))
  | component hpa hpb => exact .component hpa hpb (hv _ List.mem_cons_self)
  | components p => exact .components p
  | arrayParent e st hparent => exact .arrayParent hparent
  | prim p => exact .prim p
  | never _ => exact hv.elim

/-- **What a reduction asks for is enough**, under all realizations. -/
theorem Splits.good (hs : s.Regular k) (ha : a.Whole s k) (hb : b.Whole s k)
    (h : s.Splits k m m' a b v) (hv : v.Holds (Good s k m'.scope U σ)) :
    Good s k m.scope U σ a b := by
  cases h with
  | @meets a b cs hmeets =>
    obtain ⟨l, htakes⟩ := takes_of_regular ha.nominal
    rw [← Good.shape_iff, Nominal.toTy, Nominal.toTy, Ty.shape_nominal, Ty.shape_nominal]
    refine .args hs htakes.shape hmeets.inherits (by simpa using hmeets.asked)
      (by simpa using hmeets.raw) hmeets.seen (by simpa using hmeets.length) fun x hx => ?_
    rw [← hmeets.scope]
    have hx' := (Claim.ofArgs_holds cs b.args).1 hv
    rw [show Arg.shape = Arg.rebuild .var from rfl, Arg.demandsAll_map] at hx
    obtain ⟨y, hy, rfl⟩ := List.mem_map.1 hx
    exact Good.shape_iff.2 (hx' y hy)
  | @always a b hst hi hnil =>
    rw [show b.toTy = .nominal b.site b.decl [] by rw [Nominal.toTy, hnil]]
    exact .raw hi
  | apart _ _ => exact hv.elim
  | breaks hm hbreaks =>
    subst hm
    exact hbreaks.good hs ha hb hv

/-- **What comes of a comparison holds if the comparison does.** -/
theorem Breaks.below (ha : a.Whole s k) (hb : b.Whole s k) (h : s.Breaks m a b v)
    (hbelow : Below s m.scope a.shape b.shape) :
    v.Holds fun x y => Below s m.scope x.shape y.shape := by
  cases h with
  | members a st ms =>
    rw [Ty.shape_inter (hb.resolve_left (by simp [Ty.isPrim])), Below.inter_right] at hbelow
    intro c hc
    obtain ⟨t, ht, rfl⟩ := List.mem_map.1 hc
    exact hbelow t.shape (List.mem_map_of_mem ht)
  | top st hbi =>
    intro c hc
    rw [List.mem_singleton] at hc
    subst hc
    exact (Below.top_left (by rwa [Ty.isInter_shape])).1 hbelow
  | @member st ms b hne hbi hvar =>
    obtain ⟨t, ts, rfl⟩ := List.exists_cons_of_ne_nil hne
    rw [Ty.shape_inter (ha.resolve_left (by simp [Ty.isPrim])), List.map_cons,
      Below.inter_left (by rwa [Ty.isInter_shape]), ← List.map_cons] at hbelow
    rcases hbelow with ⟨x, hx, hbelow⟩ | ⟨i, hi, _⟩
    · obtain ⟨x', hx', rfl⟩ := List.mem_map.1 hx
      exact ⟨_, List.mem_map_of_mem hx', hbelow⟩
    · cases b with
      | var w => exact absurd rfl (hvar w)
      | inter _ _ => cases hbi
      | _ => cases hi
  | @memberUnknown st ms w hne =>
    obtain ⟨t, ts, rfl⟩ := List.exists_cons_of_ne_nil hne
    rw [Ty.shape_inter (ha.resolve_left (by simp [Ty.isPrim])), List.map_cons,
      Below.inter_left rfl, ← List.map_cons] at hbelow
    rcases hbelow with ⟨x, hx, hbelow⟩ | ⟨i, hi, _⟩
    · obtain ⟨x', hx', rfl⟩ := List.mem_map.1 hx
      exact ⟨_, List.mem_append_left _ (List.mem_map_of_mem hx'), hbelow⟩
    · cases hi
  | @memberCaptured st ms i hne =>
    obtain ⟨t, ts, rfl⟩ := List.exists_cons_of_ne_nil hne
    have hshape := Ty.shape_inter (ha.resolve_left (by simp [Ty.isPrim]))
    rw [hshape, List.map_cons, Below.inter_left rfl, ← List.map_cons, ← hshape] at hbelow
    rcases hbelow with ⟨x, hx, hbelow⟩ | ⟨j, hj, hbelow⟩
    · obtain ⟨x', hx', rfl⟩ := List.mem_map.1 hx
      exact ⟨_, List.mem_append_left _ (List.mem_map_of_mem hx'), hbelow⟩
    · cases hj
      exact ⟨_, List.mem_append_right _ List.mem_cons_self, hbelow⟩
  | @captured i j hne =>
    rcases (Below.var_left rfl).1 hbelow with hij | hbelow | ⟨i', hi', hbelow⟩
    · cases hij
      exact absurd rfl hne
    · exact ⟨_, List.mem_cons_self, hbelow⟩
    · cases hi'
      exact ⟨_, List.mem_cons_of_mem _ List.mem_cons_self, hbelow⟩
  | @upper i b hbi hvar =>
    intro c hc
    rw [List.mem_singleton] at hc
    subst hc
    have hnot : ∀ w, b.shape ≠ .var w := by
      intro w hw
      cases b with
      | var w' => exact hvar w' rfl
      | _ => cases hw
    rcases (Below.var_left (by rwa [Ty.isInter_shape])).1 hbelow with hi | hbelow | ⟨j, hj, _⟩
    · exact absurd hi (hnot _)
    · exact hbelow
    · exact absurd hj (hnot _)
  | @lower a i hai hvar =>
    intro c hc
    rw [List.mem_singleton] at hc
    subst hc
    cases a with
    | null => exact .null _ _
    | nominal st d as =>
      rw [Ty.shape_nominal] at hbelow
      have hlower := Below.nominal_var.1 hbelow
      rwa [← Ty.shape_nominal st] at hlower
    | array e => exact Below.array_var.1 hbelow
    | prim p =>
      cases hbelow with
      | lower _ h => exact h
    | inter _ _ => cases hai
    | var w => exact absurd rfl (hvar w)
  | @component a b hpa hpb =>
    intro c hc
    rw [List.mem_singleton] at hc
    subst hc
    have hprim : ∀ t : Ty, t.shape.isPrim = t.isPrim := fun t => by cases t <;> rfl
    exact (Below.array_array ((hprim a).trans hpa) ((hprim b).trans hpb)).1 hbelow
  | never hnot => exact absurd hbelow (hnot _ .var _)
  | _ => exact fun c hc => absurd hc List.not_mem_nil

/-- **What a reduction asks for is no more than needed.** -/
theorem Splits.below (ha : a.Whole s k) (hb : b.Whole s k) (h : s.Splits k m m' a b v)
    (hbelow : Below s m.scope a.shape b.shape) :
    v.Holds fun x y => Below s m'.scope x.shape y.shape := by
  cases h with
  | @meets a b cs hmeets =>
    refine (Claim.ofArgs_holds cs b.args).2 fun x hx => ?_
    have hdem := hmeets.below_iff.1 hbelow
    rw [show Arg.shape = Arg.rebuild .var from rfl, Arg.demandsAll_map] at hdem
    exact hdem _ (List.mem_map_of_mem hx)
  | always _ _ _ => exact fun c hc => absurd hc List.not_mem_nil
  | apart _ hnot => exact absurd (Below.canMeet hbelow) hnot
  | breaks hm hbreaks =>
    subst hm
    exact hbreaks.below ha hb hbelow

/-! ### Equalities -/

/-- What comes of the equality of two types. -/
inductive Equates : Ty → Ty → Verdict → Prop
  | args {sa sb : Site} {d : String} {as bs : List Arg} : as.length = bs.length →
    (∀ a ∈ as, a.isWild = false) → (∀ b ∈ bs, b.isWild = false) →
      Equates (.nominal sa d as) (.nominal sb d bs) (.all (Claim.ofArgs as bs))
  | ways (a b : Ty) :
    (∀ x y : Nominal, a = x.toTy → b = y.toTy → x.hasWild = true ∨ y.hasWild = true) →
      Equates a b (.all [⟨a, .below, b⟩, ⟨a, .above, b⟩])
  | apart {sa sb : Site} {d e : String} {as bs : List Arg} : (d = e → as.length ≠ bs.length) →
    Equates (.nominal sa d as) (.nominal sb e bs) .never

/-- Equations between arguments that are types make the claims between these arguments. -/
theorem claims_of_types (c : Constraint) {as bs : List Arg} (ha : ∀ a ∈ as, a.isWild = false)
    (hb : ∀ b ∈ bs, b.isWild = false) :
    (((as.filterMap Arg.type?).zip (bs.filterMap Arg.type?)).map fun pair =>
      c.child pair.1 .equal pair.2).map Constraint.toClaim = Claim.ofArgs as bs := by
  induction as generalizing bs with
  | nil => simp [Claim.ofArgs]
  | cons a as ih =>
    cases bs with
    | nil => simp [Claim.ofArgs]
    | cons b bs =>
      have hrest := ih (fun a ha' => ha a (List.mem_cons_of_mem _ ha'))
        (fun b hb' => hb b (List.mem_cons_of_mem _ hb'))
      cases a with
      | wild _ _ => cases ha _ List.mem_cons_self
      | type t =>
        cases b with
        | wild _ _ => cases hb _ List.mem_cons_self
        | type t' =>
          rw [List.filterMap_cons_some (by rfl), List.filterMap_cons_some (by rfl),
            List.zip_cons_cons, List.map_cons, List.map_cons, hrest]
          simp [Claim.ofArgs, Claim.ofArg, Constraint.child]

/-- **What the reduction of an equality asks for.** -/
theorem reduceEqual_asks (c : Constraint) (a b : Ty) :
    ∃ v, Equates a b v ∧ (c.reduceEqual a b).Asks v := by
  unfold Constraint.reduceEqual
  split
  · next sa da aa sb db ab =>
    split
    · next hne =>
      refine ⟨_, .apart fun hd hlen => ?_, trivial⟩
      simp [hd, hlen] at hne
    · next heq =>
      simp only [ne_eq, decide_not, Bool.or_eq_true, Bool.not_eq_true', decide_eq_false_iff_not,
        not_or, not_not] at heq
      obtain ⟨rfl, hlen⟩ := heq
      split
      · next hwild =>
        refine ⟨_, .ways _ _ fun x y hx hy => ?_, rfl⟩
        rw [(Ty.nominal.inj hx).2.2, (Ty.nominal.inj hy).2.2, Bool.or_eq_true] at hwild
        exact hwild
      · next hwild =>
        rw [Bool.or_eq_true, not_or, List.any_eq_true, List.any_eq_true] at hwild
        have ha : ∀ a ∈ aa, a.isWild = false := fun a h =>
          Bool.eq_false_iff.2 fun h' => hwild.1 ⟨a, h, h'⟩
        have hb : ∀ b ∈ ab, b.isWild = false := fun b h =>
          Bool.eq_false_iff.2 fun h' => hwild.2 ⟨b, h, h'⟩
        exact ⟨_, .args hlen ha hb, claims_of_types c ha hb⟩
  · next hnot =>
    exact ⟨_, .ways _ _ fun x y hx hy => (hnot _ _ _ _ _ _ hx hy).elim, rfl⟩

/-- Without wildcards, what arguments demand of each other goes both ways. -/
theorem demandsAll_swap {P : Ty → Ty → Prop} {as bs : List Arg} (ha : ∀ a ∈ as, a.isWild = false)
    (hb : ∀ b ∈ bs, b.isWild = false) (h : ∀ x ∈ Arg.demandsAll as bs, P x.1 x.2) :
    ∀ x ∈ Arg.demandsAll bs as, P x.1 x.2 := by
  intro x hx
  obtain ⟨⟨b, a⟩, hpair, hx⟩ := List.mem_flatMap.1 hx
  have hswap : (a, b) ∈ as.zip bs := by
    rw [← List.zip_swap, List.mem_map]
    exact ⟨(b, a), hpair, rfl⟩
  have hdem : ∀ y ∈ a.demands b, P y.1 y.2 := fun y hy => h y (List.mem_flatMap.2 ⟨_, hswap, hy⟩)
  have hwa := ha a (List.of_mem_zip hswap).1
  have hwb := hb b (List.of_mem_zip hswap).2
  cases a with
  | wild _ _ => cases hwa
  | type t =>
    cases b with
    | wild _ _ => cases hwb
    | type t' =>
      simp only [Arg.demands, List.mem_cons, List.not_mem_nil, or_false] at hx hdem
      rcases hx with rfl | rfl
      · exact hdem _ (.inr rfl)
      · exact hdem _ (.inl rfl)

/-- Applied declarations without wildcards are below each other if their arguments are equal. -/
theorem Good.same_decl (hs : s.Regular k) {Γ : Scope} {sa sb : Site} {d : String}
    {as bs : List Arg} (ha : (Ty.nominal sa d as).Regular s k) (hlen : as.length = bs.length)
    (hwild : ∀ a ∈ as, a.isWild = false)
    (h : ∀ x ∈ Arg.demandsAll as bs, Good s k Γ U σ x.1 x.2) :
    Good s k Γ U σ (.nominal sa d as) (.nominal sb d bs) := by
  cases bs with
  | nil => exact .raw (inherits_refl s d)
  | cons b bs =>
    obtain ⟨l, htakes⟩ := takes_of_regular (a := ⟨sa, d, as⟩) ha
    have hseen : s.SeenAs d d (captureArgs Γ.last as) as := by
      rw [captureArgs_of_no_wild hwild]
      exact .here as
    refine .args hs htakes (inherits_refl s d) (List.cons_ne_nil b bs) (fun hnil => ?_) hseen hlen ?_
    · rw [hnil] at hlen
      cases hlen
    · rw [Scope.capture_of_no_wild hwild]
      exact h

/-- What the reduction of an equality asks for is enough, under all realizations. -/
theorem Equates.good (hs : s.Regular k) {Γ : Scope} (ha : a.Whole s k) (hb : b.Whole s k)
    (h : Equates a b v) (hv : v.Holds (Good s k Γ U σ)) :
    Good s k Γ U σ a b ∧ Good s k Γ U σ b a := by
  cases h with
  | args hlen hwa hwb =>
    have hdem := (Claim.ofArgs_holds _ _).1 hv
    exact ⟨Good.same_decl hs ha.nominal hlen hwa hdem,
      Good.same_decl hs hb.nominal hlen.symm hwb (demandsAll_swap hwa hwb hdem)⟩
  | ways =>
    exact ⟨hv _ List.mem_cons_self, hv _ (List.mem_cons_of_mem _ List.mem_cons_self)⟩
  | apart _ => exact hv.elim

/-- A raw declaration is not below one applied to arguments. -/
theorem not_below_of_raw {Γ : Scope} {sa sb : Site} {d : String} {as bs : List Arg}
    (ha : (Ty.nominal sa d as).Regular s k) (hb : (Ty.nominal sb d bs).Regular s k)
    (hlen : as.length < bs.length) :
    ¬ Below s Γ (Ty.nominal sa d as).shape (Ty.nominal sb d bs).shape := by
  intro h
  rw [Ty.Regular] at ha hb
  obtain ⟨l, hl, hcount⟩ := hb.1
  have hbs : bs ≠ [] := fun hnil => by simp [hnil] at hlen
  rw [Ty.shape_nominal, Ty.shape_nominal, Below.nominal_cons (by simpa using hbs)] at h
  have hps := h.2.1
  rw [paramsOf_eq hl, List.map_eq_nil_iff] at hps
  rcases ha.1.eq_nil_or hl with has | has
  · rw [hps has] at hcount
    simp [hbs] at hcount
  · rcases hcount with hcount | hcount <;> omega

/-- **What the reduction of an equality asks for is no more than needed.** -/
theorem Equates.below (hs : s.Regular k) (hacyc : s.Acyclic) {Γ : Scope} (ha : a.Whole s k)
    (hb : b.Whole s k) (h : Equates a b v) (h₁ : Below s Γ a.shape b.shape)
    (h₂ : Below s Γ b.shape a.shape) : v.Holds fun x y => Below s Γ x.shape y.shape := by
  cases h with
  | @args sa sb d as bs hlen hwa hwb =>
    refine (Claim.ofArgs_holds _ _).2 fun x hx => ?_
    have hbs : bs ≠ [] := by
      rintro rfl
      simp [Arg.demandsAll] at hx
    have hshape : ∀ c ∈ as.map Arg.shape, c.isWild = false := by
      intro c hc
      obtain ⟨a, ha, rfl⟩ := List.mem_map.1 hc
      exact (isWild_rebuild .var a).trans (hwa a ha)
    rw [Ty.shape_nominal, Ty.shape_nominal, Below.nominal_cons (by simpa using hbs),
      captureArgs_of_no_wild hshape, Scope.capture_of_no_wild hshape] at h₁
    obtain ⟨_, _, cs, hseen, _, hdem⟩ := h₁
    rw [hseen.unique (.here _), show Arg.shape = Arg.rebuild .var from rfl,
      Arg.demandsAll_map] at hdem
    exact hdem _ (List.mem_map_of_mem hx)
  | ways =>
    intro c hc
    rw [List.mem_cons, List.mem_singleton] at hc
    rcases hc with rfl | rfl
    · exact h₁
    · exact h₂
  | @apart sa sb d e as bs hne =>
    have hd : d = e := inherits_antisymm hs.object hacyc
      (Below.canMeet (a := ⟨sa, d, as⟩) (b := ⟨sb, e, bs⟩) h₁).1
      (Below.canMeet (a := ⟨sb, e, bs⟩) (b := ⟨sa, d, as⟩) h₂).1
    subst hd
    rcases Nat.lt_or_gt_of_ne (hne rfl) with hlt | hlt
    · exact not_below_of_raw ha.nominal hb.nominal hlt h₁
    · exact not_below_of_raw hb.nominal ha.nominal hlt h₂

/-! ### Constraints on no unknown -/

/-- What comes of a claim, and the memory afterwards. -/
inductive Resolves (s : Setting) (k : Fragment) (m m' : Memory) : Claim → Verdict → Prop
  | below {a b : Ty} {v : Verdict} : s.Splits k m m' a b v → Resolves s k m m' ⟨a, .below, b⟩ v
  | equal {a b : Ty} {v : Verdict} : m' = m → Equates a b v → Resolves s k m m' ⟨a, .equal, b⟩ v
  | above {a b : Ty} {v : Verdict} : s.Splits k m m' b a v → Resolves s k m m' ⟨a, .above, b⟩ v

/-- **A claim is good if what comes of it holds.** -/
theorem Resolves.good (hs : s.Regular k) {c : Claim} (hl : c.lhs.Whole s k) (hr : c.rhs.Whole s k)
    (h : s.Resolves k m m' c v) (hv : v.Holds (Good s k m'.scope U σ)) :
    c.Holds (Good s k m.scope U σ) := by
  cases h with
  | below h => exact h.good hs hl hr hv
  | equal hm h =>
    subst hm
    exact h.good hs hl hr hv
  | above h => exact h.good hs hr hl hv

/-- **What comes of a claim holds if the claim does.** -/
theorem Resolves.holds (hs : s.Regular k) (hacyc : s.Acyclic) {c : Claim} (hl : c.lhs.Whole s k)
    (hr : c.rhs.Whole s k) (h : s.Resolves k m m' c v)
    (hc : c.Holds fun x y => Below s m.scope x.shape y.shape) :
    v.Holds fun x y => Below s m'.scope x.shape y.shape := by
  cases h with
  | below h => exact h.below hl hr hc
  | equal hm h =>
    subst hm
    exact h.below hs hacyc hl hr hc.1 hc.2
  | above h => exact h.below hr hl hc

/-- Splitting a comparison adds to what the memory knows. -/
theorem Splits.grows (hm : m.Faithful s) (h : s.Splits k m m' a b v) : m.Grows s k m' := by
  cases h with
  | meets h => exact h.grows
  | always h _ _ => exact h.grows k
  | apart h _ => exact h
  | breaks h _ =>
    subst h
    exact .refl hm

/-- Resolving a claim adds to what the memory knows. -/
theorem Resolves.grows (hm : m.Faithful s) {c : Claim} (h : s.Resolves k m m' c v) :
    m.Grows s k m' := by
  cases h with
  | below h => exact h.grows hm
  | equal h _ =>
    subst h
    exact .refl hm
  | above h => exact h.grows hm

/-- A declared variable of a claim faces an intersection. -/
def FacesInter (c : Claim) : Prop :=
  (∀ v, c.lhs = .var (.declared v) → c.rhs.isInter = true) ∧
    ∀ v, c.rhs = .var (.declared v) → c.lhs.isInter = true

/-- **What comes of a constraint on no unknown.** -/
theorem reduceRigid_answers (hs : s.Regular k) {c : Constraint} {r : Reduction}
    (hm : m.Faithful s) (hl : c.lhs.Whole s k) (hr : c.rhs.Whole s k) (hu : FacesInter c.toClaim)
    (h : (c.reduceRigid s).Answers m r m') : ∃ v, s.Resolves k m m' c.toClaim v ∧ r.Asks v := by
  obtain ⟨⟨lhs, rel, rhs⟩, origin⟩ := c
  cases rel with
  | below =>
    obtain ⟨v, hv, hasks⟩ := Constraint.reduceBelow_answers hs hm hl hr hu.1 hu.2 h
    exact ⟨v, .below hv, hasks⟩
  | equal =>
    obtain ⟨rfl, rfl⟩ := answers_pure.1 h
    obtain ⟨v, hv, hasks⟩ := reduceEqual_asks ⟨⟨lhs, .equal, rhs⟩, origin⟩ lhs rhs
    exact ⟨v, .equal rfl hv, hasks⟩
  | above =>
    obtain ⟨v, hv, hasks⟩ := Constraint.reduceBelow_answers hs hm hr hl hu.2 hu.1 h
    exact ⟨v, .above hv, hasks⟩

/-- **Reducing a comparison of whole types always answers.** -/
theorem reduceBelow_total (hs : s.Regular k) (hacyc : s.Acyclic) (c : Constraint)
    (hm : m.Faithful s) (ha : a.Whole s k) (hb : b.Whole s k) :
    ∃ r m', (c.reduceBelow s a b).Answers m r m' := by
  cases a with
  | nominal sa da aa =>
    cases b with
    | nominal sb db ab =>
      obtain ⟨l, htakes⟩ := takes_of_regular (a := ⟨sa, da, aa⟩) ha.nominal
      obtain ⟨meet, m₁, hmeet⟩ := meeting_total hs hacyc hm htakes (b := ⟨sb, db, ab⟩) hb.nominal
      rw [Constraint.reduceBelow, Constraint.reduceNominal_eq]
      cases meet with
      | never => exact ⟨_, _, answers_bind.2 ⟨_, _, hmeet, rfl⟩⟩
      | always => exact ⟨_, _, answers_bind.2 ⟨_, _, hmeet, rfl⟩⟩
      | found args =>
        cases hmatch : c.matchArgs args ab with
        | none => exact ⟨_, _, answers_bind.2 ⟨_, _, hmeet, by simp only [hmatch]; rfl⟩⟩
        | some cs => exact ⟨_, _, answers_bind.2 ⟨_, _, hmeet, by simp only [hmatch]; rfl⟩⟩
    | var w => cases w <;> exact ⟨_, _, rfl⟩
    | _ => exact ⟨_, _, rfl⟩
  | inter st ms =>
    cases ms with
    | nil => cases b <;> exact ⟨_, _, rfl⟩
    | cons t ts =>
      cases b with
      | var w => cases w <;> exact ⟨_, _, rfl⟩
      | _ => exact ⟨_, _, rfl⟩
  | var v =>
    cases b with
    | var w =>
      rw [Constraint.reduceBelow]
      split
      · exact ⟨_, _, rfl⟩
      · cases v <;> cases w <;> exact ⟨_, _, rfl⟩
    | inter st ms => exact ⟨_, _, rfl⟩
    | _ => cases v <;> exact ⟨_, _, rfl⟩
  | null => cases b <;> exact ⟨_, _, rfl⟩
  | _ =>
    cases b with
    | var w => cases w <;> exact ⟨_, _, rfl⟩
    | _ => exact ⟨_, _, rfl⟩

/-- Where inheritance has no cycle, something comes of every constraint. -/
theorem reduceRigid_total (hs : s.Regular k) (hacyc : s.Acyclic) (c : Constraint)
    (hm : m.Faithful s) (hl : c.lhs.Whole s k) (hr : c.rhs.Whole s k) :
    ∃ r m', (c.reduceRigid s).Answers m r m' := by
  unfold Constraint.reduceRigid
  cases c.rel with
  | below => exact reduceBelow_total hs hacyc c hm hl hr
  | equal => exact ⟨_, _, rfl⟩
  | above => exact reduceBelow_total hs hacyc c hm hr hl

end Setting
end Generics
