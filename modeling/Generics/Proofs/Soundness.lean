/-
# What is found is right

With the solutions in the place of the parameters, every claim that was made and every bound of a
parameter holds. In the plain fragment the comparison of types affirms it (`solve_affirmed`). An
inferred type is below its target: no comparison of the two answers no (`inferred_below_target`).

Each of the two needs one thing to be granted.

- The component of an array is compared before it is known, and `Null` is below every type, while
  arrays of primitives do not vary. So a parameter that stands for a component must not turn out to be
  a primitive: with `V` solved as `int`, the claim `Null[] <: V[]` was reduced to `Null <: V` and then
  forgotten, but `Null[]` is not below `int[]` (`solve_refuted`).
- A wildcard of the target is captured on the way, and the captured variable may be taken for
  a solution. When the result is compared with the target, the wildcard is captured anew, and what is
  below the old variable is not below the new one (`inferred_refuted`).
-/

import Generics.Proofs.Agreement

namespace Generics

mutual
/-- Whether neither wildcards nor intersections stand in a type. -/
def Ty.isPlain : Ty → Bool
  | .prim _ => true
  | .null => true
  | .nominal _ _ args => Arg.allPlain args
  | .array elem => elem.isPlain
  | .inter _ _ => false
  | .var _ => true

/-- Whether an argument is a type in which neither wildcards nor intersections stand. -/
def Arg.isPlain : Arg → Bool
  | .type t => t.isPlain
  | .wild _ _ => false

/-- Whether all arguments are such types. -/
def Arg.allPlain : List Arg → Bool
  | [] => true
  | a :: as => a.isPlain && Arg.allPlain as
end

mutual
/-- A regular type without wildcards and intersections is regular in the plain fragment. -/
theorem Ty.Regular.plain {s : Setting} :
    ∀ {t : Ty}, t.Regular s .full → t.isPlain = true → t.Regular s .plain
  | .prim _, _, _ => by rw [Ty.Regular]
  | .null, _, _ => by rw [Ty.Regular]; trivial
  | .nominal _ _ args, h, hp => by
    rw [Ty.Regular] at h ⊢
    rw [Ty.isPlain] at hp
    exact ⟨h.1, h.2.plain hp⟩
  | .array elem, h, hp => by
    rw [Ty.Regular] at h ⊢
    rw [Ty.isPlain] at hp
    exact h.imp id (·.plain hp)
  | .inter _ _, _, hp => by cases hp
  | .var _, _, _ => by rw [Ty.Regular]; trivial

/-- The same for arguments. -/
theorem Arg.RegularAll.plain {s : Setting} :
    ∀ {as : List Arg}, Arg.RegularAll s .full as → Arg.allPlain as = true → Arg.RegularAll s .plain as
  | [], _, _ => by rw [Arg.RegularAll]; trivial
  | .type t :: as, h, hp => by
    rw [Arg.RegularAll, Arg.Regular] at h ⊢
    rw [Arg.allPlain, Arg.isPlain, Bool.and_eq_true] at hp
    exact ⟨h.1.plain hp.1, h.2.plain hp.2⟩
  | .wild _ _ :: as, _, hp => by cases hp
end

/-- **Questions over a vetted catalog are plain** if its bounds and supertypes are. -/
theorem Setting.Vetted.regular_plain {s : Setting} (hv : s.Vetted)
    (h : ∀ t ∈ s.catalog.declaredTypes, t.isPlain = true) : s.Regular .plain := by
  have hs := hv.regular
  have hplain : ∀ {d : Declaration} {t : Ty}, d ∈ s.catalog.decls →
      t ∈ d.params.map Parameter.upper ++ d.parents.map Nominal.toTy → t.isPlain = true :=
    fun hd ht => h _ (List.mem_flatMap.2 ⟨_, hd, ht⟩)
  refine ⟨hs.object, fun decl l hl n hn => ?_, fun decl l hl p hp => ?_, (fun hk => by cases hk),
    (fun hk => by cases hk), (fun hk => by cases hk)⟩
  · obtain ⟨hreg, hwild, hvars⟩ := hs.parents decl l hl n hn
    obtain ⟨d, hd, -, -, -, hparents⟩ := hv.grown.of_lineage hl
    refine ⟨hreg.plain ?_, hwild, hvars⟩
    rcases hparents n hn with hn | rfl
    · exact hplain hd (List.mem_append_right _ (List.mem_map_of_mem hn))
    · rfl
  · obtain ⟨hreg, hvars⟩ := hs.bounds decl l hl p hp
    obtain ⟨d, hd, -, hfind, hparams, -⟩ := hv.grown.of_lineage hl
    obtain ⟨q, hq, hupper, -⟩ := Declaration.upper_eq hfind (hparams ▸ hp)
    refine ⟨hreg.plain ?_, hvars⟩
    exact hupper ▸ hplain hd (List.mem_append_left _ (List.mem_map_of_mem hq))

namespace Inference

open Query Setting

variable {s : Setting} {m m' : Memory}

/-- **Solving is sound.** If solving for the parameters of a declaration under plain claims ends with
solutions, none of which is a primitive, then there is one for each parameter, and with the solutions
in the place of the parameters every claim and every bound of a parameter is affirmed. -/
theorem solve_affirmed (hs : s.Regular .plain) (hacyc : s.Acyclic) {decl : String}
    (hnames : ((s.paramsOf decl).map TypeVar.name).Nodup) {claims : List Claim}
    (hclaims : ∀ c ∈ claims, c.Concerns s decl) (hm : m.Faithful s) {o : Outcome} {e : Effort}
    (h : (solve s decl claims).Answers m (o, e) m') {types : List Ty}
    (hfound : o.solutions = some types) (hprims : ∀ t ∈ types, t.isPrim = false) :
    (s.paramsOf decl).length = types.length ∧
      ∀ c ∈ claims ++ (s.paramsOf decl).map (boundClaim s), ∀ left right,
        s.Affirms (c.subst (Subst.zip (s.paramsOf decl) types) left right).ask := by
  obtain ⟨params, m₁, hparams, h⟩ := answers_bind.1 h
  obtain ⟨hsettles, hst⟩ := (params_steady s decl).stays hm hparams
  obtain ⟨l, hl, rfl⟩ := settles_params hsettles
  have hps := paramsOf_eq hl
  rw [hps] at hnames ⊢
  have hkeys := keys_nodup hnames
  have hknown : ∀ c ∈ claims ++ l.params.map (boundClaim s), c.Concerns s decl ∧
      c.lhs.Known (· ∈ l.params) (fun _ => False) ∧ c.rhs.Known (· ∈ l.params) (fun _ => False) := by
    intro c hc
    have hcon : c.Concerns s decl := by
      rcases List.mem_append.1 hc with hc | hc
      · exact hclaims c hc
      · obtain ⟨p, hp, rfl⟩ := List.mem_map.1 hc
        exact Claim.concerns_bound hs hl hp
    exact ⟨hcon, hps ▸ known_of_params hcon.leftVars, hps ▸ known_of_params hcon.rightVars⟩
  have htidy : ∀ c ∈ claims.map fun c => ({ c with } : Constraint),
      s.Tidy .plain (· ∈ l.params) Marks.none c.lhs c.rhs := by
    intro _ hmem
    obtain ⟨c, hc, rfl⟩ := List.mem_map.1 hmem
    obtain ⟨hcon, hlk, hrk⟩ := hknown c (List.mem_append_left _ hc)
    exact .of_regular hcon.left hcon.right hlk hrk (.inr (.inr ⟨hlk, hrk, .inl rfl⟩))
  have hstands := stands_start hs hl hkeys hst.faithful (m₁.tame_plain s) htidy
  obtain ⟨hlen, hcloses, hpending⟩ :=
    search_below hs hstands h hfound (fun hk => by cases hk) fun _ => hprims
  refine ⟨hlen, fun c hc left right => ?_⟩
  obtain ⟨hcon, hlk, hrk⟩ := hknown c hc
  refine hps ▸ hcon.affirms hs hacyc hcloses (hps.symm ▸ hlen) (fun Γ => ?_) left right
  rw [hps]
  refine hpending { c with } ?_ hlk hrk Γ
  rcases List.mem_append.1 hc with hc | hc
  · exact List.mem_append_right _ (List.mem_map.2 ⟨c, hc, rfl⟩)
  · obtain ⟨p, hp, rfl⟩ := List.mem_map.1 hc
    exact List.mem_append_left _ (List.mem_flatMap.2 ⟨p, hp, List.mem_cons_self⟩)

/-- `List<E> <: Collection<Integer>` is solved by `Integer`, and the claim is affirmed. -/
theorem solve_affirmed_standard :
    let s : Setting := { catalog := .standard }
    let E : TypeVar := ⟨"List", "E", .param 0⟩
    let integer : Ty := .nominal ⟨.given 0, [11]⟩ "Integer" []
    let c : Claim := ⟨.nominal .common "List" [.type (.var (.declared E))], .below,
      .nominal ⟨.given 0, [0]⟩ "Collection" [.type integer]⟩
    ((solve s "List" [c]).outcome {}).1 = .ok ({ solutions := some [integer] }, ⟨5, 0⟩) ∧
      ∀ left right, s.Affirms (c.subst (Subst.zip [E] [integer]) left right).ask := by
  intro s E integer c
  obtain ⟨hdecls, hparams, hnames, hsides, hlhs, hrhs, hsolve⟩ :
      (∀ t ∈ s.catalog.declaredTypes, t.isPlain = true) ∧ s.paramsOf "List" = [E] ∧
        ((s.paramsOf "List").map TypeVar.name).Nodup ∧
          (∀ t ∈ [c.lhs, c.rhs], t.isFlat = true ∧ s.acceptsWithin 20 t = true ∧
            t.sparing = true ∧ t.isPlain = true) ∧
              (∀ v ∈ c.lhs.vars, ∃ w ∈ s.paramsOf "List", v = .declared w) ∧
                (∀ v ∈ c.rhs.vars, ∃ w ∈ s.paramsOf "List", v = .declared w) ∧
                  ((solve s "List" [c]).outcome {}).1 =
                    .ok ({ solutions := some [integer] }, ⟨5, 0⟩) := by decide +kernel
  have hs : s.Regular .plain := vetted_standard.regular_plain hdecls
  have hregular : ∀ t ∈ [c.lhs, c.rhs], t.Regular s .plain := by
    intro t ht
    obtain ⟨hflat, haccepts, hsparing, hplain⟩ := hsides t ht
    exact ((Accepts.of_within haccepts).regular hflat hsparing).plain hplain
  have hconcerns : c.Concerns s "List" :=
    ⟨hregular _ (by simp), hregular _ (by simp), hlhs, hrhs⟩
  have hfound := solve_affirmed (s := s) hs acyclic_standard hnames
    (fun d hd => List.mem_singleton.1 hd ▸ hconcerns) (Memory.faithful_empty s)
    (Prod.ext hsolve rfl) rfl (by decide)
  rw [hparams] at hfound
  exact ⟨hsolve, hfound.2 c (by simp)⟩

/-- With `V extends int`, the claim `Null[] <: V[]` is solved by `int`, but `Null[]` is not below
`int[]`. -/
theorem solve_refuted :
    let s : Setting := { catalog := .extended [{ name := "G", params := [⟨"V", "int"⟩] }] }
    let V : TypeVar := ⟨"G", "V", .param 0⟩
    let c : Claim := ⟨.array .null, .below, .array (.var (.declared V))⟩
    ((solve s "G" [c]).outcome {}).1.map (fun r => r.1.solutions) = .ok (some [.prim ⟨5⟩]) ∧
      (((c.subst (Subst.zip [V] [.prim ⟨5⟩]) .common .common).ask s).outcome {}).1 = .ok false := by
  decide +kernel

/-- What holds of the arguments that were inferred, if they mention no variable. -/
structure Inferred.Holds (s : Setting) (k : Fragment) (target : Ty) (l : Lineage) (types : List Ty)
    (i : Inferred) : Prop where
  length : l.params.length = types.length
  closes : Closes s k types
  target : ∀ Δ, Below s Δ i.result.toTy.shape target.shape
  bounds : ∀ p ∈ l.params, ∀ Δ, Below s Δ ((Subst.zip l.params types).image (.declared p))
    ((s.catalog.upper p).rebuild (Subst.zip l.params types).image)

/-- **The arguments that were inferred meet the target and the bounds.** -/
theorem Concludes.holds {k : Fragment} (hs : s.Regular k) {target : Ty} {l : Lineage}
    {types : List Ty} {i : Inferred} (hc : Concludes s target l m m' types i)
    (hnames : (l.params.map TypeVar.name).Nodup) (htarget : target.Closed s k) (htame : m.Tame s k)
    (hvars : k = .full → ∀ t ∈ types, t.vars = [])
    (hprims : k = .plain → ∀ t ∈ types, t.isPrim = false) : i.Holds s k target l types := by
  obtain ⟨site, m₁, m₂, o, hst, hsearch, hfound, -, -⟩ := hc.found
  have hstands := stands_infer hs hc.lineage hnames htarget.whole htarget.vars hst.faithful
    (hst.keeps.tame htame) site
  obtain ⟨hlen, hcloses, hpending⟩ :=
    search_below hs hstands hsearch hfound hvars hprims
  refine ⟨hlen, hcloses, fun Δ => ?_, fun p hp Δ => ?_⟩
  · have hgoal := hpending _ (List.mem_append_right _ (List.mem_singleton.2 rfl))
      (known_own site i.decl l.params) (htarget.isOver.known fun _ => id) Δ
    have hresult : i.result.toTy.shape = .nominal .common i.decl ((types.map Ty.shape).map .type) := by
      rw [Nominal.toTy, Ty.shape_nominal, hc.decl, hc.args, List.map_map, List.map_map]
      rfl
    have hclosed : target.rebuild (Subst.zip l.params types).image = target.shape :=
      Ty.rebuild_eq_shape fun v hv => by rw [htarget.vars] at hv; cases hv
    rw [hresult, ← Subst.image_zip hlen (keys_nodup hnames), ← rebuild_own _ site, ← hclosed]
    exact hgoal
  · obtain ⟨_, hvars⟩ := hs.bounds i.decl l hc.lineage p hp
    refine hpending ⟨boundClaim s p, []⟩ ?_ ?_ (fun v hv => .inl ?_) Δ
    · exact List.mem_append_left _ (List.mem_flatMap.2 ⟨p, hp, List.mem_cons_self⟩)
    · exact fun v hv => .inl ⟨p, List.mem_singleton.1 hv, hp⟩
    · exact (hvars v hv).imp fun q hq => ⟨hq.2, hq.1⟩

/-- What was inferred from closed solutions is a closed type. -/
theorem Inferred.Holds.closed {k : Fragment} {target : Ty} {l : Lineage} {types : List Ty}
    {i : Inferred} (hc : Concludes s target l m m' types i) (h : i.Holds s k target l types) :
    i.result.toTy.Closed s k := by
  refine ⟨.inr ?_, ?_⟩
  · rw [Nominal.toTy, Ty.Regular, Arg.regularAll_iff, hc.decl, hc.args, List.length_map]
    refine ⟨⟨l, hc.lineage, .inr h.length.symm⟩, fun a ha => ?_⟩
    obtain ⟨t, ht, rfl⟩ := List.mem_map.1 ha
    exact (h.closes.regular t ht).1
  · rw [Nominal.toTy, Ty.vars, hc.args]
    refine List.eq_nil_iff_forall_not_mem.2 fun v hv => ?_
    obtain ⟨a, ha, hv⟩ := Arg.mem_varsAll.1 hv
    obtain ⟨t, ht, rfl⟩ := List.mem_map.1 ha
    rw [Arg.vars, h.closes.vars t ht] at hv
    cases hv

/-- **An inferred type is below its target**, if it mentions no captured variable: over a vetted
catalog and for a closed target, no comparison of the two answers no. -/
theorem inferred_below_target (hv : s.Vetted) {decl : String}
    (hnames : ((s.paramsOf decl).map TypeVar.name).Nodup) {target : Ty} (htarget : target.Ground s)
    (hm : m.Faithful s) (htame : m.Tame s .full) {i : Inferred}
    (h : (infer s target decl).Answers m i m') (hvars : i.result.toTy.vars = []) {m₁ m₂ : Memory}
    (hm₁ : m₁.Faithful s) (ht₁ : m₁.Tame s .full) {r : Bool}
    (hr : (s.below i.result.toTy target).Answers m₁ r m₂) : r = true := by
  have hs := hv.regular
  obtain ⟨rfl, l, types, hc⟩ := infer_answers hm h
  rw [paramsOf_eq hc.lineage] at hnames
  have hclosed : ∀ t ∈ types, t.vars = [] := by
    intro t ht
    refine List.eq_nil_iff_forall_not_mem.2 fun v hv => ?_
    have hmem : v ∈ i.result.toTy.vars := by
      rw [Nominal.toTy, Ty.vars, Arg.mem_varsAll, hc.args]
      exact ⟨_, List.mem_map_of_mem ht, hv⟩
    rw [hvars] at hmem
    cases hmem
  have hholds := hc.holds hs hnames htarget.closed htame (fun _ => hclosed) fun hk => by cases hk
  have hcomparable := (hholds.closed hc).comparable htarget.closed m₁.scope
  exact (below_decides hs _ _ _ _ hcomparable m₁ r m₂ ⟨hm₁, .refl _, ht₁⟩ hr).2.2 (hholds.target _)

/-- `ArrayList` is inferred for `Collection<Integer>`, and the result is below it. -/
theorem inferred_below_target_standard :
    let s : Setting := { catalog := .standard }
    let target : Ty := .nominal ⟨.given 0, [0]⟩ "Collection"
      [.type (.nominal ⟨.given 0, [11]⟩ "Integer" [])]
    ∃ i m', (infer s target "ArrayList").Answers {} i m' ∧
      ∀ r m'', (s.below i.result.toTy target).Answers {} r m'' → r = true := by
  intro s target
  obtain ⟨hnames, haccepts, hinfer⟩ : ((s.paramsOf "ArrayList").map TypeVar.name).Nodup ∧
      s.acceptsWithin 20 target = true ∧ ((infer s target "ArrayList").outcome {}).1.map
        (fun i => i.result.toTy.vars.isEmpty) = .ok true := by decide +kernel
  obtain ⟨i, m', hinfer, hvars⟩ := exists_answers hinfer
  have htarget : target.Ground s := ⟨rfl, rfl, .of_within haccepts, .inr (by decide)⟩
  refine ⟨i, m', hinfer, fun r m'' hr => ?_⟩
  exact inferred_below_target vetted_standard hnames htarget (Memory.faithful_empty s)
    (Memory.tame_empty s .full) hinfer (List.isEmpty_iff.1 hvars) (Memory.faithful_empty s)
    (Memory.tame_empty s .full) hr

/-- With `G<V>` below `Iterable<List<V>>`, the captured wildcard of `Iterable<List<? extends Number>>`
is inferred, and the result is not below the target. -/
theorem inferred_refuted :
    let s : Setting :=
      ⟨.extended [{ name := "G", params := [{ name := "V" }], parents := ["Iterable<List<V>>"] }], {},
        100000⟩
    let target : Ty := .nominal ⟨.given 0, [0]⟩ "Iterable" [.type (.nominal ⟨.given 0, [9]⟩ "List"
      [.wild (.nominal ⟨.given 0, [24]⟩ "Number" []) .null])]
    ((target.check s).outcome {}).1 = .ok () ∧
      ((infer s target "G" >>= fun i => s.below i.result.toTy target).outcome {}).1 = .ok false := by
  decide +kernel

end Inference
end Generics
