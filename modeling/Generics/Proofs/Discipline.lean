/-
# The discipline of what is filed

Constraints on an unknown are filed, replaced in place, handed on and dropped while a search goes on. At
every point that a search can reach, in any branch, what is filed is in order (`Problem.Disciplined`):

- a constraint is filed with the unknown on its left, among those of its relation, and on its right is
  neither the type of null nor an intersection;
- a solution is neither of them either, and mentions no unknown;
- a closed unknown has a solution, and nothing is filed with it.

Nothing is assumed of the catalog, the variables or the constraints. Two variables may even have one
key: the first of them takes all constraints, and the others stay idle. What keeps a constraint from
being filed with a closed unknown is that closed unknowns are replaced by their solutions before, and
these mention no unknown (`lookup_eq_none_of_unknown`). What keeps a filed constraint on its unknown while
solutions are put in is that no other unknown of its key has one (`Problem.Kept.lookup_eq_none`).

So no argument that is inferred is the type of null, an intersection, or a type that mentions a parameter
of the declaration (`search_disciplined`).
-/

import Generics.Proofs.Budgets

namespace Generics

/-- The type is neither the type of null nor an intersection. -/
def Ty.Acceptable (t : Ty) : Prop := t ≠ .null ∧ t.isInter = false

namespace Ty

variable {σ : Subst} {t t' : Ty}

/-- Whether a type is acceptable is a matter of its shape. -/
theorem acceptable_shape : t.shape.Acceptable ↔ t.Acceptable := by
  cases t <;> simp [Acceptable, shape, rebuild, isInter]

/-- An acceptable type stays acceptable when acceptable types are put in. -/
theorem Acceptable.replaced (ht : t.Acceptable) (h : Ty.Replaced σ t t')
    (hσ : ∀ v u, σ.lookup v = some u → u.Acceptable) : t'.Acceptable := by
  rw [← acceptable_shape, h.shape]
  cases t with
  | var v =>
    cases hlook : σ.lookup v with
    | none => simp [rebuild, Subst.image_of_none hlook, Acceptable, isInter]
    | some u =>
      rw [rebuild, Subst.image_of_some hlook, acceptable_shape]
      exact hσ v u hlook
  | null => exact absurd rfl ht.1
  | inter s ms => cases ht.2
  | _ => simp [rebuild, Acceptable, isInter]

/-- What looks like a variable is one. -/
theorem eq_var_of_shape {v : Var} (h : t.shape = .var v) : t = .var v := by
  cases t <;> simp_all [shape, rebuild]

/-- A variable that is left after replacing is not replaced, unless by types that are variables. -/
theorem Replaced.lookup_eq_none {v : Var} (h : Ty.Replaced σ t (.var v))
    (hσ : ∀ w u, σ.lookup w = some u → u ≠ .var v) : σ.lookup v = none := by
  have hshape := h.shape
  cases t with
  | var w =>
    cases hlook : σ.lookup w with
    | none =>
      rw [rebuild, Subst.image_of_none hlook] at hshape
      cases hshape
      exact hlook
    | some u =>
      rw [rebuild, Subst.image_of_some hlook] at hshape
      exact absurd (eq_var_of_shape hshape.symm) (hσ w u hlook)
  | _ => cases hshape

end Ty

namespace Inference

open Query

variable {s : Setting} {m m' : Memory} {vars : List TypeVar} {p p' : Problem} {τ : Subst}
  {mentions : Ty → Bool}

/-! ### Unknowns -/

namespace Unknown

/-- The constraints of a relation that are filed. -/
def bucket (u : Unknown) : Relation → List Constraint
  | .below => u.upper
  | .equal => u.equal
  | .above => u.lower

/-- The constraint is on the unknown, by the relation, and what it compares the unknown with is
acceptable. -/
structure Takes (u : Unknown) (rel : Relation) (c : Constraint) : Prop where
  rel : c.rel = rel
  lhs : ∃ w, c.lhs = .var (.declared w) ∧ w.key = u.var.key
  rhs : c.rhs.Acceptable

/-- What is filed with the unknown is in order, and so is its solution. -/
structure Disciplined (mentions : Ty → Bool) (u : Unknown) : Prop where
  filed : ∀ rel, ∀ c ∈ u.bucket rel, u.Takes rel c
  solution : ∀ t, u.solution = some t → t.Acceptable ∧ mentions t = false
  closed : u.closed = true → u.solution.isSome = true ∧ ∀ rel, u.bucket rel = []

/-- Nothing is filed with the unknown, and it has no solution. -/
def Idle (u : Unknown) : Prop := (∀ rel, u.bucket rel = []) ∧ u.solution = none

variable {u u' : Unknown} {c : Constraint} {cs : List Constraint}

/-- What an unknown takes, it takes with anything else filed. -/
theorem Takes.congr {rel : Relation} (h : u.Takes rel c) (hvar : u'.var = u.var) : u'.Takes rel c :=
  ⟨h.rel, by rw [hvar]; exact h.lhs, h.rhs⟩

/-- What is filed after adding a constraint was filed before, or is the constraint. -/
theorem mem_bucket_add {rel : Relation} {d : Constraint} (h : d ∈ (u.add c).bucket rel) :
    d ∈ u.bucket rel ∨ d = c ∧ c.rel = rel := by
  unfold add at h
  cases hrel : c.rel <;> cases rel <;> simp_all [bucket]

/-- Filing an acceptable constraint on an open unknown keeps it in order. -/
theorem Disciplined.file (hu : u.Disciplined mentions) (hopen : u.closed = false)
    (hlhs : ∃ w, c.lhs = .var (.declared w) ∧ w.key = u.var.key) (hflat : c.rhs.isInter = false)
    (h : u.file c = .ok u') : u'.Disciplined mentions ∧ u'.var = u.var := by
  unfold Unknown.file at h
  split at h
  · split at h
    · cases h
      exact ⟨hu, rfl⟩
    · cases h
  · next hnull =>
    have hadd : u' = u.add c := by
      rw [add]
      cases hrel : c.rel <;> rw [hrel] at h <;> exact (Except.ok.inj h).symm
    have hrest : (u.add c).solution = u.solution ∧ (u.add c).closed = u.closed := by
      unfold add
      split <;> exact ⟨rfl, rfl⟩
    have hvar := (u.add_extends c).var
    rw [hadd]
    refine ⟨⟨fun rel d hd => ?_, fun t ht => hu.solution t (hrest.1 ▸ ht), fun hclosed => ?_⟩, hvar⟩
    · rcases mem_bucket_add hd with hd | ⟨rfl, hrel⟩
      · exact (hu.filed rel d hd).congr hvar
      · exact ⟨hrel, by rw [hvar]; exact hlhs, hnull, hflat⟩
    · rw [hrest.2, hopen] at hclosed
      cases hclosed

/-- Promoting keeps what is filed in order. -/
theorem Disciplined.promote (hu : u.Disciplined mentions) : (u.promote mentions).Disciplined mentions := by
  rcases u.promote_cases mentions with h | ⟨hopen, -, c, pre, post, hequal, hc, h⟩
  · rwa [h]
  · have hmem : c ∈ u.bucket .equal := by
      rw [bucket, hequal]
      exact List.mem_append_right _ List.mem_cons_self
    rw [h]
    refine ⟨fun rel d hd => ?_, fun t ht => ?_, fun hclosed => absurd hclosed (by simp [hopen])⟩
    · refine (hu.filed rel d ?_).congr rfl
      cases rel with
      | equal =>
        rw [bucket, hequal]
        exact List.mem_append.2 ((List.mem_append.1 hd).imp_right (List.mem_cons_of_mem _))
      | _ => exact hd
    · cases ht
      exact ⟨(hu.filed .equal c hmem).rhs, hc⟩

/-- Promoting leaves idle unknowns idle. -/
theorem Idle.promote (hu : u.Idle) : (u.promote mentions).Idle := by
  rcases u.promote_cases mentions with h | ⟨-, -, c, pre, post, hequal, -, -⟩
  · rwa [h]
  · have hnil : u.equal = [] := hu.1 .equal
    rw [hnil] at hequal
    simp at hequal

/-- Handing on keeps an unknown in order if acceptable types are put in, but none for itself while
something is filed with it. -/
theorem Disciplined.handed (hu : u.Disciplined mentions)
    (hτ : ∀ v t, τ.lookup v = some t → t.Acceptable)
    (hself : u.solution = none → ¬ u.Idle →
      ∀ v : TypeVar, v.key = u.var.key → τ.lookup (.declared v) = none)
    (h : u.Handed τ u' cs) : u'.Disciplined mentions := by
  cases h with
  | closed _ => exact hu
  | solved _ hsol _ _ _ =>
    refine ⟨fun rel c hc => ?_, hu.solution, fun _ => ⟨hsol, fun rel => ?_⟩⟩
    · cases rel <;> cases hc
    · cases rel <;> rfl
  | waiting hopen hnone hupper hequal hlower =>
    have htakes : ∀ rel {ds : List Constraint},
        List.Forall₂ (Constraint.Becomes τ) (u.bucket rel) ds → ∀ d ∈ ds, u.Takes rel d := by
      intro rel ds hall d hd
      obtain ⟨c, hc, hbec⟩ := exists_of_forall₂_right hall hd
      obtain ⟨hrel, ⟨w, hw, hkey⟩, hrhs⟩ := hu.filed rel c hc
      have hnone := hself hnone (fun hidle => by rw [hidle.1 rel] at hc; cases hc) w hkey
      refine ⟨hbec.rel.trans hrel, ⟨w, ?_, hkey⟩, hrhs.replaced hbec.rhs hτ⟩
      refine Ty.eq_var_of_shape ?_
      rw [hbec.lhs.shape, hw, Ty.rebuild, Subst.image_of_none hnone]
    refine ⟨fun rel c hc => ?_, hu.solution, fun hclosed => absurd hclosed (by simp [hopen])⟩
    cases rel with
    | below => exact (htakes .below hupper c hc).congr rfl
    | equal => exact (htakes .equal hequal c hc).congr rfl
    | above => exact (htakes .above hlower c hc).congr rfl

/-- Handing on leaves idle unknowns idle. -/
theorem Idle.handed (hu : u.Idle) (h : u.Handed τ u' cs) : u'.Idle := by
  obtain ⟨hnil, hnone⟩ := hu
  cases h with
  | closed _ => exact ⟨hnil, hnone⟩
  | solved _ hsol _ _ _ =>
    rw [hnone] at hsol
    cases hsol
  | waiting _ _ hupper hequal hlower =>
    have hu : u.upper = [] := hnil .below
    have he : u.equal = [] := hnil .equal
    have hl : u.lower = [] := hnil .above
    rw [hu] at hupper
    rw [he] at hequal
    rw [hl] at hlower
    cases hupper
    cases hequal
    cases hlower
    exact ⟨fun rel => by cases rel <;> rfl, hnone⟩

/-- Picking keeps what is filed in order. -/
theorem Disciplined.picked (hu : u.Disciplined mentions) (h : u.Picked mentions u') :
    u'.Disciplined mentions := by
  cases h with
  | none => exact hu
  | @bound c hopen _ hc hment =>
    have hrhs : c.rhs.Acceptable := by
      rcases List.mem_append.1 hc with hc | hc
      · exact (hu.filed .above c hc).rhs
      · exact (hu.filed .below c hc).rhs
    refine ⟨fun rel d hd => ?_, fun t ht => ?_, fun hclosed => absurd hclosed (by simp [hopen])⟩
    · cases rel with
      | equal => exact (hu.filed .equal d hd).congr rfl
      | _ => cases hd
    · cases ht
      exact ⟨hrhs, hment⟩

/-- Picking leaves idle unknowns idle. -/
theorem Idle.picked (hu : u.Idle) (h : u.Picked mentions u') : u'.Idle := by
  cases h with
  | none => exact hu
  | bound _ _ hc _ =>
    have hupper : u.upper = [] := hu.1 .below
    have hlower : u.lower = [] := hu.1 .above
    rw [hupper, hlower] at hc
    cases hc

/-- Handing on is done unknown by unknown. -/
theorem HandedAll.forall₂ {us us' : List Unknown} (h : HandedAll τ us us' cs) :
    List.Forall₂ (fun u u' => ∃ ds, u.Handed τ u' ds) us us' := by
  induction h with
  | nil => exact .nil
  | cons hu _ ih => exact .cons ⟨_, hu⟩ ih

end Unknown

/-! ### Problems -/

/-- A variable of the type has the key of one of the variables. -/
def mentionsAny (vars : List TypeVar) (t : Ty) : Bool :=
  t.vars.any fun v => vars.any fun w => w.key == v.key

namespace Problem

/-- What is filed with the unknowns is in order. -/
def Disciplined (p : Problem) : Prop := ∀ u ∈ p.unknowns, u.Disciplined p.mentions

/-- The unknowns are the variables, and what is filed with them is in order. Among unknowns of one key,
those behind the first one are idle. -/
structure Kept (vars : List TypeVar) (p : Problem) : Prop where
  domain : p.unknowns.map Unknown.var = vars
  unknowns : ∀ u ∈ p.unknowns, u.Disciplined (mentionsAny vars)
  idle : p.unknowns.Pairwise fun u u' => u.var.key = u'.var.key → u'.Idle

/-- What is unknown in a problem is told by the keys of its variables. -/
theorem isUnknown_eq (h : p.unknowns.map Unknown.var = vars) (key : VarKey) :
    p.isUnknown key = vars.any fun w => w.key == key := by
  rw [← h, List.any_map]
  rfl

/-- A type mentions an unknown if it mentions the key of one of the variables. -/
theorem mentions_eq (h : p.unknowns.map Unknown.var = vars) : p.mentions = mentionsAny vars := by
  funext t
  simp only [mentions, mentionsAny, isUnknown_eq h]

namespace Kept

/-- What is kept in order is in order. -/
theorem disciplined (h : p.Kept vars) : p.Disciplined := by
  rw [Disciplined, mentions_eq h.domain]
  exact h.unknowns

/-- What is put in for unknowns is acceptable and mentions none. -/
theorem solutions (h : p.Kept vars) (cond : Unknown → Bool) :
    ∀ v t, (p.solutionsWhere cond).lookup v = some t → t.Acceptable ∧ mentionsAny vars t = false := by
  intro v t hlook
  obtain ⟨u, hu, -, ht, -⟩ := lookup_solutionsWhere hlook
  exact (h.unknowns u hu).solution t ht

/-- **Nothing is put in for an unsolved unknown that something is filed with.** -/
theorem lookup_eq_none (h : p.Kept vars) {u : Unknown} (hu : u ∈ p.unknowns) (hnone : u.solution = none)
    (hbusy : ¬ u.Idle) {v : TypeVar} (hkey : v.key = u.var.key) (cond : Unknown → Bool) :
    (p.solutionsWhere cond).lookup (.declared v) = none := by
  rw [Option.eq_none_iff_forall_ne_some]
  intro t hlook
  obtain ⟨u', hu', -, ht, hkey'⟩ := lookup_solutionsWhere hlook
  have hne : u ≠ u' := by
    rintro rfl
    rw [hnone] at ht
    cases ht
  -- one of the two unknowns is behind the other one, but neither is idle
  have : Std.Symm fun u u' : Unknown => u.var.key = u'.var.key → u.Idle ∨ u'.Idle :=
    ⟨fun _ _ hidle hkey => (hidle hkey.symm).symm⟩
  have hpairs : p.unknowns.Pairwise fun u u' => u.var.key = u'.var.key → u.Idle ∨ u'.Idle :=
    h.idle.imp fun hidle hkey => .inr (hidle hkey)
  rcases hpairs.forall hu hu' hne (hkey.symm.trans hkey'.symm) with hidle | hidle
  · exact hbusy hidle
  · rw [hidle.2] at ht
    cases ht

/-- What is still an unknown with closed unknowns replaced is open. -/
theorem lookup_eq_none_of_unknown (h : p.Kept vars) {t : Ty} {w : TypeVar}
    (ht : Ty.Replaced (p.solutionsWhere Unknown.closed) t (.var (.declared w)))
    (hw : p.isUnknown w.key = true) :
    (p.solutionsWhere Unknown.closed).lookup (.declared w) = none := by
  refine ht.lookup_eq_none fun v u hlook hu => ?_
  have hment := (h.solutions _ v u hlook).2
  rw [isUnknown_eq h.domain] at hw
  rw [hu, mentionsAny, Ty.vars, List.any_cons, Bool.or_eq_false_iff] at hment
  cases hment.1.symm.trans hw

/-- What changes each unknown without changing its variable or stirring it when it is idle. -/
theorem of_forall₂ (h : p.Kept vars) (hall : List.Forall₂ (fun u u' => u'.var = u.var ∧
      u'.Disciplined (mentionsAny vars) ∧ (u.Idle → u'.Idle)) p.unknowns p'.unknowns) :
    p'.Kept vars := by
  have hlen := hall.length_eq
  have hat : ∀ i (hi : i < p.unknowns.length) (hi' : i < p'.unknowns.length),
      p'.unknowns[i].var = p.unknowns[i].var ∧ p'.unknowns[i].Disciplined (mentionsAny vars) ∧
        (p.unknowns[i].Idle → p'.unknowns[i].Idle) := fun i hi hi' => hall.get hi hi'
  refine ⟨?_, fun u' hu' => ?_, List.pairwise_iff_getElem.2 fun i j hi hj hij hkey => ?_⟩
  · rw [← h.domain]
    refine List.ext_getElem (by simp [hlen]) fun i hi hi' => ?_
    rw [List.length_map] at hi hi'
    rw [List.getElem_map, List.getElem_map]
    exact (hat i hi' hi).1
  · obtain ⟨i, hi, rfl⟩ := List.getElem_of_mem hu'
    exact (hat i (hlen ▸ hi) hi).2.1
  · obtain ⟨hvar, -, -⟩ := hat i (hlen ▸ hi) hi
    obtain ⟨hvar', -, hidle⟩ := hat j (hlen ▸ hj) hj
    rw [hvar, hvar'] at hkey
    exact hidle (List.pairwise_iff_getElem.1 h.idle i j _ _ hij hkey)

/-- Promoting keeps a problem in order. -/
theorem promote (h : p.Kept vars) : p.promote.Kept vars := by
  refine h.of_forall₂ (List.forall₂_map_right_iff.2 (List.forall₂_same.2 fun u hu => ?_))
  rw [mentions_eq h.domain]
  exact ⟨(u.promote_extends _).var, (h.unknowns u hu).promote, Unknown.Idle.promote⟩

/-- Handing on keeps a problem in order. -/
theorem hand (h : p.Kept vars) (hhand : p.hand.Answers m p' m') : p'.Kept vars := by
  obtain ⟨cs, -, -, hhanded⟩ := hand_handed hhand
  refine h.of_forall₂ (((List.forall₂_and_left _ _).2 ⟨fun u hu => hu, hhanded.forall₂⟩).imp ?_)
  rintro u u' ⟨hu, ds, hds⟩
  exact ⟨hds.var, (h.unknowns u hu).handed (fun v t hlook => (h.solutions _ v t hlook).1)
    (fun hnone hbusy v hkey => h.lookup_eq_none hu hnone hbusy hkey _) hds, fun hidle => hidle.handed hds⟩

/-- Picking keeps a problem in order. -/
theorem pick (h : p.Kept vars) (hpick : (p.pick s).Answers m (.ok p') m') : p'.Kept vars := by
  refine h.of_forall₂ (((List.forall₂_and_left _ _).2 ⟨fun u hu => hu, (pick_picked hpick).1⟩).imp ?_)
  rintro u u' ⟨hu, hpicked⟩
  rw [mentions_eq h.domain] at hpicked
  have hvar : u'.var = u.var := by cases hpicked <;> rfl
  exact ⟨hvar, (h.unknowns u hu).picked hpicked, fun hidle => hidle.picked hpicked⟩

/-- **A constraint is filed with an open unknown only**, so that it stays in order. -/
theorem file (h : p.Kept vars) {c : Constraint} {us : List Unknown}
    (hreduce : (p.reduce s c).Answers m (.filed us) m') : ({ p with unknowns := us } : Problem).Kept vars := by
  obtain ⟨c', d, w, hbec, hd, hlhs, hflat, hw, hfile⟩ := reduce_filed hreduce
  obtain ⟨pre, u, post, u', hus, rfl, hkey, hu', hpre⟩ := Unknown.fileWith_first hfile hw
  have hu : u ∈ p.unknowns := by
    rw [hus]
    exact List.mem_append_right _ List.mem_cons_self
  have hlook : (p.solutionsWhere Unknown.closed).lookup (.declared w) = none := by
    rcases hd with rfl | rfl
    · exact h.lookup_eq_none_of_unknown (hlhs ▸ hbec.lhs) hw
    · have hlhs : c'.rhs = .var (.declared w) := hlhs
      exact h.lookup_eq_none_of_unknown (hlhs ▸ hbec.rhs) hw
  have hopen : u.closed = false := by
    rw [← Bool.not_eq_true]
    intro hclosed
    have hsome := lookup_solutionsWhere_isSome Unknown.closed hu hclosed
      ((h.unknowns u hu).closed hclosed).1 (v := .declared w) hkey
    rw [hlook] at hsome
    cases hsome
  obtain ⟨hdisciplined, hvar⟩ := (h.unknowns u hu).file hopen ⟨w, hlhs, hkey.symm⟩ hflat hu'
  have hmem : ∀ x ∈ pre ++ u' :: post, x = u' ∨ x ∈ p.unknowns := by
    intro x hx
    rw [hus, List.mem_append, List.mem_cons]
    rcases List.mem_append.1 hx with hx | hx
    · exact .inr (.inl hx)
    · exact (List.mem_cons.1 hx).imp_right fun hx => .inr (.inr hx)
  have hidle := h.idle
  rw [hus, List.pairwise_append, List.pairwise_cons] at hidle
  refine ⟨?_, fun x hx => ?_, ?_⟩
  · rw [← h.domain, hus, List.map_append, List.map_append, List.map_cons, List.map_cons, hvar]
  · rcases hmem x hx with rfl | hx
    · exact hdisciplined
    · exact h.unknowns x hx
  · refine List.pairwise_append.2 ⟨hidle.1, List.pairwise_cons.2 ⟨?_, hidle.2.1.2⟩, ?_⟩
    · rw [hvar]
      exact hidle.2.1.1
    · refine fun x hx y hy => ?_
      rcases List.mem_cons.1 hy with rfl | hy
      · exact fun hxy => absurd (hxy.trans ((congrArg TypeVar.key hvar).trans hkey)) (hpre x hx)
      · exact hidle.2.2 x hx y (List.mem_cons_of_mem _ hy)

/-- Problems with the same unknowns are alike. -/
theorem congr (h : p.Kept vars) (hunknowns : p'.unknowns = p.unknowns) : p'.Kept vars := by
  obtain ⟨hdomain, hall, hidle⟩ := h
  rw [← hunknowns] at hdomain hall hidle
  exact ⟨hdomain, hall, hidle⟩

/-- A problem starts in order, whatever its constraints. -/
theorem start (s : Setting) (vars : List TypeVar) (cs : List Constraint) :
    ((Problem.start s vars).push cs).Kept vars := by
  have hidle : ∀ u ∈ ((Problem.start s vars).push cs).unknowns, u.Idle ∧ u.closed = false := by
    intro u hu
    obtain ⟨v, -, rfl⟩ := List.mem_map.1 hu
    exact ⟨⟨fun rel => by cases rel <;> rfl, rfl⟩, rfl⟩
  refine ⟨?_, fun u hu => ?_, ?_⟩
  · show (vars.map fun v => ({ var := v } : Unknown)).map Unknown.var = vars
    rw [List.map_map]
    exact List.map_id vars
  · obtain ⟨⟨hnil, hnone⟩, hopen⟩ := hidle u hu
    refine ⟨fun rel c hc => ?_, fun t ht => ?_, fun hclosed => ?_⟩
    · rw [hnil rel] at hc
      cases hc
    · rw [hnone] at ht
      cases ht
    · rw [hopen] at hclosed
      cases hclosed
  · exact List.pairwise_of_forall_mem_list fun u _ u' hu' _ => (hidle u' hu').1

end Kept

end Problem

/-! ### Rounds -/

/-- The solutions are acceptable and mention none of the variables. -/
def Outcome.Proper (vars : List TypeVar) (o : Outcome) : Prop :=
  ∀ types, o.solutions = some types → ∀ t ∈ types, t.Acceptable ∧ mentionsAny vars t = false

/-- The solutions of a problem in order are proper. -/
theorem Problem.Kept.outcome (h : p.Kept vars) : p.outcome.Proper vars := by
  intro types htypes t ht
  unfold Problem.outcome at htypes
  dsimp only at htypes
  split at htypes
  · cases htypes
    obtain ⟨u, hu, hsol⟩ := List.mem_filterMap.1 ht
    exact (h.unknowns u hu).solution t hsol
  · cases htypes

/-- What a round leads to is kept in order. -/
def Turn.Keeps (vars : List TypeVar) : Turn → Prop
  | .next x => x.problem.Kept vars
  | .fork branches => ∀ p ∈ branches, p.Kept vars
  | .done o => o.Proper vars

/-- Advancing by a constraint keeps a problem in order. -/
theorem Problem.Kept.advanceBy (h : p.Kept vars) (c : Constraint) (rest : List Constraint) :
    Yields (fun progress => progress.turn.Keeps vars) (p.advanceBy s c rest) := by
  intro m progress m' hadvance
  obtain ⟨r, m₁, hreduce, hadvance⟩ := answers_bind.1 hadvance
  cases r with
  | filed us =>
    obtain ⟨rfl, rfl⟩ := answers_pure.1 hadvance
    have hrest : ({ p with pending := rest } : Problem).Kept vars := h.congr rfl
    exact hrest.file hreduce
  | allOf cs =>
    obtain ⟨rfl, rfl⟩ := answers_pure.1 hadvance
    exact h.congr rfl
  | oneOf cs =>
    obtain ⟨rfl, rfl⟩ := answers_pure.1 hadvance
    intro p' hp'
    obtain ⟨d, -, rfl⟩ := List.mem_map.1 hp'
    exact h.congr rfl
  | refuted f =>
    obtain ⟨rfl, rfl⟩ := answers_pure.1 hadvance
    exact nofun

/-- Concluding keeps a problem in order. -/
theorem Problem.Kept.conclude (h : p.Kept vars) :
    Yields (fun progress => progress.turn.Keeps vars) (p.conclude s) := by
  intro m progress m' hconclude
  unfold Problem.conclude at hconclude
  split at hconclude
  · obtain ⟨r, m₁, hpick, hconclude⟩ := answers_bind.1 hconclude
    cases r with
    | error f =>
      obtain ⟨rfl, rfl⟩ := answers_pure.1 hconclude
      exact nofun
    | ok p' =>
      dsimp only at hconclude
      split at hconclude
      · obtain ⟨rfl, rfl⟩ := answers_pure.1 hconclude
        exact (h.pick hpick).congr rfl
      · obtain ⟨rfl, rfl⟩ := answers_pure.1 hconclude
        exact (h.pick hpick).outcome
  · obtain ⟨rfl, rfl⟩ := answers_pure.1 hconclude
    exact h

/-- **A round keeps what is filed in order.** -/
theorem Point.round_keeps {x : Point} (h : x.problem.Kept vars) : Yields (Turn.Keeps vars) (x.round s) := by
  intro m turn m' hround
  obtain ⟨stage, p⟩ := x
  cases stage with
  | reducing =>
    rw [round] at hround
    split at hround
    · next c rest _ =>
      obtain ⟨progress, m₁, hadvance, hround⟩ := answers_bind.1 hround
      obtain ⟨rfl, rfl⟩ := answers_pure.1 hround
      exact h.advanceBy c rest _ _ _ hadvance
    · obtain ⟨rfl, rfl⟩ := answers_pure.1 hround
      exact h
  | settling =>
    rw [round] at hround
    split at hround
    · obtain ⟨p', m₁, hhand, hround⟩ := answers_bind.1 hround
      obtain ⟨rfl, rfl⟩ := answers_pure.1 hround
      exact h.promote.hand hhand
    · obtain ⟨progress, m₁, hconclude, hround⟩ := answers_bind.1 hround
      obtain ⟨rfl, rfl⟩ := answers_pure.1 hround
      exact h.promote.conclude _ _ _ hconclude

/-- **Any number of rounds do.** -/
theorem Point.Reaches.keeps {x y : Point} (h : Point.Reaches s x y) (hx : x.problem.Kept vars) :
    y.problem.Kept vars := by
  induction h with
  | refl => exact hx
  | tail _ hturns ih =>
    obtain ⟨m, turn, m', hround, hleads⟩ := hturns
    have hturn := Point.round_keeps ih _ _ _ hround
    cases turn with
    | next z =>
      obtain rfl : _ = z := hleads
      exact hturn
    | fork branches =>
      obtain ⟨p, hp, rfl⟩ := hleads
      exact hturn p hp
    | done o => cases hleads

/-! ### Outcomes -/

/-- Closing leaves proper solutions. -/
theorem Outcome.Proper.close {o : Outcome} (h : o.Proper vars) (failures : List Failure) :
    (o.close failures).Proper vars := fun types htypes =>
  h types (by rwa [Outcome.close_solutions] at htypes)

/-- Of two outcomes with proper solutions the merged one has such. -/
theorem Outcome.Proper.merge {o branch : Outcome} (h : o.Proper vars) (hbranch : branch.Proper vars) :
    (o.merge branch).Proper vars := fun types htypes =>
  (Outcome.merge_solutions htypes).elim (h types) (hbranch types)

mutual
/-- **A run from a problem in order ends with proper solutions.** -/
theorem Runs.proper {x : Point} {effort : Effort} {m m' : Memory} {log : List Event}
    {r : Except Failure (Outcome × Effort)} :
    Runs s x effort m log r m' → x.problem.Kept vars → ∀ b, r = .ok b → b.1.Proper vars
  | .tripped _, _, _, hb => by cases hb; exact nofun
  | .fails _ _, _, _, hb => by cases hb
  | .done _ h, hx, _, hb => by cases hb; exact Point.round_keeps hx _ _ _ h
  | .next _ h hrest, hx, b, hb => hrest.proper (Point.round_keeps hx _ _ _ h) b hb
  | .fork _ h hrest, hx, b, hb => hrest.proper (Point.round_keeps hx _ _ _ h) nofun b hb

/-- Branches that start in order end with proper solutions. -/
theorem RunsAll.proper {ps : List Problem} {o : Outcome} {failures : List Failure} {effort : Effort}
    {m m' : Memory} {log : List Event} {r : Except Failure (Outcome × Effort)} :
    RunsAll s ps o failures effort m log r m' → (∀ p ∈ ps, p.Kept vars) → o.Proper vars →
      ∀ b, r = .ok b → b.1.Proper vars
  | .nil, _, ho, _, hb => by cases hb; exact ho.close _
  | .fails _, _, _, _, hb => by cases hb
  | .runaway _ _, _, ho, _, hb => by cases hb; exact ho
  | .stop hbranch _ _, hps, ho, _, hb => by
    have hbranch := hbranch.proper (hps _ List.mem_cons_self) _ rfl
    cases hb
    exact (ho.merge hbranch).close _
  | .next hbranch _ _ hrest, hps, ho, b, hb =>
    hrest.proper (fun p hp => hps p (List.mem_cons_of_mem _ hp))
      (ho.merge (hbranch.proper (hps _ List.mem_cons_self) _ rfl)) b hb
end

/-- A search of a problem in order ends with proper solutions. -/
theorem search_proper (s : Setting) (hp : p.Kept vars) :
    Yields (fun r => r.1.Proper vars) (search s p) := by
  intro m r m' h
  obtain ⟨log, r', m₁, hout, hruns⟩ := search_runs s p m
  cases hout.symm.trans h
  exact hruns.proper hp r rfl

/-- **What is filed is in order at every point that a search reaches**, for any variables and constraints:
the unknowns are the variables; a filed constraint has its unknown on the left and neither the type of
null nor an intersection on the right; a solution is neither of them, and mentions no unknown; a closed
unknown has a solution, and nothing is filed with it. So an argument that is inferred is neither of them,
and mentions no parameter of the declaration. -/
theorem search_disciplined (s : Setting) :
    (∀ vars cs x, Point.Reaches s ((Problem.start s vars).push cs).point x →
      x.problem.unknowns.map Unknown.var = vars ∧ x.problem.Disciplined) ∧
    ∀ target decl m i m', (infer s target decl).Answers m i m' →
      ∃ params m₁, (s.params decl).Answers m params m₁ ∧ ∀ a ∈ i.result.args,
        ∃ t, a = .type t ∧ t.Acceptable ∧ ∀ v ∈ t.vars, ∀ w ∈ params, v.key ≠ w.key := by
  refine ⟨fun vars cs x hx => ?_, fun target decl m i m' h => ?_⟩
  · have hkept := hx.keeps (Problem.Kept.start s vars cs)
    exact ⟨hkept.domain, hkept.disciplined⟩
  · obtain ⟨params, m₁, hparams, h⟩ := answers_bind.1 h
    obtain ⟨seed, m₂, -, h⟩ := answers_bind.1 h
    obtain ⟨⟨o, effort⟩, m₃, hsearch, h⟩ := answers_bind.1 h
    have hproper := search_proper s (Problem.Kept.start s params _) _ _ _ hsearch
    refine ⟨params, m₁, hparams, fun a ha => ?_⟩
    cases htypes : o.solutions with
    | none =>
      simp only [htypes] at h
      exact absurd h answers_throw
    | some types =>
      simp only [htypes] at h
      obtain ⟨n, m₄, hbuild, h⟩ := answers_bind.1 h
      obtain ⟨rfl, rfl⟩ := answers_pure.1 h
      have hargs : n.args = types.map .type := by
        cases hbuild
        rfl
      rw [hargs] at ha
      obtain ⟨t, ht, rfl⟩ := List.mem_map.1 ha
      obtain ⟨hacceptable, hment⟩ := hproper types htypes t ht
      refine ⟨t, rfl, hacceptable, fun v hv w hw hkey => ?_⟩
      rw [mentionsAny, List.any_eq_false] at hment
      exact hment v hv (List.any_eq_true.2 ⟨w, hw, by simp [hkey]⟩)

/-- The first round of an inference for `ArrayList` files the bound of its parameter, and inferring
`ArrayList` for `List<String>` finds an argument. -/
theorem search_disciplined_list :
    let s : Setting := { catalog := .standard }
    let list : Ty := .nominal ⟨.given 0, [0]⟩ "List" [.type (.nominal ⟨.given 0, [5]⟩ "String" [])]
    let p : Problem := (Problem.start s [⟨"ArrayList", "E", .param 0⟩]).push []
    (∃ x, Point.Reaches s p.point x ∧ (x.problem.unknowns.any fun u => !u.upper.isEmpty) = true ∧
      x.problem.Disciplined) ∧
    ∃ i m', (infer s list "ArrayList").Answers {} i m' ∧ i.result.args.length = 1 ∧
      ∀ a ∈ i.result.args, ∃ t, a = .type t ∧ t.Acceptable := by
  intro s list p
  obtain ⟨hreaches, hinfers⟩ := search_disciplined s
  refine ⟨?_, ?_⟩
  · obtain ⟨turn, m', hround, htest⟩ : ∃ turn m', (p.point.round s).Answers {} turn m' ∧
        (match turn with
          | .next y => y.problem.unknowns.any fun u => !u.upper.isEmpty
          | _ => false) = true := exists_answers (by decide +kernel)
    cases turn with
    | next y =>
      have hy : Point.Reaches s p.point y := .single ⟨{}, _, m', hround, rfl⟩
      exact ⟨y, hy, htest, (hreaches _ _ y hy).2⟩
    | _ => cases htest
  · obtain ⟨i, m', hi, hlen⟩ : ∃ i m', (infer s list "ArrayList").Answers {} i m' ∧
        decide (i.result.args.length = 1) = true := exists_answers (by decide +kernel)
    refine ⟨i, m', hi, of_decide_eq_true hlen, fun a ha => ?_⟩
    obtain ⟨_, _, -, hargs⟩ := hinfers _ _ _ _ _ hi
    obtain ⟨t, rfl, hacceptable, -⟩ := hargs a ha
    exact ⟨t, rfl, hacceptable⟩

end Inference
end Generics
