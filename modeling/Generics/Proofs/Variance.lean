/-
# Wider wildcards

An applied declaration is below the one in which a wildcard was made wider: its upper bound goes up, its
lower bound goes down (`Setting.wildcard_variance`). The comparison captures the left side, so the bounds are
compared anew, in another memory and past the new variable, and from the bound of the variable, in which the
upper bound of the wildcard was put together with the bound of the parameter. What carries the proof is that
a yes lasts: what was once conceded of types that are older than the capture (`Setting.Conceded`) is not
denied later (`Conceded.persists`), also of an intersection to which members were added
(`Conceded.widened`).
-/

import Generics.Proofs.Alignments

namespace Generics
namespace Setting

open Query

variable {s : Setting} {k r : Memory} {trail trail' : Trail} {a b : Ty} {depth : Nat}

/-! ## Answers that last -/

/-- The comparison once answered yes, after the memory `k`. -/
def Conceded (s : Setting) (k : Memory) (trail : Trail) (a b : Ty) : Prop :=
  ∃ depth m m', k.Precedes s m ∧ (s.belowWithin depth trail a b).Answers m true m'

/-- All that the type bears was handed out before the memory. -/
abbrev Borne (s : Setting) (k : Memory) (t : Ty) : Prop := s.Spared k k k t

/-- The same old variables were gone through, and variables captured between two memories in addition. -/
structure Extends (k r : Memory) (trail trail' : Trail) : Prop where
  old : ∀ i side, (VarKey.captured i, side) ∈ trail → i ≤ k.lastCaptured
  mem : ∀ x ∈ trail, x ∈ trail'
  new : ∀ key side, (key, side) ∈ trail' →
    (key, side) ∈ trail ∨ ∃ i, key = .captured i ∧ k.lastCaptured < i ∧ i ≤ r.lastCaptured

/-- Nothing was gone through in either comparison. -/
theorem Extends.nil (k r : Memory) : Extends k r [] [] :=
  ⟨fun _ _ h => absurd h List.not_mem_nil, fun _ h => h, fun _ _ h => .inl h⟩

/-- A new captured variable is gone through in addition. -/
theorem Extends.captured {i : Nat} (hk : k.lastCaptured < i) (hr : i ≤ r.lastCaptured) (side : Side) :
    Extends k r [] [(.captured i, side)] where
  old _ _ h := absurd h List.not_mem_nil
  mem _ h := absurd h List.not_mem_nil
  new key side h := by
    obtain ⟨rfl, -⟩ := Prod.mk.inj (List.mem_singleton.1 h)
    exact .inr ⟨i, rfl, hk, hr⟩

/-- A declared variable is gone through in both comparisons. -/
theorem Extends.declared (h : Extends k r trail trail') (v : TypeVar) (side : Side) :
    Extends k r ((v.key, side) :: trail) ((v.key, side) :: trail') where
  old i other hmem := (List.mem_cons.1 hmem).elim (fun heq => by cases heq) (h.old i other)
  mem x hmem := (List.mem_cons.1 hmem).elim (fun heq => heq ▸ List.mem_cons_self)
    fun hmem => List.mem_cons_of_mem _ (h.mem x hmem)
  new key other hmem := (List.mem_cons.1 hmem).elim (fun heq => .inl (heq ▸ List.mem_cons_self))
    fun hmem => (h.new key other hmem).imp_left (List.mem_cons_of_mem _)

/-- In the later run the old variables stand for themselves, and the variables gone through in addition stand
for none. -/
theorem Extends.like {l r' : Memory} (h : Extends k r trail trail') (hl : k.Precedes s l)
    (hr : k.Precedes s r) (hr' : r.Precedes s r') :
    Trail.Like (Memory.alignment s k k k l r' r') trail trail' := by
  intro v w hvw side
  have hleft := hl.last
  have hright := hr.last
  have hagain := hr'.last
  cases v with
  | declared v =>
    obtain ⟨rfl, -⟩ := hvw
    refine ⟨h.mem _, fun hmem => (h.new _ _ hmem).resolve_right ?_⟩
    rintro ⟨i, heq, -⟩
    cases heq
  | captured i =>
    obtain ⟨j, rfl, -, hij⟩ := hvw
    have hij : i = j ∧ i ≤ k.lastCaptured ∨ l.lastCaptured < i ∧ r'.lastCaptured < j := by
      rcases hij with ⟨rfl, hle, -⟩ | ⟨hlt, hle, -⟩ | ⟨hlt, heq⟩ <;> omega
    refine ⟨fun hmem => ?_, fun hmem => ?_⟩
    · have hi := h.old i side hmem
      obtain ⟨rfl, -⟩ := hij.resolve_right (by omega)
      exact h.mem _ hmem
    · rcases h.new _ _ hmem with hmem | ⟨x, heq, hlt, hle⟩
      · have hj := h.old j side hmem
        obtain ⟨rfl, -⟩ := hij.resolve_right (by omega)
        exact hmem
      · injection heq with heq
        omega

/-- **A yes lasts**: what was conceded is not denied later. -/
theorem Conceded.persists (hs : s.Upright) (hk : k.Numbered s) (hr : k.Precedes s r) (ha : s.Borne k a)
    (hb : s.Borne k b) (h : s.Conceded k trail a b) (htrail : Extends k r trail trail') :
    Grants (r.Precedes s) (s.belowWithin depth trail' a b) := by
  obtain ⟨once, l, l', hl, hyes⟩ := h
  intro r' x r'' hr' hx
  have haligned : Memory.Aligned s k k k l r' r' :=
    ⟨hk.refl, hk.refl, hl, hr.trans hr', hr'.numbered.refl, Nat.le_refl _⟩
  have hpairs := haligned.pairs fun x hx => absurd hx (by omega)
  have hcovers : s.Covers (Memory.alignment s k k k l r' r') := Memory.alignment_covers hs hk.refl
  exact (belowWithin_parallel (haligned.exact (Nat.le_refl _)) hcovers once depth (htrail.like hl hr hr')
    (Memory.like_of_spared ha) (Memory.like_of_spared hb) l r' true l' x r'' hpairs hyes hx).1.symm

/-- What was conceded of some member, or of a member at all. -/
theorem conceded_of_any {once : Nat} {ts : List Ty} {l l' : Memory} (hl : k.Precedes s l)
    (h : (any (fun c => s.belowWithin once trail c b) ts).Answers l true l') :
    ∃ c ∈ ts, s.Conceded k trail c b := by
  induction ts generalizing l with
  | nil => cases (answers_pure.1 h).1
  | cons c ts ih =>
    rcases answers_either.1 h with ⟨l₁, hno, hyes⟩ | ⟨hyes, -⟩
    · have hl₁ := ((keeps_precedes s k).belowWithin once trail c b).answers hl hno
      obtain ⟨d, hd, hconceded⟩ := ih hl₁ hyes
      exact ⟨d, List.mem_cons_of_mem _ hd, hconceded⟩
    · exact ⟨c, List.mem_cons_self, once, l, l', hl, hyes⟩

/-- What was affirmed of all types was conceded for each. -/
theorem conceded_of_all {once : Nat} {ts : List Ty} {l l' : Memory} (hl : k.Precedes s l)
    (h : (all (fun c => s.belowWithin once trail a c) ts).Answers l true l') :
    ∀ c ∈ ts, s.Conceded k trail a c := by
  induction ts generalizing l with
  | nil => exact fun c hc => absurd hc List.not_mem_nil
  | cons c ts ih =>
    rcases answers_both.1 h with ⟨l₁, hyes, hrest⟩ | ⟨-, hfalse⟩
    · have hl₁ := ((keeps_precedes s k).belowWithin once trail a c).answers hl hyes
      exact List.forall_mem_cons.2 ⟨⟨once, l, l₁, hl, hyes⟩, ih hl₁ hrest⟩
    · cases hfalse

namespace Conceded

/-- What was conceded was affirmed at some depth, which is not zero. -/
theorem unfold (h : s.Conceded k trail a b) : ∃ once l l', k.Precedes s l ∧
    (s.belowWithin (once + 1) trail a b).Answers l true l' := by
  obtain ⟨once, l, l', hl, hyes⟩ := h
  cases once with
  | zero => exact absurd hyes answers_throw
  | succ once => exact ⟨once, l, l', hl, hyes⟩

/-- What is below an intersection is below its members. -/
theorem member {st : Site} {ms : List Ty} (h : s.Conceded k trail a (.inter st ms))
    (hne : a ≠ .inter st ms) {c : Ty} (hc : c ∈ ms) : s.Conceded k trail a c := by
  obtain ⟨once, l, l', hl, hyes⟩ := h.unfold
  by_cases hnull : a = .null
  · rw [hnull]
    exact ⟨1, l, l, hl, by rw [belowWithin_of_null]; exact answers_pure.2 ⟨rfl, rfl⟩⟩
  · rw [belowWithin_members hnull hne] at hyes
    exact conceded_of_all hl hyes c hc

/-- What the top type is below, the top declaration is below. -/
theorem object_of_top {st : Site} (h : s.Conceded k trail (.inter st []) b) (hb : b.isInter = false) :
    s.Conceded k trail .object b := by
  obtain ⟨once, l, l', hl, hyes⟩ := h.unfold
  rw [belowWithin_top hb] at hyes
  exact ⟨once, l, l', hl, hyes⟩

end Conceded

/-- What is conceded of a type and the lower bound of a parameter is that the type is below null. -/
theorem conceded_null_of_descends {once : Nat} {l l' : Memory} (hl : k.Precedes s l)
    (hb : ∀ w, b = .var w → ∃ v, w = .declared v) (h : (s.descends once trail a b).Answers l true l') :
    ∃ v, b = .var (.declared v) ∧ (v.key, .lower) ∉ trail ∧
      s.Conceded k ((v.key, .lower) :: trail) a .null := by
  cases b with
  | var w =>
    obtain ⟨v, rfl⟩ := hb w rfl
    rw [descends, Var.key] at h
    split at h
    · cases (answers_pure.1 h).1
    · next hnew =>
      rw [lower, pure_bind] at h
      exact ⟨v, rfl, fun hmem => hnew (List.contains_iff_mem.2 hmem), once, l, l', hl, h⟩
  | _ => cases (answers_pure.1 h).1

namespace Conceded

/-- Nothing but the top declaration was conceded to be above the top declaration. -/
theorem eq_object (hs : s.Upright) {st : Site} (h : s.Conceded k trail (.nominal st objectName []) b)
    (hb : ∀ w, b = .var w → ∃ v, w = .declared v) (hbi : b.isInter = false) :
    ∃ site, b = .nominal site objectName [] := by
  obtain ⟨once, l, l', hl, hyes⟩ := h.unfold
  by_cases heq : Ty.nominal st objectName [] = b
  · exact ⟨st, heq.symm⟩
  cases b with
  | inter => cases hbi
  | var w =>
    rw [belowWithin_nominal_var] at hyes
    obtain ⟨v, -, -, hnull⟩ := conceded_null_of_descends hl hb hyes
    obtain ⟨once, l, l', -, hyes⟩ := hnull.unfold
    rw [belowWithin_unlike (by simp) rfl] at hyes
    cases (answers_pure.1 hyes).1
  | nominal site d bs =>
    rw [belowWithin_nominal heq, nominalBelowBy_fits] at hyes
    obtain ⟨i, l₁, hi, hyes⟩ := answers_bind.1 hyes
    cases i with
    | false => cases (answers_pure.1 hyes).1
    | true =>
    obtain ⟨hsettles, hst⟩ := (inherits_steady ..).stays hl.faithful hi
    obtain rfl := eq_object_of_inherits hs.plainObject hsettles
    rw [if_pos rfl] at hyes
    split at hyes
    · next hempty => exact ⟨site, congrArg _ (List.isEmpty_iff.1 hempty)⟩
    next hargs =>
    obtain ⟨raw, l₂, -, hyes⟩ := answers_bind.1 hyes
    cases raw with
    | true => cases (answers_pure.1 hyes).1
    | false =>
    -- seen as the top declaration, it has no arguments
    rw [if_neg Bool.false_ne_true, supertypeAs, capture, if_neg (by simp [Nominal.hasWild]), pure_bind,
      seenAs, if_pos rfl, bind_assoc] at hyes
    obtain ⟨lin, l₃, -, hyes⟩ := answers_bind.1 hyes
    rw [pure_bind, fitsBy, if_neg] at hyes
    · cases (answers_pure.1 hyes).1
    · exact fun hlen => hargs (List.isEmpty_iff.2 (List.length_eq_zero_iff.1 hlen.symm))
  | _ =>
    rw [belowWithin_unlike heq rfl] at hyes
    cases (answers_pure.1 hyes).1

section Widening

variable (hs : s.Upright) (hk : k.Numbered s) (hr : k.Precedes s r)
include hs hk hr

/-- A member of which something was conceded grants it for the members. -/
theorem member_granted {ys : List Ty} {c : Ty} (hc : c ∈ ys) (hborne : s.Borne k c) (hb : s.Borne k b)
    (h : s.Conceded k trail c b) (htrail : Extends k r trail trail') :
    Grants (r.Precedes s) (any (fun c => s.belowWithin depth trail' c b) ys) :=
  .any (fun c => (keeps_precedes s r).belowWithin depth trail' c b) (h.persists hs hk hr hborne hb htrail) hc

/-- **An intersection with members added is not denied to be below what the intersection was conceded to
be below.** -/
theorem widened {st st' : Site} {xs ys : List Ty} (hne : xs ≠ []) (hsub : xs ⊆ ys)
    (hxs : ∀ c ∈ xs, s.Borne k c) (hborne : s.Borne k b) (hb : ∀ w, b = .var w → ∃ v, w = .declared v)
    (hbi : b.isInter = false) (h : s.Conceded k trail (.inter st xs) b)
    (htrail : Extends k r trail trail') :
    Grants (r.Precedes s) (s.belowWithin depth trail' (.inter st' ys) b) := by
  obtain ⟨x, xs, rfl⟩ := List.exists_cons_of_ne_nil hne
  obtain ⟨y, ys, rfl⟩ := List.exists_cons_of_ne_nil (List.ne_nil_of_mem (hsub List.mem_cons_self))
  obtain ⟨once, l, l', hl, hyes⟩ := h.unfold
  refine grants_of_succ fun depth _ => ?_
  rw [belowWithin_inter hbi] at hyes ⊢
  rcases answers_either.1 hyes with ⟨l₁, hno, hdown⟩ | ⟨hyes, -⟩
  · -- the lower bound of a parameter: a member is below null
    have hl₁ := (Preserves.any (fun c => (keeps_precedes s k).belowWithin once trail c b) _).answers hl hno
    obtain ⟨v, rfl, hnew, hnull⟩ := conceded_null_of_descends hl₁ hb hdown
    refine .either_right (.any (fun c => (keeps_precedes s r).belowWithin depth trail' c _) _) ?_
    have hnew' : (v.key, Side.lower) ∉ trail' := fun hmem =>
      (htrail.new _ _ hmem).elim hnew fun ⟨i, heq, _⟩ => by cases heq
    rw [descends, Var.key, List.contains_eq_mem, decide_eq_false hnew', if_neg Bool.false_ne_true, lower,
      pure_bind]
    refine grants_of_succ fun depth _ => ?_
    obtain ⟨once, l, l', hl, hyes⟩ := hnull.unfold
    rw [belowWithin_inter rfl] at hyes ⊢
    rcases answers_either.1 hyes with ⟨_, -, hnone⟩ | ⟨hyes, -⟩
    · cases (answers_pure.1 hnone).1
    · obtain ⟨c, hc, hconceded⟩ := conceded_of_any hl hyes
      exact (member_granted hs hk hr (hsub hc) (hxs c hc) .null hconceded
        (htrail.declared v .lower)).either_left
  · obtain ⟨c, hc, hconceded⟩ := conceded_of_any hl hyes
    exact (member_granted hs hk hr (hsub hc) (hxs c hc) hborne hconceded htrail).either_left

end Widening

end Conceded

/-- Joining with a bound puts the types that both consist of side by side. -/
theorem meet_pair {site : Site} {u bound : Ty} (h : u.conjuncts ≠ []) :
    Ty.meet site [u, bound] = .inter site (u.conjuncts ++ bound.conjuncts) := by
  have hflat : [u, bound].flatMap Ty.conjuncts = u.conjuncts ++ bound.conjuncts := by
    rw [List.flatMap_cons, List.flatMap_singleton]
  obtain ⟨c, cs, hc⟩ := List.exists_cons_of_ne_nil (List.append_ne_nil_of_left_ne_nil h bound.conjuncts)
  rw [Ty.meet, hflat, hc]

/-! ## The variable that is captured for the wildcard -/

section Captured

variable (hs : s.Upright) (hk : k.Numbered s) (hr : k.Precedes s r) {x : Nat} (hx : k.lastCaptured < x)
  (hxr : x ≤ r.lastCaptured)
include hs hk hr hx hxr

/-- The bound of the variable, in which the upper bound of the wildcard was put together with another bound,
is below what the upper bound was conceded to be below. -/
theorem bound_below {u bound : Ty} {site : Site}
    (hrises : s.Rises r [.captured x] (Ty.meetBounds site u bound)) (hu : s.Borne k u)
    (hborne : s.Borne k b) (hb : ∀ w, b = .var w → ∃ v, w = .declared v) (hbi : b.isInter = false)
    (h : s.Conceded k [] u b) :
    Grants (r.Precedes s) (s.belowWithin depth [(.captured x, .upper)] (Ty.meetBounds site u bound) b) := by
  have htrail := Extends.captured hx hxr .upper
  rw [Ty.meetBounds] at hrises ⊢
  split
  · next htop =>
    -- then so is the other type, and the other bound rises to it
    rw [if_pos htop] at hrises
    obtain ⟨st, hobject⟩ : ∃ st, s.Conceded k [] (.nominal st objectName []) b := by
      cases u with
      | nominal st d as =>
        cases as with
        | nil =>
          rw [Ty.isTop, beq_iff_eq] at htop
          exact ⟨st, htop ▸ h⟩
        | cons => cases htop
      | inter st ms =>
        cases ms with
        | nil => exact ⟨_, h.object_of_top hbi⟩
        | cons => cases htop
      | _ => cases htop
    obtain ⟨st', rfl⟩ := hobject.eq_object hs hb hbi
    intro m r' m' hm hask
    refine hrises.granted hs.arrays (fun key hkey => ?_) st' m r' m' hm.since hask
    obtain ⟨rfl, -⟩ := Prod.mk.inj (List.mem_singleton.1 hkey)
    exact List.mem_singleton.2 rfl
  · next htop =>
    split
    · exact h.persists hs hk hr hu hborne htrail
    · have hne : u.conjuncts ≠ [] := by
        cases u with
        | inter st xs => cases xs <;> simp_all [Ty.conjuncts, Ty.isTop]
        | _ => exact List.cons_ne_nil _ _
      have hsub : u.conjuncts ⊆ u.conjuncts ++ bound.conjuncts := List.subset_append_left _ _
      rw [meet_pair hne]
      cases hinter : u.isInter with
      | true =>
        cases u with
        | inter st xs =>
          exact h.widened hs hk hr hne hsub (fun c hc => hu.member hc) hborne hb hbi htrail
        | _ => cases hinter
      | false =>
        rw [Ty.conjuncts_of_not_inter hinter] at hsub ⊢
        exact grants_of_succ fun depth _ => grants_of_member (keeps_precedes s r)
          (hsub (List.mem_singleton.2 rfl)) hbi (h.persists hs hk hr hu hborne htrail)

/-- **The variable is below what the upper bound of the wildcard was conceded to be below.** -/
theorem captured_below {u bound : Ty} {site : Site} (hupper : r.upper x = Ty.meetBounds site u bound)
    (hrises : s.Rises r [.captured x] (r.upper x)) (hstands : s.Stands r u) (hu : s.Borne k u)
    (hborne : s.Borne k b) (hvars : ∀ v ∈ b.vars, ∃ p, v = .declared p) (hflat : b.isFlat = true)
    (h : s.Conceded k [] u b) :
    Grants (r.Precedes s) (s.belowWithin depth [] (.var (.captured x)) b) := by
  have hsingle : ∀ {c : Ty}, s.Borne k c → (∀ v ∈ c.vars, ∃ p, v = .declared p) → c.isInter = false →
      s.Conceded k [] u c →
        ∀ depth, Grants (r.Precedes s) (s.belowWithin depth [] (.var (.captured x)) c) := by
    intro c hborne hvars hci hconceded depth
    refine grants_of_succ fun depth _ => grants_of_captured (fun _ h => h.since) hxr hci
      List.not_mem_nil ?_
    rw [hupper] at hrises ⊢
    refine bound_below hs hk hr hx hxr hrises hu hborne (fun w hw => hvars w ?_) hci hconceded
    rw [hw]
    exact List.mem_singleton.2 rfl
  cases hinter : b.isInter with
  | false => exact hsingle hborne hvars hinter h depth
  | true =>
  cases b with
  | inter st ms =>
    by_cases heq : u = .inter st ms
    · intro m r' m' hm
      exact upper_granted hs (fun n _ => copy_granted hs n) hxr (fun _ => .inl) hstands (heq ▸ hstands)
        (heq ▸ Ty.sameShape_refl u) hupper hrises m r' m' hm.since
    · rw [Ty.isFlat, Ty.allFlat_iff] at hflat
      refine grants_of_succ fun depth _ => ?_
      rw [belowWithin_members (by simp) (by simp)]
      refine .all (fun c => (keeps_precedes s r).belowWithin depth [] _ c) fun c hc => ?_
      exact hsingle (hborne.member hc) (fun v hv => hvars v (Ty.mem_varsAll.2 ⟨c, hc, hv⟩)) (hflat c hc).1
        (h.member heq hc) depth
  | _ => cases hinter

/-- **What was conceded to be below the lower bound of the wildcard is below the variable.** -/
theorem below_captured {l : Ty} (hlower : r.lower x = l) (hflat : l.isFlat = true) (hl : s.Borne k l)
    (hborne : s.Borne k a) (h : s.Conceded k [] a l) :
    Grants (r.Precedes s) (s.belowWithin depth [] a (.var (.captured x))) := by
  have htrail := Extends.captured hx hxr .lower
  refine grants_of_succ fun depth _ => ?_
  by_cases htop : ∃ st, a = .inter st []
  · -- the top type is compared as the top declaration
    obtain ⟨st, rfl⟩ := htop
    have hobject : s.Borne k .object := .of_bounds (fun p hp => by
      rw [List.mem_singleton.1 hp]
      exact ⟨trivial, fun _ => trivial⟩) fun _ hv => absurd hv List.not_mem_nil
    rw [belowWithin_top rfl]
    refine grants_of_succ fun depth _ => ?_
    rw [Ty.object, belowWithin_nominal_var]
    refine descends_granted (fun _ h => h.since) hxr List.not_mem_nil ?_
    rw [hlower]
    cases hinter : l.isInter with
    | false => exact (h.object_of_top hinter).persists hs hk hr hobject hl htrail
    | true =>
    cases l with
    | inter st' ms =>
      rw [Ty.isFlat, Ty.allFlat_iff] at hflat
      refine grants_of_succ fun depth _ => ?_
      rw [belowWithin_members (by simp) (by simp)]
      refine .all (fun c => (keeps_precedes s r).belowWithin depth _ _ c) fun c hc => ?_
      have hne : Ty.inter st [] ≠ .inter st' ms := by
        rintro heq
        cases heq
        cases hc
      exact ((h.member hne hc).object_of_top (hflat c hc).1).persists hs hk hr hobject (hl.member hc) htrail
    | _ => cases hinter
  · refine grants_of_descends (keeps_precedes s r) (fun st heq => htop ⟨st, heq⟩) ?_
    refine descends_granted (fun _ h => h.since) hxr List.not_mem_nil ?_
    exact hlower ▸ h.persists hs hk hr hborne hl htrail

end Captured

/-- A wildcard contains the variable that is captured for a narrower one. -/
theorem wider_granted (hs : s.Upright) (hk : k.Numbered s) {site : Site} {d : String} {as : List Arg}
    {i : Nat} {u l u' l' : Ty} {lin : Lineage} {cs : List Captured} {m : Memory}
    (hstands : s.Stands m (.nominal site d as)) (hborne : s.Borne k (.nominal site d as))
    (hi : as[i]? = some (.wild u l)) (hl : s.lineageOf d = some lin) (hlen : as.length = lin.params.length)
    (hm : k.Precedes s m) (hr : k.Precedes s r) (hcs : s.Captures ⟨site, d, as⟩ m r cs)
    (hu' : s.Borne k u') (hl' : s.Borne k l') (hvars : ∀ v ∈ u'.vars, ∃ p, v = .declared p)
    (hflat : l.isFlat = true) (hflat' : u'.isFlat = true) (hupper : s.Conceded k [] u u')
    (hlower : s.Conceded k [] l' l) {c : Arg} (hc : (captureArgs m.lastCaptured as)[i]? = some c) :
    Grants (r.Precedes s) (containsBy (s.belowWithin depth []) (.wild u' l') c) := by
  have hmem := List.mem_of_getElem? hi
  obtain ⟨p, x, bsite, bound, -, hcaptured, hlt, hle, hlo, hup, -, hrises⟩ :=
    hcs.argument hs hstands hl hlen hi
  rw [hc] at hcaptured
  cases hcaptured
  have hlt := Nat.lt_of_le_of_lt hm.last hlt
  have hborne_u : s.Borne k u := hborne.part hmem List.mem_cons_self
  have hborne_l : s.Borne k l := hborne.part hmem (List.mem_cons_of_mem _ List.mem_cons_self)
  refine .both ((keeps_precedes s r).belowWithin depth [] _ _) ?_ ?_
  · exact below_captured hs hk hr hlt hle hlo hflat hborne_l hl' hlower
  · exact captured_below hs hk hr hlt hle hup hrises
      ((hstands.part hmem List.mem_cons_self).since hcs.since) hborne_u hu' hvars hflat' hupper

/-- **An applied declaration is not denied to be below itself with a wildcard made wider.** It passes the
check, its variables are parameters of declarations, and primitives stand in it as components of arrays. After
the memory `k`, in which all types are known, the upper bound of the wildcard was conceded to be below
another type, and another type to be below its lower bound; the new wildcard has these as its bounds. The
other arguments may be copies. -/
theorem wildcard_variance (hs : s.Upright) {site site' : Site} {d : String} {as as' : List Arg} {i : Nat}
    {u l u' l' : Ty} (hi : as[i]? = some (.wild u l)) (hcopy : Arg.sameShapeAll as as' = true)
    (hflat : (Ty.nominal site d as).isFlat = true) (haccepted : s.Accepts (.nominal site d as))
    (hsparing : (Ty.nominal site d as).sparing = true) (hflat' : u'.isFlat = true)
    (hvars : ∀ v ∈ (Ty.nominal site d as).vars ++ (Ty.nominal site' d as').vars ++ u'.vars ++ l'.vars,
      ∃ e ∈ s.catalog.decls, ∃ p ∈ e.vars, v = .declared p)
    (hk : k.Numbered s)
    (hissued : ∀ p ∈ (Ty.nominal site d as).origins ++ u'.origins ++ l'.origins, k.Issued p)
    (hupper : ∃ depth m m', k.Precedes s m ∧ ((s.withDepth depth).below u u').Answers m true m')
    (hlower : ∃ depth m m', k.Precedes s m ∧ ((s.withDepth depth).below l' l).Answers m true m')
    {m m' : Memory} {answer : Bool} (hm : k.Precedes s m)
    (h : ((s.withDepth depth).below (.nominal site d as)
      (.nominal site' d (as'.set i (.wild u' l')))).Answers m answer m') : answer = true := by
  have hvars : (∀ v ∈ (Ty.nominal site d as).vars, ∃ e ∈ s.catalog.decls, ∃ p ∈ e.vars, v = .declared p) ∧
      (∀ v ∈ (Ty.nominal site' d as').vars, ∃ e ∈ s.catalog.decls, ∃ p ∈ e.vars, v = .declared p) ∧
      (∀ v ∈ u'.vars, ∃ e ∈ s.catalog.decls, ∃ p ∈ e.vars, v = .declared p) ∧
      ∀ v ∈ l'.vars, ∃ e ∈ s.catalog.decls, ∃ p ∈ e.vars, v = .declared p := by
    simpa only [List.forall_mem_append, and_assoc] using hvars
  have hissued : (∀ p ∈ (Ty.nominal site d as).origins, k.Issued p) ∧ (∀ p ∈ u'.origins, k.Issued p) ∧
      ∀ p ∈ l'.origins, k.Issued p := by
    simpa only [List.forall_mem_append, and_assoc] using hissued
  have hdeclared : ∀ {t : Ty}, (∀ v ∈ t.vars, ∃ e ∈ s.catalog.decls, ∃ p ∈ e.vars, v = .declared p) →
      ∀ m, ∀ v ∈ t.vars, s.Rises m [] (.var v) := by
    intro t hvars m v hv
    obtain ⟨e, he, p, hp, rfl⟩ := hvars v hv
    exact rises_param hs he hp fun _ hk => absurd hk List.not_mem_nil
  have hregular := haccepted.regular hflat hsparing
  have hsame : (Ty.nominal site d as).sameShape (.nominal site' d as') = true := by
    rw [Ty.sameShape, beq_self_eq_true, hcopy, Bool.and_self]
  have hstands : ∀ m, s.Stands m (.nominal site d as) := fun m => ⟨hregular, hdeclared hvars.1 m⟩
  have hstands' : ∀ m, s.Stands m (.nominal site' d as') :=
    fun m => ⟨hregular.of_sameShape hsame, hdeclared hvars.2.1 m⟩
  have hborne : ∀ {t : Ty}, (∀ p ∈ t.origins, k.Issued p) →
      (∀ v ∈ t.vars, ∃ e ∈ s.catalog.decls, ∃ p ∈ e.vars, v = .declared p) → s.Borne k t :=
    spared_of_params hs hk.refl
  have hnominal := hborne hissued.1 hvars.1
  simp only [below_withDepth] at hupper hlower h
  have hlength := Arg.length_of_sameShape hcopy
  rw [Ty.Regular] at hregular
  obtain ⟨⟨lin, hl, hcount⟩, -⟩ := hregular
  suffices hgrants : Grants (k.Precedes s) (s.belowWithin depth [] (.nominal site d as)
      (.nominal site' d (as'.set i (.wild u' l')))) from hgrants m answer m' hm h
  refine grants_of_succ fun depth _ => ?_
  by_cases heq : Ty.nominal site d as = .nominal site' d (as'.set i (.wild u' l'))
  · rw [← heq, belowWithin_self]
    exact .pure_true
  rw [belowWithin_nominal heq]
  refine own_granted hs hl hcount (by rw [List.length_set, hlength]) (fun _ h => h.faithful)
    fun hlen m₁ n r hm₁ hcapture answer m₂ => ?_
  have hr := hm₁.trans (capture_precedes hm₁.numbered hcapture)
  obtain ⟨rfl, ⟨cs, hcs⟩, -⟩ := capture_fills hm₁.faithful hcapture
  refine containsAllBy_granted ((keeps_precedes s r).belowWithin depth [])
    (by rw [List.length_set, ← hlength, length_captureArgs]) (fun j o c ho hc => ?_) r answer m₂
    hr.numbered.refl
  by_cases hij : i = j
  · subst hij
    rw [List.getElem?_set_self (hlength ▸ (List.getElem?_eq_some_iff.1 hi).1)] at ho
    cases ho
    rw [Ty.isFlat, Arg.allFlat_iff] at hflat
    have hflatᵢ := hflat _ (List.mem_of_getElem? hi)
    rw [Arg.isFlat, Bool.and_eq_true] at hflatᵢ
    have hparams : ∀ v ∈ u'.vars, ∃ p, v = .declared p := by
      intro v hv
      obtain ⟨-, -, p, -, heq⟩ := hvars.2.2.1 v hv
      exact ⟨p, heq⟩
    exact wider_granted hs hk (hstands m₁) hnominal hi hl hlen hm₁ hr hcs (hborne hissued.2.1 hvars.2.2.1)
      (hborne hissued.2.2 hvars.2.2.2) hparams hflatᵢ.2 hflat' hupper hlower hc
  · rw [List.getElem?_set_ne hij] at ho
    intro m₃ answer m₄ hm₃
    exact argument_granted hs (fun n _ => copy_granted hs n) (hstands m₁) (hstands' m₁) hcopy hl hlen hcs
      ho hc m₃ answer m₄ hm₃.since

/-- `Map<W, Pair<?, T>>` is compared with a copy in which the bounds of the wildcard `W` are not
`Collection<String> & Object` and `List<String>`, but `Iterable<String>` and `ArrayList<String>`. -/
theorem wildcard_variance_pairing :
    let s : Setting := { catalog := Catalog.pairing }
    let strings (n : Nat) (d : String) : Ty :=
      .nominal ⟨.given n, [0]⟩ d [.type (.nominal ⟨.given n, [1]⟩ "String" [])]
    let pair (n : Nat) : Arg := .type (.nominal ⟨.given n, [2]⟩ "Pair"
      [.wild .object .null, .type (.var (.declared ⟨"Node", "T", .param 0⟩))])
    let u : Ty := .inter ⟨.given 0, [0]⟩ [strings 0 "Collection", .object]
    let l : Ty := strings 1 "List"
    let u' : Ty := strings 2 "Iterable"
    let l' : Ty := strings 3 "ArrayList"
    let as (n : Nat) : List Arg := [.wild u l, pair n]
    let t : Ty := .nominal ⟨.given 4, [0]⟩ "Map" (as 4)
    let t' : Ty := .nominal ⟨.given 5, [0]⟩ "Map" ((as 5).set 0 (.wild u' l'))
    s.Upright ∧ Arg.sameShapeAll (as 4) (as 5) = true ∧ t.isFlat = true ∧ s.Accepts t ∧
      t.sparing = true ∧ u'.isFlat = true ∧
      (∀ v ∈ t.vars ++ (Ty.nominal ⟨.given 5, [0]⟩ "Map" (as 5)).vars ++ u'.vars ++ l'.vars,
        ∃ e ∈ s.catalog.decls, ∃ p ∈ e.vars, v = .declared p) ∧
      (∀ p ∈ t.origins ++ u'.origins ++ l'.origins, ({} : Memory).Issued p) ∧
      (∃ m', ((s.withDepth 20).below u u').Answers {} true m') ∧
      (∃ m', ((s.withDepth 20).below l' l).Answers {} true m') ∧
      (∃ r m', ((s.withDepth 20).below t t').Answers {} r m') ∧
      ∀ r m', ((s.withDepth 20).below t t').Answers {} r m' → r = true := by
  intro s strings pair u l u' l' as t t'
  have hall : (∀ d ∈ Catalog.pairing.decls, ∀ p ∈ d.params, p.upper.sparing = true) ∧
      Arg.sameShapeAll (as 4) (as 5) = true ∧ t.isFlat = true ∧ s.acceptsWithin 20 t = true ∧
      t.sparing = true ∧ u'.isFlat = true ∧
      (∀ v ∈ t.vars ++ (Ty.nominal ⟨.given 5, [0]⟩ "Map" (as 5)).vars ++ u'.vars ++ l'.vars,
        ∃ e ∈ s.catalog.decls, ∃ p ∈ e.vars, v = .declared p) ∧
      (∀ p ∈ t.origins ++ u'.origins ++ l'.origins, (∃ n < 5, p = .given n) ∨ p = .common) ∧
      (((s.withDepth 20).below u u').outcome {}).1.map id = .ok true ∧
      (((s.withDepth 20).below l' l).outcome {}).1.map id = .ok true ∧
      (((s.withDepth 20).below t t').outcome {}).1.map id = .ok true := by
    decide +kernel
  obtain ⟨hbounds, hcopy, hflat, haccepts, hsparing, hflat', hvars, hplaces, hu, hl, ht⟩ := hall
  have hs : s.Upright := .of_grown (Catalog.grown_extended _) _ hbounds (by decide)
  have haccepted := Accepts.of_within haccepts
  have hissued : ∀ p ∈ t.origins ++ u'.origins ++ l'.origins, ({} : Memory).Issued p := by
    intro p hp
    rcases hplaces p hp with ⟨n, -, rfl⟩ | rfl <;> trivial
  have hk := Memory.numbered_empty s
  obtain ⟨_, m₁, hu, rfl⟩ := exists_answers hu
  obtain ⟨_, m₂, hl, rfl⟩ := exists_answers hl
  obtain ⟨r, m₃, ht, -⟩ := exists_answers ht
  exact ⟨hs, hcopy, hflat, haccepted, hsparing, hflat', hvars, hissued, ⟨m₁, hu⟩, ⟨m₂, hl⟩, ⟨r, m₃, ht⟩,
    fun r m' h => wildcard_variance (i := 0) hs rfl hcopy hflat haccepted hsparing hflat' hvars hk hissued
      ⟨20, {}, m₁, hk.refl, hu⟩ ⟨20, {}, m₂, hk.refl, hl⟩ hk.refl h⟩

end Setting
end Generics
