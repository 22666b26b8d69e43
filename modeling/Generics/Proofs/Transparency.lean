/-
# A captured type in the place of the type

Capturing replaces the wildcards of a type by variables, and the captured type stands for the type wherever
subtyping asks what is above it. It is never denied to be below the type itself (`captured_granted`). And
whatever other type it is compared with, the answer is the one for the type, if that other type bears nothing
that the capture handed out (`captured_parallel`): the comparison of the type makes a capture of its own,
and the two captures are alike.

That the other type bears no type that was built for the bounds of the new variables has to be asked for as
well. A bound may apply a declaration to a wrong number of arguments, and then it is not below a copy of
itself (`capture_transparent_refuted`).
-/

import Generics.Proofs.Alignments

namespace Generics

/-- Both memories are ones that questions may leave, asked with the first one. -/
structure Memory.Forks (s : Setting) (m l r : Memory) : Prop where
  left : m.Precedes s l
  right : m.Precedes s r

namespace Setting

open Query

variable {s : Setting} {n c : Nominal} {m m' k : Memory}

/-- Whether an applied declaration is raw depends on its name and on how many arguments it has. -/
theorem isRaw_eq {a b : Nominal} (hdecl : a.decl = b.decl) (hlen : a.args.length = b.args.length) :
    s.isRaw a = s.isRaw b := by
  have hempty : a.args.isEmpty = b.args.isEmpty := by
    rw [Bool.eq_iff_iff, List.isEmpty_iff_length_eq_zero, List.isEmpty_iff_length_eq_zero, hlen]
  rw [isRaw, isRaw, hempty, hdecl]

/-- Asking whether an applied declaration is raw is steady. -/
theorem isRaw_steady (n : Nominal) : Steady s (s.isRaw n) := by
  unfold isRaw
  split
  · exact (params_steady s n.decl).bind fun _ _ => .pure _
  · exact .pure _

/-- Nothing is left to capture in captured arguments. -/
theorem capture_captureArgs {last : Nat} {site : Site} {d : String} {as : List Arg} :
    s.capture ⟨site, d, captureArgs last as⟩ = pure ⟨site, d, captureArgs last as⟩ := by
  have hwild : ¬ (⟨site, d, captureArgs last as⟩ : Nominal).hasWild = true := by
    rw [Nominal.hasWild, List.any_eq_true]
    rintro ⟨a, ha, hwild⟩
    rcases mem_captureArgs ha with ⟨-, h⟩ | ⟨j, -, rfl⟩
    · rw [h] at hwild
      cases hwild
    · cases hwild
  rw [capture, if_neg hwild]

/-- **A captured type is not denied to be below the type.** -/
theorem captured_granted (hs : s.Upright) (hn : s.Stands m n.toTy) (hm : m.Faithful s)
    (h : (s.capture n).Answers m c m') (depth : Nat) (trail : Trail) :
    Grants (m'.Since s) (s.belowWithin depth trail c.toTy n.toTy) := by
  obtain ⟨rfl, ⟨cs, hcs⟩, -⟩ := capture_fills hm h
  obtain ⟨site, d, as⟩ := n
  have hlength := length_captureArgs m.lastCaptured as
  have hreg := hn.regular
  rw [Nominal.toTy, Ty.Regular] at hreg
  obtain ⟨⟨l, hl, hcount⟩, -⟩ := hreg
  refine grants_of_succ fun depth _ => ?_
  by_cases heq : Ty.nominal site d (captureArgs m.lastCaptured as) = .nominal site d as
  · rw [Nominal.toTy, Nominal.toTy, heq, belowWithin_self]
    exact .pure_true
  rw [Nominal.toTy, Nominal.toTy, belowWithin_nominal heq]
  refine own_granted hs hl (hlength.symm ▸ hcount) hlength.symm (fun _ h => h.faithful)
    fun hlen m₁ n' m₂ hm₁ hcapture r m₃ => ?_
  rw [capture_captureArgs] at hcapture
  obtain ⟨rfl, rfl⟩ := answers_pure.1 hcapture
  refine containsAllBy_granted (I := m'.Since s) ((keeps_since s m').belowWithin depth []) hlength.symm
    (fun j o x ho hx => ?_) m₂ r m₃ hm₁
  exact argument_granted hs (fun k _ => copy_granted hs k) hn hn (Arg.sameShapeAll_refl as) hl
    (hlength ▸ hlen) hcs ho hx

/-! ## What a captured type is below -/

/-- Captured arguments that are not the arguments themselves have a new variable. -/
theorem fresh_of_captureArgs {last : Nat} {as : List Arg} (h : captureArgs last as ≠ as) :
    .captured (last + 1) ∈ Arg.varsAll (captureArgs last as) ∧ 0 < as.countP Arg.isWild := by
  induction as generalizing last with
  | nil => exact absurd rfl h
  | cons a as ih =>
    cases a with
    | wild u l =>
      rw [captureArgs, Arg.varsAll, List.countP_cons_of_pos (by rfl)]
      exact ⟨List.mem_append_left _ (List.mem_singleton.2 rfl), Nat.succ_pos _⟩
    | type t =>
      rw [captureArgs, Arg.varsAll, List.countP_cons_of_neg (by simp [Arg.isWild])]
      refine (ih fun heq => h (by rw [captureArgs, heq])).imp_left fun hmem => ?_
      exact List.mem_append_right _ hmem

/-- A type that bears nothing of a capture is what was captured only if there was nothing to capture. -/
theorem Spared.eq_of_captured {b : Ty} (hm : m.Faithful s) (h : (s.capture n).Answers m c m')
    (hb : s.Spared m m' k b) (heq : c.toTy = b) : n.toTy = b := by
  obtain ⟨rfl, ⟨cs, hcs⟩, -⟩ := capture_fills hm h
  by_cases hargs : captureArgs m.lastCaptured n.args = n.args
  · rw [← heq, hargs]
  · obtain ⟨hmem, hpos⟩ := fresh_of_captureArgs hargs
    have hlast := hcs.last
    have hplace : Place.capture (m.lastCaptured + 1) ∈ b.origins :=
      heq ▸ Ty.mem_origins_of_var (List.mem_singleton.2 rfl) hmem
    have hle : m.lastCaptured + 1 ≤ m.lastCaptured :=
      (hb.origins _ hplace).2 (show m.lastCaptured + 1 ≤ m'.lastCaptured by omega)
    omega

/-- The lower bound of a variable that is older than two memories is the same in both. -/
theorem lower_same {v : Var} (hv : s.Spared m m' k (.var v)) :
    Parallel (k.Forks s) (fun t u => t = u ∧ s.Spared m m' k t)
      (s.lower v) (s.lower v) := by
  cases v with
  | declared v => exact .pure ⟨rfl, .null⟩
  | captured i =>
    refine Parallel.get.bind fun l r hlr => .pure ?_
    have hi := (hv.origins _ (List.mem_singleton.2 rfl)).1
    rw [hlr.left.since.lower hi, hlr.right.since.lower hi]
    exact ⟨rfl, hv.bound (List.mem_singleton.2 rfl) (List.mem_cons_of_mem _ List.mem_cons_self)⟩

/-- What is steady has the same answer twice, and memories follow each other. -/
theorem steady_same {α : Type} {q : Query α} (hq : Steady s q) :
    Parallel (k.Forks s) (· = ·) q q := by
  intro l r x l' y r' hlr hx hy
  obtain ⟨hsettles, hf, hl⟩ := hq.settles hlr.left.faithful hx
  obtain ⟨hsettles', hf', hl'⟩ := hq.settles hlr.right.faithful hy
  exact ⟨Except.ok.inj (hsettles.unique hsettles'), hlr.left.trans (hl.precedes hlr.left.numbered hf),
    hlr.right.trans (hl'.precedes hlr.right.numbered hf')⟩

/-- Seen from above, and compared with an applied declaration, the captured type is as the type. -/
theorem nominal_same (hs : s.Upright) (hn : s.Spared m m' k n.toTy) (hm : m.Numbered s)
    (h : (s.capture n).Answers m c m') (hk : m'.Precedes s k) {b : Nominal}
    (hb : s.Spared m m' k b.toTy) {depth depth' : Nat} {l r : Memory} {x y : Bool} {l' r' : Memory}
    (hl : k.Precedes s l) (hr : k.Precedes s r)
    (hx : (s.nominalBelowBy (s.belowWithin depth []) c b).Answers l x l')
    (hy : (s.nominalBelowBy (s.belowWithin depth' []) n b).Answers r y r') : x = y := by
  obtain ⟨hc, -⟩ := capture_fills hm.faithful h
  have hdecl : c.decl = n.decl := by rw [hc]
  have hlen : c.args.length = n.args.length := by rw [hc, length_captureArgs]
  have hfull : s.capture c = pure c := by rw [hc, capture_captureArgs]
  rw [nominalBelowBy_fits, hdecl, isRaw_eq hdecl hlen] at hx
  rw [nominalBelowBy_fits] at hy
  obtain ⟨i, l₁, hi, hx⟩ := answers_bind.1 hx
  obtain ⟨j, r₁, hj, hy⟩ := answers_bind.1 hy
  obtain ⟨rfl, hl₁, hr₁⟩ := steady_same (inherits_steady ..) l r i l₁ j r₁ ⟨hl, hr⟩ hi hj
  cases i with
  | false => exact (answers_pure.1 hx).1.trans (answers_pure.1 hy).1.symm
  | true =>
  rw [if_pos rfl] at hx hy
  split at hx
  · next hempty =>
    rw [if_pos hempty] at hy
    exact (answers_pure.1 hx).1.trans (answers_pure.1 hy).1.symm
  next hempty =>
  rw [if_neg hempty] at hy
  obtain ⟨raw, l₂, hraw, hx⟩ := answers_bind.1 hx
  obtain ⟨raw', r₂, hraw', hy⟩ := answers_bind.1 hy
  obtain ⟨rfl, hl₂, hr₂⟩ := steady_same (isRaw_steady n) l₁ r₁ raw l₂ raw' r₂ ⟨hl₁, hr₁⟩ hraw hraw'
  cases raw with
  | true => exact (answers_pure.1 hx).1.trans (answers_pure.1 hy).1.symm
  | false =>
  rw [if_neg Bool.false_ne_true] at hx hy
  rw [supertypeAs, hfull, pure_bind] at hx
  -- the type is captured once more, and what is captured is like what was captured before
  rw [supertypeAs, bind_assoc] at hy
  obtain ⟨c', r₃, hc', hy⟩ := answers_bind.1 hy
  obtain ⟨hexact, hcovers, hlike, hpairs⟩ := captures_aligned hs hn hm h hk hl₂ hr₂ hc'
    (capture_precedes hr₂.numbered hc').numbered.refl
  have hbs : b.Like (Memory.alignment s m m' k l₂ r₂ r₃) b := Nominal.like_iff.2 (Memory.like_of_spared hb)
  refine (((seenAs_parallel hexact.number hcovers hlike b.decl).bind fun o o' ho =>
    fitsBy_parallel hexact (fun ha hb => ?_) ho hbs.args) l₂ r₃ x l' y r' hpairs hx hy).1
  exact belowWithin_parallel hexact hcovers depth depth' .nil ha hb

/-- **A captured type is compared as the type is** with whatever bears nothing of the capture. -/
theorem captured_parallel (hs : s.Upright) (hn : s.Spared m m' k n.toTy) (hstands : s.Stands m n.toTy)
    (hm : m.Numbered s) (h : (s.capture n).Answers m c m') (hk : m'.Precedes s k) (depth depth' : Nat)
    (trail : Trail) {b : Ty} (hb : s.Spared m m' k b) :
    Parallel (k.Forks s) (· = ·) (s.belowWithin depth trail c.toTy b)
      (s.belowWithin depth' trail n.toTy b) := by
  induction depth generalizing depth' trail b with
  | zero => exact .throw_left
  | succ depth ih =>
  cases depth' with
  | zero => exact .throw_right
  | succ depth' =>
  have hpreserves := fun depth (a b : Ty) => (keeps_precedes s k).belowWithin depth trail a b
  intro l r x l' y r' hlr hx hy
  refine ⟨?_, (hpreserves _ _ _).answers hlr.left hx, (hpreserves _ _ _).answers hlr.right hy⟩
  by_cases hself : n.toTy = b
  · -- the type is below itself, and the captured type is below it
    rw [← hself, belowWithin_self] at hy
    rw [← hself] at hx
    rw [(answers_pure.1 hy).1]
    exact captured_granted hs hstands hm.faithful h _ trail l x l' (hk.since.trans hlr.left.since) hx
  have hne : c.toTy ≠ b := fun heq => hself (hb.eq_of_captured hm.faithful h heq)
  cases b with
  | inter st ms =>
    rw [belowWithin_members (by simp [Nominal.toTy]) hne] at hx
    rw [belowWithin_members (by simp [Nominal.toTy]) hself] at hy
    have hms : List.Forall₂ (fun a b => a = b ∧ s.Spared m m' k a) ms ms :=
      List.forall₂_same.2 fun t ht => ⟨rfl, hb.member ht⟩
    refine (Parallel.all ?_ hms l r x l' y r' hlr hx hy).1
    rintro t _ ⟨rfl, ht⟩
    exact ih depth' trail ht
  | var w =>
    rw [Nominal.toTy, belowWithin_nominal_var] at hx hy
    refine (Parallel.ite Iff.rfl (fun _ => .pure rfl) (fun _ => ?_) l r x l' y r' hlr hx hy).1
    refine (lower_same (hb.var (List.mem_singleton.2 rfl))).bind ?_
    rintro t _ ⟨rfl, ht⟩
    exact ih depth' _ ht
  | nominal st d bs =>
    rw [Nominal.toTy, belowWithin_nominal hne] at hx
    rw [Nominal.toTy, belowWithin_nominal hself] at hy
    exact nominal_same hs hn hm h hk (b := ⟨st, d, bs⟩) hb hlr.left hlr.right hx hy
  | _ =>
    rw [belowWithin_unlike hne rfl] at hx
    rw [belowWithin_unlike hself rfl] at hy
    exact (answers_pure.1 hx).1.trans (answers_pure.1 hy).1.symm

/-- **Capturing does not change what a type is below.** The type passes the check, its variables are
parameters of declarations, and primitives stand in it as components of arrays; it was captured in the
memory `m`. The captured type is never denied to be below the type. With any type that bears none of the
new variables, and nothing that was built for their bounds, the two compare alike: whenever the comparisons
are made after the memory `k`, and however deep they may nest, they have the same answer if both answer. -/
theorem capture_transparent (hs : s.Upright) (hflat : n.toTy.isFlat = true) (haccepted : s.Accepts n.toTy)
    (hsparing : n.toTy.sparing = true)
    (hvars : ∀ v ∈ n.toTy.vars, ∃ d ∈ s.catalog.decls, ∃ p ∈ d.vars, v = .declared p)
    (hm : m.Numbered s) (hissued : ∀ p ∈ n.toTy.origins, m.Issued p)
    (h : (s.capture n).Answers m c m') (hk : m'.Precedes s k) :
    (∀ depth r k', ((s.withDepth depth).below c.toTy n.toTy).Answers k r k' → r = true) ∧
      ∀ b, s.Spared m m' k b → ∀ l r, k.Precedes s l → k.Precedes s r → ∀ depth depth' x l' y r',
        ((s.withDepth depth).below c.toTy b).Answers l x l' →
          ((s.withDepth depth').below n.toTy b).Answers r y r' → x = y := by
  have hstands : s.Stands m n.toTy := by
    refine ⟨haccepted.regular hflat hsparing, fun v hv => ?_⟩
    obtain ⟨d, hd, p, hp, rfl⟩ := hvars v hv
    exact rises_param hs hd hp fun _ hk => absurd hk List.not_mem_nil
  have hspared : s.Spared m m' k n.toTy :=
    spared_of_params hs ((capture_precedes hm h).trans hk) hissued hvars
  constructor
  · intro depth r k' hr
    rw [below_withDepth] at hr
    exact captured_granted hs hstands hm.faithful h depth [] k r k' hk.since hr
  · intro b hb l r hl hr depth depth' x l' y r' hx hy
    rw [below_withDepth] at hx hy
    exact (captured_parallel hs hspared hstands hm h hk depth depth' [] hb l r x l' y r' ⟨hl, hr⟩ hx hy).1

/-- `Map<? extends Node<?>, ? super Pair<?, T>>` is captured, and compared with
`Map<?, ? super Pair<?, T>>`. -/
theorem capture_transparent_pairing :
    let s : Setting := { catalog := Catalog.pairing }
    let pair (i : Nat) : Ty := .nominal ⟨.given i, [1]⟩ "Pair"
      [.wild .object .null, .type (.var (.declared ⟨"Node", "T", .param 0⟩))]
    let n : Nominal := ⟨⟨.given 0, [0]⟩, "Map",
      [.wild (.nominal ⟨.given 0, [2]⟩ "Node" [.wild .object .null]) .null, .wild .object (pair 0)]⟩
    let b : Ty := .nominal ⟨.given 1, [0]⟩ "Map" [.wild .object .null, .wild .object (pair 1)]
    s.Upright ∧ n.toTy.isFlat = true ∧ s.Accepts n.toTy ∧ n.toTy.sparing = true ∧
      (∀ v ∈ n.toTy.vars, ∃ d ∈ s.catalog.decls, ∃ p ∈ d.vars, v = .declared p) ∧
      (∀ p ∈ n.toTy.origins, ({} : Memory).Issued p) ∧
      ∃ c m', (s.capture n).Answers {} c m' ∧ m'.Precedes s m' ∧ s.Spared {} m' m' b ∧
        (∃ x l', ((s.withDepth 20).below c.toTy b).Answers m' x l') ∧
        (∃ y r', ((s.withDepth 20).below n.toTy b).Answers m' y r') ∧
        (∀ r k', ((s.withDepth 20).below c.toTy n.toTy).Answers m' r k' → r = true) ∧
        ∀ x l' y r', ((s.withDepth 20).below c.toTy b).Answers m' x l' →
          ((s.withDepth 20).below n.toTy b).Answers m' y r' → x = y := by
  intro s pair n b
  have hall : (∀ d ∈ Catalog.pairing.decls, ∀ p ∈ d.params, p.upper.sparing = true) ∧
      n.toTy.isFlat = true ∧ s.acceptsWithin 20 n.toTy = true ∧ n.toTy.sparing = true ∧
      (∀ v ∈ n.toTy.vars, ∃ d ∈ s.catalog.decls, ∃ p ∈ d.vars, v = .declared p) ∧
      (∀ v ∈ b.vars, ∃ d ∈ s.catalog.decls, ∃ p ∈ d.vars, v = .declared p) ∧
      (∀ p ∈ n.toTy.origins ++ b.origins, p = .given 0 ∨ p = .given 1 ∨ p = .common) ∧
      ((s.capture n >>= fun c => (s.withDepth 20).below c.toTy b).outcome {}).1.map id = .ok true ∧
      ((s.capture n >>= fun _ => (s.withDepth 20).below n.toTy b).outcome {}).1.map id = .ok true := by
    decide +kernel
  obtain ⟨hbounds, hflat, haccepts, hsparing, hvars, hvars', hplaces, hc, hn⟩ := hall
  have hs : s.Upright := .of_grown (Catalog.grown_extended _) _ hbounds (by decide)
  have haccepted := Accepts.of_within haccepts
  have hissued : ∀ p ∈ n.toTy.origins ++ b.origins, ({} : Memory).Issued p := by
    intro p hp
    rcases hplaces p hp with rfl | rfl | rfl <;> trivial
  have hm := Memory.numbered_empty s
  obtain ⟨x, l', hx, -⟩ := exists_answers hc
  obtain ⟨y, r', hy, -⟩ := exists_answers hn
  obtain ⟨c, m', h, hx⟩ := answers_bind.1 hx
  obtain ⟨c', m'', h', hy⟩ := answers_bind.1 hy
  obtain ⟨rfl, rfl⟩ := h.unique h'
  have hk := (capture_precedes hm h).numbered.refl
  have hb : s.Spared {} m' m' b := spared_of_params hs (capture_precedes hm h)
    (fun p hp => hissued p (List.mem_append_right _ hp)) hvars'
  have hissued := fun p hp => hissued p (List.mem_append_left _ hp)
  obtain ⟨hbelow, hsame⟩ := capture_transparent hs hflat haccepted hsparing hvars hm hissued h hk
  exact ⟨hs, hflat, haccepted, hsparing, hvars, hissued, c, m', h, hk, hb, ⟨x, l', hx⟩, ⟨y, r', hy⟩,
    fun r k' => hbelow 20 r k', fun x l' y r' => hsame b hb m' m' hk hk 20 20 x l' y r'⟩

/-- **A type that was built for a bound spoils the comparison** where a bound is malformed. `Foo` is declared
over `A` and `B extends Object<A>`, and `Foo<String, ?>` is captured. Of the bound of the new variable only
the built type `Object<String>` itself stands in `Foo<String, ? extends Object<String>>`: the captured type is
below that, as a type is below itself, and the type is not, as it is captured with a bound of its own. -/
theorem capture_transparent_refuted :
    let s : Setting := { catalog := .extended [
      { name := "Foo", params := [⟨"A", ""⟩, ⟨"B", "Object<A>"⟩] }] }
    let string : Ty := .nominal ⟨.given 0, [1]⟩ "String" []
    let n : Nominal := ⟨⟨.given 0, [0]⟩, "Foo", [.type string, .wild .object .null]⟩
    let c : Nominal := ⟨⟨.given 0, [0]⟩, "Foo", [.type string, .type (.var (.captured 1))]⟩
    let m := ((s.capture n).outcome {}).2
    let b : Ty := .nominal ⟨.given 1, [0]⟩ "Foo" [.type string, .wild (m.upper 1) .null]
    s.Upright ∧ (s.capture n).Answers {} c m ∧ (∀ i, .captured i ∉ b.vars) ∧
      ∃ x l' y r', (s.below c.toTy b).Answers m x l' ∧ (s.below n.toTy b).Answers m y r' ∧ x ≠ y := by
  intro s string n c m b
  have hall : (∀ d ∈ s.catalog.decls, ∀ p ∈ d.params, p.upper.sparing = true) ∧
      ((s.capture n).outcome {}).1.map (fun r => decide (r = c)) = .ok true ∧ b.vars = [] ∧
      ((s.below c.toTy b).outcome m).1.map id = .ok true ∧
      ((s.below n.toTy b).outcome m).1.map not = .ok true := by
    decide +kernel
  obtain ⟨hbounds, hcapture, hvars, hyes, hno⟩ := hall
  obtain ⟨r, m', hr, heq⟩ := exists_answers hcapture
  obtain rfl := of_decide_eq_true heq
  obtain ⟨x, l', hx, hxtrue⟩ := exists_answers hyes
  obtain ⟨y, r', hy, hyfalse⟩ := exists_answers hno
  refine ⟨.of_grown (Catalog.grown_extended _) _ hbounds (by decide), ?_, by simp [hvars],
    x, l', y, r', hx, hy, ?_⟩
  · rw [show m = m' from congrArg Prod.snd hr]
    exact hr
  · rintro rfl
    simp_all

end Setting
end Generics
