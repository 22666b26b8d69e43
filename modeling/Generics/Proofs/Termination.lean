/-
# Comparisons that end

Comparing types may go on for ever, also where every declaration and every type is in order. With
`C` below `N<N<? super C>>`, asking whether `C` is below `N<? super C>` asks the same question again
(`Setting.below_endless`).

What makes it go on is a wildcard in a declared type: each round brings a new one in. Where supertypes
are plain and bounds have neither wildcards nor variables, comparisons end (`Setting.below_ends`). The
measure is how deep wildcards nest on both sides together, and within one level of nesting the size of
the right side. The size grows only where a comparison of arguments is turned round, after it was
answered with yes the first way (`Setting.EndsUnder.back`).
-/

import Generics.Proofs.Nesting
import Generics.Proofs.Soundness

namespace Generics
namespace Setting

open Query

variable {s : Setting} {Γ Δ : Scope} {C : Nat → Prop} {m : Memory} {a b : Ty}

/-! ### Questions that end -/

/-- From some depth on the question has one answer, and leaves a memory of the scope. -/
def EndsIn (s : Setting) (Γ : Scope) (q : Nat → Query Bool) (m : Memory) : Prop :=
  ∃ r m' depth, m'.Within s .full Γ ∧ ∀ n, depth ≤ n → (q n).Answers m r m'

/-- Whatever the memory of the scope, the question ends. -/
def Ends (s : Setting) (Γ : Scope) (q : Nat → Query Bool) : Prop :=
  ∀ m, m.Within s .full Γ → s.EndsIn Γ q m

namespace Ends

variable {first second q : Nat → Query Bool}

/-- An answer at once is an end. -/
theorem pure (b : Bool) : s.Ends Γ fun _ => pure b :=
  fun m hm => ⟨b, m, 0, hm, fun _ _ => answers_pure.2 ⟨rfl, rfl⟩⟩

/-- What a question comes to at the next depth ends, so the question ends. -/
theorem step (h : s.Ends Γ q) (heq : ∀ n, first (n + 1) = q n) : s.Ends Γ first := by
  intro m hm
  obtain ⟨r, m', depth, hm', hr⟩ := h m hm
  refine ⟨r, m', depth + 1, hm', fun n hn => ?_⟩
  obtain ⟨n, rfl⟩ : ∃ k, n = k + 1 := ⟨n - 1, by omega⟩
  rw [heq]
  exact hr n (by omega)

/-- A conjunction ends if its first half does, and its second half where the first one is affirmed. -/
theorem both (h₁ : s.Ends Γ first)
    (h₂ : (∃ n m m', m.Within s .full Γ ∧ (first n).Answers m true m') → s.Ends Γ second) :
    s.Ends Γ fun n => Query.both (first n) (second n) := by
  intro m hm
  obtain ⟨r, m₁, d₁, hm₁, hr⟩ := h₁ m hm
  cases r with
  | false => exact ⟨false, m₁, d₁, hm₁, fun n hn => answers_both.2 (.inr ⟨hr n hn, rfl⟩)⟩
  | true =>
    obtain ⟨r', m₂, d₂, hm₂, hr'⟩ := h₂ ⟨d₁, m, m₁, hm, hr d₁ (Nat.le_refl _)⟩ m₁ hm₁
    exact ⟨r', m₂, max d₁ d₂, hm₂, fun n hn => answers_both.2
      (.inl ⟨m₁, hr n (by omega), hr' n (by omega)⟩)⟩

/-- A disjunction ends if both halves do. -/
theorem either (h₁ : s.Ends Γ first) (h₂ : s.Ends Γ second) :
    s.Ends Γ fun n => Query.either (first n) (second n) := by
  intro m hm
  obtain ⟨r, m₁, d₁, hm₁, hr⟩ := h₁ m hm
  cases r with
  | true => exact ⟨true, m₁, d₁, hm₁, fun n hn => answers_either.2 (.inr ⟨hr n hn, rfl⟩)⟩
  | false =>
    obtain ⟨r', m₂, d₂, hm₂, hr'⟩ := h₂ m₁ hm₁
    exact ⟨r', m₂, max d₁ d₂, hm₂, fun n hn => answers_either.2
      (.inl ⟨m₁, hr n (by omega), hr' n (by omega)⟩)⟩

/-- Asking of all types ends if asking of each does. -/
theorem all {ask : Nat → Ty → Query Bool} {ts : List Ty}
    (h : ∀ t ∈ ts, s.Ends Γ fun n => ask n t) : s.Ends Γ fun n => Query.all (ask n) ts := by
  induction ts with
  | nil => exact .pure true
  | cons t ts ih =>
    exact .both (h t List.mem_cons_self) fun _ => ih fun u hu => h u (List.mem_cons_of_mem _ hu)

/-- Asking of some type ends if asking of each does. -/
theorem any {ask : Nat → Ty → Query Bool} {ts : List Ty}
    (h : ∀ t ∈ ts, s.Ends Γ fun n => ask n t) : s.Ends Γ fun n => Query.any (ask n) ts := by
  induction ts with
  | nil => exact .pure false
  | cons t ts ih =>
    exact .either (h t List.mem_cons_self) (ih fun u hu => h u (List.mem_cons_of_mem _ hu))

/-- After a question that answers whatever the depth. -/
theorem after {α : Type} {ask : Query α} {r : α} {m' : Memory} {f : Nat → α → Query Bool}
    (h : ask.Answers m r m') (h' : s.EndsIn Γ (fun n => f n r) m') :
    s.EndsIn Γ (fun n => ask >>= f n) m := by
  obtain ⟨r', m'', depth, hm'', hr⟩ := h'
  exact ⟨r', m'', depth, hm'', fun n hn => answers_bind.2 ⟨r, m', h, hr n hn⟩⟩

end Ends

/-- The upper bound of a captured variable is answered at once. -/
theorem upper_answered (s : Setting) (i : Nat) (m : Memory) :
    (s.upper (.captured i)).Answers m (m.upper i) m :=
  answers_bind.2 ⟨m, m, answers_get.2 ⟨rfl, rfl⟩, answers_pure.2 ⟨rfl, rfl⟩⟩

/-- The lower bound of a captured variable is answered at once. -/
theorem lower_answered (s : Setting) (i : Nat) (m : Memory) :
    (s.lower (.captured i)).Answers m (m.lower i) m :=
  answers_bind.2 ⟨m, m, answers_get.2 ⟨rfl, rfl⟩, answers_pure.2 ⟨rfl, rfl⟩⟩

end Setting

namespace Setting

open Query

variable {s : Setting} {Γ : Scope} {C : Nat → Prop} {m m' : Memory} {a b : Ty} {x y : Position}
  {p q level : Nat}

/-- Comparisons end for types in which wildcards nest, both taken together, less deep than so. -/
def EndsUnder (s : Setting) (level : Nat) : Prop :=
  ∀ Γ C a b p q, Γ.Sound s .full C → a.Ranked s Γ C .bound p → b.Ranked s Γ C .bound q →
    p + q < level → ∀ trail, s.Ends Γ fun n => s.belowWithin n trail a b

/-- The comparison of the upper bound of a variable on the left. -/
theorem EndsUnder.upper (h : s.EndsUnder level) (hΓ : Γ.Sound s .full C) {i : Nat}
    (ha : (Ty.var (.captured i)).Ranked s Γ C x p) (hb : b.Ranked s Γ C y q) (hle : p + q ≤ level)
    (trail : Trail) :
    s.Ends Γ fun n => s.upper (.captured i) >>= fun t => s.belowWithin n trail t b := by
  intro m hm
  obtain ⟨k, rfl, hupper, -⟩ := ha.bounds hΓ hm
  exact Ends.after (upper_answered s i m)
    (h Γ C _ _ k q hΓ hupper hb.loose (by omega) trail m hm)

/-- The comparison with the lower bound of a variable on the right. -/
theorem EndsUnder.descends (h : s.EndsUnder level) (hΓ : Γ.Sound s .full C)
    (ha : a.Ranked s Γ C x p) (hb : b.Ranked s Γ C y q) (hle : p + q ≤ level) (trail : Trail) :
    s.Ends Γ fun n => s.descends n trail a b := by
  cases b with
  | var v =>
    obtain ⟨i, rfl, -⟩ := hb.isOver v (by simp [Ty.vars])
    simp only [Setting.descends]
    split
    · exact .pure false
    · intro m hm
      obtain ⟨k, rfl, -, hlower⟩ := hb.bounds hΓ hm
      exact Ends.after (lower_answered s i m)
        (h Γ C _ _ p k hΓ ha.loose hlower (by omega) _ m hm)
  | _ => exact .pure false

/-- **The comparison of two types that are no intersections ends** if it ends for types that nest
less deep, and if what it asks about arguments and components ends. -/
theorem EndsUnder.apart (h : s.EndsUnder level) (hΓ : Γ.Sound s .full C) (ha : a.Ranked s Γ C x p)
    (hb : b.Ranked s Γ C y q) (hle : p + q ≤ level) (hai : a.isInter = false) (hbi : b.isInter = false)
    (hnominal : ∀ n n' : Nominal, a = n.toTy → b = n'.toTy →
      s.Ends Γ fun k => s.nominalBelowBy (s.belowWithin k []) n n')
    (harray : ∀ e e', a = .array e → b = .array e' → e.isPrim = false → e'.isPrim = false →
      s.Ends Γ fun k => s.belowWithin k [] e e') (trail : Trail) :
    s.Ends Γ fun k => s.belowWithin k trail a b := by
  by_cases hnull : a = .null
  · exact .step (.pure true) fun n => by rw [hnull, belowWithin_of_null]
  by_cases hab : a = b
  · exact .step (.pure true) fun n => by rw [hab, belowWithin_self]
  have hdown := h.descends hΓ ha hb hle trail
  cases a with
  | null => exact absurd rfl hnull
  | inter => cases hai
  | prim c =>
    cases b with
    | inter => cases hbi
    | var w => exact .step hdown fun n => belowWithin_to_var (by simp) rfl (by simp)
    | _ => exact .step (.pure false) fun n => belowWithin_unlike hab rfl
  | nominal sa da aa =>
    cases b with
    | inter => cases hbi
    | var w => exact .step hdown fun n => belowWithin_to_var (by simp) rfl (by simp)
    | nominal sb db ab =>
      exact .step (hnominal ⟨sa, da, aa⟩ ⟨sb, db, ab⟩ rfl rfl) fun n => belowWithin_nominal hab
    | _ => exact .step (.pure false) fun n => belowWithin_unlike hab rfl
  | array e =>
    cases b with
    | inter => cases hbi
    | var w => exact .step hdown fun n => belowWithin_to_var (by simp) rfl (by simp)
    | array e' =>
      refine .step ?_ fun n => belowWithin_array fun he => hab (by rw [he])
      cases he : e.isPrim || e'.isPrim with
      | true =>
        simp only [arrayBelowBy, he, if_true]
        exact .pure _
      | false =>
        simp only [arrayBelowBy, he, Bool.false_eq_true, if_false]
        rw [Bool.or_eq_false_iff] at he
        exact harray e e' rfl rfl he.1 he.2
    | nominal sb db ab => exact .step (.pure _) fun n => belowWithin_array_nominal s n trail e sb db ab
    | _ => exact .step (.pure false) fun n => belowWithin_unlike hab rfl
  | var v =>
    obtain ⟨i, rfl, -⟩ := ha.isOver v (by simp [Ty.vars])
    refine .step ?_ fun n => belowWithin_var hbi hab
    split
    · exact .pure true
    · split
      · exact hdown
      · exact .either (h.upper hΓ ha hb hle _) hdown

/-! ### Arguments -/

/-- Equivalence ends if comparing one way does, and the other way where the first one is affirmed. -/
theorem equivalentBy_ends (hs : s.Regular .full) (hΓ : Γ.Sound s .full C) (ha : a.Ranked s Γ C x p)
    (hb : b.Ranked s Γ C y q) (h : s.Ends Γ fun n => s.belowWithin n [] a b)
    (h' : Below s Γ a.shape b.shape → s.Ends Γ fun n => s.belowWithin n [] b a) :
    s.Ends Γ fun n => equivalentBy (s.belowWithin n []) a b := by
  simp only [equivalentBy]
  split
  · exact .pure true
  · refine .both h fun ⟨n, m, m', hm, hr⟩ => h' ?_
    have hcomparable : s.Comparable .full Γ C a b := ⟨hΓ, ha.whole, hb.whole, ha.isOver, hb.isOver⟩
    exact ((decidesWithin hs n).below Γ C a b hcomparable m true m' hm hr).2.1 rfl

/-- Containment of arguments ends if it does for each pair. -/
theorem containsAllBy_ends {asked found : List Arg} (h : ∀ pair ∈ asked.zip found,
      s.Ends Γ fun n => containsBy (s.belowWithin n []) pair.1 pair.2) :
    s.Ends Γ fun n => containsAllBy (s.belowWithin n []) asked found := by
  induction asked generalizing found with
  | nil => cases found <;> exact .pure _
  | cons d asked ih =>
    cases found with
    | nil => exact .pure false
    | cons c found =>
      rw [List.zip_cons_cons, List.forall_mem_cons] at h
      exact .both h.1 fun _ => ih h.2

/-- Whether a wildcard contains a type is asked of its bounds, which nest less deep. -/
theorem EndsUnder.wild (h : s.EndsUnder level) (hΓ : Γ.Sound s .full C) {u l : Ty}
    (hu : u.Ranked s Γ C .bound q) (hl : l.Ranked s Γ C .bound q) (ha : a.Ranked s Γ C x p)
    (hlt : p + q < level) :
    s.Ends Γ fun n => containsBy (s.belowWithin n []) (.wild u l) (.type a) :=
  .both (h Γ C l a q p hΓ hl ha.loose (by omega) [])
    fun _ => h Γ C a u p q hΓ ha.loose hu hlt []

/-- **The comparison of applied declarations ends** if what it asks about the arguments found ends. -/
theorem nominalBelowBy_ends (hs : s.Regular .full) (hacyc : s.Acyclic) {n n' : Nominal}
    (hn : n.toTy.Ranked s Γ C x p) (hn' : n'.toTy.Ranked s Γ C y q)
    (h : ∀ m m' cs, m.Within s .full Γ → s.Meets .full m n n' cs m' →
      s.Ends m'.scope fun k => containsAllBy (s.belowWithin k []) n'.args cs) :
    s.Ends Γ fun k => s.nominalBelowBy (s.belowWithin k []) n n' := by
  intro m hm
  simp only [nominalBelowBy_eq]
  obtain ⟨l, htakes⟩ := takes_of_regular hn.whole.nominal
  obtain ⟨r, m₁, hr⟩ := meeting_total hs hacyc hm.faithful htakes hn'.whole.nominal
  obtain ⟨hnever, halways, hfound⟩ := meeting_answers hs hm.faithful htakes hn'.whole.nominal hr
  refine Ends.after hr ?_
  cases r with
  | never => exact Ends.pure false m₁ (hm.grows (hnever rfl).1)
  | always => exact Ends.pure true m₁ (hm.grows ((halways rfl).1.grows .full))
  | found cs =>
    have hmeets := hfound cs rfl
    obtain ⟨r, m₂, depth, hm₂, hr⟩ := h m m₁ cs hm hmeets m₁
      ⟨hmeets.faithful, .refl _, hmeets.tame hm.tame⟩
    exact ⟨r, m₂, depth,
      ⟨hm₂.faithful, (hm.le.trans hmeets.grows.le).trans hm₂.le, hm₂.tame⟩, hr⟩

/-! ### The other way round -/

/-- A declaration that is seen as itself has its own arguments. -/
theorem SeenAs.here_eq {d : String} {as cs : List Arg} (h : s.SeenAs d d as cs) : cs = as := by
  cases h with
  | here => rfl
  | up hne => exact absurd rfl hne

/-- Capturing leaves arguments that are types and puts variables in the place of wildcards. -/
theorem captureArgs_getElem? {as : List Arg} {i : Nat} {c : Arg} (h : as[i]? = some c) (last : Nat) :
    (∃ t, c = .type t ∧ (captureArgs last as)[i]? = some (.type t)) ∨
      ∃ j, c.isWild = true ∧ (captureArgs last as)[i]? = some (.type (.var (.captured j))) := by
  induction as generalizing last i with
  | nil => cases h
  | cons a as ih =>
    cases i with
    | zero =>
      injection h with h
      subst h
      cases a with
      | type t => exact .inl ⟨t, rfl, rfl⟩
      | wild u l => exact .inr ⟨last + 1, rfl, rfl⟩
    | succ i =>
      rw [List.getElem?_cons_succ] at h
      cases a <;> exact ih h _

/-- An argument that is a type is smaller than what it is an argument of. -/
theorem sizeOf_type_lt {n : Nominal} {t : Ty} (h : Arg.type t ∈ n.args) :
    sizeOf t.shape < sizeOf n.toTy.shape := by
  have hsize := List.sizeOf_lt_of_mem (List.mem_map_of_mem (f := Arg.shape) h)
  rw [Arg.shape_type, Arg.type.sizeOf_spec] at hsize
  rw [Nominal.toTy, Ty.shape_nominal, Ty.nominal.sizeOf_spec]
  omega

/-- Applied declarations of which the second one is known to be below the first one meet only if they
are of one declaration. Then what is found beside a type argument is a captured variable, or an
argument that it is below of. -/
theorem Meets.beside (hs : s.Regular .full) (hacyc : s.Acyclic) (hΓ : Γ.Sound s .full C)
    (hm : m.Within s .full Γ) {n n' : Nominal} {cs : List Arg} (hn : n.toTy.Ranked s Γ C x p)
    (hn' : n'.toTy.Ranked s Γ C y q) (h : s.Meets .full m n n' cs m')
    (hbelow : Below s Γ n'.toTy.shape n.toTy.shape) {t t' : Ty}
    (hmem : (Arg.type t', Arg.type t) ∈ n'.args.zip cs) :
    (∃ v, t = .var v) ∨ Below s m'.scope t'.shape t.shape ∧
      sizeOf t'.shape + sizeOf t.shape + 1 < sizeOf n'.toTy.shape + sizeOf n.toTy.shape := by
  have hdecl : n.decl = n'.decl :=
    inherits_antisymm hs.object hacyc h.inherits (Below.canMeet hbelow).1
  have hseen : cs.map Arg.shape = captureArgs m.scope.last (n.args.map Arg.shape) := by
    have hseen := h.seen
    rw [hdecl] at hseen
    exact hseen.here_eq
  obtain ⟨i, hi⟩ := List.mem_iff_getElem?.1 hmem
  rw [List.getElem?_zip_eq_some] at hi
  have hlen : cs.length = n.args.length := by
    simpa [length_captureArgs] using congrArg List.length hseen
  obtain ⟨e, he⟩ : ∃ e, n.args[i]? = some e :=
    ⟨_, List.getElem?_eq_getElem (hlen ▸ (List.getElem?_eq_some_iff.1 hi.2).1)⟩
  have hfound : (captureArgs m.scope.last (n.args.map Arg.shape))[i]? = some (.type t.shape) := by
    rw [← hseen, List.getElem?_map, hi.2]
    rfl
  have hshapes : ∀ {as : List Arg} {c : Arg}, as[i]? = some c →
      (as.map Arg.shape)[i]? = some c.shape := fun h => by
    rw [List.getElem?_map, h]
    rfl
  rcases captureArgs_getElem? (hshapes he) m.scope.last with ⟨u, hu, hcapture⟩ | ⟨j, -, hcapture⟩
  · right
    rw [hfound] at hcapture
    injection hcapture with hcapture
    injection hcapture with hcapture
    subst hcapture
    have hmem' : Arg.type t' ∈ n'.args := List.mem_of_getElem? hi.1
    cases e with
    | wild u l => cases hu
    | type u =>
      have hu : u.shape = t.shape := by injection hu
      have hmemu : Arg.type u ∈ n.args := List.mem_of_getElem? he
      have hsize := sizeOf_type_lt hmem'
      have hsizeu := sizeOf_type_lt hmemu
      rw [Nominal.toTy, Nominal.toTy, Ty.shape_nominal, Ty.shape_nominal, hdecl] at hbelow
      have hne : n.args.map Arg.shape ≠ [] := List.ne_nil_of_mem (List.mem_map_of_mem hmemu)
      obtain ⟨-, -, ds, hds, -, hdemands⟩ := (Below.nominal_cons hne).1 hbelow
      rw [hds.here_eq] at hdemands
      have hd : (captureArgs Γ.last (n'.args.map Arg.shape))[i]? = some (.type t'.shape) := by
        rcases captureArgs_getElem? (hshapes hi.1) Γ.last with ⟨v, hv, hd⟩ | ⟨_, hwild, -⟩
        · rw [hd, ← hv, Arg.shape_type]
        · cases hwild
      have hzip : (Arg.type t'.shape, Arg.type u.shape) ∈
          (captureArgs Γ.last (n'.args.map Arg.shape)).zip (n.args.map Arg.shape) :=
        List.mem_iff_getElem?.2 ⟨i, List.getElem?_zip_eq_some.2 ⟨hd, hshapes he⟩⟩
      have hdemand := hdemands (t'.shape, u.shape) (List.mem_flatMap.2 ⟨_, hzip, List.mem_cons_self⟩)
      have hut' := hn'.type hmem'
      have hut := hn.type hmemu
      have hΓbelow := (Below.le_iff hs hΓ (Scope.le_capture s Γ _ _) hut'.whole hut.whole hut'.isOver
        hut.isOver).1 hdemand
      have hbelow' := (Below.le_iff hs hΓ (hm.le.trans h.grows.le) hut'.whole hut.whole hut'.isOver
        hut.isOver).2 hΓbelow
      rw [hu] at hbelow' hsizeu
      exact ⟨hbelow', by omega⟩
  · left
    rw [hfound] at hcapture
    injection hcapture with hcapture
    injection hcapture with hcapture
    cases t with
    | var v => exact ⟨v, rfl⟩
    | _ => cases hcapture

/-- A variable is compared by its bounds, which nest less deep. -/
theorem EndsUnder.var (h : s.EndsUnder level) (hΓ : Γ.Sound s .full C) (ha : a.Ranked s Γ C x p)
    (hb : b.Ranked s Γ C y q) (hle : p + q ≤ level) (hai : a.isInter = false) (hbi : b.isInter = false)
    (hvar : ∃ v, a = .var v ∨ b = .var v) (trail : Trail) :
    s.Ends Γ fun n => s.belowWithin n trail a b := by
  obtain ⟨v, hvar⟩ := hvar
  refine h.apart hΓ ha hb hle hai hbi (fun n n' hn hn' => ?_) (fun e e' he he' _ _ => ?_) trail
  · subst hn hn'
    rcases hvar with hvar | hvar <;> cases hvar
  · subst he he'
    rcases hvar with hvar | hvar <;> cases hvar

/-- **Comparing two arguments of which the first is below the second the other way round ends.** -/
theorem EndsUnder.back (hs : s.Firm) (h : s.EndsUnder level) (size : Nat) :
    ∀ {Γ : Scope} {C : Nat → Prop} {a b : Ty} {p q : Nat}, Γ.Sound s .full C →
      a.Ranked s Γ C .argument p → b.Ranked s Γ C .argument q → p + q ≤ level →
        sizeOf a.shape + sizeOf b.shape < size → Below s Γ a.shape b.shape →
          ∀ trail, s.Ends Γ fun n => s.belowWithin n trail b a := by
  induction size with
  | zero =>
    intro _ _ _ _ _ _ _ _ _ _ hsize
    cases hsize
  | succ size ih =>
    intro Γ C a b p q hΓ ha hb hle hsize hbelow trail
    refine h.apart hΓ hb ha (by omega) hb.isInter ha.isInter (fun n n' hn hn' => ?_)
      (fun e e' he he' hep hep' => ?_) trail
    · subst hn hn'
      refine nominalBelowBy_ends hs.regular hs.acyclic hb ha fun m m' cs hm hmeets => ?_
      obtain ⟨hΓ', hfound⟩ := hmeets.ranked hs hΓ hm hb
      have hle' := hm.le.trans hmeets.grows.le
      refine containsAllBy_ends fun ⟨d, c⟩ hdc => ?_
      obtain ⟨hd, hc⟩ := List.of_mem_zip hdc
      obtain ⟨t, rfl, ht⟩ := hfound c hc
      cases d with
      | wild u l =>
        obtain ⟨k, rfl, hu, hl⟩ := ha.wild hd
        exact h.wild hΓ' (hu.mono hle' fun _ => .inl) (hl.mono hle' fun _ => .inl) ht (by omega)
      | type t' =>
        have ht' := (ha.type hd).mono (D := Scope.widen C m.scope m'.scope) hle' fun _ => .inl
        rcases hmeets.beside hs.regular hs.acyclic hΓ hm hb ha hbelow hdc with ⟨v, hv⟩ | ⟨hbeside, hsmaller⟩
        · exact equivalentBy_ends hs.regular hΓ' ht ht'
            (h.var hΓ' ht ht' (by omega) ht.isInter ht'.isInter ⟨v, .inl hv⟩ [])
            fun _ => h.var hΓ' ht' ht (by omega) ht'.isInter ht.isInter ⟨v, .inr hv⟩ []
        · exact equivalentBy_ends hs.regular hΓ' ht ht'
            (ih hΓ' ht' ht (by omega) (by omega) hbeside [])
            fun hback => ih hΓ' ht ht' (by omega) (by omega) hback []
    · subst he he'
      rw [Ty.shape_array, Ty.shape_array, Below.array_array (by rw [Ty.isPrim_shape, hep'])
        (by rw [Ty.isPrim_shape, hep])] at hbelow
      rw [Ty.shape_array, Ty.shape_array, Ty.array.sizeOf_spec, Ty.array.sizeOf_spec] at hsize
      exact ih hΓ ha.component hb.component hle (by omega) hbelow []

/-! ### All comparisons -/

/-- One level of nesting more: by the size of the right side, which grows only where a comparison is
turned round. -/
theorem EndsUnder.succ (hs : s.Firm) (h : s.EndsUnder level) : s.EndsUnder (level + 1) := by
  intro Γ C a b p q hΓ ha hb hlt
  generalize hsize : sizeOf b.shape = size
  induction size using Nat.strong_induction_on generalizing Γ C a b p q with
  | _ size ih =>
    subst hsize
    -- the left side is no intersection
    have hflat : ∀ {a : Ty} {p : Nat}, a.Ranked s Γ C .bound p → p + q < level + 1 →
        a.isInter = false → b.isInter = false → ∀ trail,
          s.Ends Γ fun n => s.belowWithin n trail a b := by
      intro a p ha hlt hai hbi trail
      refine h.apart hΓ ha hb (by omega) hai hbi (fun n n' hn hn' => ?_)
        (fun e e' he he' _ _ => ?_) trail
      · subst hn hn'
        refine nominalBelowBy_ends hs.regular hs.acyclic ha hb fun m m' cs hm hmeets => ?_
        obtain ⟨hΓ', hfound⟩ := hmeets.ranked hs hΓ hm ha
        have hle' := hm.le.trans hmeets.grows.le
        refine containsAllBy_ends fun ⟨d, c⟩ hdc => ?_
        obtain ⟨hd, hc⟩ := List.of_mem_zip hdc
        obtain ⟨t, rfl, ht⟩ := hfound c hc
        cases d with
        | wild u l =>
          obtain ⟨k, rfl, hu, hl⟩ := hb.wild hd
          exact h.wild hΓ' (hu.mono hle' fun _ => .inl) (hl.mono hle' fun _ => .inl) ht (by omega)
        | type t' =>
          have ht' := (hb.type hd).mono (D := Scope.widen C m.scope m'.scope) hle' fun _ => .inl
          exact equivalentBy_ends hs.regular hΓ' ht ht'
            (ih _ (sizeOf_type_lt hd) _ _ _ _ _ _ hΓ' ht.loose ht'.loose hlt rfl [])
            fun hbelow => h.back hs _ hΓ' ht ht' (by omega)
              (Nat.lt_succ_self _) hbelow []
      · subst he he'
        refine ih _ ?_ _ _ _ _ _ _ hΓ ha.component hb.component hlt rfl []
        rw [Ty.shape_array, Ty.array.sizeOf_spec]
        omega
    intro trail
    cases hbi : b.isInter with
    | true =>
      cases b with
      | inter st ms =>
        by_cases hnull : a = .null
        · exact .step (.pure true) fun n => by rw [hnull, belowWithin_of_null]
        by_cases hab : a = .inter st ms
        · exact .step (.pure true) fun n => by rw [hab, belowWithin_self]
        refine .step (.all fun t ht => ?_) fun n => belowWithin_members hnull hab
        refine ih _ ?_ _ _ _ _ _ _ hΓ ha (hb.member ht).2 hlt rfl trail
        have hreg := hb.whole.resolve_left (by simp [Ty.isPrim])
        have hlt := List.sizeOf_lt_of_mem (List.mem_map_of_mem (f := Ty.shape) ht)
        rw [Ty.shape_inter hreg, Ty.inter.sizeOf_spec]
        omega
      | _ => cases hbi
    | false =>
      cases hai : a.isInter with
      | false => exact hflat ha hlt hai hbi trail
      | true =>
        cases a with
        | inter st ms =>
          cases ms with
          | nil =>
            exact .step (hflat (.object hs.regular) hlt rfl hbi trail) fun n => belowWithin_top hbi
          | cons c ms =>
            refine .step (.either (.any fun t ht => ?_) (h.descends hΓ ha hb (by omega) trail))
              fun n => belowWithin_inter hbi
            obtain ⟨hti, ht⟩ := ha.member ht
            exact hflat ht hlt hti hbi trail
        | _ => cases hai

/-- **Comparisons end at every level**, by induction on it. -/
theorem endsUnder (hs : s.Firm) (level : Nat) : s.EndsUnder level := by
  induction level with
  | zero =>
    intro _ _ _ _ _ _ _ _ _ hlt
    cases hlt
  | succ level ih => exact ih.succ hs

/-- **Subtyping is decided where wildcards stand only in the types compared.** Over a vetted catalog
without cycles in which supertypes are plain, and bounds have no wildcards and mention no parameters,
the comparison of two types without variables ends, if no intersections stand in their type
arguments: from some depth on it has one answer, whatever was asked before. -/
theorem below_ends (hv : s.Vetted) (hacyc : s.Acyclic)
    (hparents : ∀ d ∈ s.catalog.decls, ∀ n ∈ d.parents, n.toTy.isPlain = true)
    (hbounds : ∀ d ∈ s.catalog.decls, ∀ p ∈ d.params, p.upper.nests .bound 0 = true)
    (ha : a.Ground s) (hb : b.Ground s) (hp : a.nests .bound p = true) (hq : b.nests .bound q = true)
    (hm : m.Faithful s) (ht : m.Tame s .full) :
    ∃ r m' depth, ∀ n, depth ≤ n → ((s.withDepth n).below a b).Answers m r m' := by
  have hs : s.Firm := by
    refine ⟨hv.regular, hacyc, fun decl l hl n hn => ?_, fun decl l hl v hv' => ?_⟩
    · obtain ⟨hreg, hwild, hvars⟩ := hv.regular.parents decl l hl n hn
      obtain ⟨d, hd, -, -, -, hof⟩ := hv.grown.of_lineage hl
      refine ⟨hreg.plain ?_, hwild, hvars⟩
      rcases hof n hn with hn | rfl
      · exact hparents d hd n hn
      · rfl
    · obtain ⟨d, hd, -, hfind, hparams, -⟩ := hv.grown.of_lineage hl
      obtain ⟨u, hu, hupper, -⟩ := Declaration.upper_eq hfind (hparams ▸ hv')
      exact hupper ▸ hbounds d hd u hu
  obtain ⟨r, m', depth, -, hr⟩ := endsUnder hs (p + q + 1) m.scope (fun _ => False)
    a b p q (m.scope.sound_empty s .full) ⟨ha.closed.whole, ha.closed.isOver, .of_nests hp⟩
    ⟨hb.closed.whole, hb.closed.isOver, .of_nests hq⟩ (Nat.lt_succ_self _) [] m ⟨hm, .refl _, ht⟩
  refine ⟨r, m', depth, fun n hn => ?_⟩
  rw [below_withDepth]
  exact hr n hn

/-- `Grid<T>`, with `T` below `Number`, is below `List<List<T>>`. Whether `Grid<? super Integer>` is
below `Iterable<? extends List<? super Integer>>` is found out. -/
theorem below_ends_grid :
    let definition : Definition :=
      { name := "Grid", params := [⟨"T", "Number"⟩], parents := ["List<List<T>>"] }
    let s : Setting := { catalog := .extended [definition] }
    let integer (i : Nat) : Arg := .wild .object (.nominal ⟨.given i, [2]⟩ "Integer" [])
    let grid : Ty := .nominal ⟨.given 0, [0]⟩ "Grid" [integer 0]
    let rows : Ty := .nominal ⟨.given 1, [0]⟩ "Iterable"
      [.wild (.nominal ⟨.given 1, [1]⟩ "List" [integer 1]) .null]
    s.Vetted ∧ s.Acyclic ∧ grid.Ground s ∧ rows.Ground s ∧
      ∃ r m' depth, ∀ n, depth ≤ n → ((s.withDepth n).below grid rows).Answers {} r m' := by
  intro definition s integer grid rows
  obtain ⟨hdeclared, hdecls, horder, hgrid, hrows, hnests⟩ :
      (∀ t ∈ s.catalog.declaredTypes, s.acceptsWithin 20 t = true ∧ t.sparing = true) ∧
      (∀ d ∈ s.catalog.decls, (∀ n ∈ d.parents, n.toTy.isPlain = true) ∧
        ∀ p ∈ d.params, p.upper.nests .bound 0 = true) ∧ s.catalog.InOrder ∧
      (grid.vars = [] ∧ grid.isFlat = true ∧ s.acceptsWithin 20 grid = true ∧ grid.sparing = true) ∧
      (rows.vars = [] ∧ rows.isFlat = true ∧ s.acceptsWithin 20 rows = true ∧ rows.sparing = true) ∧
      grid.nests .bound 1 = true ∧ rows.nests .bound 2 = true := by decide +kernel
  have hgrown : s.catalog.Grown := Catalog.grown_extended _
  have hv : s.Vetted := .of_within hgrown hdeclared (by decide)
  have hacyc := hgrown.acyclic horder
  have hgrid : grid.Ground s := ⟨hgrid.1, hgrid.2.1, .of_within hgrid.2.2.1, .inr hgrid.2.2.2⟩
  have hrows : rows.Ground s := ⟨hrows.1, hrows.2.1, .of_within hrows.2.2.1, .inr hrows.2.2.2⟩
  exact ⟨hv, hacyc, hgrid, hrows, below_ends hv hacyc (fun d hd => (hdecls d hd).1)
    (fun d hd => (hdecls d hd).2) hgrid hrows hnests.1 hnests.2 (Memory.faithful_empty s)
    (Memory.tame_empty s .full)⟩

/-! ### A comparison that does not end -/

/-- The question fails because it nests too deep. -/
def Exhausts {α : Type} (q : Query α) (m : Memory) : Prop :=
  ∃ m', q.outcome m = (.error .exhausted, m')

/-- A question is exhausted if what it begins with is. -/
theorem Exhausts.first {α β : Type} {ask : Query α} (h : Exhausts ask m) (f : α → Query β) :
    Exhausts (ask >>= f) m := by
  obtain ⟨m', h⟩ := h
  exact ⟨m', by rw [outcome_bind, h]⟩

/-- A question is exhausted if what it goes on with is. -/
theorem Exhausts.after {α β : Type} {ask : Query α} {f : α → Query β} {r : α}
    (h : ask.Answers m r m') (h' : Exhausts (f r) m') : Exhausts (ask >>= f) m := by
  obtain ⟨m'', h'⟩ := h'
  refine ⟨m'', ?_⟩
  rw [outcome_bind, show ask.outcome m = (.ok r, m') from h]
  exact h'

/-- `N<? super C>` -/
def spiral (c n : String) : Ty := .nominal .common n [.wild .object (.nominal .common c [])]

/-- Seen as the second declaration, the first one is `N<N<? super C>>`. -/
structure Spirals (s : Setting) (c n : String) : Prop where
  ne : c ≠ n
  params : s.paramsOf c = []
  inherits : Settles s (s.inherits c n) (.ok true)
  seen : s.SeenAs n c [] [.type (spiral c n)]

/-- **Whether `C` is below `N<? super C>` is asked again and again.** -/
theorem Spirals.exhausts (hs : s.Regular .full) (hacyc : s.Acyclic) {c n : String}
    (h : s.Spirals c n) (depth : Nat) :
    ∀ {a b : Ty} {m : Memory}, a.shape = .nominal .common c [] → b.shape = spiral c n →
      a.Regular s .full → b.Regular s .full → m.Faithful s →
        Exhausts (s.belowWithin depth [] a b) m := by
  induction depth with
  | zero => exact fun _ _ _ _ _ => ⟨_, rfl⟩
  | succ depth ih =>
    intro a b m ha hb har hbr hm
    obtain ⟨x, rfl, hx, hxs⟩ := Ty.of_shape_nominal ha
    obtain ⟨y, rfl, hy, hys⟩ := Ty.of_shape_nominal hb
    rw [List.map_eq_nil_iff] at hxs
    have hne : x.toTy ≠ y.toTy := fun heq => by
      rw [Nominal.toTy, Nominal.toTy, hx, hy] at heq
      injection heq with _ hcn
      exact h.ne hcn
    rw [Nominal.toTy, Nominal.toTy, belowWithin_nominal hne, nominalBelowBy_eq]
    obtain ⟨l, htakes⟩ := takes_of_regular har
    obtain ⟨r, m₁, hr⟩ := meeting_total hs hacyc hm htakes hbr
    obtain ⟨hnever, halways, hfound⟩ := meeting_answers hs hm htakes hbr hr
    refine .after hr ?_
    cases r with
    | never =>
      have hcan : s.CanMeet x y := by
        rw [CanMeet, hx, hy]
        refine ⟨h.inherits, fun _ => ⟨fun _ => h.params, [], _, by rw [hxs], h.seen, ?_⟩⟩
        exact (by simpa using congrArg List.length hys.symm)
      exact absurd hcan (hnever rfl).2
    | always =>
      rw [(halways rfl).2.2] at hys
      cases hys
    | found cs =>
      have hmeets := hfound cs rfl
      have hseen := hmeets.seen
      rw [hxs, hx, hy] at hseen
      have hcs := h.seen.unique hseen
      obtain ⟨found, rfl, hshape'⟩ := List.map_eq_singleton_iff.1 hcs.symm
      obtain ⟨asked, hasked, hshape⟩ := List.map_eq_singleton_iff.1 hys
      rw [Nominal.toTy, hasked, Ty.Regular, Arg.RegularAll] at hbr
      have hreg := hmeets.regular _ List.mem_cons_self
      cases asked with
      | type t => cases hshape
      | wild u l =>
        cases found with
        | wild u' l' => cases hshape'
        | type t =>
          injection hshape with _ hl
          injection hshape' with ht
          rw [Arg.Regular] at hbr
          rw [Arg.Regular] at hreg
          rw [hasked]
          exact ((ih hl ht hbr.2.1.2.2 hreg hmeets.faithful).first _).first _

/-- **A comparison that never ends.** With `C` below `N<N<? super C>>`, all declared types are accepted
and inheritance has no cycle, and the types `C` and `N<? super C>` are accepted; yet no depth is
enough to find out whether one is below the other. -/
theorem below_endless :
    let outer : Definition := { name := "N", params := [⟨"T", ""⟩] }
    let inner : Definition := { name := "C", parents := ["N<N<? super C>>"] }
    let s : Setting := { catalog := .extended [outer, inner] }
    let a : Ty := .nominal ⟨.given 0, [0]⟩ "C" []
    let b : Ty := .nominal ⟨.given 1, [0]⟩ "N" [.wild .object (.nominal ⟨.given 1, [1]⟩ "C" [])]
    s.Vetted ∧ s.Acyclic ∧ a.Ground s ∧ b.Ground s ∧
      ∀ n m, m.Faithful s → Exhausts ((s.withDepth n).below a b) m := by
  intro outer inner s a b
  obtain ⟨hdeclared, horder, ha, hb, hparams, hinherits, hleads⟩ :
      (∀ t ∈ s.catalog.declaredTypes, s.acceptsWithin 20 t = true ∧ t.sparing = true) ∧
      s.catalog.InOrder ∧
      (a.vars = [] ∧ a.isFlat = true ∧ s.acceptsWithin 20 a = true ∧ a.sparing = true) ∧
      (b.vars = [] ∧ b.isFlat = true ∧ s.acceptsWithin 20 b = true ∧ b.sparing = true) ∧
      s.paramsOf "C" = [] ∧ ((s.inherits "C" "N").outcome {}).1.map (fun r => r) = .ok true ∧
      ((s.leadsTo? "C" "N").outcome {}).1.map (fun r => r.any fun parent =>
        parent.decl == "N" && parent.args.map Arg.shape == [.type (spiral "C" "N")]) = .ok true := by
    decide +kernel
  have hgrown : s.catalog.Grown := Catalog.grown_extended _
  have hv : s.Vetted := .of_within hgrown hdeclared (by decide)
  have hacyc := hgrown.acyclic horder
  have ha : a.Ground s := ⟨ha.1, ha.2.1, .of_within ha.2.2.1, .inr ha.2.2.2⟩
  have hb : b.Ground s := ⟨hb.1, hb.2.1, .of_within hb.2.2.1, .inr hb.2.2.2⟩
  have hspirals : s.Spirals "C" "N" := by
    obtain ⟨r, _, hr, rfl⟩ := exists_answers hinherits
    obtain ⟨lead, _, hlead, hshape⟩ := exists_answers hleads
    have hinherits := ((inherits_steady s "C" "N").settles (Memory.faithful_empty s) hr).1
    have hsettles := ((leadsTo?_steady s "C" "N").settles (Memory.faithful_empty s) hlead).1
    cases lead with
    | none => cases hshape
    | some parent =>
      rw [Option.any_some, Bool.and_eq_true, beq_iff_eq, beq_iff_eq] at hshape
      refine ⟨by decide, hparams, hinherits, .up (by decide) hsettles ?_⟩
      rw [inherited_nil hparams, hshape.1, hshape.2]
      exact .here _
  refine ⟨hv, hacyc, ha, hb, fun n m hm => ?_⟩
  rw [below_withDepth]
  exact hspirals.exhausts hv.regular hacyc n rfl rfl (ha.closed.whole.nominal) (hb.closed.whole.nominal) hm

end Setting
end Generics
