/-
# Numbers of one run and of another

Between two questions other questions are asked, and the counters go on (`Memory.Precedes`). When is what
holds of one run to be found again in a later one? A type of which no part, nor of what its bounds lead to,
was handed out in the meantime (`Setting.Spared`) is the same type in both. What was captured and built
between two moments of the first run may have a counterpart in the second, as far after another moment
there. `Memory.Aligned` says which moments these are, and `Memory.alignment` pairs the numbers: the
earlier ones with themselves, those of the counterparts in order, and those to come in order.
-/

import Generics.Proofs.Tandems

namespace Generics

/-! ## Memories that follow each other -/

/-- What is known is right, and variables are captured under the numbers up to the counter. -/
structure Memory.Numbered (s : Setting) (m : Memory) : Prop where
  faithful : m.Faithful s
  unused : ∀ i, m.lastCaptured < i → m.captured? i = none

/-- The second memory is one that questions may leave, asked with the first one. -/
structure Memory.Precedes (s : Setting) (m m' : Memory) : Prop where
  numbered : m'.Numbered s
  last : m.lastCaptured ≤ m'.lastCaptured
  built : m.built ≤ m'.built
  captured : ∀ i ≤ m.lastCaptured, m'.captured? i = m.captured? i

namespace Memory

variable {s : Setting} {m m₁ m₂ m₃ : Memory}

/-- In the empty memory nothing is captured under a number. -/
theorem numbered_empty (s : Setting) : ({} : Memory).Numbered s := ⟨faithful_empty s, fun _ _ => rfl⟩

/-- A memory with numbers in order precedes itself. -/
theorem Numbered.refl (h : m.Numbered s) : m.Precedes s m :=
  ⟨h, Nat.le_refl _, Nat.le_refl _, fun _ _ => rfl⟩

namespace Precedes

/-- What precedes a memory precedes what comes after it. -/
theorem trans (h : m₁.Precedes s m₂) (h' : m₂.Precedes s m₃) : m₁.Precedes s m₃ :=
  ⟨h'.numbered, Nat.le_trans h.last h'.last, Nat.le_trans h.built h'.built, fun i hi =>
    (h'.captured i (Nat.le_trans hi h.last)).trans (h.captured i hi)⟩

/-- A memory that another one precedes is faithful. -/
theorem faithful (h : m₁.Precedes s m₂) : m₂.Faithful s := h.numbered.faithful

/-- A memory that another one precedes has only learnt and built since. -/
theorem since (h : m₁.Precedes s m₂) : m₁.Since s m₂ := ⟨h.faithful, h.last, h.captured⟩

/-- How deep comparisons may nest plays no part. -/
theorem withDepth_iff {m m' : Memory} {n : Nat} : m.Precedes (s.withDepth n) m' ↔ m.Precedes s m' :=
  ⟨fun h => ⟨⟨h.faithful, h.numbered.unused⟩, h.last, h.built, h.captured⟩,
    fun h => ⟨⟨h.faithful, h.numbered.unused⟩, h.last, h.built, h.captured⟩⟩

end Precedes

/-- Only learning and building make a memory follow. -/
theorem Stays.precedes (h : m₁.Stays s m₂) (hm : m₁.Numbered s) (hbuilt : m₁.built ≤ m₂.built) :
    m₁.Precedes s m₂ := by
  refine ⟨⟨h.faithful, fun i hi => ?_⟩, Nat.le_of_eq h.keeps.last.symm, hbuilt, fun i _ => ?_⟩
  · rw [captured?, h.keeps.captured]
    exact hm.unused i (h.keeps.last ▸ hi)
  · rw [captured?, captured?, h.keeps.captured]

/-- A memory that has learnt more follows. -/
theorem Learns.precedes (h : m₁.Learns m₂) (hm : m₁.Numbered s) (hf : m₂.Faithful s) :
    m₁.Precedes s m₂ :=
  Stays.precedes ⟨hf, h.keeps⟩ hm (Nat.le_of_eq h.built.symm)

end Memory

namespace Setting

open Query

variable {s : Setting} {m m₀ m' : Memory}

/-- Fewer types than before were never built. -/
theorem keeps_built (s : Setting) (k : Nat) : s.Keeps fun m => m.Faithful s ∧ k ≤ m.built where
  lineage decl m hm := by
    obtain ⟨v, hv⟩ := lineage_steady s decl
    obtain ⟨-, hf, hl⟩ := hv m hm.1
    exact ⟨hf, hl.built ▸ hm.2⟩
  leadsTo? decl ancestor _ m hm := by
    obtain ⟨v, hv⟩ := leadsTo?_steady s decl ancestor
    obtain ⟨-, hf, hl⟩ := hv m hm.1
    exact ⟨hf, hl.built ▸ hm.2⟩
  built m hm := ⟨hm.1, Nat.le_succ_of_le hm.2⟩
  capture n hbounds := by
    have hparams : Preserves (fun m => m.Faithful s ∧ k ≤ m.built) (s.params n.decl) := by
      intro m hm
      obtain ⟨v, hv⟩ := params_steady s n.decl
      obtain ⟨-, hf, hl⟩ := hv m hm.1
      exact ⟨hf, hl.built ▸ hm.2⟩
    unfold capture
    refine .ite (hparams.bind fun _ => .ite (.throw _) (Preserves.get.bind fun m => ?_)) (.pure _)
    refine .bind (.modify fun m hm => hm) fun _ => (hbounds _ _ _).bind fun _ => ?_
    exact .bind (.modify fun m hm => hm) fun _ => .pure _

/-- There is no more to note than there are wildcards. -/
theorem length_slots_le (ps : List TypeVar) (as : List Arg) :
    (slots ps as).length ≤ as.countP Arg.isWild := by
  fun_induction slots ps as with
  | case1 p ps u l as ih =>
    rw [List.length_cons, List.countP_cons_of_pos (by rfl)]
    omega
  | case2 p ps t as ih => rwa [List.countP_cons_of_neg (by simp [Arg.isWild])]
  | case3 => simp

/-- Capturing builds no fewer types than before, whatever comes of it. -/
theorem built_le_capture (n : Nominal) (hm : m.Faithful s) :
    m.built ≤ ((s.capture n).outcome m).2.built :=
  ((capture_composed (Realm.closed_all s.catalog) n.in_all).preserves (keeps_built s m.built) m
    ⟨hm, Nat.le_refl _⟩).2

/-- The captured variables that a capture adds are numbered on. -/
theorem Captures.precedes {n : Nominal} {cs : List Captured} (h : s.Captures n m m' cs)
    (hm : m.Numbered s) (hbuilt : m.built ≤ m'.built) : m.Precedes s m' := by
  refine ⟨⟨h.faithful, fun i hi => ?_⟩, h.since.last, hbuilt, h.since.captured⟩
  have hlen : cs.length ≤ n.args.countP Arg.isWild := h.fills.length ▸ length_slots_le _ _
  rw [h.last] at hi
  rw [h.captured?_eq, if_pos (by omega), List.getElem?_eq_none (by omega), Option.none_or]
  exact hm.unused i (by omega)

/-- The memory after a capture comes after the one before it. -/
theorem capture_precedes {n n' : Nominal} (hm : m.Numbered s) (h : (s.capture n).Answers m n' m') :
    m.Precedes s m' := by
  obtain ⟨-, ⟨cs, hcs⟩, -⟩ := capture_fills hm.faithful h
  have hbuilt := built_le_capture n hm.faithful
  rw [show (s.capture n).outcome m = (.ok n', m') from h] at hbuilt
  exact hcs.precedes hm hbuilt

/-- **Whatever is asked, memories follow each other.** -/
theorem keeps_precedes (s : Setting) (m₀ : Memory) : s.Keeps (m₀.Precedes s) where
  lineage decl m hm := by
    obtain ⟨v, hv⟩ := lineage_steady s decl
    obtain ⟨-, hf, hl⟩ := hv m hm.faithful
    exact hm.trans (hl.precedes hm.numbered hf)
  leadsTo? decl ancestor _ m hm := by
    obtain ⟨v, hv⟩ := leadsTo?_steady s decl ancestor
    obtain ⟨-, hf, hl⟩ := hv m hm.faithful
    exact hm.trans (hl.precedes hm.numbered hf)
  built m hm := ⟨⟨hm.faithful, hm.numbered.unused⟩, hm.last, Nat.le_succ_of_le hm.built, hm.captured⟩
  capture n _ m hm := by
    have hbuilt := built_le_capture n hm.faithful
    cases h : (s.capture n).outcome m with
    | mk r m' =>
      rw [h] at hbuilt
      cases r with
      | ok n' => exact hm.trans (capture_precedes hm.numbered h)
      | error f => exact hm.trans ((capture_fails hm.faithful h).precedes hm.numbered hbuilt)

/-! ## What a type bears -/

/-- The bounds of a variable. -/
def bounds (s : Setting) (m : Memory) : Var → List Ty
  | .declared v => [s.catalog.upper v]
  | .captured i => [m.upper i, m.lower i]

/-- The type itself, and the bounds of the variables in it, of those in the bounds, and so on. -/
inductive Bears (s : Setting) (m : Memory) (t : Ty) : Ty → Prop
  | self : Bears s m t t
  | bound {u b : Ty} {v : Var} (h : Bears s m t u) (hv : v ∈ u.vars) (hb : b ∈ s.bounds m v) :
    Bears s m t b

end Setting

/-- The place has a number that was handed out, if it has one at all. -/
def Memory.Issued (m : Memory) : Place → Prop
  | .capture i => i ≤ m.lastCaptured
  | .built i => i ≤ m.built
  | _ => True

/-- A place that lasts was issued, whatever the memory. -/
theorem Memory.issued_of_lasting {m : Memory} {p : Place} (h : p.Lasting) : m.Issued p := by
  cases p with
  | capture => cases h
  | built => cases h
  | _ => trivial

/-- What was issued is issued in every later memory. -/
theorem Memory.Precedes.issued {s : Setting} {m m' : Memory} (h : m.Precedes s m') {p : Place}
    (hp : m.Issued p) : m'.Issued p := by
  cases p with
  | capture i => exact Nat.le_trans hp h.last
  | built i => exact Nat.le_trans hp h.built
  | _ => trivial

namespace Setting

/-- All that the type bears was handed out before the memory `k`, and nothing of it between the memories
`m₀` and `m`. -/
def Spared (s : Setting) (m₀ m k : Memory) (t : Ty) : Prop :=
  ∀ u, s.Bears k t u → ∀ p ∈ u.origins, k.Issued p ∧ (m.Issued p → m₀.Issued p)

namespace Spared

variable {s : Setting} {m₀ m k : Memory} {t u : Ty}

/-- The places that a spared type mentions were issued, and those issued meanwhile were issued before.
-/
theorem origins (h : s.Spared m₀ m k t) : ∀ p ∈ t.origins, k.Issued p ∧ (m.Issued p → m₀.Issued p) :=
  h t .self

/-- What a spared type bears is spared. -/
theorem bears (h : s.Spared m₀ m k t) (hu : s.Bears k t u) : s.Spared m₀ m k u := by
  intro w hw
  refine h w ?_
  induction hw with
  | self => exact hu
  | bound _ hv hb ih => exact ih.bound hv hb

/-- A type is spared if its own places and the bounds of its variables are. -/
theorem of_bounds (ht : ∀ p ∈ t.origins, k.Issued p ∧ (m.Issued p → m₀.Issued p))
    (h : ∀ v ∈ t.vars, ∀ b ∈ s.bounds k v, s.Spared m₀ m k b) : s.Spared m₀ m k t := by
  have hbears : ∀ u, s.Bears k t u → u = t ∨ s.Spared m₀ m k u := by
    intro u hu
    induction hu with
    | self => exact .inl rfl
    | @bound u b v hu hv hb ih =>
      rcases ih with rfl | ih
      · exact .inr (h v hv b hb)
      · exact .inr (ih.bears (.bound .self hv hb))
  intro u hu
  rcases hbears u hu with rfl | hu
  · exact ht
  · exact hu.origins

/-- The bounds of the variables in a spared type are spared. -/
theorem bound (h : s.Spared m₀ m k t) {v : Var} (hv : v ∈ t.vars) {b : Ty} (hb : b ∈ s.bounds k v) :
    s.Spared m₀ m k b := h.bears (.bound .self hv hb)

/-- The type of null is spared. -/
theorem null : s.Spared m₀ m k .null :=
  of_bounds (fun _ hp => absurd hp List.not_mem_nil) fun _ hv => absurd hv List.not_mem_nil

/-- A variable in the type is spared as well. -/
theorem var (h : s.Spared m₀ m k t) {v : Var} (hv : v ∈ t.vars) : s.Spared m₀ m k (.var v) := by
  refine of_bounds (fun p hp => h.origins p (Ty.mem_origins_of_var hp hv)) fun w hw b hb => ?_
  obtain rfl := List.mem_singleton.1 hw
  exact h.bound hv hb

/-- The members of a spared intersection are spared. -/
theorem member {st : Site} {ms : List Ty} (h : s.Spared m₀ m k (.inter st ms)) {c : Ty} (hc : c ∈ ms) :
    s.Spared m₀ m k c :=
  of_bounds (fun p hp => h.origins p (List.mem_cons_of_mem _ (Ty.mem_originsAll.2 ⟨c, hc, hp⟩)))
    fun _ hv _ hb => h.bound (Ty.mem_varsAll.2 ⟨c, hc, hv⟩) hb

/-- The component of a spared array is spared. -/
theorem elem (h : s.Spared m₀ m k (.array t)) : s.Spared m₀ m k t :=
  of_bounds h.origins fun _ hv _ hb => h.bound hv hb

/-- So are the types that stand among the arguments. -/
theorem part {st : Site} {d : String} {as : List Arg} (h : s.Spared m₀ m k (.nominal st d as)) {a : Arg}
    (ha : a ∈ as) {t : Ty} (ht : t ∈ a.parts) : s.Spared m₀ m k t :=
  of_bounds (fun p hp => h.origins p (List.mem_cons_of_mem _
      (Arg.mem_originsAll.2 ⟨a, ha, Arg.mem_origins_of_parts ht hp⟩)))
    fun _ hv _ hb => h.bound (Arg.mem_varsAll.2 ⟨a, ha, Arg.mem_vars_of_parts ht hv⟩) hb

/-- What was handed out before a memory is handed out in none of the following. -/
theorem later {a b : Memory} (h : s.Spared k k k t) (ha : k.Precedes s a)
    (hb : a.Precedes s b) : s.Spared a b b t := by
  have hbears : ∀ u, s.Bears b t u → s.Bears k t u := by
    intro u hu
    induction hu with
    | self => exact .self
    | @bound u c v _ hv hc ih =>
      refine ih.bound hv ?_
      cases v with
      | declared v => exact hc
      | captured i =>
        have hi : i ≤ k.lastCaptured :=
          (h u ih (.capture i) (Ty.mem_origins_of_var (List.mem_singleton.2 rfl) hv)).1
        have hsince := (ha.trans hb).since
        rwa [bounds, hsince.upper hi, hsince.lower hi] at hc
  intro u hu p hp
  have hissued := (h u (hbears u hu) p hp).1
  exact ⟨(ha.trans hb).issued hissued, fun _ => ha.issued hissued⟩

end Spared

/-- The bound of a parameter was neither captured nor built, and is written over parameters. -/
theorem Upright.upper_lasting {s : Setting} (hs : s.Upright) {d : Declaration} (hd : d ∈ s.catalog.decls)
    {v : TypeVar} (hv : v ∈ d.vars) : (s.catalog.upper v).Lasting ∧
      ∀ w ∈ (s.catalog.upper v).vars, ∃ p ∈ d.vars, w = .declared p := by
  obtain ⟨q, hq, hupper, -⟩ := Declaration.upper_eq (hs.orderly.find?_of_mem hd) hv
  exact ⟨hupper ▸ (hs.grown.lasting d hd).bounds q hq, fun w hw => ((hs.upper hd hv).1.vars w hw).mem⟩

/-- **A type over parameters of declarations is spared** if its parts were handed out before both memories. -/
theorem spared_of_params {s : Setting} (hs : s.Upright) {m₀ m k : Memory} (hm : m₀.Precedes s k) {t : Ty}
    (ht : ∀ p ∈ t.origins, m₀.Issued p)
    (hvars : ∀ v ∈ t.vars, ∃ d ∈ s.catalog.decls, ∃ p ∈ d.vars, v = .declared p) : s.Spared m₀ m k t := by
  have hbears : ∀ u, s.Bears k t u → (∀ p ∈ u.origins, m₀.Issued p) ∧
      ∀ v ∈ u.vars, ∃ d ∈ s.catalog.decls, ∃ p ∈ d.vars, v = .declared p := by
    intro u hu
    induction hu with
    | self => exact ⟨ht, hvars⟩
    | @bound u b v _ hv hb ih =>
      obtain ⟨d, hd, p, hp, rfl⟩ := ih.2 v hv
      obtain rfl := List.mem_singleton.1 hb
      obtain ⟨hlasting, hover⟩ := hs.upper_lasting hd hp
      refine ⟨fun q hq => Memory.issued_of_lasting (hlasting q hq), fun w hw => ?_⟩
      obtain ⟨x, hx, rfl⟩ := hover w hw
      exact ⟨d, hd, x, hx, rfl⟩
  exact fun u hu p hp => ⟨hm.issued ((hbears u hu).1 p hp), fun _ => (hbears u hu).1 p hp⟩

end Setting

/-! ## Aligned numbers -/

/-- Numbers up to `k` stand for themselves, but for those after `a` and up to `b`, which stand for the ones
that are as far after `a'`. The numbers after `e` stand for those as far after `e'`. -/
def aligned (a b a' k e e' i j : Nat) : Prop :=
  (i = j ∧ i ≤ k ∧ (i ≤ b → i ≤ a)) ∨ (a < i ∧ i ≤ b ∧ i + a' = j + a) ∨ (e < i ∧ i + e' = j + e)

/-- Aligned numbers are paired one to one. -/
theorem aligned_biUnique {a b a' k e e' : Nat} (hb : b ≤ k) (hk : k ≤ e) (ha : k ≤ a')
    (he : a' + b ≤ e' + a) (hab : a ≤ b) : Relator.BiUnique (aligned a b a' k e e') := by
  constructor
  · intro i j x hi hj
    unfold aligned at hi hj
    omega
  · intro i j x hi hj
    unfold aligned at hi hj
    omega

/-- The first run goes from `m₀` to `m`, on to `k` and to `l`, and the second one from `k` to `r` and on to
`r'`. No fewer variables were captured from `r` to `r'` than from `m₀` to `m`. -/
structure Memory.Aligned (s : Setting) (m₀ m k l r r' : Memory) : Prop where
  start : m₀.Precedes s m
  common : m.Precedes s k
  left : k.Precedes s l
  right : k.Precedes s r
  again : r.Precedes s r'
  last : r.lastCaptured + m.lastCaptured ≤ r'.lastCaptured + m₀.lastCaptured

/-- What the types that were spared bear stands for itself, what was handed out from `m₀` to `m` for what was
handed out after `r`, and what comes after `l` for what comes after `r'`. -/
def Memory.alignment (s : Setting) (m₀ m k l r r' : Memory) : Pairing where
  declared v := s.Spared m₀ m k (.var (.declared v))
  seen i := s.Spared m₀ m k (.var (.captured i)) ∨ (m₀.lastCaptured < i ∧ i ≤ m.lastCaptured) ∨
    l.lastCaptured < i
  number := aligned m₀.lastCaptured m.lastCaptured r.lastCaptured k.lastCaptured l.lastCaptured
    r'.lastCaptured
  built := aligned m₀.built m.built r.built k.built l.built r'.built

namespace Memory

variable {s : Setting} {m₀ m k l r r' : Memory}

/-- Captured variables of aligned runs are paired one to one. -/
theorem Aligned.sharp (h : Aligned s m₀ m k l r r') : (alignment s m₀ m k l r r').Sharp :=
  aligned_biUnique h.common.last h.left.last h.right.last h.last h.start.last

/-- If no less was built on the right than on the left, what was built is paired one to one as well. -/
theorem Aligned.exact (h : Aligned s m₀ m k l r r')
    (hbuilt : r.built + m.built ≤ r'.built + m₀.built) : (alignment s m₀ m k l r r').Exact where
  number := h.sharp
  built := aligned_biUnique h.common.built h.left.built h.right.built hbuilt h.start.built

/-- A place that both runs share stands for itself. -/
theorem alignment_place {p : Place} (hp : k.Issued p) (hspared : m.Issued p → m₀.Issued p) :
    (alignment s m₀ m k l r r').place p p := by
  cases p with
  | capture i => exact ⟨i, rfl, .inl ⟨rfl, hp, hspared⟩⟩
  | built i => exact ⟨i, rfl, .inl ⟨rfl, hp, hspared⟩⟩
  | _ => rfl

/-- **A type that was spared is the same type in both runs.** -/
theorem like_of_spared {t : Ty} (h : s.Spared m₀ m k t) : t.Like (alignment s m₀ m k l r r') t := by
  refine Ty.like_self (fun p hp => alignment_place (h.origins p hp).1 (h.origins p hp).2) fun v hv => ?_
  have hvar := h.var hv
  cases v with
  | declared v => exact ⟨rfl, hvar⟩
  | captured i =>
    obtain ⟨hi, hspared⟩ := hvar.origins (.capture i) (List.mem_singleton.2 rfl)
    exact ⟨i, rfl, .inl hvar, .inl ⟨rfl, hi, hspared⟩⟩

/-- Declared types are like themselves. -/
theorem alignment_covers (hs : s.Upright) (hm : m₀.Precedes s k) :
    s.Covers (alignment s m₀ m k l r r') where
  upper v hv := like_of_spared (hv.bound (List.mem_singleton.2 rfl) (List.mem_singleton.2 rfl))
  params decl lin hl v hv := by
    obtain ⟨d, hd, hparams⟩ := hs.of_lineage hl
    refine Setting.spared_of_params hs hm (fun p hp => absurd hp List.not_mem_nil) fun w hw => ?_
    obtain rfl := List.mem_singleton.1 hw
    exact ⟨d, hd, v, hparams ▸ hv, rfl⟩
  parents decl lin hl n hn := by
    obtain ⟨d, hd, -, -, -, hparents⟩ := Catalog.Grown.of_lineage
      (s := { s with catalog := { s.catalog with free := [] } }) hs.grown hl
    rcases hparents n hn with hn | rfl
    · refine Nominal.like_iff.2 (like_of_spared (Setting.spared_of_params hs hm (fun p hp =>
        issued_of_lasting ((hs.grown.lasting d hd).parents n hn p hp)) fun w hw => ?_))
      obtain ⟨v, hv, rfl⟩ := (((hs.orderly.decls d hd).parents n hn).1.vars w hw).mem
      exact ⟨d, hd, v, hv, rfl⟩
    · exact ⟨⟨rfl, rfl⟩, rfl, .nil⟩

/-- **The runs agree** if what was captured from `m₀` to `m` is like what was captured after `r`. -/
theorem Aligned.pairs (h : Aligned s m₀ m k l r r')
    (hnew : ∀ x, m₀.lastCaptured + 1 + x ≤ m.lastCaptured →
      Option.Rel (Captured.Like (alignment s m₀ m k l r r')) (m.captured? (m₀.lastCaptured + 1 + x))
        (r'.captured? (r.lastCaptured + 1 + x))) :
    l.Pairs s (alignment s m₀ m k l r r') r' where
  left := h.left.faithful
  right := h.again.faithful
  number x := ⟨_, rfl, .inr (.inr (by omega)), .inr (.inr (by omega))⟩
  built x := .inr (.inr (by omega))
  bounds i j hij := by
    obtain ⟨_, heq, hseen, hpair⟩ := id hij
    cases heq
    rcases hpair with ⟨rfl, hi, hspared⟩ | ⟨hlo, hhi, heq⟩ | ⟨hlo, heq⟩
    · have hle := h.left.last
      have hvar : s.Spared m₀ m k (.var (.captured i)) := by
        rcases hseen with hvar | ⟨hlo, hhi⟩ | hlo
        · exact hvar
        · have := hspared hhi
          omega
        · omega
      have hbound : ∀ b ∈ s.bounds k (.captured i), b.Like (alignment s m₀ m k l r r') b :=
        fun b hb => like_of_spared (hvar.bound (List.mem_singleton.2 rfl) hb)
      rw [h.left.captured i hi, (h.right.trans h.again).captured i hi]
      rw [Setting.bounds, upper, lower] at hbound
      cases hc : k.captured? i with
      | none => exact .none
      | some c =>
        rw [hc] at hbound
        exact .some ⟨hbound _ List.mem_cons_self, hbound _ (List.mem_cons_of_mem _ List.mem_cons_self)⟩
    · obtain ⟨x, rfl⟩ : ∃ x, i = m₀.lastCaptured + 1 + x := ⟨i - m₀.lastCaptured - 1, by omega⟩
      obtain rfl : j = r.lastCaptured + 1 + x := by omega
      rw [(h.common.trans h.left).captured _ hhi]
      exact hnew x hhi
    · rw [h.left.numbered.unused i hlo, h.again.numbered.unused j (by omega)]
      exact .none

end Memory

namespace Setting

open Query

variable {s : Setting} {m m' k l r r₁ r' : Memory}

/-- **Two captures of the same type are alike**, whatever was asked in between, and from there on the runs
agree. -/
theorem captures_aligned (hs : s.Upright) {n c c' : Nominal} (hn : s.Spared m m' k n.toTy)
    (hm : m.Numbered s) (h : (s.capture n).Answers m c m') (hk : m'.Precedes s k) (hl : k.Precedes s l)
    (hr : k.Precedes s r) (h' : (s.capture n).Answers r c' r₁) (hr' : r₁.Precedes s r') :
    (Memory.alignment s m m' k l r r').Exact ∧ s.Covers (Memory.alignment s m m' k l r r') ∧
      c.Like (Memory.alignment s m m' k l r r') c' ∧ l.Pairs s (Memory.alignment s m m' k l r r') r' := by
  have hstart := capture_precedes hm h
  have hagain := capture_precedes hr.numbered h'
  have hlater := hr'.last
  have hlater' := hr'.built
  obtain ⟨-, ⟨ds, hds⟩, -⟩ := capture_fills hm.faithful h
  obtain ⟨-, ⟨ds', hds'⟩, -⟩ := capture_fills hr.faithful h'
  have hlast := hds.last
  have hlast' := hds'.last
  have halign : Memory.Aligned s m m' k l r r' := ⟨hstart, hk, hl, hr, hagain.trans hr', by omega⟩
  have hcovers : s.Covers (Memory.alignment s m m' k l r r') :=
    Memory.alignment_covers hs (hstart.trans hk)
  obtain ⟨hc, cs, cs', x, hcs, hcs', hlike, hx, hx'⟩ := capture_alike halign.sharp hcovers
    (Nominal.like_iff.2 (Memory.like_of_spared hn)) hm.faithful hr.faithful h h'
    (fun j hj => ⟨_, rfl, .inr (.inl ⟨by omega, by omega⟩), .inr (.inl ⟨by omega, by omega, by omega⟩)⟩)
    fun y hy => .inr (.inl ⟨by omega, by omega, by omega⟩)
  refine ⟨halign.exact (by omega), hcovers, hc, halign.pairs fun y hy => ?_⟩
  rw [hr'.captured _ (by omega), hcs.captured?_eq, hcs'.captured?_eq, if_pos (by omega), if_pos (by omega),
    show m.lastCaptured + 1 + y - m.lastCaptured - 1 = y by omega,
    show r.lastCaptured + 1 + y - r.lastCaptured - 1 = y by omega,
    hm.unused _ (by omega), hr.numbered.unused _ (by omega)]
  exact rel_or (rel_getElem? hlike y) .none

end Setting

end Generics
