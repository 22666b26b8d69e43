/-
# Numbers of arguments

A type is counted if every declaration in it is known and has no arguments or as many as it has
parameters. The check asks for this in the type it is given (`Ty.check_ensures`), and a comparison needs
it of whatever it comes upon: of a declared supertype on the way up, of the bound of a parameter, of the
bounds of a captured variable. Declaring and capturing do not ask for it.

Where all of these are counted, everything that is built from them is: substitution, joined bounds and
captured variables keep the numbers of arguments. Then a comparison finds every declaration that it looks
up and no number of arguments to complain about, so it answers or goes on for ever
(`Setting.below_never_fails`). One supertype with a wrong number is enough for it to fail, although the
types that are compared pass the check (`Setting.below_fails`).
-/

import Generics.Proofs.Catalogs
import Generics.Proofs.Meetings

namespace Generics

mutual
/-- Every declaration in the type is known and has no arguments or as many as parameters. -/
def Ty.Counted (applies : String → Nat → Prop) : Ty → Prop
  | .prim _ => True
  | .null => True
  | .nominal _ decl args => applies decl args.length ∧ Arg.CountedAll applies args
  | .array elem => elem.Counted applies
  | .inter _ members => Ty.CountedAll applies members
  | .var _ => True

/-- The type or the bounds that the argument is made of are counted. -/
def Arg.Counted (applies : String → Nat → Prop) : Arg → Prop
  | .type t => t.Counted applies
  | .wild upper lower => upper.Counted applies ∧ lower.Counted applies

/-- The types are counted. -/
def Ty.CountedAll (applies : String → Nat → Prop) : List Ty → Prop
  | [] => True
  | t :: ts => t.Counted applies ∧ Ty.CountedAll applies ts

/-- The arguments are counted. -/
def Arg.CountedAll (applies : String → Nat → Prop) : List Arg → Prop
  | [] => True
  | a :: as => a.Counted applies ∧ Arg.CountedAll applies as
end

section Counted

variable {applies : String → Nat → Prop} {t : Ty}

/-- Types are counted if each one is. -/
theorem Ty.countedAll_iff {ts : List Ty} : Ty.CountedAll applies ts ↔ ∀ t ∈ ts, t.Counted applies := by
  induction ts with
  | nil => simp [Ty.CountedAll]
  | cons t ts ih => simp [Ty.CountedAll, ih]

/-- Arguments are counted if each one is. -/
theorem Arg.countedAll_iff {as : List Arg} : Arg.CountedAll applies as ↔ ∀ a ∈ as, a.Counted applies := by
  induction as with
  | nil => simp [Arg.CountedAll]
  | cons a as ih => simp [Arg.CountedAll, ih]

/-- Primitives are counted. -/
@[simp] theorem Ty.counted_prim {p : Primitive} : (Ty.prim p).Counted applies := by simp [Ty.Counted]

/-- The type of null is counted. -/
@[simp] theorem Ty.counted_null : Ty.null.Counted applies := by simp [Ty.Counted]

/-- Variables are counted. -/
@[simp] theorem Ty.counted_var {v : Var} : (Ty.var v).Counted applies := by simp [Ty.Counted]

/-- An array is counted if its component is. -/
@[simp] theorem Ty.counted_array {elem : Ty} : (Ty.array elem).Counted applies ↔ elem.Counted applies := by
  rw [Ty.Counted]

/-- An intersection is counted if its members are. -/
@[simp] theorem Ty.counted_inter {site : Site} {members : List Ty} :
    (Ty.inter site members).Counted applies ↔ ∀ t ∈ members, t.Counted applies := by
  rw [Ty.Counted, Ty.countedAll_iff]

/-- An applied declaration is counted if its arguments are and their number is right. -/
@[simp] theorem Ty.counted_nominal {site : Site} {decl : String} {args : List Arg} :
    (Ty.nominal site decl args).Counted applies ↔
      applies decl args.length ∧ ∀ a ∈ args, a.Counted applies := by
  rw [Ty.Counted, Arg.countedAll_iff]

/-- An argument that is a type is counted like it. -/
@[simp] theorem Arg.counted_type : (Arg.type t).Counted applies ↔ t.Counted applies := by rw [Arg.Counted]

/-- A wildcard is counted if its bounds are. -/
@[simp] theorem Arg.counted_wild {upper lower : Ty} :
    (Arg.wild upper lower).Counted applies ↔ upper.Counted applies ∧ lower.Counted applies := by
  rw [Arg.Counted]

/-- A type is counted if its conjuncts are. -/
theorem Ty.counted_conjuncts : (∀ c ∈ t.conjuncts, c.Counted applies) ↔ t.Counted applies := by
  cases t <;> simp [Ty.conjuncts]

/-! ### Rebuilding -/

mutual
/-- **A rebuilt type is counted if the type is and what was put in is.** -/
theorem Ty.counted_rebuild {f : Var → Ty} : ∀ t : Ty,
    (t.rebuild f).Counted applies ↔ t.Counted applies ∧ ∀ v ∈ t.vars, (f v).Counted applies
  | .prim _ => by simp [Ty.rebuild, Ty.vars]
  | .null => by simp [Ty.rebuild, Ty.vars]
  | .nominal _ _ as => by
    have hlength : (Arg.rebuildAll f as).length = as.length := by
      rw [Arg.rebuildAll_eq_map, List.length_map]
    rw [Ty.rebuild, Ty.Counted, Ty.Counted, Ty.vars, hlength, Arg.countedAll_rebuildAll as, and_assoc]
  | .array e => by rw [Ty.rebuild, Ty.counted_array, Ty.counted_array, Ty.vars, Ty.counted_rebuild e]
  | .inter _ ms => by rw [Ty.rebuild, Ty.Counted, Ty.Counted, Ty.vars, Ty.countedAll_rebuildParts ms]
  | .var v => by simp [Ty.rebuild, Ty.vars]

/-- A rebuilt argument is counted if the argument and what was put in are. -/
theorem Arg.counted_rebuild {f : Var → Ty} : ∀ a : Arg,
    (a.rebuild f).Counted applies ↔ a.Counted applies ∧ ∀ v ∈ a.vars, (f v).Counted applies
  | .type t => by rw [Arg.rebuild, Arg.counted_type, Arg.counted_type, Arg.vars, Ty.counted_rebuild t]
  | .wild u l => by
    simp only [Arg.rebuild, Arg.counted_wild, Arg.vars, List.forall_mem_append, Ty.counted_rebuild u,
      Ty.counted_rebuild l]
    exact and_and_and_comm

/-- Rebuilt parts are counted if the parts and what was put in are. -/
theorem Ty.countedAll_rebuildParts {f : Var → Ty} : ∀ ts : List Ty,
    Ty.CountedAll applies (Ty.rebuildParts f ts) ↔
      Ty.CountedAll applies ts ∧ ∀ v ∈ Ty.varsAll ts, (f v).Counted applies
  | [] => by simp [Ty.rebuildParts, Ty.CountedAll, Ty.varsAll]
  | t :: ts => by
    rw [Ty.countedAll_iff, Ty.rebuildParts, List.forall_mem_append, Ty.counted_conjuncts,
      Ty.counted_rebuild t, ← Ty.countedAll_iff, Ty.countedAll_rebuildParts ts, Ty.CountedAll, Ty.varsAll,
      List.forall_mem_append]
    exact and_and_and_comm

/-- Rebuilt arguments are counted if the arguments and what was put in are. -/
theorem Arg.countedAll_rebuildAll {f : Var → Ty} : ∀ as : List Arg,
    Arg.CountedAll applies (Arg.rebuildAll f as) ↔
      Arg.CountedAll applies as ∧ ∀ v ∈ Arg.varsAll as, (f v).Counted applies
  | [] => by simp [Arg.rebuildAll, Arg.CountedAll, Arg.varsAll]
  | a :: as => by
    rw [Arg.rebuildAll, Arg.CountedAll, Arg.CountedAll, Arg.counted_rebuild a,
      Arg.countedAll_rebuildAll as, Arg.varsAll, List.forall_mem_append]
    exact and_and_and_comm
end

/-- A type is counted if its shape is. -/
theorem Ty.counted_shape : t.shape.Counted applies ↔ t.Counted applies := by
  rw [Ty.shape, Ty.counted_rebuild]
  simp

/-- The substitution gives counted types only. -/
def Subst.Counted (applies : String → Nat → Prop) (σ : Subst) : Prop :=
  ∀ v t, σ.lookup v = some t → t.Counted applies

/-- Pairing variables with counted types gives a counted substitution. -/
theorem Subst.Counted.zip (vs : List TypeVar) {ts : List Ty} (h : ∀ t ∈ ts, t.Counted applies) :
    (Subst.zip vs ts).Counted applies := fun _ _ ht => h _ (Subst.mem_of_lookup_zip ht)

/-- What a counted substitution puts in for a variable is counted. -/
theorem Subst.Counted.image {σ : Subst} (hσ : σ.Counted applies) (v : Var) :
    (σ.image v).Counted applies := by
  rw [Subst.image]
  cases h : σ.lookup v with
  | none => exact Ty.counted_var
  | some t => exact Ty.counted_shape.2 (hσ v t h)

/-- **Counted types in the place of variables keep a type counted.** -/
theorem Ty.Replaced.counted {σ : Subst} {t' : Ty} (h : Ty.Replaced σ t t') (hσ : σ.Counted applies)
    (ht : t.Counted applies) : t'.Counted applies := by
  rw [← Ty.counted_shape, h.shape, Ty.counted_rebuild]
  exact ⟨ht, fun v _ => hσ.image v⟩

/-- The meet of counted bounds is counted. -/
theorem Ty.Counted.meetBounds {a b : Ty} (site : Site) (ha : a.Counted applies) (hb : b.Counted applies) :
    (Ty.meetBounds site a b).Counted applies := by
  have hparts : ∀ c ∈ [a, b].flatMap Ty.conjuncts, c.Counted applies := by
    simpa [or_imp, forall_and, Ty.counted_conjuncts] using ⟨ha, hb⟩
  rw [Ty.meetBounds]
  split
  · exact hb
  · split
    · exact ha
    · rw [Ty.meet]
      split
      · simp [Ty.top]
      · exact Ty.counted_inter.2 hparts

/-- The types among counted arguments are counted. -/
theorem Arg.counted_types {as : List Arg} (h : ∀ a ∈ as, a.Counted applies) :
    ∀ t ∈ as.filterMap Arg.type?, t.Counted applies := by
  intro t ht
  obtain ⟨a, ha, htype⟩ := List.mem_filterMap.1 ht
  cases a with
  | type t' =>
    cases htype
    exact Arg.counted_type.1 (h _ ha)
  | wild u l => cases htype

/-- Captured arguments are counted if the arguments are. -/
theorem Arg.counted_captureArgs (last : Nat) {as : List Arg} (h : ∀ a ∈ as, a.Counted applies) :
    ∀ a ∈ Setting.captureArgs last as, a.Counted applies := by
  induction as generalizing last with
  | nil => simp [Setting.captureArgs]
  | cons a as ih =>
    obtain ⟨ha, has⟩ := List.forall_mem_cons.1 h
    cases a with
    | type t => exact List.forall_mem_cons.2 ⟨ha, ih last has⟩
    | wild u l => exact List.forall_mem_cons.2 ⟨by simp, ih (last + 1) has⟩

end Counted

/-- What is remembered of declarations is faithful, and the bounds of captured variables are counted. -/
structure Memory.Counted (s : Setting) (m : Memory) : Prop where
  faithful : m.Faithful s
  upper : ∀ id, (m.upper id).Counted s.Applies
  lower : ∀ id, (m.lower id).Counted s.Applies

/-- Bounds and supertypes are counted, and supertypes have no wildcards as arguments. -/
structure Setting.Counted (s : Setting) : Prop where
  object : (s.lineageOf objectName).isSome
  upper : ∀ v, (s.catalog.upper v).Counted s.Applies
  parents : ∀ decl l, s.lineageOf decl = some l → ∀ n ∈ l.parents,
    n.toTy.Counted s.Applies ∧ n.hasWild = false

namespace Memory.Counted

variable {s : Setting} {m m' : Memory}

/-- Further captured variables whose bounds are counted keep the memory counted. -/
theorem note (hm : m.Counted s) (hfaithful : m'.Faithful s) {cs : List Captured}
    (hcaptured : m'.captured = cs ++ m.captured)
    (hcs : ∀ c ∈ cs, c.upper.Counted s.Applies ∧ c.lower.Counted s.Applies) : m'.Counted s := by
  have hbounds (id : Nat) : (m'.upper id).Counted s.Applies ∧ (m'.lower id).Counted s.Applies := by
    rw [Memory.upper, Memory.lower, captured?, hcaptured, List.find?_append]
    cases hfind : cs.find? fun c => c.id == id with
    | some c => exact hcs c (List.mem_of_find?_eq_some hfind)
    | none => exact ⟨hm.upper id, hm.lower id⟩
  exact ⟨hfaithful, fun id => (hbounds id).1, fun id => (hbounds id).2⟩

/-- A memory stays counted if no variable is captured. -/
theorem stays (hm : m.Counted s) (h : m.Stays s m') : m'.Counted s :=
  hm.note h.faithful (h.keeps.captured.trans (List.nil_append _).symm) (by simp)

/-- How deep comparisons may nest plays no part. -/
theorem withDepth_iff {n : Nat} : m.Counted (s.withDepth n) ↔ m.Counted s :=
  ⟨fun h => ⟨h.faithful, h.upper, h.lower⟩, fun h => ⟨h.faithful, h.upper, h.lower⟩⟩

end Memory.Counted

namespace Query

variable {s : Setting} {α : Type} {I : Memory → Prop} {R : α → Prop} {F : Failure → Prop} {q : Query α}

/-- The question leaves a counted memory, its answers have the property, and it does not fail unless it
goes on for ever. -/
abbrev Goes (s : Setting) (R : α → Prop) (q : Query α) : Prop :=
  Ensures (Memory.Counted s) R (· = .exhausted) q

/-- A question that settles on an answer leaves the captured variables as they are. -/
theorem Steady.keeps_counted (h : Steady s q) : Preserves (Memory.Counted s) q := by
  obtain ⟨v, hv⟩ := h
  intro m hm
  obtain ⟨-, hfaithful, hlearns⟩ := hv m hm.faithful
  exact hm.stays ⟨hfaithful, hlearns.keeps⟩

/-- What a question settles on is where it goes. -/
theorem Goes.of_settles {a : α} (h : Settles s q (.ok a)) (ha : R a) : Goes s R q := by
  refine .of_answers fun m hm => ?_
  obtain ⟨m', hanswers, hstays⟩ := h.stays hm.faithful
  exact ⟨a, m', hanswers, hm.stays hstays, ha⟩

end Query

namespace Setting

open Query

variable {s : Setting} {n : Nominal}

/-- In a counted setting the supertypes of declarations are known. -/
theorem Counted.parentsKnown (hs : s.Counted) : s.ParentsKnown := by
  intro decl l hl n hn
  obtain ⟨⟨l', hl', -⟩, -⟩ := Ty.counted_nominal.1 (hs.parents decl l hl n hn).1
  rw [hl']
  rfl

/-! ### Building -/

/-- Replacing in a counted type goes to a counted type. -/
theorem replace_goes {σ : Subst} (hσ : σ.Counted s.Applies) {t : Ty} (ht : t.Counted s.Applies) :
    Goes s (Ty.Counted s.Applies) (replace σ t) := by
  refine .of_answers fun m hm => ?_
  obtain ⟨t', m', h⟩ := replace_total σ t m
  obtain ⟨hreplaced, hstays⟩ := replace_answers hm.faithful h
  exact ⟨t', m', h, hm.stays hstays, hreplaced.counted hσ ht⟩

/-- The applied declaration is counted and has no wildcards as arguments. -/
structure Ready (s : Setting) (n : Nominal) : Prop where
  fits : s.Fits n.decl n.args
  args : ∀ a ∈ n.args, a.Counted s.Applies

/-- A declaration that is ready is counted. -/
theorem Ready.counted (h : s.Ready n) : n.toTy.Counted s.Applies := Ty.counted_nominal.2 ⟨h.fits.1, h.args⟩

/-- A known declaration without arguments is ready. -/
theorem Ready.raw {decl : String} (h : (s.lineageOf decl).isSome) : s.Ready (.raw decl) := by
  obtain ⟨l, hl⟩ := Option.isSome_iff_exists.1 h
  exact ⟨fits_nil hl, by simp [Nominal.raw]⟩

/-- A memory in which nothing was captured is counted. -/
theorem Counted.empty (hs : s.Counted) : ({} : Memory).Counted s where
  faithful := Memory.faithful_empty s
  upper _ := (Ready.raw hs.object).counted
  lower _ := Ty.counted_null

/-- Declared supertypes are ready. -/
theorem Counted.ready (hs : s.Counted) {decl : String} {l : Lineage} (hl : s.lineageOf decl = some l)
    (hn : n ∈ l.parents) : s.Ready n := by
  obtain ⟨hcounted, hwild⟩ := hs.parents decl l hl n hn
  obtain ⟨happlies, hargs⟩ := Ty.counted_nominal.1 hcounted
  rw [Nominal.hasWild, List.any_eq_false] at hwild
  exact ⟨⟨happlies, fun a ha => by simpa using hwild a ha⟩, hargs⟩

/-- Replacing in the arguments of a ready declaration leaves it ready. -/
theorem replaceIn_goes {σ : Subst} (hσ : σ.Counted s.Applies) (hn : s.Ready n) :
    Goes s (s.Ready) (replaceIn σ n) := by
  refine .of_answers fun m hm => ?_
  obtain ⟨n', m', h⟩ := replaceIn_total σ n m
  obtain ⟨hreplaced, -, hstays⟩ := replaceIn_answers hm.faithful h
  obtain ⟨happlies, hargs⟩ := Ty.counted_nominal.1 (hreplaced.counted hσ hn.counted)
  refine ⟨n', m', h, hm.stays hstays, ⟨happlies, fun a ha => ?_⟩, hargs⟩
  -- the arguments agree up to sites with those that the substitution was made in
  have hshape : n'.args.map (Arg.rebuild .var) = n.args.map (Arg.rebuild σ.image) := by
    have := hreplaced.shape
    simp only [Nominal.toTy, Ty.shape, Ty.rebuild, Ty.nominal.injEq, Arg.rebuildAll_eq_map] at this
    exact this.2.2
  obtain ⟨b, hb, hab⟩ := Arg.exists_rebuilt hshape ha
  rw [← isWild_rebuild .var a, ← hab, isWild_rebuild]
  exact hn.fits.2 b hb

/-! ### Walking up -/

/-- The assignment of the parameters is counted. -/
theorem assignment_goes (hn : s.Ready n) (hargs : n.args ≠ []) :
    Goes s (Subst.Counted s.Applies) (s.assignment n) := by
  refine .of_answers fun m hm => ?_
  obtain ⟨l, hl, hlen⟩ := hn.fits.1
  have hlen : n.args.length = l.params.length := hlen.resolve_left (by simpa using hargs)
  obtain ⟨σ, m', h⟩ := assignment_total hl hlen hn.fits.2 hm.faithful
  obtain ⟨rfl, hstays⟩ := assignment_answers hl hm.faithful h
  exact ⟨_, m', h, hm.stays hstays, .zip _ (Arg.counted_types hn.args)⟩

/-- Asking whether a counted declaration is raw does not fail for counting. -/
theorem isRaw_goes (hn : s.Applies n.decl n.args.length) : Goes s (fun _ => True) (s.isRaw n) := by
  obtain ⟨l, hl, -⟩ := hn
  exact .of_settles (isRaw_settles hl) trivial

/-- Climbing from a ready declaration passes ready ones. -/
theorem climb_goes (hs : s.Counted) (ancestor : String) (steps : Nat) (hn : s.Ready n) :
    Goes s (fun o => ∀ n' ∈ o, s.Ready n') (s.climb ancestor steps n) := by
  induction steps generalizing n with
  | zero =>
    rw [climb]
    exact .ite (fun _ => .pure (by simpa using hn)) fun _ => .throw rfl
  | succ steps ih =>
    rw [climb]
    refine .ite (fun _ => .pure (by simpa using hn)) fun _ => ?_
    obtain ⟨l, hl, -⟩ := hn.fits.1
    obtain ⟨o, ho⟩ := leadsTo?_answerable hs.parentsKnown ancestor (Option.isSome_of_eq_some hl)
    refine (Goes.of_settles (R := (o = ·)) ho rfl).bind ?_
    rintro _ ⟨⟩
    cases o with
    | none => exact .pure (by simp)
    | some parent =>
      obtain ⟨⟨l', hl', hmem⟩, -⟩ := leadsTo?_sound ho
      have hparent : s.Ready parent := hs.ready hl' hmem
      refine .ite (fun _ => (isRaw_goes hn.fits.1).bind fun _ _ => ?_) fun hempty => ?_
      · exact .ite (fun _ => ih (.raw (hs.parentsKnown _ _ hl' _ hmem))) fun _ => ih hparent
      · exact (assignment_goes hn (by simpa using hempty)).bind fun σ hσ =>
          (replaceIn_goes hσ hparent).bind fun _ hn' => ih hn'

/-- A ready declaration seen as an ancestor is ready. -/
theorem seenAs_goes (hs : s.Counted) (hn : s.Ready n) (ancestor : String) :
    Goes s (fun o => ∀ n' ∈ o, s.Ready n') (s.seenAs n ancestor) := by
  refine .ite (fun _ => ?_) fun _ => climb_goes hs ancestor _ hn
  obtain ⟨l, hl, -⟩ := hn.fits.1
  refine (Goes.of_settles (R := fun _ => True) (lineage_settles_iff.2 hl) trivial).bind fun _ _ =>
    .pure ?_
  rintro _ ⟨⟩
  exact .raw hs.object

/-! ### Capturing -/

/-- The bounds of what a capture captures are counted. -/
theorem Captures.counted (hs : s.Counted) (hn : n.toTy.Counted s.Applies) {m m' : Memory}
    {cs : List Captured} (h : s.Captures n m m' cs) :
    ∀ c ∈ cs, c.upper.Counted s.Applies ∧ c.lower.Counted s.Applies := by
  intro c hc
  obtain ⟨j, hj, rfl⟩ := List.mem_iff_getElem.1 hc
  have hslot := h.fills.length ▸ hj
  obtain ⟨-, hlower, site, b, hb, hupper⟩ :=
    h.fills.bounds j _ _ (List.getElem?_eq_getElem hj) (List.getElem?_eq_getElem hslot)
  have hargs := (Ty.counted_nominal.1 hn).2
  have hwild := Arg.counted_wild.1 (hargs _ (mem_slots (List.getElem_mem hslot)).2)
  have hσ : Subst.Counted s.Applies (Subst.zip (s.paramsOf n.decl)
      ((captureArgs m.lastCaptured n.args).filterMap Arg.type?)) :=
    .zip _ (Arg.counted_types (Arg.counted_captureArgs _ hargs))
  rw [hlower, hupper]
  exact ⟨hwild.1.meetBounds site (hb.counted hσ (hs.upper _)), hwild.2⟩

/-- Capturing a counted declaration makes it ready and leaves the number of its arguments. -/
theorem capture_goes (hs : s.Counted) (hn : n.toTy.Counted s.Applies) :
    Goes s (fun n' => s.Ready n' ∧ n'.args.length = n.args.length) (s.capture n) := by
  refine .of_answers fun m hm => ?_
  obtain ⟨⟨l, hl, hlen⟩, hargs⟩ := Ty.counted_nominal.1 hn
  obtain ⟨n', m', h⟩ := capture_total hm.faithful hl (hlen.imp_left List.length_eq_zero_iff.1)
  obtain ⟨rfl, ⟨cs, hcs⟩, -⟩ := capture_fills hm.faithful h
  refine ⟨_, m', h, hm.note hcs.faithful hcs.captured fun c hc => ?_,
    ⟨⟨⟨l, hl, by rwa [length_captureArgs]⟩, fun a ha => ?_⟩, Arg.counted_captureArgs _ hargs⟩,
    length_captureArgs _ _⟩
  · exact hcs.counted hs hn c (List.mem_reverse.1 hc)
  · obtain ⟨-, hwild⟩ | ⟨-, -, rfl⟩ := mem_captureArgs ha
    · exact hwild
    · rfl

/-- A counted declaration is ready as any of its ancestors. -/
theorem supertypeAs_goes (hs : s.Counted) (hn : n.toTy.Counted s.Applies) (ancestor : String) :
    Goes s (fun o => ∀ n' ∈ o, s.Ready n') (s.supertypeAs n ancestor) :=
  (capture_goes hs hn).bind fun _ hn' => seenAs_goes hs hn'.1 ancestor

/-- The upper bound of a variable is counted. -/
theorem upper_goes (hs : s.Counted) (v : Var) : Goes s (Ty.Counted s.Applies) (s.upper v) := by
  cases v with
  | declared v => exact .pure (hs.upper v)
  | captured id => exact Ensures.get.bind fun m hm => .pure (hm.upper id)

/-- The lower bound of a variable is counted. -/
theorem lower_goes (v : Var) : Goes s (Ty.Counted s.Applies) (s.lower v) := by
  cases v with
  | declared v => exact .pure Ty.counted_null
  | captured id => exact Ensures.get.bind fun m hm => .pure (hm.lower id)

/-! ### Comparing -/

section Comparisons

variable {sub : Ty → Ty → Query Bool}
  (hsub : ∀ {a b : Ty}, a.Counted s.Applies → b.Counted s.Applies → Goes s (fun _ => True) (sub a b))
include hsub

/-- Comparing counted types in both directions does not fail for counting, if one direction does not. -/
theorem equivalentBy_goes {a b : Ty} (ha : a.Counted s.Applies) (hb : b.Counted s.Applies) :
    Goes s (fun _ => True) (equivalentBy sub a b) :=
  .ite (fun _ => .pure trivial) fun _ => (hsub ha hb).both (hsub hb ha)

/-- Whether one counted argument contains another one is answered. -/
theorem containsBy_goes {outer inner : Arg} (ho : outer.Counted s.Applies)
    (hi : inner.Counted s.Applies) : Goes s (fun _ => True) (containsBy sub outer inner) := by
  cases outer <;> cases inner <;> simp only [Arg.counted_type, Arg.counted_wild] at ho hi
  · exact equivalentBy_goes hsub hi ho
  · exact .pure trivial
  · exact (hsub ho.2 hi).both (hsub hi ho.1)
  · exact (hsub ho.2 hi.2).both (hsub hi.1 ho.1)

/-- Whether counted arguments contain others is answered. -/
theorem containsAllBy_goes : ∀ {outers inners : List Arg}, (∀ a ∈ outers, a.Counted s.Applies) →
    (∀ a ∈ inners, a.Counted s.Applies) → Goes s (fun _ => True) (containsAllBy sub outers inners)
  | [], [], _, _ => .pure trivial
  | [], _ :: _, _, _ => .pure trivial
  | _ :: _, [], _, _ => .pure trivial
  | _ :: _, _ :: _, ho, hi => by
    obtain ⟨ho, hos⟩ := List.forall_mem_cons.1 ho
    obtain ⟨hi, his⟩ := List.forall_mem_cons.1 hi
    exact (containsBy_goes hsub ho hi).both (containsAllBy_goes hos his)

/-- Comparing counted declarations does not fail for counting, if comparing their arguments does not. -/
theorem nominalBelowBy_goes (hs : s.Counted) {a b : Nominal} (ha : a.toTy.Counted s.Applies)
    (hb : b.toTy.Counted s.Applies) : Goes s (fun _ => True) (s.nominalBelowBy sub a b) := by
  have happlies := (Ty.counted_nominal.1 ha).1
  obtain ⟨l, hl, -⟩ := id happlies
  obtain ⟨r, hr⟩ := inherits_answerable hs.parentsKnown b.decl (Option.isSome_of_eq_some hl)
  refine (Goes.of_settles (R := fun _ => True) hr trivial).bind fun _ _ => .ite (fun _ => ?_)
    fun _ => .pure trivial
  refine .ite (fun _ => .pure trivial) fun _ => (isRaw_goes happlies).bind fun _ _ => ?_
  refine .ite (fun _ => .pure trivial) fun _ => (supertypeAs_goes hs ha b.decl).bind fun o ho => ?_
  cases o with
  | none => exact .pure trivial
  | some n =>
    exact .ite (fun _ => containsAllBy_goes hsub (Ty.counted_nominal.1 hb).2 (ho n rfl).args)
      fun _ => .pure trivial

end Comparisons

/-- **A comparison of counted types does not fail**, unless it goes on for ever. -/
theorem belowWithin_goes (hs : s.Counted) : ∀ (depth : Nat) (trail : Trail) {a b : Ty},
    a.Counted s.Applies → b.Counted s.Applies →
      Goes s (fun _ => True) (s.belowWithin depth trail a b) := by
  intro depth
  induction depth with
  | zero => exact fun _ _ _ _ _ => .throw rfl
  | succ depth ih =>
    intro trail a b ha hb
    rw [belowWithin.eq_def]
    dsimp only
    refine .ite (fun _ => .pure trivial) fun _ => .ite (fun _ => .pure trivial) fun _ => ?_
    have hlower : Goes s (fun _ => True) (s.descends depth trail a b) := by
      unfold descends
      split
      · exact .ite (fun _ => .pure trivial) fun _ => (lower_goes _).bind fun _ ht => ih _ ha ht
      · exact .pure trivial
    split
    · exact nominalBelowBy_goes (ih []) hs ha hb
    · exact .all fun c hc => ih _ ha (Ty.counted_inter.1 hb c hc)
    · exact ih _ (Ready.raw hs.object).counted hb
    · exact (Ensures.any fun c hc => ih _ (Ty.counted_inter.1 ha c hc) hb).either hlower
    · refine .ite (fun _ => .pure trivial) fun _ => .ite (fun _ => hlower) fun _ => ?_
      exact ((upper_goes hs _).bind fun _ ht => ih _ ht hb).either hlower
    · exact hlower
    · exact .ite (fun _ => .pure trivial) fun _ =>
        ih _ (Ty.counted_array.1 ha) (Ty.counted_array.1 hb)
    all_goals exact .pure trivial

/-- Comparing counted types does not fail for counting. -/
theorem below_goes (hs : s.Counted) {a b : Ty} (ha : a.Counted s.Applies) (hb : b.Counted s.Applies) :
    Goes s (fun _ => True) (s.below a b) := belowWithin_goes hs _ _ ha hb

/-- Whether the bounds of a captured variable fit is answered. -/
theorem capturedFits_goes (hs : s.Counted) (id : Nat) :
    Goes s (fun _ => True) (s.capturedFits id) :=
  Ensures.get.bind fun _ hm => below_goes hs (hm.lower id) (hm.upper id)

/-! ### Checking -/

end Setting

section Check

open Query Setting

/-- What the check asks keeps what holds of the memory, in which declarations are remembered as they are. -/
structure Setting.Asks (s : Setting) (I : Memory → Prop) : Prop where
  faithful : ∀ m, I m → m.Faithful s
  params : ∀ n, Preserves I (s.checkedParams n)
  fit : ∀ n ps, n.args ≠ [] → n.toTy.Counted s.Applies → Preserves I (s.checkFit n ps)
  captured : ∀ id, Preserves I (s.capturedFits id)

variable {s : Setting} {I : Memory → Prop}

/-- The parameters that the check asks for are those that the declaration has. -/
theorem Setting.Asks.checkedParams (h : s.Asks I) (n : Nominal) :
    Ensures I (fun ps => ∃ l, s.lineageOf n.decl = some l ∧ ps = l.params) (fun _ => True)
      (s.checkedParams n) where
  leaves := h.params n
  answers m _ hm hps := checkedParams_answers (h.faithful m hm) (Prod.ext hps rfl)
  fails _ _ _ _ := trivial

mutual
/-- **What passes the check is counted.** -/
theorem Ty.check_ensures (h : s.Asks I) :
    ∀ t : Ty, Ensures I (fun _ => t.Counted s.Applies) (fun _ => True) (t.check s)
  | .prim _ => .pure Ty.counted_prim
  | .null => .pure Ty.counted_null
  | .nominal site decl args => by
    rw [Ty.check]
    refine (h.checkedParams ⟨site, decl, args⟩).bind ?_
    rintro _ ⟨l, hl, rfl⟩
    refine .ite (fun hempty => .pure ?_) fun hargs => .ite (fun _ => .throw trivial) fun hlen => ?_
    · rw [List.isEmpty_iff.1 hempty]
      exact Ty.counted_nominal.2 ⟨⟨l, hl, .inl rfl⟩, by simp⟩
    · refine (Arg.checkAll_ensures h ⟨site, decl, args⟩ args).bind fun _ hall => ?_
      have hcounted : (Ty.nominal site decl args).Counted s.Applies :=
        Ty.counted_nominal.2 ⟨⟨l, hl, .inr (Decidable.not_not.1 hlen)⟩, hall⟩
      exact ensures_all (h.fit ⟨site, decl, args⟩ _ (by simpa using hargs) hcounted) fun _ => hcounted
  | .array elem => by
    rw [Ty.check]
    exact (elem.check_ensures h).imp fun _ => Ty.counted_array.2
  | .inter _ members => by
    rw [Ty.check]
    exact (Ty.checkAll_ensures h members).imp fun _ => Ty.counted_inter.2
  | .var (.declared _) => .pure Ty.counted_var
  | .var (.captured id) => by
    rw [Ty.check]
    exact (ensures_all (R := fun _ => True) (h.captured id) fun _ => trivial).bind fun _ _ =>
      .ite (fun _ => .pure Ty.counted_var) fun _ => Ensures.get.bind fun _ _ => .throw trivial

/-- Types that pass the check are counted. -/
theorem Ty.checkAll_ensures (h : s.Asks I) : ∀ ts : List Ty,
    Ensures I (fun _ => ∀ t ∈ ts, t.Counted s.Applies) (fun _ => True) (Ty.checkAll s ts)
  | [] => .pure (by simp)
  | t :: ts => (t.check_ensures h).bind fun _ ht => (Ty.checkAll_ensures h ts).imp fun _ hts =>
    List.forall_mem_cons.2 ⟨ht, hts⟩

/-- Arguments that pass the check are counted. -/
theorem Arg.checkAll_ensures (h : s.Asks I) (n : Nominal) : ∀ as : List Arg,
    Ensures I (fun _ => ∀ a ∈ as, a.Counted s.Applies) (fun _ => True) (Arg.checkAll s n as)
  | [] => .pure (by simp)
  | a :: as => (a.check_ensures h n).bind fun _ ha => (Arg.checkAll_ensures h n as).imp fun _ has =>
    List.forall_mem_cons.2 ⟨ha, has⟩

/-- An argument that passes the check is counted. -/
theorem Arg.check_ensures (h : s.Asks I) (n : Nominal) : ∀ a : Arg,
    Ensures I (fun _ => a.Counted s.Applies) (fun _ => True) (a.check s n)
  | .type (.prim _) => .throw trivial
  | .type .null => (Ty.null.check_ensures h).imp fun _ => Arg.counted_type.2
  | .type (.nominal st d as) => ((Ty.nominal st d as).check_ensures h).imp fun _ => Arg.counted_type.2
  | .type (.array t) => ((Ty.array t).check_ensures h).imp fun _ => Arg.counted_type.2
  | .type (.inter st ts) => ((Ty.inter st ts).check_ensures h).imp fun _ => Arg.counted_type.2
  | .type (.var v) => ((Ty.var v).check_ensures h).imp fun _ => Arg.counted_type.2
  | .wild upper lower => by
    rw [Arg.check]
    exact (upper.check_ensures h).bind fun _ hu => (lower.check_ensures h).imp fun _ hl =>
      Arg.counted_wild.2 ⟨hu, hl⟩
end

end Check

namespace Setting

open Query

variable {s : Setting}

/-- In faithful memories what passes the check is counted. -/
theorem asks_faithful (s : Setting) : s.Asks (Memory.Faithful s) where
  faithful _ hm := hm
  params := checkedParams_keepsFaith
  fit n _ _ _ := (checkFit_composed (Realm.closed_all _) n.in_all fun _ _ => trivial).preserves
    (keeps_faithful s)
  captured _ := (capturedFits_composed (Realm.closed_all _) trivial).preserves (keeps_faithful s)

/-- Comparing counted arguments with the bounds leaves a counted memory. -/
theorem checkBounds_ensures (hs : s.Counted) (n : Nominal) {σ : Subst} (hσ : σ.Counted s.Applies)
    {ps : List TypeVar} {given captured : List Arg} (hgiven : ∀ a ∈ given, a.Counted s.Applies) :
    Ensures (Memory.Counted s) (fun _ => True) (fun _ => True)
      (s.checkBounds n σ ps given captured) := by
  fun_induction checkBounds s n σ ps given captured with
  | case1 p ps t given _ captured ih =>
    obtain ⟨ht, hgiven⟩ := List.forall_mem_cons.1 hgiven
    refine ((replace_goes hσ (hs.upper p)).failing fun _ _ => trivial).bind fun bound hbound =>
      ((below_goes hs (Arg.counted_type.1 ht) hbound).failing fun _ _ => trivial).bind fun _ _ => ?_
    exact .ite (fun _ => ih hgiven) fun _ => .throw trivial
  | case2 p ps u l given id captured ih =>
    refine ((capturedFits_goes hs id).failing fun _ _ => trivial).bind fun _ _ => ?_
    exact .ite (fun _ => ih (List.forall_mem_cons.1 hgiven).2) fun _ => .throw trivial
  | case3 => exact .pure trivial

/-- Fitting the arguments of a counted declaration leaves a counted memory. -/
theorem checkFit_ensures (hs : s.Counted) {n : Nominal} (hargs : n.args ≠ [])
    (hn : n.toTy.Counted s.Applies) (ps : List TypeVar) :
    Ensures (Memory.Counted s) (fun _ => True) (fun _ => True) (s.checkFit n ps) := by
  refine ((capture_goes hs hn).failing fun _ _ => trivial).bind fun n' hn' => ?_
  have hargs' : n'.args ≠ [] := by
    rwa [← List.length_pos_iff, hn'.2, List.length_pos_iff]
  exact ((assignment_goes hn'.1 hargs').failing fun _ _ => trivial).bind fun _ hσ =>
    checkBounds_ensures hs n hσ (Ty.counted_nominal.1 hn).2

/-- In counted memories what passes the check is counted, and the memory stays so. -/
theorem asks_counted (hs : s.Counted) : s.Asks (Memory.Counted s) where
  faithful _ hm := hm.faithful
  params n := by
    refine ((params_steady s n.decl).keeps_counted).bind fun ps => ?_
    split
    · exact .throw _
    · exact .pure _
  fit _ ps hargs hn := (checkFit_ensures hs hargs hn ps).leaves
  captured id := (capturedFits_goes hs id).leaves

/-- **A type that passes the check is counted**, however deep comparisons may nest. -/
theorem Accepts.counted {t : Ty} (h : s.Accepts t) : t.Counted s.Applies := by
  obtain ⟨n, m', h⟩ := h
  exact (t.check_ensures (asks_faithful (s.withDepth n))).answers {} () (Memory.faithful_empty s)
    (congrArg Prod.fst h)

/-- A grown catalog whose declared types are counted makes a counted setting. -/
theorem Counted.of_grown (hgrown : s.catalog.Grown)
    (hdeclared : ∀ t ∈ s.catalog.declaredTypes, t.Counted s.Applies) : s.Counted := by
  have hobject : (s.lineageOf objectName).isSome := by
    rw [hgrown.plainObject]
    rfl
  refine ⟨hobject, fun v => ?_, fun decl l hl n hn => ?_⟩
  · have hbound : ∀ t ∈ s.catalog.bound? v, t.Counted s.Applies := by
      intro t ht
      unfold Catalog.bound? at ht
      split at ht
      · obtain ⟨d, hd, ht⟩ := Option.bind_eq_some_iff.1 ht
        obtain ⟨p, hp, rfl⟩ := Option.map_eq_some_iff.1 ht
        exact hdeclared _ (List.mem_flatMap.2 ⟨d, List.mem_of_find?_eq_some hd,
          List.mem_append_left _ (List.mem_map_of_mem (List.mem_of_getElem? hp))⟩)
      · rw [hgrown.free_eq] at ht
        cases ht
    rw [Catalog.upper]
    cases h : s.catalog.bound? v with
    | none => exact (Ready.raw hobject).counted
    | some t => exact hbound t h
  · obtain ⟨d, hd, -, -, -, hparents⟩ := hgrown.of_lineage hl
    rcases hparents n hn with hn | rfl
    · exact ⟨hdeclared _ (List.mem_flatMap.2
        ⟨d, hd, List.mem_append_right _ (List.mem_map_of_mem hn)⟩),
        ((hgrown.orderly.decls d hd).parents n hn).2⟩
    · exact ⟨(Ready.raw hobject).counted, rfl⟩

/-- **Comparing types that pass the check does not fail** over a catalog that was grown, if the declared
bounds and supertypes are counted, and the bounds of the variables captured so far: each declaration in
them has no arguments or as many as parameters. A comparison then answers or goes on for ever, and the
bounds of what it captures are counted again. -/
theorem below_never_fails (hgrown : s.catalog.Grown)
    (hdeclared : ∀ t ∈ s.catalog.declaredTypes, t.Counted s.Applies) {n : Nat} {a b : Ty}
    {m m₁ m₂ : Memory} (hm : m.Counted s) (ha : (a.check (s.withDepth n)).Answers m () m₁)
    (hb : (b.check (s.withDepth n)).Answers m₁ () m₂) :
    (∀ f, ((s.below a b).outcome m₂).1 = .error f → f = .exhausted) ∧
      ((s.below a b).outcome m₂).2.Counted s := by
  have hs : s.Counted := .of_grown hgrown hdeclared
  have hasks : (s.withDepth n).Asks (Memory.Counted (s.withDepth n)) :=
    asks_counted ⟨hs.object, hs.upper, hs.parents⟩
  have hchecka := a.check_ensures hasks
  have hcheckb := b.check_ensures hasks
  have hm₁ : m₁.Counted (s.withDepth n) :=
    Preserves.answers hchecka.leaves (Memory.Counted.withDepth_iff.2 hm) ha
  have hm₂ : m₂.Counted s := Memory.Counted.withDepth_iff.1 (Preserves.answers hcheckb.leaves hm₁ hb)
  have hgoes := below_goes hs
    (hchecka.answers m () (Memory.Counted.withDepth_iff.2 hm) (congrArg Prod.fst ha))
    (hcheckb.answers m₁ () hm₁ (congrArg Prod.fst hb))
  exact ⟨fun f hf => hgoes.fails m₂ f hm₂ hf, hgoes.leaves m₂ hm₂⟩

/-- Over the standard catalog, a list of texts and a collection of wildcards. -/
theorem below_never_fails_standard :
    let s : Setting := { catalog := .standard }
    let text : Ty := .nominal ⟨.given 0, [10]⟩ "String" []
    let a : Ty := .nominal ⟨.given 0, [0]⟩ "ArrayList" [.wild .object text]
    let b : Ty := .nominal ⟨.given 1, [0]⟩ "Collection" [.wild .object .null]
    (∀ t ∈ s.catalog.declaredTypes, t.Counted s.Applies) ∧
      ∃ m₁ m₂, (a.check (s.withDepth 9)).Answers {} () m₁ ∧ (b.check (s.withDepth 9)).Answers m₁ () m₂ ∧
        ∀ f, ((s.below a b).outcome m₂).1 = .error f → f = .exhausted := by
  intro s text a b
  have hdeclared : ∀ t ∈ s.catalog.declaredTypes, t.Counted s.Applies :=
    fun t ht => (vetted_standard.accepted t ht).counted
  have hs : s.Counted := .of_grown .standard hdeclared
  have hpass : ((a.check (s.withDepth 9)).outcome {}).1 = .ok () ∧
      ((b.check (s.withDepth 9)).outcome ((a.check (s.withDepth 9)).outcome {}).2).1 = .ok () := by
    decide +kernel
  have ha : (a.check (s.withDepth 9)).Answers {} () _ := Prod.ext hpass.1 rfl
  have hb : (b.check (s.withDepth 9)).Answers _ () _ := Prod.ext hpass.2 rfl
  exact ⟨hdeclared, _, _, ha, hb, (below_never_fails .standard hdeclared hs.empty ha hb).1⟩

/-- A supertype with too many arguments is declared without a complaint. The class that has it and what it
is compared with pass the check, and the comparison fails. -/
theorem below_fails :
    let c := Catalog.extended [{ name := "A", parents := ["List<String, Integer>"] }]
    let s : Setting := { catalog := c }
    let a : Ty := .nominal ⟨.given 0, [0]⟩ "A" []
    let b : Ty := .nominal ⟨.given 1, [0]⟩ "Collection" [.type (.nominal ⟨.given 1, [11]⟩ "String" [])]
    (c.Grown ∧ c.has "A" = true ∧ s.Accepts a ∧ s.Accepts b) ∧
      ((s.below a b).outcome {}).1 =
        .error (.malformed "List<String, Integer>" "List expects 1 type arguments, got 2") := by
  intro c s a b
  have hall : c.has "A" = true ∧ s.acceptsWithin 9 a = true ∧ s.acceptsWithin 9 b = true ∧
      ((s.below a b).outcome {}).1 =
        .error (.malformed "List<String, Integer>" "List expects 1 type arguments, got 2") := by
    decide +kernel
  obtain ⟨hhas, ha, hb, hfails⟩ := hall
  exact ⟨⟨Catalog.grown_extended _, hhas, .of_within ha, .of_within hb⟩, hfails⟩

end Setting

end Generics
