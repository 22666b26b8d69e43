/-
# What bytes read as

Whatever type an expression reads as, intersections in it have no intersections among their members,
and its variables are the ones that their names mean in scope: of several variables of one name the
last (`parse_written`). This is a property that is kept by everything that the rules of the grammar put
together (`Reading.Keeps`), and what bytes read as has all of those (`parse_keeps`). The rules call
each other, so this is shown for all of them at once, by induction on the depth that they are given.
-/

import Generics.Expr.Parser
import Generics.Proofs.Rebuilding

namespace Generics

mutual
/-- Whether no intersection in the type has an intersection among its members. -/
def Ty.isFlat : Ty → Bool
  | .prim _ => true
  | .null => true
  | .nominal _ _ args => Arg.allFlat args
  | .array elem => elem.isFlat
  | .inter _ members => Ty.allFlat members
  | .var _ => true

/-- Whether the argument is flat. -/
def Arg.isFlat : Arg → Bool
  | .type t => t.isFlat
  | .wild upper lower => upper.isFlat && lower.isFlat

/-- Whether the members of an intersection are flat and no intersections. -/
def Ty.allFlat : List Ty → Bool
  | [] => true
  | t :: ts => !t.isInter && t.isFlat && Ty.allFlat ts

/-- Whether the arguments are flat. -/
def Arg.allFlat : List Arg → Bool
  | [] => true
  | a :: as => a.isFlat && Arg.allFlat as
end

/-- Members are flat if each of them is, and none is an intersection. -/
theorem Ty.allFlat_iff {ts : List Ty} :
    Ty.allFlat ts = true ↔ ∀ t ∈ ts, t.isInter = false ∧ t.isFlat = true := by
  induction ts with
  | nil => simp [Ty.allFlat]
  | cons t ts ih => simp [Ty.allFlat, ih, and_assoc]

/-- Arguments are flat if each of them is. -/
theorem Arg.allFlat_iff {as : List Arg} :
    Arg.allFlat as = true ↔ ∀ a ∈ as, a.isFlat = true := by
  induction as with
  | nil => simp [Arg.allFlat]
  | cons a as ih => simp [Arg.allFlat, ih]

namespace Expr

/-- The variable is what its name means in scope. -/
def Means (scope : List TypeVar) (v : Var) : Prop :=
  ∃ w, v = .declared w ∧ scope.reverse.find? (fun u => u.name == w.name) = some w

/-- The type is flat, and its variables are what their names mean in scope. -/
structure Written (scope : List TypeVar) (t : Ty) : Prop where
  flat : t.isFlat = true
  vars : ∀ v ∈ t.vars, Means scope v

/-- The argument is flat, and its variables are what their names mean in scope. -/
structure WrittenArg (scope : List TypeVar) (a : Arg) : Prop where
  flat : a.isFlat = true
  vars : ∀ v ∈ a.vars, Means scope v

section Written

variable {scope : List TypeVar}

/-- A flat type without variables can be written in every scope. -/
theorem Written.closed {t : Ty} (hflat : t.isFlat = true) (hvars : t.vars = []) :
    Written scope t := ⟨hflat, fun v hv => by rw [hvars] at hv; cases hv⟩

/-- An array can be written where its elements can. -/
theorem Written.array {t : Ty} (h : Written scope t) : Written scope (.array t) := ⟨h.flat, h.vars⟩

/-- A declaration applied to arguments that can be written can be written. -/
theorem Written.nominal {site : Site} {decl : String} {args : List Arg}
    (h : ∀ a ∈ args, WrittenArg scope a) : Written scope (.nominal site decl args) where
  flat := Arg.allFlat_iff.2 fun a ha => (h a ha).flat
  vars v hv := by
    rw [Ty.vars, Arg.mem_varsAll] at hv
    obtain ⟨a, ha, hv⟩ := hv
    exact (h a ha).vars v hv

/-- Joining types that can be written gives a type that can. -/
theorem Written.meet {site : Site} {ts : List Ty} (h : ∀ t ∈ ts, Written scope t) :
    Written scope (.meet site ts) := by
  have hinter : ∀ site', Written scope (.inter site' (ts.flatMap Ty.conjuncts)) := by
    refine fun site' => ⟨Ty.allFlat_iff.2 fun c hc => ?_, fun v hv => ?_⟩
    · obtain ⟨t, ht, hc⟩ := List.mem_flatMap.1 hc
      have hflat := (h t ht).flat
      cases t with
      | inter site ms => exact Ty.allFlat_iff.1 hflat c hc
      | _ =>
        obtain rfl := List.mem_singleton.1 hc
        exact ⟨rfl, hflat⟩
    · rw [Ty.vars, Ty.mem_varsAll] at hv
      obtain ⟨c, hc, hv⟩ := hv
      obtain ⟨t, ht, hc⟩ := List.mem_flatMap.1 hc
      refine (h t ht).vars v ?_
      rw [← Ty.varsAll_conjuncts]
      exact Ty.mem_varsAll.2 ⟨c, hc, hv⟩
  unfold Ty.meet
  split
  · exact .closed rfl rfl
  · exact hinter site

/-- An argument that is a type can be written where the type can. -/
theorem WrittenArg.type {t : Ty} (h : Written scope t) : WrittenArg scope (.type t) := ⟨h.flat, h.vars⟩

/-- A wildcard can be written where its bounds can. -/
theorem WrittenArg.wild {upper lower : Ty} (hu : Written scope upper) (hl : Written scope lower) :
    WrittenArg scope (.wild upper lower) where
  flat := by rw [Arg.isFlat, hu.flat, hl.flat]; rfl
  vars v hv := (List.mem_append.1 hv).elim (hu.vars v) (hl.vars v)

end Written

/-- What the rule reads has the property. -/
def Reads {α : Type} (q : Rule α) (P : α → Prop) : Prop :=
  ∀ ts a rest, q ts = .ok (a, rest) → P a

section Reads

variable {α β : Type} {P : α → Prop} {Q : β → Prop}

/-- A rule that answers at once reads what it answers. -/
theorem Reads.pure {a : α} (h : P a) : Reads (pure a : Rule α) P := by
  intro ts b rest hb
  cases hb
  exact h

/-- A rule that blames a token reads nothing. -/
theorem Reads.throw {f : Failure} : Reads (throw f : Rule α) P := by
  intro ts b rest hb
  cases hb

/-- Nothing is said of what a rule reads. -/
theorem Reads.any (q : Rule α) : Reads q fun _ => True := fun _ _ _ _ => trivial

/-- Rules in a row read what the last one does. -/
theorem Reads.bind {q : Rule α} {f : α → Rule β} (hq : Reads q P) (hf : ∀ a, P a → Reads (f a) Q) :
    Reads (q >>= f) Q := by
  intro ts b rest hb
  change (q ts).bind (fun x => f x.1 x.2) = .ok (b, rest) at hb
  cases hts : q ts with
  | error e =>
    rw [hts] at hb
    cases hb
  | ok x =>
    rw [hts] at hb
    exact hf x.1 (hq ts x.1 x.2 hts) x.2 b rest hb

/-- A rule that branches reads what both branches do. -/
theorem Reads.ite {c : Prop} [Decidable c] {q q' : Rule α} (h : Reads q P) (h' : Reads q' P) :
    Reads (if c then q else q') P := by
  split
  · exact h
  · exact h'

end Reads

/-- The properties, one of types and one of arguments, are kept by everything that a reading puts together. -/
structure Reading.Keeps (r : Reading) (P : Ty → Prop) (Q : Arg → Prop) : Prop where
  null : P .null
  prim : ∀ p, P (.prim p)
  object : P .object
  var : ∀ v, r.scoped? v.name = some v → P (.var (.declared v))
  array : ∀ {t}, P t → P (.array t)
  nominal : ∀ {path decl args}, (∀ a ∈ args, Q a) → P (.nominal ⟨r.place, path⟩ decl args)
  meet : ∀ {path ts}, (∀ t ∈ ts, P t) → P (.meet ⟨r.place, path⟩ ts)
  type : ∀ {t}, P t → Q (.type t)
  wild : ∀ {upper lower}, P upper → P lower → Q (.wild upper lower)

/-- **Reading puts together what can be written from what can be written.** -/
theorem written_keeps (r : Reading) : r.Keeps (Written r.scope) (WrittenArg r.scope) where
  null := .closed rfl rfl
  prim _ := .closed rfl rfl
  object := .closed rfl rfl
  var v hv := ⟨rfl, fun w hw => by
    obtain rfl := List.mem_singleton.1 hw
    exact ⟨v, rfl, hv⟩⟩
  array h := h.array
  nominal h := .nominal h
  meet h := .meet h
  type h := .type h
  wild hu hl := .wild hu hl

namespace Reading

variable {r : Reading} {P : Ty → Prop} {Q : Arg → Prop}

/-- A rule that reports a problem reads nothing. -/
theorem problem_reads {α : Type} {P : α → Prop} (t : Token) (text : String) :
    Reads (r.problem t text) P := Reads.throw

variable [Alphabet]

/-- Brackets around what has a property give what has it. -/
theorem brackets_reads (hr : r.Keeps P Q) (n : Nat) {t : Ty} (h : P t) :
    Reads (r.brackets t n) P := by
  induction n generalizing t with
  | zero => exact Reads.throw
  | succ n ih =>
    rw [brackets]
    refine Reads.bind (Reads.any _) fun _ _ => Reads.ite ?_ (Reads.pure h)
    exact Reads.bind (Reads.any _) fun _ _ => Reads.bind (Reads.any _) fun _ _ => ih (hr.array h)

/-- What the rules read at a depth has the properties. -/
structure ReadsAll (r : Reading) (P : Ty → Prop) (Q : Arg → Prop) (n : Nat) : Prop where
  type : Reads (r.type n) P
  members : Reads (r.members n) fun ts => ∀ t ∈ ts, P t
  elem : Reads (r.elem n) P
  named : Reads (r.named n) P
  args : Reads (r.args n) fun as => ∀ a ∈ as, Q a
  arg : Reads (r.arg n) Q
  wildBound : ∀ word default, P default → Reads (r.wildBound n word default) P

/-- At no depth nothing is read. -/
theorem reads_zero : r.ReadsAll P Q 0 where
  type := Reads.throw
  members := Reads.throw
  elem := Reads.throw
  named := Reads.throw
  args := Reads.throw
  arg := Reads.throw
  wildBound _ _ _ := Reads.throw

/-- A named type has the property if the rules it calls read what has it. -/
theorem named_reads (hr : r.Keeps P Q) {n : Nat} (h : r.ReadsAll P Q n) :
    Reads (r.named (n + 1)) P := by
  rw [named]
  refine Reads.bind (Reads.any _) fun start _ => Reads.bind (Reads.any _) fun name _ =>
    Reads.bind (Reads.any _) fun after _ => ?_
  refine Reads.ite (Reads.pure hr.null) ?_
  split
  · exact Reads.pure (hr.prim _)
  split
  · next v hv =>
    refine Reads.ite (problem_reads _ _) (Reads.pure (hr.var v ?_))
    have hname : v.name = name := by simpa using List.find?_some hv
    rw [hname]
    exact hv
  refine Reads.ite (problem_reads _ _) (Reads.ite ?_ (Reads.ite ?_ ?_))
  · refine Reads.bind (Reads.any _) fun _ _ => Reads.bind h.arg fun first hfirst =>
      Reads.bind h.args fun more hmore => Reads.bind (Reads.any _) fun _ _ => Reads.pure ?_
    refine hr.nominal fun a ha => ?_
    rcases List.mem_cons.1 ha with rfl | ha
    · exact hfirst
    · exact hmore a ha
  · exact Reads.pure hr.object
  · exact Reads.pure (hr.nominal (by simp))

/-- Each rule reads what has the property if the rules it calls do. -/
theorem reads_succ (hr : r.Keeps P Q) {n : Nat} (h : r.ReadsAll P Q n) : r.ReadsAll P Q (n + 1) where
  type := by
    rw [type]
    refine Reads.bind (Reads.any _) fun start _ => Reads.bind h.elem fun first hfirst =>
      Reads.bind h.members fun more hmore => ?_
    split
    · exact Reads.pure hfirst
    · refine Reads.pure (hr.meet fun t ht => ?_)
      rcases List.mem_cons.1 ht with rfl | ht
      · exact hfirst
      · exact hmore t ht
  members := by
    rw [members]
    refine Reads.bind (Reads.any _) fun _ _ => Reads.ite ?_ (Reads.pure (by simp))
    refine Reads.bind (Reads.any _) fun _ _ => Reads.bind h.elem fun next hnext =>
      Reads.bind h.members fun more hmore => Reads.pure fun t ht => ?_
    rcases List.mem_cons.1 ht with rfl | ht
    · exact hnext
    · exact hmore t ht
  elem := by
    rw [elem]
    refine Reads.bind (Reads.any _) fun start _ => ?_
    split
    · exact Reads.bind (Reads.any _) fun _ _ => Reads.bind h.type fun t ht =>
        Reads.bind (Reads.any _) fun _ _ => brackets_reads hr n ht
    · exact Reads.bind h.named fun t ht => brackets_reads hr n ht
    · exact problem_reads _ _
  named := named_reads hr h
  args := by
    rw [args]
    refine Reads.bind (Reads.any _) fun _ _ => Reads.ite ?_ (Reads.pure (by simp))
    refine Reads.bind (Reads.any _) fun _ _ => Reads.bind h.arg fun next hnext =>
      Reads.bind h.args fun more hmore => Reads.pure fun a ha => ?_
    rcases List.mem_cons.1 ha with rfl | ha
    · exact hnext
    · exact hmore a ha
  arg := by
    rw [arg]
    refine Reads.bind (Reads.any _) fun _ _ => Reads.ite ?_
      (Reads.bind h.type fun t ht => Reads.pure (hr.type ht))
    exact Reads.bind (Reads.any _) fun _ _ =>
      Reads.bind (h.wildBound _ _ hr.object) fun upper hupper =>
        Reads.bind (h.wildBound _ _ hr.null) fun lower hlower =>
          Reads.pure (hr.wild hupper hlower)
  wildBound word default hdefault := by
    rw [wildBound]
    exact Reads.bind (Reads.any _) fun _ _ =>
      Reads.ite (Reads.bind (Reads.any _) fun _ _ => h.type) (Reads.pure hdefault)

/-- **What is read has every property that readings keep**, by induction on the depth. -/
theorem reads_all (hr : r.Keeps P Q) (n : Nat) : r.ReadsAll P Q n := by
  induction n with
  | zero => exact reads_zero
  | succ n ih => exact reads_succ hr ih

end Reading

/-- **What bytes read as has every property that reading keeps.** -/
theorem parse_keeps [Alphabet] {place : Place} {known : String → Bool} {scope : List TypeVar} {input : Bytes}
    {t : Ty} {P : Ty → Prop} {Q : Arg → Prop}
    (hr : Reading.Keeps ⟨input, place, known, scope⟩ P Q) (h : parse place known scope input = .ok t) :
    P t := by
  unfold parse at h
  dsimp only at h
  split at h
  · cases h
  · next t' htype =>
    cases h
    exact (Reading.reads_all hr _).type _ _ _ htype
  · cases h

/-- **What bytes read as is written over the scope.** -/
theorem parse_written [Alphabet] {place : Place} {known : String → Bool} {scope : List TypeVar}
    {input : Bytes} {t : Ty} (h : parse place known scope input = .ok t) : Written scope t :=
  parse_keeps (written_keeps _) h

end Expr
end Generics
