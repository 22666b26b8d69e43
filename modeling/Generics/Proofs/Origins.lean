/-
# Where types come from

The parts of a type have their places: a text, a capture, or the operation that built them. What a
catalog declares was written in texts only (`Catalog.Grown.lasting`), so that no number stands in it
that could mean something else in another run. A type whose origins and variables stand for themselves
is like itself (`Ty.like_self`).
-/

import Generics.Proofs.Likenesses

namespace Generics

/-- Where a variable comes from: a captured one from its capture. -/
def Var.origins : Var → List Place
  | .declared _ => []
  | .captured i => [.capture i]

mutual
/-- Where the parts of a type come from. -/
def Ty.origins : Ty → List Place
  | .prim _ => []
  | .null => []
  | .nominal site _ args => site.place :: Arg.originsAll args
  | .array elem => elem.origins
  | .inter site members => site.place :: Ty.originsAll members
  | .var v => v.origins

/-- Where the parts of an argument come from. -/
def Arg.origins : Arg → List Place
  | .type t => t.origins
  | .wild upper lower => upper.origins ++ lower.origins

/-- Where the parts of some types come from. -/
def Ty.originsAll : List Ty → List Place
  | [] => []
  | t :: ts => t.origins ++ Ty.originsAll ts

/-- Where the parts of some arguments come from. -/
def Arg.originsAll : List Arg → List Place
  | [] => []
  | a :: as => a.origins ++ Arg.originsAll as
end

section Origins

variable {ρ : Pairing}

/-- A site is paired with itself if its place is. -/
theorem Pairing.site_self {site : Site} (h : ρ.place site.place site.place) : ρ.site site site :=
  ⟨h, rfl⟩

mutual
/-- **A type whose origins and variables stand for themselves is like itself.** -/
theorem Ty.like_self : ∀ {t : Ty}, (∀ p ∈ t.origins, ρ.place p p) → (∀ v ∈ t.vars, ρ.var v v) →
    t.Like ρ t
  | .prim p, _, _ => by rw [Ty.Like]
  | .null, _, _ => Ty.like_null
  | .nominal site d as, ho, hv => by
    rw [Ty.origins, List.forall_mem_cons] at ho
    rw [Ty.Like]
    exact ⟨_, _, rfl, Pairing.site_self ho.1, Arg.likeAll_self ho.2 hv⟩
  | .array e, ho, hv => by
    rw [Ty.Like]
    exact ⟨_, rfl, Ty.like_self ho hv⟩
  | .inter site ms, ho, hv => by
    rw [Ty.origins, List.forall_mem_cons] at ho
    rw [Ty.Like]
    exact ⟨_, _, rfl, Pairing.site_self ho.1, Ty.likeAll_self ho.2 hv⟩
  | .var v, _, hv => Ty.like_var (hv v (List.mem_singleton.2 rfl))
termination_by structural t => t

/-- An argument is like itself if its places and variables are paired with themselves. -/
theorem Arg.like_self : ∀ {a : Arg}, (∀ p ∈ a.origins, ρ.place p p) → (∀ v ∈ a.vars, ρ.var v v) →
    a.Like ρ a
  | .type t, ho, hv => by
    rw [Arg.Like]
    exact ⟨_, rfl, Ty.like_self ho hv⟩
  | .wild u l, ho, hv => by
    rw [Arg.origins, List.forall_mem_append] at ho
    rw [Arg.vars, List.forall_mem_append] at hv
    rw [Arg.Like]
    exact ⟨_, _, rfl, Ty.like_self ho.1 hv.1, Ty.like_self ho.2 hv.2⟩
termination_by structural a => a

/-- Types are like themselves if their places and variables are paired with themselves. -/
theorem Ty.likeAll_self : ∀ {ts : List Ty}, (∀ p ∈ Ty.originsAll ts, ρ.place p p) →
    (∀ v ∈ Ty.varsAll ts, ρ.var v v) → Ty.LikeAll ρ ts ts
  | [], _, _ => by rw [Ty.LikeAll]
  | t :: ts, ho, hv => by
    rw [Ty.originsAll, List.forall_mem_append] at ho
    rw [Ty.varsAll, List.forall_mem_append] at hv
    rw [Ty.LikeAll]
    exact ⟨_, _, rfl, Ty.like_self ho.1 hv.1, Ty.likeAll_self ho.2 hv.2⟩
termination_by structural ts => ts

/-- Arguments are like themselves if their places and variables are paired with themselves. -/
theorem Arg.likeAll_self : ∀ {as : List Arg}, (∀ p ∈ Arg.originsAll as, ρ.place p p) →
    (∀ v ∈ Arg.varsAll as, ρ.var v v) → Arg.LikeAll ρ as as
  | [], _, _ => by rw [Arg.LikeAll]
  | a :: as, ho, hv => by
    rw [Arg.originsAll, List.forall_mem_append] at ho
    rw [Arg.varsAll, List.forall_mem_append] at hv
    rw [Arg.LikeAll]
    exact ⟨_, _, rfl, Arg.like_self ho.1 hv.1, Arg.likeAll_self ho.2 hv.2⟩
termination_by structural as => as
end

end Origins

/-! ## Where the types of a catalog come from -/

/-- The place is not one that a number tells from others. -/
def Place.Lasting : Place → Prop
  | .capture _ => False
  | .built _ => False
  | _ => True

/-- No part of the type was captured or built. -/
def Ty.Lasting (t : Ty) : Prop := ∀ p ∈ t.origins, p.Lasting

/-- No part of the argument was captured or built. -/
def Arg.Lasting (a : Arg) : Prop := ∀ p ∈ a.origins, p.Lasting

section Lasting

variable {p : Place}

/-- Where some types come from is where one of them does. -/
theorem Ty.mem_originsAll {ts : List Ty} : p ∈ Ty.originsAll ts ↔ ∃ t ∈ ts, p ∈ t.origins := by
  induction ts with
  | nil => simp [Ty.originsAll]
  | cons t ts ih => simp [Ty.originsAll, ih]

/-- Where some arguments come from is where one of them does. -/
theorem Arg.mem_originsAll {as : List Arg} : p ∈ Arg.originsAll as ↔ ∃ a ∈ as, p ∈ a.origins := by
  induction as with
  | nil => simp [Arg.originsAll]
  | cons a as ih => simp [Arg.originsAll, ih]

/-- An argument comes from where its parts do. -/
theorem Arg.mem_origins_of_parts {a : Arg} {t : Ty} (h : t ∈ a.parts) (hp : p ∈ t.origins) :
    p ∈ a.origins := by
  cases a with
  | type u => exact List.mem_singleton.1 h ▸ hp
  | wild u l =>
    rcases List.mem_pair.1 h with rfl | rfl
    · exact List.mem_append_left _ hp
    · exact List.mem_append_right _ hp

/-- A type comes from where its conjuncts do. -/
theorem Ty.mem_origins_of_conjunct {t c : Ty} (hc : c ∈ t.conjuncts) (hp : p ∈ c.origins) :
    p ∈ t.origins := by
  cases t with
  | inter st ms => exact List.mem_cons_of_mem _ (Ty.mem_originsAll.2 ⟨c, hc, hp⟩)
  | _ => exact List.mem_singleton.1 hc ▸ hp

mutual
/-- A variable comes from where it does in every type that it stands in. -/
theorem Ty.mem_origins_of_var {v : Var} (hp : p ∈ v.origins) : ∀ {t : Ty}, v ∈ t.vars → p ∈ t.origins
  | .prim _, hv => absurd hv List.not_mem_nil
  | .null, hv => absurd hv List.not_mem_nil
  | .nominal _ _ _, hv => List.mem_cons_of_mem _ (Arg.mem_originsAll_of_var hp hv)
  | .array e, hv => Ty.mem_origins_of_var (t := e) hp hv
  | .inter _ _, hv => List.mem_cons_of_mem _ (Ty.mem_originsAll_of_var hp hv)
  | .var _, hv => List.mem_singleton.1 hv ▸ hp

/-- An argument comes from where its variables do. -/
theorem Arg.mem_origins_of_var {v : Var} (hp : p ∈ v.origins) : ∀ {a : Arg}, v ∈ a.vars → p ∈ a.origins
  | .type t, hv => Ty.mem_origins_of_var (t := t) hp hv
  | .wild _ _, hv => List.mem_append.2 ((List.mem_append.1 hv).imp (Ty.mem_origins_of_var hp)
    (Ty.mem_origins_of_var hp))

/-- Types come from where their variables do. -/
theorem Ty.mem_originsAll_of_var {v : Var} (hp : p ∈ v.origins) : ∀ {ts : List Ty},
    v ∈ Ty.varsAll ts → p ∈ Ty.originsAll ts
  | [], hv => absurd hv List.not_mem_nil
  | _ :: _, hv => List.mem_append.2 ((List.mem_append.1 hv).imp (Ty.mem_origins_of_var hp)
    (Ty.mem_originsAll_of_var hp))

/-- Arguments come from where their variables do. -/
theorem Arg.mem_originsAll_of_var {v : Var} (hp : p ∈ v.origins) : ∀ {as : List Arg},
    v ∈ Arg.varsAll as → p ∈ Arg.originsAll as
  | [], hv => absurd hv List.not_mem_nil
  | _ :: _, hv => List.mem_append.2 ((List.mem_append.1 hv).imp (Arg.mem_origins_of_var hp)
    (Arg.mem_originsAll_of_var hp))
end

/-- The meet of lasting types at a lasting site is lasting. -/
theorem Ty.Lasting.meet {site : Site} (hsite : site.place.Lasting) {ts : List Ty}
    (h : ∀ t ∈ ts, t.Lasting) : (Ty.meet site ts).Lasting := by
  rw [Ty.meet]
  split
  · intro p hp
    obtain rfl := List.mem_singleton.1 hp
    trivial
  · refine List.forall_mem_cons.2 ⟨hsite, fun p hp => ?_⟩
    obtain ⟨c, hc, hp⟩ := Ty.mem_originsAll.1 hp
    obtain ⟨t, ht, hc⟩ := List.mem_flatMap.1 hc
    exact h t ht p (Ty.mem_origins_of_conjunct hc hp)

/-- What is read from a text lasts. -/
theorem Expr.lasting_keeps (r : Expr.Reading) (hplace : r.place.Lasting) :
    r.Keeps Ty.Lasting Arg.Lasting where
  null p hp := absurd hp List.not_mem_nil
  prim _ p hp := absurd hp List.not_mem_nil
  object p hp := by
    obtain rfl := List.mem_singleton.1 hp
    trivial
  var _ _ p hp := absurd hp List.not_mem_nil
  array h := h
  nominal h := List.forall_mem_cons.2 ⟨hplace, fun p hp => by
    obtain ⟨a, ha, hp⟩ := Arg.mem_originsAll.1 hp
    exact h a ha p hp⟩
  meet h := .meet hplace h
  type h := h
  wild hu hl p hp := (List.mem_append.1 hp).elim (hu p) (hl p)

end Lasting

/-- The bounds and the supertypes were neither captured nor built. -/
structure Declaration.Lasting (d : Declaration) : Prop where
  bounds : ∀ p ∈ d.params, p.upper.Lasting
  parents : ∀ n ∈ d.parents, n.toTy.Lasting

/-- A declaration that is read from a definition lasts. -/
theorem Definition.read_lasting [Alphabet] {d : Definition} {known : String → Bool} {decl : Declaration}
    (h : d.read known = .ok decl) : decl.Lasting := by
  obtain ⟨-, -, -, hparams, hparents⟩ := Definition.read_ok h
  refine ⟨fun p hp => ?_, fun n hn => ?_⟩
  · obtain ⟨i, p', -, hread⟩ := hparams p hp
    rcases (Definition.readParam_ok hread).2 with hobject | hparse
    · intro q hq
      rw [hobject] at hq
      obtain rfl := List.mem_singleton.1 hq
      trivial
    · exact Expr.parse_keeps (Expr.lasting_keeps _ (by trivial)) hparse
  · obtain ⟨i, text, -, hread⟩ := hparents n hn
    exact Expr.parse_keeps (Expr.lasting_keeps _ (by trivial)) (Definition.readParent_ok hread).1

/-- **What a grown catalog declares was neither captured nor built.** -/
theorem Catalog.Grown.lasting {c : Catalog} (h : c.Grown) : ∀ d ∈ c.decls, d.Lasting := by
  have hdeclare : ∀ [Alphabet] {c c' : Catalog} {defs : List Definition}, (∀ d ∈ c.decls, d.Lasting) →
      c.declare defs = .ok c' → ∀ d ∈ c'.decls, d.Lasting := by
    intro _ c c' defs hc h d hd
    obtain ⟨-, decls, hread, rfl⟩ := Catalog.declare_eq h
    rcases List.mem_append.1 hd with hd | hd
    · exact hc d hd
    · obtain ⟨def', -, hdef⟩ := (Definition.readAll_ok hread).2 d hd
      exact Definition.read_lasting hdef
  induction h with
  | standard =>
    let _ := Alphabet.ascii
    exact hdeclare (by simp) Catalog.standard_eq
  | declare _ hd ih => exact hdeclare ih hd

end Generics
