/-
# Rebuilding types

`Ty.rebuild f` puts `f v` in the place of every variable `v` of a type, takes intersections
apart that come to stand in an intersection, and leaves sites out. It is the plain form of
substitution: `Ty.subst` gives the same type up to sites (`Ty.shape_subst`), whether or not it
finds something to change. Rebuilding with the variables themselves leaves out the sites
only; that is the `Ty.shape` of a type.

Rebuilding twice is rebuilding once with the composed function (`Ty.rebuild_rebuild`), and the
variables of a rebuilt type are those of what was put in (`Ty.mem_vars_rebuild`).
-/

import Generics.Type.Substitution

namespace Generics

mutual
/-- The type with `f v` in the place of every variable `v`, without sites. -/
def Ty.rebuild (f : Var → Ty) : Ty → Ty
  | .prim p => .prim p
  | .null => .null
  | .nominal _ decl args => .nominal .common decl (Arg.rebuildAll f args)
  | .array elem => .array (elem.rebuild f)
  | .inter _ members => .inter .common (Ty.rebuildParts f members)
  | .var v => f v

/-- The argument with `f v` in the place of every variable `v`. -/
def Arg.rebuild (f : Var → Ty) : Arg → Arg
  | .type t => .type (t.rebuild f)
  | .wild upper lower => .wild (upper.rebuild f) (lower.rebuild f)

/-- The members of an intersection after rebuilding, intersections among them taken apart. -/
def Ty.rebuildParts (f : Var → Ty) : List Ty → List Ty
  | [] => []
  | t :: ts => (t.rebuild f).conjuncts ++ Ty.rebuildParts f ts

/-- The arguments after rebuilding. -/
def Arg.rebuildAll (f : Var → Ty) : List Arg → List Arg
  | [] => []
  | a :: as => a.rebuild f :: Arg.rebuildAll f as
end

/-- The type without its sites. -/
def Ty.shape (t : Ty) : Ty := t.rebuild .var

/-- Arguments are rebuilt one by one. -/
theorem Arg.rebuildAll_eq_map (f : Var → Ty) (as : List Arg) :
    Arg.rebuildAll f as = as.map (Arg.rebuild f) := by
  induction as with
  | nil => rfl
  | cons a as ih => rw [Arg.rebuildAll, ih, List.map_cons]

/-- Of two lists of arguments that are rebuilt alike, each argument of the one is rebuilt like one of the
other. -/
theorem Arg.exists_rebuilt {f g : Var → Ty} {as bs : List Arg}
    (h : as.map (Arg.rebuild f) = bs.map (Arg.rebuild g)) {a : Arg} (ha : a ∈ as) :
    ∃ b ∈ bs, b.rebuild g = a.rebuild f :=
  List.mem_map.1 (h ▸ List.mem_map_of_mem ha)

/-- Members are rebuilt one by one, and intersections among them are taken apart. -/
theorem Ty.rebuildParts_eq_flatMap (f : Var → Ty) (ts : List Ty) :
    Ty.rebuildParts f ts = ts.flatMap fun t => (t.rebuild f).conjuncts := by
  induction ts with
  | nil => rfl
  | cons t ts ih => rw [Ty.rebuildParts, ih, List.flatMap_cons]

/-- Members in two lists are rebuilt in order. -/
theorem Ty.rebuildParts_append (f : Var → Ty) (ts us : List Ty) :
    Ty.rebuildParts f (ts ++ us) = Ty.rebuildParts f ts ++ Ty.rebuildParts f us := by
  simp only [Ty.rebuildParts_eq_flatMap, List.flatMap_append]

/-- What a rebuilt type contributes to an intersection is what its parts contribute. -/
theorem Ty.conjuncts_rebuild (f : Var → Ty) (t : Ty) :
    (t.rebuild f).conjuncts = Ty.rebuildParts f t.conjuncts := by
  cases t <;> simp [Ty.rebuild, Ty.conjuncts, Ty.rebuildParts]

mutual
/-- **Rebuilding twice is rebuilding once.** -/
theorem Ty.rebuild_rebuild (f g : Var → Ty) :
    ∀ t : Ty, (t.rebuild f).rebuild g = t.rebuild fun v => (f v).rebuild g
  | .prim p => rfl
  | .null => rfl
  | .nominal s d as => by
    simp only [Ty.rebuild, Arg.rebuildAll_rebuildAll f g as]
  | .array e => by simp only [Ty.rebuild, Ty.rebuild_rebuild f g e]
  | .inter s ms => by simp only [Ty.rebuild, Ty.rebuildParts_rebuildParts f g ms]
  | .var v => rfl

/-- Rebuilding an argument twice is rebuilding it once, with what is put in rebuilt. -/
theorem Arg.rebuild_rebuild (f g : Var → Ty) :
    ∀ a : Arg, (a.rebuild f).rebuild g = a.rebuild fun v => (f v).rebuild g
  | .type t => by simp only [Arg.rebuild, Ty.rebuild_rebuild f g t]
  | .wild u l => by
    simp only [Arg.rebuild, Ty.rebuild_rebuild f g u, Ty.rebuild_rebuild f g l]

/-- The same for the members of an intersection. -/
theorem Ty.rebuildParts_rebuildParts (f g : Var → Ty) :
    ∀ ts : List Ty, Ty.rebuildParts g (Ty.rebuildParts f ts) =
      Ty.rebuildParts (fun v => (f v).rebuild g) ts
  | [] => rfl
  | t :: ts => by
    rw [Ty.rebuildParts, Ty.rebuildParts, Ty.rebuildParts_append, ← Ty.conjuncts_rebuild,
      Ty.rebuild_rebuild f g t, Ty.rebuildParts_rebuildParts f g ts]

/-- The same for arguments. -/
theorem Arg.rebuildAll_rebuildAll (f g : Var → Ty) :
    ∀ as : List Arg, Arg.rebuildAll g (Arg.rebuildAll f as) =
      Arg.rebuildAll (fun v => (f v).rebuild g) as
  | [] => rfl
  | a :: as => by
    simp only [Arg.rebuildAll, Arg.rebuild_rebuild f g a, Arg.rebuildAll_rebuildAll f g as]
end

mutual
/-- **Only the variables that occur matter.** -/
theorem Ty.rebuild_congr {f g : Var → Ty} :
    ∀ {t : Ty}, (∀ v ∈ t.vars, f v = g v) → t.rebuild f = t.rebuild g
  | .prim p, _ => rfl
  | .null, _ => rfl
  | .nominal s d as, h => by
    rw [Ty.rebuild, Ty.rebuild, Arg.rebuildAll_congr (by simpa only [Ty.vars] using h)]
  | .array e, h => by
    rw [Ty.rebuild, Ty.rebuild, Ty.rebuild_congr (t := e) (by simpa only [Ty.vars] using h)]
  | .inter s ms, h => by
    rw [Ty.rebuild, Ty.rebuild, Ty.rebuildParts_congr (by simpa only [Ty.vars] using h)]
  | .var v, h => h v (by simp [Ty.vars])

/-- Rebuilding an argument depends only on what is put in for its variables. -/
theorem Arg.rebuild_congr {f g : Var → Ty} :
    ∀ {a : Arg}, (∀ v ∈ a.vars, f v = g v) → a.rebuild f = a.rebuild g
  | .type t, h => by
    rw [Arg.rebuild, Arg.rebuild, Ty.rebuild_congr (t := t) (by simpa only [Arg.vars] using h)]
  | .wild u l, h => by
    simp only [Arg.vars, List.mem_append] at h
    rw [Arg.rebuild, Arg.rebuild, Ty.rebuild_congr (t := u) fun v hv => h v (.inl hv),
      Ty.rebuild_congr (t := l) fun v hv => h v (.inr hv)]

/-- The same for the members of an intersection. -/
theorem Ty.rebuildParts_congr {f g : Var → Ty} :
    ∀ {ts : List Ty}, (∀ v ∈ Ty.varsAll ts, f v = g v) →
      Ty.rebuildParts f ts = Ty.rebuildParts g ts
  | [], _ => rfl
  | t :: ts, h => by
    simp only [Ty.varsAll, List.mem_append] at h
    have hts : Ty.rebuildParts f ts = Ty.rebuildParts g ts :=
      Ty.rebuildParts_congr fun v hv => h v (.inr hv)
    rw [Ty.rebuildParts, Ty.rebuildParts, Ty.rebuild_congr (t := t) fun v hv => h v (.inl hv), hts]

/-- The same for arguments. -/
theorem Arg.rebuildAll_congr {f g : Var → Ty} :
    ∀ {as : List Arg}, (∀ v ∈ Arg.varsAll as, f v = g v) →
      Arg.rebuildAll f as = Arg.rebuildAll g as
  | [], _ => rfl
  | a :: as, h => by
    simp only [Arg.varsAll, List.mem_append] at h
    have has : Arg.rebuildAll f as = Arg.rebuildAll g as :=
      Arg.rebuildAll_congr fun v hv => h v (.inr hv)
    rw [Arg.rebuildAll, Arg.rebuildAll, Arg.rebuild_congr (a := a) fun v hv => h v (.inl hv), has]
end

/-- A variable occurs in some types if it occurs in one of them. -/
theorem Ty.mem_varsAll {v : Var} {ts : List Ty} : v ∈ Ty.varsAll ts ↔ ∃ t ∈ ts, v ∈ t.vars := by
  induction ts with
  | nil => simp [Ty.varsAll]
  | cons t ts ih => simp [Ty.varsAll, ih]

/-- A variable occurs in some arguments if it occurs in one of them. -/
theorem Arg.mem_varsAll {v : Var} {as : List Arg} :
    v ∈ Arg.varsAll as ↔ ∃ a ∈ as, v ∈ a.vars := by
  induction as with
  | nil => simp [Arg.varsAll]
  | cons a as ih => simp [Arg.varsAll, ih]

/-- The variables of what a type contributes to an intersection are its own. -/
theorem Ty.varsAll_conjuncts (t : Ty) : Ty.varsAll t.conjuncts = t.vars := by
  cases t <;> simp [Ty.conjuncts, Ty.varsAll, Ty.vars]

/-- The variables of two lists of types, in order. -/
theorem Ty.varsAll_append (ts us : List Ty) :
    Ty.varsAll (ts ++ us) = Ty.varsAll ts ++ Ty.varsAll us := by
  induction ts with
  | nil => rfl
  | cons t ts ih => rw [List.cons_append, Ty.varsAll, ih, Ty.varsAll, List.append_assoc]

mutual
/-- **The variables of a rebuilt type are those of what was put in.** -/
theorem Ty.vars_rebuild (f : Var → Ty) :
    ∀ t : Ty, (t.rebuild f).vars = t.vars.flatMap fun v => (f v).vars
  | .prim p => rfl
  | .null => rfl
  | .nominal s d as => by simp only [Ty.rebuild, Ty.vars, Arg.varsAll_rebuildAll f as]
  | .array e => by simp only [Ty.rebuild, Ty.vars, Ty.vars_rebuild f e]
  | .inter s ms => by simp only [Ty.rebuild, Ty.vars, Ty.varsAll_rebuildParts f ms]
  | .var v => by simp [Ty.rebuild, Ty.vars]

/-- The variables of a rebuilt argument come with what is put in. -/
theorem Arg.vars_rebuild (f : Var → Ty) :
    ∀ a : Arg, (a.rebuild f).vars = a.vars.flatMap fun v => (f v).vars
  | .type t => by simp only [Arg.rebuild, Arg.vars, Ty.vars_rebuild f t]
  | .wild u l => by
    simp only [Arg.rebuild, Arg.vars, Ty.vars_rebuild f u, Ty.vars_rebuild f l,
      List.flatMap_append]

/-- The same for the members of an intersection. -/
theorem Ty.varsAll_rebuildParts (f : Var → Ty) :
    ∀ ts : List Ty, Ty.varsAll (Ty.rebuildParts f ts) = (Ty.varsAll ts).flatMap fun v => (f v).vars
  | [] => rfl
  | t :: ts => by
    simp only [Ty.rebuildParts, Ty.varsAll_append, Ty.varsAll_conjuncts, Ty.varsAll,
      Ty.vars_rebuild f t, Ty.varsAll_rebuildParts f ts, List.flatMap_append]

/-- The same for arguments. -/
theorem Arg.varsAll_rebuildAll (f : Var → Ty) :
    ∀ as : List Arg,
      Arg.varsAll (Arg.rebuildAll f as) = (Arg.varsAll as).flatMap fun v => (f v).vars
  | [] => rfl
  | a :: as => by
    simp only [Arg.rebuildAll, Arg.varsAll, Arg.vars_rebuild f a, Arg.varsAll_rebuildAll f as,
      List.flatMap_append]
end

/-- A variable occurs in a rebuilt type if it comes with what is put in for one of its variables. -/
theorem Ty.mem_vars_rebuild {f : Var → Ty} {t : Ty} {v : Var} :
    v ∈ (t.rebuild f).vars ↔ ∃ w ∈ t.vars, v ∈ (f w).vars := by
  rw [Ty.vars_rebuild, List.mem_flatMap]

/-- Forgetting identities changes no variable. -/
theorem Ty.vars_shape (t : Ty) : t.shape.vars = t.vars := by
  rw [Ty.shape, Ty.vars_rebuild]
  induction t.vars with
  | nil => rfl
  | cons v vs ih => rw [List.flatMap_cons, ih, Ty.vars, List.singleton_append]

/-- A shape has no identities to forget. -/
@[simp] theorem Ty.shape_shape (t : Ty) : t.shape.shape = t.shape := by
  rw [Ty.shape, Ty.shape, Ty.rebuild_rebuild]
  rfl

/-- Rebuilding looks at the shape only. -/
@[simp] theorem Ty.rebuild_shape (f : Var → Ty) (t : Ty) : t.shape.rebuild f = t.rebuild f := by
  rw [Ty.shape, Ty.rebuild_rebuild]
  rfl

/-- A type without variables keeps its shape. -/
theorem Ty.rebuild_eq_shape {f : Var → Ty} {t : Ty} (h : ∀ v ∈ t.vars, f v = .var v) :
    t.rebuild f = t.shape := Ty.rebuild_congr h

/-- What is put in the place of variables has no sites. -/
def Siteless (f : Var → Ty) : Prop := ∀ v, (f v).shape = f v

/-- A rebuilt type has no identities if nothing put in has. -/
theorem Ty.shape_rebuild {f : Var → Ty} (hf : Siteless f) (t : Ty) :
    (t.rebuild f).shape = t.rebuild f := by
  rw [Ty.shape, Ty.rebuild_rebuild]
  exact Ty.rebuild_congr fun v _ => hf v

/-! ### Substitution is rebuilding -/

/-- What a substitution puts in the place of a variable. -/
def Subst.image (σ : Subst) (v : Var) : Ty := ((σ.lookup v).map Ty.shape).getD (.var v)

/-- Taking intersections apart before rebuilding makes no difference. -/
theorem Ty.rebuildParts_flatMap_conjuncts (f : Var → Ty) (ts : List Ty) :
    Ty.rebuildParts f (ts.flatMap Ty.conjuncts) = Ty.rebuildParts f ts := by
  induction ts with
  | nil => rfl
  | cons t ts ih =>
    rw [List.flatMap_cons, Ty.rebuildParts_append, ih, ← Ty.conjuncts_rebuild, Ty.rebuildParts]

/-- A substitution puts in types without identities. -/
theorem Subst.siteless_image (σ : Subst) : Siteless σ.image := by
  intro v
  rw [Subst.image]
  cases σ.lookup v with
  | none => rfl
  | some t => exact Ty.shape_shape t

/-- Joining types before rebuilding is rebuilding them one by one. -/
theorem Ty.rebuild_meet (f : Var → Ty) (site : Site) (ts : List Ty) :
    (Ty.meet site ts).rebuild f = .inter .common (Ty.rebuildParts f ts) := by
  rw [← Ty.rebuildParts_flatMap_conjuncts, Ty.meet]
  split
  · next h => rw [h]; rfl
  · rfl

mutual
/-- **Substitution gives the rebuilt type, up to sites.** -/
theorem Ty.shape_subst (σ : Subst) (site : Site) :
    ∀ t : Ty, (t.subst σ site).shape = t.rebuild σ.image
  | .prim p => rfl
  | .null => rfl
  | .nominal s d as => by
    have h := Arg.shape_substAll σ site 0 as
    rw [Ty.subst, Ty.subst?]
    cases hs : Arg.substAll? σ site 0 as with
    | none =>
      rw [hs, Option.getD_none] at h
      simp only [Option.map_none, Option.getD_none, Ty.shape, Ty.rebuild, h]
    | some bs =>
      rw [hs, Option.getD_some] at h
      simp only [Option.map_some, Option.getD_some, Ty.shape, Ty.rebuild, h]
  | .array e => by
    have h := Ty.shape_subst σ site e
    rw [Ty.subst] at h
    rw [Ty.subst, Ty.subst?]
    cases hs : e.subst? σ site with
    | none =>
      rw [hs, Option.getD_none, Ty.shape] at h
      simp only [Option.map_none, Option.getD_none, Ty.shape, Ty.rebuild, h]
    | some e' =>
      rw [hs, Option.getD_some, Ty.shape] at h
      simp only [Option.map_some, Option.getD_some, Ty.shape, Ty.rebuild, h]
  | .inter s ms => by
    have h := Ty.shape_substAll σ site 0 ms
    rw [Ty.subst, Ty.subst?]
    cases hs : Ty.substAll? σ site 0 ms with
    | none =>
      rw [hs, Option.getD_none] at h
      simp only [Option.map_none, Option.getD_none, Ty.shape, Ty.rebuild, h]
    | some ms' =>
      rw [hs, Option.getD_some] at h
      simp only [Option.map_some, Option.getD_some, Ty.shape, Ty.rebuild_meet, Ty.rebuild, h]
  | .var v => by
    rw [Ty.subst, Ty.subst?, Ty.rebuild, Subst.image]
    cases σ.lookup v with
    | none => rfl
    | some u =>
      by_cases hu : u = .var v
      · simp [Option.filter, hu, Ty.shape, Ty.rebuild]
      · simp [Option.filter, hu]

/-- Substituting in an argument is rebuilding it, up to identities. -/
theorem Arg.shape_subst (σ : Subst) (site : Site) :
    ∀ a : Arg, ((a.subst? σ site).getD a).rebuild .var = a.rebuild σ.image
  | .type t => by
    have h := Ty.shape_subst σ site t
    rw [Ty.subst] at h
    rw [Arg.subst?]
    cases hs : t.subst? σ site with
    | none =>
      rw [hs, Option.getD_none, Ty.shape] at h
      simp only [Option.map_none, Option.getD_none, Arg.rebuild, h]
    | some t' =>
      rw [hs, Option.getD_some, Ty.shape] at h
      simp only [Option.map_some, Option.getD_some, Arg.rebuild, h]
  | .wild u l => by
    have hu := Ty.shape_subst σ (site.part 0) u
    have hl := Ty.shape_subst σ (site.part 1) l
    rw [Ty.subst, Ty.shape] at hu hl
    rw [Arg.subst?]
    cases hsu : u.subst? σ (site.part 0) <;> cases hsl : l.subst? σ (site.part 1) <;>
      simp_all [Arg.rebuild]

/-- The same for the members of an intersection. -/
theorem Ty.shape_substAll (σ : Subst) (site : Site) :
    ∀ (i : Nat) (ts : List Ty), Ty.rebuildParts .var ((Ty.substAll? σ site i ts).getD ts) =
      Ty.rebuildParts σ.image ts
  | _, [] => rfl
  | i, t :: ts => by
    have ht := Ty.shape_subst σ (site.part i) t
    have hts := Ty.shape_substAll σ site (i + 1) ts
    rw [Ty.subst, Ty.shape] at ht
    rw [Ty.substAll?]
    cases hst : t.subst? σ (site.part i) <;> cases hss : Ty.substAll? σ site (i + 1) ts <;>
      simp_all [Ty.rebuildParts]

/-- The same for arguments. -/
theorem Arg.shape_substAll (σ : Subst) (site : Site) :
    ∀ (i : Nat) (as : List Arg), Arg.rebuildAll .var ((Arg.substAll? σ site i as).getD as) =
      Arg.rebuildAll σ.image as
  | _, [] => rfl
  | i, a :: as => by
    have ha := Arg.shape_subst σ (site.part i) a
    have has := Arg.shape_substAll σ site (i + 1) as
    rw [Arg.substAll?]
    cases hsa : a.subst? σ (site.part i) <;> cases hss : Arg.substAll? σ site (i + 1) as <;>
      simp_all [Arg.rebuildAll]
end

namespace Subst

/-- A substitution after an insertion gives the new type for the new key, and what it gave otherwise. -/
theorem lookup_insert (σ : Subst) (v w : Var) (t : Ty) :
    (σ.insert v t).lookup w = if v.key = w.key then some t else σ.lookup w := by
  by_cases h : v.key = w.key
  · simp [lookup, insert, h]
  · have hfind : (σ.entries.filter fun entry => entry.1.key != v.key).find?
        (fun entry => entry.1.key == w.key) = σ.entries.find? fun entry => entry.1.key == w.key := by
      induction σ.entries with
      | nil => rfl
      | cons e es ih =>
        by_cases he : e.1.key = v.key
        · have hw : ¬ e.1.key = w.key := fun hw => h (he.symm.trans hw)
          simp [he, h, ih]
        · by_cases hw : e.1.key = w.key
          · simp [hw, Ne.symm h]
          · simp [he, hw, ih]
    simp only [lookup, insert, List.find?_cons, beq_eq_false_iff_ne.2 h, h, if_false, hfind]

/-- Adding nothing changes nothing. -/
theorem insertAll_nil (σ : Subst) : σ.insertAll [] = σ := rfl

/-- Pairs are added one after the other. -/
theorem insertAll_cons (σ : Subst) (p : Var × Ty) (ps : List (Var × Ty)) :
    σ.insertAll (p :: ps) = (σ.insert p.1 p.2).insertAll ps := rfl

/-- Giving further types to variables: the last one given counts. -/
theorem lookup_insertAll (σ : Subst) (ps : List (Var × Ty)) (v : Var) :
    (σ.insertAll ps).lookup v =
      ((ps.reverse.find? fun p => p.1.key == v.key).map Prod.snd).or (σ.lookup v) := by
  induction ps generalizing σ with
  | nil => simp [insertAll_nil]
  | cons p ps ih =>
    rw [insertAll_cons, ih, lookup_insert, List.reverse_cons, List.find?_append]
    cases hf : ps.reverse.find? fun p => p.1.key == v.key with
    | some q => simp
    | none => by_cases hp : p.1.key = v.key <;> simp [hp]

/-- Of pairs with one key, the last one counts. -/
theorem lookup_zip (vs : List TypeVar) (ts : List Ty) (v : Var) :
    (Subst.zip vs ts).lookup v =
      (((vs.map Var.declared).zip ts).reverse.find? fun p => p.1.key == v.key).map Prod.snd := by
  rw [zip, lookup_insertAll, show ({} : Subst).lookup v = none from rfl, Option.or_none]

/-- What is given to a variable is one of the types. -/
theorem mem_of_lookup_zip {vs : List TypeVar} {ts : List Ty} {v : Var} {t : Ty}
    (h : (Subst.zip vs ts).lookup v = some t) : t ∈ ts := by
  rw [lookup_zip] at h
  obtain ⟨p, hp, rfl⟩ := Option.map_eq_some_iff.1 h
  have hmem := List.mem_of_find?_eq_some hp
  exact (List.of_mem_zip (List.mem_reverse.1 hmem)).2

/-- What a substitution made of pairs gives comes from a pair with the key. -/
theorem mem_zip_of_lookup {vs : List TypeVar} {ts : List Ty} {v : Var} {t : Ty}
    (h : (Subst.zip vs ts).lookup v = some t) : ∃ w, (w, t) ∈ vs.zip ts ∧ w.key = v.key := by
  rw [lookup_zip, List.zip_map_left] at h
  obtain ⟨p, hp, rfl⟩ := Option.map_eq_some_iff.1 h
  have hkey := List.find?_some hp
  obtain ⟨⟨w, t⟩, hmem, rfl⟩ := List.mem_map.1 (List.mem_reverse.1 (List.mem_of_find?_eq_some hp))
  exact ⟨w, hmem, beq_iff_eq.1 hkey⟩

/-- The last variable of a key is given the type at its own position. -/
theorem mem_zip_of_last {vs : List TypeVar} {ts : List Ty} (hlen : vs.length ≤ ts.length)
    {q : TypeVar} (hq : vs.reverse.find? (fun w => w.key == q.key) = some q) {t : Ty}
    (h : (Subst.zip vs ts).lookup (.declared q) = some t) : (q, t) ∈ vs.zip ts := by
  rw [lookup_zip, List.zip_map_left, ← List.map_reverse, List.find?_map, Option.map_map] at h
  obtain ⟨p, hp, rfl⟩ := Option.map_eq_some_iff.1 h
  have hfst : ((vs.zip ts).reverse.map Prod.fst).find? (fun w => w.key == q.key) = some p.1 := by
    rw [List.find?_map]
    exact Option.map_eq_some_iff.2 ⟨p, hp, rfl⟩
  rw [List.map_reverse, List.map_fst_zip hlen, hq] at hfst
  injection hfst with hfst
  have hmem := List.mem_reverse.1 (List.mem_of_find?_eq_some hp)
  rw [hfst]
  exact hmem

/-- What is given to a variable is found by its key. -/
theorem lookup_congr (σ : Subst) {v w : Var} (h : v.key = w.key) : σ.lookup v = σ.lookup w := by
  simp only [lookup, h]

/-- Every variable in the list is given a type if there are enough of them. -/
theorem lookup_zip_isSome {vs : List TypeVar} {ts : List Ty} (hlen : vs.length ≤ ts.length)
    {v : TypeVar} (hv : v ∈ vs) : ((Subst.zip vs ts).lookup (.declared v)).isSome := by
  obtain ⟨i, hi, rfl⟩ := List.mem_iff_getElem.1 hv
  rw [lookup_zip, Option.isSome_map, List.find?_isSome]
  refine ⟨(.declared vs[i], ts[i]), ?_, by simp⟩
  rw [List.mem_reverse, List.mem_iff_getElem]
  exact ⟨i, by simp; omega, by simp⟩

/-- Changing the types changes what is given in the same way. -/
theorem lookup_zip_map (vs : List TypeVar) (ts : List Ty) (g : Ty → Ty) (v : Var) :
    (Subst.zip vs (ts.map g)).lookup v = ((Subst.zip vs ts).lookup v).map g := by
  rw [lookup_zip, lookup_zip, List.zip_map_right, ← List.map_reverse, List.find?_map,
    Option.map_map, Option.map_map]
  rfl

end Subst

/-- **Rebuilding with arguments for parameters, then rebuilding, is rebuilding with the rebuilt
arguments**, if no variable but the parameters occurs. -/
theorem Ty.rebuild_zip {vs : List TypeVar} {ts : List Ty} (hlen : vs.length ≤ ts.length)
    {f : Var → Ty} (hf : Siteless f) {t : Ty} (ht : ∀ v ∈ t.vars, ∃ w ∈ vs, v.key = w.key) :
    (t.rebuild (Subst.zip vs ts).image).rebuild f =
      t.rebuild (Subst.zip vs (ts.map (Ty.rebuild f))).image := by
  rw [Ty.rebuild_rebuild]
  refine Ty.rebuild_congr fun v hv => ?_
  obtain ⟨w, hw, hkey⟩ := ht v hv
  obtain ⟨u, hu⟩ := Option.isSome_iff_exists.1 (Subst.lookup_zip_isSome hlen hw)
  have hv : (Subst.zip vs ts).lookup v = some u :=
    (Subst.lookup_congr _ (w := .declared w) hkey).trans hu
  simp only [Subst.image, Subst.lookup_zip_map, hv, Option.map_some, Option.getD_some,
    Ty.rebuild_shape, Ty.shape_rebuild hf]

end Generics
