/-
# What an index holds

An index holds its bindings three times over: in the order in which they were added, once more those for
every declaration, and for each declaration that some binding listed the ones that may apply to it. A binding
for every declaration is added to all lists there are, and a list that is made later starts with the bindings
for every declaration.

So it does not matter which lists there are: a binding is added to what may apply to a declaration as often as
it lists that (`Index.applicableTo_add_times`). Over any bindings that list no declaration twice, what may
apply to a declaration is a filter of all of them (`Index.addAll_is_filter`).
-/

import Generics.Proofs.Resolving

namespace Generics.Binding.Index

variable {β : Type} {ix : Index β} {b : β}

/-! ### Adding one binding -/

/-- How often a binding is added for a declaration: as often as it lists that, and once if it applies to every
declaration. -/
def times (decl : String) : Option (List String) → Nat
  | none => 1
  | some decls => decls.count decl

/-- Looking up in a changed table finds the changed entry. -/
theorem lookup_map (f : List β → List β) (decl : String) (table : List (String × List β)) :
    (table.map fun entry => (entry.1, f entry.2)).lookup decl = (table.lookup decl).map f := by
  induction table with
  | nil => rfl
  | cons entry rest ih =>
    rw [List.map_cons, lookup_cons, lookup_cons, ih]
    split <;> rfl

/-- A binding that is added for a declaration is the last one for it. -/
theorem applicableTo_addFor_self (decl : String) :
    (ix.addFor b decl).applicableTo decl = ix.applicableTo decl ++ [b] := by
  have hlookup : (ix.addFor b decl).byDecl.lookup decl = some (ix.applicableTo decl ++ [b]) :=
    (lookup_setEntry _ _ _).trans (if_pos rfl)
  rw [applicableTo, hlookup, Option.getD_some]

/-- A binding that is added for declarations is added for each as often as it is among them. -/
theorem applicableTo_foldl_addFor (decl : String) (decls : List String) :
    (decls.foldl (addFor b) ix).applicableTo decl =
      ix.applicableTo decl ++ List.replicate (decls.count decl) b := by
  induction decls generalizing ix with
  | nil => simp
  | cons d ds ih =>
    rw [List.foldl_cons, ih]
    by_cases h : d = decl
    · subst h
      rw [applicableTo_addFor_self, List.count_cons_self, List.append_assoc, List.replicate_succ]
      rfl
    · rw [applicableTo_addFor (Ne.symm h), List.count_cons_of_ne h]

/-- Adding a binding for declarations leaves the list of all bindings. -/
theorem all_foldl_addFor (decls : List String) : (decls.foldl (addFor b) ix).all = ix.all := by
  induction decls generalizing ix with
  | nil => rfl
  | cons d ds ih => exact ih

/-- An added binding is the last of all. -/
theorem all_add (decls : Option (List String)) : (ix.add b decls).all = ix.all ++ [b] := by
  cases decls with
  | none => rfl
  | some decls => exact all_foldl_addFor decls

/-- **A binding comes after those that may apply to a declaration, as often as it lists that**, whatever was
added before. -/
theorem applicableTo_add_times (decl : String) (decls : Option (List String)) :
    (ix.add b decls).applicableTo decl =
      ix.applicableTo decl ++ List.replicate (times decl decls) b := by
  cases decls with
  | some decls => exact applicableTo_foldl_addFor decl decls
  | none =>
    -- whether or not there is a list for the declaration, the binding comes to its end
    rw [add, applicableTo, lookup_map (· ++ [b]), applicableTo]
    cases ix.byDecl.lookup decl <;> rfl

/-! ### Adding bindings one after the other -/

/-- The index with bindings added in order, each for the declarations it applies to. -/
def addAll (applicable : β → Option (List String)) (ix : Index β) (bs : List β) : Index β :=
  bs.foldl (fun ix b => ix.add b (applicable b)) ix

variable {applicable : β → Option (List String)}

/-- Added bindings are listed in order. -/
theorem all_addAll (bs : List β) : (addAll applicable ix bs).all = ix.all ++ bs := by
  induction bs generalizing ix with
  | nil => exact (List.append_nil _).symm
  | cons b bs ih => rw [addAll, List.foldl_cons, ← addAll, ih, all_add, List.append_assoc, List.singleton_append]

/-- **What may apply to a declaration after some bindings were added**, each as often as it lists that. -/
theorem applicableTo_addAll (decl : String) (bs : List β) :
    (addAll applicable ix bs).applicableTo decl =
      ix.applicableTo decl ++ bs.flatMap fun b => List.replicate (times decl (applicable b)) b := by
  induction bs generalizing ix with
  | nil => exact (List.append_nil _).symm
  | cons b bs ih =>
    rw [addAll, List.foldl_cons, ← addAll, ih, applicableTo_add_times, List.append_assoc, List.flatMap_cons]

/-- Of lists without repetitions those count that have the declaration. -/
theorem times_of_nodup {decls : Option (List String)} (h : ∀ ds ∈ decls, ds.Nodup) (decl : String) :
    times decl decls = if decls.all (·.contains decl) then 1 else 0 := by
  cases decls with
  | none => rfl
  | some ds => simp [times, (h ds rfl).count]

/-- Without repetitions a binding stands once for each declaration it applies to. -/
theorem flatMap_times {bs : List β} (h : ∀ b ∈ bs, ∀ ds ∈ applicable b, ds.Nodup) (decl : String) :
    (bs.flatMap fun b => List.replicate (times decl (applicable b)) b) =
      bs.filter fun b => (applicable b).all (·.contains decl) := by
  induction bs with
  | nil => rfl
  | cons b bs ih =>
    obtain ⟨hb, hbs⟩ := List.forall_mem_cons.1 h
    rw [List.flatMap_cons, ih hbs, List.filter_cons, times_of_nodup hb]
    split <;> rfl

/-- **An index is a faithful filter of its bindings.** After any bindings were added to an empty index, each of
them for every declaration or for a list of declarations without repetitions, possibly an empty one, it has
them all in order. The bindings that may apply to a declaration are those among them that apply to every
declaration or list that one, in the same order and as often as they were added. -/
theorem addAll_is_filter (applicable : β → Option (List String)) (bs : List β)
    (h : ∀ b ∈ bs, ∀ decls ∈ applicable b, decls.Nodup) :
    (addAll applicable {} bs).all = bs ∧ (addAll applicable {} bs).size = bs.length ∧
      ∀ decl, (addAll applicable {} bs).applicableTo decl =
        bs.filter fun b => (applicable b).all (·.contains decl) := by
  have hall : (addAll applicable {} bs).all = bs := all_addAll bs
  refine ⟨hall, congrArg List.length hall, fun decl => ?_⟩
  rw [applicableTo_addAll, flatMap_times h]
  rfl

/-- Bindings for lists, for anything, for lists and maps, and for nothing are added, the one for anything
twice. -/
theorem addAll_is_filter_interleaved :
    let applicable (b : String) : Option (List String) :=
      if b = "any" then none else if b = "both" then some ["List", "Map"]
        else if b = "list" then some ["List"] else some []
    let bs := ["list", "any", "both", "none", "any", "list"]
    (∀ b ∈ bs, ∀ decls ∈ applicable b, decls.Nodup) ∧
      (addAll applicable {} bs).size = 6 ∧
        (addAll applicable {} bs).applicableTo "List" = ["list", "any", "both", "any", "list"] ∧
          (addAll applicable {} bs).applicableTo "Map" = ["any", "both", "any"] ∧
            (addAll applicable {} bs).applicableTo "Set" = ["any", "any"] := by
  intro applicable bs
  have hbs : ∀ b ∈ bs, ∀ decls ∈ applicable b, decls.Nodup := by decide
  obtain ⟨-, hsize, hfilter⟩ := addAll_is_filter applicable bs hbs
  exact ⟨hbs, hsize, hfilter "List", hfilter "Map", hfilter "Set"⟩

end Generics.Binding.Index
