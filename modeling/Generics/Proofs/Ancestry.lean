/-
# Ancestors, asked for and listed

A declaration is asked for its ancestors in two ways. The test whether it inherits from another one walks up
the supertypes that were learnt, with the top declaration in the place of none, and what it found is
remembered. The list of all ancestors is walked together from the supertypes that are listed in the catalog,
and the top declaration is added at the end.

Both walks come to all that is reached and to nothing else, also where inheritance has cycles: the test says
yes of exactly the ancestors, at any time of a session, and the way up goes through the first direct
supertype from which the ancestor is reached (`Session.inherits_exactly`); the list has exactly the
ancestors, each once and in order (`Catalog.ancestors_spec`). In a registry nothing is listed above the top
declaration, so the two agree on every other declaration (`Session.ancestors_agree`).
-/

import Generics.Catalog.Ancestors
import Generics.Proofs.Climbing
import Mathlib.Data.List.Sort
import Mathlib.Data.String.Basic

namespace Generics

/-! ### The test -/

namespace Setting

variable {s : Setting}

/-- Declarations that can be read and list each other only can be read as far as one goes up from them. -/
theorem readable_of_closed (names : List String)
    (h : ∀ d ∈ names, (s.lineageOf d).any fun l => l.parents.all fun n => names.contains n.decl) :
    ∀ d ∈ names, s.Readable d := by
  have hstep : ∀ d ∈ names, ∃ l, s.lineageOf d = some l ∧ ∀ n ∈ l.parents, n.decl ∈ names := fun d hd => by
    simpa [Option.any_eq_true] using h d hd
  intro d hd e he
  suffices e ∈ names by
    obtain ⟨l, hl, -⟩ := hstep e this
    exact Option.isSome_of_eq_some hl
  induction he with
  | refl => exact hd
  | tail _ hup ih =>
    obtain ⟨l, hl, n, hn, rfl⟩ := hup
    obtain ⟨l', hl', hparents⟩ := hstep _ ih
    rw [hl] at hl'
    cases hl'
    exact hparents n hn

end Setting

namespace Session

open Classical in
/-- **The test for ancestors is exact, whatever was asked before.** In a session that starts with nothing
remembered, where the top declaration is declared at the start or never, let any acts have happened, and let
every declaration that is reached from the given one be readable now. Then the test answers, and its answer is
yes for the declaration itself, for the top declaration, and for what is reached by going to direct supertypes,
the top declaration being the one of a declaration that lists none. The way up to another declaration goes
through the first direct supertype from which that is reached in any number of steps. -/
theorem inherits_exactly [Alphabet] (c : Catalog) (acts : List Act)
    (h : c.has objectName = true ∨ ∀ act ∈ acts, act.declares objectName = false)
    (options : Options) (depth : Nat) (decl : String) :
    let x := run ⟨c, {}⟩ acts
    let s : Setting := ⟨x.catalog, options, depth⟩
    s.Readable decl → ∃ l, s.lineageOf decl = some l ∧ ∀ ancestor,
      ((s.inherits decl ancestor).outcome x.memory).1 =
          .ok (decide (decl = ancestor ∨ ancestor = objectName ∨ Relation.TransGen s.Parent decl ancestor)) ∧
        ((s.leadsTo? decl ancestor).outcome x.memory).1 =
          .ok (l.parents.find? fun n => decide (Relation.ReflTransGen s.Parent n.decl ancestor)) := by
  intro x s hread
  have hx : x.memory.Faithful s := faithful_run (Memory.faithful_empty _) h
  obtain ⟨l, hl⟩ := Option.isSome_iff_exists.1 (hread decl .refl)
  exact ⟨l, hl, fun ancestor => ⟨(Setting.inherits_settles hread ancestor x.memory hx).1,
    (Setting.leadsTo?_settles_find hread ancestor hl x.memory hx).1⟩⟩

/-- Nodes are trees and items, trees are nodes, and texts cannot be looked up. After nodes were compared with
trees and texts with nodes, a node is an item by way of the tree, and it is no text. -/
theorem inherits_exactly_trees :
    let _ := Alphabet.ascii
    let c : Catalog := {
      decls := [⟨"Item", [], []⟩, ⟨"Node", [], [.raw "Tree", .raw "Item"]⟩, ⟨"Tree", [], [.raw "Node"]⟩,
        ⟨"Text", [], []⟩]
      faults := [⟨"Text", .parents, "offline"⟩] }
    let node : Ty := .nominal ⟨.given 0, [0]⟩ "Node" []
    let tree : Ty := .nominal ⟨.given 0, [1]⟩ "Tree" []
    let text : Ty := .nominal ⟨.given 0, [2]⟩ "Text" []
    let acts : List Act := [.ask {} 9 (.below node tree), .ask {} 9 (.below text node)]
    let x := run ⟨c, {}⟩ acts
    let s : Setting := ⟨x.catalog, {}, 9⟩
    (x.memory.routes.map fun r => (r.decl, r.ancestor)) = [("Node", "Tree")] ∧ s.Readable "Node" ∧
      ((s.leadsTo? "Node" "Item").outcome x.memory).1 = .ok (some (.raw "Tree")) ∧
        Relation.TransGen s.Parent "Node" "Item" ∧ ¬ Relation.TransGen s.Parent "Node" "Text" := by
  intro _ c node tree text acts x s
  have hacts : ∀ act ∈ acts, act.declares objectName = false := by simp [acts, Act.declares]
  have hread : s.Readable "Node" :=
    Setting.readable_of_closed ["Node", "Tree", "Item", objectName] (by decide +kernel) "Node" (by simp)
  obtain ⟨l, -, hexact⟩ := inherits_exactly c acts (.inr hacts) {} 9 "Node" hread
  obtain ⟨hroutes, hleads, hitem, htext⟩ :
      (x.memory.routes.map fun r => (r.decl, r.ancestor)) = [("Node", "Tree")] ∧
        ((s.leadsTo? "Node" "Item").outcome x.memory).1 = .ok (some (.raw "Tree")) ∧
          ((s.inherits "Node" "Item").outcome x.memory).1 = .ok true ∧
            ((s.inherits "Node" "Text").outcome x.memory).1 = .ok false := by decide +kernel
  have hitem := (hexact "Item").1.symm.trans hitem
  have htext := (hexact "Text").1.symm.trans htext
  simp only [Except.ok.injEq, decide_eq_true_eq, decide_eq_false_iff_not] at hitem htext
  exact ⟨hroutes, hread, hleads, (hitem.resolve_left (by decide)).resolve_left (by decide),
    fun h => htext (.inr (.inr h))⟩

end Session

/-! ### The list -/

namespace Catalog

variable {c : Catalog} {name parent : String}

/-- The second declaration is among the supertypes that the first one lists. -/
def Lists (c : Catalog) (name parent : String) : Prop :=
  ∃ d, c.find? name = some d ∧ ∃ n ∈ d.parents, n.decl = parent

/-- Whatever is listed as a supertype is declared. -/
def Closed (c : Catalog) : Prop := ∀ name parent, c.Lists name parent → c.has parent = true

/-- Getting a declaration by name finds what the catalog has under it. -/
theorem get_eq_ok {d : Declaration} : c.get name = .ok d ↔ c.find? name = some d := by
  rw [get]
  cases c.find? name <;> simp

/-- A declared name can be got. -/
theorem get_of_has (h : c.has name = true) : ∃ d, c.get name = .ok d := by
  obtain ⟨d, hd⟩ := Option.isSome_iff_exists.1 h
  exact ⟨d, get_eq_ok.2 hd⟩

/-- The parents that a declaration lists are those of its supertypes. -/
theorem lists_iff {d : Declaration} (hd : c.get name = .ok d) :
    c.Lists name parent ↔ parent ∈ d.parents.map Nominal.decl := by
  simp [Lists, get_eq_ok.1 hd]

/-- A walk has entered the names that are declared and do not remain. -/
def Entered (c : Catalog) (remaining : List String) (name : String) : Prop :=
  c.has name = true ∧ name ∉ remaining

section Entering

variable {remaining : List String} {entering : String}

/-- What was entered stays so. -/
theorem Entered.later (h : c.Entered remaining name) : c.Entered (without remaining entering) name :=
  ⟨h.1, fun hname => h.2 (List.mem_filter.1 hname).1⟩

/-- By entering a name no other one is entered. -/
theorem Entered.earlier (h : c.Entered (without remaining entering) name) :
    name = entering ∨ c.Entered remaining name :=
  (eq_or_ne name entering).imp_right fun hne =>
    ⟨h.1, fun hname => h.2 (List.mem_filter.2 ⟨hname, by simpa using hne⟩)⟩

end Entering

/-- A value that was mapped is the image of a value. -/
theorem map_eq_ok {ε α β : Type} {x : Except ε α} {f : α → β} {b : β} :
    x.map f = .ok b ↔ ∃ a, x = .ok a ∧ f a = b := by
  cases x <;> simp [Except.map]

/-- **A walk among declarations that list each other only does not fail.** -/
theorem met_total (hc : c.Closed) (remaining : List String) {stack : List String}
    (hstack : ∀ d ∈ stack, c.has d = true) : ∃ found, c.met remaining stack = .ok found := by
  fun_induction c.met remaining stack with
  | case1 | case4 => exact ⟨_, rfl⟩
  | case2 remaining stack name rest hdrop f hget =>
    have hname : name ∈ stack := (List.dropWhile_sublist _).subset (hdrop ▸ List.mem_cons_self)
    obtain ⟨d, hd⟩ := get_of_has (hstack name hname)
    cases hget.symm.trans hd
  | case3 remaining stack name rest hdrop d hd hmem parents =>
    rename_i ih
    have hsub : ∀ e ∈ name :: rest, e ∈ stack := fun e he =>
      (List.dropWhile_sublist _).subset (hdrop ▸ he)
    obtain ⟨more, hmore⟩ := ih fun e he => by
      rcases List.mem_append.1 he with he | he
      · exact hc name e ((lists_iff hd).2 (List.mem_reverse.1 he))
      · exact hstack e (hsub e (List.mem_cons_of_mem _ he))
    exact ⟨_, map_eq_ok.2 ⟨more, hmore, rfl⟩⟩

/-- **Only what is reached is met.** -/
theorem met_sound {remaining stack found : List String} (h : c.met remaining stack = .ok found) :
    ∀ e ∈ found, ∃ d ∈ stack, Relation.TransGen c.Lists d e := by
  fun_induction c.met remaining stack generalizing found with
  | case1 | case4 =>
    cases h
    simp
  | case2 => cases h
  | case3 remaining stack name rest hdrop d hd hmem parents =>
    rename_i ih
    have hsub : ∀ e ∈ name :: rest, e ∈ stack := fun e he =>
      (List.dropWhile_sublist _).subset (hdrop ▸ he)
    obtain ⟨more, hmore, rfl⟩ := map_eq_ok.1 h
    have hname := hsub name List.mem_cons_self
    intro e he
    rcases List.mem_append.1 he with he | he
    · exact ⟨name, hname, .single ((lists_iff hd).2 he)⟩
    · obtain ⟨d', hd', hreach⟩ := ih hmore e he
      rcases List.mem_append.1 hd' with hd' | hd'
      · exact ⟨name, hname, .head ((lists_iff hd).2 (List.mem_reverse.1 hd')) hreach⟩
      · exact ⟨d', hsub d' (List.mem_cons_of_mem _ hd'), hreach⟩

/-- **What is reached was entered before, or all that it lists is met**, as long as the supertypes of what was
entered are stacked or entered. -/
theorem met_complete {remaining stack found : List String} (h : c.met remaining stack = .ok found)
    (hentered : ∀ d, c.Entered remaining d → ∀ p, c.Lists d p → p ∈ stack ∨ c.Entered remaining p)
    {d e : String} (hd : d ∈ stack ∨ c.Entered remaining d) (hreach : Relation.ReflTransGen c.Lists d e) :
    c.Entered remaining e ∨ ∀ p, c.Lists e p → p ∈ found := by
  have hskipped : ∀ {remaining stack rest : List String},
      stack.dropWhile (fun name => c.has name && !remaining.contains name) = rest →
        ∀ e ∈ stack, e ∈ rest ∨ c.Entered remaining e := fun hdrop e he => by
    simpa [Entered] using Setting.mem_of_dropWhile_eq hdrop he
  fun_induction c.met remaining stack generalizing found d with
  | case1 remaining stack hdrop =>
    -- everything stacked was entered before, so what was entered is closed under supertypes
    have hin : ∀ {x}, x ∈ stack ∨ c.Entered remaining x → c.Entered remaining x := fun hx =>
      hx.elim (fun hx => (hskipped hdrop _ hx).resolve_left List.not_mem_nil) id
    exact .inl (hreach.rec (hin hd) fun _ hup ih => hin (hentered _ ih _ hup))
  | case2 => cases h
  | case3 remaining stack name rest hdrop decl hdecl hmem parents =>
    rename_i ih
    obtain ⟨more, hmore, rfl⟩ := map_eq_ok.1 h
    have hhas : c.has name = true := Option.isSome_of_eq_some (get_eq_ok.1 hdecl)
    have hkept : ∀ {x}, x ∈ stack ∨ c.Entered remaining x →
        x ∈ (decl.parents.map Nominal.decl).reverse ++ rest ∨ c.Entered (without remaining name) x := by
      rintro x (hx | hx)
      · rcases hskipped hdrop x hx with hx | hx
        · rcases List.mem_cons.1 hx with rfl | hx
          · exact .inr ⟨hhas, by simp [without]⟩
          · exact .inl (List.mem_append_right _ hx)
        · exact .inr hx.later
      · exact .inr hx.later
    have hlisted : ∀ x, c.Entered (without remaining name) x → ∀ p, c.Lists x p →
        p ∈ (decl.parents.map Nominal.decl).reverse ++ rest ∨ c.Entered (without remaining name) p := by
      intro x hx p hp
      rcases hx.earlier with rfl | hx
      · exact .inl (List.mem_append_left _ (List.mem_reverse.2 ((lists_iff hdecl).1 hp)))
      · exact hkept (hentered x hx p hp)
    rcases ih hmore hlisted (hkept hd) hreach with he | he
    · rcases he.earlier with rfl | he
      · exact .inr fun p hp => List.mem_append_left _ ((lists_iff hdecl).1 hp)
      · exact .inl he
    · exact .inr fun p hp => List.mem_append_right _ (he p hp)
  | case4 remaining stack name rest hdrop decl hdecl hmem =>
    have hhead := List.head?_dropWhile_not (fun name => c.has name && !remaining.contains name) stack
    rw [hdrop] at hhead
    have hhas : c.has name = true := Option.isSome_of_eq_some (get_eq_ok.1 hdecl)
    simp [hhas, hmem] at hhead

/-- What is relied on of a way to free ascending lists of their repetitions: what is left of such a list has
the same members, and is strictly ascending. -/
structure Thins (unique : List String → List String) : Prop where
  mem : ∀ {names : List String}, names.Pairwise (· ≤ ·) → ∀ e, e ∈ unique names ↔ e ∈ names
  sorted : ∀ {names : List String}, names.Pairwise (· ≤ ·) → (unique names).Pairwise (· < ·)

/-- Leaving out what is repeated leaves out no member. -/
theorem mem_distinct {e : String} (names : List String) : e ∈ distinct names ↔ e ∈ names := by
  fun_induction distinct names with
  | case1 name rest ih => simpa using ih
  | case2 name next rest hne ih => rw [List.mem_cons, ih, List.mem_cons (a := e) (b := name)]
  | case3 => rfl

/-- Without its repetitions an ascending list is strictly ascending. -/
theorem pairwise_distinct {names : List String} (h : names.Pairwise (· ≤ ·)) :
    (distinct names).Pairwise (· < ·) := by
  fun_induction distinct names with
  | case1 name rest ih => exact ih (List.pairwise_cons.1 h).2
  | case2 name next rest hne ih =>
    obtain ⟨hle, hrest⟩ := List.pairwise_cons.1 h
    refine List.pairwise_cons.2 ⟨fun e he => ?_, ih hrest⟩
    have hnext : name < next := lt_of_le_of_ne (hle next List.mem_cons_self) hne
    rcases List.mem_cons.1 ((mem_distinct _).1 he) with rfl | he
    · exact hnext
    · exact hnext.trans_le ((List.pairwise_cons.1 hrest).1 e he)
  | case3 names hshort =>
    match names, hshort with
    | [], _ => exact .nil
    | [name], _ => exact List.pairwise_singleton _ _
    | name :: next :: rest, hshort => exact (hshort name next rest rfl).elim

/-- Leaving out names that the next one repeats does what is relied upon. -/
theorem thins_distinct : Thins distinct := ⟨fun _ _ => mem_distinct _, pairwise_distinct⟩

/-- **The list has exactly the ancestors**, each once and in order. -/
theorem ancestors_spec {unique : List String → List String} (hunique : Thins unique) (hc : c.Closed)
    (h : c.has name = true) : ∃ found, c.ancestors name unique = .ok found ∧ found.Pairwise (· < ·) ∧ ∀ e, e ∈ found ↔
      Relation.TransGen c.Lists name e ∨ e = objectName ∧ name ≠ objectName := by
  obtain ⟨d, hd⟩ := get_of_has h
  have hstack : ∀ d ∈ [name], c.has d = true := fun d hd => by rwa [List.mem_singleton.1 hd]
  obtain ⟨found, hfound⟩ := met_total hc (c.decls.map Declaration.name) hstack
  have hsorted : ((found ++ if name = objectName then [] else [objectName]).mergeSort (· ≤ ·)).Pairwise
      (· ≤ ·) := List.pairwise_mergeSort' (· ≤ ·) _
  refine ⟨_, ?_, hunique.sorted hsorted, fun e => ?_⟩
  · simp only [ancestors, hd, hfound, Except.map]
  · -- at the start nothing was entered
    have hstart : ∀ d, ¬ c.Entered (c.decls.map Declaration.name) d := fun d hd => hd.2 (has_iff.1 hd.1)
    have hmet : e ∈ found ↔ Relation.TransGen c.Lists name e := by
      constructor
      · intro he
        obtain ⟨d, hd, hreach⟩ := met_sound hfound e he
        rwa [List.mem_singleton.1 hd] at hreach
      · intro hreach
        obtain ⟨d, hd, hlast⟩ := Relation.TransGen.tail'_iff.1 hreach
        exact (met_complete hfound (fun d hd => absurd hd (hstart d)) (.inl List.mem_cons_self) hd).resolve_left
          (hstart d) e hlast
    rw [hunique.mem hsorted, (List.mergeSort_perm _ _).mem_iff, List.mem_append, hmet]
    by_cases hname : name = objectName <;> simp [hname]

/-- In a registry with the top declaration, whatever is listed as a supertype is declared. -/
theorem SelfContained.closed (hc : c.SelfContained) (hobject : c.has objectName = true) : c.Closed := by
  rintro name _ ⟨d, hd, n, hn, rfl⟩
  rcases ((hc.registered d (List.mem_of_find?_eq_some hd)).parents n hn).1.decl with h | h
  · rwa [h]
  · exact h

end Catalog

/-! ### The test and the list -/

namespace Setting

variable {s : Setting} {decl parent : String}

/-- Only the top declaration is a direct supertype that need not be listed. -/
theorem Parent.lists (h : s.Parent decl parent) (hne : parent ≠ objectName) :
    s.catalog.Lists decl parent := by
  obtain ⟨l, hl, n, hn, rfl⟩ := h
  unfold lineageOf at hl
  split at hl
  · split at hl
    · cases hl
      cases hn
    · cases hl
  · next d hd =>
    split at hl
    · cases hl
    · cases hl
      dsimp only at hn
      split at hn
      · exact absurd (congrArg Nominal.decl (List.mem_singleton.1 hn)) hne
      · exact ⟨d, hd, n, hn, rfl⟩

/-- What a declaration lists is one of its direct supertypes. -/
theorem parent_of_lists (hfaults : s.catalog.faults = []) (h : s.catalog.Lists decl parent) :
    s.Parent decl parent := by
  obtain ⟨d, hd, n, hn, rfl⟩ := h
  have hparents : d.parents.isEmpty = false := List.isEmpty_eq_false_iff.2 (List.ne_nil_of_mem hn)
  exact ⟨⟨decl, d.vars, d.parents⟩, by simp [lineageOf, hd, Catalog.fault?, hfaults, hparents], n, hn, rfl⟩

/-- **Going up through supertypes that are listed comes to the same declarations**, the top one apart, where
nothing is above that. -/
theorem transGen_lists_iff (hfaults : s.catalog.faults = []) (ho : s.PlainObject) (hne : parent ≠ objectName) :
    Relation.TransGen s.catalog.Lists decl parent ↔ Relation.TransGen s.Parent decl parent := by
  refine ⟨fun h => h.lift id fun _ _ => parent_of_lists hfaults, fun h => ?_⟩
  induction h using Relation.TransGen.head_induction_on with
  | single h => exact .single (h.lists hne)
  | head hup hreach ih =>
    refine .head (hup.lists ?_) ih
    rintro rfl
    obtain ⟨e, hup, -⟩ := Relation.TransGen.head'_iff.1 hreach
    exact ho.no_parent hup

end Setting

namespace Session

variable {x : Session}

/-- No run of the registry changes what was declared under a name. -/
theorem find?_run [Alphabet] {name : String} {d : Declaration} (h : x.catalog.find? name = some d) (acts : List Act) :
    (x.run acts).catalog.find? name = some d := by
  induction acts generalizing x with
  | nil => exact h
  | cons act acts ih => exact ih (Catalog.find?_after h)

/-- **The list of ancestors and the test for them agree.** In a session that starts from the standard catalog
let definitions be declared, successfully or not, and questions be asked, of any kind, and let ascending lists
be freed of their repetitions. Then for every registered name there is the list of its ancestors, strictly
ascending. In it are exactly the declarations that are
reached by going to listed supertypes one or more times, and the top declaration, unless one starts there. Of
every other declaration the test for ancestors says that it is one just where it is in the list. -/
theorem ancestors_agree [Alphabet] {unique : List String → List String} (hunique : Catalog.Thins unique)
    (acts : List Act) (hacts : ∀ act ∈ acts, ∀ d, act ≠ .reveal d) (name : String) :
    let x := run ⟨.standard, {}⟩ acts
    x.catalog.has name = true → ∃ found, x.catalog.ancestors name unique = .ok found ∧
      found.Pairwise (· < ·) ∧
      (∀ e, e ∈ found ↔ Relation.TransGen x.catalog.Lists name e ∨ e = objectName ∧ name ≠ objectName) ∧
      ∀ options depth e, e ≠ name →
        ((Setting.inherits ⟨x.catalog, options, depth⟩ name e).outcome x.memory).1 =
          .ok (decide (e ∈ found)) := by
  intro x hname
  have hx : x.OverRegistry := OverRegistry.run ⟨Catalog.SelfContained.standard, Memory.confined_empty _⟩ hacts
  have hobject : x.catalog.find? objectName = some ⟨objectName, [], []⟩ :=
    find?_run Catalog.Grown.standard.find?_object acts
  have hfaults := hx.catalog.orderly.faults
  obtain ⟨found, hfound, hsorted, hmem⟩ :=
    Catalog.ancestors_spec hunique (hx.catalog.closed (Option.isSome_of_eq_some hobject)) hname
  refine ⟨found, hfound, hsorted, hmem, fun options depth e hne => ?_⟩
  have hfaithful : x.memory.Faithful ⟨x.catalog, options, depth⟩ := faithful_run (Memory.faithful_empty _)
    (.inl (Option.isSome_of_eq_some Catalog.Grown.standard.find?_object))
  have hread : Setting.Readable ⟨x.catalog, options, depth⟩ name := hx.catalog.parentsKnown.readable
    (Option.isSome_iff_ne_none.2 (hx.catalog.lineageOf_ne_none (.inr hname)))
  have ho : Setting.PlainObject ⟨x.catalog, options, depth⟩ := by
    simp [Setting.PlainObject, Setting.lineageOf, hobject, Catalog.fault?, hfaults, Declaration.vars]
  rw [(Setting.inherits_settles hread e x.memory hfaithful).1]
  refine congrArg Except.ok (decide_eq_decide.2 ?_)
  rw [hmem]
  by_cases he : e = objectName
  · subst he
    simp [hne.symm]
  · simp only [he, hne.symm, false_or, false_and, or_false]
    exact (Setting.transGen_lists_iff hfaults ho he).symm

/-- `A` and `B` extend each other, `A` extends lists too, and it cannot be declared again. When it was asked
whether `A` is below `B`, the ancestors of `A` are listed, itself among them, and the test agrees. -/
theorem ancestors_agree_cycle :
    let _ := Alphabet.ascii
    let a : Ty := .nominal ⟨.given 0, [0]⟩ "A" []
    let b : Ty := .nominal ⟨.given 0, [1]⟩ "B" []
    let acts : List Act := [
      .declare [{ name := "A", parents := ["B", "List<String>"] }, { name := "B", parents := ["A"] }],
      .declare [{ name := "A" }], .ask {} 9 (.below a b)]
    let x := run ⟨.standard, {}⟩ acts
    let found := ["A", "B", "Collection", "Iterable", "List", "Object"]
    x.catalog.ancestors "A" = .ok found ∧ x.memory.routes.length = 1 ∧ ∀ e, e ≠ "A" →
      ((Setting.inherits ⟨x.catalog, {}, 9⟩ "A" e).outcome x.memory).1 = .ok (decide (e ∈ found)) := by
  intro _ a b acts x found
  have hacts : ∀ act ∈ acts, ∀ d, act ≠ .reveal d := by simp [acts]
  obtain ⟨hhas, hmet, hroutes⟩ : x.catalog.has "A" = true ∧
      x.catalog.met (x.catalog.decls.map Declaration.name) ["A"] =
        .ok ["B", "List", "Collection", "Iterable", "A"] ∧ x.memory.routes.length = 1 := by decide +kernel
  have hancestors : x.catalog.ancestors "A" = .ok found := by
    obtain ⟨d, hd⟩ := Catalog.get_of_has hhas
    simp [Catalog.ancestors, hd, hmet, Except.map, objectName, List.mergeSort,
      List.MergeSort.Internal.splitInTwo, Catalog.distinct, found]
  obtain ⟨found', hfound, -, -, hagree⟩ := ancestors_agree Catalog.thins_distinct acts hacts "A" hhas
  cases hancestors.symm.trans hfound
  exact ⟨hancestors, hroutes, hagree {} 9⟩

end Session
end Generics
