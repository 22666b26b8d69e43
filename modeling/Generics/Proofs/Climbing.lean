/-
# Where ways up end

Declaring turns down a declaration that extends itself, and lets two pass that extend each other. The
search for an ancestor notes where it was, so it ends in every registry. To see an applied declaration as
the ancestor is to follow the way that was found, and on the way nothing is noted: at each declaration it
goes on to the first direct supertype from which the ancestor is reached, also if that leads back
(`Setting.Heads`).

In a registry whose supertypes have the right numbers of arguments, following the way has one of three
ends (`Setting.seenAs_ends`). Without an ancestor there is nothing to be seen; where the way comes to the
ancestor, that is what is seen; and where it does not, it is followed for ever. The order in which
supertypes are listed decides between the last two: `Item` is seen from `Node` if `Node` extends `Item`
and `Tree`, and is not if it extends `Tree` and `Item`, where `Tree` extends `Node`
(`Setting.seenAs_endless`).
-/

import Generics.Proofs.Registries

namespace Generics

/-- A catalog that declaring has brought forth, over any alphabets. -/
inductive Catalog.Declared : Catalog → Prop
  | empty : Declared {}
  | declare [Alphabet] {c c' : Catalog} {defs : List Definition} :
    Declared c → c.declare defs = .ok c' → Declared c'

namespace Catalog

variable {c : Catalog}

/-- Catalogs brought forth by declaring are self-contained. -/
theorem Declared.selfContained (h : c.Declared) : c.SelfContained := by
  induction h with
  | empty => exact .empty
  | declare _ hdeclare ih => exact ih.declare hdeclare

/-- Grown catalogs were brought forth by declaring. -/
theorem Grown.declared (h : c.Grown) : c.Declared := by
  induction h with
  | standard =>
    let _ := Alphabet.ascii
    exact .declare .empty standard_eq
  | declare _ hdeclare ih => exact .declare ih hdeclare

end Catalog

namespace Setting

open Query

variable {s : Setting} {m : Memory} {n : Nominal} {ancestor decl : String}

instance (s : Setting) (decl : String) (count : Nat) : Decidable (s.Applies decl count) :=
  decidable_of_iff (∃ l ∈ s.lineageOf decl, count = 0 ∨ count = l.params.length) (by simp [Applies])

/-- The second declaration is an ancestor of the first one, which it also is if it is the same one or the
top declaration. -/
def Ancestor (s : Setting) (decl ancestor : String) : Prop :=
  decl = ancestor ∨ ancestor = objectName ∨ Relation.TransGen s.Parent decl ancestor

/-- The way up from the declaration comes to the ancestor; to the top declaration none has to be taken. -/
def ComesTo (s : Setting) (decl ancestor : String) : Prop :=
  ancestor = objectName ∨ Relation.ReflTransGen (s.Heads ancestor) decl ancestor

/-- A way leads up to every ancestor but the top declaration. -/
theorem Ancestor.reaches (h : s.Ancestor decl ancestor) (hne : ancestor ≠ objectName) :
    Relation.ReflTransGen s.Parent decl ancestor := by
  rcases h with rfl | h | h
  · exact .refl
  · exact absurd h hne
  · exact h.to_reflTransGen

/-- In a registry, supertypes fit their declarations if they have the right numbers of arguments. -/
theorem parentsFit_of_counts (hc : s.catalog.SelfContained)
    (hcounts : ∀ d ∈ s.catalog.decls, ∀ p ∈ d.parents, s.Applies p.decl p.args.length) :
    s.ParentsFit := by
  intro decl l hl p hp
  unfold lineageOf at hl
  split at hl
  · split at hl
    · cases hl
      cases hp
    · cases hl
  · next d hfind =>
    have hd := List.mem_of_find?_eq_some hfind
    split at hl
    · cases hl
    · cases hl
      dsimp only at hp
      split at hp
      · obtain ⟨l, hl⟩ := Option.ne_none_iff_exists'.1 (hc.lineageOf_ne_none (.inl rfl))
        rw [List.mem_singleton.1 hp]
        exact fits_nil hl
      · have hwild := ((hc.registered d hd).parents p hp).2.2
        rw [Nominal.hasWild, List.any_eq_false] at hwild
        exact ⟨hcounts d hd p hp, fun a ha => by simpa using hwild a ha⟩

/-- Seen as the top declaration, any declaration is that. -/
theorem seenAs_object {l : Lineage} (hl : s.lineageOf n.decl = some l) (hm : m.Faithful s) :
    ∃ m', (s.seenAs n objectName).Answers m (some .object) m' ∧ m'.Faithful s ∧ m.Learns m' := by
  obtain ⟨m', hanswers, hfaithful, hlearns⟩ := (lineage_settles_iff.2 hl).answers hm
  refine ⟨m', ?_, hfaithful, hlearns⟩
  rw [seenAs, if_pos rfl]
  exact answers_bind.2 ⟨l, m', hanswers, answers_pure.2 ⟨rfl, rfl⟩⟩

/-! ### Following the way -/

/-- What is seen is seen along the way. -/
theorem SeenAs.heads (hk : s.ParentsKnown) {args found : List Arg}
    (h : s.SeenAs ancestor decl args found) : Relation.ReflTransGen (s.Heads ancestor) decl ancestor := by
  induction h with
  | here => exact .refl
  | up hne hlead _ ih => exact .head (heads_of_leadsTo? hk hne hlead) ih

/-- An answer that is followed up to is the ancestor, and the way comes to it. -/
theorem climb_sound (hk : s.ParentsKnown) {steps : Nat} {n' : Nominal} {m' : Memory} (hm : m.Faithful s)
    (h : (s.climb ancestor steps n).Answers m (some n') m') :
    n'.decl = ancestor ∧ Relation.ReflTransGen (s.Heads ancestor) n.decl ancestor := by
  obtain ⟨-, -, hsome⟩ := climb_keeps (P := fun _ => True) (fun _ _ _ _ => trivial) hm trivial h
  obtain ⟨hdecl, -, hseen⟩ := hsome n' rfl
  exact ⟨hdecl, hseen.heads hk⟩

section Following

variable (hs : s.ParentsFit) (hm : m.Faithful s) (hfits : s.Fits n.decl n.args)
include hs hm hfits

/-- **Without an ancestor there is nothing to be seen.** -/
theorem climb_none (hup : ¬ Relation.ReflTransGen s.Parent n.decl ancestor) :
    ∃ m', (s.climb ancestor (s.catalog.decls.length + 1) n).Answers m none m' := by
  obtain ⟨r, m', h⟩ := climb_total hs ancestor hm hfits fun d hd hloop => by
    obtain ⟨e, hstep, -⟩ := Relation.TransGen.head'_iff.1 (hloop.trans_right hd)
    exact hup hstep.inherits.to_reflTransGen
  cases r with
  | none => exact ⟨m', h⟩
  | some n' => exact absurd (Heads.parents (climb_sound hs.known hm h).2) hup

/-- Where there is an ancestor and the way meets no declaration twice, it comes to the ancestor. -/
theorem climb_comes (hup : Relation.ReflTransGen s.Parent n.decl ancestor)
    (hway : ∀ d, Relation.ReflTransGen (s.Heads ancestor) n.decl d →
      ¬ Relation.TransGen (s.Heads ancestor) d d) :
    ∃ n' m', (s.climb ancestor (s.catalog.decls.length + 1) n).Answers m (some n') m' := by
  obtain ⟨r, m', h⟩ := climb_total hs ancestor hm hfits hway
  obtain ⟨n', rfl⟩ := climb_some hs.known hm hup h
  exact ⟨n', m', h⟩

/-- **A way that does not come to the ancestor goes on for ever.** -/
theorem climb_endless (hup : Relation.ReflTransGen s.Parent n.decl ancestor)
    (hway : ¬ Relation.ReflTransGen (s.Heads ancestor) n.decl ancestor) (steps : Nat) :
    ∃ m', (s.climb ancestor steps n).outcome m = (.error .exhausted, m') := by
  refine (climb_goes_on hs steps hm hfits).resolve_left ?_
  rintro ⟨r, m', h⟩
  obtain ⟨n', rfl⟩ := climb_some hs.known hm hup h
  exact hway (climb_sound hs.known hm h).2

end Following

/-- **How following the way up to an ancestor ends**, in a registry whose supertypes have the right
numbers of arguments. It ends with nothing exactly where there is no ancestor. Where there is one, it ends
with it if the way comes to it, and not after any number of steps otherwise; without cycles in inheritance
the way comes to every ancestor. -/
theorem seenAs_ends (hc : s.catalog.Declared)
    (hcounts : ∀ d ∈ s.catalog.decls, ∀ p ∈ d.parents, s.Applies p.decl p.args.length)
    (hfits : s.Fits n.decl n.args) (ancestor : String) (hm : m.Faithful s) :
    ((∃ m', (s.seenAs n ancestor).Answers m none m') ↔ ¬ s.Ancestor n.decl ancestor) ∧
      (s.Ancestor n.decl ancestor →
        (s.ComesTo n.decl ancestor →
          ∃ n' m', (s.seenAs n ancestor).Answers m (some n') m' ∧ n'.decl = ancestor) ∧
        (¬ s.ComesTo n.decl ancestor →
          ∀ steps, ∃ m', (s.climb ancestor steps n).outcome m = (.error .exhausted, m')) ∧
        (s.Acyclic → s.ComesTo n.decl ancestor)) := by
  have hs := parentsFit_of_counts hc.selfContained hcounts
  by_cases hobject : ancestor = objectName
  · subst hobject
    obtain ⟨l, hl, -⟩ := hfits.1
    obtain ⟨m', hseen, -⟩ := seenAs_object hl hm
    refine ⟨⟨?_, fun h => absurd (.inr (.inl rfl)) h⟩, fun _ =>
      ⟨fun _ => ⟨_, m', hseen, rfl⟩, fun h => absurd (.inl rfl) h, fun _ => .inl rfl⟩⟩
    rintro ⟨m₁, h⟩
    cases (h.unique hseen).1
  · rw [seenAs, if_neg hobject]
    refine ⟨⟨?_, fun h => ?_⟩, fun h => ⟨fun hcomes => ?_, fun hcomes => ?_, fun hacyc => ?_⟩⟩
    · rintro ⟨m', h⟩ hanc
      obtain ⟨n', hn'⟩ := climb_some hs.known hm (hanc.reaches hobject) h
      cases hn'
    · refine climb_none hs hm hfits fun hup => h ?_
      exact (Relation.reflTransGen_iff_eq_or_transGen.1 hup).imp Eq.symm .inr
    · have hway := hcomes.resolve_left hobject
      obtain ⟨n', m', h'⟩ := climb_comes hs hm hfits (h.reaches hobject) fun d => Heads.no_loop hway
      exact ⟨n', m', h', (climb_sound hs.known hm h').1⟩
    · exact climb_endless hs hm hfits (h.reaches hobject) fun hway => hcomes (.inr hway)
    · obtain ⟨n', m', h'⟩ := climb_comes hs hm hfits (h.reaches hobject) fun d _ =>
        hacyc.way ancestor d
      exact .inr (climb_sound hs.known hm h').2

/-- The declaration that the way up to the ancestor goes on to, found with nothing in memory. -/
def headOf (s : Setting) (ancestor decl : String) : Option String :=
  ((s.leadsTo? decl ancestor).outcome {}).1.toOption.join.map Nominal.decl

/-- What is found with nothing in memory is where the way up goes on. -/
theorem heads_of_headOf (hk : s.ParentsKnown) {next : String} (hne : decl ≠ ancestor)
    (h : s.headOf ancestor decl = some next) : s.Heads ancestor decl next := by
  obtain ⟨parent, hparent, rfl⟩ := Option.map_eq_some_iff.1 h
  obtain ⟨v, hv⟩ := leadsTo?_steady s decl ancestor
  rw [(hv {} (Memory.faithful_empty s)).1, Option.join_eq_some_iff] at hparent
  cases v with
  | error f => cases hparent
  | ok r =>
    cases hparent
    exact heads_of_leadsTo? hk hne hv

/-- Trees are nodes, and nodes are items and trees: a tree is seen as an item, by way of a node. -/
theorem seenAs_ends_tree :
    let c := Catalog.extended [
      { name := "Item", params := [{ name := "T" }] },
      { name := "Node", params := [{ name := "T" }], parents := ["Item<T>", "Tree<T>"] },
      { name := "Tree", params := [{ name := "T" }], parents := ["Node<T>"] }]
    let s : Setting := { catalog := c }
    let tree : Nominal :=
      ⟨⟨.given 0, [0]⟩, "Tree", [.type (.nominal ⟨.given 0, [5]⟩ "Integer" [])]⟩
    (c.Declared ∧ (∀ d ∈ c.decls, ∀ p ∈ d.parents, s.Applies p.decl p.args.length) ∧
        s.Fits tree.decl tree.args ∧ Memory.Faithful s {}) ∧
      ¬ s.Acyclic ∧ s.Ancestor tree.decl "Item" ∧ s.ComesTo tree.decl "Item" ∧
        ∃ n' m', (s.seenAs tree "Item").Answers {} (some n') m' ∧ n'.decl = "Item" := by
  intro c s tree
  have hc : c.Declared := (Catalog.grown_extended _).declared
  obtain ⟨hcounts, happlies, hnode, hitem, htree⟩ :
      (∀ d ∈ c.decls, ∀ p ∈ d.parents, s.Applies p.decl p.args.length) ∧ s.Applies "Tree" 1 ∧
        s.headOf "Item" "Tree" = some "Node" ∧ s.headOf "Item" "Node" = some "Item" ∧
          s.headOf "Tree" "Node" = some "Tree" := by decide +kernel
  have hfits : s.Fits tree.decl tree.args := ⟨happlies, by simp [tree, Arg.isWild]⟩
  have hk := (parentsFit_of_counts (s := s) hc.selfContained hcounts).known
  have hnode : s.Heads "Item" "Tree" "Node" := heads_of_headOf hk (by decide) hnode
  have hitem : s.Heads "Item" "Node" "Item" := heads_of_headOf hk (by decide) hitem
  have htree : s.Heads "Tree" "Node" "Tree" := heads_of_headOf hk (by decide) htree
  have hanc : s.Ancestor "Tree" "Item" := .inr (.inr (.head hnode.parent (.single hitem.parent)))
  have hcomes : s.ComesTo "Tree" "Item" := .inr (.head hnode (.single hitem))
  refine ⟨⟨hc, hcounts, hfits, Memory.faithful_empty s⟩, fun hacyc => ?_, hanc, hcomes, ?_⟩
  · exact hacyc "Tree" (.head hnode.parent (.single htree.parent))
  · exact ((seenAs_ends hc hcounts hfits "Item" (Memory.faithful_empty s)).2 hanc).1 hcomes

/-- Trees are nodes, and nodes are trees and items, in this order: to see a node as an item, the way goes from
the node to the tree, and from the tree to the node, for any number of steps. -/
theorem seenAs_endless :
    let c := Catalog.extended [
      { name := "Item" },
      { name := "Node", parents := ["Tree", "Item"] },
      { name := "Tree", parents := ["Node"] }]
    let s : Setting := { catalog := c }
    let node : Nominal := ⟨⟨.given 0, [0]⟩, "Node", []⟩
    (c.Declared ∧ (∀ d ∈ c.decls, ∀ p ∈ d.parents, s.Applies p.decl p.args.length) ∧
        s.Fits node.decl node.args ∧ s.Ancestor node.decl "Item") ∧
      (¬ ∃ r m', (s.seenAs node "Item").Answers {} r m') ∧
        ∀ steps, ∃ m', (s.climb "Item" steps node).outcome {} = (.error .exhausted, m') := by
  intro c s node
  have hc : c.Declared := (Catalog.grown_extended _).declared
  obtain ⟨hcounts, happlies, htree, hnode⟩ :
      (∀ d ∈ c.decls, ∀ p ∈ d.parents, s.Applies p.decl p.args.length) ∧ s.Applies "Node" 0 ∧
        s.headOf "Item" "Node" = some "Tree" ∧ s.headOf "Item" "Tree" = some "Node" := by
    decide +kernel
  have hfits : s.Fits node.decl node.args := ⟨happlies, by simp [node]⟩
  have hs := parentsFit_of_counts (s := s) hc.selfContained hcounts
  have htree : s.Heads "Item" "Node" "Tree" := heads_of_headOf hs.known (by decide) htree
  have hnode : s.Heads "Item" "Tree" "Node" := heads_of_headOf hs.known (by decide) hnode
  -- the way stays between the node and the tree
  have hbetween : ∀ d, Relation.ReflTransGen (s.Heads "Item") "Node" d → d = "Node" ∨ d = "Tree" := by
    intro d hd
    induction hd with
    | refl => exact .inl rfl
    | tail _ hstep ih =>
      rcases ih with rfl | rfl
      · exact .inr (hstep.unique htree)
      · exact .inl (hstep.unique hnode)
  have hnever : ¬ Relation.ReflTransGen (s.Heads "Item") node.decl "Item" := fun h => by
    rcases hbetween "Item" h with h | h <;> simp at h
  have hendless := climb_endless hs (Memory.faithful_empty s) hfits
    htree.inherits.to_reflTransGen hnever
  refine ⟨⟨hc, hcounts, hfits, .inr (.inr htree.inherits)⟩, ?_, hendless⟩
  rintro ⟨r, m', h⟩
  obtain ⟨m₁, hm₁⟩ := hendless (c.decls.length + 1)
  rw [seenAs, if_neg (by decide)] at h
  cases h.symm.trans hm₁

end Setting
end Generics
