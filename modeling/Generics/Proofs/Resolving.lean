/-
# What a resolver remembers

A resolver goes through bindings being added and queries being resolved, in any order
(`Resolver.run`). Matching is a function here: of a binding, a query and its tags, it says which type
is produced, that the binding does not apply, or that matching fails.

Every match that is remembered was found for a query that was resolved before, and it is still the
first one from the newest binding on (`remembered_is_newest`): adding a binding for some declarations
leaves the bindings of all other declarations as they are (`Index.applicableTo_add`), and what was
found for the former ones is forgotten.

So a resolver finds the last one of all matches, if tags are told apart by what is remembered of them
(`resolve_is_last_match`). They are if no tag has a zero character in it and no single tag is empty
(`tagKey_injOn`). No tags and one empty tag are remembered alike, and then a query is answered with a
binding that does not match it (`resolve_is_last_match_refuted`).
-/

import Generics.Binding.Resolver
import Generics.Failure
import Mathlib.Data.List.Basic
import Mathlib.Data.List.Induction
import Mathlib.Data.Set.Function

namespace Generics.Binding

/-! ### Adding to an index -/

namespace Index

variable {β : Type} {ix : Index β} {b : β} {decl : String}

/-- Looking up in a table looks at the first entry first. -/
theorem lookup_cons (decl other : String) (bindings : List β) (table : List (String × List β)) :
    List.lookup other ((decl, bindings) :: table) =
      if other = decl then some bindings else table.lookup other := by
  rw [List.lookup_cons]
  cases h : other == decl with
  | true => rw [if_pos (by simpa using h)]
  | false => rw [if_neg (by simpa using h)]

/-- An entry that is set is found under its key, and all others as before. -/
theorem lookup_setEntry (bindings : List β) (table : List (String × List β)) (other : String) :
    (setEntry decl bindings table).lookup other =
      if other = decl then some bindings else table.lookup other := by
  induction table with
  | nil => exact lookup_cons decl other bindings []
  | cons entry rest ih =>
    rw [setEntry]
    split
    · next heq =>
      rw [lookup_cons, lookup_cons, heq]
      by_cases h : other = decl <;> simp [h]
    · next hne =>
      rw [lookup_cons, lookup_cons, ih]
      by_cases h : other = entry.1
      · simp [h, hne]
      · simp [h]

/-- Adding a binding for a declaration leaves those applicable to others as they were. -/
theorem applicableTo_addFor {other : String} (h : other ≠ decl) :
    (ix.addFor b decl).applicableTo other = ix.applicableTo other := by
  have hlookup : (ix.addFor b decl).byDecl.lookup other = ix.byDecl.lookup other :=
    (lookup_setEntry _ _ _).trans (if_neg h)
  rw [applicableTo, hlookup]
  rfl

/-- **Adding a binding for some declarations leaves those of other declarations as they are.** -/
theorem applicableTo_add {decls : List String} (h : decl ∉ decls) :
    (ix.add b (some decls)).applicableTo decl = ix.applicableTo decl := by
  have hfold : ∀ ix : Index β, (decls.foldl (addFor b) ix).applicableTo decl =
      ix.applicableTo decl := by
    induction decls with
    | nil => exact fun _ => rfl
    | cons d ds ih =>
      rw [List.mem_cons, not_or] at h
      exact fun ix => (ih h.2 _).trans (applicableTo_addFor h.1)
  exact hfold _

end Index

namespace Resolver

variable {β ε : Type}

/-! ### The newest match -/

section Matching

variable {produce : Matcher (Except ε) β} {query : Nominal} {tags : List String} {bs : List β}

/-- Among bindings from the newest to the oldest, the match is the newest one: its binding produces
its type, and the bindings before it do not apply. -/
def IsNewest (produce : Matcher (Except ε) β) (query : Nominal) (tags : List String)
    (found : Match β) (bs : List β) : Prop :=
  ∃ newer older, bs = newer ++ found.binding :: older ∧
    (∀ b ∈ newer, produce b query tags = .ok none) ∧
      produce found.binding query tags = .ok (some found.type)

/-- Trying bindings in order, by what the first one produces. -/
theorem firstMatch_cons (b : β) : firstMatch produce query tags (b :: bs) =
    match produce b query tags with
    | .ok (some type) => .ok (some ⟨b, type⟩)
    | .ok none => firstMatch produce query tags bs
    | .error f => .error f := by
  rw [firstMatch]
  rcases produce b query tags with f | _ | type <;> rfl

/-- **What is found first is the newest match.** -/
theorem firstMatch_eq_some {found : Match β} :
    firstMatch produce query tags bs = .ok (some found) ↔ IsNewest produce query tags found bs := by
  induction bs with
  | nil =>
    refine ⟨fun h => (by cases h), fun ⟨newer, older, h, _⟩ => ?_⟩
    cases newer <;> cases h
  | cons b bs ih =>
    rw [firstMatch_cons]
    constructor
    · intro h
      split at h
      · next type hproduce =>
        cases h
        exact ⟨[], bs, rfl, fun _ hb => absurd hb List.not_mem_nil, hproduce⟩
      · next hproduce =>
        obtain ⟨newer, older, rfl, hnewer, hfound⟩ := ih.1 h
        exact ⟨b :: newer, older, rfl, List.forall_mem_cons.2 ⟨hproduce, hnewer⟩, hfound⟩
      · cases h
    · rintro ⟨newer, older, hsplit, hnewer, hfound⟩
      cases newer with
      | nil =>
        cases hsplit
        rw [hfound]
      | cons b' newer =>
        cases hsplit
        obtain ⟨hb, hnewer⟩ := List.forall_mem_cons.1 hnewer
        rw [hb]
        exact ih.2 ⟨newer, older, rfl, hnewer, hfound⟩

/-- The matches among the bindings before one more are found first, then its own. -/
theorem allMatches_concat {b : β} {ms : List (Match β)}
    (h : allMatches produce query tags (bs ++ [b]) = .ok ms) : ∃ before type?,
      allMatches produce query tags bs = .ok before ∧ produce b query tags = .ok type? ∧
        ms = before ++ (type?.map (Match.mk b)).toList := by
  induction bs generalizing ms with
  | nil =>
    rw [List.nil_append, allMatches] at h
    rcases hproduce : produce b query tags with f | type?
    · rw [hproduce] at h
      cases h
    · rw [hproduce] at h
      cases h
      exact ⟨[], type?, rfl, rfl, by simp⟩
  | cons b' bs ih =>
    rw [List.cons_append, allMatches] at h
    rcases hproduce : produce b' query tags with f | own?
    · rw [hproduce] at h
      cases h
    · rcases hrest : allMatches produce query tags (bs ++ [b]) with f | more
      · rw [hproduce, hrest] at h
        cases h
      · rw [hproduce, hrest] at h
        cases h
        obtain ⟨before, type?, hbefore, hlast, rfl⟩ := ih hrest
        refine ⟨(own?.map (Match.mk b')).toList ++ before, type?, ?_, hlast, by simp⟩
        rw [allMatches, hproduce, hbefore]
        rfl

/-- **From the newest binding on, the last one of all matches is found first.** -/
theorem firstMatch_of_allMatches {ms : List (Match β)}
    (h : allMatches produce query tags bs = .ok ms) :
    firstMatch produce query tags bs.reverse = .ok ms.getLast? := by
  induction bs using List.reverseRecOn generalizing ms with
  | nil =>
    cases h
    rfl
  | append_singleton bs b ih =>
    obtain ⟨before, type?, hbefore, hproduce, rfl⟩ := allMatches_concat h
    rw [List.reverse_append, List.reverse_singleton, List.singleton_append, firstMatch_cons, hproduce]
    cases type? with
    | none => simpa using ih hbefore
    | some type => simp

end Matching

/-- Bindings that are lists of tags, each of which answers queries with just these tags. -/
def labelled : Matcher (Except Failure) (List String) :=
  fun own _ tags => .ok (if own = tags then some .object else none)

/-! ### Runs of a resolver -/

/-- What is done with a resolver. -/
inductive Act (β : Type)
  | add (b : β) (decls : Option (List String))
  | resolve (query : Nominal) (tags : List String)

/-- The resolver afterwards; a query that fails leaves it as it was. -/
def act (produce : Matcher (Except ε) β) (r : Resolver β) : Act β → Resolver β
  | .add b decls => r.add b decls
  | .resolve query tags => ((resolve produce r query tags).map Prod.snd).toOption.getD r

/-- The resolver after some acts, starting without bindings. -/
def run (produce : Matcher (Except ε) β) (acts : List (Act β)) : Resolver β :=
  acts.foldl (act produce) {}

variable {produce : Matcher (Except ε) β} {r : Resolver β} {query : Nominal} {tags : List String}
  {acts : List (Act β)} {e : Remembered β}

/-- The last act is done on what the others left. -/
theorem run_concat (acts : List (Act β)) (a : Act β) :
    run produce (acts ++ [a]) = act produce (run produce acts) a := by
  rw [run, List.foldl_append]
  rfl

/-- Resolving a query by what is remembered and what is found. -/
theorem resolve_eq (produce : Matcher (Except ε) β) (r : Resolver β) (query : Nominal)
    (tags : List String) : resolve produce r query tags =
      match r.remembered? query tags with
      | some found => .ok (some found, r)
      | none =>
        (firstMatch produce query tags (r.index.applicableTo query.decl).reverse).map fun found? =>
          (found?, match found? with
            | some found => { r with cache := ⟨query, tagKey tags, found⟩ :: r.cache }
            | none => r) := by
  rw [resolve]
  cases r.remembered? query tags with
  | some found => rfl
  | none =>
    rcases firstMatch produce query tags (r.index.applicableTo query.decl).reverse
      with f | _ | found <;> rfl

/-- **Resolving a query leaves the bindings, and what was remembered before**; a match is remembered
besides only if it is the newest one. -/
theorem act_resolve (produce : Matcher (Except ε) β) (r : Resolver β) (query : Nominal)
    (tags : List String) : act produce r (.resolve query tags) = r ∨
      ∃ found, resolve produce r query tags = .ok (some found,
          { r with cache := ⟨query, tagKey tags, found⟩ :: r.cache }) ∧
        act produce r (.resolve query tags) =
          { r with cache := ⟨query, tagKey tags, found⟩ :: r.cache } ∧
        IsNewest produce query tags found (r.index.applicableTo query.decl).reverse := by
  rw [act, resolve_eq]
  cases r.remembered? query tags with
  | some found => exact .inl rfl
  | none =>
    rcases hfirst : firstMatch produce query tags (r.index.applicableTo query.decl).reverse
      with f | _ | found
    · exact .inl rfl
    · exact .inl rfl
    · exact .inr ⟨found, rfl, rfl, firstMatch_eq_some.1 hfirst⟩

/-- The match was found when the query was resolved with some tags, which it is remembered by. -/
def StoredBy (produce : Matcher (Except ε) β) (acts : List (Act β)) (e : Remembered β)
    (tags : List String) : Prop :=
  e.tags = tagKey tags ∧ ∃ before after, acts = before ++ .resolve e.query tags :: after ∧
    resolve produce (run produce before) e.query tags =
      .ok (some e.found, { run produce before with cache := e :: (run produce before).cache })

/-- What was stored by a resolution stays stored by it. -/
theorem StoredBy.concat (h : StoredBy produce acts e tags) (a : Act β) :
    StoredBy produce (acts ++ [a]) e tags := by
  obtain ⟨hkey, before, after, rfl, hresolve⟩ := h
  exact ⟨hkey, before, after ++ [a], by simp, hresolve⟩

/-- What was stored by a resolution was resolved in the run. -/
theorem StoredBy.mem (h : StoredBy produce acts e tags) : .resolve e.query tags ∈ acts := by
  obtain ⟨-, before, after, rfl, -⟩ := h
  simp

/-- What is remembered stays the newest match, whatever is done next. -/
theorem remembered_step (a : Act β)
    (ih : ∀ e ∈ (run produce acts).cache, ∃ tags, StoredBy produce acts e tags ∧
      IsNewest produce e.query tags e.found
        ((run produce acts).index.applicableTo e.query.decl).reverse)
    (he : e ∈ (run produce (acts ++ [a])).cache) :
    ∃ tags, StoredBy produce (acts ++ [a]) e tags ∧ IsNewest produce e.query tags e.found
      ((run produce (acts ++ [a])).index.applicableTo e.query.decl).reverse := by
  rw [run_concat] at he ⊢
  cases a with
  | add b decls =>
    cases decls with
    | none => exact absurd he List.not_mem_nil
    | some decls =>
      -- what was found for the declarations that the binding applies to is forgotten
      obtain ⟨hmem, hkept⟩ := List.mem_filter.1 he
      have hdecl : e.query.decl ∉ decls := by simpa using hkept
      obtain ⟨tags, hstored, hnewest⟩ := ih e hmem
      refine ⟨tags, hstored.concat _, ?_⟩
      rwa [act, add, Index.applicableTo_add hdecl]
  | resolve query tags =>
    have hkeep : ∀ e ∈ (run produce acts).cache, ∃ tags',
        StoredBy produce (acts ++ [.resolve query tags]) e tags' ∧
          IsNewest produce e.query tags' e.found
            ((run produce acts).index.applicableTo e.query.decl).reverse := by
      intro e he
      obtain ⟨tags', hstored, hnewest⟩ := ih e he
      exact ⟨tags', hstored.concat _, hnewest⟩
    rcases act_resolve produce (run produce acts) query tags with hsame | ⟨found, hfound, hact, hnewest⟩
    · rw [hsame] at he ⊢
      exact hkeep e he
    · rw [hact] at he ⊢
      rcases List.mem_cons.1 he with rfl | he
      · exact ⟨tags, ⟨rfl, acts, [], rfl, hfound⟩, hnewest⟩
      · exact hkeep e he

/-- What is remembered was found by resolving its query, and it is the newest match. -/
theorem remembered_newest (produce : Matcher (Except ε) β) (acts : List (Act β)) :
    ∀ e ∈ (run produce acts).cache, ∃ tags, StoredBy produce acts e tags ∧
      IsNewest produce e.query tags e.found
        ((run produce acts).index.applicableTo e.query.decl).reverse := by
  induction acts using List.reverseRecOn with
  | nil => exact fun e he => absurd he List.not_mem_nil
  | append_singleton acts a ih => exact fun e he => remembered_step a ih he

/-- **What is remembered is up to date.** After any bindings were added and any queries resolved, each
match that is remembered was found and stored when its query was resolved with some tags, which it is
remembered by. Of the bindings that may apply to the declaration of the query now, its binding
produces its type for that query and those tags, and all that are newer do not apply. -/
theorem remembered_is_newest (produce : Matcher (Except ε) β) (acts : List (Act β))
    {e : Remembered β} (he : e ∈ (run produce acts).cache) :
    ∃ tags, e.tags = tagKey tags ∧
      (∃ before after, acts = before ++ .resolve e.query tags :: after ∧
        resolve produce (run produce before) e.query tags =
          .ok (some e.found, { run produce before with cache := e :: (run produce before).cache })) ∧
      ∃ newer older, ((run produce acts).index.applicableTo e.query.decl).reverse =
          newer ++ e.found.binding :: older ∧
        (∀ b ∈ newer, produce b e.query tags = .ok none) ∧
          produce e.found.binding e.query tags = .ok (some e.found.type) := by
  obtain ⟨tags, ⟨hkey, hstored⟩, hnewest⟩ := remembered_newest produce acts e he
  exact ⟨tags, hkey, hstored, hnewest⟩

/-- With bindings for all declarations and for lists among others, the match found for a list stays
remembered while a binding for sets is added. -/
theorem remembered_is_newest_lists :
    let list : Nominal := .raw "List"
    let acts : List (Act (List String)) := [.add ["a"] none, .add ["b"] (some ["List"]),
      .resolve list ["a"], .add ["a"] (some ["Set"]), .resolve list ["b"]]
    (run labelled acts).cache.map (fun e => (e.tags, e.found.binding)) = [("b", ["b"]), ("a", ["a"])] ∧
      ∀ e ∈ (run labelled acts).cache, ∃ newer older,
        ((run labelled acts).index.applicableTo e.query.decl).reverse =
          newer ++ e.found.binding :: older := by
  intro list acts
  refine ⟨rfl, fun e he => ?_⟩
  obtain ⟨_, -, -, newer, older, hsplit, -⟩ := remembered_is_newest labelled acts he
  exact ⟨newer, older, hsplit⟩

/-! ### The last match -/

/-- A match is remembered for queries that are equal to the one it was found for. -/
theorem remembered?_eq_some {found : Match β} (h : r.remembered? query tags = some found) :
    ∃ e ∈ r.cache, e.tags = tagKey tags ∧ e.query.equal query = true ∧ e.found = found := by
  obtain ⟨e, hfind, rfl⟩ := Option.map_eq_some_iff.1 h
  have htest := List.find?_some hfind
  rw [Bool.and_eq_true, beq_iff_eq] at htest
  exact ⟨e, List.mem_of_find?_eq_some hfind, htest.1, htest.2, rfl⟩

/-- Equal applied declarations apply the same declaration. -/
theorem decl_of_equal {n n' : Nominal} (h : n.equal n' = true) : n.decl = n'.decl := by
  simp only [Nominal.equal, Ty.equal, Nominal.toTy, Ty.sameShape, Bool.and_eq_true, beq_iff_eq] at h
  exact h.2.1

/-- **A query is resolved to the last one of its matches.** Let matching not tell equal queries apart,
and let no equal query have been resolved with other tags that are remembered in the same way. If all
matches can be found, then a query is resolved without failure, to the last one of them, or to nothing
if there is none. -/
theorem resolve_is_last_match (produce : Matcher (Except ε) β)
    (hproduce : ∀ b (query query' : Nominal) tags, query.equal query' = true →
      produce b query tags = produce b query' tags) (acts : List (Act β)) (query : Nominal)
    (tags : List String)
    (hkeys : ∀ query' tags', .resolve query' tags' ∈ acts → query'.equal query = true →
      tagKey tags' = tagKey tags → tags' = tags) {ms : List (Match β)}
    (h : resolveAll produce (run produce acts) query tags = .ok ms) :
    ∃ r, resolve produce (run produce acts) query tags = .ok (ms.getLast?, r) := by
  have hfirst := firstMatch_of_allMatches h
  rw [resolve_eq]
  cases hrem : (run produce acts).remembered? query tags with
  | none => exact ⟨_, by rw [hfirst]; rfl⟩
  | some found =>
    obtain ⟨e, he, hkey, hequal, rfl⟩ := remembered?_eq_some hrem
    obtain ⟨tags', hstored, newer, older, hsplit, hnewer, hfound⟩ :=
      remembered_newest produce acts e he
    obtain rfl : tags' = tags := hkeys _ _ hstored.mem hequal (hstored.1.symm.trans hkey)
    -- the match is the newest one for the equal query as well
    have hnewest : IsNewest produce query tags' e.found
        ((run produce acts).index.applicableTo query.decl).reverse := by
      refine ⟨newer, older, decl_of_equal hequal ▸ hsplit, fun b hb => ?_, ?_⟩
      · rw [← hproduce b _ _ _ hequal]
        exact hnewer b hb
      · rw [← hproduce _ _ _ _ hequal]
        exact hfound
    rw [firstMatch_eq_some.2 hnewest] at hfirst
    injection hfirst with hfirst
    exact ⟨_, by rw [← hfirst]⟩

/-- A list is resolved again, after a binding for lists was added: to that binding. -/
theorem resolve_is_last_match_lists :
    let list : Nominal := .raw "List"
    let acts : List (Act (List String)) := [.add ["a"] none, .resolve list ["a"],
      .add ["a"] (some ["List", "Set"]), .resolve list ["a"]]
    ∃ r, resolve labelled (run labelled acts) list ["a"] = .ok (some ⟨["a"], .object⟩, r) := by
  intro list acts
  have hall : resolveAll labelled (run labelled acts) list ["a"] =
      .ok [⟨["a"], .object⟩, ⟨["a"], .object⟩] := rfl
  refine resolve_is_last_match labelled (fun _ _ _ _ _ => rfl) acts list ["a"] ?_ hall
  rintro query' tags' hmem - -
  simp only [acts, List.mem_cons, reduceCtorEq, Act.resolve.injEq, List.not_mem_nil, false_or,
    or_false] at hmem
  rcases hmem with ⟨-, rfl⟩ | ⟨-, rfl⟩ <;> rfl

/-- **No tags and one empty tag are remembered alike.** A string is resolved without tags, and then with
an empty tag: the binding without tags is found again, although it does not match. -/
theorem resolve_is_last_match_refuted :
    let query : Nominal := .raw "String"
    let acts : List (Act (List String)) := [.add [] none, .resolve query []]
    resolveAll labelled (run labelled acts) query [""] = .ok [] ∧
      (resolve labelled (run labelled acts) query [""]).map Prod.fst =
        .ok (some ⟨[], .object⟩) := by
  decide +kernel

/-- **Tags without zero characters are told apart by what is remembered of them**, unless one of the
lists is a single empty tag. -/
theorem tagKey_injOn :
    Set.InjOn tagKey {tags | tags ≠ [""] ∧ ∀ tag ∈ tags, Char.ofNat 0 ∉ tag.toList} := by
  have hsplit : ∀ tags : List String, tags ≠ [] → (∀ tag ∈ tags, Char.ofNat 0 ∉ tag.toList) →
      List.splitOn (Char.ofNat 0) (tagKey tags).toList = tags.map String.toList := by
    intro tags hne hzero
    rw [tagKey, String.toList_intercalate, String.toList_singleton]
    refine List.splitOn_intercalate _ (fun l hl => ?_) (by simpa using hne)
    obtain ⟨tag, htag, rfl⟩ := List.mem_map.1 hl
    exact hzero tag htag
  have hinj : Function.Injective (List.map String.toList) :=
    List.map_injective_iff.2 fun _ _ => String.toList_inj.1
  -- only no tags at all and an empty tag alone have the empty key
  have hempty : ∀ tags : List String, tags ≠ [] → tags ≠ [""] →
      (∀ tag ∈ tags, Char.ofNat 0 ∉ tag.toList) → tagKey tags ≠ tagKey [] := by
    intro tags hne hsingle hzero hkey
    have hparts := hsplit tags hne hzero
    rw [hkey] at hparts
    cases tags with
    | nil => exact hne rfl
    | cons tag rest =>
      have hlist : [""].map String.toList = (tag :: rest).map String.toList := hparts
      exact hsingle (hinj hlist).symm
  rintro a ⟨ha, hazero⟩ b ⟨hb, hbzero⟩ hkey
  by_cases hanil : a = []
  · by_contra hne
    exact hempty b (fun hnil => hne (hanil.trans hnil.symm)) hb hbzero (hanil ▸ hkey.symm)
  · by_cases hbnil : b = []
    · exact absurd (hbnil ▸ hkey) (hempty a hanil ha hazero)
    · exact hinj (by rw [← hsplit a hanil hazero, hkey, hsplit b hbnil hbzero])

end Resolver
end Generics.Binding
