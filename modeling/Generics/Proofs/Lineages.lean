/-
# Lineages and what is remembered of them

`Setting.lineageOf` is what the catalog says about a declaration, as a function. A memory is
`Faithful` if everything it knows is what the catalog says, of declarations and of ways up. Asked
with a faithful memory, a question about declarations alone has one outcome, whatever else is
remembered: it `Settles`. The walk up the supertypes settles (`walksTo_steady`), and so do
`leadsTo?` and `inherits`; if the walk comes to its goal, the goal is an ancestor
(`walksTo_sound`).

Where all that is reached can be read, none of these questions fails (`Readable`), and the test says
exactly what is reached (`inherits_settles`), also where inheritance has cycles.
-/

import Generics.Proofs.Answers
import Generics.Query.Lineage
import Mathlib.Data.List.TakeWhile
import Mathlib.Logic.Relation

namespace Generics

/-- What the catalog says about a declaration. -/
def Setting.lineageOf (s : Setting) (decl : String) : Option Lineage :=
  match s.catalog.find? decl with
  | none => if decl = objectName then some ⟨decl, [], []⟩ else none
  | some d =>
    if (s.catalog.fault? decl .params).isSome || (s.catalog.fault? decl .parents).isSome then none
    else some ⟨decl, d.vars,
      if d.parents.isEmpty && decl != objectName then [Nominal.object] else d.parents⟩

/-- A lineage is that of its declaration. -/
theorem Setting.lineageOf_decl {s : Setting} {decl : String} {l : Lineage}
    (h : s.lineageOf decl = some l) : l.decl = decl := by
  unfold Setting.lineageOf at h
  split at h
  · split at h
    · injection h with h; rw [← h]
    · cases h
  · split at h
    · cases h
    · injection h with h; rw [← h]

/-- Lineages depend on the catalog alone. -/
theorem Setting.lineage_congr (s' s : Setting) (h : s'.catalog = s.catalog) :
    s'.lineage = s.lineage := by
  funext decl
  simp only [lineage, readLineage, h]

/-- A walk up looks at the catalog only. -/
theorem Setting.walksTo_congr (s' s : Setting) (h : s'.catalog = s.catalog) (goal : String)
    (remaining stack : List String) :
    s'.walksTo goal remaining stack = s.walksTo goal remaining stack := by
  have henter : s'.enterable = s.enterable := by rw [enterable, enterable, h]
  have hlineage := lineage_congr s' s h
  induction hn : remaining.length using Nat.strongRecOn generalizing remaining stack with
  | ind n ih =>
    rw [walksTo, walksTo, henter, hlineage]
    cases stack.dropWhile fun d => d != goal && (s.enterable.contains d && !remaining.contains d) with
    | nil => rfl
    | cons d rest =>
      by_cases hd : d = goal
      · simp only [if_pos hd]
      · simp only [if_neg hd]
        refine congrArg (s.lineage d >>= ·) (funext fun l => ?_)
        by_cases hmem : d ∈ remaining
        · simp only [dif_pos hmem]
          exact ih _ (hn ▸ without_length_lt hmem) _ _ rfl
        · simp only [dif_neg hmem]

/-- What is sought on the way up depends on the catalog alone. -/
theorem Setting.seek?_congr (s' s : Setting) (h : s'.catalog = s.catalog) :
    s'.seek? = s.seek? := by
  funext decl ancestor
  simp only [seek?, reaches, enterable, lineage_congr s' s h, walksTo_congr s' s h, h]

/-- Everything the memory knows about declarations is what the catalog says, and every way up that
it knows is the one that is found without it. -/
def Memory.Faithful (s : Setting) (m : Memory) : Prop :=
  (∀ l ∈ m.known, s.lineageOf l.decl = some l) ∧ ∀ r ∈ m.routes,
    ((Setting.seek? { catalog := s.catalog } r.decl r.ancestor).outcome {}).1 = .ok r.parent

/-- The empty memory is faithful. -/
theorem Memory.faithful_empty (s : Setting) : ({} : Memory).Faithful s :=
  ⟨fun _ h => absurd h List.not_mem_nil, fun _ h => absurd h List.not_mem_nil⟩

/-- The second memory is the first one with more known about declarations. -/
structure Memory.Learns (m m' : Memory) : Prop where
  captured : m'.captured = m.captured
  last : m'.lastCaptured = m.lastCaptured
  built : m'.built = m.built

/-- What looking up a declaration does to a memory, apart from what is learnt of the declaration. -/
structure Memory.LooksUp (decl : String) (m m' : Memory) : Prop where
  routes : m'.routes = m.routes
  asked : m'.asked = m.asked ∨ m'.asked = decl :: m.asked
  learns : m.Learns m'

/-- Learning nothing is learning. -/
theorem Memory.Learns.refl (m : Memory) : m.Learns m := ⟨rfl, rfl, rfl⟩

/-- What is learnt twice is learnt. -/
theorem Memory.Learns.trans {m₁ m₂ m₃ : Memory} (h₁ : m₁.Learns m₂) (h₂ : m₂.Learns m₃) :
    m₁.Learns m₃ :=
  ⟨h₂.captured.trans h₁.captured, h₂.last.trans h₁.last, h₂.built.trans h₁.built⟩

/-- Memories that differ in what was learnt do so both ways. -/
theorem Memory.Learns.symm {m m' : Memory} (h : m.Learns m') : m'.Learns m :=
  ⟨h.captured.symm, h.last.symm, h.built.symm⟩

namespace Query

variable {α β : Type} {s : Setting} {q : Query α}

/-- In every faithful memory the question has the same outcome, and it does no more than learn
about declarations. -/
def Settles (s : Setting) (q : Query α) (v : Except Failure α) : Prop :=
  ∀ m : Memory, m.Faithful s →
    (q.outcome m).1 = v ∧ (q.outcome m).2.Faithful s ∧ m.Learns (q.outcome m).2

/-- The question has one outcome in all faithful memories. -/
def Steady (s : Setting) (q : Query α) : Prop := ∃ v, Settles s q v

/-- Answering at once settles on the answer. -/
theorem Settles.pure (a : α) : Settles s (pure a) (.ok a) :=
  fun m hm => ⟨rfl, hm, .refl m⟩

/-- Questions one after the other settle on what the second one does. -/
theorem Settles.bind {f : α → Query β} {a : α} {v : Except Failure β}
    (h₁ : Settles s q (.ok a)) (h₂ : Settles s (f a) v) : Settles s (q >>= f) v := by
  intro m hm
  obtain ⟨ha, hm₁, hl₁⟩ := h₁ m hm
  obtain ⟨hv, hm₂, hl₂⟩ := h₂ _ hm₁
  rw [outcome_bind]
  rcases hq : q.outcome m with ⟨(e | b), m₁⟩
  · rw [hq] at ha; cases ha
  · rw [hq] at ha hv hm₂ hl₁ hl₂
    injection ha with ha
    subst ha
    exact ⟨hv, hm₂, hl₁.trans hl₂⟩

/-- A question that goes on after one that fails settles on the failure. -/
theorem Settles.bind_error {f : α → Query β} {e : Failure} (h : Settles s q (.error e)) :
    Settles s (q >>= f) (.error e) := by
  intro m hm
  obtain ⟨ha, hm₁, hl₁⟩ := h m hm
  rw [outcome_bind]
  rcases hq : q.outcome m with ⟨(e' | b), m₁⟩
  · rw [hq] at ha hm₁ hl₁
    injection ha with ha
    subst ha
    exact ⟨rfl, hm₁, hl₁⟩
  · rw [hq] at ha; cases ha

/-- A question settles on one outcome. -/
theorem Settles.unique {v w : Except Failure α} (h₁ : Settles s q v) (h₂ : Settles s q w) :
    v = w := (h₁ {} (Memory.faithful_empty s)).1.symm.trans (h₂ {} (Memory.faithful_empty s)).1

/-- Answering at once is steady. -/
theorem Steady.pure (a : α) : Steady s (pure a : Query α) := ⟨_, .pure a⟩

/-- Questions one after the other are steady if both are. -/
theorem Steady.bind {f : α → Query β} (h₁ : Steady s q)
    (h₂ : ∀ a, Settles s q (.ok a) → Steady s (f a)) : Steady s (q >>= f) := by
  obtain ⟨(e | a), hv⟩ := h₁
  · exact ⟨_, hv.bind_error⟩
  · obtain ⟨w, hw⟩ := h₂ a hv
    exact ⟨w, hv.bind hw⟩

/-- **A question that settles on an answer gives it in every faithful memory.** -/
theorem Settles.answers {a : α} (h : Settles s q (.ok a)) {m : Memory} (hm : m.Faithful s) :
    ∃ m', q.Answers m a m' ∧ m'.Faithful s ∧ m.Learns m' := by
  obtain ⟨ha, hm', hl⟩ := h m hm
  exact ⟨_, Prod.ext ha rfl, hm', hl⟩

/-- **An answer of a steady question is the one it settles on.** -/
theorem Steady.settles {a : α} {m m' : Memory} (h : Steady s q) (hm : m.Faithful s)
    (ha : q.Answers m a m') : Settles s q (.ok a) ∧ m'.Faithful s ∧ m.Learns m' := by
  obtain ⟨v, hv⟩ := h
  obtain ⟨h₁, h₂, h₃⟩ := hv m hm
  rw [show q.outcome m = (.ok a, m') from ha] at h₁ h₂ h₃
  subst h₁
  exact ⟨hv, h₂, h₃⟩

/-- The first part of a sequence that settles on an answer settles on one. -/
theorem Settles.of_bind {f : α → Query β} {b : β} (hq : Steady s q)
    (h : Settles s (q >>= f) (.ok b)) (hf : ∀ a, Settles s q (.ok a) → Steady s (f a)) :
    ∃ a, Settles s q (.ok a) ∧ Settles s (f a) (.ok b) := by
  obtain ⟨(e | a), hv⟩ := hq
  · have := h.unique hv.bind_error
    cases this
  · obtain ⟨w, hw⟩ := hf a hv
    exact ⟨a, hv, h.unique (hv.bind hw) ▸ hw⟩

/-- Looking for a first answer is steady if the question is. -/
theorem Steady.first? {ask : α → Query Bool} :
    ∀ {as : List α}, (∀ a ∈ as, Steady s (ask a)) → Steady s (Query.first? ask as)
  | [], _ => .pure _
  | a :: as, h => by
    refine (h a List.mem_cons_self).bind fun b _ => ?_
    split
    · exact .pure _
    · exact Steady.first? fun c hc => h c (List.mem_cons_of_mem _ hc)

/-- What is found first is one of the elements, and the answer for it is yes. -/
theorem Settles.of_first? {ask : α → Query Bool} {a : α} :
    ∀ {as : List α}, (∀ b ∈ as, Steady s (ask b)) → Settles s (Query.first? ask as) (.ok (some a)) →
      a ∈ as ∧ Settles s (ask a) (.ok true)
  | [], _, h => by
    have := h.unique (.pure none)
    injection this with this
    cases this
  | b :: as, hs, h => by
    have htail : ∀ c ∈ as, Steady s (ask c) := fun c hc => hs c (List.mem_cons_of_mem _ hc)
    obtain ⟨r, hr, h⟩ := h.of_bind (hs b List.mem_cons_self) fun r _ => by
      split
      · exact .pure _
      · exact Steady.first? htail
    cases r with
    | true =>
      have := h.unique (.pure (some b))
      injection this with this
      injection this with this
      exact ⟨this ▸ List.mem_cons_self, this ▸ hr⟩
    | false =>
      obtain ⟨hmem, ha⟩ := of_first? htail h
      exact ⟨List.mem_cons_of_mem _ hmem, ha⟩

/-- If it is known what the answers are, so is what is found first. -/
theorem Settles.first? {ask : α → Query Bool} {yes : α → Bool} :
    ∀ {as : List α}, (∀ a ∈ as, Settles s (ask a) (.ok (yes a))) →
      Settles s (Query.first? ask as) (.ok (as.find? yes))
  | [], _ => .pure _
  | a :: as, h => by
    obtain ⟨ha, has⟩ := List.forall_mem_cons.1 h
    refine ha.bind ?_
    cases hyes : yes a with
    | true =>
      rw [List.find?_cons_of_pos hyes]
      exact .pure _
    | false =>
      rw [List.find?_cons_of_neg (by simp [hyes])]
      exact Settles.first? has

/-- The question answers in every faithful memory. -/
def Answerable (s : Setting) (q : Query α) : Prop := ∃ a, Settles s q (.ok a)

/-- Answering at once is answerable. -/
theorem Answerable.pure (a : α) : Answerable s (pure a : Query α) := ⟨a, .pure a⟩

/-- Questions one after the other are answerable if both are. -/
theorem Answerable.bind {f : α → Query β} (h₁ : Answerable s q)
    (h₂ : ∀ a, Settles s q (.ok a) → Answerable s (f a)) : Answerable s (q >>= f) := by
  obtain ⟨a, ha⟩ := h₁
  obtain ⟨b, hb⟩ := h₂ a ha
  exact ⟨b, ha.bind hb⟩

end Query

namespace Setting

open Query

variable {s : Setting}

/-- Reading a declaration gives what the catalog says, and leaves what is known as it is. -/
theorem readLineage_outcome (s : Setting) (decl : String) :
    (∃ l, s.lineageOf decl = some l ∧ ∀ m : Memory, ∃ m', (s.readLineage decl).outcome m = (.ok l, m')
        ∧ m'.known = m.known ∧ m'.routes = m.routes ∧ m.Learns m') ∨
      (s.lineageOf decl = none ∧ ∃ f, ∀ m : Memory, ∃ m',
        (s.readLineage decl).outcome m = (.error f, m') ∧ m'.known = m.known ∧
          m'.routes = m.routes ∧ m.Learns m') := by
  unfold readLineage lineageOf
  cases hd : s.catalog.find? decl with
  | none =>
    by_cases ho : decl = objectName
    · left
      refine ⟨_, if_pos ho, fun m => ⟨m, ?_, rfl, rfl, .refl m⟩⟩
      simp only [if_pos ho]
      rfl
    · right
      refine ⟨if_neg ho, .lookup decl (.plain "unknown declaration"),
        fun m => ⟨m, ?_, rfl, rfl, .refl m⟩⟩
      simp only [if_neg ho]
      rfl
  | some d =>
    cases hp : s.catalog.fault? decl .params with
    | some reason =>
      exact .inr ⟨rfl, _, fun m =>
        ⟨{ m with asked := decl :: m.asked }, rfl, rfl, rfl, rfl, rfl, rfl⟩⟩
    | none =>
      cases hq : s.catalog.fault? decl .parents with
      | some reason =>
        exact .inr ⟨rfl, _, fun m =>
        ⟨{ m with asked := decl :: m.asked }, rfl, rfl, rfl, rfl, rfl, rfl⟩⟩
      | none =>
        left
        refine ⟨_, rfl, fun m => ⟨{ m with asked := decl :: m.asked }, ?_, rfl, rfl, rfl, rfl, rfl⟩⟩
        by_cases hc : (d.parents.isEmpty && decl != objectName) = true
        · simp only [if_pos hc]
          rfl
        · simp only [if_neg hc]
          rfl

/-- Reading a declaration asks for it at most once, and for no other. -/
theorem readLineage_asked (s : Setting) (decl : String) (m : Memory) :
    ((s.readLineage decl).outcome m).2.asked = m.asked ∨
      ((s.readLineage decl).outcome m).2.asked = decl :: m.asked := by
  unfold readLineage
  cases s.catalog.find? decl with
  | none =>
    left
    dsimp only
    split <;> rfl
  | some d =>
    right
    cases s.catalog.fault? decl .params with
    | some reason => rfl
    | none =>
      cases s.catalog.fault? decl .parents with
      | some reason => rfl
      | none =>
        dsimp only
        split <;> rfl

/-- A lineage that is remembered is known, and under its name. -/
theorem lineage?_eq_some {m : Memory} {decl : String} {l : Lineage}
    (h : m.lineage? decl = some l) : l ∈ m.known ∧ l.decl = decl := by
  have hdecl := List.find?_some h
  exact ⟨List.mem_of_find?_eq_some h, by simpa using hdecl⟩

/-- The outcome of asking for a lineage, by whether it is known. -/
theorem lineage_outcome (s : Setting) (decl : String) (m : Memory) :
    (s.lineage decl).outcome m =
      match m.lineage? decl with
      | some l => (.ok l, m)
      | none =>
        match (s.readLineage decl).outcome m with
        | (.ok l, m₁) => (.ok l, { m₁ with known := l :: m₁.known })
        | (.error f, m₁) => (.error f, m₁) := by
  unfold lineage
  rw [outcome_bind, show (get : Query Memory).outcome m = (.ok m, m) from rfl]
  simp only
  cases hk : m.lineage? decl with
  | some l => rfl
  | none =>
    simp only
    rw [outcome_bind]
    rcases (s.readLineage decl).outcome m with ⟨(f | l), m₁⟩ <;> rfl

/-- A declaration is known; or it is looked up, and then it is known or cannot be read. -/
theorem lineage_cases (s : Setting) (decl : String) (m : Memory) :
    (∃ l, m.lineage? decl = some l ∧ (s.lineage decl).outcome m = (.ok l, m)) ∨
      m.lineage? decl = none ∧ ∃ m', m.LooksUp decl m' ∧
        ((∃ l, s.lineageOf decl = some l ∧ (s.lineage decl).outcome m = (.ok l, m') ∧
            m'.known = l :: m.known) ∨
          s.lineageOf decl = none ∧ (∃ f, (s.lineage decl).outcome m = (.error f, m')) ∧
            m'.known = m.known) := by
  rw [lineage_outcome]
  cases hk : m.lineage? decl with
  | some l => exact .inl ⟨l, rfl, rfl⟩
  | none =>
    refine .inr ⟨rfl, ?_⟩
    have hasked := readLineage_asked s decl m
    rcases readLineage_outcome s decl with ⟨l, hl, hread⟩ | ⟨hl, f, hread⟩
    · obtain ⟨m', ho, hknown, hroutes, hlearns⟩ := hread m
      rw [ho] at hasked ⊢
      exact ⟨{ m' with known := l :: m'.known },
        ⟨hroutes, hasked, hlearns.captured, hlearns.last, hlearns.built⟩,
          .inl ⟨l, hl, rfl, congrArg (l :: ·) hknown⟩⟩
    · obtain ⟨m', ho, hknown, hroutes, hlearns⟩ := hread m
      rw [ho] at hasked ⊢
      exact ⟨m', ⟨hroutes, hasked, hlearns⟩, .inr ⟨hl, ⟨f, rfl⟩, hknown⟩⟩

/-- **What is known of a declaration is what the catalog says**, also if it has to be read. -/
theorem lineage_settles (s : Setting) (decl : String) :
    (∃ l, s.lineageOf decl = some l ∧ Settles s (s.lineage decl) (.ok l)) ∨
      (s.lineageOf decl = none ∧ ∃ f, Settles s (s.lineage decl) (.error f)) := by
  rcases readLineage_outcome s decl with ⟨l, hl, hread⟩ | ⟨hl, f, hread⟩
  · refine .inl ⟨l, hl, fun m hm => ?_⟩
    rw [lineage_outcome]
    cases hk : m.lineage? decl with
    | some l' =>
      obtain ⟨hmem, hdecl⟩ := lineage?_eq_some hk
      have := hm.1 l' hmem
      rw [hdecl, hl] at this
      injection this with this
      exact ⟨congrArg Except.ok this.symm, hm, .refl m⟩
    | none =>
      obtain ⟨m', ho, hkn, hro, hle⟩ := hread m
      rw [ho]
      refine ⟨rfl, ⟨fun l' hl' => ?_, fun r hr => hm.2 r (hro ▸ hr)⟩,
        hle.captured, hle.last, hle.built⟩
      rcases List.mem_cons.1 hl' with rfl | hl'
      · rw [lineageOf_decl hl, hl]
      · exact hm.1 l' (hkn ▸ hl')
  · refine .inr ⟨hl, f, fun m hm => ?_⟩
    rw [lineage_outcome]
    cases hk : m.lineage? decl with
    | some l' =>
      obtain ⟨hmem, hdecl⟩ := lineage?_eq_some hk
      have := hm.1 l' hmem
      rw [hdecl, hl] at this
      cases this
    | none =>
      obtain ⟨m', ho, hkn, hro, hle⟩ := hread m
      rw [ho]
      exact ⟨rfl, ⟨fun l' hl' => hm.1 l' (hkn ▸ hl'), fun r hr => hm.2 r (hro ▸ hr)⟩, hle⟩

/-- Asking for a lineage is steady. -/
theorem lineage_steady (s : Setting) (decl : String) : Steady s (s.lineage decl) := by
  rcases lineage_settles s decl with ⟨l, _, h⟩ | ⟨_, f, h⟩
  · exact ⟨_, h⟩
  · exact ⟨_, h⟩

/-- Asking for a lineage settles on what the catalog says. -/
theorem lineage_settles_iff {decl : String} {l : Lineage} :
    Settles s (s.lineage decl) (.ok l) ↔ s.lineageOf decl = some l := by
  rcases lineage_settles s decl with ⟨l', hl', h⟩ | ⟨hn, f, h⟩
  · constructor
    · intro hl
      have := h.unique hl
      injection this with this
      rw [hl', this]
    · intro hl
      rw [hl'] at hl
      injection hl with hl
      exact hl ▸ h
  · constructor
    · intro hl
      have := h.unique hl
      cases this
    · intro hl
      rw [hn] at hl
      cases hl

/-- The parameters of a declaration settle with its lineage. -/
theorem params_settles {decl : String} {l : Lineage} (h : s.lineageOf decl = some l) :
    Settles s (s.params decl) (.ok l.params) :=
  (lineage_settles_iff.2 h).bind (.pure _)

/-- Asking for parameters is steady. -/
theorem params_steady (s : Setting) (decl : String) : Steady s (s.params decl) :=
  (lineage_steady s decl).bind fun _ _ => .pure _

/-- Asking for parameters settles on those of the lineage. -/
theorem settles_params {decl : String} {ps : List TypeVar}
    (h : Settles s (s.params decl) (.ok ps)) : ∃ l, s.lineageOf decl = some l ∧ l.params = ps := by
  obtain ⟨l, hl, hp⟩ := h.of_bind (lineage_steady s decl) fun _ _ => .pure _
  have := hp.unique (.pure l.params)
  injection this with this
  exact ⟨l, lineage_settles_iff.1 hl, this.symm⟩

/-! ### Walking up -/

/-- The second declaration is a direct supertype of the first one. -/
def Parent (s : Setting) (decl parent : String) : Prop :=
  ∃ l, s.lineageOf decl = some l ∧ ∃ n ∈ l.parents, n.decl = parent

/-- No declaration is among its own ancestors. -/
def Acyclic (s : Setting) : Prop := ∀ decl, ¬ Relation.TransGen s.Parent decl decl

/-- **The walk up has one outcome.** -/
theorem walksTo_steady (s : Setting) (goal : String) (remaining stack : List String) :
    Steady s (s.walksTo goal remaining stack) := by
  fun_induction s.walksTo goal remaining stack with
  | case1 => exact .pure _
  | case2 => exact .pure _
  | case3 remaining stack d rest hstack hd ih =>
    refine (lineage_steady s d).bind fun l _ => ?_
    split
    · next hmem => exact ih l hmem
    · exact .pure _

/-- **If the walk comes to the goal, the goal is an ancestor of a stacked declaration**, or one of
them. -/
theorem walksTo_sound (s : Setting) (goal : String) (remaining stack : List String)
    (h : Settles s (s.walksTo goal remaining stack) (.ok true)) :
    ∃ d ∈ stack, Relation.ReflTransGen s.Parent d goal := by
  fun_induction s.walksTo goal remaining stack with
  | case1 =>
    have := h.unique (.pure false)
    injection this with this
    cases this
  | case2 remaining stack rest hstack =>
    refine ⟨goal, ?_, .refl⟩
    exact (List.dropWhile_sublist _).subset (hstack ▸ List.mem_cons_self)
  | case3 remaining stack d rest hstack hd ih =>
    have hsub : ∀ e ∈ d :: rest, e ∈ stack := fun e he =>
      (List.dropWhile_sublist _).subset (hstack ▸ he)
    obtain ⟨l, hl, h⟩ := h.of_bind (lineage_steady s d) fun l _ => by
      split
      · exact walksTo_steady ..
      · exact .pure _
    split at h
    · next hmem =>
      obtain ⟨e, he, hgoal⟩ := ih l hmem h
      rcases List.mem_append.1 he with he | he
      · rw [List.mem_reverse] at he
        obtain ⟨n, hn, rfl⟩ := List.mem_map.1 he
        exact ⟨d, hsub d List.mem_cons_self,
          .head ⟨l, lineage_settles_iff.1 hl, n, hn, rfl⟩ hgoal⟩
      · exact ⟨e, hsub e (List.mem_cons_of_mem _ he), hgoal⟩
    · have := h.unique (.pure false)
      injection this with this
      cases this

/-- Seeking the way up is steady. -/
theorem seek?_steady (s : Setting) (decl ancestor : String) : Steady s (s.seek? decl ancestor) :=
  (lineage_steady s decl).bind fun _ _ => Steady.first? fun _ _ => walksTo_steady ..

/-- A way that is remembered is known, and between its ends. -/
theorem route?_eq_some {m : Memory} {decl ancestor : String} {r : Route}
    (h : m.route? decl ancestor = some r) : r ∈ m.routes ∧ r.decl = decl ∧ r.ancestor = ancestor := by
  have hkey := List.find?_some h
  exact ⟨List.mem_of_find?_eq_some h, by simpa using hkey⟩

/-- The outcome of asking for the way up, by whether it is known. -/
theorem leadsTo?_outcome (s : Setting) (decl ancestor : String) (m : Memory) :
    (s.leadsTo? decl ancestor).outcome m =
      match m.route? decl ancestor with
      | some r => (.ok r.parent, m)
      | none =>
        match (s.seek? decl ancestor).outcome m with
        | (.ok parent, m₁) => (.ok parent, { m₁ with routes := ⟨decl, ancestor, parent⟩ :: m₁.routes })
        | (.error f, m₁) => (.error f, m₁) := by
  unfold leadsTo?
  rw [outcome_bind, show (get : Query Memory).outcome m = (.ok m, m) from rfl]
  simp only
  cases hk : m.route? decl ancestor with
  | some r => rfl
  | none =>
    simp only
    rw [outcome_bind]
    rcases (s.seek? decl ancestor).outcome m with ⟨(f | parent), m₁⟩ <;> rfl

/-- **The way up is the one that is found without what is known**, also if it is known. -/
theorem leadsTo?_settles {decl ancestor : String} {v : Except Failure (Option Nominal)}
    (h : Settles s (s.seek? decl ancestor) v) : Settles s (s.leadsTo? decl ancestor) v := by
  have hseek : Setting.seek? { catalog := s.catalog } = s.seek? := seek?_congr _ s rfl
  have hempty : ((Setting.seek? { catalog := s.catalog } decl ancestor).outcome {}).1 = v := by
    rw [hseek]
    exact (h {} (Memory.faithful_empty s)).1
  intro m hm
  rw [leadsTo?_outcome]
  cases hk : m.route? decl ancestor with
  | some r =>
    obtain ⟨hmem, rfl, rfl⟩ := route?_eq_some hk
    exact ⟨(hm.2 r hmem).symm.trans hempty, hm, .refl m⟩
  | none =>
    obtain ⟨hv, hm₁, hl₁⟩ := h m hm
    rcases hseek : (s.seek? decl ancestor).outcome m with ⟨(f | parent), m₁⟩
    · rw [hseek] at hv hm₁ hl₁
      exact ⟨hv, hm₁, hl₁⟩
    · rw [hseek] at hv hm₁ hl₁
      refine ⟨hv, ⟨hm₁.1, fun r hr => ?_⟩, hl₁.captured, hl₁.last, hl₁.built⟩
      rcases List.mem_cons.1 hr with rfl | hr
      · exact hempty.trans hv.symm
      · exact hm₁.2 r hr

/-- Asking for the way up is steady. -/
theorem leadsTo?_steady (s : Setting) (decl ancestor : String) :
    Steady s (s.leadsTo? decl ancestor) := by
  obtain ⟨v, hv⟩ := seek?_steady s decl ancestor
  exact ⟨v, leadsTo?_settles hv⟩

/-- Asking for the way up settles on what seeking it does. -/
theorem leadsTo?_settles_iff {decl ancestor : String} {v : Except Failure (Option Nominal)} :
    Settles s (s.leadsTo? decl ancestor) v ↔ Settles s (s.seek? decl ancestor) v := by
  refine ⟨fun h => ?_, leadsTo?_settles⟩
  obtain ⟨w, hw⟩ := seek?_steady s decl ancestor
  exact h.unique (leadsTo?_settles hw) ▸ hw

/-- **The supertype that leads to an ancestor is a direct one, and the ancestor is above it.** -/
theorem leadsTo?_sound {decl ancestor : String} {parent : Nominal}
    (h : Settles s (s.leadsTo? decl ancestor) (.ok (some parent))) :
    (∃ l, s.lineageOf decl = some l ∧ parent ∈ l.parents) ∧
      Relation.ReflTransGen s.Parent parent.decl ancestor := by
  obtain ⟨l, hl, h⟩ := (leadsTo?_settles_iff.1 h).of_bind (lineage_steady s decl) fun _ _ =>
    Steady.first? fun _ _ => walksTo_steady ..
  obtain ⟨hmem, hr⟩ := Settles.of_first? (fun _ _ => walksTo_steady ..) h
  obtain ⟨d, hd, hreach⟩ := walksTo_sound s ancestor s.enterable [parent.decl] hr
  rw [List.mem_singleton.1 hd] at hreach
  exact ⟨⟨l, lineage_settles_iff.1 hl, hmem⟩, hreach⟩

/-- Asking for inheritance is steady. -/
theorem inherits_steady (s : Setting) (decl ancestor : String) :
    Steady s (s.inherits decl ancestor) := by
  unfold inherits
  split
  · exact .pure _
  · split
    · exact (lineage_steady s decl).bind fun _ _ => .pure _
    · exact (leadsTo?_steady s decl ancestor).bind fun _ _ => .pure _

/-- Every declaration inherits from itself. -/
theorem inherits_refl (s : Setting) (decl : String) : Settles s (s.inherits decl decl) (.ok true) := by
  unfold inherits
  rw [if_pos rfl]
  exact .pure _

/-- Every known declaration inherits from the top one. -/
theorem inherits_object {decl : String} {l : Lineage} (h : s.lineageOf decl = some l) :
    Settles s (s.inherits decl objectName) (.ok true) := by
  unfold inherits
  split
  · exact .pure _
  · rw [if_pos rfl]
    exact (lineage_settles_iff.2 h).bind (.pure _)

/-- **What a declaration inherits from is itself, the top declaration, or an ancestor.** -/
theorem inherits_sound {decl ancestor : String}
    (h : Settles s (s.inherits decl ancestor) (.ok true)) :
    decl = ancestor ∨ ancestor = objectName ∨ Relation.TransGen s.Parent decl ancestor := by
  unfold inherits at h
  split at h
  · next he => exact .inl he
  · split at h
    · next he => exact .inr (.inl he)
    · obtain ⟨r, hr, h⟩ := h.of_bind (leadsTo?_steady s decl ancestor) fun _ _ => .pure _
      have := h.unique (.pure r.isSome)
      injection this with this
      obtain ⟨parent, rfl⟩ := Option.isSome_iff_exists.1 this.symm
      obtain ⟨⟨l, hl, hmem⟩, hreach⟩ := leadsTo?_sound hr
      exact .inr (.inr (.head' ⟨l, hl, parent, hmem, rfl⟩ hreach))

/-- The top declaration has no parameters and lists no supertypes. -/
def PlainObject (s : Setting) : Prop := s.lineageOf objectName = some ⟨objectName, [], []⟩

/-- The top declaration has no direct supertypes. -/
theorem PlainObject.no_parent (ho : s.PlainObject) {parent : String} : ¬ s.Parent objectName parent := by
  rintro ⟨l, hl, n, hn, -⟩
  cases hl.symm.trans ho
  cases hn

/-- Nothing but the top declaration is above the top declaration. -/
theorem eq_object_of_inherits (ho : s.PlainObject) {decl : String}
    (h : Settles s (s.inherits objectName decl) (.ok true)) : decl = objectName := by
  rcases inherits_sound h with h | h | h
  · exact h.symm
  · exact h
  · obtain ⟨e, hup, -⟩ := Relation.TransGen.head'_iff.1 h
    exact absurd hup ho.no_parent

/-- **Two declarations that inherit from each other are one**, where no declaration is among its
own ancestors. -/
theorem inherits_antisymm (ho : s.PlainObject) (hs : s.Acyclic) {d e : String}
    (h₁ : Settles s (s.inherits d e) (.ok true)) (h₂ : Settles s (s.inherits e d) (.ok true)) :
    d = e := by
  rcases inherits_sound h₁ with h | h | h
  · exact h
  · subst h
    exact (eq_object_of_inherits ho h₂)
  · rcases inherits_sound h₂ with h' | h' | h'
    · exact h'.symm
    · subst h'
      exact (eq_object_of_inherits ho h₁).symm
    · exact absurd (h.trans h') (hs d)

/-! ### All names declared -/

/-- Every supertype listed is declared. -/
def ParentsKnown (s : Setting) : Prop :=
  ∀ decl l, s.lineageOf decl = some l → ∀ n ∈ l.parents, (s.lineageOf n.decl).isSome

/-- Every declaration that is reached from the declaration can be read. -/
def Readable (s : Setting) (decl : String) : Prop :=
  ∀ d, Relation.ReflTransGen s.Parent decl d → (s.lineageOf d).isSome

/-- What is reached from a readable declaration is readable. -/
theorem Readable.parent {decl d : String} (h : s.Readable decl) (hup : s.Parent decl d) : s.Readable d :=
  fun e he => h e (.head hup he)

/-- If all supertypes are declared, known declarations are readable. -/
theorem ParentsKnown.readable (hk : s.ParentsKnown) {decl : String} (h : (s.lineageOf decl).isSome) :
    s.Readable decl := by
  intro d hd
  induction hd with
  | refl => exact h
  | tail _ hup _ =>
    obtain ⟨l, hl, n, hn, rfl⟩ := hup
    exact hk _ l hl n hn

/-- A known declaration can be entered. -/
theorem mem_enterable {decl : String} (h : (s.lineageOf decl).isSome) : decl ∈ s.enterable := by
  unfold lineageOf at h
  cases hd : s.catalog.find? decl with
  | none =>
    rw [hd] at h
    by_cases ho : decl = objectName
    · exact ho ▸ List.mem_cons_self
    · simp [ho] at h
  | some d =>
    have hname := List.find?_some hd
    refine List.mem_cons_of_mem _ (List.mem_map.2 ⟨d, List.mem_of_find?_eq_some hd, ?_⟩)
    simpa using hname

/-- An element that is not left passed the test. -/
theorem mem_of_dropWhile_eq {α : Type} {p : α → Bool} {as rest : List α} (h : as.dropWhile p = rest) {a : α}
    (ha : a ∈ as) : a ∈ rest ∨ p a = true := by
  rw [← List.takeWhile_append_dropWhile (l := as), h, List.mem_append] at ha
  exact ha.symm.imp_right List.mem_takeWhile_imp

/-- A walk has entered the declarations that can be entered and do not remain. -/
def Entered (s : Setting) (remaining : List String) (decl : String) : Prop :=
  decl ∈ s.enterable ∧ decl ∉ remaining

/-- **If the walk does not come to the goal, the goal is above no stacked declaration**, and above
none that was entered, as long as their supertypes are stacked or entered. -/
theorem walksTo_complete (s : Setting) (goal : String) (remaining stack : List String)
    (hentered : ∀ d, s.Entered remaining d → d ≠ goal ∧
      ∀ p, s.Parent d p → p ∈ stack ∨ s.Entered remaining p)
    (h : Settles s (s.walksTo goal remaining stack) (.ok false)) {d : String}
    (hd : d ∈ stack ∨ s.Entered remaining d) : ¬ Relation.ReflTransGen s.Parent d goal := by
  have hskipped : ∀ {e : String} {stack rest remaining : List String},
      stack.dropWhile (fun d => d != goal && (s.enterable.contains d && !remaining.contains d)) = rest →
        e ∈ stack → e ∈ rest ∨ (e ≠ goal ∧ s.Entered remaining e) := fun hrest he => by
    simpa [Entered] using mem_of_dropWhile_eq hrest he
  fun_induction s.walksTo goal remaining stack generalizing d with
  | case1 remaining stack hstack =>
    -- everything stacked was entered before, so what was entered is closed under supertypes
    have hin : ∀ {e}, e ∈ stack ∨ s.Entered remaining e → s.Entered remaining e := fun he =>
      he.elim (fun he => ((hskipped hstack he).resolve_left List.not_mem_nil).2) id
    have hclosed : ∀ x, Relation.ReflTransGen s.Parent d x → s.Entered remaining x := fun x hx =>
      hx.rec (hin hd) fun _ hup ih => hin ((hentered _ ih).2 _ hup)
    exact fun hreach => (hentered goal (hclosed goal hreach)).1 rfl
  | case2 remaining stack rest hstack =>
    have := h.unique (.pure true)
    injection this with this
    cases this
  | case3 remaining stack e rest hstack he ih =>
    obtain ⟨l, hl, h⟩ := h.of_bind (lineage_steady s e) fun l _ => by
      split
      · exact walksTo_steady ..
      · exact .pure _
    have hl := lineage_settles_iff.1 hl
    have henter : e ∈ s.enterable := mem_enterable (by rw [hl]; rfl)
    split at h
    · next hmem =>
      have hkept : ∀ {x}, x ∈ stack ∨ s.Entered remaining x →
          x ∈ (l.parents.map Nominal.decl).reverse ++ rest ∨ s.Entered (without remaining e) x := by
        have hmore : ∀ {x}, s.Entered remaining x → s.Entered (without remaining e) x := fun hx =>
          ⟨hx.1, fun hx' => hx.2 (List.mem_filter.1 hx').1⟩
        rintro x (hx | hx)
        · rcases hskipped hstack hx with hx | hx
          · rcases List.mem_cons.1 hx with rfl | hx
            · exact .inr ⟨henter, by simp [without]⟩
            · exact .inl (List.mem_append_right _ hx)
          · exact .inr (hmore hx.2)
        · exact .inr (hmore hx)
      refine ih l hmem (fun x hx => ?_) h (hkept hd)
      by_cases hxe : x = e
      · subst hxe
        refine ⟨he, fun p hp => .inl (List.mem_append_left _ ?_)⟩
        obtain ⟨l', hl', n, hn, rfl⟩ := hp
        rw [hl] at hl'
        injection hl' with hl'
        subst hl'
        exact List.mem_reverse.2 (List.mem_map_of_mem hn)
      · have hx' : s.Entered remaining x := ⟨hx.1, fun hmem' => hx.2 (by simp [without, hmem', hxe])⟩
        exact ⟨(hentered x hx').1, fun p hp => hkept ((hentered x hx').2 p hp)⟩
    · next hmem =>
      have hhead := List.head?_dropWhile_not
        (fun d => d != goal && (s.enterable.contains d && !remaining.contains d)) stack
      rw [hstack] at hhead
      simp [he, henter, hmem] at hhead

/-- **Where all that is reached can be read, the walk up answers.** -/
theorem walksTo_answerable (goal : String) (remaining stack : List String)
    (h : ∀ d ∈ stack, s.Readable d) : Answerable s (s.walksTo goal remaining stack) := by
  fun_induction s.walksTo goal remaining stack with
  | case1 => exact .pure _
  | case2 => exact .pure _
  | case3 remaining stack d rest hstack hd ih =>
    have hsub : ∀ e ∈ d :: rest, e ∈ stack := fun e he =>
      (List.dropWhile_sublist _).subset (hstack ▸ he)
    have hread := h d (hsub d List.mem_cons_self)
    obtain ⟨l, hl⟩ := Option.isSome_iff_exists.1 (hread d .refl)
    refine Answerable.bind ⟨l, lineage_settles_iff.2 hl⟩ fun l' hl' => ?_
    have := (lineage_settles_iff.2 hl).unique hl'
    injection this with this
    subst this
    split
    · next hmem =>
      refine ih l hmem fun e he => ?_
      rcases List.mem_append.1 he with he | he
      · rw [List.mem_reverse] at he
        obtain ⟨n, hn, rfl⟩ := List.mem_map.1 he
        exact hread.parent ⟨l, hl, n, hn, rfl⟩
      · exact h e (hsub e (List.mem_cons_of_mem _ he))
    · exact .pure _

section Reaching

open Classical

variable {decl : String}

/-- **Where all that is reached can be read, it is known whether an ancestor is reached.** -/
theorem reaches_settles (h : s.Readable decl) (goal : String) :
    Settles s (s.reaches decl goal) (.ok (decide (Relation.ReflTransGen s.Parent decl goal))) := by
  obtain ⟨r, hr⟩ := walksTo_answerable goal s.enterable [decl] (by simpa using h)
  suffices r = decide (Relation.ReflTransGen s.Parent decl goal) from this ▸ hr
  cases r with
  | true =>
    obtain ⟨d, hd, hreach⟩ := walksTo_sound s goal s.enterable [decl] hr
    rw [List.mem_singleton.1 hd] at hreach
    exact (decide_eq_true hreach).symm
  | false =>
    refine (decide_eq_false ?_).symm
    exact walksTo_complete s goal s.enterable [decl] (fun d hd => absurd hd.1 hd.2) hr (.inl (by simp))

/-- **The way up to an ancestor goes through the first direct supertype from which it is reached.** -/
theorem leadsTo?_settles_find (h : s.Readable decl) {l : Lineage} (ancestor : String)
    (hl : s.lineageOf decl = some l) : Settles s (s.leadsTo? decl ancestor)
      (.ok (l.parents.find? fun n => decide (Relation.ReflTransGen s.Parent n.decl ancestor))) :=
  leadsTo?_settles ((lineage_settles_iff.2 hl).bind
    (Settles.first? fun n hn => reaches_settles (h.parent ⟨l, hl, n, hn, rfl⟩) ancestor))

/-- Some direct supertype leads to the ancestors, and none to anything else. -/
theorem isSome_find?_iff {l : Lineage} (hl : s.lineageOf decl = some l) (ancestor : String) :
    (l.parents.find? fun n => decide (Relation.ReflTransGen s.Parent n.decl ancestor)).isSome ↔
      Relation.TransGen s.Parent decl ancestor := by
  rw [List.find?_isSome, Relation.TransGen.head'_iff]
  constructor
  · rintro ⟨n, hn, hreach⟩
    exact ⟨n.decl, ⟨l, hl, n, hn, rfl⟩, of_decide_eq_true hreach⟩
  · rintro ⟨_, ⟨l', hl', n, hn, rfl⟩, hreach⟩
    rw [hl] at hl'
    cases hl'
    exact ⟨n, hn, decide_eq_true hreach⟩

/-- **A declaration inherits from itself, from the top declaration and from its ancestors**, and from nothing
else, where all that is reached can be read. -/
theorem inherits_settles (h : s.Readable decl) (ancestor : String) : Settles s (s.inherits decl ancestor)
    (.ok (decide (decl = ancestor ∨ ancestor = objectName ∨ Relation.TransGen s.Parent decl ancestor))) := by
  obtain ⟨l, hl⟩ := Option.isSome_iff_exists.1 (h decl .refl)
  unfold inherits
  split
  · next heq =>
    rw [decide_eq_true (.inl heq)]
    exact .pure _
  · next hne =>
    split
    · next hobject =>
      rw [decide_eq_true (.inr (.inl hobject))]
      exact (lineage_settles_iff.2 hl).bind (.pure _)
    · next hobject =>
      have hsome := isSome_find?_iff hl ancestor
      simp only [hne, hobject, false_or, ← hsome, Bool.decide_eq_true]
      exact (leadsTo?_settles_find h ancestor hl).bind (.pure _)

end Reaching

/-- Asking for the way up from a known declaration is answered. -/
theorem leadsTo?_answerable (hk : s.ParentsKnown) {decl : String} (ancestor : String)
    (h : (s.lineageOf decl).isSome) : Answerable s (s.leadsTo? decl ancestor) := by
  obtain ⟨l, hl⟩ := Option.isSome_iff_exists.1 h
  exact ⟨_, leadsTo?_settles_find (hk.readable h) ancestor hl⟩

/-- **Where all names are declared, some direct supertype leads to every ancestor.** -/
theorem leadsTo?_complete (hk : s.ParentsKnown) {decl ancestor : String}
    (h : Relation.TransGen s.Parent decl ancestor) :
    ∃ parent, Settles s (s.leadsTo? decl ancestor) (.ok (some parent)) := by
  obtain ⟨_, ⟨l, hl, -⟩, -⟩ := Relation.TransGen.head'_iff.1 h
  obtain ⟨parent, hparent⟩ := Option.isSome_iff_exists.1 ((isSome_find?_iff hl ancestor).2 h)
  exact ⟨parent, hparent ▸ leadsTo?_settles_find (hk.readable (Option.isSome_of_eq_some hl)) ancestor hl⟩

/-- Asking whether a known declaration inherits is answered. -/
theorem inherits_answerable (hk : s.ParentsKnown) {decl : String} (ancestor : String)
    (h : (s.lineageOf decl).isSome) : Answerable s (s.inherits decl ancestor) :=
  ⟨_, inherits_settles (hk.readable h) ancestor⟩

/-- **Where all names are declared, a declaration inherits from itself, from the top declaration and
from its ancestors**, and from nothing else. -/
theorem inherits_iff (hk : s.ParentsKnown) {decl ancestor : String} (h : (s.lineageOf decl).isSome) :
    Settles s (s.inherits decl ancestor) (.ok true) ↔
      decl = ancestor ∨ ancestor = objectName ∨ Relation.TransGen s.Parent decl ancestor := by
  refine ⟨inherits_sound, fun hup => ?_⟩
  classical
  exact decide_eq_true hup ▸ inherits_settles (hk.readable h) ancestor

/-! ### Ways up -/

open Classical in
/-- On the way up to an ancestor the second declaration comes after the first one: it is the first of the
direct supertypes from which the ancestor is reached. -/
def Heads (s : Setting) (ancestor decl next : String) : Prop :=
  decl ≠ ancestor ∧ ∃ l n, s.lineageOf decl = some l ∧
    (l.parents.find? fun p => decide (Relation.ReflTransGen s.Parent p.decl ancestor)) = some n ∧
      n.decl = next

/-- The way up goes on to the supertype that was found. -/
theorem heads_of_leadsTo? (hk : s.ParentsKnown) {decl ancestor : String} {parent : Nominal}
    (hne : decl ≠ ancestor) (h : Settles s (s.leadsTo? decl ancestor) (.ok (some parent))) :
    s.Heads ancestor decl parent.decl := by
  obtain ⟨⟨l, hl, -⟩, -⟩ := leadsTo?_sound h
  have hfind := h.unique (leadsTo?_settles_find (hk.readable (Option.isSome_of_eq_some hl)) ancestor hl)
  injection hfind with hfind
  exact ⟨hne, l, parent, hl, hfind.symm, rfl⟩

namespace Heads

variable {ancestor decl next next' : String}

/-- The way up goes on to one supertype. -/
theorem unique (h : s.Heads ancestor decl next) (h' : s.Heads ancestor decl next') : next = next' := by
  obtain ⟨-, l, n, hl, hn, rfl⟩ := h
  obtain ⟨-, l', n', hl', hn', rfl⟩ := h'
  rw [hl] at hl'
  cases hl'
  rw [hn] at hn'
  cases hn'
  rfl

/-- The way up goes on to a direct supertype. -/
theorem parent (h : s.Heads ancestor decl next) : s.Parent decl next := by
  obtain ⟨-, l, n, hl, hn, hdecl⟩ := h
  exact ⟨l, hl, n, List.mem_of_find?_eq_some hn, hdecl⟩

/-- From where the way up goes on, the ancestor is reached. -/
theorem reaches (h : s.Heads ancestor decl next) : Relation.ReflTransGen s.Parent next ancestor := by
  obtain ⟨-, l, n, -, hn, rfl⟩ := h
  simpa using List.find?_some hn

/-- A declaration from which there is a way has an ancestor. -/
theorem inherits (h : s.Heads ancestor decl next) : Relation.TransGen s.Parent decl ancestor :=
  .head' h.parent h.reaches

/-- The way up is one by direct supertypes. -/
theorem parents (h : Relation.ReflTransGen (s.Heads ancestor) decl next) :
    Relation.ReflTransGen s.Parent decl next :=
  h.lift id fun _ _ => parent

/-- What lies on a loop leads to what lies on a loop. -/
theorem loop (hreach : Relation.ReflTransGen (s.Heads ancestor) decl next)
    (hloop : Relation.TransGen (s.Heads ancestor) decl decl) :
    Relation.TransGen (s.Heads ancestor) next next := by
  induction hreach with
  | refl => exact hloop
  | tail _ hstep ih =>
    obtain ⟨e, hfirst, hback⟩ := Relation.TransGen.head'_iff.1 ih
    obtain rfl := hfirst.unique hstep
    exact Relation.TransGen.tail' hback hstep

/-- **A way that comes to the ancestor meets no declaration twice.** -/
theorem no_loop (h : Relation.ReflTransGen (s.Heads ancestor) decl ancestor)
    (hreach : Relation.ReflTransGen (s.Heads ancestor) decl next) :
    ¬ Relation.TransGen (s.Heads ancestor) next next := by
  have hend : ∀ {e}, ¬ s.Heads ancestor ancestor e := fun he => he.1 rfl
  have hunique : Relator.RightUnique (s.Heads ancestor) := fun _ _ _ => unique
  intro hloop
  obtain ⟨e, hstep, -⟩ := Relation.TransGen.head'_iff.1 hloop
  rcases Relation.ReflTransGen.total_of_right_unique hunique h hreach with hto | hto
  · rcases hto.cases_head with rfl | ⟨e, hstep, -⟩
    · exact hend hstep
    · exact hend hstep
  · obtain ⟨e, hstep, -⟩ := Relation.TransGen.head'_iff.1 (loop hto hloop)
    exact hend hstep

end Heads

end Setting
end Generics
