/-
# Sessions

In a session questions are asked about a catalog that grows and heals, and one memory serves them all,
whatever the options of each. What was learnt is never asked for again, so it must stay right. It does
if the catalog changes nothing that could be read from it (`Setting.Upholds`): a declaration that is read
again reads the same, and so the walk that found a way up would find the same one
(`seek?_upheld`). And what is learnt does not show: asked in two faithful memories that agree
on the captured variables, a question has one answer (`Composed.oblivious`). So in a session the memory
could be forgotten at any time (`memory_is_invisible`).
-/

import Generics.Catalog.Standard
import Generics.Proofs.Catalogs
import Generics.Proofs.Confinement

namespace Generics

/-- A question about types. -/
inductive Question
  | params (decl : String)
  | below (a b : Ty)
  | equivalent (a b : Ty)
  | capture (n : Nominal)
  | supertypeAs (n : Nominal) (ancestor : String)
  | check (t : Ty)
  | infer (target : Ty) (decl : String)

/-- What a question about types is answered with. -/
inductive Reply
  | params (vars : List TypeVar)
  | truth (yes : Bool)
  | applied (n : Nominal)
  | supertype (n : Option Nominal)
  | passed
  | inferred (i : Inference.Inferred)
deriving DecidableEq

namespace Question

/-- Asks a question. -/
def ask (s : Setting) : Question → Query Reply
  | .params decl => do return .params (← s.params decl)
  | .below a b => do return .truth (← s.below a b)
  | .equivalent a b => do return .truth (← s.equivalent a b)
  | .capture n => do return .applied (← s.capture n)
  | .supertypeAs n ancestor => do return .supertype (← s.supertypeAs n ancestor)
  | .check t => do
    t.check s
    return .passed
  | .infer target decl => do return .inferred (← Inference.infer s target decl)

/-- What the question is about is in the realm. -/
def In (K : Realm) : Question → Prop
  | .params decl => K.decl decl
  | .below a b => a.In K ∧ b.In K
  | .equivalent a b => a.In K ∧ b.In K
  | .capture n => n.In K
  | .supertypeAs n _ => n.In K
  | .check t => t.In K
  | .infer target decl => target.In K ∧ K.decl decl

/-- Every question is in the realm of everything. -/
theorem in_all : ∀ q : Question, q.In .all
  | .params _ => trivial
  | .below a b => ⟨a.in_all, b.in_all⟩
  | .equivalent a b => ⟨a.in_all, b.in_all⟩
  | .capture n => n.in_all
  | .supertypeAs n _ => n.in_all
  | .check t => t.in_all
  | .infer target _ => ⟨target.in_all, trivial⟩

open Query in
/-- **Every question is composed of the basic ones**, and stays in the realm of what it is about. -/
theorem ask_composed {s : Setting} {K : Realm} (hK : K.Closed s.catalog) (q : Question) (h : q.In K) :
    Stays s K (q.ask s) := by
  cases q with
  | params decl => exact (Setting.params_composed h).bind fun _ _ => .pure trivial
  | below a b => exact (Setting.below_composed hK h.1 h.2).bind fun _ _ => .pure trivial
  | equivalent a b => exact (Setting.equivalent_composed hK h.1 h.2).bind fun _ _ => .pure trivial
  | capture n => exact (Setting.capture_composed hK h).bind fun _ _ => .pure trivial
  | supertypeAs n ancestor =>
    exact (Setting.supertypeAs_composed hK h ancestor).bind fun _ _ => .pure trivial
  | check t => exact (t.check_composed hK h).bind fun _ _ => .pure trivial
  | infer target decl =>
    exact (Inference.infer_composed hK h.1 h.2).bind fun _ _ => .pure trivial

/-- Wherever a question goes, it is composed of the basic ones. -/
theorem ask_stays (q : Question) (s : Setting) : Query.Stays s .all (q.ask s) :=
  q.ask_composed (Realm.closed_all s.catalog) q.in_all

end Question

/-! ### What stays readable -/

namespace Setting

open Query

/-- Whatever can be read in the first setting reads the same in the second one. -/
def Upholds (s s' : Setting) : Prop := ∀ decl l, s.lineageOf decl = some l → s'.lineageOf decl = some l

variable {s s' : Setting}

/-- What is learnt of a declaration is the same in a setting that upholds the first one. -/
theorem Upholds.lineage (h : s.Upholds s') {decl : String} {l : Lineage}
    (hl : Settles s (s.lineage decl) (.ok l)) : Settles s' (s'.lineage decl) (.ok l) :=
  lineage_settles_iff.2 (h decl l (lineage_settles_iff.1 hl))

/-- A walk that answers answers the same where everything it read reads the same, although there may be
more declarations to enter. -/
theorem walksTo_upheld (h : s.Upholds s') {goal : String} {remaining remaining' stack : List String}
    (hentered : ∀ d, s'.Entered remaining' d ↔ s.Entered remaining d) {r : Bool}
    (hwalk : Settles s (s.walksTo goal remaining stack) (.ok r)) :
    Settles s' (s'.walksTo goal remaining' stack) (.ok r) := by
  have hskips : (fun d => d != goal && (s'.enterable.contains d && !remaining'.contains d)) =
      fun d => d != goal && (s.enterable.contains d && !remaining.contains d) := by
    funext d
    have hd := hentered d
    simp only [Entered] at hd
    grind
  fun_induction s.walksTo goal remaining stack generalizing remaining' with
  | case1 remaining stack hstack =>
    rw [walksTo, hskips, hstack]
    obtain rfl : r = false := by simpa using hwalk.unique (.pure false)
    exact .pure _
  | case2 remaining stack rest hstack =>
    rw [walksTo, hskips, hstack]
    obtain rfl : r = true := by simpa using hwalk.unique (.pure true)
    simp only [if_pos]
    exact .pure _
  | case3 remaining stack d rest hstack hd ih =>
    obtain ⟨l, hl, hwalk⟩ := hwalk.of_bind (lineage_steady s d) fun l _ => by
      split
      · exact walksTo_steady ..
      · exact .pure _
    have hl' := h.lineage hl
    have henter : d ∈ s.enterable := mem_enterable (by rw [lineage_settles_iff.1 hl]; rfl)
    have henter' : d ∈ s'.enterable := mem_enterable (by rw [lineage_settles_iff.1 hl']; rfl)
    -- what stands at the head was not entered, so it remains
    have hnew : ¬ s.Entered remaining d := by
      have hhead := List.head?_dropWhile_not
        (fun d => d != goal && (s.enterable.contains d && !remaining.contains d)) stack
      rw [hstack] at hhead
      simpa [hd, Entered] using hhead
    have hmem : d ∈ remaining := by
      by_contra hmem
      exact hnew ⟨henter, hmem⟩
    have hmem' : d ∈ remaining' := by
      by_contra hmem'
      exact hnew ((hentered d).1 ⟨henter', hmem'⟩)
    rw [dif_pos hmem] at hwalk
    rw [walksTo, hskips, hstack]
    simp only [if_neg hd, dif_pos hmem']
    have hentered' : ∀ e, s'.Entered (without remaining' d) e ↔ s.Entered (without remaining d) e := by
      intro e
      have he := hentered e
      simp only [Entered, without, List.mem_filter] at he ⊢
      grind
    refine hl'.bind (ih l hmem hentered' hwalk ?_)
    funext e
    have he := hentered' e
    simp only [Entered] at he
    grind

/-- The parent towards an ancestor is the same in a setting that upholds the first one. -/
theorem seek?_upheld (h : s.Upholds s') {decl ancestor : String} {o : Option Nominal}
    (hseek : Settles s (s.seek? decl ancestor) (.ok o)) :
    Settles s' (s'.seek? decl ancestor) (.ok o) := by
  obtain ⟨l, hl, hfirst⟩ := hseek.of_bind (lineage_steady s decl) fun _ _ =>
    Steady.first? fun _ _ => walksTo_steady ..
  refine (h.lineage hl).bind ?_
  have hreach : ∀ (n : Nominal) (r : Bool), Settles s (s.reaches n.decl ancestor) (.ok r) →
      Settles s' (s'.reaches n.decl ancestor) (.ok r) := fun n r =>
    walksTo_upheld h fun d => by simp [Entered]
  generalize l.parents = ns at hfirst
  clear hseek
  induction ns generalizing o with
  | nil =>
    obtain rfl : o = none := by simpa using hfirst.unique (.pure none)
    exact .pure _
  | cons n ns ih =>
    obtain ⟨r, hr, hrest⟩ := hfirst.of_bind (walksTo_steady ..) fun r _ => by
      split
      · exact .pure _
      · exact Steady.first? fun _ _ => walksTo_steady ..
    refine (hreach n r hr).bind ?_
    cases r with
    | true =>
      obtain rfl : o = some n := by simpa using hrest.unique (.pure (some n))
      exact .pure _
    | false => exact ih hrest

end Setting

/-- **What is known stays right where whatever could be read reads the same.** -/
theorem Memory.Faithful.upheld {s s' : Setting} {m : Memory} (hm : m.Faithful s) (h : s.Upholds s') :
    m.Faithful s' := by
  refine ⟨fun l hl => h _ l (hm.1 l hl), fun r hr => ?_⟩
  have hcatalog : ∀ s : Setting, Setting.seek? { catalog := s.catalog } = s.seek? := fun s =>
    Setting.seek?_congr _ s rfl
  have hroute := hm.2 r hr
  rw [hcatalog] at hroute ⊢
  obtain ⟨v, hv⟩ := Setting.seek?_steady s r.decl r.ancestor
  obtain rfl : v = .ok r.parent := (hv {} (Memory.faithful_empty s)).1.symm.trans hroute
  exact (Setting.seek?_upheld h hv {} (Memory.faithful_empty s')).1

/-! ### What is learnt does not show -/

namespace Query

variable {α β : Type} {s : Setting} {q : Query α}

/-- Asked in two faithful memories that differ only in what they learnt, the question has one outcome and
leaves two such memories. -/
structure Oblivious (s : Setting) (q : Query α) : Prop where
  faithful : s.KeepsFaith q
  same : ∀ m m', m.Faithful s → m'.Faithful s → m.Learns m' →
    (q.outcome m').1 = (q.outcome m).1 ∧ (q.outcome m).2.Learns (q.outcome m').2

/-- Answering at once is oblivious of what was learnt. -/
theorem Oblivious.pure (a : α) : Oblivious s (pure a) := ⟨.pure a, fun _ _ _ _ h => ⟨rfl, h⟩⟩

/-- Failing at once is oblivious of what was learnt. -/
theorem Oblivious.throw (f : Failure) : Oblivious s (throw f : Query α) :=
  ⟨.throw f, fun _ _ _ _ h => ⟨rfl, h⟩⟩

/-- Changing the memory is oblivious if it keeps memories alike. -/
theorem Oblivious.modify {f : Memory → Memory} (hf : ∀ m, m.Faithful s → (f m).Faithful s)
    (h : ∀ m m', m.Learns m' → (f m).Learns (f m')) : Oblivious s (modify f) :=
  ⟨.modify hf, fun m m' _ _ hl => ⟨rfl, h m m' hl⟩⟩

/-- Oblivious questions that go on obliviously are oblivious. -/
theorem Oblivious.bind {f : α → Query β} (hq : Oblivious s q)
    (hf : ∀ m a, m.Faithful s → (q.outcome m).1 = .ok a → Oblivious s (f a)) :
    Oblivious s (q >>= f) := by
  constructor
  · intro m hm
    have hm₁ := hq.faithful m hm
    rw [outcome_bind]
    rcases hq' : q.outcome m with ⟨(e | a), m₁⟩
    · rwa [hq'] at hm₁
    · rw [hq'] at hm₁
      exact (hf m a hm (by rw [hq'])).faithful m₁ hm₁
  · intro m m' hm hm' hl
    have hm₁ := hq.faithful m hm
    have hm₁' := hq.faithful m' hm'
    obtain ⟨hsame, hl₁⟩ := hq.same m m' hm hm' hl
    rw [outcome_bind, outcome_bind]
    rcases hfirst : q.outcome m with ⟨o, m₁⟩
    rcases hsecond : q.outcome m' with ⟨o', m₁'⟩
    rw [hfirst] at hm₁ hsame hl₁
    rw [hsecond] at hm₁' hsame hl₁
    obtain rfl : o' = o := hsame
    cases o' with
    | error e => exact ⟨rfl, hl₁⟩
    | ok a => exact (hf m a hm (by rw [hfirst])).same m₁ m₁' hm₁ hm₁' hl₁

/-- Reading the memory is oblivious if what is read does not depend on what was learnt. -/
theorem Oblivious.look {f : Memory → Query α} (heq : ∀ m m', m.Learns m' → f m' = f m)
    (hf : ∀ m, Oblivious s (f m)) : Oblivious s (get >>= f) := by
  have hget : ∀ m, (get >>= f : Query α).outcome m = (f m).outcome m := fun m => by
    rw [outcome_bind]
    rfl
  constructor
  · intro m hm
    exact hget m ▸ (hf m).faithful m hm
  · intro m m' hm hm' hl
    rw [hget, hget, heq m m' hl]
    exact (hf m).same m m' hm hm' hl

/-- Questions that are steady are oblivious. -/
theorem Steady.oblivious (h : Steady s q) : Oblivious s q := by
  obtain ⟨v, hv⟩ := h
  refine ⟨fun m hm => (hv m hm).2.1, fun m m' hm hm' hl => ?_⟩
  obtain ⟨ho, -, hl₁⟩ := hv m hm
  obtain ⟨ho', -, hl₁'⟩ := hv m' hm'
  exact ⟨ho'.trans ho.symm, hl₁.symm.trans (hl.trans hl₁')⟩

open Setting in
/-- Capturing is oblivious if computing the bounds is. -/
theorem capture_oblivious {n : Nominal}
    (hbounds : ∀ σ last params, Oblivious s (s.captureBounds σ last params n.args)) :
    Oblivious s (s.capture n) := by
  unfold Setting.capture
  split
  · refine (params_steady s _).oblivious.bind fun _ params _ _ => ?_
    split
    · exact .throw _
    · refine .look (fun m m' hl => by rw [hl.last]) fun m => ?_
      refine .bind (.modify (fun _ hm => hm) fun _ _ hl => ⟨hl.captured, rfl, hl.built⟩)
        fun _ _ _ _ => (hbounds _ _ _).bind fun _ cs _ _ => ?_
      refine .bind (.modify (fun _ hm => hm) fun m m' hl => ?_) fun _ _ _ _ => .pure _
      exact ⟨congrArg (cs.reverse ++ ·) hl.captured, hl.last, hl.built⟩
  · exact .pure _

/-- **What is learnt does not show** in the answer of any question that is composed of the basic ones. -/
theorem Composed.oblivious {R : α → Prop} (hq : Composed s .all R q) : Oblivious s q := by
  induction hq with
  | pure => exact .pure _
  | throw => exact .throw _
  | bind hq _ ihq ihf =>
    have hanswers := (hq.ensures (Setting.keeps_faithful s).governs).answers
    exact ihq.bind fun m a hm ha => ihf a (hanswers m a hm ha)
  | lineage => exact (Setting.lineage_steady s _).oblivious
  | leadsTo? => exact (Setting.leadsTo?_steady s _ _).oblivious
  | noteBuilt =>
    exact .modify (fun _ hm => hm) fun m m' hl => ⟨hl.captured, hl.last, congrArg (· + 1) hl.built⟩
  | capture _ _ ih =>
    exact capture_oblivious fun σ last params => ih σ last params (fun _ t _ => t.in_all) fun _ _ => trivial
  | look heq _ ih => exact .look heq fun m => ih m fun _ _ => ⟨Ty.in_all _, Ty.in_all _⟩

end Query

/-! ### Sessions -/

/-- What may happen in a session. -/
inductive Act
  /-- Some definitions are declared, or refused. -/
  | declare (defs : List Definition)
  /-- A declaration is found that was not there before. -/
  | reveal (d : Declaration)
  /-- A part of a declaration becomes readable. -/
  | heal (decl : String) (part : Part)
  /-- A variable outside any declaration is made. -/
  | introduce (decl name : String) (upper : Ty)
  /-- A question is asked with some options. -/
  | ask (options : Options) (depth : Nat) (question : Question)

/-- Whether the act may bring a declaration of the name. -/
def Act.declares (name : String) : Act → Bool
  | .declare defs => defs.any fun d => d.name == name
  | .reveal d => d.name == name
  | _ => false

/-- The catalog after the act. -/
def Catalog.after [Alphabet] (c : Catalog) : Act → Catalog
  | .declare defs => (Registering.declare defs c).2
  | .reveal d => if c.has d.name then c else { c with decls := c.decls ++ [d] }
  | .heal decl part =>
    { c with faults := c.faults.filter fun f => !(f.decl == decl && f.part == part) }
  | .introduce decl name upper => (c.addFree decl name upper).2
  | .ask _ _ _ => c

/-- A catalog, and what is remembered of the questions asked about it. -/
structure Session where
  catalog : Catalog
  memory : Memory := {}

namespace Session

/-- The outcome of a question in the session, and the memory afterwards. -/
def reply (x : Session) (options : Options) (depth : Nat) (question : Question) :
    Except Failure Reply × Memory :=
  (question.ask ⟨x.catalog, options, depth⟩).outcome x.memory

/-- The session after one more act. -/
def step [Alphabet] (x : Session) (act : Act) : Session where
  catalog := x.catalog.after act
  memory := match act with
    | .ask options depth question => (x.reply options depth question).2
    | _ => x.memory

/-- The session after some acts. -/
def run [Alphabet] (x : Session) (acts : List Act) : Session := acts.foldl step x

/-- The session with nothing learnt about declarations and ways up. -/
def forget (x : Session) : Session := { x with memory := { x.memory with known := [], routes := [] } }

end Session

namespace Catalog

variable [Alphabet] {c : Catalog} {act : Act} {name : String} {d : Declaration}

/-- After definitions are declared there is what declaring answers, or what there was. -/
theorem after_declare_eq (c : Catalog) (defs : List Definition) :
    c.after (.declare defs) = (c.declare defs).toOption.getD c := Registering.state_declare c defs

/-- The declarations that were read have names that the act declares. -/
theorem declares_of_readAll {known : String → Bool} {defs : List Definition} {decls : List Declaration}
    (h : Definition.readAll known defs = .ok decls) :
    ∀ d ∈ decls, (Act.declare defs).declares d.name = true := by
  intro d hd
  obtain ⟨def', hdef, hname⟩ := List.mem_map.1 ((Definition.readAll_ok h).1 ▸ List.mem_map_of_mem hd)
  exact List.any_eq_true.2 ⟨def', hdef, beq_iff_eq.2 hname⟩

/-- An act adds declarations after those there are, if any. -/
theorem decls_after (c : Catalog) (act : Act) : ∃ decls, (c.after act).decls = c.decls ++ decls ∧
    ∀ d ∈ decls, act.declares d.name = true := by
  have hsame : ∃ decls, c.decls = c.decls ++ decls ∧ ∀ d ∈ decls, act.declares d.name = true :=
    ⟨[], (List.append_nil _).symm, by simp⟩
  cases act with
  | declare defs =>
    rw [after_declare_eq]
    cases hdecl : c.declare defs with
    | error f => exact hsame
    | ok c' =>
      obtain ⟨-, decls, hread, rfl⟩ := declare_eq hdecl
      exact ⟨decls, rfl, declares_of_readAll hread⟩
  | reveal d =>
    rw [after]
    split
    · exact hsame
    · exact ⟨[d], rfl, by simp [Act.declares]⟩
  | _ => exact hsame

/-- What is declared stays declared. -/
theorem find?_after (h : c.find? name = some d) : (c.after act).find? name = some d := by
  obtain ⟨decls, hdecls, -⟩ := decls_after c act
  rw [find?] at h
  rw [find?, hdecls, List.find?_append, h, Option.some_or]

/-- What no act declares is not declared. -/
theorem find?_after_none (h : c.find? name = none) (hact : act.declares name = false) :
    (c.after act).find? name = none := by
  obtain ⟨decls, hdecls, hnew⟩ := decls_after c act
  rw [find?] at h
  rw [find?, hdecls, List.find?_append, h, Option.none_or, List.find?_eq_none]
  intro d hd hname
  rw [beq_iff_eq.1 hname |>.symm, hnew d hd] at hact
  cases hact

/-- What was declared stays declared. -/
theorem has_after (h : c.has name = true) : (c.after act).has name = true := by
  obtain ⟨d, hd⟩ := Option.isSome_iff_exists.1 h
  rw [has, find?_after hd]
  rfl

/-- An act makes no new lookup fail. -/
theorem faults_after (c : Catalog) (act : Act) : (c.after act).faults ⊆ c.faults := by
  cases act with
  | declare defs =>
    rw [after_declare_eq]
    cases hdecl : c.declare defs with
    | error f => exact List.Subset.refl _
    | ok c' =>
      obtain ⟨-, decls, -, rfl⟩ := declare_eq hdecl
      exact List.Subset.refl _
  | reveal d =>
    rw [after]
    split <;> exact List.Subset.refl _
  | heal decl part => exact List.filter_subset_self _
  | _ => exact List.Subset.refl _

/-- What is readable stays readable. -/
theorem fault?_after {part : Part} (h : c.fault? name part = none) :
    (c.after act).fault? name part = none := by
  simp only [fault?, Option.map_eq_none_iff, List.find?_eq_none] at h ⊢
  exact fun f hf => h f (faults_after c act hf)

/-- **No act changes what could be read**, unless it declares the top declaration, which reads as a plain
one until then. -/
theorem upholds_after (h : c.has objectName = true ∨ act.declares objectName = false) :
    Setting.Upholds { catalog := c } { catalog := c.after act } := by
  intro decl l hl
  unfold Setting.lineageOf at hl ⊢
  cases hd : c.find? decl with
  | none =>
    by_cases ho : decl = objectName
    · subst ho
      have hnone := find?_after_none hd (h.resolve_left (by simp [has, hd]))
      simpa [hd, hnone] using hl
    · simp [hd, ho] at hl
  | some d =>
    have hfind : (c.after act).find? decl = some d := find?_after hd
    dsimp only at hl ⊢
    rw [hd] at hl
    rw [hfind]
    dsimp only at hl ⊢
    cases hparams : c.fault? decl .params with
    | some reason => simp [hparams] at hl
    | none =>
      cases hparents : c.fault? decl .parents with
      | some reason => simp [hparams, hparents] at hl
      | none =>
        rw [fault?_after hparams, fault?_after hparents]
        rwa [hparams, hparents] at hl

end Catalog

namespace Session

open Query

variable {x : Session} {acts : List Act}

/-- **What is remembered in a session is right at any time.** -/
theorem faithful_run [Alphabet] (hx : x.memory.Faithful { catalog := x.catalog })
    (h : x.catalog.has objectName = true ∨ ∀ act ∈ acts, act.declares objectName = false) :
    (x.run acts).memory.Faithful { catalog := (x.run acts).catalog } := by
  induction acts generalizing x with
  | nil => exact hx
  | cons act acts ih =>
    have hlater : x.catalog.has objectName = true ∨ act.declares objectName = false :=
      h.imp_right fun h => h act List.mem_cons_self
    refine ih ?_ (h.imp Catalog.has_after fun h act' hact' => h act' (List.mem_cons_of_mem _ hact'))
    refine Memory.Faithful.upheld ?_ (Catalog.upholds_after hlater)
    cases act with
    | ask options depth question =>
      have hcomposed := question.ask_stays ⟨x.catalog, options, depth⟩
      exact hcomposed.preserves (Setting.keeps_faithful _) x.memory hx
    | _ => exact hx

/-- A question leaves the answer that there is without what was learnt. -/
theorem reply_forget (hx : x.memory.Faithful { catalog := x.catalog }) (options : Options)
    (depth : Nat) (question : Question) :
    (x.reply options depth question).1 = (x.forget.reply options depth question).1 ∧
      (x.reply options depth question).2.captured = (x.forget.reply options depth question).2.captured := by
  have hcomposed := question.ask_stays ⟨x.catalog, options, depth⟩
  have hempty : x.forget.memory.Faithful { catalog := x.catalog } :=
    ⟨fun _ h => absurd h List.not_mem_nil, fun _ h => absurd h List.not_mem_nil⟩
  obtain ⟨hanswer, hlearns⟩ := hcomposed.oblivious.same x.memory x.forget.memory hx hempty
    ⟨rfl, rfl, rfl⟩
  exact ⟨hanswer.symm, hlearns.captured.symm⟩

/-- Nothing is remembered of a declaration that cannot be read. -/
theorem unread {s : Setting} {m : Memory} (hm : m.Faithful s) {decl : String}
    (h : s.lineageOf decl = none) : m.lineage? decl = none ∧ ∀ ancestor, m.route? decl ancestor = none := by
  constructor
  · by_contra hknown
    obtain ⟨l, hl⟩ := Option.ne_none_iff_exists'.1 hknown
    obtain ⟨hmem, rfl⟩ := Setting.lineage?_eq_some hl
    exact absurd ((hm.1 l hmem).symm.trans h) (by simp)
  · intro ancestor
    by_contra hknown
    obtain ⟨r, hr⟩ := Option.ne_none_iff_exists'.1 hknown
    obtain ⟨hmem, rfl, rfl⟩ := Setting.route?_eq_some hr
    have hroute := hm.2 r hmem
    rw [Setting.seek?_congr { catalog := s.catalog } s rfl] at hroute
    -- the way up was looked for from the supertypes of the declaration
    rcases Setting.lineage_settles s r.decl with ⟨l, hl, -⟩ | ⟨-, f, hf⟩
    · rw [h] at hl
      cases hl
    · have hseek : Settles s (s.seek? r.decl r.ancestor) (.error f) := hf.bind_error
      rw [(hseek {} (Memory.faithful_empty s)).1] at hroute
      cases hroute

/-- Asking for the parameters of a declaration looks it up. -/
theorem reply_params (x : Session) (options : Options) (depth : Nat) (decl : String) :
    x.reply options depth (.params decl) =
      match (Setting.lineage ⟨x.catalog, options, depth⟩ decl).outcome x.memory with
      | (.ok l, m) => (.ok (.params l.params), m)
      | (.error f, m) => (.error f, m) := by
  rw [reply, Question.ask, outcome_bind, Setting.params, outcome_bind]
  rcases (Setting.lineage ⟨x.catalog, options, depth⟩ decl).outcome x.memory with ⟨(f | l), m⟩ <;> rfl

/-- **A lookup that fails leaves nothing behind.** -/
theorem reply_params_error (hx : x.memory.Faithful { catalog := x.catalog }) {options : Options}
    {depth : Nat} {decl : String} {f : Failure}
    (h : (x.reply options depth (.params decl)).1 = .error f) :
    (x.reply options depth (.params decl)).2.known = x.memory.known ∧
      (x.reply options depth (.params decl)).2.routes = x.memory.routes ∧
      x.memory.lineage? decl = none ∧ ∀ ancestor, x.memory.route? decl ancestor = none := by
  rw [reply_params] at h ⊢
  rcases Setting.lineage_cases ⟨x.catalog, options, depth⟩ decl x.memory with
    ⟨l, -, hout⟩ | ⟨hnone, m', hlooks, ⟨l, -, hout, -⟩ | ⟨hunread, ⟨g, hout⟩, hknown⟩⟩ <;>
    rw [hout] at h ⊢
  · cases h
  · cases h
  · exact ⟨hknown, hlooks.routes, hnone, (unread hx hunread).2⟩

end Session

/-! ### What is known is not looked up -/

/-- The declaration is known, and was looked up so many times. -/
def Memory.Knows (decl : String) (n : Nat) (m : Memory) : Prop :=
  (m.lineage? decl).isSome ∧ m.asked.count decl = n

/-- Looking up one declaration asks for no other one. -/
theorem Memory.LooksUp.count_of_ne {d decl : String} {m m' : Memory} (h : m.LooksUp d m')
    (hne : d ≠ decl) : m'.asked.count decl = m.asked.count decl := by
  rcases h.asked with hasked | hasked
  · rw [hasked]
  · rw [hasked, List.count_cons_of_ne (by simpa using hne)]

/-- What is known after learning of a declaration. -/
theorem Memory.lineage?_isSome_cons {m m' : Memory} {l : Lineage} (h : m'.known = l :: m.known)
    {decl : String} : (m'.lineage? decl).isSome ↔ l.decl = decl ∨ (m.lineage? decl).isSome := by
  rw [lineage?, h]
  by_cases hdecl : l.decl = decl
  · simp [hdecl]
  · rw [List.find?_cons_of_neg (by simpa using hdecl), lineage?]
    simp only [hdecl, false_or]

namespace Setting

open Query

variable {s : Setting}

/-- A kind of memory that does not depend on ways up is kept if lookups keep it. -/
theorem Keeps.of_lookups {I : Memory → Prop}
    (hI : ∀ m m' : Memory, m'.known = m.known → m'.asked = m.asked → I m → I m')
    (hlineage : ∀ decl, Preserves I (s.lineage decl)) : s.Keeps I := by
  refine .of_learnt (fun m m' hknown _ => hI m m' hknown) hlineage fun d ancestor hseek m hm => ?_
  have hseek := hseek m hm
  rw [leadsTo?_outcome]
  cases m.route? d ancestor with
  | some r => exact hm
  | none =>
    rcases hout : (s.seek? d ancestor).outcome m with ⟨(f | parent), m₁⟩ <;> rw [hout] at hseek
    · exact hseek
    · exact hI m₁ _ rfl rfl hseek

/-- **A declaration that is known is not looked up**, and stays known. -/
theorem keeps_knows (s : Setting) (decl : String) (n : Nat) : s.Keeps (Memory.Knows decl n) := by
  refine .of_lookups (fun m m' hknown hasked hm => ?_) fun d m hm => ?_
  · rw [Memory.Knows, Memory.lineage?, hknown, hasked]
    exact hm
  · have hcount : m.lineage? d = none → ∀ m', m.LooksUp d m' → m'.asked.count decl = n := by
      intro hnew m' hlooks
      refine (hlooks.count_of_ne ?_).trans hm.2
      rintro rfl
      simpa [hnew] using hm.1
    rcases s.lineage_cases d m with
      ⟨l, -, hout⟩ | ⟨hnew, m', hlooks, ⟨l, -, hout, hknown⟩ | ⟨-, ⟨f, hout⟩, hknown⟩⟩ <;> rw [hout]
    · exact hm
    · exact ⟨(Memory.lineage?_isSome_cons hknown).2 (.inr hm.1), hcount hnew m' hlooks⟩
    · refine ⟨?_, hcount hnew m' hlooks⟩
      rw [Memory.lineage?, hknown]
      exact hm.1

/-- **A declaration that can be read is known once it is looked up.** -/
theorem keeps_lookups {decl : String} (h : s.lineageOf decl ≠ none) (n : Nat) :
    s.Keeps fun m => (m.lineage? decl).isSome ∨ m.asked.count decl = n := by
  refine .of_lookups (fun m m' hknown hasked hm => ?_) fun d m hm => ?_
  · rw [Memory.lineage?, hknown, hasked]
    exact hm
  · rcases s.lineage_cases d m with
      ⟨l, -, hout⟩ | ⟨-, m', hlooks, ⟨l, hl, hout, hknown⟩ | ⟨hnone, ⟨f, hout⟩, hknown⟩⟩ <;> rw [hout]
    · exact hm
    · rw [Memory.lineage?_isSome_cons hknown, lineageOf_decl hl]
      rcases eq_or_ne d decl with heq | hne
      · exact .inl (.inl heq)
      · exact hm.imp .inr (hlooks.count_of_ne hne).trans
    · have hne : d ≠ decl := by
        rintro rfl
        exact h hnone
      rw [Memory.lineage?, hknown]
      exact hm.imp_right (hlooks.count_of_ne hne).trans

end Setting

namespace Session

open Query

variable {x : Session} {acts : List Act}

/-- **What is known of a declaration stays known, and it is not looked up again**, throughout a run. -/
theorem knows_run [Alphabet] {decl : String} {n : Nat} (hx : x.memory.Knows decl n) :
    (x.run acts).memory.Knows decl n := by
  induction acts generalizing x with
  | nil => exact hx
  | cons act acts ih =>
    refine ih ?_
    cases act with
    | ask options depth question =>
      have hcomposed := question.ask_stays ⟨x.catalog, options, depth⟩
      exact hcomposed.preserves (Setting.keeps_knows _ decl n) x.memory hx
    | _ => exact hx

/-- After a lookup that succeeds the declaration is known, and it can be read. -/
theorem reply_params_ok (hx : x.memory.Faithful { catalog := x.catalog }) {options : Options}
    {depth : Nat} {decl : String} {r : Reply}
    (h : (x.reply options depth (.params decl)).1 = .ok r) :
    ((x.reply options depth (.params decl)).2.lineage? decl).isSome ∧
      ({ catalog := x.catalog } : Setting).lineageOf decl ≠ none := by
  rw [reply_params] at h ⊢
  rcases Setting.lineage_cases ⟨x.catalog, options, depth⟩ decl x.memory with
    ⟨l, hl, hout⟩ | ⟨-, m', -, ⟨l, hl, hout, hknown⟩ | ⟨-, ⟨g, hout⟩, -⟩⟩ <;> rw [hout] at h ⊢
  · obtain ⟨hmem, rfl⟩ := Setting.lineage?_eq_some hl
    exact ⟨by simp [hl], by simp [hx.1 l hmem]⟩
  · refine ⟨(Memory.lineage?_isSome_cons hknown).2 (.inl (Setting.lineageOf_decl hl)), ?_⟩
    exact fun hnone => absurd (hl.symm.trans hnone) (by simp)
  · cases h

/-- **What is looked up and can be read is not looked up again**, whatever happens. -/
theorem looked_up_once [Alphabet] (hx : x.memory.Faithful { catalog := x.catalog }) {options : Options}
    {depth : Nat} {question : Question} {decl : String} {r : Reply}
    (hread : (x.reply options depth (.params decl)).1 = .ok r)
    (hlooks : question = .params decl ∨
      x.memory.asked.count decl < (x.reply options depth question).2.asked.count decl)
    (later : List Act) :
    (x.run (.ask options depth question :: later)).memory.asked.count decl =
      (x.reply options depth question).2.asked.count decl := by
  have hknown : ((x.reply options depth question).2.lineage? decl).isSome := by
    rcases hlooks with rfl | hlooks
    · exact (reply_params_ok hx hread).1
    · have hcomposed := question.ask_stays ⟨x.catalog, options, depth⟩
      have hkeeps := Setting.keeps_lookups (s := ⟨x.catalog, options, depth⟩)
        (reply_params_ok hx hread).2 (x.memory.asked.count decl)
      rcases hcomposed.preserves hkeeps x.memory (.inr rfl) with hknown | hcount
      · exact hknown
      · exact absurd hcount hlooks.ne'
  exact (knows_run (x := x.step (.ask options depth question)) ⟨hknown, rfl⟩).2

/-- **Memory does not show.** In a session that starts with nothing remembered, where the top declaration is
declared at the start or never, let any acts have happened: declarations, successful or not, repairs, and
questions with any options. Then

- a question has the answer that it would have if nothing was known about declarations, and captures
  variables with the same bounds;
- a lookup that fails leaves everything known as it was, and nothing is known of its declaration;
- a declaration that can be read and is looked up in the course of any question is not looked up again,
  whatever happens. -/
theorem memory_is_invisible [Alphabet] (c : Catalog) (acts : List Act)
    (h : c.has objectName = true ∨ ∀ act ∈ acts, act.declares objectName = false) :
    let x := run ⟨c, {}⟩ acts
    (∀ options depth question,
      (x.reply options depth question).1 = (x.forget.reply options depth question).1 ∧
        (x.reply options depth question).2.captured =
          (x.forget.reply options depth question).2.captured) ∧
    (∀ options depth decl f, (x.reply options depth (.params decl)).1 = .error f →
      (x.reply options depth (.params decl)).2.known = x.memory.known ∧
        (x.reply options depth (.params decl)).2.routes = x.memory.routes ∧
        x.memory.lineage? decl = none ∧ ∀ ancestor, x.memory.route? decl ancestor = none) ∧
    ∀ options depth question decl r, (x.reply options depth (.params decl)).1 = .ok r →
      question = .params decl ∨
          x.memory.asked.count decl < (x.reply options depth question).2.asked.count decl →
        ∀ later, (x.run (.ask options depth question :: later)).memory.asked.count decl =
          (x.reply options depth question).2.asked.count decl := by
  intro x
  have hx : x.memory.Faithful { catalog := x.catalog } :=
    faithful_run (Memory.faithful_empty _) h
  exact ⟨reply_forget hx, fun _ _ _ _ => reply_params_error hx, fun _ _ _ _ _ => looked_up_once hx⟩

/-- Lists cannot be looked up at first, so array lists cannot be compared with collections. Once they can, and
a declaration of names was added, both array lists of texts and names turn out to be collections. -/
theorem memory_is_invisible_outage :
    let _ := Alphabet.ascii
    let c : Catalog := { Catalog.standard with faults := [⟨"List", .parents, "offline"⟩] }
    let collection : Ty := .nominal ⟨.given 0, [0]⟩ "Collection" [.type (.nominal ⟨.given 0, [1]⟩ "String" [])]
    let list : Ty := .nominal ⟨.given 1, [0]⟩ "ArrayList" [.type (.nominal ⟨.given 1, [1]⟩ "String" [])]
    let names : Ty := .nominal ⟨.given 2, [0]⟩ "Names" []
    let acts : List Act := [.ask {} 9 (.below list collection), .heal "List" .parents,
      .declare [{ name := "Names", parents := ["ArrayList<String>"] }], .ask {} 9 (.below list collection)]
    let x := run ⟨c, {}⟩ acts
    (reply ⟨c, {}⟩ {} 9 (.below list collection)).1 =
      .error (.lookup "List" (.within "supertypes" (.plain "offline"))) ∧
    (x.reply {} 9 (.below names collection)).1 = (x.forget.reply {} 9 (.below names collection)).1 ∧
    (x.forget.reply {} 9 (.below names collection)).1 = .ok (.truth true) := by
  intro _ c collection list names acts x
  have hobject : c.has objectName = true := by decide +kernel
  refine ⟨by decide +kernel, ?_, by decide +kernel⟩
  exact ((memory_is_invisible c acts (.inl hobject)).1 {} 9 (.below names collection)).1

end Session
end Generics
