/-
# Registries

A registry is a catalog that declaring alone has brought forth. Definitions refer to each other in any
order, also to those of one batch, and what they mention must be known when they are read; since names
are never given up, it stays known. So the declarations of a registry mention each other only
(`Declaration.Registered`).

A question about types that mention registered names only comes upon no others. What it meets are the
declarations and parameters that registered declarations are written with, what it is asked about, and
what the bounds of variables lead to (`Session.Leads`). This is a realm that contains whatever was
learnt before, from questions of any kind (`Memory.Confined`), and composing questions does not lead out of
it. In a registry every declaration of the realm can be read, so no such question fails because of one
that cannot (`Session.registered_suffices`).
-/

import Generics.Proofs.Printing
import Generics.Proofs.Sessions

namespace Generics

/-- What texts are written with: names that are known, the top declaration, and variables in scope. -/
def Realm.written (known : String → Bool) (scope : List TypeVar) : Realm where
  decl name := name = objectName ∨ known name = true
  var v := ∃ w ∈ scope, v = .declared w

/-- More names and more variables in scope make more that can be written. -/
theorem Realm.written_mono {known known' : String → Bool} {scope scope' : List TypeVar}
    (hknown : ∀ name, known name = true → known' name = true) (hscope : scope ⊆ scope') :
    Realm.written known scope ≤ .written known' scope' :=
  ⟨fun name => Or.imp_right (hknown name), fun _ ⟨w, hw, hv⟩ => ⟨w, hscope hw, hv⟩⟩

section Printable

variable [Alphabet] {known : String → Bool} {scope : List TypeVar}

mutual
/-- **What can be written is made of known names and variables in scope.** -/
theorem Ty.Printable.in_written :
    ∀ {t : Ty}, t.Printable known scope → t.In (.written known scope)
  | .prim _, _ => Ty.in_prim
  | .null, _ => Ty.in_null
  | .nominal _ _ _, h => Ty.in_nominal.2 ⟨h.2.2.1, Arg.PrintableAll.in_written h.2.2.2⟩
  | .array _, h => Ty.in_array.2 (Ty.Printable.in_written h)
  | .inter _ _, h => Ty.in_inter.2 (Ty.PrintableAll.in_written h.2)
  | .var (.declared v), h =>
    Ty.in_var.2 ⟨v, List.mem_reverse.1 (List.mem_of_find?_eq_some h.2), rfl⟩
  | .var (.captured _), h => h.elim

/-- A printable argument is made of what can be written. -/
theorem Arg.Printable.in_written :
    ∀ {a : Arg}, a.Printable known scope → a.In (.written known scope)
  | .type _, h => Arg.in_type.2 (Ty.Printable.in_written h)
  | .wild _ _, ⟨.inl ⟨_, hobject⟩, hlower⟩ => by
    refine Arg.in_wild.2 ⟨?_, Ty.Printable.in_written hlower⟩
    rw [hobject]
    exact Nominal.in_bare (.inl rfl)
  | .wild _ _, ⟨.inr hupper, hlower⟩ =>
    Arg.in_wild.2 ⟨Ty.Printable.in_written hupper, Ty.Printable.in_written hlower⟩

/-- Printable members are made of what can be written. -/
theorem Ty.PrintableAll.in_written : ∀ {ts : List Ty}, Ty.PrintableAll known scope ts →
    ∀ t ∈ ts, t.In (.written known scope)
  | [], _ => by simp
  | _ :: _, h =>
    List.forall_mem_cons.2 ⟨Ty.Printable.in_written h.1.2, Ty.PrintableAll.in_written h.2⟩

/-- Printable arguments are made of what can be written. -/
theorem Arg.PrintableAll.in_written : ∀ {as : List Arg}, Arg.PrintableAll known scope as →
    ∀ a ∈ as, a.In (.written known scope)
  | [], _ => by simp
  | _ :: _, h =>
    List.forall_mem_cons.2 ⟨Arg.Printable.in_written h.1, Arg.PrintableAll.in_written h.2⟩
end

end Printable

/-- What a definition reads as is written with known names and its own parameters, and does not list
itself as a supertype. -/
theorem Definition.read_written [Alphabet] {d : Definition} {known : String → Bool} {decl : Declaration}
    (h : d.read known = .ok decl) :
    (∀ p ∈ decl.params, p.upper.In (.written known decl.vars)) ∧
      ∀ n ∈ decl.parents, n.In (.written known decl.vars) ∧ n.decl ≠ decl.name := by
  obtain ⟨hname, hvars, -, hparams, hparents⟩ := read_ok h
  rw [hvars, hname]
  refine ⟨fun p hp => ?_, fun n hn => ?_⟩
  · obtain ⟨i, p', -, hread⟩ := hparams p hp
    rcases (readParam_ok hread).2 with hobject | hparse
    · rw [hobject]
      exact Nominal.in_bare (.inl rfl)
    · exact (Expr.printable_of_parse hparse).in_written
  · obtain ⟨i, text, -, hread⟩ := hparents n hn
    obtain ⟨hparse, hself, -⟩ := readParent_ok hread
    exact ⟨(Expr.printable_of_parse hparse).in_written, hself⟩

/-! ### What is declared in a registry -/

/-- The declaration mentions registered names and its own parameters only. Its parameters are its own, and
no bound leads back to one of them; a supertype is not the declaration itself and has no wildcard as an
argument. -/
structure Declaration.Registered (c : Catalog) (d : Declaration) : Prop where
  params : ∀ v ∈ d.vars, v.decl = d.name ∧ c.selfBounded v = false
  bounds : ∀ p ∈ d.params, p.upper.In (.written c.has d.vars)
  parents : ∀ n ∈ d.parents, n.In (.written c.has d.vars) ∧ n.decl ≠ d.name ∧ n.hasWild = false

/-- The catalog is in order, and its declarations mention each other only. -/
structure Catalog.SelfContained (c : Catalog) : Prop where
  orderly : c.Orderly
  registered : ∀ d ∈ c.decls, d.Registered c

section Registered

variable {c c' : Catalog} {d : Declaration}

/-- In a catalog in order only the names are left to look at. -/
theorem Catalog.Orderly.registered (hc : c.Orderly) (hd : d ∈ c.decls)
    (hbounds : ∀ p ∈ d.params, p.upper.In (.written c.has d.vars))
    (hparents : ∀ n ∈ d.parents, n.In (.written c.has d.vars) ∧ n.decl ≠ d.name) : d.Registered c where
  params _ hv := ⟨Declaration.decl_of_mem_vars hv,
    (hc.decls d hd).not_selfBounded (hc.find?_of_mem hd) hv⟩
  bounds := hbounds
  parents n hn := ⟨(hparents n hn).1, (hparents n hn).2, ((hc.decls d hd).parents n hn).2⟩

/-- What is registered stays so in a catalog in order that has more names. -/
theorem Declaration.Registered.mono (h : d.Registered c) (hc' : c'.Orderly) (hd : d ∈ c'.decls)
    (hhas : ∀ name, c.has name = true → c'.has name = true) : d.Registered c' := by
  have hle := Realm.written_mono hhas (List.Subset.refl d.vars)
  exact hc'.registered hd (fun p hp => (h.bounds p hp).mono hle) fun n hn =>
    ⟨(h.parents n hn).1.mono hle, (h.parents n hn).2.1⟩

end Registered

namespace Catalog

variable {c c' : Catalog}

/-- The names that definitions may mention are declared with them. -/
theorem has_of_knows [Alphabet] {defs : List Definition} (h : c.declare defs = .ok c') {name : String}
    (hname : c.knows defs name = true) : c'.has name = true := by
  obtain ⟨-, decls, hread, rfl⟩ := declare_eq h
  rw [has_iff, List.map_append, (Definition.readAll_ok hread).1, List.mem_append, ← has_iff]
  rw [knows, Bool.or_eq_true, List.any_eq_true] at hname
  refine hname.imp_right ?_
  rintro ⟨d, hd, heq⟩
  exact List.mem_map.2 ⟨d, hd, by simpa using heq⟩

namespace SelfContained

/-- A catalog without declarations is self-contained. -/
theorem empty : ({} : Catalog).SelfContained := ⟨⟨List.nodup_nil, rfl, by simp⟩, by simp⟩

/-- **Declaring keeps a catalog self-contained.** -/
theorem declare [Alphabet] {defs : List Definition} (hc : c.SelfContained) (h : c.declare defs = .ok c') :
    c'.SelfContained := by
  have horderly := hc.orderly.declare h
  have hknown : ∀ name, c.knows defs name = true → c'.has name = true := fun _ => has_of_knows h
  refine ⟨horderly, fun d hd => ?_⟩
  obtain ⟨-, decls, hread, rfl⟩ := declare_eq h
  rcases List.mem_append.1 hd with hold | hnew
  · exact (hc.registered d hold).mono horderly hd fun name hname => hknown name (by simp [knows, hname])
  · obtain ⟨def', -, hdef⟩ := (Definition.readAll_ok hread).2 d hnew
    obtain ⟨hbounds, hparents⟩ := Definition.read_written hdef
    have hle := Realm.written_mono hknown (List.Subset.refl d.vars)
    exact horderly.registered hd (fun p hp => (hbounds p hp).mono hle) fun n hn =>
      ⟨(hparents n hn).1.mono hle, (hparents n hn).2⟩

/-- The standard declarations mention each other only. -/
theorem standard : Catalog.standard.SelfContained :=
  let _ := Alphabet.ascii
  empty.declare standard_eq

/-- Whether a catalog is self-contained depends on its declarations only. -/
theorem of_same (hc : c.SelfContained) (hdecls : c'.decls = c.decls) (hfaults : c'.faults = []) :
    c'.SelfContained := by
  have horderly : c'.Orderly :=
    ⟨hdecls ▸ hc.orderly.names, hfaults, fun d hd => hc.orderly.decls d (hdecls ▸ hd)⟩
  refine ⟨horderly, fun d hd => (hc.registered d (hdecls ▸ hd)).mono horderly hd fun name hname => ?_⟩
  rwa [has_iff, hdecls, ← has_iff]

/-- **A catalog to which nothing comes but by declaring stays self-contained.** -/
theorem after [Alphabet] (hc : c.SelfContained) {act : Act} (hact : ∀ d, act ≠ .reveal d) :
    (c.after act).SelfContained := by
  cases act with
  | declare defs =>
    rw [Catalog.after_declare_eq]
    cases h : c.declare defs with
    | error f => exact hc
    | ok c' => exact hc.declare h
  | reveal d => exact absurd rfl (hact d)
  | heal decl part => exact hc.of_same rfl (by rw [Catalog.after, hc.orderly.faults, List.filter_nil])
  | introduce decl name upper => exact hc.of_same rfl hc.orderly.faults
  | ask options depth question => exact hc

end SelfContained

/-- The registered names, the top declaration, and all parameters. -/
def realm (c : Catalog) : Realm := .written c.has (c.decls.flatMap Declaration.vars)

/-- The realm grows with what is declared. -/
theorem realm_after [Alphabet] (c : Catalog) (act : Act) : c.realm ≤ (c.after act).realm := by
  refine Realm.written_mono (fun _ => has_after) ?_
  obtain ⟨decls, hdecls, -⟩ := c.decls_after act
  rw [hdecls, List.flatMap_append]
  exact List.subset_append_left _ _

/-- What a declaration is written with is in the realm. -/
theorem written_le {d : Declaration} (hd : d ∈ c.decls) : Realm.written c.has d.vars ≤ c.realm :=
  Realm.written_mono (fun _ h => h) fun _ hv => List.mem_flatMap.2 ⟨d, hd, hv⟩

namespace SelfContained

/-- The bounds of parameters are in the realm. -/
theorem upper_in (hc : c.SelfContained) {v : TypeVar} (hv : v ∈ c.decls.flatMap Declaration.vars) :
    (c.upper v).In c.realm := by
  obtain ⟨d, hd, hv⟩ := List.mem_flatMap.1 hv
  obtain ⟨p, hp, hupper, -⟩ := Declaration.upper_eq (hc.orderly.find?_of_mem hd) hv
  exact hupper ▸ ((hc.registered d hd).bounds p hp).mono (written_le hd)

variable {s : Setting} (hc : s.catalog.SelfContained)
include hc

/-- **What is learnt about declarations is in the realm.** -/
theorem lineage_in {decl : String} {l : Lineage} (hl : s.lineageOf decl = some l) :
    l.In s.catalog.realm := by
  unfold Setting.lineageOf at hl
  split at hl
  · split at hl
    · cases hl
      exact ⟨by simp, by simp⟩
    · cases hl
  · next d hfind =>
    split at hl
    · cases hl
    · cases hl
      have hd := List.mem_of_find?_eq_some hfind
      refine ⟨fun v hv => ⟨v, List.mem_flatMap.2 ⟨d, hd, hv⟩, rfl⟩, fun n hn => ?_⟩
      dsimp only at hn
      split at hn
      · rw [List.mem_singleton.1 hn]
        exact Nominal.in_bare (.inl rfl)
      · exact ((hc.registered d hd).parents n hn).1.mono (written_le hd)

/-- **Every declaration of the realm can be read.** -/
theorem lineageOf_ne_none {decl : String} (hdecl : s.catalog.realm.decl decl) :
    s.lineageOf decl ≠ none := by
  have hfault : ∀ part, s.catalog.fault? decl part = none := by
    intro part
    rw [fault?, hc.orderly.faults]
    rfl
  unfold Setting.lineageOf
  cases hfind : s.catalog.find? decl with
  | some d => simp [hfault]
  | none =>
    rcases hdecl with rfl | hhas
    · simp
    · rw [has, hfind] at hhas
      cases hhas

/-- In a registry every supertype is declared. -/
theorem parentsKnown : s.ParentsKnown := fun _ _ hl n hn =>
  Option.isSome_iff_ne_none.2 (hc.lineageOf_ne_none ((hc.lineage_in hl).parents n hn).decl)

end SelfContained
end Catalog

/-! ### What is remembered -/

/-- What was learnt is in the first realm. Captured variables have numbers that were handed out; those of
the second realm have bounds in it, and the numbers to come belong to it. -/
structure Memory.Confined (L K : Realm) (m : Memory) : Prop where
  known : ∀ l ∈ m.known, l.In L
  routes : ∀ r ∈ m.routes, ∀ n ∈ r.parent, n.In L
  numbers : ∀ c ∈ m.captured, c.id ≤ m.lastCaptured
  bounds : m.BoundsIn K
  fresh : ∀ i > m.lastCaptured, K.var (.captured i)

namespace Memory

variable {L L' K : Realm} {m : Memory}

/-- Nothing was learnt at first. -/
theorem confined_empty (L : Realm) : Memory.Confined L .all {} :=
  ⟨by simp, by simp, by simp, fun _ _ => ⟨Ty.in_all _, Ty.in_all _⟩, fun _ _ => trivial⟩

/-- What is confined to a realm is confined to every larger one. -/
theorem Confined.mono (h : m.Confined L K) (hle : L ≤ L') : m.Confined L' K :=
  { h with
    known := fun l hl => (h.known l hl).mono hle
    routes := fun r hr n hn => (h.routes r hr n hn).mono hle }

/-- What is learnt may change as long as it stays in the realm. -/
theorem Confined.learns {m' : Memory} (hm : m.Confined L K) (h : m.Learns m')
    (hknown : ∀ l ∈ m'.known, l.In L) (hroutes : ∀ r ∈ m'.routes, ∀ n ∈ r.parent, n.In L) :
    m'.Confined L K where
  known := hknown
  routes := hroutes
  numbers := by
    rw [h.captured, h.last]
    exact hm.numbers
  bounds id hid := by
    simp only [upper, lower, captured?, h.captured]
    exact hm.bounds id hid
  fresh i hi := hm.fresh i (h.last ▸ hi)

/-- Numbers may be handed out. -/
theorem Confined.reserve (hm : m.Confined L K) (k : Nat) :
    Memory.Confined L K { m with lastCaptured := m.lastCaptured + k } :=
  { hm with
    numbers := fun c hc => Nat.le_add_right_of_le (hm.numbers c hc)
    fresh := fun i hi => hm.fresh i (Nat.lt_of_le_of_lt (Nat.le_add_right _ _) hi) }

/-- Variables with bounds in the realm may be captured under numbers that were handed out. -/
theorem Confined.note (hm : m.Confined L K) {cs : List Captured}
    (hnumbers : ∀ c ∈ cs, c.id ≤ m.lastCaptured) (hcs : ∀ c ∈ cs, c.upper.In K ∧ c.lower.In K) :
    Memory.Confined L K { m with captured := cs ++ m.captured } :=
  { hm with
    numbers := List.forall_mem_append.2 ⟨hnumbers, hm.numbers⟩
    bounds := fun id hid => by
      simp only [upper, lower, captured?, List.find?_append]
      cases hfind : cs.find? fun c => c.id == id with
      | some c => exact hcs c (List.mem_of_find?_eq_some hfind)
      | none => exact hm.bounds id hid }

end Memory

namespace Setting

open Query

variable {s : Setting} {I : Memory → Prop} {F : Failure → Prop}

/-- Replacing variables stays in the realm, as building types changes nothing that was learnt. -/
theorem replace_ensures (hbuilt : ∀ m, I m → I { m with built := m.built + 1 }) (σ : Subst) (t : Ty) :
    Ensures I (fun _ => True) F (replace σ t) := by
  have hreplace : Ensures I (fun _ => True) F (replace? σ t) := by
    unfold replace?
    split
    · exact .pure trivial
    · refine Ensures.get.bind fun m _ => ?_
      split
      · exact .pure trivial
      · exact (Ensures.modify hbuilt).bind fun _ _ => .pure trivial
  exact hreplace.bind fun _ _ => .pure trivial

/-- The variables for wildcards are numbered one after the other. -/
theorem captureBounds_ensures (hbuilt : ∀ m, I m → I { m with built := m.built + 1 }) (σ : Subst)
    (last : Nat) (ps : List TypeVar) (as : List Arg) :
    Ensures I (fun cs => ∀ c ∈ cs, c.id ≤ last + as.countP Arg.isWild) F
      (s.captureBounds σ last ps as) := by
  fun_induction captureBounds s σ last ps as with
  | case1 last p ps upper lower as ih =>
    refine (replace_ensures hbuilt _ _).bind fun bound _ => ih.bind fun cs hcs => .pure ?_
    rw [List.countP_cons_of_pos rfl]
    refine List.forall_mem_cons.2 ⟨by dsimp only; omega, fun c hc => ?_⟩
    have := hcs c hc
    omega
  | case2 last p ps t as ih => rwa [List.countP_cons_of_neg (by simp [Arg.isWild])]
  | case3 => exact .pure (by simp)

/-- A parent that is found was learnt with its declaration. -/
theorem seek?_mem {decl ancestor : String} {n : Nominal} {m m' : Memory}
    (h : (s.seek? decl ancestor).Answers m (some n) m') :
    ∃ l m₁, (s.lineage decl).Answers m l m₁ ∧ n ∈ l.parents := by
  obtain ⟨l, m₁, hl, hfirst⟩ := answers_bind.1 h
  exact ⟨l, m₁, hl, first?_mem hfirst⟩

section Confined

variable {L K : Realm} (hle : L ≤ K) (hown : ∀ f : Failure, f.IsOwn → F f)
  (hlearnt : ∀ decl l, s.lineageOf decl = some l → l.In L)
  (hfails : ∀ decl f, K.decl decl → s.lineageOf decl = none → F f)

section Lineage

include hlearnt

/-- What is learnt of a declaration is in the realm, whether it was known or is read. -/
theorem lineage_learnt {decl : String} {l : Lineage} {m m' : Memory} (hm : m.Confined L K)
    (h : (s.lineage decl).Answers m l m') : l.In L := by
  rw [Answers] at h
  rcases s.lineage_cases decl m with
    ⟨l', hl, hout⟩ | ⟨-, m₁, -, ⟨l', hl, hout, -⟩ | ⟨-, ⟨f, hout⟩, -⟩⟩ <;> rw [hout] at h <;> cases h
  · exact hm.known l (lineage?_eq_some hl).1
  · exact hlearnt decl l hl

include hle hfails

/-- What is learnt of a declaration of the realm is in the realm. -/
theorem lineage_confined {decl : String} (hdecl : K.decl decl) :
    Ensures (Memory.Confined L K) (Lineage.In K) F (s.lineage decl) := by
  refine .of_outcome fun m hm => ?_
  have hlearns : ∀ m', m.LooksUp decl m' → (∀ l ∈ m'.known, l.In L) → m'.Confined L K :=
    fun m' hlooks hknown => hm.learns hlooks.learns hknown (hlooks.routes ▸ hm.routes)
  refine ⟨?_, fun l hl => (lineage_learnt hlearnt hm (Prod.ext hl rfl)).mono hle, ?_⟩
  · rcases s.lineage_cases decl m with
      ⟨l, -, hout⟩ | ⟨-, m₁, hlooks, ⟨l, hl, hout, hknown⟩ | ⟨-, ⟨f, hout⟩, hknown⟩⟩ <;> rw [hout]
    · exact hm
    · exact hlearns m₁ hlooks (hknown ▸ List.forall_mem_cons.2 ⟨hlearnt decl l hl, hm.known⟩)
    · exact hlearns m₁ hlooks (hknown ▸ hm.known)
  · intro f hf
    rcases s.lineage_cases decl m with
      ⟨l, -, hout⟩ | ⟨-, m₁, -, ⟨l, -, hout, -⟩ | ⟨hnone, -, -⟩⟩
    · rw [hout] at hf
      cases hf
    · rw [hout] at hf
      cases hf
    · exact hfails decl f hdecl hnone

end Lineage

include hle hlearnt in
/-- The way up is in the realm, whether it was known or is looked for. -/
theorem leadsTo?_confined {decl ancestor : String}
    (hseek : Ensures (Memory.Confined L K) (fun o => ∀ n ∈ o, n.In K) F (s.seek? decl ancestor)) :
    Ensures (Memory.Confined L K) (fun o => ∀ n ∈ o, n.In K) F (s.leadsTo? decl ancestor) := by
  refine .of_outcome fun m hm => ?_
  rw [leadsTo?_outcome]
  cases hroute : m.route? decl ancestor with
  | some r =>
    refine ⟨hm, ?_, by simp⟩
    rintro _ ⟨⟩ n hn
    exact (hm.routes r (route?_eq_some hroute).1 n hn).mono hle
  | none =>
    have hleaves := hseek.leaves m hm
    have hanswers := hseek.answers m
    have hfails := hseek.fails m
    rcases hout : (s.seek? decl ancestor).outcome m with ⟨(f | parent), m₁⟩ <;>
      rw [hout] at hleaves hanswers hfails
    · exact ⟨hleaves, by simp, fun g hg => hfails g hm hg⟩
    · refine ⟨hleaves.learns ⟨rfl, rfl, rfl⟩ hleaves.known ?_, fun o ho => hanswers o hm ho, by simp⟩
      refine List.forall_mem_cons.2 ⟨fun n hn => ?_, hleaves.routes⟩
      obtain rfl : parent = some n := hn
      obtain ⟨l, m₂, hl, hmem⟩ := seek?_mem hout
      exact (lineage_learnt hlearnt hm hl).parents n hmem

include hown in
/-- Captured variables are new, and their bounds are in the realm. -/
theorem capture_confined {n : Nominal} (hn : n.In K)
    (hparams : Ensures (Memory.Confined L K) (fun ps => ∀ v ∈ ps, K.var (.declared v)) F
      (s.params n.decl))
    (hbounds : ∀ (σ : Subst) (last : Nat) (params : List TypeVar), σ.In K →
      (∀ v ∈ params, K.var (.declared v)) →
        Ensures (Memory.Confined L K) (fun cs => ∀ c ∈ cs, c.upper.In K ∧ c.lower.In K) F
          (s.captureBounds σ last params n.args)) :
    Ensures (Memory.Confined L K) (Nominal.In K) F (s.capture n) := by
  unfold capture
  split
  · refine hparams.bind fun params hvars => ?_
    split
    · exact .throw (hown _ (Failure.isOwn_malformed _ _))
    · refine .of_answers fun m hm => ?_
      have hargs := Arg.in_captureArgs hm.fresh hn.args
      obtain ⟨σ, hzip, hσ⟩ : ∃ σ, σ = Subst.zip params
        ((captureArgs m.lastCaptured n.args).filterMap Arg.type?) ∧ σ.In K :=
          ⟨_, rfl, .zip params (Arg.in_types hargs)⟩
      obtain ⟨m₁, hm₁⟩ : ∃ m₁ : Memory,
        m₁ = { m with lastCaptured := m.lastCaptured + n.args.countP Arg.isWild } := ⟨_, rfl⟩
      have hconfined : m₁.Confined L K := hm₁ ▸ hm.reserve _
      obtain ⟨cs, m₂, hcs⟩ := captureBounds_total (s := s) σ m.lastCaptured params n.args m₁
      have hin := hbounds σ m.lastCaptured params hσ hvars
      -- on the way to the bounds no numbers are handed out
      have hsame := captureBounds_ensures (s := s) (F := F)
        (I := fun m' => m'.lastCaptured = m₁.lastCaptured) (fun _ h => h) σ m.lastCaptured params n.args
      have hconfined₂ := hin.leaves m₁ hconfined
      have hlast := hsame.leaves m₁ rfl
      rw [hcs] at hconfined₂ hlast
      refine ⟨_, _, answers_bind.2 ⟨m, m, answers_get.2 ⟨rfl, rfl⟩, answers_bind.2 ⟨(), m₁,
        answers_modify.2 hm₁, answers_bind.2 ⟨cs, m₂, hzip ▸ hcs, answers_bind.2 ⟨(), _,
          answers_modify.2 rfl, answers_pure.2 ⟨rfl, rfl⟩⟩⟩⟩⟩, ?_, Nominal.in_iff.2 ⟨hn.decl, hargs⟩⟩
      refine hconfined₂.note (fun c hc => ?_) fun c hc => ?_
      · have hnumber := hsame.answers m₁ cs rfl (congrArg Prod.fst hcs) c (List.mem_reverse.1 hc)
        dsimp only at hlast
        rwa [hlast, hm₁]
      · exact hin.answers m₁ cs hconfined (congrArg Prod.fst hcs) c (List.mem_reverse.1 hc)
  · exact .pure hn

include hle hown hlearnt hfails in
/-- **What was learnt and what is captured stay where they are**, whatever is asked in the realm. -/
theorem governs_confined : Governs s K (Memory.Confined L K) F where
  own := hown
  bounds _ hm := hm.bounds
  lineage _ hdecl := lineage_confined hle hlearnt hfails hdecl
  leadsTo? _ _ hseek := leadsTo?_confined hle hlearnt hseek
  built _ hm := { hm with }
  capture _ hn hbounds := capture_confined hown hn
    ((lineage_confined hle hlearnt hfails hn.decl).bind fun _ hl => .pure hl.params) hbounds

end Confined

end Setting

/-! ### Questions that stay in a registry -/

namespace Session

variable {x : Session}

/-- The bounds of a variable in the session. -/
def bounds (x : Session) : Var → List Ty
  | .declared v => [x.catalog.upper v]
  | .captured id => [x.memory.upper id, x.memory.lower id]

/-- The bounds of a variable, and of the variables in them, come to the name. -/
inductive Leads (x : Session) (name : String) : Var → Prop
  | name {v : Var} {t : Ty} (ht : t ∈ x.bounds v) (h : name ∈ t.names) : Leads x name v
  | var {v w : Var} {t : Ty} (ht : t ∈ x.bounds v) (hw : w ∈ t.vars) (h : Leads x name w) :
    Leads x name v

/-- The registered names, the top declaration, and the variables whose bounds come to no others. -/
def realm (x : Session) : Realm where
  decl := x.catalog.realm.decl
  var v := ∀ name, x.Leads name v → x.catalog.realm.decl name

/-- A variable is in the realm of a session if its bounds are. -/
theorem realm_var_iff {v : Var} : x.realm.var v ↔ ∀ t ∈ x.bounds v, t.In x.realm := by
  constructor
  · exact fun hv t ht =>
      ⟨fun name hname => hv name (.name ht hname), fun w hw name h => hv name (.var ht hw h)⟩
  · intro h name hname
    cases hname with
    | name ht hname => exact (h _ ht).1 name hname
    | var ht hw hname => exact (h _ ht).2 _ hw name hname

/-- Bounds of what is in the realm of a session are in it. -/
theorem realm_closed (x : Session) : x.realm.Closed x.catalog :=
  ⟨.inl rfl, fun _ hv => realm_var_iff.1 hv _ (List.mem_singleton.2 rfl)⟩

/-- Parameters of registered declarations have bounds that come to registered names only. -/
theorem realm_le (hc : x.catalog.SelfContained) : x.catalog.realm ≤ x.realm := by
  have hbounds : ∀ v, x.catalog.realm.var v → ∀ t ∈ x.bounds v, t.In x.catalog.realm := by
    rintro _ ⟨v, hv, rfl⟩ t ht
    rw [bounds, List.mem_singleton] at ht
    exact ht ▸ hc.upper_in hv
  refine ⟨fun _ h => h, fun v hv name hname => ?_⟩
  induction hname with
  | name ht h => exact (hbounds _ hv _ ht).1 name h
  | var ht hw _ ih => exact ih ((hbounds _ hv _ ht).2 _ hw)

/-- The catalog is self-contained, and what was learnt is made of what is registered. -/
structure OverRegistry (x : Session) : Prop where
  catalog : x.catalog.SelfContained
  memory : x.memory.Confined x.catalog.realm .all

open Query in
/-- **In a registry the memory stays in the realm of the catalog**, whatever is asked. -/
theorem OverRegistry.step [Alphabet] (hx : x.OverRegistry) {act : Act} (hact : ∀ d, act ≠ .reveal d) :
    (x.step act).OverRegistry := by
  refine ⟨hx.catalog.after hact, Memory.Confined.mono ?_ (x.catalog.realm_after act)⟩
  cases act with
  | ask options depth question =>
    have hg := Setting.governs_confined (s := ⟨x.catalog, options, depth⟩) (F := fun _ => True)
      (Realm.le_all x.catalog.realm) (fun _ _ => trivial) (fun _ _ => hx.catalog.lineage_in)
      fun _ _ _ _ => trivial
    have hcomposed := question.ask_stays ⟨x.catalog, options, depth⟩
    exact (hcomposed.ensures hg).leaves x.memory hx.memory
  | _ => exact hx.memory

/-- **A session that makes no declaration known from outside stays over its registry.** -/
theorem OverRegistry.run [Alphabet] (hx : x.OverRegistry) {acts : List Act}
    (hacts : ∀ act ∈ acts, ∀ d, act ≠ .reveal d) : (x.run acts).OverRegistry := by
  induction acts generalizing x with
  | nil => exact hx
  | cons act acts ih =>
    obtain ⟨hact, hacts⟩ := List.forall_mem_cons.1 hacts
    exact ih (hx.step hact) hacts

/-- The memory of a session over a registry is as a question in the realm needs it: numbers that were not
handed out stand for variables without bounds. -/
theorem OverRegistry.confined (hx : x.OverRegistry) :
    x.memory.Confined x.catalog.realm x.realm where
  known := hx.memory.known
  routes := hx.memory.routes
  numbers := hx.memory.numbers
  bounds id hid := by simpa [bounds] using realm_var_iff.1 hid
  fresh i hi := by
    have hnone : x.memory.captured? i = none := by
      refine List.find?_eq_none.2 fun c hc => ?_
      have hnumber := hx.memory.numbers c hc
      rw [beq_iff_eq]
      omega
    have hobject : Ty.object.In x.realm := Nominal.in_bare (.inl rfl)
    rw [realm_var_iff]
    simpa [bounds, Memory.upper, Memory.lower, hnone] using hobject

/-- **Registered names suffice.** In a session that starts from nothing let definitions be declared,
successfully or not, and questions be asked, of any kind. Then

- every declaration mentions registered names and its own parameters only, none of its bounds leads back to
  a parameter, it does not list itself as a supertype, and no supertype has a wildcard as an argument;
- a question about registered names, and variables whose bounds come to registered names only, does not
  fail because a declaration cannot be read. -/
theorem registered_suffices [Alphabet] (acts : List Act) (hacts : ∀ act ∈ acts, ∀ d, act ≠ .reveal d) :
    let x := run ⟨{}, {}⟩ acts
    (∀ d ∈ x.catalog.decls, d.Registered x.catalog) ∧
      ∀ options depth (question : Question), question.In x.realm → ∀ f,
        (x.reply options depth question).1 = .error f → f.kind? ≠ some .lookup := by
  intro x
  have hx : x.OverRegistry := OverRegistry.run ⟨.empty, Memory.confined_empty _⟩ hacts
  refine ⟨hx.catalog.registered, fun options depth question hq f hf => ?_⟩
  have hg := Setting.governs_confined (s := ⟨x.catalog, options, depth⟩) (F := Failure.IsOwn)
    (realm_le hx.catalog) (fun _ h => h) (fun _ _ => hx.catalog.lineage_in)
    fun _ _ hdecl hnone => absurd hnone (hx.catalog.lineageOf_ne_none hdecl)
  have hcomposed := question.ask_composed (s := ⟨x.catalog, options, depth⟩) x.realm_closed hq
  exact (hcomposed.ensures hg).fails x.memory f hx.confined hf

/-- Nodes are declared before the items that they mention, and a second time in vain. A question about
`Missing` fails because that cannot be read, the check of `Node<Object>` because of a bound. -/
theorem registered_suffices_nodes :
    let _ := Alphabet.ascii
    let node : Definition :=
      { name := "Node", params := [{ name := "T", bound := "Item<T>" }], parents := ["Item<T>"] }
    let item : Definition := { name := "Item", params := [{ name := "E" }] }
    let missing : Ty := .nominal ⟨.given 0, [0]⟩ "Missing" []
    let nodes : Ty := .nominal ⟨.given 1, [0]⟩ "Node" [.type (.nominal ⟨.given 1, [1]⟩ "Object" [])]
    let acts : List Act := [.declare [node, item], .declare [node], .ask {} 9 (.below missing nodes)]
    let x := run ⟨{}, {}⟩ acts
    (∀ d ∈ x.catalog.decls, d.Registered x.catalog) ∧
      ((x.reply {} 9 (.below missing nodes)).1.mapError Failure.kind? = .error (some .lookup)) ∧
        ∃ f, (x.reply {} 9 (.check nodes)).1 = .error f ∧ f.kind? ≠ some .lookup := by
  intro _ node item missing nodes acts x
  have hacts : ∀ act ∈ acts, ∀ d, act ≠ .reveal d := by simp [acts]
  have hin : Question.In x.realm (.check nodes) := by
    refine Ty.in_nominal.2 ⟨.inr (by decide +kernel), fun a ha => ?_⟩
    rw [List.mem_singleton.1 ha]
    exact Arg.in_type.2 (Nominal.in_bare (.inl rfl))
  refine ⟨(registered_suffices acts hacts).1, by decide +kernel, ?_⟩
  cases h : (x.reply {} 9 (.check nodes)).1 with
  | error f => exact ⟨f, rfl, (registered_suffices acts hacts).2 {} 9 _ hin f h⟩
  | ok r =>
    have hfails : (x.reply {} 9 (.check nodes)).1.toBool = false := by decide +kernel
    rw [h] at hfails
    cases hfails

end Session
end Generics
