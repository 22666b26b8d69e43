/-
# Reducing a constraint

A constraint is broken down along the rules of subtyping. A constraint on an unknown is filed
with the unknown, unless the other side is an intersection. Otherwise it holds, cannot hold,
asks for several smaller constraints together, or asks for one out of several:

- an intersection is below a type if one of its members is, or if it is below the lower bound
  of a variable;
- a variable is below another one if its upper bound is, or if it is below the other's lower
  bound.
-/

import Generics.Inference.Constraint

namespace Generics.Inference

/-- What becomes of a constraint. -/
inductive Reduction
  /-- It was filed with an unknown. -/
  | filed (unknowns : List Unknown)
  /-- It asks for these together. -/
  | allOf (cs : List Constraint)
  /-- It asks for one of these. -/
  | oneOf (cs : List Constraint)
  /-- It cannot hold. -/
  | refuted (f : Failure)

namespace Constraint

/-- The constraints between an argument found and the one asked for; nothing if the argument
found is a wildcard. -/
def matchArg (c : Constraint) : Arg → Arg → Option (List Constraint)
  | .wild _ _, _ => none
  | .type t, .wild upper lower => some [c.child lower .below t, c.child t .below upper]
  | .type t, .type t' => some [c.child t .equal t']

/-- The constraints between the arguments found and those asked for. -/
def matchArgs (c : Constraint) : List Arg → List Arg → Option (List Constraint)
  | a :: as, b :: bs =>
    match c.matchArg a b, c.matchArgs as bs with
    | some cs, some more => some (cs ++ more)
    | _, _ => none
  | _, _ => some []

/-- Reduces that an applied declaration is below another one. -/
def reduceNominal (s : Setting) (c : Constraint) (a b : Nominal) : Query Reduction := do
  if ← s.inherits a.decl b.decl then
    if b.args.isEmpty then pure (.allOf [])
    else if ← s.isRaw a then pure (.refuted c.failure)
    else match ← s.supertypeAs a b.decl with
      | none => pure (.refuted c.failure)
      | some n =>
        if n.args.length = b.args.length then
          match c.matchArgs n.args b.args with
          | some cs => pure (.allOf cs)
          | none => pure (.refuted c.failure)
        else pure (.refuted c.failure)
  else pure (.refuted c.failure)

/-- Reduces that an array is below another one, given their components. -/
def reduceArray (c : Constraint) (a b : Ty) : Reduction :=
  if a.isPrim || b.isPrim then
    if a = b then .allOf [] else .refuted c.failure
  else .allOf [c.child a .below b]

/-- Reduces that a type is below another one. -/
def reduceBelow (s : Setting) (c : Constraint) (a b : Ty) : Query Reduction :=
  match a, b with
  | .nominal sa da aa, .nominal sb db ab => c.reduceNominal s ⟨sa, da, aa⟩ ⟨sb, db, ab⟩
  | .null, _ => pure (.allOf [])
  | _, .inter _ members => pure (.allOf (members.map (c.child a .below ·)))
  | .inter _ [], _ => pure (.allOf [c.child .object .below b])
  | .inter _ members, .var w => do
    let lower ← s.lower w
    pure (.oneOf (members.map (c.child · .below b) ++ [c.child a .below lower]))
  | .inter _ members, _ => pure (.oneOf (members.map (c.child · .below b)))
  | .var v, .var w => do
    if a.equal b then pure (.allOf [])
    else do
      let upper ← s.upper v
      let lower ← s.lower w
      pure (.oneOf [c.child upper .below b, c.child a .below lower])
  | .var v, _ => do
    let upper ← s.upper v
    pure (.allOf [c.child upper .below b])
  | _, .var w => do
    let lower ← s.lower w
    pure (.allOf [c.child a .below lower])
  | .array elem, .array elem' => pure (c.reduceArray elem elem')
  | .array _, .nominal _ decl args =>
    pure (if s.isArrayParent decl args then .allOf [] else .refuted c.failure)
  | .prim p, .prim q => pure (if p = q then .allOf [] else .refuted c.failure)
  | _, _ => pure (.refuted c.failure)

/-- Reduces an equality to both directions. -/
def bothWays (c : Constraint) (a b : Ty) : Reduction :=
  .allOf [c.child a .below b, c.child a .above b]

/-- Reduces that two types are equal. -/
def reduceEqual (c : Constraint) (a b : Ty) : Reduction :=
  match a, b with
  | .nominal _ da aa, .nominal _ db ab =>
    if da ≠ db || aa.length ≠ ab.length then .refuted c.failure
    else if aa.any Arg.isWild || ab.any Arg.isWild then c.bothWays a b
    else .allOf (((aa.filterMap Arg.type?).zip (ab.filterMap Arg.type?)).map fun pair =>
      c.child pair.1 .equal pair.2)
  | _, _ => c.bothWays a b

/-- Reduces a constraint that is on no unknown. -/
def reduceRigid (s : Setting) (c : Constraint) : Query Reduction :=
  match c.rel with
  | .below => c.reduceBelow s c.lhs c.rhs
  | .above => c.reduceBelow s c.rhs c.lhs
  | .equal => pure (c.reduceEqual c.lhs c.rhs)

end Constraint

namespace Problem

/-- Files a constraint with an unknown. -/
def file (p : Problem) (key : VarKey) (c : Constraint) : Reduction :=
  match Unknown.fileWith key c p.unknowns with
  | .ok unknowns => .filed unknowns
  | .error f => .refuted f

/-- Reduces a constraint, in which closed unknowns are replaced by their solutions first. -/
def reduce (s : Setting) (p : Problem) (c : Constraint) : Query Reduction := do
  let c ← c.replace (p.solutionsWhere Unknown.closed)
  match p.unknown? c.lhs with
  | some key => if c.rhs.isInter then c.reduceRigid s else pure (p.file key c)
  | none =>
    match p.unknown? c.rhs with
    | some key => if c.lhs.isInter then c.reduceRigid s else pure (p.file key c.flip)
    | none => c.reduceRigid s

end Problem

end Generics.Inference
