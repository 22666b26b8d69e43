/-
# Types

The closed set of types the library speaks about:

| form | written |
| --- | --- |
| primitive | `int` |
| the type of null, below every type | `Null` |
| a declaration applied to arguments, or raw | `Map<String, ? extends T>`, `List` |
| array | `int[]` |
| intersection; without members the top type | `Number & Comparable<T>` |
| variable: a parameter of a declaration, or captured | `T`, `Cap#3` |

An argument of a declaration is a type or a wildcard with an upper and a lower bound.

**Where a type comes from.** Applied declarations and intersections remember the `Site`
they were written or built at. Two types that agree in every part, sites included, are one
and the same occurrence, and subtyping answers at once for those; two copies of one text are
told apart by their sites. Everything else (printing, `Ty.equal`, substitution) ignores sites.

**Bounds of variables** are not part of the type: a parameter `T extends Comparable<T>`
mentions itself. A declared variable says where its bound is found, a captured variable is
a number whose bounds are kept where it was captured.
-/

import Generics.Type.Primitive

namespace Generics

/-- The declaration that every other declaration inherits from. -/
def objectName : String := "Object"

/-- The text a type was written in, or the operation that built it. -/
inductive Place
  /-- The types that exist once for all. -/
  | common
  /-- The bound of a parameter of a declaration. -/
  | bound (decl : String) (param : Nat)
  /-- A supertype of a declaration. -/
  | parent (decl : String) (index : Nat)
  /-- A type handed in from outside, by number. -/
  | given (n : Nat)
  /-- The bound of a captured variable. -/
  | capture (id : Nat)
  /-- A type that the library built, by number. -/
  | built (n : Nat)
deriving DecidableEq, Repr

/-- Where a type stands: the place, and the way to it there, which is the offset in a text, or
the positions of the parts that lead to it, innermost first. -/
structure Site where
  place : Place
  path : List Nat := []
deriving DecidableEq, Repr

namespace Site

/-- The site of the types that exist once for all. -/
def common : Site := ⟨.common, []⟩

/-- The site of a part, by its position. -/
def part (s : Site) (i : Nat) : Site := { s with path := i :: s.path }

end Site

/-- Where the bound of a declared variable is found. -/
inductive Slot
  /-- It is a parameter of its declaration, by position. -/
  | param (index : Nat)
  /-- It stands outside any declaration, with a bound of its own. -/
  | free (n : Nat)
deriving DecidableEq, Repr

/-- A variable declared by a generic declaration. -/
structure TypeVar where
  decl : String
  name : String
  slot : Slot
deriving DecidableEq, Repr

/-- What a variable is recognised by: declared ones by declaration and name, wherever their
bound is found, captured ones by number. -/
inductive VarKey
  | declared (decl name : String)
  | captured (id : Nat)
deriving DecidableEq, Repr

/-- The key of a declared variable. -/
def TypeVar.key (v : TypeVar) : VarKey := .declared v.decl v.name

/-- A type variable. -/
inductive Var
  | declared (v : TypeVar)
  | captured (id : Nat)
deriving DecidableEq, Repr

namespace Var

/-- What the variable is recognised by. -/
def key : Var → VarKey
  | .declared v => v.key
  | .captured id => .captured id

/-- The name shown for the variable. -/
def name : Var → String
  | .declared v => v.name
  | .captured id => "Cap#" ++ Nat.repr id

end Var

mutual
/-- A type. -/
inductive Ty
  | prim (p : Primitive)
  | null
  | nominal (site : Site) (decl : String) (args : List Arg)
  | array (elem : Ty)
  | inter (site : Site) (members : List Ty)
  | var (v : Var)

/-- An argument of a declaration. -/
inductive Arg
  | type (t : Ty)
  | wild (upper lower : Ty)
end

instance : Inhabited Ty := ⟨.null⟩

/-- A declaration applied to arguments; without arguments it is raw, or not generic. -/
structure Nominal where
  site : Site
  decl : String
  args : List Arg

/-- The type that an applied declaration is. -/
def Nominal.toTy (n : Nominal) : Ty := .nominal n.site n.decl n.args

/-- The top declaration as an applied declaration. -/
def Nominal.object : Nominal := ⟨.common, objectName, []⟩

/-- A declaration without arguments. -/
def Nominal.raw (decl : String) : Nominal := ⟨.common, decl, []⟩

namespace Arg

/-- The type that an argument is, unless it is a wildcard. -/
def type? : Arg → Option Ty
  | .type t => some t
  | .wild _ _ => none

/-- Whether the argument is a wildcard. -/
def isWild : Arg → Bool
  | .type _ => false
  | .wild _ _ => true

end Arg

/-- Whether one of the arguments is a wildcard. -/
def Nominal.hasWild (n : Nominal) : Bool := n.args.any Arg.isWild

namespace Ty

/-- The top declaration, above every reference type. -/
def object : Ty := .nominal .common objectName []

/-- The empty intersection, above every type. -/
def top : Ty := .inter .common []

/-- The applied declaration that a type is. -/
def nominal? : Ty → Option Nominal
  | .nominal site decl args => some ⟨site, decl, args⟩
  | _ => none

/-- Whether the type is a primitive. -/
def isPrim : Ty → Bool
  | .prim _ => true
  | _ => false

/-- Whether the type is an intersection. -/
def isInter : Ty → Bool
  | .inter _ _ => true
  | _ => false

/-- The declared variable that a type is. -/
def typeVar? : Ty → Option TypeVar
  | .var (.declared v) => some v
  | _ => none

/-- Whether the type is the top declaration or the empty intersection. -/
def isTop : Ty → Bool
  | .nominal _ decl [] => decl == objectName
  | .inter _ [] => true
  | _ => false

/-- What a type contributes to an intersection: its members, or itself. -/
def conjuncts : Ty → List Ty
  | .inter _ members => members
  | t => [t]

/-- The intersection of some types. Intersections among them are taken apart, order and
repetitions stay, and without members it is the top type. -/
def meet (site : Site) (types : List Ty) : Ty :=
  match types.flatMap conjuncts with
  | [] => top
  | members => .inter site members

/-- The greatest type known to be below two upper bounds. -/
def meetBounds (site : Site) (a b : Ty) : Ty :=
  if a.isTop then b else if b.isTop then a else meet site [a, b]

end Ty

mutual
/-- The variables occurring in a type, in order and with repetitions; bounds of variables are
not entered. -/
def Ty.vars : Ty → List Var
  | .prim _ => []
  | .null => []
  | .nominal _ _ args => Arg.varsAll args
  | .array elem => elem.vars
  | .inter _ members => Ty.varsAll members
  | .var v => [v]

/-- The variables occurring in an argument. -/
def Arg.vars : Arg → List Var
  | .type t => t.vars
  | .wild upper lower => upper.vars ++ lower.vars

/-- The variables occurring in some types. -/
def Ty.varsAll : List Ty → List Var
  | [] => []
  | t :: ts => t.vars ++ Ty.varsAll ts

/-- The variables occurring in some arguments. -/
def Arg.varsAll : List Arg → List Var
  | [] => []
  | a :: as => a.vars ++ Arg.varsAll as
end

mutual
/-- The declared variables that a type is an intersection of: itself, or those among its
members. -/
def Ty.bareVars : Ty → List TypeVar
  | .var (.declared v) => [v]
  | .inter _ members => Ty.bareVarsAll members
  | _ => []

/-- The declared variables standing bare among some members. -/
def Ty.bareVarsAll : List Ty → List TypeVar
  | [] => []
  | t :: ts => t.bareVars ++ Ty.bareVarsAll ts
end

end Generics
