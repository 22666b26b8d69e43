/-
# Types as text

The written form of types, which the expression reader takes back. A wildcard leaves out
the bounds it has by default, and an intersection gets parentheses only as the component
of an array.
-/

import Generics.Type.Shape

namespace Generics

/-- Whether a wildcard's upper bound is the default. -/
def Ty.isDefaultUpper (t : Ty) : Bool := t.equal .object

/-- Whether a wildcard's lower bound is the default. -/
def Ty.isDefaultLower : Ty → Bool
  | .null => true
  | _ => false

mutual
/-- The text of a type. -/
def Ty.render : Ty → String
  | .prim p => p.render
  | .null => "Null"
  | .nominal _ decl [] => decl
  | .nominal _ decl (a :: as) => decl ++ "<" ++ a.render ++ Arg.renderMore as ++ ">"
  | .array elem => if elem.isInter then "(" ++ elem.render ++ ")[]" else elem.render ++ "[]"
  | .inter _ [] => "(top)"
  | .inter _ (t :: ts) => t.render ++ Ty.renderMore ts
  | .var v => v.name

/-- The text of an argument. -/
def Arg.render : Arg → String
  | .type t => t.render
  | .wild upper lower =>
    "?" ++ (if upper.isDefaultUpper then "" else " extends " ++ upper.render)
      ++ (if lower.isDefaultLower then "" else " super " ++ lower.render)

/-- The texts of further members, each after its separator. -/
def Ty.renderMore : List Ty → String
  | [] => ""
  | t :: ts => " & " ++ t.render ++ Ty.renderMore ts

/-- The texts of further arguments, each after its separator. -/
def Arg.renderMore : List Arg → String
  | [] => ""
  | a :: as => ", " ++ a.render ++ Arg.renderMore as
end

/-- The text of an applied declaration. -/
def Nominal.render (n : Nominal) : String := n.toTy.render

end Generics
