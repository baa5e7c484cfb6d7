import FrontEnd.Text

/-!
# Types

`Ty` lists the types of expressions. `Ty.any` is the return type of a function that states none, until its body
has been checked. `Ty.name` is how messages and dumps name a type, `Ty.ofKeyword?` reads the source spelling.
-/

namespace FrontEnd

/-- The types of expressions and functions' results. -/
inductive Ty where
  | int | float | bool | char | str | unit | any
deriving DecidableEq, Inhabited

namespace Ty

/-- The name of a type in messages and dumps. -/
def name : Ty → Text
  | int => "Int"
  | float => "Float"
  | bool => "Bool"
  | char => "Char"
  | str => "Str"
  | unit => "Unit"
  | any => "Any"

/-- Numbers, whole or with a fraction. -/
def isNumeric : Ty → Bool
  | int | float => true
  | _ => false

/-- The source spelling of a type that a program can state. -/
def keyword : Ty → Text
  | int => "int"
  | float => "float"
  | bool => "bool"
  | char => "char"
  | str => "string"
  | unit => "unit"
  | any => []

/-- The source spellings of the types that a program can state. -/
def keywords : List (Text × Ty) :=
  [int, float, bool, char, str, unit].map fun t => (t.keyword, t)

/-- The type with source spelling `word`. -/
def ofKeyword? (word : Text) : Option Ty := keywords.lookup word

end Ty
end FrontEnd
