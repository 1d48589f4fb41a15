import Formulary.Shape

namespace Formulary

/-- What a text says before any name is given a meaning. A fault stands where its fragment stood. -/
inductive Outline where
  | fault (fault : Fault) (place : Fragment)
  | number (value : Float)
  | name (place : Fragment)
  | minus (operand : Outline)
  | binary (op : Operator) (left right : Outline)
  | call (name : String) (place : Fragment) (arguments : List Outline)

def Fragment.outline (f : Fragment) : Outline :=
  match _h : f.shape with
  | .fault fault place => .fault fault place
  | .number value => .number value
  | .name place => .name place
  | .plus operand => operand.outline
  | .minus operand => .minus operand.outline
  | .binary op left right => .binary op left.outline right.outline
  | .call name place arguments =>
    .call name place (arguments.attach.map fun part => part.1.outline)
termination_by f.text.length
decreasing_by
  all_goals apply Fragment.shape_parts_length_lt; simp [_h, Shape.parts]
  exact part.2

end Formulary
