/-
Casts in a tree.

The parser reads a colon like any operator.  Resolving the casts of a tree turns each of
these operations into a cast to the datatype that its second operand names.
-/
import ScriptLanguage.ParseError

namespace ScriptLanguage

namespace Node

/-- The operator that stands for a cast. -/
def castSymbol : String := ":"

/-- The cast that a colon with these operands is.  The second operand has to be a name. -/
def castOf : List Node → Except ParseError Node
  | child :: identifier datatype :: _ => .ok (cast datatype child)
  | _ :: found :: _ => .error (.invalidCast (some found))
  | _ => .error (.invalidCast none)

mutual

/-- The tree with all casts resolved, operands first. -/
def resolveCasts : Node → Except ParseError Node
  | operation symbol children tags =>
    match resolveAll children with
    | .error e => .error e
    | .ok children => if symbol = castSymbol then castOf children else .ok (operation symbol children tags)
  | call name arguments => (resolveAll arguments).map (call name)
  | cast datatype child => child.resolveCasts.map (cast datatype)
  | sequence children => (resolveAll children).map sequence
  | assignment name child => child.resolveCasts.map (assignment name)
  | branch arms none => (resolveArms arms).map fun arms => branch arms none
  | branch arms (some body) =>
    match resolveArms arms with
    | .error e => .error e
    | .ok arms => body.resolveCasts.map fun body => branch arms (some body)
  | loop condition body =>
    match condition.resolveCasts with
    | .error e => .error e
    | .ok condition => body.resolveCasts.map (loop condition)
  | giveBack child => child.resolveCasts.map giveBack
  | literal v => .ok (literal v)
  | identifier name => .ok (identifier name)
  | declaration name datatype => .ok (declaration name datatype)
  | leave => .ok leave
  | skip => .ok skip
termination_by structural n => n

def resolveAll : List Node → Except ParseError (List Node)
  | [] => .ok []
  | c :: cs =>
    match c.resolveCasts with
    | .error e => .error e
    | .ok c => (resolveAll cs).map (c :: ·)
termination_by structural cs => cs

def resolveArms : List (Node × Node) → Except ParseError (List (Node × Node))
  | [] => .ok []
  | (condition, body) :: arms =>
    match condition.resolveCasts with
    | .error e => .error e
    | .ok condition =>
      match body.resolveCasts with
      | .error e => .error e
      | .ok body => (resolveArms arms).map ((condition, body) :: ·)
termination_by structural arms => arms

end

end Node

end ScriptLanguage
