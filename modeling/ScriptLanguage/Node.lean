/-
The tree of a program.

Every construct of the language is a node: expressions, statements and whole blocks
alike.  A tree need not come from source text; trees the parser never builds (an
operator with three operands, a branch without arms) have a meaning too.
-/
import ScriptLanguage.Value.Text

namespace ScriptLanguage

/-- How an operator binds in an expression. -/
structure OperatorTags where
  precedence : Nat
  arity : Nat
  isLeftAssociative : Bool
deriving DecidableEq, Inhabited

inductive Node where
  | literal (value : Value)
  | identifier (name : String)
  | operation (symbol : String) (children : List Node) (tags : OperatorTags)
  | call (name : String) (arguments : List Node)
  | cast (datatype : String) (child : Node)
  | sequence (children : List Node)
  | declaration (name datatype : String)
  | assignment (name : String) (child : Node)
  /-- Arms of a condition and a body each, and what to do if none of them holds. -/
  | branch (arms : List (Node × Node)) (otherwise : Option Node)
  | loop (condition body : Node)
  | giveBack (child : Node)
  | leave
  | skip
deriving Inhabited

namespace Node

/-! ### Equality

Trees are equal if they have the same shape, names, symbols and tags, and equal
literals.
-/

mutual

def equals : Node → Node → Bool
  | literal v, literal w => v.equals w
  | identifier n, identifier m => n == m
  | operation s cs t, operation s' cs' t' => s == s' && equalLists cs cs' && t == t'
  | call n cs, call n' cs' => n == n' && equalLists cs cs'
  | cast d c, cast d' c' => d == d' && c.equals c'
  | sequence cs, sequence cs' => equalLists cs cs'
  | declaration n d, declaration n' d' => n == n' && d == d'
  | assignment n c, assignment n' c' => n == n' && c.equals c'
  | branch arms none, branch arms' none => equalArms arms arms'
  | branch arms (some c), branch arms' (some c') => equalArms arms arms' && c.equals c'
  | loop c b, loop c' b' => c.equals c' && b.equals b'
  | giveBack c, giveBack c' => c.equals c'
  | leave, leave => true
  | skip, skip => true
  | _, _ => false
termination_by structural n => n

def equalLists : List Node → List Node → Bool
  | [], [] => true
  | c :: cs, c' :: cs' => c.equals c' && equalLists cs cs'
  | _, _ => false
termination_by structural cs => cs

def equalArms : List (Node × Node) → List (Node × Node) → Bool
  | [], [] => true
  | (c, b) :: arms, (c', b') :: arms' => c.equals c' && b.equals b' && equalArms arms arms'
  | _, _ => false
termination_by structural arms => arms

end

/-! ### Text

The text of a tree reads as source text: operations stand in parentheses, blocks in
braces, and every statement of a block ends in a semicolon.
-/

mutual

def text : Node → String
  | literal v => v.text
  | identifier name => name
  | operation symbol [operand] _ => "(" ++ symbol ++ operand.text ++ ")"
  | operation symbol [left, right] _ => "(" ++ left.text ++ " " ++ symbol ++ " " ++ right.text ++ ")"
  | operation symbol children _ => symbol ++ "(" ++ ", ".intercalate (texts children) ++ ")"
  | call name arguments => name ++ "(" ++ ", ".intercalate (texts arguments) ++ ")"
  | cast datatype child => "(" ++ child.text ++ " : " ++ datatype ++ ")"
  | sequence children => "\x7b " ++ String.join ((texts children).map (· ++ "; ")) ++ "\x7d"
  | declaration name datatype => "var " ++ name ++ " " ++ datatype
  | assignment name child => name ++ " = " ++ child.text
  | branch arms none => " else ".intercalate (armTexts arms)
  | branch arms (some body) => " else ".intercalate (armTexts arms) ++ " else " ++ body.text
  | loop condition body => "while (" ++ condition.text ++ ") " ++ body.text
  | giveBack child => "return " ++ child.text
  | leave => "break"
  | skip => "continue"
termination_by structural n => n

def texts : List Node → List String
  | [] => []
  | c :: cs => c.text :: texts cs
termination_by structural cs => cs

def armTexts : List (Node × Node) → List String
  | [] => []
  | (condition, body) :: arms => ("if (" ++ condition.text ++ ") " ++ body.text) :: armTexts arms
termination_by structural arms => arms

end

end Node

end ScriptLanguage
