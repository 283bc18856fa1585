/-
The meaning of trees.

Each part of a tree is evaluated with one unit of fuel less than the whole, and so is
every further turn of a loop.  The rules for the constructs are stated over a function
that evaluates the parts; `Node.evaluate` ties the knot.
-/
import ScriptLanguage.Native.Run

namespace ScriptLanguage

namespace Evaluation

/-- Values of nodes, from left to right. -/
def evaluateAll (ev : Node → Eval Value) : List Node → Eval (List Value)
  | [] => pure []
  | n :: ns => do
    let v ← ev n
    let vs ← evaluateAll ev ns
    pure (v :: vs)

/-- Runs statements until one leaves a flag raised, and gives the value of the last one
that ran; `last` if there is none. -/
def runStatements (ev : Node → Eval Value) (last : Value) : List Node → Eval Value
  | [] => pure last
  | n :: ns => do
    let v ← ev n
    if ← Eval.ask (·.flags.any) then pure v else runStatements ev v ns

/-- Whether a condition holds. -/
def test (ev : Node → Eval Value) (condition : Node) : Eval Bool := do
  let v ← ev condition
  Eval.ofExcept v.truthy

/-- Runs the first arm whose condition holds. -/
def runBranch (ev : Node → Eval Value) (otherwise : Option Node) : List (Node × Node) → Eval Value
  | [] =>
    match otherwise with
    | some body => ev body
    | none => pure .null
  | (condition, body) :: arms => do
    if ← test ev condition then ev body else runBranch ev otherwise arms

/-- After one turn of a loop: whether it goes on.  The flags that are meant for the loop
are taken down. -/
def finishTurn (c : Context) : Bool × Context :=
  let flags := { c.flags with continuing := false }
  if flags.breaking then (false, { c with flags := { flags with breaking := false } })
  else (!(flags.returning || flags.exiting), { c with flags := flags })

/-- One turn of a loop, and then `again` if it goes on.  Its value is null. -/
@[inline] def runLoop (ev : Node → Eval Value) (condition body : Node) (again : Eval Value) : Eval Value := do
  if ← test ev condition then
    let _ ← ev body
    if ← Eval.modifyGet finishTurn then again else pure .null
  else pure .null

/-- Binds arguments to parameters in the innermost scope. -/
def bindParameters (c : Context) (parameters : List Parameter) (arguments : List Value) : Context :=
  (parameters.zip arguments).foldl (fun c (p, v) => c.defineLocal p.name v) c

def runBody (ev : Node → Eval Value) : Body → Eval Value
  | .native work => work.run
  | .tree root => ev root

/-- Calls a function: its first signature that admits the arguments runs in a scope with
the parameters. -/
def invoke (ev : Node → Eval Value) (f : Function) (arguments : List Value) : Eval Value :=
  match f.resolve? arguments with
  | none => Eval.fail (Function.unresolved f.name arguments)
  | some signature =>
    Eval.settle <| Eval.inScope do
      Eval.modify (bindParameters · signature.parameters arguments)
      runBody ev signature.body

/-- The function that a name can be called by: a function, or a variable that holds one. -/
def callee (name : String) (c : Context) : Except RuntimeError Function :=
  match c.lookup name with
  | some (.function f) => .ok (c.function f)
  | some (.var ⟨_, ⟨_, .func f, _⟩⟩) => .ok (c.function f)
  | some _ => .error (.notCallable name)
  | none => .error (.unknownName name)

/-- The function that an operator applies to its operands. -/
def operatorFunction (symbol : String) (operands : List Value) (c : Context) : Except RuntimeError Function :=
  match c.lookup symbol with
  | some (.operator o) =>
    match o.functionFor? operands.length with
    | some f => .ok f
    | none => .error (Function.unresolved o.symbol operands)
  | _ => .error (.unknownOperator symbol)

end Evaluation

/-- The value of a tree, computed with the given fuel. -/
def Node.evaluate : (fuel : Nat) → Node → Eval Value
  | 0, _ => Eval.outOfFuel
  | fuel + 1, node =>
    match node with
    | .literal v => pure v
    | .identifier name => Eval.askFor (·.find name)
    | .operation symbol children _ => do
      let operands ← Evaluation.evaluateAll (Node.evaluate fuel) children
      let f ← Eval.askFor (Evaluation.operatorFunction symbol operands)
      Evaluation.invoke (Node.evaluate fuel) f operands
    | .call name children => do
      let arguments ← Evaluation.evaluateAll (Node.evaluate fuel) children
      let f ← Eval.askFor (Evaluation.callee name)
      Evaluation.invoke (Node.evaluate fuel) f arguments
    | .cast datatype child => do
      let v ← child.evaluate fuel
      let d ← Eval.askFor (·.datatype datatype)
      Eval.ofExcept (v.cast d)
    | .sequence children => Eval.inScope (Evaluation.runStatements (Node.evaluate fuel) .null children)
    | .declaration name datatype => Eval.change (·.declare name datatype)
    | .assignment name child => do
      let v ← child.evaluate fuel
      Eval.change (·.assign name v)
    | .branch arms otherwise => Evaluation.runBranch (Node.evaluate fuel) otherwise arms
    | .loop condition body =>
      Evaluation.runLoop (Node.evaluate fuel) condition body (Node.evaluate fuel (.loop condition body))
    | .giveBack child => do
      let v ← child.evaluate fuel
      Eval.modify fun c => { c with returnValue := some v, flags := { c.flags with returning := true } }
      pure .null
    | .leave => do
      Eval.modify fun c => { c with flags := { c.flags with breaking := true } }
      pure .null
    | .skip => do
      Eval.modify fun c => { c with flags := { c.flags with continuing := true } }
      pure .null

/-- Runs a tree as a program: the statements of a block run in the scope that is there, so
that what they declare stays. -/
def Node.run (fuel : Nat) (root : Node) : Eval Value :=
  Eval.settle <|
    match root with
    | .sequence children => Evaluation.runStatements (Node.evaluate fuel) .null children
    | other => other.evaluate fuel

/-- Calls a function from outside a tree. -/
def Function.call (fuel : Nat) (f : Function) (arguments : List Value) : Eval Value :=
  Evaluation.invoke (Node.evaluate fuel) f arguments

end ScriptLanguage
