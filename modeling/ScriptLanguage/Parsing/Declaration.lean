/-
Declarations: names that share a datatype, and a first value for all of them.
-/
import ScriptLanguage.Parsing.Expression

namespace ScriptLanguage

/-- A name at the front of a declaration. -/
def readName : List Token → Except ParseError (String × List Token)
  | [] => .error (.invalidDeclaration none)
  | t :: ts => if t.kind = .identifier then .ok (t.text, ts) else .error (.invalidDeclaration (some t))

/-- The names of a declaration, with colons between them. -/
def readNames : List Token → Except ParseError (List String × List Token)
  | [] => .error (.invalidDeclaration none)
  | t :: ts =>
    if t.kind = .identifier then
      match ts with
      | [] => .ok ([t.text], [])
      | c :: rest =>
        if c.is .operator ":" then
          match readNames rest with
          | .ok (names, after) => .ok (t.text :: names, after)
          | .error e => .error e
        else .ok ([t.text], c :: rest)
    else .error (.invalidDeclaration (some t))

theorem length_readName_lt {ts rest : List Token} {name : String} (h : readName ts = .ok (name, rest)) :
    rest.length < ts.length := by
  unfold readName at h
  grind

theorem length_readNames_lt {ts rest : List Token} {names : List String}
    (h : readNames ts = .ok (names, rest)) : rest.length < ts.length := by
  fun_induction readNames ts generalizing names <;> grind

/-- The end of a declaration: a semicolon, or a value for all the names and then a
semicolon. -/
def readInitializer (names : List String) (datatype : String) (ts : List Token) :
    Except ParseError (Reading (List Node) ts) :=
  let declarations := names.map fun name => Node.declaration name datatype
  match ts with
  | [] => .error (.invalidDeclaration none)
  | t :: ts =>
    if t.kind = .terminator then .ok ⟨declarations, ts, Nat.lt_succ_self _⟩
    else if t.is .operator "=" then
      if ts.head?.all (·.kind == .terminator) then .error (.invalidDeclaration ts.head?)
      else do
        let r ← readExpression ts
        if r.last?.any (·.kind == .terminator) then
          .ok ⟨declarations ++ names.map fun name => Node.assignment name r.value, r.rest,
            Nat.lt_succ_of_lt r.isShorter⟩
        else .error (.invalidDeclaration r.rest.head?)
    else .error (.invalidDeclaration (some t))

/-- A declaration: names, their datatype, and its end. -/
def readDeclaration (ts : List Token) : Except ParseError (Reading (List Node) ts) :=
  match h : readNames ts with
  | .error e => .error e
  | .ok (names, afterNames) =>
    match h' : readName afterNames with
    | .error e => .error e
    | .ok (datatype, rest) =>
      have : rest.length ≤ ts.length :=
        Nat.le_of_lt (Nat.lt_trans (length_readName_lt h') (length_readNames_lt h))
      (readInitializer names datatype rest).map (·.widen this)

end ScriptLanguage
