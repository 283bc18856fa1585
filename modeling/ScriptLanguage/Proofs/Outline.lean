/-
What evaluation leaves of the scopes: all but the values of variables.

The outline of a scope is what it says about its names, the values of variables aside.
Statements make variables in the innermost scope and give values to variables in any scope.
The first keeps the outlines of the enclosing scopes and the second keeps all outlines, so
the outlines of the enclosing scopes are a frame.  A block or a call works in a scope of its
own, for which the scope around it is an enclosing one; when it ends, with a value or an
error, even that scope has its outline back.
-/
import ScriptLanguage.Proofs.Frame
import ScriptLanguage.Proofs.SoundContext

namespace ScriptLanguage

/-! ### Outlines -/

/-- What a name stands for, without the value of a variable. -/
def Entry.outline : Entry → Entry
  | var b => var ⟨b.declared, .null⟩
  | datatype d => datatype d
  | function f => function f
  | operator o => operator o

/-- The names of a scope, with the outlines of what they stand for. -/
def Scope.outline (s : Scope) : List (String × Entry) := s.entries.map fun e => (e.1, e.2.outline)

/-- An entry of the same outline in the place of an earlier one does not show. -/
theorem Entry.map_outline_put {name : String} {entry old : Entry} (hsame : entry.outline = old.outline) :
    ∀ {es : List (String × Entry)}, es.lookup name = some old →
      (put name entry es).map (fun e => (e.1, e.2.outline)) = es.map fun e => (e.1, e.2.outline) := by
  intro es
  induction es with
  | nil => intro h; cases h
  | cons first es ih =>
      intro h
      rw [List.lookup_cons] at h
      rw [put]
      by_cases hname : name = first.1
      · rw [if_pos (by simpa using hname)]
        simp only [hname, beq_self_eq_true] at h
        cases h
        rw [List.map_cons, List.map_cons, hsame, hname]
      · rw [beq_false_of_ne hname] at h
        rw [if_neg (by simpa using hname), List.map_cons, List.map_cons, ih h]

private theorem Scope.outline_insert {s : Scope} {name : String} {entry old : Entry}
    (h : s.get? name = some old) (hsame : entry.outline = old.outline) :
    (s.insert name entry).outline = s.outline :=
  Entry.map_outline_put hsame h

namespace Scopes

variable {name : String} {entry old : Entry}

theorem toList_replace (s : Scopes) (name : String) (entry : Entry) :
    (s.replace name entry).toList = replaceIn name entry s.toList := by
  rw [toList, toList, replaceIn, replace]
  split <;> rfl

private theorem map_outline_replaceIn (hsame : entry.outline = old.outline) :
    ∀ {scopes : List Scope}, scopes.findSome? (·.get? name) = some old →
      (replaceIn name entry scopes).map Scope.outline = scopes.map Scope.outline := by
  intro scopes
  induction scopes with
  | nil => intro h; cases h
  | cons first scopes ih =>
      intro h
      rw [List.findSome?_cons] at h
      rw [replaceIn, Scope.contains]
      cases hget : first.get? name with
      | none =>
          rw [hget] at h
          exact congrArg (first.outline :: ·) (ih h)
      | some e =>
          rw [hget] at h
          cases h
          exact congrArg (· :: scopes.map Scope.outline) (Scope.outline_insert hget hsame)

theorem map_outline_replace {s : Scopes} (h : s.lookup name = some old)
    (hsame : entry.outline = old.outline) :
    (s.replace name entry).toList.map Scope.outline = s.toList.map Scope.outline := by
  rw [toList_replace]
  exact map_outline_replaceIn hsame h

end Scopes

/-! ### Contexts -/

namespace Context

/-- The functions and the outlines of all scopes but the innermost are the same. -/
structure KeepsEnclosing (c d : Context) : Prop where
  functions : d.functions = c.functions
  enclosing : d.scopes.enclosing.map Scope.outline = c.scopes.enclosing.map Scope.outline

/-- The functions and the outlines of all scopes are the same. -/
structure KeepsOutlines (c d : Context) : Prop where
  functions : d.functions = c.functions
  scopes : d.scopes.toList.map Scope.outline = c.scopes.toList.map Scope.outline

variable {c d : Context}

theorem KeepsOutlines.keepsEnclosing (h : c.KeepsOutlines d) : c.KeepsEnclosing d :=
  ⟨h.functions, (List.cons.inj h.scopes).2⟩

theorem KeepsEnclosing.length_eq (h : c.KeepsEnclosing d) :
    d.scopes.toList.length = c.scopes.toList.length := by
  have hlength := congrArg List.length h.enclosing
  rw [List.length_map, List.length_map] at hlength
  exact congrArg (· + 1) hlength

/-- The scope around is enclosing for what is done inside. -/
theorem KeepsEnclosing.popScope (h : c.pushScope.KeepsEnclosing d) : c.KeepsOutlines d.popScope := by
  refine ⟨h.functions, ?_⟩
  have henclosing : d.scopes.enclosing.map Scope.outline = c.scopes.toList.map Scope.outline :=
    h.enclosing
  show d.scopes.pop.toList.map Scope.outline = _
  rw [← henclosing, Scopes.pop]
  cases hd : d.scopes.enclosing with
  | nil =>
      rw [hd] at henclosing
      cases henclosing
  | cons outer rest => rfl

/-- Giving a variable a value keeps all outlines, its own with them. -/
theorem keepsOutlines_of_assign {name : String} {v w : Value} {b : Binding}
    (hlookup : c.lookup name = some (.var b)) (h : c.assign name v = (.ok w, d)) :
    c.KeepsOutlines d := by
  rcases assign_cases h with ⟨hnone, -, -⟩ | ⟨b', hlookup', -, rfl⟩
  · cases hnone.symm.trans hlookup
  · exact ⟨rfl, Scopes.map_outline_replace hlookup' rfl⟩

theorem keepsEnclosing_of_assign {name : String} {v w : Value} (h : c.assign name v = (.ok w, d)) :
    c.KeepsEnclosing d := by
  rcases assign_cases h with ⟨-, -, rfl⟩ | ⟨b, hlookup, -⟩
  · exact ⟨rfl, rfl⟩
  · exact (keepsOutlines_of_assign hlookup h).keepsEnclosing

theorem isFrame_keepsEnclosing : IsFrame KeepsEnclosing where
  refl _ := ⟨rfl, rfl⟩
  trans hcd hde := ⟨hde.functions.trans hcd.functions, hde.enclosing.trans hcd.enclosing⟩
  defineLocal _ _ _ := ⟨rfl, rfl⟩
  declare h := by
    obtain ⟨_, _, _, rfl⟩ := declare_eq_ok.mp h
    exact ⟨rfl, rfl⟩
  assign := keepsEnclosing_of_assign
  scope h := h.popScope.keepsEnclosing
  loopFlags _ _ _ := ⟨rfl, rfl⟩
  giveBack _ _ := ⟨rfl, rfl⟩
  settled _ := ⟨rfl, rfl⟩
  output _ _ := ⟨rfl, rfl⟩

/-! ### Blocks and calls -/

theorem keepsOutlines_inScope {α : Type} {x : Eval α} (h : x.Frames KeepsEnclosing) (c : Context) :
    (Eval.inScope x c).Leaves c.KeepsOutlines := by
  refine Eval.satisfies_inScope ((h c.pushScope).mono ?_ ?_)
  · exact fun _ _ hd => hd.popScope
  · exact fun _ _ hd => hd.popScope

private theorem keepsOutlines_settle {x : Eval Value} (h : (x c).Leaves c.KeepsOutlines) :
    (Eval.settle x c).Leaves c.KeepsOutlines := by
  have hsettled : ∀ {d : Context}, c.KeepsOutlines d → c.KeepsOutlines d.settled :=
    fun hd => ⟨hd.functions, hd.scopes⟩
  refine Eval.satisfies_settle (h.mono (fun v d hd => ?_) fun _ _ hd => hsettled hd)
  exact Eval.satisfies_ofExcept (fun _ _ => hsettled hd) fun _ _ => hsettled hd

private theorem keepsOutlines_call (fuel : Nat) (f : Function) (arguments : List Value) (c : Context) :
    (f.call fuel arguments c).Leaves c.KeepsOutlines := by
  unfold Function.call Evaluation.invoke
  cases f.resolve? arguments with
  | none => exact ⟨rfl, rfl⟩
  | some s =>
      refine keepsOutlines_settle (keepsOutlines_inScope ?_ c)
      exact isFrame_keepsEnclosing.body (isFrame_keepsEnclosing.evaluate fuel) s arguments

private theorem keepsOutlines_sequence (fuel : Nat) (children : List Node) (c : Context) :
    ((Node.sequence children).evaluate fuel c).Leaves c.KeepsOutlines := by
  cases fuel with
  | zero => trivial
  | succ fuel =>
      refine keepsOutlines_inScope ?_ c
      exact isFrame_keepsEnclosing.runStatements (fun n _ => isFrame_keepsEnclosing.evaluate fuel n) _

/-- Whatever tree is evaluated, and whether it ends with a value or an error, there are as
many scopes as before, and the enclosing ones have the same names, which stand for the same
things but for the values of variables.  After a block or a call this is true of the
innermost scope as well. -/
theorem keepsEnclosing_evaluate (fuel : Nat) (c : Context) :
    (∀ n : Node, (n.evaluate fuel c).Leaves fun d =>
      d.scopes.toList.length = c.scopes.toList.length ∧ c.KeepsEnclosing d) ∧
    (∀ children, ((Node.sequence children).evaluate fuel c).Leaves c.KeepsOutlines) ∧
    ∀ (f : Function) arguments, (f.call fuel arguments c).Leaves c.KeepsOutlines := by
  refine ⟨fun n => ?_, fun children => keepsOutlines_sequence fuel children c,
    fun f arguments => keepsOutlines_call fuel f arguments c⟩
  have hframe := isFrame_keepsEnclosing.evaluate fuel n c
  exact hframe.mono (fun _ _ hd => ⟨hd.length_eq, hd⟩) fun _ _ hd => ⟨hd.length_eq, hd⟩

end Context

end ScriptLanguage
