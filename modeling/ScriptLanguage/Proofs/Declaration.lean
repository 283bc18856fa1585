/-
Variables hold what they were declared for.

A declared variable starts as null, whatever its datatype, and every value it is given later
was converted to that datatype first.  A conversion that succeeds gives a value of the
target datatype or below it, so no later reading of the variable finds anything else.  That
is an invariant of contexts, and it is kept by whatever tree is run, with whatever functions,
and wherever the run fails.
-/
import ScriptLanguage.Proofs.Conversion
import ScriptLanguage.Proofs.Outline

namespace ScriptLanguage

/-! ### The invariant -/

/-- A variable that was declared with a datatype is null still, or holds a value of that
datatype or below. -/
def Entry.SuitsDeclaration : Entry → Prop
  | var b => ∀ d, b.declared = some d → b.value = .null ∨ b.value.datatype.isSubtypeOf d = true
  | _ => True

theorem Entry.suitsDeclaration_undeclared (v : Value) : SuitsDeclaration (.var ⟨none, v⟩) := by
  intro d hd
  cases hd

namespace Context

/-- All declared variables in all scopes hold what they were declared for. -/
def SuitsDeclarations (c : Context) : Prop := c.scopes.All Entry.SuitsDeclaration

variable {c d : Context} {name : String} {v w : Value}

private theorem SuitsDeclarations.of_assign (hassign : c.assign name v = (.ok w, d))
    (h : c.SuitsDeclarations) : d.SuitsDeclarations := by
  rcases assign_cases hassign with ⟨-, -, rfl⟩ | ⟨b, -, haccept, rfl⟩
  · exact Scopes.All.define h (Entry.suitsDeclaration_undeclared v)
  · refine Scopes.All.replace h fun t ht => ?_
    exact .inr (Value.isSubtypeOf_of_cast (cast_of_accept haccept ht))

theorem isInvariant_suitsDeclarations : IsInvariant SuitsDeclarations where
  defineLocal h := Scopes.All.define h (Entry.suitsDeclaration_undeclared _)
  declare hdeclare h := by
    obtain ⟨-, t, -, rfl⟩ := declare_eq_ok.mp hdeclare
    exact Scopes.All.define h fun _ _ => .inl rfl
  assign := SuitsDeclarations.of_assign
  pushScope h := Scopes.All.push h
  popScope h := Scopes.All.pop h
  loopFlags _ _ h := h
  giveBack _ h := h
  settled h := h
  output _ h := h

/-- Libraries bring no variables with them. -/
theorem all_load {P : Entry → Prop} (hdatatype : ∀ t, P (.datatype t)) (hoperator : ∀ o, P (.operator o))
    (hfunction : ∀ f, P (.function f)) (library : List Export) :
    ∀ {c : Context}, c.scopes.All P → (c.load library).scopes.All P := by
  induction library with
  | nil => intro c h; exact h
  | cons e library ih =>
      intro c h
      refine ih ?_
      cases e with
      | datatype t => exact h.defineGlobal (hdatatype t)
      | operator o => exact h.defineGlobal (hoperator o)
      | function f => exact h.defineGlobal (hfunction _)

end Context

/-! ### Assignments -/

private theorem Scopes.lookup_replace_self {s : Scopes} {name : String} {old : Entry} (entry : Entry)
    (h : s.lookup name = some old) : (s.replace name entry).lookup name = some entry := by
  rw [lookup] at h ⊢
  rw [toList_replace]
  generalize s.toList = scopes at h
  induction scopes with
  | nil => cases h
  | cons first scopes ih =>
      rw [List.findSome?_cons] at h
      rw [replaceIn, Scope.contains]
      cases hget : first.get? name with
      | none =>
          rw [hget] at h
          simpa only [Option.isSome_none, Bool.false_eq_true, if_false, List.findSome?_cons, hget]
            using ih h
      | some e =>
          have hinsert : (first.insert name entry).get? name = some entry := Entry.lookup_put_self ..
          simp only [Option.isSome_some, if_true, List.findSome?_cons, hinsert]

/-- A variable that is given a value keeps the datatype it was declared with. -/
theorem Context.lookup_of_assign {c d : Context} {name : String} {v w : Value} {b : Binding}
    (hlookup : c.lookup name = some (.var b)) (h : c.assign name v = (.ok w, d)) :
    d.lookup name = some (.var ⟨b.declared, w⟩) := by
  rcases assign_cases h with ⟨hnone, -⟩ | ⟨b', hlookup', -, rfl⟩
  · cases hnone.symm.trans hlookup
  · cases hlookup.symm.trans hlookup'
    exact Scopes.lookup_replace_self _ hlookup

/-! ### Whole runs -/

/-- A session with further functions, which the trees that are run may refer to. -/
def Session.contextWith (functions : Array Function) : Context :=
  { Session.new.context with functions := Session.new.context.functions ++ functions }

private theorem Session.suitsDeclarations_contextWith (functions : Array Function) :
    (contextWith functions).SuitsDeclarations := by
  have hload := @Context.all_load Entry.SuitsDeclaration (fun _ => trivial) (fun _ => trivial)
    fun _ => trivial
  exact hload Library.console (hload Library.standard Scopes.all_empty)

/-- Whatever trees are run one after another where the libraries are loaded, in every context
that occurs the declared variables of all scopes are null still or hold what they were
declared for.  An assignment to one of them gives it the value converted to its datatype and
leaves all declarations as they are. -/
theorem Context.suitsDeclarations_of_leadsTo {functions : Array Function} {c : Context}
    (h : (Session.contextWith functions).LeadsTo (fun _ => True) c) :
    (∀ scope ∈ c.scopes.toList, ∀ name d v, (name, Entry.var ⟨some d, v⟩) ∈ scope.entries →
      v = .null ∨ v.datatype.isSubtypeOf d = true) ∧
    ∀ name d v, c.lookup name = some (.var ⟨some d, v⟩) → ∀ v' w c', c.assign name v' = (.ok w, c') →
      v'.cast d = .ok w ∧ w.datatype.isSubtypeOf d = true ∧
        c'.lookup name = some (.var ⟨some d, w⟩) ∧ c.KeepsOutlines c' := by
  have hsuits := isInvariant_suitsDeclarations.of_leadsTo (Session.suitsDeclarations_contextWith functions) h
  refine ⟨fun scope hscope name d v hmem => hsuits scope hscope _ hmem d rfl, ?_⟩
  intro name d v hlookup v' w c' hassign
  have hcast : v'.cast d = .ok w := by
    rcases assign_cases hassign with ⟨hnone, -⟩ | ⟨b, hlookup', haccept, -⟩
    · cases hnone.symm.trans hlookup
    · cases hlookup.symm.trans hlookup'
      exact cast_of_accept haccept rfl
  exact ⟨hcast, Value.isSubtypeOf_of_cast hcast, lookup_of_assign hlookup hassign,
    keepsOutlines_of_assign hlookup hassign⟩

/-- A call that fails to give a variable a value leaves the variable as it was. -/
theorem Context.suitsDeclarations_of_failed_call :
    ∃ functions c c', (Session.contextWith functions).LeadsTo (fun _ => True) c ∧
      c.lookup "n" = some (.var ⟨some .int, .int 1⟩) ∧ c.assign "n" (.bool false) = (.ok (.int 0), c') ∧
      c'.lookup "n" = some (.var ⟨some .int, .int 0⟩) ∧ c.KeepsOutlines c' := by
  have hrun : ∃ functions c c',
      (Node.sequence [.declaration "n" "int", .assignment "n" (.literal (.bool true)),
        .assignment "f" (.literal (.func ⟨19, "f"⟩)), .call "f" []]).run 4 (Session.contextWith functions)
          = .error (.cast (.string "x") .int) c ∧
      c.lookup "n" = some (.var ⟨some .int, .int 1⟩) ∧ c.assign "n" (.bool false) = (.ok (.int 0), c') :=
    ⟨#[⟨"f", [⟨[], .tree (.assignment "n" (.literal (.string "x")))⟩]⟩], _, _, rfl, rfl, rfl⟩
  obtain ⟨functions, c, c', hrun, hlookup, hassign⟩ := hrun
  have hleads : (Session.contextWith functions).LeadsTo (fun _ => True) c :=
    .run .start trivial (congrArg Outcome.context? hrun)
  obtain ⟨-, hkept⟩ := suitsDeclarations_of_leadsTo hleads
  obtain ⟨-, -, hlookup', houtlines⟩ := hkept _ _ _ hlookup _ _ _ hassign
  exact ⟨functions, c, c', hleads, hlookup, hassign, hlookup', houtlines⟩

end ScriptLanguage
