/-
The scopes as a store of variables.

What is written is what is read, and nothing else is.  A name is looked up from the inside out, an
assignment goes to the nearest variable wherever it is, and a declaration goes to the innermost scope
whatever the name stood for.  So an assignment and a declaration settle what their own name stands
for, in the way of a store with one place for each name, and no other name is touched.

A scope that is opened and closed again leaves a trace only where an assignment went through it to a
variable around it.  Until then a name stands below for what it stood for before, however often it
was declared, defined or assigned above.
-/
import ScriptLanguage.Proofs.Declaration
import ScriptLanguage.Proofs.LibraryCall

namespace ScriptLanguage

/-! ### One name in the scopes -/

namespace Scopes

variable {name other : String}

theorem findSome?_replaceIn_of_ne (entry : Entry) (hne : other ≠ name) (scopes : List Scope) :
    (replaceIn name entry scopes).findSome? (·.get? other) = scopes.findSome? (·.get? other) := by
  induction scopes with
  | nil => rfl
  | cons first scopes ih =>
      have hget : (first.insert name entry).get? other = first.get? other :=
        Entry.lookup_put_of_ne _ _ hne
      rw [replaceIn]
      split
      · simp only [List.findSome?_cons, hget]
      · simp only [List.findSome?_cons, ih]

theorem lookup_replace_of_ne (s : Scopes) (entry : Entry) (hne : other ≠ name) :
    (s.replace name entry).lookup other = s.lookup other := by
  rw [lookup, toList_replace]
  exact findSome?_replaceIn_of_ne entry hne s.toList

/-- What a name stands for in the scopes around the innermost one. -/
def lookupBelow (s : Scopes) (name : String) : Option Entry := s.enclosing.findSome? (·.get? name)

theorem lookupBelow_push (s : Scopes) (name : String) : s.push.lookupBelow name = s.lookup name := rfl

theorem lookup_pop {s : Scopes} (h : s.enclosing ≠ []) (name : String) :
    s.pop.lookup name = s.lookupBelow name := by
  obtain ⟨innermost, enclosing⟩ := s
  cases enclosing with
  | nil => exact absurd rfl h
  | cons outer rest => rfl

theorem replace_of_get? {s : Scopes} {old : Entry} (entry : Entry) (h : s.innermost.get? name = some old) :
    s.replace name entry = s.define name entry := by
  have hcontains : s.innermost.contains name = true := by rw [Scope.contains, h]; rfl
  rw [replace, if_pos hcontains]

theorem lookupBelow_replace_of_ne (s : Scopes) (entry : Entry) (hne : other ≠ name) :
    (s.replace name entry).lookupBelow other = s.lookupBelow other := by
  unfold replace
  split
  · rfl
  · exact findSome?_replaceIn_of_ne entry hne s.enclosing

end Scopes

/-! ### Single operations -/

namespace Context

variable {c d : Context} {name other datatype : String} {v w : Value}

theorem lookup_assign_of_ne (h : c.assign name v = (.ok w, d)) (hne : other ≠ name) :
    d.lookup other = c.lookup other := by
  rcases assign_cases h with ⟨-, -, rfl⟩ | ⟨b, -, -, rfl⟩
  · exact c.scopes.lookup_define_of_ne _ hne
  · exact c.scopes.lookup_replace_of_ne _ hne

/-- The value that an assignment gives back is the one that is found afterwards, with the name. -/
theorem find_of_assign (h : c.assign name v = (.ok w, d)) :
    d.find name = .ok ⟨w.datatype, w.payload, some name⟩ := by
  rcases assign_cases h with ⟨-, rfl, rfl⟩ | ⟨b, hlookup, -⟩
  · exact c.find_defineLocal_self name w
  · rw [find, lookup_of_assign hlookup h]
    rfl

theorem lookup_of_declare (h : c.declare name datatype = (.ok v, d)) :
    ∃ t, c.datatype datatype = .ok t ∧ d.lookup name = some (.var ⟨some t, .null⟩) := by
  obtain ⟨-, t, ht, rfl⟩ := declare_eq_ok.mp h
  exact ⟨t, ht, c.scopes.lookup_define_self name _⟩

theorem lookup_declare_of_ne (h : c.declare name datatype = (.ok v, d)) (hne : other ≠ name) :
    d.lookup other = c.lookup other := by
  obtain ⟨-, t, -, rfl⟩ := declare_eq_ok.mp h
  exact c.scopes.lookup_define_of_ne _ hne

/-- A declared variable takes exactly the values that can be converted to its datatype. -/
theorem exists_assign_iff {t : Datatype} {old : Value} (h : c.lookup name = some (.var ⟨some t, old⟩)) :
    (∃ w d, c.assign name v = (.ok w, d)) ↔ ∃ w, v.cast t = .ok w := by
  constructor
  · rintro ⟨w, d, hassign⟩
    rcases assign_cases hassign with ⟨hnone, -⟩ | ⟨b, hlookup, haccept, -⟩
    · cases hnone.symm.trans h
    · cases hlookup.symm.trans h
      exact ⟨w, cast_of_accept haccept rfl⟩
  · rintro ⟨w, hcast⟩
    simp only [assign, h, Binding.accept, hcast]
    exact ⟨w, _, rfl⟩

end Context

/-! ### Operations one after another -/

namespace Context

/-- What can be done to the variables in the scopes. -/
inductive Operation where
  | declare (name datatype : String)
  | defineLocal (name : String) (v : Value)
  | assign (name : String) (v : Value)

namespace Operation

/-- The context after an operation, whether it succeeds or fails. -/
def run (c : Context) : Operation → Context
  | declare name datatype => (c.declare name datatype).2
  | defineLocal name v => c.defineLocal name v
  | assign name v => (c.assign name v).2

/-- The operation gives a value to a variable of that name in a scope around the innermost one. -/
def AssignsBelow (name : String) (c : Context) (o : Operation) : Prop :=
  ∃ v b w d, o = assign name v ∧ c.scopes.innermost.get? name = none ∧ c.lookup name = some (.var b) ∧
    c.assign name v = (.ok w, d)

/-- No operation of the list does so when its turn comes. -/
def Spare (name : String) : Context → List Operation → Prop
  | _, [] => True
  | c, o :: os => ¬ o.AssignsBelow name c ∧ Spare name (o.run c) os

variable {c : Context} {name : String}

/-- An operation keeps the number of scopes, and what a name stands for below unless it assigns
there. -/
theorem run_keeps_below (o : Operation) (h : ¬ o.AssignsBelow name c) :
    (o.run c).scopes.enclosing.length = c.scopes.enclosing.length ∧
      (o.run c).scopes.lookupBelow name = c.scopes.lookupBelow name := by
  cases o with
  | defineLocal n v => exact ⟨rfl, rfl⟩
  | declare n datatype =>
      rw [run]
      obtain ⟨x, d, hdeclare⟩ : ∃ x d, c.declare n datatype = (x, d) := ⟨_, _, rfl⟩
      rw [hdeclare]
      cases x with
      | error e =>
          obtain rfl := eq_of_declare_error hdeclare
          exact ⟨rfl, rfl⟩
      | ok v =>
          obtain ⟨-, t, -, rfl⟩ := declare_eq_ok.mp hdeclare
          exact ⟨rfl, rfl⟩
  | assign n v =>
      rw [run]
      obtain ⟨x, d, hassign⟩ : ∃ x d, c.assign n v = (x, d) := ⟨_, _, rfl⟩
      rw [hassign]
      cases x with
      | error e =>
          obtain rfl := eq_of_assign_error hassign
          exact ⟨rfl, rfl⟩
      | ok w =>
          refine ⟨Nat.succ.inj (keepsEnclosing_of_assign hassign).length_eq, ?_⟩
          rcases assign_cases hassign with ⟨-, -, rfl⟩ | ⟨b, hlookup, -, rfl⟩
          · rfl
          by_cases hname : name = n
          · subst hname
            -- the variable is in the innermost scope, or the assignment would go below
            cases hget : c.scopes.innermost.get? name with
            | none => exact absurd ⟨v, b, w, _, rfl, hget, hlookup, hassign⟩ h
            | some old =>
                show (c.scopes.replace name _).lookupBelow name = _
                rw [Scopes.replace_of_get? _ hget]
                rfl
          · exact c.scopes.lookupBelow_replace_of_ne _ hname

private theorem foldl_run_keeps_below {os : List Operation} (h : Spare name c os) :
    (os.foldl run c).scopes.enclosing.length = c.scopes.enclosing.length ∧
      (os.foldl run c).scopes.lookupBelow name = c.scopes.lookupBelow name := by
  induction os generalizing c with
  | nil => exact ⟨rfl, rfl⟩
  | cons o os ih =>
      obtain ⟨hlength, hbelow⟩ := run_keeps_below o h.1
      obtain ⟨hlength', hbelow'⟩ := ih h.2
      exact ⟨hlength'.trans hlength, hbelow'.trans hbelow⟩

/-- In a scope of their own, operations leave a name as it was unless they assign below. -/
private theorem lookup_popScope_of_spare {os : List Operation} (h : Spare name c.pushScope os) :
    (os.foldl run c.pushScope).popScope.lookup name = c.lookup name := by
  obtain ⟨hlength, hbelow⟩ := foldl_run_keeps_below h
  have hne : (os.foldl run c.pushScope).scopes.enclosing ≠ [] := by
    intro hnil
    rw [hnil] at hlength
    cases hlength
  exact (Scopes.lookup_pop hne name).trans (hbelow.trans (c.scopes.lookupBelow_push name))

end Operation

/-- The laws of a store.  An assignment that succeeds gives back the value that is found under the name
afterwards, as that name's, and one that fails changes nothing.  A declaration makes a variable that is
null and takes exactly the values that can be converted to the datatype it was declared with, and if it
fails it changes nothing either.  Neither touches what another name stands for.  Whatever is done in a
scope of its own, a name that is not assigned while it stands for a variable around that scope stands for
the same afterwards. -/
theorem store_laws (c : Context) :
    (∀ name v w d, c.assign name v = (.ok w, d) →
      d.find name = .ok ⟨w.datatype, w.payload, some name⟩ ∧
      ∀ other, other ≠ name → d.lookup other = c.lookup other) ∧
    (∀ name v e d, c.assign name v = (.error e, d) → d = c) ∧
    (∀ name datatype v d, c.declare name datatype = (.ok v, d) →
      d.find name = .ok ⟨.null, .null, some name⟩ ∧
      (∃ t, c.datatype datatype = .ok t ∧
        ∀ v, (∃ w d', d.assign name v = (.ok w, d')) ↔ ∃ w, v.cast t = .ok w) ∧
      ∀ other, other ≠ name → d.lookup other = c.lookup other) ∧
    (∀ name datatype e d, c.declare name datatype = (.error e, d) → d = c) ∧
    ∀ name os, Operation.Spare name c.pushScope os →
      (os.foldl Operation.run c.pushScope).popScope.lookup name = c.lookup name := by
  refine ⟨?_, fun _ _ _ _ => eq_of_assign_error, ?_, fun _ _ _ _ => eq_of_declare_error,
    fun _ _ => Operation.lookup_popScope_of_spare⟩
  · intro name v w d h
    exact ⟨find_of_assign h, fun _ => lookup_assign_of_ne h⟩
  · intro name datatype v d h
    obtain ⟨t, ht, hlookup⟩ := lookup_of_declare h
    refine ⟨?_, ⟨t, ht, fun _ => exists_assign_iff hlookup⟩, fun _ => lookup_declare_of_ne h⟩
    rw [find, hlookup]
    rfl

/-- A number that takes no text, is hidden in a block by a text of the same name and comes back after
it. -/
theorem store_laws_around_hiding :
    ∃ (c d : Context) (e : RuntimeError), Session.new.context.declare "x" "int" = (.ok .null, c) ∧
      c.find "x" = .ok ⟨.null, .null, some "x"⟩ ∧ c.assign "x" (.bool true) = (.ok (.int 1), d) ∧
      d.find "x" = .ok ⟨.int, .int 1, some "x"⟩ ∧ d.lookup "string" = c.lookup "string" ∧
      d.assign "x" (.string "t") = (.error e, d) ∧
      ([.assign "y" (.int 2), .declare "x" "string", .assign "x" (.string "t")].foldl Operation.run
        d.pushScope).popScope.lookup "x" = d.lookup "x" := by
  have hruns : ∃ (c d d' : Context) (e : RuntimeError),
      Session.new.context.declare "x" "int" = (.ok .null, c) ∧
      c.assign "x" (.bool true) = (.ok (.int 1), d) ∧ d.assign "x" (.string "t") = (.error e, d') ∧
      ((Operation.declare "x" "string").run
        ((Operation.assign "y" (.int 2)).run d.pushScope)).scopes.innermost.get? "x"
          = some (.var ⟨some .string, .null⟩) := ⟨_, _, _, _, rfl, rfl, rfl, rfl⟩
  obtain ⟨c, d, d', e, hdeclare, hassign, hrefused, hhidden⟩ := hruns
  obtain ⟨-, -, hdeclared, -, -⟩ := store_laws Session.new.context
  obtain ⟨hassigned, -, -, -, -⟩ := store_laws c
  obtain ⟨-, hfailed, -, -, hblock⟩ := store_laws d
  obtain ⟨hnull, -, -⟩ := hdeclared _ _ _ _ hdeclare
  obtain ⟨hfound, hothers⟩ := hassigned _ _ _ _ hassign
  obtain rfl := hfailed _ _ _ _ hrefused
  refine ⟨c, d', e, hdeclare, hnull, hassign, hfound, hothers _ (by decide), hrefused,
    hblock _ _ ⟨?_, ?_, ?_, trivial⟩⟩
  · rintro ⟨v, b, w, d, ho, -⟩
    simp at ho
  · rintro ⟨v, b, w, d, ho, -⟩
    cases ho
  · rintro ⟨v, b, w, d, -, hfree, -⟩
    cases hhidden.symm.trans hfree

end Context

end ScriptLanguage
