/-
Contexts in which all is as the libraries left it, but for variables with sound values.

Programs define no functions.  All that can be called in a session are the functions of the
libraries: by their names, through operators, or through variables that refer to them.
A sound context has nothing else in its scopes, and the values of its variables are sound.
-/
import ScriptLanguage.Session
import ScriptLanguage.Proofs.Outcome
import ScriptLanguage.Proofs.WellTagged

namespace ScriptLanguage

/-- All functions of the libraries. -/
def Library.all : List Function := functions ++ [print]

/-- The reference is to a function of the libraries, in a registry of functions. -/
def FunctionRef.IsKnown (registry : Array Function) (f : FunctionRef) : Prop :=
  ∃ g ∈ Library.all, registry[f.id]? = some g

/-- The operator applies functions of the libraries, and is not named like one of them. -/
structure Operator.IsSound (o : Operator) : Prop where
  functions : ∀ f ∈ o.primary :: o.secondary.toList, f ∈ Library.all
  symbol : ∀ f ∈ Library.all, f.name ≠ o.symbol

def Entry.IsSound (registry : Array Function) : Entry → Prop
  | var b => b.value.IsSound (FunctionRef.IsKnown registry)
  | datatype _ => True
  | function f => f.IsKnown registry
  | operator o => o.IsSound

/-! ### Scopes -/

theorem Entry.mem_put {name : String} {entry : Entry} {es : List (String × Entry)}
    {e : String × Entry} (h : e ∈ put name entry es) : e = (name, entry) ∨ e ∈ es := by
  induction es with
  | nil => exact .inl (List.mem_singleton.mp h)
  | cons first es ih =>
      rw [put] at h
      split at h
      · rcases List.mem_cons.mp h with h | h
        · exact .inl h
        · exact .inr (List.mem_cons_of_mem _ h)
      · rcases List.mem_cons.mp h with h | h
        · exact .inr (h ▸ List.mem_cons_self ..)
        · exact (ih h).imp id (List.mem_cons_of_mem _)

theorem Entry.lookup_put_self (name : String) (entry : Entry) (es : List (String × Entry)) :
    (put name entry es).lookup name = some entry := by
  induction es with
  | nil => simp [put]
  | cons first es ih =>
      rw [put]
      split
      · simp
      · rename_i hne
        rw [Bool.not_eq_true] at hne
        rw [List.lookup_cons, hne]
        exact ih

theorem Entry.lookup_put_of_ne {name other : String} (entry : Entry) (es : List (String × Entry))
    (hne : other ≠ name) : (put name entry es).lookup other = es.lookup other := by
  have hfalse : (other == name) = false := beq_false_of_ne hne
  induction es with
  | nil => simp only [put, List.lookup_cons, List.lookup_nil, hfalse]
  | cons first es ih =>
      obtain ⟨n, e⟩ := first
      rw [put]
      split
      · rename_i heq
        obtain rfl : name = n := eq_of_beq heq
        simp only [List.lookup_cons, hfalse]
      · simp only [List.lookup_cons, ih]

namespace Scope

/-- All entries of the scope have the property. -/
def All (P : Entry → Prop) (s : Scope) : Prop := ∀ e ∈ s.entries, P e.2

variable {P : Entry → Prop} {s : Scope}

theorem all_empty : All P empty := by
  intro e he
  cases he

theorem All.insert (h : s.All P) {name : String} {entry : Entry} (hentry : P entry) :
    (s.insert name entry).All P := by
  intro e he
  rcases Entry.mem_put he with rfl | he
  · exact hentry
  · exact h e he

theorem All.get? (h : s.All P) {name : String} {entry : Entry} (hget : s.get? name = some entry) :
    P entry := by
  obtain ⟨before, after, hentries, -⟩ := List.lookup_eq_some_iff.mp hget
  refine h (name, entry) ?_
  rw [hentries]
  exact List.mem_append_right _ (List.mem_cons_self ..)

end Scope

namespace Scopes

/-- All entries of all scopes have the property. -/
def All (P : Entry → Prop) (s : Scopes) : Prop := ∀ scope ∈ s.toList, scope.All P

variable {P : Entry → Prop} {s : Scopes} {name : String} {entry : Entry}

theorem all_iff : s.All P ↔ s.innermost.All P ∧ ∀ scope ∈ s.enclosing, scope.All P :=
  List.forall_mem_cons

theorem all_empty : All P empty := all_iff.mpr ⟨Scope.all_empty, nofun⟩

theorem All.push (h : s.All P) : s.push.All P := all_iff.mpr ⟨Scope.all_empty, h⟩

theorem All.pop (h : s.All P) : s.pop.All P := by
  unfold Scopes.pop
  split
  · exact h
  · rename_i outer rest henclosing
    have hrest := (all_iff.mp h).2
    rw [henclosing] at hrest
    exact hrest

theorem All.lookup (h : s.All P) (hlookup : s.lookup name = some entry) : P entry := by
  obtain ⟨scope, hscope, hget⟩ := List.exists_of_findSome?_eq_some hlookup
  exact (h scope hscope).get? hget

theorem All.define (h : s.All P) (hentry : P entry) : (s.define name entry).All P := by
  obtain ⟨hinner, hrest⟩ := all_iff.mp h
  exact all_iff.mpr ⟨hinner.insert hentry, hrest⟩

private theorem all_replaceIn (hentry : P entry) :
    ∀ {scopes : List Scope}, (∀ scope ∈ scopes, scope.All P) →
      ∀ scope ∈ replaceIn name entry scopes, scope.All P := by
  intro scopes
  induction scopes with
  | nil => intro h; exact h
  | cons first scopes ih =>
      intro h
      obtain ⟨hfirst, hrest⟩ := List.forall_mem_cons.mp h
      rw [replaceIn]
      split
      · exact List.forall_mem_cons.mpr ⟨hfirst.insert hentry, hrest⟩
      · exact List.forall_mem_cons.mpr ⟨hfirst, ih hrest⟩

theorem All.replace (h : s.All P) (hentry : P entry) : (s.replace name entry).All P := by
  unfold Scopes.replace
  split
  · exact h.define hentry
  · obtain ⟨hinner, hrest⟩ := all_iff.mp h
    exact all_iff.mpr ⟨hinner, all_replaceIn hentry hrest⟩

theorem All.defineGlobal (h : s.All P) (hentry : P entry) : (s.defineGlobal name entry).All P := by
  unfold Scopes.defineGlobal
  split
  · exact h.define hentry
  · rename_i outermost hlast
    obtain ⟨hinner, hrest⟩ := all_iff.mp h
    have houtermost : outermost ∈ s.enclosing := List.mem_of_getLast? hlast
    refine all_iff.mpr ⟨hinner, List.forall_mem_append.mpr ⟨?_, ?_⟩⟩
    · exact fun scope hscope => hrest scope ((List.dropLast_sublist _).subset hscope)
    · exact fun scope hscope => List.mem_singleton.mp hscope ▸ (hrest outermost houtermost).insert hentry

end Scopes

/-! ### Errors and answers -/

/-- What the error says about overloads is true: no signature of a library function of that
name admits arguments of these datatypes. -/
def RuntimeError.IsHonest : RuntimeError → Prop
  | unresolvedOverload name datatypes =>
      ∀ f ∈ Library.all, f.name = name → ∀ arguments : List Value,
        arguments.map (·.datatype) = datatypes → f.resolve? arguments = none
  | _ => True

/-- An answer with the property, or an honest error. -/
abbrev Answers {α : Type} (P : α → Prop) : Except RuntimeError α → Prop := Yields P RuntimeError.IsHonest

/-- The value is sound where the given functions are registered. -/
abbrev Value.SoundIn (registry : Array Function) : Value → Prop :=
  Value.IsSound (FunctionRef.IsKnown registry)

variable {registry : Array Function}

theorem answers_cast {v : Value} (hv : v.SoundIn registry) (target : Datatype) :
    Answers (Value.SoundIn registry) (v.cast target) := by
  cases h : v.cast target with
  | ok w => exact hv.cast h
  | error e =>
      unfold Value.cast at h
      split at h
      · cases h
      · split at h <;> cases h
        trivial

theorem answers_accept (b : Binding) {v : Value} (hv : v.SoundIn registry) :
    Answers (Value.SoundIn registry) (b.accept v) := by
  unfold Binding.accept
  split
  · exact answers_cast hv _
  · exact hv

theorem answers_of_supported {x : Except RuntimeError Value}
    (h : Supported (FunctionRef.IsKnown registry) x) : Answers (Value.SoundIn registry) x := by
  cases x with
  | ok v => exact h
  | error e => cases e <;> first | exact h.elim | trivial

/-! ### Contexts -/

/-- The functions are the registered ones, names stand for sound things, and what is given
back is sound. -/
structure Context.IsSound (registry : Array Function) (c : Context) : Prop where
  functions : c.functions = registry
  entries : c.scopes.All (Entry.IsSound registry)
  returnValue : ∀ v ∈ c.returnValue, v.SoundIn registry

namespace Context.IsSound

variable {c : Context} {name : String} {v : Value}

theorem pushScope (h : c.IsSound registry) : c.pushScope.IsSound registry :=
  ⟨h.functions, h.entries.push, h.returnValue⟩

theorem popScope (h : c.IsSound registry) : c.popScope.IsSound registry :=
  ⟨h.functions, h.entries.pop, h.returnValue⟩

theorem withFlags (h : c.IsSound registry) (flags : ControlFlags) :
    ({ c with flags := flags } : Context).IsSound registry :=
  ⟨h.functions, h.entries, h.returnValue⟩

theorem withOutput (h : c.IsSound registry) (output : String) :
    ({ c with output := output } : Context).IsSound registry :=
  ⟨h.functions, h.entries, h.returnValue⟩

theorem settled (h : c.IsSound registry) : c.settled.IsSound registry :=
  ⟨h.functions, h.entries, nofun⟩

theorem defineLocal (h : c.IsSound registry) (hv : v.SoundIn registry) :
    (c.defineLocal name v).IsSound registry :=
  ⟨h.functions, h.entries.define hv, h.returnValue⟩

theorem answers_find (h : c.IsSound registry) (name : String) :
    Answers (Value.SoundIn registry) (c.find name) := by
  unfold Context.find
  split
  · rename_i b hlookup
    have hvalue : b.value.SoundIn registry := h.entries.lookup hlookup
    exact hvalue.withName name
  · rename_i f hlookup
    have hknown : f.IsKnown registry := h.entries.lookup hlookup
    refine ⟨.func, fun g hg => ?_⟩
    cases hg
    exact hknown
  all_goals trivial

theorem answers_datatype (c : Context) (name : String) : Answers (fun _ => True) (c.datatype name) := by
  unfold Context.datatype
  split <;> trivial

theorem answers_declare (h : c.IsSound registry) (name datatype : String) :
    Answers (Value.SoundIn registry) (c.declare name datatype).1 ∧
      (c.declare name datatype).2.IsSound registry := by
  have hanswers := answers_datatype c datatype
  unfold Context.declare
  cases hdatatype : c.datatype datatype with
  | ok d =>
      have hentry : Entry.IsSound registry (.var ⟨some d, .null⟩) := Value.isSound_null
      exact ⟨Value.isSound_null, h.functions, h.entries.define hentry, h.returnValue⟩
  | error e => exact ⟨hanswers.of_error hdatatype, h⟩

theorem answers_assign (h : c.IsSound registry) (hv : v.SoundIn registry) (name : String) :
    Answers (Value.SoundIn registry) (c.assign name v).1 ∧ (c.assign name v).2.IsSound registry := by
  unfold Context.assign
  split
  · exact ⟨hv, h.defineLocal hv⟩
  · rename_i b _
    have haccept := answers_accept b hv
    cases hb : b.accept v with
    | ok w =>
        rw [hb] at haccept
        have hentry : Entry.IsSound registry (.var ⟨b.declared, w⟩) := haccept
        exact ⟨haccept, h.functions, h.entries.replace hentry, h.returnValue⟩
    | error e => exact ⟨haccept.of_error hb, h⟩
  · exact ⟨trivial, h⟩

end Context.IsSound

end ScriptLanguage
