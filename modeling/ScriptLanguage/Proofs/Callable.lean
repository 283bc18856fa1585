/-
Which trees can come to run in a context.

A call runs the body of a function, and a body is native work or a tree.  Beside the tree
that is evaluated, only the bodies of functions that can be called matter, and evaluation
makes no new functions: it passes on the ones that names stand for.  So a property that all
bodies have in one context they have in every context that follows.  To see this, values
have to be followed, because a variable that holds a function can be called: native work
gives data or one of its operands, and a conversion keeps what a value holds or makes data
of it.

The trees that are read off source texts are followed likewise: all parts of such a tree
are expressions and statements of the known shapes.
-/
import ScriptLanguage.Proofs.Conversion
import ScriptLanguage.Proofs.Display
import ScriptLanguage.Proofs.Outline

namespace ScriptLanguage

open Evaluation

/-! ### Trees that are read -/

namespace Node

/-- The node is a tree that is read off a source text, or a part of one. -/
def IsRead (n : Node) : Prop := ∃ source root, parse source = .ok root ∧ n ∈ root.subtrees

theorem IsTerm.of_mem_subtrees {resolved : Bool} {e m : Node} (h : IsTerm resolved e)
    (hm : m ∈ e.subtrees) : IsTerm resolved m := by
  induction h with
  | int h => cases List.mem_singleton.mp hm; exact .int h
  | float h => cases List.mem_singleton.mp hm; exact .float h
  | string s => cases List.mem_singleton.mp hm; exact .string s
  | bool b => cases List.mem_singleton.mp hm; exact .bool b
  | null => cases List.mem_singleton.mp hm; exact .null
  | identifier hname => cases List.mem_singleton.mp hm; exact .identifier hname
  | call hname h ih =>
      rcases List.mem_cons.mp hm with rfl | hm
      · exact .call hname h
      · obtain ⟨a, ha, hm⟩ := mem_allSubtrees.mp hm
        exact ih a ha hm
  | unary hsymbol h ih =>
      rcases List.mem_cons.mp hm with rfl | hm
      · exact .unary hsymbol h
      · exact ih (by simpa [allSubtrees] using hm)
  | binary hsymbol hcast hleft hright ihleft ihright =>
      rcases List.mem_cons.mp hm with rfl | hm
      · exact .binary hsymbol hcast hleft hright
      · rcases List.mem_append.mp (by simpa [allSubtrees] using hm) with hm | hm
        · exact ihleft hm
        · exact ihright hm
  | cast hresolved hdatatype h ih =>
      rcases List.mem_cons.mp hm with rfl | hm
      · exact .cast hresolved hdatatype h
      · exact ih hm

theorem IsCode.of_mem_subtrees {resolved : Bool} {n m : Node} (h : IsCode resolved n)
    (hm : m ∈ n.subtrees) : IsCode resolved m := by
  induction h with
  | term h => exact .term (h.of_mem_subtrees hm)
  | sequence h ih =>
      rcases List.mem_cons.mp hm with rfl | hm
      · exact .sequence h
      · obtain ⟨c, hc, hm⟩ := mem_allSubtrees.mp hm
        exact ih c hc hm
  | declaration hname hdatatype => cases List.mem_singleton.mp hm; exact .declaration hname hdatatype
  | assignment hname h =>
      rcases List.mem_cons.mp hm with rfl | hm
      · exact .assignment hname h
      · exact .term (h.of_mem_subtrees hm)
  | @branch arms otherwise hne hconditions hblocks hbodies hblock hbody ihbodies ihbody =>
      have harm : m ∈ armSubtrees arms → IsCode resolved m := by
        intro hm
        obtain ⟨arm, harm, hm | hm⟩ := mem_armSubtrees.mp hm
        · exact .term ((hconditions arm harm).of_mem_subtrees hm)
        · exact ihbodies arm harm hm
      cases otherwise with
      | none =>
          rcases List.mem_cons.mp hm with rfl | hm
          · exact .branch hne hconditions hblocks hbodies hblock hbody
          · exact harm hm
      | some body =>
          rcases List.mem_append.mp hm with hm | hm
          · rcases List.mem_cons.mp hm with rfl | hm
            · exact .branch hne hconditions hblocks hbodies hblock hbody
            · exact harm hm
          · exact ihbody body rfl hm
  | loop hcondition hblock hbody ih =>
      rcases List.mem_append.mp hm with hm | hm
      · rcases List.mem_cons.mp hm with rfl | hm
        · exact .loop hcondition hblock hbody
        · exact .term (hcondition.of_mem_subtrees hm)
      · exact ih hm
  | giveBack h =>
      rcases List.mem_cons.mp hm with rfl | hm
      · exact .giveBack h
      · exact .term (h.of_mem_subtrees hm)
  | leave => cases List.mem_singleton.mp hm; exact .leave
  | skip => cases List.mem_singleton.mp hm; exact .skip

theorem IsRead.isCode {n : Node} (h : n.IsRead) : IsCode true n := by
  obtain ⟨source, root, hparse, hn⟩ := h
  exact (isCode_of_parse hparse).1.of_mem_subtrees hn

end Node

/-! ### Errors that are not about loops

A `break` or `continue` that finds no loop is reported where a call or program ends, and
nowhere else.
-/

/-- The error is a `break` or `continue` that no loop took notice of. -/
def RuntimeError.IsStray : RuntimeError → Prop
  | strayControl _ => True
  | _ => False

/-- An answer with the property, or an error that is not about loops. -/
abbrev Steady {α : Type} (P : α → Prop) : Except RuntimeError α → Prop := Yields P fun e => ¬ e.IsStray

/-! ### Values that hold functions -/

/-- A function that the value holds is one of those. -/
def Value.RefersTo (known : FunctionRef → Prop) (v : Value) : Prop := ∀ f, v.payload = .func f → known f

theorem Value.IsData.refersTo {known : FunctionRef → Prop} {v : Value} (h : v.IsData) : v.RefersTo known := by
  intro f hf
  rw [IsData, hf] at h
  exact h.elim

theorem Value.refersTo_null {known : FunctionRef → Prop} : null.RefersTo known :=
  IsData.refersTo trivial

theorem steady_cast {known : FunctionRef → Prop} {v : Value} (hv : v.RefersTo known) (d : Datatype) :
    Steady (Value.RefersTo known) (v.cast d) := by
  cases h : v.cast d with
  | ok w =>
      rcases Value.isData_or_of_cast h with hdata | hsame
      · exact hdata.refersTo
      · exact fun f hf => hv f (hsame ▸ hf)
  | error e =>
      rw [Value.eq_of_cast_error h]
      exact id

theorem steady_accept {known : FunctionRef → Prop} (b : Binding) {v : Value} (hv : v.RefersTo known) :
    Steady (Value.RefersTo known) (b.accept v) := by
  unfold Binding.accept
  split
  · exact steady_cast hv _
  · exact hv

theorem steady_truthy (v : Value) : Steady (fun _ => True) v.truthy := by
  have hcast := steady_cast (fun _ _ => trivial : v.RefersTo fun _ => True) .bool
  exact hcast.map fun _ _ => trivial

/-! ### Native work

What native work makes of its operands is data.  If it has no rule for them, the error is about
them: it names the work, and nothing that was looked up.
-/

/-- The error is about operands: the work has no rule for them, or the rule fails. -/
def RuntimeError.IsAboutOperands : RuntimeError → Prop
  | unresolvedOverload name _ => ∃ work : Native, work.name = name
  | incomparableTypes _ _ => True
  | divisionByZero => True
  | overflow _ => True
  | cast _ _ => True
  | _ => False

theorem RuntimeError.IsAboutOperands.not_isStray {e : RuntimeError} (h : e.IsAboutOperands) :
    ¬ e.IsStray := by
  cases e with
  | strayControl control => exact h.elim
  | _ => exact id

/-- Data, or an error about operands. -/
abbrev GivesData : Except RuntimeError Value → Prop := Yields Value.IsData RuntimeError.IsAboutOperands

theorem yields_cast (v : Value) (d : Datatype) :
    Yields (fun _ => True) RuntimeError.IsAboutOperands (v.cast d) := by
  cases h : v.cast d with
  | ok w => trivial
  | error e =>
      rw [Value.eq_of_cast_error h]
      trivial

theorem yields_accept (b : Binding) (v : Value) :
    Yields (fun _ => True) RuntimeError.IsAboutOperands (b.accept v) := by
  unfold Binding.accept
  split
  · exact yields_cast v _
  · trivial

namespace Arithmetic

theorem givesData_integerResult (work : Native) (result : Option Integer) :
    GivesData (integerResult work result) := by
  cases result with
  | none => trivial
  | some i => trivial

theorem givesData_numeric (work : Native) (onInts : Integer → Integer → Option Integer)
    (onFloats : Binary64 → Binary64 → Binary64) (a b : Value) :
    GivesData (numeric work onInts onFloats a b) := by
  unfold numeric
  split
  · exact givesData_integerResult work _
  · trivial
  · exact ⟨work, rfl⟩

/-- An operand is converted first. -/
theorem givesData_operand (b : Value) (d : Datatype) {f : Value → Except RuntimeError Value}
    (h : ∀ w, GivesData (f w)) : GivesData (b.cast d >>= f) :=
  (yields_cast b d).bind fun w _ => h w

theorem givesData_add (a b : Value) : GivesData (add a b) := by
  refine givesData_operand b a.datatype fun w => ?_
  split
  · trivial
  · exact givesData_numeric ..

theorem givesData_divide (a b : Value) : GivesData (divide a b) := by
  refine givesData_operand b a.datatype fun w => ?_
  show GivesData (if isZero w then .error .divisionByZero else _)
  split
  · trivial
  · exact givesData_numeric ..

theorem givesData_modulo (a b : Value) : GivesData (modulo a b) := by
  unfold modulo
  split
  · trivial
  · split
    · exact givesData_integerResult ..
    · exact ⟨.modulo, rfl⟩

private theorem givesData_integerPower (base exponent : Integer) :
    GivesData (integerPower base exponent) := by
  unfold integerPower
  split
  · exact givesData_integerResult ..
  · split
    · trivial
    · exact givesData_integerResult ..

theorem givesData_power (a b : Value) : GivesData (power a b) := by
  cases hmixed : a.datatype != b.datatype with
  | false =>
      simp only [power, hmixed, Bool.false_eq_true, if_false]
      dsimp only [bind, Except.bind]
      split
      · exact givesData_integerPower ..
      · trivial
      · exact ⟨.power, rfl⟩
  | true =>
      simp only [power, hmixed, if_true]
      refine givesData_operand a .float fun a' => givesData_operand b .float fun b' => ?_
      split
      · exact givesData_integerPower ..
      · trivial
      · exact ⟨.power, rfl⟩

theorem givesData_minus (a : Value) : GivesData (minus a) := by
  unfold minus
  split
  · exact givesData_integerResult ..
  · trivial
  · exact ⟨.minus, rfl⟩

end Arithmetic

namespace Comparison

theorem yields_checkComparable (a b : Value) :
    Yields (fun _ => True) RuntimeError.IsAboutOperands (checkComparable a b) := by
  unfold checkComparable
  split
  · trivial
  · trivial

theorem givesData_ordered (work : Native) (test : Ordering → Bool) (a b : Value) :
    GivesData (ordered work test a b) := by
  refine (yields_checkComparable a b).bind fun _ _ => ?_
  split
  · trivial
  · exact ⟨work, rfl⟩

end Comparison

namespace Logic

theorem givesData_binary (work : Native) (operation : Bool → Bool → Bool) (a b : Value) :
    GivesData (binary work operation a b) := by
  unfold binary
  split
  · trivial
  · exact ⟨work, rfl⟩

theorem givesData_negate (a : Value) : GivesData (negate a) := by
  unfold negate
  split
  · trivial
  · exact ⟨.negate, rfl⟩

end Logic

theorem Context.steady_find (c : Context) (name : String) :
    Steady (fun v => c.find name = .ok v) (c.find name) := by
  cases h : c.find name with
  | ok v => rfl
  | error e =>
      unfold Context.find at h
      split at h <;> cases h <;> exact id

theorem Context.steady_datatype (c : Context) (name : String) : Steady (fun _ => True) (c.datatype name) := by
  unfold Context.datatype
  split
  · trivial
  · exact id

namespace Native

/-- The value is data, or one that a name stands for. -/
def Passes (c : Context) (v : Value) : Prop := v.IsData ∨ ∃ name, c.find name = .ok v

/-- The error is about the operands, or about a name that has no value. -/
def Reports (c : Context) (e : RuntimeError) : Prop := e.IsAboutOperands ∨ ∃ name, c.find name = .error e

theorem Reports.not_isStray {c : Context} {e : RuntimeError} (h : Reports c e) : ¬ e.IsStray := by
  rcases h with habout | ⟨name, hfind⟩
  · exact habout.not_isStray
  · exact (c.steady_find name).of_error hfind

theorem passes_find {c : Context} {name : String} {f : Value → Eval Value}
    (h : ∀ v, c.find name = .ok v → (f v c).Satisfies (fun w _ => Passes c w) fun e _ => Reports c e) :
    ((Eval.askFor (·.find name) >>= f) c).Satisfies (fun w _ => Passes c w) fun e _ => Reports c e :=
  Eval.satisfies_bind (Eval.satisfies_ofExcept h fun _ he => .inr ⟨name, he⟩)

private theorem passes_result {c : Context} {x : Except RuntimeError Value} (h : GivesData x) :
    (Eval.ofExcept x c).Satisfies (fun w _ => Passes c w) fun e _ => Reports c e := by
  cases x with
  | ok v => exact .inl h
  | error e => exact .inl h

private theorem passes_unary {f : Value → Except RuntimeError Value} (h : ∀ a, GivesData (f a))
    (c : Context) : (unary f c).Satisfies (fun w _ => Passes c w) fun e _ => Reports c e :=
  passes_find fun a _ => passes_result (h a)

private theorem passes_binary {f : Value → Value → Except RuntimeError Value}
    (h : ∀ a b, GivesData (f a b)) (c : Context) :
    (binary f c).Satisfies (fun w _ => Passes c w) fun e _ => Reports c e :=
  passes_find fun a _ => passes_find fun b _ => passes_result (h a b)

/-- Native work makes no functions, and blames nothing but its operands. -/
theorem passes_run (work : Native) (c : Context) :
    (work.run c).Satisfies (fun v _ => Passes c v) fun e _ => Reports c e := by
  have hequal : ∀ test : Bool → Bool, ∀ a b : Value, GivesData
      ((Comparison.checkComparable a b).map fun _ => Value.bool (test (a.equals b))) :=
    fun test a b => (Comparison.yields_checkComparable a b).map fun _ _ => trivial
  cases work with
  | add => exact passes_binary Arithmetic.givesData_add c
  | plus => exact passes_find fun a ha => .inr ⟨"a", ha⟩
  | subtract =>
      exact passes_binary (fun a b => Arithmetic.givesData_operand b a.datatype
        fun w => Arithmetic.givesData_numeric .subtract _ _ a w) c
  | minus => exact passes_unary Arithmetic.givesData_minus c
  | multiply =>
      exact passes_binary (fun a b => Arithmetic.givesData_operand b a.datatype
        fun w => Arithmetic.givesData_numeric .multiply _ _ a w) c
  | divide => exact passes_binary Arithmetic.givesData_divide c
  | equal => exact passes_binary (hequal id) c
  | both => exact passes_binary (Logic.givesData_binary _ _) c
  | either => exact passes_binary (Logic.givesData_binary _ _) c
  | differ => exact passes_binary (Logic.givesData_binary _ _) c
  | unequal => exact passes_binary (hequal not) c
  | less => exact passes_binary (Comparison.givesData_ordered _ _) c
  | greater => exact passes_binary (Comparison.givesData_ordered _ _) c
  | lessOrEqual => exact passes_binary (Comparison.givesData_ordered _ _) c
  | greaterOrEqual => exact passes_binary (Comparison.givesData_ordered _ _) c
  | negate => exact passes_unary Logic.givesData_negate c
  | modulo => exact passes_binary Arithmetic.givesData_modulo c
  | power => exact passes_binary Arithmetic.givesData_power c
  | print => exact passes_find fun a _ => .inl trivial
  | gather => exact .inl trivial

end Native

/-! ### Contexts that run only such bodies -/

/-- The trees among the bodies of the function have the property. -/
def Function.Runs (bodies : Node → Prop) (f : Function) : Prop :=
  ∀ s ∈ f.signatures, ∀ root, s.body = .tree root → bodies root

/-- If the reference is to a registered function, its bodies have the property. -/
def FunctionRef.Runs (registry : Array Function) (bodies : Node → Prop) (f : FunctionRef) : Prop :=
  ∀ g, registry[f.id]? = some g → g.Runs bodies

abbrev Value.Runs (registry : Array Function) (bodies : Node → Prop) : Value → Prop :=
  Value.RefersTo (FunctionRef.Runs registry bodies)

def Entry.Runs (registry : Array Function) (bodies : Node → Prop) : Entry → Prop
  | var b => b.value.Runs registry bodies
  | datatype _ => True
  | function f => f.Runs registry bodies
  | operator o => ∀ f ∈ o.primary :: o.secondary.toList, f.Runs bodies

/-- The functions are the registered ones, and only bodies with the property can be run. -/
structure Context.Runs (registry : Array Function) (bodies : Node → Prop) (c : Context) : Prop where
  functions : c.functions = registry
  entries : c.scopes.All (Entry.Runs registry bodies)

/-- The contexts agree on the flags and on the value that is given back. -/
def Context.SameControl (c d : Context) : Prop := d.flags = c.flags ∧ d.returnValue = c.returnValue

section

variable {registry : Array Function} {bodies : Node → Prop} {c : Context} {name : String} {v : Value}

namespace Context

/-- All that has to be looked at are the functions that can be called. -/
theorem runs_of_callable (h : ∀ f, c.Callable f → f.Runs bodies) : c.Runs c.functions bodies := by
  have href : ∀ f : FunctionRef, c.Callable (c.function f) → f.Runs c.functions bodies := by
    intro f hcallable g hg
    have hfunction : c.function f = g := by rw [Context.function, hg]; rfl
    exact hfunction ▸ h _ hcallable
  refine ⟨rfl, fun scope hscope entry hentry => ?_⟩
  obtain ⟨name, entry⟩ := entry
  cases entry with
  | var b => exact fun f hf => href f (.held hscope hentry hf)
  | datatype d => trivial
  | function f => exact href f (.named hscope hentry)
  | operator o => exact fun f hf => h f (.behind hscope hentry hf)

namespace Runs

theorem pushScope (h : c.Runs registry bodies) : c.pushScope.Runs registry bodies :=
  ⟨h.functions, h.entries.push⟩

theorem popScope (h : c.Runs registry bodies) : c.popScope.Runs registry bodies :=
  ⟨h.functions, h.entries.pop⟩

/-- Flags, the value that is given back and the output do not matter. -/
theorem of_scopes {d : Context} (h : c.Runs registry bodies) (hfunctions : d.functions = c.functions)
    (hscopes : d.scopes = c.scopes) : d.Runs registry bodies :=
  ⟨hfunctions.trans h.functions, hscopes ▸ h.entries⟩

theorem defineLocal (h : c.Runs registry bodies) (hv : v.Runs registry bodies) :
    (c.defineLocal name v).Runs registry bodies :=
  ⟨h.functions, h.entries.define hv⟩

theorem bindParameters (h : c.Runs registry bodies) {arguments : List Value}
    (harguments : ∀ v ∈ arguments, v.Runs registry bodies) (parameters : List Parameter) :
    (Evaluation.bindParameters c parameters arguments).Runs registry bodies := by
  have hpairs : ∀ pair ∈ parameters.zip arguments, pair.2.Runs registry bodies :=
    fun pair hpair => harguments _ (List.of_mem_zip hpair).2
  unfold Evaluation.bindParameters
  generalize parameters.zip arguments = pairs at hpairs
  induction pairs generalizing c with
  | nil => exact h
  | cons pair pairs ih =>
      obtain ⟨hpair, hpairs⟩ := List.forall_mem_cons.mp hpairs
      exact ih (h.defineLocal hpair) hpairs

theorem steady_find (h : c.Runs registry bodies) (name : String) :
    Steady (Value.Runs registry bodies) (c.find name) := by
  unfold Context.find
  split
  · rename_i b hlookup
    have hvalue : b.value.Runs registry bodies := h.entries.lookup hlookup
    exact hvalue
  · rename_i f hlookup
    have hf : f.Runs registry bodies := h.entries.lookup hlookup
    intro g hg
    cases hg
    exact hf
  all_goals exact id

private theorem runs_function (h : c.Runs registry bodies) {f : FunctionRef} (hf : f.Runs registry bodies) :
    (c.function f).Runs bodies := by
  rw [Context.function, h.functions]
  cases hget : registry[f.id]? with
  | none =>
      intro s hs
      cases hs
  | some g => exact hf g hget

theorem steady_callee (h : c.Runs registry bodies) (name : String) :
    Steady (Function.Runs bodies) (callee name c) := by
  unfold callee
  split
  · rename_i f hlookup
    exact h.runs_function (h.entries.lookup hlookup)
  · rename_i f _ hlookup
    have hvalue := h.entries.lookup hlookup
    exact h.runs_function (hvalue f rfl)
  all_goals exact id

theorem steady_operatorFunction (h : c.Runs registry bodies) (symbol : String) (operands : List Value) :
    Steady (Function.Runs bodies) (operatorFunction symbol operands c) := by
  unfold operatorFunction
  split
  · rename_i o hlookup
    have ho := h.entries.lookup hlookup
    split
    · rename_i f hf
      exact ho f (List.mem_of_find?_eq_some hf)
    · exact id
  · exact id

theorem steady_declare (h : c.Runs registry bodies) (name datatype : String) :
    Steady (Value.Runs registry bodies) (c.declare name datatype).1 ∧
      c.SameControl (c.declare name datatype).2 ∧ (c.declare name datatype).2.Runs registry bodies := by
  have hsteady := c.steady_datatype datatype
  unfold Context.declare
  cases hdatatype : c.datatype datatype with
  | ok t => exact ⟨Value.refersTo_null, ⟨rfl, rfl⟩, h.functions, h.entries.define Value.refersTo_null⟩
  | error e => exact ⟨hsteady.of_error hdatatype, ⟨rfl, rfl⟩, h⟩

theorem steady_assign (h : c.Runs registry bodies) (hv : v.Runs registry bodies) (name : String) :
    Steady (Value.Runs registry bodies) (c.assign name v).1 ∧
      c.SameControl (c.assign name v).2 ∧ (c.assign name v).2.Runs registry bodies := by
  unfold Context.assign
  split
  · exact ⟨hv, ⟨rfl, rfl⟩, h.defineLocal hv⟩
  · rename_i b _
    have hsteady := steady_accept b hv
    cases hb : b.accept v with
    | ok w =>
        rw [hb] at hsteady
        exact ⟨hsteady, ⟨rfl, rfl⟩, h.functions, h.entries.replace hsteady⟩
    | error e => exact ⟨hsteady.of_error hb, ⟨rfl, rfl⟩, h⟩
  · exact ⟨id, ⟨rfl, rfl⟩, h⟩

end Runs

end Context

end

end ScriptLanguage
