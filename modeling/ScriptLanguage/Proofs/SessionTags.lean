/-
In a session all values are well tagged.

That trees with sound literals, sound contexts, sound values and honest errors belong together
is a contract of the evaluator.  The literals of a tree are the only values that do not come from
the context, and those of a tree that was read are well tagged.

A session starts with the libraries loaded, which is sound, and every source text that is
interpreted runs in the context that the one before left.
-/
import ScriptLanguage.Proofs.Contract
import ScriptLanguage.Proofs.LibraryCall

namespace ScriptLanguage

open Evaluation

variable {registry : Array Function}

/-! ### The functions behind operators and names -/

theorem answers_operatorFunction {c : Context} (hc : c.IsSound registry) (symbol : String)
    (operands : List Value) :
    Answers (· ∈ Library.all) (operatorFunction symbol operands c) := by
  unfold operatorFunction
  split
  · rename_i o hlookup
    have ho : o.IsSound := hc.entries.lookup hlookup
    split
    · rename_i f hf
      exact ho.functions f (List.mem_of_find?_eq_some hf)
    · exact fun f hf hname => absurd hname (ho.symbol f hf)
  · trivial

theorem mem_all_of_isKnown {c : Context} (hc : c.IsSound registry) {f : FunctionRef}
    (hf : f.IsKnown registry) : c.function f ∈ Library.all := by
  obtain ⟨g, hg, hget⟩ := hf
  rw [Context.function, hc.functions, hget]
  exact hg

theorem answers_callee {c : Context} (hc : c.IsSound registry) (name : String) :
    Answers (· ∈ Library.all) (callee name c) := by
  unfold callee
  split
  · rename_i f hlookup
    exact mem_all_of_isKnown hc (hc.entries.lookup hlookup)
  · rename_i f _ hlookup
    have hvalue := hc.entries.lookup hlookup
    exact mem_all_of_isKnown hc (hvalue.isKnown f rfl)
  all_goals trivial

/-! ### Trees -/

namespace Node

/-- The literals of the tree are sound. -/
def LiteralsSound (registry : Array Function) (n : Node) : Prop :=
  ∀ v, literal v ∈ n.subtrees → v.SoundIn registry

theorem LiteralsSound.of_subset {n m : Node} (h : n.LiteralsSound registry)
    (hsub : m.subtrees ⊆ n.subtrees) : m.LiteralsSound registry :=
  fun v hv => h v (hsub hv)

/-- **Evaluation keeps a context sound.**  Whatever tree with sound literals is evaluated in whatever
sound context, its value is sound, its error is honest, and the variables in all scopes
stay sound. -/
theorem isContract_sound : IsContract (LiteralsSound registry) (Context.IsSound registry)
    (Value.SoundIn registry) RuntimeError.IsHonest where
  parts hn hm := hn.of_subset (subtrees_subset_of_mem_parts hm)
  literal hn := hn _ (mem_subtrees_self _)
  null := Value.isSound_null
  cast d hv := answers_cast hv d
  find _ hc := hc.answers_find _
  datatype _ _ := Context.IsSound.answers_datatype ..
  declare _ hc := hc.answers_declare ..
  assign _ hv hc := hc.answers_assign hv _
  operation _ _ _ hoperands :=
    (Eval.maintains_askFor fun _ hc => answers_operatorFunction hc ..).bind fun _ hf =>
      Library.maintains_isSound_invoke hf hoperands
  call _ _ harguments :=
    (Eval.maintains_askFor fun _ hc => answers_callee hc _).bind fun _ hf =>
      Library.maintains_isSound_invoke hf harguments
  pushScope hc := hc.pushScope
  popScope hc := hc.popScope
  flags flags hc := hc.withFlags flags
  giveBack hv hc := ⟨hc.functions, hc.entries, fun w hw => by cases hw; exact hv⟩
  settled hc := hc.settled
  returnValue hc := hc.returnValue
  stray _ := trivial

/-! ### Literals of trees that were read -/

private theorem literalsSound_of_all {n : Node} {cs : List Node}
    (hn : ∀ v, literal v ∈ n.subtrees → literal v ∈ allSubtrees cs)
    (h : ∀ c ∈ cs, c.LiteralsSound registry) : n.LiteralsSound registry := by
  intro v hv
  obtain ⟨c, hc, hmem⟩ := mem_allSubtrees.mp (hn v hv)
  exact h c hc v hmem

theorem IsTerm.literalsSound {resolved : Bool} {e : Node} (h : IsTerm resolved e) :
    e.LiteralsSound registry := by
  induction h with
  | int h => intro v hv; cases List.mem_singleton.mp hv; exact Value.isSound_int _
  | float h => intro v hv; cases List.mem_singleton.mp hv; exact Value.isSound_float _
  | string s => intro v hv; cases List.mem_singleton.mp hv; exact Value.isSound_string _
  | bool b => intro v hv; cases List.mem_singleton.mp hv; exact Value.isSound_bool _
  | null => intro v hv; cases List.mem_singleton.mp hv; exact Value.isSound_null
  | identifier hname => intro v hv; cases List.mem_singleton.mp hv
  | call _ _ ih => exact literalsSound_of_all (by simp [subtrees]) ih
  | unary _ _ ih =>
      exact literalsSound_of_all (by simp [subtrees]) (List.forall_mem_singleton.mpr ih)
  | binary _ _ _ _ ihleft ihright =>
      exact literalsSound_of_all (by simp [subtrees])
        (List.forall_mem_cons.mpr ⟨ihleft, List.forall_mem_singleton.mpr ihright⟩)
  | cast _ _ _ ih => intro v hv; exact ih v (by simpa [subtrees] using hv)

theorem IsCode.literalsSound {resolved : Bool} {n : Node} (h : IsCode resolved n) :
    n.LiteralsSound registry := by
  induction h with
  | term h => exact h.literalsSound
  | sequence _ ih => exact literalsSound_of_all (by simp [subtrees]) ih
  | declaration => intro v hv; cases List.mem_singleton.mp hv
  | assignment _ h => intro v hv; exact h.literalsSound v (by simpa [subtrees] using hv)
  | @branch arms otherwise _ hconditions _ _ _ _ ihbodies ihbody =>
      intro v hv
      have harm : literal v ∈ armSubtrees arms → v.SoundIn registry := by
        intro hmem
        obtain ⟨arm, harm, hmem | hmem⟩ := mem_armSubtrees.mp hmem
        · exact (hconditions arm harm).literalsSound v hmem
        · exact ihbodies arm harm v hmem
      cases otherwise with
      | none => exact harm (by simpa [subtrees] using hv)
      | some body =>
          rcases (by simpa [subtrees] using hv : literal v ∈ armSubtrees arms ∨ literal v ∈ body.subtrees)
            with hmem | hmem
          · exact harm hmem
          · exact ihbody body rfl v hmem
  | loop hcondition _ _ ih =>
      intro v hv
      rcases List.mem_append.mp (by simpa [subtrees] using hv) with hmem | hmem
      · exact hcondition.literalsSound v hmem
      · exact ih v hmem
  | giveBack h => intro v hv; exact h.literalsSound v (by simpa [subtrees] using hv)
  | leave => intro v hv; cases List.mem_singleton.mp hv
  | skip => intro v hv; cases List.mem_singleton.mp hv

end Node

/-! ### Loading the libraries -/

theorem FunctionRef.IsKnown.push {f : FunctionRef} (h : f.IsKnown registry) (g : Function) :
    f.IsKnown (registry.push g) := by
  obtain ⟨k, hk, hget⟩ := h
  obtain ⟨hlt, hget⟩ := Array.getElem?_eq_some_iff.mp hget
  refine ⟨k, hk, ?_⟩
  rw [Array.getElem?_push_lt hlt, hget]

theorem Value.IsSound.mono {known other : FunctionRef → Prop} {v : Value} (h : v.IsSound known)
    (hmono : ∀ f, known f → other f) : v.IsSound other :=
  ⟨h.wellTagged, fun f hf => hmono f (h.isKnown f hf)⟩

theorem Entry.IsSound.push {e : Entry} (h : e.IsSound registry) (g : Function) :
    e.IsSound (registry.push g) := by
  cases e with
  | var b => exact Value.IsSound.mono h fun _ hf => hf.push g
  | datatype d => trivial
  | function f => exact FunctionRef.IsKnown.push h g
  | operator o => exact h

/-- What a library may export. -/
def Export.IsSound : Export → Prop
  | datatype _ => True
  | operator o => o.IsSound
  | function f => f ∈ Library.all

theorem Context.IsSound.loadExport {c : Context} {e : Export} (hc : c.IsSound c.functions)
    (he : e.IsSound) : (c.loadExport e).IsSound (c.loadExport e).functions := by
  cases e with
  | datatype d => exact ⟨rfl, hc.entries.defineGlobal trivial, hc.returnValue⟩
  | operator o => exact ⟨rfl, hc.entries.defineGlobal he, hc.returnValue⟩
  | function f =>
      have hknown : FunctionRef.IsKnown (c.functions.push f) ⟨c.functions.size, f.name⟩ :=
        ⟨f, he, Array.getElem?_push_size⟩
      have hentries : c.scopes.All (Entry.IsSound (c.functions.push f)) :=
        fun scope hscope entry hentry => (hc.entries scope hscope entry hentry).push f
      exact ⟨rfl, hentries.defineGlobal hknown,
        fun v hv => (hc.returnValue v hv).mono fun _ hf => hf.push f⟩

theorem Context.IsSound.load {library : List Export} (h : ∀ e ∈ library, e.IsSound) :
    ∀ {c : Context}, c.IsSound c.functions → (c.load library).IsSound (c.load library).functions := by
  induction library with
  | nil => intro c hc; exact hc
  | cons e library ih =>
      intro c hc
      obtain ⟨he, hlibrary⟩ := List.forall_mem_cons.mp h
      exact ih hlibrary (hc.loadExport he)

private theorem Library.isSound_operators : ∀ o ∈ operators, o.IsSound := by
  have hsymbol : ∀ o ∈ operators, ∀ f ∈ all, f.name ≠ o.symbol := by decide
  have hfunctions : ∀ o ∈ operators, ∀ f ∈ o.primary :: o.secondary.toList, f ∈ all := by
    simp [operators, Operator.new, Operator.addOverload, all, functions]
  exact fun o ho => ⟨hfunctions o ho, hsymbol o ho⟩

theorem Library.isSound_standard : ∀ e ∈ standard, e.IsSound := by
  refine List.forall_mem_append.mpr ⟨List.forall_mem_append.mpr ⟨?_, ?_⟩, ?_⟩
  · exact List.forall_mem_map.mpr fun _ _ => trivial
  · exact List.forall_mem_map.mpr isSound_operators
  · exact List.forall_mem_map.mpr fun f hf => List.mem_append_left _ hf

theorem Library.isSound_console : ∀ e ∈ console, e.IsSound :=
  List.forall_mem_singleton.mpr (List.mem_append_right functions (List.mem_singleton_self print))

/-! ### Sessions -/

/-- The variables in all scopes and the value that is being given back are well tagged. -/
structure Context.WellTagged (c : Context) : Prop where
  bindings : ∀ scope ∈ c.scopes.toList, ∀ name b,
    (name, Entry.var b) ∈ scope.entries → b.value.WellTagged
  returnValue : ∀ v, c.returnValue = some v → v.WellTagged

theorem Context.IsSound.toWellTagged {c : Context} (h : c.IsSound registry) : c.WellTagged where
  bindings scope hscope name b hb := (h.entries scope hscope (name, .var b) hb).wellTagged
  returnValue v hv := (h.returnValue v hv).wellTagged

namespace Session

theorem isSound_new : new.context.IsSound new.context.functions := by
  have hempty : Context.empty.IsSound Context.empty.functions := ⟨rfl, Scopes.all_empty, nofun⟩
  exact (hempty.load Library.isSound_standard).load Library.isSound_console

/-- One source text after another has been interpreted, starting in a new session. -/
inductive Reachable : Session → Prop
  | new : Reachable Session.new
  | interpret {s s' : Session} {fuel : Nat} {source : String} {result : Except ScriptError Value}
      (hs : Reachable s) (h : s.interpret? fuel source = some (result, s')) : Reachable s'

/-- What a source text comes to in a sound session, and the session it leaves. -/
theorem isSound_interpret? {s s' : Session} {fuel : Nat} {source : String}
    {result : Except ScriptError Value} (hs : s.context.IsSound registry)
    (h : s.interpret? fuel source = some (result, s')) :
    s'.context.IsSound registry ∧ (∀ v, result = .ok v → v.SoundIn registry) ∧
      ∀ e, result = .error (.runtime e) → e.IsHonest := by
  unfold interpret? at h
  split at h
  · cases h
    exact ⟨hs, nofun, nofun⟩
  · rename_i root hparse
    have hliterals : root.LiteralsSound registry := (Node.isCode_of_parse hparse).1.literalsSound
    have hkeeps := Node.isContract_sound.run fuel hliterals s.context hs
    split at h
    · rename_i v c hrun
      rw [hrun] at hkeeps
      cases h
      refine ⟨hkeeps.2, fun w hw => ?_, nofun⟩
      cases hw
      exact hkeeps.1
    · rename_i e c hrun
      rw [hrun] at hkeeps
      cases h
      refine ⟨hkeeps.2, nofun, fun e' he' => ?_⟩
      cases he'
      exact hkeeps.1
    · cases h

theorem Reachable.isSound {s : Session} (h : s.Reachable) :
    s.context.IsSound Session.new.context.functions := by
  induction h with
  | new => exact isSound_new
  | interpret _ h ih => exact (isSound_interpret? ih h).1

/-- Whatever sources a session has interpreted, with or without success, its variables are
well tagged, and so is the value of the next source.  Native work that has no rule for its
operands reports them under the name of its function, with datatypes which that function
admits.  No source ends with such a report, and no resolved call of a library function on
well tagged arguments makes one. -/
theorem wellTagged_of_reachable {s : Session} (h : s.Reachable) :
    s.context.WellTagged ∧
      (∀ fuel source result s', s.interpret? fuel source = some (result, s') →
        (∀ v, result = .ok v → v.WellTagged) ∧ ∀ e, result = .error (.runtime e) → e.IsHonest) ∧
      ∀ f ∈ Library.all, ∀ arguments : List Value, (∀ v ∈ arguments, v.WellTagged) →
        (f.resolve? arguments).isSome = true → ∀ fuel c c' name datatypes,
          f.call fuel arguments c ≠ .error (.unresolvedOverload name datatypes) c' := by
  refine ⟨h.isSound.toWellTagged, ?_, ?_⟩
  · intro fuel source result s' hinterpret
    obtain ⟨-, hvalue, hhonest⟩ := isSound_interpret? h.isSound hinterpret
    exact ⟨fun v hv => (hvalue v hv).wellTagged, hhonest⟩
  · intro f hf arguments htagged hresolve fuel c c' name datatypes
    obtain ⟨signature, hsignature⟩ := Option.isSome_iff_exists.mp hresolve
    -- Which functions the arguments refer to does not matter to a single call.
    have hsound : ∀ v ∈ arguments, v.IsSound fun _ => True :=
      fun v hv => ⟨htagged v hv, fun _ _ => trivial⟩
    exact Library.invoke_ne_unresolvedOverload hf hsound hsignature c c' name datatypes

/-- After a source that sets a variable and one that fails, the session is as good as new. -/
theorem wellTagged_of_failed_addition :
    ∃ s s' : Session, s.Reachable ∧
      s.interpret? 9 "x + true;"
        = some (.error (.runtime (.unresolvedOverload "#add" [.int, .bool])), s') ∧
      s'.context.WellTagged ∧ Library.add.resolve? [Value.int 7, Value.bool true] = none ∧
      ∀ c c', Library.add.call 9 [Value.int 7, Value.float .zero] c
        ≠ .error (.unresolvedOverload "#add" [.int, .float]) c' := by
  have hfirst : Node.parse "x = 7;"
      = .ok (.sequence [.assignment "x" (.literal (Value.int 7))]) := by cbv
  have hsecond : Node.parse "x + true;" = .ok (.sequence
      [.operation "+" [.identifier "x", .literal (Value.bool true)] (.binary 4 true)]) := by cbv
  have hruns : ∃ s s', new.interpret? 9 "x = 7;" = some (.ok (Value.int 7), s) ∧
      s.interpret? 9 "x + true;"
        = some (.error (.runtime (.unresolvedOverload "#add" [.int, .bool])), s') := by
    unfold interpret?
    rw [hfirst, hsecond]
    exact ⟨_, _, rfl, rfl⟩
  obtain ⟨s, s', hset, hfail⟩ := hruns
  have hs : s.Reachable := .interpret .new hset
  obtain ⟨-, hinterpret, hcall⟩ := wellTagged_of_reachable hs
  refine ⟨s, s', hs, hfail, (wellTagged_of_reachable (.interpret hs hfail)).1, ?_, ?_⟩
  · exact (hinterpret 9 _ _ _ hfail).2 _ rfl Library.add (by simp [Library.all, Library.functions])
      rfl _ rfl
  · intro c c'
    exact hcall Library.add (by simp [Library.all, Library.functions])
      [Value.int 7, Value.float .zero]
      (List.forall_mem_cons.mpr ⟨.int, List.forall_mem_singleton.mpr .float⟩) rfl 9 c c' _ _

end Session

end ScriptLanguage
