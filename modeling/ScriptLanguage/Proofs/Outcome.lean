/-
What can be said of how a computation ends.

A computation comes to a value or to an error, each with the context that is left, and an answer
that is already there is a value or an error alone.  `Outcome.Satisfies` and `Yields` say what holds
in either case, and each way of putting computations together has one lemma about them.  Where a kind
of contexts is kept, and with it a kind of values and of errors, a computation `Maintains` the three.
-/
import ScriptLanguage.Evaluation.Outcome

namespace ScriptLanguage

/-! ### How a computation ends -/

namespace Outcome

variable {α : Type} {Q Q' : α → Context → Prop} {E E' : RuntimeError → Context → Prop}
  {P : Context → Prop}

/-- What holds of a value and the context it comes with, or of an error and its context. -/
def Satisfies (value : α → Context → Prop) (error : RuntimeError → Context → Prop) : Outcome α → Prop
  | .value a c => value a c
  | .error e c => error e c
  | .outOfFuel => True

/-- The context that is left has the property, with a value as with an error. -/
abbrev Leaves (P : Context → Prop) : Outcome α → Prop := Satisfies (fun _ c => P c) (fun _ c => P c)

/-- The context that is left by a computation that ended. -/
def context? : Outcome α → Option Context
  | .value _ c => some c
  | .error _ c => some c
  | .outOfFuel => none

theorem Satisfies.mono {x : Outcome α} (h : x.Satisfies Q E) (hvalue : ∀ a c, Q a c → Q' a c)
    (herror : ∀ e c, E e c → E' e c) : x.Satisfies Q' E' := by
  cases x with
  | value a c => exact hvalue a c h
  | error e c => exact herror e c h
  | outOfFuel => trivial

theorem Satisfies.and {x : Outcome α} (h : x.Satisfies Q E) (h' : x.Satisfies Q' E') :
    x.Satisfies (fun a c => Q a c ∧ Q' a c) fun e c => E e c ∧ E' e c := by
  cases x with
  | value a c => exact ⟨h, h'⟩
  | error e c => exact ⟨h, h'⟩
  | outOfFuel => trivial

theorem Satisfies.of_context? {x : Outcome α} (h : x.Leaves P) {c : Context} (hc : x.context? = some c) :
    P c := by
  cases x with
  | value a d => cases hc; exact h
  | error e d => cases hc; exact h
  | outOfFuel => cases hc

theorem Satisfies.of_error {x : Outcome α} (h : x.Satisfies Q E) {e : RuntimeError} {c : Context}
    (hx : x = .error e c) : E e c := by
  subst hx
  exact h

end Outcome

/-- An answer with the one property, or an error with the other. -/
def Yields {α : Type} (P : α → Prop) (E : RuntimeError → Prop) : Except RuntimeError α → Prop
  | .ok a => P a
  | .error e => E e

namespace Yields

variable {α β : Type} {P P' : α → Prop} {Q : β → Prop} {E E' : RuntimeError → Prop}
  {x : Except RuntimeError α}

theorem mono (h : Yields P E x) (hP : ∀ a, P a → P' a) (hE : ∀ e, E e → E' e) : Yields P' E' x := by
  cases x with
  | ok a => exact hP a h
  | error e => exact hE e h

theorem map {f : α → β} (h : Yields P E x) (hf : ∀ a, P a → Q (f a)) : Yields Q E (x.map f) := by
  cases x with
  | ok a => exact hf a h
  | error e => exact h

theorem bind {f : α → Except RuntimeError β} (h : Yields P E x) (hf : ∀ a, P a → Yields Q E (f a)) :
    Yields Q E (x >>= f) := by
  cases x with
  | ok a => exact hf a h
  | error e => exact h

theorem and (h : Yields P E x) (h' : Yields P' E' x) :
    Yields (fun a => P a ∧ P' a) (fun e => E e ∧ E' e) x := by
  cases x with
  | ok a => exact ⟨h, h'⟩
  | error e => exact ⟨h, h'⟩

theorem of_error {e : RuntimeError} (h : Yields P E x) (he : x = .error e) : E e := by
  subst he
  exact h

theorem withError (h : Yields P E x) (herror : ∀ e, x = .error e → E' e) :
    Yields P (fun e => E e ∧ E' e) x := by
  cases x with
  | ok a => exact h
  | error e => exact ⟨h, herror e rfl⟩

end Yields

namespace Eval

variable {α β : Type} {Q : α → Context → Prop} {S : β → Context → Prop}
  {E : RuntimeError → Context → Prop} {c : Context}

theorem satisfies_bind {x : Eval α} {f : α → Eval β}
    (h : (x c).Satisfies (fun a d => (f a d).Satisfies S E) E) : ((x >>= f) c).Satisfies S E := by
  show (Eval.bind x f c).Satisfies S E
  unfold Eval.bind
  cases hx : x c with
  | value a d => rw [hx] at h; exact h
  | error e d => rw [hx] at h; exact h
  | outOfFuel => trivial

theorem satisfies_ofExcept {x : Except RuntimeError α} (hok : ∀ a, x = .ok a → Q a c)
    (herror : ∀ e, x = .error e → E e c) : (ofExcept x c).Satisfies Q E := by
  cases x with
  | ok a => exact hok a rfl
  | error e => exact herror e rfl

theorem satisfies_change {f : Context → Except RuntimeError α × Context}
    (hok : ∀ a d, f c = (.ok a, d) → Q a d) (herror : ∀ e d, f c = (.error e, d) → E e d) :
    (change f c).Satisfies Q E := by
  unfold change
  split
  · exact hok _ _ ‹_›
  · exact herror _ _ ‹_›

theorem satisfies_inScope {x : Eval α}
    (h : (x c.pushScope).Satisfies (fun a d => Q a d.popScope) (fun e d => E e d.popScope)) :
    (inScope x c).Satisfies Q E := by
  unfold inScope
  cases hx : x c.pushScope with
  | value a d => rw [hx] at h; exact h
  | error e d => rw [hx] at h; exact h
  | outOfFuel => trivial

/-- Only a `break` or `continue` that found no loop takes the value away. -/
theorem exists_of_settledValue_error {v : Value} {e : RuntimeError} (h : settledValue v c = .error e) :
    ∃ control, e = .strayControl control := by
  unfold settledValue at h
  split at h
  · cases h
    exact ⟨_, rfl⟩
  split at h
  · cases h
    exact ⟨_, rfl⟩
  split at h <;> cases h

theorem satisfies_settle {x : Eval Value} {Q : Value → Context → Prop}
    (h : (x c).Satisfies (fun v d => (ofExcept (settledValue v d) d.settled).Satisfies Q E)
      (fun e d => E e d.settled)) : (settle x c).Satisfies Q E := by
  unfold settle
  cases hx : x c with
  | value v d => rw [hx] at h; exact h
  | error e d => rw [hx] at h; exact h
  | outOfFuel => trivial

end Eval

/-! ### What computations keep -/

namespace Eval

variable {α β : Type} {I : Context → Prop} {E : RuntimeError → Prop} {P : α → Prop} {Q : β → Prop}

/-- Where the context is of the kind, it stays so, and what the computation comes to is a value
with the property or an error of the kind. -/
def Maintains (I : Context → Prop) (E : RuntimeError → Prop) (P : α → Prop) (x : Eval α) : Prop :=
  ∀ c, I c → (x c).Satisfies (fun a d => P a ∧ I d) fun e d => E e ∧ I d

theorem maintains_pure {a : α} (h : P a) : Maintains I E P (pure a : Eval α) := fun _ hc => ⟨h, hc⟩

theorem Maintains.bind {x : Eval α} {f : α → Eval β} (hx : x.Maintains I E P)
    (hf : ∀ a, P a → (f a).Maintains I E Q) : Maintains I E Q (x >>= f) :=
  fun c hc => satisfies_bind ((hx c hc).mono (fun a d had => hf a had.1 d had.2) fun _ _ he => he)

theorem maintains_fail {e : RuntimeError} (h : E e) : Maintains I E P (fail e : Eval α) := fun _ hc => ⟨h, hc⟩

theorem maintains_ofExcept {x : Except RuntimeError α} (h : Yields P E x) : Maintains I E P (ofExcept x) := by
  intro c hc
  cases x with
  | ok a => exact ⟨h, hc⟩
  | error e => exact ⟨h, hc⟩

theorem maintains_askFor {f : Context → Except RuntimeError α} (h : ∀ c, I c → Yields P E (f c)) :
    Maintains I E P (askFor f) :=
  fun c hc => maintains_ofExcept (h c hc) c hc

theorem maintains_modify {f : Context → Context} (h : ∀ c, I c → I (f c)) :
    Maintains I E (fun _ => True) (modify f) :=
  fun c hc => ⟨trivial, h c hc⟩

theorem maintains_modifyGet {f : Context → α × Context} (h : ∀ c, I c → P (f c).1 ∧ I (f c).2) :
    Maintains I E P (modifyGet f) :=
  h

theorem maintains_change {f : Context → Except RuntimeError α × Context}
    (h : ∀ c, I c → Yields P E (f c).1 ∧ I (f c).2) : Maintains I E P (change f) := by
  intro c hc
  obtain ⟨hyields, hleft⟩ := h c hc
  refine satisfies_change (fun a d hd => ?_) fun e d hd => ?_
  · rw [hd] at hyields hleft
    exact ⟨hyields, hleft⟩
  · rw [hd] at hyields hleft
    exact ⟨hyields, hleft⟩

theorem Maintains.inScope {x : Eval α} (hpush : ∀ c, I c → I c.pushScope) (hpop : ∀ c, I c → I c.popScope)
    (h : x.Maintains I E P) : (inScope x).Maintains I E P := by
  intro c hc
  refine satisfies_inScope ((h _ (hpush c hc)).mono ?_ ?_)
  · exact fun _ d hd => ⟨hd.1, hpop d hd.2⟩
  · exact fun _ d hd => ⟨hd.1, hpop d hd.2⟩

/-- What a call or program ends with is its last value, the one that was given back, or none if a flag
for loops is still raised. -/
theorem yields_settledValue {V : Value → Prop} {v : Value} {c : Context} (hv : V v) (hnull : V .null)
    (hreturn : ∀ w ∈ c.returnValue, V w) (hstray : ∀ control, E (.strayControl control)) :
    Yields V E (settledValue v c) := by
  unfold settledValue
  split
  · exact hstray .leave
  split
  · exact hstray .skip
  split
  · cases hreturned : c.returnValue with
    | none => exact hnull
    | some w => exact hreturn w hreturned
  · exact hv

theorem Maintains.settle {V : Value → Prop} {x : Eval Value} (hsettled : ∀ c, I c → I c.settled)
    (hvalue : ∀ v c, V v → I c → Yields V E (settledValue v c)) (h : x.Maintains I E V) :
    (settle x).Maintains I E V := by
  intro c hc
  refine satisfies_settle ((h c hc).mono (fun v d hd => ?_) fun _ d hd => ⟨hd.1, hsettled d hd.2⟩)
  exact maintains_ofExcept (hvalue v d hd.1 hd.2) d.settled (hsettled d hd.2)

end Eval

end ScriptLanguage
