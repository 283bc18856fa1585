/-
Taking apart what succeeded.

Everything that reads a program or converts a value ends with a result or an error, and
is put together by `map` and `bind`.  A success of the whole is a success of each part,
and the lemmas here hand the parts back.

A reading carries a proof that it leaves fewer tokens than there were, which is in the way
when readings of different lists are compared.  `Gives` keeps of a reading only what it
read and what it left.
-/
import ScriptLanguage.Parsing.Reading

namespace ScriptLanguage

section

variable {ε α β : Type}

theorem map_eq_ok {f : α → β} {x : Except ε α} {b : β} :
    x.map f = .ok b ↔ ∃ a, x = .ok a ∧ f a = b := by
  cases x with
  | error e => simp [Except.map]
  | ok a => simp [Except.map]

theorem bind_eq_ok {f : α → Except ε β} {x : Except ε α} {b : β} :
    x >>= f = .ok b ↔ ∃ a, x = .ok a ∧ f a = .ok b := by
  cases x with
  | error e => simp [bind, Except.bind]
  | ok a => simp [bind, Except.bind]

end

variable {α β : Type} {ts us rest : List Token} {a : α} {b : β}

/-- The value was read, and these tokens were left. -/
def Gives (x : Except ParseError (Reading α ts)) (a : α) (rest : List Token) : Prop :=
  ∃ r, x = .ok r ∧ r.value = a ∧ r.rest = rest

theorem gives_error {e : ParseError} : ¬ Gives (.error e : Except ParseError (Reading α ts)) a rest := by
  rintro ⟨r, h, -, -⟩
  cases h

theorem gives_ok {r : Reading α ts} : Gives (.ok r) a rest ↔ r.value = a ∧ r.rest = rest := by
  constructor
  · rintro ⟨r', h, hvalue, hrest⟩
    cases h
    exact ⟨hvalue, hrest⟩
  · rintro ⟨hvalue, hrest⟩
    exact ⟨r, rfl, hvalue, hrest⟩

theorem Gives.length_lt {x : Except ParseError (Reading α ts)} (h : Gives x a rest) :
    rest.length < ts.length := by
  obtain ⟨r, -, -, rfl⟩ := h
  exact r.isShorter

/-- Nothing is read off no tokens. -/
theorem Gives.ne_nil {x : Except ParseError (Reading α ts)} (h : Gives x a rest) : ts ≠ [] := by
  rintro rfl
  exact absurd h.length_lt (Nat.not_lt_zero _)

theorem gives_bind {γ : Type} {x : Except ParseError γ} {f : γ → Except ParseError (Reading β ts)} :
    Gives (x >>= f) b rest ↔ ∃ c, x = .ok c ∧ Gives (f c) b rest := by
  cases x with
  | error e => exact ⟨fun h => absurd h gives_error, fun ⟨_, h, _⟩ => nomatch h⟩
  | ok c => exact ⟨fun h => ⟨c, rfl, h⟩, fun ⟨_, h, hc⟩ => by cases h; exact hc⟩

/-- A function of readings that leaves the same tokens acts on what was read only. -/
theorem gives_map_of_rest {x : Except ParseError (Reading α us)} {g : Reading α us → Reading β ts}
    (f : α → β) (hvalue : ∀ r, (g r).value = f r.value) (hrest : ∀ r, (g r).rest = r.rest) :
    Gives (x.map g) b rest ↔ ∃ a, Gives x a rest ∧ f a = b := by
  cases x with
  | error e => exact ⟨fun h => absurd h gives_error, fun ⟨_, h, _⟩ => absurd h gives_error⟩
  | ok r =>
      show Gives (.ok (g r)) b rest ↔ _
      rw [gives_ok, hvalue, hrest]
      constructor
      · rintro ⟨hb, hr⟩
        exact ⟨r.value, gives_ok.mpr ⟨rfl, hr⟩, hb⟩
      · rintro ⟨a, h, hb⟩
        obtain ⟨rfl, hr⟩ := gives_ok.mp h
        exact ⟨hb, hr⟩

theorem gives_map {x : Except ParseError (Reading α ts)} {f : α → β} :
    Gives (x.map (·.map f)) b rest ↔ ∃ a, Gives x a rest ∧ f a = b :=
  gives_map_of_rest f (fun _ => rfl) (fun _ => rfl)

theorem gives_widen {x : Except ParseError (Reading α us)} {h : us.length ≤ ts.length} :
    Gives (x.map fun r => (r.widen h : Reading α ts)) a rest ↔ Gives x a rest := by
  refine (gives_map_of_rest id ?_ ?_).trans ?_
  · intro r; rfl
  · intro r; rfl
  · simp

theorem gives_map_widen {x : Except ParseError (Reading α us)} {f : α → β} {h : us.length ≤ ts.length} :
    Gives (x.map fun r => ((r.map f).widen h : Reading β ts)) b rest ↔ ∃ a, Gives x a rest ∧ f a = b :=
  gives_map_of_rest f (fun _ => rfl) (fun _ => rfl)

end ScriptLanguage
