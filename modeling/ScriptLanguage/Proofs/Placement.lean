/-
Where operators stand.

Operators take their operands by counting.  When one takes the two last operands, nothing asks
whether it was read between them.  So `1 2 +` is a sum, `1 !` a negation, and the arguments of
`f(1 2)` need no comma.  What is taken is written as one expects, each operator between or
before its operands, exactly if the tokens are in place: whether a token is depends only on
what the token before it leaves open, and a fold over the tokens decides it.

For the way from the places to the expression, the invariant is what the tokens read so far
spell.  Either an operand is awaited, and the stacks hold the beginning of an expression, or the
tokens end with an operand that no operator has taken yet, on top of such a beginning.
-/
import ScriptLanguage.Proofs.StackSteps

namespace ScriptLanguage

/-! ### Ways to spell an expression -/

/-- The parts stand in the list, a comma behind each of them.  More commas and blanks can stand
anywhere between two parts. -/
inductive Listed : List (List Token) → List Token → Prop
  | nil : Listed [] []
  | skip {parts : List (List Token)} {ts : List Token} {t : Token} (h : Listed parts ts)
      (hk : t.kind = .separator ∨ t.kind = .whitespace) : Listed parts (ts ++ [t])
  | part {parts : List (List Token)} {ts us : List Token} {comma : Token} (h : Listed parts ts)
      (hcomma : comma.kind = .separator) : Listed (parts ++ [us]) (ts ++ us ++ [comma])

/-- The same, and the comma behind the last part can be absent. -/
inductive Enumerated : List (List Token) → List Token → Prop
  | closed {parts : List (List Token)} {ts : List Token} (h : Listed parts ts) : Enumerated parts ts
  | last {parts : List (List Token)} {ts : List Token} (us : List Token) (h : Listed parts ts) :
      Enumerated (parts ++ [us]) (ts ++ us)

theorem Enumerated.comma {parts : List (List Token)} {ts : List Token} {t : Token}
    (h : Enumerated parts ts) (hk : t.kind = .separator) : Listed parts (ts ++ [t]) := by
  cases h with
  | closed h => exact h.skip (.inl hk)
  | last us h => exact h.part hk

/--
The tokens spell the expression where an operand has to bind at least as tightly as `bound`.

Blanks can stand everywhere but between the name of a call and its parenthesis.  In parentheses
commas can be too many, but never too few.
-/
inductive Spells : (bound : Nat) → Node → List Token → Prop
  | number {bound : Nat} {t : Token} {v : Value} (hk : t.kind = .number) (hv : numberLiteral t.text = .ok v) :
      Spells bound (.literal v) [t]
  | string {bound : Nat} {t : Token} (hk : t.kind = .string) :
      Spells bound (.literal (Value.string (Token.unquote t.text))) [t]
  | word {bound : Nat} {t : Token} {v : Value} (hk : t.kind = .identifier) (hv : wordLiteral? t.text = some v) :
      Spells bound (.literal v) [t]
  | identifier {bound : Nat} {t : Token} (hk : t.kind = .identifier) (hword : wordLiteral? t.text = none) :
      Spells bound (.identifier t.text) [t]
  | before {bound : Nat} {e : Node} {ts : List Token} {t : Token} (hk : t.kind = .whitespace)
      (h : Spells bound e ts) : Spells bound e (t :: ts)
  | behind {bound : Nat} {e : Node} {ts : List Token} {t : Token} (hk : t.kind = .whitespace)
      (h : Spells bound e ts) : Spells bound e (ts ++ [t])
  | group {bound : Nat} {e : Node} {ts inner : List Token} {first last : Token}
      (hfirst : first.kind = .leftParen) (hlast : last.kind = .rightParen)
      (hinner : Enumerated [ts] inner) (h : Spells 0 e ts) : Spells bound e (first :: inner ++ [last])
  | unary {bound : Nat} {t : Token} {e : Node} {ts : List Token} (hk : t.kind = .operator)
      (hsymbol : t.text ∈ ["+", "-", "!"]) (hbound : bound ≤ OperatorTags.unary.precedence)
      (h : Spells OperatorTags.unary.rightBound e ts) :
      Spells bound (.operation t.text [e] OperatorTags.unary) (t :: ts)
  | binary {bound : Nat} {t : Token} {tags : OperatorTags} {left right : Node} {ls rs : List Token}
      (hk : t.kind = .operator) (hsymbol : OperatorTags.binary? t.text = some tags)
      (hbound : bound ≤ tags.precedence) (hleft : Spells tags.leftBound left ls)
      (hright : Spells tags.rightBound right rs) :
      Spells bound (.operation t.text [left, right] tags) (ls ++ t :: rs)
  | call {bound : Nat} {name first last : Token} {arguments : List (Node × List Token)} {inner : List Token}
      (hk : name.kind = .identifier) (hword : wordLiteral? name.text = none)
      (hfirst : first.kind = .leftParen) (hlast : last.kind = .rightParen)
      (hinner : Enumerated (arguments.map Prod.snd) inner) (h : ∀ a ∈ arguments, Spells 0 a.1 a.2) :
      Spells bound (.call name.text (arguments.map Prod.fst)) (name :: first :: inner ++ [last])

/-- The tokens spell the expression, and perhaps a semicolon stands behind it. -/
def IsSpelling (e : Node) (ts : List Token) : Prop :=
  ∃ body ending, ts = body ++ ending ∧ OptionalTerminator ending ∧ Spells 0 e body

namespace Spells

variable {bound : Nat} {e : Node} {ts : List Token}

theorem mono {bound' : Nat} (h : Spells bound e ts) (hbound : bound' ≤ bound) : Spells bound' e ts := by
  induction h with
  | number hk hv => exact .number hk hv
  | string hk => exact .string hk
  | word hk hv => exact .word hk hv
  | identifier hk hword => exact .identifier hk hword
  | before hk _ ih => exact .before hk (ih hbound)
  | behind hk _ ih => exact .behind hk (ih hbound)
  | group hfirst hlast hinner h _ => exact .group hfirst hlast hinner h
  | unary hk hsymbol hprecedence h _ => exact .unary hk hsymbol (Nat.le_trans hbound hprecedence) h
  | binary hk hsymbol hprecedence hleft hright _ _ =>
      exact .binary hk hsymbol (Nat.le_trans hbound hprecedence) hleft hright
  | call hk hword hfirst hlast hinner h _ => exact .call hk hword hfirst hlast hinner h

theorem blanks {us : List Token} (h : Spells bound e ts) (hus : ∀ u ∈ us, u.kind = .whitespace) :
    Spells bound e (us ++ ts) := by
  induction us with
  | nil => exact h
  | cons u us ih =>
      obtain ⟨hu, hus⟩ := List.forall_mem_cons.mp hus
      exact .before hu (ih hus)

end Spells

/-! ### Places -/

/-- What stands right before a token, blanks aside. -/
inductive Place where
  /-- A parenthesis that opens, a comma or nothing. -/
  | opening
  | operator
  /-- The end of an operand. -/
  | operand
  /-- A name, and no blank behind it.  It is an operand, or that of a call. -/
  | name
deriving DecidableEq

namespace Place

def endsOperand : Place → Bool
  | operand | name => true
  | opening | operator => false

/-- The place behind a token, if the token may stand in its place. -/
def after? (place : Place) (t : Token) : Option Place :=
  match t.kind with
  | .number | .string => if place.endsOperand then none else some operand
  | .identifier =>
    if place.endsOperand then none
    else if (wordLiteral? t.text).isSome then some operand else some name
  | .operator =>
    if place.endsOperand then if t.text = "!" then none else some operator
    else if t.text ∈ ["+", "-", "!"] then some operator else none
  | .leftParen => if place = operand then none else some opening
  | .separator => if place = operator then none else some opening
  | .rightParen => if place = operator then none else some operand
  | .whitespace => if place = name then some operand else some place
  | .terminator => if place.endsOperand then some operand else none
  | .leftBrace | .rightBrace => none

end Place

/-- All tokens are in place, and the last one ends an operand. -/
def WellPlaced (ts : List Token) : Prop :=
  (ts.foldlM Place.after? Place.opening).any Place.endsOperand = true

instance (ts : List Token) : Decidable (WellPlaced ts) :=
  inferInstanceAs (Decidable (_ = true))

/-- Behind the tokens an operand has ended, wherever one could start before them. -/
def EndsOperand (ts : List Token) : Prop :=
  ∀ place : Place, place.endsOperand = false →
    ∃ place', ts.foldlM Place.after? place = some place' ∧ place'.endsOperand = true

namespace Place

variable {place : Place} {t : Token} {ts : List Token}

theorem ne_operator_of_endsOperand (h : place.endsOperand = true) : place ≠ .operator := by
  rintro rfl
  cases h

theorem ne_operand_of_endsOperand (h : place.endsOperand = false) : place ≠ .operand := by
  rintro rfl
  cases h

theorem eq_opening (h : place.endsOperand = false) (hne : place ≠ .operator) : place = .opening := by
  cases place with
  | opening => rfl
  | operator => exact absurd rfl hne
  | operand | name => cases h

theorem eq_name (h : place.endsOperand = true) (hne : place ≠ .operand) : place = .name := by
  cases place with
  | name => rfl
  | operand => exact absurd rfl hne
  | opening | operator => cases h

theorem after?_blank (hk : t.kind = .whitespace) (h : place.endsOperand = false) :
    place.after? t = some place := by
  rw [after?, hk]
  cases place with
  | opening | operator => rfl
  | operand | name => cases h

theorem after?_blank_of_endsOperand (hk : t.kind = .whitespace) (h : place.endsOperand = true) :
    place.after? t = some .operand := by
  rw [after?, hk]
  cases place with
  | operand | name => rfl
  | opening | operator => cases h

/-- Parts that are operands, each with a comma behind it, leave everything open again. -/
theorem foldlM_listed {parts : List (List Token)} (h : Listed parts ts)
    (hparts : ∀ us ∈ parts, EndsOperand us) : ts.foldlM after? opening = some opening := by
  induction h with
  | nil => rfl
  | skip _ hk ih =>
      rw [List.foldlM_append, ih hparts]
      rcases hk with hk | hk <;> simp [after?, hk]
  | part _ hcomma ih =>
      obtain ⟨hparts, hus⟩ := List.forall_mem_append.mp hparts
      obtain ⟨place', hplace, hends⟩ := List.forall_mem_singleton.mp hus opening rfl
      rw [List.foldlM_append, List.foldlM_append, ih hparts]
      simp [hplace, after?, hcomma, ne_operator_of_endsOperand hends]

/-- What is enumerated does not end with an operator. -/
theorem foldlM_enumerated {parts : List (List Token)} (h : Enumerated parts ts)
    (hparts : ∀ us ∈ parts, EndsOperand us) :
    ∃ place', ts.foldlM after? opening = some place' ∧ place' ≠ .operator := by
  cases h with
  | closed h => exact ⟨opening, foldlM_listed h hparts, nofun⟩
  | last us h =>
      obtain ⟨hparts, hus⟩ := List.forall_mem_append.mp hparts
      obtain ⟨place', hplace, hends⟩ := List.forall_mem_singleton.mp hus opening rfl
      refine ⟨place', ?_, ne_operator_of_endsOperand hends⟩
      rw [List.foldlM_append, foldlM_listed h hparts]
      exact hplace

end Place

private theorem OperatorTags.ne_not_of_binary? {symbol : String} {tags : OperatorTags}
    (h : binary? symbol = some tags) : symbol ≠ "!" := by
  rintro rfl
  cases h

/-- The tokens of every spelling are in place. -/
theorem Spells.endsOperand {bound : Nat} {e : Node} {ts : List Token} (h : Spells bound e ts) :
    EndsOperand ts := by
  induction h with
  | number hk _ | string hk =>
      intro place hplace
      exact ⟨.operand, by simp [Place.after?, hk, hplace], rfl⟩
  | word hk hv =>
      intro place hplace
      exact ⟨.operand, by simp [Place.after?, hk, hplace, hv], rfl⟩
  | identifier hk hword =>
      intro place hplace
      exact ⟨.name, by simp [Place.after?, hk, hplace, hword], rfl⟩
  | before hk _ ih =>
      intro place hplace
      obtain ⟨place', hfold, hends⟩ := ih place hplace
      refine ⟨place', ?_, hends⟩
      rw [List.foldlM_cons, Place.after?_blank hk hplace]
      exact hfold
  | behind hk _ ih =>
      intro place hplace
      obtain ⟨place', hfold, hends⟩ := ih place hplace
      refine ⟨.operand, ?_, rfl⟩
      rw [List.foldlM_append, hfold]
      simp [Place.after?_blank_of_endsOperand hk hends]
  | group hfirst hlast hinner _ ih =>
      intro place hplace
      obtain ⟨place', hfold, hne⟩ := Place.foldlM_enumerated hinner (List.forall_mem_singleton.mpr ih)
      refine ⟨.operand, ?_, rfl⟩
      simp [Place.after?, hfirst, hlast, Place.ne_operand_of_endsOperand hplace, hfold, hne]
  | unary hk hsymbol _ _ ih =>
      intro place hplace
      obtain ⟨place', hfold, hends⟩ := ih .operator rfl
      refine ⟨place', ?_, hends⟩
      simp only [List.foldlM_cons, Place.after?, hk, hplace, hsymbol]
      exact hfold
  | binary hk hsymbol _ _ _ ihl ihr =>
      intro place hplace
      obtain ⟨place₁, hfold₁, hends₁⟩ := ihl place hplace
      obtain ⟨place₂, hfold₂, hends₂⟩ := ihr .operator rfl
      refine ⟨place₂, ?_, hends₂⟩
      simp [hfold₁, Place.after?, hk, hends₁, OperatorTags.ne_not_of_binary? hsymbol, hfold₂]
  | call hk hword hfirst hlast hinner _ ih =>
      intro place hplace
      have hparts : ∀ us ∈ List.map Prod.snd _, EndsOperand us := List.forall_mem_map.mpr ih
      obtain ⟨place', hfold, hne⟩ := Place.foldlM_enumerated hinner hparts
      refine ⟨.operand, ?_, rfl⟩
      simp [Place.after?, hk, hplace, hword, hfirst, hlast, hfold, hne]

theorem IsSpelling.wellPlaced {e : Node} {ts : List Token} (h : IsSpelling e ts) : WellPlaced ts := by
  obtain ⟨body, ending, rfl, hending, hbody⟩ := h
  obtain ⟨place, hfold, hends⟩ := hbody.endsOperand .opening rfl
  rw [WellPlaced, List.foldlM_append, hfold]
  cases hending with
  | absent => exact hends
  | present hk =>
      rename_i t
      have hlast : place.after? t = some .operand := by
        rw [Place.after?, hk]
        exact if_pos hends
      simp [hlast, Place.endsOperand]

/-! ### The beginning of an expression -/

namespace OperatorTags

variable {pending incoming : OperatorTags}

theorem InUse.rightBound_le (h : pending.InUse) : pending.rightBound ≤ unary.precedence := by
  obtain ⟨hprecedence, hside⟩ := h.table
  unfold rightBound
  split
  · exact Nat.le_trans (hside.mp ‹_›) (by decide)
  · exact hprecedence

/-- An operator that is left pending could have its right operand start with the next one. -/
theorem rightBound_le_of_reducesBefore (hp : pending.InUse) (hi : incoming.InUse)
    (h : pending.reducesBefore incoming = false) : pending.rightBound ≤ incoming.precedence := by
  have hpt := hp.table.2
  have hit := hi.table.2
  unfold reducesBefore at h
  unfold rightBound
  cases hpl : pending.isLeftAssociative <;> cases hil : incoming.isLeftAssociative <;>
    simp [hpl, hil] at hpt hit h ⊢ <;> omega

/-- An operator that takes its operands can be the left operand of the next one. -/
theorem leftBound_le_of_reducesBefore (h : pending.reducesBefore incoming = true) :
    incoming.leftBound ≤ pending.precedence := by
  unfold reducesBefore at h
  unfold leftBound
  cases hil : incoming.isLeftAssociative <;> simp [hil] at h ⊢ <;> omega

/-- Behind an operand all operators but `!` are binary. -/
theorem binary?_of_ofSymbol {symbol : String} {tags : OperatorTags} {previous : Token}
    (h : ofSymbol symbol (some previous) = .ok tags) (hprevious : endsOperand previous = true)
    (hne : symbol ≠ "!") : binary? symbol = some tags := by
  unfold ofSymbol at h
  rw [if_neg (by simp [hne, hprevious])] at h
  split at h <;> cases h
  assumption

end OperatorTags

/-- A parenthesis is open among the operators, perhaps that of a call. -/
inductive Opener : (outer operators : List Pending) → List Token → Prop
  | group {outer : List Pending} {first : Token} (hfirst : first.kind = .leftParen) : Opener outer outer [first]
  | call {outer : List Pending} {name first : Token} (hk : name.kind = .identifier)
      (hword : wordLiteral? name.text = none) (hfirst : first.kind = .leftParen) :
      Opener outer (.call name.text :: outer) [name, first]

/-- The stacks hold what the tokens begin, and an operand is awaited. -/
inductive Unfinished : List Pending → List Operand → List Token → Prop
  | start {blanks : List Token} (hblanks : ∀ t ∈ blanks, t.kind = .whitespace) : Unfinished [] [] blanks
  | paren {outer operators : List Pending} {operands : List Operand} {ts opener inner : List Token}
      {arguments : List (Node × List Token)} (h : Unfinished outer operands ts)
      (hopener : Opener outer operators opener) (hinner : Listed (arguments.map Prod.snd) inner)
      (harguments : ∀ a ∈ arguments, Spells 0 a.1 a.2) :
      Unfinished (.group :: operators) (Stacks.onTop (arguments.map Prod.fst) (.group :: operands))
        (ts ++ (opener ++ inner))
  | unary {operators : List Pending} {operands : List Operand} {ts blanks : List Token} {t : Token}
      (h : Unfinished operators operands ts) (hk : t.kind = .operator) (hsymbol : t.text ∈ ["+", "-", "!"])
      (hblanks : ∀ u ∈ blanks, u.kind = .whitespace) :
      Unfinished (.operation t.text OperatorTags.unary :: operators) operands (ts ++ t :: blanks)
  | binary {operators : List Pending} {operands : List Operand} {ts ls blanks : List Token} {t : Token}
      {tags : OperatorTags} {left : Node} (h : Unfinished operators operands ts) (hk : t.kind = .operator)
      (hsymbol : OperatorTags.binary? t.text = some tags)
      (hawaits : Stacks.Awaits tags.precedence ⟨operators, operands⟩)
      (hleft : Spells tags.leftBound left ls) (hblanks : ∀ u ∈ blanks, u.kind = .whitespace) :
      Unfinished (.operation t.text tags :: operators) (.node left :: operands) (ts ++ (ls ++ t :: blanks))

namespace Unfinished

variable {operators : List Pending} {operands : List Operand} {ts us : List Token} {t : Token} {e : Node}

/-- A sign can always come next. -/
theorem awaits (h : Unfinished operators operands ts) :
    Stacks.Awaits OperatorTags.unary.precedence ⟨operators, operands⟩ := by
  cases h with
  | start => trivial
  | paren => trivial
  | unary => exact ⟨OperatorTags.inUse_unary, OperatorTags.inUse_unary.rightBound_le⟩
  | binary _ _ hsymbol =>
      have htags := OperatorTags.inUse_of_binary? hsymbol
      exact ⟨htags, htags.rightBound_le⟩

/-- Where the operator on top does not take its operands before another one, the other one can
stand in its right operand. -/
theorem awaits_of_kept {tags : OperatorTags} (h : Unfinished operators operands ts) (htags : tags.InUse)
    (htop : ∀ symbol pending outer, operators = .operation symbol pending :: outer →
      pending.reducesBefore tags = false) :
    Stacks.Awaits tags.precedence ⟨operators, operands⟩ := by
  have hsign := h.awaits
  unfold Stacks.Awaits at hsign ⊢
  split at hsign
  · rename_i symbol pending outer hoperators
    have hkept := htop symbol pending outer hoperators
    exact ⟨hsign.1, OperatorTags.rightBound_le_of_reducesBefore hsign.1 htags hkept⟩
  · exact hsign
  · trivial

theorem openParen {outer : List Pending} {opener : List Token} (h : Unfinished outer operands ts)
    (hopener : Opener outer operators opener) :
    Unfinished (.group :: operators) (.group :: operands) (ts ++ opener) := by
  have hparen : Unfinished _ (Stacks.onTop (([] : List (Node × List Token)).map Prod.fst) _) _ :=
    .paren h hopener .nil nofun
  rwa [List.append_nil] at hparen

theorem blank (h : Unfinished operators operands ts) (hk : t.kind = .whitespace) :
    Unfinished operators operands (ts ++ [t]) := by
  have hmore : ∀ {blanks : List Token}, (∀ u ∈ blanks, u.kind = .whitespace) →
      ∀ u ∈ blanks ++ [t], u.kind = .whitespace :=
    fun hblanks => List.forall_mem_append.mpr ⟨hblanks, List.forall_mem_singleton.mpr hk⟩
  cases h with
  | start hblanks => exact .start (hmore hblanks)
  | paren h hopener hinner harguments =>
      rw [List.append_assoc, List.append_assoc]
      exact .paren h hopener (hinner.skip (.inr hk)) harguments
  | unary h hoperator hsymbol hblanks =>
      rw [List.append_assoc, List.cons_append]
      exact .unary h hoperator hsymbol (hmore hblanks)
  | binary h hoperator hsymbol hawaits hleft hblanks =>
      rw [List.append_assoc, List.append_assoc, List.cons_append]
      exact .binary h hoperator hsymbol hawaits hleft (hmore hblanks)

/-- The operator on top takes an operand that binds as tightly as it asks, and its operation is
one more operand. -/
theorem operation {symbol : String} {tags : OperatorTags} {children : List Node} {rest : List Operand}
    (h : Unfinished (.operation symbol tags :: operators) operands ts) (he : Spells tags.rightBound e us)
    (htake : Stacks.takeOperands? tags.arity (.node e :: operands) [] = some (children, rest)) :
    ∃ ts' us', ts ++ us = ts' ++ us' ∧ Unfinished operators rest ts' ∧
      Stacks.Awaits tags.precedence ⟨operators, rest⟩ ∧
      Spells tags.precedence (.operation symbol children tags) us' := by
  cases h with
  | unary h hk hsymbol hblanks =>
      cases htake
      refine ⟨_, _, ?_, h, h.awaits, .unary hk hsymbol (Nat.le_refl _) (he.blanks hblanks)⟩
      rw [List.append_assoc, List.cons_append]
  | binary h hk hsymbol hawaits hleft hblanks =>
      rw [OperatorTags.arity_of_binary? hsymbol] at htake
      cases htake
      refine ⟨_, _, ?_, h, hawaits, .binary hk hsymbol (Nat.le_refl _) hleft (he.blanks hblanks)⟩
      rw [List.append_assoc, List.append_assoc, List.cons_append]

/-- Operators that take their operands leave an operand that binds as tightly as they do. -/
theorem reduceWhile {isReady : OperatorTags → Bool} {bound tightness : Nat} {s : Stacks}
    (hready : ∀ tags, isReady tags = true → bound ≤ tags.precedence)
    (h : Unfinished operators operands ts) (hawaits : Stacks.Awaits tightness ⟨operators, operands⟩)
    (hbound : bound ≤ tightness) (he : Spells tightness e us)
    (hreduce : Stacks.reduceWhile isReady operators (.node e :: operands) = .ok s) :
    ∃ e' rest ts' us', s.operands = .node e' :: rest ∧ ts ++ us = ts' ++ us' ∧
      Unfinished s.operators rest ts' ∧ Spells bound e' us' ∧
      ∀ symbol tags outer, s.operators = .operation symbol tags :: outer → isReady tags = false := by
  -- Along the induction the operand grows to the left, and with each operator that takes it, it
  -- binds more loosely.  It never binds more loosely than the next operator asks for.
  generalize htop : Operand.node e :: operands = top at hreduce
  fun_induction Stacks.reduceWhile isReady operators top generalizing operands ts us e tightness with
  | case1 symbol tags operators top hisReady children rest htake ih =>
      subst htop
      obtain ⟨ts₁, us₁, hsplit, h₁, hawaits₁, he₁⟩ := h.operation (he.mono hawaits.2) htake
      obtain ⟨e', rest', ts', us', hs, hsplit', h'⟩ :=
        ih h₁ hawaits₁ (hready tags hisReady) he₁ rfl hreduce
      exact ⟨e', rest', ts', us', hs, hsplit.trans hsplit', h'⟩
  | case2 => cases hreduce
  | case3 symbol tags operators top hisReady =>
      cases hreduce
      refine ⟨e, operands, ts, us, htop.symm, rfl, h, he.mono hbound, ?_⟩
      rintro symbol tags outer ⟨⟩
      exact Bool.eq_false_iff.mpr hisReady
  | case4 operators top hoperation =>
      cases hreduce
      refine ⟨e, operands, ts, us, htop.symm, rfl, h, he.mono hbound, ?_⟩
      rintro symbol tags outer rfl
      exact absurd rfl (hoperation symbol tags outer)

/-- The same with an operand that binds tightest. -/
theorem reduce {isReady : OperatorTags → Bool} {bound : Nat} {s : Stacks}
    (hready : ∀ tags, isReady tags = true → bound ≤ tags.precedence)
    (h : Unfinished operators operands ts) (he : ∀ b, Spells b e us)
    (hreduce : Stacks.reduceWhile isReady operators (.node e :: operands) = .ok s) :
    ∃ e' rest ts' us', s.operands = .node e' :: rest ∧ ts ++ us = ts' ++ us' ∧
      Unfinished s.operators rest ts' ∧ Spells bound e' us' ∧
      ∀ symbol tags outer, s.operators = .operation symbol tags :: outer → isReady tags = false :=
  h.reduceWhile hready (h.awaits.mono (Nat.le_max_right bound _)) (Nat.le_max_left bound _) (he _) hreduce

end Unfinished

/-! ### From token to token -/

/-- The stacks in a place, when the tokens have been read and `next` is to come.  A name that a
parenthesis follows has not been taken as an operand. -/
inductive Reached (next : Option Token) : Stacks → Option Token → Place → List Token → Prop
  | awaiting {s : Stacks} {previous : Option Token} {place : Place} {ts : List Token}
      (h : Unfinished s.operators s.operands ts) (hplace : place.endsOperand = false)
      (hprevious : previous.any OperatorTags.endsOperand = false)
      (htop : place = .opening → ∀ symbol tags outer, s.operators ≠ .operation symbol tags :: outer) :
      Reached next s previous place ts
  | operand {operators : List Pending} {operands : List Operand} {e : Node} {previous : Token}
      {place : Place} {ts us : List Token} (h : Unfinished operators operands ts)
      (he : ∀ bound, Spells bound e us) (hplace : place.endsOperand = true)
      (hprevious : OperatorTags.endsOperand previous = true)
      (hnext : place = .name → next.any (·.kind == .leftParen) = false) :
      Reached next ⟨operators, .node e :: operands⟩ (some previous) place (ts ++ us)
  | callName {operators : List Pending} {operands : List Operand} {previous : Option Token}
      {ts : List Token} {name : Token} (h : Unfinished operators operands ts)
      (hk : name.kind = .identifier) (hword : wordLiteral? name.text = none)
      (hnext : next.any (·.kind == .leftParen) = true) :
      Reached next ⟨.call name.text :: operators, operands⟩ previous .name (ts ++ [name])

namespace Reached

variable {next : Option Token} {s s' : Stacks} {previous : Option Token} {place place' : Place}
  {ts : List Token} {t : Token} {e : Node}

/-- Behind a parenthesis that opens, or a comma. -/
theorem opened {operators : List Pending} {operands : List Operand}
    (h : Unfinished (.group :: operators) operands ts)
    (hprevious : previous.any OperatorTags.endsOperand = false) :
    Reached next ⟨.group :: operators, operands⟩ previous .opening ts := by
  refine .awaiting h rfl hprevious ?_
  rintro - symbol tags outer ⟨⟩

/-- Behind an operator. -/
theorem operated (h : Unfinished s.operators s.operands ts)
    (hprevious : previous.any OperatorTags.endsOperand = false) :
    Reached next s previous .operator ts := by
  refine .awaiting h rfl hprevious ?_
  rintro ⟨⟩

/-- A token that is an operand by itself can come where one is awaited. -/
theorem pushOperand (h : Reached (some t) s previous place ts) (hplace : place.endsOperand = false)
    (he : ∀ bound, Spells bound e [t]) (ht : OperatorTags.endsOperand t = true)
    (hplace' : place'.endsOperand = true)
    (hnext : place' = .name → next.any (·.kind == .leftParen) = false) :
    Reached next (s.pushOperand e) (some t) place' (ts ++ [t]) := by
  cases h with
  | awaiting h => exact .operand h he hplace' ht hnext
  | operand _ _ hends => cases hplace.symm.trans hends
  | callName => cases hplace

theorem pushName (h : Reached (some t) s previous place ts) (hplace : place.endsOperand = false)
    (hk : t.kind = .identifier) (hword : wordLiteral? t.text = none)
    (hnext : next.any (·.kind == .leftParen) = true) :
    Reached next (s.pushOperator (.call t.text)) (some t) .name (ts ++ [t]) := by
  cases h with
  | awaiting h => exact .callName h hk hword hnext
  | operand _ _ hends => cases hplace.symm.trans hends
  | callName => cases hplace

/-- An operator awaits its operand, and one between two has taken the one before it. -/
theorem pushOperation {tags : OperatorTags} (h : Reached (some t) s previous place ts)
    (hplace : place.after? t = some place') (hk : t.kind = .operator)
    (htags : OperatorTags.ofSymbol t.text previous = .ok tags)
    (hreduce : Stacks.reduceWhile (·.reducesBefore tags) s.operators s.operands = .ok s') :
    Reached next (s'.pushOperator (.operation t.text tags)) (some t) place' (ts ++ [t]) := by
  have ht : (some t).any OperatorTags.endsOperand = false := by
    simp [OperatorTags.endsOperand, hk]
  cases h with
  | awaiting h hends hprevious _ =>
      obtain ⟨hsymbol, rfl⟩ : t.text ∈ ["+", "-", "!"] ∧ .operator = place' := by
        simpa [Place.after?, hk, hends] using hplace
      cases htags.symm.trans (OperatorTags.ofSymbol_unary hsymbol hprevious)
      cases hreduce.symm.trans (h.awaits.reduceWhile OperatorTags.inUse_unary (Nat.le_refl _) _)
      exact operated (.unary h hk hsymbol (List.forall_mem_nil _)) ht
  | operand h he hends hprevious _ =>
      obtain ⟨hne, rfl⟩ : t.text ≠ "!" ∧ .operator = place' := by
        simpa [Place.after?, hk, hends] using hplace
      have hsymbol := OperatorTags.binary?_of_ofSymbol htags hprevious hne
      obtain ⟨left, rest, ts', ls, hs, hsplit, h', hleft, htop⟩ :=
        h.reduce (fun _ => OperatorTags.leftBound_le_of_reducesBefore) he hreduce
      have hawaits := h'.awaits_of_kept (OperatorTags.inUse_of_binary? hsymbol) htop
      have hbinary := Unfinished.binary h' hk hsymbol hawaits hleft (List.forall_mem_nil _)
      rw [← List.append_assoc, ← hsplit] at hbinary
      refine operated ?_ ht
      simpa only [Stacks.pushOperator, hs] using hbinary
  | callName _ _ _ hnext => simp [hk] at hnext

end Reached

/-! ### Parentheses -/

/-- A parenthesis is open, and all in it has come to an end. -/
inductive Enclosed : List Pending → List Operand → List Token → Prop
  | intro {outer operators : List Pending} {operands : List Operand} {ts opener inner : List Token}
      {arguments : List (Node × List Token)} (h : Unfinished outer operands ts)
      (hopener : Opener outer operators opener) (hinner : Enumerated (arguments.map Prod.snd) inner)
      (harguments : ∀ a ∈ arguments, Spells 0 a.1 a.2) :
      Enclosed operators (Stacks.onTop (arguments.map Prod.fst) (.group :: operands)) (ts ++ (opener ++ inner))

/-- The topmost mark tells what lies above it from what lies below. -/
theorem Stacks.onTop_group_inj {nodes nodes' : List Node} {operands operands' : List Operand}
    (h : onTop nodes (.group :: operands) = onTop nodes' (.group :: operands')) :
    nodes = nodes' ∧ operands = operands' := by
  have htake := congrArg (takeGroup? · []) h
  simp only [onTop, takeGroup?_append, List.reverse_reverse, List.append_nil] at htake
  cases htake
  exact ⟨rfl, rfl⟩

namespace Enclosed

variable {operators : List Pending} {operands : List Operand} {ts : List Token} {t : Token}

/-- A parenthesis behind the name of a call ends the call. -/
theorem call {name : String} {nodes : List Node}
    (h : Enclosed (.call name :: operators) (Stacks.onTop nodes (.group :: operands)) ts)
    (hk : t.kind = .rightParen) :
    ∃ ts' us, ts ++ [t] = ts' ++ us ∧ Unfinished operators operands ts' ∧
      ∀ bound, Spells bound (.call name nodes) us := by
  generalize hall : Stacks.onTop nodes (.group :: operands) = all at h
  cases h with
  | intro h hopener hinner harguments =>
      obtain ⟨rfl, rfl⟩ := Stacks.onTop_group_inj hall
      cases hopener with
      | group => cases h
      | call hname hword hfirst =>
          refine ⟨_, _, ?_, h, fun _ => .call hname hword hfirst hk hinner harguments⟩
          simp

/-- Any other one encloses one expression. -/
theorem group {node : Node} (h : Enclosed operators (Stacks.onTop [node] (.group :: operands)) ts)
    (hcall : ∀ name outer, operators ≠ .call name :: outer) (hk : t.kind = .rightParen) :
    ∃ ts' us, ts ++ [t] = ts' ++ us ∧ Unfinished operators operands ts' ∧
      ∀ bound, Spells bound node us := by
  generalize hall : Stacks.onTop [node] (.group :: operands) = all at h
  cases h with
  | intro h hopener hinner harguments =>
      obtain ⟨hnodes, rfl⟩ := Stacks.onTop_group_inj hall
      obtain ⟨⟨e, us⟩, rfl, rfl⟩ := List.map_eq_singleton_iff.mp hnodes.symm
      have he := List.forall_mem_singleton.mp harguments
      cases hopener with
      | group hfirst =>
          refine ⟨_, _, ?_, h, fun _ => .group hfirst hk hinner he⟩
          simp
      | call => exact absurd rfl (hcall _ _)

end Enclosed

namespace Reached

variable {next : Option Token} {s s' : Stacks} {previous : Option Token} {place place' : Place}
  {ts : List Token} {t : Token} {e : Node}

/-- Where no operator awaits an operand, all can take theirs. -/
theorem enclosed {operators : List Pending} {operands : List Operand}
    (h : Reached (some t) s previous place ts) (hplace : place ≠ .operator)
    (hk : t.kind ≠ .leftParen) (hreduce : s.reduceAll = .ok ⟨.group :: operators, operands⟩) :
    Enclosed operators operands ts := by
  cases h with
  | awaiting h hends _ htop =>
      have hsame : s.reduceAll = .ok s := by
        rw [Stacks.reduceAll, Stacks.reduceWhile]
        exact htop (Place.eq_opening hends hplace)
      cases hsame.symm.trans hreduce
      cases h with
      | paren h hopener hinner harguments => exact .intro h hopener (.closed hinner) harguments
  | operand h he _ _ _ =>
      obtain ⟨e', rest, ts', us, hs, hsplit, h', he', -⟩ :=
        h.reduce (fun tags _ => tags.precedence.zero_le) he hreduce
      rw [hsplit]
      cases hs
      cases h' with
      | paren h hopener hinner harguments =>
          rename_i arguments
          have hall : ∀ a ∈ arguments ++ [(e', us)], Spells 0 a.1 a.2 :=
            List.forall_mem_append.mpr ⟨harguments, List.forall_mem_singleton.mpr he'⟩
          have hlast := Enumerated.last us hinner
          have hparts : arguments.map Prod.snd ++ [us] = (arguments ++ [(e', us)]).map Prod.snd := by
            rw [List.map_append]
            rfl
          rw [hparts] at hlast
          have henclosed := Enclosed.intro h hopener hlast hall
          rw [List.map_append, List.map_singleton, Stacks.onTop_concat] at henclosed
          simpa only [List.append_assoc] using henclosed
  | callName _ _ _ hnext => exact absurd (by simpa using hnext) hk

/-- A comma leaves everything open again. -/
theorem separator {operators : List Pending} {operands : List Operand}
    (h : Reached (some t) s previous place ts) (hplace : place ≠ .operator) (hk : t.kind = .separator)
    (hreduce : s.reduceAll = .ok ⟨.group :: operators, operands⟩) :
    Reached next ⟨.group :: operators, operands⟩ (some t) .opening (ts ++ [t]) := by
  have ht : (some t).any OperatorTags.endsOperand = false := by
    simp [OperatorTags.endsOperand, hk]
  cases h.enclosed hplace (by simp [hk]) hreduce with
  | intro houter hopener hinner harguments =>
      refine opened ?_ ht
      rw [List.append_assoc, List.append_assoc]
      exact .paren houter hopener (hinner.comma hk) harguments

theorem leftParen (h : Reached (some t) s previous place ts) (hplace : place ≠ .operand)
    (hk : t.kind = .leftParen) :
    Reached next ⟨.group :: s.operators, .group :: s.operands⟩ (some t) .opening (ts ++ [t]) := by
  have ht : (some t).any OperatorTags.endsOperand = false := by
    simp [OperatorTags.endsOperand, hk]
  cases h with
  | awaiting h => exact opened (h.openParen (.group hk)) ht
  | operand _ _ hends _ hnext =>
      have hother := hnext (Place.eq_name hends hplace)
      simp [hk] at hother
  | callName h hname hword _ =>
      rw [List.append_assoc]
      exact opened (h.openParen (.call hname hword hk)) ht

theorem rightParen {operators : List Pending} {operands : List Operand} (hk : t.kind = .rightParen)
    (h : ∃ ts' us, ts ++ [t] = ts' ++ us ∧ Unfinished operators operands ts' ∧
      ∀ bound, Spells bound e us) :
    Reached next ⟨operators, .node e :: operands⟩ (some t) .operand (ts ++ [t]) := by
  obtain ⟨ts', us, hsplit, h, he⟩ := h
  rw [hsplit]
  exact .operand h he rfl (by simp [OperatorTags.endsOperand, hk]) nofun

theorem blank (h : Reached (some t) s previous place ts) (hplace : place.after? t = some place')
    (hk : t.kind = .whitespace) : Reached next s previous place' (ts ++ [t]) := by
  cases h with
  | awaiting h hends hprevious htop =>
      cases hplace.symm.trans (Place.after?_blank hk hends)
      exact .awaiting (h.blank hk) hends hprevious htop
  | operand h he hends hprevious _ =>
      cases hplace.symm.trans (Place.after?_blank_of_endsOperand hk hends)
      rw [List.append_assoc]
      exact .operand h (fun bound => (he bound).behind hk) rfl hprevious nofun
  | callName _ _ _ hnext => simp [hk] at hnext

/-- A token in its place leads to the place behind it. -/
theorem step (hstep : Stacks.Step s previous t next s') (hplace : place.after? t = some place')
    (h : Reached (some t) s previous place ts) : Reached next s' (some t) place' (ts ++ [t]) := by
  cases hstep with
  | number hk hv =>
      obtain ⟨hends, rfl⟩ : place.endsOperand = false ∧ .operand = place' := by
        simpa [Place.after?, hk] using hplace
      exact h.pushOperand hends (fun _ => .number hk hv) (by simp [OperatorTags.endsOperand, hk]) rfl nofun
  | string hk =>
      obtain ⟨hends, rfl⟩ : place.endsOperand = false ∧ .operand = place' := by
        simpa [Place.after?, hk] using hplace
      exact h.pushOperand hends (fun _ => .string hk) (by simp [OperatorTags.endsOperand, hk]) rfl nofun
  | word hk hv =>
      obtain ⟨hends, rfl⟩ : place.endsOperand = false ∧ .operand = place' := by
        simpa [Place.after?, hk, hv] using hplace
      exact h.pushOperand hends (fun _ => .word hk hv) (by simp [OperatorTags.endsOperand, hk]) rfl nofun
  | callName hk hword hnext =>
      obtain ⟨hends, rfl⟩ : place.endsOperand = false ∧ .name = place' := by
        simpa [Place.after?, hk, hword] using hplace
      exact h.pushName hends hk hword hnext
  | identifier hk hword hnext =>
      obtain ⟨hends, rfl⟩ : place.endsOperand = false ∧ .name = place' := by
        simpa [Place.after?, hk, hword] using hplace
      exact h.pushOperand hends (fun _ => .identifier hk hword) (by simp [OperatorTags.endsOperand, hk]) rfl
        fun _ => hnext
  | operator hk htags hreduce => exact h.pushOperation hplace hk htags hreduce
  | separator hk hreduce =>
      obtain ⟨hne, rfl⟩ : place ≠ .operator ∧ .opening = place' := by
        simpa [Place.after?, hk] using hplace
      exact h.separator hne hk hreduce
  | leftParen hk =>
      obtain ⟨hne, rfl⟩ : place ≠ .operand ∧ .opening = place' := by
        simpa [Place.after?, hk] using hplace
      exact h.leftParen hne hk
  | call hk hreduce =>
      obtain ⟨hne, rfl⟩ : place ≠ .operator ∧ .operand = place' := by
        simpa [Place.after?, hk] using hplace
      have henclosed := h.enclosed hne (by simp [hk]) hreduce
      exact rightParen hk (henclosed.call hk)
  | group hk hreduce hcall =>
      obtain ⟨hne, rfl⟩ : place ≠ .operator ∧ .operand = place' := by
        simpa [Place.after?, hk] using hplace
      have henclosed := h.enclosed hne (by simp [hk]) hreduce
      exact rightParen hk (henclosed.group hcall hk)

/-! ### Whole expressions -/

/-- What has been read and what is to come are all tokens, and from here they lead to `last`. -/
def LeadsOn (whole : List Token) (last : Place) (s : Stacks) (previous : Option Token)
    (upcoming : List Token) : Prop :=
  ∃ before place, before ++ upcoming = whole ∧ upcoming.foldlM Place.after? place = some last ∧
    Reached upcoming.head? s previous place before

/-- Tokens that are in place lead from the first place to the last. -/
theorem of_run (hts : ∀ t ∈ ts, t.kind.isBorder = false) (hrun : Stacks.empty.run none ts = .ok (s, []))
    (hplace : ts.foldlM Place.after? Place.opening = some place) :
    ∃ last, Reached none s last place ts := by
  have hstart : LeadsOn ts place Stacks.empty none ts :=
    ⟨[], .opening, rfl, hplace, .awaiting (.start (List.forall_mem_nil _)) rfl rfl nofun⟩
  have hall : ∃ last, LeadsOn ts place s last [] := by
    refine Stacks.run_invariant ?_ ?_ hts hrun hstart
    · rintro s s' previous t upcoming hstep ⟨before, place₀, hbefore, hfold, h⟩
      obtain ⟨place₁, hplace₁, hfold⟩ := Option.bind_eq_some_iff.mp hfold
      exact ⟨before ++ [t], place₁, by simpa using hbefore, hfold, h.step hstep hplace₁⟩
    · rintro s previous t upcoming hk ⟨before, place₀, hbefore, hfold, h⟩
      obtain ⟨place₁, hplace₁, hfold⟩ := Option.bind_eq_some_iff.mp hfold
      exact ⟨before ++ [t], place₁, by simpa using hbefore, hfold, h.blank hplace₁ hk⟩
  obtain ⟨last, before, place', hbefore, hfold, h⟩ := hall
  rw [List.append_nil] at hbefore
  cases hfold
  exact ⟨last, hbefore ▸ h⟩

/-- At the end of an expression its tokens spell it. -/
private theorem spells (h : Reached none s previous place ts) (hplace : place.endsOperand = true)
    (hfinish : s.finish = .ok e) : Spells 0 e ts := by
  cases h with
  | awaiting _ hends => cases hends.symm.trans hplace
  | operand h he _ _ _ =>
      obtain ⟨e', rest, ts', us', hs, hsplit, h', he', -⟩ :=
        h.reduce (fun tags _ => tags.precedence.zero_le) he (Stacks.finish_cases hfinish)
      cases hs
      rw [hsplit]
      cases h' with
      | start hblanks => exact he'.blanks hblanks
  | callName _ _ _ hnext => cases hnext

end Reached

/-- A semicolon stands behind an operand. -/
theorem WellPlaced.exists_place {ts ending : List Token} (h : WellPlaced (ts ++ ending))
    (hending : OptionalTerminator ending) :
    ∃ place, ts.foldlM Place.after? Place.opening = some place ∧ place.endsOperand = true := by
  rw [WellPlaced, List.foldlM_append] at h
  cases hfold : ts.foldlM Place.after? Place.opening with
  | none =>
      rw [hfold] at h
      cases h
  | some place =>
      rw [hfold] at h
      refine ⟨place, rfl, ?_⟩
      cases hending with
      | absent => exact h
      | present hk =>
          by_contra hends
          simp [Place.after?, hk, hends] at h

/-- **An expression is spelled by the tokens it is taken from if and only if they are in place.**
That it is taken does not say that they are. -/
theorem isSpelling_iff_wellPlaced {ts : List Token} {r : Reading Node ts} (h : readExpression ts = .ok r) :
    IsSpelling r.value (ts.take r.consumed) ↔ WellPlaced (ts.take r.consumed) := by
  refine ⟨IsSpelling.wellPlaced, fun hplaced => ?_⟩
  obtain ⟨body, ending, htake, hbody, hending⟩ := exists_consumed h
  rw [htake] at hplaced ⊢
  obtain ⟨place, hfold, hends⟩ := hplaced.exists_place hending
  obtain ⟨s, hrun, hfinish⟩ := hbody.exists_run
  obtain ⟨last, hreached⟩ := Reached.of_run hbody.inside hrun hfold
  exact ⟨body, ending, rfl, hending, hreached.spells hends hfinish⟩

/-- `-a ^ f(b,, 1);` is in place, also with one comma too many. -/
theorem isSpelling_power_of_call :
    IsSpelling (.operation "^" [.operation "-" [.identifier "a"] .unary,
        .call "f" [.identifier "b", .literal (.int 1)]] (.binary 6 false))
      [⟨.operator, "-"⟩, ⟨.identifier, "a"⟩, ⟨.whitespace, " "⟩, ⟨.operator, "^"⟩, ⟨.whitespace, " "⟩,
        ⟨.identifier, "f"⟩, ⟨.leftParen, "("⟩, ⟨.identifier, "b"⟩, ⟨.separator, ","⟩, ⟨.separator, ","⟩,
        ⟨.whitespace, " "⟩, ⟨.number, "1"⟩, ⟨.rightParen, ")"⟩, ⟨.terminator, ";"⟩] := by
  have hread : readExpression
      [⟨.operator, "-"⟩, ⟨.identifier, "a"⟩, ⟨.whitespace, " "⟩, ⟨.operator, "^"⟩, ⟨.whitespace, " "⟩,
        ⟨.identifier, "f"⟩, ⟨.leftParen, "("⟩, ⟨.identifier, "b"⟩, ⟨.separator, ","⟩, ⟨.separator, ","⟩,
        ⟨.whitespace, " "⟩, ⟨.number, "1"⟩, ⟨.rightParen, ")"⟩, ⟨.terminator, ";"⟩] =
      .ok ⟨.operation "^" [.operation "-" [.identifier "a"] .unary,
        .call "f" [.identifier "b", .literal (.int 1)]] (.binary 6 false), [], by decide⟩ := by cbv
  exact (isSpelling_iff_wellPlaced hread).mpr (by decide)

/-- All tokens are taken for the expression, but they do not spell any. -/
def TakenAmiss (ts : List Token) (e : Node) : Prop :=
  Gives (readExpression ts) e [] ∧ ∀ bound e', ¬ Spells bound e' ts

private theorem takenAmiss_of_foldlM {ts : List Token} {e : Node} (h : Gives (readExpression ts) e [])
    (hnone : ts.foldlM Place.after? Place.opening = none) : TakenAmiss ts e := by
  refine ⟨h, fun bound e' hspells => ?_⟩
  obtain ⟨place, hfold, -⟩ := hspells.endsOperand .opening rfl
  cases hnone.symm.trans hfold

/-- `1 2 +` is taken for a sum, `1 !` for a negation, and `f(1 2)` for a call with two arguments. -/
theorem takenAmiss_misplaced :
    TakenAmiss [⟨.number, "1"⟩, ⟨.whitespace, " "⟩, ⟨.number, "2"⟩, ⟨.whitespace, " "⟩, ⟨.operator, "+"⟩]
        (.operation "+" [.literal (.int 1), .literal (.int 2)] (.binary 4 true)) ∧
      TakenAmiss [⟨.number, "1"⟩, ⟨.whitespace, " "⟩, ⟨.operator, "!"⟩]
        (.operation "!" [.literal (.int 1)] .unary) ∧
      TakenAmiss [⟨.identifier, "f"⟩, ⟨.leftParen, "("⟩, ⟨.number, "1"⟩, ⟨.whitespace, " "⟩,
          ⟨.number, "2"⟩, ⟨.rightParen, ")"⟩]
        (.call "f" [.literal (.int 1), .literal (.int 2)]) := by
  refine ⟨?_, ?_, ?_⟩ <;>
    exact takenAmiss_of_foldlM ⟨⟨_, [], by decide⟩, by cbv, rfl, rfl⟩ (by decide)

end ScriptLanguage
