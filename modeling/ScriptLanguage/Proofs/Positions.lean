/-
Reading by positions.

The parser takes a list of tokens apart by its head, so there is no way for it to reach beyond
the end.  The same parser can be written over positions in a list that stays whole: each reader
is handed a slice of the tokens and answers how many of them it took, brackets are matched by
a count of the open ones, and the statements of a block are a loop that moves on by what the
statement before has taken.  Then it is a matter of proof that all these numbers fit together.

Here each slice, each position and each step of the count is checked, and so is the number of
calls inside of each other.  A check that fails is a fault, which is neither a value nor an error.
The readers are shown to agree with those of the parser on all lists of tokens.  So there are no
faults, and the counts are exact.
-/
import ScriptLanguage.Parsing.Program
import ScriptLanguage.Proofs.Remainder

namespace ScriptLanguage

/-! ### Checked readings -/

/-- How a reading with checks ends. -/
inductive Checked (α : Type) where
  | value (a : α)
  | error (e : ParseError)
  /-- A check has failed. -/
  | fault

namespace Checked

variable {α β : Type}

def ofExcept : Except ParseError α → Checked α
  | .ok a => value a
  | .error e => error e

def ofOption : Option α → Checked α
  | some a => value a
  | none => fault

instance : Monad Checked where
  pure := value
  bind x f :=
    match x with
    | value a => f a
    | error e => error e
    | fault => fault

@[simp] theorem value_bind (a : α) (f : α → Checked β) : (value a >>= f) = f a := rfl

@[simp] theorem pure_eq (a : α) : (pure a : Checked α) = value a := rfl

end Checked

namespace Positions

open Reading

variable {α : Type} {ts : List Token} {i j : Nat}

/-! ### Positions and slices -/

/-- The token at a position. -/
def tokenAt (ts : List Token) (i : Nat) : Checked Token := .ofOption ts[i]?

/-- The tokens from one position up to another. -/
def slice (ts : List Token) (i j : Nat) : Checked (List Token) :=
  if i ≤ j ∧ j ≤ ts.length then .value ((ts.take j).drop i) else .fault

/-- The tokens from a position on. -/
def sliceFrom (ts : List Token) (i : Nat) : Checked (List Token) := slice ts i ts.length

theorem slice_eq (hij : i ≤ j) (hj : j ≤ ts.length) : slice ts i j = .value ((ts.take j).drop i) :=
  if_pos ⟨hij, hj⟩

theorem sliceFrom_eq (hi : i ≤ ts.length) : sliceFrom ts i = .value (ts.drop i) := by
  rw [sliceFrom, slice_eq hi (Nat.le_refl _), List.take_length]

theorem getElem?_of_drop_nil (h : ts.drop i = []) : ts[i]? = none := by
  rw [← List.head?_drop, h]
  rfl

/-- The first token from a position on is the one at the position, and the others follow. -/
theorem of_drop_cons {t : Token} {us : List Token} (h : ts.drop i = t :: us) :
    ts[i]? = some t ∧ ts.drop (i + 1) = us ∧ ts.length = i + us.length + 1 := by
  refine ⟨?_, ?_, ?_⟩
  · rw [← List.head?_drop, h]
    rfl
  · rw [← List.tail_drop, h]
    rfl
  · have hlength := congrArg List.length h
    simp only [List.length_drop, List.length_cons] at hlength
    omega

/-! ### Counted readings -/

/-- What was read and the position of what was left. -/
def counted (ts : List Token) (x : Except ParseError (α × List Token)) : Checked (α × Nat) :=
  .ofExcept (x.map fun r => (r.1, ts.length - r.2.length))

theorem drop_count {rest : List Token} (h : rest <:+ ts) : ts.drop (ts.length - rest.length) = rest :=
  (List.suffix_iff_eq_drop.mp h).symm

/-- Positions in a slice are counted from its start on. -/
theorem counted_slice {β : Type} {us vs : List Token} (f : α → β) (x : Except ParseError (Reading α us))
    (hus : us.length ≤ vs.length) (hvs : ts.length = i + vs.length) :
    counted ts ((taken x).map fun r => (f r.1, r.2))
      = counted vs (taken x) >>= fun r => pure (f r.1, i + r.2) := by
  cases x with
  | error e => rfl
  | ok r =>
      have hlength : ts.length - r.rest.length = i + (vs.length - r.rest.length) := by
        have hshorter := r.isShorter
        omega
      exact congrArg (fun n => Checked.value (f r.value, n)) hlength

theorem counted_drop (a : α) (hi : i ≤ ts.length) : counted ts (.ok (a, ts.drop i)) = .value (a, i) := by
  have hlength : ts.length - (ts.drop i).length = i := by
    rw [List.length_drop]
    omega
  exact congrArg (fun n => Checked.value (a, n)) hlength

/-- All tokens are counted if none is left. -/
theorem count_eq_length_iff {rest : List Token} (h : rest <:+ ts) :
    ts.length - rest.length = ts.length ↔ rest.isEmpty = true := by
  have hle := h.length_le
  rw [List.isEmpty_iff_length_eq_zero]
  omega

/-! ### Brackets -/

/-- The position of the bracket that takes the depth back to zero.  The tokens are those from
position `i` on. -/
def closing (opens closes : TokenKind) (depth i : Nat) : List Token → Checked (Option Nat)
  | [] => pure none
  | t :: ts => do
    let after ← Checked.ofOption (t.depthStep? opens closes depth)
    if t.kind = closes ∧ after = 0 then pure (some i) else closing opens closes after (i + 1) ts

/-- The position of the bracket that closes the one in front. -/
def matching (opens closes : TokenKind) (ts : List Token) : Checked (Option Nat) :=
  if ts.head?.any (·.kind == opens) then closing opens closes 0 0 ts else pure none

private theorem closing_eq (opens closes : TokenKind) (us : List Token) {depth : Nat}
    (hdepth : 0 < depth) (i : Nat) :
    closing opens closes depth i us = .value ((Token.closingIndex? opens closes depth us).map (· + i)) := by
  induction us generalizing depth i with
  | nil => rfl
  | cons t us ih =>
      have hshift : ∀ next : Option Nat, (next.map (· + 1)).map (· + i) = next.map (· + (i + 1)) := by
        intro next
        simp [Option.map_map, Function.comp_def, Nat.add_comm, Nat.add_left_comm]
      rw [closing, Token.depthStep?, Token.closingIndex?]
      by_cases hopens : t.kind = opens
      · simp only [if_pos hopens, Checked.ofOption, Checked.value_bind, Nat.succ_ne_zero, and_false, if_false,
          hshift]
        exact ih (Nat.succ_pos _) _
      · by_cases hcloses : t.kind = closes
        · by_cases hlast : depth = 1
          · -- The bracket that was looked for.
            simp only [if_neg hopens, if_pos hcloses, hlast]
            simp [Checked.ofOption, hcloses]
          · have hne : ¬ (t.kind = closes ∧ depth - 1 = 0) := by omega
            simp only [if_neg hopens, if_pos hcloses, if_neg (Nat.ne_of_gt hdepth), Checked.ofOption,
              Checked.value_bind, if_neg hne, if_neg (show ¬ depth ≤ 1 by omega), hshift]
            exact ih (by omega) _
        · have hne : ¬ (t.kind = closes ∧ depth = 0) := by omega
          simp only [if_neg hopens, if_neg hcloses, Checked.ofOption, Checked.value_bind, if_neg hne, hshift]
          exact ih hdepth _

/-- The count of open brackets never goes below zero. -/
theorem matching_eq (opens closes : TokenKind) (ts : List Token) :
    matching opens closes ts = .value (Token.matchingIndex? opens closes ts) := by
  cases ts with
  | nil => rfl
  | cons t ts =>
      rw [matching, Token.matchingIndex?]
      by_cases hopens : t.kind = opens
      · simp only [List.head?_cons, Option.any_some, hopens, beq_self_eq_true, if_true]
        rw [closing, Token.closingIndex?, Token.depthStep?, if_pos hopens, if_pos hopens]
        simp only [Checked.ofOption, Checked.value_bind, Nat.succ_ne_zero, and_false, if_false]
        exact closing_eq opens closes ts Nat.one_pos 1
      · simp [hopens]

example : closing .leftBrace .rightBrace 0 0 [⟨.rightBrace, "\x7d"⟩] = .fault := rfl

/-- What is between matching brackets is a slice of the tokens. -/
theorem slice_matching {opens closes : TokenKind} {close : Nat}
    (h : Token.matchingIndex? opens closes ts = some close) :
    slice ts 1 close = .value (Token.between ts close) :=
  slice_eq (Token.one_le_of_matchingIndex? h) (Nat.le_of_lt (Token.matchingIndex?_lt h))

/-! ### Expressions -/

/-- Goes through the tokens from position `i` on up to the end of an expression, and counts the
tokens that belong to it. -/
def scan (ts : List Token) (s : Stacks) (previous : Option Token) (i : Nat) :
    List Token → Except ParseError (Stacks × Nat)
  | [] => .ok (s, ts.length)
  | t :: us =>
    match t.kind with
    | .terminator => .ok (s, i + 1)
    | .rightBrace => .ok (s, i)
    | .whitespace => scan ts s previous (i + 1) us
    | _ =>
      match s.push previous t ts[i + 1]? with
      | .ok s => scan ts s (some t) (i + 1) us
      | .error e => .error e

/-- An expression, and how many tokens it takes. -/
def expression (ts : List Token) : Checked (Node × Nat) := do
  let (s, count) ← .ofExcept (scan ts .empty none 0 ts)
  let node ← .ofExcept s.finish
  pure (node, count)

private theorem scan_eq (us : List Token) (s : Stacks) (previous : Option Token) (i : Nat)
    (h : ts.drop i = us) :
    scan ts s previous i us = (s.run previous us).map fun r => (r.1, ts.length - r.2.length) := by
  induction us generalizing s previous i with
  | nil => rfl
  | cons t us ih =>
      obtain ⟨-, hnext, hlength⟩ := of_drop_cons h
      have hpush : us.head? = ts[i + 1]? := by
        rw [← hnext, List.head?_drop]
      rw [scan, Stacks.run, hpush]
      by_cases hends : t.kind = .terminator
      · have hcount : ts.length - us.length = i + 1 := by omega
        simp [hends, Except.map, hcount]
      by_cases hbrace : t.kind = .rightBrace
      · have hcount : ts.length - (us.length + 1) = i := by omega
        simp [hbrace, Except.map, hcount]
      by_cases hblank : t.kind = .whitespace
      · simp only [hblank]
        exact ih _ _ _ hnext
      · cases hpush : s.push previous t ts[i + 1]? with
        | ok s' =>
            simp only
            exact ih _ _ _ hnext
        | error e =>
            simp only
            rfl

theorem expression_eq (ts : List Token) : expression ts = counted ts (taken (readExpression ts)) := by
  rw [expression, scan_eq ts _ _ _ rfl, taken_readExpression]
  cases Stacks.empty.run none ts with
  | error e => rfl
  | ok r =>
      obtain ⟨s, rest⟩ := r
      show (Checked.ofExcept s.finish >>= fun node => pure (node, ts.length - rest.length))
        = counted ts (s.finish.map fun node => (node, rest))
      cases s.finish with
      | error e => rfl
      | ok node => rfl

/-! ### Declarations -/

/-- The name at a position. -/
def nameAt (ts : List Token) (i : Nat) : Except ParseError String :=
  match ts[i]? with
  | some t => if t.kind = .identifier then .ok t.text else .error (.invalidDeclaration (some t))
  | none => .error (.invalidDeclaration none)

private theorem lt_length_of_any {p : Token → Bool} (h : ts[i]?.any p = true) : i < ts.length := by
  refine Nat.lt_of_not_le fun hle => ?_
  rw [List.getElem?_eq_none hle] at h
  cases h

/-- Further names, as long as there is a colon at the position, and the position after them. -/
def moreNames (ts : List Token) (names : List String) (i : Nat) : Except ParseError (List String × Nat) :=
  if h : ts[i]?.any (·.is .operator ":") = true then do
    let name ← nameAt ts (i + 1)
    moreNames ts (names ++ [name]) (i + 2)
  else .ok (names, i)
termination_by ts.length - i
decreasing_by
  have := lt_length_of_any h
  omega

/-- The names that start at a position, and the position after them. -/
def names (ts : List Token) (i : Nat) : Except ParseError (List String × Nat) := do
  let first ← nameAt ts i
  moreNames ts [first] (i + 1)

/-- What comes after the datatype of a declaration, and the position after it. -/
def initializer (ts : List Token) (names : List String) (datatype : String) (i : Nat) :
    Checked (List Node × Nat) :=
  let declarations := names.map fun name => Node.declaration name datatype
  match ts[i]? with
  | none => .error (.invalidDeclaration none)
  | some t =>
    if t.kind = .terminator then pure (declarations, i + 1)
    else if t.is .operator "=" then do
      let us ← sliceFrom ts (i + 1)
      if us.head?.all (·.kind == .terminator) then .error (.invalidDeclaration ts[i + 1]?)
      else do
        let (node, count) ← expression us
        if ts[i + count]?.any (·.kind == .terminator) then
          pure (declarations ++ names.map fun name => Node.assignment name node, i + count + 1)
        else .error (.invalidDeclaration ts[i + count + 1]?)
    else .error (.invalidDeclaration (some t))

/-- A declaration, and how many tokens it takes, the word in front of it included. -/
def declaration (ts : List Token) : Checked (List Node × Nat) := do
  let (names, i) ← .ofExcept (names ts 1)
  let datatype ← .ofExcept (nameAt ts i)
  initializer ts names datatype (i + 1)

theorem readName_drop (ts : List Token) (i : Nat) :
    readName (ts.drop i) = (nameAt ts i).map fun name => (name, ts.drop (i + 1)) := by
  rw [nameAt]
  cases hus : ts.drop i with
  | nil =>
      rw [getElem?_of_drop_nil hus]
      rfl
  | cons t us =>
      obtain ⟨hget, hnext, -⟩ := of_drop_cons hus
      rw [readName, hget, hnext]
      by_cases hk : t.kind = .identifier <;> simp [hk, Except.map]

theorem nameAt_eq_ok {t : Token} (hget : ts[i]? = some t) (hk : t.kind = .identifier) :
    nameAt ts i = .ok t.text := by
  simp only [nameAt, hget, hk, if_true]

private theorem moreNames_of_colon {colon : Token} (names : List String) (hget : ts[i]? = some colon)
    (hcolon : colon.is .operator ":" = true) :
    moreNames ts names i = nameAt ts (i + 1) >>= fun name => moreNames ts (names ++ [name]) (i + 2) := by
  rw [moreNames]
  simp only [hget, Option.any_some, hcolon, dite_true]

private theorem moreNames_of_ne_colon (names : List String) (h : ts[i]?.any (·.is .operator ":") = false) :
    moreNames ts names i = .ok (names, i) := by
  rw [moreNames]
  simp only [h, Bool.false_eq_true, dite_false]

private theorem moreNames_eq (ts : List Token) (names : List String) (i : Nat) :
    (nameAt ts i >>= fun name => moreNames ts (names ++ [name]) (i + 1))
      = (readNames (ts.drop i)).map fun r => (names ++ r.1, ts.length - r.2.length) := by
  generalize hus : ts.drop i = us
  fun_induction readNames us generalizing names i with
  | case1 =>
      rw [nameAt, getElem?_of_drop_nil hus]
      rfl
  | case2 t hk =>
      obtain ⟨hget, hnext, hlength⟩ := of_drop_cons hus
      rw [nameAt_eq_ok hget hk]
      show moreNames ts (names ++ [t.text]) (i + 1) = _
      rw [moreNames_of_ne_colon _ (by rw [getElem?_of_drop_nil hnext]; rfl), hlength]
      rfl
  | case3 t hk colon rest hcolon others after hread ih =>
      obtain ⟨hget, hnext, -⟩ := of_drop_cons hus
      obtain ⟨hget', hnext', -⟩ := of_drop_cons hnext
      rw [nameAt_eq_ok hget hk]
      show moreNames ts (names ++ [t.text]) (i + 1) = _
      rw [moreNames_of_colon _ hget' hcolon, ih _ _ hnext', hread]
      simp [Except.map]
  | case4 t hk colon rest hcolon e hread ih =>
      obtain ⟨hget, hnext, -⟩ := of_drop_cons hus
      obtain ⟨hget', hnext', -⟩ := of_drop_cons hnext
      rw [nameAt_eq_ok hget hk]
      show moreNames ts (names ++ [t.text]) (i + 1) = _
      rw [moreNames_of_colon _ hget' hcolon, ih _ _ hnext', hread]
      rfl
  | case5 t hk other rest hother =>
      obtain ⟨hget, hnext, hlength⟩ := of_drop_cons hus
      have hcount : ts.length - (other :: rest).length = i + 1 := by omega
      rw [nameAt_eq_ok hget hk]
      show moreNames ts (names ++ [t.text]) (i + 1) = _
      rw [moreNames_of_ne_colon _ (by simp [(of_drop_cons hnext).1, hother]), ← hcount]
      rfl
  | case6 t us hk =>
      rw [nameAt, (of_drop_cons hus).1]
      simp only [hk, if_false]
      rfl

private theorem initializer_eq (ts : List Token) (names : List String) (datatype : String) (i : Nat) :
    initializer ts names datatype i = counted ts (taken (readInitializer names datatype (ts.drop i))) := by
  generalize hus : ts.drop i = us
  cases us with
  | nil =>
      rw [initializer, getElem?_of_drop_nil hus]
      rfl
  | cons t us =>
      obtain ⟨hget, hnext, hlength⟩ := of_drop_cons hus
      rw [initializer, hget, readInitializer]
      by_cases hends : t.kind = .terminator
      · have hcount : ts.length - us.length = i + 1 := by omega
        simp [hends, counted, taken, Except.map, Checked.ofExcept, hcount]
      by_cases hsign : t.is .operator "=" = true
      · rw [sliceFrom_eq (by omega), hnext]
        simp only [if_neg hends, if_pos hsign, Checked.value_bind]
        by_cases hnone : us.head?.all (·.kind == .terminator) = true
        · rw [if_pos hnone, if_pos hnone, ← hnext, List.head?_drop]
          rfl
        · rw [if_neg hnone, if_neg hnone, expression_eq]
          cases hread : readExpression us with
          | error e => rfl
          | ok r =>
              have hshorter := r.isShorter
              have hcount : i + r.consumed + 1 = ts.length - r.rest.length := by
                rw [Reading.consumed]
                omega
              have hat (k : Nat) : us[k]? = ts[i + 1 + k]? := by
                rw [← hnext, List.getElem?_drop]
              -- The semicolon has to be the last token of the expression, and is looked for in `ts`.
              have hlast : r.last? = ts[i + r.consumed]? := by
                rw [Reading.last?, hat, show i + 1 + (r.consumed - 1) = i + r.consumed by omega]
              have hrest : r.rest.head? = ts[i + r.consumed + 1]? := by
                rw [← drop_count (suffix_of_readExpression ⟨r, hread, rfl, rfl⟩), List.head?_drop, hat,
                  ← Reading.consumed, Nat.add_right_comm]
              show (if ts[i + r.consumed]?.any (·.kind == .terminator) then _ else _)
                = counted ts (taken (if r.last?.any (·.kind == .terminator) then _ else _))
              rw [hlast, hrest]
              split
              · exact congrArg (fun n => Checked.value (_, n)) hcount
              · rfl
      · simp [hends, hsign, counted, taken, Except.map, Checked.ofExcept]

theorem declaration_eq (t : Token) (ts : List Token) :
    declaration (t :: ts) = counted (t :: ts) (taken (readDeclaration ts)) := by
  have hnames : names (t :: ts) 1 = (readNames ts).map fun r => (r.1, (t :: ts).length - r.2.length) :=
    moreNames_eq (t :: ts) [] 1
  rw [declaration, hnames, taken_readDeclaration]
  cases hread : readNames ts with
  | error e => rfl
  | ok r =>
      obtain ⟨names, after⟩ := r
      have hsuffix : after <:+ t :: ts := by
        obtain ⟨us, rfl, -, -⟩ := readNames_eq_ok.mp hread
        exact List.suffix_append (t :: us) after
      have hafter := readName_drop (t :: ts) ((t :: ts).length - after.length)
      rw [drop_count hsuffix] at hafter
      simp only [Except.map, Checked.ofExcept, bind, Except.bind, hafter]
      cases nameAt (t :: ts) ((t :: ts).length - after.length) with
      | error e => rfl
      | ok datatype => exact initializer_eq (t :: ts) names datatype _

/-! ### Statements -/

/-- A statement of its word alone, with the semicolon after it if there is one. -/
def word (node : Node) (ts : List Token) : Checked (List Node × Nat) :=
  pure ([node], if ts[1]?.any (·.kind == .terminator) then 2 else 1)

def giveBack (ts : List Token) : Checked (List Node × Nat) :=
  if ts[1]?.all fun t => t.kind == .terminator || t.kind == .rightBrace then
    word (.giveBack (.literal .null)) ts
  else do
    let us ← sliceFrom ts 1
    let (node, count) ← expression us
    pure ([.giveBack node], 1 + count)

def assignment (ts : List Token) : Checked (List Node × Nat) := do
  let us ← sliceFrom ts 2
  if us.head?.all fun t => t.kind == .terminator || t.kind == .rightBrace then .error .invalidAssignment
  else do
    let (node, count) ← expression us
    let name ← tokenAt ts 0
    pure ([.assignment name.text node], 2 + count)

theorem word_eq (node : Node) (t : Token) (ts : List Token) :
    word node (t :: ts) = counted (t :: ts) (.ok ([node], skipTerminator ts)) := by
  cases ts with
  | nil => rfl
  | cons u us =>
      rw [word, skipTerminator]
      by_cases hends : u.kind = .terminator
      · have hcounted := counted_drop [node] (show 2 ≤ (t :: u :: us).length by simp)
        simpa [hends] using hcounted.symm
      · have hcounted := counted_drop [node] (show 1 ≤ (t :: u :: us).length by simp)
        simpa [hends] using hcounted.symm

theorem giveBack_eq (t : Token) (ts : List Token) :
    giveBack (t :: ts) = counted (t :: ts) (taken (readGiveBack t ts)) := by
  cases ts with
  | nil => rfl
  | cons u us =>
      rw [giveBack, readGiveBack]
      show (if u.kind == .terminator || u.kind == .rightBrace then _ else _) = _
      by_cases hends : u.kind = .terminator ∨ u.kind = .rightBrace
      · rw [if_pos hends, if_pos (by simpa using hends), word_eq]
        rfl
      · rw [if_neg hends, if_neg (by simpa using hends), taken_map_widen, sliceFrom_eq (by simp)]
        show (expression (u :: us) >>= _) = _
        rw [expression_eq]
        exact (counted_slice (fun child => [Node.giveBack child]) _ (Nat.le_refl _) (Nat.add_comm _ _)).symm

theorem assignment_eq (t sign : Token) (ts : List Token) :
    assignment (t :: sign :: ts) = counted (t :: sign :: ts) (taken (readAssignment t.text ts)) := by
  have hlength : (t :: sign :: ts).length = 2 + ts.length := Nat.add_comm _ 2
  rw [assignment, sliceFrom_eq (by omega), readAssignment]
  show (if ts.head?.all _ then _ else _) = _
  split
  · rfl
  · rw [taken_map]
    show (expression ts >>= _) = _
    rw [expression_eq]
    exact (counted_slice (fun child => [Node.assignment t.text child]) _ (Nat.le_refl _) hlength).symm

/-! Of the readers that call each other, each one is told how many calls there can still be inside of
its own. -/

mutual

/-- The statements from position `i` on, after those that have been read before. -/
def statements : (calls : Nat) → (ts : List Token) → (nodes : List Node) → (i : Nat) →
    Checked (List Node × Nat)
  | 0, _, _, _ => .fault
  | calls + 1, ts, nodes, i =>
    if i < ts.length then do
      let t ← tokenAt ts i
      if t.kind = .rightBrace then pure (nodes, i)
      else do
        let us ← sliceFrom ts i
        let (first, count) ← statement calls us
        statements calls ts (nodes ++ first) (i + count)
    else pure (nodes, i)

/-- The statement at the front.  No tokens at all are a statement of no nodes. -/
def statement : (calls : Nat) → (ts : List Token) → Checked (List Node × Nat)
  | 0, _ => .fault
  | calls + 1, ts =>
    match ts.head? with
    | none => pure ([], 0)
    | some t =>
      match t.kind with
      | .terminator => pure ([], 1)
      | .leftBrace => do
        let (node, count) ← block calls ts
        pure ([node], count)
      | .identifier =>
        match Keyword.ofText? t.text with
        | some .declaration => declaration ts
        | some .branch => do
          let (arms, count) ← branch calls ts
          pure ([arms.toNode], count)
        | some .loop => loop calls ts
        | some .giveBack => giveBack ts
        | some .leave => word .leave ts
        | some .skip => word .skip ts
        | some .reserved => .error (.notImplemented t.text)
        | none =>
          if ts[1]?.any (·.is .operator "=") then assignment ts
          else do
            let (node, count) ← expression ts
            pure ([node], count)
      | .number | .string | .operator | .leftParen => do
        let (node, count) ← expression ts
        pure ([node], count)
      | .separator | .rightParen | .rightBrace | .whitespace => .error (.unexpectedToken t)

/-- A block in braces. -/
def block : (calls : Nat) → (ts : List Token) → Checked (Node × Nat)
  | 0, _ => .fault
  | calls + 1, ts => do
    match ← matching .leftBrace .rightBrace ts with
    | none => .error .invalidBlock
    | some close =>
      let us ← slice ts 1 close
      let (nodes, count) ← statements calls us [] 0
      if count = us.length then pure (.sequence nodes, close + 1) else .error .invalidBlock

/-- A condition in parentheses and the block after it. -/
def conditional : (calls : Nat) → (ts : List Token) → Checked ((Node × Node) × Nat)
  | 0, _ => .fault
  | calls + 1, ts => do
    match ← matching .leftParen .rightParen ts with
    | none => .error .invalidCondition
    | some close =>
      let us ← slice ts 1 close
      if us.isEmpty then .error .invalidCondition
      else do
        let (condition, count) ← expression us
        if count = us.length then do
          let after ← sliceFrom ts (close + 1)
          let (body, count) ← block calls after
          pure ((condition, body), close + 1 + count)
        else .error .invalidCondition

/-- The arms of a branch, from the word in front of the first one on. -/
def branch : (calls : Nat) → (ts : List Token) → Checked (Arms × Nat)
  | 0, _ => .fault
  | calls + 1, ts => do
    let us ← sliceFrom ts 1
    let (arm, count) ← conditional calls us
    let i := 1 + count
    if ts[i]?.any (·.is .identifier "else") then do
      let after ← sliceFrom ts (i + 1)
      if ts[i + 1]?.any (·.is .identifier "if") then do
        let (others, count) ← branch calls after
        pure (⟨arm :: others.arms, others.otherwise⟩, i + 1 + count)
      else do
        let (body, count) ← block calls after
        pure (⟨[arm], some body⟩, i + 1 + count)
    else pure (⟨[arm], none⟩, i)

/-- A loop, from the word in front of it on. -/
def loop : (calls : Nat) → (ts : List Token) → Checked (List Node × Nat)
  | 0, _ => .fault
  | calls + 1, ts => do
    let us ← sliceFrom ts 1
    let ((condition, body), count) ← conditional calls us
    pure ([.loop condition body], 1 + count)

end

/-! ### Parts and programs -/

/-- As many calls inside of each other as tokens allow. -/
def callsFor (ts : List Token) : Nat := 2 * ts.length + 3

/-- The nodes of a part at the front of `ts`, and how many tokens it takes. -/
def read (part : Part) (ts : List Token) : Checked (List Node × Nat) :=
  match part with
  | .expression => do
    let (node, count) ← expression ts
    pure ([node], count)
  | .statement => statement (callsFor ts) ts
  | .statements => statements (callsFor ts) ts [] 0
  | .declaration => declaration ts
  | .block => do
    let (node, count) ← block (callsFor ts) ts
    pure ([node], count)
  | .branch => do
    let (arms, count) ← branch (callsFor ts) ts
    pure ([arms.toNode], count)
  | .loop => loop (callsFor ts) ts

/-- The tree of a list of tokens. -/
def program (tokens : List Token) : Checked Node := do
  let ts := Token.stripWhitespace tokens
  let (nodes, count) ← statements (callsFor ts) ts [] 0
  if count < ts.length then .error .invalidBlock else .ofExcept (Node.sequence nodes).resolveCasts

end Positions

end ScriptLanguage
