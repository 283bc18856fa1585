/-
The trees that are read off tokens.

Not every tree can be: the parser builds no operator with three operands, no negative
number and no name with a blank in it.  `IsTerm` and `IsCode` say which expressions and
statements there are, before and after the casts are resolved.  For expressions this is an
invariant of the two stacks; statements follow their grammar, and resolving the casts takes
the one kind of tree to the other.
-/
import ScriptLanguage.Proofs.Rendering
import ScriptLanguage.Proofs.Scanning
import ScriptLanguage.Proofs.StatementReading

namespace ScriptLanguage

open Lexeme

/-- A name that is not the word for a literal. -/
structure IsFreeName (name : String) : Prop where
  isName : isName name = true
  notWord : wordLiteral? name = none

namespace Node

/-- The expressions that are read, with their casts as operations or resolved. -/
inductive IsTerm (resolved : Bool) : Node → Prop
  | int {i : Integer} (h : 0 ≤ i.toInt) : IsTerm resolved (.literal (Value.int i))
  | float {x : Binary64} (h : x.isNegative = false) : IsTerm resolved (.literal (Value.float x))
  | string (s : String) : IsTerm resolved (.literal (Value.string s))
  | bool (b : Bool) : IsTerm resolved (.literal (Value.bool b))
  | null : IsTerm resolved (.literal Value.null)
  | identifier {name : String} (hname : IsFreeName name) : IsTerm resolved (.identifier name)
  | call {name : String} {arguments : List Node} (hname : IsFreeName name)
      (h : ∀ a ∈ arguments, IsTerm resolved a) : IsTerm resolved (.call name arguments)
  | unary {symbol : String} {e : Node} (hsymbol : symbol ∈ ["+", "-", "!"])
      (h : IsTerm resolved e) : IsTerm resolved (.operation symbol [e] OperatorTags.unary)
  | binary {symbol : String} {tags : OperatorTags} {left right : Node}
      (hsymbol : OperatorTags.binary? symbol = some tags)
      (hcast : resolved = true → symbol ≠ castSymbol) (hleft : IsTerm resolved left)
      (hright : IsTerm resolved right) : IsTerm resolved (.operation symbol [left, right] tags)
  | cast {datatype : String} {e : Node} (hresolved : resolved = true)
      (hdatatype : IsFreeName datatype) (h : IsTerm resolved e) : IsTerm resolved (.cast datatype e)

/-- Whether the node is a block. -/
def isSequence : Node → Bool
  | sequence _ => true
  | _ => false

/-- The statements that are read, with the casts in them as operations or resolved. -/
inductive IsCode (resolved : Bool) : Node → Prop
  | term {e : Node} (h : IsTerm resolved e) : IsCode resolved e
  | sequence {children : List Node} (h : ∀ c ∈ children, IsCode resolved c) :
      IsCode resolved (.sequence children)
  | declaration {name datatype : String} (hname : isName name = true)
      (hdatatype : isName datatype = true) : IsCode resolved (.declaration name datatype)
  | assignment {name : String} {e : Node} (hname : isName name = true) (h : IsTerm resolved e) :
      IsCode resolved (.assignment name e)
  | branch {arms : List (Node × Node)} {otherwise : Option Node} (hne : arms ≠ [])
      (hconditions : ∀ arm ∈ arms, IsTerm resolved arm.1)
      (hblocks : ∀ arm ∈ arms, arm.2.isSequence = true)
      (hbodies : ∀ arm ∈ arms, IsCode resolved arm.2)
      (hblock : ∀ body ∈ otherwise, body.isSequence = true)
      (hbody : ∀ body ∈ otherwise, IsCode resolved body) : IsCode resolved (.branch arms otherwise)
  | loop {condition body : Node} (hcondition : IsTerm resolved condition)
      (hblock : body.isSequence = true) (hbody : IsCode resolved body) :
      IsCode resolved (.loop condition body)
  | giveBack {e : Node} (h : IsTerm resolved e) : IsCode resolved (.giveBack e)
  | leave : IsCode resolved .leave
  | skip : IsCode resolved .skip

end Node

/-! ### Tokens that come from a text -/

/-- All tokens of a list come from a text. -/
def AllLexical (ts : List Token) : Prop := ∀ t ∈ ts, t.isLexical = true

theorem allLexical_cons {t : Token} {ts : List Token} :
    AllLexical (t :: ts) ↔ t.isLexical = true ∧ AllLexical ts :=
  List.forall_mem_cons

theorem allLexical_append {ts us : List Token} :
    AllLexical (ts ++ us) ↔ AllLexical ts ∧ AllLexical us :=
  List.forall_mem_append

theorem Token.isName_of_isLexical {t : Token} (h : t.isLexical = true) (hk : t.kind = .identifier) :
    isName t.text = true := by
  simpa only [isLexical, hk] using h

/-! ### Numbers are not negative -/

theorem Integer.toInt_of_ofInt? {z : Int} {i : Integer} (h : ofInt? z = some i) : i.toInt = z := by
  unfold ofInt? at h
  split at h <;> cases h
  rename_i hrange
  exact Int64.toInt_ofInt_of_le hrange.1 hrange.2

theorem Binary64.toNat_bits_ofMagnitude {negative : Bool} {m : Nat} (h : m < Nat.pow 2 63) :
    (ofMagnitude negative m).bits.toNat = m + if negative then Nat.pow 2 63 else 0 := by
  refine UInt64.toNat_ofNat_of_lt' ?_
  calc m + (if negative then Nat.pow 2 63 else 0) < Nat.pow 2 63 + Nat.pow 2 63 :=
        Nat.add_lt_add_of_lt_of_le h (by split <;> decide)
    _ = UInt64.size := rfl

theorem Binary64.isNegative_ofMagnitude {negative : Bool} {m : Nat} (h : m < Nat.pow 2 63) :
    (ofMagnitude negative m).isNegative = negative := by
  rw [isNegative, toNat_bits_ofMagnitude h]
  cases negative with
  | true => exact decide_eq_true (Nat.le_add_left _ _)
  | false => exact decide_eq_false (Nat.not_le.mpr h)

theorem Binary64.isNegative_ofDecimal (coefficient : Nat) (exponent : Int) :
    (ofDecimal false coefficient exponent).isNegative = false := by
  unfold ofDecimal
  simp only
  split
  · exact isNegative_ofMagnitude (by decide)
  · split
    · exact isNegative_ofMagnitude (by decide)
    · exact isNegative_ofMagnitude (Nat.mod_lt _ (by decide))

theorem numberLiteral_eq_ok {text : String} {v : Value} :
    numberLiteral text = .ok v ↔
      if text.toList.contains '.' then ∃ x, Binary64.read? text = some x ∧ v = Value.float x
      else ∃ i, Integer.read? text = some i ∧ v = Value.int i := by
  unfold numberLiteral
  split
  · cases Binary64.read? text <;> simp [eq_comm]
  · cases Integer.read? text <;> simp [eq_comm]

section

variable {text : String} (hdigit : text.toList.head?.any Char.isDigit = true)
include hdigit

/-- A text that starts with a digit has no sign. -/
theorem splitSign_of_isDigit : splitSign text.toList = (false, text.toList) := by
  unfold splitSign
  split
  · rename_i htext
    rw [htext] at hdigit
    cases hdigit
  · rename_i htext
    rw [htext] at hdigit
    cases hdigit
  · rfl

private theorem Integer.nonneg_of_read? {i : Integer} (h : Integer.read? text = some i) : 0 ≤ i.toInt := by
  obtain ⟨z, hz, hi⟩ := Option.bind_eq_some_iff.mp h
  rw [Integer.toInt_of_ofInt? hi]
  unfold signedDigits? at hz
  rw [splitSign_of_isDigit hdigit] at hz
  simp only at hz
  split at hz <;> cases hz
  exact Int.natCast_nonneg _

private theorem Binary64.isNegative_of_read? {x : Binary64} (h : Binary64.read? text = some x) :
    x.isNegative = false := by
  unfold Binary64.read? at h
  rw [splitSign_of_isDigit hdigit] at h
  simp only at h
  split at h
  all_goals
    split at h
    · cases h
    · obtain ⟨exponent, -, rfl⟩ := Option.map_eq_some_iff.mp h
      exact isNegative_ofDecimal _ _

theorem isTerm_of_numberLiteral {resolved : Bool} {v : Value} (h : numberLiteral text = .ok v) :
    Node.IsTerm resolved (.literal v) := by
  rw [numberLiteral_eq_ok] at h
  split at h
  · obtain ⟨x, hx, rfl⟩ := h
    exact .float (Binary64.isNegative_of_read? hdigit hx)
  · obtain ⟨i, hi, rfl⟩ := h
    exact .int (Integer.nonneg_of_read? hdigit hi)

end

/-! ### Expressions -/

theorem isTerm_of_wordLiteral? {resolved : Bool} {text : String} {v : Value}
    (h : wordLiteral? text = some v) : Node.IsTerm resolved (.literal v) := by
  unfold wordLiteral? at h
  split at h <;> cases h
  · exact .bool true
  · exact .bool false
  · exact .null

/-- The operator has the tags of its place. -/
def OperatorTags.HasSymbol (symbol : String) (tags : OperatorTags) : Prop :=
  (symbol ∈ ["+", "-", "!"] ∧ tags = unary) ∨ binary? symbol = some tags

theorem OperatorTags.hasSymbol_of_ofSymbol {symbol : String} {previous : Option Token}
    {tags : OperatorTags} (h : ofSymbol symbol previous = .ok tags) : HasSymbol symbol tags := by
  unfold ofSymbol at h
  split at h
  · rename_i hsign
    cases h
    refine .inl ⟨?_, rfl⟩
    rcases hsign with rfl | ⟨rfl | rfl, -⟩ <;> decide
  · split at h <;> cases h
    exact .inr ‹_›

/-- An operator that gets as many terms as it takes is a term. -/
theorem isTerm_operation {symbol : String} {tags : OperatorTags} {children : List Node}
    (hsymbol : tags.HasSymbol symbol) (hlength : children.length = tags.arity)
    (hchildren : ∀ c ∈ children, Node.IsTerm false c) :
    Node.IsTerm false (.operation symbol children tags) := by
  rcases hsymbol with ⟨hsign, rfl⟩ | hbinary
  · obtain ⟨e, rfl⟩ := List.length_eq_one_iff.mp hlength
    exact .unary hsign (hchildren e (by simp))
  · rw [OperatorTags.arity_of_binary? hbinary] at hlength
    match children, hlength with
    | [left, right], _ =>
        exact .binary hbinary nofun (hchildren left (by simp)) (hchildren right (by simp))

def Pending.IsSound : Pending → Prop
  | operation symbol tags => tags.HasSymbol symbol
  | call name => IsFreeName name
  | group => True

def Operand.IsSound : Operand → Prop
  | node n => Node.IsTerm false n
  | group => True

namespace Stacks

/-- All that is on the stacks can stand in a term. -/
structure IsSound (s : Stacks) : Prop where
  operators : ∀ p ∈ s.operators, p.IsSound
  operands : ∀ o ∈ s.operands, o.IsSound

theorem isSound_takeOperands? {count : Nat} {operands rest : List Operand} {taken nodes : List Node}
    (h : takeOperands? count operands taken = some (nodes, rest))
    (hoperands : ∀ o ∈ operands, o.IsSound) (htaken : ∀ n ∈ taken, Node.IsTerm false n) :
    nodes.length = count + taken.length ∧ (∀ n ∈ nodes, Node.IsTerm false n) ∧ ∀ o ∈ rest, o.IsSound := by
  fun_induction takeOperands? count operands taken with
  | case1 =>
      cases h
      exact ⟨(Nat.zero_add _).symm, htaken, hoperands⟩
  | case2 taken count n operands ih =>
      obtain ⟨hn, hrest⟩ := List.forall_mem_cons.mp hoperands
      obtain ⟨hlength, hsound⟩ := ih h hrest (List.forall_mem_cons.mpr ⟨hn, htaken⟩)
      rw [List.length_cons] at hlength
      exact ⟨by omega, hsound⟩
  | case3 => cases h

theorem isSound_takeGroup? {operands rest : List Operand} {taken nodes : List Node}
    (h : takeGroup? operands taken = some (nodes, rest))
    (hoperands : ∀ o ∈ operands, o.IsSound) (htaken : ∀ n ∈ taken, Node.IsTerm false n) :
    (∀ n ∈ nodes, Node.IsTerm false n) ∧ ∀ o ∈ rest, o.IsSound := by
  fun_induction takeGroup? operands taken with
  | case1 taken n operands ih =>
      obtain ⟨hn, hrest⟩ := List.forall_mem_cons.mp hoperands
      exact ih h hrest (List.forall_mem_cons.mpr ⟨hn, htaken⟩)
  | case2 taken operands =>
      cases h
      exact ⟨htaken, (List.forall_mem_cons.mp hoperands).2⟩
  | case3 => cases h

theorem IsSound.pushOperand {s : Stacks} {n : Node} (h : s.IsSound) (hn : Node.IsTerm false n) :
    (s.pushOperand n).IsSound :=
  ⟨h.operators, List.forall_mem_cons.mpr ⟨hn, h.operands⟩⟩

theorem IsSound.pushOperator {s : Stacks} {p : Pending} (h : s.IsSound) (hp : p.IsSound) :
    (s.pushOperator p).IsSound :=
  ⟨List.forall_mem_cons.mpr ⟨hp, h.operators⟩, h.operands⟩

theorem isSound_reduceWhile {isReady : OperatorTags → Bool} {operators : List Pending}
    {operands : List Operand} {s : Stacks} (h : reduceWhile isReady operators operands = .ok s)
    (hs : IsSound ⟨operators, operands⟩) : s.IsSound := by
  fun_induction reduceWhile isReady operators operands with
  | case1 operands symbol tags operators _ children rest htake ih =>
      obtain ⟨hoperation, hoperators⟩ := List.forall_mem_cons.mp hs.operators
      obtain ⟨hlength, hchildren, hrest⟩ := isSound_takeOperands? htake hs.operands (by simp)
      exact ih h ⟨hoperators,
        List.forall_mem_cons.mpr ⟨isTerm_operation hoperation hlength hchildren, hrest⟩⟩
  | case2 => cases h
  | case3 | case4 =>
      cases h
      exact hs

private theorem isSound_closeGroup {s s' : Stacks} (h : s.closeGroup = .ok s') (hs : s.IsSound) :
    s'.IsSound := by
  obtain ⟨operators, operands, nodes, rest, hreduce, htake, hcases⟩ := closeGroup_cases h
  obtain ⟨hoperators, hoperands⟩ := isSound_reduceWhile hreduce hs
  obtain ⟨hnodes, hrest⟩ := isSound_takeGroup? htake hoperands (by simp)
  obtain ⟨-, hoperators⟩ := List.forall_mem_cons.mp hoperators
  rcases hcases with ⟨name, outer, rfl, rfl⟩ | ⟨node, rfl, rfl, -⟩
  · obtain ⟨hname, houter⟩ := List.forall_mem_cons.mp hoperators
    exact ⟨houter, List.forall_mem_cons.mpr ⟨.call hname hnodes, hrest⟩⟩
  · exact ⟨hoperators, List.forall_mem_cons.mpr ⟨hnodes node (by simp), hrest⟩⟩

private theorem isSound_pushName {s : Stacks} {name : String} {next : Option Token} (hs : s.IsSound)
    (hname : isName name = true) : (s.pushName name next).IsSound := by
  unfold pushName
  split
  · exact hs.pushOperand (isTerm_of_wordLiteral? ‹_›)
  · rename_i hword
    split
    · exact hs.pushOperator ⟨hname, hword⟩
    · exact hs.pushOperand (.identifier ⟨hname, hword⟩)

theorem isSound_push {s s' : Stacks} {previous next : Option Token} {t : Token}
    (h : s.push previous t next = .ok s') (hs : s.IsSound) (ht : t.isLexical = true) : s'.IsSound := by
  cases hk : t.kind <;> simp only [push, hk] at h <;> simp only [Token.isLexical, hk] at ht
  case number =>
    obtain ⟨v, hv, rfl⟩ := map_eq_ok.mp h
    exact hs.pushOperand (isTerm_of_numberLiteral ht hv)
  case string =>
    cases h
    exact hs.pushOperand (.string _)
  case identifier =>
    cases h
    exact isSound_pushName hs ht
  case operator =>
    obtain ⟨tags, htags, h⟩ := bind_eq_ok.mp h
    obtain ⟨s₁, hreduce, h⟩ := bind_eq_ok.mp h
    cases h
    exact (isSound_reduceWhile hreduce hs).pushOperator (OperatorTags.hasSymbol_of_ofSymbol htags)
  case separator =>
    obtain ⟨s₁, hreduce, h⟩ := bind_eq_ok.mp h
    split at h <;> cases h
    exact isSound_reduceWhile hreduce hs
  case leftParen =>
    cases h
    exact ⟨List.forall_mem_cons.mpr ⟨trivial, hs.operators⟩,
      List.forall_mem_cons.mpr ⟨trivial, hs.operands⟩⟩
  case rightParen => exact isSound_closeGroup h hs
  all_goals cases h

theorem isSound_run {s s' : Stacks} {previous : Option Token} {ts rest : List Token}
    (h : s.run previous ts = .ok (s', rest)) (hs : s.IsSound) (hts : AllLexical ts) : s'.IsSound := by
  induction ts generalizing s previous with
  | nil =>
      cases h
      exact hs
  | cons t ts ih =>
      obtain ⟨ht, hts⟩ := List.forall_mem_cons.mp hts
      rw [run] at h
      split at h
      · cases h
        exact hs
      · cases h
        exact hs
      · exact ih h hs hts
      · split at h
        · exact ih h (isSound_push ‹_› hs ht) hts
        · cases h

end Stacks

theorem IsExpression.isTerm {ts : List Token} {e : Node} (h : IsExpression ts e) (hts : AllLexical ts) :
    Node.IsTerm false e := by
  obtain ⟨s, hrun, hfinish⟩ := h.exists_run
  have hs : s.IsSound := Stacks.isSound_run hrun ⟨by simp [Stacks.empty], by simp [Stacks.empty]⟩ hts
  obtain ⟨-, hoperands⟩ := Stacks.isSound_reduceWhile (Stacks.finish_cases hfinish) hs
  exact hoperands (.node e) (by simp)

/-! ### Statements -/

theorem IsNames.isName {names : List String} {ts : List Token} (h : IsNames names ts)
    (hts : AllLexical ts) : ∀ name ∈ names, Lexeme.isName name = true := by
  induction h with
  | single hk =>
      intro name hname
      rw [List.mem_singleton.mp hname]
      exact Token.isName_of_isLexical (allLexical_cons.mp hts).1 hk
  | cons hk _ _ ih =>
      obtain ⟨ht, hts⟩ := allLexical_cons.mp hts
      exact List.forall_mem_cons.mpr
        ⟨Token.isName_of_isLexical ht hk, ih (allLexical_cons.mp hts).2⟩

theorem IsDeclaration.isCode {nodes : List Node} {ts : List Token} (h : IsDeclaration nodes ts)
    (hts : AllLexical ts) : ∀ n ∈ nodes, Node.IsCode false n := by
  obtain ⟨hnames, hdatatype, hus⟩ := h
  obtain ⟨hts, hrest⟩ := allLexical_append.mp hts
  obtain ⟨ht, hrest⟩ := allLexical_cons.mp hrest
  have hname := hnames.isName hts
  refine List.forall_mem_append.mpr ⟨?_, ?_⟩
  · refine List.forall_mem_map.mpr fun name hmem => ?_
    exact .declaration (hname name hmem) (Token.isName_of_isLexical ht hdatatype)
  · cases hus with
    | absent => simp
    | present _ he _ =>
        have hvalue := he.isTerm (allLexical_append.mp (allLexical_cons.mp hrest).2).1
        exact List.forall_mem_map.mpr fun name hmem => .assignment (hname name hmem) hvalue

theorem IsBlock.isSequence {n : Node} {ts : List Token} (h : IsBlock n ts) : n.isSequence = true := by
  cases h
  rfl

mutual

theorem IsStatements.isCode {nodes : List Node} {ts : List Token} :
    IsStatements nodes ts → AllLexical ts → ∀ n ∈ nodes, Node.IsCode false n
  | .nil => fun _ => by simp
  | .cons h hrest => fun hts => by
      obtain ⟨hts, hus⟩ := allLexical_append.mp hts
      exact List.forall_mem_append.mpr ⟨h.isCode hts, hrest.isCode hus⟩

theorem IsStatement.isCode {nodes : List Node} {ts following : List Token} :
    IsStatement nodes ts following → AllLexical ts → ∀ n ∈ nodes, Node.IsCode false n
  | .empty _ => fun _ => by simp
  | .block h => fun hts => by simpa using h.isCode hts
  | .declaration _ h => fun hts => h.isCode (allLexical_cons.mp hts).2
  | .assignment hname _ _ he _ => fun hts => by
      obtain ⟨ht, hts⟩ := allLexical_cons.mp hts
      obtain ⟨-, hts⟩ := allLexical_cons.mp hts
      have hvalue := he.isTerm (allLexical_append.mp hts).1
      simpa using Node.IsCode.assignment (Token.isName_of_isLexical ht hname) hvalue
  | .giveBackNull _ _ => fun _ => by simpa using Node.IsCode.giveBack .null
  | .giveBack _ he _ => fun hts => by
      have hvalue := he.isTerm (allLexical_append.mp (allLexical_cons.mp hts).2).1
      simpa using Node.IsCode.giveBack hvalue
  | .leave _ _ => fun _ => by simpa using Node.IsCode.leave
  | .skip _ _ => fun _ => by simpa using Node.IsCode.skip
  | .loop _ h => fun hts => by
      obtain ⟨hcondition, hblock, hbody⟩ := h.isCode (allLexical_cons.mp hts).2
      simpa using Node.IsCode.loop hcondition hblock hbody
  | .branch _ h _ => fun hts => by
      obtain ⟨hne, hconditions, hblocks, hbodies, hblock, hbody⟩ := h.isCode (allLexical_cons.mp hts).2
      simpa using Node.IsCode.branch hne hconditions hblocks hbodies hblock hbody
  | .expression he _ _ _ => fun hts => by
      simpa using Node.IsCode.term (he.isTerm (allLexical_append.mp hts).1)

theorem IsBlock.isCode {n : Node} {ts : List Token} :
    IsBlock n ts → AllLexical ts → Node.IsCode false n
  | .mk _ _ h => fun hts =>
      .sequence (h.isCode (allLexical_append.mp (allLexical_cons.mp hts).2).1)

theorem IsConditional.isCode {condition body : Node} {ts : List Token} :
    IsConditional condition body ts → AllLexical ts →
      Node.IsTerm false condition ∧ body.isSequence = true ∧ Node.IsCode false body
  | .mk _ he _ _ h => fun hts => by
      obtain ⟨hts, hbs⟩ := allLexical_append.mp (allLexical_cons.mp hts).2
      exact ⟨he.isTerm (allLexical_append.mp hts).1, h.isSequence, h.isCode (allLexical_cons.mp hbs).2⟩

theorem IsChain.isCode {arms : List (Node × Node)} {otherwise : Option Node} {ts : List Token} :
    IsChain arms otherwise ts → AllLexical ts →
      arms ≠ [] ∧ (∀ arm ∈ arms, Node.IsTerm false arm.1) ∧
        (∀ arm ∈ arms, arm.2.isSequence = true) ∧ (∀ arm ∈ arms, Node.IsCode false arm.2) ∧
        (∀ body ∈ otherwise, body.isSequence = true) ∧ ∀ body ∈ otherwise, Node.IsCode false body
  | .last h => fun hts => by simpa using h.isCode hts
  | .otherwise h _ hother => fun hts => by
      obtain ⟨hts, hus⟩ := allLexical_append.mp hts
      have hbody := hother.isCode (allLexical_cons.mp hus).2
      have harm := h.isCode hts
      simp [harm, hother.isSequence, hbody]
  | .cons h _ _ hothers => fun hts => by
      obtain ⟨hts, hus⟩ := allLexical_append.mp hts
      obtain ⟨hcondition, hblock, hbody⟩ := h.isCode hts
      obtain ⟨-, hconditions, hblocks, hbodies, hrest⟩ :=
        hothers.isCode (allLexical_cons.mp (allLexical_cons.mp hus).2).2
      exact ⟨nofun, List.forall_mem_cons.mpr ⟨hcondition, hconditions⟩,
        List.forall_mem_cons.mpr ⟨hblock, hblocks⟩, List.forall_mem_cons.mpr ⟨hbody, hbodies⟩, hrest⟩

end

/-! ### Resolving casts -/

namespace Node

theorem resolveAll_cons_eq_ok {c : Node} {cs ds : List Node} :
    resolveAll (c :: cs) = .ok ds ↔
      ∃ d rest, c.resolveCasts = .ok d ∧ resolveAll cs = .ok rest ∧ ds = d :: rest := by
  rw [resolveAll]
  constructor
  · intro h
    split at h
    · cases h
    · rename_i d hd
      obtain ⟨rest, hrest, rfl⟩ := map_eq_ok.mp h
      exact ⟨d, rest, hd, hrest, rfl⟩
  · rintro ⟨d, rest, hd, hrest, rfl⟩
    rw [hd, hrest]
    rfl

theorem resolveArms_cons_eq_ok {condition body : Node} {arms others : List (Node × Node)} :
    resolveArms ((condition, body) :: arms) = .ok others ↔
      ∃ c b rest, condition.resolveCasts = .ok c ∧ body.resolveCasts = .ok b ∧
        resolveArms arms = .ok rest ∧ others = (c, b) :: rest := by
  rw [resolveArms]
  constructor
  · intro h
    split at h
    · cases h
    · rename_i c hc
      split at h
      · cases h
      · rename_i b hb
        obtain ⟨rest, hrest, rfl⟩ := map_eq_ok.mp h
        exact ⟨c, b, rest, hc, hb, hrest, rfl⟩
  · rintro ⟨c, b, rest, hc, hb, hrest, rfl⟩
    rw [hc, hb, hrest]
    rfl

theorem exists_of_mem_resolveAll {cs ds : List Node} (h : resolveAll cs = .ok ds) :
    ∀ d ∈ ds, ∃ c ∈ cs, c.resolveCasts = .ok d := by
  induction cs generalizing ds with
  | nil =>
      cases h
      simp
  | cons c cs ih =>
      obtain ⟨d, rest, hd, hrest, rfl⟩ := resolveAll_cons_eq_ok.mp h
      refine List.forall_mem_cons.mpr ⟨⟨c, by simp, hd⟩, fun d' hd' => ?_⟩
      obtain ⟨c', hc', hres⟩ := ih hrest d' hd'
      exact ⟨c', List.mem_cons_of_mem c hc', hres⟩

theorem exists_of_mem_resolveArms {arms others : List (Node × Node)} (h : resolveArms arms = .ok others) :
    ∀ other ∈ others, ∃ arm ∈ arms, arm.1.resolveCasts = .ok other.1 ∧ arm.2.resolveCasts = .ok other.2 := by
  induction arms generalizing others with
  | nil =>
      cases h
      simp
  | cons arm arms ih =>
      obtain ⟨c, b, rest, hc, hb, hrest, rfl⟩ := resolveArms_cons_eq_ok.mp h
      refine List.forall_mem_cons.mpr ⟨⟨arm, by simp, hc, hb⟩, fun other hother => ?_⟩
      obtain ⟨arm', harm', hres⟩ := ih hrest other hother
      exact ⟨arm', List.mem_cons_of_mem arm harm', hres⟩

theorem ne_nil_of_resolveArms {arms others : List (Node × Node)} (h : resolveArms arms = .ok others)
    (hne : arms ≠ []) : others ≠ [] := by
  cases arms with
  | nil => exact absurd rfl hne
  | cons arm arms =>
      obtain ⟨c, b, rest, -, -, -, rfl⟩ := resolveArms_cons_eq_ok.mp h
      exact List.cons_ne_nil _ _

theorem resolveCasts_operation_eq_ok {symbol : String} {children : List Node} {tags : OperatorTags}
    {e : Node} :
    (operation symbol children tags).resolveCasts = .ok e ↔
      ∃ cs, resolveAll children = .ok cs ∧
        (if symbol = castSymbol then castOf cs else .ok (operation symbol cs tags)) = .ok e := by
  rw [resolveCasts]
  constructor
  · intro h
    split at h
    · cases h
    · exact ⟨_, ‹_›, h⟩
  · rintro ⟨cs, hcs, h⟩
    rw [hcs]
    exact h

theorem resolveAll_single_eq_ok {c : Node} {cs : List Node} :
    resolveAll [c] = .ok cs ↔ ∃ d, c.resolveCasts = .ok d ∧ cs = [d] := by
  rw [resolveAll_cons_eq_ok]
  constructor
  · rintro ⟨d, _, hd, hnil, rfl⟩
    cases hnil
    exact ⟨d, hd, rfl⟩
  · rintro ⟨d, hd, rfl⟩
    exact ⟨d, [], hd, rfl, rfl⟩

theorem resolveAll_pair_eq_ok {left right : Node} {cs : List Node} :
    resolveAll [left, right] = .ok cs ↔
      ∃ l r, left.resolveCasts = .ok l ∧ right.resolveCasts = .ok r ∧ cs = [l, r] := by
  rw [resolveAll_cons_eq_ok]
  constructor
  · rintro ⟨l, _, hl, hright, rfl⟩
    obtain ⟨r, hr, rfl⟩ := resolveAll_single_eq_ok.mp hright
    exact ⟨l, r, hl, hr, rfl⟩
  · rintro ⟨l, r, hl, hr, rfl⟩
    exact ⟨l, [r], hl, resolveAll_single_eq_ok.mpr ⟨r, hr, rfl⟩, rfl⟩

/-- What the last alternative of a branch is resolved to. -/
def resolveOther : Option Node → Except ParseError (Option Node)
  | none => .ok none
  | some body => body.resolveCasts.map some

theorem exists_of_mem_resolveOther {otherwise other : Option Node} (h : resolveOther otherwise = .ok other) :
    ∀ b ∈ other, ∃ body ∈ otherwise, body.resolveCasts = .ok b := by
  intro b hb
  cases otherwise with
  | none =>
      cases h
      cases hb
  | some body =>
      obtain ⟨b', hb', rfl⟩ := map_eq_ok.mp h
      cases hb
      exact ⟨body, rfl, hb'⟩

theorem resolveCasts_branch_eq_ok {arms : List (Node × Node)} {otherwise : Option Node} {m : Node} :
    (branch arms otherwise).resolveCasts = .ok m ↔
      ∃ others other, resolveArms arms = .ok others ∧ resolveOther otherwise = .ok other ∧
        m = branch others other := by
  cases otherwise with
  | none =>
      rw [resolveCasts, map_eq_ok]
      constructor
      · rintro ⟨others, hothers, rfl⟩
        exact ⟨others, none, hothers, rfl, rfl⟩
      · rintro ⟨others, other, hothers, hother, rfl⟩
        cases hother
        exact ⟨others, hothers, rfl⟩
  | some body =>
      rw [resolveCasts]
      constructor
      · intro h
        split at h
        · cases h
        · obtain ⟨b, hb, rfl⟩ := map_eq_ok.mp h
          exact ⟨_, some b, ‹_›, map_eq_ok.mpr ⟨b, hb, rfl⟩, rfl⟩
      · rintro ⟨others, other, hothers, hother, rfl⟩
        obtain ⟨b, hb, rfl⟩ := map_eq_ok.mp hother
        rw [hothers, hb]
        rfl

/-- A sign is not the operator of casts. -/
theorem ne_castSymbol_of_mem {symbol : String} (h : symbol ∈ ["+", "-", "!"]) : symbol ≠ castSymbol := by
  rintro rfl
  revert h
  decide

theorem IsTerm.resolve {e : Node} (h : IsTerm false e) :
    ∀ {e' : Node}, e.resolveCasts = .ok e' → IsTerm true e' := by
  induction h with
  | int h => intro e' he; cases he; exact .int h
  | float h => intro e' he; cases he; exact .float h
  | string s => intro e' he; cases he; exact .string s
  | bool b => intro e' he; cases he; exact .bool b
  | null => intro e' he; cases he; exact .null
  | identifier hname => intro e' he; cases he; exact .identifier hname
  | call hname _ ih =>
      intro e' he
      obtain ⟨arguments, harguments, rfl⟩ := map_eq_ok.mp he
      refine .call hname fun a ha => ?_
      obtain ⟨c, hc, hres⟩ := exists_of_mem_resolveAll harguments a ha
      exact ih c hc hres
  | unary hsymbol _ ih =>
      intro e' he
      obtain ⟨cs, hcs, he⟩ := resolveCasts_operation_eq_ok.mp he
      obtain ⟨d, hd, rfl⟩ := resolveAll_single_eq_ok.mp hcs
      rw [if_neg (ne_castSymbol_of_mem hsymbol)] at he
      cases he
      exact .unary hsymbol (ih hd)
  | binary hsymbol _ _ _ ihleft ihright =>
      intro e' he
      obtain ⟨cs, hcs, he⟩ := resolveCasts_operation_eq_ok.mp he
      obtain ⟨l, r, hl, hr, rfl⟩ := resolveAll_pair_eq_ok.mp hcs
      split at he
      · -- The second operand of a colon has to be a name, and the cast goes to that.
        have hr' := ihright hr
        unfold castOf at he
        split at he <;> cases he
        rename_i heq
        cases heq
        cases hr' with
        | identifier hname => exact .cast rfl hname (ihleft hl)
      · rename_i hne
        cases he
        exact .binary hsymbol (fun _ => hne) (ihleft hl) (ihright hr)
  | cast hresolved _ _ _ => cases hresolved

theorem isSequence_of_resolveCasts {n m : Node} (hn : n.isSequence = true)
    (h : n.resolveCasts = .ok m) : m.isSequence = true := by
  cases n <;> first | cases hn; done | skip
  obtain ⟨cs, -, rfl⟩ := map_eq_ok.mp h
  rfl

theorem IsCode.resolve {n : Node} (h : IsCode false n) :
    ∀ {m : Node}, n.resolveCasts = .ok m → IsCode true m := by
  induction h with
  | term h => intro m hm; exact .term (h.resolve hm)
  | sequence _ ih =>
      intro m hm
      obtain ⟨cs, hcs, rfl⟩ := map_eq_ok.mp hm
      refine .sequence fun c hc => ?_
      obtain ⟨c', hc', hres⟩ := exists_of_mem_resolveAll hcs c hc
      exact ih c' hc' hres
  | declaration hname hdatatype => intro m hm; cases hm; exact .declaration hname hdatatype
  | assignment hname h =>
      intro m hm
      obtain ⟨e, he, rfl⟩ := map_eq_ok.mp hm
      exact .assignment hname (h.resolve he)
  | @branch arms otherwise hne hconditions hblocks _ hblock _ ihbodies ihbody =>
      intro m hm
      obtain ⟨others, other, hothers, hother, rfl⟩ := resolveCasts_branch_eq_ok.mp hm
      have harm := exists_of_mem_resolveArms hothers
      have hbody := exists_of_mem_resolveOther hother
      refine .branch (ne_nil_of_resolveArms hothers hne) ?_ ?_ ?_ ?_ ?_
      · intro o ho
        obtain ⟨arm, hmem, hc, -⟩ := harm o ho
        exact (hconditions arm hmem).resolve hc
      · intro o ho
        obtain ⟨arm, hmem, -, hb⟩ := harm o ho
        exact isSequence_of_resolveCasts (hblocks arm hmem) hb
      · intro o ho
        obtain ⟨arm, hmem, -, hb⟩ := harm o ho
        exact ihbodies arm hmem hb
      · intro b hb
        obtain ⟨body, hmem, hres⟩ := hbody b hb
        exact isSequence_of_resolveCasts (hblock body hmem) hres
      · intro b hb
        obtain ⟨body, hmem, hres⟩ := hbody b hb
        exact ihbody body hmem hres
  | loop hcondition hblock _ ih =>
      intro m hm
      rw [resolveCasts] at hm
      split at hm
      · cases hm
      · rename_i c hc
        obtain ⟨b, hb, rfl⟩ := map_eq_ok.mp hm
        exact .loop (hcondition.resolve hc) (isSequence_of_resolveCasts hblock hb) (ih hb)
  | giveBack h =>
      intro m hm
      obtain ⟨e, he, rfl⟩ := map_eq_ok.mp hm
      exact .giveBack (h.resolve he)
  | leave => intro m hm; cases hm; exact .leave
  | skip => intro m hm; cases hm; exact .skip

/-! ### Programs -/

/-- A text is read as a program in three steps. -/
theorem parse_eq_ok {source : String} {t : Node} :
    parse source = .ok t ↔
      ∃ ts nodes, Token.scanMeaning source.toList = .ok ts ∧ readStatements ts = .ok (nodes, []) ∧
        (sequence nodes).resolveCasts = .ok t := by
  unfold parse ofTokens Token.scan Token.scanMeaning
  constructor
  · intro h
    obtain ⟨tokens, hscan, h⟩ := bind_eq_ok.mp h
    obtain ⟨⟨nodes, rest⟩, hread, h⟩ := bind_eq_ok.mp h
    simp only at h
    split at h
    · rename_i hrest
      rw [List.isEmpty_iff.mp hrest] at hread
      exact ⟨_, nodes, map_eq_ok.mpr ⟨tokens, hscan, rfl⟩, hread, h⟩
    · cases h
  · rintro ⟨ts, nodes, hscan, hread, hresolve⟩
    obtain ⟨tokens, htokens, rfl⟩ := map_eq_ok.mp hscan
    exact bind_eq_ok.mpr ⟨tokens, htokens, bind_eq_ok.mpr ⟨(nodes, []), hread, hresolve⟩⟩

theorem allLexical_of_scanMeaning {cs : List Char} {ts : List Token}
    (h : Token.scanMeaning cs = .ok ts) : AllLexical ts := by
  obtain ⟨tokens, hscan, rfl⟩ := map_eq_ok.mp h
  intro t ht
  exact Token.isLexical_of_scanChars hscan t (List.mem_filter.mp ht).1

/-- A program is a block of statements of the known shape. -/
theorem isCode_of_parse {source : String} {t : Node} (h : parse source = .ok t) :
    IsCode true t ∧ t.isSequence = true := by
  obtain ⟨ts, nodes, hscan, hread, hresolve⟩ := parse_eq_ok.mp h
  have hnodes := (soundBelow _ ts nodes (Nat.lt_succ_self _) hread).isCode (allLexical_of_scanMeaning hscan)
  exact ⟨(IsCode.sequence hnodes).resolve hresolve, isSequence_of_resolveCasts rfl hresolve⟩

end Node

end ScriptLanguage
