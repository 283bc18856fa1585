/-
Names that are declared together get one value.

A declaration of several names with a value is read as a declaration of each name, and then an
assignment to each name with a copy of the expression.  So the expression is run as often as there
are names, each time in another context: all names have been declared by then, and may hide others,
and some have been given their value.

It comes to the same every time, because an expression sees only the names in it.  What is asked of
it is therefore that it has none of the declared names in it, as a variable, a function or the
datatype of a cast.  Operators need not be asked for, for no symbol is a name.
-/
import ScriptLanguage.Proofs.Hygiene
import ScriptLanguage.Proofs.Joining
import ScriptLanguage.Proofs.Operators
import ScriptLanguage.Proofs.ResolvedCasts
import ScriptLanguage.Proofs.StoreLaws
import ScriptLanguage.Proofs.Unrolling

namespace ScriptLanguage

open Evaluation

/-! ### Reading the declaration -/

/-- The tokens of a declaration: `var`, the names, their datatype, and the tokens `es` of a value. -/
inductive IsJointDeclaration (names : List String) (es : List Token) : (datatype : String) → List Token → Prop
  | mk {word datatype sign semicolon : Token} {ts : List Token} (hword : word.is .identifier "var" = true)
      (hnames : IsNames names ts) (hdatatype : datatype.kind = .identifier)
      (hsign : sign.is .operator "=" = true) (hes : ∀ t ∈ es, t.kind ≠ .terminator)
      (hsemicolon : semicolon.kind = .terminator) :
      IsJointDeclaration names es datatype.text (word :: (ts ++ datatype :: sign :: (es ++ [semicolon])))

/-- What is in front of the first semicolon. -/
theorem eq_of_append_terminator {es fs rest others : List Token} {t u : Token}
    (hes : ∀ x ∈ es, x.kind ≠ .terminator) (hfs : ∀ x ∈ fs, x.kind ≠ .terminator)
    (ht : t.kind = .terminator) (hu : u.kind = .terminator) (h : es ++ t :: rest = fs ++ u :: others) :
    es = fs ∧ rest = others := by
  induction es generalizing fs with
  | nil =>
      cases fs with
      | nil =>
          cases h
          exact ⟨rfl, rfl⟩
      | cons f fs =>
          cases h
          exact absurd ht (hfs t (by simp))
  | cons x es ih =>
      cases fs with
      | nil =>
          cases h
          exact absurd hu (hes u (by simp))
      | cons f fs =>
          obtain ⟨rfl, htail⟩ := List.cons.inj h
          obtain ⟨rfl, rfl⟩ := ih (List.forall_mem_cons.mp hes).2 (List.forall_mem_cons.mp hfs).2 htail
          exact ⟨rfl, rfl⟩

private theorem gives_readDeclaration_of_names {ts after rest rest' : List Token} {names : List String}
    {datatype : String} {nodes : List Node} (hnames : readNames ts = .ok (names, after))
    (hdatatype : readName after = .ok (datatype, rest)) (h : Gives (readDeclaration ts) nodes rest') :
    Gives (readInitializer names datatype rest) nodes rest' := by
  unfold readDeclaration at h
  split at h
  · exact absurd h gives_error
  · rename_i hnames'
    cases hnames.symm.trans hnames'
    split at h
    · exact absurd h gives_error
    · rename_i hdatatype'
      cases hdatatype.symm.trans hdatatype'
      exact gives_widen.mp h

namespace IsJointDeclaration

variable {names : List String} {es tokens : List Token} {datatype : String}

/-- Such a declaration is read as declarations of all names, and assignments to all of them. -/
theorem exists_of_readStatements {nodes : List Node} (h : IsJointDeclaration names es datatype tokens)
    (hread : readStatements tokens = .ok (nodes, [])) :
    ∃ e, IsExpression es e ∧
      nodes = names.map (fun name => .declaration name datatype)
        ++ names.map fun name => .assignment name e := by
  cases h with
  | @mk word datatype sign semicolon ts hword hnames hdatatype hsign hes hsemicolon =>
  obtain ⟨hopen, hkind, hkeyword⟩ := Token.keyword_of_is hword rfl
  obtain ⟨first, others, after, hfirst, hothers, rfl⟩ := (readStatements_cons hopen).mp hread
  have hdeclaration := (gives_readStatement_keyword hkind hkeyword).mp hfirst
  have hreadNames : readNames (ts ++ datatype :: sign :: (es ++ [semicolon]))
      = .ok (names, datatype :: sign :: (es ++ [semicolon])) :=
    readNames_eq_ok.mpr ⟨ts, rfl, hnames, by simp [Token.is, hdatatype]⟩
  have hinitializer := gives_readDeclaration_of_names hreadNames
    (readName_eq_ok.mpr ⟨datatype, rfl, hdatatype, rfl⟩) hdeclaration
  obtain ⟨us, assignments, hus, hvalue, rfl⟩ := gives_readInitializer.mp hinitializer
  cases hvalue with
  | absent hk =>
      cases hus
      rw [Token.kind_of_is hsign] at hk
      cases hk
  | @present sign' last es' e hsign' hes' hlast =>
      have htail : es ++ semicolon :: [] = es' ++ last :: after := by
        simpa using (List.cons.inj hus).2
      have hinside : ∀ x ∈ es', x.kind ≠ .terminator := by
        intro x hx hk
        have hborder := hes'.inside x hx
        rw [hk] at hborder
        cases hborder
      obtain ⟨rfl, rfl⟩ := eq_of_append_terminator hes hinside hsemicolon hlast htail
      rw [readStatements] at hothers
      cases hothers
      exact ⟨e, hes', by simp⟩

theorem names_ne_nil (h : IsJointDeclaration names es datatype tokens) : names ≠ [] := by
  obtain ⟨-, hnames, -, -, -, -⟩ := h
  cases hnames <;> exact List.cons_ne_nil _ _

theorem isName (h : IsJointDeclaration names es datatype tokens) (htokens : AllLexical tokens) :
    ∀ name ∈ names, Lexeme.isName name = true := by
  obtain ⟨-, hnames, -, -, -, -⟩ := h
  exact hnames.isName (allLexical_append.mp (allLexical_cons.mp htokens).2).1

theorem allLexical_value (h : IsJointDeclaration names es datatype tokens) (htokens : AllLexical tokens) :
    AllLexical es := by
  cases h
  intro t ht
  exact htokens t (by simp [ht])

/-- With its casts resolved, the expression is still the same one for all names. -/
theorem exists_of_parse {source : String} {nodes : List Node}
    (h : IsJointDeclaration names es datatype tokens) (hscan : Token.scanMeaning source.toList = .ok tokens)
    (hparse : Node.parse source = .ok (.sequence nodes)) :
    ∃ e₀ e, IsExpression es e₀ ∧ e₀.resolveCasts = .ok e ∧
      nodes = names.map (fun name => .declaration name datatype)
        ++ names.map fun name => .assignment name e := by
  obtain ⟨tokens', unresolved, hscan', hread, hresolve⟩ := Node.parse_eq_ok.mp hparse
  cases hscan.symm.trans hscan'
  obtain ⟨e₀, hexpression, rfl⟩ := h.exists_of_readStatements hread
  obtain ⟨_, hall, hnodes⟩ := map_eq_ok.mp hresolve
  cases hnodes
  obtain ⟨hresolvable, rfl⟩ := Node.resolveAll_eq_ok.mp hall
  obtain ⟨name, hname⟩ := List.exists_mem_of_ne_nil names h.names_ne_nil
  have hassignment : (Node.assignment name e₀).IsResolvable :=
    hresolvable _ (List.mem_append_right _ (List.mem_map_of_mem hname))
  obtain ⟨e, he, -⟩ := map_eq_ok.mp hassignment
  have hresolved : ∀ name, (Node.assignment name e₀).resolved = .assignment name e := by
    intro name
    rw [Node.resolved, Node.resolveCasts, he]
    rfl
  refine ⟨e₀, e, hexpression, he, ?_⟩
  rw [List.map_append, List.map_map, List.map_map]
  exact congrArg _ (List.map_congr_left fun name _ => hresolved name)

end IsJointDeclaration

/-! ### The names in the expression -/

namespace Node

/-- The name that a node looks up and that is a word in the text: of a variable, of a function or of
the datatype of a cast. -/
def ownWord? : Node → Option String
  | identifier name => some name
  | call name _ => some name
  | cast datatype _ => some datatype
  | _ => none

/-- The name stands somewhere in the tree for a variable, a function or a datatype. -/
def UsesWord (n : Node) (name : String) : Prop := ∃ m ∈ n.subtrees, m.ownWord? = some name

private theorem isName_of_mem_signs : ∀ symbol ∈ ["+", "-", "!"], Lexeme.isName symbol = false := by
  decide

private theorem isName_of_mem_binarySymbols :
    ∀ symbol ∈ OperatorTags.binarySymbols, Lexeme.isName symbol = false := by
  decide

/-- The symbol of an operator is no name. -/
theorem IsTerm.usesWord {e : Node} {resolved : Bool} {name : String} (he : IsTerm resolved e)
    (hname : Lexeme.isName name = true) (h : e.Mentions name) : e.UsesWord name := by
  obtain ⟨m, hm, hown⟩ := h
  refine ⟨m, hm, ?_⟩
  cases he.of_mem_subtrees hm with
  | identifier _ => exact hown
  | call _ _ => exact hown
  | cast _ _ _ => exact hown
  | unary hsymbol _ =>
      cases hown
      cases hname.symm.trans (isName_of_mem_signs _ hsymbol)
  | binary hsymbol _ _ _ =>
      cases hown
      cases hname.symm.trans (isName_of_mem_binarySymbols _ (OperatorTags.mem_binarySymbols hsymbol))
  | _ => cases hown

end Node

/-! ### Several names in the innermost scope -/

namespace Scopes

variable {name : String} {names : List String}

/-- Gives each of the names the entry in the innermost scope. -/
def defineAll (s : Scopes) (names : List String) (entry : Entry) : Scopes :=
  names.foldl (fun s name => s.define name entry) s

theorem get?_define_self (s : Scopes) (name : String) (entry : Entry) :
    (s.define name entry).innermost.get? name = some entry :=
  Entry.lookup_put_self ..

theorem get?_define_of_ne (s : Scopes) {other : String} (entry : Entry) (hne : other ≠ name) :
    (s.define name entry).innermost.get? other = s.innermost.get? other :=
  Entry.lookup_put_of_ne _ _ hne

private theorem get?_defineAll_of_not_mem (s : Scopes) (entry : Entry) (h : name ∉ names) :
    (s.defineAll names entry).innermost.get? name = s.innermost.get? name := by
  induction names generalizing s with
  | nil => rfl
  | cons first names ih =>
      have hfirst := s.get?_define_of_ne entry (List.ne_of_not_mem_cons h)
      exact (ih _ (List.not_mem_of_not_mem_cons h)).trans hfirst

theorem get?_defineAll_of_mem (s : Scopes) (entry : Entry) (h : name ∈ names) :
    (s.defineAll names entry).innermost.get? name = some entry := by
  induction names generalizing s with
  | nil => cases h
  | cons first names ih =>
      -- a name that comes again is defined again, so its first place does not matter
      by_cases hmem : name ∈ names
      · exact ih _ hmem
      · have hfirst : name = first := (List.mem_cons.mp h).resolve_right hmem
        subst hfirst
        exact (get?_defineAll_of_not_mem _ entry hmem).trans (s.get?_define_self name entry)

theorem lookup_defineAll_of_not_mem (s : Scopes) (entry : Entry) (h : name ∉ names) :
    (s.defineAll names entry).lookup name = s.lookup name := by
  induction names generalizing s with
  | nil => rfl
  | cons first names ih =>
      have hfirst := s.lookup_define_of_ne entry (List.ne_of_not_mem_cons h)
      exact (ih _ (List.not_mem_of_not_mem_cons h)).trans hfirst

theorem lookup_of_get? {s : Scopes} {entry : Entry} (h : s.innermost.get? name = some entry) :
    s.lookup name = some entry := by
  simp only [lookup, toList, List.findSome?_cons, h]

theorem All.defineAll {P : Entry → Prop} {entry : Entry} (names : List String) (hentry : P entry) :
    ∀ {s : Scopes}, s.All P → (s.defineAll names entry).All P := by
  induction names with
  | nil => exact fun h => h
  | cons name names ih => exact fun h => ih (h.define hentry)

end Scopes

/-! ### Running the declaration -/

variable {registry : Array Function} {fuel : Nat} {last v : Value} {c d d' : Context}

theorem Context.IsAtRest.defineAll {entry : Entry} (h : c.IsAtRest registry) (names : List String)
    (hentry : entry.IsSound registry) :
    ({ c with scopes := c.scopes.defineAll names entry } : Context).IsAtRest registry :=
  ⟨⟨h.sound.functions, h.sound.entries.defineAll names hentry, h.sound.returnValue⟩, h.quiet.flags,
    h.quiet.returnValue⟩

/-- Statements that succeed go on after the first one, unless it raises a flag. -/
theorem exists_of_runStatements_cons {ev : Node → Eval Value} {n : Node} {ns : List Node}
    (h : runStatements ev last (n :: ns) c = .value v d) :
    ∃ u c', ev n c = .value u c' ∧ (c'.flags.any = false → runStatements ev u ns c' = .value v d) := by
  rw [runStatements_cons] at h
  unfold Eval.bind at h
  split at h
  · rename_i u c' hn
    refine ⟨u, c', hn, fun hquiet => ?_⟩
    simpa only [hquiet, Bool.false_eq_true, if_false] using h
  · cases h
  · cases h

theorem change_eq_value {α : Type} {f : Context → Except RuntimeError α × Context} {a : α} :
    Eval.change f c = .value a d ↔ f c = (.ok a, d) := by
  unfold Eval.change
  split <;> simp_all

private theorem declare_of_evaluate {name datatype : String}
    (h : (Node.declaration name datatype).evaluate fuel c = .value v d) :
    c.declare name datatype = (.ok v, d) := by
  cases fuel with
  | zero => cases h
  | succ fuel =>
      rw [Node.evaluate] at h
      exact change_eq_value.mp h

/-- Declarations of one datatype that succeed have all found the same one.  A name that is the
datatype's own could only be the last. -/
theorem exists_of_run_declarations {names : List String} {datatype : String} {rest : List Node}
    (hne : names ≠ []) (hflags : c.flags.any = false)
    (h : runStatements (Node.evaluate fuel) last
      (names.map (fun name => .declaration name datatype) ++ rest) c = .value v d) :
    ∃ t last', c.datatype datatype = .ok t ∧ runStatements (Node.evaluate fuel) last' rest
      { c with scopes := c.scopes.defineAll names (.var ⟨some t, .null⟩) } = .value v d := by
  induction names generalizing c last with
  | nil => exact absurd rfl hne
  | cons name names ih =>
      obtain ⟨u, c', hc', hrest⟩ := exists_of_runStatements_cons h
      have hdeclare := declare_of_evaluate hc'
      obtain ⟨-, t, ht, rfl⟩ := Context.declare_eq_ok.mp hdeclare
      by_cases hlast : names = []
      · subst hlast
        exact ⟨t, u, ht, hrest hflags⟩
      · have hquiet : ({ c with scopes := c.scopes.define name (.var ⟨some t, .null⟩) } : Context).flags.any
            = false := hflags
        obtain ⟨t', last', ht', hrun⟩ := ih hlast hquiet (hrest hflags)
        -- a variable in the place of the datatype would have made the next declaration fail
        have hother : datatype ≠ name := by
          rintro rfl
          rw [Context.datatype, Context.lookup, Scopes.lookup_define_self] at ht'
          cases ht'
        have hsame : c.datatype datatype = .ok t' := by
          rw [← Context.datatype_congr (Context.lookup_declare_of_ne hdeclare hother)]
          exact ht'
        cases ht.symm.trans hsame
        exact ⟨t, last', ht, hrun⟩

/-- An assignment to a declared variable of the innermost scope converts the value and stays in that
scope. -/
theorem Context.assign_of_get? {name : String} {t : Datatype} {u w old : Value}
    (hget : c.scopes.innermost.get? name = some (.var ⟨some t, old⟩)) (h : c.assign name u = (.ok w, d)) :
    u.cast t = .ok w ∧ d = { c with scopes := c.scopes.define name (.var ⟨some t, w⟩) } := by
  have hlookup : c.lookup name = some (.var ⟨some t, old⟩) := Scopes.lookup_of_get? hget
  rcases assign_cases h with ⟨hnone, -⟩ | ⟨b, hb, haccept, rfl⟩
  · cases hnone.symm.trans hlookup
  · cases hb.symm.trans hlookup
    exact ⟨cast_of_accept haccept rfl, by rw [Scopes.replace_of_get? _ hget]⟩

/-- An assignment in one context and its expression in another, where the names in it stand for the
same: the variable gets the value that the expression has there. -/
private theorem exists_of_evaluate_assignment {name : String} {e : Node} {t : Datatype} {old : Value}
    (he : Node.IsTerm true e) (hc : c.IsAtRest registry) (hd : d.IsAtRest registry)
    (hagree : c.AgreeOn e.Mentions d) (hget : d.scopes.innermost.get? name = some (.var ⟨some t, old⟩))
    (h : (Node.assignment name e).evaluate fuel d = .value v d') :
    ∃ u text, e.evaluate fuel c = .value u (c.printed text) ∧ u.cast t = .ok v ∧
      d' = { d.printed text with scopes := d.scopes.define name (.var ⟨some t, v⟩) } ∧
      d'.IsAtRest registry := by
  cases fuel with
  | zero => cases h
  | succ fuel =>
      have hsame := he.seesOnly_evaluate fuel c d hc hd hagree
      have hliterals : e.LiteralsSound registry := he.literalsSound
      have hsound := Node.isContract_sound.evaluate fuel hliterals d hd.sound
      rw [Node.evaluate] at h
      replace h : Eval.bind (e.evaluate fuel) (fun u => Eval.change (·.assign name u)) d = .value v d' := h
      unfold Eval.bind at h
      generalize hx : e.evaluate fuel c = x at hsame
      generalize e.evaluate fuel d = y at hsame h hsound
      cases hsame with
      | error _ _ => cases h
      | outOfFuel _ => cases h
      | value u text =>
          obtain ⟨hu, hprinted⟩ := hsound
          have hassign : (d.printed text).assign name u = (.ok v, d') := change_eq_value.mp h
          have hanswers := hprinted.answers_assign hu name
          rw [hassign] at hanswers
          have hstill : (d.printed text).scopes.innermost.get? name = some (.var ⟨some t, old⟩) := hget
          obtain ⟨hcast, rfl⟩ := Context.assign_of_get? hstill hassign
          refine ⟨u, text, Node.evaluate_eq_of_le hx ?_ (Nat.le_succ fuel), hcast, rfl, hanswers.2, ?_⟩
          · intro hout
            cases hout
          · exact ⟨hd.quiet.flags, hd.quiet.returnValue⟩

/-- Assignments of one expression to declared variables of the innermost scope that are not in it. -/
private theorem exists_of_run_assignments {names : List String} {e : Node} {t : Datatype} (hne : names ≠ [])
    (he : Node.IsTerm true e) (hfree : ∀ name ∈ names, ¬ e.Mentions name) (hc : c.IsAtRest registry)
    (hd : d.IsAtRest registry) (hagree : c.AgreeOn e.Mentions d)
    (hget : ∀ name ∈ names, ∃ old, d.scopes.innermost.get? name = some (.var ⟨some t, old⟩))
    (h : runStatements (Node.evaluate fuel) last (names.map fun name => .assignment name e) d = .value v d') :
    ∃ u w text, e.evaluate fuel c = .value u (c.printed text) ∧ u.cast t = .ok w ∧
      d'.scopes = d.scopes.defineAll names (.var ⟨some t, w⟩) := by
  induction names generalizing d last with
  | nil => exact absurd rfl hne
  | cons name names ih =>
      obtain ⟨old, hold⟩ := hget name (List.mem_cons_self ..)
      obtain ⟨w, d₁, hd₁, hothers⟩ := exists_of_runStatements_cons h
      obtain ⟨u, text, hu, hcast, rfl, hatRest⟩ := exists_of_evaluate_assignment he hc hd hagree hold hd₁
      have hrest := hothers (ControlFlags.any_eq_false_iff.mpr hatRest.quiet.flags)
      by_cases hlast : names = []
      · subst hlast
        cases hrest
        exact ⟨u, _, text, hu, hcast, rfl⟩
      · have hstillAgree : c.AgreeOn e.Mentions
            { d.printed text with scopes := d.scopes.define name (.var ⟨some t, w⟩) } := by
          intro other hmention
          have hother : other ≠ name := by
            rintro rfl
            exact hfree other (List.mem_cons_self ..) hmention
          exact (hagree other hmention).trans (d.scopes.lookup_define_of_ne _ hother).symm
        have hstill : ∀ other ∈ names, ∃ old,
            (d.scopes.define name (.var ⟨some t, w⟩)).innermost.get? other = some (.var ⟨some t, old⟩) := by
          intro other hother
          by_cases hsame : other = name
          · subst hsame
            exact ⟨w, d.scopes.get?_define_self ..⟩
          · rw [d.scopes.get?_define_of_ne _ hsame]
            exact hget other (List.mem_cons_of_mem _ hother)
        obtain ⟨u', w', text', hu', hcast', hscopes⟩ := ih hlast
          (fun other hother => hfree other (List.mem_cons_of_mem _ hother)) hatRest hstillAgree hstill hrest
        -- the expression has the one value that it has in the context it is compared with
        obtain ⟨rfl, -⟩ := Outcome.value.inj (hu.symm.trans hu')
        cases hcast.symm.trans hcast'
        exact ⟨u, w, text, hu, hcast, hscopes⟩

/-- Take a source text that is one declaration of several names with a value, and can be read.  It is
run, and succeeds, in a context that occurs in a session, with no flag raised.  If none of the names
is in the expression of the value, then all names are variables of the innermost scope afterwards,
declared with the datatype that was named, and all have the same value: that of the expression before
the declaration, converted to the datatype. -/
theorem Context.declared_together {source : String} {names : List String} {datatype : String}
    {es tokens : List Token} {nodes : List Node} (hscan : Token.scanMeaning source.toList = .ok tokens)
    (htokens : IsJointDeclaration names es datatype tokens)
    (hparse : Node.parse source = .ok (.sequence nodes)) :
    ∃ e₀ e, IsExpression es e₀ ∧ e₀.resolveCasts = .ok e ∧
      nodes = names.map (fun name => .declaration name datatype)
        ++ names.map (fun name => .assignment name e) ∧
      ∀ c fuel last v d, Session.new.context.LeadsTo Node.IsRead c → c.flags.any = false →
        (∀ name ∈ names, ¬ e.UsesWord name) → runStatements (Node.evaluate fuel) last nodes c = .value v d →
        ∃ t u w text, c.datatype datatype = .ok t ∧ e.evaluate fuel c = .value u (c.printed text) ∧
          u.cast t = .ok w ∧ ∀ name ∈ names, d.scopes.innermost.get? name = some (.var ⟨some t, w⟩) := by
  obtain ⟨e₀, e, hexpression, hresolve, rfl⟩ := htokens.exists_of_parse hscan hparse
  refine ⟨e₀, e, hexpression, hresolve, rfl, ?_⟩
  intro c fuel last v d hc hflags hwords hrun
  have hlexical := Node.allLexical_of_scanMeaning hscan
  have he : Node.IsTerm true e := (hexpression.isTerm (htokens.allLexical_value hlexical)).resolve hresolve
  have hfree : ∀ name ∈ names, ¬ e.Mentions name := fun name hname hmention =>
    hwords name hname (he.usesWord (htokens.isName hlexical name hname) hmention)
  have hcrest := isAtRest_of_leadsTo hc hflags
  obtain ⟨t, last', ht, hrun⟩ := exists_of_run_declarations htokens.names_ne_nil hflags hrun
  have hnull : Entry.IsSound Session.new.context.functions (.var ⟨some t, .null⟩) := Value.isSound_null
  have hagree : c.AgreeOn e.Mentions
      { c with scopes := c.scopes.defineAll names (.var ⟨some t, .null⟩) } := fun name hmention =>
    (c.scopes.lookup_defineAll_of_not_mem _ fun hname => hfree name hname hmention).symm
  obtain ⟨u, w, text, hu, hcast, hscopes⟩ := exists_of_run_assignments htokens.names_ne_nil he hfree hcrest
    (hcrest.defineAll names hnull) hagree (fun _ hname => ⟨_, c.scopes.get?_defineAll_of_mem _ hname⟩) hrun
  refine ⟨t, u, w, text, ht, hu, hcast, fun name hname => ?_⟩
  rw [hscopes]
  exact Scopes.get?_defineAll_of_mem _ _ hname

/-- Two names, of which one hides a variable around the block, get a sum as a text. -/
theorem Context.declared_together_in_block :
    ∃ (s : Session) (tokens es : List Token) (nodes : List Node) (d : Context), s.Reachable ∧
      s.context.find "a" = .ok ((Value.bool true).withName "a") ∧
      Token.scanMeaning "var a : b string = x + 1;".toList = .ok tokens ∧
      IsJointDeclaration ["a", "b"] es "string" tokens ∧
      Node.parse "var a : b string = x + 1;" = .ok (.sequence nodes) ∧
      runStatements (Node.evaluate 9) .null nodes s.context.pushScope = .value (.string "3") d ∧
      ∃ t u w text,
        (Node.operation "+" [.identifier "x", .literal (.int 1)] (.binary 4 true)).evaluate 9
          s.context.pushScope = .value u (s.context.pushScope.printed text) ∧ u.cast t = .ok w ∧
        ∀ name ∈ ["a", "b"], d.scopes.innermost.get? name = some (.var ⟨some t, w⟩) := by
  have hset : Node.parse "x = 2; a = true;" = .ok (.sequence [.assignment "x" (.literal (.int 2)),
      .assignment "a" (.literal (.bool true))]) := by cbv
  have hscan : Token.scanMeaning "var a : b string = x + 1;".toList = .ok
      [⟨.identifier, "var"⟩, ⟨.identifier, "a"⟩, ⟨.operator, ":"⟩, ⟨.identifier, "b"⟩, ⟨.identifier, "string"⟩,
        ⟨.operator, "="⟩, ⟨.identifier, "x"⟩, ⟨.operator, "+"⟩, ⟨.number, "1"⟩, ⟨.terminator, ";"⟩] := by cbv
  have hparse : Node.parse "var a : b string = x + 1;" = .ok (.sequence
      [.declaration "a" "string", .declaration "b" "string",
        .assignment "a" (.operation "+" [.identifier "x", .literal (.int 1)] (.binary 4 true)),
        .assignment "b" (.operation "+" [.identifier "x", .literal (.int 1)] (.binary 4 true))]) := by cbv
  have hruns : ∃ s d, Session.new.interpret? 9 "x = 2; a = true;" = some (.ok (.bool true), s) ∧
      s.context.find "a" = .ok ((Value.bool true).withName "a") ∧
      s.context.pushScope.flags.any = false ∧
      runStatements (Node.evaluate 9) .null [.declaration "a" "string", .declaration "b" "string",
        .assignment "a" (.operation "+" [.identifier "x", .literal (.int 1)] (.binary 4 true)),
        .assignment "b" (.operation "+" [.identifier "x", .literal (.int 1)] (.binary 4 true))]
        s.context.pushScope = .value (.string "3") d := by
    unfold Session.interpret?
    rw [hset]
    exact ⟨_, _, rfl, rfl, rfl, rfl⟩
  obtain ⟨s, d, hs, ha, hflags, hrun⟩ := hruns
  have hreach : s.Reachable := .interpret .new hs
  have hnames : IsNames ["a", "b"] [⟨.identifier, "a"⟩, ⟨.operator, ":"⟩, ⟨.identifier, "b"⟩] :=
    @IsNames.cons ⟨.identifier, "a"⟩ ⟨.operator, ":"⟩ _ _ rfl rfl (@IsNames.single ⟨.identifier, "b"⟩ rfl)
  have htokens := @IsJointDeclaration.mk _ [⟨.identifier, "x"⟩, ⟨.operator, "+"⟩, ⟨.number, "1"⟩]
    ⟨.identifier, "var"⟩ ⟨.identifier, "string"⟩ ⟨.operator, "="⟩ ⟨.terminator, ";"⟩ _ rfl hnames rfl rfl
    (by decide) rfl
  obtain ⟨e₀, e, -, -, hnodes, hvalues⟩ := declared_together hscan htokens hparse
  cases hnodes
  have hwords : ∀ name ∈ ["a", "b"], ¬ (Node.operation "+" [.identifier "x", .literal (.int 1)]
      (.binary 4 true)).UsesWord name := by
    rintro name hname ⟨m, hm, hword⟩
    simp only [Node.subtrees, Node.allSubtrees, List.append_nil, List.cons_append, List.nil_append,
      List.mem_cons, List.not_mem_nil, or_false] at hm
    rcases hm with rfl | rfl | rfl <;> cases hword
    simp at hname
  obtain ⟨t, u, w, text, -, hu, hcast, hnames⟩ :=
    hvalues _ 9 .null _ d (.pushScope hreach.leadsTo) hflags hwords hrun
  exact ⟨s, _, _, _, d, hreach, ha, hscan, htokens, hparse, hrun, t, u, w, text, hu, hcast, hnames⟩

end ScriptLanguage
