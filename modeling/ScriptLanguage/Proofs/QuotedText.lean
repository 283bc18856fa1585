/-
Which texts can be read back from their quoted form.

A value that is a text is displayed between quotes, and nothing inside is marked.  The scanner
reads it with other eyes: a quote ends the string, and a backslash takes the next character along
and stands for one character together with it.

Each element of a string stands for one character, so a string token never stands for more
characters than there are between its quotes.  It stands for as many only if no element is an
escape.  A displayed text is therefore read back if the whole of it is one string without escapes;
otherwise nothing is read, or several tokens are, or one that stands for a shorter text.  The last
happens in two ways: an escape has been resolved, or what follows the string is a comment.
-/
import ScriptLanguage.Proofs.Display
import ScriptLanguage.Proofs.TokenLanguage

namespace ScriptLanguage

open Lexeme Pattern

/-! ### Elements of a string -/

namespace Token

variable {parts : List (List Char)}

private theorem unescape_element {e : List Char} (he : e ∈ stringElement) (rest : List Char) :
    ∃ c, unescape (e ++ rest) = c :: unescape rest := by
  rcases stringElement_cases he with ⟨c, rfl, -, hescape⟩ | ⟨c, rfl, -⟩
  · refine ⟨c, ?_⟩
    rw [List.singleton_append, unescape.eq_def]
    split <;> simp_all
  · exact ⟨escaped c, rfl⟩

/-- Each element stands for one character. -/
theorem length_unescape_flatten (hparts : ∀ e ∈ parts, e ∈ stringElement) :
    (unescape parts.flatten).length = parts.length := by
  induction parts with
  | nil => rfl
  | cons e parts ih =>
      obtain ⟨he, hparts⟩ := List.forall_mem_cons.mp hparts
      obtain ⟨c, hc⟩ := unescape_element he parts.flatten
      rw [List.flatten_cons, hc, List.length_cons, List.length_cons, ih hparts]

theorem length_le_length_flatten (hparts : ∀ e ∈ parts, e ∈ stringElement) :
    parts.length ≤ parts.flatten.length := by
  induction parts with
  | nil => exact Nat.le_refl _
  | cons e parts ih =>
      obtain ⟨he, hparts⟩ := List.forall_mem_cons.mp hparts
      have hone : 1 ≤ e.length := by
        rcases stringElement_cases he with ⟨c, rfl, -⟩ | ⟨c, rfl, -⟩ <;> simp
      rw [List.flatten_cons, List.length_append, List.length_cons, Nat.add_comm]
      exact Nat.add_le_add hone (ih hparts)

/-- As many elements as characters: then each character is one, and none of them is special. -/
theorem plain_of_length_flatten_le (hparts : ∀ e ∈ parts, e ∈ stringElement)
    (hlength : parts.flatten.length ≤ parts.length) : '"' ∉ parts.flatten ∧ '\\' ∉ parts.flatten := by
  induction parts with
  | nil => simp
  | cons e parts ih =>
      obtain ⟨he, hrests⟩ := List.forall_mem_cons.mp hparts
      have hrest := length_le_length_flatten hrests
      rw [List.flatten_cons, List.length_append, List.length_cons] at hlength
      rcases stringElement_cases he with ⟨c, rfl, hquote, hescape⟩ | ⟨c, rfl, -⟩
      · obtain ⟨ihquote, ihescape⟩ := ih hrests (by simpa [Nat.add_comm] using hlength)
        simp [hquote.symm, hescape.symm, ihquote, ihescape]
      · have htwo : ['\\', c].length = 2 := rfl
        omega

/-! ### String tokens -/

theorem unquote_ofList (body : List Char) :
    unquote (String.ofList ('"' :: (body ++ ['"']))) = String.ofList (unescape body) := by
  simp [unquote, stripQuotes]

/-- A text that starts with a quote is scanned as a string and what follows it, or not at all. -/
theorem scanChars_quote (cs : List Char) :
    (∃ e, scanChars ('"' :: cs) = .error e) ∨
      ∃ (parts : List (List Char)) (rest : List Char),
        (∀ e ∈ parts, e ∈ stringElement) ∧ cs = parts.flatten ++ '"' :: rest ∧
        scanChars ('"' :: cs)
          = (scanChars rest).map (⟨.string, String.ofList ('"' :: (parts.flatten ++ ['"']))⟩ :: ·) := by
  have hfirst : first '"' cs = Lexeme.string cs := rfl
  unfold Lexeme.string at hfirst
  split at hfirst
  · rename_i v rest hbody
    obtain ⟨hv, rfl⟩ := mem_of_stringBody hbody
    obtain ⟨_, helements, quote, hquote, rfl⟩ := Language.mem_mul.mp hv
    obtain ⟨parts, rfl, hparts⟩ := Language.mem_kstar.mp helements
    rw [mem_anyOf_single.mp hquote] at hfirst ⊢
    refine .inr ⟨parts, rest, hparts, by simp, ?_⟩
    exact scanChars_of_token hfirst
  · rename_i body hbody
    refine .inl ⟨.unexpectedCharacter (String.ofList ('"' :: body)), ?_⟩
    rw [scanChars]
    split
    · rename_i h
      cases hfirst.symm.trans h
    · rename_i h
      cases hfirst.symm.trans h
    · rename_i h
      cases hfirst.symm.trans h
      rfl

end Token

/-! ### Displayed texts -/

namespace Value

variable {s : String}

private theorem toList_text_string (s : String) : (Value.string s).text.toList = '"' :: (s.toList ++ ['"']) :=
  Token.toList_quoted s

/-- What is scanned of a displayed text: nothing, several tokens, or one string token.  This
stands for a text that is shorter, unless the text has neither quotes nor backslashes. -/
theorem scan_text_string_cases (s : String) :
    (∃ e, Token.scan (Value.string s).text = .error e) ∨
      (∃ t more, more ≠ [] ∧ Token.scan (Value.string s).text = .ok (t :: more)) ∨
      ∃ t, Token.scan (Value.string s).text = .ok [t] ∧ t.kind = .string ∧
        ((Token.unquote t.text).length < s.length ∨ '"' ∉ s.toList ∧ '\\' ∉ s.toList) := by
  rw [Token.scan, toList_text_string]
  rcases Token.scanChars_quote (s.toList ++ ['"']) with herror | ⟨parts, rest, hparts, hsplit, hscan⟩
  · exact .inl herror
  rw [hscan]
  cases hrest : Token.scanChars rest with
  | error e => exact .inl ⟨e, rfl⟩
  | ok more =>
      by_cases hmore : more = []
      · refine .inr (.inr ⟨_, by rw [hmore]; rfl, rfl, ?_⟩)
        rw [Token.unquote_ofList, String.length_ofList, Token.length_unescape_flatten hparts]
        have hlength := congrArg List.length hsplit
        simp only [List.length_append, List.length_cons, List.length_nil, String.length_toList] at hlength
        have hle := Token.length_le_length_flatten hparts
        by_cases hshorter : parts.length < s.length
        · exact .inl hshorter
        · -- nothing is left for a comment, and nothing for an escape
          have hnil : rest = [] := List.eq_nil_of_length_eq_zero (by omega)
          rw [hnil] at hsplit
          rw [List.append_cancel_right hsplit]
          exact .inr (Token.plain_of_length_flatten_le hparts (by omega))
      · exact .inr (.inl ⟨_, more, hmore, rfl⟩)

private theorem scan_text_string_of_plain (hquote : '"' ∉ s.toList) (hescape : '\\' ∉ s.toList) :
    Token.scan (Value.string s).text = .ok [⟨.string, quoted s⟩] := by
  rw [Token.scan, toList_text_string, Token.scanChars_of_token (Token.first_quoted hquote hescape []),
    Token.scanChars]
  rfl

/-- A displayed text is read back as one string token that stands for it if and only if it has
neither quotes nor backslashes.  Any other text is not scanned at all, or into several tokens,
or into one string token that stands for a shorter text. -/
theorem string_reads_back_iff (s : String) :
    ((∃ t, Token.scan (Value.string s).text = .ok [t] ∧ t.kind = .string ∧ Token.unquote t.text = s) ↔
        '"' ∉ s.toList ∧ '\\' ∉ s.toList) ∧
      ('"' ∈ s.toList ∨ '\\' ∈ s.toList →
        (∃ e, Token.scan (Value.string s).text = .error e) ∨
          (∃ t more, more ≠ [] ∧ Token.scan (Value.string s).text = .ok (t :: more)) ∨
          ∃ t, Token.scan (Value.string s).text = .ok [t] ∧ t.kind = .string ∧
            (Token.unquote t.text).length < s.length) := by
  refine ⟨⟨?_, ?_⟩, ?_⟩
  · rintro ⟨t, hscan, -, hunquote⟩
    rcases scan_text_string_cases s with ⟨e, herror⟩ | ⟨u, more, hmore, hseveral⟩ | ⟨u, hone, -, hu⟩
    · rw [herror] at hscan
      cases hscan
    · rw [hseveral] at hscan
      cases hscan
      exact absurd rfl hmore
    · rw [hone] at hscan
      cases hscan
      rw [hunquote] at hu
      exact hu.resolve_left (Nat.lt_irrefl _)
  · rintro ⟨hquote, hescape⟩
    exact ⟨_, scan_text_string_of_plain hquote hescape, rfl, Node.unquote_quoted hescape⟩
  · intro hspecial
    rcases scan_text_string_cases s with herror | hseveral | ⟨t, hone, hkind, hshorter | hplain⟩
    · exact .inl herror
    · exact .inr (.inl hseveral)
    · exact .inr (.inr ⟨t, hone, hkind, hshorter⟩)
    · exact absurd hspecial (by simp [hplain])

/-- The quote inside this text ends the string, and the rest is taken for a comment. -/
theorem string_reads_back_shortened :
    ('"' ∈ "a\"//".toList ∨ '\\' ∈ "a\"//".toList) ∧
      Token.scan (Value.string "a\"//").text = .ok [⟨.string, "\"a\""⟩] ∧
      Token.unquote "\"a\"" = "a" ∧
      ¬ ∃ t, Token.scan (Value.string "a\"//").text = .ok [t] ∧ t.kind = .string ∧
        Token.unquote t.text = "a\"//" := by
  have hquote : '"' ∈ "a\"//".toList := by decide
  refine ⟨.inl hquote, by cbv, by cbv, ?_⟩
  intro h
  exact ((string_reads_back_iff "a\"//").1.mp h).1 hquote

end Value

end ScriptLanguage
