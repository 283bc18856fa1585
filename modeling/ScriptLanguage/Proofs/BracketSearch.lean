/-
What the search for a closing bracket finds.

The search goes by a counter, and nothing between the brackets is read.  Here it is held
against plain counting: the bracket that closes the first one is the end of the shortest
beginning of the list in which there are as many closing brackets as opening ones.

  * Such an end is found if there is one, and nothing else is ever found.
  * What comes after it has no part in the answer.
  * The counter is never taken below zero.  `countedIndex?` is the search with a counter
    that cannot be, and its answers are the same.

Balanced lists are counted in the same way, so what the search cuts out is balanced.
-/
import ScriptLanguage.Proofs.Bracket

namespace ScriptLanguage

namespace Token

variable {opening closing : TokenKind} {depth after i : Nat} {t : Token} {ts : List Token}

/-- The number of tokens of a kind. -/
def count (kind : TokenKind) (ts : List Token) : Nat := ts.countP (·.kind == kind)

theorem count_append (kind : TokenKind) (ts us : List Token) :
    count kind (ts ++ us) = count kind ts + count kind us :=
  List.countP_append

theorem count_cons (kind : TokenKind) (t : Token) (ts : List Token) :
    count kind (t :: ts) = count kind [t] + count kind ts :=
  count_append kind [t] ts

theorem count_of_kind {kind : TokenKind} (h : t.kind = kind) : count kind [t] = 1 := by
  simp [count, h]

theorem count_of_kind_ne {kind : TokenKind} (h : t.kind ≠ kind) : count kind [t] = 0 := by
  simp [count, h]

/-! ### Depth is a difference of counts -/

/-- A token changes the depth by what it counts. -/
theorem depthStep?_eq_some_iff (hne : opening ≠ closing) :
    depthStep? opening closing depth t = some after ↔
      depth + count opening [t] = after + count closing [t] := by
  unfold depthStep?
  by_cases hopening : t.kind = opening
  · have hclosing : t.kind ≠ closing := hopening ▸ hne
    rw [if_pos hopening, count_of_kind hopening, count_of_kind_ne hclosing, Option.some.injEq]
    rfl
  · rw [if_neg hopening, count_of_kind_ne hopening]
    by_cases hclosing : t.kind = closing
    · rw [if_pos hclosing, count_of_kind hclosing]
      by_cases hzero : depth = 0
      · simp [hzero]
      · rw [if_neg hzero, Option.some.injEq]
        omega
    · rw [if_neg hclosing, count_of_kind_ne hclosing, Option.some.injEq]
      rfl

/-- The depth after a list is there as long as no beginning of the list closes more than is
open, and it is what is left open. -/
theorem depthAfter?_eq_some_iff (hne : opening ≠ closing) :
    depthAfter? opening closing depth ts = some after ↔
      depth + count opening ts = after + count closing ts ∧
        ∀ k, count closing (ts.take k) ≤ depth + count opening (ts.take k) := by
  induction ts generalizing depth with
  | nil =>
      show some depth = some after ↔ _
      simp [count]
  | cons t ts ih =>
      rw [depthAfter?_cons, Option.bind_eq_some_iff]
      rw [count_cons opening, count_cons closing]
      constructor
      · rintro ⟨next, hnext, hrest⟩
        rw [depthStep?_eq_some_iff hne] at hnext
        obtain ⟨htotal, hpart⟩ := ih.mp hrest
        refine ⟨by omega, fun k => ?_⟩
        cases k with
        | zero => exact Nat.zero_le _
        | succ k =>
            have hk := hpart k
            rw [List.take_succ_cons, count_cons opening, count_cons closing]
            omega
      · rintro ⟨htotal, hpart⟩
        have hfirst := hpart 1
        rw [List.take_succ_cons, List.take_zero] at hfirst
        refine ⟨depth + count opening [t] - count closing [t], ?_, ih.mpr ⟨by omega, fun k => ?_⟩⟩
        · rw [depthStep?_eq_some_iff hne]
          omega
        · have hk := hpart (k + 1)
          rw [List.take_succ_cons, count_cons opening, count_cons closing] at hk
          omega

/-- A list is balanced if it closes as many brackets as it opens, and no beginning of it
closes more than it has opened. -/
theorem balanced_iff_count (hne : opening ≠ closing) :
    Balanced opening closing ts ↔
      count opening ts = count closing ts ∧
        ∀ k, count closing (ts.take k) ≤ count opening (ts.take k) := by
  unfold Balanced
  rw [depthAfter?_eq_some_iff hne]
  simp only [Nat.zero_add]

/-! ### What the search finds -/

/-- The brackets that are open, `depth` of them, and those of the list are closed at index `i`
and not before. -/
structure Settles (opening closing : TokenKind) (depth : Nat) (ts : List Token) (i : Nat) : Prop where
  inside : i < ts.length
  even : depth + count opening (ts.take (i + 1)) = count closing (ts.take (i + 1))
  more : ∀ k, 0 < k → k ≤ i → count closing (ts.take k) < depth + count opening (ts.take k)

/-- A token that leaves a bracket open settles nothing. -/
theorem settles_cons (hafter : 0 < after)
    (hstep : depth + count opening [t] = after + count closing [t]) :
    Settles opening closing depth (t :: ts) i ↔ ∃ j, Settles opening closing after ts j ∧ j + 1 = i := by
  constructor
  · rintro ⟨hinside, heven, hmore⟩
    cases i with
    | zero =>
        rw [List.take_succ_cons, List.take_zero] at heven
        omega
    | succ i =>
        rw [List.take_succ_cons, count_cons opening, count_cons closing] at heven
        refine ⟨i, ⟨Nat.lt_of_succ_lt_succ hinside, by omega, fun k _ hk => ?_⟩, rfl⟩
        have hk' := hmore (k + 1) (Nat.succ_pos k) (by omega)
        rw [List.take_succ_cons, count_cons opening, count_cons closing] at hk'
        omega
  · rintro ⟨j, ⟨hinside, heven, hmore⟩, rfl⟩
    refine ⟨Nat.succ_lt_succ hinside, ?_, fun k hpos hk => ?_⟩
    · rw [List.take_succ_cons, count_cons opening, count_cons closing]
      omega
    · obtain ⟨k, rfl⟩ := Nat.exists_eq_succ_of_ne_zero (Nat.ne_of_gt hpos)
      rw [Nat.succ_eq_add_one, List.take_succ_cons, count_cons opening, count_cons closing]
      by_cases hzero : k = 0
      · rw [hzero, List.take_zero]
        have hnone : count opening [] = 0 ∧ count closing [] = 0 := ⟨rfl, rfl⟩
        omega
      · have hk' := hmore k (by omega) (by omega)
        omega

private theorem settles_last (hopening : t.kind ≠ opening) (hclosing : t.kind = closing) :
    Settles opening closing 1 (t :: ts) i ↔ i = 0 := by
  constructor
  · intro h
    by_cases hi : 1 ≤ i
    · have hone := h.more 1 Nat.one_pos hi
      rw [List.take_succ_cons, List.take_zero, count_of_kind hclosing, count_of_kind_ne hopening] at hone
      omega
    · omega
  · rintro rfl
    refine ⟨Nat.succ_pos _, ?_, fun k hpos hk => absurd hk (Nat.not_le.mpr hpos)⟩
    rw [List.take_succ_cons, List.take_zero, count_of_kind hclosing, count_of_kind_ne hopening]

/-- The search with open brackets finds where they are closed. -/
theorem closingIndex?_eq_some_iff (hne : opening ≠ closing) (hdepth : 0 < depth) :
    closingIndex? opening closing depth ts = some i ↔ Settles opening closing depth ts i := by
  induction ts generalizing depth i with
  | nil =>
      constructor
      · intro h
        cases h
      · intro h
        exact absurd h.inside (Nat.not_lt_zero _)
  | cons t ts ih =>
      rw [closingIndex?]
      by_cases hopening : t.kind = opening
      · have hclosing : t.kind ≠ closing := hopening ▸ hne
        rw [if_pos hopening, Option.map_eq_some_iff, settles_cons (Nat.succ_pos depth)]
        · simp only [ih (Nat.succ_pos depth)]
        · rw [count_of_kind hopening, count_of_kind_ne hclosing]
      · rw [if_neg hopening]
        by_cases hclosing : t.kind = closing
        · rw [if_pos hclosing]
          by_cases hlast : depth ≤ 1
          · obtain rfl : depth = 1 := by omega
            rw [if_pos hlast, settles_last hopening hclosing, Option.some.injEq, eq_comm]
          · have hbefore : 0 < depth - 1 := by omega
            rw [if_neg hlast, Option.map_eq_some_iff, settles_cons hbefore]
            · simp only [ih hbefore]
            · rw [count_of_kind hclosing, count_of_kind_ne hopening]
              omega
        · rw [if_neg hclosing, Option.map_eq_some_iff, settles_cons hdepth]
          · simp only [ih hdepth]
          · rw [count_of_kind_ne hclosing, count_of_kind_ne hopening]

/-- The first token is an opening bracket, and it is closed at index `i`: the tokens up to
there hold as many opening as closing brackets, and every shorter beginning of the list
holds more opening ones. -/
structure Closes (opening closing : TokenKind) (ts : List Token) (i : Nat) : Prop where
  first : ts.head?.any (·.kind == opening) = true
  inside : i < ts.length
  even : count opening (ts.take (i + 1)) = count closing (ts.take (i + 1))
  more : ∀ k, 0 < k → k ≤ i → count closing (ts.take k) < count opening (ts.take k)

theorem closes_iff_settles :
    Closes opening closing ts i ↔
      ts.head?.any (·.kind == opening) = true ∧ Settles opening closing 0 ts i := by
  constructor
  · rintro ⟨hfirst, hinside, heven, hmore⟩
    exact ⟨hfirst, hinside, by rwa [Nat.zero_add], by simpa only [Nat.zero_add] using hmore⟩
  · rintro ⟨hfirst, hinside, heven, hmore⟩
    exact ⟨hfirst, hinside, by rwa [Nat.zero_add] at heven, by simpa only [Nat.zero_add] using hmore⟩

theorem matchingIndex?_cons (hfirst : t.kind = opening) :
    matchingIndex? opening closing (t :: ts) = (closingIndex? opening closing 1 ts).map (· + 1) := by
  rw [matchingIndex?, if_pos hfirst, closingIndex?, if_pos hfirst]

theorem matchingIndex?_cons_of_ne (hfirst : t.kind ≠ opening) :
    matchingIndex? opening closing (t :: ts) = none := by
  rw [matchingIndex?, if_neg hfirst]

theorem matchingIndex?_eq_some_iff (hne : opening ≠ closing) :
    matchingIndex? opening closing ts = some i ↔ Closes opening closing ts i := by
  cases ts with
  | nil =>
      constructor
      · intro h
        cases h
      · intro h
        exact absurd h.inside (Nat.not_lt_zero _)
  | cons t ts =>
      by_cases hfirst : t.kind = opening
      · have hstep : 0 + count opening [t] = 1 + count closing [t] := by
          rw [count_of_kind hfirst, count_of_kind_ne (hfirst ▸ hne)]
        rw [matchingIndex?_cons hfirst, closes_iff_settles, settles_cons Nat.one_pos hstep,
          Option.map_eq_some_iff]
        simp [closingIndex?_eq_some_iff hne, hfirst]
      · rw [matchingIndex?_cons_of_ne hfirst]
        constructor
        · intro h
          cases h
        · intro h
          exact absurd (by simpa using h.first) hfirst

theorem matchingIndex?_eq_none_iff (hne : opening ≠ closing) :
    matchingIndex? opening closing ts = none ↔ ¬ ∃ i, Closes opening closing ts i := by
  simp only [← matchingIndex?_eq_some_iff hne]
  rw [Option.eq_none_iff_forall_ne_some, not_exists]

/-- What is cut out between the two brackets is balanced. -/
theorem balanced_between (hne : opening ≠ closing) (h : matchingIndex? opening closing ts = some i) :
    Balanced opening closing (between ts i) := by
  obtain ⟨first, last, hfirst, hlast, hts⟩ := exists_enclose_of_matchingIndex? h
  have hlength : (between ts i).length + 1 = i := by
    have := matchingIndex?_lt h
    have := one_le_of_matchingIndex? h
    simp only [between, List.length_drop, List.length_take]
    omega
  obtain ⟨-, -, heven, hmore⟩ := (matchingIndex?_eq_some_iff hne).mp h
  have hopen : count opening [first] = 1 := count_of_kind hfirst
  have hopen' : count closing [first] = 0 := count_of_kind_ne (hfirst ▸ hne)
  have hclose : count closing [last] = 1 := count_of_kind hlast
  have hclose' : count opening [last] = 0 := count_of_kind_ne (hlast ▸ hne.symm)
  -- The beginnings of the list are those of the part between, with the first bracket before them.
  generalize between ts i = inner at hts hlength ⊢
  generalize ts.drop (i + 1) = rest at hts
  subst hts hlength
  rw [balanced_iff_count hne]
  constructor
  · have hall : (first :: inner ++ last :: rest).take (inner.length + 1 + 1) = first :: (inner ++ [last]) := by
      rw [List.cons_append, List.take_succ_cons, List.take_length_add_append]
      rfl
    rw [hall] at heven
    rw [count_cons opening, count_cons closing, count_append, count_append] at heven
    omega
  · intro k
    by_cases hk : k ≤ inner.length
    · have hbeginning := hmore (k + 1) (Nat.succ_pos k) (by omega)
      rw [List.cons_append, List.take_succ_cons, List.take_append_of_le_length hk,
        count_cons opening, count_cons closing] at hbeginning
      omega
    · have hbeginning := hmore (inner.length + 1) (Nat.succ_pos _) (Nat.le_refl _)
      rw [List.cons_append, List.take_succ_cons, List.take_left, count_cons opening,
        count_cons closing] at hbeginning
      rw [List.take_of_length_le (by omega)]
      omega

/-- Tokens behind the closing bracket have no part in the answer. -/
theorem matchingIndex?_append (hne : opening ≠ closing) (h : matchingIndex? opening closing ts = some i)
    (more : List Token) : matchingIndex? opening closing (ts ++ more) = some i := by
  obtain ⟨hfirst, hinside, heven, hmore⟩ := (matchingIndex?_eq_some_iff hne).mp h
  refine (matchingIndex?_eq_some_iff hne).mpr ⟨?_, ?_, ?_, fun k hpos hk => ?_⟩
  · cases ts with
    | nil => cases hfirst
    | cons t ts => exact hfirst
  · rw [List.length_append]
    omega
  · rw [List.take_append_of_le_length hinside]
    exact heven
  · rw [List.take_append_of_le_length (by omega)]
    exact hmore k hpos hk

/-- Where the search for a closing bracket finds none, no bracket is closed that is not open. -/
private theorem exists_depthAfter?_of_none (h : closingIndex? opening closing (depth + 1) ts = none) :
    ∃ after, depthAfter? opening closing depth ts = some after := by
  induction ts generalizing depth with
  | nil => exact ⟨depth, rfl⟩
  | cons t ts ih =>
      rw [depthAfter?_cons]
      cases hstep : depthStep? opening closing depth t with
      | some after =>
          rw [closingIndex?_cons ts hstep, Option.map_eq_none_iff] at h
          exact ih h
      | none =>
          unfold depthStep? at hstep
          split at hstep
          · cases hstep
          · rename_i hopening
            split at hstep
            · rename_i hclosing
              split at hstep
              · rename_i hzero
                rw [closingIndex?, if_neg hopening, if_pos hclosing, if_pos (by omega)] at h
                cases h
              · cases hstep
            · cases hstep

/-- The tokens behind a bracket that is closed nowhere close only what they open. -/
theorem exists_depthAfter?_of_unmatched {t : Token} (hfirst : t.kind = opening)
    (h : matchingIndex? opening closing (t :: ts) = none) :
    ∃ after, depthAfter? opening closing 0 ts = some after := by
  rw [matchingIndex?_cons hfirst, Option.map_eq_none_iff] at h
  exact exists_depthAfter?_of_none h

/-- Where all brackets are closed at the end, the first one is. -/
theorem exists_matchingIndex? {t : Token} (hfirst : t.kind = opening)
    (h : depthAfter? opening closing depth (t :: ts) = some 0) :
    ∃ close, matchingIndex? opening closing (t :: ts) = some close := by
  cases hclose : matchingIndex? opening closing (t :: ts) with
  | some close => exact ⟨close, rfl⟩
  | none =>
      obtain ⟨after, hafter⟩ := exists_depthAfter?_of_unmatched hfirst hclose
      have hdeeper := depthAfter?_add (depth + 1) hafter
      rw [depthAfter?_cons, depthStep?, if_pos hfirst] at h
      rw [Nat.zero_add] at hdeeper
      have hzero : some (after + (depth + 1)) = some 0 := hdeeper.symm.trans h
      cases hzero

/-! ### The counter -/

/-- The search with a counter that cannot be taken below zero.  Where a bracket is closed
that is not open, there is no answer at all. -/
def countedIndex? (opening closing : TokenKind) (depth : Nat) : List Token → Option (Option Nat)
  | [] => some none
  | t :: ts =>
    match depthStep? opening closing depth t with
    | none => none
    | some after =>
      if t.kind = closing ∧ after = 0 then some (some 0)
      else (countedIndex? opening closing after ts).map (Option.map (· + 1))

/-- As long as a bracket is open, the counter can be taken down. -/
private theorem countedIndex?_eq (hne : opening ≠ closing) (hdepth : 0 < depth) :
    countedIndex? opening closing depth ts = some (closingIndex? opening closing depth ts) := by
  induction ts generalizing depth with
  | nil => rfl
  | cons t ts ih =>
      rw [countedIndex?, closingIndex?, depthStep?]
      by_cases hopening : t.kind = opening
      · have hclosing : t.kind ≠ closing := hopening ▸ hne
        simp only [if_pos hopening]
        rw [if_neg (fun h => hclosing h.1), ih (Nat.succ_pos depth)]
        rfl
      · simp only [if_neg hopening]
        by_cases hclosing : t.kind = closing
        · simp only [if_pos hclosing, if_neg (Nat.ne_of_gt hdepth)]
          by_cases hlast : depth ≤ 1
          · rw [if_pos ⟨hclosing, by omega⟩, if_pos hlast]
          · have hbefore : 0 < depth - 1 := by omega
            rw [if_neg (fun h => Nat.ne_of_gt hbefore h.2), if_neg hlast, ih hbefore]
            rfl
        · simp only [if_neg hclosing]
          rw [if_neg (fun h => hclosing h.1), ih hdepth]
          rfl

/-- The first token opens a bracket, and from then on one is open until the search ends. -/
private theorem countedIndex?_of_first (hne : opening ≠ closing)
    (hfirst : ts.head?.any (·.kind == opening) = true) :
    countedIndex? opening closing 0 ts = some (matchingIndex? opening closing ts) := by
  cases ts with
  | nil => cases hfirst
  | cons t ts =>
      have hkind : t.kind = opening := by simpa using hfirst
      have hclosing : t.kind ≠ closing := hkind ▸ hne
      rw [countedIndex?, matchingIndex?_cons hkind, depthStep?, if_pos hkind]
      show (if t.kind = closing ∧ 0 + 1 = 0 then _ else _) = _
      rw [if_neg (fun h => hclosing h.1), countedIndex?_eq hne (Nat.succ_pos 0)]
      rfl

/-- **The search finds the matching bracket.**  It ends at `i` exactly if the first bracket is
closed there, and finds nothing exactly if that bracket is closed nowhere.  Its counter is
never taken below zero, and tokens behind the bracket it has found change nothing. -/
theorem finds_matching_bracket (opening closing : TokenKind) (hne : opening ≠ closing) (ts : List Token) :
    (∀ i, matchingIndex? opening closing ts = some i ↔ Closes opening closing ts i) ∧
      (matchingIndex? opening closing ts = none ↔ ¬ ∃ i, Closes opening closing ts i) ∧
      (ts.head?.any (·.kind == opening) = true →
        countedIndex? opening closing 0 ts = some (matchingIndex? opening closing ts)) ∧
      ∀ i more, matchingIndex? opening closing ts = some i →
        matchingIndex? opening closing (ts ++ more) = some i :=
  ⟨fun _ => matchingIndex?_eq_some_iff hne, matchingIndex?_eq_none_iff hne, countedIndex?_of_first hne,
    fun _ more h => matchingIndex?_append hne h more⟩

/-- In `( a ( b ) ) c )` the first parenthesis is closed by the second that closes. -/
theorem finds_matching_bracket_nested :
    TokenKind.leftParen ≠ .rightParen ∧
      Closes .leftParen .rightParen
        [⟨.leftParen, "("⟩, ⟨.identifier, "a"⟩, ⟨.leftParen, "("⟩, ⟨.identifier, "b"⟩, ⟨.rightParen, ")"⟩,
          ⟨.rightParen, ")"⟩, ⟨.identifier, "c"⟩, ⟨.rightParen, ")"⟩] 5 :=
  ⟨by decide, ((finds_matching_bracket .leftParen .rightParen (by decide) _).1 5).mp (by decide)⟩

end Token

end ScriptLanguage
