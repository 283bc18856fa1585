/-
How deep the brackets of a list of tokens go.

Blocks and conditions are cut out of a program by counting brackets before anything in
them is read.  What is read afterwards knows nothing of the count, so the two have to be
tied together: `depthAfter?` follows the depth through a whole list, and a list that
comes back to the depth it started with, without ever going below it, is stepped over
by the search for a closing bracket as if it were not there.
-/
import ScriptLanguage.Parsing.Bracket

namespace ScriptLanguage

namespace Token

variable {opening closing : TokenKind}

/-- The depth after one token.  There is none if the token closes a bracket that is not
open. -/
def depthStep? (opening closing : TokenKind) (depth : Nat) (t : Token) : Option Nat :=
  if t.kind = opening then some (depth + 1)
  else if t.kind = closing then (if depth = 0 then none else some (depth - 1))
  else some depth

/-- The depth after a list of tokens that starts at the given depth. -/
def depthAfter? (opening closing : TokenKind) (depth : Nat) (ts : List Token) : Option Nat :=
  ts.foldlM (depthStep? opening closing) depth

/-- Every bracket of the list is closed in it, and none is closed that is not open. -/
def Balanced (opening closing : TokenKind) (ts : List Token) : Prop :=
  depthAfter? opening closing 0 ts = some 0

theorem depthAfter?_cons (depth : Nat) (t : Token) (ts : List Token) :
    depthAfter? opening closing depth (t :: ts)
      = (depthStep? opening closing depth t).bind (depthAfter? opening closing · ts) := by
  unfold depthAfter?
  rw [List.foldlM_cons]
  rfl

theorem depthAfter?_append (depth : Nat) (ts us : List Token) :
    depthAfter? opening closing depth (ts ++ us)
      = (depthAfter? opening closing depth ts).bind (depthAfter? opening closing · us) := by
  unfold depthAfter?
  rw [List.foldlM_append]
  rfl

/-- Starting deeper ends deeper by as much. -/
theorem depthStep?_add {depth after : Nat} {t : Token} (extra : Nat)
    (h : depthStep? opening closing depth t = some after) :
    depthStep? opening closing (depth + extra) t = some (after + extra) := by
  unfold depthStep? at h ⊢
  split at h
  · cases h
    rw [if_pos ‹_›, Nat.add_right_comm]
  · rw [if_neg ‹_›]
    split at h
    · split at h
      · cases h
      · cases h
        rw [if_pos ‹_›, if_neg (by omega), Nat.sub_add_comm (by omega)]
    · cases h
      rw [if_neg ‹_›]

theorem depthAfter?_add (extra : Nat) :
    ∀ {ts : List Token} {depth after : Nat}, depthAfter? opening closing depth ts = some after →
      depthAfter? opening closing (depth + extra) ts = some (after + extra) := by
  intro ts
  induction ts with
  | nil => intro depth after h; cases h; rfl
  | cons t ts ih =>
      intro depth after h
      rw [depthAfter?_cons] at h ⊢
      obtain ⟨next, hnext, hrest⟩ := Option.bind_eq_some_iff.mp h
      rw [depthStep?_add extra hnext]
      exact ih hrest

theorem Balanced.cons {t : Token} {ts : List Token} (hopening : t.kind ≠ opening)
    (hclosing : t.kind ≠ closing) (hts : Balanced opening closing ts) :
    Balanced opening closing (t :: ts) := by
  unfold Balanced at hts ⊢
  rw [depthAfter?_cons, depthStep?, if_neg hopening, if_neg hclosing]
  exact hts

/-- A list without brackets leaves the depth as it is. -/
theorem balanced_of_forall {ts : List Token} (h : ∀ t ∈ ts, t.kind ≠ opening ∧ t.kind ≠ closing) :
    Balanced opening closing ts := by
  induction ts with
  | nil => rfl
  | cons t ts ih =>
      obtain ⟨ht, hts⟩ := List.forall_mem_cons.mp h
      exact (ih hts).cons ht.1 ht.2

theorem Balanced.append {ts us : List Token} (hts : Balanced opening closing ts)
    (hus : Balanced opening closing us) : Balanced opening closing (ts ++ us) := by
  unfold Balanced at hts hus ⊢
  rw [depthAfter?_append, hts]
  exact hus

/-- A balanced list in a pair of brackets is balanced. -/
theorem Balanced.enclose {ts : List Token} {first last : Token} (hne : opening ≠ closing)
    (hfirst : first.kind = opening) (hlast : last.kind = closing)
    (hts : Balanced opening closing ts) : Balanced opening closing (first :: ts ++ [last]) := by
  have hinner : depthAfter? opening closing 1 ts = some 1 := by simpa using depthAfter?_add 1 hts
  have hback : depthStep? opening closing 1 last = some 0 := by
    rw [depthStep?, if_neg (by rw [hlast]; exact hne.symm), if_pos hlast]
    rfl
  unfold Balanced
  rw [List.cons_append, depthAfter?_cons, depthStep?, if_pos hfirst]
  show depthAfter? opening closing 1 (ts ++ [last]) = some 0
  rw [depthAfter?_append, hinner]
  show depthAfter? opening closing 1 [last] = some 0
  rw [depthAfter?_cons, hback]
  rfl

/-! ### The closing bracket behind a balanced list

The search counts from one, because the bracket it looks for is the one that takes the
depth from one to zero.
-/

/-- A token that leaves a depth does not end the search one level further up. -/
theorem closingIndex?_cons {depth after : Nat} {t : Token} (ts : List Token)
    (h : depthStep? opening closing depth t = some after) :
    closingIndex? opening closing (depth + 1) (t :: ts)
      = (closingIndex? opening closing (after + 1) ts).map (· + 1) := by
  unfold depthStep? at h
  rw [closingIndex?]
  split at h
  · cases h
    rw [if_pos ‹_›]
  · rw [if_neg ‹_›]
    split at h
    · split at h
      · cases h
      · cases h
        rw [if_pos ‹_›, if_neg (by omega), Nat.add_sub_cancel, Nat.sub_add_cancel (by omega)]
    · cases h
      rw [if_neg ‹_›]

private theorem closingIndex?_append :
    ∀ {ts : List Token} {depth after : Nat} (rest : List Token),
      depthAfter? opening closing depth ts = some after →
      closingIndex? opening closing (depth + 1) (ts ++ rest)
        = (closingIndex? opening closing (after + 1) rest).map (· + ts.length) := by
  intro ts
  induction ts with
  | nil => intro depth after rest h; cases h; simp
  | cons t ts ih =>
      intro depth after rest h
      rw [depthAfter?_cons] at h
      obtain ⟨next, hnext, hrest⟩ := Option.bind_eq_some_iff.mp h
      rw [List.cons_append, closingIndex?_cons _ hnext, ih rest hrest, Option.map_map]
      rfl

/-- The bracket that closes the first one stands right behind the balanced list between
them. -/
theorem matchingIndex?_enclose {first last : Token} {ts : List Token} (rest : List Token)
    (hne : opening ≠ closing) (hfirst : first.kind = opening) (hlast : last.kind = closing)
    (hts : Balanced opening closing ts) :
    matchingIndex? opening closing (first :: ts ++ last :: rest) = some (ts.length + 1) := by
  have hclose : closingIndex? opening closing 1 (last :: rest) = some 0 := by
    rw [closingIndex?, if_neg (by rw [hlast]; exact hne.symm), if_pos hlast]
    rfl
  rw [List.cons_append, matchingIndex?]
  simp only [hfirst, if_true]
  rw [closingIndex?, if_pos hfirst, closingIndex?_append (last :: rest) hts, hclose]
  simp

theorem between_enclose (first last : Token) (ts rest : List Token) :
    between (first :: ts ++ last :: rest) (ts.length + 1) = ts := by
  simp [between]

theorem drop_enclose (first last : Token) (ts rest : List Token) :
    (first :: ts ++ last :: rest).drop (ts.length + 1 + 1) = rest := by
  simp

private theorem exists_getElem?_of_closingIndex? {ts : List Token} {depth i : Nat}
    (h : closingIndex? opening closing depth ts = some i) :
    ∃ last, ts[i]? = some last ∧ last.kind = closing := by
  fun_induction closingIndex? opening closing depth ts generalizing i with
  | case1 => cases h
  | case2 depth t ts _ ih | case4 depth t ts _ _ _ ih | case5 depth t ts _ _ ih =>
      obtain ⟨j, hj, rfl⟩ := Option.map_eq_some_iff.mp h
      exact ih hj
  | case3 depth t ts _ hclosing => cases h; exact ⟨t, rfl, hclosing⟩

/-- What the search cuts out stands between an opening and a closing bracket, and the
rest of the list comes after them. -/
theorem exists_enclose_of_matchingIndex? {ts : List Token} {i : Nat}
    (h : matchingIndex? opening closing ts = some i) :
    ∃ first last, first.kind = opening ∧ last.kind = closing ∧
      ts = first :: between ts i ++ last :: ts.drop (i + 1) := by
  unfold matchingIndex? at h
  split at h
  · cases h
  · rename_i first ts
    split at h
    · rename_i hfirst
      rw [closingIndex?, if_pos hfirst] at h
      obtain ⟨j, hj, rfl⟩ := Option.map_eq_some_iff.mp h
      obtain ⟨last, hget, hlast⟩ := exists_getElem?_of_closingIndex? hj
      refine ⟨first, last, hfirst, hlast, ?_⟩
      obtain ⟨hlt, rfl⟩ := List.getElem?_eq_some_iff.mp hget
      simp [between]
    · cases h

theorem one_le_of_matchingIndex? {ts : List Token} {i : Nat}
    (h : matchingIndex? opening closing ts = some i) : 1 ≤ i := by
  unfold matchingIndex? at h
  split at h
  · cases h
  · split at h
    · rename_i hfirst
      rw [closingIndex?, if_pos hfirst] at h
      obtain ⟨j, -, rfl⟩ := Option.map_eq_some_iff.mp h
      exact Nat.le_add_left _ _
    · cases h

/-- The two brackets are not between themselves. -/
theorem length_between_add_two_le {ts : List Token} {i : Nat}
    (h : matchingIndex? opening closing ts = some i) : (between ts i).length + 2 ≤ ts.length := by
  obtain ⟨first, last, -, -, hts⟩ := exists_enclose_of_matchingIndex? h
  have hlength := congrArg List.length hts
  simp only [List.cons_append, List.length_cons, List.length_append] at hlength
  omega

end Token

end ScriptLanguage
