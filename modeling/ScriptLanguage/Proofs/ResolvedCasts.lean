/-
Resolving the casts of a tree does what it says, on every tree.

The parser builds colons with two operands only, but a colon in a tree from elsewhere may
have any number of them, and anything may stand where the name of the datatype belongs.  A
colon is misused if there is no second operand or it is not a name.  Resolving fails on the
trees with a misused colon somewhere in them, and on no others.

The second operand is looked at when the operands have been resolved already, so it has to be
seen that nothing is resolved to a name but the name itself.  Beyond that, all that is shown
of a whole tree rests on one step: what is resolved is put together from the resolved parts
of the tree, and is no colon.
-/
import ScriptLanguage.Proofs.Contract

namespace ScriptLanguage

namespace Node

/-! ### Parts of a tree -/

theorem sizeOf_lt_of_mem_parts {m n : Node} (h : m ∈ n.parts) : sizeOf m < sizeOf n := by
  cases n with
  | literal _ => cases h
  | identifier _ => cases h
  | declaration _ _ => cases h
  | leave => cases h
  | skip => cases h
  | operation symbol children tags =>
      have hlt : sizeOf m < sizeOf children := List.sizeOf_lt_of_mem h
      simp only [operation.sizeOf_spec]
      omega
  | call name arguments =>
      have hlt : sizeOf m < sizeOf arguments := List.sizeOf_lt_of_mem h
      simp only [call.sizeOf_spec]
      omega
  | sequence children =>
      have hlt : sizeOf m < sizeOf children := List.sizeOf_lt_of_mem h
      simp only [sequence.sizeOf_spec]
      omega
  | cast datatype child =>
      cases List.mem_singleton.mp h
      simp only [cast.sizeOf_spec]
      omega
  | assignment name child =>
      cases List.mem_singleton.mp h
      simp only [assignment.sizeOf_spec]
      omega
  | giveBack child =>
      cases List.mem_singleton.mp h
      simp only [giveBack.sizeOf_spec]
      omega
  | loop condition body =>
      have hparts : m = condition ∨ m = body := by simpa [parts] using h
      simp only [loop.sizeOf_spec]
      rcases hparts with rfl | rfl <;> omega
  | branch arms otherwise =>
      simp only [branch.sizeOf_spec]
      rcases mem_parts_branch.mp h with ⟨⟨condition, body⟩, harm, hm⟩ | rfl
      · have hlt := List.sizeOf_lt_of_mem harm
        simp only [Prod.mk.sizeOf_spec] at hlt hm
        rcases hm with rfl | rfl <;> omega
      · simp only [Option.some.sizeOf_spec]
        omega

/-- What holds of a tree if it holds of its parts holds of every tree. -/
theorem induction_parts {P : Node → Prop} (h : ∀ n, (∀ m ∈ n.parts, P m) → P n) (n : Node) : P n := by
  induction hsize : sizeOf n using Nat.strong_induction_on generalizing n with
  | _ size ih =>
      subst hsize
      exact h n fun m hm => ih (sizeOf m) (sizeOf_lt_of_mem_parts hm) m rfl

/-- A tree in a tree is the tree itself or lies in one of the parts. -/
theorem mem_subtrees_iff {k n : Node} : k ∈ n.subtrees ↔ k = n ∨ ∃ m ∈ n.parts, k ∈ m.subtrees := by
  cases n with
  | operation symbol children tags => simp [subtrees, parts, mem_allSubtrees]
  | call name arguments => simp [subtrees, parts, mem_allSubtrees]
  | sequence children => simp [subtrees, parts, mem_allSubtrees]
  | branch arms otherwise =>
      simp only [mem_parts_branch]
      cases otherwise with
      | none => simp [subtrees, mem_armSubtrees]; grind
      | some body => simp [subtrees, mem_armSubtrees]; grind
  | _ => simp [subtrees, parts]

/-- The node with each of its parts replaced. -/
def mapParts (g : Node → Node) : Node → Node
  | operation symbol children tags => operation symbol (children.map g) tags
  | call name arguments => call name (arguments.map g)
  | cast datatype child => cast datatype (g child)
  | sequence children => sequence (children.map g)
  | assignment name child => assignment name (g child)
  | branch arms otherwise => branch (arms.map fun arm => (g arm.1, g arm.2)) (otherwise.map g)
  | loop condition body => loop (g condition) (g body)
  | giveBack child => giveBack (g child)
  | n => n

section

variable {g : Node → Node} {n : Node}

theorem parts_mapParts (g : Node → Node) (n : Node) : (n.mapParts g).parts = n.parts.map g := by
  cases n with
  | branch arms otherwise => cases otherwise <;> simp [mapParts, parts, List.flatMap_map, List.map_flatMap]
  | _ => simp [mapParts, parts]

theorem mapParts_eq_self (h : ∀ p ∈ n.parts, g p = p) : n.mapParts g = n := by
  have hlist : ∀ cs : List Node, (∀ p ∈ cs, g p = p) → cs.map g = cs := fun cs hcs =>
    (List.map_congr_left hcs).trans (List.map_id' cs)
  cases n with
  | operation symbol children tags => rw [mapParts, hlist children h]
  | call name arguments => rw [mapParts, hlist arguments h]
  | sequence children => rw [mapParts, hlist children h]
  | cast datatype child => rw [mapParts, h child (by simp [parts])]
  | assignment name child => rw [mapParts, h child (by simp [parts])]
  | giveBack child => rw [mapParts, h child (by simp [parts])]
  | loop condition body => rw [mapParts, h condition (by simp [parts]), h body (by simp [parts])]
  | branch arms otherwise =>
      have harms : arms.map (fun arm => (g arm.1, g arm.2)) = arms := by
        refine (List.map_congr_left fun arm harm => ?_).trans (List.map_id' _)
        rw [h arm.1 (mem_parts_branch.mpr (.inl ⟨arm, harm, .inl rfl⟩)),
          h arm.2 (mem_parts_branch.mpr (.inl ⟨arm, harm, .inr rfl⟩))]
      rw [mapParts, harms]
      cases otherwise with
      | none => rfl
      | some body => rw [Option.map_some, h body (mem_parts_branch.mpr (.inr rfl))]
  | _ => rfl

private theorem texts_eq_map (cs : List Node) : texts cs = cs.map text := by
  induction cs with
  | nil => rfl
  | cons c cs ih => rw [texts, ih, List.map_cons]

private theorem armTexts_eq_map (arms : List (Node × Node)) :
    armTexts arms = arms.map fun arm => "if (" ++ arm.1.text ++ ") " ++ arm.2.text := by
  induction arms with
  | nil => rfl
  | cons arm arms ih => rw [armTexts, ih, List.map_cons]

/-- A node is written in the same way with other parts that have the same texts. -/
theorem text_mapParts (h : ∀ p ∈ n.parts, (g p).text = p.text) : (n.mapParts g).text = n.text := by
  have htexts : ∀ cs : List Node, (∀ p ∈ cs, (g p).text = p.text) → texts (cs.map g) = texts cs := by
    intro cs hcs
    rw [texts_eq_map, texts_eq_map, List.map_map]
    exact List.map_congr_left hcs
  cases n with
  | operation symbol children tags =>
      rcases children with _ | ⟨c, _ | ⟨c', _ | ⟨c'', cs⟩⟩⟩
      · rfl
      · rw [mapParts, List.map_cons, List.map_nil, text, text, h c (by simp [parts])]
      · simp only [mapParts, List.map_cons, List.map_nil, text, h c (by simp [parts]), h c' (by simp [parts])]
      · simp only [mapParts, List.map_cons, text]
        rw [← List.map_cons, ← List.map_cons, ← List.map_cons, htexts (c :: c' :: c'' :: cs) h]
  | call name arguments => rw [mapParts, text, text, htexts arguments h]
  | sequence children => rw [mapParts, text, text, htexts children h]
  | cast datatype child => rw [mapParts, text, text, h child (by simp [parts])]
  | assignment name child => rw [mapParts, text, text, h child (by simp [parts])]
  | giveBack child => rw [mapParts, text, text, h child (by simp [parts])]
  | loop condition body =>
      rw [mapParts, text, text, h condition (by simp [parts]), h body (by simp [parts])]
  | branch arms otherwise =>
      have harms : armTexts (arms.map fun arm => (g arm.1, g arm.2)) = armTexts arms := by
        rw [armTexts_eq_map, armTexts_eq_map, List.map_map]
        refine List.map_congr_left fun arm harm => ?_
        show "if (" ++ (g arm.1).text ++ ") " ++ (g arm.2).text = _
        rw [h arm.1 (mem_parts_branch.mpr (.inl ⟨arm, harm, .inl rfl⟩)),
          h arm.2 (mem_parts_branch.mpr (.inl ⟨arm, harm, .inr rfl⟩))]
      cases otherwise with
      | none => rw [mapParts, Option.map_none, text, text, harms]
      | some body =>
          rw [mapParts, Option.map_some, text, text, harms, h body (mem_parts_branch.mpr (.inr rfl))]
  | _ => rfl

end

/-! ### What a node is resolved to

Everywhere but at a colon, resolving puts a node together again from what its parts have
become.
-/

/-- What the tree is resolved to; the tree itself, if it cannot be resolved. -/
def resolved (n : Node) : Node := n.resolveCasts.toOption.getD n

/-- The tree can be resolved. -/
def IsResolvable (n : Node) : Prop := n.resolveCasts = .ok n.resolved

theorem resolveCasts_eq_ok {n m : Node} : n.resolveCasts = .ok m ↔ n.IsResolvable ∧ m = n.resolved := by
  constructor
  · intro h
    have hresolved : n.resolved = m := by rw [resolved, h]; rfl
    exact ⟨h.trans (congrArg _ hresolved.symm), hresolved.symm⟩
  · rintro ⟨h, rfl⟩
    exact h

theorem exists_error_iff {n : Node} : (∃ e, n.resolveCasts = .error e) ↔ ¬ n.IsResolvable := by
  rw [IsResolvable, resolved]
  cases n.resolveCasts with
  | ok m => simp [Except.toOption]
  | error e => simp

/-- If there is only one possible answer, what is made of it is the only one too. -/
theorem map_eq_ok_iff {α β : Type} {x : Except ParseError α} {P : Prop} {a : α} {b : β} (f : α → β)
    (h : ∀ {a'}, x = .ok a' ↔ P ∧ a' = a) : x.map f = .ok b ↔ P ∧ b = f a := by
  rw [map_eq_ok]
  constructor
  · rintro ⟨a', ha', rfl⟩
    obtain ⟨hP, rfl⟩ := h.mp ha'
    exact ⟨hP, rfl⟩
  · rintro ⟨hP, rfl⟩
    exact ⟨a, h.mpr ⟨hP, rfl⟩, rfl⟩

theorem resolveAll_eq_ok {cs ds : List Node} :
    resolveAll cs = .ok ds ↔ (∀ c ∈ cs, c.IsResolvable) ∧ ds = cs.map resolved := by
  induction cs generalizing ds with
  | nil => simp [resolveAll, eq_comm]
  | cons c cs ih =>
      rw [resolveAll_cons_eq_ok]
      simp only [resolveCasts_eq_ok, ih, List.forall_mem_cons, List.map_cons]
      constructor
      · rintro ⟨d, rest, ⟨hc, rfl⟩, ⟨hcs, rfl⟩, rfl⟩
        exact ⟨⟨hc, hcs⟩, rfl⟩
      · rintro ⟨⟨hc, hcs⟩, rfl⟩
        exact ⟨_, _, ⟨hc, rfl⟩, ⟨hcs, rfl⟩, rfl⟩

theorem resolveArms_eq_ok {arms others : List (Node × Node)} :
    resolveArms arms = .ok others ↔ (∀ arm ∈ arms, arm.1.IsResolvable ∧ arm.2.IsResolvable) ∧
      others = arms.map fun arm => (arm.1.resolved, arm.2.resolved) := by
  induction arms generalizing others with
  | nil => simp [resolveArms, eq_comm]
  | cons arm arms ih =>
      rw [resolveArms_cons_eq_ok]
      simp only [resolveCasts_eq_ok, ih, List.forall_mem_cons, List.map_cons]
      constructor
      · rintro ⟨c, b, rest, ⟨hc, rfl⟩, ⟨hb, rfl⟩, ⟨harms, rfl⟩, rfl⟩
        exact ⟨⟨⟨hc, hb⟩, harms⟩, rfl⟩
      · rintro ⟨⟨⟨hc, hb⟩, harms⟩, rfl⟩
        exact ⟨_, _, _, ⟨hc, rfl⟩, ⟨hb, rfl⟩, ⟨harms, rfl⟩, rfl⟩

/-! ### Colons -/

/-- The node is a colon that waits to be resolved. -/
def IsColon (n : Node) : Prop := ∃ children tags, n = operation castSymbol children tags

/-- The node is a colon, and there is no second operand or it is not a name. -/
def IsMisusedColon (n : Node) : Prop :=
  ∃ children tags, n = operation castSymbol children tags ∧
    (children.length < 2 ∨ ∀ datatype, children[1]? ≠ some (identifier datatype))

theorem not_isColon_mapParts {g : Node → Node} {n : Node} (h : ¬ n.IsColon) : ¬ (n.mapParts g).IsColon := by
  rintro ⟨children, tags, heq⟩
  cases n <;> cases heq
  exact h ⟨_, _, rfl⟩

/-- Away from colons, a node can be resolved if its parts can, and keeps its kind. -/
theorem resolveCasts_eq_ok_of_not_isColon {n m : Node} (hn : ¬ n.IsColon) :
    n.resolveCasts = .ok m ↔ (∀ p ∈ n.parts, p.IsResolvable) ∧ m = n.mapParts resolved := by
  cases n with
  | operation symbol children tags =>
      have hsymbol : symbol ≠ castSymbol := by
        rintro rfl
        exact hn ⟨children, tags, rfl⟩
      rw [resolveCasts_operation_eq_ok]
      simp only [resolveAll_eq_ok, if_neg hsymbol, parts, mapParts]
      constructor
      · rintro ⟨cs, ⟨hchildren, rfl⟩, h⟩
        cases h
        exact ⟨hchildren, rfl⟩
      · rintro ⟨hchildren, rfl⟩
        exact ⟨_, ⟨hchildren, rfl⟩, rfl⟩
  | branch arms otherwise =>
      have hother : ∀ {other}, resolveOther otherwise = .ok other ↔
          (∀ body ∈ otherwise, body.IsResolvable) ∧ other = otherwise.map resolved := by
        cases otherwise with
        | none => simp [resolveOther, eq_comm]
        | some body =>
            intro other
            rw [resolveOther, map_eq_ok_iff some resolveCasts_eq_ok]
            simp
      rw [resolveCasts_branch_eq_ok]
      simp only [resolveArms_eq_ok, hother, mapParts, mem_parts_branch]
      constructor
      · rintro ⟨others, other, ⟨harms, rfl⟩, ⟨hbody, rfl⟩, rfl⟩
        refine ⟨?_, rfl⟩
        rintro p (⟨arm, harm, rfl | rfl⟩ | hp)
        · exact (harms arm harm).1
        · exact (harms arm harm).2
        · exact hbody p hp
      · rintro ⟨hparts, rfl⟩
        refine ⟨_, _, ⟨fun arm harm => ⟨?_, ?_⟩, rfl⟩, ⟨fun body hbody => ?_, rfl⟩, rfl⟩
        · exact hparts arm.1 (.inl ⟨arm, harm, .inl rfl⟩)
        · exact hparts arm.2 (.inl ⟨arm, harm, .inr rfl⟩)
        · exact hparts body (.inr hbody)
  | loop condition body =>
      have hloop : (loop condition body).resolveCasts
          = (condition.resolveCasts >>= fun c => body.resolveCasts.map (loop c)) := by
        rw [resolveCasts]
        cases condition.resolveCasts <;> rfl
      rw [hloop, bind_eq_ok]
      simp only [map_eq_ok_iff _ resolveCasts_eq_ok, resolveCasts_eq_ok, parts, mapParts]
      constructor
      · rintro ⟨c, ⟨hc, rfl⟩, hb, rfl⟩
        exact ⟨List.forall_mem_cons.mpr ⟨hc, List.forall_mem_singleton.mpr hb⟩, rfl⟩
      · rintro ⟨hparts, rfl⟩
        obtain ⟨hc, hb⟩ := List.forall_mem_cons.mp hparts
        exact ⟨_, ⟨hc, rfl⟩, List.forall_mem_singleton.mp hb, rfl⟩
  | call name arguments => exact map_eq_ok_iff _ resolveAll_eq_ok
  | sequence children => exact map_eq_ok_iff _ resolveAll_eq_ok
  | cast datatype child =>
      rw [parts, List.forall_mem_singleton]
      exact map_eq_ok_iff _ resolveCasts_eq_ok
  | assignment name child =>
      rw [parts, List.forall_mem_singleton]
      exact map_eq_ok_iff _ resolveCasts_eq_ok
  | giveBack child =>
      rw [parts, List.forall_mem_singleton]
      exact map_eq_ok_iff _ resolveCasts_eq_ok
  | _ => simp [resolveCasts, parts, mapParts, eq_comm]

private theorem castOf_eq_ok {cs : List Node} {m : Node} :
    castOf cs = .ok m ↔
      ∃ child datatype rest, cs = child :: identifier datatype :: rest ∧ m = cast datatype child := by
  unfold castOf
  constructor
  · intro h
    split at h <;> cases h
    exact ⟨_, _, _, rfl, rfl⟩
  · rintro ⟨child, datatype, rest, rfl, rfl⟩
    rfl

/-- Only a name is resolved to a name. -/
theorem eq_identifier_of_resolveCasts {n : Node} {name : String}
    (h : n.resolveCasts = .ok (identifier name)) : n = identifier name := by
  by_cases hn : n.IsColon
  · obtain ⟨children, tags, rfl⟩ := hn
    obtain ⟨cs, -, hcs⟩ := resolveCasts_operation_eq_ok.mp h
    obtain ⟨child, datatype, rest, -, hcast⟩ := castOf_eq_ok.mp (if_pos rfl ▸ hcs)
    cases hcast
  · have hmap := ((resolveCasts_eq_ok_of_not_isColon hn).mp h).2
    cases n <;> cases hmap
    rfl

/-- A colon with a name in its second place is resolved to a cast of its first operand, if all
operands can be resolved; further operands are dropped. -/
theorem resolveCasts_colon_eq_ok {children : List Node} {tags : OperatorTags} {m : Node} :
    (operation castSymbol children tags).resolveCasts = .ok m ↔
      (∀ p ∈ children, p.IsResolvable) ∧ ∃ child datatype rest,
        children = child :: identifier datatype :: rest ∧ m = cast datatype child.resolved := by
  rw [resolveCasts_operation_eq_ok]
  simp only [resolveAll_eq_ok, if_true, castOf_eq_ok]
  constructor
  · rintro ⟨cs, ⟨hchildren, rfl⟩, child', datatype, rest', heq, rfl⟩
    refine ⟨hchildren, ?_⟩
    obtain ⟨child, others, rfl, rfl, hothers⟩ := List.map_eq_cons_iff.mp heq
    obtain ⟨second, rest, rfl, hsecond, rfl⟩ := List.map_eq_cons_iff.mp hothers
    have hname := hchildren second (by simp)
    rw [IsResolvable, hsecond] at hname
    rw [eq_identifier_of_resolveCasts hname]
    exact ⟨_, _, _, rfl, rfl⟩
  · rintro ⟨hchildren, child, datatype, rest, rfl, rfl⟩
    exact ⟨_, ⟨hchildren, rfl⟩, _, _, _, rfl, rfl⟩

theorem isMisusedColon_operation_iff {children : List Node} {tags : OperatorTags} :
    (operation castSymbol children tags).IsMisusedColon ↔
      ¬ ∃ child datatype rest, children = child :: identifier datatype :: rest := by
  rcases children with _ | ⟨child, _ | ⟨second, rest⟩⟩
  · simp [IsMisusedColon]
  · simp [IsMisusedColon]
  · simp [IsMisusedColon]

/-! ### One step -/

/-- A tree can be resolved if its parts can, and it is itself no misused colon. -/
theorem isResolvable_iff {n : Node} :
    n.IsResolvable ↔ (∀ p ∈ n.parts, p.IsResolvable) ∧ ¬ n.IsMisusedColon := by
  by_cases hn : n.IsColon
  · obtain ⟨children, tags, rfl⟩ := hn
    rw [isMisusedColon_operation_iff, not_not]
    constructor
    · intro h
      obtain ⟨hparts, child, datatype, rest, rfl, -⟩ := resolveCasts_colon_eq_ok.mp h
      exact ⟨hparts, child, datatype, rest, rfl⟩
    · rintro ⟨hparts, child, datatype, rest, rfl⟩
      exact (resolveCasts_eq_ok.mp (resolveCasts_colon_eq_ok.mpr ⟨hparts, _, _, _, rfl, rfl⟩)).1
  · have hmisused : ¬ n.IsMisusedColon := fun ⟨children, tags, heq, _⟩ => hn ⟨children, tags, heq⟩
    rw [and_iff_left hmisused]
    constructor
    · exact fun h => ((resolveCasts_eq_ok_of_not_isColon hn).mp h).1
    · exact fun h => (resolveCasts_eq_ok.mp ((resolveCasts_eq_ok_of_not_isColon hn).mpr ⟨h, rfl⟩)).1

/-- What is resolved is made of resolved parts, and is no colon. -/
theorem IsResolvable.parts_resolved {n : Node} (h : n.IsResolvable) :
    (∀ q ∈ n.resolved.parts, ∃ p ∈ n.parts, p.IsResolvable ∧ q = p.resolved) ∧ ¬ n.resolved.IsColon := by
  by_cases hn : n.IsColon
  · obtain ⟨children, tags, rfl⟩ := hn
    obtain ⟨hparts, child, datatype, rest, rfl, hresolved⟩ := resolveCasts_colon_eq_ok.mp h
    rw [hresolved]
    refine ⟨fun q hq => ⟨child, by simp [parts], hparts child (by simp), List.mem_singleton.mp hq⟩, ?_⟩
    rintro ⟨_, _, heq⟩
    cases heq
  · obtain ⟨hparts, hresolved⟩ := (resolveCasts_eq_ok_of_not_isColon hn).mp h
    rw [hresolved, parts_mapParts]
    refine ⟨fun q hq => ?_, not_isColon_mapParts hn⟩
    obtain ⟨p, hp, rfl⟩ := List.mem_map.mp hq
    exact ⟨p, hp, hparts p hp, rfl⟩

/-! ### Whole trees -/

theorem isResolvable_iff_subtrees (n : Node) : n.IsResolvable ↔ ∀ k ∈ n.subtrees, ¬ k.IsMisusedColon := by
  induction n using induction_parts with
  | h n ih =>
      rw [isResolvable_iff]
      simp only [mem_subtrees_iff (n := n)]
      grind

/-- No colon is left in what is resolved. -/
theorem IsResolvable.not_isColon {n : Node} (h : n.IsResolvable) :
    ∀ k ∈ n.resolved.subtrees, ¬ k.IsColon := by
  induction n using induction_parts with
  | h n ih =>
      intro k hk
      obtain ⟨hparts, hcolon⟩ := h.parts_resolved
      rcases mem_subtrees_iff.mp hk with rfl | ⟨q, hq, hk⟩
      · exact hcolon
      · obtain ⟨p, hp, hresolvable, rfl⟩ := hparts q hq
        exact ih p hp hresolvable k hk

/-- A tree without colons is what it is resolved to. -/
theorem resolveCasts_eq_self {n : Node} (h : ∀ k ∈ n.subtrees, ¬ k.IsColon) : n.resolveCasts = .ok n := by
  induction n using induction_parts with
  | h n ih =>
      have hparts : ∀ p ∈ n.parts, p.resolveCasts = .ok p := fun p hp =>
        ih p hp fun k hk => h k (mem_subtrees_iff.mpr (.inr ⟨p, hp, hk⟩))
      rw [resolveCasts_eq_ok_of_not_isColon (h n n.mem_subtrees_self)]
      refine ⟨fun p hp => (resolveCasts_eq_ok.mp (hparts p hp)).1, (mapParts_eq_self fun p hp => ?_).symm⟩
      exact (resolveCasts_eq_ok.mp (hparts p hp)).2.symm

/-- A tree whose colons have two operands each is written like what it is resolved to. -/
theorem IsResolvable.text_resolved {n : Node} (h : n.IsResolvable)
    (hpair : ∀ children tags, operation castSymbol children tags ∈ n.subtrees → children.length = 2) :
    n.resolved.text = n.text := by
  induction n using induction_parts with
  | h n ih =>
      have htexts : ∀ p ∈ n.parts, p.resolved.text = p.text := fun p hp =>
        ih p hp ((isResolvable_iff.mp h).1 p hp) fun children tags hmem =>
          hpair children tags (mem_subtrees_iff.mpr (.inr ⟨p, hp, hmem⟩))
      by_cases hn : n.IsColon
      · obtain ⟨children, tags, rfl⟩ := hn
        obtain ⟨-, child, datatype, rest, rfl, hresolved⟩ := resolveCasts_colon_eq_ok.mp h
        obtain rfl : rest = [] := by simpa using hpair _ tags (mem_subtrees_self _)
        have hcolon : " : " = " " ++ castSymbol ++ " " := by decide
        rw [hresolved, text, text, text, htexts child (by simp [parts]), hcolon]
        simp only [String.append_assoc]
      · rw [((resolveCasts_eq_ok_of_not_isColon hn).mp h).2]
        exact text_mapParts htexts

/-- Resolving the casts of a tree fails exactly if somewhere in the tree there is a colon with
fewer than two operands or without a name as its second one.  If it succeeds, no colon is left,
and resolving the result again changes nothing.  It changes no tree without colons, and if
each colon of the tree has two operands, the result is written like the tree. -/
theorem resolveCasts_exact (n : Node) :
    ((∃ e, n.resolveCasts = .error e) ↔
      ∃ children tags, operation castSymbol children tags ∈ n.subtrees ∧
        (children.length < 2 ∨ ∀ datatype, children[1]? ≠ some (identifier datatype))) ∧
    (∀ m, n.resolveCasts = .ok m →
      (∀ children tags, operation castSymbol children tags ∉ m.subtrees) ∧ m.resolveCasts = .ok m) ∧
    ((∀ children tags, operation castSymbol children tags ∉ n.subtrees) → n.resolveCasts = .ok n) ∧
    ((∀ children tags, operation castSymbol children tags ∈ n.subtrees → children.length = 2) →
      ∀ m, n.resolveCasts = .ok m → m.text = n.text) := by
  have hcolon : ∀ t : Node, (∀ children tags, operation castSymbol children tags ∉ t.subtrees) ↔
      ∀ k ∈ t.subtrees, ¬ k.IsColon := by
    refine fun t => ⟨?_, fun h children tags hmem => h _ hmem ⟨children, tags, rfl⟩⟩
    rintro h _ hk ⟨children, tags, rfl⟩
    exact h children tags hk
  refine ⟨?_, fun m hm => ?_, fun h => resolveCasts_eq_self ((hcolon n).mp h), fun hpair m hm => ?_⟩
  · rw [exists_error_iff, isResolvable_iff_subtrees]
    constructor
    · intro h
      simp only [not_forall, not_not] at h
      obtain ⟨_, hk, children, tags, rfl, hmisused⟩ := h
      exact ⟨children, tags, hk, hmisused⟩
    · rintro ⟨children, tags, hk, hmisused⟩ h
      exact h _ hk ⟨children, tags, rfl, hmisused⟩
  · obtain ⟨h, rfl⟩ := resolveCasts_eq_ok.mp hm
    exact ⟨(hcolon _).mpr h.not_isColon, resolveCasts_eq_self h.not_isColon⟩
  · obtain ⟨h, rfl⟩ := resolveCasts_eq_ok.mp hm
    exact h.text_resolved hpair

/-- The cast of an argument is resolved and written as before.  Of a third operand of a colon
nothing is left, and without a second one there is no cast. -/
theorem resolveCasts_exact_argument :
    (call "f" [operation ":" [identifier "x", identifier "int"] (.binary 4 true)]).resolveCasts
        = .ok (call "f" [cast "int" (identifier "x")]) ∧
      (call "f" [cast "int" (identifier "x")]).text
        = (call "f" [operation ":" [identifier "x", identifier "int"] (.binary 4 true)]).text ∧
      (operation ":" [identifier "x", identifier "int", identifier "y"] (.binary 4 true)).resolveCasts
        = .ok (cast "int" (identifier "x")) ∧
      (cast "int" (identifier "x")).resolveCasts = .ok (cast "int" (identifier "x")) ∧
      ∃ e, (call "f" [operation ":" [identifier "x"] (.binary 4 true)]).resolveCasts = .error e := by
  have hargument : (call "f" [operation ":" [identifier "x", identifier "int"] (.binary 4 true)]).resolveCasts
      = .ok (call "f" [cast "int" (identifier "x")]) := rfl
  have hthree : (operation ":" [identifier "x", identifier "int", identifier "y"] (.binary 4 true)).resolveCasts
      = .ok (cast "int" (identifier "x")) := rfl
  refine ⟨hargument, (resolveCasts_exact _).2.2.2 ?_ _ hargument, hthree,
    ((resolveCasts_exact _).2.1 _ hthree).2, (resolveCasts_exact _).1.mpr ?_⟩
  · intro children tags hmem
    obtain ⟨rfl, -⟩ : children = [identifier "x", identifier "int"] ∧ tags = .binary 4 true := by
      simpa [subtrees, allSubtrees, castSymbol] using hmem
    rfl
  · exact ⟨[identifier "x"], .binary 4 true, by simp [subtrees, allSubtrees, castSymbol], .inl (by decide)⟩

end Node

end ScriptLanguage
