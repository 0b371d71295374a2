import ResourceNames.Proofs.Surroundings

/-!
The levels of expressions.

An expression that begins with another one has the level of its operator, told by the token after the
first operand; two angle brackets are a shift. If it ends with an operand, this bounds the levels
there: the operand of an operator that nests to the left has a higher level, that of one that nests to
the right at least its own. A cast and the signs in front of an operand bound it too. The grammar
reads a tail with this level and its last operand with this bound.
-/
namespace ResourceNames.Java

/-- The level of the operator that begins with a token, alone or before another one. -/
def Kind.operatorLevel? : Kind → Option Nat
  | .dot => some 25
  | .lbrack => some 24
  | .inc | .dec => some 20
  | .mul | .div | .mod => some 17
  | .add | .sub => some 16
  | .lt | .gt | .le | .ge => some 14
  | .kwInstanceof => some 13
  | .equal | .notequal => some 12
  | .bitand => some 11
  | .caret => some 10
  | .bitor => some 9
  | .and => some 8
  | .or => some 7
  | .question => some 6
  | .assign | .addAssign | .subAssign | .mulAssign | .divAssign | .andAssign | .orAssign | .xorAssign
  | .modAssign | .lshiftAssign | .rshiftAssign | .urshiftAssign => some 5
  | .coloncolon => some 3
  | _ => none

namespace Part

def level? : List Part → Option Nat
  | .rule .expression :: .token .lt :: .token .lt :: _ => some 15
  | .rule .expression :: .token .gt :: .token .gt :: _ => some 15
  | .rule .expression :: .token k :: _ => k.operatorLevel?
  | _ => none

def prefixLevel? : List Part → Option Nat
  | .token .lparen :: _ => some 21
  | .token .inc :: _ | .token .dec :: _ | .token .add :: _ | .token .sub :: _ => some 19
  | .token .bang :: _ | .token .tilde :: _ => some 18
  | _ => none

end Part

/-- Whether the operators of a level nest to the right: the conditional and the assignments do. -/
def nestsRight (level : Nat) : Bool := level == 6 || level == 5

namespace Part

def bound? (ps : List Part) : Option Nat :=
  if ps.getLast? = some (.rule .expression) then
    match level? ps with
    | some k => some (if nestsRight k then k else k + 1)
    | none => prefixLevel? ps
  else none

end Part

namespace Tree

/-- The level of an expression that begins with another one. -/
def level? : Tree → Option Nat
  | .node .expression _ _ _ children => Part.level? (children.map part)
  | _ => none

def prefixLevel? : Tree → Option Nat
  | .node .expression _ _ _ children => Part.prefixLevel? (children.map part)
  | _ => none

def firstOperand? : Tree → Option Tree
  | .node .expression _ _ _ children => children.head?.filter fun c => c.part = .rule .expression
  | _ => none

def lastOperand? : Tree → Option Tree
  | .node .expression _ _ _ children => children.getLast?.filter fun c => c.part = .rule .expression
  | _ => none

def isLeftShift : Tree → Bool
  | .node .expression _ _ _ children =>
    [.rule .expression, .token .lt, .token .lt].isPrefixOf (children.map part)
  | _ => false

def bound? : Tree → Option Nat
  | .node .expression _ _ _ children => Part.bound? (children.map part)
  | _ => none

variable {n c : Tree}

theorem rule?_of_firstOperand? (h : n.firstOperand? = some c) : n.rule? = some .expression := by
  unfold firstOperand? at h
  split at h
  · rfl
  · cases h

theorem rule?_of_lastOperand? (h : n.lastOperand? = some c) : n.rule? = some .expression := by
  unfold lastOperand? at h
  split at h
  · rfl
  · cases h

theorem getLast?_of_lastOperand? (h : n.lastOperand? = some c) :
    (n.children.map part).getLast? = some (.rule .expression) := by
  unfold lastOperand? at h
  split at h
  · obtain ⟨hlast, hpart⟩ := Option.filter_eq_some_iff.mp h
    rw [children, List.getLast?_map, hlast, Option.map_some, of_decide_eq_true hpart]
  · cases h

variable {k b : Nat}

/-- The last operand of an operator needs a higher level than the operator has, or its own if the
operator nests to the right. -/
theorem bound?_of_level? (h : n.lastOperand? = some c) (hk : n.level? = some k) :
    n.bound? = some (if nestsRight k then k else k + 1) := by
  have hlast := getLast?_of_lastOperand? h
  unfold level? at hk
  split at hk
  · rw [children] at hlast
    rw [bound?, Part.bound?, if_pos hlast, hk]
  · cases hk

theorem bound?_of_prefixLevel? (h : n.lastOperand? = some c) (hb : n.prefixLevel? = some b) :
    n.bound? = some b := by
  have hlast := getLast?_of_lastOperand? h
  unfold prefixLevel? at hb
  split at hb
  · rename_i cs
    rw [children] at hlast
    have hnone : Part.level? (cs.map part) = none := by
      unfold Part.prefixLevel? at hb
      split at hb <;> first | (rename_i heq; rw [heq]; rfl) | cases hb
    rw [bound?, Part.bound?, if_pos hlast, hnone, hb]
  · cases hb

end Tree

/-! ### The words of the operators -/

mutual

def Phrase.isLoopFree : Phrase → Bool
  | .token .. | .oneOf .. | .call .. => true
  | .seq parts => allLoopFree parts
  | .choice alts | .opt alts => allLoopFree alts
  | .star _ | .plus _ => false

def Phrase.allLoopFree : List Phrase → Bool
  | [] => true
  | p :: ps => p.isLoopFree && allLoopFree ps

end

mutual

def Phrase.words : Phrase → List (List Part)
  | .token kind _ => [[.token kind]]
  | .oneOf kinds _ => kinds.map fun k => [.token k]
  | .call rule _ _ => [[.rule rule]]
  | .seq parts => wordsSeq parts
  | .choice alts => wordsAny alts
  | .opt alts => [] :: wordsAny alts
  | .star _ | .plus _ => []

def Phrase.wordsSeq : List Phrase → List (List Part)
  | [] => [[]]
  | p :: ps => p.words.flatMap fun u => (wordsSeq ps).map (u ++ ·)

def Phrase.wordsAny : List Phrase → List (List Part)
  | [] => []
  | p :: ps => p.words ++ wordsAny ps

end

namespace Phrase

variable {p : Phrase} {ps : List Phrase} {w : List Part}

private theorem isLoopFree_of_mem (h : allLoopFree ps = true) (hp : p ∈ ps) : p.isLoopFree = true := by
  induction ps with
  | nil => cases hp
  | cons q ps ih =>
    obtain ⟨hq, hps⟩ := Bool.and_eq_true_iff.mp h
    rcases List.mem_cons.mp hp with rfl | hp
    · exact hq
    · exact ih hps hp

private theorem words_subset_wordsAny (hp : p ∈ ps) : p.words ⊆ wordsAny ps := by
  induction ps with
  | nil => cases hp
  | cons q ps ih =>
    rcases List.mem_cons.mp hp with rfl | hp
    · exact List.subset_append_left _ _
    · exact List.Subset.trans (ih hp) (List.subset_append_right _ _)

theorem Word.mem_words (h : p.Word w) (hp : p.isLoopFree = true) : w ∈ p.words := by
  induction h with
  | token | call => exact List.mem_singleton_self _
  | oneOf mem => exact List.mem_map_of_mem mem
  | nil => exact List.mem_singleton_self _
  | cons first rest ih ih' =>
    obtain ⟨hfirst, hrest⟩ := Bool.and_eq_true_iff.mp hp
    exact List.mem_flatMap.mpr ⟨_, ih hfirst, List.mem_map_of_mem (ih' hrest)⟩
  | choice mem _ ih => exact words_subset_wordsAny mem (ih (isLoopFree_of_mem hp mem))
  | opt mem _ ih =>
    exact List.mem_cons_of_mem _ (words_subset_wordsAny mem (ih (isLoopFree_of_mem hp mem)))
  | skip => exact List.mem_cons_self
  | done | more | plus => cases hp

def operand? : Phrase → Option Nat
  | .seq ps =>
    match ps.getLast? with
    | some (.call .expression level _) => if level = 0 then none else some level
    | _ => none
  | _ => none

private theorem isLoopFree_of_mem_heads : ∀ p ∈ Grammar.heads, p.isLoopFree = true := by decide

private theorem isLoopFree_of_mem_tails : ∀ t ∈ Grammar.tails, t.2.isLoopFree = true := by decide

private theorem level_of_mem_heads : ∀ p ∈ Grammar.heads, ∀ w ∈ p.words,
    Part.level? w = none ∧ Part.bound? w = p.operand? := by
  decide

private theorem level_of_mem_tails : ∀ t ∈ Grammar.tails, ∀ w ∈ t.2.words,
    Part.level? (.rule .expression :: w) = some t.1 ∧
      Part.bound? (.rule .expression :: w) = t.2.operand? := by
  decide

/-- What starts an expression has no level, and its last operand is read with the level it needs. -/
theorem Word.level_head (h : p.Word w) (hp : p ∈ Grammar.heads) :
    Part.level? w = none ∧ Part.bound? w = p.operand? :=
  level_of_mem_heads p hp w (h.mem_words (isLoopFree_of_mem_heads p hp))

/-- What continues an expression has its level, and its last operand is read with the level it needs. -/
theorem Word.level_tail {t : Nat × Phrase} (h : t.2.Word w) (ht : t ∈ Grammar.tails) :
    Part.level? (.rule .expression :: w) = some t.1 ∧
      Part.bound? (.rule .expression :: w) = t.2.operand? :=
  level_of_mem_tails t ht w (h.mem_words (isLoopFree_of_mem_tails t ht))

private theorem head?_of_mem_heads : ∀ p ∈ Grammar.heads, ∀ w ∈ p.words,
    w.head? ≠ some (.rule .expression) := by
  decide

/-- What begins with an expression has the level of an operator. -/
theorem exists_level (h : Rule.expression.Word w) (hw : w.head? = some (.rule .expression)) :
    ∃ k, Part.level? w = some k := by
  obtain ⟨p, hp, hword⟩ := h
  rcases List.mem_append.mp (show p ∈ Grammar.heads ++ _ from hp) with hp | hp
  · exact absurd hw (head?_of_mem_heads p hp w (hword.mem_words (isLoopFree_of_mem_heads p hp)))
  · obtain ⟨t, ht, rfl⟩ := List.mem_map.mp hp
    cases hword with
    | cons first rest =>
      cases first
      cases rest with
      | cons tail last =>
        cases last
        rw [List.append_nil]
        exact ⟨t.1, (tail.level_tail ht).1⟩

/-- A shift begins with two angle brackets of one kind. -/
private theorem angles_of_mem_tails : ∀ t ∈ Grammar.tails, t.1 = 15 → ∀ w ∈ t.2.words,
    [.token .lt, .token .lt] <+: w ∨ [.token .gt, .token .gt] <+: w := by
  decide

theorem Word.angles {t : Nat × Phrase} (h : t.2.Word w) (ht : t ∈ Grammar.tails) (hshift : t.1 = 15) :
    [.token .lt, .token .lt] <+: w ∨ [.token .gt, .token .gt] <+: w :=
  angles_of_mem_tails t ht hshift w (h.mem_words (isLoopFree_of_mem_tails t ht))

end Phrase

section

variable {r : Rule} {ops : Operators} {t : Nat × Form}

/-- Only expressions have operators. -/
theorem Rule.eq_expression (h : (Layout.ruleForm r).body = .operators ops) : r = .expression :=
  Follow.eq_of_hasOperators (Reach.hasOperators_of_body h) (by decide)

theorem Operators.phrase_heads (h : (Layout.ruleForm r).body = .operators ops) :
    ops.heads.phrase = .choice Grammar.heads := by
  obtain ⟨heads, tails, hbody, hheads, -⟩ := Rule.exists_operators h
  obtain rfl := Rule.eq_expression h
  cases hbody
  exact hheads

theorem Operators.mem_tails (h : (Layout.ruleForm r).body = .operators ops) (ht : t ∈ ops.tails) :
    (t.1, t.2.phrase) ∈ Grammar.tails := by
  obtain ⟨heads, tails, hbody, -, htails⟩ := Rule.exists_operators h
  obtain rfl := Rule.eq_expression h
  cases hbody
  exact htails t ht

end

namespace Part

variable {ps : List Part} {b : Nat}

/-- A cast and a sign bind their operand more tightly than any binary operator. -/
theorem le_of_prefixLevel? (h : prefixLevel? ps = some b) : 18 ≤ b := by
  unfold prefixLevel? at h
  split at h <;> first | (obtain rfl := Option.some.inj h; omega) | cases h

/-- Where an operand needs a level of at most 15, it is that of an operator of a lower one. -/
theorem level_of_bound (h : bound? ps = some b) (hb : b ≤ 15) :
    ∃ j, level? ps = some j ∧ j < 15 := by
  unfold bound? at h
  split at h
  · split at h
    · rename_i k hk
      refine ⟨k, hk, ?_⟩
      obtain rfl := Option.some.inj h
      split at hb
      · rename_i hright
        simp only [nestsRight, Bool.or_eq_true, beq_iff_eq] at hright
        omega
      · omega
    · have := le_of_prefixLevel? h
      omega
  · cases h

end Part

theorem Tree.le_of_prefixLevel? {n : Tree} {b : Nat} (h : n.prefixLevel? = some b) : 18 ≤ b := by
  unfold prefixLevel? at h
  split at h
  · exact Part.le_of_prefixLevel? h
  · cases h

end ResourceNames.Java
