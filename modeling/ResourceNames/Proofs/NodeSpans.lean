import ResourceNames.Proofs.Nodes

/-!
Where the nodes of a tree begin and end.

The start and the stop of a node are noted from where the parser stands, not from the children: the start
when the rule is entered, the stop when it is left or when a tail follows the node. `Began` ties both to
the tokens of the node under construction, and every step of a parser keeps it, also one that skips a
token or makes one up. So whatever errors are mended, a node begins at the first and ends at the last of
the tokens below it, and the nodes lie in each other like brackets.
-/
namespace ResourceNames.Java

namespace Tree

/-- A node with a token of the source below it, the end apart, begins at the first of these tokens and
stops at the last one. -/
def Spanned (n : Tree) : Prop :=
  n.tokens ≠ [] → n.start? = n.tokens.head? ∧ n.stop? = n.tokens.getLast?

end Tree

namespace Parser

variable {s s' : Parser} {start : Token} {ts : List Token} {rule : Rule}

/-- The node under construction began before a token: this is the first one it has, or the next one as
long as it has none. Its last token is the last one that was read. -/
structure Began (start : Token) (s : Parser) : Prop where
  first : (s.taken ++ s.rest).head? = some start
  last : s.taken ≠ [] → s.previous = s.taken.getLast?

theorem Began.advance (h : Began start s) (ha : Advance s s' ts) : Began start s' where
  first := by
    rw [ha.taken, List.append_assoc, ← ha.rest]
    exact h.first
  last hne := by
    rw [ha.previous, ha.taken, List.getLast?_append]
    cases hts : ts.getLast? with
    | some t => rfl
    | none =>
      rw [ha.taken, List.getLast?_eq_none_iff.mp hts, List.append_nil] at hne
      exact h.last hne

theorem Began.work {calls wraps : List Rule} (h : Began start s) (hw : Work calls wraps s s')
    (he : Ended s.rest) : Began start s' ∧ Ended s'.rest := by
  obtain ⟨ts, ha, he'⟩ := hw.advances he
  exact ⟨h.advance ha, he'⟩

/-- A node without children begins before the next token. -/
theorem began_of_fresh (he : Ended s.rest) (hf : s.children = []) : Began s.current s := by
  have htaken : s.taken = [] := by rw [taken, hf]; rfl
  obtain ⟨t, ts, hrest⟩ := List.exists_cons_of_ne_nil he.ne_nil
  constructor
  · rw [htaken, List.nil_append, current, hrest]
    rfl
  · exact fun hne => absurd htaken hne

theorem Began.spanned (h : Began start s) (rule : Rule) : (s.node rule start).Spanned := by
  intro hne
  have htokens : (s.node rule start).tokens = s.taken := rfl
  rw [htokens] at hne ⊢
  obtain ⟨t, ts, htaken⟩ := List.exists_cons_of_ne_nil hne
  have hfirst := h.first
  rw [htaken, List.cons_append, List.head?_cons] at hfirst
  refine ⟨?_, h.last hne⟩
  rw [htaken, List.head?_cons, hfirst]
  rfl

/-- All nodes below the node under construction begin and end at their tokens. -/
def Tidy (s : Parser) : Prop := ∀ c ∈ s.children, c.Each Tree.Spanned

theorem Tidy.node (h : s.Tidy) (hb : Began start s) (rule : Rule) :
    (s.node rule start).Each Tree.Spanned :=
  Tree.each_node.mpr ⟨hb.spanned rule, fun c hc => h c (List.mem_reverse.mp hc)⟩

/-- Work that makes no node adds leaves only. -/
theorem Tidy.work (h : s.Tidy) (hw : Work [] [] s s') : s'.Tidy := by
  obtain ⟨new, hchildren, hrules⟩ := hw.grows
  intro c hc
  rw [hchildren] at hc
  rcases List.mem_append.mp hc with hc | hc
  · apply Tree.each_of_rule?_eq_none
    rw [Option.eq_none_iff_forall_ne_some]
    exact fun r hr => List.not_mem_nil (hrules c hc r hr)
  · exact h c hc

namespace Task

/-- Where a task that is one of several is begun: a tail belongs to the node that began at its start. -/
def Inside (s : Parser) : Task → Prop
  | .tail _ _ _ start => Began start s
  | .tails _ _ _ start _ => Began start s
  | .all _ => False
  | .body .. => False
  | _ => True

/-- Where a task is begun: the body of a rule before any part of it is read. -/
def Begun (s : Parser) : Task → Prop
  | .all ts => ∀ t ∈ ts, t.Inside s
  | .body .. => s.children = []
  | t => t.Inside s

theorem Inside.begun {t : Task} (h : t.Inside s) : t.Begun s := by
  cases t with
  | all | body => exact h.elim
  | _ => exact h

theorem Inside.advance {t : Task} (h : t.Inside s) (ha : Advance s s' ts) : t.Inside s' := by
  cases t with
  | tail | tails => exact Began.advance h ha
  | _ => exact h

theorem inside_roundTasks {entry : Point} {points : List Point} {round : List Task}
    (origin : Loops entry points round) : ∀ t ∈ round, t.Inside s := by
  cases origin <;> simp [roundTasks, Inside]

end Task

/-- Every node that a reading makes begins and ends at its tokens. The nodes are made by calls and by
tails; at both the node under construction began where its start was noted. -/
theorem Reads.tidy {limit depth : Nat} {t : Task} {o : Outcome} (h : Reads limit depth t s o)
    (he : Ended s.rest) (hb : t.Begun s) (hs : s.Tidy) : o.parser.Tidy := by
  induction h with
  | @sync depth gate p s back =>
    have hread : Reads limit depth (.sync gate p) s _ := .sync back
    exact hs.work hread.work
  | nil | worn | wornTails | wornCall => exact hs
  | cons first _ ih ih' =>
    obtain ⟨ts, ha, he'⟩ := first.work.advances he
    rw [Task.Begun, List.forall_mem_cons] at hb
    exact ih' he' (fun t ht => (hb.2 t ht).advance ha) (ih he hb.1.begun hs)
  | stop _ ih => exact ih he (hb _ List.mem_cons_self).begun hs
  | token => exact hs.work (.token _ _ _ _ _)
  | oneOf => exact hs.work (.oneOf _ _ _ _ _)
  | invoke _ ih => exact ih he trivial hs
  | seq _ ih =>
    refine ih he (fun t ht => ?_) hs
    obtain ⟨f, -, rfl⟩ := List.mem_map.mp ht
    trivial
  | choice _ ih | opt _ ih | star _ ih | plus _ ih =>
    refine ih he ?_ hs
    simp [Task.Begun, Task.Inside, roundTasks]
  | picked _ choice _ _ ih =>
    have hlook : Work [] [] _ _ := .choose choice
    obtain ⟨-, -, he'⟩ := hlook.advances he
    exact ih he' trivial (hs.work hlook)
  | passed _ choice | unfit _ choice => exact hs.work (.choose choice)
  | again origin more _ ih =>
    have hlook : Work [] [] _ _ := .another more
    obtain ⟨-, -, he'⟩ := hlook.advances he
    refine ih he' (fun t ht => ?_) (hs.work hlook)
    rcases List.mem_append.mp ht with ht | ht
    · exact Task.inside_roundTasks origin t ht
    · obtain rfl := List.mem_singleton.mp ht
      trivial
  | done _ more | undecided _ more => exact hs.work (.another more)
  | @tail _ rule _ _ _ _ _ _ _ _ _ choice _ _ _ ih =>
    have hlook : Work [] [] _ _ := .predict choice
    obtain ⟨hb', he'⟩ := Began.work hb hlook he
    refine ih he' trivial fun c hc => ?_
    obtain rfl := List.mem_singleton.mp hc
    exact (hs.work hlook).node hb' rule
  | @lowTail _ rule _ _ _ _ _ _ _ _ choice =>
    have hlook : Work [] [] _ _ := .predict choice
    obtain ⟨hb', -⟩ := Began.work hb hlook he
    intro c hc
    obtain rfl := List.mem_singleton.mp hc
    exact (hs.work hlook).node hb' rule
  | noTail _ choice | unfitTail choice => exact hs.work (.predict choice)
  | againTails _ more _ ih =>
    have hlook : Work [] [] _ _ := .anotherTail more
    obtain ⟨hb', he'⟩ := Began.work hb hlook he
    refine ih he' ?_ (hs.work hlook)
    simpa [Task.Begun, Task.Inside, tailTasks] using hb'
  | doneTails more | undecidedTails more => exact hs.work (.anotherTail more)
  | plain _ _ ih => exact ih he trivial hs
  | operators _ _ ih =>
    refine ih he ?_ hs
    simpa [Task.Begun, Task.Inside] using began_of_fresh he hb
  | @call _ next rule _ _ s o read ih =>
    have hin : Ended (s.enter next).rest := he
    have hclose : Work [] [] o.parser (close rule o).parser := .closed (closed rule o)
    have htidy := (ih hin rfl (by simp [Tidy, enter])).work hclose
    obtain ⟨hb', he'⟩ := (began_of_fresh hin rfl).work read.work hin
    obtain ⟨hb'', -⟩ := hb'.work hclose he'
    intro c hc
    rw [children_leave] at hc
    rcases List.mem_cons.mp hc with rfl | hc
    · exact htidy.node hb'' rule
    · exact hs c hc

theorem each_spanned_parse (rule : Rule) (he : Ended s.rest) :
    (s.parse rule).1.Each Tree.Spanned := by
  obtain ⟨o, o', read, closed, hp⟩ := parse_cases rule s
  have hin : Ended s.outset.rest := he
  have hclose : Work [] [] o.parser o'.parser := .closed closed
  have htidy := (read.tidy hin rfl (by simp [Tidy, outset])).work hclose
  obtain ⟨hb, he'⟩ := (began_of_fresh hin rfl).work read.work hin
  obtain ⟨hb', -⟩ := hb.work hclose he'
  rw [hp]
  exact htidy.node hb' rule

end Parser

/-! ### Intervals of tokens -/

namespace Tree

private theorem tokens_sublist_tokensAll {c : Tree} {cs : List Tree} (h : c ∈ cs) :
    c.tokens.Sublist (tokensAll cs) := by
  induction cs with
  | nil => simp at h
  | cons d cs ih =>
    rw [tokensAll]
    rcases List.mem_cons.mp h with rfl | h
    · exact List.sublist_append_left _ _
    · exact (ih h).trans (List.sublist_append_right _ _)

/-- The tokens below a node of a tree are tokens of the tree, in the same order. -/
theorem tokens_sublist {n t : Tree} (h : n ∈ t.nodes) : n.tokens.Sublist t.tokens := by
  induction t using ofChildren with
  | leaf | missing => simp [nodes] at h
  | node rule start stop fields children ih =>
    rw [nodes, List.mem_cons] at h
    rcases h with rfl | h
    · exact .refl _
    · obtain ⟨c, hc, hn⟩ := mem_nodesAll.mp h
      exact (ih c hc hn).trans (tokens_sublist_tokensAll hc)

/-- What holds of all nodes of a tree holds of those below a node. -/
theorem Each.below {P : Tree → Prop} {n t : Tree} (h : t.Each P) (hn : n ∈ t.nodes) : n.Each P := by
  induction t using ofChildren with
  | leaf | missing => simp [nodes] at hn
  | node rule start stop fields children ih =>
    rw [nodes, List.mem_cons] at hn
    rcases hn with rfl | hn
    · exact h
    · obtain ⟨c, hc, hn⟩ := mem_nodesAll.mp hn
      exact ih c hc ((each_node.mp h).2 c hc) hn

end Tree

namespace Parser

end Parser

end ResourceNames.Java
