import ResourceNames.Proofs.TokenOrder

/-!
How the nodes of a tree come about.

Every node of a tree was made by the work on its rule, or wrapped around an operand. `Built` keeps
that work, so that what the nodes of a rule look like can be read off it, and says that the nodes
below are of rules that the rule calls.
-/
namespace ResourceNames.Java

/-- The rules of which a node of a rule may have children. -/
def Rule.parts (r : Rule) : List Rule := r.calls ++ r.wraps

def Tree.Each (P : Tree → Prop) (t : Tree) : Prop := ∀ n ∈ t.nodes, P n

namespace Tree

/-- What holds of leaves, and of a node if it holds of its children, holds of every tree. -/
@[elab_as_elim]
theorem ofChildren {P : Tree → Prop} (leaf : ∀ t stray, P (.leaf t stray))
    (missing : ∀ k, P (.missing k))
    (node : ∀ rule start stop fields children, (∀ c ∈ children, P c) →
      P (.node rule start stop fields children)) (t : Tree) : P t := by
  cases t with
  | leaf u stray => exact leaf u stray
  | missing k => exact missing k
  | node rule start stop fields children =>
    exact node rule start stop fields children fun c _ => ofChildren leaf missing node c

theorem isRule_eq_true_iff {t : Tree} {r : Rule} : t.isRule r = true ↔ t.rule? = some r := by
  cases t <;> simp [isRule, rule?]

theorem mem_nodesAll {n : Tree} {ts : List Tree} : n ∈ nodesAll ts ↔ ∃ t ∈ ts, n ∈ t.nodes := by
  induction ts with
  | nil => simp [nodesAll]
  | cons t ts ih => simp [nodesAll, ih]

theorem each_of_rule?_eq_none {P : Tree → Prop} {t : Tree} (h : t.rule? = none) : t.Each P := by
  cases t with
  | leaf | missing => simp [Each, nodes]
  | node => simp [rule?] at h

theorem each_node {P : Tree → Prop} {rule : Rule} {start : Token} {stop : Option Token}
    {fields : List (Field × Tree)} {children : List Tree} :
    (Tree.node rule start stop fields children).Each P ↔
      P (.node rule start stop fields children) ∧ ∀ c ∈ children, c.Each P := by
  simp only [Each, nodes, List.mem_cons, forall_eq_or_imp, mem_nodesAll]
  exact and_congr_right fun _ => ⟨fun h c hc n hn => h n ⟨c, hc, hn⟩,
    fun h n ⟨c, hc, hn⟩ => h c hc n hn⟩

theorem Each.mono {P Q : Tree → Prop} {t : Tree} (h : t.Each P) (hPQ : ∀ n, P n → Q n) :
    t.Each Q := fun n hn => hPQ n (h n hn)

end Tree

namespace Parser

/-- A parser whose tokens come from a source and that has learned only about loops. -/
structure Regular (s : Parser) : Prop where
  ended : Ended s.rest
  words : ∀ t ∈ s.rest, t.kind ≠ .eof → t.IsWord
  widened : ∀ w ∈ s.widened, w.1 ∈ Layout.backs

section

variable {calls wraps : List Rule} {s s' : Parser}

section

variable {P : Widened → Prop} (learn : ∀ {s : Parser} {p : Point} {wide : List Kind},
  p ∈ Layout.backs → s.Widens p wide → P s.widened →
    P ((p, wide) :: s.widened.filter fun w => w.1 != p))

include learn

private theorem Move.learned (h : Move s s') (hs : P s.widened) : P s'.widened := by
  cases h with
  | look | moveTo | settle | report | insert | note => exact hs
  | setField field part => cases field <;> exact hs
  | consume =>
    unfold Parser.consume
    split <;> exact hs
  | widen back wider => exact learn back wider hs

/-- What stays true whenever something is learned stays true. -/
private theorem Work.learned (h : Work calls wraps s s') (hs : P s.widened) : P s'.widened := by
  induction h with
  | refl => exact hs
  | move first _ ih => exact ih (first.learned learn hs)
  | wrap start own _ ih => exact ih hs
  | @call _ _ s t u rule next field _ _ _ _ ih ih' =>
    refine ih' ?_
    cases field <;> exact ih hs

theorem parse_learned (rule : Rule) {s : Parser} (hs : P s.widened) :
    P (s.parse rule).2.parser.widened := by
  obtain ⟨o, o', hr, hc, hp⟩ := parse_cases rule s
  have hlearned : P o'.parser.widened := (hr.work.trans (.closed hc)).learned learn hs
  rw [hp]
  exact hlearned

end

private theorem mem_backs_cons {p : Point} {wide : List Kind} (back : p ∈ Layout.backs)
    (hs : ∀ w ∈ s.widened, w.1 ∈ Layout.backs) :
    ∀ w ∈ (p, wide) :: s.widened.filter fun w => w.1 != p, w.1 ∈ Layout.backs := by
  intro w hw
  rcases List.mem_cons.mp hw with rfl | hw
  · exact back
  · exact hs w (List.mem_filter.mp hw).1

theorem Work.widened (h : Work calls wraps s s') (hs : ∀ w ∈ s.widened, w.1 ∈ Layout.backs) :
    ∀ w ∈ s'.widened, w.1 ∈ Layout.backs :=
  h.learned (P := fun widened => ∀ w ∈ widened, w.1 ∈ Layout.backs)
    (fun back _ => mem_backs_cons back) hs

/-- What is regular stays regular. -/
theorem Work.regular (h : Work calls wraps s s') (hs : s.Regular) : s'.Regular := by
  obtain ⟨ts, ha, he⟩ := h.advances hs.ended
  refine ⟨he, fun t ht => hs.words t ?_, h.widened hs.widened⟩
  rw [ha.rest]
  exact List.mem_append_right ts ht

private theorem Move.children (h : Move s s') :
    s'.children = s.children ∨ ∃ c, c.rule? = none ∧ s'.children = c :: s.children := by
  cases h with
  | look | moveTo | settle | report | widen | note => exact .inl rfl
  | setField field part => cases field <;> exact .inl rfl
  | insert k => exact .inr ⟨_, rfl, rfl⟩
  | consume =>
    unfold Parser.consume
    split
    · exact .inr ⟨_, rfl, rfl⟩
    · exact .inr ⟨_, rfl, rfl⟩
    · exact .inl rfl

theorem children_leave (rule : Rule) (field : Option Field) (s t : Parser) (h : Option Halt) :
    (leave rule field s ⟨t, h⟩).parser.children = t.node rule s.current :: s.children := by
  cases field <;> rfl

/-- Work without wraps adds children, and the nodes among them are of the rules that it calls. -/
theorem Work.grows (h : Work calls [] s s') :
    ∃ new, s'.children = new ++ s.children ∧ ∀ c ∈ new, ∀ r, c.rule? = some r → r ∈ calls := by
  generalize hw : ([] : List Rule) = wraps at h
  induction h with
  | refl => exact ⟨[], rfl, by simp⟩
  | move first _ ih =>
    obtain ⟨new, he, hn⟩ := ih hw
    rcases first.children with hc | ⟨c, hc, hs⟩
    · exact ⟨new, by rw [he, hc], hn⟩
    · refine ⟨new ++ [c], by rw [he, hs, List.append_assoc, List.singleton_append], ?_⟩
      intro d hd r hr
      rcases List.mem_append.mp hd with hd | hd
      · exact hn d hd r hr
      · rw [List.mem_singleton.mp hd, hc] at hr
        cases hr
  | wrap start own => simp [← hw] at own
  | @call _ _ s t u rule next field called _ _ _ _ ih =>
    obtain ⟨new, he, hn⟩ := ih hw
    rw [children_leave] at he
    refine ⟨new ++ [t.node rule s.current], by rw [he, List.append_assoc, List.singleton_append], ?_⟩
    intro d hd r hr
    rcases List.mem_append.mp hd with hd | hd
    · exact hn d hd r hr
    · rw [List.mem_singleton.mp hd] at hr
      exact Option.some.inj hr ▸ called

end

/-- A node that the work on a rule has made. -/
inductive Built : Tree → Prop where
  /-- The rule was read from a state in which no part of it was read. -/
  | read {rule : Rule} {s t : Parser} (regular : s.Regular) (fresh : s.children = [])
      (read : Finishes rule s t)
      (parts : ∀ c ∈ t.children, ∀ r, c.rule? = some r → r ∈ rule.parts) :
      Built (t.node rule s.current)
  /-- An operand was wrapped when a tail followed it. -/
  | wrapped {rule : Rule} {start : Token} {s : Parser} (own : Follow.hasOperators rule = true)
      (parts : ∀ c ∈ s.children, ∀ r, c.rule? = some r → r ∈ rule.parts) :
      Built (s.node rule start)

theorem Built.parts {rule : Rule} {start : Token} {stop : Option Token}
    {fields : List (Field × Tree)} {children : List Tree}
    (h : Built (.node rule start stop fields children)) {c : Tree} (hc : c ∈ children) {r : Rule}
    (hr : c.rule? = some r) : r ∈ rule.parts := by
  cases h with
  | read _ _ _ parts => exact parts c (List.mem_reverse.mp hc) r hr
  | wrapped _ parts => exact parts c (List.mem_reverse.mp hc) r hr

section

variable {calls wraps : List Rule} {s s' : Parser}

/-- The children of the node of a rule are as they should be. -/
private def BuiltFor (rule : Rule) (s : Parser) : Prop :=
  ∀ c ∈ s.children, (∀ r, c.rule? = some r → r ∈ rule.parts) ∧ c.Each Built

private theorem BuiltFor.node {rule : Rule} {t : Parser} (h : BuiltFor rule t) {start : Token}
    (hb : Built (t.node rule start)) : (t.node rule start).Each Built :=
  Tree.each_node.mpr ⟨hb, fun c hc => (h c (List.mem_reverse.mp hc)).2⟩

private theorem Work.builtFor (h : Work calls wraps s s') {rule : Rule} (hc : calls ⊆ rule.parts)
    (hw : wraps ⊆ rule.wraps) (hr : s.Regular) (hs : BuiltFor rule s) : BuiltFor rule s' := by
  induction h generalizing rule with
  | refl => exact hs
  | @move _ _ s t u first rest ih =>
    have hone : Work [] [] s t := .single first
    refine ih hc hw (hone.regular hr) fun c hm => ?_
    rcases first.children with he | ⟨d, hd, he⟩
    · exact hs c (he ▸ hm)
    · rcases List.mem_cons.mp (he ▸ hm) with rfl | hm
      · exact ⟨by simp [hd], Tree.each_of_rule?_eq_none hd⟩
      · exact hs c hm
  | @wrap _ _ s u own' start own rest ih =>
    have hown := hw own
    obtain ⟨ho, rfl⟩ : Follow.hasOperators rule = true ∧ own' = rule := by
      unfold Rule.wraps at hown
      split at hown
      · exact ⟨by assumption, List.mem_singleton.mp hown⟩
      · simp at hown
    refine ih hc hw ⟨hr.ended, hr.words, hr.widened⟩ fun c hm => ?_
    obtain rfl := List.mem_singleton.mp hm
    refine ⟨fun r hr => ?_, hs.node (.wrapped ho fun c hc => (hs c hc).1)⟩
    exact Option.some.inj hr ▸ List.mem_append_right _ hown
  | @call _ _ s t u callee next field called read inner rest ih ih' =>
    have hin : (s.enter next).Regular := ⟨hr.ended, hr.words, hr.widened⟩
    have ht := ih (List.subset_append_left _ _) (List.Subset.refl _) hin (by simp [BuiltFor, enter])
    have htr := inner.regular hin
    have hnode : (t.node callee (s.enter next).current).Each Built :=
      ht.node (.read hin rfl read fun c hm => (ht c hm).1)
    refine ih' hc hw ?_ fun c hm => ?_
    · cases field <;> exact ⟨htr.ended, htr.words, htr.widened⟩
    · rw [children_leave] at hm
      rcases List.mem_cons.mp hm with rfl | hm
      · exact ⟨fun r hr => Option.some.inj hr ▸ hc called, hnode⟩
      · exact hs c hm

/-- All nodes of the tree of a rule are built. -/
theorem each_built_parse (rule : Rule) (hs : s.Regular) : (s.parse rule).1.Each Built := by
  obtain ⟨o, o', hr, hc, hp⟩ := parse_cases rule s
  have hw := hr.work.trans (.closed hc)
  have hin : s.outset.Regular := ⟨hs.ended, hs.words, hs.widened⟩
  have ht := hw.builtFor (List.subset_append_left _ _) (List.Subset.refl _) hin
    (by simp [BuiltFor, outset])
  have hnode : (o'.parser.node rule s.outset.current).Each Built :=
    ht.node (.read hin rfl ⟨_, _, _, o, o'.halt, hr, hc⟩ fun c hm => (ht c hm).1)
  rw [hp]
  exact hnode

end

/-- Reading by a rule widens only what is expected in loops. -/
theorem widened_parse (rule : Rule) {s : Parser} (hs : ∀ w ∈ s.widened, w.1 ∈ Layout.backs) :
    ∀ w ∈ (s.parse rule).2.parser.widened, w.1 ∈ Layout.backs :=
  parse_learned (P := fun widened => ∀ w ∈ widened, w.1 ∈ Layout.backs)
    (fun back _ => mem_backs_cons back) rule hs

theorem regular_ofSource (text : String) {widened : Widened}
    (hw : ∀ w ∈ widened, w.1 ∈ Layout.backs) :
    (ofSource (.ofString text) widened).Regular := by
  refine ⟨ended_ofSource text widened, fun t ht hk => ?_, hw⟩
  rw [rest_ofSource, Source.toList_tokens_ofString] at ht
  rcases List.mem_append.mp (List.mem_filter.mp ht).1 with ht | ht
  · exact Source.isWord_of_mem_words ht
  · rw [List.mem_singleton.mp ht] at hk
    exact absurd rfl hk

end Parser

end ResourceNames.Java
