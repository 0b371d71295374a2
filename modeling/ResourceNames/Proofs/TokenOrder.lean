import ResourceNames.Proofs.Work
import ResourceNames.Proofs.Words

/-!
No token is lost, doubled or moved.

Whatever a parser does, also when it mends errors, the tokens it has passed are the leaves of the
nodes it has built, in the same order. `Advance s s' ts` says so of two states of a parser: between
them it passed the tokens `ts` and put exactly these into the tree.
-/
namespace ResourceNames.Java

namespace Tree

mutual

/-- The tokens of the source among the leaves of a tree, without the end. -/
def tokens : Tree → List Token
  | .leaf t _ => if t.kind = .eof then [] else [t]
  | .missing _ => []
  | .node _ _ _ _ children => tokensAll children

def tokensAll : List Tree → List Token
  | [] => []
  | t :: ts => t.tokens ++ tokensAll ts

end

@[simp] theorem tokensAll_append (ts us : List Tree) :
    tokensAll (ts ++ us) = tokensAll ts ++ tokensAll us := by
  induction ts with
  | nil => rfl
  | cons t ts ih => simp [tokensAll, ih]

end Tree

/-- The last token is the end, and only that one. -/
def Ended (ts : List Token) : Prop :=
  ∃ (us : List Token) (last : Token), ts = us ++ [last] ∧ last.kind = .eof ∧ ∀ u ∈ us, u.kind ≠ .eof

theorem Ended.tail {t u : Token} {ts : List Token} (h : Ended (t :: u :: ts)) :
    t.kind ≠ .eof ∧ Ended (u :: ts) := by
  obtain ⟨us, last, he, hl, hu⟩ := h
  cases us with
  | nil => simp at he
  | cons v us =>
    simp only [List.cons_append, List.cons.injEq] at he
    obtain ⟨rfl, he⟩ := he
    exact ⟨hu t List.mem_cons_self, us, last, he, hl, fun w hw => hu w (List.mem_cons_of_mem _ hw)⟩

theorem Ended.singleton {t : Token} (h : Ended [t]) : t.kind = .eof := by
  obtain ⟨us, last, he, hl, -⟩ := h
  cases us with
  | nil => simpa [List.cons.inj he] using hl
  | cons v us => simp at he

theorem Ended.ne_nil {ts : List Token} (h : Ended ts) : ts ≠ [] := by
  obtain ⟨us, last, rfl, -⟩ := h
  simp

namespace Parser

/-- The tokens in the node under construction. -/
def taken (s : Parser) : List Token := Tree.tokensAll s.children.reverse

/-- Between two states a parser passes some tokens and puts exactly these into the tree. -/
structure Advance (s s' : Parser) (ts : List Token) : Prop where
  rest : s.rest = ts ++ s'.rest
  taken : s'.taken = s.taken ++ ts
  previous : s'.previous = ts.getLast?.or s.previous
  source : s'.source = s.source

theorem Advance.of_eq {s s' : Parser} (hr : s'.rest = s.rest) (ht : s'.taken = s.taken)
    (hp : s'.previous = s.previous) (hs : s'.source = s.source) : Advance s s' [] :=
  ⟨by simp [hr], by simp [ht], by simp [hp], hs⟩

theorem Advance.trans {s t u : Parser} {ts us : List Token} (h : Advance s t ts)
    (h' : Advance t u us) : Advance s u (ts ++ us) where
  rest := by rw [h.rest, h'.rest, List.append_assoc]
  taken := by rw [h'.taken, h.taken, List.append_assoc]
  previous := by
    rw [h'.previous, h.previous, List.getLast?_append]
    cases us.getLast? <;> simp
  source := h'.source.trans h.source

private theorem Move.advances {s s' : Parser} (h : Move s s') (he : Ended s.rest) :
    ∃ ts, Advance s s' ts ∧ Ended s'.rest := by
  cases h with
  | look | moveTo | settle | report | widen | note => exact ⟨[], .of_eq rfl rfl rfl rfl, he⟩
  | setField field part => cases field <;> exact ⟨[], .of_eq rfl rfl rfl rfl, he⟩
  | insert k => exact ⟨[], .of_eq rfl (by simp [taken, Tree.tokensAll, Tree.tokens]) rfl rfl, he⟩
  | consume =>
    unfold Parser.consume
    split
    · rename_i t u ts hs
      rw [hs] at he
      have ht := he.tail
      exact ⟨[t], ⟨by simp [hs], by simp [taken, Tree.tokensAll, Tree.tokens, ht.1], by simp, rfl⟩,
        ht.2⟩
    · rename_i t hs
      rw [hs] at he
      exact ⟨[], .of_eq rfl (by simp [taken, Tree.tokensAll, Tree.tokens, he.singleton]) rfl rfl,
        hs ▸ he⟩
    · exact ⟨[], .of_eq rfl rfl rfl rfl, he⟩

@[simp] theorem taken_wrap (rule : Rule) (start : Token) (s : Parser) :
    (s.wrap rule start).taken = s.taken := by
  simp [wrap, taken, node, Tree.tokensAll, Tree.tokens]

private theorem Advance.leave {s t : Parser} {next : Point} {ts : List Token}
    (h : Advance (s.enter next) t ts) (rule : Rule) (field : Option Field) :
    Advance s (leave rule field s ⟨t, none⟩).parser ts := by
  have ht : Tree.tokensAll t.children.reverse = ts := by
    simpa [Parser.taken, enter, Tree.tokensAll] using h.taken
  have hc : Advance s { t with
      stack := s.stack
      children := t.node rule s.current :: s.children
      fields := s.fields
      here := pointAfter rule s.here t.here } ts :=
    ⟨h.rest, by simp [Parser.taken, node, Tree.tokensAll, Tree.tokens, ht], h.previous, h.source⟩
  cases field <;> exact ⟨hc.rest, hc.taken, hc.previous, hc.source⟩

/-- A parser at work advances. -/
theorem Work.advances {calls wraps : List Rule} {s s' : Parser} (h : Work calls wraps s s')
    (he : Ended s.rest) : ∃ ts, Advance s s' ts ∧ Ended s'.rest := by
  induction h with
  | refl => exact ⟨[], .of_eq rfl rfl rfl rfl, he⟩
  | move first _ ih =>
    obtain ⟨ts, ha, he⟩ := first.advances he
    obtain ⟨us, ha', he⟩ := ih he
    exact ⟨ts ++ us, ha.trans ha', he⟩
  | wrap start own _ ih =>
    obtain ⟨ts, ha, he⟩ := ih he
    exact ⟨ts, ⟨ha.rest, by simpa using ha.taken, ha.previous, ha.source⟩, he⟩
  | @call _ _ s t u rule next field _ _ _ _ ih ih' =>
    obtain ⟨ts, ha, he⟩ := ih he
    have hl := ha.leave rule field
    have hr : (leave rule field s ⟨t, none⟩).parser.rest = t.rest := by cases field <;> rfl
    obtain ⟨us, ha', he⟩ := ih' (hr ▸ he)
    exact ⟨ts ++ us, hl.trans ha', he⟩

/-- The tree of a rule holds the tokens that were passed. -/
theorem parse_advances (rule : Rule) (s : Parser) (he : Ended s.rest) :
    s.rest = (s.parse rule).1.tokens ++ (s.parse rule).2.parser.rest ∧
      Ended (s.parse rule).2.parser.rest ∧ (s.parse rule).2.parser.source = s.source := by
  obtain ⟨o, o', hr, hc, hp⟩ := parse_cases rule s
  obtain ⟨ts, ha, he'⟩ := (hr.work.trans (.closed hc)).advances he
  have ht : Tree.tokensAll o'.parser.children.reverse = ts := by
    simpa [taken, outset, Tree.tokensAll] using ha.taken
  rw [hp]
  exact ⟨by simpa [node, Tree.tokens, ht, outset, look] using ha.rest, he', ha.source⟩

/-- A parser before the first token has the visible tokens and the end before it. -/
theorem ended_ofSource (text : String) (widened : Widened) :
    Ended (ofSource (.ofString text) widened).rest := by
  refine ⟨_, _, Source.toList_visible_ofString text, rfl, fun t ht => ?_⟩
  exact (Source.isWord_of_mem_words (List.mem_filter.mp ht).1).1

theorem rest_ofSource (text : String) (widened : Widened) :
    (ofSource (.ofString text) widened).rest =
      (Source.ofString text).tokens.toList.filter Token.isVisible := by
  simp [ofSource, Source.ofString]

end Parser

end ResourceNames.Java
