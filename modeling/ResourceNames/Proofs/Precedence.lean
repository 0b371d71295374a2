import ResourceNames.Proofs.Outlines
import ResourceNames.Proofs.SharedTokens

/-!
Operators nest by their levels.

An operand goes on while the decision on its tails says so. Where it ends, the expression around it
decides on its own tails before the same tokens, so that a tail which the operand could have had is not
read there either. What is known of the operand in front of a tail is carried along the tails of an
expression, and from one expression to all of a tree.
-/
namespace ResourceNames.Java

open Computability Layout

-- What the tables hold is known from lemmas. Comparing terms must not evaluate them.
attribute [local irreducible] Reach.point Item.ofPoint Item.owner Follow.expected Follow.settled?

namespace Tree

/-- The operators of an expression and of those at its ends nest by their levels. Only a shift to the left
may have a comparison in front of it that should come after it, and only outside of a whole unit. -/
structure Nests (out : Rule) (n : Tree) : Prop where
  last : ∀ {l b j}, n.lastOperand? = some l → n.bound? = some b → l.level? = some j → b ≤ j
  first : ∀ {f k b}, n.firstOperand? = some f → n.level? = some k → f.bound? = some b →
    k < b ∨ out ≠ .compilationUnit ∧ n.isLeftShift = true ∧ b = 15

end Tree

namespace Parser

variable {limit depth : Nat} {out r : Rule} {s s' m : Parser} {t : Task} {ts : List Task}
  {after : Language Kind} {ops : Operators} {level : Nat} {start : Token}

/-! ### What is done without a report -/

theorem Guided.split (h : Guided out r (.all (t :: ts)) s after)
    (first : Reads limit depth t s ⟨m, none⟩) :
    (∃ mid, Guided out r t s mid) ∧ Guided out r (.all ts) m after := by
  obtain ⟨mid, hfirst, hrest⟩ := h.cons
  refine ⟨⟨mid, hfirst⟩, hrest m first.work.stack fun hunit => ?_⟩
  subst hunit
  exact ((first.kept hfirst).halt.resolve_right (by simp)).2

theorem anotherTail_ok {more : Bool} (h : anotherTail r ops level s = (s', .ok more)) :
    ∃ a, ((Decision.again r ops level).decide s.stack s.rest).choice = .ok a ∧ (a == 1) = more := by
  unfold anotherTail at h
  split at h
  · rename_i a hpredict
    exact ⟨a, (predict_ok hpredict).2, Except.ok.inj (Prod.mk.inj h).2⟩
  · cases h

/-- Looking ahead for a tail finds one. -/
theorem exists_tail_of_predict {alt : Nat} (h : s.predict (.tail ops level) = (s', .ok alt)) :
    ∃ x, ops.tails[alt - 1]? = some x := by
  obtain ⟨_, _, d, hd, rfl, -⟩ := Decision.exists_of_decide (predict_ok h).2
  obtain ⟨c, hc, -, halt, -⟩ := Config.mem_gather hd
  obtain ⟨i, x, hi, -, hspread⟩ := Decision.mem_startTails.mp hc
  exact ⟨x, by rw [← halt, Config.alt_of_mem_spread hspread, Nat.add_sub_cancel_left, hi]⟩

/-- A task of a rule is done under calls that lead out to another one, and nothing is reported. -/
structure Goes (limit depth : Nat) (out r : Rule) (t : Task) (s s' : Parser) : Prop where
  reads : Reads limit depth t s ⟨s', none⟩
  ended : Ended s.rest
  calm : Calm s s'
  guided : ∃ after, Guided out r t s after

namespace Goes

theorem does (h : Goes limit depth out r t s s') : t.Does s.made s'.made :=
  h.reads.does h.ended h.calm rfl

theorem stack (h : Goes limit depth out r t s s') : s'.stack = s.stack := h.reads.work.stack

theorem leads (h : Goes limit depth out r t s s') : Leads r s.stack out := by
  obtain ⟨_, hg⟩ := h.guided
  exact hg.leads

theorem sync {gate : Gate} {p : Point} (h : Goes limit depth out r (.sync gate p) s s') :
    Stays s s' := by
  obtain ⟨rfl, -⟩ := h.reads.sync_calm h.calm
  exact .moveTo s p

theorem nil (h : Goes limit depth out r (.all []) s s') : s' = s := by
  cases h.reads
  rfl

theorem cons (h : Goes limit depth out r (.all (t :: ts)) s s') :
    ∃ m, Goes limit depth out r t s m ∧ Goes limit depth out r (.all ts) m s' := by
  obtain ⟨reads, he, hc, after, hg⟩ := h
  cases reads with
  | @cons _ _ _ _ m _ first rest =>
    obtain ⟨hg₁, hg₂⟩ := hg.split first
    obtain ⟨hc₁, hc₂⟩ := hc.split first.work rest.work
    obtain ⟨-, -, he'⟩ := first.work.advances he
    exact ⟨m, ⟨first, he, hc₁, hg₁⟩, rest, he', hc₂, after, hg₂⟩

/-- The last of some tasks. -/
theorem last (h : Goes limit depth out r (.all (ts ++ [t])) s s') :
    ∃ m, Goes limit depth out r t m s' := by
  induction ts generalizing s with
  | nil =>
    obtain ⟨m, ht, hnil⟩ := h.cons
    exact ⟨s, hnil.nil ▸ ht⟩
  | cons u us ih =>
    obtain ⟨m, -, hus⟩ := h.cons
    exact ih hus

theorem call {next : Point} {rule : Rule} {field : Option Field}
    (h : Goes limit depth out r (.call next rule level field) s s') :
    ∃ inner m, Goes limit inner out rule (.body rule level) (s.enter next) m ∧
      s' = (leave rule field s ⟨m, none⟩).parser := by
  obtain ⟨reads, he, hc, after, hg⟩ := h
  generalize ho : (⟨s', none⟩ : Outcome) = o at reads
  cases reads with
  | @call inner _ _ _ _ _ o read =>
    obtain rfl : s' = _ := congrArg Outcome.parser ho
    obtain ⟨hc₁, hc₂⟩ := hc.split_call read
    obtain ⟨hclose, -⟩ := close_calm (closed rule o) hc₂
    obtain ⟨m, halt⟩ := o
    obtain rfl : halt = none := (congrArg Outcome.halt (ho.trans (congrArg _ hclose))).symm
    exact ⟨inner, m, ⟨read, he, hc₁, after, hg.call⟩, by rw [hclose]⟩
  | wornCall => cases ho

theorem seq {entry : Point} {fs : List Form} (h : Goes limit depth out r (.form (.seq entry fs)) s s') :
    Goes limit depth out r (.all (fs.map .form)) s s' := by
  obtain ⟨reads, he, hc, after, hg⟩ := h
  cases reads with
  | seq all => exact ⟨all, he, hc, after, hg.seq⟩

theorem invoke {here next : Point} {rule : Rule} {field : Option Field}
    (h : Goes limit depth out r (.form (.call here next rule level field)) s s') :
    Goes limit depth out r (.call next rule level field) (s.moveTo here) s' := by
  obtain ⟨reads, he, hc, after, hg⟩ := h
  cases reads with
  | invoke call => exact ⟨call, he, hc.moveTo here, after, hg.invoke⟩

/-- One of some forms is read. -/
theorem choice {first join : Point} {alts : List Form}
    (h : Goes limit depth out r (.form (.choice first join alts)) s s') :
    ∃ m, ∃ f ∈ alts, Stays s m ∧ Goes limit depth out r (.form f) m s' := by
  obtain ⟨reads, he, hc, after, hg⟩ := h
  cases reads with
  | choice all =>
    obtain ⟨m, hsync, hpick⟩ := Goes.cons ⟨all, he, hc, after, hg.choice⟩
    obtain ⟨m', hpick, hnil⟩ := hpick.cons
    obtain rfl := hnil.nil
    obtain ⟨reads, he', hc', after, hg⟩ := hpick
    cases reads with
    | @picked _ _ _ _ _ _ m' _ f _ origin choice alt read =>
      have hlooks := choose_looks choice
      exact ⟨m', f, List.mem_of_getElem? alt, hsync.sync.trans (.looked hlooks), read,
        rest_of_looked hlooks ▸ he', hc'.of_looked hlooks, after, hg.picked origin choice alt⟩
    | passed origin choice beyond => cases origin.chosen choice beyond

/-- What starts an expression is read, and then its tails. -/
theorem operators (h : Goes limit depth out r (.body r level) s s')
    (ho : (ruleForm r).body = .operators ops) :
    ∃ m m' start rounds, Goes limit depth out r (.form ops.heads) s m ∧ Stays m m' ∧
      Goes limit depth out r (.tails r ops level start rounds) m' s' := by
  obtain ⟨reads, he, hc, after, hg⟩ := h
  cases reads with
  | plain form read => cases form.symm.trans ho
  | operators form all =>
    cases form.symm.trans ho
    obtain ⟨m, hheads, h⟩ := Goes.cons ⟨all, he, hc, after, hg.operators form⟩
    obtain ⟨m', hsync, h⟩ := h.cons
    obtain ⟨m'', htails, hnil⟩ := h.cons
    obtain rfl := hnil.nil
    exact ⟨m, m', _, _, hheads, hsync.sync, htails⟩

/-- No tail follows, or one is read and then further ones. -/
theorem tails {rounds : Nat} (h : Goes limit depth out r (.tails r ops level start rounds) s s') :
    Stays s s' ∧ (∃ a, ((Decision.again r ops level).decide s.stack s.rest).choice = .ok a ∧ a ≠ 1) ∨
      ∃ n m u u', rounds = n + 1 ∧ Stays s m ∧
        ((Decision.again r ops level).decide s.stack s.rest).choice = .ok 1 ∧
        Goes limit depth out r (.tail r ops level start) m u ∧ Stays u u' ∧
        Goes limit depth out r (.tails r ops level start n) u' s' := by
  obtain ⟨reads, he, hc, after, hg⟩ := h
  cases reads with
  | @againTails _ _ _ _ _ n _ m _ form more all =>
    have hlooks := anotherTail_looks more
    obtain ⟨m₁, h₁, h⟩ := Goes.cons (s := m) ⟨all, rest_of_looked hlooks ▸ he, hc.of_looked hlooks, after,
      hg.againTails form more⟩
    obtain ⟨m₂, h₂, h⟩ := h.cons
    obtain ⟨m₃, h₃, h⟩ := h.cons
    obtain ⟨m₄, h₄, hnil⟩ := h.cons
    obtain rfl := hnil.nil
    obtain ⟨a, hchoice, hone⟩ := anotherTail_ok more
    exact .inr ⟨n, m₁, m₂, m₃, rfl, .trans (.looked hlooks) h₁.sync, beq_iff_eq.mp hone ▸ hchoice, h₂,
      h₃.sync, h₄⟩
  | doneTails more =>
    obtain ⟨a, hchoice, hone⟩ := anotherTail_ok more
    exact .inl ⟨.looked (anotherTail_looks more), a, hchoice, beq_eq_false_iff_ne.mp hone⟩

/-- A tail is read whose level is not too low and that begins with the next token. -/
theorem tail (h : Goes limit depth out r (.tail r ops level start) s s')
    (ho : (ruleForm r).body = .operators ops) :
    ∃ m, ∃ x ∈ ops.tails, level ≤ x.1 ∧ Begins s.current.kind (Layout.rest x.2.entry) ∧ Stays s m ∧
      Goes limit depth out r (.form x.2) (m.wrap r start) s' := by
  obtain ⟨reads, he, hc, after, hg⟩ := h
  cases reads with
  | @tail _ _ _ _ _ _ m _ x _ form choice found allowed read =>
    have hlooks := predict_looks choice
    have hc' : Calm m s' := hc.of_looked hlooks
    exact ⟨m, x, List.mem_of_getElem? found, allowed, predict_tail_begins he ho choice found,
      .looked hlooks, read, rest_of_looked hlooks ▸ he, ⟨hc'.root, hc'.idle, hc'.reports⟩, after,
      hg.tail form choice found⟩
  | noTail form choice found =>
    obtain ⟨x, hx⟩ := exists_tail_of_predict choice
    cases found.symm.trans hx

/-! ### Operands -/

/-- What starts an expression is read. -/
theorem heads (h : Goes limit depth out r (.form ops.heads) s s')
    (ho : (ruleForm r).body = .operators ops) :
    ∃ m f, f.phrase ∈ Grammar.heads ∧ Stays s m ∧ Goes limit depth out r (.form f) m s' := by
  have hphrase := Operators.phrase_heads ho
  cases hheads : ops.heads with
  | choice first join alts =>
    rw [hheads] at h hphrase
    obtain ⟨m, f, hf, hstays, hform⟩ := h.choice
    rw [Form.phrase, Form.phrases_eq_map] at hphrase
    exact ⟨m, f, Phrase.choice.inj hphrase ▸ List.mem_map_of_mem hf, hstays, hform⟩
  | token | oneOf | call | seq | opt | star | plus =>
    rw [hheads] at hphrase
    cases hphrase

/-- What starts an expression has no level. -/
theorem level_heads (h : Goes limit depth out r (.form ops.heads) s s')
    (ho : (ruleForm r).body = .operators ops) (hs : s.made = []) :
    Part.level? (s'.made.map Tree.part) = none := by
  obtain ⟨m, f, hf, ⟨_, _, rfl⟩, hform⟩ := h.heads ho
  obtain ⟨new, hmade, hword, -⟩ : Tree.Adds f.phrase.Word s.made s'.made := hform.does
  rw [hmade, hs]
  exact (hword.level_head hf).1

theorem level_tail (h : Goes limit depth out r (.tail r ops level start) s s')
    (ho : (ruleForm r).body = .operators ops) {j : Nat}
    (hj : Part.level? (s'.made.map Tree.part) = some j) : level ≤ j := by
  obtain ⟨m, x, hx, hlevel, -, -, hform⟩ := h.tail ho
  obtain ⟨new, hmade, hword, -⟩ : Tree.Adds x.2.phrase.Word (m.wrap r start).made s'.made := hform.does
  obtain rfl := Rule.eq_expression ho
  have hx' : Part.level? (s'.made.map Tree.part) = some x.1 := by
    rw [hmade, made_wrap]
    exact (Phrase.Word.level_tail hword (Operators.mem_tails ho hx)).1
  rwa [← Option.some.inj (hx'.symm.trans hj)]

/-- Tails end where the decision on a further one says no, and have no lower level than is allowed. -/
theorem level_tails {rounds : Nat} (h : Goes limit depth out r (.tails r ops level start rounds) s s')
    (ho : (ruleForm r).body = .operators ops)
    (hs : ∀ j, Part.level? (s.made.map Tree.part) = some j → level ≤ j) :
    (∀ j, Part.level? (s'.made.map Tree.part) = some j → level ≤ j) ∧
      ∃ a, ((Decision.again r ops level).decide s'.stack s'.rest).choice = .ok a ∧ a ≠ 1 := by
  induction rounds generalizing s with
  | zero =>
    obtain ⟨⟨_, _, rfl⟩, hends⟩ | ⟨_, _, _, _, hn, -⟩ := h.tails
    · exact ⟨hs, hends⟩
    · cases hn
  | succ n ih =>
    obtain ⟨⟨_, _, rfl⟩, hends⟩ | ⟨_, m, u, _, hn, -, -, htail, ⟨_, _, rfl⟩, htails⟩ := h.tails
    · exact ⟨hs, hends⟩
    · cases hn
      exact ih htails fun j => htail.level_tail ho

/-- What is read as an operand. -/
theorem level_body (h : Goes limit depth out r (.body r level) s s')
    (ho : (ruleForm r).body = .operators ops) (hs : s.made = []) :
    (∀ j, Part.level? (s'.made.map Tree.part) = some j → level ≤ j) ∧
      ∃ a, ((Decision.again r ops level).decide s'.stack s'.rest).choice = .ok a ∧ a ≠ 1 := by
  obtain ⟨m, m', start, rounds, hheads, ⟨_, _, rfl⟩, htails⟩ := h.operators ho
  refine htails.level_tails ho fun j hj => ?_
  cases (hheads.level_heads ho hs).symm.trans hj

end Goes

/-- An operand has ended here that was read with a level: it has returned to its end, and there no
further tail was read. -/
def EndsOperand (out : Rule) (ops : Operators) (level : Nat) (s : Parser) : Prop :=
  ∃ ret, Config.isOperandEnd ret = true ∧ Leads .expression (ret :: s.stack) out ∧
    ∃ a, ((Decision.again .expression ops level).decide (ret :: s.stack) s.rest).choice = .ok a ∧ a ≠ 1

end Parser

/-- A form that ends with an operand. -/
theorem Form.exists_operand {f : Form} {b : Nat} (h : f.phrase.operand? = some b) :
    ∃ entry parts here next field, f = .seq entry (parts ++ [.call here next .expression b field]) ∧
      b ≠ 0 := by
  cases f with
  | seq entry parts =>
    rw [Form.phrase, Form.phrases_eq_map] at h
    cases parts using List.reverseRecOn with
    | nil => cases h
    | append_singleton parts g =>
      simp only [Phrase.operand?, List.map_append, List.map_singleton, List.getLast?_concat] at h
      split at h
      · rename_i b' field hg
        split at h
        · cases h
        · rename_i hb
          obtain rfl := Option.some.inj h
          cases g with
          | call here next rule level field' =>
            cases hg
            exact ⟨entry, parts, here, next, _, rfl, hb⟩
          | token | oneOf | seq | choice | opt | star | plus => cases hg
      · cases h
  | token | oneOf | call | choice | opt | star | plus => cases h

namespace Parser

variable {limit depth : Nat} {out r : Rule} {s s' m : Parser} {t : Task} {ts : List Task}
  {after : Language Kind} {ops : Operators} {level : Nat} {start : Token} {f : Form} {b : Nat}

theorem Guided.site {next : Point} {rule : Rule} {field : Option Field}
    (h : Guided out r (.call next rule level field) s after) : ⟨level, next⟩ ∈ Follow.sites rule := by
  obtain ⟨-, _, hb, -⟩ := h
  cases hb with
  | call stands site => exact site

theorem stack_leave (rule : Rule) (field : Option Field) (s : Parser) (o : Outcome) :
    (leave rule field s o).parser.stack = s.stack := by
  cases field <;> rfl

theorem rest_leave (rule : Rule) (field : Option Field) (s : Parser) (o : Outcome) :
    (leave rule field s o).parser.rest = o.parser.rest := by
  cases field <;> rfl

/-- A form that ends with an operand is left where the operand ends. The operand has no lower level than
it was read with. -/
theorem Goes.operand (h : Goes limit depth out .expression (.form f) s s')
    (ho : (ruleForm .expression).body = .operators ops) (hb : f.phrase.operand? = some b) :
    s'.EndsOperand out ops b ∧
      ∃ l, s'.made.getLast? = some l ∧ ∀ j, l.level? = some j → b ≤ j := by
  obtain ⟨entry, parts, here, next, field, rfl, hne⟩ := Form.exists_operand hb
  have hall := h.seq
  rw [List.map_append, List.map_singleton] at hall
  obtain ⟨m, hlast⟩ := hall.last
  obtain ⟨_, hg⟩ := hlast.invoke.guided
  obtain ⟨inner, m', hbody, rfl⟩ := hlast.invoke.call
  obtain ⟨hlevel, hends⟩ := hbody.level_body ho rfl
  rw [hbody.stack] at hends
  refine ⟨⟨next, ?_, ?_, ?_⟩, m'.node .expression (m.moveTo here).current, ?_, hlevel⟩
  · exact (Follow.proper_of_mem_sites hg.site).operand.resolve_left hne
  · rw [stack_leave]
    exact hbody.leads
  · rw [stack_leave, rest_leave]
    exact hends
  · rw [made_leave, List.getLast?_concat]

/-! ### Expressions -/

/-- The expression that is read so far nests, has no lower level than is allowed, and if it ends with an
operand, that has ended here. -/
structure Ranked (out : Rule) (ops : Operators) (level : Nat) (s : Parser) : Prop where
  nests : ∀ start, (s.node .expression start).Nests out
  level : ∀ {j}, Part.level? (s.made.map Tree.part) = some j → level ≤ j
  ends : ∀ {b}, Part.bound? (s.made.map Tree.part) = some b → s.EndsOperand out ops b

theorem Ranked.stays (h : Ranked out ops level s) (hs : Stays s s') : Ranked out ops level s' := by
  obtain ⟨_, _, rfl⟩ := hs
  exact ⟨h.nests, h.level, h.ends⟩

/-- Where the grammar reads the last operand with the level it needs, the operand has it. -/
theorem Goes.last_level (h : Goes limit depth out .expression (.form f) s s')
    (ho : (ruleForm .expression).body = .operators ops)
    (hbound : Part.bound? (s'.made.map Tree.part) = f.phrase.operand?) {l : Tree} {j : Nat}
    (hl : (s'.node .expression start).lastOperand? = some l)
    (hb : (s'.node .expression start).bound? = some b) (hj : l.level? = some j) : b ≤ j := by
  obtain ⟨-, l', hlast, hlevel⟩ := h.operand ho (hbound.symm.trans hb)
  obtain ⟨hl, -⟩ := Option.filter_eq_some_iff.mp hl
  obtain rfl := Option.some.inj (hlast.symm.trans hl)
  exact hlevel j hj

theorem Goes.ranked_heads (h : Goes limit depth out .expression (.form ops.heads) s s')
    (ho : (ruleForm .expression).body = .operators ops) (hs : s.made = []) :
    Ranked out ops level s' := by
  obtain ⟨m, f, hf, ⟨_, _, rfl⟩, hform⟩ := h.heads ho
  obtain ⟨new, hmade, hword, -⟩ : Tree.Adds f.phrase.Word s.made s'.made := hform.does
  rw [hs, List.nil_append] at hmade
  rw [← hmade] at hword
  obtain ⟨hlevel, hbound⟩ := hword.level_head hf
  refine ⟨fun start => ⟨hform.last_level ho hbound, fun _ hk => ?_⟩, fun hj => ?_, fun hb => ?_⟩
  · cases hlevel.symm.trans hk
  · cases hlevel.symm.trans hj
  · exact (hform.operand ho (hbound.symm.trans hb)).1

/-- What is added for a form, and the tokens of it. -/
theorem Goes.adds (h : Goes limit depth out r (.form f) s s') :
    ∃ new, s'.made = s.made ++ new ∧ f.phrase.Word (new.map Tree.part) ∧ (∀ c ∈ new, c.IsSound) ∧
      s.rest = Tree.tokensAll new ++ s'.rest := by
  obtain ⟨new, hmade, hword, hsound⟩ : Tree.Adds f.phrase.Word s.made s'.made := h.does
  obtain ⟨ts, ha, -⟩ := h.reads.work.advances h.ended
  have htaken := ha.taken
  rw [taken_eq, taken_eq, hmade, Tree.tokensAll_append, List.append_cancel_left_eq] at htaken
  exact ⟨new, hmade, hword, hsound, htaken ▸ ha.rest⟩

theorem Guided.before (h : Guided .compilationUnit r (.form f) s after) :
    ∃ w ∈ rests (f.entry :: s.stack), Before w s := by
  obtain ⟨-, _, hb, hw⟩ := h
  cases hb with
  | form inside sits => exact hw rfl

/-- In a whole unit a tail after an operand has a lower level than those of the operand. -/
private theorem level_lt_of_unit {x : Nat × Form}
    (ho : (ruleForm .expression).body = .operators ops) (hx : x ∈ ops.tails)
    (h : Goes limit depth .compilationUnit .expression (.form x.2) s s')
    (hends : s.EndsOperand .compilationUnit ops b) : x.1 < b := by
  obtain ⟨ret, hend, hl, a, hchoice, ha⟩ := hends
  obtain ⟨_, hg⟩ := h.guided
  obtain ⟨w, hw, hbefore⟩ := hg.before
  have hmap : s.rest.map Token.kind = w :=
    hbefore.map_kind fun hnil => Decision.nil_not_mem_entry ho hx (hnil ▸ hw)
  by_contra hle
  refine ha (Decision.again_of_tailFollows ho hl h.ended ⟨x, hx, not_lt.mp hle, ?_⟩ hchoice)
  rwa [Decision.rests_entry_operandEnd ho hl hend hx, hmap]

end Parser

/-- A sound child that is a token of the source. -/
theorem Tree.IsSound.tokens_eq {c : Tree} {k : Kind} (h : c.IsSound) (hp : c.part = .token k)
    (hk : k ≠ .eof) : ∃ u, c.tokens = [u] ∧ u.kind = k := by
  cases c with
  | leaf u stray =>
    obtain rfl : u.kind = k := Part.token.inj hp
    exact ⟨u, if_neg hk, rfl⟩
  | missing => cases h.1
  | node => cases hp

theorem Tree.tokensAll_of_angles {cs : List Tree} (hs : ∀ c ∈ cs, c.IsSound)
    (h : [.token .gt, .token .gt] <+: cs.map part) :
    ∃ t u us, tokensAll cs = t :: u :: us ∧ t.kind = .gt ∧ u.kind = .gt := by
  obtain ⟨w, hw⟩ := h
  obtain ⟨c, cs, rfl, hc, hcs⟩ := List.map_eq_cons_iff.mp hw.symm
  obtain ⟨d, ds, rfl, hd, -⟩ := List.map_eq_cons_iff.mp hcs
  obtain ⟨t, ht, hkt⟩ := (hs c (by simp)).tokens_eq hc (by decide)
  obtain ⟨u, hu, hku⟩ := (hs d (by simp)).tokens_eq hd (by decide)
  exact ⟨t, u, tokensAll ds, by simp [tokensAll, ht, hu], hkt, hku⟩

namespace Parser

variable {limit depth : Nat} {out r : Rule} {s s' m : Parser} {t : Task} {ts : List Task}
  {after : Language Kind} {ops : Operators} {level : Nat} {start : Token} {f : Form} {b : Nat}

/-- A tail after an operand has a lower level than those of the operand, or is a shift to the left after
that of a comparison. -/
private theorem level_lt_of_tail {x : Nat × Form} {first : Token}
    (h : Goes limit depth out .expression (.form x.2) (s.wrap .expression first) s')
    (ho : (ruleForm .expression).body = .operators ops) (hx : x ∈ ops.tails)
    (hbegins : Begins s.current.kind (Layout.rest x.2.entry)) (hlevel : level ≤ x.1)
    (hmore : ((Decision.again .expression ops level).decide s.stack s.rest).choice = .ok 1)
    (hends : s.EndsOperand out ops b) (hb : b ≤ 15 → level < 15) :
    x.1 < b ∨ out ≠ .compilationUnit ∧ (s'.node .expression start).isLeftShift = true ∧ b = 15 := by
  by_cases hunit : out = .compilationUnit
  · subst hunit
    exact .inl (level_lt_of_unit ho hx h hends)
  · obtain ⟨ret, hend, hl, a, hchoice, ha⟩ := hends
    obtain ⟨u, us, hrest⟩ := List.exists_cons_of_ne_nil (show s.rest ≠ [] from h.ended.ne_nil)
    have hcurrent : s.current = u := by simp [current, hrest]
    rw [hcurrent] at hbegins
    rw [hrest] at hmore hchoice
    refine (Decision.level_lt_of_again ho hl hend hx hbegins hlevel (fun h => Nat.le_of_lt_succ (hb h))
      hmore hchoice ha).imp_right ?_
    rintro ⟨hshift, hb, hangles⟩
    refine ⟨hunit, ?_, hb⟩
    obtain ⟨new, hmade, hword, hsound, htokens⟩ := h.adds
    rcases hword.angles (Operators.mem_tails ho hx) hshift with ⟨w, hw⟩ | hangle
    · refine List.isPrefixOf_iff_prefix.mpr ⟨w, ?_⟩
      have hparts : s'.made.map Tree.part = .rule .expression :: new.map Tree.part := by
        rw [hmade]
        rfl
      exact (congrArg _ hw).trans hparts.symm
    · obtain ⟨t, v, vs, hnew, ht, hv⟩ := Tree.tokensAll_of_angles hsound hangle
      have hrest' : u :: us = t :: v :: (vs ++ s'.rest) := by
        rw [← hrest, ← List.cons_append, ← List.cons_append, ← hnew]
        exact htokens
      obtain ⟨rfl, rfl⟩ := List.cons.inj hrest'
      exact absurd ⟨ht, hv⟩ (hangles v _ rfl)

/-- A tail keeps what is known of an expression. -/
theorem Goes.ranked_tail (h : Goes limit depth out .expression (.tail .expression ops level start) s s')
    (ho : (ruleForm .expression).body = .operators ops) (hs : Ranked out ops level s)
    (hmore : ((Decision.again .expression ops level).decide s.stack s.rest).choice = .ok 1) :
    Ranked out ops level s' := by
  obtain ⟨m, x, hx, hallowed, hbegins, ⟨_, _, rfl⟩, hform⟩ := h.tail ho
  obtain ⟨new, hmade, hword, -⟩ := hform.adds
  obtain ⟨hlevel, hbound⟩ := hword.level_tail (Operators.mem_tails ho hx)
  have hparts : s'.made.map Tree.part = .rule .expression :: new.map Tree.part := by
    rw [hmade]
    rfl
  rw [← hparts] at hlevel hbound
  refine ⟨fun start => ⟨hform.last_level ho hbound, fun {f k b} hf hk hb => ?_⟩, fun hj => ?_, fun hb => ?_⟩
  · obtain rfl : x.1 = k := Option.some.inj (hlevel.symm.trans hk)
    obtain ⟨hhead, -⟩ := Option.filter_eq_some_iff.mp hf
    have hhead : s'.made.head? = some f := hhead
    rw [hmade] at hhead
    obtain rfl := Option.some.inj hhead
    exact level_lt_of_tail hform ho hx hbegins hallowed hmore (hs.ends hb) fun hle => by
      obtain ⟨j, hj, hlt⟩ := Part.level_of_bound hb hle
      exact (hs.level hj).trans_lt hlt
  · exact h.level_tail ho hj
  · exact (hform.operand ho (hbound.symm.trans hb)).1

theorem Goes.ranked_tails {rounds : Nat}
    (h : Goes limit depth out .expression (.tails .expression ops level start rounds) s s')
    (ho : (ruleForm .expression).body = .operators ops) (hs : Ranked out ops level s) :
    Ranked out ops level s' := by
  induction rounds generalizing s with
  | zero =>
    obtain ⟨hstays, -⟩ | ⟨_, _, _, _, hn, -⟩ := h.tails
    · exact hs.stays hstays
    · cases hn
  | succ n ih =>
    obtain ⟨hstays, -⟩ | ⟨_, m, u, u', hn, hstays, hmore, htail, hstays', htails⟩ := h.tails
    · exact hs.stays hstays
    · cases hn
      have hm := hs.stays hstays
      obtain ⟨_, _, rfl⟩ := hstays
      exact ih htails ((htail.ranked_tail ho hm hmore).stays hstays')

/-- What is read as an expression. -/
theorem Goes.ranked_body (h : Goes limit depth out .expression (.body .expression level) s s')
    (ho : (ruleForm .expression).body = .operators ops) (hs : s.made = []) :
    Ranked out ops level s' := by
  obtain ⟨m, m', start, rounds, hheads, hstays, htails⟩ := h.operators ho
  exact htails.ranked_tails ho ((hheads.ranked_heads ho hs).stays hstays)

/-! ### Trees -/

/-- The expressions in what has been read nest. -/
def Nested (out : Rule) (s : Parser) : Prop := ∀ c ∈ s.made, c.Each (Tree.Nests out)

theorem Nested.of_made (h : Nested out s) (hm : s'.made = s.made) : Nested out s' := by
  rwa [Nested, hm]

mutual

/-- What has to be known when a task is begun: of the expression before a tail, and of the tasks after
the first one whatever that does. -/
def Task.Ready (limit depth : Nat) (out r : Rule) : Task → Parser → Prop
  | .all ts, s => ReadyAll limit depth out r ts s
  | .tail .., s => ∀ start, (s.node .expression start).Nests out
  | .tails _ ops level .., s => Ranked out ops level s
  | .body .., s => s.made = []
  | _, _ => True

def Task.ReadyAll (limit depth : Nat) (out r : Rule) : List Task → Parser → Prop
  | [], _ => True
  | t :: ts, s => t.Ready limit depth out r s ∧
      ∀ m, Goes limit depth out r t s m → ReadyAll limit depth out r ts m

end

private theorem readyAll_forms (fs : List Form) (s : Parser) :
    Task.ReadyAll limit depth out r (fs.map .form) s := by
  induction fs generalizing s with
  | nil => trivial
  | cons f fs ih => exact ⟨trivial, fun m _ => ih m⟩

private theorem readyAll_round (back : Point) (body : Form) (entry : Point) (points : List Point)
    (round : List Task) (rounds : Nat) (s : Parser) :
    Task.ReadyAll limit depth out r (roundTasks back body ++ [.loop entry points round rounds]) s :=
  ⟨trivial, fun _ _ => ⟨trivial, fun _ _ => ⟨trivial, fun _ _ => trivial⟩⟩⟩

/-- A token is no expression. -/
private theorem Nested.token {P : List Part → Prop} (h : Nested out s) (ha : Tree.Adds P s.made s'.made)
    (hP : ∀ w, P w → ∃ k, w = [.token k]) : Nested out s' := by
  obtain ⟨new, hmade, hword, -⟩ := ha
  obtain ⟨k, hk⟩ := hP _ hword
  obtain ⟨c, rfl, hc⟩ := List.map_eq_singleton_iff.mp hk
  rw [Nested, hmade, List.forall_mem_append, List.forall_mem_singleton]
  refine ⟨h, Tree.each_of_rule?_eq_none ?_⟩
  cases c with
  | leaf | missing => rfl
  | node => cases hc

private theorem Guided.eq_tails {rule : Rule} {rounds : Nat}
    (h : Guided out r (.tails rule ops level start rounds) s after) : rule = r := by
  obtain ⟨-, _, hb, -⟩ := h
  cases hb
  rfl

private theorem Guided.eq_body {rule : Rule} (h : Guided out r (.body rule level) s after) : rule = r := by
  obtain ⟨-, _, hb, -⟩ := h
  cases hb
  rfl

/-- Nodes of other rules have no operands. -/
private theorem nests_of_ne {rule : Rule} (h : rule ≠ .expression) (start : Token) :
    (s.node rule start).Nests out := by
  refine ⟨fun hl _ _ => ?_, fun hf _ _ => ?_⟩
  · exact absurd (Option.some.inj (Tree.rule?_of_lastOperand? hl)) h
  · exact absurd (Option.some.inj (Tree.rule?_of_firstOperand? hf)) h

/-- An expression that is read nests. -/
private theorem nests_body {rule : Rule} (h : Goes limit depth out rule (.body rule level) s s')
    (hs : s.made = []) : (s'.node rule start).Nests out := by
  by_cases hr : rule = .expression
  · subst hr
    cases ho : (ruleForm .expression).body with
    | plain f =>
      rw [ruleForm_eq_placeRule] at ho
      cases ho
    | operators ops => exact (h.ranked_body ho hs).nests start
  · exact nests_of_ne hr start

theorem Reads.nested {o : Outcome} (h : Reads limit depth t s o) (he : Ended s.rest)
    (hc : Calm s o.parser) (hh : o.halt = none) (hg : Guided out r t s after)
    (hready : t.Ready limit depth out r s) (hs : Nested out s) : Nested out o.parser := by
  induction h generalizing r after with
  | @sync depth gate p s back =>
    have hreads : Reads limit depth (.sync gate p) s _ := .sync back
    exact hs.of_made (hreads.does he hc hh)
  | nil => exact hs
  | cons first rest ih ih' =>
    obtain ⟨hc₁, hc₂⟩ := hc.split first.work rest.work
    obtain ⟨-, -, he'⟩ := first.work.advances he
    obtain ⟨⟨mid, hg₁⟩, hg₂⟩ := hg.split first
    exact ih' he' hc₂ hh hg₂ (hready.2 _ ⟨first, he, hc₁, mid, hg₁⟩) (ih he hc₁ rfl hg₁ hready.1 hs)
  | stop | unfit | undecided | worn | lowTail | unfitTail | undecidedTails | wornTails | wornCall =>
    cases hh
  | @token depth here next kind field s held =>
    have hreads : Reads limit depth (.form (.token here next kind field)) s _ := .token held
    refine hs.token (hreads.does he hc hh) fun w hw => ?_
    cases hw
    exact ⟨kind, rfl⟩
  | @oneOf depth here next kinds field s held =>
    have hreads : Reads limit depth (.form (.oneOf here next kinds field)) s _ := .oneOf held
    refine hs.token (hreads.does he hc hh) fun w hw => ?_
    cases hw
    exact ⟨_, rfl⟩
  | invoke call ih => exact ih he (hc.moveTo _) hh hg.invoke trivial hs
  | seq all ih => exact ih he hc hh hg.seq (readyAll_forms _ _) hs
  | choice all ih => exact ih he hc hh hg.choice ⟨trivial, fun _ _ => ⟨trivial, fun _ _ => trivial⟩⟩ hs
  | opt all ih => exact ih he hc hh hg.opt ⟨trivial, fun _ _ => ⟨trivial, fun _ _ => trivial⟩⟩ hs
  | star all ih => exact ih he hc hh hg.star ⟨trivial, fun _ _ => ⟨trivial, fun _ _ => trivial⟩⟩ hs
  | plus all ih => exact ih he hc hh hg.plus ⟨trivial, fun _ _ => readyAll_round _ _ _ _ _ _ _⟩ hs
  | picked origin choice alt read ih =>
    have hlooks := choose_looks choice
    exact ih (rest_of_looked hlooks ▸ he) (hc.of_looked hlooks) hh (hg.picked origin choice alt) trivial
      (hs.of_made (made_of_looked hlooks))
  | passed origin choice beyond => exact hs.of_made (made_of_looked (choose_looks choice))
  | again origin more all ih =>
    have hlooks := another_looks more
    refine ih (rest_of_looked hlooks ▸ he) (hc.of_looked hlooks) hh (hg.again origin more) ?_
      (hs.of_made (made_of_looked hlooks))
    cases origin with
    | star | plus => exact readyAll_round _ _ _ _ _ _ _
  | done origin more => exact hs.of_made (made_of_looked (another_looks more))
  | @tail _ rule ops _ start s s' _ x o form choice found allowed read ih =>
    have hlooks := predict_looks choice
    have hc' : Calm s' o.parser := hc.of_looked hlooks
    refine ih (rest_of_looked hlooks ▸ he) ⟨hc'.root, hc'.idle, hc'.reports⟩ hh
      (hg.tail form choice found) trivial ?_
    obtain rfl := Rule.eq_expression form
    rw [Nested, made_wrap, List.forall_mem_singleton]
    rcases hlooks with rfl | ⟨k, rfl⟩ <;> exact Tree.each_node.mpr ⟨hready start, hs⟩
  | noTail form choice found => exact hs.of_made (made_of_looked (predict_looks choice))
  | @againTails _ _ _ _ _ _ s _ _ form more all ih =>
    have hlooks := anotherTail_looks more
    refine ih (rest_of_looked hlooks ▸ he) (hc.of_looked hlooks) hh (hg.againTails form more) ?_
      (hs.of_made (made_of_looked hlooks))
    obtain rfl := hg.eq_tails
    obtain rfl := Rule.eq_expression form
    obtain ⟨a, hchoice, hone⟩ := anotherTail_ok more
    obtain rfl := beq_iff_eq.mp hone
    refine ⟨trivial, fun m hsync => ?_⟩
    have hstays : Stays s m := .trans (.looked hlooks) hsync.sync
    have hm := Ranked.stays hready hstays
    obtain ⟨_, _, rfl⟩ := hstays
    exact ⟨hm.nests, fun _ htail => ⟨trivial, fun _ hsync' =>
      ⟨(htail.ranked_tail form hm hchoice).stays hsync'.sync, fun _ _ => trivial⟩⟩⟩
  | doneTails more => exact hs.of_made (made_of_looked (anotherTail_looks more))
  | plain form read ih => exact ih he hc hh (hg.plain form) trivial hs
  | operators form all ih =>
    obtain rfl := hg.eq_body
    obtain rfl := Rule.eq_expression form
    refine ih he hc hh (hg.operators form) ⟨trivial, fun _ hheads => ⟨trivial, fun _ hsync => ?_⟩⟩ hs
    exact ⟨(hheads.ranked_heads form hready).stays hsync.sync, fun _ _ => trivial⟩
  | @call depth next rule level field s o read ih =>
    obtain ⟨hc₁, hc₂⟩ := hc.split_call read
    obtain ⟨hclose, -⟩ := close_calm (closed rule o) hc₂
    rw [hclose] at hh ⊢
    obtain ⟨m, halt⟩ := o
    obtain rfl : halt = none := hh
    rw [Nested, made_leave, List.forall_mem_append, List.forall_mem_singleton]
    refine ⟨hs, Tree.each_node.mpr ⟨?_, ih he hc₁ rfl hg.call rfl (by simp [Nested, made, enter])⟩⟩
    exact nests_body ⟨read, he, hc₁, _, hg.call⟩ rfl

/-- An expression that begins with another one has a level. -/
private theorem exists_level_of_derived {n f : Tree} (h : n.Derived) (hf : n.firstOperand? = some f) :
    ∃ k, n.level? = some k := by
  unfold Tree.firstOperand? at hf
  split at hf
  · obtain ⟨hhead, hpart⟩ := Option.filter_eq_some_iff.mp hf
    refine Phrase.exists_level h.1 ?_
    rw [List.head?_map, hhead, Option.map_some, of_decide_eq_true hpart]
  · cases hf

/-- All expressions of a text that is read without a report nest. -/
theorem nests_parse (text : String) {widened : Widened} (learned : Learned widened) (rule : Rule)
    (h : ((ofSource (.ofString text) widened).parse rule).2.parser.reports = []) :
    ((ofSource (.ofString text) widened).parse rule).1.Each (Tree.Nests rule) := by
  have he := ended_ofSource text widened
  obtain ⟨t, read, hc, htree, -⟩ := parse_calm rule he rfl rfl h
  have hbefore : Before _ (ofSource (.ofString text) widened) := ⟨rfl, rfl, learned.adds, he, .inl rfl⟩
  have hg : Guided rule rule (.body rule 0) _ _ := guided_body hbefore rfl fun hunit => by
    subst hunit
    exact spells_of_no_report learned.mem_backs h
  rw [htree]
  refine Tree.each_node.mpr ⟨nests_body ⟨read, he, hc, _, hg⟩ rfl, ?_⟩
  exact read.nested he hc rfl hg rfl (by simp [Nested, made, outset])

/-- Operators nest by their levels wherever a text is read without a report. The last operand of an
operator has a higher level, or the same if that nests to the right. An operator after an operand has at
most the level of the operator in front of that, and a lower one if that nests to the right; only where
no whole unit is read may a shift to the left come after a comparison. The operand of a cast or of a sign
has a high level, and what comes after it a lower one. -/
theorem operators_nest_by_level (text : String) {widened : Widened} (learned : Learned widened)
    (rule : Rule) (h : ((ofSource (.ofString text) widened).parse rule).2.parser.reports = []) :
    ∀ n ∈ ((ofSource (.ofString text) widened).parse rule).1.nodes,
      (∀ f, n.firstOperand? = some f → ∃ k, n.level? = some k) ∧
      (∀ l k j, n.lastOperand? = some l → n.level? = some k → l.level? = some j →
        k < j ∨ k = j ∧ nestsRight k = true) ∧
      (∀ f l k j, n.firstOperand? = some f → f.lastOperand? = some l → n.level? = some k →
        f.level? = some j → k ≤ j ∧ (nestsRight j = true → k < j) ∨
          rule ≠ .compilationUnit ∧ n.isLeftShift = true ∧ j = 14) ∧
      (∀ l b j, n.lastOperand? = some l → n.prefixLevel? = some b → l.level? = some j → b ≤ j) ∧
      (∀ f l k b, n.firstOperand? = some f → f.lastOperand? = some l → n.level? = some k →
        f.prefixLevel? = some b → k < b) := by
  intro n hn
  have hnests := nests_parse text learned rule h n hn
  have hderived := (isSound_parse rule (ended_ofSource text widened) rfl rfl h).2 n hn
  refine ⟨fun f hf => ?_, fun l k j hl hk hj => ?_, fun f l k j hf hl hk hj => ?_,
    fun l b j hl hb hj => ?_, fun f l k b hf hl hk hb => ?_⟩
  · exact exists_level_of_derived hderived hf
  · have hle := hnests.last hl (Tree.bound?_of_level? hl hk) hj
    split at hle
    · rename_i hright
      exact hle.lt_or_eq.imp_right fun heq => ⟨heq, hright⟩
    · exact .inl hle
  · have hlt := hnests.first hf hk (Tree.bound?_of_level? hl hj)
    split at hlt
    · rename_i hright
      rcases hlt with hlt | ⟨-, -, rfl⟩
      · exact .inl ⟨hlt.le, fun _ => hlt⟩
      · cases hright
    · rename_i hright
      rcases hlt with hlt | ⟨hunit, hshift, hb⟩
      · exact .inl ⟨Nat.le_of_lt_succ hlt, fun h => absurd h hright⟩
      · exact .inr ⟨hunit, hshift, Nat.succ.inj hb⟩
  · exact hnests.last hl (Tree.bound?_of_prefixLevel? hl hb) hj
  · rcases hnests.first hf hk (Tree.bound?_of_prefixLevel? hl hb) with hlt | ⟨-, -, rfl⟩
    · exact hlt
    · exact absurd (Tree.le_of_prefixLevel? hb) (by decide)

end Parser

/-! A comparison and a shift as the argument of a constant. The grammar allows two trees. -/

def operationOutline (first : Outline) (ks : List Kind) (last : Outline) : Outline :=
  .node .expression (first :: (ks.map .leaf ++ [last]))

def nameOutline : Outline := .node .expression [.node .primary [.leaf .identifier]]

def constantOutline (argument : Outline) : Outline :=
  .node .compilationUnit [.node .typeDeclaration [.node .enumDeclaration [.leaf .kwEnum, .leaf .identifier,
    .leaf .lbrace, .node .enumConstants [.node .enumConstant [.leaf .identifier, .node .arguments
      [.leaf .lparen, .node .expressionList [argument], .leaf .rparen]]], .leaf .rbrace]], .leaf .eof]

def shiftLast : Outline :=
  operationOutline nameOutline [.lt] (operationOutline nameOutline [.lt, .lt] nameOutline)

def shiftFirst : Outline :=
  operationOutline (operationOutline nameOutline [.lt] nameOutline) [.lt, .lt] nameOutline

private theorem ways_constant : (Grammar.body .compilationUnit).ways none (Rule.ways none 30) .compilationUnit
    (([.kwEnum, .identifier, .lbrace, .identifier, .lparen, .identifier, .lt, .identifier, .lt, .lt,
      .identifier, .rparen, .rbrace, .eof] : List Kind).map some) =
    some [(constantOutline shiftFirst, []), (constantOutline shiftLast, [])] := by
  decide +kernel

private theorem part_of_expression {S : Tree → Prop} {os : List Outline} {t : Tree}
    (h : (Outline.node .expression os).Of S t) : t.part = .rule .expression := by
  obtain ⟨_, _, _, _, rfl, -⟩ := by simpa only [Outline.Of] using h
  rfl

private theorem split_of_leaves {S : Tree → Prop} {o : Outline} {ks : List Kind} {ts : List Tree}
    (h : Outline.OfAll S (ks.map .leaf ++ [o]) ts) :
    ∃ us l, ts = us ++ [l] ∧ us.map Tree.part = ks.map .token ∧ o.Of S l := by
  induction ks generalizing ts with
  | nil =>
    obtain ⟨l, us, rfl, hl, rfl⟩ := by simpa only [List.map_nil, List.nil_append, Outline.OfAll] using h
    exact ⟨[], l, rfl, rfl, hl⟩
  | cons k ks ih =>
    rw [List.map_cons, List.cons_append, Outline.OfAll] at h
    obtain ⟨_, vs, rfl, hk, hvs⟩ := h
    obtain ⟨t, rfl, rfl⟩ := by simpa only [Outline.Of] using hk
    obtain ⟨us, l, rfl, hus, hl⟩ := ih hvs
    exact ⟨.leaf t false :: us, l, rfl, by rw [List.map_cons, hus]; rfl, hl⟩

/-- The operands of an operation, and its level. -/
private theorem operands_of_operation {S : Tree → Prop} {first last : List Outline} {ks : List Kind} {n : Tree}
    (h : (operationOutline (.node .expression first) ks (.node .expression last)).Of S n) :
    ∃ f l, n.firstOperand? = some f ∧ n.lastOperand? = some l ∧
      n.level? = Part.level? (.rule .expression :: (ks.map .token ++ [.rule .expression])) ∧
      (Outline.node .expression first).Of S f ∧ (Outline.node .expression last).Of S l := by
  rw [operationOutline, Outline.Of] at h
  obtain ⟨_, _, _, _, rfl, hall⟩ := h
  rw [Outline.OfAll] at hall
  obtain ⟨f, _, rfl, hf, hrest⟩ := hall
  obtain ⟨us, l, rfl, hus, hl⟩ := split_of_leaves hrest
  refine ⟨f, l, ?_, ?_, ?_, hf, hl⟩
  · simp [Tree.firstOperand?, part_of_expression hf]
  · rw [Tree.lastOperand?, ← List.cons_append, List.getLast?_concat]
    simp [part_of_expression hl]
  · simp [Tree.level?, part_of_expression hf, part_of_expression hl, hus]

/-- The shift is the last operand of the comparison. -/
theorem shift_before_comparison :
    ((Parser.ofSource (.ofString "enum E\x7bA(b<c<<d)\x7d")).parse .compilationUnit).2.parser.reports = [] ∧
    ∃ n ∈ ((Parser.ofSource (.ofString "enum E\x7bA(b<c<<d)\x7d")).parse .compilationUnit).1.nodes,
      ∃ l, n.lastOperand? = some l ∧ n.level? = some 14 ∧ l.level? = some 15 := by
  generalize htext : "enum E\x7bA(b<c<<d)\x7d" = text
  have hkinds : ((Source.ofString text).tokens.toList.filter Token.isVisible).map Token.kind = [.kwEnum,
      .identifier, .lbrace, .identifier, .lparen, .identifier, .lt, .identifier, .lt, .lt, .identifier, .rparen,
      .rbrace, .eof] := by
    subst htext
    decide +kernel
  have hspells := Rule.spells_of_body_ways (r := .compilationUnit) (by rw [ways_constant]; rfl)
  have hreports := Parser.Learned.nothing.no_report (hkinds ▸ hspells)
  have hsound := Parser.isSound_parse .compilationUnit (Parser.ended_ofSource text []) rfl rfl hreports
  have hnest := Parser.operators_nest_by_level text .nothing .compilationUnit hreports
  have hrow := (Parser.kinds_of_no_report Parser.Learned.nothing.mem_backs hreports).symm.trans hkinds
  have hrule : ((Parser.ofSource (.ofString text)).parse .compilationUnit).1.rule? = some .compilationUnit := rfl
  refine ⟨hreports, ?_⟩
  generalize ((Parser.ofSource (.ofString text)).parse .compilationUnit).1 = tree at hsound hnest hrow hrule ⊢
  obtain ⟨x, hx, hof⟩ := hsound.exists_of_unit_ways (S := fun _ => False) (by simp) hrule
    (hrow.trans (@Row.fill_map [] _).symm) ways_constant
  rcases List.mem_cons.mp hx with rfl | hx
  · obtain ⟨n, hn, hshift⟩ := Outline.Of.exists_node _ hof shiftFirst (by decide)
    obtain ⟨f, _, hf, -, hk, hfirst, -⟩ := operands_of_operation hshift
    have hcomparison : (operationOutline nameOutline [.lt] nameOutline).Of _ f := hfirst
    obtain ⟨_, l, -, hl, hj, -⟩ := operands_of_operation hcomparison
    rcases (hnest n hn).2.2.1 f l 15 14 hf hl hk hj with ⟨hle, -⟩ | ⟨hunit, -⟩
    · exact absurd hle (by decide)
    · exact absurd rfl hunit
  · obtain rfl := List.mem_singleton.mp hx
    obtain ⟨n, hn, hcomparison⟩ := Outline.Of.exists_node _ hof shiftLast (by decide)
    obtain ⟨_, l, -, hl, hk, -, hlast⟩ := operands_of_operation hcomparison
    have hshift : (operationOutline nameOutline [.lt, .lt] nameOutline).Of _ l := hlast
    obtain ⟨_, _, -, -, hj, -⟩ := operands_of_operation hshift
    exact ⟨n, hn, l, hl, hk, hj⟩

end ResourceNames.Java
