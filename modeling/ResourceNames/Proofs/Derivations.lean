import ResourceNames.Java.Context
import ResourceNames.Proofs.ErrorFree

/-!
Trees that are read without a report are derivations.

`Phrase.Word` says which rows of tokens and nodes a phrase of the grammar stands for, and a node is
derived if its children are such a row for its rule. The children that a parser adds for a task
while nothing is reported are a word of the task.
-/
namespace ResourceNames.Java

/-- The rows of tokens and nodes that a phrase stands for. -/
inductive Phrase.Word : Phrase → List Part → Prop where
  | token {kind field} : Word (.token kind field) [.token kind]
  | oneOf {kinds field kind} (mem : kind ∈ kinds) : Word (.oneOf kinds field) [.token kind]
  | call {rule level field} : Word (.call rule level field) [.rule rule]
  | nil : Word (.seq []) []
  | cons {p ps u v} (first : Word p u) (rest : Word (.seq ps) v) : Word (.seq (p :: ps)) (u ++ v)
  | choice {alts p w} (mem : p ∈ alts) (word : Word p w) : Word (.choice alts) w
  | opt {alts p w} (mem : p ∈ alts) (word : Word p w) : Word (.opt alts) w
  | skip {alts} : Word (.opt alts) []
  | done {body} : Word (.star body) []
  | more {body u v} (first : Word body u) (rest : Word (.star body) v) : Word (.star body) (u ++ v)
  | plus {body u v} (first : Word body u) (rest : Word (.star body) v) : Word (.plus body) (u ++ v)

def Rule.Word (r : Rule) (w : List Part) : Prop := ∃ p ∈ Accessor.alternatives r, p.Word w

mutual

def Form.phrase : Form → Phrase
  | .token _ _ kind field => .token kind field
  | .oneOf _ _ kinds field => .oneOf kinds field
  | .call _ _ rule level field => .call rule level field
  | .seq _ parts => .seq (phrases parts)
  | .choice _ _ alts => .choice (phrases alts)
  | .opt _ _ alts => .opt (phrases alts)
  | .star _ _ _ body => .star body.phrase
  | .plus _ _ _ body => .plus body.phrase

def Form.phrases : List Form → List Phrase
  | [] => []
  | f :: fs => f.phrase :: phrases fs

end

theorem Form.phrases_eq_map (fs : List Form) : phrases fs = fs.map phrase := by
  induction fs with
  | nil => rfl
  | cons f fs ih => simp [phrases, ih]

mutual

/-- A phrase can be found back from its points. -/
theorem Phrase.phrase_place (p : Phrase) (free next : Point) : (p.place free next).phrase = p := by
  cases p with
  | token | oneOf | call => rfl
  | seq parts => simp [Phrase.place, Form.phrase, phrases_placeParts parts]
  | choice alts | opt alts => simp [Phrase.place, Form.phrase, phrases_placeAlts alts]
  | star body | plus body => simp [Phrase.place, Form.phrase, Phrase.phrase_place body]

private theorem phrases_placeParts (ps : List Phrase) (free next : Point) :
    Form.phrases (placeParts ps free next).1 = ps := by
  cases ps with
  | nil => rfl
  | cons p ps => simp [placeParts, Form.phrases, Phrase.phrase_place p, phrases_placeParts ps]

private theorem phrases_placeAlts (ps : List Phrase) (free next : Point) :
    Form.phrases (placeAlts ps free next) = ps := by
  cases ps with
  | nil => rfl
  | cons p ps => simp [placeAlts, Form.phrases, Phrase.phrase_place p, phrases_placeAlts ps]

end

namespace Rule

variable {r : Rule} {w : List Part}

theorem word_plain {f : Form} (h : (Layout.ruleForm r).body = .plain f) (hw : f.phrase.Word w) :
    r.Word w := by
  rw [Layout.ruleForm_eq_placeRule, Layout.placeRule] at h
  unfold Rule.Word Accessor.alternatives
  split at h
  · rename_i alt hb
    cases h
    rw [Phrase.phrase_place] at hw
    exact ⟨alt, by simp [hb], hw⟩
  · rename_i alts _ hb
    cases h
    rw [Phrase.phrase_place] at hw
    cases hw with | choice mem word => exact ⟨_, by simpa [hb] using mem, word⟩
  · cases h

private theorem phrase_of_mem_placeTails {ts : List (Nat × Phrase)} {free next : Point}
    {t : Nat × Form} (h : t ∈ Layout.placeTails ts free next) : (t.1, t.2.phrase) ∈ ts := by
  induction ts generalizing free with
  | nil => simp [Layout.placeTails] at h
  | cons u us ih =>
    rcases List.mem_cons.mp h with rfl | h
    · simp [Phrase.phrase_place]
    · exact List.mem_cons_of_mem _ (ih h)

/-- The operators of a rule are those that the grammar gives it. -/
theorem exists_operators {ops : Operators} (h : (Layout.ruleForm r).body = .operators ops) :
    ∃ heads tails, Grammar.body r = .operators heads tails ∧ ops.heads.phrase = .choice heads ∧
      ∀ t ∈ ops.tails, (t.1, t.2.phrase) ∈ tails := by
  rw [Layout.ruleForm_eq_placeRule, Layout.placeRule] at h
  split at h
  · cases h
  · cases h
  · rename_i heads tails hb
    cases h
    exact ⟨heads, tails, hb, Phrase.phrase_place _ _ _, fun t ht => phrase_of_mem_placeTails ht⟩

theorem word_heads {ops : Operators} (h : (Layout.ruleForm r).body = .operators ops)
    (hw : ops.heads.phrase.Word w) : r.Word w := by
  obtain ⟨heads, tails, hb, hheads, -⟩ := exists_operators h
  rw [hheads] at hw
  unfold Rule.Word Accessor.alternatives
  cases hw with
  | choice mem word =>
    simp only [hb]
    exact ⟨_, List.mem_append_left _ mem, word⟩

/-- A tail stands after a node of its own rule. -/
theorem word_tail {ops : Operators} (h : (Layout.ruleForm r).body = .operators ops)
    {t : Nat × Form} (ht : t ∈ ops.tails) (hw : t.2.phrase.Word w) : r.Word (.rule r :: w) := by
  obtain ⟨heads, tails, hb, -, htails⟩ := exists_operators h
  unfold Rule.Word Accessor.alternatives
  simp only [hb]
  refine ⟨_, List.mem_append_right _ (List.mem_map_of_mem (htails t ht)), ?_⟩
  simpa using Phrase.Word.cons .call (.cons hw .nil)

end Rule

namespace Accessor

private theorem mem_combine {f : Nat → Nat → Nat} {a b : Counts} {x : Part}
    (h : x ∈ a.map Prod.fst ∨ x ∈ b.map Prod.fst) : x ∈ (Counts.combine f a b).map Prod.fst := by
  simp only [Counts.combine, List.map_append, List.map_map, List.mem_append]
  by_cases ha : x ∈ a.map Prod.fst
  · exact .inl (by simpa [Function.comp_def] using ha)
  · obtain ⟨e, he, rfl⟩ := List.mem_map.mp (h.resolve_left ha)
    refine .inr (List.mem_map.mpr ⟨e, List.mem_filter.mpr ⟨he, ?_⟩, rfl⟩)
    simp only [Bool.not_eq_true', List.any_eq_false, beq_iff_eq]
    exact fun d hd heq => ha (heq ▸ List.mem_map_of_mem hd)

private theorem mem_countsAny {p : Phrase} {ps : List Phrase} (h : p ∈ ps) {x : Part}
    (hx : x ∈ (counts p).map Prod.fst) : x ∈ (countsAny ps).map Prod.fst := by
  induction ps with
  | nil => simp at h
  | cons q qs ih =>
    rw [countsAny]
    rcases List.mem_cons.mp h with rfl | h
    · exact mem_combine (.inl hx)
    · exact mem_combine (.inr (ih h))

theorem mem_counts {p : Phrase} {w : List Part} (h : p.Word w) {x : Part} (hx : x ∈ w) :
    x ∈ (counts p).map Prod.fst := by
  induction h with
  | token | call => simpa [counts] using hx
  | oneOf mem =>
    obtain rfl := List.mem_singleton.mp hx
    simpa [counts, Function.comp_def] using mem
  | nil | skip | done => simp at hx
  | cons _ _ ih ih' =>
    rw [counts, countsAll]
    exact mem_combine ((List.mem_append.mp hx).imp ih ih')
  | choice mem _ ih | opt mem _ ih => exact mem_countsAny mem (ih hx)
  | more _ _ ih ih' =>
    rcases List.mem_append.mp hx with hx | hx
    · simpa [counts, Function.comp_def] using ih hx
    · exact ih' hx
  | plus _ _ ih ih' =>
    rcases List.mem_append.mp hx with hx | hx
    · simpa [counts, Function.comp_def] using ih hx
    · simpa [counts, Function.comp_def] using ih' hx

/-- Every child of a derived node has a name. -/
theorem mem_ofRule {r : Rule} {w : List Part} (h : r.Word w) {x : Part} (hx : x ∈ w) :
    x ∈ (ofRule r).map Accessor.part := by
  obtain ⟨p, hp, hw⟩ := h
  simpa [ofRule, Function.comp_def] using mem_countsAny hp (mem_counts hw hx)

end Accessor

namespace Tree

def part : Tree → Part
  | .leaf t _ => .token t.kind
  | .missing k => .token k
  | .node rule .. => .rule rule

/-- The children of a node are a word of its rule, and none of them marks an error. -/
def Derived : Tree → Prop
  | .node rule _ _ _ children =>
    rule.Word (children.map part) ∧ ∀ c ∈ children, c.isError = false
  | _ => True

/-- A child of a derived node. -/
def IsSound (c : Tree) : Prop := c.isError = false ∧ c.Each Derived

/-- A row of trees continues another one by a word. -/
def Adds (word : List Part → Prop) (cs cs' : List Tree) : Prop :=
  ∃ new, cs' = cs ++ new ∧ word (new.map part) ∧ ∀ c ∈ new, c.IsSound

/-- A row of trees is what a derived node of a rule has as children. -/
def Whole (rule : Rule) (cs : List Tree) : Prop :=
  rule.Word (cs.map part) ∧ ∀ c ∈ cs, c.IsSound

variable {cs cs' cs'' : List Tree}

theorem Adds.mono {P Q : List Part → Prop} (h : Adds P cs cs') (hPQ : ∀ w, P w → Q w) :
    Adds Q cs cs' := by
  obtain ⟨new, he, hw, hs⟩ := h
  exact ⟨new, he, hPQ _ hw, hs⟩

theorem Adds.trans {P Q R : List Part → Prop} (h : Adds P cs cs') (h' : Adds Q cs' cs'')
    (hR : ∀ u v, P u → Q v → R (u ++ v)) : Adds R cs cs'' := by
  obtain ⟨new, rfl, hw, hs⟩ := h
  obtain ⟨new', rfl, hw', hs'⟩ := h'
  refine ⟨new ++ new', by simp, by simpa using hR _ _ hw hw', fun c hc => ?_⟩
  rcases List.mem_append.mp hc with hc | hc
  · exact hs c hc
  · exact hs' c hc

theorem Adds.refl {P : List Part → Prop} (h : P []) : Adds P cs cs :=
  ⟨[], by simp, h, by simp⟩

theorem Adds.whole {rule : Rule} (h : Adds rule.Word [] cs) : Whole rule cs := by
  obtain ⟨new, rfl, hw, hs⟩ := h
  exact ⟨by simpa using hw, by simpa using hs⟩

/-- A node whose children are a word of its rule is sound. -/
theorem Whole.isSound {rule : Rule} (h : Whole rule cs) (start : Token) (stop : Option Token)
    (fields : List (Field × Tree)) : (Tree.node rule start stop fields cs).IsSound :=
  ⟨rfl, each_node.mpr ⟨⟨h.1, fun c hc => (h.2 c hc).1⟩, fun c hc => (h.2 c hc).2⟩⟩

end Tree

namespace Parser

open Tree (Adds Whole)

variable {limit depth : Nat} {s s' : Parser} {o : Outcome}

def made (s : Parser) : List Tree := s.children.reverse

mutual

/-- What a task does to the children of a node if nothing is reported. -/
def Task.Does : Task → List Tree → List Tree → Prop
  | .sync .., cs, cs' => cs' = cs
  | .form f, cs, cs' => Adds f.phrase.Word cs cs'
  | .all ts, cs, cs' => DoesAll ts cs cs'
  | .pick _ _ alts optional, cs, cs' =>
    (∃ f ∈ alts, Adds f.phrase.Word cs cs') ∨ optional = true ∧ cs' = cs
  | .loop _ _ round _, cs, cs' =>
    ∀ back body, round = roundTasks back body → Adds (Phrase.star body.phrase).Word cs cs'
  | .tail rule .., cs, cs' => Whole rule cs → Whole rule cs'
  | .tails rule .., cs, cs' => Whole rule cs → Whole rule cs'
  | .body rule _, cs, cs' => cs = [] → Whole rule cs'
  | .call _ rule .., cs, cs' => Adds (· = [.rule rule]) cs cs'

def Task.DoesAll : List Task → List Tree → List Tree → Prop
  | [], cs, cs' => cs' = cs
  | t :: ts, cs, cs' => ∃ mid, t.Does cs mid ∧ DoesAll ts mid cs'

end

private theorem adds_of_doesAll_forms {fs : List Form} {cs cs' : List Tree}
    (h : Task.DoesAll (fs.map .form) cs cs') :
    Adds (Phrase.seq (Form.phrases fs)).Word cs cs' := by
  induction fs generalizing cs with
  | nil =>
    simp only [List.map_nil, Task.DoesAll] at h
    exact h ▸ .refl .nil
  | cons f fs ih =>
    simp only [List.map_cons, Task.DoesAll, Task.Does] at h
    obtain ⟨mid, hf, hfs⟩ := h
    exact hf.trans (ih hfs) fun u v hu hv => .cons hu hv

/-- A round of a loop is read and the rest of the loop after it. -/
private theorem adds_of_doesAll_round {body : Form} {back : Point} {t : Task}
    {P Q : List Part → Prop} {cs cs' : List Tree}
    (h : Task.DoesAll (roundTasks back body ++ [t]) cs cs')
    (ht : ∀ mid, t.Does mid cs' → Adds P mid cs')
    (hQ : ∀ u v, body.phrase.Word u → P v → Q (u ++ v)) : Adds Q cs cs' := by
  simp only [roundTasks, List.cons_append, List.nil_append, Task.DoesAll, Task.Does] at h
  obtain ⟨mid, hbody, _, rfl, _, hloop, rfl⟩ := h
  exact hbody.trans (ht _ hloop) hQ

private theorem mem_phrases {f : Form} {fs : List Form} (h : f ∈ fs) :
    f.phrase ∈ Form.phrases fs := by
  rw [Form.phrases_eq_map]
  exact List.mem_map_of_mem h

theorem made_of_looked (h : s' = s ∨ ∃ k, s' = s.look k) : s'.made = s.made := by
  rcases h with rfl | ⟨k, rfl⟩ <;> rfl

private theorem adds_leaf (hs : s'.children = .leaf s.current false :: s.children) :
    Adds (· = [.token s.current.kind]) s.made s'.made :=
  ⟨[.leaf s.current false], by simp [made, hs], rfl,
    by simp [Tree.IsSound, Tree.isError, Tree.Each, Tree.nodes]⟩

private theorem children_token {field : Option Field} {here : Point} (he : Ended s.rest) :
    ((s.moveTo here).settle.consume.setField field (.leaf s.current false)).children =
      .leaf s.current false :: s.children := by
  rw [children_setField]
  exact children_consume (s := (s.moveTo here).settle) he

private theorem children_oneOf {field : Option Field} {here : Point} (he : Ended s.rest) :
    ((s.moveTo here).setField field (.leaf s.current false)).settle.consume.children =
      .leaf s.current false :: s.children := by
  cases field
  · exact children_consume (s := (s.moveTo here).settle) he
  · exact children_consume (s := ((s.moveTo here).setField (some _) _).settle) he

theorem made_wrap (rule : Rule) (start : Token) (s : Parser) :
    (s.wrap rule start).made = [s.node rule start] := rfl

theorem made_leave (rule : Rule) (field : Option Field) (s : Parser) (o : Outcome) :
    (leave rule field s o).parser.made = s.made ++ [o.parser.node rule s.current] := by
  obtain ⟨t, h⟩ := o
  simp [made, children_leave]

private theorem whole_of_tail {rule : Rule} {ops : Operators} {t : Nat × Form} {n : Tree}
    {cs : List Tree} (form : (Layout.ruleForm rule).body = .operators ops) (ht : t ∈ ops.tails)
    (hn : n.IsSound) (hr : n.part = .rule rule) (h : Adds t.2.phrase.Word [n] cs) :
    Whole rule cs := by
  obtain ⟨new, rfl, hw, hs⟩ := h
  refine ⟨?_, by simpa using ⟨hn, hs⟩⟩
  simpa [hr] using Rule.word_tail form ht hw

/-- What is added while nothing is reported is a word of the task. -/
theorem Reads.does {t : Task} (h : Reads limit depth t s o) (he : Ended s.rest)
    (hc : Calm s o.parser) (hh : o.halt = none) : t.Does s.made o.parser.made := by
  induction h with
  | @sync depth gate p s back =>
    have hr : Reads limit depth (.sync gate p) s ⟨((s.moveTo p).sync gate).parser, none⟩ := by
      rw [← hh]
      exact .sync back
    rw [(hr.sync_calm hc).1]
    rfl
  | nil => rfl
  | cons first rest ih ih' =>
    obtain ⟨hc₁, hc₂⟩ := hc.split first.work rest.work
    obtain ⟨-, -, he'⟩ := first.work.advances he
    exact ⟨_, ih he hc₁ rfl, ih' he' hc₂ hh⟩
  | stop | unfit | undecided | worn | lowTail | unfitTail | undecidedTails | wornTails | wornCall =>
    cases hh
  | @token depth here next kind field s held =>
    generalize ho : Parser.token here next kind field s = o at hc hh
    obtain ⟨s', _⟩ := o
    cases hh
    obtain ⟨rfl, rfl⟩ := token_calm ho hc
    exact (adds_leaf (children_token he)).mono fun w hw => hw ▸ .token
  | @oneOf depth here next kinds field s held =>
    generalize ho : Parser.oneOf here next kinds field s = o at hc hh
    obtain ⟨s', _⟩ := o
    cases hh
    obtain ⟨hk, rfl⟩ := oneOf_calm ho hc
    exact (adds_leaf (children_oneOf he)).mono fun w hw => hw ▸ .oneOf hk
  | @invoke _ _ _ rule _ _ s o call ih =>
    have ha : Adds (· = [.rule rule]) s.made o.parser.made := ih he (hc.moveTo _) hh
    exact ha.mono fun w hw => hw ▸ .call
  | seq all ih => exact adds_of_doesAll_forms (ih he hc hh)
  | choice all ih =>
    obtain ⟨_, rfl, _, hpick, rfl⟩ := ih he hc hh
    rcases hpick with ⟨f, hf, ha⟩ | ⟨ho, -⟩
    · exact ha.mono fun w hw => .choice (mem_phrases hf) hw
    · cases ho
  | opt all ih =>
    obtain ⟨_, rfl, _, hpick, rfl⟩ := ih he hc hh
    rcases hpick with ⟨f, hf, ha⟩ | ⟨-, hcs⟩
    · exact ha.mono fun w hw => .opt (mem_phrases hf) hw
    · exact hcs ▸ .refl .skip
  | star all ih =>
    obtain ⟨_, rfl, _, hloop, rfl⟩ := ih he hc hh
    exact hloop _ _ rfl
  | plus all ih =>
    obtain ⟨_, rfl, hall⟩ := ih he hc hh
    exact adds_of_doesAll_round hall (fun mid hloop => hloop _ _ rfl) fun u v => .plus
  | @picked _ _ _ _ _ s s' n f o origin choice alt read ih =>
    have hl := choose_looks choice
    refine .inl ⟨f, List.mem_of_getElem? alt, ?_⟩
    rw [← made_of_looked hl]
    exact ih (rest_of_looked hl ▸ he) (hc.of_looked hl) hh
  | passed origin choice beyond =>
    exact .inr ⟨origin.chosen choice beyond, made_of_looked (choose_looks choice)⟩
  | again origin more all ih =>
    rintro back body rfl
    have hl := another_looks more
    rw [← made_of_looked hl]
    exact adds_of_doesAll_round (ih (rest_of_looked hl ▸ he) (hc.of_looked hl) hh)
      (fun mid hloop => hloop _ _ rfl) fun u v => .more
  | done origin more =>
    intro back body _
    rw [made_of_looked (another_looks more)]
    exact .refl .done
  | @tail _ rule ops _ start s s' _ t o form choice found allowed read ih =>
    intro hw
    have hl := predict_looks choice
    have hc' : Calm s' o.parser := hc.of_looked hl
    have ha : Adds t.2.phrase.Word [s'.node rule start] o.parser.made :=
      ih (rest_of_looked hl ▸ he) ⟨hc'.root, hc'.idle, hc'.reports⟩ hh
    rw [← made_of_looked hl] at hw
    exact whole_of_tail form (List.mem_of_getElem? found) (hw.isSound _ _ _) rfl ha
  | noTail form choice found => exact fun hw => made_of_looked (predict_looks choice) ▸ hw
  | againTails form more all ih =>
    intro hw
    have hl := anotherTail_looks more
    obtain ⟨_, rfl, _, htail, _, rfl, _, htails, rfl⟩ :=
      ih (rest_of_looked hl ▸ he) (hc.of_looked hl) hh
    exact htails (htail (made_of_looked hl ▸ hw))
  | doneTails more => exact fun hw => made_of_looked (anotherTail_looks more) ▸ hw
  | plain form read ih =>
    intro hcs
    have ha : Adds _ [] _ := hcs ▸ ih he hc hh
    exact (ha.mono fun w hw => Rule.word_plain form hw).whole
  | operators form all ih =>
    intro hcs
    obtain ⟨_, hheads, _, rfl, _, htails, rfl⟩ := ih he hc hh
    have ha : Adds _ [] _ := hcs ▸ hheads
    exact htails (ha.mono fun w hw => Rule.word_heads form hw).whole
  | @call depth next rule level field s o read ih =>
    obtain ⟨hc₁, hc₂⟩ := hc.split_call read
    obtain ⟨ho, -⟩ := close_calm (closed rule o) hc₂
    rw [ho] at hh ⊢
    have hw : Whole rule o.parser.made := ih he hc₁ hh rfl
    have hn : (o.parser.node rule s.current).IsSound := hw.isSound _ _ _
    exact ⟨[_], made_leave _ _ _ _, rfl, by simpa using hn⟩

end Parser

end ResourceNames.Java
