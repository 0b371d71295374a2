import ResourceNames.Proofs.Rests

/-!
What is met from a point describes its sentences.

A sentence from a point to the end of its rule is empty, or it begins with one of the tokens that are
met from the point, or it is made of tails of the operators of the rule. `First` and `Reach` say
which of these are possible: their leaves are tokens together with the points to which the calls
entered on the way return, so each leaf is a call stack with sentences of its own.

A stack is a chain of a rule if the rule is called where the stack returns to first, and so on
outwards; the outermost rule is that of a whole unit.
-/
namespace ResourceNames.Java

open Computability Layout

/-- Every sentence of a phrase that eats has a token. -/
theorem Phrase.Spells.ne_nil {p : Phrase} {w : List Kind} (h : p.Spells w) (he : p.eats = true) :
    w ≠ [] := by
  induction h with
  | token | oneOf => simp
  | @call rule _ _ p _ mem _ ih =>
    have hr : rule ≠ .compilationUnit := by simpa [Phrase.eats] using he
    exact ih (Rule.eats_of_mem_all rule (mem_all rule) hr p mem)
  | nil | skip | done => simp [Phrase.eats, Phrase.anyEats] at he
  | cons _ _ ih ih' =>
    simp only [Phrase.eats, Phrase.anyEats, Bool.or_eq_true] at he
    rcases he with he | he
    · exact List.append_ne_nil_of_left_ne_nil (ih he) _
    · exact List.append_ne_nil_of_right_ne_nil _ (ih' he)
  | choice mem _ ih => exact ih (Phrase.allEat_iff.mp he _ mem)
  | opt | more => simp [Phrase.eats] at he
  | plus _ _ ih => exact List.append_ne_nil_of_left_ne_nil (ih he) _

theorem Form.nil_not_mem_language {f : Form} (h : f.phrase.eats = true) : [] ∉ f.language :=
  fun hw => hw.ne_nil h rfl

/-- The calls that return to the points of a stack lead from one rule out to another one: each rule
is called where the stack returns to next. -/
def Layout.Leads : Rule → List Point → Rule → Prop
  | rule, [], out => rule = out
  | rule, p :: stack, out =>
    (∃ level, ⟨level, p⟩ ∈ Follow.sites rule) ∧ Leads (Item.owner p) stack out

theorem Layout.Leads.append {rule mid out : Rule} {stack stack' : List Point}
    (h : Leads rule stack mid) (h' : Leads mid stack' out) : Leads rule (stack ++ stack') out := by
  induction stack generalizing rule with
  | nil =>
    obtain rfl : rule = mid := h
    exact h'
  | cons p stack ih => exact ⟨h.1, ih h.2⟩

/-- A call stack of a rule: it leads out to the rule of a whole unit. -/
def Layout.Chain (rule : Rule) (stack : List Point) : Prop := Leads rule stack .compilationUnit

/-- A point where a token stands, with the sentences that begin with it. -/
def Layout.IsToken (p : Point) : Prop :=
  p ∈ (ruleForm (Item.owner p)).points ∧ ∃ kinds next, Item.ofPoint p = .token kinds next ∧
    next ∈ (ruleForm (Item.owner p)).points ∧
    ∀ w, w ∈ rest p ↔ ∃ k ∈ kinds, ∃ v ∈ rest next, w = k :: v

theorem Form.isToken_token {r : Rule} {here next : Point} {kind : Kind} {field : Option Field}
    {after : Language Kind} (h : (Form.token here next kind field).Sits r after) : IsToken here := by
  obtain ⟨hhere, hnext, hitem⟩ := h
  rw [IsToken, hhere.owner]
  refine ⟨hhere.mem, [kind], next, hitem, hnext.mem, fun w => ?_⟩
  rw [hhere.rest, hnext.rest, Language.mem_mul]
  simp [Form.language, Form.phrase, Phrase.mem_language_token, eq_comm]

theorem Form.isToken_oneOf {r : Rule} {here next : Point} {kinds : List Kind} {field : Option Field}
    {after : Language Kind} (h : (Form.oneOf here next kinds field).Sits r after) : IsToken here := by
  obtain ⟨hhere, hnext, hitem⟩ := h
  rw [IsToken, hhere.owner]
  refine ⟨hhere.mem, kinds, next, hitem, hnext.mem, fun w => ?_⟩
  rw [hhere.rest, hnext.rest, Language.mem_mul]
  constructor
  · rintro ⟨u, hu, v, hv, rfl⟩
    obtain ⟨k, hk, rfl⟩ := Phrase.mem_language_oneOf.mp hu
    exact ⟨k, hk, v, hv, rfl⟩
  · rintro ⟨k, hk, v, hv, rfl⟩
    exact ⟨[k], Phrase.mem_language_oneOf.mpr ⟨k, hk, rfl⟩, v, hv, rfl⟩

def Leaf.language (l : Leaf) : Language Kind := rests (l.point :: l.rets)

/-- A leaf met in a rule: a token under the calls that are entered before it. -/
structure Leaf.Valid (r : Rule) (l : Leaf) : Prop where
  token : IsToken l.point
  leads : Leads (Item.owner l.point) l.rets r

theorem Leaf.Valid.chain {r : Rule} {l : Leaf} (h : l.Valid r) {stack : List Point}
    (hc : Chain r stack) : Chain (Item.owner l.point) (l.rets ++ stack) :=
  h.leads.append hc

private theorem Leaf.valid_here {r : Rule} {p : Point} (h : IsToken p) (ho : Item.owner p = r) :
    Leaf.Valid r ⟨p, []⟩ := ⟨h, ho⟩

private theorem Leaf.language_here (p : Point) : Leaf.language ⟨p, []⟩ = rest p := by
  simp [Leaf.language]

namespace First

/-- What is met where a phrase begins describes its sentences, followed by what comes after it. -/
structure Describes (r : Rule) (f : First) (sentences after : Language Kind) : Prop where
  through : f.through = true ↔ [] ∈ sentences
  mem : ∀ w, w ∈ sentences * after ↔
    (f.through = true ∧ w ∈ after) ∨ ∃ l ∈ f.leaves, w ∈ l.language
  valid : ∀ l ∈ f.leaves, l.Valid r

variable {r : Rule} {f g : First} {a b after : Language Kind}

private theorem describes_token {p : Point} (h : IsToken p) (ho : Item.owner p = r)
    (hrest : rest p = a * after) (hnil : [] ∉ a) : Describes r ⟨[⟨p, []⟩], false⟩ a after where
  through := by simpa using hnil
  mem w := by simp [Leaf.language_here, hrest]
  valid l hl := by
    obtain rfl := List.mem_singleton.mp hl
    exact Leaf.valid_here h ho

private theorem Describes.call {rule : Rule} {next : Point} {level : Nat}
    (h : Describes rule f rule.language 1) (hnext : Stands r next after)
    (hsite : ⟨level, next⟩ ∈ Follow.sites rule) :
    Describes r (f.call next) rule.language after where
  through := h.through
  mem w := by
    have hlanguage : ∀ l : Leaf, Leaf.language ⟨l.point, l.rets ++ [next]⟩ = l.language * after := by
      intro l
      simp [Leaf.language, hnext.rest, mul_assoc]
    have hmem := h.mem
    rw [mul_one] at hmem
    simp only [First.call, List.mem_map, exists_exists_and_eq_and, hlanguage, Language.mem_mul, hmem,
      Language.mem_one]
    constructor
    · rintro ⟨u, ⟨ht, rfl⟩ | ⟨l, hl, hu⟩, v, hv, rfl⟩
      · exact .inl ⟨ht, hv⟩
      · exact .inr ⟨l, hl, u, hu, v, hv, rfl⟩
    · rintro (⟨ht, hw⟩ | ⟨l, hl, u, hu, v, hv, rfl⟩)
      · exact ⟨[], .inl ⟨ht, rfl⟩, w, hw, rfl⟩
      · exact ⟨u, .inr ⟨l, hl, hu⟩, v, hv, rfl⟩
  valid l hl := by
    obtain ⟨m, hm, rfl⟩ := List.mem_map.mp hl
    obtain ⟨htoken, hleads⟩ := h.valid m hm
    exact ⟨htoken, hleads.append ⟨⟨level, hsite⟩, hnext.owner⟩⟩

private theorem Describes.seq (hf : Describes r f a (b * after)) (hg : Describes r g b after)
    (ht : f.through = true) : Describes r ⟨f.leaves ++ g.leaves, g.through⟩ (a * b) after where
  through := by
    have ha := hf.through.mp ht
    rw [hg.through, Language.mem_mul]
    constructor
    · exact fun hb => ⟨[], ha, [], hb, rfl⟩
    · rintro ⟨u, -, v, hv, huv⟩
      exact (List.append_eq_nil_iff.mp huv).2 ▸ hv
  mem w := by
    rw [mul_assoc, hf.mem, hg.mem]
    simp only [ht, true_and, List.mem_append, or_and_right, exists_or]
    exact or_right_comm.trans or_assoc
  valid l hl := (List.mem_append.mp hl).elim (hf.valid l) (hg.valid l)

private theorem Describes.stop (hf : Describes r f a (b * after)) (ht : ¬ f.through = true) :
    Describes r f (a * b) after where
  through := by
    rw [hf.through] at ht ⊢
    refine ⟨fun h => absurd h ht, fun h => ?_⟩
    obtain ⟨u, hu, v, -, huv⟩ := Language.mem_mul.mp h
    exact (List.append_eq_nil_iff.mp huv).1 ▸ hu
  mem w := by
    rw [mul_assoc, hf.mem]
    simp [ht]
  valid := hf.valid

private theorem Describes.alt (hf : Describes r f a after) (hg : Describes r g b after) :
    Describes r ⟨f.leaves ++ g.leaves, f.through || g.through⟩ (a + b) after where
  through := by rw [Bool.or_eq_true, hf.through, hg.through, Language.mem_add]
  mem w := by
    rw [add_mul, Language.mem_add, hf.mem, hg.mem]
    simp only [Bool.or_eq_true, List.mem_append, or_and_right, exists_or]
    exact or_or_or_comm
  valid l hl := (List.mem_append.mp hl).elim (hf.valid l) (hg.valid l)

private theorem Describes.opt (hf : Describes r f a after) :
    Describes r ⟨f.leaves, true⟩ (1 + a) after where
  through := ⟨fun _ => .inl Language.nil_mem_one, fun _ => rfl⟩
  mem w := by
    rw [add_mul, one_mul, Language.mem_add, hf.mem]
    constructor
    · rintro (h | ⟨-, h⟩ | h)
      · exact .inl ⟨rfl, h⟩
      · exact .inl ⟨rfl, h⟩
      · exact .inr h
    · rintro (⟨-, h⟩ | h)
      · exact .inl h
      · exact .inr (.inr h)
  valid := hf.valid

/-- A loop goes around once more, or on to what comes after it. -/
private theorem Describes.star (hf : Describes r f a (a∗ * after)) (ha : [] ∉ a) :
    Describes r ⟨f.leaves, true⟩ a∗ after where
  through := by simp [Language.nil_mem_kstar]
  mem w := by
    have ht : ¬ f.through = true := fun h => ha (hf.through.mp h)
    rw [← Language.one_add_self_mul_kstar_eq_kstar, add_mul, one_mul, mul_assoc, Language.mem_add,
      hf.mem]
    simp [ht]
  valid := hf.valid

private theorem Describes.plus (hf : Describes r f a (a∗ * after)) (ha : [] ∉ a) :
    Describes r f (a * a∗) after :=
  hf.stop fun h => ha (hf.through.mp h)

mutual

/-- What is met where a form begins, if rules that it calls at once begin as they should. -/
private theorem describes_ofForm {look : Rule → First} (f : Form) {after : Language Kind}
    (hs : f.Sits r after) (hl : ∀ q ∈ f.phrase.firstCalls, Describes q (look q) q.language 1) :
    Describes r (ofForm look f) f.language after := by
  cases f with
  | token here next kind field =>
    refine describes_token (Form.isToken_token hs) hs.1.owner hs.1.rest fun h => ?_
    cases h
  | oneOf here next kinds field =>
    refine describes_token (Form.isToken_oneOf hs) hs.1.owner hs.1.rest fun h => ?_
    cases h
  | call here next rule level field =>
    rw [Form.language_call]
    exact (hl rule (List.mem_singleton_self _)).call hs.2.1 hs.2.2
  | seq entry parts => exact describes_ofSeq parts hs.2 hl
  | choice start join alts =>
    rw [Form.language_choice]
    exact describes_ofAlts alts hs.2.2 hl
  | opt start join alts =>
    rw [Form.language_opt]
    exact (describes_ofAlts alts hs.2.2 hl).opt
  | star entry back next body =>
    obtain ⟨-, -, -, heats, hbody⟩ := hs
    rw [Form.language_star]
    exact (describes_ofForm body hbody hl).star (Form.nil_not_mem_language heats)
  | plus start back next body =>
    obtain ⟨-, -, -, heats, hbody⟩ := hs
    rw [Form.language_plus]
    exact (describes_ofForm body hbody hl).plus (Form.nil_not_mem_language heats)

private theorem describes_ofSeq {look : Rule → First} (fs : List Form) {after : Language Kind}
    (hs : Form.SitAll r fs after)
    (hl : ∀ q ∈ Phrase.firstCallsSeq (Form.phrases fs), Describes q (look q) q.language 1) :
    Describes r (ofSeq look fs) (Form.languageSeq fs) after := by
  cases fs with
  | nil =>
    rw [Form.languageSeq_nil]
    exact ⟨by simp [ofSeq], by simp [ofSeq], by simp [ofSeq]⟩
  | cons f fs =>
    simp only [Form.phrases, Phrase.firstCallsSeq, List.mem_append] at hl
    have hf := describes_ofForm f hs.1 fun q hq => hl q (.inl hq)
    rw [Form.languageSeq_cons, ofSeq]
    split
    · rename_i ht
      have heats : f.phrase.eats = false := by
        rw [Bool.eq_false_iff]
        exact fun he => Form.nil_not_mem_language he (hf.through.mp ht)
      simp only [heats, Bool.false_eq_true, if_false] at hl
      exact hf.seq (describes_ofSeq fs hs.2 fun q hq => hl q (.inr hq)) ht
    · rename_i ht
      exact hf.stop ht

private theorem describes_ofAlts {look : Rule → First} (fs : List Form) {after : Language Kind}
    (hs : Form.SitEach r fs after)
    (hl : ∀ q ∈ Phrase.firstCallsAny (Form.phrases fs), Describes q (look q) q.language 1) :
    Describes r (ofAlts look fs) (Form.languageAny fs) after := by
  cases fs with
  | nil =>
    rw [Form.languageAny_nil]
    exact ⟨by simp [ofAlts, Language.notMem_zero], by simp [ofAlts, Language.notMem_zero],
      by simp [ofAlts]⟩
  | cons f fs =>
    simp only [Form.phrases, Phrase.firstCallsAny, List.mem_append] at hl
    rw [Form.languageAny_cons]
    exact (describes_ofForm f hs.1 fun q hq => hl q (.inl hq)).alt
      (describes_ofAlts fs hs.2 fun q hq => hl q (.inr hq))

end

/-- Calls before the first token go to rules of lower rank, so following as many of them as the rank
of a rule finds all of its first tokens. -/
private theorem describes_ofRule {depth : Nat} {r : Rule} (h : r.rank < depth) :
    Describes r (ofRule depth r) r.language 1 := by
  induction depth generalizing r with
  | zero => exact absurd h (Nat.not_lt_zero _)
  | succ depth ih =>
    have hl : ∀ q ∈ r.firstCalls, Describes q (ofRule depth q) q.language 1 := fun q hq =>
      ih (Nat.lt_of_lt_of_le (Rule.rank_lt_of_mem hq) (Nat.le_of_lt_succ h))
    rw [ofRule]
    split
    · rename_i f hf
      rw [← Rule.language_plain hf]
      exact describes_ofForm f (sits_plain hf) (Rule.firstCalls_plain hf ▸ hl)
    · rename_i ops ho
      have hheads := describes_ofForm ops.heads (sits_heads ho) (Rule.firstCalls_heads ho ▸ hl)
      have hnil := Form.nil_not_mem_language (Rule.operators_eat ho).1
      rw [Rule.language_operators ho]
      rw [← mul_one ops.tailLanguage∗] at hheads
      exact hheads.stop fun ht => hnil (hheads.through.mp ht)

/-- What is met where a rule begins describes its sentences. -/
theorem describes_rule (r : Rule) : Describes r (First.rule r) r.language 1 := by
  rw [First.rule_eq]
  refine describes_ofRule (Nat.lt_of_lt_of_le r.rank_lt ?_)
  decide

/-- What is met where a form begins describes its sentences. -/
theorem describes_form {f : Form} {after : Language Kind} (hs : f.Sits r after) :
    Describes r (ofForm First.rule f) f.language after :=
  describes_ofForm f hs fun q _ => describes_rule q

theorem describes_seq {fs : List Form} {after : Language Kind} (hs : Form.SitAll r fs after) :
    Describes r (ofSeq First.rule fs) (Form.languageSeq fs) after :=
  describes_ofSeq fs hs fun q _ => describes_rule q

theorem describes_alts {fs : List Form} {after : Language Kind} (hs : Form.SitEach r fs after) :
    Describes r (ofAlts First.rule fs) (Form.languageAny fs) after :=
  describes_ofAlts fs hs fun q _ => describes_rule q

end First

def Rule.tailLanguage (r : Rule) : Language Kind :=
  match (ruleForm r).body with
  | .plain _ => 0
  | .operators ops => ops.tailLanguage

theorem Rule.tailLanguage_eq {r : Rule} {ops : Operators} (h : (ruleForm r).body = .operators ops) :
    r.tailLanguage = ops.tailLanguage := by
  rw [Rule.tailLanguage, h]

namespace Reach

/-- What is met from a point describes the sentences that lead from it to the end of its rule. -/
structure Describes (r : Rule) (v : Reach) (sentences : Language Kind) : Prop where
  mem : ∀ w, w ∈ sentences ↔ (v.ends = true ∧ w = []) ∨ (∃ l ∈ v.leaves, w ∈ l.language) ∨
    (v.loops = true ∧ w ∈ r.tailLanguage∗)
  valid : ∀ l ∈ v.leaves, l.Valid r
  loops : v.loops = true → Follow.hasOperators r = true

variable {r : Rule}

private theorem describes_before {v : Reach} {f : First} {a after : Language Kind}
    (hf : f.Describes r a after) (hv : v.Describes r after) : (before f v).Describes r (a * after) := by
  unfold before
  split
  · rename_i ht
    refine ⟨fun w => ?_, fun l hl => ?_, hv.loops⟩
    · rw [hf.mem, hv.mem]
      simp only [ht, true_and, List.mem_append, or_and_right, exists_or]
      constructor
      · rintro ((h | h | h) | h)
        exacts [.inl h, .inr (.inl (.inr h)), .inr (.inr h), .inr (.inl (.inl h))]
      · rintro (h | (h | h) | h)
        exacts [.inl (.inl h), .inr h, .inl (.inr (.inl h)), .inl (.inr (.inr h))]
    · exact (List.mem_append.mp hl).elim (hf.valid l) (hv.valid l)
  · rename_i ht
    refine ⟨fun w => ?_, hf.valid, nofun⟩
    rw [hf.mem]
    simp [ht]

private theorem describes_here {p : Point} (h : IsToken p) (ho : Item.owner p = r) :
    Describes r ⟨[⟨p, []⟩], false, false⟩ (rest p) where
  mem w := by simp [Leaf.language_here]
  valid l hl := by
    obtain rfl := List.mem_singleton.mp hl
    exact Leaf.valid_here h ho
  loops := nofun

mutual

/-- What is met at the points of a form, if it is right what is met after the form. -/
private theorem describes_points (f : Form) {v : Reach} {after : Language Kind}
    (hs : f.Sits r after) (hv : v.Describes r after) :
    ∀ e ∈ points f v, e.2.Describes r (rest e.1) := by
  cases f with
  | token here next kind field =>
    exact List.forall_mem_singleton.mpr (describes_here (Form.isToken_token hs) hs.1.owner)
  | oneOf here next kinds field =>
    exact List.forall_mem_singleton.mpr (describes_here (Form.isToken_oneOf hs) hs.1.owner)
  | call here next rule level field =>
    obtain ⟨hhere, hnext, hsite⟩ := hs
    refine List.forall_mem_singleton.mpr ?_
    rw [hhere.rest]
    exact describes_before ((First.describes_rule rule).call hnext hsite) hv
  | seq entry parts => exact describes_pointsSeq parts hs.2 hv
  | choice start join alts =>
    obtain ⟨hstart, hjoin, halts⟩ := hs
    refine List.forall_mem_cons.mpr ⟨?_, List.forall_mem_cons.mpr
      ⟨hjoin.rest ▸ hv, describes_pointsAlts alts halts hv⟩⟩
    rw [hstart.rest]
    exact describes_before (First.describes_alts halts) hv
  | opt start join alts =>
    obtain ⟨hstart, hjoin, halts⟩ := hs
    refine List.forall_mem_cons.mpr ⟨?_, List.forall_mem_cons.mpr
      ⟨hjoin.rest ▸ hv, describes_pointsAlts alts halts hv⟩⟩
    rw [hstart.rest]
    exact describes_before (First.describes_alts halts).opt hv
  | star entry back next body =>
    obtain ⟨hentry, hback, hnext, heats, hbody⟩ := hs
    have hfirst := First.describes_form hbody
    have hagain := describes_before (hfirst.star (Form.nil_not_mem_language heats)) hv
    refine List.forall_mem_cons.mpr ⟨hentry.rest ▸ hagain, List.forall_mem_cons.mpr
      ⟨hback.rest ▸ hagain, describes_points body hbody hagain⟩⟩
  | plus start back next body =>
    obtain ⟨hstart, hback, hnext, heats, hbody⟩ := hs
    have hfirst := First.describes_form hbody
    have hagain := describes_before (hfirst.star (Form.nil_not_mem_language heats)) hv
    refine List.forall_mem_cons.mpr ⟨?_, List.forall_mem_cons.mpr
      ⟨hback.rest ▸ hagain, describes_points body hbody hagain⟩⟩
    rw [hstart.rest]
    exact describes_before hfirst hagain

private theorem describes_pointsSeq (fs : List Form) {v : Reach} {after : Language Kind}
    (hs : Form.SitAll r fs after) (hv : v.Describes r after) :
    ∀ e ∈ pointsSeq fs v, e.2.Describes r (rest e.1) := by
  cases fs with
  | nil => simp [pointsSeq]
  | cons f fs =>
    have hrest := describes_before (First.describes_seq hs.2) hv
    exact List.forall_mem_append.mpr
      ⟨describes_points f hs.1 hrest, describes_pointsSeq fs hs.2 hv⟩

private theorem describes_pointsAlts (fs : List Form) {v : Reach} {after : Language Kind}
    (hs : Form.SitEach r fs after) (hv : v.Describes r after) :
    ∀ e ∈ pointsAlts fs v, e.2.Describes r (rest e.1) := by
  cases fs with
  | nil => simp [pointsAlts]
  | cons f fs =>
    exact List.forall_mem_append.mpr
      ⟨describes_points f hs.1 hv, describes_pointsAlts fs hs.2 hv⟩

end

private theorem describes_atEnd : atEnd.Describes r 1 where
  mem w := by simp [atEnd, Language.mem_one]
  valid := by simp [atEnd]
  loops := nofun

theorem hasOperators_of_body {ops : Operators} (h : (ruleForm r).body = .operators ops) :
    Follow.hasOperators r = true := by
  by_contra hr
  have hwraps := Rule.wraps_operators h
  rw [Rule.wraps, if_neg hr] at hwraps
  cases hwraps

private theorem describes_atTails {ops : Operators} (h : (ruleForm r).body = .operators ops) :
    atTails.Describes r ops.tailLanguage∗ where
  mem w := by simp [atTails, Rule.tailLanguage_eq h]
  valid := by simp [atTails]
  loops _ := hasOperators_of_body h

/-- The tokens with which a tail begins. -/
private theorem describes_tails {ops : Operators} (h : (ruleForm r).body = .operators ops) :
    (⟨tails ops, false, false⟩ : Reach).Describes r (ops.tailLanguage * ops.tailLanguage∗) := by
  have hsit : Form.SitEach r (ops.tails.map Prod.snd) ops.tailLanguage∗ := by
    refine Form.sitEach_iff.mpr fun f hf => ?_
    obtain ⟨t, ht, rfl⟩ := List.mem_map.mp hf
    exact sits_tail h ht
  have hfirst := First.describes_alts hsit
  have hnil : [] ∉ ops.tailLanguage := by
    rintro ⟨f, hf, hw⟩
    obtain ⟨t, ht, rfl⟩ := List.mem_map.mp hf
    exact Form.nil_not_mem_language ((Rule.operators_eat h).2 t ht) hw
  refine ⟨fun w => ?_, hfirst.valid, nofun⟩
  have ht : ¬ (First.ofAlts First.rule (ops.tails.map Prod.snd)).through = true :=
    fun ht => hnil (hfirst.through.mp ht)
  rw [Operators.tailLanguage] at hfirst ⊢
  rw [hfirst.mem]
  simp [ht, tails]

/-- What is met from a point of a rule describes the sentences from there. -/
theorem describes_point {p : Point} (h : p ∈ (ruleForm r).points) :
    (Reach.point p).Describes r (rest p) := by
  rw [← map_fst_pointsOf] at h
  obtain ⟨⟨q, v⟩, hv, rfl⟩ := List.mem_map.mp h
  rw [point_of_mem hv]
  suffices hall : ∀ e ∈ pointsOf (ruleForm r), e.2.Describes r (rest e.1) from hall _ hv
  have hstop : atEnd.Describes r (rest (ruleForm r).stop) := by
    rw [show rest (ruleForm r).stop = 1 from (stands_stop r).rest]
    exact describes_atEnd
  refine List.forall_mem_cons.mpr ⟨hstop, ?_⟩
  split
  · rename_i f hf
    exact describes_points f (sits_plain hf) describes_atEnd
  · rename_i ops ho
    have htails := describes_atTails ho
    have hsit := tailsSit ho
    simp only [List.forall_mem_cons, List.forall_mem_append, List.mem_flatMap, forall_exists_index,
      and_imp]
    refine ⟨hsit.entry.rest ▸ htails, hsit.start.rest ▸ describes_tails ho, hsit.join.rest ▸ htails,
      hsit.back.rest ▸ htails, describes_points ops.heads (sits_heads ho) htails, ?_⟩
    exact fun e t ht he => describes_points t.2 (sits_tail ho ht) htails e he

/-- The tokens with which a further tail begins. -/
theorem mem_loopLeaves {w : List Kind} :
    w ∈ r.tailLanguage * r.tailLanguage∗ ↔ ∃ l ∈ loopLeaves r, w ∈ l.language := by
  cases hb : (ruleForm r).body with
  | plain f => simp [loopLeaves, Rule.tailLanguage, hb, Language.notMem_zero]
  | operators ops => simpa [loopLeaves, Rule.tailLanguage, hb] using (describes_tails hb).mem w

theorem valid_of_mem_loopLeaves {l : Leaf} (h : l ∈ loopLeaves r) : l.Valid r := by
  unfold loopLeaves at h
  split at h
  · simp at h
  · rename_i ops ho
    exact (describes_tails ho).valid l h

end Reach

end ResourceNames.Java
