import ResourceNames.Proofs.Progress
import ResourceNames.Proofs.Sentences

/-!
What may be read from a point to the end of its rule.

Each point of a rule has the sentences that lead from it to the end of the rule: those of the form
that begins there, followed by what comes after the form. A call stack stands for what is left of
the open rules, one after another. `Form.Sits r f after` says that the points of a form are points of
the rule `r` and have their sentences, given those that come after the form; the bodies of all rules
sit.
-/
namespace ResourceNames.Java

open Computability

/-! ### Items and call sites -/

namespace Item

mutual

private theorem ofForm_subset {g : Form} (f : Form) (h : g ∈ f.parts) : ofForm g ⊆ ofForm f := by
  cases f with
  | token | oneOf | call =>
    simp only [Form.parts, List.mem_singleton] at h
    exact h ▸ List.Subset.refl _
  | seq entry fs | choice start join fs | opt start join fs =>
    rcases List.mem_cons.mp h with rfl | h
    · exact List.Subset.refl _
    · exact ofForms_subset fs h
  | star entry back next body | plus entry back next body =>
    rcases List.mem_cons.mp h with rfl | h
    · exact List.Subset.refl _
    · exact ofForm_subset body h

private theorem ofForms_subset {g : Form} (fs : List Form) (h : g ∈ Form.partsAll fs) :
    ofForm g ⊆ ofForms fs := by
  cases fs with
  | nil => simp [Form.partsAll] at h
  | cons f fs =>
    rcases List.mem_append.mp h with h | h
    · exact List.subset_append_of_subset_left _ (ofForm_subset f h)
    · exact List.subset_append_of_subset_right _ (ofForms_subset fs h)

end

theorem ofForm_subset_ofRule {r : Rule} {f : Form} (h : f ∈ r.forms) :
    ofForm f ⊆ ofRule (Layout.ruleForm r) := by
  unfold Rule.forms at h
  cases hb : (Layout.ruleForm r).body with
  | plain e =>
    simp only [hb, BodyForm.forms] at h
    simpa only [ofRule, hb] using ofForm_subset e h
  | operators ops =>
    simp only [hb, BodyForm.forms, List.mem_append, List.mem_flatMap] at h
    simp only [ofRule, hb]
    rcases h with h | ⟨t, ht, h⟩
    · exact List.subset_append_of_subset_left _ (ofForm_subset ops.heads h)
    · refine List.subset_append_of_subset_right _ fun i hi => ?_
      exact List.mem_flatMap.mpr ⟨t, ht, ofForm_subset t.2 h hi⟩

end Item

namespace Layout

private theorem length_placeRules (rs : List Rule) (free : Point) :
    (placeRules rs free).length = rs.length := by
  induction rs generalizing free with
  | nil => rfl
  | cons r rs ih => simp [placeRules, ih]

private theorem map_index_all : Rule.all.map Rule.index = List.range Rule.all.length := by
  decide +kernel

theorem exists_rule_of_mem {rf : RuleForm} (h : rf ∈ rules.toList) : ∃ r, ruleForm r = rf := by
  obtain ⟨i, hi⟩ := List.mem_iff_getElem?.mp h
  have hlt : i < Rule.all.length := by
    have := (List.getElem?_eq_some_iff.mp hi).1
    rwa [rules, List.toList_toArray, length_placeRules] at this
  have hindex : Rule.all[i].index = i := by
    have := congrArg (·[i]?) map_index_all
    simpa [hlt] using this
  obtain ⟨free, he, hm⟩ := ruleForm_eq Rule.all[i]
  rw [hindex, hi] at hm
  exact ⟨Rule.all[i], he.trans (Option.some.inj hm).symm⟩

end Layout

theorem Follow.mem_sites_iff {rule : Rule} {site : CallSite} :
    site ∈ sites rule ↔
      ∃ r, ∃ i ∈ Item.ofRule (Layout.ruleForm r), i.2 = .call rule site.level site.next := by
  have hrules : ∀ rf : RuleForm, rf ∈ Layout.rules.toList ↔ ∃ r, Layout.ruleForm r = rf :=
    fun rf => ⟨Layout.exists_rule_of_mem, fun ⟨r, h⟩ => h ▸ Layout.ruleForm_mem r⟩
  simp only [sites, siteTable, List.getElem?_toArray, List.getElem?_map, Layout.getElem?_all,
    Option.map_some, Option.getD_some, List.mem_filterMap, List.mem_flatMap, hrules]
  constructor
  · rintro ⟨⟨p, i⟩, ⟨_, ⟨r, rfl⟩, hi⟩, hsite⟩
    refine ⟨r, _, hi, ?_⟩
    split at hsite
    · rename_i hcall
      split at hsite
      · rename_i hrule
        cases hsite
        exact hrule ▸ hcall
      · cases hsite
    · cases hsite
  · rintro ⟨r, i, hi, hcall⟩
    exact ⟨i, ⟨_, ⟨r, rfl⟩, hi⟩, by simp [hcall]⟩

/-- A rule is called where a form calls it. -/
theorem Follow.mem_sites {r rule : Rule} {here next : Point} {level : Nat} {field : Option Field}
    (h : Form.call here next rule level field ∈ r.forms) : ⟨level, next⟩ ∈ sites rule :=
  mem_sites_iff.mpr ⟨r, (here, .call rule level next),
    Item.ofForm_subset_ofRule h (by simp [Item.ofForm]), rfl⟩

/-! ### The sentences from a point -/

mutual

/-- The sentences from each point of a form to the end of its rule, given those after the form. -/
def Form.rests : Form → Language Kind → List (Point × Language Kind)
  | .token here next kind field, after =>
    [(here, (Form.token here next kind field).language * after)]
  | .oneOf here next kinds field, after =>
    [(here, (Form.oneOf here next kinds field).language * after)]
  | .call here _ rule _ _, after => [(here, rule.language * after)]
  | .seq _ parts, after => restsSeq parts after
  | .choice start join alts, after =>
    (start, languageAny alts * after) :: (join, after) :: restsAny alts after
  | .opt start join alts, after =>
    (start, (1 + languageAny alts) * after) :: (join, after) :: restsAny alts after
  | .star entry back _ body, after =>
    (entry, body.language∗ * after) :: (back, body.language∗ * after) ::
      body.rests (body.language∗ * after)
  | .plus start back _ body, after =>
    (start, body.language * (body.language∗ * after)) :: (back, body.language∗ * after) ::
      body.rests (body.language∗ * after)

def Form.restsSeq : List Form → Language Kind → List (Point × Language Kind)
  | [], _ => []
  | f :: fs, after => f.rests (languageSeq fs * after) ++ restsSeq fs after

def Form.restsAny : List Form → Language Kind → List (Point × Language Kind)
  | [], _ => []
  | f :: fs, after => f.rests after ++ restsAny fs after

end

namespace Layout

/-- The sentences from each point of a rule to its end. -/
def restsOf (r : RuleForm) : List (Point × Language Kind) :=
  (r.stop, 1) ::
    match r.body with
    | .plain f => f.rests 1
    | .operators ops =>
      (ops.entry, ops.tailLanguage∗) :: (ops.start, ops.tailLanguage * ops.tailLanguage∗) ::
        (ops.join, ops.tailLanguage∗) :: (ops.back, ops.tailLanguage∗) ::
        (ops.heads.rests ops.tailLanguage∗ ++
          ops.tails.flatMap fun t => t.2.rests ops.tailLanguage∗)

/-- The sentences from a point to the end of its rule. -/
def rest (p : Point) : Language Kind := ((Reach.tabulate 0 restsOf)[p]?).getD 0

/-- The sentences that lead to the end of all open rules, if they go on at the points of a stack. -/
def rests (stack : List Point) : Language Kind := (stack.map rest).prod

@[simp] theorem rests_nil : rests [] = 1 := rfl

@[simp] theorem rests_cons (p : Point) (stack : List Point) :
    rests (p :: stack) = rest p * rests stack := by
  simp [rests]

@[simp] theorem rests_append (stack stack' : List Point) :
    rests (stack ++ stack') = rests stack * rests stack' := by
  simp [rests]

end Layout

mutual

private theorem Form.map_fst_rests (f : Form) (after : Language Kind) :
    (f.rests after).map Prod.fst = f.points := by
  cases f with
  | token | oneOf | call => simp [Form.rests, Form.points]
  | seq entry parts => simpa [Form.rests, Form.points] using map_fst_restsSeq parts after
  | choice start join alts | opt start join alts =>
    simp [Form.rests, Form.points, map_fst_restsAny alts]
  | star entry back next body | plus entry back next body =>
    simp [Form.rests, Form.points, Form.map_fst_rests body]

private theorem map_fst_restsSeq (fs : List Form) (after : Language Kind) :
    (Form.restsSeq fs after).map Prod.fst = pointsAll fs := by
  cases fs with
  | nil => simp [Form.restsSeq, pointsAll]
  | cons f fs => simp [Form.restsSeq, pointsAll, Form.map_fst_rests f, map_fst_restsSeq fs]

private theorem map_fst_restsAny (fs : List Form) (after : Language Kind) :
    (Form.restsAny fs after).map Prod.fst = pointsAll fs := by
  cases fs with
  | nil => simp [Form.restsAny, pointsAll]
  | cons f fs => simp [Form.restsAny, pointsAll, Form.map_fst_rests f, map_fst_restsAny fs]

end

namespace Layout

private theorem map_fst_restsOf (rf : RuleForm) : (restsOf rf).map Prod.fst = rf.points := by
  cases hb : rf.body with
  | plain f => simp [restsOf, RuleForm.points, BodyForm.points, hb, Form.map_fst_rests]
  | operators ops =>
    simp [restsOf, RuleForm.points, BodyForm.points, hb, Form.map_fst_rests, List.map_flatMap]

/-- A point of a rule with the sentences that lead from it to the end of the rule. -/
structure Stands (r : Rule) (p : Point) (after : Language Kind) : Prop where
  mem : p ∈ (ruleForm r).points
  rest : rest p = after

theorem Stands.owner {r : Rule} {p : Point} {after : Language Kind} (h : Stands r p after) :
    Item.owner p = r := Item.owner_of_mem h.mem

/-- The sentences from a point are those that its rule has for it. -/
private theorem stands_of_mem {r : Rule} {e : Point × Language Kind}
    (h : e ∈ restsOf (ruleForm r)) : Stands r e.1 e.2 := by
  have hs : ((restsOf (ruleForm r)).map Prod.fst).Sublist (ruleForm r).points := by
    rw [map_fst_restsOf]
  exact ⟨hs.subset (List.mem_map_of_mem h), by simp [rest, Reach.tabulate_of_mem hs h]⟩

-- Comparing languages must not evaluate the table of all points.
attribute [irreducible] rest

theorem stands_stop (r : Rule) : Stands r (stop r) 1 :=
  stands_of_mem (r := r) (e := (stop r, 1)) List.mem_cons_self

end Layout

open Layout (Stands)

mutual

/-- The points of a form have their sentences, given those that come after the form. Its tokens and
calls are entered under their points, and its loops read something in each round. -/
def Form.Sits (r : Rule) : Form → Language Kind → Prop
  | .token here next kind field, after =>
    Stands r here ((Form.token here next kind field).language * after) ∧ Stands r next after ∧
      Item.ofPoint here = .token [kind] next
  | .oneOf here next kinds field, after =>
    Stands r here ((Form.oneOf here next kinds field).language * after) ∧ Stands r next after ∧
      Item.ofPoint here = .token kinds next
  | .call here next rule level _, after =>
    Stands r here (rule.language * after) ∧ Stands r next after ∧
      ⟨level, next⟩ ∈ Follow.sites rule
  | .seq entry parts, after => Stands r entry (languageSeq parts * after) ∧ SitAll r parts after
  | .choice start join alts, after =>
    Stands r start (languageAny alts * after) ∧ Stands r join after ∧ SitEach r alts after
  | .opt start join alts, after =>
    Stands r start ((1 + languageAny alts) * after) ∧ Stands r join after ∧ SitEach r alts after
  | .star entry back next body, after =>
    Stands r entry (body.language∗ * after) ∧ Stands r back (body.language∗ * after) ∧
      Stands r next after ∧ body.phrase.eats = true ∧ body.Sits r (body.language∗ * after)
  | .plus start back next body, after =>
    Stands r start (body.language * (body.language∗ * after)) ∧
      Stands r back (body.language∗ * after) ∧ Stands r next after ∧ body.phrase.eats = true ∧
      body.Sits r (body.language∗ * after)

def Form.SitAll (r : Rule) : List Form → Language Kind → Prop
  | [], _ => True
  | f :: fs, after => f.Sits r (languageSeq fs * after) ∧ SitAll r fs after

def Form.SitEach (r : Rule) : List Form → Language Kind → Prop
  | [], _ => True
  | f :: fs, after => f.Sits r after ∧ SitEach r fs after

end

namespace Form

variable {r : Rule} {f : Form} {fs : List Form} {after : Language Kind}

theorem sitEach_iff : SitEach r fs after ↔ ∀ f ∈ fs, f.Sits r after := by
  induction fs with
  | nil => simp [SitEach]
  | cons f fs ih => simp [SitEach, ih]

/-- From where a form begins it is read, and then what comes after it. -/
theorem Sits.stands_entry (h : f.Sits r after) : Stands r f.entry (f.language * after) := by
  cases f with
  | token | oneOf => exact h.1
  | call | seq | choice | opt | star => simpa [Form.entry] using h.1
  | plus => simpa [Form.entry, mul_assoc] using h.1

end Form

mutual

/-- A phrase that is laid out in a rule sits there, if the points of the form have their
sentences. -/
private theorem Phrase.sits_place {r : Rule} (p : Phrase) (free next : Point)
    {after : Language Kind} (h : ∀ e ∈ (p.place free next).rests after, Stands r e.1 e.2)
    (hparts : (p.place free next).parts ⊆ r.forms) (hnext : Stands r next after) :
    (p.place free next).Sits r after := by
  have hself := hparts (p.place free next).mem_parts_self
  cases p with
  | token kind field | oneOf kinds field =>
    refine ⟨by simpa [Phrase.place, Form.rests] using h, hnext, Item.ofPoint_of_mem (r := r) ?_⟩
    exact Item.ofForm_subset_ofRule hself (by simp [Phrase.place, Item.ofForm])
  | call rule level field =>
    exact ⟨by simpa [Phrase.place, Form.rests] using h, hnext, Follow.mem_sites hself⟩
  | seq parts =>
    refine sitAll_placeParts parts free next h (fun g hg => ?_) hnext
    exact hparts (List.mem_cons_of_mem _ hg)
  | choice alts | opt alts =>
    obtain ⟨hstart, hrest⟩ := List.forall_mem_cons.mp h
    obtain ⟨hjoin, halts⟩ := List.forall_mem_cons.mp hrest
    refine ⟨hstart, hjoin, sitEach_placeAlts alts _ _ halts (fun g hg => ?_) hjoin⟩
    exact hparts (List.mem_cons_of_mem _ hg)
  | star body | plus body =>
    obtain ⟨hentry, hrest⟩ := List.forall_mem_cons.mp h
    obtain ⟨hback, hbody⟩ := List.forall_mem_cons.mp hrest
    have heats := r.roundsEat_eq_true
    simp only [Rule.roundsEat, Bool.and_eq_true, List.all_eq_true] at heats
    refine ⟨hentry, hback, hnext, heats.1 _ hself, body.sits_place _ _ hbody (fun g hg => ?_) hback⟩
    exact hparts (List.mem_cons_of_mem _ hg)

private theorem sitAll_placeParts {r : Rule} (ps : List Phrase) (free next : Point)
    {after : Language Kind}
    (h : ∀ e ∈ Form.restsSeq (placeParts ps free next).1 after, Stands r e.1 e.2)
    (hparts : Form.partsAll (placeParts ps free next).1 ⊆ r.forms) (hnext : Stands r next after) :
    Stands r (placeParts ps free next).2
        (Form.languageSeq (placeParts ps free next).1 * after) ∧
      Form.SitAll r (placeParts ps free next).1 after := by
  cases ps with
  | nil => exact ⟨by simpa [placeParts] using hnext, trivial⟩
  | cons p ps =>
    obtain ⟨hfirst, hrest⟩ := List.forall_mem_append.mp h
    obtain ⟨hp, hps⟩ := List.append_subset.mp hparts
    obtain ⟨hentry, hsit⟩ := sitAll_placeParts ps (free + p.size) next hrest hps hnext
    have hfirst := p.sits_place free _ hfirst hp hentry
    exact ⟨by simpa [placeParts, mul_assoc] using hfirst.stands_entry, hfirst, hsit⟩

private theorem sitEach_placeAlts {r : Rule} (ps : List Phrase) (free next : Point)
    {after : Language Kind}
    (h : ∀ e ∈ Form.restsAny (placeAlts ps free next) after, Stands r e.1 e.2)
    (hparts : Form.partsAll (placeAlts ps free next) ⊆ r.forms) (hnext : Stands r next after) :
    Form.SitEach r (placeAlts ps free next) after := by
  cases ps with
  | nil => trivial
  | cons p ps =>
    obtain ⟨hfirst, hrest⟩ := List.forall_mem_append.mp h
    obtain ⟨hp, hps⟩ := List.append_subset.mp hparts
    exact ⟨p.sits_place _ _ hfirst hp hnext, sitEach_placeAlts ps _ _ hrest hps hnext⟩

end

namespace Layout

variable {r : Rule} {ops : Operators}

theorem sits_plain {f : Form} (h : (ruleForm r).body = .plain f) : f.Sits r 1 := by
  have hrests : ∀ e ∈ f.rests 1, Stands r e.1 e.2 := fun e he =>
    stands_of_mem (by simp [restsOf, h, he])
  have hparts : f.parts ⊆ r.forms := by simp [Rule.forms, h, BodyForm.forms]
  rw [ruleForm_eq_placeRule, placeRule] at h
  split at h
  · cases h
    exact Phrase.sits_place _ _ _ hrests hparts (stands_stop r)
  · cases h
    exact Phrase.sits_place _ _ _ hrests hparts (stands_stop r)
  · cases h

/-- The sentences from the points between the tails of operators. -/
structure TailsSit (r : Rule) (ops : Operators) : Prop where
  entry : Stands r ops.entry ops.tailLanguage∗
  start : Stands r ops.start (ops.tailLanguage * ops.tailLanguage∗)
  join : Stands r ops.join ops.tailLanguage∗
  back : Stands r ops.back ops.tailLanguage∗

theorem tailsSit (h : (ruleForm r).body = .operators ops) : TailsSit r ops where
  entry := stands_of_mem (e := (_, _)) (by simp [restsOf, h])
  start := stands_of_mem (e := (_, _)) (by simp [restsOf, h])
  join := stands_of_mem (e := (_, _)) (by simp [restsOf, h])
  back := stands_of_mem (e := (_, _)) (by simp [restsOf, h])

theorem sits_heads (h : (ruleForm r).body = .operators ops) :
    ops.heads.Sits r ops.tailLanguage∗ := by
  have hrests : ∀ e ∈ ops.heads.rests ops.tailLanguage∗, Stands r e.1 e.2 := fun e he =>
    stands_of_mem (by simp [restsOf, h, he])
  have hparts : ops.heads.parts ⊆ r.forms := by simp [Rule.forms, h, BodyForm.forms]
  have hentry := (tailsSit h).entry
  rw [ruleForm_eq_placeRule, placeRule] at h
  split at h
  · cases h
  · cases h
  · cases h
    exact Phrase.sits_place _ _ _ hrests hparts hentry

private theorem exists_place_of_mem {ts : List (Nat × Phrase)} {free next : Point} {t : Nat × Form}
    (h : t ∈ placeTails ts free next) : ∃ (p : Phrase) (free' : Point), t.2 = p.place free' next := by
  induction ts generalizing free with
  | nil => simp [placeTails] at h
  | cons u us ih =>
    rcases List.mem_cons.mp h with rfl | h
    · exact ⟨u.2, free, rfl⟩
    · exact ih h

theorem sits_tail (h : (ruleForm r).body = .operators ops) {t : Nat × Form} (ht : t ∈ ops.tails) :
    t.2.Sits r ops.tailLanguage∗ := by
  have hrests : ∀ e ∈ t.2.rests ops.tailLanguage∗, Stands r e.1 e.2 := fun e he => by
    refine stands_of_mem ?_
    simp only [restsOf, h, List.mem_cons, List.mem_append, List.mem_flatMap]
    exact .inr (.inr (.inr (.inr (.inr (.inr ⟨t, ht, he⟩)))))
  have hparts : t.2.parts ⊆ r.forms := fun g hg => by
    simp only [Rule.forms, h, BodyForm.forms, List.mem_append, List.mem_flatMap]
    exact .inr ⟨t, ht, hg⟩
  have hjoin := (tailsSit h).join
  rw [ruleForm_eq_placeRule, placeRule] at h
  split at h
  · cases h
  · cases h
  · cases h
    obtain ⟨p, free, hp⟩ := exists_place_of_mem ht
    rw [hp] at hrests hparts ⊢
    exact Phrase.sits_place _ _ _ hrests hparts hjoin

end Layout

end ResourceNames.Java
