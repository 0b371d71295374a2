import ResourceNames.Java.Follow

/-!
The tables over the points of the grammar.

A phrase is laid out on consecutive points, each of which is used once, and the rules follow each
other without overlap. So a point belongs to one rule and has one entry there, and every table
over the points holds at a point what the rule of the point says about it.
-/
namespace ResourceNames.Java

mutual

def Form.points : Form → List Point
  | .token here .. => [here]
  | .oneOf here .. => [here]
  | .call here .. => [here]
  | .seq _ parts => pointsAll parts
  | .choice start join alts => start :: join :: pointsAll alts
  | .opt start join alts => start :: join :: pointsAll alts
  | .star entry back _ body => entry :: back :: body.points
  | .plus start back _ body => start :: back :: body.points

def pointsAll : List Form → List Point
  | [] => []
  | f :: fs => f.points ++ pointsAll fs

end

mutual

/-- A phrase takes the points from the first free one on, without gaps. -/
theorem Phrase.points_place (p : Phrase) (free next : Nat) :
    (p.place free next).points = List.range' free p.size := by
  cases p with
  | token | oneOf | call => simp [Phrase.place, Form.points, Phrase.size]
  | seq parts => simpa [Phrase.place, Form.points, Phrase.size] using points_placeParts parts free next
  | choice alts | opt alts =>
    simp only [Phrase.place, Form.points, Phrase.size, points_placeAlts alts, Nat.add_comm 2,
      List.range'_succ]
  | star body | plus body =>
    simp only [Phrase.place, Form.points, Phrase.size, Phrase.points_place body, Nat.add_comm 2,
      List.range'_succ]

private theorem points_placeParts (ps : List Phrase) (free next : Nat) :
    pointsAll (placeParts ps free next).1 = List.range' free (sizes ps) := by
  cases ps with
  | nil => simp [placeParts, pointsAll, sizes]
  | cons p ps =>
    simp only [placeParts, pointsAll, sizes, p.points_place, points_placeParts ps]
    exact List.range'_append_1

private theorem points_placeAlts (ps : List Phrase) (free next : Nat) :
    pointsAll (placeAlts ps free next) = List.range' free (sizes ps) := by
  cases ps with
  | nil => simp [placeAlts, pointsAll, sizes]
  | cons p ps =>
    simp only [placeAlts, pointsAll, sizes, p.points_place, points_placeAlts ps]
    exact List.range'_append_1

end

private theorem points_placeTails (ts : List (Nat × Phrase)) (free next : Nat) :
    ((Layout.placeTails ts free next).flatMap fun t => t.2.points) =
      List.range' free (sizes (ts.map (·.2))) := by
  induction ts generalizing free with
  | nil => simp [Layout.placeTails, sizes]
  | cons t ts ih =>
    simp only [Layout.placeTails, List.flatMap_cons, List.map_cons, sizes, ih, t.2.points_place]
    exact List.range'_append_1

def BodyForm.points : BodyForm → List Point
  | .plain f => f.points
  | .operators ops =>
    ops.entry :: ops.start :: ops.join :: ops.back ::
      (ops.heads.points ++ ops.tails.flatMap fun t => t.2.points)

def RuleForm.points (r : RuleForm) : List Point := r.stop :: r.body.points

namespace Layout

/-- A rule takes consecutive points, not more than its size. -/
theorem points_placeRule (r : Rule) (free : Nat) :
    ∃ n ≤ bodySize (Grammar.body r), (placeRule r free).points = List.range' free n := by
  simp only [placeRule]
  split
  · rename_i alt h
    have hle : alt.size + 1 ≤ bodySize (Grammar.body r) := by
      simp only [h, bodySize, sizes]
      omega
    refine ⟨alt.size + 1, hle, ?_⟩
    simp [RuleForm.points, BodyForm.points, Phrase.points_place, List.range'_succ]
  · rename_i alts _ h
    have hle : (Phrase.choice alts).size + 1 ≤ bodySize (Grammar.body r) := by
      simp only [h, bodySize, Phrase.size]
      omega
    refine ⟨(Phrase.choice alts).size + 1, hle, ?_⟩
    simp [RuleForm.points, BodyForm.points, Phrase.points_place, List.range'_succ]
  · rename_i heads tails h
    refine ⟨7 + sizes heads + sizes (tails.map (·.2)), by simp [h, bodySize], ?_⟩
    have hr : List.range' (free + 5) (2 + sizes heads) ++
        List.range' (free + 7 + sizes heads) (sizes (tails.map (·.2))) =
        List.range' (free + 5) (2 + sizes heads + sizes (tails.map (·.2))) := by
      rw [show free + 7 + sizes heads = free + 5 + (2 + sizes heads) by omega]
      exact List.range'_append_1
    rw [show 7 + sizes heads + sizes (tails.map (·.2)) =
      (2 + sizes heads + sizes (tails.map (·.2))) + 1 + 1 + 1 + 1 + 1 by omega]
    simp only [RuleForm.points, BodyForm.points, Phrase.points_place, Phrase.size,
      points_placeTails, hr, List.range'_succ]

@[simp] theorem stop_placeRule (r : Rule) (free : Nat) : (placeRule r free).stop = free := by
  simp only [placeRule]
  split <;> rfl

@[simp] theorem rule_placeRule (r : Rule) (free : Nat) : (placeRule r free).rule = r := by
  simp only [placeRule]
  split <;> rfl

theorem mem_points_placeRule {r : Rule} {free p : Nat} (h : p ∈ (placeRule r free).points) :
    free ≤ p ∧ p < free + bodySize (Grammar.body r) := by
  obtain ⟨n, hn, he⟩ := points_placeRule r free
  rw [he, List.mem_range'_1] at h
  exact ⟨h.1, by omega⟩

theorem nodup_points_placeRule (r : Rule) (free : Nat) : (placeRule r free).points.Nodup := by
  obtain ⟨n, -, he⟩ := points_placeRule r free
  rw [he]
  exact List.nodup_range'

private theorem sizeFor_cons (r : Rule) (rs : List Rule) :
    sizeFor (r :: rs) = bodySize (Grammar.body r) + sizeFor rs := rfl

/-- Rules laid out one behind the other: a point of one of them is not beyond their common size,
and that rule is the last one laid out at or before the point. -/
private theorem mem_points_placeRules {rs : List Rule} {free p : Nat} {rf : RuleForm}
    (h : rf ∈ placeRules rs free) (hp : p ∈ rf.points) :
    free ≤ p ∧ p < free + sizeFor rs ∧
      ((placeRules rs free).takeWhile fun r => r.stop ≤ p).getLast? = some rf := by
  induction rs generalizing free with
  | nil => simp [placeRules] at h
  | cons r rs ih =>
    simp only [placeRules, List.mem_cons] at h
    rcases h with rfl | h
    · obtain ⟨hl, hu⟩ := mem_points_placeRule hp
      refine ⟨hl, by rw [sizeFor_cons]; omega, ?_⟩
      -- The rule behind begins after the point.
      have hrest : (placeRules rs (free + bodySize (Grammar.body r))).takeWhile
          (fun r => r.stop ≤ p) = [] := by
        cases rs with
        | nil => rfl
        | cons r' rs => simp [placeRules, hu]
      simp [placeRules, hl, hrest]
    · obtain ⟨hl, hu, hlast⟩ := ih h
      refine ⟨by omega, by rw [sizeFor_cons]; omega, ?_⟩
      have hfree : free ≤ p := by omega
      simp [placeRules, hfree, List.getLast?_cons, hlast]

theorem mem_rules {rf : RuleForm} : rf ∈ rules.toList ↔ rf ∈ placeRules Rule.all 0 := by
  simp [rules]

theorem ruleAt_of_mem {rf : RuleForm} (h : rf ∈ rules.toList) {p : Nat} (hp : p ∈ rf.points) :
    ruleAt p = rf := by
  simp [ruleAt, rules, (mem_points_placeRules (mem_rules.mp h) hp).2.2]

theorem lt_size_of_mem {rf : RuleForm} (h : rf ∈ rules.toList) {p : Nat} (hp : p ∈ rf.points) :
    p < size := by
  have hlt := (mem_points_placeRules (mem_rules.mp h) hp).2.1
  simpa only [size, Nat.zero_add] using hlt

private theorem getElem?_placeRules (rs : List Rule) (free i : Nat) :
    ∃ free', (placeRules rs free)[i]? = rs[i]?.map fun r => placeRule r free' := by
  induction rs generalizing free i with
  | nil => exact ⟨free, by simp [placeRules]⟩
  | cons r rs ih =>
    cases i with
    | zero => exact ⟨free, by simp [placeRules]⟩
    | succ i => simpa [placeRules] using ih (free + bodySize (Grammar.body r)) i

/-- The rules are listed by their numbers. -/
theorem getElem?_all (r : Rule) : Rule.all[r.index]? = some r := by cases r <;> rfl

/-- Every rule is laid out somewhere. -/
theorem ruleForm_eq (r : Rule) :
    ∃ free, ruleForm r = placeRule r free ∧ rules.toList[r.index]? = some (placeRule r free) := by
  obtain ⟨free, h⟩ := getElem?_placeRules Rule.all 0 r.index
  rw [getElem?_all] at h
  exact ⟨free, by simp [ruleForm, rules, h], by simpa [rules] using h⟩

theorem ruleForm_mem (r : Rule) : ruleForm r ∈ rules.toList := by
  obtain ⟨free, he, hm⟩ := ruleForm_eq r
  exact he ▸ List.mem_of_getElem? hm

@[simp] theorem rule_ruleForm (r : Rule) : (ruleForm r).rule = r := by
  obtain ⟨free, he, -⟩ := ruleForm_eq r
  simp [he]

theorem nodup_points (r : Rule) : (ruleForm r).points.Nodup := by
  obtain ⟨free, he, -⟩ := ruleForm_eq r
  exact he ▸ nodup_points_placeRule r free

end Layout

/-! Entries for points. -/

private theorem lookup_of_mem {α : Type} {entries : List (Point × α)}
    (hn : (entries.map Prod.fst).Nodup) {p : Point} {v : α} (h : (p, v) ∈ entries) :
    entries.lookup p = some v := by
  induction entries with
  | nil => simp at h
  | cons e es ih =>
    obtain ⟨q, w⟩ := e
    simp only [List.map_cons, List.nodup_cons] at hn
    rcases List.mem_cons.mp h with heq | hm
    · obtain ⟨rfl, rfl⟩ := Prod.mk.inj heq
      simp
    · have hq : (p == q) = false := by
        simp only [beq_eq_false_iff_ne]
        rintro rfl
        exact hn.1 (List.mem_map_of_mem hm)
      simp [List.lookup_cons, hq, ih hn.2 hm]

namespace Reach

section

variable {α : Type} {default : α} {entries : RuleForm → List (Point × α)} {r : Rule} {p : Point}

private theorem getElem?_tabulate (hp : p ∈ (Layout.ruleForm r).points) :
    (tabulate default entries)[p]? =
      some (((entries (Layout.ruleForm r)).lookup p).getD default) := by
  have hlt := Layout.lt_size_of_mem (Layout.ruleForm_mem r) hp
  have hr := Layout.ruleAt_of_mem (Layout.ruleForm_mem r) hp
  simp [tabulate, hlt, hr]

/-- A table holds the entry that the rule of a point has for the point. -/
theorem tabulate_of_mem
    (hs : ((entries (Layout.ruleForm r)).map Prod.fst).Sublist (Layout.ruleForm r).points)
    {v : α} (h : (p, v) ∈ entries (Layout.ruleForm r)) :
    (tabulate default entries)[p]? = some v := by
  have hn := hs.nodup (Layout.nodup_points r)
  have hp := hs.subset (List.mem_map_of_mem (f := Prod.fst) h)
  rw [getElem?_tabulate hp, lookup_of_mem hn h, Option.getD_some]

theorem tabulate_of_not_mem (hp : p ∈ (Layout.ruleForm r).points)
    (h : p ∉ (entries (Layout.ruleForm r)).map Prod.fst) :
    (tabulate default entries)[p]? = some default := by
  have hl : (entries (Layout.ruleForm r)).lookup p = none := by
    rw [List.lookup_eq_none_iff]
    intro e he
    have hne : p ≠ e.1 := fun heq => h (heq ▸ List.mem_map_of_mem he)
    simpa using hne
  rw [getElem?_tabulate hp, hl, Option.getD_none]

end

mutual

theorem map_fst_points (f : Form) (after : Reach) :
    (Reach.points f after).map Prod.fst = f.points := by
  cases f with
  | token | oneOf | call => simp [Reach.points, Form.points]
  | seq entry parts => simpa [Reach.points, Form.points] using map_fst_pointsSeq parts after
  | choice start join alts | opt start join alts =>
    simp [Reach.points, Form.points, map_fst_pointsAlts alts]
  | star entry back next body | plus entry back next body =>
    simp [Reach.points, Form.points, map_fst_points body]

private theorem map_fst_pointsSeq (fs : List Form) (after : Reach) :
    (pointsSeq fs after).map Prod.fst = pointsAll fs := by
  cases fs with
  | nil => simp [pointsSeq, pointsAll]
  | cons f fs => simp [pointsSeq, pointsAll, map_fst_points f, map_fst_pointsSeq fs]

private theorem map_fst_pointsAlts (fs : List Form) (after : Reach) :
    (pointsAlts fs after).map Prod.fst = pointsAll fs := by
  cases fs with
  | nil => simp [pointsAlts, pointsAll]
  | cons f fs => simp [pointsAlts, pointsAll, map_fst_points f, map_fst_pointsAlts fs]

end

theorem map_fst_pointsOf (rf : RuleForm) : (pointsOf rf).map Prod.fst = rf.points := by
  cases hb : rf.body with
  | plain f => simp [pointsOf, RuleForm.points, BodyForm.points, hb, map_fst_points]
  | operators ops =>
    simp [pointsOf, RuleForm.points, BodyForm.points, hb, map_fst_points, List.map_flatMap]

/-- What is met at a point is what its rule says. -/
theorem point_of_mem {r : Rule} {p : Point} {v : Reach}
    (h : (p, v) ∈ pointsOf (Layout.ruleForm r)) : Reach.point p = v := by
  have hs : ((pointsOf (Layout.ruleForm r)).map Prod.fst).Sublist (Layout.ruleForm r).points := by
    simp only [map_fst_pointsOf, List.Sublist.refl]
  simp [Reach.point, pointTable, tabulate_of_mem hs h]

end Reach

namespace Item

mutual

private theorem map_fst_ofForm (f : Form) : ((ofForm f).map Prod.fst).Sublist f.points := by
  cases f with
  | token | oneOf | call => simp [ofForm, Form.points]
  | seq entry parts => simpa [ofForm, Form.points] using map_fst_ofForms parts
  | choice start join alts | opt start join alts =>
    simpa [ofForm, Form.points] using ((map_fst_ofForms alts).cons join).cons start
  | star entry back next body | plus entry back next body =>
    simpa [ofForm, Form.points] using ((map_fst_ofForm body).cons back).cons entry

private theorem map_fst_ofForms (fs : List Form) :
    ((ofForms fs).map Prod.fst).Sublist (pointsAll fs) := by
  cases fs with
  | nil => simp [ofForms, pointsAll]
  | cons f fs => simpa [ofForms, pointsAll] using (map_fst_ofForm f).append (map_fst_ofForms fs)

end

private theorem map_fst_ofTails (ts : List (Nat × Form)) :
    ((ts.flatMap fun t => ofForm t.2).map Prod.fst).Sublist (ts.flatMap fun t => t.2.points) := by
  induction ts with
  | nil => simp
  | cons t ts ih => simpa using (map_fst_ofForm t.2).append ih

private theorem map_fst_ofBody (rf : RuleForm) :
    ((ofRule rf).map Prod.fst).Sublist rf.body.points := by
  cases hb : rf.body with
  | plain f => simpa [ofRule, BodyForm.points, hb] using map_fst_ofForm f
  | operators ops =>
    have hs := (map_fst_ofForm ops.heads).append (map_fst_ofTails ops.tails)
    simpa [ofRule, BodyForm.points, hb] using
      (((hs.cons ops.back).cons ops.join).cons ops.start).cons ops.entry

theorem map_fst_ofRule (rf : RuleForm) : ((ofRule rf).map Prod.fst).Sublist rf.points :=
  (map_fst_ofBody rf).cons rf.stop

/-- What stands at a point is what its rule says. -/
theorem ofPoint_of_mem {r : Rule} {p : Point} {i : Item}
    (h : (p, i) ∈ ofRule (Layout.ruleForm r)) : ofPoint p = i := by
  simp [ofPoint, table, Reach.tabulate_of_mem (map_fst_ofRule _) h]

/-- Nothing is read at a point of a rule where it has no token and no call. -/
theorem ofPoint_of_not_mem {r : Rule} {p : Point} (hp : p ∈ (Layout.ruleForm r).points)
    (h : p ∉ (ofRule (Layout.ruleForm r)).map Prod.fst) : ofPoint p = .silent := by
  simp [ofPoint, table, Reach.tabulate_of_not_mem hp h]

/-- Nothing is read at the end of a rule. -/
theorem ofPoint_stop (r : Rule) : ofPoint (Layout.stop r) = .silent := by
  refine ofPoint_of_not_mem (r := r) List.mem_cons_self fun h => ?_
  exact (List.nodup_cons.mp (Layout.nodup_points r)).1 ((map_fst_ofBody _).subset h)

theorem owner_of_mem {r : Rule} {p : Point} (hp : p ∈ (Layout.ruleForm r).points) :
    owner p = r := by
  have hlt := Layout.lt_size_of_mem (Layout.ruleForm_mem r) hp
  have hr := Layout.ruleAt_of_mem (Layout.ruleForm_mem r) hp
  simp [owner, owners, hlt, hr]

end Item

namespace First

theorem rule_eq (r : Rule) : First.rule r = ofRule Rule.all.length r := by
  simp [First.rule, table, Layout.getElem?_all]

end First

namespace Follow

theorem expected_of_mem {r : Rule} {p : Point} (hp : p ∈ (Layout.ruleForm r).points) :
    expected p = ⟨kindsOf (leaves p), (Reach.point p).exits⟩ := by
  have hlt := Layout.lt_size_of_mem (Layout.ruleForm_mem r) hp
  simp [expected, expectedTable, hlt]

mutual

private theorem map_fst_decisions (f : Form) :
    ((decisions f).map Prod.fst).Sublist f.points := by
  cases f with
  | token | oneOf | call => simp [decisions]
  | seq entry parts => simpa [decisions, Form.points] using map_fst_decisionsAll parts
  | choice start join alts | opt start join alts =>
    simpa [decisions, Form.points] using (map_fst_decisionsAll alts).cons join
  | star entry back next body | plus entry back next body =>
    simpa [decisions, Form.points] using (map_fst_decisions body).cons back

private theorem map_fst_decisionsAll (fs : List Form) :
    ((decisionsAll fs).map Prod.fst).Sublist (pointsAll fs) := by
  cases fs with
  | nil => simp [decisionsAll, pointsAll]
  | cons f fs =>
    simpa [decisionsAll, pointsAll] using (map_fst_decisions f).append (map_fst_decisionsAll fs)

end

private theorem map_fst_decisionsTails (ts : List (Nat × Form)) :
    ((ts.flatMap fun t => decisions t.2).map Prod.fst).Sublist
      (ts.flatMap fun t => t.2.points) := by
  induction ts with
  | nil => simp
  | cons t ts ih => simpa using (map_fst_decisions t.2).append ih

private theorem map_fst_decisionsOf (rf : RuleForm) :
    ((decisionsOf rf).map Prod.fst).Sublist rf.points := by
  cases hb : rf.body with
  | plain f =>
    simpa [decisionsOf, RuleForm.points, BodyForm.points, hb] using
      (map_fst_decisions f).cons rf.stop
  | operators ops =>
    have hs := (map_fst_decisions ops.heads).append (map_fst_decisionsTails ops.tails)
    simpa [decisionsOf, RuleForm.points, BodyForm.points, hb] using
      ((((hs.cons ops.back).cons ops.join).cons ops.start).cons ops.entry).cons rf.stop

/-- Whether the next token settles a decision is found from its alternatives alone. -/
theorem settled?_of_mem {r : Rule} {p : Point} {alts : List Point}
    (h : (p, alts) ∈ decisionsOf (Layout.ruleForm r)) : settled? p = looks? alts := by
  have hs : (((decisionsOf (Layout.ruleForm r)).map fun d => (d.1, looks? d.2)).map
      Prod.fst).Sublist (Layout.ruleForm r).points := by
    simpa [Function.comp_def] using map_fst_decisionsOf (Layout.ruleForm r)
  have hm : (p, looks? alts) ∈ (decisionsOf (Layout.ruleForm r)).map fun d => (d.1, looks? d.2) :=
    List.mem_map_of_mem h
  have ht : settledTable[p]? = some (looks? alts) := Reach.tabulate_of_mem hs hm
  simp [settled?, ht]

end Follow

end ResourceNames.Java
