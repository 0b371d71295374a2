import Mathlib.Algebra.GroupWithZero.Nat
import Mathlib.Algebra.Order.BigOperators.Group.List
import Mathlib.Algebra.Order.Group.Nat
import ResourceNames.Proofs.Reaches

/-!
What may follow a rule.

From a point one either reads a token met there or leaves the rule, and then goes on where the rule
was called. So the next kind is among those expected at the point, or, after the end of the rule,
among those that may follow the rule wherever it is called. The ends of rules that can be met
together are found by closing a set under going to the callers.
-/
namespace ResourceNames.Java

open Computability Layout

-- What the tables hold is known from lemmas. Comparing terms must not evaluate them.
attribute [local irreducible] Reach.point Item.ofPoint Item.owner

theorem Follow.mem_kindsOf {k : Kind} {ls : List Leaf} :
    k ∈ kindsOf ls ↔ ∃ l ∈ ls, k ∈ kindsAt l.point := by
  simp [kindsOf, Kinds.mem_ofList]

theorem Follow.kindsAt_of_token {p next : Point} {kinds : List Kind}
    (h : Item.ofPoint p = .token kinds next) : kindsAt p = kinds := by
  unfold kindsAt
  generalize Item.ofPoint p = i at h
  subst h
  rfl

/-! ### The tokens met from a point -/

/-- The sentences that begin with the token of a leaf begin with one of its kinds. -/
theorem Leaf.Valid.exists_kind {r : Rule} {l : Leaf} (h : l.Valid r) {w : List Kind}
    {after : Language Kind} (hw : w ∈ l.language * after) :
    ∃ k v, w = k :: v ∧ k ∈ Follow.kindsAt l.point := by
  obtain ⟨-, kinds, next, hitem, -, hrest⟩ := h.token
  rw [Leaf.language, rests_cons, mul_assoc] at hw
  obtain ⟨u, hu, v, -, rfl⟩ := Language.mem_mul.mp hw
  obtain ⟨k, hk, x, -, rfl⟩ := (hrest u).mp hu
  exact ⟨k, x ++ v, rfl, Follow.kindsAt_of_token hitem ▸ hk⟩

theorem Leaf.Valid.ne_nil {r : Rule} {l : Leaf} (h : l.Valid r) {w : List Kind}
    {after : Language Kind} (hw : w ∈ l.language * after) : w ≠ [] := by
  obtain ⟨k, v, rfl, -⟩ := h.exists_kind hw
  exact List.cons_ne_nil k v

namespace Reach

variable {r : Rule} {p : Point} {w : List Kind} {after : Language Kind}

theorem mem_leaves_iff (hp : p ∈ (ruleForm r).points) {l : Leaf} :
    l ∈ Follow.leaves p ↔
      l ∈ (Reach.point p).leaves ∨ (Reach.point p).loops = true ∧ l ∈ loopLeaves r := by
  rw [Follow.leaves, Item.owner_of_mem hp]
  cases (Reach.point p).loops <;> simp

theorem valid_of_mem_leaves (hp : p ∈ (ruleForm r).points) {l : Leaf} (hl : l ∈ Follow.leaves p) :
    l.Valid r := by
  rcases (mem_leaves_iff hp).mp hl with hl | ⟨-, hl⟩
  · exact (describes_point hp).valid l hl
  · exact valid_of_mem_loopLeaves hl

/-- From a point one leaves the rule or reads one of the tokens met there. -/
theorem mem_rest_mul_iff (hp : p ∈ (ruleForm r).points) :
    w ∈ rest p * after ↔ ((Reach.point p).exits = true ∧ w ∈ after) ∨
      ∃ l ∈ Follow.leaves p, w ∈ l.language * after := by
  have hd := describes_point hp
  have hstar := Language.one_add_self_mul_kstar_eq_kstar r.tailLanguage
  constructor
  · intro hw
    obtain ⟨u, hu, v, hv, rfl⟩ := Language.mem_mul.mp hw
    rcases (hd.mem u).mp hu with ⟨he, rfl⟩ | ⟨l, hl, hu⟩ | ⟨hloops, hu⟩
    · exact .inl ⟨by simp [exits, he], hv⟩
    · exact .inr ⟨l, (mem_leaves_iff hp).mpr (.inl hl), Language.append_mem_mul hu hv⟩
    · rw [← hstar, Language.mem_add, Language.mem_one, mem_loopLeaves] at hu
      rcases hu with rfl | ⟨l, hl, hu⟩
      · exact .inl ⟨by simp [exits, hloops], hv⟩
      · exact .inr ⟨l, (mem_leaves_iff hp).mpr (.inr ⟨hloops, hl⟩), Language.append_mem_mul hu hv⟩
  · rintro (⟨he, hw⟩ | ⟨l, hl, hw⟩)
    · rw [exits, Bool.or_eq_true] at he
      refine Language.append_mem_mul (a := []) ((hd.mem []).mpr ?_) hw
      exact he.imp (⟨·, rfl⟩) fun h => .inr ⟨h, Language.nil_mem_kstar _⟩
    · obtain ⟨u, hu, v, hv, rfl⟩ := Language.mem_mul.mp hw
      refine Language.append_mem_mul ((hd.mem u).mpr (.inr ?_)) hv
      refine ((mem_leaves_iff hp).mp hl).imp (fun hl => ⟨l, hl, hu⟩) fun hloops => ⟨hloops.1, ?_⟩
      rw [← hstar, Language.mem_add]
      exact .inr (mem_loopLeaves.mpr ⟨l, hloops.2, hu⟩)

theorem exits_iff (hp : p ∈ (ruleForm r).points) :
    (Reach.point p).exits = true ↔ [] ∈ rest p := by
  have h : [] ∈ rest p * 1 ↔ _ := mem_rest_mul_iff hp
  rw [mul_one] at h
  rw [h]
  constructor
  · exact fun he => .inl ⟨he, Language.nil_mem_one⟩
  · rintro (⟨he, -⟩ | ⟨l, hl, hw⟩)
    · exact he
    · exact absurd rfl ((valid_of_mem_leaves hp hl).ne_nil hw)

end Reach

/-! ### Call sites -/

namespace Follow

mutual

private theorem stands_of_mem_ofForm {r : Rule} (f : Form) {after : Language Kind}
    (hs : f.Sits r after) {i : Point × Item} (hi : i ∈ Item.ofForm f) {rule : Rule} {level : Nat}
    {next : Point} (hc : i.2 = .call rule level next) : ∃ after', Stands r next after' := by
  cases f with
  | token | oneOf =>
    obtain rfl := List.mem_singleton.mp hi
    cases hc
  | call here next rule level field =>
    obtain rfl := List.mem_singleton.mp hi
    cases hc
    exact ⟨_, hs.2.1⟩
  | seq entry parts => exact stands_of_mem_parts parts hs.2 hi hc
  | choice start join alts | opt start join alts => exact stands_of_mem_alts alts hs.2.2 hi hc
  | star entry back next body | plus entry back next body =>
    exact stands_of_mem_ofForm body hs.2.2.2.2 hi hc

private theorem stands_of_mem_parts {r : Rule} (fs : List Form) {after : Language Kind}
    (hs : Form.SitAll r fs after) {i : Point × Item} (hi : i ∈ Item.ofForms fs) {rule : Rule}
    {level : Nat} {next : Point} (hc : i.2 = .call rule level next) :
    ∃ after', Stands r next after' := by
  cases fs with
  | nil => simp [Item.ofForms] at hi
  | cons f fs =>
    rcases List.mem_append.mp hi with hi | hi
    · exact stands_of_mem_ofForm f hs.1 hi hc
    · exact stands_of_mem_parts fs hs.2 hi hc

private theorem stands_of_mem_alts {r : Rule} (fs : List Form) {after : Language Kind}
    (hs : Form.SitEach r fs after) {i : Point × Item} (hi : i ∈ Item.ofForms fs) {rule : Rule}
    {level : Nat} {next : Point} (hc : i.2 = .call rule level next) :
    ∃ after', Stands r next after' := by
  cases fs with
  | nil => simp [Item.ofForms] at hi
  | cons f fs =>
    rcases List.mem_append.mp hi with hi | hi
    · exact stands_of_mem_ofForm f hs.1 hi hc
    · exact stands_of_mem_alts fs hs.2 hi hc

end

/-- A call returns to a point of the rule that makes it. -/
theorem mem_points_of_mem_sites {rule : Rule} {site : CallSite} (h : site ∈ sites rule) :
    site.next ∈ (ruleForm (Item.owner site.next)).points ∧
      ∃ i ∈ Item.ofRule (ruleForm (Item.owner site.next)), i.2 = .call rule site.level site.next := by
  obtain ⟨r, i, hi, hc⟩ := mem_sites_iff.mp h
  suffices hs : ∃ after', Stands r site.next after' by
    obtain ⟨_, hs⟩ := hs
    rw [hs.owner]
    exact ⟨hs.mem, i, hi, hc⟩
  unfold Item.ofRule at hi
  split at hi
  · rename_i f hf
    exact stands_of_mem_ofForm f (sits_plain hf) hi hc
  · rename_i ops ho
    rcases List.mem_append.mp hi with hi | hi
    · exact stands_of_mem_ofForm ops.heads (sits_heads ho) hi hc
    · obtain ⟨t, ht, hi⟩ := List.mem_flatMap.mp hi
      exact stands_of_mem_ofForm t.2 (sits_tail ho ht) hi hc

end Follow

/-- Whether an item of a rule is as items are: the rule of a whole unit is not called, only the end
of the input leads to its end, and after an operand only tails can follow. -/
def Item.isProper (r : Rule) : Item → Bool
  | .call rule level next =>
    rule != .compilationUnit && (r != .compilationUnit || next != stop r) &&
      (level == 0 || Config.isOperandEnd next)
  | .token kinds next => next != stop .compilationUnit || kinds == [.eof]
  | .silent => true

private theorem isProper_of_mem_all :
    ∀ r ∈ Rule.all, ∀ i ∈ Item.ofRule (ruleForm r), i.2.isProper r = true := by
  decide +kernel

/-- What holds of every place where a rule is called. -/
structure CallSite.Proper (rule : Rule) (site : CallSite) : Prop where
  mem : site.next ∈ (ruleForm (Item.owner site.next)).points
  called : rule ≠ .compilationUnit
  inside : site.next ≠ stop .compilationUnit
  operand : site.level = 0 ∨ Config.isOperandEnd site.next = true

theorem Follow.proper_of_mem_sites {rule : Rule} {site : CallSite} (h : site ∈ sites rule) :
    site.Proper rule := by
  obtain ⟨hmem, i, hi, hc⟩ := mem_points_of_mem_sites h
  have hp := isProper_of_mem_all _ (mem_all _) i hi
  simp only [hc, Item.isProper, Bool.and_eq_true, Bool.or_eq_true, bne_iff_ne, beq_iff_eq] at hp
  obtain ⟨⟨hcalled, hinside⟩, hoperand⟩ := hp
  refine ⟨hmem, hcalled, fun hstop => ?_, hoperand⟩
  have howner : Item.owner site.next = .compilationUnit := by
    rw [hstop]
    exact (stands_stop .compilationUnit).owner
  rw [howner] at hinside
  exact hinside.elim (absurd rfl) (absurd hstop)

/-- Only the end of the input leads to the end of a whole unit. -/
theorem Layout.IsToken.eq_eof {p : Point} (h : IsToken p) {kinds : List Kind}
    (hitem : Item.ofPoint p = .token kinds (stop .compilationUnit)) : kinds = [.eof] := by
  by_cases hp : p ∈ (Item.ofRule (ruleForm (Item.owner p))).map Prod.fst
  · obtain ⟨⟨q, i⟩, hi, rfl⟩ := List.mem_map.mp hp
    obtain rfl : i = _ := (Item.ofPoint_of_mem hi).symm.trans hitem
    simpa [Item.isProper] using isProper_of_mem_all _ (mem_all _) _ hi
  · rw [Item.ofPoint_of_not_mem h.1 hp] at hitem
    cases hitem

/-! ### Whole units -/

private theorem exits_compilationUnit : ∀ e ∈ Reach.pointsOf (ruleForm .compilationUnit),
    e.1 = stop .compilationUnit ∨ e.2.exits = false := by
  decide +kernel

/-- A whole unit ends at its end only. -/
theorem Reach.exits_of_unit {p : Point} (hp : p ∈ (ruleForm .compilationUnit).points)
    (hne : p ≠ stop .compilationUnit) : (Reach.point p).exits = false := by
  rw [← map_fst_pointsOf] at hp
  obtain ⟨⟨q, v⟩, hv, rfl⟩ := List.mem_map.mp hp
  rw [point_of_mem hv]
  exact (exits_compilationUnit _ hv).resolve_left hne

/-- Before the end of a whole unit something is left to read. -/
theorem Layout.nil_not_mem_rests {r : Rule} {p : Point} {stack : List Point}
    (hp : p ∈ (ruleForm r).points) (hc : Chain r stack) (hne : p ≠ stop .compilationUnit) :
    [] ∉ rests (p :: stack) := by
  induction stack generalizing p r with
  | nil =>
    obtain rfl : r = .compilationUnit := hc
    intro h
    rw [rests_cons, rests_nil, mul_one, ← Reach.exits_iff hp, Reach.exits_of_unit hp hne] at h
    cases h
  | cons q stack ih =>
    obtain ⟨⟨level, hsite⟩, hrest⟩ := hc
    have hproper := Follow.proper_of_mem_sites hsite
    intro h
    rw [rests_cons] at h
    obtain ⟨u, -, v, hv, huv⟩ := Language.mem_mul.mp h
    rw [(List.append_eq_nil_iff.mp huv).2] at hv
    exact ih hproper.mem hrest hproper.inside hv

/-! ### The ends of rules that are met together -/

namespace Follow

private def allEnds : List RuleEnd := Rule.all.flatMap fun r => [⟨r, false⟩, ⟨r, true⟩]

private theorem mem_allEnds (e : RuleEnd) : e ∈ allEnds := by
  refine List.mem_flatMap.mpr ⟨e.rule, mem_all e.rule, ?_⟩
  cases e with
  | mk rule whole => cases whole <;> simp

/-- How many ends may still be put on the list. -/
private def pending (met : List RuleEnd) : Nat :=
  (allEnds.map fun e => if e ∈ met then 0 else e.parents.length).sum

private theorem sum_cons_le {f : RuleEnd → Nat} {e : RuleEnd} {met : List RuleEnd} (he : e ∉ met)
    (ends : List RuleEnd) :
    (ends.map fun d => if d ∈ e :: met then 0 else f d).sum + (if e ∈ ends then f e else 0) ≤
      (ends.map fun d => if d ∈ met then 0 else f d).sum := by
  induction ends with
  | nil => simp
  | cons d ds ih =>
    simp only [List.map_cons, List.sum_cons]
    by_cases hd : d = e
    · subst hd
      rw [if_pos List.mem_cons_self, if_pos List.mem_cons_self, if_neg he]
      omega
    · have hmem : d ∈ e :: met ↔ d ∈ met := by simp [hd]
      have hends : e ∈ d :: ds ↔ e ∈ ds := by simp [Ne.symm hd]
      simp only [hmem, hends]
      omega

private theorem pending_cons {e : RuleEnd} {met : List RuleEnd} (he : e ∉ met) :
    pending (e :: met) + e.parents.length ≤ pending met := by
  have h := sum_cons_le (f := fun d => d.parents.length) he allEnds
  rwa [if_pos (mem_allEnds e)] at h

/-- With enough steps the set of ends is closed under going to the callers. -/
private theorem ascend_closed {steps : Nat} {met todo : List RuleEnd}
    (hsteps : todo.length + pending met ≤ steps)
    (hmet : ∀ e ∈ met, ∀ d ∈ e.parents, d ∈ met ∨ d ∈ todo) :
    (∀ e, e ∈ met ∨ e ∈ todo → e ∈ ascend steps met todo) ∧
      ∀ e ∈ ascend steps met todo, ∀ d ∈ e.parents, d ∈ ascend steps met todo := by
  induction steps generalizing met todo with
  | zero =>
    obtain rfl : todo = [] := List.length_eq_zero_iff.mp (by omega)
    simp only [List.not_mem_nil, or_false] at hmet ⊢
    exact ⟨fun e he => he, hmet⟩
  | succ steps ih =>
    cases todo with
    | nil =>
      simp only [List.not_mem_nil, or_false] at hmet ⊢
      exact ⟨fun e he => he, hmet⟩
    | cons e todo =>
      rw [List.length_cons] at hsteps
      rw [ascend]
      split
      · rename_i hin
        have hin : e ∈ met := by simpa using hin
        have hdrop : ∀ d, d ∈ met ∨ d ∈ e :: todo → d ∈ met ∨ d ∈ todo := by
          rintro d (hd | hd)
          · exact .inl hd
          · rcases List.mem_cons.mp hd with rfl | hd
            · exact .inl hin
            · exact .inr hd
        have hmet' : ∀ d ∈ met, ∀ c ∈ d.parents, c ∈ met ∨ c ∈ todo := fun d hd c hc =>
          hdrop c (hmet d hd c hc)
        obtain ⟨hsub, hclosed⟩ := ih (by omega) hmet'
        exact ⟨fun d hd => hsub d (hdrop d hd), hclosed⟩
      · rename_i hout
        have hout : e ∉ met := by simpa using hout
        have hpending := pending_cons hout
        have hmove : ∀ d, d ∈ met ∨ d ∈ e :: todo → d ∈ e :: met ∨ d ∈ e.parents ++ todo := by
          rintro d (hd | hd)
          · exact .inl (List.mem_cons_of_mem _ hd)
          · rcases List.mem_cons.mp hd with rfl | hd
            · exact .inl List.mem_cons_self
            · exact .inr (List.mem_append_right _ hd)
        have hmet' : ∀ d ∈ e :: met, ∀ c ∈ d.parents, c ∈ e :: met ∨ c ∈ e.parents ++ todo := by
          intro d hd c hc
          rcases List.mem_cons.mp hd with rfl | hd
          · exact .inr (List.mem_append_left _ hc)
          · exact hmove c (hmet d hd c hc)
        obtain ⟨hsub, hclosed⟩ := ih (by rw [List.length_append]; omega) hmet'
        exact ⟨fun d hd => hsub d (hmove d hd), hclosed⟩

private theorem length_sites_lt (r : Rule) : (sites r).length < Layout.size := by
  have hitems : (Layout.rules.toList.flatMap Item.ofRule).length < Layout.size := by
    decide +kernel
  simp only [sites, siteTable, List.getElem?_toArray, List.getElem?_map, Layout.getElem?_all,
    Option.map_some, Option.getD_some]
  exact Nat.lt_of_le_of_lt (List.length_filterMap_le _ _) hitems

private theorem pending_nil_lt : pending [] < 2 * Rule.all.length * Layout.size := by
  have hle : pending [] ≤ allEnds.length * (Layout.size - 1) := by
    have hsum := List.sum_le_card_nsmul
      (allEnds.map fun e => if e ∈ [] then 0 else e.parents.length) (Layout.size - 1) fun n hn => ?_
    · rwa [List.length_map, Nat.nsmul_eq_mul] at hsum
    · obtain ⟨e, -, rfl⟩ := List.mem_map.mp hn
      have hsites := length_sites_lt e.rule
      have hparents : e.parents.length ≤ (sites e.rule).length := List.length_filterMap_le _ _
      simp only [List.not_mem_nil, if_false]
      omega
  have hlength : allEnds.length = 2 * Rule.all.length := by decide +kernel
  have hsize := length_sites_lt .compilationUnit
  rw [hlength] at hle
  refine Nat.lt_of_le_of_lt hle (Nat.mul_lt_mul_of_pos_left ?_ (by decide))
  omega

/-- The ends that are met from the end of a rule, whoever called it. -/
def endsFrom (r : Rule) : List RuleEnd :=
  ascend (2 * Rule.all.length * Layout.size) [] [⟨r, false⟩]

private theorem endsFrom_closed (r : Rule) :
    ⟨r, false⟩ ∈ endsFrom r ∧ ∀ e ∈ endsFrom r, ∀ d ∈ e.parents, d ∈ endsFrom r := by
  have hsteps : [(⟨r, false⟩ : RuleEnd)].length + pending [] ≤ 2 * Rule.all.length * Layout.size := by
    have := pending_nil_lt
    rw [List.length_singleton]
    omega
  obtain ⟨hsub, hclosed⟩ := ascend_closed hsteps (by simp)
  exact ⟨hsub _ (.inr (List.mem_singleton_self _)), hclosed⟩

theorem mem_endsFrom_self (r : Rule) : ⟨r, false⟩ ∈ endsFrom r := (endsFrom_closed r).1

theorem mem_endsFrom_parent {r : Rule} {e d : RuleEnd} (he : e ∈ endsFrom r) (hd : d ∈ e.parents) :
    d ∈ endsFrom r := (endsFrom_closed r).2 e he d hd

/-- After the ends met from the end of a rule one goes on where their rules are called. -/
theorem mem_outer {r : Rule} {o : OuterLeaf} :
    o ∈ outer r ↔ ∃ e ∈ endsFrom r, ∃ site ∈ sites e.rule, ∃ l ∈ leaves site.next,
      o = ⟨l, e.wholeAt site⟩ := by
  have houter : outer r = outerOf r := by simp [outer, outerTable, Layout.getElem?_all]
  simp only [houter, outerOf, List.mem_eraseDups, List.mem_flatMap, List.mem_map, eq_comm, endsFrom]

theorem valid_of_mem_outer {r : Rule} {o : OuterLeaf} (h : o ∈ outer r) :
    ∃ r', o.leaf.Valid r' := by
  obtain ⟨e, -, site, hsite, l, hl, rfl⟩ := mem_outer.mp h
  exact ⟨_, Reach.valid_of_mem_leaves (proper_of_mem_sites hsite).mem hl⟩

/-- What is left to read after the end of a rule begins with a token that may follow it. -/
theorem exists_outer {r : Rule} {e : RuleEnd} (he : e ∈ endsFrom r) {stack : List Point}
    (hc : Chain e.rule stack) {w : List Kind} (hw : w ∈ rests stack) (hne : w ≠ []) :
    ∃ o ∈ outer r, (e.whole = true → o.whole = true) ∧ ∃ stack',
      Chain (Item.owner o.leaf.point) (o.leaf.rets ++ stack') ∧
        w ∈ o.leaf.language * rests stack' := by
  induction stack generalizing e with
  | nil => exact absurd ((Language.mem_one w).mp hw) hne
  | cons p stack ih =>
    obtain ⟨⟨level, hsite⟩, hrest⟩ := hc
    have hp := (proper_of_mem_sites hsite).mem
    have hwhole : e.whole = true → e.wholeAt ⟨level, p⟩ = true := fun h => by
      simp [RuleEnd.wholeAt, h]
    rw [rests_cons, Reach.mem_rest_mul_iff hp] at hw
    rcases hw with ⟨hexits, hw⟩ | ⟨l, hl, hw⟩
    · have hparent : ⟨Item.owner p, e.wholeAt ⟨level, p⟩⟩ ∈ e.parents :=
        List.mem_filterMap.mpr ⟨_, hsite, by simp only [hexits, if_true]⟩
      obtain ⟨o, ho, hwhole', hstack⟩ := ih (mem_endsFrom_parent he hparent) hrest hw
      exact ⟨o, ho, fun h => hwhole' (hwhole h), hstack⟩
    · exact ⟨_, mem_outer.mpr ⟨e, he, _, hsite, l, hl, rfl⟩, hwhole, stack,
        (Reach.valid_of_mem_leaves hp hl).chain hrest, hw⟩

end Follow

/-! ### The kinds that may come next -/

namespace Follow

variable {r : Rule} {p : Point} {stack : List Point} {k : Kind} {v : List Kind}

private theorem mem_kindsOf_leaves (hp : p ∈ (ruleForm r).points) {after : Language Kind}
    {l : Leaf} (hl : l ∈ leaves p) (hw : k :: v ∈ l.language * after) : k ∈ kindsOf (leaves p) := by
  obtain ⟨j, u, huv, hj⟩ := (Reach.valid_of_mem_leaves hp hl).exists_kind hw
  obtain ⟨rfl, -⟩ := List.cons.inj huv
  exact mem_kindsOf.mpr ⟨l, hl, hj⟩

/-- The next kind is expected at a point, or the rule may end there. -/
theorem mem_expected (hp : p ∈ (ruleForm r).points) (hw : k :: v ∈ rests (p :: stack)) :
    (expected p).ends = true ∨ k ∈ (expected p).kinds := by
  rw [expected_of_mem hp]
  dsimp only
  rw [rests_cons, Reach.mem_rest_mul_iff hp] at hw
  exact hw.imp And.left fun ⟨l, hl, hw⟩ => mem_kindsOf_leaves hp hl hw

/-- The kinds that may come next at a point are those met inside its rule and, if the rule may end,
those that may follow it. -/
theorem mem_lookahead_iff (hp : p ∈ (ruleForm r).points) :
    k ∈ lookahead p ↔ k ∈ kindsOf (leaves p) ∨
      (Reach.point p).exits = true ∧ ∃ o ∈ outer r, k ∈ kindsAt o.leaf.point := by
  rw [lookahead, expected_of_mem hp, Item.owner_of_mem hp]
  generalize (Reach.point p).exits = exits
  cases exits <;> simp [Kinds.mem_union, mem_kindsOf]

/-- The next kind is among those that may come next at a point. -/
theorem mem_lookahead (hp : p ∈ (ruleForm r).points) (hc : Chain r stack)
    (hw : k :: v ∈ rests (p :: stack)) : k ∈ lookahead p := by
  rw [mem_lookahead_iff hp]
  rw [rests_cons, Reach.mem_rest_mul_iff hp] at hw
  rcases hw with ⟨hexits, hw⟩ | ⟨l, hl, hw⟩
  · obtain ⟨o, ho, -, stack', -, hw⟩ :=
      exists_outer (mem_endsFrom_self r) hc hw (List.cons_ne_nil k v)
    obtain ⟨_, hvalid⟩ := valid_of_mem_outer ho
    obtain ⟨j, u, huv, hj⟩ := hvalid.exists_kind hw
    obtain ⟨rfl, -⟩ := List.cons.inj huv
    exact .inr ⟨hexits, o, ho, hj⟩
  · exact .inl (mem_kindsOf_leaves hp hl hw)

end Follow

/-! ### Operands -/

private theorem eq_expression_of_mem_all :
    ∀ r ∈ Rule.all, Follow.hasOperators r = true → r = .expression := by
  decide

/-- One rule only is given by operators. -/
theorem Follow.eq_of_hasOperators {r q : Rule} (hr : hasOperators r = true)
    (hq : hasOperators q = true) : r = q :=
  (eq_expression_of_mem_all r (mem_all r) hr).trans
    (eq_expression_of_mem_all q (mem_all q) hq).symm

/-- After an operand nothing but tails can follow. -/
theorem Layout.rest_of_isOperandEnd {r : Rule} {p : Point} (hp : p ∈ (ruleForm r).points)
    (h : Config.isOperandEnd p = true) :
    Follow.hasOperators r = true ∧ rest p = r.tailLanguage∗ := by
  have hd := Reach.describes_point hp
  simp only [Config.isOperandEnd, Bool.and_eq_true, Bool.not_eq_true', List.isEmpty_iff] at h
  obtain ⟨⟨hloops, hends⟩, hleaves⟩ := h
  refine ⟨hd.loops hloops, Set.ext fun w => (hd.mem w).trans ?_⟩
  simp [hloops, hends, hleaves]
  rfl

/-- After the end of an expression one goes on after a whole expression, or with a tail of the
expression around it. -/
theorem Follow.exists_outer_tail {r : Rule} (hr : hasOperators r = true) {stack : List Point}
    (hc : Chain r stack) {w : List Kind} (hw : w ∈ rests stack) (hne : w ≠ []) :
    (∃ o ∈ outer r, o.whole = true ∧ ∃ stack',
      Chain (Item.owner o.leaf.point) (o.leaf.rets ++ stack') ∧ w ∈ o.leaf.language * rests stack') ∨
    ∃ l ∈ Reach.loopLeaves r, ⟨l, false⟩ ∈ outer r ∧ w ∈ l.language * rests stack := by
  induction stack with
  | nil => exact absurd ((Language.mem_one w).mp hw) hne
  | cons p stack ih =>
    obtain ⟨⟨level, hsite⟩, hrest⟩ := hc
    have hproper := proper_of_mem_sites hsite
    rcases Nat.eq_zero_or_pos level with rfl | hlevel
    · have hwhole : (⟨r, false⟩ : RuleEnd).wholeAt ⟨0, p⟩ = true := by simp [RuleEnd.wholeAt, hr]
      rw [rests_cons, Reach.mem_rest_mul_iff hproper.mem] at hw
      rcases hw with ⟨hexits, hw⟩ | ⟨l, hl, hw⟩
      · have hparent : ⟨Item.owner p, true⟩ ∈ (⟨r, false⟩ : RuleEnd).parents :=
          List.mem_filterMap.mpr ⟨_, hsite, by simp [hexits, hwhole]⟩
        have hend := mem_endsFrom_parent (mem_endsFrom_self r) hparent
        obtain ⟨o, ho, howhole, haccepts⟩ := exists_outer hend hrest hw hne
        exact .inl ⟨o, ho, howhole rfl, haccepts⟩
      · have ho := mem_outer.mpr ⟨_, mem_endsFrom_self r, _, hsite, l, hl, rfl⟩
        exact .inl ⟨_, ho, hwhole, stack,
          (Reach.valid_of_mem_leaves hproper.mem hl).chain hrest, hw⟩
    · have hend := hproper.operand.resolve_left (Nat.ne_of_gt hlevel)
      obtain ⟨hoperators, hrestp⟩ := rest_of_isOperandEnd hproper.mem hend
      have howner : Item.owner p = r := eq_of_hasOperators hoperators hr
      rw [howner] at hrest hrestp
      -- Tails after the operand may as well be tails of the expression inside.
      have hmono : ∀ l : Leaf, w ∈ l.language * rests stack → w ∈ l.language * rests (p :: stack) := by
        rintro l hw
        obtain ⟨u, hu, v, hv, rfl⟩ := Language.mem_mul.mp hw
        rw [rests_cons, hrestp]
        exact Language.append_mem_mul hu
          (Language.append_mem_mul (a := []) (Language.nil_mem_kstar _) hv)
      rw [rests_cons, hrestp, ← Language.one_add_self_mul_kstar_eq_kstar, add_mul, one_mul,
        Language.mem_add] at hw
      rcases hw with hw | hw
      · refine (ih hrest hw).imp_right fun ⟨l, hl, ho, hw⟩ => ⟨l, hl, ho, hmono l hw⟩
      · obtain ⟨u, hu, v, hv, rfl⟩ := Language.mem_mul.mp hw
        obtain ⟨l, hl, hu⟩ := Reach.mem_loopLeaves.mp hu
        have hleaf : l ∈ leaves p := by
          simp only [Config.isOperandEnd, Bool.and_eq_true] at hend
          exact (Reach.mem_leaves_iff hproper.mem).mpr (.inr ⟨hend.1.1, howner.symm ▸ hl⟩)
        have hwhole : (⟨r, false⟩ : RuleEnd).wholeAt ⟨level, p⟩ = false := by
          simp [RuleEnd.wholeAt, Nat.ne_of_gt hlevel]
        refine .inr ⟨l, hl, ?_, hmono l (Language.append_mem_mul hu hv)⟩
        exact mem_outer.mpr ⟨_, mem_endsFrom_self r, _, hsite, l, hleaf, by rw [hwhole]⟩

end ResourceNames.Java
