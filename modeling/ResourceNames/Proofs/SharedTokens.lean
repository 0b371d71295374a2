import ResourceNames.Proofs.OperandEnds
import ResourceNames.Proofs.OperatorLevels

/-!
Operators that begin with the same token.

Tails that can begin with the same token have the same level, with two exceptions: `<` begins a
comparison and the shift `<<`, and `>` begins a comparison and the shifts `>>` and `>>>`. No
expression begins with `>`, and nothing but a tail that begins with it follows an expression. So two
of them are a shift, and the operand of a comparison does not end before them.
-/
namespace ResourceNames.Java

open Computability Layout

-- What the tables hold is known from lemmas. Comparing terms must not evaluate them.
attribute [local irreducible] Reach.point Item.ofPoint Item.owner

/-! ### First tokens -/

mutual

/-- The kinds with which the sentences of a phrase may begin, given those for the rules. -/
def Phrase.opens (look : Rule → List Kind) : Phrase → List Kind
  | .token kind _ => [kind]
  | .oneOf kinds _ => kinds
  | .call rule _ _ => look rule
  | .seq parts => opensSeq look parts
  | .choice alts => opensAny look alts
  | .opt alts => opensAny look alts
  | .star body => body.opens look
  | .plus body => body.opens look

def Phrase.opensSeq (look : Rule → List Kind) : List Phrase → List Kind
  | [] => []
  | p :: ps => p.opens look ++ if p.eats then [] else opensSeq look ps

def Phrase.opensAny (look : Rule → List Kind) : List Phrase → List Kind
  | [] => []
  | p :: ps => p.opens look ++ opensAny look ps

end

namespace Phrase

variable {look : Rule → List Kind} {k : Kind} {p : Phrase} {ps : List Phrase} {v w : List Kind}

private theorem opens_subset_opensAny (h : p ∈ ps) : p.opens look ⊆ opensAny look ps := by
  induction ps with
  | nil => cases h
  | cons q ps ih =>
    rcases List.mem_cons.mp h with rfl | h
    · exact List.subset_append_left _ _
    · exact List.Subset.trans (ih h) (List.subset_append_right _ _)

/-- A sentence begins with one of the kinds, if this is so for the alternatives of each rule. -/
theorem Spells.mem_opens (hlook : ∀ r, ∀ p ∈ Accessor.alternatives r, k ∈ p.opens look → k ∈ look r)
    (h : p.Spells w) (hw : w = k :: v) : k ∈ p.opens look := by
  induction h generalizing v with
  | token => exact List.mem_singleton.mpr (List.cons.inj hw).1.symm
  | oneOf mem => exact (List.cons.inj hw).1 ▸ mem
  | call mem _ ih => exact hlook _ _ mem (ih hw)
  | nil | skip | done => cases hw
  | @cons p ps u _ first _ ih ih' =>
    cases u with
    | nil =>
      have heats : p.eats = false := Bool.eq_false_iff.mpr fun h => first.ne_nil h rfl
      refine List.mem_append_right _ ?_
      rw [heats]
      exact ih' hw
    | cons j u => exact List.mem_append_left _ (ih (by rw [(List.cons.inj hw).1]))
  | choice mem _ ih | opt mem _ ih => exact opens_subset_opensAny mem (ih hw)
  | @more body u _ _ _ ih ih' =>
    cases u with
    | nil => exact ih' hw
    | cons j u => exact ih (by rw [(List.cons.inj hw).1])
  | @plus body u _ _ _ ih ih' =>
    cases u with
    | nil => exact ih' hw
    | cons j u => exact ih (by rw [(List.cons.inj hw).1])

end Phrase

private theorem Rule.gt_not_mem_opens : ∀ r ∈ Rule.all, ∀ p ∈ Accessor.alternatives r,
    .gt ∉ p.opens fun _ => [] := by
  decide +kernel

/-- No rule has a sentence that begins with `>`. -/
theorem Rule.not_begins_gt (r : Rule) : ¬ Begins .gt r.language := by
  rintro ⟨v, p, hp, hw⟩
  have hlook : ∀ q, ∀ p ∈ Accessor.alternatives q, Kind.gt ∈ p.opens (fun _ => []) → Kind.gt ∈ [] :=
    fun q p hp h => absurd h (gt_not_mem_opens q (mem_all q) p hp)
  cases hlook r p hp (hw.mem_opens hlook rfl)

/-! ### Tails that begin alike -/

private theorem opens_tail (look : Rule → List Kind) :
    ∀ t ∈ Grammar.tails, t.2.opens look = t.2.opens fun _ => [] := by
  simp only [Grammar.tails, List.forall_mem_cons]
  exact ⟨rfl, rfl, rfl, rfl, rfl, rfl, rfl, rfl, rfl, rfl, rfl, rfl, rfl, rfl, rfl, rfl, rfl, nofun⟩

private theorem level_of_opens : ∀ t ∈ Grammar.tails, ∀ u ∈ Grammar.tails,
    ∀ k ∈ t.2.opens fun _ => [], k ∈ u.2.opens (fun _ => []) →
      t.1 = u.1 ∨ (t.1 = 14 ∨ t.1 = 15) ∧ (u.1 = 14 ∨ u.1 = 15) := by
  decide +kernel

private theorem level_of_opens_gt : ∀ t ∈ Grammar.tails, .gt ∈ t.2.opens (fun _ => []) →
    t.1 = 14 ∨ t.1 = 15 := by
  decide

section Tails

variable {r : Rule} {ops : Operators} {k : Kind} {u v : Nat × Form}

private theorem mem_opens_of_begins (ho : (ruleForm r).body = .operators ops) (hu : u ∈ ops.tails)
    (hk : Begins k (rest u.2.entry)) : k ∈ u.2.phrase.opens fun _ => [] := by
  rw [(sits_tail ho hu).stands_entry.rest] at hk
  obtain ⟨⟨w, hw⟩, -⟩ := (Operators.leads ho hu).begins hk
  have hopens : k ∈ u.2.phrase.opens fun _ => [k] :=
    Phrase.Spells.mem_opens (fun _ _ _ _ => List.mem_singleton_self k) hw rfl
  rwa [opens_tail _ _ (Operators.mem_tails ho hu)] at hopens

/-- Tails that can begin with the same token have the same level, or are a comparison and a shift. -/
theorem level_of_begins (ho : (ruleForm r).body = .operators ops) (hu : u ∈ ops.tails)
    (hv : v ∈ ops.tails) (hk : Begins k (rest u.2.entry)) (hk' : Begins k (rest v.2.entry)) :
    u.1 = v.1 ∨ (u.1 = 14 ∨ u.1 = 15) ∧ (v.1 = 14 ∨ v.1 = 15) :=
  level_of_opens _ (Operators.mem_tails ho hu) _ (Operators.mem_tails ho hv) k
    (mem_opens_of_begins ho hu hk) (mem_opens_of_begins ho hv hk')

private theorem level_of_begins_gt (ho : (ruleForm r).body = .operators ops) (hu : u ∈ ops.tails)
    (hk : Begins .gt (rest u.2.entry)) : u.1 = 14 ∨ u.1 = 15 :=
  level_of_opens_gt _ (Operators.mem_tails ho hu) (mem_opens_of_begins ho hu hk)

private theorem compared_of_level : ∀ t ∈ Grammar.tails, t.1 = 14 →
    t.2 = .seq [.oneOf [.gt, .lt, .le, .ge] (some .bop), Grammar.operand 15] := by
  simp only [Grammar.tails, List.forall_mem_cons]
  refine ⟨nofun, nofun, nofun, fun _ => rfl, ?_⟩
  simp [Grammar.binary]

/-- After `>` a comparison goes on with an expression, and so not with `>`. -/
private theorem level_of_angles {σ : List Point} {w : List Kind}
    (ho : (ruleForm r).body = .operators ops) (hu : u ∈ ops.tails)
    (hw : .gt :: w ∈ rests (u.2.entry :: σ)) (hangle : ∀ j v, w = j :: v → j = .gt) : u.1 = 15 := by
  refine (level_of_begins_gt ho hu (Decision.begins_entry ho hu hw)).resolve_left fun hlevel => ?_
  have hphrase : u.2.phrase = _ := compared_of_level _ (Operators.mem_tails ho hu) hlevel
  rw [rests_cons, (sits_tail ho hu).stands_entry.rest, mul_assoc] at hw
  obtain ⟨x, hx, y, -, hxy⟩ := Language.mem_mul.mp hw
  change u.2.phrase.Spells x at hx
  rw [hphrase] at hx
  cases hx with
  | cons first rest =>
    cases first with
    | oneOf mem =>
      cases rest with
      | @cons _ _ e _ operand last =>
        cases operand with
        | call mem' word =>
          have he : e ∈ Rule.expression.language := ⟨_, mem', word⟩
          cases e with
          | nil => exact Rule.nil_not_mem_language (by decide) he
          | cons j e =>
            obtain rfl : j = .gt := hangle j _ (List.cons.inj hxy).2.symm
            exact Rule.expression.not_begins_gt ⟨e, he⟩

end Tails

/-! ### Where an angle bracket is read -/

private def anglesOf (r : Rule) : List Point :=
  (Item.ofRule (ruleForm r)).filterMap fun i =>
    match i.2 with
    | .token kinds _ => if kinds.contains .gt then some i.1 else none
    | _ => none

private def angles : List Point := Rule.all.flatMap anglesOf

private theorem exists_ruleAt (p : Point) : ∃ r, ruleForm r = ruleAt p := by
  refine exists_rule_of_mem ?_
  have hne : rules.toList.takeWhile (fun r => r.stop ≤ p) ≠ [] := by
    have hrules : rules.toList = placeRules Rule.all 0 := rfl
    rw [hrules, Rule.all, placeRules, List.takeWhile_cons_of_pos (by simp)]
    exact List.cons_ne_nil _ _
  rw [ruleAt, List.getLast?_eq_getLast_of_ne_nil hne, Option.getD_some]
  exact (List.takeWhile_sublist _).subset (List.getLast_mem hne)

/-- A token that stands at a point is one of a rule. -/
private theorem exists_mem_ofRule {p next : Point} {kinds : List Kind}
    (h : Item.ofPoint p = .token kinds next) :
    ∃ r, (p, Item.token kinds next) ∈ Item.ofRule (ruleForm r) := by
  obtain ⟨r, hr⟩ := exists_ruleAt p
  unfold Item.ofPoint Item.table Reach.tabulate at h
  simp only [List.getElem?_toArray, List.getElem?_map] at h
  by_cases hlt : p < Layout.size
  · rw [List.getElem?_range hlt, Option.map_some, Option.getD_some, ← hr] at h
    cases hlookup : (Item.ofRule (ruleForm r)).lookup p with
    | none =>
      rw [hlookup] at h
      cases h
    | some i =>
      rw [hlookup, Option.getD_some] at h
      obtain ⟨u, v, huv, -⟩ := List.lookup_eq_some_iff.mp hlookup
      exact ⟨r, by simp [huv, h]⟩
  · rw [List.getElem?_eq_none (by simpa using hlt)] at h
    cases h

private theorem contains_angles (p : Point) : (Follow.kindsAt p).contains .gt = angles.contains p := by
  rw [Bool.eq_iff_iff, List.contains_iff_mem, List.contains_iff_mem]
  simp only [angles, anglesOf, List.mem_flatMap, List.mem_filterMap]
  constructor
  · intro hk
    obtain ⟨kinds, next, hitem⟩ : ∃ kinds next, Item.ofPoint p = .token kinds next := by
      unfold Follow.kindsAt at hk
      generalize Item.ofPoint p = i at hk
      cases i with
      | token kinds next => exact ⟨kinds, next, rfl⟩
      | silent | call => cases hk
    obtain ⟨r, hr⟩ := exists_mem_ofRule hitem
    rw [Follow.kindsAt_of_token hitem] at hk
    exact ⟨r, mem_all r, _, hr, by simp [hk]⟩
  · rintro ⟨r, -, ⟨q, i⟩, hi, hsome⟩
    cases i with
    | token kinds next =>
      dsimp only at hsome
      split at hsome
      · rename_i hk
        obtain rfl := Option.some.inj hsome
        rw [Follow.kindsAt_of_token (Item.ofPoint_of_mem hi)]
        exact List.contains_iff_mem.mp hk
      · cases hsome
    | silent | call => cases hsome

namespace Follow

/-- What holds of the end of a rule and passes on to the ends met at once holds of all ends met. -/
theorem forall_mem_endsFrom {P : RuleEnd → Prop} {r : Rule} (hself : P ⟨r, false⟩)
    (hparents : ∀ e, P e → ∀ d ∈ e.parents, P d) : ∀ e ∈ endsFrom r, P e := by
  have hascend : ∀ steps met todo, (∀ e ∈ met, P e) → (∀ e ∈ todo, P e) →
      ∀ e ∈ ascend steps met todo, P e := by
    intro steps
    induction steps with
    | zero => exact fun met todo hmet _ => hmet
    | succ steps ih =>
      intro met todo hmet htodo
      cases todo with
      | nil => exact hmet
      | cons e todo =>
        rw [List.forall_mem_cons] at htodo
        rw [ascend]
        split
        · exact ih _ _ hmet htodo.2
        · refine ih _ _ (List.forall_mem_cons.mpr ⟨htodo.1, hmet⟩) ?_
          exact List.forall_mem_append.mpr ⟨hparents e htodo.1, htodo.2⟩
  exact hascend _ _ _ (by simp) (List.forall_mem_singleton.mpr hself)

private def closingRules : List Rule := [.expression, .lambdaExpression, .lambdaBody,
  .expressionList, .forControl, .enhancedForControl, .resources, .resource, .annotationMethodRest,
  .defaultValue, .elementValuePairs, .elementValuePair, .elementValue, .forInit,
  .localVariableDeclaration, .annotationMethodOrConstantRest, .annotationConstantRest,
  .variableDeclarators, .variableDeclarator, .constantDeclarator, .variableInitializer]

/-- Whether no `>` of a rule comes after a call of one of these rules, and the rule is one of them if
it may end there. -/
private def closes (r : Rule) : Bool :=
  (Item.ofRule (ruleForm r)).all fun i =>
    match i.2 with
    | .call rule _ next => !closingRules.contains rule || (Reach.pointsOf (ruleForm r)).all fun e =>
        e.1 != next || ((!e.2.exits || closingRules.contains r) &&
          e.2.leaves.all fun l => !angles.contains l.point)
    | _ => true

private theorem closes_of_mem_all : ∀ r ∈ Rule.all, closes r = true := by decide +kernel

private theorem closes_of_mem_sites {rule : Rule} {site : CallSite} (hr : rule ∈ closingRules)
    (h : site ∈ sites rule) :
    ((Reach.point site.next).exits = true → Item.owner site.next ∈ closingRules) ∧
      ∀ l ∈ (Reach.point site.next).leaves, l.point ∉ angles := by
  obtain ⟨hmem, i, hi, hcall⟩ := mem_points_of_mem_sites h
  have hcloses := List.all_eq_true.mp (closes_of_mem_all _ (mem_all (Item.owner site.next))) i hi
  rw [← Reach.map_fst_pointsOf] at hmem
  obtain ⟨⟨q, reach⟩, hq, hnext⟩ := List.mem_map.mp hmem
  obtain rfl : q = site.next := hnext
  simp only [hcall, List.contains_iff_mem.mpr hr, Bool.not_true, Bool.false_or,
    List.all_eq_true] at hcloses
  have hpoint := hcloses _ hq
  simp only [bne_self_eq_false, Bool.false_or, Bool.and_eq_true, Bool.or_eq_true,
    Bool.not_eq_true', List.contains_iff_mem, List.all_eq_true] at hpoint
  rw [Reach.point_of_mem hq]
  refine ⟨fun hexits => hpoint.1.resolve_left (by simp [hexits]), fun l hl hangle => ?_⟩
  have hfalse := hpoint.2 l hl
  rw [List.contains_iff_mem.mpr hangle] at hfalse
  cases hfalse

/-- Nothing but a tail follows an expression with `>`. -/
private theorem mem_loopLeaves_of_mem_outer {o : OuterLeaf} (h : o ∈ outer .expression)
    (hangle : o.leaf.point ∈ angles) : o.leaf ∈ Reach.loopLeaves .expression := by
  obtain ⟨e, he, site, hsite, l, hl, rfl⟩ := mem_outer.mp h
  have hr : e.rule ∈ closingRules := by
    refine forall_mem_endsFrom (P := fun e => e.rule ∈ closingRules) (by decide) ?_ e he
    intro e he d hd
    obtain ⟨site, hsite, hsome⟩ := List.mem_filterMap.mp hd
    split at hsome
    · rename_i hexits
      obtain rfl := Option.some.inj hsome
      exact (closes_of_mem_sites he hsite).1 hexits
    · cases hsome
  have hmem := (proper_of_mem_sites hsite).mem
  rcases (Reach.mem_leaves_iff hmem).mp hl with hl | ⟨hloops, hl⟩
  · exact absurd hangle ((closes_of_mem_sites hr hsite).2 l hl)
  · have hoperators := (Reach.describes_point hmem).loops hloops
    rwa [eq_of_hasOperators hoperators (q := .expression) (by decide)] at hl

/-- Whether a rule calls another one for a whole expression or without one, and what is met after it. -/
private def returns (rule r : Rule) (met : Reach → Bool) : Bool :=
  (Item.ofRule (ruleForm r)).any fun i =>
    match i.2 with
    | .call callee level next => callee == rule && level == 0 &&
        (Reach.pointsOf (ruleForm r)).any fun e => e.1 == next && met e.2
    | _ => false

private theorem exists_site {rule r : Rule} {met : Reach → Bool} (h : returns rule r met = true) :
    ∃ site ∈ sites rule, site.level = 0 ∧ Item.owner site.next = r ∧
      met (Reach.point site.next) = true := by
  obtain ⟨⟨here, i⟩, hi, hcall⟩ := List.any_eq_true.mp h
  cases i with
  | call callee level next =>
    simp only [Bool.and_eq_true, beq_iff_eq, List.any_eq_true] at hcall
    obtain ⟨⟨rfl, rfl⟩, ⟨q, reach⟩, hq, rfl, hmet⟩ := hcall
    refine ⟨⟨0, q⟩, mem_sites_iff.mpr ⟨r, _, hi, rfl⟩, rfl, ?_, ?_⟩
    · exact Item.owner_of_mem (Reach.map_fst_pointsOf (ruleForm r) ▸ List.mem_map_of_mem hq)
    · rwa [Reach.point_of_mem hq]
  | silent | token => cases hcall

private theorem mem_parents {e : RuleEnd} {r : Rule} (h : returns e.rule r Reach.exits = true) :
    ⟨r, e.whole || hasOperators e.rule⟩ ∈ e.parents := by
  obtain ⟨site, hsite, hlevel, rfl, hexits⟩ := exists_site h
  exact List.mem_filterMap.mpr ⟨site, hsite, by simp [hexits, RuleEnd.wholeAt, hlevel]⟩

/-- Every tail may follow a whole expression: the body of a function at the front of another one. -/
private theorem mem_outer_whole {l : Leaf} (hl : l ∈ Reach.loopLeaves .expression) :
    ⟨l, true⟩ ∈ outer .expression := by
  have hbody : ⟨.lambdaBody, true⟩ ∈ endsFrom .expression :=
    mem_endsFrom_parent (mem_endsFrom_self .expression) (mem_parents (by decide +kernel))
  have hfunction : ⟨.lambdaExpression, true⟩ ∈ endsFrom .expression :=
    mem_endsFrom_parent hbody (mem_parents (by decide +kernel))
  have hreturns : returns .lambdaExpression .expression Reach.loops = true := by decide +kernel
  obtain ⟨site, hsite, -, howner, hloops⟩ := exists_site hreturns
  refine mem_outer.mpr ⟨_, hfunction, site, hsite, l, ?_, by simp [RuleEnd.wholeAt]⟩
  rw [Reach.mem_leaves_iff (proper_of_mem_sites hsite).mem, howner]
  exact .inr ⟨hloops, hl⟩

end Follow

/-! ### Without knowledge of the callers -/

namespace Config

variable {anyCaller : Bool} {c d : Config} {cs ds : List Config}

private theorem Precedes.asymm (h : Precedes c d) : ¬ Precedes d c := by
  rintro (h' | h') <;> rcases h with h | h
  · exact Nat.lt_asymm h h'
  · exact Nat.lt_irrefl _ (h.1 ▸ h')
  · exact Nat.lt_irrefl _ (h'.1 ▸ h)
  · exact Nat.lt_asymm h.2 h'.2

/-- There is one configuration for each point and alternative. -/
private theorem eq_of_mem_gather (hc : c ∈ gather anyCaller cs) (hd : d ∈ gather anyCaller cs)
    (hpoint : c.point = d.point) (halt : c.alt = d.alt) : c = d := by
  have hsorted := pairwise_gather anyCaller cs
  have hother : ∀ c d : Config, Precedes c d → c.point = d.point → c.alt ≠ d.alt := fun c d h hpoint =>
    Nat.ne_of_lt (h.resolve_left fun hlt => Nat.ne_of_lt hlt hpoint).2
  refine List.Pairwise.forall_of_forall_of_flip (R := fun c d => c.point = d.point → c.alt = d.alt → c = d)
    (fun _ _ _ _ => rfl) ?_ ?_ hc hd hpoint halt
  · exact hsorted.imp fun h hpoint halt => absurd halt (hother _ _ h hpoint)
  · exact hsorted.imp fun h hpoint halt => absurd halt.symm (hother _ _ h hpoint.symm)

/-- What is put together is determined by what is in it. -/
private theorem gather_ext (h : ∀ c, c ∈ gather anyCaller cs ↔ c ∈ gather anyCaller ds) :
    gather anyCaller cs = gather anyCaller ds := by
  have hnodup : ∀ es, (gather anyCaller es).Nodup := fun es =>
    (pairwise_gather anyCaller es).imp fun hcd heq => (heq ▸ hcd).asymm (heq ▸ hcd)
  refine ((List.perm_ext_iff_of_nodup (hnodup cs) (hnodup ds)).mpr h).eq_of_pairwise ?_
    (pairwise_gather anyCaller cs) (pairwise_gather anyCaller ds)
  exact fun c d _ _ hcd hdc => absurd hdc hcd.asymm

/-- After a whole expression, at a point where nothing is known about the callers. -/
private def afterWhole (l : Leaf) : Config := ⟨l.point, 2, .bottom, true, true⟩

/-- Where each point is met after a whole expression, it does not matter how else it is met. -/
private theorem mem_gather_afterWhole (ls : List Leaf)
    (hcs : ∀ c ∈ cs, ∃ l ∈ ls, ∃ w, c = { afterWhole l with whole := w })
    (hls : ∀ l ∈ ls, afterWhole l ∈ cs) : c ∈ gather true cs ↔ ∃ l ∈ ls, c = afterWhole l := by
  have hform : ∀ c ∈ gather true cs, ∃ l ∈ ls, ∃ w, c = { afterWhole l with whole := w } := by
    refine forall_mem_gather ?_ hcs
    rintro _ _ - ⟨l, hl, w, rfl⟩ ⟨m, -, w', rfl⟩
    exact ⟨l, hl, w || w', by simp [Config.merge, afterWhole, Callers.union]⟩
  have hwhole : ∀ l ∈ ls, afterWhole l ∈ gather true cs := by
    intro l hl
    obtain ⟨d, hd, hcovers⟩ : ∃ d ∈ gather true cs, Covers true d (afterWhole l) :=
      exists_mem_gather (hls l hl)
    obtain ⟨m, -, w, rfl⟩ := hform d hd
    have hpoint : m.point = l.point := hcovers.point
    have hw : w = true := hcovers.whole rfl
    rwa [afterWhole, hpoint, hw] at hd
  constructor
  · intro hc
    obtain ⟨l, hl, w, hw⟩ := hform c hc
    exact ⟨l, hl, eq_of_mem_gather hc (hwhole l hl) (by rw [hw]) (by rw [hw])⟩
  · rintro ⟨l, hl, rfl⟩
    exact hwhole l hl

end Config

namespace Decision

open Config

variable {ops : Operators} {p : Nat}

private def tailForms : List (Nat × Form) :=
  match (ruleForm .expression).body with
  | .operators ops => ops.tails
  | .plain _ => []

/-- The tokens `>` with which tails begin. -/
private def angleLeaves : List Leaf :=
  (Reach.loopLeaves .expression).filter fun l => angles.contains l.point

/-- The configurations before a tail of a level or the end of an expression that can read `>`. -/
private def angleStart (p : Nat) : List Config :=
  let all := gather true
    (((tailForms.filter fun u => p ≤ u.1 && (u.1 == 14 || u.1 == 15)).flatMap fun u =>
      spread true 1 false u.2.entry .bottom).filter (fun c => angles.contains c.point) ++
      angleLeaves.map afterWhole)
  all.filter (keeps all)

private theorem rets_of_mem_angleLeaves : ∀ l ∈ angleLeaves, l.rets = [] := by decide +kernel

private theorem filter_further_angle (ho : (ruleForm .expression).body = .operators ops) :
    ((ops.tails.filter fun u => p ≤ u.1).flatMap fun u => spread true 1 false u.2.entry .bottom).filter
      (fun c => angles.contains c.point) =
    ((tailForms.filter fun u => p ≤ u.1 && (u.1 == 14 || u.1 == 15)).flatMap fun u =>
      spread true 1 false u.2.entry .bottom).filter fun c => angles.contains c.point := by
  have htails : tailForms = ops.tails := by rw [tailForms, ho]
  have hfilter : (ops.tails.filter fun u => p ≤ u.1 && (u.1 == 14 || u.1 == 15)) =
      (ops.tails.filter fun u => p ≤ u.1).filter fun u => u.1 == 14 || u.1 == 15 := by
    rw [List.filter_filter]
    exact List.filter_congr fun u _ => Bool.and_comm _ _
  rw [htails, hfilter, List.filter_flatMap, List.filter_flatMap]
  refine (flatMap_filter_of_eq_nil fun u hu hlevel => ?_).symm
  refine List.filter_eq_nil_iff.mpr fun c hc hangle => hlevel ?_
  have hu := (List.mem_filter.mp hu).1
  rw [← contains_angles] at hangle
  simpa using level_of_begins_gt ho hu (begins_of_mem_spread ho hu hc hangle)

private theorem gather_beyond_angle {level : Nat} {ret : Point}
    (hsite : ⟨level, ret⟩ ∈ Follow.sites .expression) :
    gather true ((beyond true 2 false .expression .bottom).filter fun c => angles.contains c.point) =
      gather true (angleLeaves.map afterWhole) := by
  have hsites : (Follow.sites .expression).isEmpty = false :=
    List.isEmpty_eq_false_iff.mpr (List.ne_nil_of_mem hsite)
  have hleaf : ∀ l ∈ angleLeaves, Callers.ofStack l.rets = .bottom := fun l hl => by
    rw [rets_of_mem_angleLeaves l hl]
    rfl
  refine gather_ext fun c => ?_
  rw [mem_gather_afterWhole angleLeaves ?_ ?_, mem_gather_afterWhole angleLeaves ?_ ?_]
  · intro c hc
    obtain ⟨l, hl, rfl⟩ := List.mem_map.mp hc
    exact ⟨l, hl, true, rfl⟩
  · exact fun l hl => List.mem_map_of_mem hl
  · intro c hc
    obtain ⟨hc, hangle⟩ := List.mem_filter.mp hc
    simp only [beyond, hsites, Bool.not_false, Bool.and_self, if_true] at hc
    obtain ⟨o, ho, rfl⟩ := List.mem_map.mp hc
    have hl : o.leaf ∈ angleLeaves := List.mem_filter.mpr
      ⟨Follow.mem_loopLeaves_of_mem_outer ho (List.contains_iff_mem.mp hangle), hangle⟩
    exact ⟨o.leaf, hl, o.whole, by rw [hleaf _ hl]; rfl⟩
  · intro l hl
    obtain ⟨hloop, hangle⟩ := List.mem_filter.mp hl
    have hbeyond := mem_beyond_bottom (Follow.mem_outer_whole hloop) hsite 2 false
    rw [hleaf l hl] at hbeyond
    exact List.mem_filter.mpr ⟨hbeyond, hangle⟩

/-- Before `>` only the tails that begin with it matter. -/
private theorem advance_angleStart (ho : (ruleForm .expression).body = .operators ops) {level : Nat}
    {ret : Point} (hsite : ⟨level, ret⟩ ∈ Follow.sites .expression) :
    advance true (startAgain true .bottom .expression ops p) .gt = advance true (angleStart p) .gt := by
  have happend : ∀ as bs ds : List Config, gather true bs = gather true ds →
      gather true (as ++ bs) = gather true (as ++ ds) := fun as bs ds h => by
    simp only [gather, List.foldr_append] at h ⊢
    rw [h]
  rw [← advance_filter (by decide), filter_startAgain]
  simp only [contains_angles]
  rw [filter_further_angle ho, happend _ _ _ (gather_beyond_angle hsite)]
  rfl

/-- After `>` a tail and the end of an expression are left, and no further token can tell them apart if
a comparison is allowed. -/
private theorem conflict_angle :
    let once := advance true (angleStart 14) .gt
    once ≠ [] ∧ only? once = none ∧ isConflict once = true := by
  decide +kernel

/-- If only a shift is allowed, this is so after a second `>`. -/
private theorem conflict_angles :
    let once := advance true (angleStart 15) .gt
    let twice := advance true (once.filter fun c => angles.contains c.point) .gt
    (once ≠ [] ∧ only? once = none) ∧ twice ≠ [] ∧ only? twice = none ∧ isConflict twice = true := by
  decide +kernel

variable {cs : List Config} {depth : Nat} {t u : Token} {ts : List Token}

private theorem followAny_of_conflict (hne : advance true cs t.kind ≠ [])
    (honly : only? (advance true cs t.kind) = none)
    (hconflict : isConflict (advance true cs t.kind) = true) :
    ∃ as, (followAny depth cs (t :: ts)).1 = .several as := by
  rw [followAny]
  split
  · rename_i hnil
    exact absurd hnil hne
  · rw [honly, hconflict]
    exact ⟨_, rfl⟩

/-- While two alternatives are left, they cannot be told apart or are followed further. -/
private theorem followAny_cases (ts : List Token) (hne : advance true cs t.kind ≠ [])
    (honly : only? (advance true cs t.kind) = none) :
    (∃ as, (followAny depth cs (t :: ts)).1 = .several as) ∨
      followAny depth cs (t :: ts) = followAny (depth + 1) (advance true cs t.kind) ts := by
  cases hconflict : isConflict (advance true cs t.kind) with
  | true => exact .inl (followAny_of_conflict hne honly hconflict)
  | false =>
    right
    rw [followAny]
    split
    · rename_i hnil
      exact absurd hnil hne
    · rw [honly, hconflict]
      rfl

private theorem several_of_angle (ho : (ruleForm .expression).body = .operators ops) {level : Nat}
    {ret : Point} (hsite : ⟨level, ret⟩ ∈ Follow.sites .expression) (hp : p ≤ 14)
    (ht : t.kind = .gt) (ts : List Token) :
    ∃ as, (followAny 0 (startAgain true .bottom .expression ops p) (t :: ts)).1 = .several as := by
  have honce : advance true (startAgain true .bottom .expression ops p) t.kind =
      advance true (angleStart 14) .gt := by
    rw [ht, ← advance_angleStart ho hsite]
    refine advance_startAgain ho (fun u hu hk => ?_) (by decide)
    have hlevel := level_of_begins_gt ho hu hk
    omega
  obtain ⟨hne, honly, hconflict⟩ := conflict_angle
  rw [← honce] at hne honly hconflict
  exact followAny_of_conflict hne honly hconflict

private theorem several_of_angles (ho : (ruleForm .expression).body = .operators ops) {level : Nat}
    {ret : Point} (hsite : ⟨level, ret⟩ ∈ Follow.sites .expression) (ht : t.kind = .gt)
    (hu : u.kind = .gt) (ts : List Token) :
    ∃ as, (followAny 0 (startAgain true .bottom .expression ops 15) (t :: u :: ts)).1 = .several as := by
  obtain ⟨⟨hne, honly⟩, hne', honly', hconflict⟩ := conflict_angles
  simp only [← contains_angles] at hne' honly' hconflict
  rw [advance_filter (by decide)] at hne' honly' hconflict
  rw [← advance_angleStart ho hsite] at hne honly hne' honly' hconflict
  rw [← ht] at hne honly
  rcases followAny_cases (u :: ts) hne honly with hseveral | hfollow
  · exact hseveral
  · rw [hfollow, ht]
    exact followAny_of_conflict (by rwa [hu]) (by rwa [hu]) (by rwa [hu])

/-! ### Operands of comparisons and shifts -/

variable {out r : Rule} {σ : List Point} {ret : Point} {a b : Nat} {x : Nat × Form}

/-- Before two `>` an operand whose tails have at least the level of a shift goes on whenever the
expression around it does, if that may be a comparison. -/
private theorem again_operand_shift (ho : (ruleForm .expression).body = .operators ops)
    (hl : Leads .expression (ret :: σ) out) (hend : isOperandEnd ret = true) (hx : x ∈ ops.tails)
    (hlevel : x.1 = 15) (hk : Begins .gt (rest x.2.entry)) (hp : p ≤ 14) (ht : t.kind = .gt)
    (hu : u.kind = .gt)
    (houter : ((again .expression ops p).decide σ (t :: u :: ts)).choice = .ok 1)
    (hinner : ((again .expression ops 15).decide (ret :: σ) (t :: u :: ts)).choice = .ok a) : a = 1 := by
  obtain ⟨⟨_, hsite⟩, -⟩ := id hl
  have hσ := (rests_operandEnd ho hl hend).1
  rw [decide_again] at houter hinner
  obtain ⟨_, hseveral⟩ := several_of_angle ho hsite hp ht (u :: ts)
  have houter := (houter.resolve_left (by rw [hseveral]; simp [Outcome.choice?])).2
  obtain ⟨_, hseveral'⟩ := several_of_angles ho hsite ht hu ts
  have hinner := (hinner.resolve_left (by rw [hseveral']; simp [Outcome.choice?])).2
  have hout := alt_of_takes (runs_startAgain (p := p) ho hσ)
  have hin := alt_of_takes (runs_startAgain (p := 15) ho hl)
  -- What begins with two of them, or is one alone, begins with no comparison.
  have hshadows : ∀ w, (∀ j v, w = j :: v → j = .gt) →
      Shadows (Takes (startAgain false (.ofStack σ) .expression ops p))
        (Takes (startAgain false (.ofStack (ret :: σ)) .expression ops 15)) (.gt :: w) := by
    refine fun w hw => shadows_operandEnd ho hl hend fun v hv hmem => ?_
    have := level_of_angles ho hv hmem hw
    omega
  have hnil := shadows_operandEnd (p := p) (b := 15) ho hl hend fun v hv hmem =>
    absurd hmem (nil_not_mem_entry ho hv)
  have honce := hnil.next_nil (hshadows [] (by simp)) hout hin
  have halive : ∃ w, next (Takes (startAgain false (.ofStack (ret :: σ)) .expression ops 15)) .gt 1 w := by
    obtain ⟨v, hv⟩ := hk
    obtain ⟨w, hw⟩ := hl.exists_mem_rests
    have htakes : Takes (startAgain false (.ofStack (ret :: σ)) .expression ops 15) 1
        (.gt :: (v ++ w)) := by
      refine (takes_startAgain ho hl).mpr (.inl ⟨rfl, x, hx, hlevel.ge, ?_⟩)
      rw [rests_cons x.2.entry]
      exact Language.append_mem_mul (a := .gt :: v) hv hw
    refine ⟨v ++ w, ?_⟩
    generalize v ++ w = w at htakes
    cases w with
    | nil => exact .inl htakes
    | cons j w => exact ⟨by decide, htakes⟩
  obtain ⟨w, hw⟩ := halive
  refine first_of_shadows_second (runs_startAgain ho hσ) (runs_startAgain ho hl) (ht ▸ hw) (fun w => ?_)
    houter hinner
  rw [ht, hu]
  refine honce.next (fun v => (hshadows (.gt :: v) ?_).next_cons) ?_ ?_ w
  · rintro j v ⟨⟩
    rfl
  · exact fun b v => next_alt hout
  · exact fun b v => next_alt hin

/-- Where an operand has ended and the expression around it goes on, the tail is too low for the
operand; or it is a shift after the operand of a comparison, and not one of `>`. -/
theorem level_lt_of_again (ho : (ruleForm r).body = .operators ops) (hl : Leads r (ret :: σ) out)
    (hend : isOperandEnd ret = true) (hx : x ∈ ops.tails) (hk : Begins t.kind (rest x.2.entry))
    (hp : p ≤ x.1) (hpb : b ≤ 15 → p ≤ 14)
    (houter : ((again r ops p).decide σ (t :: ts)).choice = .ok 1)
    (hinner : ((again r ops b).decide (ret :: σ) (t :: ts)).choice = .ok a) (ha : a ≠ 1) :
    x.1 < b ∨ x.1 = 15 ∧ b = 15 ∧ ∀ u us, ts = u :: us → ¬ (t.kind = .gt ∧ u.kind = .gt) := by
  by_contra hnot
  obtain ⟨hb, hshift⟩ := not_or.mp hnot
  rw [not_lt] at hb
  have hne : t.kind ≠ .eof := by
    rw [(sits_tail ho hx).stands_entry.rest] at hk
    exact ((Operators.leads ho hx).begins hk).2
  by_cases hboth : x.1 = 15 ∧ b = 15
  · obtain ⟨hlevel, rfl⟩ := hboth
    simp only [hlevel, true_and, not_forall, not_not] at hshift
    obtain ⟨u, us, rfl, ht, hu⟩ := hshift
    obtain rfl := Rule.eq_expression ho
    exact ha (again_operand_shift ho hl hend hx hlevel (ht ▸ hk) (hpb le_rfl) ht hu houter hinner)
  · refine ha (again_operand ho hl hend (fun v hv hv' => ?_) hne houter hinner)
    have := level_of_begins ho hx hv hk hv'
    omega

end Decision

end ResourceNames.Java
