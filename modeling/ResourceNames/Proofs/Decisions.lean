import ResourceNames.Proofs.Predictions

/-!
The three sorts of decisions, made before tokens that can be read.

Between alternatives one is chosen from which the tokens ahead lead to the end of a whole unit, and
between tails one whose level is high enough. Whether another tail follows is decided so that the
tokens can be read on: a tail that is too low for an operand is left to the expression around it.
-/
namespace ResourceNames.Java

open Computability Layout

-- What the tables hold is known from lemmas. Comparing terms must not evaluate them.
attribute [local irreducible] Reach.point Item.ofPoint Item.owner

namespace Config

variable {good : Nat → Prop} {r : Rule} {p : Point} {stack : List Point} {w : List Kind}

/-- An alternative that begins at a point of a rule, under a call stack of the rule. -/
private theorem fair_of_mem_spread (hp : p ∈ (ruleForm r).points)
    (hinside : p ≠ stop .compilationUnit) (hc : Chain r stack) {alt : Nat}
    (hgood : w ∈ rests (p :: stack) → good alt) {c : Config}
    (hmem : c ∈ spread false alt false p (.ofStack stack)) : c.Fair good w ∧ c.Ready := by
  have hfair : Fair good w ⟨p, alt, .ofStack stack, false, false⟩ := by
    have howner := Item.owner_of_mem hp
    refine ⟨howner.symm ▸ hp, howner.symm ▸ Callers.under_ofStack hc, ?_, fun _ => hinside⟩
    rintro ⟨σ, hσ, below, hbelow, -, hw⟩
    obtain rfl := Callers.mem_toList_ofStack.mp hσ
    rw [hbelow rfl, List.append_nil] at hw
    exact hgood hw
  exact hfair.spread hmem

private theorem exists_mem_spread_bottom (alt : Nat) (hp : p ∈ (ruleForm r).points)
    (hc : Chain r stack) (hw : w ∈ rests (p :: stack)) :
    ∃ c ∈ spread true alt false p .bottom, c.Ready ∧ c.Accepts true w :=
  exists_mem_spread alt false hp (σ := []) (Callers.mem_toList_bottom.mpr rfl) nofun hc hw

private theorem exists_mem_spread_ofStack (alt : Nat) (hp : p ∈ (ruleForm r).points)
    (hc : Chain r stack) (hw : w ∈ rests (p :: stack)) :
    ∃ c ∈ spread false alt false p (.ofStack stack), c.Ready ∧ c.Accepts false w := by
  rw [← List.append_nil stack] at hc hw
  exact exists_mem_spread alt false hp (Callers.mem_toList_ofStack.mpr rfl) (fun _ => rfl) hc hw

private theorem exists_mem_gather_of {anyCaller : Bool} {cs : List Config} {c : Config} (hc : c ∈ cs)
    (hready : c.Ready) (ha : c.Accepts anyCaller w) :
    ∃ d ∈ gather anyCaller cs, d.alt = c.alt ∧ d.Ready ∧ d.Accepts anyCaller w := by
  obtain ⟨d, hd, hcovers⟩ : ∃ d ∈ gather anyCaller cs, Covers anyCaller d c := exists_mem_gather hc
  exact ⟨d, hd, hcovers.alt, hcovers.ready hready, hcovers.accepts ha⟩

private theorem fair_of_mem_gather {cs : List Config} (h : ∀ c ∈ cs, c.Fair good w ∧ c.Ready) :
    ∀ c ∈ gather false cs, c.Fair good w ∧ c.Ready :=
  forall_mem_gather (fun _ _ hs hc hd => ⟨hc.1.merge hs hd.1, hc.2⟩) h

end Config

namespace Decision

open Config

variable {r : Rule} {stack : List Point} {ts : List Token}

/-- Between alternatives that begin at points of a rule one is chosen from which the tokens ahead can
be read. -/
theorem decide_among_complete {points : List Point} (hts : Ended ts) (hc : Chain r stack)
    (hpoints : ∀ p ∈ points, p ∈ (ruleForm r).points ∧ p ≠ stop .compilationUnit)
    (hw : ∃ p ∈ points, ts.map Token.kind ∈ rests (p :: stack)) :
    ∃ i p, ((among points).decide stack ts).choice = .ok (i + 1) ∧ points[i]? = some p ∧
      ts.map Token.kind ∈ rests (p :: stack) := by
  obtain ⟨p, hp, hw⟩ := hw
  obtain ⟨i, hi⟩ := List.getElem?_of_mem hp
  suffices h : ∃ a, ((among points).decide stack ts).choice = .ok a ∧ ∃ i p, a = i + 1 ∧
      points[i]? = some p ∧ ts.map Token.kind ∈ rests (p :: stack) by
    obtain ⟨_, hchoice, i, p, rfl, hi, hw⟩ := h
    exact ⟨i, p, hchoice, hi, hw⟩
  refine decide_good hts (fun _ _ => rfl) ?_ ?_ ?_
  · obtain ⟨c, hmem, hready, ha⟩ := exists_mem_spread_bottom (1 + i) (hpoints p hp).1 hc hw
    obtain ⟨d, hd, halt, h⟩ :=
      exists_mem_gather_of (mem_startAmong.mpr ⟨i, p, hi, hmem⟩) hready ha
    refine ⟨d, hd, h.1, h.2, i, p, ?_, hi, hw⟩
    rw [halt, alt_of_mem_spread hmem, Nat.add_comm]
  · obtain ⟨c, hmem, hready, ha⟩ := exists_mem_spread_ofStack (1 + i) (hpoints p hp).1 hc hw
    obtain ⟨d, hd, -, -, ha⟩ :=
      exists_mem_gather_of (mem_startAmong.mpr ⟨i, p, hi, hmem⟩) hready ha
    exact ⟨d, hd, ha⟩
  · refine fair_of_mem_gather fun c hmem => ?_
    obtain ⟨j, q, hj, hmem⟩ := mem_startAmong.mp hmem
    obtain ⟨hq, hinside⟩ := hpoints q (List.mem_of_getElem? hj)
    refine fair_of_mem_spread hq hinside hc (fun hw => ?_) hmem
    exact ⟨j, q, Nat.add_comm 1 j, hj, hw⟩

/-! ### Tails -/

variable {ops : Operators} {level : Nat}

/-- The tokens ahead can be read on with a tail of at least a level. -/
def TailFollows (ops : Operators) (level : Nat) (stack : List Point) (w : List Kind) : Prop :=
  ∃ t ∈ ops.tails, level ≤ t.1 ∧ w ∈ rests (t.2.entry :: stack)

private theorem ne_compilationUnit (ho : (ruleForm r).body = .operators ops) :
    r ≠ .compilationUnit := by
  rintro rfl
  have hwraps := Rule.wraps_operators ho
  revert hwraps
  decide

theorem ne_stop {p : Point} (ho : (ruleForm r).body = .operators ops)
    (hp : p ∈ (ruleForm r).points) : p ≠ stop .compilationUnit := by
  rintro rfl
  have howner := Item.owner_of_mem hp
  rw [(stands_stop .compilationUnit).owner] at howner
  exact ne_compilationUnit ho howner.symm

theorem stands_entry (ho : (ruleForm r).body = .operators ops) {t : Nat × Form}
    (ht : t ∈ ops.tails) :
    t.2.entry ∈ (ruleForm r).points ∧ t.2.entry ≠ stop .compilationUnit := by
  have hs := (sits_tail ho ht).stands_entry
  exact ⟨hs.mem, ne_stop ho hs.mem⟩

/-- Between tails one is chosen that can be read and is not too low. -/
theorem decide_tail_complete (hts : Ended ts) (hc : Chain r stack)
    (ho : (ruleForm r).body = .operators ops)
    (hw : TailFollows ops level stack (ts.map Token.kind)) :
    ∃ i t, ((tail ops level).decide stack ts).choice = .ok (i + 1) ∧ ops.tails[i]? = some t ∧
      level ≤ t.1 ∧ ts.map Token.kind ∈ rests (t.2.entry :: stack) := by
  obtain ⟨t, ht, hlevel, hw⟩ := hw
  obtain ⟨i, hi⟩ := List.getElem?_of_mem ht
  suffices h : ∃ a, ((tail ops level).decide stack ts).choice = .ok a ∧ ∃ i t, a = i + 1 ∧
      ops.tails[i]? = some t ∧ level ≤ t.1 ∧ ts.map Token.kind ∈ rests (t.2.entry :: stack) by
    obtain ⟨_, hchoice, i, t, rfl, h⟩ := h
    exact ⟨i, t, hchoice, h⟩
  have hentry := stands_entry ho ht
  refine decide_good hts ?_ ?_ ?_ ?_
  · rintro _ ⟨j, u, rfl, hj, hu, -⟩
    simp [permits, hj, hu]
  · obtain ⟨c, hmem, hready, ha⟩ := exists_mem_spread_bottom (1 + i) hentry.1 hc hw
    obtain ⟨d, hd, halt, h⟩ :=
      exists_mem_gather_of (mem_startTails.mpr ⟨i, t, hi, .inl rfl, hmem⟩) hready ha
    refine ⟨d, hd, h.1, h.2, i, t, ?_, hi, hlevel, hw⟩
    rw [halt, alt_of_mem_spread hmem, Nat.add_comm]
  · obtain ⟨c, hmem, hready, ha⟩ := exists_mem_spread_ofStack (1 + i) hentry.1 hc hw
    obtain ⟨d, hd, -, -, ha⟩ :=
      exists_mem_gather_of (mem_startTails.mpr ⟨i, t, hi, .inr hlevel, hmem⟩) hready ha
    exact ⟨d, hd, ha⟩
  · refine fair_of_mem_gather fun c hmem => ?_
    obtain ⟨j, u, hj, hu, hmem⟩ := mem_startTails.mp hmem
    obtain ⟨hq, hinside⟩ := stands_entry ho (List.mem_of_getElem? hj)
    refine fair_of_mem_spread hq hinside hc (fun hw => ?_) hmem
    exact ⟨j, u, Nat.add_comm 1 j, hj, hu.resolve_left nofun, hw⟩

/-- An expression of a level above the lowest one is an operand of another expression. -/
def IsOperand (level : Nat) (stack : List Point) : Prop :=
  level = 0 ∨ ∃ p below, stack = p :: below ∧ isOperandEnd p = true

/-- A further tail is one of the tails, with the rest of the expression after it. -/
theorem exists_mem_tail {w : List Kind} {after : Language Kind}
    (ho : (ruleForm r).body = .operators ops)
    (hw : w ∈ ops.tailLanguage * ops.tailLanguage∗ * after) :
    ∃ t ∈ ops.tails, w ∈ rest t.2.entry * after := by
  obtain ⟨_, hu, v, hv, rfl⟩ := Language.mem_mul.mp hw
  obtain ⟨x, hx, y, hy, rfl⟩ := Language.mem_mul.mp hu
  obtain ⟨f, hf, hx⟩ := Form.mem_languageAny.mp hx
  obtain ⟨t, ht, rfl⟩ := List.mem_map.mp hf
  refine ⟨t, ht, ?_⟩
  rw [(sits_tail ho ht).stands_entry.rest]
  exact Language.append_mem_mul (Language.append_mem_mul hx hy) hv

private theorem tailFollows_or_mem (hc : Chain r stack) (ho : (ruleForm r).body = .operators ops)
    (hlevel : IsOperand level stack) {w : List Kind}
    (hw : w ∈ ops.tailLanguage∗ * rests stack) :
    TailFollows ops level stack w ∨ w ∈ rests stack := by
  have hsplit := hw
  rw [← Language.one_add_self_mul_kstar_eq_kstar, add_mul, one_mul, Language.mem_add] at hsplit
  rcases hsplit with hsplit | hsplit
  · exact .inr hsplit
  · obtain ⟨t, ht, hsplit⟩ := exists_mem_tail ho hsplit
    by_cases hlow : level ≤ t.1
    · exact .inl ⟨t, ht, hlow, (rests_cons _ _).symm ▸ hsplit⟩
    · obtain ⟨p, below, rfl, hend⟩ := hlevel.resolve_left (by omega)
      rw [← Rule.tailLanguage_eq ho] at hw
      exact .inr (mem_rests_of_isOperandEnd (Reach.hasOperators_of_body ho) hend hc hw)

/-- Whether tails begin with tokens of their own, before any call. -/
private def beginWithTokens (ops : Operators) : Bool :=
  (Reach.tails ops).all (·.rets.isEmpty) && ops.tails.all fun t =>
    !(Reach.point t.2.entry).exits && (Reach.point t.2.entry).leaves.all (·.rets.isEmpty)

private theorem beginWithTokens_of_mem_all : ∀ r ∈ Rule.all,
    (match (ruleForm r).body with
      | .operators ops => beginWithTokens ops
      | .plain _ => true) = true := by
  decide +kernel

/-- What begins with a token that is met where a tail begins can be read with that tail. -/
private theorem mem_rests_entry (ho : (ruleForm r).body = .operators ops) {t : Nat × Form}
    (ht : t ∈ ops.tails) {l : Leaf} (hl : l ∈ Reach.loopLeaves r) {c : Config}
    (hc : c ∈ spread true 1 false t.2.entry .bottom) (hpoint : c.point = l.point) {w : List Kind}
    (hw : w ∈ l.language * rests stack) : w ∈ rests (t.2.entry :: stack) := by
  have hbegin := beginWithTokens_of_mem_all r (mem_all r)
  rw [ho] at hbegin
  simp only [beginWithTokens, Bool.and_eq_true, List.all_eq_true, List.isEmpty_iff,
    Bool.not_eq_true'] at hbegin
  obtain ⟨hexits, hleaves⟩ := hbegin.2 t ht
  have hloops : (Reach.point t.2.entry).loops = false := by
    rw [Reach.exits, Bool.or_eq_false_iff] at hexits
    exact hexits.2
  simp only [spread, within, hexits, hloops, Bool.false_and, Bool.false_eq_true, if_false,
    List.append_nil] at hc
  obtain ⟨m, hm, rfl⟩ := List.mem_map.mp hc
  have hrets : l.rets = [] := by
    refine hbegin.1 l ?_
    rwa [Reach.loopLeaves, ho] at hl
  obtain rfl : m = l := by
    obtain ⟨p, rets⟩ := m
    obtain ⟨q, rets'⟩ := l
    obtain rfl : p = q := hpoint
    obtain rfl : rets' = [] := hrets
    obtain rfl : rets = [] := hleaves _ hm
    rfl
  have hp := (stands_entry ho ht).1
  rw [rests_cons, Reach.mem_rest_mul_iff hp]
  exact .inr ⟨m, (Reach.mem_leaves_iff hp).mpr (.inl hm), hw⟩

theorem mem_further {anyCaller : Bool} {callers : Callers} {c : Config} :
    (c ∈ (ops.tails.filter fun t => level ≤ t.1).flatMap fun t =>
      spread anyCaller 1 false t.2.entry callers) ↔
      ∃ t ∈ ops.tails, level ≤ t.1 ∧ c ∈ spread anyCaller 1 false t.2.entry callers := by
  simp [List.mem_flatMap, List.mem_filter, and_assoc]

/-- Without knowledge of the callers a tail that can be read is followed. -/
theorem exists_mem_startAgain_tail (hc : Chain r stack) (ho : (ruleForm r).body = .operators ops)
    {w : List Kind} (hw : TailFollows ops level stack w) :
    ∃ c ∈ startAgain true .bottom r ops level, c.Ready ∧ c.Accepts true w ∧ c.alt = 1 := by
  obtain ⟨t, ht, hlevel, hw⟩ := hw
  unfold startAgain
  extract_lets further all
  rw [if_pos rfl]
  obtain ⟨c, hmem, hready, ha⟩ := exists_mem_spread_bottom 1 (stands_entry ho ht).1 hc hw
  have hfurther : c ∈ further := mem_further.mpr ⟨t, ht, hlevel, hmem⟩
  obtain ⟨d, hd, halt, hdready, hda⟩ := exists_mem_gather_of
    (List.mem_append_left (beyond true 2 false r .bottom) hfurther) hready ha
  rw [alt_of_mem_spread hmem] at halt
  exact ⟨d, List.mem_filter.mpr ⟨hd, by simp [halt]⟩, hdready, hda, halt⟩

/-- Without knowledge of the callers the end of an expression is preferred to a tail only where no
tail can be read. -/
private theorem exists_mem_startAgain (hc : Chain r stack) (ho : (ruleForm r).body = .operators ops)
    {w : List Kind} (hne : w ≠ []) (hw : TailFollows ops level stack w ∨ w ∈ rests stack) :
    ∃ c ∈ startAgain true .bottom r ops level, c.Ready ∧ c.Accepts true w ∧
      (c.alt = 1 ∧ TailFollows ops level stack w ∨ c.alt = 2 ∧ w ∈ rests stack) := by
  have hoperators := Reach.hasOperators_of_body ho
  by_cases htail : TailFollows ops level stack w
  · obtain ⟨c, hmem, hready, ha, halt⟩ := exists_mem_startAgain_tail hc ho htail
    exact ⟨c, hmem, hready, ha, .inl ⟨halt, htail⟩⟩
  · have hw := hw.resolve_left htail
    unfold startAgain
    extract_lets further all
    rw [if_pos rfl]
    have hkeep : ∀ c ∈ beyond true 2 false r .bottom, c.Ready → c.Accepts true w →
        (∀ d ∈ all, Covers true d c → (d.alt == 1 || d.whole || !all.any fun e =>
          e.alt == 1 && e.point == d.point && e.callers == d.callers) = true) →
        ∃ c ∈ all.filter fun c => c.alt == 1 || c.whole || !all.any fun d =>
            d.alt == 1 && d.point == c.point && d.callers == c.callers,
          c.Ready ∧ c.Accepts true w ∧
            (c.alt = 1 ∧ TailFollows ops level stack w ∨ c.alt = 2 ∧ w ∈ rests stack) := by
      intro c hmem hready ha hkept
      obtain ⟨d, hd, hcovers⟩ : ∃ d ∈ all, Covers true d c :=
        exists_mem_gather (List.mem_append_right further hmem)
      refine ⟨d, List.mem_filter.mpr ⟨hd, hkept d hd hcovers⟩, hcovers.ready hready,
        hcovers.accepts ha, .inr ⟨?_, hw⟩⟩
      rw [hcovers.alt, alt_of_mem_beyond hmem]
    obtain ⟨q, below, rfl⟩ : ∃ q below, stack = q :: below := by
      cases stack with
      | nil => exact absurd ((Language.mem_one w).mp hw) hne
      | cons q below => exact ⟨q, below, rfl⟩
    have ⟨⟨_, hsite⟩, _⟩ := hc
    rcases Follow.exists_outer_tail hoperators hc hw hne with
      ⟨o, hout, hwhole, stack', hchain, haccepts⟩ | ⟨l, hl, hout, haccepts⟩
    · obtain ⟨_, hvalid⟩ := Follow.valid_of_mem_outer hout
      refine hkeep _ (mem_beyond_bottom hout hsite 2 false) (.inl hvalid.token) ?_ ?_
      · refine ⟨o.leaf.rets, Callers.mem_toList_ofStack.mpr rfl, stack', nofun, hchain, ?_⟩
        rwa [← List.cons_append, rests_append]
      · intro d _ hcovers
        simp [hcovers.whole hwhole]
    · have hvalid := Reach.valid_of_mem_loopLeaves hl
      refine hkeep _ (mem_beyond_bottom hout hsite 2 false) (.inl hvalid.token) ?_ ?_
      · refine ⟨l.rets, Callers.mem_toList_ofStack.mpr rfl, _, nofun, hvalid.chain hc, ?_⟩
        rwa [← List.cons_append, rests_append]
      · -- A tail that begins here would be one to read on with.
        intro d _ hcovers
        suffices hnone : ∀ e ∈ all, e.alt = 1 → e.point ≠ d.point by
          have hfalse : (all.any fun e =>
              e.alt == 1 && e.point == d.point && e.callers == d.callers) = false := by
            rw [List.any_eq_false]
            intro e he hsame
            simp only [Bool.and_eq_true, beq_iff_eq] at hsame
            exact hnone e he hsame.1.1 hsame.1.2
          rw [hfalse, Bool.not_false, Bool.or_true]
        intro e he halt hpoint
        obtain ⟨x, hx, hxpoint, hxalt, -⟩ := mem_gather he
        rcases List.mem_append.mp hx with hx | hx
        · obtain ⟨t, ht, hlevel, hx⟩ := mem_further.mp hx
          have hxl : x.point = l.point := hxpoint.trans (hpoint.trans hcovers.point)
          exact htail ⟨t, ht, hlevel, mem_rests_entry ho ht hl hx hxl haccepts⟩
        · rw [← hxalt, alt_of_mem_beyond hx] at halt
          cases halt

/-- After the end of an expression under its call stack. -/
private theorem fair_of_mem_beyond {good : Nat → Prop} {w : List Kind} (hc : Chain r stack)
    (ho : (ruleForm r).body = .operators ops) (hgood : w ∈ rests stack → good 2) {c : Config}
    (hmem : c ∈ beyond false 2 false r (.ofStack stack)) : c.Fair good w ∧ c.Ready := by
  have hfrom : ∀ u, c.Placed .compilationUnit ∧ (c.Accepts false u → u ∈ rests stack) := by
    intro u
    obtain ⟨hplaced, h⟩ := of_mem_beyond (w := u) (Callers.under_ofStack hc) hmem
    refine ⟨hplaced, fun ha => ?_⟩
    obtain ⟨σ, hσ, hu⟩ := h ha.admits
    rwa [Callers.mem_toList_ofStack.mp hσ] at hu
  have hready := (hfrom w).1.ready
  have hunder := (hfrom w).1.under
  refine ⟨⟨hready.mem, hunder, fun ha => ?_, fun _ hstop => ?_⟩, hready⟩
  · rw [alt_of_mem_beyond hmem]
    exact hgood ((hfrom w).2 ha)
  · have hnil := (hfrom []).2 (accepts_of_stop hunder hstop)
    cases stack with
    | nil => exact ne_compilationUnit ho hc
    | cons q below =>
      obtain ⟨⟨_, hsite⟩, hrest⟩ := hc
      have hproper := Follow.proper_of_mem_sites hsite
      exact nil_not_mem_rests hproper.mem hrest hproper.inside hnil

/-- Whether another tail follows is decided so that the tokens ahead can be read on. -/
theorem decide_again_complete (hts : Ended ts) (hc : Chain r stack)
    (ho : (ruleForm r).body = .operators ops) (hlevel : IsOperand level stack)
    (hw : ts.map Token.kind ∈ ops.tailLanguage∗ * rests stack) :
    ∃ a, ((again r ops level).decide stack ts).choice = .ok a ∧
      (a = 1 ∧ TailFollows ops level stack (ts.map Token.kind) ∨
        a = 2 ∧ ts.map Token.kind ∈ rests stack) := by
  have hne : ts.map Token.kind ≠ [] := by simpa using hts.ne_nil
  have hor := tailFollows_or_mem hc ho hlevel hw
  refine decide_good hts (fun _ _ => rfl) (exists_mem_startAgain hc ho hne hor) ?_ ?_
  all_goals simp only [start, startAgain, Bool.false_eq_true, if_false]
  · rcases hor with ⟨t, ht, hlow, hw⟩ | hw
    · obtain ⟨c, hmem, hready, ha⟩ := exists_mem_spread_ofStack 1 (stands_entry ho ht).1 hc hw
      obtain ⟨d, hd, -, -, ha⟩ := exists_mem_gather_of
        (List.mem_append_left _ (mem_further.mpr ⟨t, ht, hlow, hmem⟩)) hready ha
      exact ⟨d, hd, ha⟩
    · rw [← List.append_nil stack] at hc hw
      obtain ⟨c, hmem, hready, ha⟩ := exists_mem_beyond 2 false
        (Callers.mem_toList_ofStack.mpr rfl) (fun _ => rfl) hc hw
      obtain ⟨d, hd, -, -, ha⟩ := exists_mem_gather_of (List.mem_append_right _ hmem) hready ha
      exact ⟨d, hd, ha⟩
  · refine fair_of_mem_gather fun c hmem => ?_
    rcases List.mem_append.mp hmem with hmem | hmem
    · obtain ⟨t, ht, hlow, hmem⟩ := mem_further.mp hmem
      obtain ⟨hp, hinside⟩ := stands_entry ho ht
      exact fair_of_mem_spread hp hinside hc (fun hw => .inl ⟨rfl, t, ht, hlow, hw⟩) hmem
    · exact fair_of_mem_beyond hc ho (fun hw => .inr ⟨rfl, hw⟩) hmem

end Decision

end ResourceNames.Java
