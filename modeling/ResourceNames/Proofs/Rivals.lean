import ResourceNames.Proofs.Beginnings

/-!
What the alternatives of a decision still admit while they are followed under the actual callers.

`Config.Takes cs a w` says that among the configurations `cs` one of the alternative `a` admits the
tokens `w`; with no tokens left, that the alternative has come to the end of the outermost rule.
Reading a token changes this in one way only, `Decision.next`, whatever the configurations are. So how
two alternatives come out can be told from what they admit: the first one comes out if it admits all
that the second one does, and a decision comes out like another one whose alternatives are less far
apart.
-/
namespace ResourceNames.Java

open Computability Layout

-- What the tables hold is known from lemmas. Comparing terms must not evaluate them.
attribute [local irreducible] Reach.point Item.ofPoint Item.owner

namespace Config

variable {out : Rule} {c d : Config} {cs : List Config} {k : Kind} {v w : List Kind} {a : Nat}

/-! ### Configurations of the actual callers -/

/-- A configuration at a point of a rule, under call stacks that lead from it to the rule `out`. -/
structure Lies (out : Rule) (c : Config) : Prop where
  mem : c.point ∈ (ruleForm (Item.owner c.point)).points
  under : c.callers.Under out (Item.owner c.point)

theorem Lies.exists_admits (h : c.Lies out) : ∃ w, c.Admits w := by
  obtain ⟨σ, hσ⟩ := h.under.exists_mem
  obtain ⟨u, hu⟩ := exists_mem_rest h.mem
  obtain ⟨v, hv⟩ := (h.under.leads hσ).exists_mem_rests
  refine ⟨u ++ v, σ, hσ, ?_⟩
  rw [rests_cons]
  exact Language.append_mem_mul hu hv

theorem Placed.lies (h : c.Placed out) : c.Lies out := by
  refine ⟨?_, h.under⟩
  rcases h.tokenOrEnd with htoken | ⟨hstop, -⟩
  · exact htoken.1
  · rw [hstop, (stands_stop out).owner]
    exact (stands_stop out).mem

/-- Where nothing is left to read is an end. -/
theorem Placed.isStop_iff (h : c.Placed out) : isStop c.point = true ↔ c.Admits [] := by
  rcases h.tokenOrEnd with htoken | ⟨hstop, hcallers⟩
  · refine iff_of_false (by simp [htoken.isStop_eq_false]) ?_
    rintro ⟨σ, -, hw⟩
    rw [rests_cons] at hw
    obtain ⟨u, hu, x, -, hux⟩ := Language.mem_mul.mp hw
    exact htoken.nil_not_mem ((List.append_eq_nil_iff.mp hux).1 ▸ hu)
  · have hends := stands_stop out
    refine iff_of_true ?_ ⟨[], ?_, ?_⟩
    · rw [Config.isStop, hstop, hends.owner, beq_self_eq_true]
    · simp [hcallers]
    · rw [hstop, rests_cons, hends.rest, rests_nil, one_mul]
      exact Language.nil_mem_one

/-- At an end nothing can be read. -/
theorem Placed.isToken (h : c.Placed out) (hw : c.Admits (k :: v)) : IsToken c.point := by
  rcases h.tokenOrEnd with htoken | ⟨hstop, hcallers⟩
  · exact htoken
  · obtain ⟨σ, hσ, hw⟩ := hw
    rw [hcallers, Callers.mem_toList_bottom] at hσ
    rw [hσ, hstop, rests_cons, (stands_stop out).rest, rests_nil, one_mul] at hw
    cases (Language.mem_one _).mp hw

/-- A configuration of one of two alternatives, whose rule has not been left. -/
structure Runs (out : Rule) (c : Config) : Prop where
  placed : c.Placed out
  alt : c.alt = 1 ∨ c.alt = 2
  inside : c.left = false

theorem Placed.merge (hs : c.sameWay d = true) (hc : c.Placed out) (hd : d.Placed out) :
    (c.merge false d).Placed out := by
  simp only [sameWay, Bool.and_eq_true, beq_iff_eq] at hs
  refine ⟨?_, hc.under.union (hs.1 ▸ hd.under)⟩
  rcases hc.tokenOrEnd with htoken | ⟨hstop, hbottom⟩
  · exact .inl htoken
  · rcases hd.tokenOrEnd with htoken | ⟨-, hbottom'⟩
    · exact .inl (hs.1 ▸ htoken)
    · exact .inr ⟨hstop, by simp [Config.merge, hbottom, hbottom', Callers.union, Callers.addBottom]⟩

theorem Runs.merge (hs : c.sameWay d = true) (hc : c.Runs out) (hd : d.Runs out) :
    (c.merge false d).Runs out :=
  ⟨hc.placed.merge hs hd.placed, hc.alt, by simp [Config.merge, hc.inside, hd.inside]⟩

/-! ### Going on without reading -/

private theorem left_of_mem_beyond {left : Bool} {rule : Rule} {callers : Callers}
    (h : c ∈ beyond false a left rule callers) : c.left = left := by
  induction callers generalizing rule with
  | none => simp [beyond] at h
  | bottom =>
    rw [show c = _ from List.mem_singleton.mp h]
  | top ret below others ihb iho =>
    simp only [beyond, List.mem_append] at h
    rcases h with (h | h) | h
    · obtain ⟨l, -, rfl⟩ := List.mem_map.mp h
      rfl
    · split at h
      · exact ihb h
      · simp at h
    · exact iho h

private theorem left_of_mem_spread {left : Bool} {p : Point} {callers : Callers}
    (h : c ∈ spread false a left p callers) : c.left = left := by
  simp only [spread, List.mem_append] at h
  rcases h with h | h
  · obtain ⟨l, -, rfl⟩ := List.mem_map.mp h
    rfl
  · split at h
    · exact left_of_mem_beyond h
    · simp at h

/-- Among some configurations one of an alternative admits what is left to read. -/
def Takes (cs : List Config) (a : Nat) (w : List Kind) : Prop := ∃ c ∈ cs, c.alt = a ∧ c.Admits w

theorem takes_append {ds : List Config} :
    Takes (cs ++ ds) a w ↔ Takes cs a w ∨ Takes ds a w := by
  simp only [Takes, List.mem_append, or_and_right, exists_or]

theorem Covers.admits (h : Covers false d c) (hc : c.Admits w) : d.Admits w := by
  obtain ⟨σ, hσ, hw⟩ := hc
  obtain ⟨τ, hτ, -, heq⟩ := h.callers σ hσ
  obtain rfl := heq rfl
  exact ⟨τ, hτ, by rwa [h.point]⟩

/-- Putting configurations together changes nothing about what they admit. -/
theorem takes_gather : Takes (gather false cs) a w ↔ Takes cs a w := by
  constructor
  · rintro ⟨c, hc, rfl, hw⟩
    refine forall_mem_gather (P := fun c => ∀ w, c.Admits w → Takes cs c.alt w) ?_ ?_ c hc w hw
    · rintro c d hs hc hd w ⟨σ, hσ, hw⟩
      simp only [sameWay, Bool.and_eq_true, beq_iff_eq] at hs
      rcases Callers.mem_of_mem_union hσ with hσ | hσ
      · exact hc w ⟨σ, hσ, hw⟩
      · exact hs.2 ▸ hd w ⟨σ, hσ, hs.1 ▸ hw⟩
    · exact fun c hc w hw => ⟨c, hc, rfl, hw⟩
  · rintro ⟨c, hc, rfl, hw⟩
    obtain ⟨d, hd, hcovers⟩ : ∃ d ∈ gather false cs, Covers false d c := exists_mem_gather hc
    exact ⟨d, hd, hcovers.alt, hcovers.admits hw⟩

/-- Going on from a point changes nothing about what is admitted. -/
theorem takes_spread {p : Point} {r : Rule} {callers : Callers} {left : Bool} {n : Nat}
    (hp : p ∈ (ruleForm r).points) (hu : callers.Under out r) :
    Takes (spread false n left p callers) a w ↔
      a = n ∧ ∃ σ ∈ callers.toList, w ∈ rests (p :: σ) := by
  constructor
  · rintro ⟨c, hc, rfl, hw⟩
    exact ⟨alt_of_mem_spread hc, (of_mem_spread hp hu hc).2 hw⟩
  · rintro ⟨rfl, σ, hσ, hw⟩
    have hl := hu.leads hσ
    rw [← List.append_nil σ] at hl hw
    obtain ⟨c, hc, hgoes⟩ : ∃ c ∈ spread false a left p callers, c.Continues out false w :=
      exists_continues_spread a left nofun hp hσ (fun _ => rfl) hl hw
    exact ⟨c, hc, alt_of_mem_spread hc, hgoes.admits⟩

/-- Going on after the end of a rule changes nothing about what is admitted. -/
theorem takes_beyond {r : Rule} {callers : Callers} {left : Bool} {n : Nat}
    (hu : callers.Under out r) :
    Takes (beyond false n left r callers) a w ↔ a = n ∧ ∃ σ ∈ callers.toList, w ∈ rests σ := by
  constructor
  · rintro ⟨c, hc, rfl, hw⟩
    exact ⟨alt_of_mem_beyond hc, (of_mem_beyond hu hc).2 hw⟩
  · rintro ⟨rfl, σ, hσ, hw⟩
    have hl := hu.leads hσ
    rw [← List.append_nil σ] at hl hw
    obtain ⟨c, hc, hgoes⟩ : ∃ c ∈ beyond false a left r callers, c.Continues out false w :=
      exists_continues_beyond a left nofun hσ (fun _ => rfl) hl hw
    exact ⟨c, hc, alt_of_mem_beyond hc, hgoes.admits⟩

theorem runs_of_mem_spread {p : Point} {r : Rule} {callers : Callers} {n : Nat}
    (hp : p ∈ (ruleForm r).points) (hu : callers.Under out r) (hn : n = 1 ∨ n = 2)
    (hc : c ∈ spread false n false p callers) : c.Runs out :=
  ⟨(of_mem_spread (w := []) hp hu hc).1, (alt_of_mem_spread hc).symm ▸ hn, left_of_mem_spread hc⟩

theorem runs_of_mem_beyond {r : Rule} {callers : Callers} {n : Nat} (hu : callers.Under out r)
    (hn : n = 1 ∨ n = 2) (hc : c ∈ beyond false n false r callers) : c.Runs out :=
  ⟨(of_mem_beyond (w := []) hu hc).1, (alt_of_mem_beyond hc).symm ▸ hn, left_of_mem_beyond hc⟩

/-! ### Reading a token -/

/-- What is admitted after a token that a configuration reads. -/
theorem Placed.read? (h : c.Placed out) (hd : read? k c = some d) :
    d.Lies out ∧ d.alt = c.alt ∧ d.left = c.left ∧ ∀ v, d.Admits v ↔ c.Admits (k :: v) := by
  have htoken : IsToken c.point := by
    refine h.tokenOrEnd.resolve_right fun ⟨hstop, _⟩ => ?_
    unfold Config.read? at hd
    rw [hstop, Item.ofPoint_stop] at hd
    cases hd
  obtain ⟨-, kinds, next, hitem, hnext, hrest⟩ := htoken
  have howner := Item.owner_of_mem hnext
  rw [read?_of_token hitem] at hd
  split at hd
  · rename_i hmem
    rw [List.contains_iff_mem] at hmem
    obtain rfl := Option.some.inj hd
    refine ⟨⟨howner.symm ▸ hnext, howner.symm ▸ h.under⟩, rfl, rfl, fun v => ?_⟩
    refine exists_congr fun σ => and_congr_right fun _ => ?_
    rw [rests_cons, rests_cons]
    constructor
    · intro hv
      obtain ⟨y, hy, x, hx, rfl⟩ := Language.mem_mul.mp hv
      exact Language.append_mem_mul (a := k :: y) ((hrest _).mpr ⟨k, hmem, y, hy, rfl⟩) hx
    · intro hv
      obtain ⟨u, hu, x, hx, hux⟩ := Language.mem_mul.mp hv
      obtain ⟨j, -, y, hy, rfl⟩ := (hrest u).mp hu
      obtain ⟨rfl, rfl⟩ := List.cons.inj hux
      exact Language.append_mem_mul hy hx
  · cases hd

/-- A token that is admitted is read. -/
theorem Placed.exists_read? (h : c.Placed out) (hw : c.Admits (k :: v)) :
    ∃ d, Config.read? k c = some d := by
  obtain ⟨-, kinds, next, hitem, -, hrest⟩ := h.isToken hw
  obtain ⟨σ, -, hw⟩ := hw
  rw [rests_cons] at hw
  obtain ⟨u, hu, x, -, hux⟩ := Language.mem_mul.mp hw
  obtain ⟨j, hj, y, -, rfl⟩ := (hrest u).mp hu
  obtain ⟨rfl, -⟩ := List.cons.inj hux
  exact ⟨_, by rw [read?_of_token hitem, if_pos (List.contains_iff_mem.mpr hj)]⟩

/-- The configurations that have read a token. -/
private theorem moved_spec (h : ∀ c ∈ cs, c.Runs out) :
    (∀ d ∈ gather false (cs.filterMap (Config.read? k)),
      d.Lies out ∧ (d.alt = 1 ∨ d.alt = 2) ∧ d.left = false) ∧
    ∀ a v, Takes (gather false (cs.filterMap (Config.read? k))) a v ↔ Takes cs a (k :: v) := by
  constructor
  · refine forall_mem_gather (fun c d hs hc hd => ?_) fun d hd => ?_
    · have hs' := hs
      simp only [sameWay, Bool.and_eq_true, beq_iff_eq] at hs'
      exact ⟨⟨hc.1.mem, hc.1.under.union (hs'.1 ▸ hd.1.under)⟩, hc.2.1, by
        simp [Config.merge, hc.2.2, hd.2.2]⟩
    · obtain ⟨c, hc, hread⟩ := List.mem_filterMap.mp hd
      obtain ⟨hlies, halt, hleft, -⟩ := (h c hc).placed.read? hread
      exact ⟨hlies, halt ▸ (h c hc).alt, hleft.trans (h c hc).inside⟩
  · intro a v
    rw [takes_gather]
    constructor
    · rintro ⟨d, hd, rfl, hv⟩
      obtain ⟨c, hc, hread⟩ := List.mem_filterMap.mp hd
      obtain ⟨-, halt, -, hadmits⟩ := (h c hc).placed.read? hread
      exact ⟨c, hc, halt.symm, (hadmits v).mp hv⟩
    · rintro ⟨c, hc, rfl, hw⟩
      obtain ⟨d, hread⟩ := (h c hc).placed.exists_read? hw
      obtain ⟨-, halt, -, hadmits⟩ := (h c hc).placed.read? hread
      exact ⟨d, List.mem_filterMap.mpr ⟨c, hc, hread⟩, halt, (hadmits v).mpr hw⟩

end Config

namespace Decision

open Config

variable {out : Rule} {cs : List Config} {k : Kind} {a : Nat} {w : List Kind}

/-- What alternatives admit after a token, given what they admitted before it. An end that was reached
before stays one, unless another one is reached later. -/
def next (takes : Nat → List Kind → Prop) (k : Kind) (a : Nat) : List Kind → Prop
  | [] => takes a [k] ∨ takes a [] ∧ ∀ b, ¬ takes b [k]
  | j :: v => k ≠ .eof ∧ takes a (k :: j :: v)

end Decision

namespace Config

open Decision (next)

variable {out : Rule} {cs : List Config} {k : Kind} {a : Nat}

private theorem takes_filter_isStop (h : ∀ c ∈ cs, c.Runs out) (w : List Kind) :
    Takes (cs.filter fun c => isStop c.point) a w ↔ w = [] ∧ Takes cs a [] := by
  constructor
  · rintro ⟨c, hc, rfl, hw⟩
    obtain ⟨hc, hstop⟩ := List.mem_filter.mp hc
    have hnil := (h c hc).placed.isStop_iff.mp hstop
    refine ⟨?_, c, hc, rfl, hnil⟩
    cases w with
    | nil => rfl
    | cons j v =>
      have htoken := (h c hc).placed.isToken hw
      simp [htoken.isStop_eq_false] at hstop
  · rintro ⟨rfl, c, hc, rfl, hw⟩
    exact ⟨c, List.mem_filter.mpr ⟨hc, (h c hc).placed.isStop_iff.mpr hw⟩, rfl, hw⟩

/-- After a token either one alternative alone has read it, and nothing had ended before, or what the
alternatives admit has changed as it does with every token. -/
private theorem advance_cases (h : ∀ c ∈ cs, c.Runs out) (k : Kind) :
    (advance false cs k = gather false (cs.filterMap (read? k)) ∧ k ≠ .eof ∧
      (only? (advance false cs k)).isSome = true ∧ ∀ b, ¬ Takes cs b []) ∨
    ((∀ c ∈ advance false cs k, c.Runs out) ∧
      ∀ a w, Takes (advance false cs k) a w ↔ next (Takes cs) k a w) := by
  obtain ⟨hmoved, htakes⟩ := moved_spec (k := k) h
  unfold advance
  extract_lets ended moved met kept
  have hended : ∀ b w, Takes ended b w ↔ w = [] ∧ Takes cs b [] :=
    fun b w => takes_filter_isStop h w
  have hempty : ended.isEmpty = true → ∀ b, ¬ Takes cs b [] := by
    intro hnone b hb
    obtain ⟨c, hc, -⟩ := (hended b []).mpr ⟨rfl, hb⟩
    rw [List.isEmpty_iff.mp hnone] at hc
    cases hc
  have hmet : (∀ c ∈ met, c.Runs out) ∧ ∀ a v, Takes met a v ↔ Takes cs a (k :: v) := by
    constructor
    · refine forall_mem_gather (fun c d hs hc hd => hc.merge hs hd) fun c hc => ?_
      obtain ⟨d, hd, hspread⟩ := List.mem_flatMap.mp hc
      obtain ⟨hlies, halt, hleft⟩ := hmoved d hd
      rw [hleft] at hspread
      exact runs_of_mem_spread hlies.mem hlies.under halt hspread
    · intro a v
      rw [takes_gather, ← htakes]
      constructor
      · rintro ⟨c, hc, rfl, hv⟩
        obtain ⟨d, hd, hspread⟩ := List.mem_flatMap.mp hc
        obtain ⟨halt, hadmits⟩ :=
          (takes_spread (hmoved d hd).1.mem (hmoved d hd).1.under).mp ⟨c, hspread, rfl, hv⟩
        exact ⟨d, hd, halt.symm, hadmits⟩
      · rintro ⟨d, hd, rfl, hv⟩
        obtain ⟨c, hc, halt, hcv⟩ : Takes (spread false d.alt d.left d.point d.callers) d.alt v :=
          (takes_spread (hmoved d hd).1.mem (hmoved d hd).1.under).mpr ⟨rfl, hv⟩
        exact ⟨c, List.mem_flatMap.mpr ⟨d, hd, hc⟩, halt, hcv⟩
  have hkept : (∀ c ∈ kept, c.Runs out) ∧ (∀ a, Takes kept a [] ↔ Takes cs a [k]) ∧
      ∀ a j v, Takes kept a (j :: v) ↔ k ≠ .eof ∧ Takes cs a (k :: j :: v) := by
    simp only [kept]
    split
    · rename_i heof
      refine ⟨fun c hc => hmet.1 c (List.mem_filter.mp hc).1, fun a => ?_, fun a j v => ?_⟩
      · simp [takes_filter_isStop hmet.1, hmet.2]
      · simp [takes_filter_isStop hmet.1, beq_iff_eq.mp heof]
    · rename_i heof
      have hne : k ≠ .eof := fun h => heof (beq_iff_eq.mpr h)
      exact ⟨hmet.1, fun a => hmet.2 a [k].tail, fun a j v => by simp [hmet.2, hne]⟩
  have hlate : (kept.any fun c => isStop c.point) = true ↔ ∃ b, Takes cs b [k] := by
    rw [List.any_eq_true]
    constructor
    · rintro ⟨c, hc, hstop⟩
      exact ⟨c.alt, (hkept.2.1 _).mp ⟨c, hc, rfl, (hkept.1 c hc).placed.isStop_iff.mp hstop⟩⟩
    · rintro ⟨b, hb⟩
      obtain ⟨c, hc, -, hnil⟩ := (hkept.2.1 b).mpr hb
      exact ⟨c, hc, (hkept.1 c hc).placed.isStop_iff.mpr hnil⟩
  split
  · rename_i hone
    simp only [Bool.and_eq_true, bne_iff_ne] at hone
    exact .inl ⟨rfl, hone.1.2, hone.2, hempty hone.1.1⟩
  · right
    split
    · rename_i hnone
      refine ⟨hkept.1, fun a w => ?_⟩
      cases w with
      | nil => simp [next, hkept.2.1, hempty hnone]
      | cons j v => exact hkept.2.2 a j v
    · split
      · rename_i hearly
        simp only [Bool.false_or, Bool.not_eq_true', ← Bool.not_eq_true, hlate, not_exists] at hearly
        refine ⟨forall_mem_gather (fun c d hs hc hd => hc.merge hs hd) fun c hc => ?_, fun a w => ?_⟩
        · rcases List.mem_append.mp hc with hc | hc
          · exact hkept.1 c hc
          · exact h c (List.mem_filter.mp hc).1
        · rw [takes_gather, takes_append]
          cases w with
          | nil => simp [next, hkept.2.1, hended, hearly]
          | cons j v => simp [next, hkept.2.2, hended]
      · rename_i hlater
        simp only [Bool.false_or, Bool.not_eq_true', Bool.not_eq_false, hlate] at hlater
        refine ⟨hkept.1, fun a w => ?_⟩
        cases w with
        | nil =>
          obtain ⟨b, hb⟩ := hlater
          simp only [next, hkept.2.1]
          exact ⟨.inl, fun h => h.resolve_right fun hno => hno.2 b hb⟩
        | cons j v => exact hkept.2.2 a j v

/-- The alternatives that are left after a token are those that admit something. -/
theorem exists_alt_advance (h : ∀ c ∈ cs, c.Runs out) :
    (∃ c ∈ advance false cs k, c.alt = a) ↔ ∃ w, next (Takes cs) k a w := by
  rcases advance_cases h k with ⟨hadvance, hne, -, hnone⟩ | ⟨hruns, htakes⟩
  · obtain ⟨hmoved, htakes⟩ := moved_spec (k := k) h
    rw [hadvance]
    constructor
    · rintro ⟨c, hc, rfl⟩
      obtain ⟨v, hv⟩ := (hmoved c hc).1.exists_admits
      have htaken := (htakes c.alt v).mp ⟨c, hc, rfl, hv⟩
      cases v with
      | nil => exact ⟨[], .inl htaken⟩
      | cons j v => exact ⟨j :: v, hne, htaken⟩
    · rintro ⟨w, hw⟩
      have htaken : ∃ v, Takes cs a (k :: v) := by
        cases w with
        | nil => exact ⟨[], hw.resolve_right fun hno => hnone a hno.1⟩
        | cons j v => exact ⟨_, hw.2⟩
      obtain ⟨v, hv⟩ := htaken
      obtain ⟨c, hc, halt, -⟩ := (htakes a v).mpr hv
      exact ⟨c, hc, halt⟩
  · constructor
    · rintro ⟨c, hc, rfl⟩
      obtain ⟨w, hw⟩ := (hruns c hc).placed.lies.exists_admits
      exact ⟨w, (htakes c.alt w).mp ⟨c, hc, rfl, hw⟩⟩
    · rintro ⟨w, hw⟩
      obtain ⟨c, hc, halt, -⟩ := (htakes a w).mpr hw
      exact ⟨c, hc, halt⟩

/-- While two alternatives are left, a token changes what they admit as every token does. -/
theorem takes_advance (h : ∀ c ∈ cs, c.Runs out) (hone : only? (advance false cs k) = none) :
    (∀ c ∈ advance false cs k, c.Runs out) ∧ Takes (advance false cs k) = next (Takes cs) k := by
  rcases advance_cases h k with ⟨-, -, hsome, -⟩ | ⟨hruns, htakes⟩
  · simp [hone] at hsome
  · exact ⟨hruns, funext₂ fun a w => propext (htakes a w)⟩

theorem alt_of_takes (h : ∀ c ∈ cs, c.Runs out) (a : Nat) (w : List Kind) (ht : Takes cs a w) :
    a = 1 ∨ a = 2 := by
  obtain ⟨c, hc, rfl, -⟩ := ht
  exact (h c hc).alt

/-- The alternative that is taken when nothing goes on has ended, and is the first one if that has. -/
theorem takes_of_finished? (h : ∀ c ∈ cs, c.Runs out) (hf : finished? cs = some a) :
    Takes cs a [] ∧ (Takes cs 1 [] → a = 1) := by
  obtain ⟨c, hc, rfl, hends⟩ := exists_of_finished? hf
  have hstop : isStop c.point = true := by simpa [(h c hc).inside] using hends
  refine ⟨⟨c, hc, rfl, (h c hc).placed.isStop_iff.mp hstop⟩, ?_⟩
  rintro ⟨d, hd, hone, hnil⟩
  have hmem : 1 ∈ alts (cs.filter fun c => c.left || isStop c.point) := by
    have hdstop := (h d hd).placed.isStop_iff.mpr hnil
    simpa [alts] using ⟨d, ⟨hd, .inr hdstop⟩, hone⟩
  have hle : c.alt ≤ 1 := (List.min?_eq_some_iff.mp hf).2 1 hmem
  rcases (h c hc).alt with halt | halt
  · exact halt
  · omega

end Config

namespace Decision

open Config

variable {out : Rule} {cs : List Config} {k : Kind} {a depth : Nat} {t : Token} {ts : List Token}

theorem next_alt {takes : Nat → List Kind → Prop} (h : ∀ b v, takes b v → b = 1 ∨ b = 2)
    {w : List Kind} (hw : next takes k a w) : a = 1 ∨ a = 2 := by
  cases w with
  | nil => exact hw.elim (h a _) fun hw => h a _ hw.1
  | cons j v => exact h a _ hw.2

/-! ### Following two alternatives -/

/-- The alternative to which following under the actual callers comes, also when nothing goes on. -/
def Outcome.choice? : Outcome → Option Nat
  | .one a => some a
  | .several _ => none
  | .nothing last => finished? last

/-- Where no alternative goes on, none has ended. -/
private theorem not_takes_of_advance_eq_nil (h : ∀ c ∈ cs, c.Runs out)
    (hnil : advance false cs k = []) : ¬ Takes cs a [] := by
  have hnone : ∀ b w, ¬ next (Takes cs) k b w := fun b w hw => by
    obtain ⟨c, hc, -⟩ := (exists_alt_advance h).mpr ⟨w, hw⟩
    rw [hnil] at hc
    cases hc
  intro ha
  by_cases hlate : ∃ b, Takes cs b [k]
  · obtain ⟨b, hb⟩ := hlate
    exact hnone b [] (.inl hb)
  · exact hnone a [] (.inr ⟨ha, not_exists.mp hlate⟩)

/-- One token: if the first alternative is left, it comes out or both are followed further. -/
private theorem follow_step (h : ∀ c ∈ cs, c.Runs out) {w : List Kind}
    (hone : next (Takes cs) t.kind 1 w)
    (hc : (followActual depth cs (t :: ts)).1.choice? = some a) :
    a = 1 ∨ only? (advance false cs t.kind) = none ∧
      (followActual (depth + 1) (advance false cs t.kind) ts).1.choice? = some a := by
  obtain ⟨c, hmem, halt⟩ := (exists_alt_advance h).mpr ⟨w, hone⟩
  rw [followActual] at hc
  split at hc
  · rename_i hnil
    rw [hnil] at hmem
    cases hmem
  · split at hc
    · rename_i b honly
      rw [Outcome.choice?, ← alt_eq_of_only? honly hmem, halt] at hc
      exact .inl (Option.some.inj hc).symm
    · rename_i b hnone hwinner
      obtain ⟨hle, d, hd, hdalt, -⟩ := twin_of_winner? hwinner hmem
      obtain ⟨v, hv⟩ := (exists_alt_advance h).mp ⟨d, hd, hdalt⟩
      obtain rfl := Option.some.inj hc
      rcases next_alt (alt_of_takes h) hv with hb | hb
      · exact .inl hb
      · omega
    · rename_i hnone hwinner
      exact .inr ⟨hnone, hc⟩

/-- An alternative that admits all tokens ahead comes out, if it is the first one. -/
theorem first_of_takes (h : ∀ c ∈ cs, c.Runs out) (hts : ts = [] ∨ Ended ts)
    (hw : Takes cs 1 (ts.map Token.kind)) (hc : (followActual depth cs ts).1.choice? = some a) :
    a = 1 := by
  induction ts generalizing cs depth with
  | nil => exact (takes_of_finished? h hc).2 hw
  | cons t ts ih =>
    have hts := hts.resolve_left (List.cons_ne_nil t ts)
    have hnext : next (Takes cs) t.kind 1 (ts.map Token.kind) := by
      rcases ended_cons hts with ⟨-, rfl⟩ | ⟨hne, hts⟩
      · exact .inl hw
      · obtain ⟨u, us, rfl⟩ := List.exists_cons_of_ne_nil hts.ne_nil
        exact ⟨hne, hw⟩
    rcases follow_step h hnext hc with rfl | ⟨honly, hc⟩
    · rfl
    · obtain ⟨hruns, htakes⟩ := takes_advance h honly
      exact ih hruns ((ended_cons hts).imp And.right And.right) (htakes ▸ hnext) hc

private theorem next_dominated {takes : Nat → List Kind → Prop}
    (h : ∀ w, takes 2 w → takes 1 w) (w : List Kind) (hw : next takes k 2 w) : next takes k 1 w := by
  cases w with
  | nil => exact hw.imp (h _) (.imp_left (h _))
  | cons j v => exact ⟨hw.1, h _ hw.2⟩

/-- If something comes out and the first alternative is left whenever the second one is, the first
one is left. -/
private theorem exists_next_one (h : ∀ c ∈ cs, c.Runs out)
    (hless : ∀ w, next (Takes cs) t.kind 2 w → next (Takes cs) t.kind 1 w)
    (hc : (followActual depth cs (t :: ts)).1.choice? = some a) :
    ∃ w, next (Takes cs) t.kind 1 w := by
  by_contra hnone
  have hnil : advance false cs t.kind = [] := by
    refine List.eq_nil_iff_forall_not_mem.mpr fun c hmem => hnone ?_
    obtain ⟨w, hw⟩ := (exists_alt_advance h).mp ⟨c, hmem, rfl⟩
    rcases next_alt (alt_of_takes h) hw with halt | halt <;> rw [halt] at hw
    · exact ⟨w, hw⟩
    · exact ⟨w, hless w hw⟩
  rw [followActual, hnil] at hc
  exact not_takes_of_advance_eq_nil h hnil (takes_of_finished? h hc).1

/-- One token: the first alternative comes out, or it goes on admitting all that the second one does. -/
private theorem dominated_step (h : ∀ c ∈ cs, c.Runs out)
    (hless : ∀ w, next (Takes cs) t.kind 2 w → next (Takes cs) t.kind 1 w)
    (hc : (followActual depth cs (t :: ts)).1.choice? = some a) :
    a = 1 ∨ (∀ c ∈ advance false cs t.kind, c.Runs out) ∧
      (∀ w, Takes (advance false cs t.kind) 2 w → Takes (advance false cs t.kind) 1 w) ∧
      (followActual (depth + 1) (advance false cs t.kind) ts).1.choice? = some a := by
  obtain ⟨w, hw⟩ := exists_next_one h hless hc
  refine (follow_step h hw hc).imp id fun ⟨honly, hc⟩ => ?_
  obtain ⟨hruns, htakes⟩ := takes_advance h honly
  exact ⟨hruns, htakes ▸ hless, hc⟩

/-- The first alternative comes out if it admits all that the second one does. -/
theorem first_of_dominated (h : ∀ c ∈ cs, c.Runs out)
    (hless : ∀ w, next (Takes cs) t.kind 2 w → next (Takes cs) t.kind 1 w)
    (hc : (followActual depth cs (t :: ts)).1.choice? = some a) : a = 1 := by
  induction ts generalizing cs t depth with
  | nil =>
    rcases dominated_step h hless hc with rfl | ⟨hruns, hless, hc⟩
    · rfl
    · obtain ⟨hends, hfirst⟩ := takes_of_finished? hruns hc
      rcases alt_of_takes hruns a _ hends with rfl | rfl
      · rfl
      · exact hfirst (hless [] hends)
  | cons u us ih =>
    rcases dominated_step h hless hc with rfl | ⟨hruns, hless, hc⟩
    · rfl
    · exact ih hruns (next_dominated hless) hc

/-- What the alternatives of an inner decision admit, given what those of an outer one do: the first
ones agree, and the second one of the inner decision admits all that the outer decision does. -/
structure Shadows (outer inner : Nat → List Kind → Prop) (w : List Kind) : Prop where
  one : inner 1 w ↔ outer 1 w
  two : inner 2 w ↔ outer 1 w ∨ outer 2 w

section Shadows

variable {outer inner : Nat → List Kind → Prop}

/-- An end is reached with a token, or was before it. -/
theorem Shadows.next_nil (hnil : Shadows outer inner []) (h : Shadows outer inner [k])
    (hout : ∀ a w, outer a w → a = 1 ∨ a = 2) (hin : ∀ a w, inner a w → a = 1 ∨ a = 2) :
    Shadows (next outer k) (next inner k) [] := by
  have hlate : (∀ b, ¬ inner b [k]) ↔ ∀ b, ¬ outer b [k] := by
    constructor
    · intro hno b hb
      rcases hout b _ hb with rfl | rfl
      · exact hno 1 (h.one.mpr hb)
      · exact hno 2 (h.two.mpr (.inr hb))
    · intro hno b hb
      rcases hin b _ hb with rfl | rfl
      · exact hno 1 (h.one.mp hb)
      · exact (h.two.mp hb).elim (hno 1) (hno 2)
  constructor
  · simp only [Decision.next, h.one, hnil.one, hlate]
  · simp only [Decision.next, h.two, hnil.two, hlate]
    tauto

/-- What goes on after a token has begun with it. -/
theorem Shadows.next_cons {j : Kind} {v : List Kind} (h : Shadows outer inner (k :: j :: v)) :
    Shadows (next outer k) (next inner k) (j :: v) := by
  constructor
  · simp only [Decision.next, h.one]
  · simp only [Decision.next, h.two, and_or_left]

theorem Shadows.next (hnil : Shadows outer inner []) (h : ∀ v, Shadows outer inner (k :: v))
    (hout : ∀ a w, outer a w → a = 1 ∨ a = 2) (hin : ∀ a w, inner a w → a = 1 ∨ a = 2)
    (w : List Kind) : Shadows (next outer k) (next inner k) w := by
  cases w with
  | nil => exact hnil.next_nil (h []) hout hin
  | cons j v => exact (h _).next_cons

end Shadows

/-- Where two alternatives are left, the first one is. -/
private theorem exists_alt_one (h : ∀ c ∈ cs, c.Runs out) (hne : cs ≠ []) (honly : only? cs = none) :
    ∃ c ∈ cs, c.alt = 1 := by
  cases cs with
  | nil => exact absurd rfl hne
  | cons c cs =>
    simp only [only?, ite_eq_right_iff, reduceCtorEq, imp_false, List.all_eq_true, beq_iff_eq,
      not_forall] at honly
    obtain ⟨d, hd, hother⟩ := honly
    have hmem := List.mem_cons_of_mem c hd
    rcases (h c List.mem_cons_self).alt with hc | hc
    · exact ⟨c, List.mem_cons_self, hc⟩
    · exact ⟨d, hmem, (h d hmem).alt.resolve_right fun hd => hother (hd.trans hc.symm)⟩

/-- If the first alternative comes out, it is left after the next token, and then it admits all that
the second one does, or both are followed further. -/
private theorem first_cases (h : ∀ c ∈ cs, c.Runs out)
    (hc : (followActual depth cs (t :: ts)).1.choice? = some 1) :
    (∃ w, next (Takes cs) t.kind 1 w) ∧
      ((∀ w, next (Takes cs) t.kind 2 w → next (Takes cs) t.kind 1 w) ∨
        only? (advance false cs t.kind) = none ∧
          (followActual (depth + 1) (advance false cs t.kind) ts).1.choice? = some 1) := by
  rw [followActual] at hc
  split at hc
  · rename_i hnil
    exact absurd (takes_of_finished? h hc).1 (not_takes_of_advance_eq_nil h hnil)
  · rename_i hne
    split at hc
    · rename_i honly
      obtain rfl := Option.some.inj hc
      obtain ⟨c, hmem, halt⟩ := exists_of_only? honly
      refine ⟨(exists_alt_advance h).mp ⟨c, hmem, halt⟩, .inl fun w hw => ?_⟩
      obtain ⟨d, hd, hdalt⟩ := (exists_alt_advance h).mpr ⟨w, hw⟩
      rw [alt_eq_of_only? honly hd] at hdalt
      cases hdalt
    all_goals
      rename_i hnone hwinner
      obtain ⟨hruns, htakes⟩ := takes_advance h hnone
      refine ⟨(exists_alt_advance h).mp (exists_alt_one hruns hne hnone), ?_⟩
    · obtain rfl := Option.some.inj hc
      refine .inl fun w hw => ?_
      rw [← htakes] at hw ⊢
      obtain ⟨c, hmem, -, hadmits⟩ := hw
      obtain ⟨-, d, hd, hdalt, hpoint, hcallers⟩ := twin_of_winner? hwinner hmem
      refine ⟨d, hd, hdalt, ?_⟩
      rwa [Admits, hpoint, hcallers]
    · exact .inr ⟨hnone, hc⟩

/-- One token of two decisions: the first alternative of the inner one comes out, or both decisions go
on with the same relation between them. -/
private theorem first_step {ds : List Config} {depth' : Nat} (h : ∀ c ∈ cs, c.Runs out)
    (h' : ∀ c ∈ ds, c.Runs out)
    (hs : ∀ w, Shadows (next (Takes cs) t.kind) (next (Takes ds) t.kind) w)
    (houter : (followActual depth cs (t :: ts)).1.choice? = some 1)
    (hinner : (followActual depth' ds (t :: ts)).1.choice? = some a) :
    a = 1 ∨ (∀ c ∈ advance false cs t.kind, c.Runs out) ∧ (∀ c ∈ advance false ds t.kind, c.Runs out) ∧
      (∀ w, Shadows (Takes (advance false cs t.kind)) (Takes (advance false ds t.kind)) w) ∧
      (followActual (depth + 1) (advance false cs t.kind) ts).1.choice? = some 1 ∧
      (followActual (depth' + 1) (advance false ds t.kind) ts).1.choice? = some a := by
  obtain ⟨⟨w, hw⟩, hless | ⟨honly, houter⟩⟩ := first_cases h houter
  · refine .inl (first_of_dominated h' (fun v hv => ?_) hinner)
    exact (hs v).one.mpr (((hs v).two.mp hv).elim id (hless v))
  · refine (follow_step h' ((hs w).one.mpr hw) hinner).imp id fun ⟨honly', hinner⟩ => ?_
    obtain ⟨hruns, htakes⟩ := takes_advance h honly
    obtain ⟨hruns', htakes'⟩ := takes_advance h' honly'
    rw [← htakes, ← htakes'] at hs
    exact ⟨hruns, hruns', hs, houter, hinner⟩

/-- If the first alternative of an outer decision comes out, so does that of an inner one, provided
that they agree in what they admit after the next token. -/
theorem first_of_shadows {ds : List Config} {depth' : Nat} (h : ∀ c ∈ cs, c.Runs out)
    (h' : ∀ c ∈ ds, c.Runs out)
    (hs : ∀ w, Shadows (next (Takes cs) t.kind) (next (Takes ds) t.kind) w)
    (houter : (followActual depth cs (t :: ts)).1.choice? = some 1)
    (hinner : (followActual depth' ds (t :: ts)).1.choice? = some a) : a = 1 := by
  induction ts generalizing cs ds t depth depth' with
  | nil =>
    rcases first_step h h' hs houter hinner with rfl | ⟨hruns, hruns', hs, houter, hinner⟩
    · rfl
    · exact (takes_of_finished? hruns' hinner).2 ((hs []).one.mpr (takes_of_finished? hruns houter).1)
  | cons u us ih =>
    rcases first_step h h' hs houter hinner with rfl | ⟨hruns, hruns', hs, houter, hinner⟩
    · rfl
    · refine ih hruns hruns' ((hs []).next (fun v => hs _) ?_ ?_) houter hinner
      · exact alt_of_takes hruns
      · exact alt_of_takes hruns'

/-- They may also agree only after two tokens, if the next one leaves the first alternative of the
inner decision. -/
theorem first_of_shadows_second {u : Token} {ds : List Config} {depth' : Nat}
    (h : ∀ c ∈ cs, c.Runs out) (h' : ∀ c ∈ ds, c.Runs out) {w : List Kind}
    (hw : next (Takes ds) t.kind 1 w)
    (hs : ∀ w, Shadows (next (next (Takes cs) t.kind) u.kind) (next (next (Takes ds) t.kind) u.kind) w)
    (houter : (followActual depth cs (t :: u :: ts)).1.choice? = some 1)
    (hinner : (followActual depth' ds (t :: u :: ts)).1.choice? = some a) : a = 1 := by
  rcases follow_step h' hw hinner with rfl | ⟨honly', hinner⟩
  · rfl
  · obtain ⟨hruns', htakes'⟩ := takes_advance h' honly'
    rw [← htakes'] at hs
    obtain ⟨-, hless | ⟨honly, houter⟩⟩ := first_cases h houter
    · refine first_of_dominated hruns' (fun v hv => ?_) hinner
      exact (hs v).one.mpr (((hs v).two.mp hv).elim id (next_dominated hless v))
    · obtain ⟨hruns, htakes⟩ := takes_advance h honly
      rw [← htakes] at hs
      exact first_of_shadows hruns hruns' hs houter hinner

end Decision

end ResourceNames.Java
