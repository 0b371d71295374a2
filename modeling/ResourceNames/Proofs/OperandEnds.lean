import ResourceNames.Proofs.Rivals

/-!
Where an operand ends and the expression around it goes on.

After an operand it is decided twice before the same tokens whether a tail follows: first for the
operand, and if that ends, for the expression around it. If every tail that can begin with the next
token binds tightly enough for both, the two decisions are the same, so that the operand would not
have ended. Without knowledge of the callers nothing tells the two apart after the next token. Under
the actual callers the end of the operand admits what the expression around it admits in any way, and
this is the relation between two decisions under which the outer one is followed by the inner one.
-/
namespace ResourceNames.Java

open Computability Layout

-- What the tables hold is known from lemmas. Comparing terms must not evaluate them.
attribute [local irreducible] Reach.point Item.ofPoint Item.owner

namespace Config

variable {anyCaller : Bool} {c d : Config} {cs ds : List Config} {k : Kind}

/-! ### Configurations in their order -/

/-- The order in which configurations are listed. -/
def Precedes (c d : Config) : Prop := c.point < d.point ∨ c.point = d.point ∧ c.alt < d.alt

private theorem place_of_precedes (h : ∀ d ∈ ds, Precedes c d) : place anyCaller c ds = c :: ds := by
  cases ds with
  | nil => rfl
  | cons d ds =>
    have hd := h d List.mem_cons_self
    have hsame : c.sameWay d = false := by
      rw [sameWay, Bool.and_eq_false_iff, beq_eq_false_iff_ne, beq_eq_false_iff_ne]
      rcases hd with hd | hd
      · exact .inl (Nat.ne_of_lt hd)
      · exact .inr (Nat.ne_of_lt hd.2)
    have hbefore : c.before d = true := by
      simp only [before, Bool.or_eq_true, decide_eq_true_eq, Bool.and_eq_true, beq_iff_eq]
      exact hd.imp id fun hd => ⟨hd.1, Nat.le_of_lt hd.2⟩
    simp [place, hsame, hbefore]

private theorem precedes_of_not_before (hbefore : ¬ c.before d = true) : Precedes d c := by
  simp only [before, Bool.and_eq_true, Bool.or_eq_true, beq_iff_eq, decide_eq_true_eq] at hbefore
  rcases Nat.lt_trichotomy d.point c.point with hlt | heq | hlt
  · exact .inl hlt
  · exact .inr ⟨heq, Nat.lt_of_not_le fun hle => hbefore (.inr ⟨heq.symm, hle⟩)⟩
  · exact absurd (.inl hlt) hbefore

private theorem precedes_of_before (hsame : ¬ c.sameWay d = true) (hbefore : c.before d = true) :
    Precedes c d := by
  simp only [sameWay, before, Bool.and_eq_true, Bool.or_eq_true, beq_iff_eq, decide_eq_true_eq] at *
  exact hbefore.imp id fun h => ⟨h.1, Nat.lt_of_le_of_ne h.2 fun halt => hsame ⟨h.1, halt⟩⟩

private theorem Precedes.trans {e : Config} (h : Precedes c d) (h' : Precedes d e) : Precedes c e := by
  rcases h with h | ⟨hpoint, halt⟩
  · rcases h' with h' | ⟨hpoint', -⟩
    · exact .inl (Nat.lt_trans h h')
    · exact .inl (hpoint' ▸ h)
  · rcases h' with h' | ⟨hpoint', halt'⟩
    · exact .inl (hpoint ▸ h')
    · exact .inr ⟨hpoint.trans hpoint', Nat.lt_trans halt halt'⟩

private theorem pairwise_place (h : ds.Pairwise Precedes) :
    (place anyCaller c ds).Pairwise Precedes := by
  induction ds with
  | nil => simp [place]
  | cons d ds ih =>
    rw [List.pairwise_cons] at h
    rw [place]
    split
    · rename_i hs
      simp only [sameWay, Bool.and_eq_true, beq_iff_eq] at hs
      refine List.pairwise_cons.mpr ⟨fun e he => ?_, h.2⟩
      have hd := h.1 e he
      rwa [Precedes, ← hs.1, ← hs.2] at hd
    · rename_i hsame
      split
      · rename_i hbefore
        have hcd := precedes_of_before hsame hbefore
        refine List.pairwise_cons.mpr ⟨fun e he => ?_, List.pairwise_cons.mpr h⟩
        rcases List.mem_cons.mp he with rfl | he
        · exact hcd
        · exact hcd.trans (h.1 e he)
      · rename_i hbefore
        refine List.pairwise_cons.mpr ⟨fun e he => ?_, ih h.2⟩
        obtain ⟨x, hx, hpoint, halt, -⟩ := mem_place he
        have hdx : Precedes d x := by
          rcases List.mem_cons.mp hx with rfl | hx
          · exact precedes_of_not_before hbefore
          · exact h.1 x hx
        rwa [Precedes, hpoint, halt] at hdx

theorem pairwise_gather (anyCaller : Bool) (cs : List Config) :
    (gather anyCaller cs).Pairwise Precedes := by
  induction cs with
  | nil => simp [gather]
  | cons c cs ih => exact pairwise_place ih

private theorem filter_place (f : Point → Bool) (h : ds.Pairwise Precedes) :
    (place anyCaller c ds).filter (fun e => f e.point) =
      if f c.point then place anyCaller c (ds.filter fun e => f e.point)
      else ds.filter fun e => f e.point := by
  induction ds with
  | nil => cases hc : f c.point <;> simp [place, hc]
  | cons d ds ih =>
    obtain ⟨hd, hds⟩ := List.pairwise_cons.mp h
    rw [place]
    split
    · rename_i hs
      have hpoint : c.point = d.point := by
        simp only [sameWay, Bool.and_eq_true, beq_iff_eq] at hs
        exact hs.1
      have hmerge : (c.merge anyCaller d).point = d.point := hpoint
      cases hf : f d.point <;> simp [hmerge, hpoint, hf, place, hs]
    · rename_i hsame
      split
      · rename_i hbefore
        have hcd := precedes_of_before hsame hbefore
        cases hf : f c.point with
        | false => simp [List.filter_cons, hf]
        | true =>
          have hall : ∀ e ∈ (d :: ds).filter fun e => f e.point, Precedes c e := by
            intro e he
            rcases List.mem_cons.mp (List.mem_filter.mp he).1 with rfl | he
            · exact hcd
            · exact hcd.trans (hd e he)
          rw [if_pos rfl, place_of_precedes hall, List.filter_cons, if_pos hf]
      · rename_i hbefore
        have ih := ih hds
        cases hf : f d.point with
        | false => simpa [List.filter_cons, hf] using ih
        | true =>
          rw [List.filter_cons, List.filter_cons, if_pos hf, if_pos hf, ih]
          split
          · rw [place, if_neg hsame, if_neg hbefore]
          · rfl

/-- Putting together only the configurations at some points is the same before and after. -/
theorem filter_gather (f : Point → Bool) (cs : List Config) :
    (gather anyCaller cs).filter (fun e => f e.point) =
      gather anyCaller (cs.filter fun e => f e.point) := by
  induction cs with
  | nil => rfl
  | cons c cs ih =>
    have hgather : gather anyCaller (c :: cs) = place anyCaller c (gather anyCaller cs) := rfl
    rw [hgather, filter_place f (pairwise_gather anyCaller cs), ih]
    cases hf : f c.point with
    | false => simp [hf]
    | true => simp [hf, gather]

/-! ### The configurations that can read a token -/

theorem isSome_read? (k : Kind) (c : Config) :
    (read? k c).isSome = (Follow.kindsAt c.point).contains k := by
  unfold read? Follow.kindsAt
  generalize Item.ofPoint c.point = i
  cases i with
  | token ks next =>
    dsimp only
    split <;> simp_all
  | silent | call => rfl

private theorem filterMap_read? (k : Kind) (cs : List Config) :
    cs.filterMap (read? k) =
      (cs.filter fun c => (Follow.kindsAt c.point).contains k).filterMap (read? k) := by
  rw [List.filterMap_filter]
  refine List.filterMap_congr fun c _ => ?_
  rw [← isSome_read?]
  cases read? k c <;> rfl

/-- Before the end of the input only what can read the next token matters. -/
theorem advance_filter (hne : k ≠ .eof) (cs : List Config) :
    advance true (cs.filter fun c => (Follow.kindsAt c.point).contains k) k = advance true cs k := by
  have hinside : (true && k != .eof) = true := by simpa using hne
  simp only [advance, ← filterMap_read?, hinside, if_true]

end Config

namespace Decision

open Config

variable {r : Rule} {ops : Operators} {p b : Nat} {k : Kind}

/-- Which configurations of the end of an expression are left besides those of a further tail. -/
def keeps (all : List Config) (c : Config) : Bool :=
  c.alt == 1 || c.whole || !all.any fun d => d.alt == 1 && d.point == c.point && d.callers == c.callers

private theorem startAgain_true (callers : Callers) :
    startAgain true callers r ops p =
      (gather true (((ops.tails.filter fun t => p ≤ t.1).flatMap fun t =>
        spread true 1 false t.2.entry callers) ++ beyond true 2 false r callers)).filter
        (keeps (gather true (((ops.tails.filter fun t => p ≤ t.1).flatMap fun t =>
          spread true 1 false t.2.entry callers) ++ beyond true 2 false r callers))) := rfl

/-- What is left at some points depends on the configurations at these points. -/
private theorem filter_keeps (f : Point → Bool) (all : List Config) :
    (all.filter (keeps all)).filter (fun c => f c.point) =
      (all.filter fun c => f c.point).filter (keeps (all.filter fun c => f c.point)) := by
  rw [List.filter_filter, List.filter_filter]
  refine List.filter_congr fun c _ => ?_
  cases hf : f c.point with
  | false => simp
  | true =>
    have hany : ((all.filter fun c => f c.point).any fun d =>
        d.alt == 1 && d.point == c.point && d.callers == c.callers) =
        all.any fun d => d.alt == 1 && d.point == c.point && d.callers == c.callers := by
      rw [List.any_filter]
      refine List.any_congr rfl fun d => ?_
      by_cases hpoint : d.point = c.point
      · simp [hpoint, hf]
      · simp [hpoint]
    rw [Bool.true_and, Bool.and_true, keeps, keeps, hany]

theorem flatMap_filter_of_eq_nil {α β : Type} {f : α → List β} {q : α → Bool} {l : List α}
    (h : ∀ x ∈ l, q x ≠ true → f x = []) : (l.filter q).flatMap f = l.flatMap f := by
  induction l with
  | nil => rfl
  | cons x l ih =>
    rw [List.forall_mem_cons] at h
    rw [List.filter_cons]
    split
    · rw [List.flatMap_cons, List.flatMap_cons, ih h.2]
    · rename_i hx
      rw [List.flatMap_cons, h.1 hx, List.nil_append, ih h.2]

/-- A token that is met where a tail begins begins the tail. -/
theorem begins_of_mem_spread (ho : (ruleForm r).body = .operators ops) {u : Nat × Form}
    (hu : u ∈ ops.tails) {c : Config} (hc : c ∈ spread true 1 false u.2.entry .bottom)
    (hk : (Follow.kindsAt c.point).contains k = true) : Begins k (rest u.2.entry) := by
  rw [← isSome_read?] at hk
  have hentry := (sits_tail ho hu).stands_entry
  refine begins_of_fits (t := { (default : Token) with kind := k }) hentry.mem ?_ hc rfl id
    (.inr ⟨_, [], rfl, hk⟩)
  rw [hentry.rest]
  exact (Operators.leads ho hu).nil_not_mem _

/-- The tails of too low a level are no loss before a token with which none of them begins. -/
private theorem filter_further (ho : (ruleForm r).body = .operators ops)
    (hhigh : ∀ u ∈ ops.tails, Begins k (rest u.2.entry) → p ≤ u.1) :
    ((ops.tails.filter fun u => p ≤ u.1).flatMap fun u => spread true 1 false u.2.entry .bottom).filter
      (fun c => (Follow.kindsAt c.point).contains k) =
    (ops.tails.flatMap fun u => spread true 1 false u.2.entry .bottom).filter
      fun c => (Follow.kindsAt c.point).contains k := by
  rw [List.filter_flatMap, List.filter_flatMap]
  refine flatMap_filter_of_eq_nil fun u hu hlow => ?_
  refine List.filter_eq_nil_iff.mpr fun c hc hk => hlow (decide_eq_true (hhigh u hu ?_))
  exact begins_of_mem_spread ho hu hc hk

/-- Before a further tail or the end of an expression, where a token can be read. -/
theorem filter_startAgain (k : Kind) :
    (startAgain true .bottom r ops p).filter (fun c => (Follow.kindsAt c.point).contains k) =
      let all := gather true
        ((((ops.tails.filter fun t => p ≤ t.1).flatMap fun t =>
          spread true 1 false t.2.entry .bottom).filter fun c => (Follow.kindsAt c.point).contains k) ++
          (beyond true 2 false r .bottom).filter fun c => (Follow.kindsAt c.point).contains k)
      all.filter (keeps all) := by
  rw [startAgain_true, filter_keeps (Follow.kindsAt · |>.contains k),
    filter_gather (Follow.kindsAt · |>.contains k), List.filter_append]

/-- Without knowledge of the callers the next token leaves the same configurations for two levels, if
all tails that begin with it have both. -/
theorem advance_startAgain (ho : (ruleForm r).body = .operators ops)
    (hagree : ∀ u ∈ ops.tails, Begins k (rest u.2.entry) → p ≤ u.1 ∧ b ≤ u.1) (hne : k ≠ .eof) :
    advance true (startAgain true .bottom r ops p) k =
      advance true (startAgain true .bottom r ops b) k := by
  rw [← advance_filter hne, ← advance_filter hne (startAgain true .bottom r ops b),
    filter_startAgain, filter_startAgain, filter_further ho fun u hu hk => (hagree u hu hk).1,
    filter_further ho fun u hu hk => (hagree u hu hk).2]

/-! ### Under the actual callers -/

variable {out : Rule} {σ : List Point} {a : Nat}

theorem runs_startAgain (ho : (ruleForm r).body = .operators ops) (hl : Leads r σ out) :
    ∀ c ∈ startAgain false (.ofStack σ) r ops p, c.Runs out := by
  have hu : (Callers.ofStack σ).Under out r := Callers.under_ofStack hl
  refine forall_mem_gather (fun c d hs hc hd => hc.merge hs hd) fun c hc => ?_
  rcases List.mem_append.mp hc with hc | hc
  · obtain ⟨u, hmem, -, hc⟩ := mem_further.mp hc
    exact runs_of_mem_spread (stands_entry ho hmem).1 hu (.inl rfl) hc
  · exact runs_of_mem_beyond hu (.inr rfl) hc

/-- The first alternative admits what begins with a tail of the level, the second one what follows the
expression. -/
theorem takes_startAgain (ho : (ruleForm r).body = .operators ops) (hl : Leads r σ out)
    {w : List Kind} :
    Takes (startAgain false (.ofStack σ) r ops p) a w ↔
      a = 1 ∧ TailFollows ops p σ w ∨ a = 2 ∧ w ∈ rests σ := by
  have hu : (Callers.ofStack σ).Under out r := Callers.under_ofStack hl
  have hstart : startAgain false (.ofStack σ) r ops p =
      gather false (((ops.tails.filter fun u => p ≤ u.1).flatMap fun u =>
        spread false 1 false u.2.entry (.ofStack σ)) ++ beyond false 2 false r (.ofStack σ)) := rfl
  rw [hstart, takes_gather, takes_append, takes_beyond hu]
  refine or_congr ?_ (by simp)
  constructor
  · rintro ⟨c, hc, rfl, hw⟩
    obtain ⟨u, hmem, hlevel, hc⟩ := mem_further.mp hc
    obtain ⟨halt, τ, hτ, hw⟩ := (takes_spread (stands_entry ho hmem).1 hu).mp ⟨c, hc, rfl, hw⟩
    exact ⟨halt, u, hmem, hlevel, Callers.mem_toList_ofStack.mp hτ ▸ hw⟩
  · rintro ⟨rfl, u, hmem, hlevel, hw⟩
    obtain ⟨c, hc, halt, hw⟩ : Takes (spread false 1 false u.2.entry (.ofStack σ)) 1 w :=
      (takes_spread (stands_entry ho hmem).1 hu).mpr ⟨rfl, σ, by simp, hw⟩
    exact ⟨c, mem_further.mpr ⟨u, hmem, hlevel, hc⟩, halt, hw⟩

private theorem salvage_again {last : List Config} {depth : Nat} :
    (again r ops p).salvage last depth = .ok a ↔ finished? last = some a := by
  have hall : last.filter (fun c => (again r ops p).permits c.alt) = last :=
    List.filter_eq_self.mpr fun _ _ => rfl
  have hnone : last.filter (fun c => !(again r ops p).permits c.alt) = [] :=
    List.filter_eq_nil_iff.mpr fun _ _ => by simp [permits]
  rw [salvage, hall, hnone]
  cases finished? last with
  | some b => simp
  | none => simp [finished?, alts, least?]

private theorem decideActual_again {ts : List Token} :
    ((again r ops p).decideActual σ ts).choice = .ok a ↔
      (followActual 0 (startAgain false (.ofStack σ) r ops p) ts).1.choice? = some a := by
  have hstart : (again r ops p).start false (.ofStack σ) = startAgain false (.ofStack σ) r ops p := rfl
  unfold decideActual
  rw [hstart]
  generalize followActual 0 (startAgain false (.ofStack σ) r ops p) ts = o
  obtain ⟨_ | _ | _, depth⟩ := o
  · simp [Outcome.choice?]
  · simp [Outcome.choice?]
  · simp [Outcome.choice?, salvage_again]

/-- How it comes out whether a tail follows: without knowledge of the callers, or if this leaves both
alternatives, under the actual ones. -/
theorem decide_again {ts : List Token} :
    ((again r ops p).decide σ ts).choice = .ok a ↔
      (followAny 0 (startAgain true .bottom r ops p) ts).1.choice? = some a ∨
        (∃ as, (followAny 0 (startAgain true .bottom r ops p) ts).1 = .several as) ∧
          (followActual 0 (startAgain false (.ofStack σ) r ops p) ts).1.choice? = some a := by
  have hstart : (again r ops p).start true .bottom = startAgain true .bottom r ops p := rfl
  unfold Decision.decide
  rw [hstart]
  generalize followAny 0 (startAgain true .bottom r ops p) ts = o
  obtain ⟨b | as | last, depth⟩ := o
  · simp [Outcome.choice?, permits]
  · simp [Outcome.choice?, decideActual_again]
  · simp [Outcome.choice?, salvage_again]

/-- A further tail that fits the tokens ahead begins with the next one. -/
private theorem begins_of_mem_startAgain {anyCaller : Bool} {callers : Callers} {c : Config}
    {t : Token} {ts : List Token} (ho : (ruleForm r).body = .operators ops)
    (hc : c ∈ startAgain anyCaller callers r ops p) (hone : c.alt = 1) (hf : c.Fits (t :: ts)) :
    ∃ u ∈ ops.tails, p ≤ u.1 ∧ Begins t.kind (rest u.2.entry) := by
  have hall : c ∈ gather anyCaller (((ops.tails.filter fun u => p ≤ u.1).flatMap fun u =>
      spread anyCaller 1 false u.2.entry callers) ++ beyond anyCaller 2 false r callers) := by
    unfold startAgain at hc
    dsimp only at hc
    split at hc
    · exact (List.mem_filter.mp hc).1
    · exact hc
  obtain ⟨d, hd, hpoint, halt, hleft⟩ := mem_gather hall
  rcases List.mem_append.mp hd with hd | hd
  · obtain ⟨u, hu, hlevel, hd⟩ := mem_further.mp hd
    have hentry := (sits_tail ho hu).stands_entry
    refine ⟨u, hu, hlevel, begins_of_fits hentry.mem ?_ hd hpoint hleft hf⟩
    rw [hentry.rest]
    exact (Operators.leads ho hu).nil_not_mem _
  · rw [← halt, alt_of_mem_beyond hd] at hone
    cases hone

/-- A tail is not taken for want of tokens that go on. -/
private theorem finished?_startAgain {anyCaller : Bool} {callers : Callers}
    (ho : (ruleForm r).body = .operators ops) :
    finished? (startAgain anyCaller callers r ops p) ≠ some 1 := by
  intro hf
  obtain ⟨c, hc, hone, hends⟩ := exists_of_finished? hf
  -- What has ended fits even the end of the input, with which no tail begins.
  have hfits : c.Fits [{ (default : Token) with kind := .eof }] := .inl hends
  obtain ⟨u, hu, -, hbegins⟩ := begins_of_mem_startAgain ho hc hone hfits
  rw [(sits_tail ho hu).stands_entry.rest] at hbegins
  exact ((Operators.leads ho hu).begins hbegins).2 rfl

/-! ### The operand and the expression around it -/

variable {ret : Point} {t : Token} {ts : List Token}

/-- After an operand the tails of the expression around it are left to read. -/
theorem rests_operandEnd (ho : (ruleForm r).body = .operators ops) (hl : Leads r (ret :: σ) out)
    (hend : isOperandEnd ret = true) :
    Leads r σ out ∧ rests (ret :: σ) = ops.tailLanguage∗ * rests σ := by
  obtain ⟨⟨level, hsite⟩, hl⟩ := hl
  obtain ⟨hoperators, hrest⟩ := rest_of_isOperandEnd (Follow.proper_of_mem_sites hsite).mem hend
  have howner := Follow.eq_of_hasOperators hoperators (Reach.hasOperators_of_body ho)
  rw [howner] at hl hrest
  exact ⟨hl, by rw [rests_cons, hrest, Rule.tailLanguage_eq ho]⟩

/-- A tail may as well be read for the operand as for the expression around it. -/
theorem rests_entry_operandEnd (ho : (ruleForm r).body = .operators ops)
    (hl : Leads r (ret :: σ) out) (hend : isOperandEnd ret = true) {u : Nat × Form}
    (hu : u ∈ ops.tails) : rests (u.2.entry :: ret :: σ) = rests (u.2.entry :: σ) := by
  rw [rests_cons, (rests_operandEnd ho hl hend).2, (sits_tail ho hu).stands_entry.rest, rests_cons,
    (sits_tail ho hu).stands_entry.rest, mul_assoc, ← mul_assoc (ops.tailLanguage∗), kstar_mul_kstar,
    mul_assoc]

theorem begins_entry (ho : (ruleForm r).body = .operators ops) {u : Nat × Form}
    (hu : u ∈ ops.tails) {k : Kind} {v : List Kind} (hw : k :: v ∈ rests (u.2.entry :: σ)) :
    Begins k (rest u.2.entry) := by
  rw [rests_cons] at hw
  refine (Begins.of_mul ⟨v, hw⟩).resolve_right ?_
  rintro ⟨hnil, -⟩
  rw [(sits_tail ho hu).stands_entry.rest] at hnil
  exact (Operators.leads ho hu).nil_not_mem _ hnil

theorem nil_not_mem_entry (ho : (ruleForm r).body = .operators ops) {u : Nat × Form}
    (hu : u ∈ ops.tails) : [] ∉ rests (u.2.entry :: σ) := by
  rw [rests_cons, (sits_tail ho hu).stands_entry.rest, mul_assoc]
  exact (Operators.leads ho hu).nil_not_mem _

/-- The end of the operand admits what the expression around it admits in any way, where all tails
have the levels of both. -/
theorem shadows_operandEnd (ho : (ruleForm r).body = .operators ops)
    (hl : Leads r (ret :: σ) out) (hend : isOperandEnd ret = true) {w : List Kind}
    (hagree : ∀ u ∈ ops.tails, w ∈ rests (u.2.entry :: σ) → p ≤ u.1 ∧ b ≤ u.1) :
    Shadows (Takes (startAgain false (.ofStack σ) r ops p))
      (Takes (startAgain false (.ofStack (ret :: σ)) r ops b)) w := by
  obtain ⟨hσ, hrests⟩ := rests_operandEnd ho hl hend
  have htails : ∀ q, (∀ u ∈ ops.tails, w ∈ rests (u.2.entry :: σ) → q ≤ u.1) →
      (TailFollows ops q σ w ↔ ∃ u ∈ ops.tails, w ∈ rests (u.2.entry :: σ)) := fun q hq =>
    ⟨fun ⟨u, hu, _, hw⟩ => ⟨u, hu, hw⟩, fun ⟨u, hu, hw⟩ => ⟨u, hu, hq u hu hw, hw⟩⟩
  have hinner : TailFollows ops b (ret :: σ) w ↔ TailFollows ops b σ w :=
    exists_congr fun u => and_congr_right fun hu => by
      rw [rests_entry_operandEnd ho hl hend hu]
  have hends : w ∈ rests (ret :: σ) ↔
      (∃ u ∈ ops.tails, w ∈ rests (u.2.entry :: σ)) ∨ w ∈ rests σ := by
    rw [hrests, ← Language.one_add_self_mul_kstar_eq_kstar, add_mul, one_mul, Language.mem_add,
      or_comm]
    refine or_congr_left ⟨fun hw => ?_, ?_⟩
    · obtain ⟨u, hu, hw⟩ := exists_mem_tail ho hw
      exact ⟨u, hu, (rests_cons _ _).symm ▸ hw⟩
    · rintro ⟨u, hu, hw⟩
      rw [rests_cons, (sits_tail ho hu).stands_entry.rest] at hw
      obtain ⟨_, hxy, v, hv, rfl⟩ := Language.mem_mul.mp hw
      obtain ⟨x, hx, y, hy, rfl⟩ := Language.mem_mul.mp hxy
      have hx : x ∈ ops.tailLanguage := Form.mem_languageAny.mpr ⟨u.2, List.mem_map_of_mem hu, hx⟩
      exact Language.append_mem_mul (Language.append_mem_mul hx hy) hv
  constructor
  · simp [takes_startAgain ho hσ, takes_startAgain ho hl, hinner,
      htails p fun u hu hw => (hagree u hu hw).1, htails b fun u hu hw => (hagree u hu hw).2]
  · simp [-rests_cons, takes_startAgain ho hσ, takes_startAgain ho hl, hends,
      htails p fun u hu hw => (hagree u hu hw).1]

/-- Configurations that the next token leaves alike are followed alike. -/
private theorem followAny_congr {cs ds : List Config} {depth : Nat}
    (h : advance true cs t.kind = advance true ds t.kind) (hne : advance true ds t.kind ≠ []) :
    followAny depth cs (t :: ts) = followAny depth ds (t :: ts) := by
  rw [followAny, followAny, h]
  split
  · rename_i hnil
    exact absurd hnil hne
  · rfl

/-- If all tails that begin with the next token have the levels of an operand and of the expression
around it, then the operand goes on whenever the expression does. -/
theorem again_operand (ho : (ruleForm r).body = .operators ops) (hl : Leads r (ret :: σ) out)
    (hend : isOperandEnd ret = true)
    (hagree : ∀ u ∈ ops.tails, Begins t.kind (rest u.2.entry) → p ≤ u.1 ∧ b ≤ u.1)
    (hne : t.kind ≠ .eof) (houter : ((again r ops p).decide σ (t :: ts)).choice = .ok 1)
    (hinner : ((again r ops b).decide (ret :: σ) (t :: ts)).choice = .ok a) : a = 1 := by
  have hσ := (rests_operandEnd ho hl hend).1
  by_cases hnil : advance true (startAgain true .bottom r ops p) t.kind = []
  · rw [decide_again, followAny, hnil] at houter
    rcases houter with houter | ⟨⟨as, has⟩, -⟩
    · exact absurd houter (finished?_startAgain ho)
    · cases has
  have hsame := advance_startAgain ho hagree hne
  have hfollow : followAny 0 (startAgain true .bottom r ops p) (t :: ts) =
      followAny 0 (startAgain true .bottom r ops b) (t :: ts) :=
    followAny_congr hsame (hsame ▸ hnil)
  rw [decide_again] at houter hinner
  rw [hfollow] at houter
  rcases houter with houter | ⟨⟨as, has⟩, houter⟩
  · rcases hinner with hinner | ⟨⟨as, has⟩, -⟩
    · exact Option.some.inj (hinner.symm.trans houter)
    · rw [has] at houter
      cases houter
  · have hinner := hinner.resolve_left (by rw [has]; simp [Outcome.choice?])
    refine first_of_shadows (runs_startAgain ho hσ) (runs_startAgain ho hl)
      (Shadows.next ?_ (fun v => ?_) ?_ ?_) houter hinner.2
    · exact shadows_operandEnd ho hl hend fun u hu hw => absurd hw (nil_not_mem_entry ho hu)
    · exact shadows_operandEnd ho hl hend fun u hu hw => hagree u hu (begins_entry ho hu hw)
    · exact alt_of_takes (runs_startAgain ho hσ)
    · exact alt_of_takes (runs_startAgain ho hl)

/-- A tail that can be read to the end of a whole unit is read. -/
theorem again_of_tailFollows (ho : (ruleForm r).body = .operators ops) (hc : Chain r σ)
    (hts : Ended ts) (hw : TailFollows ops p σ (ts.map Token.kind))
    (h : ((again r ops p).decide σ ts).choice = .ok a) : a = 1 := by
  obtain ⟨c, hmem, hready, ha, hone⟩ := exists_mem_startAgain_tail hc ho hw
  have hkeeps := hone ▸ keeps_followAny 0 hts hmem hready ha
  rw [decide_again] at h
  generalize followAny 0 (startAgain true .bottom r ops p) ts = o at h hkeeps
  obtain ⟨b | as | last, depth⟩ := o
  · simp only [Outcome.Keeps] at hkeeps
    simpa [Outcome.choice?, hkeeps, eq_comm] using h
  · have h := h.resolve_left (by simp [Outcome.choice?])
    exact first_of_takes (runs_startAgain ho hc) (.inr hts)
      ((takes_startAgain ho hc).mpr (.inl ⟨rfl, hw⟩)) h.2
  · exact hkeeps.elim

end Decision

end ResourceNames.Java
