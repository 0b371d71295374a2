import Mathlib.Data.List.SplitBy
import ResourceNames.Proofs.Configurations
import ResourceNames.Proofs.TokenOrder

/-!
Looking ahead finds an alternative that can be read.

While the tokens ahead are followed, an alternative that accepts them all is never lost. So without
knowledge of the callers nothing but that alternative can come out alone. Under the actual callers
also nothing is added, and an alternative that cannot be told apart from one that accepts the tokens
accepts them too.
-/
namespace ResourceNames.Java

open Computability Layout

-- What the tables hold is known from lemmas. Comparing terms must not evaluate them.
attribute [local irreducible] Reach.point Item.ofPoint Item.owner

theorem Layout.IsToken.nil_not_mem {p : Point} (h : IsToken p) : [] ∉ rest p := by
  obtain ⟨-, kinds, next, -, -, hrest⟩ := h
  intro hw
  obtain ⟨k, -, v, -, hkv⟩ := (hrest []).mp hw
  cases hkv

namespace Config

variable {anyCaller : Bool} {c d : Config} {cs : List Config} {k : Kind} {v w : List Kind}
  {good : Nat → Prop}

/-! ### The end of the input -/

theorem Ready.mem (h : c.Ready) : c.point ∈ (ruleForm (Item.owner c.point)).points := by
  rcases h with h | h
  · exact h.1
  · rw [h, (stands_stop .compilationUnit).owner]
    exact (stands_stop .compilationUnit).mem

theorem Ready.isStop_iff (h : c.Ready) :
    isStop c.point = true ↔ c.point = stop .compilationUnit := by
  rw [isStop, beq_iff_eq]
  constructor
  · intro hstop
    rcases h with h | h
    · refine absurd ?_ h.nil_not_mem
      rw [hstop, (stands_stop _).rest]
      exact Language.nil_mem_one
    · exact h
  · intro hstop
    rw [hstop, (stands_stop .compilationUnit).owner]

theorem accepts_of_stop (hu : c.callers.Under .compilationUnit (Item.owner c.point))
    (hc : c.point = stop .compilationUnit) : c.Accepts false [] := by
  have hstop := stands_stop .compilationUnit
  rw [hc, hstop.owner] at hu
  refine ⟨[], ?_, [], fun _ => rfl, ?_, ?_⟩
  · rw [hu.eq_bottom]
    exact Callers.mem_toList_bottom.mpr rfl
  · rw [hc, hstop.owner]
    rfl
  · rw [hc, List.append_nil, rests_cons, hstop.rest, rests_nil, one_mul]
    exact Language.nil_mem_one

/-! ### Reading a token -/

theorem read?_of_token {kinds : List Kind} {next : Point}
    (h : Item.ofPoint c.point = .token kinds next) :
    read? k c = if kinds.contains k then some { c with point := next } else none := by
  unfold read?
  generalize Item.ofPoint c.point = i at h
  subst h
  rfl

/-- The configuration after a token with which it can go on. -/
private theorem exists_read? {out : Rule} (hc : c.Continues out anyCaller (k :: v)) :
    ∃ d, read? k c = some d ∧ d.alt = c.alt ∧
      d.point ∈ (ruleForm (Item.owner d.point)).points ∧
      ∃ σ ∈ d.callers.toList, ∃ stack, (anyCaller = false → stack = []) ∧
        Leads (Item.owner d.point) (σ ++ stack) out ∧ v ∈ rests (d.point :: (σ ++ stack)) := by
  rcases hc with ⟨htoken, σ, hσ, stack, hstack, hleads, hw⟩ | ⟨-, -, hnil⟩
  · obtain ⟨-, kinds, next, hitem, hnext, hrest⟩ := htoken
    have howner := Item.owner_of_mem hnext
    rw [rests_cons] at hw
    obtain ⟨u, hu, x, hx, hux⟩ := Language.mem_mul.mp hw
    obtain ⟨j, hj, y, hy, rfl⟩ := (hrest u).mp hu
    obtain ⟨rfl, rfl⟩ := List.cons.inj hux
    refine ⟨{ c with point := next }, ?_, rfl, ?_, σ, hσ, stack, hstack, ?_, ?_⟩
    · rw [read?_of_token hitem, if_pos (List.contains_iff_mem.mpr hj)]
    · rwa [howner]
    · rwa [howner]
    · rw [rests_cons]
      exact Language.append_mem_mul hy hx
  · cases hnil

/-- Whenever a configuration accepts the tokens that are left, its alternative is good. -/
structure Fair (good : Nat → Prop) (w : List Kind) (c : Config) : Prop where
  mem : c.point ∈ (ruleForm (Item.owner c.point)).points
  under : c.callers.Under .compilationUnit (Item.owner c.point)
  good : c.Accepts false w → good c.alt
  inside : w ≠ [] → c.point ≠ stop .compilationUnit

theorem Fair.merge (hs : c.sameWay d = true) (hc : c.Fair good w) (hd : d.Fair good w) :
    (c.merge false d).Fair good w := by
  simp only [sameWay, Bool.and_eq_true, beq_iff_eq] at hs
  obtain ⟨hpoint, halt⟩ := hs
  refine ⟨hc.mem, hc.under.union (hpoint ▸ hd.under), ?_, hc.inside⟩
  rintro ⟨σ, hσ, hrest⟩
  rcases Callers.mem_of_mem_union hσ with hσ | hσ
  · exact hc.good ⟨σ, hσ, hrest⟩
  · have hgood := hd.good ⟨σ, hσ, hpoint ▸ hrest⟩
    rwa [← halt] at hgood

private theorem Fair.read? (h : c.Fair good (k :: v)) (hready : c.Ready) (hk : k = .eof → v = [])
    (hd : read? k c = some d) : d.Fair good v := by
  have htoken := hready.resolve_right (h.inside (List.cons_ne_nil k v))
  have ⟨_, kinds, next, hitem, hnext, hrest⟩ := htoken
  have howner := Item.owner_of_mem hnext
  rw [read?_of_token hitem] at hd
  split at hd
  · rename_i hmem
    obtain rfl := Option.some.inj hd
    refine ⟨?_, ?_, ?_, ?_⟩
    · rwa [howner]
    · rw [howner]
      exact h.under
    · rintro ⟨σ, hσ, stack, hstack, hchain, hw⟩
      rw [howner] at hchain
      refine h.good ⟨σ, hσ, stack, hstack, hchain, ?_⟩
      rw [rests_cons] at hw ⊢
      obtain ⟨y, hy, x, hx, rfl⟩ := Language.mem_mul.mp hw
      exact Language.append_mem_mul (a := k :: y)
        ((hrest _).mpr ⟨k, List.contains_iff_mem.mp hmem, y, hy, rfl⟩) hx
    · intro hv hstop
      rw [show next = stop .compilationUnit from hstop] at hitem
      rw [htoken.eq_eof hitem] at hmem
      exact hv (hk (by simpa using hmem))
  · cases hd

theorem Fair.spread (h : d.Fair good v)
    (hc : c ∈ spread false d.alt d.left d.point d.callers) : c.Fair good v ∧ c.Ready := by
  have hfrom : ∀ u, c.Placed .compilationUnit ∧
      (c.Admits u → ∃ σ ∈ d.callers.toList, u ∈ rests (d.point :: σ)) :=
    fun u => of_mem_spread h.mem h.under hc
  have hready := (hfrom v).1.ready
  have hunder := (hfrom v).1.under
  refine ⟨⟨hready.mem, hunder, fun ha => ?_, fun hv hstop => ?_⟩, hready⟩
  · obtain ⟨σ, hσ, hw⟩ := (hfrom v).2 ha.admits
    rw [alt_of_mem_spread hc]
    refine h.good ⟨σ, hσ, [], fun _ => rfl, ?_, ?_⟩
    · rw [List.append_nil]
      exact h.under.leads hσ
    · rwa [List.append_nil]
  · obtain ⟨σ, hσ, hw⟩ := (hfrom []).2 (accepts_of_stop hunder hstop).admits
    exact nil_not_mem_rests h.mem (h.under.leads hσ) (h.inside hv) hw

theorem alt_eq_of_only? {a : Nat} (h : only? cs = some a) (hc : c ∈ cs) : c.alt = a := by
  cases cs with
  | nil => simp at hc
  | cons d ds =>
    simp only [only?] at h
    split at h
    · rename_i hall
      obtain rfl := Option.some.inj h
      rcases List.mem_cons.mp hc with rfl | hc
      · rfl
      · simpa using List.all_eq_true.mp hall c hc
    · cases h

/-- After the end of the input only ends are left. -/
private theorem isStop_of_mem_advance (hc : c ∈ advance anyCaller cs .eof) :
    isStop c.point = true := by
  unfold advance at hc
  extract_lets ended moved met kept at hc
  have hended : ∀ d ∈ ended, isStop d.point = true := by
    intro d hd
    simp only [ended, bne_self_eq_false, Bool.and_false, Bool.false_eq_true, if_false] at hd
    exact (List.mem_filter.mp hd).2
  have hkept : ∀ d ∈ kept, isStop d.point = true := by
    intro d hd
    simp only [kept, beq_self_eq_true, if_true] at hd
    exact (List.mem_filter.mp hd).2
  simp only [bne_self_eq_false, Bool.and_false, Bool.false_and, Bool.false_eq_true, if_false] at hc
  split at hc
  · exact hkept c hc
  · split at hc
    · obtain ⟨d, hd, hpoint, -⟩ := mem_gather hc
      rw [← hpoint]
      exact (List.mem_append.mp hd).elim (hkept d) (hended d)
    · exact hkept c hc

/-- Where nothing is left to read, the outermost rule has ended. -/
theorem Continues.isStop {out : Rule} (h : c.Continues out anyCaller []) :
    isStop c.point = true := by
  rcases h with ⟨htoken, σ, -, stack, -, -, hw⟩ | ⟨hstop, -⟩
  · rw [rests_cons] at hw
    obtain ⟨u, hu, x, -, hux⟩ := Language.mem_mul.mp hw
    exact absurd ((List.append_eq_nil_iff.mp hux).1 ▸ hu) htoken.nil_not_mem
  · rw [Config.isStop, hstop, (stands_stop out).owner, beq_self_eq_true]

/-- Reading a token with which an alternative can go on does not lose it. -/
theorem exists_mem_advance {out : Rule} (hany : anyCaller = true → out = .compilationUnit)
    (hc : c ∈ cs) (hgoes : c.Continues out anyCaller (k :: v)) (hk : k = .eof → v = []) :
    only? (advance anyCaller cs k) = some c.alt ∨
      ∃ d ∈ advance anyCaller cs k, d.alt = c.alt ∧ d.Continues out anyCaller v := by
  obtain ⟨e, hread, halt, hmem, σ', hσ', stack, hstack, hleads, hw⟩ := exists_read? hgoes
  obtain ⟨m, hm, hcovers⟩ : ∃ m ∈ gather anyCaller (cs.filterMap (read? k)), Covers anyCaller m e :=
    exists_mem_gather (List.mem_filterMap.mpr ⟨c, hc, hread⟩)
  have hmalt : m.alt = c.alt := hcovers.alt.trans halt
  unfold advance
  extract_lets ended moved met kept
  split
  · rename_i hone
    simp only [Bool.and_eq_true] at hone
    obtain ⟨a, ha⟩ := Option.isSome_iff_exists.mp hone.2
    exact .inl (by rw [ha, ← alt_eq_of_only? ha hm, hmalt])
  · right
    obtain ⟨σ, hσ, ⟨ρ, rfl⟩, heq⟩ := hcovers.callers σ' hσ'
    have hstack' : anyCaller = false → ρ ++ stack = [] := fun ha => by
      have hρ : ρ = [] := by simpa using heq ha
      rw [hρ, hstack ha, List.append_nil]
    rw [← hcovers.point, List.append_assoc] at hleads hw
    obtain ⟨x, hx, hxgoes⟩ := exists_continues_spread m.alt m.left hany (hcovers.point.symm ▸ hmem) hσ
      hstack' hleads hw
    obtain ⟨y, hy, hyx⟩ : ∃ y ∈ met, Covers anyCaller y x :=
      exists_mem_gather (List.mem_flatMap.mpr ⟨m, hm, hx⟩)
    have hygoes := hyx.continues hxgoes
    have hyalt : y.alt = c.alt := by rw [hyx.alt, alt_of_mem_spread hx, hmalt]
    have hkept : y ∈ kept := by
      simp only [kept]
      split
      · rename_i heof
        rw [hk (beq_iff_eq.mp heof)] at hygoes
        exact List.mem_filter.mpr ⟨hy, hygoes.isStop⟩
      · exact hy
    split
    · exact ⟨y, hkept, hyalt, hygoes⟩
    · split
      · obtain ⟨z, hz, hzy⟩ : ∃ z ∈ gather anyCaller (kept ++ ended), Covers anyCaller z y :=
          exists_mem_gather (List.mem_append_left _ hkept)
        exact ⟨z, hz, hzy.alt.trans hyalt, hzy.continues hygoes⟩
      · exact ⟨y, hkept, hyalt, hygoes⟩

/-- Reading a token that is accepted loses no alternative. -/
private theorem accepts_advance (hc : c ∈ cs) (hready : c.Ready)
    (ha : c.Accepts anyCaller (k :: v)) (hk : k = .eof → v = []) :
    only? (advance anyCaller cs k) = some c.alt ∨
      ∃ d ∈ advance anyCaller cs k, d.alt = c.alt ∧ d.Ready ∧ d.Accepts anyCaller v := by
  simp only [← continues_unit_iff]
  exact exists_mem_advance (fun _ => rfl) hc (continues_unit_iff.mpr ⟨hready, ha⟩) hk

/-- Reading a token under known callers adds no sentence. -/
private theorem fair_advance (hcs : ∀ c ∈ cs, c.Fair good (k :: v) ∧ c.Ready)
    (hk : k = .eof → v = []) :
    (only? (advance false cs k)).isSome = true ∨
      ∀ c ∈ advance false cs k, c.Fair good v ∧ c.Ready := by
  unfold advance
  extract_lets ended moved met kept
  have hended : ended.isEmpty = true := by
    simp only [ended, Bool.false_and, Bool.false_eq_true, if_false, List.isEmpty_iff,
      List.filter_eq_nil_iff]
    intro c hc hstop
    obtain ⟨hfair, hready⟩ := hcs c hc
    exact hfair.inside (List.cons_ne_nil k v) (hready.isStop_iff.mp hstop)
  have hmoved : ∀ c ∈ moved, c.Fair good v := by
    refine forall_mem_gather (fun c d hs hc hd => hc.merge hs hd) fun c hc => ?_
    obtain ⟨d, hd, hread⟩ := List.mem_filterMap.mp hc
    exact (hcs d hd).1.read? (hcs d hd).2 hk hread
  have hmet : ∀ c ∈ met, c.Fair good v ∧ c.Ready := by
    refine forall_mem_gather (fun c d hs hc hd => ⟨hc.1.merge hs hd.1, hc.2⟩) fun c hc => ?_
    obtain ⟨d, hd, hspread⟩ := List.mem_flatMap.mp hc
    exact (hmoved d hd).spread hspread
  have hkept : ∀ c ∈ kept, c.Fair good v ∧ c.Ready := by
    intro c hc
    simp only [kept] at hc
    split at hc
    · exact hmet c (List.mem_filter.mp hc).1
    · exact hmet c hc
  rw [hended]
  split
  · rename_i hone
    simp only [Bool.and_eq_true] at hone
    exact .inl hone.2
  · exact .inr (by simpa using hkept)

end Config

namespace Decision

open Config

variable {good : Nat → Prop} {cs : List Config} {c : Config} {ts : List Token} {d : Decision}

/-! ### Following the tokens ahead -/

theorem ended_cons {t : Token} (h : Ended (t :: ts)) :
    (t.kind = .eof ∧ ts = []) ∨ (t.kind ≠ .eof ∧ Ended ts) := by
  cases ts with
  | nil => exact .inl ⟨h.singleton, rfl⟩
  | cons u us => exact .inr h.tail

theorem map_kind_eq_nil {t : Token} (h : Ended (t :: ts)) :
    t.kind = .eof → ts.map Token.kind = [] := by
  intro heof
  rcases ended_cons h with ⟨-, rfl⟩ | ⟨hne, -⟩
  · rfl
  · exact absurd heof hne

/-- How following without knowledge of the callers can come out if an alternative accepts all tokens
ahead. -/
def Outcome.Keeps (a : Nat) : Outcome → Prop
  | .one b => b = a
  | .several as => a ∈ as
  | .nothing _ => False

theorem keeps_followAny (depth : Nat) (hts : Ended ts) (hc : c ∈ cs) (hready : c.Ready)
    (ha : c.Accepts true (ts.map Token.kind)) : (followAny depth cs ts).1.Keeps c.alt := by
  induction ts generalizing cs c depth with
  | nil => exact absurd rfl hts.ne_nil
  | cons t ts ih =>
    have hnext := accepts_advance hc hready ha (map_kind_eq_nil hts)
    rw [followAny]
    split
    · rename_i hnil
      rw [hnil] at hnext
      rcases hnext with hone | ⟨d, hd, -⟩
      · cases hone
      · simp at hd
    · split
      · rename_i a hone
        rcases hnext with h | ⟨d, hd, halt, -⟩
        · exact Option.some.inj (hone.symm.trans h)
        · exact (alt_eq_of_only? hone hd).symm.trans halt
      · rename_i hone
        obtain ⟨d, hd, halt, hdready, hda⟩ := hnext.resolve_left (by simp [hone])
        split
        · have hmem : d.alt ∈ alts (advance true cs t.kind) := by
            simpa [alts] using ⟨d, hd, rfl⟩
          exact halt ▸ hmem
        · rename_i hconflict
          rcases ended_cons hts with ⟨heof, rfl⟩ | ⟨-, hts⟩
          · -- At the end of the input nothing more can tell the alternatives apart.
            rw [heof] at hconflict
            have hstops : (advance true cs .eof).all (fun c => isStop c.point) = true :=
              List.all_eq_true.mpr fun c hc => isStop_of_mem_advance hc
            simp [isConflict, hstops] at hconflict
          · exact halt ▸ ih (depth + 1) hts hd hdready hda

/-- How following under the actual callers can come out if an alternative accepts all tokens
ahead. -/
private def Outcome.Finds (good : Nat → Prop) : Outcome → Prop
  | .one a => good a
  | .several _ => False
  | .nothing last => (∃ c ∈ last, c.Accepts false []) ∧
    ∀ c ∈ last, (c.Fair good [] ∧ c.Ready) ∧ isStop c.point = true

private theorem point_eq_of_isChain {ds : List Config}
    (h : (c :: ds).IsChain fun c d => (c.point == d.point) = true) : ∀ d ∈ ds, d.point = c.point := by
  induction ds generalizing c with
  | nil => simp
  | cons e es ih =>
    rw [List.isChain_cons_cons, beq_iff_eq] at h
    intro d hd
    rcases List.mem_cons.mp hd with rfl | hd
    · exact h.1.symm
    · exact (ih h.2 d hd).trans h.1.symm

/-- Where an alternative wins, no lower one is left, and each configuration agrees in point and
stacks with one of the winner. -/
theorem twin_of_winner? {a : Nat} (h : winner? cs = some a) (hc : c ∈ cs) :
    a ≤ c.alt ∧ ∃ d ∈ cs, d.alt = a ∧ d.point = c.point ∧ d.callers = c.callers := by
  obtain ⟨g, hg, hcg⟩ : ∃ g ∈ byPoint cs, c ∈ g := by
    rw [← List.mem_flatten, byPoint, List.flatten_splitBy]
    exact hc
  have hwins : least? (alts cs) = some a ∧
      ∀ d ds, g = d :: ds → d.alt = a ∧ ∀ e ∈ g, e.callers = d.callers := by
    unfold winner? at h
    split at h
    · cases h
    · rename_i hleast
      split at h
      · rename_i hall
        obtain rfl := Option.some.inj h
        refine ⟨hleast, ?_⟩
        rintro d ds rfl
        simpa using List.all_eq_true.mp hall _ hg
      · cases h
  obtain ⟨hleast, hwins⟩ := hwins
  obtain ⟨d, ds, rfl⟩ := List.exists_cons_of_ne_nil (List.ne_nil_of_mem hcg)
  obtain ⟨rfl, hcallers⟩ := hwins d ds rfl
  have hpoint : c.point = d.point := by
    rcases List.mem_cons.mp hcg with rfl | hcg
    · rfl
    · exact point_eq_of_isChain (List.isChain_of_mem_splitBy hg) c hcg
  have hd : d ∈ cs := by
    rw [← List.flatten_splitBy (fun c d : Config => c.point == d.point) cs]
    exact List.mem_flatten.mpr ⟨_, hg, List.mem_cons_self⟩
  have hmem : c.alt ∈ alts cs := by simpa [alts] using ⟨c, hc, rfl⟩
  exact ⟨(List.min?_eq_some_iff.mp hleast).2 _ hmem, d, hd, rfl, hpoint.symm, (hcallers c hcg).symm⟩

/-- A configuration that agrees in point and stacks with one that accepts the tokens accepts them
too. -/
private theorem good_of_winner? {a : Nat} {w : List Kind} (h : winner? cs = some a) (hc : c ∈ cs)
    (ha : c.Accepts false w) (hcs : ∀ c ∈ cs, c.Fair good w ∧ c.Ready) : good a := by
  obtain ⟨-, d, hd, rfl, hpoint, hcallers⟩ := twin_of_winner? h hc
  refine (hcs d hd).1.good ?_
  rw [Accepts, hpoint, hcallers]
  exact ha

private theorem finds_followActual (depth : Nat) (hts : ts = [] ∨ Ended ts)
    (hstop : ts = [] → ∀ c ∈ cs, isStop c.point = true)
    (hcs : ∀ c ∈ cs, c.Fair good (ts.map Token.kind) ∧ c.Ready)
    (hc : ∃ c ∈ cs, c.Accepts false (ts.map Token.kind)) :
    (followActual depth cs ts).1.Finds good := by
  induction ts generalizing cs depth with
  | nil => exact ⟨hc, fun c hc => ⟨hcs c hc, hstop rfl c hc⟩⟩
  | cons t ts ih =>
    have hts := hts.resolve_left (List.cons_ne_nil t ts)
    obtain ⟨c, hc, ha⟩ := hc
    have hk := map_kind_eq_nil hts
    have hnext := accepts_advance hc (hcs c hc).2 ha hk
    have hgood : good c.alt := (hcs c hc).1.good ha
    rw [followActual]
    split
    · rename_i hnil
      rw [hnil] at hnext
      rcases hnext with hone | ⟨d, hd, -⟩
      · cases hone
      · simp at hd
    · split
      · rename_i a hone
        suffices h : a = c.alt from h ▸ hgood
        rcases hnext with h | ⟨d, hd, halt, -⟩
        · exact Option.some.inj (hone.symm.trans h)
        · exact (alt_eq_of_only? hone hd).symm.trans halt
      all_goals
        rename_i hone _
        obtain ⟨d, hd, halt, hdready, hda⟩ := hnext.resolve_left (by simp [hone])
        have hfair := (fair_advance hcs hk).resolve_left (by simp [hone])
      · rename_i hwinner
        exact good_of_winner? hwinner hd hda hfair
      · refine ih (depth + 1) ?_ ?_ hfair ⟨d, hd, hda⟩
        · exact (ended_cons hts).imp And.right And.right
        · rintro rfl c hc
          rw [hts.singleton] at hc
          exact isStop_of_mem_advance hc

/-! ### Settling a decision -/

private theorem salvage_good {last : List Config} (depth : Nat)
    (hpermits : ∀ a, good a → d.permits a = true) (h : (Outcome.nothing last).Finds good) :
    ∃ a, d.salvage last depth = .ok a ∧ good a := by
  obtain ⟨⟨c, hc, -⟩, hlast⟩ := h
  have hgood : ∀ c ∈ last, good c.alt := by
    intro c hc
    obtain ⟨⟨hfair, hready⟩, hstop⟩ := hlast c hc
    exact hfair.good (accepts_of_stop hfair.under (hready.isStop_iff.mp hstop))
  have hall : last.filter (fun c => d.permits c.alt) = last :=
    List.filter_eq_self.mpr fun c hc => hpermits _ (hgood c hc)
  have hstops : last.filter (fun c => c.left || isStop c.point) = last :=
    List.filter_eq_self.mpr fun c hc => by simp [(hlast c hc).2]
  have hne : alts last ≠ [] := by
    refine List.ne_nil_of_mem (a := c.alt) ?_
    simpa [alts] using ⟨c, hc, rfl⟩
  obtain ⟨a, ha⟩ : ∃ a, least? (alts last) = some a :=
    Option.isSome_iff_exists.mp (List.isSome_min?_of_ne_nil hne)
  obtain ⟨e, he, rfl⟩ : ∃ e ∈ last, e.alt = a := by
    simpa [alts] using List.min?_mem ha
  refine ⟨e.alt, ?_, hgood e he⟩
  simp only [salvage, finished?, hall, hstops, ha]

/-- A decision comes to a good alternative, if following can begin with one that accepts all tokens
ahead, and only good ones do so under the actual callers. -/
theorem decide_good {stack : List Point} (hts : Ended ts)
    (hpermits : ∀ a, good a → d.permits a = true)
    (hany : ∃ c ∈ d.start true .bottom, c.Ready ∧ c.Accepts true (ts.map Token.kind) ∧ good c.alt)
    (hactual : ∃ c ∈ d.start false (.ofStack stack), c.Accepts false (ts.map Token.kind))
    (hfair : ∀ c ∈ d.start false (.ofStack stack),
      c.Fair good (ts.map Token.kind) ∧ c.Ready) :
    ∃ a, (d.decide stack ts).choice = .ok a ∧ good a := by
  obtain ⟨c, hc, hready, ha, hgood⟩ := hany
  have hkeeps := keeps_followAny 0 hts hc hready ha
  have hfinds := finds_followActual 0 (.inr hts) (fun h => absurd h hts.ne_nil) hfair hactual
  have hsettled : ∃ a, (d.decideActual stack ts).choice = .ok a ∧ good a := by
    unfold decideActual
    split <;> rename_i hfollow <;> rw [hfollow] at hfinds
    · exact ⟨_, rfl, hfinds⟩
    · exact hfinds.elim
    · exact salvage_good _ hpermits hfinds
  unfold decide
  split <;> rename_i hfollow <;> rw [hfollow] at hkeeps
  · obtain rfl : _ = c.alt := hkeeps
    exact ⟨_, if_pos (hpermits _ hgood), hgood⟩
  · exact hkeeps.elim
  · rename_i as depth
    split
    · rename_i a hone
      have hmem : c.alt ∈ as.filter (permits _) :=
        List.mem_filter.mpr ⟨hkeeps, hpermits _ hgood⟩
      rw [hone, List.mem_singleton] at hmem
      exact ⟨a, rfl, hmem ▸ hgood⟩
    · exact hsettled

end Decision

end ResourceNames.Java
