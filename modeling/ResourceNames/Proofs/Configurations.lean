import ResourceNames.Proofs.Lookahead
import ResourceNames.Proofs.Surroundings

/-!
Which sentences a configuration still accepts.

A configuration stands at a point under a set of call stacks, and accepts what leads from the point
to the end of a whole unit under one of them; if the callers are not known, under one of them with
anything below it. Going on from a point to the tokens met there neither loses nor adds a sentence,
and putting configurations together loses none.
-/
namespace ResourceNames.Java

open Computability Layout

-- What the tables hold is known from lemmas. Comparing terms must not evaluate them.
attribute [local irreducible] Reach.point Item.ofPoint Item.owner

theorem Layout.eq_nil_of_chain {stack : List Point} (h : Chain .compilationUnit stack) :
    stack = [] := by
  cases stack with
  | nil => rfl
  | cons p stack =>
    obtain ⟨⟨level, hsite⟩, -⟩ := h
    exact absurd rfl (Follow.proper_of_mem_sites hsite).called

/-! ### Sets of call stacks -/

namespace Callers

variable {anyCaller : Bool} {s t below fresh : Callers} {σ τ : List Point} {ret : Point}

/-- A stack stands for another one: it is the same, or, if the callers are not known, the beginning
of it. -/
def Stands (anyCaller : Bool) (τ σ : List Point) : Prop := τ <+: σ ∧ (anyCaller = false → τ = σ)

theorem Stands.refl (anyCaller : Bool) (σ : List Point) : Stands anyCaller σ σ :=
  ⟨List.prefix_refl σ, fun _ => rfl⟩

theorem Stands.trans {ρ : List Point} (h : Stands anyCaller ρ τ) (h' : Stands anyCaller τ σ) :
    Stands anyCaller ρ σ :=
  ⟨h.1.trans h'.1, fun ha => (h.2 ha).trans (h'.2 ha)⟩

theorem Stands.cons (h : Stands anyCaller τ σ) : Stands anyCaller (ret :: τ) (ret :: σ) :=
  ⟨(List.prefix_cons_inj ret).mpr h.1, fun ha => congrArg (ret :: ·) (h.2 ha)⟩

@[simp] theorem not_mem_toList_none : σ ∉ none.toList := by
  simp [toList]

@[simp] theorem mem_toList_bottom : σ ∈ bottom.toList ↔ σ = [] := by
  simp [toList]

theorem mem_toList_top {others : Callers} :
    σ ∈ (top ret below others).toList ↔
      (∃ τ ∈ below.toList, σ = ret :: τ) ∨ σ ∈ others.toList := by
  simp [toList, eq_comm]

theorem mem_toList_pushAll {rets : List Point} :
    σ ∈ (pushAll rets s).toList ↔ ∃ τ ∈ s.toList, σ = rets ++ τ := by
  induction rets generalizing σ with
  | nil => simp [pushAll]
  | cons ret rets ih =>
    have hpush : pushAll (ret :: rets) s = push ret (pushAll rets s) := rfl
    simp only [hpush, push, mem_toList_top, ih, not_mem_toList_none, or_false]
    constructor
    · rintro ⟨_, ⟨τ, hτ, rfl⟩, rfl⟩
      exact ⟨τ, hτ, rfl⟩
    · rintro ⟨τ, hτ, rfl⟩
      exact ⟨rets ++ τ, ⟨τ, hτ, rfl⟩, rfl⟩

@[simp] theorem mem_toList_ofStack {rets : List Point} :
    σ ∈ (ofStack rets).toList ↔ σ = rets := by
  simp [ofStack, mem_toList_pushAll]

theorem mem_toList_addBottom : σ ∈ s.addBottom.toList ↔ σ = [] ∨ σ ∈ s.toList := by
  induction s with
  | none => simp [addBottom, toList]
  | bottom => simp [addBottom]
  | top ret below others _ ih =>
    simp only [addBottom, mem_toList_top, ih]
    exact or_left_comm

private theorem exists_mem_alter {change : Callers → Callers}
    (h : ∀ below σ, σ ∈ fresh.toList ∨ σ ∈ below.toList →
      ∃ τ ∈ (change below).toList, Stands anyCaller τ σ)
    (hσ : (∃ τ ∈ fresh.toList, σ = ret :: τ) ∨ σ ∈ s.toList) :
    ∃ τ ∈ (alter ret change fresh s).toList, Stands anyCaller τ σ := by
  induction s with
  | none | bottom =>
    refine ⟨σ, ?_, .refl _ _⟩
    simpa only [alter, mem_toList_top] using hσ
  | top ret' below others _ ih =>
    rw [alter]
    split
    · refine ⟨σ, ?_, .refl _ _⟩
      simpa only [mem_toList_top] using hσ
    · rw [mem_toList_top] at hσ
      split
      · rename_i heq
        subst heq
        rcases hσ with ⟨τ, hτ, rfl⟩ | ⟨τ, hτ, rfl⟩ | hσ
        · obtain ⟨ρ, hρ, hst⟩ := h below τ (.inl hτ)
          exact ⟨ret :: ρ, mem_toList_top.mpr (.inl ⟨ρ, hρ, rfl⟩), hst.cons⟩
        · obtain ⟨ρ, hρ, hst⟩ := h below τ (.inr hτ)
          exact ⟨ret :: ρ, mem_toList_top.mpr (.inl ⟨ρ, hρ, rfl⟩), hst.cons⟩
        · exact ⟨σ, mem_toList_top.mpr (.inr hσ), .refl _ _⟩
      · rcases hσ with hσ | hσ | hσ
        · obtain ⟨ρ, hρ, hst⟩ := ih (.inl hσ)
          exact ⟨ρ, mem_toList_top.mpr (.inr hρ), hst⟩
        · exact ⟨σ, mem_toList_top.mpr (.inl hσ), .refl _ _⟩
        · obtain ⟨ρ, hρ, hst⟩ := ih (.inr hσ)
          exact ⟨ρ, mem_toList_top.mpr (.inr hρ), hst⟩

/-- A union has a stack for each stack of its parts. -/
theorem exists_mem_union (hσ : σ ∈ s.toList ∨ σ ∈ t.toList) :
    ∃ τ ∈ (union anyCaller s t).toList, Stands anyCaller τ σ := by
  induction s generalizing t σ with
  | none => exact ⟨σ, by simpa [union, toList] using hσ, .refl _ _⟩
  | bottom =>
    rw [union]
    split
    · rename_i hany
      exact ⟨[], by simp, List.nil_prefix, by simp [hany]⟩
    · refine ⟨σ, mem_toList_addBottom.mpr ?_, .refl _ _⟩
      exact hσ.imp_left mem_toList_bottom.mp
  | top ret below others ihb iho =>
    rw [union]
    split
    · rename_i hany
      exact ⟨[], by simp, List.nil_prefix, by simp_all⟩
    · rw [mem_toList_top, or_assoc] at hσ
      rcases hσ with hσ | hσ
      · exact exists_mem_alter (fun _ _ => ihb) (.inl hσ)
      · obtain ⟨τ, hτ, hst⟩ := iho hσ
        obtain ⟨ρ, hρ, hst'⟩ : ∃ ρ ∈ (alter ret (union anyCaller below) below _).toList,
            Stands anyCaller ρ τ := exists_mem_alter (fun _ _ => ihb) (.inr hτ)
        exact ⟨ρ, hρ, hst'.trans hst⟩

private theorem mem_of_mem_alter {change : Callers → Callers}
    (h : ∀ below σ, σ ∈ (change below).toList → σ ∈ fresh.toList ∨ σ ∈ below.toList)
    (hσ : σ ∈ (alter ret change fresh s).toList) :
    (∃ τ ∈ fresh.toList, σ = ret :: τ) ∨ σ ∈ s.toList := by
  induction s with
  | none | bottom => simpa only [alter, mem_toList_top] using hσ
  | top ret' below others _ ih =>
    rw [alter] at hσ
    split at hσ
    · simpa only [mem_toList_top] using hσ
    · split at hσ
      · rename_i heq
        subst heq
        rw [mem_toList_top] at hσ ⊢
        rcases hσ with ⟨τ, hτ, rfl⟩ | hσ
        · rcases h below τ hτ with hτ | hτ
          · exact .inl ⟨τ, hτ, rfl⟩
          · exact .inr (.inl ⟨τ, hτ, rfl⟩)
        · exact .inr (.inr hσ)
      · rw [mem_toList_top] at hσ ⊢
        rcases hσ with hσ | hσ
        · exact .inr (.inl hσ)
        · exact (ih hσ).imp_right .inr

/-- If the callers are known, a union has the stacks of its parts only. -/
theorem mem_of_mem_union (hσ : σ ∈ (union false s t).toList) : σ ∈ s.toList ∨ σ ∈ t.toList := by
  induction s generalizing t σ with
  | none => exact .inr hσ
  | bottom => exact (mem_toList_addBottom.mp hσ).imp_left mem_toList_bottom.mpr
  | top ret below others ihb iho =>
    have hσ : σ ∈ (alter ret (union false below) below (union false others t)).toList := hσ
    rw [mem_toList_top, or_assoc]
    exact (mem_of_mem_alter (fun _ _ => ihb) hσ).imp_right iho

theorem exists_top_of_allTops {p : Point → Bool} (h : s.allTops p = true) (hσ : σ ∈ s.toList) :
    ∃ ret τ, σ = ret :: τ ∧ p ret = true := by
  induction s with
  | none | bottom => cases h
  | top ret below others _ ih =>
    have hret : p ret = true ∧ (others = none ∨ others.allTops p = true) := by
      cases others <;> simp_all [allTops]
    rcases mem_toList_top.mp hσ with ⟨τ, -, rfl⟩ | hσ
    · exact ⟨ret, τ, rfl, hret.1⟩
    · rcases hret.2 with rfl | ho
      · simp at hσ
      · exact ih ho hσ

/-- All stacks of a set, of which there is one, lead from a rule to the rule `out`. -/
def Under (out : Rule) : Rule → Callers → Prop
  | _, .none => False
  | rule, .bottom => rule = out
  | rule, .top ret below others =>
    (∃ level, ⟨level, ret⟩ ∈ Follow.sites rule) ∧ Under out (Item.owner ret) below ∧
      (others = .none ∨ Under out rule others)

variable {rule out : Rule}

theorem Under.leads (h : s.Under out rule) (hσ : σ ∈ s.toList) : Leads rule σ out := by
  induction s generalizing rule σ with
  | none => cases h
  | bottom =>
    obtain rfl := mem_toList_bottom.mp hσ
    exact h
  | top ret below others ihb iho =>
    obtain ⟨hsite, hbelow, hothers⟩ := h
    rcases mem_toList_top.mp hσ with ⟨τ, hτ, rfl⟩ | hσ
    · exact ⟨hsite, ihb hbelow hτ⟩
    · rcases hothers with rfl | hothers
      · simp at hσ
      · exact iho hothers hσ

theorem Under.exists_mem (h : s.Under out rule) : ∃ σ, σ ∈ s.toList := by
  induction s generalizing rule with
  | none => cases h
  | bottom => exact ⟨[], mem_toList_bottom.mpr rfl⟩
  | top ret below others ihb _ =>
    obtain ⟨σ, hσ⟩ := ihb h.2.1
    exact ⟨ret :: σ, mem_toList_top.mpr (.inl ⟨σ, hσ, rfl⟩)⟩

/-- The rule of a whole unit is not called. -/
theorem Under.eq_bottom (h : s.Under out .compilationUnit) : s = .bottom := by
  cases s with
  | none => cases h
  | bottom => rfl
  | top ret below others =>
    obtain ⟨⟨level, hsite⟩, -⟩ := h
    exact absurd rfl (Follow.proper_of_mem_sites hsite).called

theorem Under.pushAll {mid : Rule} {rets : List Point} (hl : Leads rule rets mid)
    (h : s.Under out mid) : (pushAll rets s).Under out rule := by
  induction rets generalizing rule with
  | nil =>
    obtain rfl : rule = mid := hl
    exact h
  | cons ret rets ih => exact ⟨hl.1, ih hl.2, .inl rfl⟩

theorem under_ofStack (h : Leads rule σ out) : (ofStack σ).Under out rule :=
  Under.pushAll h rfl

private theorem Under.addBottom (h : s.Under out out) : s.addBottom.Under out out := by
  induction s with
  | none => cases h
  | bottom => exact h
  | top ret below others _ ih =>
    refine ⟨h.1, h.2.1, .inr ?_⟩
    rcases h.2.2 with rfl | hothers
    · rfl
    · exact ih hothers

private theorem Under.alter {change : Callers → Callers} {level : Nat}
    (hsite : ⟨level, ret⟩ ∈ Follow.sites rule) (hfresh : fresh.Under out (Item.owner ret))
    (hchange : ∀ below, below.Under out (Item.owner ret) → (change below).Under out (Item.owner ret))
    (h : s = .none ∨ s.Under out rule) : (alter ret change fresh s).Under out rule := by
  induction s with
  | none => exact ⟨⟨level, hsite⟩, hfresh, .inl rfl⟩
  | bottom => exact ⟨⟨level, hsite⟩, hfresh, h⟩
  | top ret' below others _ ih =>
    have h := h.resolve_left nofun
    rw [Callers.alter]
    split
    · exact ⟨⟨level, hsite⟩, hfresh, .inr h⟩
    · split
      · rename_i heq
        subst heq
        exact ⟨h.1, hchange below h.2.1, h.2.2⟩
      · exact ⟨h.1, h.2.1, .inr (ih h.2.2)⟩

theorem Under.union (hs : s.Under out rule) (ht : t.Under out rule) :
    (union false s t).Under out rule := by
  induction s generalizing rule t with
  | none => cases hs
  | bottom =>
    obtain rfl : rule = out := hs
    exact ht.addBottom
  | top ret below others ihb iho =>
    obtain ⟨⟨level, hsite⟩, hbelow, hothers⟩ := hs
    have hrest : (Callers.union false others t).Under out rule := by
      rcases hothers with rfl | hothers
      · exact ht
      · exact iho hothers ht
    exact Under.alter hsite hbelow (fun _ h => ihb hbelow h) (.inr hrest)

end Callers

namespace Config

variable {anyCaller : Bool} {c d : Config} {cs : List Config} {w : List Kind}

/-! ### What a configuration accepts -/

/-- What is left to read leads from the point of a configuration to the end of a whole unit, under
one of its stacks or, if the callers are not known, under one with anything below it. -/
def Accepts (anyCaller : Bool) (c : Config) (w : List Kind) : Prop :=
  ∃ σ ∈ c.callers.toList, ∃ stack, (anyCaller = false → stack = []) ∧
    Chain (Item.owner c.point) (σ ++ stack) ∧ w ∈ rests (c.point :: (σ ++ stack))

/-- A configuration from which nothing can be gone on to without reading. -/
def Ready (c : Config) : Prop := IsToken c.point ∨ c.point = stop .compilationUnit

/-- A configuration does all that another one does. -/
structure Covers (anyCaller : Bool) (d c : Config) : Prop where
  point : d.point = c.point
  alt : d.alt = c.alt
  whole : c.whole = true → d.whole = true
  callers : ∀ σ ∈ c.callers.toList, ∃ τ ∈ d.callers.toList, Callers.Stands anyCaller τ σ

theorem Covers.refl (anyCaller : Bool) (c : Config) : Covers anyCaller c c :=
  ⟨rfl, rfl, id, fun σ hσ => ⟨σ, hσ, .refl _ _⟩⟩

theorem Covers.trans {e : Config} (h : Covers anyCaller e d) (h' : Covers anyCaller d c) :
    Covers anyCaller e c where
  point := h.point.trans h'.point
  alt := h.alt.trans h'.alt
  whole := h.whole ∘ h'.whole
  callers σ hσ := by
    obtain ⟨τ, hτ, hst⟩ := h'.callers σ hσ
    obtain ⟨ρ, hρ, hst'⟩ := h.callers τ hτ
    exact ⟨ρ, hρ, hst'.trans hst⟩

theorem Covers.ready (h : Covers anyCaller d c) (hc : c.Ready) : d.Ready := by
  rw [Ready, h.point]
  exact hc

theorem Covers.accepts (h : Covers anyCaller d c) (hc : c.Accepts anyCaller w) :
    d.Accepts anyCaller w := by
  obtain ⟨σ, hσ, stack, hstack, hchain, hw⟩ := hc
  obtain ⟨τ, hτ, ⟨ρ, rfl⟩, heq⟩ := h.callers σ hσ
  refine ⟨τ, hτ, ρ ++ stack, fun ha => ?_, ?_, ?_⟩
  · have hρ : ρ = [] := by simpa using heq ha
    rw [hρ, hstack ha, List.append_nil]
  · rwa [h.point, ← List.append_assoc]
  · rwa [h.point, ← List.append_assoc]

private theorem covers_merge (anyCaller : Bool) (hs : c.sameWay d = true) :
    Covers anyCaller (c.merge anyCaller d) c ∧ Covers anyCaller (c.merge anyCaller d) d := by
  simp only [sameWay, Bool.and_eq_true, beq_iff_eq] at hs
  constructor
  · exact ⟨rfl, rfl, fun h => by simp [merge, h], fun σ hσ => Callers.exists_mem_union (.inl hσ)⟩
  · exact ⟨hs.1, hs.2, fun h => by simp [merge, h], fun σ hσ => Callers.exists_mem_union (.inr hσ)⟩

private theorem exists_mem_place {x : Config} (hc : c ∈ x :: cs) :
    ∃ d ∈ place anyCaller x cs, Covers anyCaller d c := by
  induction cs with
  | nil => exact ⟨c, hc, .refl _ _⟩
  | cons y ys ih =>
    rw [place]
    split
    · rename_i hs
      obtain ⟨hx, hy⟩ := covers_merge anyCaller hs
      rcases List.mem_cons.mp hc with rfl | hc
      · exact ⟨_, List.mem_cons_self, hx⟩
      · rcases List.mem_cons.mp hc with rfl | hc
        · exact ⟨_, List.mem_cons_self, hy⟩
        · exact ⟨c, List.mem_cons_of_mem _ hc, .refl _ _⟩
    · split
      · exact ⟨c, hc, .refl _ _⟩
      · rcases List.mem_cons.mp hc with rfl | hc
        · obtain ⟨d, hd, hcovers⟩ := ih List.mem_cons_self
          exact ⟨d, List.mem_cons_of_mem _ hd, hcovers⟩
        · rcases List.mem_cons.mp hc with rfl | hc
          · exact ⟨c, List.mem_cons_self, .refl _ _⟩
          · obtain ⟨d, hd, hcovers⟩ := ih (List.mem_cons_of_mem _ hc)
            exact ⟨d, List.mem_cons_of_mem _ hd, hcovers⟩

/-- Putting configurations together loses none. -/
theorem exists_mem_gather (hc : c ∈ cs) : ∃ d ∈ gather anyCaller cs, Covers anyCaller d c := by
  induction cs with
  | nil => simp at hc
  | cons x xs ih =>
    rcases List.mem_cons.mp hc with rfl | hc
    · exact exists_mem_place List.mem_cons_self
    · obtain ⟨d, hd, hcovers⟩ := ih hc
      obtain ⟨e, he, hcovers'⟩ : ∃ e ∈ gather anyCaller (x :: xs), Covers anyCaller e d :=
        exists_mem_place (List.mem_cons_of_mem x hd)
      exact ⟨e, he, hcovers'.trans hcovers⟩

/-- What holds of configurations and of what they are merged to holds after putting them
together. -/
theorem forall_mem_gather {P : Config → Prop}
    (hmerge : ∀ c d, c.sameWay d = true → P c → P d → P (c.merge anyCaller d))
    (h : ∀ c ∈ cs, P c) : ∀ c ∈ gather anyCaller cs, P c := by
  have hplace : ∀ x, P x → ∀ ds : List Config, (∀ d ∈ ds, P d) → ∀ d ∈ place anyCaller x ds, P d := by
    intro x hx ds hds
    induction ds with
    | nil => simpa [place] using hx
    | cons y ys ih =>
      rw [List.forall_mem_cons] at hds
      rw [place]
      split
      · rename_i hs
        exact List.forall_mem_cons.mpr ⟨hmerge x y hs hx hds.1, hds.2⟩
      · split
        · exact List.forall_mem_cons.mpr ⟨hx, List.forall_mem_cons.mpr hds⟩
        · exact List.forall_mem_cons.mpr ⟨hds.1, ih hds.2⟩
  induction cs with
  | nil => simp [gather]
  | cons x xs ih =>
    rw [List.forall_mem_cons] at h
    exact hplace x h.1 _ (ih h.2)

/-! ### Going on from a point -/

variable {r : Rule} {p : Point} {callers : Callers} {alt : Nat} {left : Bool} {σ stack : List Point}

/-- A configuration can go on with what is left to read until the rule `out` ends: it stands before
a token, or at the end of that rule with nothing left. -/
def Continues (out : Rule) (anyCaller : Bool) (w : List Kind) (c : Config) : Prop :=
  (IsToken c.point ∧ ∃ σ ∈ c.callers.toList, ∃ stack, (anyCaller = false → stack = []) ∧
    Leads (Item.owner c.point) (σ ++ stack) out ∧ w ∈ rests (c.point :: (σ ++ stack))) ∨
  (c.point = stop out ∧ [] ∈ c.callers.toList ∧ w = [])

theorem Covers.continues {out : Rule} (h : Covers anyCaller d c)
    (hc : c.Continues out anyCaller w) : d.Continues out anyCaller w := by
  rcases hc with ⟨htoken, σ, hσ, stack, hstack, hleads, hw⟩ | ⟨hstop, hσ, hw⟩
  · obtain ⟨τ, hτ, ⟨ρ, rfl⟩, heq⟩ := h.callers σ hσ
    refine .inl ⟨h.point.symm ▸ htoken, τ, hτ, ρ ++ stack, fun ha => ?_, ?_, ?_⟩
    · have hρ : ρ = [] := by simpa using heq ha
      rw [hρ, hstack ha, List.append_nil]
    · rwa [h.point, ← List.append_assoc]
    · rwa [h.point, ← List.append_assoc]
  · obtain ⟨τ, hτ, hprefix, -⟩ := h.callers [] hσ
    exact .inr ⟨h.point.trans hstop, List.prefix_nil.mp hprefix ▸ hτ, hw⟩

/-- To go on until a whole unit ends is to be ready and to accept what is left. -/
theorem continues_unit_iff :
    c.Continues .compilationUnit anyCaller w ↔ c.Ready ∧ c.Accepts anyCaller w := by
  constructor
  · rintro (⟨htoken, haccepts⟩ | ⟨hstop, hσ, rfl⟩)
    · exact ⟨.inl htoken, haccepts⟩
    · have hends := stands_stop .compilationUnit
      refine ⟨.inr hstop, [], hσ, [], fun _ => rfl, ?_, ?_⟩
      · rw [hstop]
        exact hends.owner
      · simp [hstop, hends.rest]
  · rintro ⟨htoken | hstop, haccepts⟩
    · exact .inl ⟨htoken, haccepts⟩
    · obtain ⟨σ, hσ, stack, -, hchain, hw⟩ := haccepts
      have hends := stands_stop .compilationUnit
      rw [hstop, hends.owner] at hchain
      have hnil := eq_nil_of_chain hchain
      rw [hnil, hstop, rests_cons, hends.rest, rests_nil, mul_one] at hw
      exact .inr ⟨hstop, (List.append_eq_nil_iff.mp hnil).1 ▸ hσ, (Language.mem_one w).mp hw⟩

variable {out : Rule}

private theorem continues_of_leaf {l : Leaf} (hl : l.Valid r) (hσ : σ ∈ callers.toList)
    (hstack : anyCaller = false → stack = []) (hc : Leads r (σ ++ stack) out)
    (hw : w ∈ l.language * rests (σ ++ stack)) (left whole : Bool) :
    Continues out anyCaller w ⟨l.point, alt, callers.pushAll l.rets, left, whole⟩ := by
  refine .inl ⟨hl.token, l.rets ++ σ, Callers.mem_toList_pushAll.mpr ⟨σ, hσ, rfl⟩, stack, hstack, ?_⟩
  rw [List.append_assoc]
  refine ⟨hl.leads.append hc, ?_⟩
  rw [← List.cons_append, rests_append]
  exact hw

/-- Under an operand further tails may as well be those of the expression around it. -/
theorem mem_rests_of_isOperandEnd {q : Point} {τ : List Point}
    (hr : Follow.hasOperators r = true) (hq : Config.isOperandEnd q = true)
    (hc : Leads r (q :: τ) out) (hw : w ∈ r.tailLanguage∗ * rests (q :: τ)) :
    w ∈ rests (q :: τ) := by
  obtain ⟨⟨level, hsite⟩, -⟩ := hc
  obtain ⟨hoperators, hrest⟩ := rest_of_isOperandEnd (Follow.proper_of_mem_sites hsite).mem hq
  rw [rests_cons, hrest, Follow.eq_of_hasOperators hoperators hr] at hw ⊢
  rwa [← mul_assoc, kstar_mul_kstar] at hw

/-- From a point one reads a token met there, or leaves the rule. -/
private theorem exists_mem_within (hp : p ∈ (ruleForm r).points) (hσ : σ ∈ callers.toList)
    (hstack : anyCaller = false → stack = []) (hc : Leads r (σ ++ stack) out)
    (hw : w ∈ rest p * rests (σ ++ stack)) :
    (∃ c ∈ within alt left p callers, c.Continues out anyCaller w) ∨
      (Reach.point p).exits = true ∧ w ∈ rests (σ ++ stack) := by
  have hd := Reach.describes_point hp
  obtain ⟨u, hu, v, hv, rfl⟩ := Language.mem_mul.mp hw
  rcases (hd.mem u).mp hu with ⟨hends, rfl⟩ | ⟨l, hl, hu⟩ | ⟨hloops, hu⟩
  · exact .inr ⟨by simp [Reach.exits, hends], hv⟩
  · refine .inl ⟨_, List.mem_map_of_mem (List.mem_append_left _ hl), ?_⟩
    exact continues_of_leaf (hd.valid l hl) hσ hstack hc (Language.append_mem_mul hu hv) left false
  · have hexits : (Reach.point p).exits = true := by simp [Reach.exits, hloops]
    by_cases htops : callers.allTops isOperandEnd = true
    · obtain ⟨q, τ, rfl, hq⟩ := Callers.exists_top_of_allTops htops hσ
      refine .inr ⟨hexits, ?_⟩
      exact mem_rests_of_isOperandEnd (hd.loops hloops) hq hc (Language.append_mem_mul hu hv)
    · rw [← Language.one_add_self_mul_kstar_eq_kstar, Language.mem_add, Language.mem_one,
        Reach.mem_loopLeaves] at hu
      rcases hu with rfl | ⟨l, hl, hu⟩
      · exact .inr ⟨hexits, hv⟩
      · have hmem : l ∈ if (Reach.point p).loops && !callers.allTops isOperandEnd then
            Reach.loopLeaves (Item.owner p) else [] := by
          simp [hloops, htops, Item.owner_of_mem hp, hl]
        refine .inl ⟨_, List.mem_map_of_mem (List.mem_append_right _ hmem), ?_⟩
        exact continues_of_leaf (Reach.valid_of_mem_loopLeaves hl) hσ hstack hc
          (Language.append_mem_mul hu hv) left false

theorem mem_beyond_bottom {o : Follow.OuterLeaf} (ho : o ∈ Follow.outer r) {level : Nat}
    {site : Point} (hsite : ⟨level, site⟩ ∈ Follow.sites r) (alt : Nat) (left : Bool) :
    ⟨o.leaf.point, alt, .ofStack o.leaf.rets, true, o.whole⟩ ∈ beyond true alt left r .bottom := by
  have hsites : (Follow.sites r).isEmpty = false :=
    List.isEmpty_eq_false_iff.mpr (List.ne_nil_of_mem hsite)
  simp only [beyond, hsites, Bool.not_false, Bool.and_self, if_true]
  exact List.mem_map.mpr ⟨o, ho, rfl⟩

private theorem exists_mem_beyond_bottom (hany : anyCaller = true → out = .compilationUnit)
    (hstack : anyCaller = false → stack = []) (hc : Leads r stack out) (hw : w ∈ rests stack) :
    ∃ c ∈ beyond anyCaller alt left r .bottom, c.Continues out anyCaller w := by
  cases stack with
  | nil =>
    obtain rfl : r = out := hc
    refine ⟨⟨stop r, alt, .bottom, left, false⟩, ?_, .inr ⟨rfl, by simp, (Language.mem_one w).mp hw⟩⟩
    rw [beyond]
    split
    · rename_i hsites
      rw [Bool.and_eq_true] at hsites
      obtain rfl := hany hsites.1
      have hnone : Follow.sites .compilationUnit = [] := List.eq_nil_iff_forall_not_mem.mpr
        fun site hsite => (Follow.proper_of_mem_sites hsite).called rfl
      simp [hnone] at hsites
    · exact List.mem_singleton_self _
  | cons q stack =>
    have htrue : anyCaller = true := by
      cases anyCaller with
      | false => cases hstack rfl
      | true => rfl
    subst htrue
    obtain rfl := hany rfl
    have hcall := hc
    obtain ⟨⟨level, hsite⟩, hrest⟩ := hcall
    have hproper := Follow.proper_of_mem_sites hsite
    have hne : w ≠ [] := by
      rintro rfl
      exact nil_not_mem_rests hproper.mem hrest hproper.inside hw
    obtain ⟨o, ho, -, stack', hchain, hw⟩ :=
      Follow.exists_outer (Follow.mem_endsFrom_self r) hc hw hne
    obtain ⟨_, hvalid⟩ := Follow.valid_of_mem_outer ho
    refine ⟨_, mem_beyond_bottom ho hsite alt left, .inl ⟨hvalid.token, o.leaf.rets, by simp, stack',
      by simp, hchain, ?_⟩⟩
    rwa [← List.cons_append, rests_append]

theorem exists_continues_beyond (alt : Nat) (left : Bool)
    (hany : anyCaller = true → out = .compilationUnit) (hσ : σ ∈ callers.toList)
    (hstack : anyCaller = false → stack = []) (hc : Leads r (σ ++ stack) out)
    (hw : w ∈ rests (σ ++ stack)) :
    ∃ c ∈ beyond anyCaller alt left r callers, c.Continues out anyCaller w := by
  induction callers generalizing r σ with
  | none => simp at hσ
  | bottom =>
    obtain rfl := Callers.mem_toList_bottom.mp hσ
    exact exists_mem_beyond_bottom hany hstack hc hw
  | top ret below others ihb iho =>
    rw [beyond]
    rcases Callers.mem_toList_top.mp hσ with ⟨τ, hτ, rfl⟩ | hσ
    · obtain ⟨⟨level, hsite⟩, hrest⟩ := hc
      rw [List.cons_append, rests_cons] at hw
      have hret := (Follow.proper_of_mem_sites hsite).mem
      rcases exists_mem_within hret hτ hstack hrest hw with ⟨c, hmem, h⟩ | ⟨hexits, hw⟩
      · exact ⟨c, List.mem_append_left _ (List.mem_append_left _ hmem), h⟩
      · obtain ⟨c, hmem, h⟩ := ihb hτ hrest hw
        rw [if_pos hexits]
        exact ⟨c, List.mem_append_left _ (List.mem_append_right _ hmem), h⟩
    · obtain ⟨c, hmem, h⟩ := iho hσ hc hw
      exact ⟨c, List.mem_append_right _ hmem, h⟩

/-- Going on from a point, what can be read until a rule ends still can. -/
theorem exists_continues_spread (alt : Nat) (left : Bool)
    (hany : anyCaller = true → out = .compilationUnit) (hp : p ∈ (ruleForm r).points)
    (hσ : σ ∈ callers.toList) (hstack : anyCaller = false → stack = [])
    (hc : Leads r (σ ++ stack) out) (hw : w ∈ rests (p :: (σ ++ stack))) :
    ∃ c ∈ spread anyCaller alt left p callers, c.Continues out anyCaller w := by
  rw [rests_cons] at hw
  rw [spread, Item.owner_of_mem hp]
  rcases exists_mem_within hp hσ hstack hc hw with ⟨c, hmem, h⟩ | ⟨hexits, hw⟩
  · exact ⟨c, List.mem_append_left _ hmem, h⟩
  · obtain ⟨c, hmem, h⟩ := exists_continues_beyond alt left hany hσ hstack hc hw
    rw [if_pos hexits]
    exact ⟨c, List.mem_append_right _ hmem, h⟩

theorem exists_mem_beyond (alt : Nat) (left : Bool) (hσ : σ ∈ callers.toList)
    (hstack : anyCaller = false → stack = []) (hc : Chain r (σ ++ stack))
    (hw : w ∈ rests (σ ++ stack)) :
    ∃ c ∈ beyond anyCaller alt left r callers, c.Ready ∧ c.Accepts anyCaller w := by
  simp only [← continues_unit_iff]
  exact exists_continues_beyond alt left (fun _ => rfl) hσ hstack hc hw

/-- Going on from a point loses no sentence. -/
theorem exists_mem_spread (alt : Nat) (left : Bool) (hp : p ∈ (ruleForm r).points)
    (hσ : σ ∈ callers.toList) (hstack : anyCaller = false → stack = [])
    (hc : Chain r (σ ++ stack)) (hw : w ∈ rests (p :: (σ ++ stack))) :
    ∃ c ∈ spread anyCaller alt left p callers, c.Ready ∧ c.Accepts anyCaller w := by
  simp only [← continues_unit_iff]
  exact exists_continues_spread alt left (fun _ => rfl) hp hσ hstack hc hw

/-- What is left to read leads from the point of a configuration to its end under one of its
stacks. -/
def Admits (w : List Kind) (c : Config) : Prop := ∃ σ ∈ c.callers.toList, w ∈ rests (c.point :: σ)

theorem Accepts.admits (h : c.Accepts false w) : c.Admits w := by
  obtain ⟨σ, hσ, stack, hstack, -, hw⟩ := h
  rw [hstack rfl, List.append_nil] at hw
  exact ⟨σ, hσ, hw⟩

theorem Continues.admits (h : c.Continues out false w) : c.Admits w := by
  rcases h with ⟨-, σ, hσ, stack, hstack, -, hw⟩ | ⟨hstop, hσ, rfl⟩
  · rw [hstack rfl, List.append_nil] at hw
    exact ⟨σ, hσ, hw⟩
  · refine ⟨[], hσ, ?_⟩
    rw [hstop, rests_cons, (stands_stop out).rest, rests_nil, one_mul]
    exact Language.nil_mem_one

/-- A configuration before a token or at the end of the rule `out`, under call stacks that lead
there. -/
structure Placed (out : Rule) (c : Config) : Prop where
  tokenOrEnd : IsToken c.point ∨ c.point = stop out ∧ c.callers = .bottom
  under : c.callers.Under out (Item.owner c.point)

theorem Placed.ready (h : c.Placed .compilationUnit) : c.Ready := h.tokenOrEnd.imp_right And.left

private theorem placed_of_leaf {l : Leaf} (hl : l.Valid r) (hu : callers.Under out r)
    (left whole : Bool) : Placed out ⟨l.point, alt, callers.pushAll l.rets, left, whole⟩ :=
  ⟨.inl hl.token, hu.pushAll hl.leads⟩

private theorem of_mem_within (hp : p ∈ (ruleForm r).points) (hu : callers.Under out r)
    (hc : c ∈ within alt left p callers) :
    c.Placed out ∧ (c.Admits w → ∃ σ ∈ callers.toList, w ∈ rests (p :: σ)) := by
  obtain ⟨l, hl, rfl⟩ := List.mem_map.mp hc
  have hl : l ∈ Follow.leaves p := by
    rw [Reach.mem_leaves_iff hp]
    rcases List.mem_append.mp hl with hl | hl
    · exact .inl hl
    · split at hl
      · rename_i hloops
        rw [Bool.and_eq_true] at hloops
        exact .inr ⟨hloops.1, Item.owner_of_mem hp ▸ hl⟩
      · simp at hl
  have hvalid := Reach.valid_of_mem_leaves hp hl
  refine ⟨placed_of_leaf hvalid hu left false, ?_⟩
  rintro ⟨τ, hτ, hw⟩
  obtain ⟨σ, hσ, rfl⟩ := Callers.mem_toList_pushAll.mp hτ
  refine ⟨σ, hσ, ?_⟩
  rw [← List.cons_append, rests_append] at hw
  rw [rests_cons, Reach.mem_rest_mul_iff hp]
  exact .inr ⟨l, hl, hw⟩

theorem of_mem_beyond (hu : callers.Under out r) (hc : c ∈ beyond false alt left r callers) :
    c.Placed out ∧ (c.Admits w → ∃ σ ∈ callers.toList, w ∈ rests σ) := by
  induction callers generalizing r with
  | none => cases hu
  | bottom =>
    obtain rfl : r = out := hu
    have hstop := stands_stop r
    obtain rfl : c = _ := List.mem_singleton.mp hc
    refine ⟨⟨.inr ⟨rfl, rfl⟩, hstop.owner⟩, ?_⟩
    rintro ⟨τ, hτ, hw⟩
    refine ⟨τ, hτ, ?_⟩
    simpa [hstop.rest] using hw
  | top ret below others ihb iho =>
    obtain ⟨⟨level, hsite⟩, hbelow, hothers⟩ := hu
    have hret := (Follow.proper_of_mem_sites hsite).mem
    rw [beyond] at hc
    rcases List.mem_append.mp hc with hc | hc
    · rcases List.mem_append.mp hc with hc | hc
      · obtain ⟨hplaced, hfrom⟩ := of_mem_within (w := w) hret hbelow hc
        refine ⟨hplaced, fun ha => ?_⟩
        obtain ⟨σ, hσ, hw⟩ := hfrom ha
        exact ⟨ret :: σ, Callers.mem_toList_top.mpr (.inl ⟨σ, hσ, rfl⟩), hw⟩
      · split at hc
        · rename_i hexits
          obtain ⟨hplaced, hfrom⟩ := ihb hbelow hc
          refine ⟨hplaced, fun ha => ?_⟩
          obtain ⟨σ, hσ, hw⟩ := hfrom ha
          refine ⟨ret :: σ, Callers.mem_toList_top.mpr (.inl ⟨σ, hσ, rfl⟩), ?_⟩
          rw [rests_cons, Reach.mem_rest_mul_iff hret]
          exact .inl ⟨hexits, hw⟩
        · simp at hc
    · rcases hothers with rfl | hothers
      · simp [beyond] at hc
      · obtain ⟨hplaced, hfrom⟩ := iho hothers hc
        refine ⟨hplaced, fun ha => ?_⟩
        obtain ⟨σ, hσ, hw⟩ := hfrom ha
        exact ⟨σ, Callers.mem_toList_top.mpr (.inr hσ), hw⟩

/-- Going on from a point under known callers adds no sentence. -/
theorem of_mem_spread (hp : p ∈ (ruleForm r).points) (hu : callers.Under out r)
    (hc : c ∈ spread false alt left p callers) :
    c.Placed out ∧ (c.Admits w → ∃ σ ∈ callers.toList, w ∈ rests (p :: σ)) := by
  rw [spread, Item.owner_of_mem hp] at hc
  rcases List.mem_append.mp hc with hc | hc
  · exact of_mem_within hp hu hc
  · split at hc
    · rename_i hexits
      obtain ⟨hplaced, hfrom⟩ := of_mem_beyond (w := w) hu hc
      refine ⟨hplaced, fun ha => ?_⟩
      obtain ⟨σ, hσ, hw⟩ := hfrom ha
      refine ⟨σ, hσ, ?_⟩
      rw [rests_cons, Reach.mem_rest_mul_iff hp]
      exact .inl ⟨hexits, hw⟩
    · simp at hc

end Config

end ResourceNames.Java
