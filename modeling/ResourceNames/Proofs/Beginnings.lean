import ResourceNames.Proofs.Completeness

/-!
The tokens with which sentences begin.

Every rule has a sentence, and so the end of its rule can be reached from every point: a token that is
met from a point begins a sentence there. Hence an alternative that is chosen begins with the next
token, whether that token alone settles the choice or the tokens ahead are followed. No sentence of
an alternative has the end of the input in it, so at the end nothing is chosen that reads a token.
-/
namespace ResourceNames.Java

open Computability Layout

-- What the tables hold is known from lemmas. Comparing terms must not evaluate them.
attribute [local irreducible] Reach.point Item.ofPoint Item.owner Follow.settled? Follow.lookahead

/-! ### Every rule has a sentence -/

mutual

/-- Whether a phrase has a sentence, if some rules have one. -/
def Phrase.isProductive (has : Rule → Bool) : Phrase → Bool
  | .token .. => true
  | .oneOf kinds _ => !kinds.isEmpty
  | .call rule _ _ => has rule
  | .seq parts => allProductive has parts
  | .choice alts => anyProductive has alts
  | .opt _ => true
  | .star _ => true
  | .plus body => body.isProductive has

def Phrase.allProductive (has : Rule → Bool) : List Phrase → Bool
  | [] => true
  | p :: ps => p.isProductive has && allProductive has ps

def Phrase.anyProductive (has : Rule → Bool) : List Phrase → Bool
  | [] => false
  | p :: ps => p.isProductive has || anyProductive has ps

end

mutual

private theorem Phrase.exists_spells {has : Rule → Bool} (h : ∀ r, has r = true → ∃ w, r.Spells w)
    (p : Phrase) (hp : p.isProductive has = true) : ∃ w, p.Spells w := by
  cases p with
  | token kind field => exact ⟨[kind], .token⟩
  | oneOf kinds field =>
    cases kinds with
    | nil => cases hp
    | cons k ks => exact ⟨[k], .oneOf List.mem_cons_self⟩
  | call rule level field =>
    obtain ⟨w, q, hq, hw⟩ := h rule hp
    exact ⟨w, .call hq hw⟩
  | seq parts => exact exists_spells_seq h parts hp
  | choice alts =>
    obtain ⟨q, hq, w, hw⟩ := exists_spells_any h alts hp
    exact ⟨w, .choice hq hw⟩
  | opt alts => exact ⟨[], .skip⟩
  | star body => exact ⟨[], .done⟩
  | plus body =>
    obtain ⟨w, hw⟩ := Phrase.exists_spells h body hp
    exact ⟨w ++ [], .plus hw .done⟩

private theorem exists_spells_seq {has : Rule → Bool} (h : ∀ r, has r = true → ∃ w, r.Spells w)
    (ps : List Phrase) (hp : Phrase.allProductive has ps = true) :
    ∃ w, (Phrase.seq ps).Spells w := by
  cases ps with
  | nil => exact ⟨[], .nil⟩
  | cons p ps =>
    obtain ⟨hfirst, hrest⟩ := Bool.and_eq_true_iff.mp hp
    obtain ⟨u, hu⟩ := Phrase.exists_spells h p hfirst
    obtain ⟨v, hv⟩ := exists_spells_seq h ps hrest
    exact ⟨u ++ v, .cons hu hv⟩

private theorem exists_spells_any {has : Rule → Bool} (h : ∀ r, has r = true → ∃ w, r.Spells w)
    (ps : List Phrase) (hp : Phrase.anyProductive has ps = true) :
    ∃ p ∈ ps, ∃ w, p.Spells w := by
  cases ps with
  | nil => cases hp
  | cons p ps =>
    rcases Bool.or_eq_true_iff.mp hp with hp | hp
    · exact ⟨p, List.mem_cons_self, Phrase.exists_spells h p hp⟩
    · obtain ⟨q, hq, hw⟩ := exists_spells_any h ps hp
      exact ⟨q, List.mem_cons_of_mem _ hq, hw⟩

end

namespace Rule

/-- Rules with a sentence whose derivation is at most so deep. -/
def productive : Nat → List Rule
  | 0 => []
  | depth + 1 => Rule.all.filter fun r =>
      (Accessor.alternatives r).any (·.isProductive (productive depth).contains)

private theorem exists_spells_of_mem_productive {depth : Nat} {r : Rule} (h : r ∈ productive depth) :
    ∃ w, r.Spells w := by
  induction depth generalizing r with
  | zero => cases h
  | succ depth ih =>
    obtain ⟨p, hp, hproductive⟩ := List.any_eq_true.mp (List.mem_filter.mp h).2
    obtain ⟨w, hw⟩ := p.exists_spells (fun q hq => ih (List.contains_iff_mem.mp hq)) hproductive
    exact ⟨w, p, hp, hw⟩

private theorem productive_eq_all : productive 5 = Rule.all := by decide +kernel

theorem exists_spells (r : Rule) : ∃ w, r.Spells w :=
  exists_spells_of_mem_productive (productive_eq_all ▸ mem_all r)

private theorem isProductive_of_mem_all :
    ∀ r ∈ Rule.all, ∀ f ∈ r.forms, f.phrase.isProductive (fun _ => true) = true := by
  decide +kernel

end Rule

theorem Form.exists_mem_language {r : Rule} {f : Form} (h : f ∈ r.forms) : ∃ w, w ∈ f.language :=
  f.phrase.exists_spells (fun q _ => q.exists_spells)
    (Rule.isProductive_of_mem_all r (mem_all r) f h)

private theorem exists_mem_mul {a b : Language Kind} (ha : ∃ w, w ∈ a) (hb : ∃ w, w ∈ b) :
    ∃ w, w ∈ a * b := by
  obtain ⟨u, hu⟩ := ha
  obtain ⟨v, hv⟩ := hb
  exact ⟨u ++ v, Language.append_mem_mul hu hv⟩

private theorem exists_mem_kstar (a : Language Kind) : ∃ w, w ∈ a∗ := ⟨[], Language.nil_mem_kstar a⟩

private theorem Form.exists_mem_languageSeq {r : Rule} {fs : List Form}
    (h : Form.partsAll fs ⊆ r.forms) : ∃ w, w ∈ Form.languageSeq fs := by
  induction fs with
  | nil => exact ⟨[], by simp [Language.mem_one]⟩
  | cons f fs ih =>
    obtain ⟨hf, hfs⟩ := List.append_subset.mp h
    rw [Form.languageSeq_cons]
    exact exists_mem_mul (Form.exists_mem_language (hf f.mem_parts_self)) (ih hfs)

mutual

/-- From every point of a form the end of its rule can be reached, if it can be after the form. -/
private theorem Form.exists_mem_rest {r : Rule} (f : Form) {after : Language Kind}
    (hs : f.Sits r after) (hf : f.parts ⊆ r.forms) (hafter : ∃ w, w ∈ after) :
    ∀ p ∈ f.points, ∃ w, w ∈ rest p := by
  have hself := exists_mem_mul (Form.exists_mem_language (hf f.mem_parts_self)) hafter
  rw [← hs.stands_entry.rest] at hself
  cases f with
  | token | oneOf | call => exact List.forall_mem_singleton.mpr hself
  | seq entry parts =>
    exact Form.exists_mem_restSeq parts hs.2 (fun g hg => hf (List.mem_cons_of_mem _ hg)) hafter
  | choice start join alts | opt start join alts =>
    refine List.forall_mem_cons.mpr ⟨hself, List.forall_mem_cons.mpr ⟨hs.2.1.rest ▸ hafter, ?_⟩⟩
    exact Form.exists_mem_restAny alts hs.2.2 (fun g hg => hf (List.mem_cons_of_mem _ hg)) hafter
  | star entry back next body | plus entry back next body =>
    obtain ⟨-, hback, -, -, hbody⟩ := hs
    have hagain := exists_mem_mul (exists_mem_kstar body.language) hafter
    refine List.forall_mem_cons.mpr ⟨hself, List.forall_mem_cons.mpr ⟨hback.rest ▸ hagain, ?_⟩⟩
    exact Form.exists_mem_rest body hbody (fun g hg => hf (List.mem_cons_of_mem _ hg)) hagain

private theorem Form.exists_mem_restSeq {r : Rule} (fs : List Form) {after : Language Kind}
    (hs : Form.SitAll r fs after) (hf : Form.partsAll fs ⊆ r.forms) (hafter : ∃ w, w ∈ after) :
    ∀ p ∈ pointsAll fs, ∃ w, w ∈ rest p := by
  cases fs with
  | nil => exact nofun
  | cons f fs =>
    obtain ⟨hfirst, hrest⟩ := List.append_subset.mp hf
    have hmid := exists_mem_mul (Form.exists_mem_languageSeq hrest) hafter
    exact List.forall_mem_append.mpr ⟨Form.exists_mem_rest f hs.1 hfirst hmid,
      Form.exists_mem_restSeq fs hs.2 hrest hafter⟩

private theorem Form.exists_mem_restAny {r : Rule} (fs : List Form) {after : Language Kind}
    (hs : Form.SitEach r fs after) (hf : Form.partsAll fs ⊆ r.forms) (hafter : ∃ w, w ∈ after) :
    ∀ p ∈ pointsAll fs, ∃ w, w ∈ rest p := by
  cases fs with
  | nil => exact nofun
  | cons f fs =>
    obtain ⟨hfirst, hrest⟩ := List.append_subset.mp hf
    exact List.forall_mem_append.mpr ⟨Form.exists_mem_rest f hs.1 hfirst hafter,
      Form.exists_mem_restAny fs hs.2 hrest hafter⟩

end

private theorem exists_tail_of_mem_all : ∀ r ∈ Rule.all,
    (match (ruleForm r).body with
      | .operators ops => !ops.tails.isEmpty
      | .plain _ => true) = true := by
  decide +kernel

private theorem exists_mem_tailLanguage {r : Rule} {ops : Operators}
    (h : (ruleForm r).body = .operators ops) : ∃ w, w ∈ ops.tailLanguage := by
  have hne := exists_tail_of_mem_all r (mem_all r)
  simp only [h, Bool.not_eq_true', List.isEmpty_eq_false_iff_exists_mem] at hne
  obtain ⟨t, ht⟩ := hne
  obtain ⟨w, hw⟩ : ∃ w, w ∈ t.2.language := by
    refine Form.exists_mem_language (r := r) ?_
    simp only [Rule.forms, h, BodyForm.forms, List.mem_append, List.mem_flatMap]
    exact .inr ⟨t, ht, t.2.mem_parts_self⟩
  exact ⟨w, Form.mem_languageAny.mpr ⟨t.2, List.mem_map_of_mem ht, hw⟩⟩

/-- From every point the end of its rule can be reached. -/
theorem Layout.exists_mem_rest {r : Rule} {p : Point} (hp : p ∈ (ruleForm r).points) :
    ∃ w, w ∈ rest p := by
  have hone : ∃ w, w ∈ (1 : Language Kind) := ⟨[], Language.nil_mem_one⟩
  rcases List.mem_cons.mp hp with rfl | hp
  · exact (stands_stop r).rest ▸ hone
  · cases hb : (ruleForm r).body with
    | plain f =>
      rw [hb] at hp
      refine Form.exists_mem_rest f (sits_plain hb) ?_ hone p hp
      simp [Rule.forms, hb, BodyForm.forms]
    | operators ops =>
      have htails := exists_mem_kstar ops.tailLanguage
      have hsit := tailsSit hb
      simp only [hb, BodyForm.points, List.mem_cons, List.mem_append, List.mem_flatMap] at hp
      rcases hp with rfl | rfl | rfl | rfl | hp | ⟨t, ht, hp⟩
      · exact hsit.entry.rest ▸ htails
      · exact hsit.start.rest ▸ exists_mem_mul (exists_mem_tailLanguage hb) htails
      · exact hsit.join.rest ▸ htails
      · exact hsit.back.rest ▸ htails
      · refine Form.exists_mem_rest ops.heads (sits_heads hb) ?_ htails p hp
        simp [Rule.forms, hb, BodyForm.forms]
      · refine Form.exists_mem_rest t.2 (sits_tail hb ht) (fun g hg => ?_) htails p hp
        simp only [Rule.forms, hb, BodyForm.forms, List.mem_append, List.mem_flatMap]
        exact .inr ⟨t, ht, hg⟩

/-! ### Beginnings -/

/-- A kind begins one of some sentences. -/
def Begins (k : Kind) (l : Language Kind) : Prop := ∃ v, k :: v ∈ l

theorem not_begins_one (k : Kind) : ¬ Begins k 1 := by
  rintro ⟨v, hv⟩
  cases Language.mem_one _ |>.mp hv

/-- What begins a sentence of two parts begins the first one, or the second one if the first one may
be empty. -/
theorem Begins.of_mul {k : Kind} {a b : Language Kind} (h : Begins k (a * b)) :
    Begins k a ∨ [] ∈ a ∧ Begins k b := by
  obtain ⟨w, hw⟩ := h
  obtain ⟨u, hu, v, hv, huv⟩ := Language.mem_mul.mp hw
  cases u with
  | nil => exact .inr ⟨hu, w, huv ▸ hv⟩
  | cons j u =>
    obtain ⟨rfl, -⟩ := List.cons.inj huv
    exact .inl ⟨u, hu⟩

theorem Layout.Leads.exists_mem_rests {rule out : Rule} {stack : List Point}
    (h : Leads rule stack out) : ∃ w, w ∈ rests stack := by
  induction stack generalizing rule with
  | nil => exact ⟨[], Language.nil_mem_one⟩
  | cons p stack ih =>
    obtain ⟨⟨level, hsite⟩, hleads⟩ := h
    rw [rests_cons]
    exact exists_mem_mul (exists_mem_rest (Follow.mem_points_of_mem_sites hsite).1) (ih hleads)

theorem Leaf.Valid.begins {r : Rule} {l : Leaf} (h : l.Valid r) {k : Kind}
    (hk : k ∈ Follow.kindsAt l.point) : Begins k l.language := by
  obtain ⟨-, kinds, next, hitem, hnext, hrest⟩ := h.token
  obtain ⟨u, hu⟩ := exists_mem_rest hnext
  obtain ⟨v, hv⟩ := h.leads.exists_mem_rests
  rw [Follow.kindsAt_of_token hitem] at hk
  refine ⟨u ++ v, ?_⟩
  rw [Leaf.language, rests_cons]
  exact Language.append_mem_mul ((hrest _).mpr ⟨k, hk, u, hu, rfl⟩) hv

/-- The sentences from a point begin with the tokens that are met there. -/
theorem Layout.begins_rest_iff {r : Rule} {p : Point} (hp : p ∈ (ruleForm r).points) {k : Kind} :
    Begins k (rest p) ↔ k ∈ Follow.kindsOf (Follow.leaves p) := by
  have hmem : ∀ w, w ∈ rest p * 1 ↔ _ := fun w => Reach.mem_rest_mul_iff hp
  rw [Follow.mem_kindsOf, ← mul_one (rest p)]
  constructor
  · rintro ⟨v, hv⟩
    rcases (hmem _).mp hv with ⟨-, hone⟩ | ⟨l, hl, hw⟩
    · cases Language.mem_one _ |>.mp hone
    · obtain ⟨j, u, hju, hj⟩ := (Reach.valid_of_mem_leaves hp hl).exists_kind hw
      obtain ⟨rfl, -⟩ := List.cons.inj hju
      exact ⟨l, hl, hj⟩
  · rintro ⟨l, hl, hk⟩
    obtain ⟨v, hv⟩ := (Reach.valid_of_mem_leaves hp hl).begins hk
    exact ⟨v, (hmem _).mpr (.inr ⟨l, hl, by rwa [mul_one]⟩)⟩

/-! ### Alternatives have no end in them -/

mutual

/-- Whether a phrase lies before the end of the input. -/
def Phrase.isInner : Phrase → Bool
  | .token kind _ => kind != .eof
  | .oneOf kinds _ => !kinds.contains .eof
  | .call rule _ _ => rule != .compilationUnit
  | .seq parts => allInner parts
  | .choice alts => allInner alts
  | .opt alts => allInner alts
  | .star body => body.isInner
  | .plus body => body.isInner

def Phrase.allInner : List Phrase → Bool
  | [] => true
  | p :: ps => p.isInner && allInner ps

end

theorem Phrase.allInner_iff {ps : List Phrase} :
    allInner ps = true ↔ ∀ p ∈ ps, p.isInner = true := by
  induction ps with
  | nil => simp [allInner]
  | cons p ps ih => simp [allInner, ih]

private theorem Rule.isInner_of_mem_all : ∀ r ∈ Rule.all, r ≠ .compilationUnit →
    ∀ p ∈ Accessor.alternatives r, p.isInner = true := by
  decide +kernel

theorem Phrase.Spells.eof_not_mem {p : Phrase} {w : List Kind} (h : p.Spells w)
    (hp : p.isInner = true) : .eof ∉ w := by
  induction h with
  | token =>
    rw [List.mem_singleton]
    rintro rfl
    cases hp
  | @oneOf kinds _ kind mem =>
    rw [List.mem_singleton]
    rintro rfl
    simp [Phrase.isInner, mem] at hp
  | @call rule _ _ p _ mem _ ih =>
    have hr : rule ≠ .compilationUnit := by simpa [Phrase.isInner] using hp
    exact ih (Rule.isInner_of_mem_all rule (mem_all rule) hr p mem)
  | nil | skip | done => exact List.not_mem_nil
  | cons _ _ ih ih' =>
    obtain ⟨hfirst, hrest⟩ := Bool.and_eq_true_iff.mp hp
    exact List.not_mem_append (ih hfirst) (ih' hrest)
  | choice mem _ ih | opt mem _ ih => exact ih (Phrase.allInner_iff.mp hp _ mem)
  | more _ _ ih ih' | plus _ _ ih ih' => exact List.not_mem_append (ih hp) (ih' hp)

/-- A rule that is called has a token. -/
theorem Rule.nil_not_mem_language {r : Rule} (h : r ≠ .compilationUnit) : [] ∉ r.language := by
  rintro ⟨p, hp, hw⟩
  exact hw.ne_nil (Rule.eats_of_mem_all r (mem_all r) h p hp) rfl

/-- A form that has a token, and not the end of the input. -/
structure Form.Leads (f : Form) : Prop where
  eats : f.phrase.eats = true
  inner : f.phrase.isInner = true

/-- What begins a form that has a token is no end. -/
theorem Form.Leads.begins {f : Form} (h : f.Leads) {after : Language Kind} {k : Kind}
    (hk : Begins k (f.language * after)) : Begins k f.language ∧ k ≠ .eof := by
  rcases hk.of_mul with hk | ⟨hnil, -⟩
  · refine ⟨hk, ?_⟩
    rintro rfl
    obtain ⟨v, hv⟩ := hk
    exact Phrase.Spells.eof_not_mem hv h.inner List.mem_cons_self
  · exact absurd hnil (Form.nil_not_mem_language h.eats)

theorem Form.Leads.nil_not_mem {f : Form} (h : f.Leads) (after : Language Kind) :
    [] ∉ f.language * after := by
  intro hnil
  obtain ⟨u, hu, v, -, huv⟩ := Language.mem_mul.mp hnil
  obtain ⟨rfl, -⟩ := List.append_eq_nil_iff.mp huv
  exact Form.nil_not_mem_language h.eats hu

/-- The forms between which it is chosen whether to read them. -/
def Form.chosen : Form → List Form
  | .choice _ _ alts => alts
  | .opt _ _ alts => alts
  | .star _ _ _ body => [body]
  | .plus _ _ _ body => [body]
  | _ => []

def Rule.chosen (r : Rule) : List Form :=
  r.forms.flatMap Form.chosen ++
    match (ruleForm r).body with
    | .plain _ => []
    | .operators ops => ops.tails.map Prod.snd

private theorem Rule.leads_of_mem_all : ∀ r ∈ Rule.all, ∀ f ∈ r.chosen,
    (f.phrase.eats && f.phrase.isInner) = true := by
  decide +kernel

/-- A form that is read only if it is chosen has a token. -/
theorem Rule.leads_of_mem_chosen {r : Rule} {f : Form} (h : f ∈ r.chosen) : f.Leads := by
  obtain ⟨heats, hinner⟩ := Bool.and_eq_true_iff.mp (Rule.leads_of_mem_all r (mem_all r) f h)
  exact ⟨heats, hinner⟩

theorem Layout.Holds.leads {f g : Form} (h : Holds f) (hg : g ∈ f.chosen) : g.Leads := by
  obtain ⟨r, hr⟩ := h
  exact Rule.leads_of_mem_chosen (List.mem_append_left _ (List.mem_flatMap.mpr ⟨f, hr, hg⟩))

theorem Parser.Picks.leads {start : Point} {points : List Point} {alts : List Form}
    {optional : Bool} (h : Parser.Picks start points alts optional) : ∀ f ∈ alts, f.Leads := by
  intro f hf
  cases h with
  | choice held | opt held => exact held.leads hf

theorem Parser.Loops.leads {entry back : Point} {points : List Point} {body : Form}
    (h : Parser.Loops entry points (Parser.roundTasks back body)) : body.Leads := by
  generalize hround : Parser.roundTasks back body = round at h
  cases h with
  | star held | plus held =>
    simp only [Parser.roundTasks, List.cons.injEq, Parser.Task.form.injEq] at hround
    exact held.leads (hround.1 ▸ List.mem_singleton_self _)

theorem Operators.leads {r : Rule} {ops : Operators} (h : (ruleForm r).body = .operators ops)
    {t : Nat × Form} (ht : t ∈ ops.tails) : t.2.Leads := by
  refine Rule.leads_of_mem_chosen (r := r) (List.mem_append_right _ ?_)
  rw [h]
  exact List.mem_map_of_mem ht

/-! ### Choices -/

theorem Layout.IsToken.isStop_eq_false {p : Point} (h : IsToken p) :
    Config.isStop p = false := by
  rw [Config.isStop, beq_eq_false_iff_ne]
  intro hstop
  have hnil := h.nil_not_mem
  rw [hstop, (stands_stop (Item.owner p)).rest] at hnil
  exact hnil Language.nil_mem_one

/-- A configuration at a point from which the rule cannot end goes on with a token met there. -/
theorem Config.begins_of_fits {anyCaller : Bool} {alt : Nat} {r : Rule} {p : Point}
    {callers : Callers} {c d : Config} {t : Token} {ts : List Token}
    (hp : p ∈ (ruleForm r).points) (hnil : [] ∉ rest p)
    (hc : c ∈ spread anyCaller alt false p callers) (hpoint : c.point = d.point)
    (hleft : d.left = true → c.left = true) (hfits : d.Fits (t :: ts)) : Begins t.kind (rest p) := by
  have hexits : (Reach.point p).exits = false := by
    rw [Bool.eq_false_iff]
    exact fun h => hnil ((Reach.exits_iff hp).mp h)
  have hmem : ∀ l ∈ (Reach.point p).leaves, l ∈ Follow.leaves p := fun l hl =>
    (Reach.mem_leaves_iff hp).mpr (.inl hl)
  obtain ⟨u, us, hu, l, hl, hk⟩ := mem_kinds_of_fits hc hexits
    (fun l hl => (Reach.valid_of_mem_leaves hp (hmem l hl)).token.isStop_eq_false) hpoint hleft hfits
  obtain ⟨rfl, -⟩ := List.cons.inj hu
  exact (begins_rest_iff hp).mpr (Follow.mem_kindsOf.mpr ⟨l, hmem l hl, hk⟩)

namespace Parser

variable {s s' : Parser} {r : Rule}

/-- The alternative that is chosen begins with the next token, unless it may be passed over; or else
the next token begins none of them. -/
theorem choose_begins {start : Point} {points : List Point} {otherwise : Except Halt Nat} {n : Nat}
    (he : Ended s.rest) (hsettled : Follow.settled? start = Follow.looks? points)
    (hpoints : ∀ p ∈ points, p ∈ (ruleForm r).points)
    (h : s.choose start points otherwise = (s', .ok n)) :
    (∃ i p, points[i]? = some p ∧ n = i + 1 ∧
      ([] ∉ Layout.rest p → Begins s.current.kind (Layout.rest p))) ∨
    (otherwise = .ok n ∧ ∀ p ∈ points, ¬ Begins s.current.kind (Layout.rest p)) := by
  obtain ⟨t, ts, hrest⟩ := List.exists_cons_of_ne_nil he.ne_nil
  have hcurrent : s.current = t := by simp [current, hrest]
  unfold choose at h
  rw [hsettled] at h
  split at h
  · obtain ⟨-, hd⟩ := predict_ok h
    rw [hrest] at hd
    obtain ⟨i, p, hi, hn, _, _, c, hc, d, hpoint, hleft, hfits⟩ := Decision.exists_of_decide_among hd
    refine .inl ⟨i, p, hi, hn, fun hnil => ?_⟩
    rw [hcurrent]
    exact Config.begins_of_fits (hpoints p (List.mem_of_getElem? hi)) hnil hc hpoint hleft hfits
  · rename_i looks hlooks
    obtain rfl : looks = points.map Follow.lookahead := by
      unfold Follow.looks? at hlooks
      dsimp only at hlooks
      split at hlooks
      · exact (Option.some.inj hlooks).symm
      · cases hlooks
    split at h
    · rename_i i hi
      cases h
      obtain ⟨hlt, hk, -⟩ := List.findIdx?_eq_some_iff_getElem.mp hi
      rw [List.length_map] at hlt
      refine .inl ⟨i, points[i], List.getElem?_eq_getElem hlt, rfl, fun hnil => ?_⟩
      have hp := hpoints _ (List.getElem_mem hlt)
      rw [List.getElem_map, List.contains_iff_mem, Follow.mem_lookahead_iff hp] at hk
      rcases hk with hk | ⟨hexits, -⟩
      · exact (begins_rest_iff hp).mpr hk
      · exact absurd ((Reach.exits_iff hp).mp hexits) hnil
    · rename_i hnone
      cases h
      refine .inr ⟨rfl, fun p hp hbegins => ?_⟩
      rw [List.findIdx?_eq_none_iff] at hnone
      have hfalse := hnone _ (List.mem_map_of_mem hp)
      rw [← Bool.not_eq_true, List.contains_iff_mem, Follow.mem_lookahead_iff (hpoints p hp)] at hfalse
      exact hfalse (.inl ((begins_rest_iff (hpoints p hp)).mp hbegins))

/-- The tail that is chosen begins with the next token. -/
theorem predict_tail_begins {ops : Operators} {level alt : Nat} {t : Nat × Form}
    (he : Ended s.rest) (ho : (ruleForm r).body = .operators ops)
    (h : s.predict (.tail ops level) = (s', .ok alt)) (found : ops.tails[alt - 1]? = some t) :
    Begins s.current.kind (Layout.rest t.2.entry) := by
  obtain ⟨u, us, hrest⟩ := List.exists_cons_of_ne_nil he.ne_nil
  have hcurrent : s.current = u := by simp [current, hrest]
  obtain ⟨-, hchoice⟩ := predict_ok h
  rw [hrest] at hchoice
  obtain ⟨anyCaller, callers, d, hd, rfl, hfits⟩ := Decision.exists_of_decide hchoice
  obtain ⟨c, hc, hpoint, halt, hleft⟩ := Config.mem_gather hd
  obtain ⟨i, t', hi, -, hspread⟩ := Decision.mem_startTails.mp hc
  have ht : t' = t := by
    rw [← halt, Config.alt_of_mem_spread hspread, Nat.add_sub_cancel_left, hi] at found
    exact Option.some.inj found
  subst ht
  have hmem := List.mem_of_getElem? hi
  have hentry := (sits_tail ho hmem).stands_entry
  rw [hcurrent]
  refine Config.begins_of_fits hentry.mem ?_ hspread hpoint hleft hfits
  rw [hentry.rest]
  exact (Operators.leads ho hmem).nil_not_mem _

end Parser

end ResourceNames.Java
