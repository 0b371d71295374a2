import ResourceNames.Proofs.Decisions

/-!
A sentence of the grammar is read without a report.

`Task.Bridges rule stack task before after` says that a task of a rule leads from the sentences
`before` to the sentences `after`: whatever is left to read when it begins is one of the former, and
what it leaves is one of the latter. Every task of a reading keeps to that, since each check finds an
expected token and each choice one that can be read on, and so none of them reports anything.
-/
namespace ResourceNames.Java

open Computability Layout

-- What the tables hold is known from lemmas. Comparing terms must not evaluate them.
attribute [local irreducible] Reach.point Item.ofPoint Item.owner Follow.expected Follow.settled?

/-- What is expected at some points was only added to, and only where the rule cannot end. -/
def Widened.Adds (widened : Widened) : Prop :=
  ∀ e ∈ widened, (Follow.expected e.1).ends = false ∧ (Follow.expected e.1).kinds ⊆ e.2

namespace Layout

/-- A point where a choice is made, with the points where its alternatives begin. -/
structure Splits (r : Rule) (p : Point) (points : List Point) : Prop where
  mem : p ∈ (ruleForm r).points
  inside : p ≠ stop .compilationUnit
  alts : ∀ q ∈ points, q ∈ (ruleForm r).points
  split : ∀ u, u ∈ rest p ↔ ∃ q ∈ points, u ∈ rest q

namespace Splits

variable {r : Rule} {p : Point} {points stack : List Point} {w : List Kind}

theorem ne_stop (h : Splits r p points) {q : Point} (hq : q ∈ points) :
    q ≠ stop .compilationUnit := by
  rintro rfl
  have hmem := h.mem
  obtain rfl : .compilationUnit = r :=
    (stands_stop .compilationUnit).owner.symm.trans (Item.owner_of_mem (h.alts _ hq))
  have hnil : [] ∈ rest p := by
    refine (h.split []).mpr ⟨_, hq, ?_⟩
    rw [(stands_stop .compilationUnit).rest]
    exact Language.nil_mem_one
  rw [← Reach.exits_iff hmem, Reach.exits_of_unit hmem h.inside] at hnil
  cases hnil

theorem exists_mem (h : Splits r p points) (hw : w ∈ rests (p :: stack)) :
    ∃ q ∈ points, w ∈ rests (q :: stack) := by
  rw [rests_cons] at hw
  obtain ⟨u, hu, v, hv, rfl⟩ := Language.mem_mul.mp hw
  obtain ⟨q, hq, hu⟩ := (h.split u).mp hu
  refine ⟨q, hq, ?_⟩
  rw [rests_cons]
  exact Language.append_mem_mul hu hv

end Splits

end Layout

namespace Parser

variable {s s' : Parser} {w : List Kind}

/-- A parser that has nothing to recover from stands before tokens of some kinds. The end of the
input stays where it is when it is read. -/
structure Before (w : List Kind) (s : Parser) : Prop where
  root : s.root = none
  idle : s.recovering = false
  widened : s.widened.Adds
  ended : Ended s.rest
  rest : s.rest.map Token.kind = w ∨ w = [] ∧ s.rest.map Token.kind = [.eof]

namespace Before

theorem map_kind (h : Before w s) (hw : w ≠ []) : s.rest.map Token.kind = w :=
  h.rest.resolve_right fun ⟨hnil, _⟩ => hw hnil

theorem current_kind {k : Kind} {v : List Kind} (h : Before (k :: v) s) : s.current.kind = k := by
  have hmap := h.map_kind (List.cons_ne_nil k v)
  cases hr : s.rest with
  | nil => simp [hr] at hmap
  | cons t ts =>
    rw [hr, List.map_cons] at hmap
    simpa [current, hr] using (List.cons.inj hmap).1

theorem consume {k : Kind} {v : List Kind} (h : Before (k :: v) s) : Before v s.consume := by
  have hmap := h.map_kind (List.cons_ne_nil k v)
  have hended := h.ended
  unfold Parser.consume
  split <;> rename_i hr <;> rw [hr] at hmap hended
  · exact ⟨h.root, h.idle, h.widened, hended.tail.2, .inl (List.cons.inj hmap).2⟩
  · obtain ⟨-, rfl⟩ := List.cons.inj hmap
    refine ⟨h.root, h.idle, h.widened, h.ended, .inr ⟨rfl, ?_⟩⟩
    simp [hr, hended.singleton]
  · simp at hmap

theorem setField (h : Before w s) (field : Option Field) (part : Tree) :
    Before w (s.setField field part) := by
  cases field
  · exact h
  · exact ⟨h.root, h.idle, h.widened, h.ended, h.rest⟩

theorem of_looked (h : Before w s) (hl : s' = s ∨ ∃ k, s' = s.look k) : Before w s' := by
  rcases hl with rfl | ⟨k, rfl⟩
  · exact h
  · exact ⟨h.root, h.idle, h.widened, h.ended, h.rest⟩

theorem moveTo (h : Before w s) (p : Point) : Before w (s.moveTo p) :=
  ⟨h.root, h.idle, h.widened, h.ended, h.rest⟩

end Before

/-! ### Checks -/

section

variable {r : Rule} {p : Point} {stack : List Point}

/-- No less is expected than before anything was learned. -/
theorem expected_subset (h : s.widened.Adds) (p : Point) :
    (s.expectedAt p).ends = (Follow.expected p).ends ∧
      (Follow.expected p).kinds ⊆ (s.expectedAt p).kinds := by
  unfold expectedAt
  split
  · rename_i ks hks
    obtain ⟨_, _, hmem, -⟩ := List.lookup_eq_some_iff.mp hks
    obtain ⟨hends, hkinds⟩ := h (p, ks) (by simp [hmem])
    exact ⟨hends.symm, hkinds⟩
  · exact ⟨rfl, List.Subset.refl _⟩

private theorem mem_expectedAt (h : s.widened.Adds) (hp : p ∈ (ruleForm r).points) {k : Kind}
    {v : List Kind} (hw : k :: v ∈ rests (p :: stack)) :
    ((s.expectedAt p).ends || (s.expectedAt p).kinds.contains k) = true := by
  obtain ⟨hends, hkinds⟩ := expected_subset h p
  rw [hends, Bool.or_eq_true, List.contains_iff_mem]
  exact (Follow.mem_expected hp hw).imp id fun hk => hkinds hk

/-- A check finds an expected token. -/
private theorem sync_complete (gate : Gate) (h : Before w s) (hp : p ∈ (ruleForm r).points)
    (hinside : p ≠ stop .compilationUnit) (hc : Chain r stack) (hw : w ∈ rests (p :: stack)) :
    (s.moveTo p).sync gate = ⟨s.moveTo p, none⟩ := by
  cases w with
  | nil => exact absurd hw (nil_not_mem_rests hp hc hinside)
  | cons k v =>
    have hexpected := mem_expectedAt h.widened hp hw
    rw [← h.current_kind] at hexpected
    unfold sync
    simp only [Parser.moveTo, h.idle]
    exact if_pos hexpected

/-! ### Choices -/

/-- Looking ahead chooses an alternative that can be read. -/
private theorem predict_complete {d : Decision} {a : Nat}
    (h : (d.decide s.stack s.rest).choice = .ok a) : ∃ k, s.predict d = (s.look k, .ok a) := by
  unfold predict
  simp only [h]
  exact ⟨_, rfl⟩

private theorem eq_of_mem_of_disjoint {looks : List (List Kind)} {k : Kind}
    (h : looks.Pairwise fun a b => Kinds.disjoint a b = true) {i j : Nat} {a b : List Kind}
    (hi : looks[i]? = some a) (hj : looks[j]? = some b) (ha : k ∈ a) (hb : k ∈ b) : i = j := by
  obtain ⟨hli, rfl⟩ := List.getElem?_eq_some_iff.mp hi
  obtain ⟨hlj, rfl⟩ := List.getElem?_eq_some_iff.mp hj
  rw [List.pairwise_iff_getElem] at h
  rcases Nat.lt_trichotomy i j with hlt | heq | hlt
  · have hdisjoint := List.all_eq_true.mp (h i j hli hlj hlt) k ha
    simp [hb] at hdisjoint
  · exact heq
  · have hdisjoint := List.all_eq_true.mp (h j i hlj hli hlt) k hb
    simp [ha] at hdisjoint

/-- A choice finds an alternative that can be read. -/
private theorem choose_complete {start : Point} {points : List Point} (otherwise : Except Halt Nat)
    (hb : Before w s) (hs : Splits r p points) (hc : Chain r s.stack)
    (hsettled : Follow.settled? start = Follow.looks? points) (hw : w ∈ rests (p :: s.stack)) :
    ∃ s' i q, s.choose start points otherwise = (s', .ok (i + 1)) ∧ points[i]? = some q ∧
      w ∈ rests (q :: s.stack) := by
  obtain ⟨q, hq, hwq⟩ := hs.exists_mem hw
  cases w with
  | nil => exact absurd hw (nil_not_mem_rests hs.mem hc hs.inside)
  | cons k v =>
    have hmap := hb.map_kind (List.cons_ne_nil k v)
    unfold choose
    rw [hsettled]
    split
    · obtain ⟨i, q, hchoice, hi, hw⟩ := Decision.decide_among_complete hb.ended hc
        (fun q hq => ⟨hs.alts q hq, hs.ne_stop hq⟩) ⟨q, hq, hmap.symm ▸ hwq⟩
      obtain ⟨n, hpredict⟩ := predict_complete hchoice
      exact ⟨_, i, q, hpredict, hi, hmap ▸ hw⟩
    · rename_i looks hlooks
      obtain ⟨j, hj⟩ := List.getElem?_of_mem hq
      have hk := Follow.mem_lookahead (hs.alts q hq) hc hwq
      have hpairwise : looks = points.map Follow.lookahead ∧
          looks.Pairwise fun a b => Kinds.disjoint a b = true := by
        unfold Follow.looks? at hlooks
        dsimp only at hlooks
        split at hlooks
        · rename_i hp
          obtain rfl := Option.some.inj hlooks
          exact ⟨rfl, hp⟩
        · cases hlooks
      obtain ⟨rfl, hpairwise⟩ := hpairwise
      have hlook : (points.map Follow.lookahead)[j]? = some (Follow.lookahead q) := by
        rw [List.getElem?_map, hj, Option.map_some]
      rw [hb.current_kind]
      split
      · rename_i i hi
        obtain ⟨hlt, hcontains, -⟩ := List.findIdx?_eq_some_iff_getElem.mp hi
        have hij := eq_of_mem_of_disjoint hpairwise (List.getElem?_eq_getElem hlt) hlook
          (List.contains_iff_mem.mp hcontains) hk
        exact ⟨s, i, q, rfl, hij ▸ hj, hwq⟩
      · rename_i hnone
        rw [List.findIdx?_eq_none_iff] at hnone
        have hfalse := hnone _ (List.mem_of_getElem? hlook)
        simp [hk] at hfalse

/-- A loop goes around again or ends so that the tokens ahead can be read on. -/
private theorem another_complete {entry again next : Point} (hb : Before w s)
    (hs : Splits r p [again, next]) (hc : Chain r s.stack)
    (hsettled : Follow.settled? entry = Follow.looks? [again, next])
    (hw : w ∈ rests (p :: s.stack)) :
    ∃ s' b, another entry [again, next] s = (s', .ok b) ∧
      (b = true ∧ w ∈ rests (again :: s.stack) ∨ b = false ∧ w ∈ rests (next :: s.stack)) := by
  obtain ⟨s', i, q, hchoice, hi, hwq⟩ := choose_complete (.ok 2) hb hs hc hsettled hw
  refine ⟨s', i + 1 == 1, by unfold another; rw [hchoice], ?_⟩
  match i with
  | 0 =>
    obtain rfl := Option.some.inj hi
    exact .inl ⟨rfl, hwq⟩
  | 1 =>
    obtain rfl := Option.some.inj hi
    exact .inr ⟨rfl, hwq⟩
  | i + 2 => cases hi

/-- Another tail is read or none so that the tokens ahead can be read on. -/
private theorem anotherTail_complete {ops : Operators} {level : Nat} (hb : Before w s)
    (hc : Chain r s.stack) (ho : (ruleForm r).body = .operators ops)
    (hlevel : Decision.IsOperand level s.stack) (hw : w ∈ ops.tailLanguage∗ * rests s.stack) :
    ∃ s' b, anotherTail r ops level s = (s', .ok b) ∧
      (b = true ∧ Decision.TailFollows ops level s.stack w ∨ b = false ∧ w ∈ rests s.stack) := by
  have hentry := (tailsSit ho).entry
  have hmap : s.rest.map Token.kind = w := hb.map_kind fun hnil => by
    refine nil_not_mem_rests hentry.mem hc (Decision.ne_stop ho hentry.mem) ?_
    rwa [rests_cons, hentry.rest, ← hnil]
  obtain ⟨a, hchoice, ha⟩ := Decision.decide_again_complete hb.ended hc ho hlevel (hmap.symm ▸ hw)
  obtain ⟨k, hpredict⟩ := predict_complete hchoice
  refine ⟨s.look k, a == 1, by unfold anotherTail; rw [hpredict], ?_⟩
  rw [hmap] at ha
  rcases ha with ⟨rfl, htail⟩ | ⟨rfl, hw⟩
  · exact .inl ⟨rfl, htail⟩
  · exact .inr ⟨rfl, hw⟩

/-- A tail is chosen that can be read and is not too low. -/
private theorem predict_tail_complete {ops : Operators} {level : Nat} (hb : Before w s)
    (hc : Chain r s.stack) (ho : (ruleForm r).body = .operators ops)
    (hw : Decision.TailFollows ops level s.stack w) :
    ∃ s' i t, s.predict (.tail ops level) = (s', .ok (i + 1)) ∧ ops.tails[i]? = some t ∧
      level ≤ t.1 ∧ w ∈ rests (t.2.entry :: s.stack) := by
  obtain ⟨t, ht, -, hwt⟩ := id hw
  have hentry := (sits_tail ho ht).stands_entry.mem
  have hmap : s.rest.map Token.kind = w := hb.map_kind fun hnil =>
    nil_not_mem_rests hentry hc (Decision.ne_stop ho hentry) (hnil ▸ hwt)
  obtain ⟨i, u, hchoice, hi, hlevel, hwu⟩ :=
    Decision.decide_tail_complete hb.ended hc ho (hmap.symm ▸ hw)
  obtain ⟨k, hpredict⟩ := predict_complete hchoice
  exact ⟨s.look k, i, u, hpredict, hi, hlevel, hmap ▸ hwu⟩

end

theorem Picks.settled {start : Point} {points : List Point} {alts : List Form}
    {optional : Bool} (h : Picks start points alts optional) :
    Follow.settled? start = Follow.looks? points := by
  cases h with
  | choice held | opt held => exact Follow.settled?_of_holds held (by simp [Follow.decisions])

theorem Loops.settled {entry : Point} {points : List Point} {round : List Task}
    (h : Loops entry points round) : Follow.settled? entry = Follow.looks? points := by
  cases h with
  | star held | plus held => exact Follow.settled?_of_holds held (by simp [Follow.decisions])

/-! ### Tasks -/

/-- A task of a rule, under a call stack of the rule, leads from some sentences to others. -/
inductive Task.Bridges (r : Rule) (stack : List Point) :
    Task → Language Kind → Language Kind → Prop where
  | sync {gate p before} (mem : p ∈ (ruleForm r).points) (inside : p ≠ stop .compilationUnit)
      (le : ∀ w ∈ before, w ∈ rests (p :: stack)) : Bridges r stack (.sync gate p) before before
  | form {f after} (inside : ∀ p ∈ f.points, p ≠ stop .compilationUnit) (sits : f.Sits r after) :
      Bridges r stack (.form f) (rests (f.entry :: stack)) (after * rests stack)
  | nil {before} : Bridges r stack (.all []) before before
  | cons {t ts before mid after} (first : Bridges r stack t before mid)
      (rest : Bridges r stack (.all ts) mid after) : Bridges r stack (.all (t :: ts)) before after
  | pick {start points alts optional after} (splits : Splits r start points)
      (inside : ∀ p ∈ pointsAll alts, p ≠ stop .compilationUnit) (sits : Form.SitEach r alts after)
      (first : ∀ (i : Nat) (f : Form), alts[i]? = some f → points[i]? = some f.entry)
      (past : ∀ (i : Nat) (p : Point), points[i]? = some p → alts[i]? = none → Stands r p after) :
      Bridges r stack (.pick start points alts optional) (rests (start :: stack))
        (after * rests stack)
  | loop {entry back next body rounds after}
      (inside : ∀ p ∈ back :: body.points, p ≠ stop .compilationUnit)
      (again : Stands r back (body.language∗ * after)) (past : Stands r next after)
      (sits : body.Sits r (body.language∗ * after)) :
      Bridges r stack (.loop entry [body.entry, next] (roundTasks back body) rounds)
        (rests (back :: stack)) (after * rests stack)
  | tail {ops level start} (operators : (ruleForm r).body = .operators ops) :
      Bridges r stack (.tail r ops level start) {w | Decision.TailFollows ops level stack w}
        (ops.tailLanguage∗ * rests stack)
  | tails {ops level start rounds} (operators : (ruleForm r).body = .operators ops)
      (operand : Decision.IsOperand level stack) :
      Bridges r stack (.tails r ops level start rounds) (ops.tailLanguage∗ * rests stack)
        (rests stack)
  | body {level} (operand : Decision.IsOperand level stack) :
      Bridges r stack (.body r level) (r.language * rests stack) (rests stack)
  | call {next rule level field after} (stands : Stands r next after)
      (site : ⟨level, next⟩ ∈ Follow.sites rule) :
      Bridges r stack (.call next rule level field) (rule.language * rests (next :: stack))
        (rests (next :: stack))

/-- A task has reported nothing and has left one of some sentences, or a bound is used up. -/
structure Kept (s : Parser) (after : Language Kind) (o : Outcome) : Prop where
  reports : o.parser.reports = s.reports
  stack : o.parser.stack = s.stack
  halt : (o.halt = none ∧ ∃ w ∈ after, Before w o.parser) ∨ o.halt = some .exhausted

section

variable {limit depth : Nat} {o : Outcome} {before after : Language Kind} {r : Rule} {t : Task}

private theorem Kept.of_eq (h : Kept s' after o) (hr : s'.reports = s.reports)
    (hst : s'.stack = s.stack) : Kept s after o :=
  ⟨h.reports.trans hr, h.stack.trans hst, h.halt⟩

private theorem Kept.of_looked (h : Kept s' after o) (hl : s' = s ∨ ∃ k, s' = s.look k) :
    Kept s after o := by
  rcases hl with rfl | ⟨k, rfl⟩
  · exact h
  · exact h.of_eq rfl rfl

private theorem stack_of_looked (hl : s' = s ∨ ∃ k, s' = s.look k) : s'.stack = s.stack := by
  rcases hl with rfl | ⟨k, rfl⟩ <;> rfl

private theorem kept_none (hw : w ∈ after) (hb : Before w s) : Kept s after ⟨s, none⟩ :=
  ⟨rfl, rfl, .inl ⟨rfl, w, hw, hb⟩⟩

private theorem reports_consume (s : Parser) :
    s.consume.reports = s.reports ∧ s.consume.stack = s.stack := by
  unfold Parser.consume
  split <;> exact ⟨rfl, rfl⟩

private theorem reports_setField (s : Parser) (field : Option Field) (part : Tree) :
    (s.setField field part).reports = s.reports ∧ (s.setField field part).stack = s.stack := by
  cases field <;> exact ⟨rfl, rfl⟩

private theorem Before.settle (h : Before w s) : Before w s.settle :=
  ⟨h.root, rfl, h.widened, h.ended, h.rest⟩

private theorem kept_token {here next : Point} {kind : Kind} {field : Option Field}
    (hs : (Form.token here next kind field).Sits r after) (hb : Before w s)
    (hw : w ∈ rests (here :: s.stack)) :
    Kept s (after * rests s.stack) (Parser.token here next kind field s) := by
  rw [rests_cons, hs.1.rest, mul_assoc] at hw
  obtain ⟨u, hu, v, hv, rfl⟩ := Language.mem_mul.mp hw
  obtain rfl := Phrase.mem_language_token.mp hu
  have hcurrent : (s.moveTo here).current.kind = kind := (hb.moveTo here).current_kind
  unfold Parser.token
  dsimp only
  rw [if_pos hcurrent]
  have hnext := (hb.moveTo here).settle.consume.setField field (.leaf (s.moveTo here).current false)
  refine ⟨?_, ?_, .inl ⟨rfl, v, hv, hnext⟩⟩
  · exact (reports_setField _ _ _).1.trans (reports_consume _).1
  · exact (reports_setField _ _ _).2.trans (reports_consume _).2

private theorem kept_oneOf {here next : Point} {kinds : List Kind} {field : Option Field}
    (hs : (Form.oneOf here next kinds field).Sits r after) (hb : Before w s)
    (hw : w ∈ rests (here :: s.stack)) :
    Kept s (after * rests s.stack) (Parser.oneOf here next kinds field s) := by
  rw [rests_cons, hs.1.rest, mul_assoc] at hw
  obtain ⟨u, hu, v, hv, rfl⟩ := Language.mem_mul.mp hw
  obtain ⟨k, hk, rfl⟩ := Phrase.mem_language_oneOf.mp hu
  have hset := (hb.moveTo here).setField field (.leaf (s.moveTo here).current false)
  unfold Parser.oneOf
  dsimp only
  rw [hset.current_kind, if_pos (List.contains_iff_mem.mpr hk)]
  refine ⟨?_, ?_, .inl ⟨rfl, v, hv, hset.settle.consume⟩⟩
  · exact (reports_consume _).1.trans (reports_setField _ _ _).1
  · exact (reports_consume _).2.trans (reports_setField _ _ _).2

variable {stack : List Point} {start join entry back next : Point} {alts fs : List Form} {f body : Form}

/-- Forms in a row are read one after another. -/
private theorem bridges_forms (inside : ∀ p ∈ pointsAll fs, p ≠ stop .compilationUnit)
    (hs : Form.SitAll r fs after) :
    Task.Bridges r stack (.all (fs.map .form)) (Form.languageSeq fs * after * rests stack)
      (after * rests stack) := by
  induction fs with
  | nil =>
    rw [Form.languageSeq_nil, one_mul]
    exact .nil
  | cons f fs ih =>
    have hfirst : Task.Bridges r stack (.form f) _ _ :=
      .form (fun p hp => inside p (List.mem_append_left _ hp)) hs.1
    rw [rests_cons, hs.1.stands_entry.rest, ← mul_assoc, ← Form.languageSeq_cons] at hfirst
    exact .cons hfirst (ih (fun p hp => inside p (List.mem_append_right _ hp)) hs.2)

private theorem bridges_sync {gate : Gate} {p : Point} (hp : Stands r p after)
    (inside : p ≠ stop .compilationUnit) :
    Task.Bridges r stack (.sync gate p) (after * rests stack) (after * rests stack) := by
  refine .sync hp.mem inside fun w hw => ?_
  rw [rests_cons, hp.rest]
  exact hw

private theorem mem_pointsAll {p : Point} (hf : f ∈ fs) (hp : p ∈ f.points) : p ∈ pointsAll fs := by
  induction fs with
  | nil => cases hf
  | cons g fs ih =>
    rcases List.mem_cons.mp hf with rfl | hf
    · exact List.mem_append_left _ hp
    · exact List.mem_append_right _ (ih hf)

private theorem mem_rest_alts {u : List Kind} (hs : Form.SitEach r alts after) :
    u ∈ Form.languageAny alts * after ↔ ∃ q ∈ alts.map Form.entry, u ∈ Layout.rest q := by
  rw [Form.sitEach_iff] at hs
  simp only [List.mem_map, exists_exists_and_eq_and]
  constructor
  · intro hu
    obtain ⟨x, hx, y, hy, rfl⟩ := Language.mem_mul.mp hu
    obtain ⟨f, hf, hx⟩ := Form.mem_languageAny.mp hx
    refine ⟨f, hf, ?_⟩
    rw [(hs f hf).stands_entry.rest]
    exact Language.append_mem_mul hx hy
  · rintro ⟨f, hf, hu⟩
    rw [(hs f hf).stands_entry.rest] at hu
    obtain ⟨x, hx, y, hy, rfl⟩ := Language.mem_mul.mp hu
    exact Language.append_mem_mul (Form.mem_languageAny.mpr ⟨f, hf, hx⟩) hy

private theorem mem_points_alts (hs : Form.SitEach r alts after) :
    ∀ q ∈ alts.map Form.entry, q ∈ (ruleForm r).points := by
  intro q hq
  obtain ⟨f, hf, rfl⟩ := List.mem_map.mp hq
  exact (Form.sitEach_iff.mp hs f hf).stands_entry.mem

private theorem bridges_choice
    (inside : ∀ p ∈ (Form.choice start join alts).points, p ≠ stop .compilationUnit)
    (hs : (Form.choice start join alts).Sits r after) :
    Task.Bridges r stack (.all [.sync .entry start, .pick start (alts.map Form.entry) alts false])
      (rests (start :: stack)) (after * rests stack) := by
  obtain ⟨hstart, -, heach⟩ := hs
  simp only [Form.points, List.mem_cons, forall_eq_or_imp] at inside
  have hsplits : Splits r start (alts.map Form.entry) := by
    refine ⟨hstart.mem, inside.1, mem_points_alts heach, fun u => ?_⟩
    rw [hstart.rest]
    exact mem_rest_alts heach
  refine .cons (.sync hstart.mem inside.1 fun _ => id)
    (.cons (.pick hsplits inside.2.2 heach (fun i f hi => ?_) (fun i p hi hnone => ?_)) .nil)
  · rw [List.getElem?_map, hi, Option.map_some]
  · rw [List.getElem?_map, hnone] at hi
    cases hi

private theorem bridges_opt
    (inside : ∀ p ∈ (Form.opt start join alts).points, p ≠ stop .compilationUnit)
    (hs : (Form.opt start join alts).Sits r after) :
    Task.Bridges r stack
      (.all [.sync .entry start, .pick start (alts.map Form.entry ++ [join]) alts true])
      (rests (start :: stack)) (after * rests stack) := by
  obtain ⟨hstart, hjoin, heach⟩ := hs
  simp only [Form.points, List.mem_cons, forall_eq_or_imp] at inside
  have hsplits : Splits r start (alts.map Form.entry ++ [join]) := by
    refine ⟨hstart.mem, inside.1, fun q hq => ?_, fun u => ?_⟩
    · rcases List.mem_append.mp hq with hq | hq
      · exact mem_points_alts heach q hq
      · exact List.mem_singleton.mp hq ▸ hjoin.mem
    · rw [hstart.rest, add_mul, one_mul, Language.mem_add, mem_rest_alts heach, or_comm,
        ← hjoin.rest]
      simp only [List.mem_append, List.mem_singleton, or_and_right, exists_or, exists_eq_left]
  refine .cons (.sync hstart.mem inside.1 fun _ => id)
    (.cons (.pick hsplits inside.2.2 heach (fun i f hi => ?_) (fun i p hi hnone => ?_)) .nil)
  · have hlt : i < (alts.map Form.entry).length := by
      simpa using (List.getElem?_eq_some_iff.mp hi).1
    rw [List.getElem?_append_left hlt, List.getElem?_map, hi, Option.map_some]
  · have hle : (alts.map Form.entry).length ≤ i := by simpa using hnone
    rw [List.getElem?_append_right hle] at hi
    obtain rfl := List.mem_singleton.mp (List.mem_of_getElem? hi)
    exact hjoin

/-- After a round of a loop one is back where it is decided whether there is another one. -/
private theorem bridges_round {ts : List Task}
    (inside : ∀ p ∈ back :: body.points, p ≠ stop .compilationUnit)
    (hback : Stands r back (body.language∗ * after)) (hbody : body.Sits r (body.language∗ * after))
    {last : Language Kind} (h : Task.Bridges r stack (.all ts) (rests (back :: stack)) last) :
    Task.Bridges r stack (.all (roundTasks back body ++ ts)) (rests (body.entry :: stack)) last := by
  rw [List.forall_mem_cons] at inside
  rw [rests_cons, hback.rest] at h
  exact .cons (.form inside.2 hbody) (.cons (bridges_sync hback inside.1) h)

private theorem splits_loop (inside : ∀ p ∈ back :: body.points, p ≠ stop .compilationUnit)
    (hback : Stands r back (body.language∗ * after)) (hnext : Stands r next after)
    (hbody : body.Sits r (body.language∗ * after)) : Splits r back [body.entry, next] := by
  have hentry := hbody.stands_entry
  refine ⟨hback.mem, inside _ List.mem_cons_self, by simp [hentry.mem, hnext.mem], fun u => ?_⟩
  simp only [List.mem_cons, List.not_mem_nil, or_false, exists_eq_or_imp, exists_eq_left]
  rw [hback.rest, hentry.rest, hnext.rest, ← mul_assoc, or_comm, ← Language.mem_add]
  nth_rewrite 1 [← Language.one_add_self_mul_kstar_eq_kstar]
  rw [add_mul, one_mul]

private theorem bridges_loop {rounds : Nat}
    (inside : ∀ p ∈ back :: body.points, p ≠ stop .compilationUnit)
    (hback : Stands r back (body.language∗ * after)) (hnext : Stands r next after)
    (hbody : body.Sits r (body.language∗ * after)) :
    Task.Bridges r stack (.all [.loop entry [body.entry, next] (roundTasks back body) rounds])
      (rests (back :: stack)) (after * rests stack) :=
  .cons (.loop inside hback hnext hbody) .nil

private theorem bridges_star {rounds : Nat}
    (inside : ∀ p ∈ (Form.star entry back next body).points, p ≠ stop .compilationUnit)
    (hs : (Form.star entry back next body).Sits r after) :
    Task.Bridges r stack
      (.all [.sync .entry entry, .loop entry [body.entry, next] (roundTasks back body) rounds])
      (rests (entry :: stack)) (after * rests stack) := by
  obtain ⟨hentry, hback, hnext, -, hbody⟩ := hs
  rw [Form.points, List.forall_mem_cons] at inside
  have hloop : Task.Bridges r stack
      (.all [.loop entry [body.entry, next] (roundTasks back body) rounds]) _ _ :=
    bridges_loop inside.2 hback hnext hbody
  rw [rests_cons, hback.rest, ← hentry.rest, ← rests_cons] at hloop
  exact .cons (.sync hentry.mem inside.1 fun _ => id) hloop

private theorem bridges_plus {rounds : Nat}
    (inside : ∀ p ∈ (Form.plus start back next body).points, p ≠ stop .compilationUnit)
    (hs : (Form.plus start back next body).Sits r after) :
    Task.Bridges r stack
      (.all (.sync .entry start :: (roundTasks back body ++
        [.loop start [body.entry, next] (roundTasks back body) rounds])))
      (rests (start :: stack)) (after * rests stack) := by
  obtain ⟨hstart, hback, hnext, -, hbody⟩ := hs
  rw [Form.points, List.forall_mem_cons] at inside
  have hround : Task.Bridges r stack (.all (roundTasks back body ++
      [.loop start [body.entry, next] (roundTasks back body) rounds])) _ _ :=
    bridges_round inside.2 hback hbody (bridges_loop inside.2 hback hnext hbody)
  rw [rests_cons, hbody.stands_entry.rest, ← hstart.rest, ← rests_cons] at hround
  exact .cons (.sync hstart.mem inside.1 fun _ => id) hround

variable {ops : Operators} {level : Nat} {first : Token}

private theorem tailFollows_le (ho : (ruleForm r).body = .operators ops)
    (hw : Decision.TailFollows ops level stack w) : w ∈ rests (ops.start :: stack) := by
  obtain ⟨t, ht, -, hw⟩ := hw
  rw [rests_cons, (sits_tail ho ht).stands_entry.rest, mul_assoc] at hw
  obtain ⟨x, hx, y, hy, rfl⟩ := Language.mem_mul.mp hw
  rw [rests_cons, (tailsSit ho).start.rest, mul_assoc]
  exact Language.append_mem_mul (Form.mem_languageAny.mpr ⟨_, List.mem_map_of_mem ht, hx⟩) hy

private theorem mem_points_tail (ho : (ruleForm r).body = .operators ops) {t : Nat × Form}
    (ht : t ∈ ops.tails) {p : Point} (hp : p ∈ t.2.points) : p ∈ (ruleForm r).points := by
  simp only [RuleForm.points, BodyForm.points, ho, List.mem_cons, List.mem_append, List.mem_flatMap]
  exact .inr (.inr (.inr (.inr (.inr (.inr ⟨t, ht, hp⟩)))))

private theorem bridges_tails {rounds : Nat} (ho : (ruleForm r).body = .operators ops)
    (hlevel : Decision.IsOperand level stack) :
    Task.Bridges r stack
      (.all (tailTasks r ops level first ++ [.tails r ops level first rounds]))
      {w | Decision.TailFollows ops level stack w} (rests stack) := by
  have hs := tailsSit ho
  refine .cons (.sync hs.start.mem (Decision.ne_stop ho hs.start.mem) fun w => tailFollows_le ho)
    (.cons (.tail ho) (.cons ?_ (.cons (.tails ho hlevel) .nil)))
  exact bridges_sync hs.back (Decision.ne_stop ho hs.back.mem)

private theorem bridges_operators {rounds : Nat} (ho : (ruleForm r).body = .operators ops)
    (hlevel : Decision.IsOperand level stack) :
    Task.Bridges r stack
      (.all [.form ops.heads, .sync .entry ops.entry, .tails r ops level first rounds])
      (r.language * rests stack) (rests stack) := by
  have hs := tailsSit ho
  have hheads := sits_heads ho
  have hform : Task.Bridges r stack (.form ops.heads) _ _ :=
    .form (fun p hp => Decision.ne_stop ho ?_) hheads
  · rw [rests_cons, hheads.stands_entry.rest, ← Rule.language_operators ho] at hform
    exact .cons hform
      (.cons (bridges_sync hs.entry (Decision.ne_stop ho hs.entry.mem)) (.cons (.tails ho hlevel) .nil))
  · simp [RuleForm.points, BodyForm.points, ho, hp]

/-- The end of a whole unit is no point of the body of a rule. -/
private theorem ne_stop_of_mem_body {p : Point} (hp : p ∈ (ruleForm r).body.points) :
    p ≠ stop .compilationUnit := by
  rintro rfl
  obtain rfl : .compilationUnit = r := (stands_stop .compilationUnit).owner.symm.trans
    (Item.owner_of_mem (List.mem_cons_of_mem _ hp))
  exact (List.nodup_cons.mp (nodup_points .compilationUnit)).1 hp

private theorem isOperand_of_site {rule : Rule} (site : ⟨level, next⟩ ∈ Follow.sites rule) :
    Decision.IsOperand level (next :: stack) :=
  (Follow.proper_of_mem_sites site).operand.imp id fun h => ⟨next, stack, rfl, h⟩

/-- What a called rule leaves is left to the caller. -/
private theorem Kept.leave {rule : Rule} {field : Option Field}
    (h : Kept (s.enter next) after o) : Kept s after (leave rule field s (close rule o)) := by
  have hclose : close rule o = o := by
    unfold close
    rcases h.halt with ⟨hnone, -⟩ | hworn
    · rw [hnone]
    · rw [hworn]
      obtain ⟨s', halt⟩ := o
      cases hworn
      rfl
  rw [hclose]
  refine ⟨?_, (reports_setField _ _ _).2, ?_⟩
  · exact (reports_setField _ _ _).1.trans h.reports
  · refine h.halt.imp (fun ⟨hnone, w, hw, hb⟩ => ⟨hnone, w, hw, ?_⟩) id
    have hback : Before w { o.parser with
        stack := s.stack
        children := o.parser.node rule s.current :: s.children
        fields := s.fields
        here := pointAfter rule s.here o.parser.here } :=
      ⟨hb.root, hb.idle, hb.widened, hb.ended, hb.rest⟩
    exact hback.setField field _

/-! ### Guided readings -/

/-- A task of a rule leads to the sentences `after`, under calls that lead out to the rule `out`. If
that is a whole unit, what is left to read is a sentence from which the task leads there. -/
structure Guided (out r : Rule) (t : Task) (s : Parser) (after : Language Kind) : Prop where
  leads : Leads r s.stack out
  bridges : ∃ before, t.Bridges r s.stack before after ∧
    (out = .compilationUnit → ∃ w ∈ before, Before w s)

namespace Guided

variable {out rule : Rule} {points : List Point} {field : Option Field}

theorem cons {ts : List Task} (h : Guided out r (.all (t :: ts)) s after) :
    ∃ mid, Guided out r t s mid ∧ ∀ s', s'.stack = s.stack →
      (out = .compilationUnit → ∃ w ∈ mid, Before w s') → Guided out r (.all ts) s' after := by
  obtain ⟨hl, _, hb, hw⟩ := h
  cases hb with
  | cons first rest =>
    exact ⟨_, ⟨hl, _, first, hw⟩, fun s' hs hw' => ⟨hs ▸ hl, _, hs ▸ rest, hw'⟩⟩

theorem invoke {here : Point} (h : Guided out r (.form (.call here next rule level field)) s after) :
    Guided out r (.call next rule level field) (s.moveTo here) after := by
  obtain ⟨hl, _, hb, hw⟩ := h
  cases hb with
  | form inside sits =>
    obtain ⟨hhere, hnext, site⟩ := sits
    have hcall : Task.Bridges r s.stack (.call next rule level field) _ _ := .call hnext site
    rw [rests_cons, hnext.rest, ← mul_assoc] at hcall
    refine ⟨hl, _, hcall, fun hunit => ?_⟩
    obtain ⟨w, hw, hs⟩ := hw hunit
    rw [Form.entry, rests_cons, hhere.rest] at hw
    exact ⟨w, hw, hs.moveTo here⟩

theorem seq (h : Guided out r (.form (.seq entry fs)) s after) :
    Guided out r (.all (fs.map .form)) s after := by
  obtain ⟨hl, _, hb, hw⟩ := h
  cases hb with
  | form inside sits =>
    rw [Form.entry, rests_cons, sits.1.rest] at hw
    exact ⟨hl, _, bridges_forms inside sits.2, hw⟩

theorem choice (h : Guided out r (.form (.choice start join alts)) s after) :
    Guided out r (.all [.sync .entry start, .pick start (alts.map Form.entry) alts false]) s after := by
  obtain ⟨hl, _, hb, hw⟩ := h
  cases hb with
  | form inside sits => exact ⟨hl, _, bridges_choice inside sits, hw⟩

theorem opt (h : Guided out r (.form (.opt start join alts)) s after) :
    Guided out r (.all [.sync .entry start,
      .pick start (alts.map Form.entry ++ [join]) alts true]) s after := by
  obtain ⟨hl, _, hb, hw⟩ := h
  cases hb with
  | form inside sits => exact ⟨hl, _, bridges_opt inside sits, hw⟩

theorem star {rounds : Nat} (h : Guided out r (.form (.star entry back next body)) s after) :
    Guided out r (.all [.sync .entry entry,
      .loop entry [body.entry, next] (roundTasks back body) rounds]) s after := by
  obtain ⟨hl, _, hb, hw⟩ := h
  cases hb with
  | form inside sits => exact ⟨hl, _, bridges_star inside sits, hw⟩

theorem plus {rounds : Nat} (h : Guided out r (.form (.plus start back next body)) s after) :
    Guided out r (.all (.sync .entry start :: (roundTasks back body ++
      [.loop start [body.entry, next] (roundTasks back body) rounds]))) s after := by
  obtain ⟨hl, _, hb, hw⟩ := h
  cases hb with
  | form inside sits => exact ⟨hl, _, bridges_plus inside sits, hw⟩

theorem picked {optional : Bool} {n : Nat}
    (h : Guided out r (.pick start points alts optional) s after)
    (origin : Picks start points alts optional)
    (choice : s.choose start points (fallback optional alts s) = (s', .ok (n + 1)))
    (alt : alts[n]? = some f) : Guided out r (.form f) s' after := by
  obtain ⟨hc, _, hb, hw⟩ := h
  have hl := choose_looks choice
  have hst := stack_of_looked hl
  cases hb with
  | pick splits inside sits first past =>
    have hf := List.mem_of_getElem? alt
    rw [← hst]
    refine ⟨hst ▸ hc, _, .form (fun p hp => inside p (mem_pointsAll hf hp))
      (Form.sitEach_iff.mp sits _ hf), fun hunit => ?_⟩
    subst hunit
    obtain ⟨w, hw, hs⟩ := hw rfl
    obtain ⟨_, i, q, hchoice, hi, hwq⟩ := choose_complete _ hs splits hc origin.settled hw
    cases choice.symm.trans hchoice
    obtain rfl := Option.some.inj (hi.symm.trans (first _ _ alt))
    exact ⟨w, hst ▸ hwq, hs.of_looked hl⟩

theorem again {round : List Task} {rounds : Nat}
    (h : Guided out r (.loop entry points round (rounds + 1)) s after)
    (origin : Loops entry points round) (more : another entry points s = (s', .ok true)) :
    Guided out r (.all (round ++ [.loop entry points round rounds])) s' after := by
  obtain ⟨hc, _, hb, hw⟩ := h
  have hl := another_looks more
  have hst := stack_of_looked hl
  cases hb with
  | loop inside again past sits =>
    rw [← hst]
    refine ⟨hst ▸ hc, _, bridges_round inside again sits (bridges_loop inside again past sits),
      fun hunit => ?_⟩
    subst hunit
    obtain ⟨w, hw, hs⟩ := hw rfl
    obtain ⟨_, b, hmore, hb⟩ :=
      another_complete hs (splits_loop inside again past sits) hc origin.settled hw
    cases more.symm.trans hmore
    obtain ⟨-, hwb⟩ := hb.resolve_right (by simp)
    exact ⟨w, hst ▸ hwb, hs.of_looked hl⟩

theorem tail {alt : Nat} {u : Nat × Form} (h : Guided out r (.tail rule ops level first) s after)
    (form : (ruleForm rule).body = .operators ops)
    (choice : s.predict (.tail ops level) = (s', .ok alt)) (found : ops.tails[alt - 1]? = some u) :
    Guided out r (.form u.2) (s'.wrap rule first) after := by
  obtain ⟨hc, _, hb, hw⟩ := h
  have hl := predict_looks choice
  have hst : (s'.wrap rule first).stack = s.stack := (stack_of_looked hl :)
  cases hb with
  | tail operators =>
    have hu := List.mem_of_getElem? found
    rw [← hst]
    refine ⟨hst ▸ hc, _, .form (fun p hp => Decision.ne_stop form (mem_points_tail form hu hp))
      (sits_tail form hu), fun hunit => ?_⟩
    subst hunit
    obtain ⟨w, hw, hs⟩ := hw rfl
    obtain ⟨_, i, x, hchoice, hi, -, hwu⟩ := predict_tail_complete hs hc form hw
    cases choice.symm.trans hchoice
    obtain rfl := Option.some.inj (hi.symm.trans found)
    have hs' := hs.of_looked hl
    exact ⟨w, hst ▸ hwu, hs'.root, hs'.idle, hs'.widened, hs'.ended, hs'.rest⟩

theorem againTails {rounds : Nat} (h : Guided out r (.tails rule ops level first (rounds + 1)) s after)
    (form : (ruleForm rule).body = .operators ops)
    (more : anotherTail rule ops level s = (s', .ok true)) :
    Guided out r (.all (tailTasks rule ops level first ++ [.tails rule ops level first rounds])) s'
      after := by
  obtain ⟨hc, _, hb, hw⟩ := h
  have hl := anotherTail_looks more
  have hst := stack_of_looked hl
  cases hb with
  | tails operators operand =>
    rw [← hst]
    refine ⟨hst ▸ hc, _, bridges_tails form (hst ▸ operand), fun hunit => ?_⟩
    subst hunit
    obtain ⟨w, hw, hs⟩ := hw rfl
    obtain ⟨_, b, hmore, hb⟩ := anotherTail_complete hs hc form operand hw
    cases more.symm.trans hmore
    obtain ⟨-, hwt⟩ := hb.resolve_right (by simp)
    exact ⟨w, hst ▸ hwt, hs.of_looked hl⟩

theorem plain (h : Guided out r (.body rule level) s after) (form : (ruleForm rule).body = .plain f) :
    Guided out r (.form f) s after := by
  obtain ⟨hc, _, hb, hw⟩ := h
  cases hb with
  | body operand =>
    have hf := sits_plain form
    have hform : Task.Bridges r s.stack (.form f) _ _ :=
      .form (fun p hp => ne_stop_of_mem_body (by rw [form]; exact hp)) hf
    rw [rests_cons, hf.stands_entry.rest, mul_one, one_mul] at hform
    exact ⟨hc, _, hform, Rule.language_plain form ▸ hw⟩

theorem operators {rounds : Nat} (h : Guided out r (.body rule level) s after)
    (form : (ruleForm rule).body = .operators ops) :
    Guided out r (.all [.form ops.heads, .sync .entry ops.entry,
      .tails rule ops level first rounds]) s after := by
  obtain ⟨hc, _, hb, hw⟩ := h
  cases hb with
  | body operand => exact ⟨hc, _, bridges_operators form operand, hw⟩

theorem call (h : Guided out r (.call next rule level field) s after) :
    Guided out rule (.body rule level) (s.enter next) after := by
  obtain ⟨hc, _, hb, hw⟩ := h
  cases hb with
  | call stands site =>
    refine ⟨⟨⟨level, site⟩, stands.owner.symm ▸ hc⟩, _, .body (isOperand_of_site site), fun hunit => ?_⟩
    obtain ⟨w, hw, hs⟩ := hw hunit
    exact ⟨w, hw, hs.root, hs.idle, hs.widened, hs.ended, hs.rest⟩

end Guided

/-- A task that leads from some sentences to others, begun before one of the former, reports
nothing and leaves one of the latter. -/
theorem Reads.kept (h : Reads limit depth t s o) (hg : Guided .compilationUnit r t s after) :
    Kept s after o := by
  induction h generalizing r after with
  | @sync depth gate p s back =>
    obtain ⟨hc, _, hb, hw⟩ := hg
    obtain ⟨w, hw, hs⟩ := hw rfl
    cases hb with
    | sync mem inside le =>
      rw [sync_complete gate hs mem inside hc (le w hw)]
      exact (kept_none hw (hs.moveTo p)).of_eq rfl rfl
  | nil =>
    obtain ⟨hc, _, hb, hw⟩ := hg
    obtain ⟨w, hw, hs⟩ := hw rfl
    cases hb
    exact kept_none hw hs
  | cons first rest ih₁ ih₂ =>
    obtain ⟨mid, hfirst, hrest⟩ := hg.cons
    have k := ih₁ hfirst
    have hmid := (k.halt.resolve_right (by simp)).2
    exact (ih₂ (hrest _ k.stack fun _ => hmid)).of_eq k.reports k.stack
  | stop first ih =>
    obtain ⟨mid, hfirst, -⟩ := hg.cons
    have k := ih hfirst
    exact ⟨k.reports, k.stack, .inr (k.halt.resolve_left (by simp))⟩
  | token held =>
    obtain ⟨hc, _, hb, hw⟩ := hg
    obtain ⟨w, hw, hs⟩ := hw rfl
    cases hb with
    | form inside sits => exact kept_token sits hs hw
  | oneOf held =>
    obtain ⟨hc, _, hb, hw⟩ := hg
    obtain ⟨w, hw, hs⟩ := hw rfl
    cases hb with
    | form inside sits => exact kept_oneOf sits hs hw
  | invoke call ih => exact (ih hg.invoke).of_eq rfl rfl
  | seq all ih => exact ih hg.seq
  | choice all ih => exact ih hg.choice
  | opt all ih => exact ih hg.opt
  | star all ih => exact ih hg.star
  | plus all ih => exact ih hg.plus
  | picked origin choice alt read ih =>
    exact (ih (hg.picked origin choice alt)).of_looked (choose_looks choice)
  | passed origin choice beyond =>
    obtain ⟨hc, _, hb, hw⟩ := hg
    obtain ⟨w, hw, hs⟩ := hw rfl
    cases hb with
    | pick splits inside sits first past =>
      obtain ⟨_, i, q, hchoice, hi, hwq⟩ := choose_complete _ hs splits hc origin.settled hw
      cases choice.symm.trans hchoice
      have hl := choose_looks choice
      rw [rests_cons, (past i q hi (beyond i rfl)).rest] at hwq
      exact (kept_none hwq (hs.of_looked hl)).of_looked hl
  | unfit origin choice =>
    obtain ⟨hc, _, hb, hw⟩ := hg
    obtain ⟨w, hw, hs⟩ := hw rfl
    cases hb with
    | pick splits inside sits first past =>
      obtain ⟨_, i, q, hchoice, -⟩ := choose_complete _ hs splits hc origin.settled hw
      cases choice.symm.trans hchoice
  | again origin more all ih => exact (ih (hg.again origin more)).of_looked (another_looks more)
  | done origin more =>
    obtain ⟨hc, _, hb, hw⟩ := hg
    obtain ⟨w, hw, hs⟩ := hw rfl
    cases hb with
    | loop inside again past sits =>
      have splits := splits_loop inside again past sits
      obtain ⟨_, b, hmore, hb⟩ := another_complete hs splits hc origin.settled hw
      cases more.symm.trans hmore
      have hl := another_looks more
      obtain ⟨-, hwn⟩ := hb.resolve_left (by simp)
      rw [rests_cons, past.rest] at hwn
      exact (kept_none hwn (hs.of_looked hl)).of_looked hl
  | undecided origin more =>
    obtain ⟨hc, _, hb, hw⟩ := hg
    obtain ⟨w, hw, hs⟩ := hw rfl
    cases hb with
    | loop inside again past sits =>
      have splits := splits_loop inside again past sits
      obtain ⟨_, b, hmore, -⟩ := another_complete hs splits hc origin.settled hw
      cases more.symm.trans hmore
  | tail form choice found allowed read ih =>
    refine Kept.of_looked ?_ (predict_looks choice)
    exact (ih (hg.tail form choice found)).of_eq rfl rfl
  | lowTail form choice found low =>
    obtain ⟨hc, _, hb, hw⟩ := hg
    obtain ⟨w, hw, hs⟩ := hw rfl
    cases hb with
    | tail operators =>
      obtain ⟨_, i, u, hchoice, hi, hlevel, -⟩ := predict_tail_complete hs hc form hw
      cases choice.symm.trans hchoice
      obtain rfl := Option.some.inj (hi.symm.trans found)
      exact absurd hlevel low
  | noTail form choice found =>
    obtain ⟨hc, _, hb, hw⟩ := hg
    obtain ⟨w, hw, hs⟩ := hw rfl
    cases hb with
    | tail operators =>
      obtain ⟨_, i, u, hchoice, hi, -⟩ := predict_tail_complete hs hc form hw
      cases choice.symm.trans hchoice
      cases hi.symm.trans found
  | unfitTail choice =>
    obtain ⟨hc, _, hb, hw⟩ := hg
    obtain ⟨w, hw, hs⟩ := hw rfl
    cases hb with
    | tail operators =>
      obtain ⟨_, i, u, hchoice, -⟩ := predict_tail_complete hs hc operators hw
      cases choice.symm.trans hchoice
  | againTails form more all ih =>
    exact (ih (hg.againTails form more)).of_looked (anotherTail_looks more)
  | doneTails more =>
    obtain ⟨hc, _, hb, hw⟩ := hg
    obtain ⟨w, hw, hs⟩ := hw rfl
    cases hb with
    | tails operators operand =>
      obtain ⟨_, b, hmore, hb⟩ := anotherTail_complete hs hc operators operand hw
      cases more.symm.trans hmore
      have hl := anotherTail_looks more
      obtain ⟨-, hwr⟩ := hb.resolve_left (by simp)
      exact (kept_none hwr (hs.of_looked hl)).of_looked hl
  | undecidedTails more =>
    obtain ⟨hc, _, hb, hw⟩ := hg
    obtain ⟨w, hw, hs⟩ := hw rfl
    cases hb with
    | tails operators operand =>
      obtain ⟨_, b, hmore, -⟩ := anotherTail_complete hs hc operators operand hw
      cases more.symm.trans hmore
  | plain form read ih => exact ih (hg.plain form)
  | operators form all ih => exact ih (hg.operators form)
  | call read ih => exact (ih hg.call).leave
  | worn | wornTails | wornCall => exact ⟨rfl, rfl, .inr rfl⟩

/-- Reading a rule is guided. For a whole unit the tokens have to be a sentence. -/
theorem guided_body {out : Rule} (hb : Before w s) (hstart : s.here = none)
    (hw : out = .compilationUnit → out.Spells w) :
    Guided out out (.body out 0) s.outset (rests s.outset.stack) := by
  refine ⟨rfl, _, .body (.inl rfl), fun hunit => ?_⟩
  refine ⟨w, ?_, hstart, hb.idle, hb.widened, hb.ended, hb.rest⟩
  rw [outset, rests_nil, mul_one]
  exact hw hunit

/-- A unit that is a sentence of the grammar is read to its end without a report. -/
theorem parse_complete (hb : Before w s) (hstart : s.here = none)
    (hw : Rule.compilationUnit.Spells w) :
    (s.parse .compilationUnit).2.halt = none ∧
      (s.parse .compilationUnit).2.parser.reports = s.reports := by
  obtain ⟨o, o', read, closed, hp⟩ := parse_cases .compilationUnit s
  have hkept := read.kept (guided_body hb hstart fun _ => hw)
  have hreports : (s.parse .compilationUnit).2.parser.reports = s.reports := by
    rw [hp]
    refine Eq.trans ?_ hkept.reports
    cases closed with
    | ended | raised => rfl
    | gaveUp halt report skip =>
      -- Only a bound that is used up halts, and that is not reported.
      rcases hkept.halt with ⟨hnone, -⟩ | hworn
      · cases halt.symm.trans hnone
      · cases halt.symm.trans hworn
        cases report
  obtain ⟨-, -, -, -, -, hnone⟩ := parse_calm .compilationUnit hb.ended hstart hb.idle hreports
  exact ⟨hnone, hreports⟩

end

end Parser

end ResourceNames.Java
