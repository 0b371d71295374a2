import ResourceNames.Proofs.Beginnings

/-!
What a parser uses up.

The supply of a parser counts the tokens before it and, before the next token, the points at which no
rule was given up yet. Nothing a parser does adds to it. It gets smaller when a token is passed, and
when a rule is given up: a rule that is given up again at the same point before the same token passes
that token. So a task whose sentences begin with the next token uses something up, unless it may be
passed over.
-/
namespace ResourceNames.Java.Parser

open Computability Layout

variable {s s' t u : Parser} {o : Outcome}

/-! ### Supply -/

def otherPoints (points : List Point) : List Point :=
  (List.range Layout.size).filter fun p => !points.contains p

theorem length_otherPoints_le (points : List Point) : (otherPoints points).length ≤ Layout.size := by
  have h := List.length_filter_le (fun p => !points.contains p) (List.range Layout.size)
  rwa [List.length_range] at h

theorem otherPoints_cons (p : Point) (points : List Point) :
    otherPoints (p :: points) = (otherPoints points).filter (· != p) := by
  simp only [otherPoints, List.filter_filter]
  exact List.filter_congr fun q _ => by simp [Bool.not_or, bne, Bool.beq_eq_decide_eq]

theorem length_otherPoints_cons_le (p : Point) (points : List Point) :
    (otherPoints (p :: points)).length ≤ (otherPoints points).length := by
  rw [otherPoints_cons]
  exact List.length_filter_le _ _

theorem length_otherPoints_cons_lt {p : Point} {points : List Point} (hp : p < Layout.size)
    (h : p ∉ points) : (otherPoints (p :: points)).length < (otherPoints points).length := by
  rw [otherPoints_cons, List.length_filter_lt_length_iff_exists]
  exact ⟨p, by simp [otherPoints, hp, h], by simp⟩

/-- The points at which no rule was given up since a token fitted, and one more as long as none was
given up before the next token. -/
def unspent (s : Parser) : Nat :=
  match s.givenUp with
  | none => Layout.size + 1
  | some (n, points) => (otherPoints points).length + if n = s.position then 0 else 1

/-- What a parser can still use up before the end of the input. -/
def supply (s : Parser) : Nat :=
  if s.rest.length ≤ 1 then 0 else (s.rest.length - 1) * (Layout.size + 2) + s.unspent

theorem unspent_le (s : Parser) : s.unspent ≤ Layout.size + 1 := by
  unfold unspent
  split
  · exact Nat.le_refl _
  · rename_i n points _
    have hlength := length_otherPoints_le points
    split <;> omega

theorem supply_congr (hr : s'.rest = s.rest) (hp : s'.position = s.position)
    (hg : s'.givenUp = s.givenUp) : s'.supply = s.supply := by
  rw [supply, supply, unspent, unspent, hr, hp, hg]

theorem supply_lt_mul (hne : s.rest ≠ []) : s.supply < s.rest.length * (Layout.size + 2) := by
  have hpos := List.length_pos_iff.mpr hne
  have hspent := s.unspent_le
  obtain ⟨n, hn⟩ := Nat.exists_eq_add_of_lt hpos
  rw [supply, hn]
  split
  · exact Nat.mul_pos (by omega) (by omega)
  · rw [show 0 + n + 1 - 1 = n by omega, show 0 + n + 1 = n + 1 by omega, Nat.succ_mul]
    omega

/-- Passing a token takes more than can be used up before it. -/
theorem supply_lt (hne : s'.rest ≠ []) (h : s'.rest.length < s.rest.length) :
    s'.supply < s.supply := by
  have hpos := List.length_pos_iff.mpr hne
  refine Nat.lt_of_lt_of_le (supply_lt_mul hne) ?_
  rw [supply, if_neg (by omega)]
  exact Nat.le_trans (Nat.mul_le_mul_right _ (by omega)) (Nat.le_add_right _ _)

theorem supply_eq_zero (h : s.rest.length ≤ 1) : s.supply = 0 := by
  rw [supply, if_pos h]

theorem supply_pos (h : 1 < s.rest.length) : 0 < s.supply := by
  rw [supply, if_neg (by omega)]
  have hpos : 0 < (s.rest.length - 1) * (Layout.size + 2) := Nat.mul_pos (by omega) (by omega)
  omega

@[simp] theorem here_consume (s : Parser) : s.consume.here = s.here := by
  unfold Parser.consume
  split <;> rfl

@[simp] theorem stack_consume (s : Parser) : s.consume.stack = s.stack := by
  unfold Parser.consume
  split <;> rfl

/-- Whatever else is noted, passing a token uses something up, but at the end nothing is left. -/
theorem supply_of_consume (h : s'.rest = s.consume.rest) :
    s'.supply ≤ s.supply ∧ (1 < s.rest.length → s'.supply < s.supply) := by
  unfold Parser.consume at h
  split at h
  · rename_i v w ts hs
    have hlt : s'.supply < s.supply := supply_lt (by simp [h]) (by simp [h, hs])
    exact ⟨Nat.le_of_lt hlt, fun _ => hlt⟩
  · rename_i v hs
    exact ⟨by simp [supply, h, hs], by simp [hs]⟩
  · rename_i hs
    exact ⟨by simp [supply, h, hs], by simp [hs]⟩

/-- A parser stays where it is and does not add to its supply. -/
structure Eases (s s' : Parser) : Prop where
  here : s'.here = s.here
  stack : s'.stack = s.stack
  supply : s'.supply ≤ s.supply

namespace Eases

theorem of_eq (hh : s'.here = s.here) (hs : s'.stack = s.stack) (hr : s'.rest = s.rest)
    (hp : s'.position = s.position) (hg : s'.givenUp = s.givenUp) : Eases s s' :=
  ⟨hh, hs, Nat.le_of_eq (supply_congr hr hp hg)⟩

theorem refl : Eases s s := ⟨rfl, rfl, Nat.le_refl _⟩

theorem trans (h : Eases s t) (h' : Eases t u) : Eases s u :=
  ⟨h'.here.trans h.here, h'.stack.trans h.stack, Nat.le_trans h'.supply h.supply⟩

theorem setField (s : Parser) (field : Option Field) (part : Tree) :
    Eases s (s.setField field part) := by
  cases field <;> exact .of_eq rfl rfl rfl rfl rfl

theorem look (s : Parser) (depth : Nat) : Eases s (s.look depth) := .of_eq rfl rfl rfl rfl rfl

theorem consume (s : Parser) : Eases s s.consume :=
  ⟨s.here_consume, s.stack_consume, (supply_of_consume rfl).1⟩

theorem consume_settle (s : Parser) : Eases s s.consume.settle := by
  refine ⟨s.here_consume, s.stack_consume, (supply_of_consume ?_).1⟩
  rfl

theorem settle_consume (s : Parser) : Eases s s.settle.consume := by
  refine ⟨s.settle.here_consume, s.settle.stack_consume, (supply_of_consume ?_).1⟩
  simp only [Parser.consume, settle]
  split <;> rfl

theorem reportExtra (h : s.reportExtra = .ok s') : Eases s s' := by
  rcases reportExtra_ok h with ⟨-, rfl⟩ | ⟨-, message, rfl⟩
  · exact .refl
  · exact .of_eq rfl rfl rfl rfl rfl

theorem reportMissing (h : s.reportMissing = .ok s') : Eases s s' := by
  rcases reportMissing_ok h with ⟨-, rfl⟩ | ⟨-, message, rfl⟩
  · exact .refl
  · exact .of_eq rfl rfl rfl rfl rfl

theorem dropped (h : Dropped s s') : Eases s s' := by
  obtain ⟨u, hr, rfl⟩ := h.reported
  exact (look s 1).trans ((reportExtra hr).trans (consume_settle u))

theorem skipUntil (ks : List Kind) (ts : List Token) (s : Parser) :
    Eases s (Parser.skipUntil ks ts s) := by
  induction ts generalizing s with
  | nil => exact .refl
  | cons t ts ih =>
    unfold Parser.skipUntil
    split
    · exact .refl
    · exact (consume s).trans (ih s.consume)

theorem synced {gate : Gate} (h : Synced gate s o) : Eases s o.parser := by
  cases h with
  | passed | astray => exact .refl
  | dropped _ drop => exact dropped drop
  | mismatch => exact look s 1
  | @skipped u p wide _ _ _ report _ =>
    have hwiden : Eases u { u with widened := (p, wide) :: u.widened.filter fun w => w.1 != p } :=
      .of_eq rfl rfl rfl rfl rfl
    exact (reportExtra report).trans (hwiden.trans (skipUntil _ _ _))

theorem mend {next : Point} {r : Except Halt Tree} (h : s.mend next = (s', r)) : Eases s s' := by
  have hm := mended next s
  rw [h] at hm
  cases hm with
  | dropped drop => exact (dropped drop).trans (consume _)
  | inserted _ report | reported report => exact (look s 1).trans (reportMissing report)
  | failed => exact .refl
  | looked => exact look s 1

theorem token (here next : Point) (kind : Kind) (field : Option Field) (s : Parser) :
    Eases (s.moveTo here) (token here next kind field s).parser := by
  unfold Parser.token
  dsimp only
  split
  · exact (settle_consume _).trans (setField _ _ _)
  · split
    · rename_i hm
      exact mend hm
    · rename_i u part hm
      refine (mend hm).trans ?_
      have hinsert : ∀ k, Eases u { u with children := .missing k :: u.children } := fun k =>
        .of_eq rfl rfl rfl rfl rfl
      cases part with
      | missing k => exact (hinsert k).trans (setField _ _ _)
      | leaf | node => exact setField _ _ _

theorem oneOf (here next : Point) (kinds : List Kind) (field : Option Field) (s : Parser) :
    Eases (s.moveTo here) (oneOf here next kinds field s).parser := by
  refine (setField _ field (.leaf (s.moveTo here).current false)).trans ?_
  unfold Parser.oneOf
  dsimp only
  split
  · exact settle_consume _
  · split
    · rename_i hm
      exact mend hm
    · rename_i u part hm
      exact (mend hm).trans (setField _ _ _)

theorem wrap (rule : Rule) (start : Token) (s : Parser) : Eases s (s.wrap rule start) :=
  .of_eq rfl rfl rfl rfl rfl

theorem looked (h : s' = s ∨ ∃ k, s' = s.look k) : Eases s s' := by
  rcases h with rfl | ⟨k, rfl⟩
  · exact .refl
  · exact look s k

theorem reportHalt {rule : Rule} {x : Halt} (h : s.reportHalt rule x = .ok s') : Eases s s' := by
  rcases reportHalt_ok h with ⟨-, rfl⟩ | ⟨-, u, t, message, rfl | rfl, rfl⟩
  · exact .refl
  · exact .of_eq rfl rfl rfl rfl rfl
  · exact .of_eq rfl rfl rfl rfl rfl

end Eases

/-! ### Giving up -/

/-- A parser is at a point of the grammar. -/
def Located (s : Parser) : Prop := ∃ p < Layout.size, s.here = some p

theorem Eases.located (h : Eases s s') (hl : s.Located) : s'.Located := by
  obtain ⟨p, hp, hs⟩ := hl
  exact ⟨p, hp, h.here.trans hs⟩

theorem unspent_noteGivenUp_le (s : Parser) : s.noteGivenUp.unspent ≤ s.unspent := by
  have hcons : ∀ points, (otherPoints (s.here.toList ++ points)).length ≤
      (otherPoints points).length := by
    intro points
    cases s.here with
    | none => exact Nat.le_refl _
    | some p => exact length_otherPoints_cons_le p points
  unfold unspent noteGivenUp
  cases s.givenUp with
  | none =>
    have hle := length_otherPoints_le (s.here.toList ++ [])
    simp only [if_true]
    omega
  | some g =>
    have hle := hcons g.2
    simp only [if_true]
    omega

/-- Noting that a rule is given up uses something up, if that was not noted here before. -/
theorem unspent_noteGivenUp_lt (hl : s.Located) (h : s.gaveUpHere = false) :
    s.noteGivenUp.unspent < s.unspent := by
  obtain ⟨p, hp, hs⟩ := hl
  have hcons := length_otherPoints_cons_le p
  unfold gaveUpHere at h
  unfold unspent noteGivenUp
  rw [hs] at h ⊢
  cases hg : s.givenUp with
  | none =>
    have hle := length_otherPoints_le [p]
    simp only [Option.toList_some, List.singleton_append, if_true]
    omega
  | some g =>
    obtain ⟨n, points⟩ := g
    simp only [hg, Bool.and_eq_false_iff, beq_eq_false_iff_ne] at h
    simp only [Option.toList_some, List.singleton_append, if_true]
    rcases h with hn | hn
    · have hle := hcons points
      rw [if_neg hn]
      omega
    · have hlt := length_otherPoints_cons_lt hp (by simpa using hn)
      omega

theorem supply_noteGivenUp_le (s : Parser) : s.noteGivenUp.supply ≤ s.supply := by
  have hle := s.unspent_noteGivenUp_le
  have hr : s.noteGivenUp.rest = s.rest := rfl
  rw [supply, supply, hr]
  split
  · exact Nat.le_refl _
  · omega

theorem Eases.giveUp (h : s.giveUp = .ok s') : Eases s s' := by
  obtain ⟨u, ks, hu, -, rfl⟩ := giveUp_ok h
  have hnote : Eases u u.noteGivenUp := ⟨rfl, rfl, u.supply_noteGivenUp_le⟩
  have hskip := hnote.trans (.skipUntil ks u.rest u.noteGivenUp)
  rcases hu with ⟨-, rfl⟩ | ⟨-, rfl⟩
  · exact hskip
  · exact (Eases.consume s).trans hskip

/-- Before the end of the input giving up a rule uses something up. -/
theorem supply_giveUp_lt (hl : s.Located) (hlen : 1 < s.rest.length) (h : s.giveUp = .ok s') :
    s'.supply < s.supply := by
  obtain ⟨u, ks, hu, -, rfl⟩ := giveUp_ok h
  refine Nat.lt_of_le_of_lt (Eases.skipUntil ks u.rest u.noteGivenUp).supply ?_
  rcases hu with ⟨hnew, rfl⟩ | ⟨-, rfl⟩
  · have hlt := unspent_noteGivenUp_lt hl hnew
    have hr : u.noteGivenUp.rest = u.rest := rfl
    rw [supply, supply, hr, if_neg (by omega), if_neg (by omega)]
    omega
  · exact Nat.lt_of_le_of_lt s.consume.supply_noteGivenUp_le ((supply_of_consume rfl).2 hlen)

theorem Eases.closed {rule : Rule} {o o' : Outcome} (h : Closed rule o o') :
    Eases o.parser o'.parser := by
  cases h with
  | ended | raised => exact .refl
  | gaveUp _ report skip => exact (Eases.reportHalt report).trans (.giveUp skip)

/-! ### The sentences of tasks -/

namespace Task

mutual

def language : Task → Language Kind
  | .sync .. => 1
  | .form f => f.language
  | .all ts => languageAll ts
  | .pick _ _ alts optional =>
    if optional then 1 + Form.languageAny alts else Form.languageAny alts
  | .loop _ _ round _ => (languageAll round)∗
  | .tail _ ops .. => ops.tailLanguage
  | .tails _ ops .. => ops.tailLanguage∗
  | .body rule _ => rule.language
  | .call _ rule .. => rule.language

def languageAll : List Task → Language Kind
  | [] => 1
  | t :: ts => t.language * languageAll ts

end

mutual

/-- The points of a task are points of a rule and have their sentences, given those that come after
the task. -/
def Sits (r : Rule) : Task → Language Kind → Prop
  | .sync _ p, _ => p ∈ (ruleForm r).points
  | .form f, after => f.Sits r after
  | .all ts, after => SitsAll r ts after
  | .pick _ points alts _, after => Form.SitEach r alts after ∧
    ∀ (i : Nat) (p : Point), points[i]? = some p →
      (∃ f : Form, alts[i]? = some f ∧ p = f.entry) ∨ (alts[i]? = none ∧ Stands r p after)
  | .loop _ points round _, after => ∃ (back next : Point) (body : Form), round = roundTasks back body ∧
    points = [body.entry, next] ∧ back ∈ (ruleForm r).points ∧ Stands r next after ∧
    body.Sits r (body.language∗ * after)
  | .tail rule ops .., after =>
    rule = r ∧ (ruleForm r).body = .operators ops ∧ after = ops.tailLanguage∗
  | .tails rule ops .., after => rule = r ∧ (ruleForm r).body = .operators ops ∧ after = 1
  | .body rule _, after => rule = r ∧ after = 1
  | .call _ rule .., _ => rule ≠ .compilationUnit

def SitsAll (r : Rule) : List Task → Language Kind → Prop
  | [], _ => True
  | t :: ts, after => t.Sits r (languageAll ts * after) ∧ SitsAll r ts after

end

variable {r : Rule} {after : Language Kind}

theorem languageAll_append (ts us : List Task) :
    languageAll (ts ++ us) = languageAll ts * languageAll us := by
  induction ts with
  | nil => simp [languageAll]
  | cons t ts ih => simp [languageAll, ih, mul_assoc]

theorem languageAll_forms (fs : List Form) :
    languageAll (fs.map .form) = Form.languageSeq fs := by
  induction fs with
  | nil => simp [languageAll]
  | cons f fs ih => simp [languageAll, language, ih]

@[simp] theorem languageAll_roundTasks (back : Point) (body : Form) :
    languageAll (roundTasks back body) = body.language := by
  simp [roundTasks, languageAll, language]

theorem language_call (here next : Point) (rule : Rule) (level : Nat) (field : Option Field) :
    (Task.form (.call here next rule level field)).language =
      (Task.call next rule level field).language :=
  Form.language_call ..

theorem language_seq (entry : Point) (parts : List Form) :
    (Task.form (.seq entry parts)).language = (Task.all (parts.map .form)).language :=
  (languageAll_forms parts).symm

theorem language_choice (start join : Point) (alts : List Form) :
    (Task.form (.choice start join alts)).language =
      (Task.all [.sync .entry start, .pick start (alts.map Form.entry) alts false]).language := by
  simp [language, languageAll]

theorem language_opt (start join : Point) (alts : List Form) :
    (Task.form (.opt start join alts)).language = (Task.all
      [.sync .entry start, .pick start (alts.map Form.entry ++ [join]) alts true]).language := by
  simp [language, languageAll]

theorem language_star (entry back next : Point) (body : Form) (rounds : Nat) :
    (Task.form (.star entry back next body)).language = (Task.all [.sync .entry entry,
      .loop entry [body.entry, next] (roundTasks back body) rounds]).language := by
  simp [language, languageAll]

theorem language_plus (start back next : Point) (body : Form) (rounds : Nat) :
    (Task.form (.plus start back next body)).language = (Task.all
      (.sync .entry start :: (roundTasks back body ++
        [.loop start [body.entry, next] (roundTasks back body) rounds]))).language := by
  simp [language, languageAll, languageAll_append]

theorem language_again (entry back next : Point) (body : Form) (rounds : Nat) :
    (Task.all (roundTasks back body ++
      [.loop entry [body.entry, next] (roundTasks back body) rounds])).language =
        body.language * body.language∗ := by
  simp [language, languageAll, languageAll_append]

theorem language_plain {rule : Rule} {f : Form} (h : (ruleForm rule).body = .plain f) (level : Nat) :
    (Task.body rule level).language = (Task.form f).language :=
  (Rule.language_plain h).symm

theorem language_operators {rule : Rule} {ops : Operators} (h : (ruleForm rule).body = .operators ops)
    (level rounds : Nat) (start : Token) :
    (Task.body rule level).language = (Task.all [.form ops.heads, .sync .entry ops.entry,
      .tails rule ops level start rounds]).language := by
  simp [language, languageAll, Rule.language_operators h]

theorem sitsAll_forms {fs : List Form} (h : Form.SitAll r fs after) :
    SitsAll r (fs.map .form) after := by
  induction fs with
  | nil => trivial
  | cons f fs ih => exact ⟨by rw [languageAll_forms]; exact h.1, ih h.2⟩

theorem sits_loop {entry back next : Point} {body : Form} {rounds : Nat}
    (hback : back ∈ (ruleForm r).points) (hnext : Stands r next after)
    (hbody : body.Sits r (body.language∗ * after)) :
    (Task.loop entry [body.entry, next] (roundTasks back body) rounds).Sits r after :=
  ⟨back, next, body, rfl, rfl, hback, hnext, hbody⟩

/-- A round of a loop is followed by the loop. -/
theorem sitsAll_round {entry back next : Point} {body : Form} {rounds : Nat}
    (hback : back ∈ (ruleForm r).points) (hnext : Stands r next after)
    (hbody : body.Sits r (body.language∗ * after)) :
    SitsAll r (roundTasks back body ++
      [.loop entry [body.entry, next] (roundTasks back body) rounds]) after := by
  refine ⟨?_, hback, sits_loop hback ?_ ?_, trivial⟩
  · simpa [languageAll, language, Sits] using hbody
  · simpa [languageAll] using hnext
  · simpa [languageAll] using hbody

theorem sitsAll_choice {start join : Point} {alts : List Form}
    (h : (Form.choice start join alts).Sits r after) :
    SitsAll r [.sync .entry start, .pick start (alts.map Form.entry) alts false] after := by
  refine ⟨h.1.mem, ⟨by simpa [languageAll] using h.2.2, fun i p hi => ?_⟩, trivial⟩
  rw [List.getElem?_map, Option.map_eq_some_iff] at hi
  obtain ⟨f, hf, rfl⟩ := hi
  exact .inl ⟨f, hf, rfl⟩

theorem sitsAll_opt {start join : Point} {alts : List Form}
    (h : (Form.opt start join alts).Sits r after) :
    SitsAll r [.sync .entry start, .pick start (alts.map Form.entry ++ [join]) alts true] after := by
  refine ⟨h.1.mem, ⟨by simpa [languageAll] using h.2.2, fun i p hi => ?_⟩, trivial⟩
  rcases Nat.lt_or_ge i alts.length with hlt | hle
  · rw [List.getElem?_append_left (by simpa using hlt), List.getElem?_map,
      List.getElem?_eq_getElem hlt] at hi
    exact .inl ⟨alts[i], List.getElem?_eq_getElem hlt, (Option.some.inj hi).symm⟩
  · rw [List.getElem?_append_right (by simpa using hle)] at hi
    obtain rfl := List.mem_singleton.mp (List.mem_of_getElem? hi)
    exact .inr ⟨List.getElem?_eq_none hle, by simpa [languageAll] using h.2.1⟩

theorem sitsAll_star {entry back next : Point} {body : Form} {rounds : Nat}
    (h : (Form.star entry back next body).Sits r after) :
    SitsAll r [.sync .entry entry, .loop entry [body.entry, next] (roundTasks back body) rounds]
      after := by
  obtain ⟨hentry, hback, hnext, -, hbody⟩ := h
  refine ⟨hentry.mem, sits_loop hback.mem ?_ ?_, trivial⟩
  · simpa [languageAll] using hnext
  · simpa [languageAll] using hbody

theorem sitsAll_plus {start back next : Point} {body : Form} {rounds : Nat}
    (h : (Form.plus start back next body).Sits r after) :
    SitsAll r (.sync .entry start :: (roundTasks back body ++
      [.loop start [body.entry, next] (roundTasks back body) rounds])) after := by
  obtain ⟨hstart, hback, hnext, -, hbody⟩ := h
  exact ⟨hstart.mem, sitsAll_round hback.mem hnext hbody⟩

theorem sitsAll_tails {ops : Operators} {level rounds : Nat} {start : Token}
    (h : (ruleForm r).body = .operators ops) :
    SitsAll r (tailTasks r ops level start ++ [.tails r ops level start rounds]) 1 := by
  have hsit := tailsSit h
  refine ⟨hsit.start.mem, ⟨rfl, h, ?_⟩, hsit.back.mem, ⟨rfl, h, ?_⟩, trivial⟩
  · simp [languageAll, language]
  · simp [languageAll]

theorem sitsAll_operators {ops : Operators} {level rounds : Nat} {start : Token}
    (h : (ruleForm r).body = .operators ops) :
    SitsAll r [.form ops.heads, .sync .entry ops.entry, .tails r ops level start rounds] 1 := by
  refine ⟨?_, (tailsSit h).entry.mem, ⟨rfl, h, ?_⟩, trivial⟩
  · simpa [languageAll, language, Sits] using sits_heads h
  · simp [languageAll]

end Task

/-! ### Readings -/

/-- A parser does not add to its supply, keeps to the points of the grammar, and leaves the calls
open that were. -/
structure Spends (s s' : Parser) : Prop where
  supply : s'.supply ≤ s.supply
  located : s.Located → s'.Located
  stack : s'.stack = s.stack

theorem Eases.spends (h : Eases s s') : Spends s s' := ⟨h.supply, h.located, h.stack⟩

theorem Spends.trans (h : Spends s t) (h' : Spends t u) : Spends s u :=
  ⟨Nat.le_trans h'.supply h.supply, h'.located ∘ h.located, h'.stack.trans h.stack⟩

theorem located_moveTo {r : Rule} {p : Point} (hp : p ∈ (ruleForm r).points) :
    (s.moveTo p).Located :=
  ⟨p, lt_size_of_mem (ruleForm_mem r) hp, rfl⟩

theorem Spends.moveTo {r : Rule} {p : Point} (hp : p ∈ (ruleForm r).points) :
    Spends s (s.moveTo p) :=
  ⟨Nat.le_of_eq (supply_congr rfl rfl rfl), fun _ => located_moveTo hp, rfl⟩

/-- A rule that is given up has used something up since it was begun. -/
theorem supply_gaveUp_lt {rule : Rule} {x : Halt} (h : Spends s t) (hl : s.Located)
    (hlen : 1 < s.rest.length) (report : t.reportHalt rule x = .ok u) (skip : u.giveUp = .ok s') :
    s'.supply < s.supply := by
  have hreport := Eases.reportHalt report
  rcases Nat.lt_or_ge 1 u.rest.length with hu | hu
  · have hlt := supply_giveUp_lt (hreport.located (h.located hl)) hu skip
    exact Nat.lt_of_lt_of_le hlt (Nat.le_trans hreport.supply h.supply)
  · have hle := (Eases.giveUp skip).supply
    rw [supply_eq_zero hu] at hle
    exact Nat.lt_of_le_of_lt hle (supply_pos hlen)

theorem Spends.leave {next : Point} {rule : Rule} {field : Option Field}
    (h : Spends (s.enter next) o.parser) : Spends s (leave rule field s o).parser := by
  have hback : Spends s { o.parser with
      stack := s.stack
      children := o.parser.node rule s.current :: s.children
      fields := s.fields
      here := pointAfter rule s.here o.parser.here } := by
    refine ⟨?_, fun hl => ?_, rfl⟩
    · rw [supply_congr rfl rfl rfl]
      exact Nat.le_trans h.supply (Nat.le_of_eq (supply_congr rfl rfl rfl))
    · show ∃ p < Layout.size, pointAfter rule s.here o.parser.here = some p
      unfold pointAfter
      split
      · exact h.located hl
      · exact hl
  exact hback.trans (Eases.setField _ field _).spends

variable {limit depth : Nat} {r : Rule} {after : Language Kind}

/-- No task adds to the supply. -/
theorem Reads.spends {t : Task} (h : Reads limit depth t s o) (hs : t.Sits r after) :
    Spends s o.parser := by
  induction h generalizing r after with
  | sync => exact (Spends.moveTo hs).trans (Eases.synced (synced _ _)).spends
  | nil | worn | wornTails | wornCall => exact Eases.refl.spends
  | cons _ _ ih ih' => exact (ih hs.1).trans (ih' hs.2)
  | stop _ ih => exact ih hs.1
  | token => exact (Spends.moveTo hs.1.mem).trans (Eases.token _ _ _ _ _).spends
  | oneOf => exact (Spends.moveTo hs.1.mem).trans (Eases.oneOf _ _ _ _ _).spends
  | @invoke _ _ next rule level field _ _ _ ih =>
    have hcall : (Task.call next rule level field).Sits r after :=
      (Follow.proper_of_mem_sites hs.2.2).called
    exact (Spends.moveTo hs.1.mem).trans (ih hcall)
  | seq _ ih => exact ih (Task.sitsAll_forms hs.2)
  | choice _ ih => exact ih (Task.sitsAll_choice hs)
  | opt _ ih => exact ih (Task.sitsAll_opt hs)
  | star _ ih => exact ih (Task.sitsAll_star hs)
  | plus _ ih => exact ih (Task.sitsAll_plus hs)
  | picked _ choice alt _ ih =>
    exact (Eases.looked (choose_looks choice)).spends.trans
      (ih (Form.sitEach_iff.mp hs.1 _ (List.mem_of_getElem? alt)))
  | passed _ choice | unfit _ choice => exact (Eases.looked (choose_looks choice)).spends
  | again _ more _ ih =>
    obtain ⟨back, next, body, rfl, rfl, hback, hnext, hbody⟩ := hs
    exact (Eases.looked (another_looks more)).spends.trans
      (ih (Task.sitsAll_round hback hnext hbody))
  | done _ more | undecided _ more => exact (Eases.looked (another_looks more)).spends
  | tail form choice found _ _ ih =>
    refine (Eases.looked (predict_looks choice)).spends.trans ?_
    exact (Eases.wrap _ _ _).spends.trans (ih (sits_tail form (List.mem_of_getElem? found)))
  | lowTail form choice found =>
    have hentry := (sits_tail form (List.mem_of_getElem? found)).stands_entry
    refine (Eases.looked (predict_looks choice)).spends.trans ?_
    exact (Eases.wrap _ _ _).spends.trans (Spends.moveTo hentry.mem)
  | noTail _ choice | unfitTail choice => exact (Eases.looked (predict_looks choice)).spends
  | againTails _ more _ ih =>
    obtain ⟨rfl, hops, -⟩ := hs
    exact (Eases.looked (anotherTail_looks more)).spends.trans (ih (Task.sitsAll_tails hops))
  | doneTails more | undecidedTails more => exact (Eases.looked (anotherTail_looks more)).spends
  | plain form _ ih => exact ih (sits_plain form)
  | operators form _ ih => exact ih (Task.sitsAll_operators form)
  | @call _ _ rule _ _ _ o _ ih =>
    exact ((ih ⟨rfl, rfl⟩).trans (Eases.closed (closed rule o)).spends).leave

/-- If nothing is used up, no token is passed. -/
theorem Reads.rest_eq {t : Task} (h : Reads limit depth t s o) (he : Ended s.rest)
    (hle : ¬ o.parser.supply < s.supply) : o.parser.rest = s.rest := by
  obtain ⟨ts, ha, he'⟩ := h.work.advances he
  cases ts with
  | nil => exact ha.rest.symm
  | cons v ts =>
    refine absurd (supply_lt he'.ne_nil ?_) hle
    rw [ha.rest, List.cons_append, List.length_cons, List.length_append]
    omega

theorem current_of_rest (h : s'.rest = s.rest) (hne : s.rest ≠ []) : s'.current = s.current := by
  obtain ⟨v, vs, hs⟩ := List.exists_cons_of_ne_nil hne
  rw [current, current, h, hs]

theorem one_lt_length (he : Ended s.rest) (h : s.current.kind ≠ .eof) : 1 < s.rest.length := by
  obtain ⟨v, vs, hs⟩ := List.exists_cons_of_ne_nil he.ne_nil
  cases vs with
  | nil =>
    rw [hs] at he
    exact absurd he.singleton (by simpa [current, hs] using h)
  | cons w vs => simp [hs]

/-- A token that fits is passed. -/
theorem supply_token_lt {here next : Point} {kind : Kind} {field : Option Field}
    (hk : s.current.kind = kind) (hlen : 1 < s.rest.length) :
    (token here next kind field s).parser.supply < s.supply := by
  unfold token
  dsimp only
  rw [if_pos (show (s.moveTo here).current.kind = kind from hk)]
  refine Nat.lt_of_le_of_lt (Eases.setField _ _ _).supply ((supply_of_consume ?_).2 hlen)
  simp only [Parser.consume, settle, moveTo]
  split <;> rfl

theorem supply_oneOf_lt {here next : Point} {kinds : List Kind} {field : Option Field}
    (hk : s.current.kind ∈ kinds) (hlen : 1 < s.rest.length) :
    (oneOf here next kinds field s).parser.supply < s.supply := by
  have hset : ∀ part, ((s.moveTo here).setField field part).rest = s.rest ∧
      ((s.moveTo here).setField field part).current = s.current := by
    intro part
    cases field <;> exact ⟨rfl, rfl⟩
  unfold oneOf
  dsimp only
  rw [(hset _).2, if_pos (List.contains_iff_mem.mpr hk)]
  refine (supply_of_consume ?_).2 hlen
  simp only [Parser.consume, settle, (hset _).1]
  split <;> rfl

theorem supply_leave (rule : Rule) (field : Option Field) (s : Parser) (o : Outcome) :
    (leave rule field s o).parser.supply = o.parser.supply := by
  cases field <;> exact supply_congr rfl rfl rfl

/-- A loop goes around again only if a round begins with the next token. If it does not, the next
token begins what comes after the loop, or neither. -/
theorem another_begins {entry a b : Point} {more : Bool} (he : Ended s.rest)
    (hsettled : Follow.settled? entry = Follow.looks? [a, b])
    (ha : a ∈ (ruleForm r).points) (hb : b ∈ (ruleForm r).points)
    (h : another entry [a, b] s = (s', .ok more)) :
    (more = true ∧ ([] ∉ Layout.rest a → Begins s.current.kind (Layout.rest a))) ∨
    (more = false ∧ ([] ∉ Layout.rest b → Begins s.current.kind (Layout.rest b))) ∨
    (more = false ∧ ¬ Begins s.current.kind (Layout.rest a)) := by
  unfold another at h
  split at h
  · rename_i n hc
    cases h
    have hpoints : ∀ p ∈ [a, b], p ∈ (ruleForm r).points := by simp [ha, hb]
    rcases choose_begins he hsettled hpoints hc with ⟨i, p, hi, rfl, hbegins⟩ | ⟨ho, hnone⟩
    · match i with
      | 0 =>
        obtain rfl := Option.some.inj hi
        exact .inl ⟨rfl, hbegins⟩
      | 1 =>
        obtain rfl := Option.some.inj hi
        exact .inr (.inl ⟨rfl, hbegins⟩)
      | i + 2 => cases hi
    · cases ho
      exact .inr (.inr ⟨rfl, hnone a List.mem_cons_self⟩)
  · cases h

/-- A loop goes around again, or on to what comes after it. -/
private theorem mem_kstar_mul {a : Language Kind} {w : List Kind} :
    w ∈ a∗ * after ↔ w ∈ after ∨ w ∈ a * (a∗ * after) := by
  nth_rewrite 1 [← Language.one_add_self_mul_kstar_eq_kstar]
  rw [add_mul, one_mul, mul_assoc, Language.mem_add]

private theorem nil_mem_mul {a b : Language Kind} (ha : [] ∈ a) (hb : [] ∈ b) : [] ∈ a * b :=
  Language.append_mem_mul ha hb

theorem Task.Sits.mem_points {start : Point} {points : List Point} {alts : List Form}
    {optional : Bool} (hs : (Task.pick start points alts optional).Sits r after) :
    ∀ p ∈ points, p ∈ (ruleForm r).points := by
  intro p hp
  obtain ⟨i, hi⟩ := List.getElem?_of_mem hp
  rcases hs.2 i p hi with ⟨f, hf, rfl⟩ | ⟨-, hstands⟩
  · exact (Form.sitEach_iff.mp hs.1 f (List.mem_of_getElem? hf)).stands_entry.mem
  · exact hstands.mem

/-- A form that is chosen begins with the next token. -/
theorem Picks.begins {start : Point} {points : List Point} {alts : List Form} {optional : Bool}
    {n : Nat} {f : Form} (origin : Picks start points alts optional)
    (hs : (Task.pick start points alts optional).Sits r after) (he : Ended s.rest)
    (choice : s.choose start points (fallback optional alts s) = (s', .ok (n + 1)))
    (alt : alts[n]? = some f) : Begins s.current.kind (f.language * after) := by
  have hf := List.mem_of_getElem? alt
  rcases choose_begins he origin.settled hs.mem_points choice with ⟨i, p, hi, hn, hbegins⟩ | ⟨ho, -⟩
  · obtain rfl : n = i := Nat.succ.inj hn
    rcases hs.2 n p hi with ⟨g, hg, rfl⟩ | ⟨hnone, -⟩
    · obtain rfl := Option.some.inj (hg.symm.trans alt)
      rw [(Form.sitEach_iff.mp hs.1 g hf).stands_entry.rest] at hbegins
      exact hbegins ((origin.leads g hf).nil_not_mem after)
    · cases hnone.symm.trans alt
  · unfold fallback at ho
    split at ho
    · cases ho
      rw [List.getElem?_eq_none (Nat.le_refl _)] at alt
      cases alt
    · cases ho

/-- A loop that goes around again begins a round with the next token. -/
theorem Loops.begins {entry back next : Point} {body : Form}
    (origin : Loops entry [body.entry, next] (roundTasks back body))
    (hnext : next ∈ (ruleForm r).points) (hbody : body.Sits r (body.language∗ * after))
    (he : Ended s.rest) (more : another entry [body.entry, next] s = (s', .ok true)) :
    Begins s.current.kind (body.language * (body.language∗ * after)) := by
  have hentry := hbody.stands_entry
  rcases another_begins he origin.settled hentry.mem hnext more with
    ⟨-, hbegins⟩ | ⟨hfalse, -⟩ | ⟨hfalse, -⟩
  · rw [hentry.rest] at hbegins
    exact hbegins (origin.leads.nil_not_mem _)
  · cases hfalse
  · cases hfalse

/-- A task that begins with the next token uses something up, unless it may be passed over and the
next token begins what comes after it. -/
theorem Reads.begins {t : Task} (h : Reads limit depth t s o) (hs : t.Sits r after)
    (he : Ended s.rest) (hl : s.Located) (heof : s.current.kind ≠ .eof) (hh : o.halt = none)
    (hk : Begins s.current.kind (t.language * after)) (hnil : [] ∉ t.language * after) :
    o.parser.supply < s.supply ∨ [] ∈ t.language ∧ Begins s.current.kind after := by
  induction h generalizing r after with
  | sync | nil =>
    refine .inr ⟨Language.nil_mem_one, ?_⟩
    simpa [Task.language, Task.languageAll] using hk
  | @cons _ t ts s s' o first rest ih ih' =>
    rw [Task.language, Task.languageAll, mul_assoc] at hk hnil
    have hspends := first.spends hs.1
    have hrest := rest.spends hs.2
    by_cases hlt : s'.supply < s.supply
    · exact .inl (Nat.lt_of_le_of_lt hrest.supply hlt)
    · obtain ⟨hthrough, hnext⟩ := (ih hs.1 he hl heof rfl hk hnil).resolve_left hlt
      have hsame : s'.rest = s.rest := first.rest_eq he hlt
      have hcurrent := current_of_rest hsame he.ne_nil
      rw [← hcurrent] at hnext heof ⊢
      have hnil' : [] ∉ Task.languageAll ts * after := fun h => hnil (nil_mem_mul hthrough h)
      refine (ih' hs.2 (hsame ▸ he) (hspends.located hl) heof hh hnext hnil').imp
        (fun hlt => Nat.lt_of_lt_of_le hlt hspends.supply) fun ⟨hthrough', hafter⟩ =>
          ⟨nil_mem_mul hthrough hthrough', hafter⟩
  | stop | unfit | undecided | worn | lowTail | unfitTail | undecidedTails | wornTails | wornCall =>
    cases hh
  | token =>
    rcases hk.of_mul with ⟨v, hv⟩ | ⟨hv, -⟩
    · obtain ⟨rfl, -⟩ := List.cons.inj (Phrase.mem_language_token.mp hv)
      exact .inl (supply_token_lt rfl (one_lt_length he heof))
    · cases Phrase.mem_language_token.mp hv
  | oneOf =>
    rcases hk.of_mul with ⟨v, hv⟩ | ⟨hv, -⟩
    · obtain ⟨j, hj, hjv⟩ := Phrase.mem_language_oneOf.mp hv
      obtain ⟨hjk, -⟩ := List.cons.inj hjv
      exact .inl (supply_oneOf_lt (hjk ▸ hj) (one_lt_length he heof))
    · obtain ⟨j, -, hj⟩ := Phrase.mem_language_oneOf.mp hv
      cases hj
  | @invoke _ here next rule level field s o call ih =>
    have hcall : (Task.call next rule level field).Sits r after :=
      (Follow.proper_of_mem_sites hs.2.2).called
    rw [Task.language_call] at hk hnil ⊢
    have hsupply : (s.moveTo here).supply = s.supply := supply_congr rfl rfl rfl
    rw [← hsupply]
    exact ih hcall he (located_moveTo hs.1.mem) heof hh hk hnil
  | @seq _ entry parts _ _ all ih =>
    rw [Task.language_seq] at hk hnil ⊢
    exact ih (Task.sitsAll_forms hs.2) he hl heof hh hk hnil
  | @choice _ start join alts _ _ all ih =>
    rw [Task.language_choice] at hk hnil ⊢
    exact ih (Task.sitsAll_choice hs) he hl heof hh hk hnil
  | @opt _ start join alts _ _ all ih =>
    rw [Task.language_opt] at hk hnil ⊢
    exact ih (Task.sitsAll_opt hs) he hl heof hh hk hnil
  | @star _ entry back next body _ _ all ih =>
    rw [Task.language_star entry back next body limit] at hk hnil ⊢
    exact ih (Task.sitsAll_star hs) he hl heof hh hk hnil
  | @plus _ start back next body _ _ all ih =>
    rw [Task.language_plus start back next body limit] at hk hnil ⊢
    exact ih (Task.sitsAll_plus hs) he hl heof hh hk hnil
  | @picked _ start points alts optional s s' n f o origin choice alt read ih =>
    have hf := List.mem_of_getElem? alt
    have hsit := Form.sitEach_iff.mp hs.1 f hf
    have hlook := Eases.looked (choose_looks choice)
    have hsame := rest_of_looked (choose_looks choice)
    have hcurrent := current_of_rest hsame he.ne_nil
    have hleads := origin.leads f hf
    have hbegins := origin.begins hs he choice alt
    rw [← hcurrent] at hbegins heof
    rcases ih hsit (hsame ▸ he) (hlook.located hl) heof hh hbegins (hleads.nil_not_mem after) with
      hlt | ⟨hthrough, -⟩
    · exact .inl (Nat.lt_of_lt_of_le hlt hlook.supply)
    · exact absurd hthrough (Form.nil_not_mem_language hleads.eats)
  | @passed _ start points alts optional s s' n origin choice beyond =>
    obtain rfl := origin.chosen choice beyond
    have hthrough : [] ∈ (Task.pick start points alts true).language := .inl Language.nil_mem_one
    refine .inr ⟨hthrough, ?_⟩
    have hafter : [] ∉ after := fun h => hnil (nil_mem_mul hthrough h)
    rcases choose_begins he origin.settled hs.mem_points choice with
      ⟨i, p, hi, rfl, hbegins⟩ | ⟨-, hnone⟩
    · rcases hs.2 i p hi with ⟨f, hf, -⟩ | ⟨-, hstands⟩
      · cases (beyond i rfl).symm.trans hf
      · rw [hstands.rest] at hbegins
        exact hbegins hafter
    · obtain ⟨v, hv⟩ := hk
      rw [Task.language, if_pos rfl, add_mul, one_mul, Language.mem_add] at hv
      rcases hv with hv | hv
      · exact ⟨v, hv⟩
      · -- An alternative that begins with the next token would have been chosen.
        exfalso
        obtain ⟨x, hx, y, hy, hxy⟩ := Language.mem_mul.mp hv
        obtain ⟨f, hf, hx⟩ := Form.mem_languageAny.mp hx
        refine hnone f.entry ?_ ⟨v, ?_⟩
        · cases origin
          exact List.mem_append_left _ (List.mem_map_of_mem hf)
        · rw [(Form.sitEach_iff.mp hs.1 f hf).stands_entry.rest, ← hxy]
          exact Language.append_mem_mul hx hy
  | @again _ entry points round rounds s s' o origin more all ih =>
    obtain ⟨back, next, body, rfl, rfl, hback, hnext, hbody⟩ := hs
    have hlook := Eases.looked (another_looks more)
    have hsame := rest_of_looked (another_looks more)
    have hcurrent := current_of_rest hsame he.ne_nil
    have hleads := origin.leads
    have hbegins := origin.begins hnext.mem hbody he more
    have hnil' := hleads.nil_not_mem (body.language∗ * after)
    rw [← mul_assoc, ← Task.language_again entry back next body rounds] at hbegins hnil'
    rw [← hcurrent] at hbegins heof
    rcases ih (Task.sitsAll_round hback hnext hbody) (hsame ▸ he) (hlook.located hl) heof hh hbegins
      hnil' with hlt | ⟨hthrough, -⟩
    · exact .inl (Nat.lt_of_lt_of_le hlt hlook.supply)
    · rw [Task.language_again] at hthrough
      exact absurd hthrough (hleads.nil_not_mem body.language∗)
  | @done _ entry points round rounds s s' origin more =>
    obtain ⟨back, next, body, rfl, rfl, hback, hnext, hbody⟩ := hs
    rw [Task.language, Task.languageAll_roundTasks] at hk hnil ⊢
    refine .inr ⟨Language.nil_mem_kstar _, ?_⟩
    have hafter : [] ∉ after := fun h => hnil (nil_mem_mul (Language.nil_mem_kstar _) h)
    rcases another_begins he origin.settled hbody.stands_entry.mem hnext.mem more with
      ⟨htrue, -⟩ | ⟨-, hbegins⟩ | ⟨-, hnone⟩
    · cases htrue
    · rw [hnext.rest] at hbegins
      exact hbegins hafter
    · obtain ⟨v, hv⟩ := hk
      rcases mem_kstar_mul.mp hv with hv | hv
      · exact ⟨v, hv⟩
      · rw [← hbody.stands_entry.rest] at hv
        exact absurd ⟨v, hv⟩ hnone
  | @tail _ rule ops level start s s' alt t o form choice found allowed read ih =>
    have hmem := List.mem_of_getElem? found
    have hsit := sits_tail form hmem
    have hlook := (Eases.looked (predict_looks choice)).trans (.wrap rule start s')
    have hsame : (s'.wrap rule start).rest = s.rest :=
      show s'.rest = s.rest from rest_of_looked (predict_looks choice)
    have hcurrent := current_of_rest hsame he.ne_nil
    have hleads := Operators.leads form hmem
    have hbegins := predict_tail_begins he form choice found
    rw [hsit.stands_entry.rest, ← hcurrent] at hbegins
    rw [← hcurrent] at heof
    rcases ih hsit (hsame ▸ he) (hlook.located hl) heof hh hbegins (hleads.nil_not_mem _) with
      hlt | ⟨hthrough, -⟩
    · exact .inl (Nat.lt_of_lt_of_le hlt hlook.supply)
    · exact absurd hthrough (Form.nil_not_mem_language hleads.eats)
  | noTail form choice found =>
    obtain ⟨-, hd⟩ := predict_ok choice
    obtain ⟨t, ht⟩ := Decision.exists_of_decide_tail hd
    cases found.symm.trans ht
  | againTails | doneTails =>
    obtain ⟨-, -, rfl⟩ := hs
    exact absurd (nil_mem_mul (Language.nil_mem_kstar _) Language.nil_mem_one) hnil
  | plain form read ih =>
    obtain ⟨rfl, rfl⟩ := hs
    rw [Task.language_plain form] at hk hnil ⊢
    exact ih (sits_plain form) he hl heof hh hk hnil
  | @operators _ rule level ops s o form all ih =>
    obtain ⟨rfl, rfl⟩ := hs
    rw [Task.language_operators form level limit s.current] at hk hnil ⊢
    exact ih (Task.sitsAll_operators form) he hl heof hh hk hnil
  | @call _ next rule level field s o read ih =>
    refine .inl ?_
    have hbegins : Begins s.current.kind (rule.language * 1) := by
      rw [mul_one]
      exact hk.of_mul.resolve_right fun h => Rule.nil_not_mem_language hs h.1
    have hnil' : [] ∉ rule.language * 1 := by
      rw [mul_one]
      exact Rule.nil_not_mem_language hs
    have hbody : (Task.body rule level).Sits rule 1 := ⟨rfl, rfl⟩
    have henter : (s.enter next).supply = s.supply := supply_congr rfl rfl rfl
    have hclosed := closed rule o
    rw [supply_leave, ← henter]
    change (close rule o).halt = none at hh
    generalize close rule o = o' at hclosed hh ⊢
    cases hclosed with
    | ended halt =>
      refine (ih hbody he hl heof halt hbegins hnil').resolve_right fun h => ?_
      exact not_begins_one _ h.2
    | gaveUp halt report skip =>
      exact supply_gaveUp_lt (read.spends hbody) hl (one_lt_length he heof) report skip
    | raised => cases hh

end ResourceNames.Java.Parser
