import ResourceNames.Proofs.EndOfInput

/-!
Errors do not come in heaps.

Between two errors that a parser reports it reads a token. While it recovers from an error it reports
none, and recovering is over only when a token fits, which is then read, or when the token before one
that fits is dropped. The end of the input is read without moving, but only as the last token of a
whole unit, after which nothing is reported; and it is never dropped, as it would have to be expected
after itself where it was not expected.
-/
namespace ResourceNames.Java

open Layout

namespace Layout

private theorem tokens_of_mem_all : ∀ r ∈ Rule.all,
    (∀ p ∈ r.backs, p ∈ (ruleForm r).points ∧ p ∉ (Item.ofRule (ruleForm r)).map Prod.fst) ∧
      (r ≠ .compilationUnit → Kind.eof ∉ r.kinds) := by
  decide +kernel

theorem eof_not_mem_kinds {r : Rule} (h : r ≠ .compilationUnit) : Kind.eof ∉ r.kinds :=
  (tokens_of_mem_all r (mem_all r)).2 h

/-- No token stands after the rounds of a loop. -/
theorem IsToken.not_mem_backs {p : Point} (h : IsToken p) : p ∉ backs := by
  intro hback
  obtain ⟨-, kinds, next, hitem, -⟩ := h
  obtain ⟨r, -, hr⟩ := List.mem_flatMap.mp hback
  obtain ⟨hp, hnone⟩ := (tokens_of_mem_all r (mem_all r)).1 p hr
  rw [Item.ofPoint_of_not_mem hp hnone] at hitem
  cases hitem

/-- Where a token stands only its kinds are expected. -/
theorem IsToken.expected {p next : Point} {kinds : List Kind} (h : IsToken p)
    (hitem : Item.ofPoint p = .token kinds next) :
    (Follow.expected p).ends = false ∧ ∀ k ∈ (Follow.expected p).kinds, k ∈ kinds := by
  have hnil := h.nil_not_mem
  obtain ⟨hp, kinds', next', hitem', -, hrest⟩ := h
  cases hitem.symm.trans hitem'
  rw [Follow.expected_of_mem hp]
  dsimp only
  constructor
  · rw [Bool.eq_false_iff, Ne, Reach.exits_iff hp]
    exact hnil
  · intro k hk
    rw [← begins_rest_iff hp] at hk
    obtain ⟨v, hv⟩ := hk
    obtain ⟨j, hj, w, -, hw⟩ := (hrest _).mp hv
    exact (List.cons.inj hw).1 ▸ hj

end Layout

namespace Parser

variable {s s' : Parser} {o : Outcome}

/-! ### Reports that are spread -/

/-- The reports were made after different numbers of tokens. -/
structure Apart (s : Parser) : Prop where
  apart : s.reports.Pairwise fun later earlier => earlier.read < later.read
  past : ∀ r ∈ s.reports, r.read ≤ s.position

/-- Another report can follow at once, unless the parser is recovering. -/
structure Spread (s : Parser) : Prop extends Apart s where
  idle : s.recovering = false → ∀ r ∈ s.reports, r.read < s.position

theorem Apart.of_eq (h : Apart s) (hr : s'.reports = s.reports) (hp : s.position ≤ s'.position) :
    Apart s' := by
  refine ⟨hr ▸ h.apart, fun r hm => ?_⟩
  exact Nat.le_trans (h.past r (hr ▸ hm)) hp

/-- When a token has been read, another report can follow. -/
theorem Apart.spread (h : Apart s) (hr : s'.reports = s.reports) (hp : s.position < s'.position) :
    Spread s' := by
  refine ⟨h.of_eq hr (Nat.le_of_lt hp), fun _ r hm => ?_⟩
  exact Nat.lt_of_le_of_lt (h.past r (hr ▸ hm)) hp

namespace Spread

theorem of_eq (h : Spread s) (hr : s'.reports = s.reports) (hp : s'.position = s.position)
    (hi : s'.recovering = s.recovering) : Spread s' := by
  refine ⟨h.toApart.of_eq hr (Nat.le_of_eq hp.symm), fun hidle r hm => ?_⟩
  rw [hp]
  exact h.idle (hi ▸ hidle) r (hr ▸ hm)

theorem setField (h : Spread s) (field : Option Field) (part : Tree) :
    Spread (s.setField field part) := by
  cases field <;> exact h.of_eq rfl rfl rfl

theorem looked (h : Spread s) (hl : s' = s ∨ ∃ k, s' = s.look k) : Spread s' := by
  rcases hl with rfl | ⟨k, rfl⟩ <;> exact h.of_eq rfl rfl rfl

theorem report (h : Spread s) (idle : s.recovering = false) (t : Token) (message : String) :
    Spread (s.report t message) := by
  refine ⟨⟨List.pairwise_cons.mpr ⟨h.idle idle, h.apart⟩, fun r hm => ?_⟩, nofun⟩
  rcases List.mem_cons.mp hm with rfl | hm
  · exact Nat.le_refl _
  · exact h.past r hm

theorem reportExtra (h : Spread s) (hr : s.reportExtra = .ok s') : Spread s' := by
  rcases reportExtra_ok hr with ⟨-, rfl⟩ | ⟨idle, message, rfl⟩
  · exact h
  · exact h.report idle _ _

theorem reportMissing (h : Spread s) (hr : s.reportMissing = .ok s') : Spread s' := by
  rcases reportMissing_ok hr with ⟨-, rfl⟩ | ⟨idle, message, rfl⟩
  · exact h
  · exact h.report idle _ _

theorem reportHalt (h : Spread s) {rule : Rule} {x : Halt} (hr : s.reportHalt rule x = .ok s') :
    Spread s' := by
  rcases reportHalt_ok hr with ⟨-, rfl⟩ | ⟨idle, u, t, message, hu, rfl⟩
  · exact h
  · have hspread : Spread u := h.looked (hu.imp_right fun hu => ⟨_, hu⟩)
    have hidle : u.recovering = false := by rcases hu with rfl | rfl <;> exact idle
    exact hspread.report hidle t message

theorem consume (h : Spread s) : Spread s.consume := by
  unfold Parser.consume
  split
  · exact h.toApart.spread rfl (Nat.lt_succ_self _)
  · exact h.of_eq rfl rfl rfl
  · exact h

theorem skipUntil (ks : List Kind) (ts : List Token) (h : Spread s) :
    Spread (Parser.skipUntil ks ts s) := by
  induction ts generalizing s with
  | nil => exact h
  | cons t ts ih =>
    unfold Parser.skipUntil
    split
    · exact h
    · exact ih h.consume

theorem closed (h : Spread o.parser) {rule : Rule} {o' : Outcome} (hc : Closed rule o o') :
    Spread o'.parser := by
  cases hc with
  | ended | raised => exact h
  | gaveUp halt report skip =>
    have hreported := h.reportHalt report
    obtain ⟨u, ks, hu, -, rfl⟩ := giveUp_ok skip
    have hconsumed : Spread u := by
      rcases hu with ⟨-, rfl⟩ | ⟨-, rfl⟩
      · exact hreported
      · exact hreported.consume
    exact .skipUntil ks u.rest (hconsumed.of_eq rfl rfl rfl)

end Spread

/-! ### Tokens that fit or are dropped -/

theorem position_consume (he : Ended s.rest) (hk : s.current.kind ≠ .eof) :
    s.consume.position = s.position + 1 := by
  obtain ⟨v, ts, hr⟩ := rest_of_ne_eof he hk
  rw [Parser.consume, hr]

theorem reports_of_consume (s : Parser) : s.consume.reports = s.reports := by
  unfold Parser.consume
  split <;> rfl

/-- The end is not dropped where it is not expected. -/
theorem Dropped.current_ne_eof (h : Dropped s s') (he : Ended s.rest)
    (stray : ∀ ks, (s.look 1).expected = .ok ks → s.current.kind ∉ ks) : s.current.kind ≠ .eof := by
  intro hk
  obtain ⟨ks, hks, hsecond⟩ := h.expected
  obtain ⟨last, hr⟩ := rest_of_eof he hk
  have hsame : (s.look 1).second = s.current := by
    simp [second, Parser.look, hr, current]
  exact stray ks hks (hsame ▸ hsecond)

theorem Spread.dropped (h : Spread s) (hd : Dropped s s') (he : Ended s.rest)
    (hk : s.current.kind ≠ .eof) : Spread s' := by
  obtain ⟨u, hu, rfl⟩ := hd.reported
  have hsame : u.rest = s.rest ∧ u.source = s.source := by
    rcases reportExtra_ok hu with ⟨-, rfl⟩ | ⟨-, message, rfl⟩ <;> exact ⟨rfl, rfl⟩
  have hcurrent : u.current = s.current := by rw [current, current, hsame.1, hsame.2]
  have hreported : Spread u := (h.looked (.inr ⟨1, rfl⟩)).reportExtra hu
  refine hreported.toApart.spread (reports_of_consume u) ?_
  show u.position < u.consume.position
  rw [position_consume (hsame.1 ▸ he) (hcurrent ▸ hk)]
  exact Nat.lt_succ_self _

theorem Spread.synced {gate : Gate} (h : Spread s) (he : Ended s.rest) (hs : Synced gate s o) :
    Spread o.parser := by
  cases hs with
  | passed | astray => exact h
  | dropped idle drop stray => exact h.dropped drop he (drop.current_ne_eof he stray)
  | mismatch => exact h.of_eq rfl rfl rfl
  | skipped back idle at_ report wider => exact .skipUntil _ _ ((h.reportExtra report).of_eq rfl rfl rfl)

theorem Spread.mend {next : Point} {r : Except Halt Tree} (h : Spread s) (he : Ended s.rest)
    (stray : ∀ ks, (s.look 1).expected = .ok ks → s.current.kind ∉ ks) (hm : s.mend next = (s', r)) :
    Spread s' := by
  have hmended := mended next s
  rw [hm] at hmended
  have hlook : Spread (s.look 1) := h.of_eq rfl rfl rfl
  cases hmended with
  | dropped drop => exact (h.dropped drop he (drop.current_ne_eof he stray)).consume
  | inserted _ report | reported report => exact hlook.reportMissing report
  | failed => exact h
  | looked => exact hlook

/-- Where a token stands, one of another kind is not expected. -/
theorem stray_of_isToken {p next : Point} {kinds : List Kind} (hs : s.Regular) (hp : IsToken p)
    (hitem : Item.ofPoint p = .token kinds next) (hat : s.here = some p) (hk : s.current.kind ∉ kinds) :
    ∀ ks, (s.look 1).expected = .ok ks → s.current.kind ∉ ks := by
  intro ks hks hmem
  have hlook : (s.look 1).Regular := ⟨hs.ended, hs.words, hs.widened⟩
  have hsame : (s.look 1).expectedAt p = Follow.expected p := expectedAt_eq hlook hp.not_mem_backs
  obtain ⟨hends, hkinds⟩ := hp.expected hitem
  cases (expected_of_here (s := s.look 1) hat (hsame ▸ hends)).symm.trans hks
  exact hk (hkinds _ (hsame ▸ hmem))

/-- Reading a token that fits, or going on without it. The end is read without moving. -/
theorem Spread.token {r : Rule} {after : Language Kind} {here next : Point} {kind : Kind}
    {field : Option Field} (h : Spread s) (hs : s.Regular)
    (hsits : (Form.token here next kind field).Sits r after) :
    Spread (token here next kind field s).parser ∨
      kind = .eof ∧ (token here next kind field s).halt = none ∧
        Apart (token here next kind field s).parser := by
  have hmoved : Spread (s.moveTo here) := h.of_eq rfl rfl rfl
  have hregular : (s.moveTo here).Regular := ⟨hs.ended, hs.words, hs.widened⟩
  unfold Parser.token
  dsimp only
  split
  · rename_i hk
    have hreports : (s.moveTo here).settle.consume.reports = s.reports := reports_of_consume _
    by_cases heof : kind = .eof
    · have hfits : Apart (s.moveTo here).settle.consume := by
        refine h.toApart.of_eq hreports ?_
        unfold Parser.consume
        split <;> simp [settle, moveTo]
      refine .inr ⟨heof, rfl, ?_⟩
      cases field <;> exact hfits.of_eq rfl (Nat.le_refl _)
    · have hne : (s.moveTo here).settle.current.kind ≠ .eof := hk ▸ heof
      have hposition := position_consume (s := (s.moveTo here).settle) hs.ended hne
      have hfits : Spread (s.moveTo here).settle.consume :=
        h.toApart.spread hreports (hposition ▸ Nat.lt_succ_self s.position)
      exact .inl (hfits.setField field _)
  · rename_i hk
    have hstray := stray_of_isToken hregular (Form.isToken_token hsits) hsits.2.2 rfl
      (fun hmem => hk (List.mem_singleton.mp hmem))
    left
    split
    · rename_i hm
      exact hmoved.mend hs.ended hstray hm
    · rename_i u part hm
      have hmended := hmoved.mend hs.ended hstray hm
      cases part with
      | missing k =>
        have hmade : Spread { u with children := .missing k :: u.children } :=
          hmended.of_eq rfl rfl rfl
        exact hmade.setField field _
      | leaf | node => exact hmended.setField field _

theorem Spread.oneOf {r : Rule} {after : Language Kind} {here next : Point} {kinds : List Kind}
    {field : Option Field} (h : Spread s) (hs : s.Regular) (heof : Kind.eof ∉ kinds)
    (hsits : (Form.oneOf here next kinds field).Sits r after) :
    Spread (oneOf here next kinds field s).parser := by
  unfold Parser.oneOf
  dsimp only
  generalize hset : (s.moveTo here).setField field (.leaf (s.moveTo here).current false) = t
  have ht : Spread t ∧ t.Regular ∧ t.here = some here ∧ t.current = s.current := by
    subst hset
    have hmoved : Spread (s.moveTo here) := h.of_eq rfl rfl rfl
    refine ⟨hmoved.setField field _, ?_⟩
    cases field <;> exact ⟨⟨hs.ended, hs.words, hs.widened⟩, rfl, rfl⟩
  obtain ⟨hspread, hregular, hat, hcurrent⟩ := ht
  split
  · rename_i hk
    have hne : t.settle.current.kind ≠ .eof := fun heq => heof (heq ▸ List.contains_iff_mem.mp hk)
    have hposition := position_consume (s := t.settle) hregular.ended hne
    exact hspread.toApart.spread (reports_of_consume _) (hposition ▸ Nat.lt_succ_self t.position)
  · rename_i hk
    have hstray := stray_of_isToken hregular (Form.isToken_oneOf hsits) hsits.2.2 hat
      (fun hmem => hk (List.contains_iff_mem.mpr hmem))
    split
    · rename_i hm
      exact hspread.mend hregular.ended hstray hm
    · rename_i u part hm
      exact (hspread.mend hregular.ended hstray hm).setField field _

/-! ### Readings -/

end Parser

namespace Form

theorem kinds_partsAll (fs : List Form) : (partsAll fs).flatMap ownKinds = fs.flatMap kinds := by
  induction fs with
  | nil => rfl
  | cons f fs ih => simp [partsAll, kinds, ih]

@[simp] theorem kinds_call (here next : Point) (rule : Rule) (level : Nat) (field : Option Field) :
    (Form.call here next rule level field).kinds = [] := rfl

@[simp] theorem kinds_seq (entry : Point) (fs : List Form) :
    (Form.seq entry fs).kinds = fs.flatMap kinds := kinds_partsAll fs

@[simp] theorem kinds_choice (start join : Point) (alts : List Form) :
    (Form.choice start join alts).kinds = alts.flatMap kinds := kinds_partsAll alts

@[simp] theorem kinds_opt (start join : Point) (alts : List Form) :
    (Form.opt start join alts).kinds = alts.flatMap kinds := kinds_partsAll alts

@[simp] theorem kinds_star (entry back next : Point) (body : Form) :
    (Form.star entry back next body).kinds = body.kinds := rfl

@[simp] theorem kinds_plus (start back next : Point) (body : Form) :
    (Form.plus start back next body).kinds = body.kinds := rfl

end Form

theorem Rule.kinds_plain {r : Rule} {f : Form} (h : (ruleForm r).body = .plain f) :
    r.kinds = f.kinds := by
  simp [Rule.kinds, Rule.forms, h, BodyForm.forms, Form.kinds]

theorem Rule.kinds_operators {r : Rule} {ops : Operators} (h : (ruleForm r).body = .operators ops) :
    r.kinds = ops.heads.kinds ++ ops.tails.flatMap fun t => t.2.kinds := by
  simp [Rule.kinds, Rule.forms, h, BodyForm.forms, Form.kinds, List.flatMap_assoc]

namespace Parser

variable {s : Parser} {o : Outcome} {limit depth : Nat}

namespace Task

mutual

def kinds : Task → List Kind
  | .sync .. => []
  | .form f => f.kinds
  | .all ts => kindsAll ts
  | .pick _ _ alts _ => alts.flatMap Form.kinds
  | .loop _ _ round _ => kindsAll round
  | .tail _ ops .. => ops.tails.flatMap fun t => t.2.kinds
  | .tails _ ops .. => ops.tails.flatMap fun t => t.2.kinds
  | .body rule _ => rule.kinds
  | .call .. => []

def kindsAll : List Task → List Kind
  | [] => []
  | t :: ts => t.kinds ++ kindsAll ts

end

theorem kindsAll_append (ts us : List Task) : kindsAll (ts ++ us) = kindsAll ts ++ kindsAll us := by
  induction ts with
  | nil => rfl
  | cons t ts ih => simp [kindsAll, ih]

theorem kindsAll_forms (fs : List Form) : kindsAll (fs.map .form) = fs.flatMap Form.kinds := by
  induction fs with
  | nil => rfl
  | cons f fs ih => simp [kindsAll, kinds, ih]

end Task

theorem Spread.leave {rule : Rule} {field : Option Field} (h : Spread o.parser) :
    Spread (leave rule field s o).parser := by
  have hback : Spread { o.parser with
      stack := s.stack
      children := o.parser.node rule s.current :: s.children
      fields := s.fields
      here := pointAfter rule s.here o.parser.here } := h.of_eq rfl rfl rfl
  exact hback.setField field _

/-- Along every reading that does not read the end itself, reports stay spread. -/
theorem Reads.spread {t : Task} {r : Rule} {after : Language Kind} (h : Reads limit depth t s o)
    (hsits : t.Sits r after) (heof : Kind.eof ∉ t.kinds) (hs : s.Regular) (hi : Spread s) :
    Spread o.parser := by
  induction h generalizing r after with
  | sync => exact Spread.synced (s := Parser.moveTo _ _) (hi.of_eq rfl rfl rfl) hs.ended (synced _ _)
  | nil | worn | wornTails | wornCall => exact hi
  | cons first _ ih ih' =>
    simp only [Task.kinds, Task.kindsAll, List.mem_append, not_or] at heof
    exact ih' hsits.2 heof.2 (first.work.regular hs) (ih hsits.1 heof.1 hs hi)
  | stop _ ih =>
    simp only [Task.kinds, Task.kindsAll, List.mem_append, not_or] at heof
    exact ih hsits.1 heof.1 hs hi
  | token =>
    refine (hi.token hs hsits).resolve_right fun hend => heof ?_
    simp [Task.kinds, Form.kinds, Form.parts, Form.ownKinds, hend.1]
  | oneOf =>
    refine hi.oneOf hs (fun hmem => heof ?_) hsits
    simpa [Task.kinds, Form.kinds, Form.parts, Form.ownKinds] using hmem
  | @invoke _ _ next rule level field _ _ _ ih =>
    have hcall : (Task.call next rule level field).Sits r after :=
      (Follow.proper_of_mem_sites hsits.2.2).called
    exact ih hcall (by simp [Task.kinds]) ⟨hs.ended, hs.words, hs.widened⟩ (hi.of_eq rfl rfl rfl)
  | seq _ ih =>
    refine ih (Task.sitsAll_forms hsits.2) ?_ hs hi
    simpa only [Task.kinds, Task.kindsAll_forms, Form.kinds_seq] using heof
  | choice _ ih =>
    refine ih (Task.sitsAll_choice hsits) ?_ hs hi
    simpa [Task.kinds, Task.kindsAll] using heof
  | opt _ ih =>
    refine ih (Task.sitsAll_opt hsits) ?_ hs hi
    simpa [Task.kinds, Task.kindsAll] using heof
  | star _ ih =>
    refine ih (Task.sitsAll_star hsits) ?_ hs hi
    simpa [Task.kinds, Task.kindsAll, roundTasks] using heof
  | plus _ ih =>
    refine ih (Task.sitsAll_plus hsits) ?_ hs hi
    simpa [Task.kinds, Task.kindsAll, roundTasks] using heof
  | picked _ choice alt _ ih =>
    have hmem := List.mem_of_getElem? alt
    have hw : Work [] [] _ _ := .choose choice
    refine ih (Form.sitEach_iff.mp hsits.1 _ hmem) (fun hk => heof ?_) (hw.regular hs)
      (hi.looked (choose_looks choice))
    exact List.mem_flatMap.mpr ⟨_, hmem, hk⟩
  | passed _ choice | unfit _ choice => exact hi.looked (choose_looks choice)
  | again _ more _ ih =>
    obtain ⟨back, next, body, rfl, rfl, hback, hnext, hbody⟩ := hsits
    have hw : Work [] [] _ _ := .another more
    refine ih (Task.sitsAll_round hback hnext hbody) ?_ (hw.regular hs) (hi.looked (another_looks more))
    simpa [Task.kinds, Task.kindsAll, Task.kindsAll_append] using heof
  | done _ more | undecided _ more => exact hi.looked (another_looks more)
  | tail form choice found _ _ ih =>
    have hmem := List.mem_of_getElem? found
    have hw : Work [] [] _ _ := .predict choice
    have hregular := hw.regular hs
    have hlooked := hi.looked (predict_looks choice)
    refine ih (sits_tail form hmem) (fun hk => heof ?_)
      ⟨hregular.ended, hregular.words, hregular.widened⟩ (hlooked.of_eq rfl rfl rfl)
    exact List.mem_flatMap.mpr ⟨_, hmem, hk⟩
  | lowTail _ choice =>
    have hlooked := hi.looked (predict_looks choice)
    exact hlooked.of_eq rfl rfl rfl
  | noTail _ choice | unfitTail choice => exact hi.looked (predict_looks choice)
  | againTails _ more _ ih =>
    obtain ⟨rfl, hops, -⟩ := hsits
    have hw : Work [] [] _ _ := .anotherTail more
    refine ih (Task.sitsAll_tails hops) ?_ (hw.regular hs) (hi.looked (anotherTail_looks more))
    simpa [Task.kinds, Task.kindsAll, tailTasks] using heof
  | doneTails more | undecidedTails more => exact hi.looked (anotherTail_looks more)
  | plain form _ ih =>
    refine ih (sits_plain form) ?_ hs hi
    simpa only [Task.kinds, Rule.kinds_plain form] using heof
  | operators form _ ih =>
    refine ih (Task.sitsAll_operators form) ?_ hs hi
    simpa [Task.kinds, Task.kindsAll, Rule.kinds_operators form] using heof
  | @call _ _ rule _ _ _ o _ ih =>
    have hinner : Spread o.parser := ih ⟨rfl, rfl⟩ (eof_not_mem_kinds hsits)
      ⟨hs.ended, hs.words, hs.widened⟩ (hi.of_eq rfl rfl rfl)
    exact (hinner.closed (closed rule o)).leave

/-- Reports that are apart are at most one more than the tokens read. -/
theorem Apart.length_le (h : Apart s) : s.reports.length ≤ s.position + 1 := by
  have hnodup : (s.reports.map Report.read).Nodup := by
    refine List.Pairwise.map _ ?_ h.apart
    exact fun later earlier hlt => Nat.ne_of_gt hlt
  have hsubset : s.reports.map Report.read ⊆ List.range (s.position + 1) := by
    intro n hn
    obtain ⟨r, hr, rfl⟩ := List.mem_map.mp hn
    exact List.mem_range.mpr (Nat.lt_succ_of_le (h.past r hr))
  simpa using (hnodup.subperm hsubset).length_le

end Parser

end ResourceNames.Java
