import ResourceNames.Proofs.Lookahead
import ResourceNames.Proofs.Shapes

/-!
Readings in which nothing is reported.

A parser that is not recovering reports the first error it meets. So if nothing was reported
between two states, no token was dropped or made up between them and no rule given up: every check
passed and every token was one that was wanted.
-/
namespace ResourceNames.Java.Parser

variable {limit depth : Nat} {calls wraps : List Rule} {s s' t u : Parser} {o : Outcome}

/-! Reports are never taken back. -/

private theorem Move.reports (h : Move s s') : s'.reports = s.reports ∨
    s.recovering = false ∧ ∃ r, s'.reports = r :: s.reports := by
  cases h with
  | look | moveTo | settle | insert | widen | note => exact .inl rfl
  | setField field part => cases field <;> exact .inl rfl
  | report idle => exact .inr ⟨idle, _, rfl⟩
  | consume =>
    unfold Parser.consume
    split <;> exact .inl rfl

private theorem Move.frame (h : Move s s') : s'.root = s.root ∧ s'.stack = s.stack := by
  cases h with
  | look | moveTo | settle | report | insert | widen | note => exact ⟨rfl, rfl⟩
  | setField field part => cases field <;> exact ⟨rfl, rfl⟩
  | consume =>
    unfold Parser.consume
    split <;> exact ⟨rfl, rfl⟩

private theorem Move.recovering (h : Move s s') (hs : s.recovering = false) :
    s'.recovering = false ∨ ∃ r, s'.reports = r :: s.reports := by
  cases h with
  | look | moveTo | insert | widen | note => exact .inl hs
  | settle => exact .inl rfl
  | setField field part => cases field <;> exact .inl hs
  | report idle => exact .inr ⟨_, rfl⟩
  | consume =>
    unfold Parser.consume
    split <;> exact .inl hs

theorem Work.reports (h : Work calls wraps s s') : ∃ new, s'.reports = new ++ s.reports := by
  induction h with
  | refl => exact ⟨[], rfl⟩
  | move first _ ih =>
    obtain ⟨new, hn⟩ := ih
    rcases first.reports with he | ⟨-, r, he⟩
    · exact ⟨new, by rw [hn, he]⟩
    · exact ⟨new ++ [r], by rw [hn, he, List.append_assoc, List.singleton_append]⟩
  | wrap start own _ ih => exact ih
  | @call _ _ s t u rule next field _ _ _ _ ih ih' =>
    obtain ⟨new, hn⟩ := ih
    obtain ⟨new', hn'⟩ := ih'
    refine ⟨new' ++ new, ?_⟩
    rw [hn', List.append_assoc]
    cases field <;> exact congrArg (new' ++ ·) hn

private theorem Work.frame (h : Work calls wraps s s') :
    s'.root = s.root ∧ s'.stack = s.stack := by
  induction h with
  | refl => exact ⟨rfl, rfl⟩
  | move first _ ih => exact ⟨ih.1.trans first.frame.1, ih.2.trans first.frame.2⟩
  | wrap start own _ ih => exact ih
  | @call _ _ s t u rule next field _ _ _ _ ih ih' =>
    refine ⟨ih'.1.trans ?_, ih'.2.trans ?_⟩
    · cases field <;> exact ih.1
    · cases field <;> rfl

theorem Work.root (h : Work calls wraps s s') : s'.root = s.root := h.frame.1

/-- The open calls are the same again after some work. -/
theorem Work.stack (h : Work calls wraps s s') : s'.stack = s.stack := h.frame.2

/-- Nothing is reported between two states, and nothing was wrong before. -/
structure Calm (s s' : Parser) : Prop where
  root : s.root = none
  idle : s.recovering = false
  reports : s'.reports = s.reports

private theorem reports_eq_of_append {s t u : Parser} (ht : ∃ new, t.reports = new ++ s.reports)
    (hu : ∃ new, u.reports = new ++ t.reports) (h : u.reports = s.reports) :
    t.reports = s.reports := by
  obtain ⟨new, ht⟩ := ht
  obtain ⟨new', hu⟩ := hu
  have hl : new'.length + new.length = 0 := by
    have := congrArg List.length h
    simp only [hu, ht, List.length_append] at this
    omega
  rw [ht, List.length_eq_zero_iff.mp (show new.length = 0 by omega), List.nil_append]

private theorem Work.idle (h : Work calls wraps s s') (hs : s.recovering = false)
    (hr : s'.reports = s.reports) : s'.recovering = false := by
  induction h with
  | refl => exact hs
  | @move _ _ s t u first rest ih =>
    have ht := reports_eq_of_append (Work.single first : Work [] [] s t).reports rest.reports hr
    rcases first.recovering hs with hi | ⟨r, he⟩
    · exact ih hi (hr.trans ht.symm)
    · simp [he] at ht
  | wrap start own _ ih => exact ih hs hr
  | @call _ _ s t u rule next field called read inner rest ih ih' =>
    have hl : (leave rule field s ⟨t, none⟩).parser.reports = t.reports := by cases field <;> rfl
    have ht : t.reports = s.reports :=
      reports_eq_of_append inner.reports (hl ▸ rest.reports) hr
    refine ih' ?_ (hr.trans (hl.trans ht).symm)
    have hi : t.recovering = false := ih hs ht
    cases field <;> exact hi

/-- A calm stretch of work is calm before and after each point of it. -/
theorem Calm.split {calls' wraps' : List Rule} (h : Calm s u) (first : Work calls wraps s t)
    (rest : Work calls' wraps' t u) : Calm s t ∧ Calm t u := by
  have ht := reports_eq_of_append first.reports rest.reports h.reports
  exact ⟨⟨h.root, h.idle, ht⟩,
    ⟨first.root.trans h.root, first.idle h.idle ht, h.reports.trans ht.symm⟩⟩

/-- After a report nothing is calm. -/
theorem Calm.not_report (h : Calm s u) {v : Token} {message : String}
    (rest : Work calls wraps (s.report v message) u) : False := by
  obtain ⟨new, hn⟩ := rest.reports
  have hl := congrArg List.length (hn.symm.trans h.reports)
  simp [report] at hl
  omega

private theorem Calm.not_reportExtra (h : Calm s u) (hr : s.reportExtra = .ok t)
    (rest : Work calls wraps t u) : False := by
  rcases reportExtra_ok hr with ⟨hi, -⟩ | ⟨-, message, rfl⟩
  · simp [h.idle] at hi
  · exact h.not_report rest

private theorem Calm.look (h : Calm s u) (k : Nat) : Calm (s.look k) u := ⟨h.root, h.idle, h.reports⟩

theorem Calm.moveTo (h : Calm s u) (p : Point) : Calm (s.moveTo p) u := ⟨h.root, h.idle, h.reports⟩

theorem Calm.not_dropped (h : Calm s u) (hd : Dropped s t) (rest : Work calls wraps t u) :
    False := by
  obtain ⟨v, hr, rfl⟩ := hd.reported
  exact (h.look 1).not_reportExtra hr (.move .consume (.move .settle rest))

theorem Calm.not_reportMissing (h : Calm s u) (hr : (s.look 1).reportMissing = .ok t)
    (rest : Work calls wraps t u) : False := by
  rcases reportMissing_ok hr with ⟨hi, -⟩ | ⟨-, message, rfl⟩
  · simp [(h.look 1).idle] at hi
  · exact (h.look 1).not_report rest

/-- A check that passes without a report finds an expected token. -/
theorem Reads.sync_calm {gate : Gate} {p : Point}
    (h : Reads limit depth (.sync gate p) s ⟨s', none⟩) (hc : Calm s s') :
    s' = s.moveTo p ∧
      ((s.expectedAt p).ends = true ∨ s.current.kind ∈ (s.expectedAt p).kinds) := by
  generalize ho : (⟨s', none⟩ : Outcome) = o at h
  cases h with | sync back => ?_
  have hsync := synced gate (s.moveTo p)
  rw [← ho] at hsync
  cases hsync with
  | passed why =>
    refine ⟨rfl, ?_⟩
    rcases why with hi | why
    · exact absurd hi (by simp [(hc.moveTo p).idle])
    · have hw : ((s.expectedAt p).ends || (s.expectedAt p).kinds.contains s.current.kind) = true :=
        why p rfl
      simpa using hw
  | dropped idle drop => exact ((hc.moveTo p).not_dropped drop (.refl : Work [] [] _ _)).elim
  | skipped hg idle at_ report wider =>
    cases at_
    refine ((hc.moveTo p).not_reportExtra report (?_ : Work [] [] _ _)).elim
    exact .move (.widen (back hg) wider) (.skipUntil _ _ _)

private theorem mend_calm {next : Point} {part : Tree} (h : s.mend next = (t, .ok part))
    (hc : Calm s u) (rest : Work calls wraps t u) : False := by
  have hm := mended next s
  rw [h] at hm
  cases hm with
  | dropped drop => exact hc.not_dropped drop (.move .consume rest)
  | inserted _ report => exact hc.not_reportMissing report rest

/-- A token that is read without a report is the one wanted. -/
theorem token_calm {here next : Point} {kind : Kind} {field : Option Field}
    (h : token here next kind field s = ⟨s', none⟩) (hc : Calm s s') :
    s.current.kind = kind ∧
      s' = (s.moveTo here).settle.consume.setField field (.leaf s.current false) := by
  unfold token at h
  dsimp only at h
  split at h
  · rename_i hk
    exact ⟨hk, (Outcome.mk.inj h).1.symm⟩
  · split at h
    · simp at h
    · rename_i v part hm
      refine (mend_calm hm (hc.moveTo here) (?_ : Work [] [] v s')).elim
      obtain rfl := (Outcome.mk.inj h).1
      cases part with
      | missing k => exact .move (.insert k) (.single (.setField field _))
      | leaf | node => exact .single (.setField field _)

theorem oneOf_calm {here next : Point} {kinds : List Kind} {field : Option Field}
    (h : oneOf here next kinds field s = ⟨s', none⟩) (hc : Calm s s') :
    s.current.kind ∈ kinds ∧
      s' = ((s.moveTo here).setField field (.leaf s.current false)).settle.consume := by
  have hcurrent : ((s.moveTo here).setField field (.leaf s.current false)).current = s.current := by
    cases field <;> rfl
  unfold oneOf at h
  simp only [current_moveTo, hcurrent] at h
  split at h
  · rename_i hk
    exact ⟨by simpa using hk, (Outcome.mk.inj h).1.symm⟩
  · split at h
    · simp at h
    · rename_i v part hm
      have hc' : Calm ((s.moveTo here).setField field (.leaf s.current false)) s' := by
        cases field <;> exact ⟨hc.root, hc.idle, hc.reports⟩
      refine (mend_calm hm hc' (?_ : Work [] [] v s')).elim
      obtain rfl := (Outcome.mk.inj h).1
      exact .single (.setField field _)

/-- A rule that ends without a report was read to its end, or left by a halt that cannot be
reported. -/
theorem close_calm {rule : Rule} {o' : Outcome} (h : Closed rule o o')
    (hc : Calm o.parser o'.parser) :
    o' = o ∧ ∀ h, o.halt = some h → h = .exhausted ∨ ∃ p, h = .astray p := by
  cases h with
  | ended halt => exact ⟨rfl, by simp [halt]⟩
  | gaveUp halt report skip =>
    exfalso
    obtain ⟨v, ks, hv, -, rfl⟩ := giveUp_ok skip
    have hw : Work [] [] _ (skipUntil ks v.rest v.noteGivenUp) := .skipUntil _ _ _
    rcases reportHalt_ok report with ⟨hi, -⟩ | ⟨-, w, t, message, hw', rfl⟩
    · simp [hc.idle] at hi
    · have hrest : Work [] [] (w.report t message) (skipUntil ks v.rest v.noteGivenUp) := by
        rcases hv with ⟨-, rfl⟩ | ⟨-, rfl⟩
        · exact .move .note hw
        · exact .move .consume (.move .note hw)
      rcases hw' with rfl | rfl
      · exact hc.not_report hrest
      · exact (hc.look _).not_report hrest
  | @raised h h' halt why =>
    obtain ⟨rfl, hh⟩ := why hc.root
    refine ⟨?_, fun h hs => ?_⟩
    · obtain ⟨parser, _⟩ := o
      cases halt
      rfl
    · cases halt.symm.trans hs
      exact hh

/-- A calm call is calm inside. -/
theorem Calm.split_call {next : Point} {rule : Rule} {level : Nat} {field : Option Field}
    (h : Calm s (leave rule field s (close rule o)).parser)
    (read : Reads limit depth (.body rule level) (s.enter next) o) :
    Calm (s.enter next) o.parser ∧ Calm o.parser (close rule o).parser := by
  have hl : (leave rule field s (close rule o)).parser.reports = (close rule o).parser.reports := by
    cases field <;> rfl
  have hc : Calm (s.enter next) (close rule o).parser := ⟨h.root, h.idle, hl ▸ h.reports⟩
  exact hc.split read.work (Work.closed (closed rule o) : Work [] [] _ _)

/-! Choosing between alternatives at most looks ahead. -/

theorem predict_looks {d : Decision} {r : Except Halt Nat} (h : s.predict d = (s', r)) :
    s' = s ∨ ∃ k, s' = s.look k := by
  unfold predict at h
  dsimp only at h
  split at h <;> exact .inr ⟨_, (Prod.mk.inj h).1.symm⟩

/-- An alternative that is found by looking ahead. -/
theorem predict_ok {d : Decision} {n : Nat} (h : s.predict d = (s', .ok n)) :
    (∃ k, s' = s.look k) ∧ (d.decide s.stack s.rest).choice = .ok n := by
  unfold predict at h
  dsimp only at h
  split at h
  · rename_i alt ha
    obtain ⟨rfl, hn⟩ := Prod.mk.inj h
    exact ⟨⟨_, rfl⟩, Except.ok.inj hn ▸ ha⟩
  · cases h

theorem choose_looks {p : Point} {alts : List Point} {otherwise r : Except Halt Nat}
    (h : s.choose p alts otherwise = (s', r)) : s' = s ∨ ∃ k, s' = s.look k := by
  unfold choose at h
  split at h
  · exact predict_looks h
  · split at h <;> exact .inl (Prod.mk.inj h).1.symm

theorem another_looks {p : Point} {alts : List Point} {r : Except Halt Bool}
    (h : another p alts s = (s', r)) : s' = s ∨ ∃ k, s' = s.look k := by
  unfold another at h
  split at h <;> (rename_i hc; exact (Prod.mk.inj h).1 ▸ choose_looks hc)

theorem anotherTail_looks {rule : Rule} {ops : Operators} {level : Nat} {r : Except Halt Bool}
    (h : anotherTail rule ops level s = (s', r)) : s' = s ∨ ∃ k, s' = s.look k := by
  unfold anotherTail at h
  split at h <;> (rename_i hc; exact (Prod.mk.inj h).1 ▸ predict_looks hc)

theorem Calm.of_looked (h : Calm s u) (hl : s' = s ∨ ∃ k, s' = s.look k) : Calm s' u := by
  rcases hl with rfl | ⟨k, rfl⟩
  · exact h
  · exact h.look k

theorem rest_of_looked (hl : s' = s ∨ ∃ k, s' = s.look k) : s'.rest = s.rest := by
  rcases hl with rfl | ⟨k, rfl⟩ <;> rfl

/-- Where one of some alternatives must be read, one of them is chosen. -/
theorem Picks.chosen {start : Point} {points : List Point} {alts : List Form} {optional : Bool}
    (origin : Picks start points alts optional) {n : Nat}
    (h : s.choose start points (fallback optional alts s) = (s', .ok n))
    (hbeyond : ∀ m, n = m + 1 → alts[m]? = none) : optional = true := by
  cases origin with
  | opt held => rfl
  | choice held =>
    exfalso
    have hsettled : Follow.settled? start = Follow.looks? (alts.map Form.entry) :=
      Follow.settled?_of_holds held (by simp [Follow.decisions])
    have hlt : ∃ i, n = i + 1 ∧ i < alts.length := by
      unfold choose at h
      rw [hsettled] at h
      split at h
      · obtain ⟨-, hd⟩ := predict_ok h
        obtain ⟨i, p, hi, rfl, -⟩ := Decision.exists_of_decide_among hd
        exact ⟨i, rfl, by simpa using (List.getElem?_eq_some_iff.mp hi).1⟩
      · rename_i looks hl
        unfold Follow.looks? at hl
        dsimp only at hl
        split at hl
        · cases hl
          split at h
          · rename_i i hi
            have hlt := (List.findIdx?_eq_some_iff_getElem.mp hi).1
            exact ⟨i, (Except.ok.inj (Prod.mk.inj h).2).symm, by simpa using hlt⟩
          · cases h
        · cases hl
    obtain ⟨i, rfl, hi⟩ := hlt
    simpa [hi] using hbeyond i rfl

end ResourceNames.Java.Parser
