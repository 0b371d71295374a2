import ResourceNames.Proofs.Steps

/-!
What a parser does, without the order of its tasks.

`Work calls wraps s s'` says that a parser gets from one state to another by moves, by calls of
certain rules, and by making a node of certain rules the first part of a new one. Every reading is
such work, and what no move, call or wrap can break holds along all of it.
-/
namespace ResourceNames.Java.Parser

variable {s s' : Parser}

/-- The work on a rule that was begun in one state is over in another one. -/
def Finishes (rule : Rule) (s t : Parser) : Prop :=
  ∃ limit depth level o h, Reads limit depth (.body rule level) s o ∧ Closed rule o ⟨t, h⟩

inductive Move (s : Parser) : Parser → Prop where
  | look (depth : Nat) : Move s (s.look depth)
  | moveTo (p : Point) : Move s (s.moveTo p)
  | setField (field : Option Field) (part : Tree) : Move s (s.setField field part)
  | consume : Move s s.consume
  | settle : Move s s.settle
  | report {t message} (idle : s.recovering = false) : Move s (s.report t message)
  | insert (k : Kind) : Move s { s with children := .missing k :: s.children }
  | widen {p wide} (back : p ∈ Layout.backs) (wider : s.Widens p wide) :
      Move s { s with widened := (p, wide) :: s.widened.filter fun w => w.1 != p }
  | note : Move s s.noteGivenUp

/-- A parser gets from one state to another, and calls and wraps only nodes of some rules. -/
inductive Work : (calls wraps : List Rule) → Parser → Parser → Prop where
  | refl {calls wraps} {s : Parser} : Work calls wraps s s
  | move {calls wraps} {s t u : Parser} (first : Move s t) (rest : Work calls wraps t u) :
      Work calls wraps s u
  | wrap {calls wraps} {s u : Parser} {rule : Rule} (start : Token) (own : rule ∈ wraps)
      (rest : Work calls wraps (s.wrap rule start) u) : Work calls wraps s u
  | call {calls wraps} {s t u : Parser} {rule : Rule} (next : Point) (field : Option Field)
      (called : rule ∈ calls) (read : Finishes rule (s.enter next) t)
      (inner : Work rule.calls rule.wraps (s.enter next) t)
      (rest : Work calls wraps (leave rule field s ⟨t, none⟩).parser u) : Work calls wraps s u

namespace Work

variable {calls wraps : List Rule}

theorem trans {s t u : Parser} (h : Work calls wraps s t) (h' : Work calls wraps t u) :
    Work calls wraps s u := by
  induction h with
  | refl => exact h'
  | move first _ ih => exact .move first (ih h')
  | wrap start own _ ih => exact .wrap start own (ih h')
  | call next field called read inner _ _ ih => exact .call next field called read inner (ih h')

theorem mono {calls' wraps' : List Rule} (h : Work calls wraps s s') (hc : calls ⊆ calls')
    (hw : wraps ⊆ wraps') : Work calls' wraps' s s' := by
  induction h with
  | refl => exact .refl
  | move first _ ih => exact .move first (ih hc hw)
  | wrap start own _ ih => exact .wrap start (hw own) (ih hc hw)
  | call next field called read inner _ _ ih => exact .call next field (hc called) read inner (ih hc hw)

theorem single (h : Move s s') : Work calls wraps s s' := .move h .refl

theorem reportExtra (h : s.reportExtra = .ok s') : Work calls wraps s s' := by
  rcases reportExtra_ok h with ⟨-, rfl⟩ | ⟨hi, message, rfl⟩
  · exact .refl
  · exact .single (.report hi)

theorem reportMissing (h : s.reportMissing = .ok s') : Work calls wraps s s' := by
  rcases reportMissing_ok h with ⟨-, rfl⟩ | ⟨hi, message, rfl⟩
  · exact .refl
  · exact .single (.report hi)

theorem dropped (h : Dropped s s') : Work calls wraps s s' := by
  obtain ⟨u, hr, rfl⟩ := h.reported
  exact .move (.look 1) ((Work.reportExtra hr).trans (.move .consume (.single .settle)))

theorem skipUntil (ks : List Kind) (ts : List Token) (s : Parser) :
    Work calls wraps s (Parser.skipUntil ks ts s) := by
  induction ts generalizing s with
  | nil => exact .refl
  | cons t ts ih =>
    unfold Parser.skipUntil
    split
    · exact .refl
    · exact .move .consume (ih s.consume)

theorem synced {gate : Gate} {o : Outcome} (h : Synced gate s o)
    (hb : gate = .back → ∀ p, s.here = some p → p ∈ Layout.backs) :
    Work calls wraps s o.parser := by
  cases h with
  | passed | astray => exact .refl
  | dropped idle drop => exact .dropped drop
  | mismatch => exact .single (.look 1)
  | skipped back idle at_ report wider =>
    exact (Work.reportExtra report).trans (.move (.widen (hb back _ at_) wider) (.skipUntil _ _ _))

theorem mend {next : Point} {r : Except Halt Tree} (h : s.mend next = (s', r)) :
    Work calls wraps s s' := by
  have hm := mended next s
  rw [h] at hm
  cases hm with
  | dropped drop => exact (Work.dropped drop).trans (.single .consume)
  | inserted _ report | reported report => exact .move (.look 1) (.reportMissing report)
  | failed => exact .refl
  | looked => exact .single (.look 1)

theorem token (here next : Point) (kind : Kind) (field : Option Field) (s : Parser) :
    Work calls wraps s (token here next kind field s).parser := by
  refine .move (.moveTo here) ?_
  unfold Parser.token
  dsimp only
  split
  · exact .move .settle (.move .consume (.single (.setField field _)))
  · split
    · rename_i hm
      exact .mend hm
    · rename_i u part hm
      refine (Work.mend hm).trans ?_
      cases part with
      | missing k => exact .move (.insert k) (.single (.setField field _))
      | leaf | node => exact .single (.setField field _)

theorem oneOf (here next : Point) (kinds : List Kind) (field : Option Field) (s : Parser) :
    Work calls wraps s (oneOf here next kinds field s).parser := by
  refine .move (.moveTo here) (.move (.setField field (.leaf (s.moveTo here).current false)) ?_)
  unfold Parser.oneOf
  dsimp only
  split
  · exact .move .settle (.single .consume)
  · split
    · rename_i hm
      exact .mend hm
    · rename_i u part hm
      exact (Work.mend hm).trans (.single (.setField field _))

theorem predict {d : Decision} {r : Except Halt Nat} (h : s.predict d = (s', r)) :
    Work calls wraps s s' := by
  unfold Parser.predict at h
  dsimp only at h
  split at h <;> cases h <;> exact .single (.look _)

theorem choose {p : Point} {alts : List Point} {otherwise r : Except Halt Nat}
    (h : s.choose p alts otherwise = (s', r)) : Work calls wraps s s' := by
  unfold Parser.choose at h
  split at h
  · exact .predict h
  · split at h <;> cases h <;> exact .refl

theorem another {p : Point} {alts : List Point} {r : Except Halt Bool}
    (h : another p alts s = (s', r)) : Work calls wraps s s' := by
  unfold Parser.another at h
  split at h <;> cases h <;> exact .choose (by assumption)

theorem anotherTail {rule : Rule} {ops : Operators} {level : Nat} {r : Except Halt Bool}
    (h : anotherTail rule ops level s = (s', r)) : Work calls wraps s s' := by
  unfold Parser.anotherTail at h
  split at h <;> cases h <;> exact .predict (by assumption)

theorem reportHalt {rule : Rule} {x : Halt} (h : s.reportHalt rule x = .ok s') :
    Work calls wraps s s' := by
  rcases reportHalt_ok h with ⟨-, rfl⟩ | ⟨hi, u, t, message, rfl | rfl, rfl⟩
  · exact .refl
  · exact .single (.report hi)
  · exact .move (.look _) (.single (.report hi))

theorem closed {rule : Rule} {o o' : Outcome} (h : Closed rule o o') :
    Work calls wraps o.parser o'.parser := by
  cases h with
  | ended | raised => exact .refl
  | gaveUp halt report skip =>
    obtain ⟨u, ks, hu, -, rfl⟩ := giveUp_ok skip
    refine (Work.reportHalt report).trans ?_
    rcases hu with ⟨-, rfl⟩ | ⟨-, rfl⟩
    · exact .move .note (.skipUntil _ _ _)
    · exact .move .consume (.move .note (.skipUntil _ _ _))

end Work

namespace Task

mutual

def calls : Task → List Rule
  | .sync .. => []
  | .form f => f.calls
  | .all ts => callsAll ts
  | .pick _ _ alts _ => alts.flatMap Form.calls
  | .loop _ _ round _ => callsAll round
  | .tail _ ops .. => ops.tails.flatMap fun t => t.2.calls
  | .tails _ ops .. => ops.tails.flatMap fun t => t.2.calls
  | .body rule _ => rule.calls
  | .call _ rule .. => [rule]

def callsAll : List Task → List Rule
  | [] => []
  | t :: ts => t.calls ++ callsAll ts

end

mutual

def wraps : Task → List Rule
  | .all ts => wrapsAll ts
  | .loop _ _ round _ => wrapsAll round
  | .tail rule .. => [rule]
  | .tails rule .. => [rule]
  | .body rule _ => rule.wraps
  | _ => []

def wrapsAll : List Task → List Rule
  | [] => []
  | t :: ts => t.wraps ++ wrapsAll ts

end

theorem callsAll_append (ts us : List Task) : callsAll (ts ++ us) = callsAll ts ++ callsAll us := by
  induction ts with
  | nil => rfl
  | cons t ts ih => simp [callsAll, ih]

theorem wrapsAll_append (ts us : List Task) : wrapsAll (ts ++ us) = wrapsAll ts ++ wrapsAll us := by
  induction ts with
  | nil => rfl
  | cons t ts ih => simp [wrapsAll, ih]

theorem callsAll_forms (fs : List Form) : callsAll (fs.map .form) = fs.flatMap Form.calls := by
  induction fs with
  | nil => rfl
  | cons f fs ih => simp [callsAll, calls, ih]

theorem wrapsAll_forms (fs : List Form) : wrapsAll (fs.map .form) = [] := by
  induction fs with
  | nil => rfl
  | cons f fs ih => simpa [wrapsAll, wraps] using ih

end Task

/-- Whatever a parser does for a task, it gets there by moves, calls and wraps. -/
theorem Reads.work {limit depth : Nat} {t : Task} {o : Outcome} (h : Reads limit depth t s o) :
    Work t.calls t.wraps s o.parser := by
  induction h with
  | sync back =>
    refine .move (.moveTo _) (.synced (Parser.synced _ _) fun hg p hp => ?_)
    exact Option.some.inj hp ▸ back hg
  | nil | worn | wornTails | wornCall => exact .refl
  | cons _ _ ih ih' =>
    exact (ih.mono (List.subset_append_left _ _) (List.subset_append_left _ _)).trans
      (ih'.mono (List.subset_append_right _ _) (List.subset_append_right _ _))
  | stop _ ih => exact ih.mono (List.subset_append_left _ _) (List.subset_append_left _ _)
  | token => exact .token _ _ _ _ _
  | oneOf => exact .oneOf _ _ _ _ _
  | invoke _ ih => exact .move (.moveTo _) ih
  | seq _ ih => simpa [Task.calls, Task.wraps, Task.callsAll_forms, Task.wrapsAll_forms] using ih
  | choice _ ih | opt _ ih | star _ ih | plus _ ih =>
    refine ih.mono ?_ ?_ <;>
      simp [Task.calls, Task.wraps, Task.callsAll, Task.wrapsAll, roundTasks, List.subset_def]
  | picked origin choice alt _ ih =>
    refine (Work.choose choice).trans (ih.mono (fun r hr => ?_) (List.Subset.refl _))
    exact List.mem_flatMap.mpr ⟨_, List.mem_of_getElem? alt, hr⟩
  | passed origin choice | unfit origin choice => exact .choose choice
  | again origin more _ ih =>
    refine (Work.another more).trans (ih.mono ?_ ?_) <;>
      simp [Task.calls, Task.wraps, Task.callsAll, Task.wrapsAll, Task.callsAll_append,
        Task.wrapsAll_append]
  | done origin more | undecided origin more => exact .another more
  | tail form choice found _ _ ih =>
    refine (Work.predict choice).trans (.wrap _ (List.mem_singleton_self _) (ih.mono ?_ nofun))
    exact fun r hr => List.mem_flatMap.mpr ⟨_, List.mem_of_getElem? found, hr⟩
  | lowTail form choice =>
    exact (Work.predict choice).trans (.wrap _ (List.mem_singleton_self _) (.single (.moveTo _)))
  | noTail form choice => exact .predict choice
  | unfitTail choice => exact .predict choice
  | againTails form more _ ih =>
    refine (Work.anotherTail more).trans (ih.mono ?_ ?_) <;>
      simp [Task.calls, Task.wraps, Task.callsAll, Task.wrapsAll, tailTasks]
  | doneTails more | undecidedTails more => exact .anotherTail more
  | plain form _ ih => exact ih.mono (by simp [Task.calls, Rule.calls_plain form]) nofun
  | operators form _ ih =>
    refine ih.mono ?_ ?_ <;>
      simp [Task.calls, Task.wraps, Task.callsAll, Task.wrapsAll, Rule.calls_operators form,
        Rule.wraps_operators form]
  | call read ih =>
    refine .call _ _ (List.mem_singleton_self _) ⟨_, _, _, _, _, read, Parser.closed _ _⟩ ?_ .refl
    exact ih.trans (.closed (Parser.closed _ _))

def outset (s : Parser) : Parser :=
  { s.look 0 with root := s.here, stack := [], children := [], fields := [] }

/-- The tree of a rule is what the work on its body leaves. -/
theorem parse_cases (rule : Rule) (s : Parser) :
    ∃ o o', Reads s.limit s.limit (.body rule 0) s.outset o ∧ Closed rule o o' ∧
      s.parse rule = (o'.parser.node rule s.current,
        ⟨{ o'.parser with children := [], fields := [], here := pointAfter rule s.here o'.parser.here },
          o'.halt⟩) :=
  ⟨_, _, reads_body s.limit s.limit rule 0 s.outset, closed rule _, rfl⟩

end ResourceNames.Java.Parser
