import ResourceNames.Proofs.Termination

/-!
The bounds on calls and rounds do not show.

Work that does not use up its bounds comes out the same with larger ones, so what a rule gives with
enough of both is what it gives without any bounds. A parser before a text has enough of both: they
are counted out from the tokens of the text.
-/
namespace ResourceNames.Java

/-- With larger bounds the outcome is the same, unless the bounds were used up. -/
def Outcome.Extends (o o' : Outcome) : Prop := o.halt ≠ some .exhausted → o' = o

namespace Outcome

variable {o o' : Outcome}

theorem Extends.refl (o : Outcome) : o.Extends o := fun _ => rfl

theorem Extends.of_exhausted (h : o.halt = some .exhausted) : o.Extends o' := fun hne => absurd h hne

theorem Extends.andThen {f g : Parser → Outcome} (h : o.Extends o') (hf : ∀ s, (f s).Extends (g s)) :
    (o.andThen f).Extends (o'.andThen g) := by
  intro hne
  cases hh : o.halt with
  | none =>
    have ho : o' = o := h (by simp [hh])
    simp only [ho, Outcome.andThen, hh] at hne ⊢
    exact hf o.parser hne
  | some halt =>
    have hsame : o.andThen f = o := by simp only [Outcome.andThen, hh]
    rw [hsame] at hne ⊢
    have ho : o' = o := h hne
    simp only [ho, Outcome.andThen, hh]

end Outcome

namespace Parser

open Outcome

/-- Calls with larger bounds extend those with smaller ones. -/
def Outlasts (invoke invoke' : Invoke) : Prop :=
  ∀ next rule level field s, (invoke next rule level field s).Extends (invoke' next rule level field s)

variable {invoke invoke' : Invoke} {limit limit' depth depth' : Nat}

private theorem proceed_extends {choice : Parser × Except Halt Nat} {f g : Nat → Parser → Outcome}
    (h : ∀ n s, (f n s).Extends (g n s)) : (proceed choice f).Extends (proceed choice g) := by
  obtain ⟨s, _ | n⟩ := choice
  · exact .refl _
  · exact h n s

private theorem rounds_extends {again : Parser → Parser × Except Halt Bool}
    {body body' : Parser → Outcome} (h : ∀ s, (body s).Extends (body' s)) {n n' : Nat} (hn : n ≤ n')
    (s : Parser) : (rounds again body n s).Extends (rounds again body' n' s) := by
  induction n generalizing n' s with
  | zero => exact .of_exhausted rfl
  | succ n ih =>
    obtain ⟨m, rfl⟩ : ∃ m, n' = m + 1 := ⟨n' - 1, by omega⟩
    simp only [rounds]
    split
    · exact .refl _
    · exact .refl _
    · exact (h _).andThen (ih (by omega))

mutual

private theorem run_extends (hi : Outlasts invoke invoke') (hl : limit ≤ limit') (f : Form)
    (s : Parser) : (run invoke limit f s).Extends (run invoke' limit' f s) := by
  cases f with
  | token | oneOf => rw [run, run]; exact .refl _
  | call here next rule level field => rw [run, run]; exact hi next rule level field _
  | seq entry parts => rw [run, run]; exact runAll_extends hi hl parts s
  | choice start join alts =>
    rw [run, run]
    exact (Extends.refl _).andThen fun s => proceed_extends (runNth_extends hi hl alts)
  | opt start join alts =>
    rw [run, run]
    exact (Extends.refl _).andThen fun s => proceed_extends (runNth_extends hi hl alts)
  | star entry back next body =>
    rw [run, run]
    refine (Extends.refl _).andThen (rounds_extends (fun s => ?_) hl)
    exact (run_extends hi hl body s).andThen fun _ => .refl _
  | plus start back next body =>
    have hround (s : Parser) := (run_extends hi hl body s).andThen
      fun s => Extends.refl ((s.moveTo back).sync .back)
    rw [run, run]
    exact (Extends.refl _).andThen fun s => (hround s).andThen (rounds_extends hround hl)

private theorem runAll_extends (hi : Outlasts invoke invoke') (hl : limit ≤ limit') (fs : List Form)
    (s : Parser) : (runAll invoke limit fs s).Extends (runAll invoke' limit' fs s) := by
  cases fs with
  | nil => exact .refl _
  | cons f fs =>
    rw [runAll, runAll]
    exact (run_extends hi hl f s).andThen (runAll_extends hi hl fs)

private theorem runNth_extends (hi : Outlasts invoke invoke') (hl : limit ≤ limit') (fs : List Form)
    (n : Nat) (s : Parser) : (runNth invoke limit fs n s).Extends (runNth invoke' limit' fs n s) := by
  cases fs with
  | nil => exact .refl _
  | cons f fs =>
    match n with
    | 0 => exact .refl _
    | 1 => rw [runNth, runNth]; exact run_extends hi hl f s
    | n + 2 => rw [runNth, runNth]; exact runNth_extends hi hl fs (n + 1) s

end

private theorem tail_extends (hi : Outlasts invoke invoke') (hl : limit ≤ limit') (rule : Rule)
    (ops : Operators) (level : Nat) (start : Token) (s : Parser) :
    (tail invoke limit rule ops level start s).Extends
      (tail invoke' limit' rule ops level start s) := by
  refine (Extends.refl _).andThen fun s => proceed_extends fun alt s => ?_
  split
  · exact .refl _
  · dsimp only
    split
    · exact run_extends hi hl _ _
    · exact .refl _

private theorem runBody_extends (hi : Outlasts invoke invoke') (hl : limit ≤ limit') (rule : Rule)
    (level : Nat) (s : Parser) :
    (runBody invoke limit rule level s).Extends (runBody invoke' limit' rule level s) := by
  unfold runBody
  split
  · exact run_extends hi hl _ s
  · rename_i ops _
    refine (run_extends hi hl ops.heads s).andThen fun s =>
      (Extends.refl _).andThen (rounds_extends (fun s => ?_) hl)
    exact (tail_extends hi hl rule ops level _ s).andThen fun _ => .refl _

/-- A rule that used up the bounds is left, not given up. -/
private theorem close_extends {o o' : Outcome} (rule : Rule) (h : o.Extends o') :
    (close rule o).Extends (close rule o') := by
  intro hne
  have ho : o.halt ≠ some .exhausted := fun hh =>
    hne (by simp [close, hh, reportHalt, Except.bind])
  rw [h ho]

private theorem call_outlasts (hl : limit ≤ limit') (hd : depth ≤ depth') :
    Outlasts (call limit depth) (call limit' depth') := by
  induction depth generalizing depth' with
  | zero => exact fun _ _ _ _ _ => .of_exhausted rfl
  | succ depth ih =>
    obtain ⟨m, rfl⟩ : ∃ m, depth' = m + 1 := ⟨depth' - 1, by omega⟩
    intro next rule level field s hne
    have hinner : Outlasts (call limit depth) (call limit' m) := ih (by omega)
    have hbody := close_extends rule (runBody_extends hinner hl rule level (s.enter next))
    have heq : call limit (depth + 1) next rule level field s = leave rule field s
        (close rule (runBody (call limit depth) limit rule level (s.enter next))) := rfl
    have heq' : call limit' (m + 1) next rule level field s = leave rule field s
        (close rule (runBody (call limit' m) limit' rule level (s.enter next))) := rfl
    rw [heq] at hne
    rw [heq, heq', hbody hne]

/-- Reads a source by a rule, with bounds on the rounds of its loops and on the calls inside each
other. -/
def parseWithin (rounds depth : Nat) (rule : Rule) (s : Parser) : Tree × Outcome :=
  let o := close rule (runBody (call rounds depth) rounds rule 0 s.outset)
  (o.parser.node rule s.current,
    ⟨{ o.parser with children := [], fields := [], here := pointAfter rule s.here o.parser.here },
      o.halt⟩)

theorem parse_eq_parseWithin (rule : Rule) (s : Parser) :
    s.parse rule = s.parseWithin s.limit s.limit rule := rfl

/-- A rule that ends within some bounds comes out the same within larger ones. -/
theorem parseWithin_eq {rule : Rule} {s : Parser} (hl : limit ≤ limit') (hd : depth ≤ depth')
    (h : (s.parseWithin limit depth rule).2.halt ≠ some .exhausted) :
    s.parseWithin limit' depth' rule = s.parseWithin limit depth rule := by
  have hclose := close_extends rule (runBody_extends (call_outlasts hl hd) hl rule 0 s.outset) h
  unfold parseWithin
  rw [hclose]

/-- Every rule ends on every text, however broken, also after other texts were read: the bounds
that are counted out from the number of tokens are not used up, and with larger ones the rule comes
out the same. -/
theorem parse_ends_within_bounds (text : String) (widened : Widened) (rule : Rule)
    (rounds depth : Nat) :
    ((ofSource (.ofString text) widened).parse rule).2.halt = none ∧
      (ofSource (.ofString text) widened).limit =
        ((Source.ofString text).visible.size + 1) * (Layout.size + 2) * Rule.all.length ∧
      (ofSource (.ofString text) widened).parseWithin
          ((ofSource (.ofString text) widened).limit + rounds)
          ((ofSource (.ofString text) widened).limit + depth) rule =
        (ofSource (.ofString text) widened).parse rule := by
  have hended := ended_ofSource text widened
  have hlimit : (ofSource (.ofString text) widened).limit =
      ((Source.ofString text).visible.size + 1) * (Layout.size + 2) * Rule.all.length := by
    simp [limit, ofSource]
  have hroot : (ofSource (.ofString text) widened).here = none := rfl
  generalize ofSource (.ofString text) widened = s at hended hlimit hroot ⊢
  have hhalt : (s.parse rule).2.halt = none := halt_parse rule hended hroot
  refine ⟨hhalt, hlimit, ?_⟩
  have hne : (s.parseWithin s.limit s.limit rule).2.halt ≠ some .exhausted := by
    rw [← parse_eq_parseWithin, hhalt]
    simp
  rw [parseWithin_eq (Nat.le_add_right _ _) (Nat.le_add_right _ _) hne, ← parse_eq_parseWithin]

end Parser

end ResourceNames.Java
