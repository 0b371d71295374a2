import ResourceNames.Java.Parser
import ResourceNames.Proofs.Forms

/-!
How a parser reads, as a relation.

The work of a parser is cut into tasks: to check at a point, to read a form, to choose, to go
around a loop, to call a rule. `Reads limit depth task s o` says that the task, begun in the state
`s` with `depth` calls left, ends with the outcome `o`. It has one rule for each way a task can
go on, so that what all readings preserve is shown by one induction over it. All tasks come from
forms of the grammar.
-/
namespace ResourceNames.Java

namespace Outcome

theorem andThen_assoc (o : Outcome) (f g : Parser → Outcome) :
    (o.andThen f).andThen g = o.andThen fun s => (f s).andThen g := by
  cases h : o.halt <;> simp [andThen, h]

end Outcome

namespace Parser

/-- A piece of work of a parser. -/
inductive Task where
  /-- To check at a point that the next token is expected. -/
  | sync (gate : Gate) (p : Point)
  | form (f : Form)
  /-- Several tasks one after another, until one halts. -/
  | all (ts : List Task)
  /-- To read one of some forms, chosen at `start`. An optional choice may read nothing. -/
  | pick (start : Point) (points : List Point) (alts : List Form) (optional : Bool)
  /-- To go around a loop at most so many times. -/
  | loop (entry : Point) (points : List Point) (round : List Task) (rounds : Nat)
  /-- To read one tail of an expression that began at `start`. -/
  | tail (rule : Rule) (ops : Operators) (level : Nat) (start : Token)
  /-- To read tails, at most so many. -/
  | tails (rule : Rule) (ops : Operators) (level : Nat) (start : Token) (rounds : Nat)
  | body (rule : Rule) (level : Nat)
  | call (next : Point) (rule : Rule) (level : Nat) (field : Option Field)

/-- What a choice comes to if the next token settles it and fits no alternative. -/
def fallback (optional : Bool) (alts : List Form) (s : Parser) : Except Halt Nat :=
  if optional then .ok (alts.length + 1) else s.unfit

def roundTasks (back : Point) (body : Form) : List Task := [.form body, .sync .back back]

def tailTasks (rule : Rule) (ops : Operators) (level : Nat) (start : Token) : List Task :=
  [.sync .entry ops.start, .tail rule ops level start, .sync .back ops.back]

/-- Begins a call that returns to `next`. -/
def enter (next : Point) (s : Parser) : Parser :=
  { s with stack := next :: s.stack, children := [], fields := [] }

/-- Returns from a call that was made in the state `s`: what was read becomes a node. -/
def leave (rule : Rule) (field : Option Field) (s : Parser) (o : Outcome) : Outcome :=
  let part := o.parser.node rule s.current
  ⟨{ o.parser with
      stack := s.stack
      children := part :: s.children
      fields := s.fields
      here := pointAfter rule s.here o.parser.here }.setField field part, o.halt⟩

/-- The expression so far becomes the first child of a new node. -/
def wrap (rule : Rule) (start : Token) (s : Parser) : Parser :=
  { s with children := [s.node rule start], fields := [] }

/-- A choice between forms is made by the grammar. -/
inductive Picks : Point → List Point → List Form → Bool → Prop where
  | choice {start join alts} (held : Layout.Holds (.choice start join alts)) :
      Picks start (alts.map Form.entry) alts false
  | opt {start join alts} (held : Layout.Holds (.opt start join alts)) :
      Picks start (alts.map Form.entry ++ [join]) alts true

/-- A loop with its round is one of the grammar. -/
inductive Loops : Point → List Point → List Task → Prop where
  | star {entry back next body} (held : Layout.Holds (.star entry back next body)) :
      Loops entry [body.entry, next] (roundTasks back body)
  | plus {start back next body} (held : Layout.Holds (.plus start back next body)) :
      Loops start [body.entry, next] (roundTasks back body)

/-- How a task ends that is begun in a state with some calls left. -/
inductive Reads (limit : Nat) : Nat → Task → Parser → Outcome → Prop where
  | sync {depth gate p s} (back : gate = .back → p ∈ Layout.backs) :
      Reads limit depth (.sync gate p) s ((s.moveTo p).sync gate)
  | nil {depth s} : Reads limit depth (.all []) s ⟨s, none⟩
  | cons {depth t ts s s' o} (first : Reads limit depth t s ⟨s', none⟩)
      (rest : Reads limit depth (.all ts) s' o) : Reads limit depth (.all (t :: ts)) s o
  | stop {depth t ts s s' h} (first : Reads limit depth t s ⟨s', some h⟩) :
      Reads limit depth (.all (t :: ts)) s ⟨s', some h⟩
  | token {depth here next kind field s} (held : Layout.Holds (.token here next kind field)) :
      Reads limit depth (.form (.token here next kind field)) s (token here next kind field s)
  | oneOf {depth here next kinds field s} (held : Layout.Holds (.oneOf here next kinds field)) :
      Reads limit depth (.form (.oneOf here next kinds field)) s (oneOf here next kinds field s)
  | invoke {depth here next rule level field s o}
      (call : Reads limit depth (.call next rule level field) (s.moveTo here) o) :
      Reads limit depth (.form (.call here next rule level field)) s o
  | seq {depth entry parts s o} (all : Reads limit depth (.all (parts.map .form)) s o) :
      Reads limit depth (.form (.seq entry parts)) s o
  | choice {depth start join alts s o}
      (all : Reads limit depth
        (.all [.sync .entry start, .pick start (alts.map Form.entry) alts false]) s o) :
      Reads limit depth (.form (.choice start join alts)) s o
  | opt {depth start join alts s o}
      (all : Reads limit depth
        (.all [.sync .entry start, .pick start (alts.map Form.entry ++ [join]) alts true]) s o) :
      Reads limit depth (.form (.opt start join alts)) s o
  | star {depth entry back next body s o}
      (all : Reads limit depth (.all [.sync .entry entry,
        .loop entry [body.entry, next] (roundTasks back body) limit]) s o) :
      Reads limit depth (.form (.star entry back next body)) s o
  | plus {depth start back next body s o}
      (all : Reads limit depth (.all (.sync .entry start :: (roundTasks back body ++
        [.loop start [body.entry, next] (roundTasks back body) limit]))) s o) :
      Reads limit depth (.form (.plus start back next body)) s o
  | picked {depth start points alts optional s s' n f o} (origin : Picks start points alts optional)
      (choice : s.choose start points (fallback optional alts s) = (s', .ok (n + 1)))
      (alt : alts[n]? = some f) (read : Reads limit depth (.form f) s' o) :
      Reads limit depth (.pick start points alts optional) s o
  | passed {depth start points alts optional s s' n} (origin : Picks start points alts optional)
      (choice : s.choose start points (fallback optional alts s) = (s', .ok n))
      (beyond : ∀ m, n = m + 1 → alts[m]? = none) :
      Reads limit depth (.pick start points alts optional) s ⟨s', none⟩
  | unfit {depth start points alts optional s s' h} (origin : Picks start points alts optional)
      (choice : s.choose start points (fallback optional alts s) = (s', .error h)) :
      Reads limit depth (.pick start points alts optional) s ⟨s', some h⟩
  | again {depth entry points round rounds s s' o} (origin : Loops entry points round)
      (more : another entry points s = (s', .ok true))
      (all : Reads limit depth (.all (round ++ [.loop entry points round rounds])) s' o) :
      Reads limit depth (.loop entry points round (rounds + 1)) s o
  | done {depth entry points round rounds s s'} (origin : Loops entry points round)
      (more : another entry points s = (s', .ok false)) :
      Reads limit depth (.loop entry points round (rounds + 1)) s ⟨s', none⟩
  | undecided {depth entry points round rounds s s' h} (origin : Loops entry points round)
      (more : another entry points s = (s', .error h)) :
      Reads limit depth (.loop entry points round (rounds + 1)) s ⟨s', some h⟩
  | worn {depth entry points round s} :
      Reads limit depth (.loop entry points round 0) s ⟨s, some .exhausted⟩
  | tail {depth rule ops level start s s' alt t o}
      (form : (Layout.ruleForm rule).body = .operators ops)
      (choice : s.predict (.tail ops level) = (s', .ok alt)) (found : ops.tails[alt - 1]? = some t)
      (allowed : level ≤ t.1) (read : Reads limit depth (.form t.2) (s'.wrap rule start) o) :
      Reads limit depth (.tail rule ops level start) s o
  | lowTail {depth rule ops level start s s' alt t}
      (form : (Layout.ruleForm rule).body = .operators ops)
      (choice : s.predict (.tail ops level) = (s', .ok alt)) (found : ops.tails[alt - 1]? = some t)
      (low : ¬level ≤ t.1) :
      Reads limit depth (.tail rule ops level start) s
        ⟨(s'.wrap rule start).moveTo t.2.entry, some (.lowLevel t.1)⟩
  | noTail {depth rule ops level start s s' alt}
      (form : (Layout.ruleForm rule).body = .operators ops)
      (choice : s.predict (.tail ops level) = (s', .ok alt)) (found : ops.tails[alt - 1]? = none) :
      Reads limit depth (.tail rule ops level start) s ⟨s', none⟩
  | unfitTail {depth rule ops level start s s' h}
      (choice : s.predict (.tail ops level) = (s', .error h)) :
      Reads limit depth (.tail rule ops level start) s ⟨s', some h⟩
  | againTails {depth rule ops level start rounds s s' o}
      (form : (Layout.ruleForm rule).body = .operators ops)
      (more : anotherTail rule ops level s = (s', .ok true))
      (all : Reads limit depth (.all (tailTasks rule ops level start ++
        [.tails rule ops level start rounds])) s' o) :
      Reads limit depth (.tails rule ops level start (rounds + 1)) s o
  | doneTails {depth rule ops level start rounds s s'}
      (more : anotherTail rule ops level s = (s', .ok false)) :
      Reads limit depth (.tails rule ops level start (rounds + 1)) s ⟨s', none⟩
  | undecidedTails {depth rule ops level start rounds s s' h}
      (more : anotherTail rule ops level s = (s', .error h)) :
      Reads limit depth (.tails rule ops level start (rounds + 1)) s ⟨s', some h⟩
  | wornTails {depth rule ops level start s} :
      Reads limit depth (.tails rule ops level start 0) s ⟨s, some .exhausted⟩
  | plain {depth rule level f s o} (form : (Layout.ruleForm rule).body = .plain f)
      (read : Reads limit depth (.form f) s o) : Reads limit depth (.body rule level) s o
  | operators {depth rule level ops s o} (form : (Layout.ruleForm rule).body = .operators ops)
      (all : Reads limit depth (.all [.form ops.heads, .sync .entry ops.entry,
        .tails rule ops level s.current limit]) s o) :
      Reads limit depth (.body rule level) s o
  | call {depth next rule level field s o}
      (read : Reads limit depth (.body rule level) (s.enter next) o) :
      Reads limit (depth + 1) (.call next rule level field) s (leave rule field s (close rule o))
  | wornCall {next rule level field s} :
      Reads limit 0 (.call next rule level field) s ⟨s, some .exhausted⟩

namespace Reads

variable {limit depth : Nat} {t : Task} {ts : List Task} {s : Parser} {o : Outcome}

private theorem andThen {next : Parser → Outcome} (first : Reads limit depth t s o)
    (rest : ∀ s', Reads limit depth (.all ts) s' (next s')) :
    Reads limit depth (.all (t :: ts)) s (o.andThen next) := by
  obtain ⟨s', _ | h⟩ := o
  · exact .cons first (rest s')
  · exact .stop first

private theorem single (first : Reads limit depth t s o) : Reads limit depth (.all [t]) s o := by
  obtain ⟨s', _ | h⟩ := o
  · exact .cons first .nil
  · exact .stop first

end Reads

private theorem runNth_eq (invoke : Invoke) (limit : Nat) (alts : List Form) (n : Nat)
    (s : Parser) : runNth invoke limit alts (n + 1) s =
      match alts[n]? with
      | some f => run invoke limit f s
      | none => ⟨s, none⟩ := by
  induction alts generalizing n with
  | nil => simp [runNth]
  | cons f fs ih => cases n <;> simp [runNth, ih]

private theorem reads_pick {limit depth : Nat} {invoke : Invoke} {alts : List Form}
    (hrun : ∀ f ∈ alts, ∀ s, Reads limit depth (.form f) s (run invoke limit f s))
    {start : Point} {points : List Point} {optional : Bool}
    (origin : Picks start points alts optional) (s : Parser)
    {otherwise : Except Halt Nat} (ho : otherwise = fallback optional alts s) :
    Reads limit depth (.pick start points alts optional) s
      (proceed (s.choose start points otherwise) fun alt s => runNth invoke limit alts alt s) := by
  subst ho
  unfold proceed
  split
  · rename_i s' n hc
    dsimp only
    cases n with
    | zero =>
      have hz : runNth invoke limit alts 0 s' = ⟨s', none⟩ := by cases alts <;> rfl
      rw [hz]
      exact .passed origin hc (by simp)
    | succ n =>
      rw [runNth_eq]
      cases hf : alts[n]? with
      | some f => exact .picked origin hc hf (hrun f (List.mem_of_getElem? hf) s')
      | none =>
        refine .passed origin hc ?_
        rintro m ⟨⟩
        exact hf
  · rename_i s' h hc
    exact .unfit origin hc

private theorem reads_rounds {limit depth : Nat} {round : List Task} {body : Parser → Outcome}
    (hbody : ∀ t next, (∀ s, Reads limit depth (.all [t]) s (next s)) → ∀ s,
      Reads limit depth (.all (round ++ [t])) s ((body s).andThen next))
    {entry : Point} {points : List Point} (origin : Loops entry points round) (n : Nat)
    (s : Parser) :
    Reads limit depth (.loop entry points round n) s (rounds (another entry points) body n s) := by
  induction n generalizing s with
  | zero => exact .worn
  | succ n ih =>
    simp only [rounds]
    split
    · rename_i s' h hm
      exact .undecided origin hm
    · rename_i s' hm
      exact .done origin hm
    · rename_i s' hm
      exact .again origin hm (hbody _ _ (fun s => (ih s).single) s')

mutual

/-- Reading a form is a reading, if calling a rule is one. -/
private theorem reads_run {limit depth : Nat} {invoke : Invoke}
    (hcall : ∀ next rule level field s,
      Reads limit depth (.call next rule level field) s (invoke next rule level field s))
    (f : Form) (held : Layout.Holds f) (s : Parser) :
    Reads limit depth (.form f) s (run invoke limit f s) := by
  cases f with
  | token => exact .token held
  | oneOf => exact .oneOf held
  | call here next rule level field => exact .invoke (hcall next rule level field _)
  | seq entry parts =>
    refine .seq (reads_runAll hcall parts (fun f hf => held.part ?_) s)
    exact List.mem_cons_of_mem _ (Form.mem_partsAll.mpr ⟨f, hf, f.mem_parts_self⟩)
  | choice start join alts =>
    rw [run]
    refine .choice (.andThen (.sync nofun) fun s' => .single ?_)
    refine reads_pick (reads_runEach hcall alts fun f hf => held.part ?_) (.choice held) s' rfl
    exact List.mem_cons_of_mem _ (Form.mem_partsAll.mpr ⟨f, hf, f.mem_parts_self⟩)
  | opt start join alts =>
    rw [run]
    refine .opt (.andThen (.sync nofun) fun s' => .single ?_)
    refine reads_pick (reads_runEach hcall alts fun f hf => held.part ?_) (.opt held) s' rfl
    exact List.mem_cons_of_mem _ (Form.mem_partsAll.mpr ⟨f, hf, f.mem_parts_self⟩)
  | star entry back next body =>
    rw [run]
    have hbody := held.part (List.mem_cons_of_mem _ body.mem_parts_self)
    refine .star (.andThen (.sync nofun) fun s' => .single ?_)
    exact reads_rounds (reads_round hcall body hbody (Layout.mem_backs held rfl)) (.star held) limit s'
  | plus start back next body =>
    rw [run]
    have hbody := held.part (List.mem_cons_of_mem _ body.mem_parts_self)
    have hround := reads_round hcall body hbody (Layout.mem_backs held rfl)
    refine .plus (.andThen (.sync nofun) fun s' => ?_)
    exact hround _ _ (fun s => .single (reads_rounds hround (.plus held) limit s)) s'

private theorem reads_round {limit depth : Nat} {invoke : Invoke}
    (hcall : ∀ next rule level field s,
      Reads limit depth (.call next rule level field) s (invoke next rule level field s))
    (body : Form) (held : Layout.Holds body) {back : Point} (hback : back ∈ Layout.backs) (t : Task)
    (next : Parser → Outcome) (hnext : ∀ s, Reads limit depth (.all [t]) s (next s)) (s : Parser) :
    Reads limit depth (.all (roundTasks back body ++ [t])) s
      (((run invoke limit body s).andThen fun s => (s.moveTo back).sync .back).andThen next) := by
  rw [Outcome.andThen_assoc]
  exact .andThen (reads_run hcall body held s) fun s' => .andThen (.sync fun _ => hback) hnext

private theorem reads_runAll {limit depth : Nat} {invoke : Invoke}
    (hcall : ∀ next rule level field s,
      Reads limit depth (.call next rule level field) s (invoke next rule level field s))
    (fs : List Form) (held : ∀ f ∈ fs, Layout.Holds f) (s : Parser) :
    Reads limit depth (.all (fs.map .form)) s (runAll invoke limit fs s) := by
  cases fs with
  | nil => exact .nil
  | cons f fs =>
    exact .andThen (reads_run hcall f (held f List.mem_cons_self) s)
      (reads_runAll hcall fs fun g hg => held g (List.mem_cons_of_mem f hg))

private theorem reads_runEach {limit depth : Nat} {invoke : Invoke}
    (hcall : ∀ next rule level field s,
      Reads limit depth (.call next rule level field) s (invoke next rule level field s))
    (fs : List Form) (held : ∀ f ∈ fs, Layout.Holds f) :
    ∀ f ∈ fs, ∀ s, Reads limit depth (.form f) s (run invoke limit f s) := by
  cases fs with
  | nil => simp
  | cons f fs =>
    intro g hg s
    rcases List.mem_cons.mp hg with hf | hg
    · exact hf ▸ reads_run hcall f (held f List.mem_cons_self) s
    · exact reads_runEach hcall fs (fun g hg => held g (List.mem_cons_of_mem f hg)) g hg s

end

private theorem reads_tail {limit depth : Nat} {invoke : Invoke}
    (hcall : ∀ next rule level field s,
      Reads limit depth (.call next rule level field) s (invoke next rule level field s))
    {rule : Rule} {ops : Operators} (form : (Layout.ruleForm rule).body = .operators ops)
    (level : Nat) (start : Token) (t : Task) (next : Parser → Outcome)
    (hnext : ∀ s, Reads limit depth (.all [t]) s (next s)) (s : Parser) :
    Reads limit depth (.all (tailTasks rule ops level start ++ [t])) s
      (((tail invoke limit rule ops level start s).andThen fun s =>
        (s.moveTo ops.back).sync .back).andThen next) := by
  rw [Outcome.andThen_assoc, tail, Outcome.andThen_assoc]
  refine .andThen (.sync nofun) fun s' => .andThen ?_ fun s'' =>
    .andThen (.sync fun _ => Layout.operators_back_mem form) hnext
  unfold proceed
  split
  · rename_i s₁ alt hc
    dsimp only
    split
    · rename_i hf
      exact .noTail form hc hf
    · rename_i u hf
      split
      · rename_i hl
        exact .tail form hc hf hl
          (reads_run hcall u.2 (Layout.holds_tail form (List.mem_of_getElem? hf)) _)
      · rename_i hl
        exact .lowTail form hc hf hl
  · rename_i s₁ h hc
    exact .unfitTail hc

private theorem reads_tails {limit depth : Nat} {invoke : Invoke}
    (hcall : ∀ next rule level field s,
      Reads limit depth (.call next rule level field) s (invoke next rule level field s))
    {rule : Rule} {ops : Operators} (form : (Layout.ruleForm rule).body = .operators ops)
    (level : Nat) (start : Token) (n : Nat) (s : Parser) :
    Reads limit depth (.tails rule ops level start n) s
      (rounds (anotherTail rule ops level)
        (fun s => (tail invoke limit rule ops level start s).andThen fun s =>
          (s.moveTo ops.back).sync .back) n s) := by
  induction n generalizing s with
  | zero => exact .wornTails
  | succ n ih =>
    simp only [rounds]
    split
    · rename_i s' h hm
      exact .undecidedTails hm
    · rename_i s' hm
      exact .doneTails hm
    · rename_i s' hm
      exact .againTails form hm
        (reads_tail hcall form level start _ _ (fun s => (ih s).single) s')

private theorem reads_runBody {limit depth : Nat} {invoke : Invoke}
    (hcall : ∀ next rule level field s,
      Reads limit depth (.call next rule level field) s (invoke next rule level field s))
    (rule : Rule) (level : Nat) (s : Parser) :
    Reads limit depth (.body rule level) s (runBody invoke limit rule level s) := by
  rw [runBody]
  split
  · rename_i f hf
    exact .plain hf (reads_run hcall f (Layout.holds_plain hf) s)
  · rename_i ops ho
    have hheads := reads_run hcall ops.heads (Layout.holds_heads ho) s
    refine .operators ho (.andThen hheads fun s' => .andThen (.sync nofun) ?_)
    exact fun s'' => (reads_tails hcall ho level s.current limit s'').single

private theorem reads_call (limit depth : Nat) (next : Point) (rule : Rule) (level : Nat)
    (field : Option Field) (s : Parser) :
    Reads limit depth (.call next rule level field) s (call limit depth next rule level field s) := by
  induction depth generalizing next rule level field s with
  | zero => exact .wornCall
  | succ depth ih => exact .call (reads_runBody ih rule level (s.enter next))

/-- The body of a rule, read with the calls of the parser. -/
theorem reads_body (limit depth : Nat) (rule : Rule) (level : Nat) (s : Parser) :
    Reads limit depth (.body rule level) s (runBody (call limit depth) limit rule level s) :=
  reads_runBody (reads_call limit depth) rule level s

end Parser

end ResourceNames.Java
