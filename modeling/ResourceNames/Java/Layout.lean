import ResourceNames.Java.Grammar

/-!
The grammar laid out on points.

A point is a place inside the body of a rule. `Form` is a phrase whose tokens, calls and branches
know their points: where they stand and where one is after them. All rules are laid out one
behind the other, so that a point belongs to one rule only.
-/
namespace ResourceNames.Java

/-- A place inside the body of a rule. -/
abbrev Point := Nat

/-- A phrase with its points. -/
inductive Form where
  /-- A token at `here`; after it one is at `next`. -/
  | token (here next : Point) (kind : Kind) (field : Option Field)
  /-- A token of some kinds. -/
  | oneOf (here next : Point) (kinds : List Kind) (field : Option Field)
  /-- A rule called at `here`, which returns to `next`. -/
  | call (here next : Point) (rule : Rule) (level : Nat) (field : Option Field)
  /-- Forms one after another; `entry` is where the first one begins. -/
  | seq (entry : Point) (parts : List Form)
  /-- Alternatives chosen at `start`; all of them lead to `join`. -/
  | choice (start join : Point) (alts : List Form)
  /-- Alternatives chosen at `start`, or straight on to `join`. -/
  | opt (start join : Point) (alts : List Form)
  /-- A loop entered at `entry`. After each round one is at `back`, and after the loop at
  `next`. -/
  | star (entry back next : Point) (body : Form)
  /-- A loop of at least one round, entered at `start`. -/
  | plus (start back next : Point) (body : Form)
  deriving Repr, Inhabited

def Form.entry : Form → Point
  | .token here .. => here
  | .oneOf here .. => here
  | .call here .. => here
  | .seq entry _ => entry
  | .choice start .. => start
  | .opt start .. => start
  | .star entry .. => entry
  | .plus start .. => start

mutual

def Phrase.size : Phrase → Nat
  | .token .. => 1
  | .oneOf .. => 1
  | .call .. => 1
  | .seq parts => sizes parts
  | .choice alts => 2 + sizes alts
  | .opt alts => 2 + sizes alts
  | .star body => 2 + body.size
  | .plus body => 2 + body.size

def sizes : List Phrase → Nat
  | [] => 0
  | p :: ps => p.size + sizes ps

end

mutual

/-- Lays out a phrase on the points from `free` on; after it one is at `next`. -/
def Phrase.place : Phrase → (free next : Point) → Form
  | .token kind field, free, next => .token free next kind field
  | .oneOf kinds field, free, next => .oneOf free next kinds field
  | .call rule level field, free, next => .call free next rule level field
  | .seq parts, free, next =>
    let placed := placeParts parts free next
    .seq placed.2 placed.1
  | .choice alts, free, _ => .choice free (free + 1) (placeAlts alts (free + 2) (free + 1))
  | .opt alts, free, _ => .opt free (free + 1) (placeAlts alts (free + 2) (free + 1))
  | .star body, free, next => .star free (free + 1) next (body.place (free + 2) (free + 1))
  | .plus body, free, next => .plus free (free + 1) next (body.place (free + 2) (free + 1))

/-- Lays out phrases one after another, and says where the first one begins. -/
def placeParts : List Phrase → (free next : Point) → List Form × Point
  | [], _, next => ([], next)
  | p :: ps, free, next =>
    let rest := placeParts ps (free + p.size) next
    let form := p.place free rest.2
    (form :: rest.1, form.entry)

def placeAlts : List Phrase → (free next : Point) → List Form
  | [], _, _ => []
  | p :: ps, free, next => p.place free next :: placeAlts ps (free + p.size) next

end

/-- The operators of a rule with their points. The tails are a loop entered at `entry` once a
head is read; a tail is chosen at `start`, leads to `join`, and the next round is decided at
`back`. -/
structure Operators where
  heads : Form
  entry : Point
  start : Point
  join : Point
  back : Point
  tails : List (Nat × Form)
  deriving Repr, Inhabited

inductive BodyForm where
  | plain (form : Form)
  | operators (ops : Operators)
  deriving Repr, Inhabited

/-- A rule with its points; `stop` is where the rule ends. -/
structure RuleForm where
  rule : Rule
  stop : Point
  body : BodyForm
  deriving Repr, Inhabited

namespace Layout

def placeTails : List (Nat × Phrase) → (free next : Point) → List (Nat × Form)
  | [], _, _ => []
  | t :: ts, free, next => (t.1, t.2.place free next) :: placeTails ts (free + t.2.size) next

/-- How many points a body needs, its end included. -/
def bodySize : Body → Nat
  | .alternatives alts => 3 + sizes alts
  | .operators heads tails => 7 + sizes heads + sizes (tails.map (·.2))

def placeRule (rule : Rule) (free : Point) : RuleForm :=
  match Grammar.body rule with
  | .alternatives [alt] => ⟨rule, free, .plain (alt.place (free + 1) free)⟩
  | .alternatives alts => ⟨rule, free, .plain ((Phrase.choice alts).place (free + 1) free)⟩
  | .operators heads tails =>
    ⟨rule, free, .operators {
      heads := (Phrase.choice heads).place (free + 5) (free + 1)
      entry := free + 1
      start := free + 2
      join := free + 3
      back := free + 4
      tails := placeTails tails (free + 7 + sizes heads) (free + 3) }⟩

def placeRules : List Rule → Point → List RuleForm
  | [], _ => []
  | r :: rs, free => placeRule r free :: placeRules rs (free + bodySize (Grammar.body r))

def rules : Array RuleForm := (placeRules Rule.all 0).toArray

def ruleForm (r : Rule) : RuleForm := rules[r.index]?.getD default

def sizeFor (rs : List Rule) : Nat := rs.foldr (fun r n => bodySize (Grammar.body r) + n) 0

def size : Nat := sizeFor Rule.all

/-- The rule to which a point belongs: the last one that is laid out there or before. -/
def ruleAt (p : Point) : RuleForm :=
  ((rules.toList.takeWhile fun r => r.stop ≤ p).getLast?).getD default

def stop (r : Rule) : Point := (ruleForm r).stop

end Layout

end ResourceNames.Java
