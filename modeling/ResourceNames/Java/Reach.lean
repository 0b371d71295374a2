import ResourceNames.Java.Callers

/-!
Which tokens can come next at a point.

From a point one can go on without reading anything: into an alternative, around a loop, into a
called rule. `Reach` lists the tokens met that way inside the rule of the point and the rules it
calls, and says whether the end of the rule can be met. `Reach.outer` lists the tokens that may
follow the end of a rule when nothing is known about its caller.
-/
namespace ResourceNames.Java

/-- A token met from a point, with the calls entered on the way: the points they return to, the
innermost first. -/
structure Leaf where
  point : Point
  rets : List Point
  deriving DecidableEq, Repr, Inhabited

/-- What is met from the beginning of a form without reading anything: tokens, and, if the form
can be passed through, its end. -/
structure First where
  leaves : List Leaf
  through : Bool
  deriving Repr, Inhabited

namespace First

/-- What is met at a call that returns to `next`, given what is met where the rule begins. -/
def call (callee : First) (next : Point) : First :=
  ⟨callee.leaves.map fun l => ⟨l.point, l.rets ++ [next]⟩, callee.through⟩

mutual

def ofForm (look : Rule → First) : Form → First
  | .token here .. => ⟨[⟨here, []⟩], false⟩
  | .oneOf here .. => ⟨[⟨here, []⟩], false⟩
  | .call _ next rule .. => call (look rule) next
  | .seq _ parts => ofSeq look parts
  | .choice _ _ alts => ofAlts look alts
  | .opt _ _ alts => ⟨(ofAlts look alts).leaves, true⟩
  | .star _ _ _ body => ⟨(ofForm look body).leaves, true⟩
  | .plus _ _ _ body => ofForm look body

def ofSeq (look : Rule → First) : List Form → First
  | [] => ⟨[], true⟩
  | f :: fs =>
    let a := ofForm look f
    if a.through then
      let b := ofSeq look fs
      ⟨a.leaves ++ b.leaves, b.through⟩
    else a

def ofAlts (look : Rule → First) : List Form → First
  | [] => ⟨[], false⟩
  | f :: fs =>
    let a := ofForm look f
    let b := ofAlts look fs
    ⟨a.leaves ++ b.leaves, a.through || b.through⟩

end

/-- What is met where a rule begins, following at most `depth` calls into each other. No rule
begins by calling itself, so as many calls as there are rules are enough. -/
def ofRule : Nat → Rule → First
  | 0, _ => ⟨[], false⟩
  | depth + 1, r =>
    match (Layout.ruleForm r).body with
    | .plain f => ofForm (ofRule depth) f
    | .operators ops => ofForm (ofRule depth) ops.heads

def table : Array First := (Rule.all.map (ofRule Rule.all.length)).toArray

def rule (r : Rule) : First := table[r.index]?.getD ⟨[], false⟩

end First

/-- What is met from a point without reading anything. -/
structure Reach where
  leaves : List Leaf
  /-- The end of the rule is met before any further tail of its operators. -/
  ends : Bool
  /-- The tails of the operators of the rule are met. -/
  loops : Bool
  deriving Repr, Inhabited

namespace Reach

def atEnd : Reach := ⟨[], true, false⟩

def atTails : Reach := ⟨[], false, true⟩

def exits (r : Reach) : Bool := r.ends || r.loops

def before (f : First) (after : Reach) : Reach :=
  if f.through then ⟨f.leaves ++ after.leaves, after.ends, after.loops⟩
  else ⟨f.leaves, false, false⟩

mutual

/-- What is met at each point of a form, given what is met after it. -/
def points : Form → Reach → List (Point × Reach)
  | .token here .., _ => [(here, ⟨[⟨here, []⟩], false, false⟩)]
  | .oneOf here .., _ => [(here, ⟨[⟨here, []⟩], false, false⟩)]
  | .call here next rule .., after => [(here, before ((First.rule rule).call next) after)]
  | .seq _ parts, after => pointsSeq parts after
  | .choice start join alts, after =>
    (start, before (First.ofAlts First.rule alts) after) :: (join, after) :: pointsAlts alts after
  | .opt start join alts, after =>
    (start, before ⟨(First.ofAlts First.rule alts).leaves, true⟩ after) :: (join, after) ::
      pointsAlts alts after
  | .star entry back _ body, after =>
    let again := before ⟨(First.ofForm First.rule body).leaves, true⟩ after
    (entry, again) :: (back, again) :: points body again
  | .plus start back _ body, after =>
    let first := First.ofForm First.rule body
    let again := before ⟨first.leaves, true⟩ after
    (start, before first again) :: (back, again) :: points body again

def pointsSeq : List Form → Reach → List (Point × Reach)
  | [], _ => []
  | f :: fs, after => points f (before (First.ofSeq First.rule fs) after) ++ pointsSeq fs after

def pointsAlts : List Form → Reach → List (Point × Reach)
  | [], _ => []
  | f :: fs, after => points f after ++ pointsAlts fs after

end

def tails (ops : Operators) : List Leaf :=
  (First.ofAlts First.rule (ops.tails.map (·.2))).leaves

def pointsOf (r : RuleForm) : List (Point × Reach) :=
  (r.stop, atEnd) ::
    match r.body with
    | .plain f => points f atEnd
    | .operators ops =>
      (ops.entry, atTails) :: (ops.start, ⟨tails ops, false, false⟩) :: (ops.join, atTails) ::
        (ops.back, atTails) ::
        (points ops.heads atTails ++ ops.tails.flatMap fun t => points t.2 atTails)

/-- A table over all points, from the entries that each rule has for some of its points. -/
def tabulate {α : Type} (default : α) (entries : RuleForm → List (Point × α)) : Array α :=
  ((List.range Layout.size).map fun p =>
    ((entries (Layout.ruleAt p)).lookup p).getD default).toArray

def pointTable : Array Reach := tabulate ⟨[], false, false⟩ pointsOf

def point (p : Point) : Reach := pointTable[p]?.getD ⟨[], false, false⟩

def loopLeaves (r : Rule) : List Leaf :=
  match (Layout.ruleForm r).body with
  | .plain _ => []
  | .operators ops => tails ops

end Reach

/-- What stands at a point. -/
inductive Item where
  /-- Nothing to read: a branch, a join or an end. -/
  | silent
  | token (kinds : List Kind) (next : Point)
  | call (rule : Rule) (level : Nat) (next : Point)
  deriving DecidableEq, Repr, Inhabited

namespace Item

mutual

def ofForm : Form → List (Point × Item)
  | .token here next kind _ => [(here, .token [kind] next)]
  | .oneOf here next kinds _ => [(here, .token kinds next)]
  | .call here next rule level _ => [(here, .call rule level next)]
  | .seq _ parts => ofForms parts
  | .choice _ _ alts => ofForms alts
  | .opt _ _ alts => ofForms alts
  | .star _ _ _ body => ofForm body
  | .plus _ _ _ body => ofForm body

def ofForms : List Form → List (Point × Item)
  | [] => []
  | f :: fs => ofForm f ++ ofForms fs

end

def ofRule (r : RuleForm) : List (Point × Item) :=
  match r.body with
  | .plain f => ofForm f
  | .operators ops => ofForm ops.heads ++ ops.tails.flatMap fun t => ofForm t.2

def table : Array Item := Reach.tabulate .silent ofRule

def ofPoint (p : Point) : Item := table[p]?.getD .silent

def owners : Array Rule := ((List.range Layout.size).map fun p => (Layout.ruleAt p).rule).toArray

def owner (p : Point) : Rule := owners[p]?.getD default

end Item

end ResourceNames.Java
