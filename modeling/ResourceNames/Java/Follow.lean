import ResourceNames.Java.Reach

/-!
What may follow the end of a rule, and the sets of kinds expected at a point.
-/
namespace ResourceNames.Java

/-- A place where a rule is called: the level of the call and the point it returns to. -/
structure CallSite where
  level : Nat
  next : Point
  deriving DecidableEq, Repr, Inhabited

namespace Follow

def siteTable : Array (List CallSite) :=
  (Rule.all.map fun r => (Layout.rules.toList.flatMap Item.ofRule).filterMap fun i =>
    match i.2 with
    | .call rule level next => if rule = r then some ⟨level, next⟩ else none
    | _ => none).toArray

def sites (r : Rule) : List CallSite := siteTable[r.index]?.getD []

def hasOperators (r : Rule) : Bool :=
  match Grammar.body r with
  | .operators .. => true
  | .alternatives _ => false

/-- All tokens met from a point, the tails of the operators of its rule included. -/
def leaves (p : Point) : List Leaf :=
  let reach := Reach.point p
  if reach.loops then reach.leaves ++ Reach.loopLeaves (Item.owner p) else reach.leaves

/-- The end of a rule, met with or without leaving a whole expression before. -/
structure RuleEnd where
  rule : Rule
  whole : Bool
  deriving DecidableEq, Repr, Inhabited

/-- Whether returning from the end of a rule to a call site leaves a whole expression: one that
is no operand of an operator. -/
def RuleEnd.wholeAt (e : RuleEnd) (site : CallSite) : Bool :=
  e.whole || (hasOperators e.rule && site.level == 0)

/-- The ends met at once after returning from the end of a rule. -/
def RuleEnd.parents (e : RuleEnd) : List RuleEnd :=
  (sites e.rule).filterMap fun site =>
    if (Reach.point site.next).exits then some ⟨Item.owner site.next, e.wholeAt site⟩ else none

/-- All ends met from some ends, in at most `steps` steps. -/
def ascend : Nat → (met todo : List RuleEnd) → List RuleEnd
  | 0, met, _ => met
  | _ + 1, met, [] => met
  | steps + 1, met, e :: todo =>
    if met.contains e then ascend steps met todo else ascend steps (e :: met) (e.parents ++ todo)

/-- A token that may follow the end of a rule, and whether a whole expression ends before it. -/
structure OuterLeaf where
  leaf : Leaf
  whole : Bool
  deriving DecidableEq, Repr, Inhabited

/-- The tokens that may follow the end of a rule, whoever called it. Each step meets a new end
or drops one met before, and an end is put on the list once for each call site. -/
def outerOf (r : Rule) : List OuterLeaf :=
  let ends := ascend (2 * Rule.all.length * Layout.size) [] [⟨r, false⟩]
  (ends.flatMap fun e => (sites e.rule).flatMap fun site =>
    (leaves site.next).map fun l => ⟨l, e.wholeAt site⟩).eraseDups

def outerTable : Array (List OuterLeaf) := (Rule.all.map outerOf).toArray

/-- The tokens that may follow the end of a rule, whoever called it. -/
def outer (r : Rule) : List OuterLeaf := outerTable[r.index]?.getD []

def kindsAt (p : Point) : List Kind :=
  match Item.ofPoint p with
  | .token ks _ => ks
  | _ => []

def kindsOf (ls : List Leaf) : List Kind := Kinds.ofList (ls.flatMap fun l => kindsAt l.point)

/-- The kinds that may come next at a point inside its rule, and whether the end of the rule
may come next. -/
structure Expected where
  kinds : List Kind
  ends : Bool
  deriving DecidableEq, Repr, Inhabited

def expectedTable : Array Expected :=
  ((List.range Layout.size).map fun p => ⟨kindsOf (leaves p), (Reach.point p).exits⟩).toArray

def expected (p : Point) : Expected := expectedTable[p]?.getD ⟨[], false⟩

/-- The kinds that may come next at a point when the open calls return to the points of a
stack; the end of the input may follow the outermost rule. -/
def expectedIn : List Point → Point → List Kind
  | [], p => if (expected p).ends then Kinds.insert .eof (expected p).kinds else (expected p).kinds
  | ret :: rets, p =>
    if (expected p).ends then Kinds.union (expected p).kinds (expectedIn rets ret)
    else (expected p).kinds

/-- The kinds that may come next at a point, whoever called its rule. -/
def lookahead (p : Point) : List Kind :=
  if (expected p).ends then
    Kinds.union (expected p).kinds (kindsOf ((outer (Item.owner p)).map (·.leaf)))
  else (expected p).kinds

/-- The kinds for each alternative of a decision, if the next token alone settles it: no kind may
begin two alternatives. -/
def looks? (alts : List Point) : Option (List (List Kind)) :=
  let looks := alts.map lookahead
  if looks.Pairwise fun a b => Kinds.disjoint a b = true then some looks else none

mutual

/-- The decisions of a form: the point of each with the points where its alternatives begin. -/
def decisions : Form → List (Point × List Point)
  | .token .. => []
  | .oneOf .. => []
  | .call .. => []
  | .seq _ parts => decisionsAll parts
  | .choice start _ alts => (start, alts.map Form.entry) :: decisionsAll alts
  | .opt start join alts => (start, alts.map Form.entry ++ [join]) :: decisionsAll alts
  | .star entry _ next body => (entry, [body.entry, next]) :: decisions body
  | .plus start _ next body => (start, [body.entry, next]) :: decisions body

def decisionsAll : List Form → List (Point × List Point)
  | [] => []
  | f :: fs => decisions f ++ decisionsAll fs

end

def decisionsOf (r : RuleForm) : List (Point × List Point) :=
  match r.body with
  | .plain f => decisions f
  | .operators ops => decisions ops.heads ++ ops.tails.flatMap fun t => decisions t.2

def settledTable : Array (Option (List (List Kind))) :=
  Reach.tabulate none fun r => (decisionsOf r).map fun d => (d.1, looks? d.2)

/-- The kinds for each alternative of the decision at a point, if the next token settles it. -/
def settled? (p : Point) : Option (List (List Kind)) := (settledTable[p]?).join

end Follow

end ResourceNames.Java
