import ResourceNames.Java.Follow
import ResourceNames.Java.Token

/-!
Choosing between alternatives by looking ahead.

All alternatives of a decision are followed at once through the tokens ahead. A `Config` is one
way to have read them: the point reached, the alternative it began with, and the call stacks it
may have. First nothing is assumed about the callers of the decision's rule. If that leaves the
choice open although no further token can tell the alternatives apart, they are followed again
under the actual call stack, and the first one that cannot be told apart from the others wins.
-/
namespace ResourceNames.Java

/-- One way to have read the tokens ahead. -/
structure Config where
  point : Point
  alt : Nat
  callers : Callers
  /-- The rule of the decision has been left. -/
  left : Bool
  /-- It was left at the end of a whole expression. -/
  whole : Bool
  deriving DecidableEq, Repr, Inhabited

namespace Config

def isStop (p : Point) : Bool := p == Layout.stop (Item.owner p)

/-- Configurations are listed by point and alternative. -/
def before (c d : Config) : Bool := c.point < d.point || (c.point == d.point && c.alt ≤ d.alt)

/-- Whether two configurations are at the same point for the same alternative. -/
def sameWay (c d : Config) : Bool := c.point == d.point && c.alt == d.alt

/-- One configuration in place of two at the same point for the same alternative. -/
def merge (anyCaller : Bool) (c d : Config) : Config :=
  { c with callers := c.callers.union anyCaller d.callers
           left := c.left || d.left
           whole := c.whole || d.whole }

/-- Puts a configuration in its place among some that are listed by point and alternative. -/
def place (anyCaller : Bool) (c : Config) : List Config → List Config
  | [] => [c]
  | d :: ds =>
    if c.sameWay d then c.merge anyCaller d :: ds
    else if c.before d then c :: d :: ds
    else d :: place anyCaller c ds

/-- Lists configurations by point and alternative, one for each. -/
def gather (anyCaller : Bool) (cs : List Config) : List Config := cs.foldr (place anyCaller) []

/-- Whether an operand ends here: nothing but further tails can follow. Its tails are then those
of the expression around it, and are followed there only. -/
def isOperandEnd (ret : Point) : Bool :=
  let reach := Reach.point ret
  reach.loops && !reach.ends && reach.leaves.isEmpty

/-- The tokens met from a point under some call stacks, without leaving its rule. -/
def within (alt : Nat) (left : Bool) (p : Point) (callers : Callers) : List Config :=
  let reach := Reach.point p
  let tails :=
    if reach.loops && !callers.allTops isOperandEnd then Reach.loopLeaves (Item.owner p) else []
  (reach.leaves ++ tails).map fun l => ⟨l.point, alt, callers.pushAll l.rets, left, false⟩

/-- The tokens met after the end of a rule under some call stacks. The empty stack leads to
whatever may follow the rule, if its callers are not known; otherwise reading ends there. -/
def beyond (anyCaller : Bool) (alt : Nat) (left : Bool) (rule : Rule) : Callers → List Config
  | .none => []
  | .bottom =>
    if anyCaller && !(Follow.sites rule).isEmpty then
      (Follow.outer rule).map fun o => ⟨o.leaf.point, alt, .ofStack o.leaf.rets, true, o.whole⟩
    else [⟨Layout.stop rule, alt, .bottom, left, false⟩]
  | .top ret below others =>
    within alt left ret below ++
      (if (Reach.point ret).exits then beyond anyCaller alt left (Item.owner ret) below else []) ++
      beyond anyCaller alt left rule others

/-- The tokens met from a point under some call stacks. -/
def spread (anyCaller : Bool) (alt : Nat) (left : Bool) (p : Point) (callers : Callers) :
    List Config :=
  within alt left p callers ++
    (if (Reach.point p).exits then beyond anyCaller alt left (Item.owner p) callers else [])

/-- Reads one token: the configuration after it, if the token fits. -/
def read? (k : Kind) (c : Config) : Option Config :=
  match Item.ofPoint c.point with
  | .token ks next => if ks.contains k then some { c with point := next } else none
  | _ => none

/-- The alternative of all configurations, if they agree. -/
def only? : List Config → Option Nat
  | [] => none
  | c :: cs => if cs.all fun d => d.alt == c.alt then some c.alt else none

/-- Reads one token in all configurations that can. Once reading has ended, no further token can
be read; such configurations stay at the end of the input, and under the actual callers they
stay unless another one has ended later. -/
def advance (anyCaller : Bool) (cs : List Config) (k : Kind) : List Config :=
  let ended := if anyCaller && k != .eof then [] else cs.filter fun c => isStop c.point
  let moved := gather anyCaller (cs.filterMap (read? k))
  if ended.isEmpty && k != .eof && (only? moved).isSome then moved
  else
    let met := gather anyCaller
      (moved.flatMap fun c => spread anyCaller c.alt c.left c.point c.callers)
    let kept := if k == .eof then met.filter fun c => isStop c.point else met
    if ended.isEmpty then kept
    else if anyCaller || !kept.any fun c => isStop c.point then gather anyCaller (kept ++ ended)
    else kept

/-- Configurations that are at the same point, together. -/
def byPoint (cs : List Config) : List (List Config) := cs.splitBy fun c d => c.point == d.point

/-- Whether two of some configurations have the same call stacks. -/
def clash : List Config → Bool
  | [] => false
  | c :: cs => cs.any (fun d => d.callers == c.callers) || clash cs

/-- Whether no further token can tell the alternatives apart when the callers are not known: all
have ended, or some agree in point and stacks and no point is left to one alternative. -/
def isConflict (cs : List Config) : Bool :=
  let groups := byPoint cs
  cs.all (fun c => isStop c.point) ||
    (groups.all (fun g => 1 < g.length) && groups.any clash)

def alts (cs : List Config) : List Nat := (cs.map (·.alt)).eraseDups

def least? (as : List Nat) : Option Nat := as.min?

/-- The alternative that wins when under the actual callers every configuration agrees in point
and stacks with one of the least alternative. -/
def winner? (cs : List Config) : Option Nat :=
  match least? (alts cs) with
  | none => none
  | some a =>
    if (byPoint cs).all fun g =>
        match g with
        | [] => true
        | c :: _ => c.alt == a && g.all fun d => d.callers == c.callers
    then some a else none

/-- The least alternative that had come to the end of the decision's rule. -/
def finished? (cs : List Config) : Option Nat :=
  least? (alts (cs.filter fun c => c.left || isStop c.point))

end Config

/-- A choice to be made by looking ahead. -/
inductive Decision where
  /-- Between alternatives that begin at some points. -/
  | among (alts : List Point)
  /-- Between the tails of some operators, of which only those of at least a level may be read. -/
  | tail (ops : Operators) (level : Nat)
  /-- Whether a tail follows, or the expression ends. -/
  | again (rule : Rule) (ops : Operators) (level : Nat)
  deriving Repr

namespace Decision

open Config

def startAmong (anyCaller : Bool) (callers : Callers) : Nat → List Point → List Config
  | _, [] => []
  | n, p :: ps => spread anyCaller n false p callers ++ startAmong anyCaller callers (n + 1) ps

/-- The tails from `n` on; without knowledge of the callers their levels are looked at last. -/
def startTails (anyCaller : Bool) (callers : Callers) (level : Nat) :
    Nat → List (Nat × Form) → List Config
  | _, [] => []
  | n, t :: ts =>
    (if anyCaller || level ≤ t.1 then spread anyCaller n false t.2.entry callers else []) ++
      startTails anyCaller callers level (n + 1) ts

/-- A further tail is the first alternative, the end of the expression the second. Where both
meet the same token in the same way, and not after a whole expression, the tail is preferred. -/
def startAgain (anyCaller : Bool) (callers : Callers) (rule : Rule) (ops : Operators)
    (level : Nat) : List Config :=
  let further := (ops.tails.filter fun t => level ≤ t.1).flatMap fun t =>
    spread anyCaller 1 false t.2.entry callers
  let all := gather anyCaller (further ++ beyond anyCaller 2 false rule callers)
  if anyCaller then
    all.filter fun c => c.alt == 1 || c.whole ||
      !all.any fun d => d.alt == 1 && d.point == c.point && d.callers == c.callers
  else all

def start (d : Decision) (anyCaller : Bool) (callers : Callers) : List Config :=
  match d with
  | .among points => gather anyCaller (startAmong anyCaller callers 1 points)
  | .tail ops level => gather anyCaller (startTails anyCaller callers level 1 ops.tails)
  | .again rule ops level => startAgain anyCaller callers rule ops level

/-- Whether the level of an alternative allows it. -/
def permits (d : Decision) (alt : Nat) : Bool :=
  match d with
  | .tail ops level =>
    match ops.tails[alt - 1]? with
    | some t => level ≤ t.1
    | none => true
  | _ => true

/-- How following the alternatives came out: with one of them, with several that cannot be told
apart, or with none, after which configurations. -/
inductive Outcome where
  | one (alt : Nat)
  | several (alts : List Nat)
  | nothing (last : List Config)
  deriving Repr

/-- Follows configurations through the tokens ahead without knowledge of the callers. Also says
at which of the tokens ahead, counted from `depth`, it came out. -/
def followAny : Nat → List Config → List Token → Outcome × Nat
  | depth, cs, [] => (.nothing cs, depth)
  | depth, cs, t :: ts =>
    match advance true cs t.kind with
    | [] => (.nothing cs, depth)
    | next =>
      match only? next with
      | some a => (.one a, depth)
      | none =>
        if isConflict next then (.several (alts next), depth) else followAny (depth + 1) next ts

/-- Follows configurations through the tokens ahead under the actual callers. -/
def followActual : Nat → List Config → List Token → Outcome × Nat
  | depth, cs, [] => (.nothing cs, depth)
  | depth, cs, t :: ts =>
    match advance false cs t.kind with
    | [] => (.nothing cs, depth)
    | next =>
      match only? next, winner? next with
      | some a, _ => (.one a, depth)
      | none, some a => (.one a, depth)
      | none, none => followActual (depth + 1) next ts

/-- What a decision comes to: an alternative, or the token ahead that fits none; and how many
tokens ahead were looked at. -/
structure Verdict where
  choice : Except Nat Nat
  depth : Nat

/-- When no alternative goes on, the least one that had come to the end of the rule is taken,
preferably one that its level allows. -/
def salvage (d : Decision) (last : List Config) (depth : Nat) : Except Nat Nat :=
  match finished? (last.filter fun c => d.permits c.alt) with
  | some a => .ok a
  | none =>
    match finished? (last.filter fun c => !d.permits c.alt) with
    | some a => .ok a
    | none => .error depth

def decideActual (d : Decision) (stack : List Point) (ahead : List Token) : Verdict :=
  match followActual 0 (d.start false (.ofStack stack)) ahead with
  | (.one a, depth) => ⟨.ok a, depth⟩
  | (.several _, depth) => ⟨.error depth, depth⟩
  | (.nothing last, depth) => ⟨d.salvage last depth, depth⟩

/-- Settles a decision at the front of some tokens under a call stack. -/
def decide (d : Decision) (stack : List Point) (ahead : List Token) : Verdict :=
  match followAny 0 (d.start true .bottom) ahead with
  | (.one a, depth) => ⟨if d.permits a then .ok a else .error 0, depth⟩
  | (.nothing last, depth) => ⟨d.salvage last depth, depth⟩
  | (.several as, depth) =>
    match d, as.filter d.permits with
    | .tail .., [a] => ⟨.ok a, depth⟩
    | _, _ =>
      let v := d.decideActual stack ahead
      ⟨v.choice, max depth v.depth⟩

end Decision

end ResourceNames.Java
