import ResourceNames.Java.Prediction
import ResourceNames.Java.Tree

/-!
Reading a source by the rules of the grammar.

A `Parser` stands before a token of a source and inside a node under construction. Errors never
stop it: it skips a token that is too many, makes up one that is missing, or gives up the rule
and skips to a token at which an open rule can go on. While it is recovering from an error it
reports no other one, until a token fits again.

What is expected at a point of a loop may be widened for good when tokens after a round of the
loop had to be skipped; `Widened` keeps these sets from one source to the next.
-/
namespace ResourceNames.Java

/-- Points of loops with what is expected there since tokens were skipped. -/
abbrev Widened := List (Point × List Kind)

/-- A syntax error. When it was found, `seen` visible tokens had been looked at, and `read` of them
read. -/
structure Report where
  start : Place
  message : String
  seen : Nat
  read : Nat
  deriving Repr

/-- Why a rule is not read to its end. -/
inductive Halt where
  /-- No alternative fits the tokens from `first` until `last`. -/
  | noViable (first last : Token)
  /-- The next token is not expected. -/
  | mismatch
  /-- The level of a tail is too low here. -/
  | lowLevel (level : Nat)
  /-- The outermost rule was called from a point that is no call. -/
  | astray (from_ : Point)
  /-- The bound on calls or rounds is used up. -/
  | exhausted
  deriving Repr

/-- A parser at work. -/
structure Parser where
  source : Source
  /-- The visible tokens from the next one on; the last one is the end. -/
  rest : List Token
  /-- The last token read. -/
  previous : Option Token := none
  /-- How many visible tokens have been read. -/
  position : Nat := 0
  /-- How many visible tokens have been looked at, read ones included. -/
  seen : Nat := 0
  /-- The point where the parser is. -/
  here : Option Point := none
  /-- Where the outermost rule was called. -/
  root : Option Point := none
  /-- The points to which the open calls return, the innermost first. -/
  stack : List Point := []
  /-- An error was reported and no token has fitted since. -/
  recovering : Bool := false
  /-- Where rules were given up since a token fitted: how many tokens had been read, and the
  points. -/
  givenUp : Option (Nat × List Point) := none
  /-- Whether a rule was ever given up. -/
  everGaveUp : Bool := false
  widened : Widened := []
  /-- The reports, the latest first. -/
  reports : List Report := []
  /-- The children of the node under construction, the latest first. -/
  children : List Tree := []
  /-- The named parts of the node under construction. -/
  fields : List (Field × Tree) := []

/-- A parser after some work, and why it halted, if it did. -/
structure Outcome where
  parser : Parser
  halt : Option Halt

namespace Outcome

def andThen (o : Outcome) (next : Parser → Outcome) : Outcome :=
  match o.halt with
  | none => next o.parser
  | some _ => o

end Outcome

namespace Parser

def ofSource (source : Source) (widened : Widened := []) : Parser :=
  { source, rest := source.visible.toList, widened }

def current (s : Parser) : Token :=
  match s.rest with
  | t :: _ => t
  | [] => s.source.tokens.back?.getD default

/-- The token after the next one; after the end comes the end. -/
def second (s : Parser) : Token :=
  match s.rest with
  | _ :: t :: _ => t
  | _ => s.current

/-- Notes that tokens ahead were looked at, `depth` of them after the next one. -/
def look (s : Parser) (depth : Nat) : Parser :=
  { s with seen := max s.seen (s.position + min (depth + 1) s.rest.length) }

def moveTo (s : Parser) (p : Point) : Parser := { s with here := some p }

def setField (s : Parser) (field : Option Field) (part : Tree) : Parser :=
  match field with
  | none => s
  | some f => { s with fields := s.fields.filter (fun e => e.1 != f) ++ [(f, part)] }

/-- Reads the next token into the node under construction. The end is read without moving. -/
def consume (s : Parser) : Parser :=
  match s.rest with
  | t :: u :: ts =>
    { s with rest := u :: ts, previous := some t, position := s.position + 1
             seen := max s.seen (s.position + 2)
             children := .leaf t s.recovering :: s.children }
  | [t] => { s with children := .leaf t s.recovering :: s.children }
  | [] => s

/-- A token fits: recovering is over. -/
def settle (s : Parser) : Parser := { s with recovering := false, givenUp := none }

/-- Reports an error at a token, unless the parser is recovering from one. -/
def report (s : Parser) (t : Token) (message : String) : Parser :=
  { s with recovering := true, reports := ⟨t.start, message, s.seen, s.position⟩ :: s.reports }

def shown (t : Token) : String := "'" ++ showBlanks t.text ++ "'"

/-- What is expected at a point inside its rule. -/
def expectedAt (s : Parser) (p : Point) : Follow.Expected :=
  match s.widened.lookup p with
  | some ks => ⟨ks, false⟩
  | none => Follow.expected p

/-- What is expected, where the end of a rule leads on to where it was called. -/
def expectedFrom (s : Parser) : List Point → Follow.Expected → Except Halt (List Kind)
  | stack, e =>
    if e.ends then
      match stack with
      | [] =>
        match s.root with
        | none => .ok (Kinds.insert .eof e.kinds)
        | some p => .error (.astray p)
      | ret :: rets => (expectedFrom s rets (s.expectedAt ret)).map (Kinds.union e.kinds)
    else .ok e.kinds

def expected (s : Parser) : Except Halt (List Kind) :=
  match s.here with
  | some p => s.expectedFrom s.stack (s.expectedAt p)
  | none => .ok []

/-- The kinds at which some open rule can go on after the rule that is given up. -/
def resumption (s : Parser) : Except Halt (List Kind) :=
  match s.root with
  | some p => .error (.astray p)
  | none => .ok (s.stack.foldl (fun ks ret => Kinds.union (s.expectedAt ret).kinds ks) [])

def skipUntil (ks : List Kind) : List Token → Parser → Parser
  | [], s => s
  | t :: ts, s => if t.kind == .eof || ks.contains t.kind then s else skipUntil ks ts s.consume

def reportExtra (s : Parser) : Except Halt Parser :=
  if s.recovering then .ok s
  else s.expected.map fun ks =>
    s.report s.current ("extraneous input " ++ shown s.current ++ " expecting " ++ Kinds.listed ks)

def reportMissing (s : Parser) : Except Halt Parser :=
  if s.recovering then .ok s
  else s.expected.map fun ks =>
    s.report s.current ("missing " ++ Kinds.listed ks ++ " at " ++ shown s.current)

/-- Skips the next token if the one after it is expected. -/
def dropOne? (s : Parser) : Except Halt (Option Parser) :=
  let s := s.look 1
  s.expected.bind fun ks =>
    if ks.contains s.second.kind then s.reportExtra.map fun s => some s.consume.settle
    else .ok none

/-- What is done at the places where alternatives are chosen. -/
inductive Gate where
  /-- Before the alternatives or the first round of a loop. -/
  | entry
  /-- After a round of a loop. -/
  | back
  deriving DecidableEq, Repr

/-- Checks before a choice that the next token is expected. -/
def sync (gate : Gate) (s : Parser) : Outcome :=
  match s.recovering, s.here with
  | false, some p =>
    let e := s.expectedAt p
    if e.ends || e.kinds.contains s.current.kind then ⟨s, none⟩
    else
      match gate with
      | .entry =>
        match s.dropOne? with
        | .ok (some s) => ⟨s, none⟩
        | .ok none => ⟨s.look 1, some .mismatch⟩
        | .error h => ⟨s, some h⟩
      | .back =>
        match s.reportExtra, s.resumption with
        | .ok s', .ok ks =>
          let wide := Kinds.union ks e.kinds
          let s' := { s' with widened := (p, wide) :: s'.widened.filter fun w => w.1 != p }
          ⟨skipUntil wide s'.rest s', none⟩
        | .error h, _ => ⟨s, some h⟩
        | _, .error h => ⟨s, some h⟩
  | _, _ => ⟨s, none⟩

/-- Goes on although the next token is not the one wanted before `next`: skips it if the one
after it is, or makes one up if the next token fits after it. The part is what was read. -/
def mend (s : Parser) (next : Point) : Parser × Except Halt Tree :=
  match s.dropOne? with
  | .error h => (s, .error h)
  | .ok (some s) => (s.consume, .ok (.leaf s.current false))
  | .ok none =>
    let s := s.look 1
    if (Follow.expectedIn s.stack next).contains s.current.kind then
      match s.reportMissing with
      | .error h => (s, .error h)
      | .ok s' =>
        match s'.expected with
        | .ok (k :: _) => (s', .ok (.missing k))
        | .ok [] => (s', .error .mismatch)
        | .error h => (s', .error h)
    else (s, .error .mismatch)

/-- Reads a token of a kind. A token made up becomes a child. -/
def token (here next : Point) (kind : Kind) (field : Option Field) (s : Parser) : Outcome :=
  let s := s.moveTo here
  if s.current.kind = kind then
    let t := s.current
    ⟨s.settle.consume.setField field (.leaf t false), none⟩
  else
    match s.mend next with
    | (s, .error h) => ⟨s, some h⟩
    | (s, .ok part) =>
      let s := match part with
        | .missing _ => { s with children := part :: s.children }
        | _ => s
      ⟨s.setField field part, none⟩

/-- Reads a token of some kinds. A token made up does not become a child. -/
def oneOf (here next : Point) (kinds : List Kind) (field : Option Field) (s : Parser) : Outcome :=
  let s := s.moveTo here
  let s := s.setField field (.leaf s.current false)
  if kinds.contains s.current.kind then ⟨s.settle.consume, none⟩
  else
    match s.mend next with
    | (s, .error h) => ⟨s, some h⟩
    | (s, .ok part) => ⟨s.setField field part, none⟩

/-- Settles a decision by looking ahead. -/
def predict (d : Decision) (s : Parser) : Parser × Except Halt Nat :=
  let v := d.decide s.stack s.rest
  let s' := s.look v.depth
  match v.choice with
  | .ok alt => (s', .ok alt)
  | .error k => (s', .error (.noViable s.current ((s.rest[k]?).getD s.current)))

/-- The number of the alternative to take at a decision whose alternatives begin at some points.
If the next token settles the decision and fits none, `otherwise` is the answer. -/
def choose (p : Point) (alts : List Point) (otherwise : Except Halt Nat) (s : Parser) :
    Parser × Except Halt Nat :=
  match Follow.settled? p with
  | none => s.predict (.among alts)
  | some looks =>
    match looks.findIdx? fun ks => ks.contains s.current.kind with
    | some i => (s, .ok (i + 1))
    | none => (s, otherwise)

def proceed (choice : Parser × Except Halt Nat) (next : Nat → Parser → Outcome) : Outcome :=
  match choice with
  | (s, .ok alt) => next alt s
  | (s, .error h) => ⟨s, some h⟩

def unfit (s : Parser) : Except Halt Nat := .error (.noViable s.current s.current)

/-- Goes around a loop, at most `rounds` times: `again` decides on each round. -/
def rounds (again : Parser → Parser × Except Halt Bool) (body : Parser → Outcome) :
    Nat → Parser → Outcome
  | 0, s => ⟨s, some .exhausted⟩
  | n + 1, s =>
    match again s with
    | (s, .error h) => ⟨s, some h⟩
    | (s, .ok false) => ⟨s, none⟩
    | (s, .ok true) => (body s).andThen (rounds again body n)

/-- Whether a loop has another round: the first of two alternatives. -/
def another (p : Point) (alts : List Point) (s : Parser) : Parser × Except Halt Bool :=
  match s.choose p alts (.ok 2) with
  | (s, .ok alt) => (s, .ok (alt == 1))
  | (s, .error h) => (s, .error h)

/-- How a rule is called: the point it returns to, the rule, its level, and the name of the
part. -/
abbrev Invoke := Point → Rule → Nat → Option Field → Parser → Outcome

mutual

/-- Reads a form. Rules are called by `invoke`; a loop goes around at most `limit` times. -/
def run (invoke : Invoke) (limit : Nat) : Form → Parser → Outcome
  | .token here next kind field, s => token here next kind field s
  | .oneOf here next kinds field, s => oneOf here next kinds field s
  | .call here next rule level field, s => invoke next rule level field (s.moveTo here)
  | .seq _ parts, s => runAll invoke limit parts s
  | .choice start _ alts, s =>
    ((s.moveTo start).sync .entry).andThen fun s =>
      proceed (s.choose start (alts.map Form.entry) s.unfit) fun alt s =>
        runNth invoke limit alts alt s
  | .opt start join alts, s =>
    ((s.moveTo start).sync .entry).andThen fun s =>
      proceed (s.choose start (alts.map Form.entry ++ [join]) (.ok (alts.length + 1))) fun alt s =>
        runNth invoke limit alts alt s
  | .star entry back next body, s =>
    ((s.moveTo entry).sync .entry).andThen
      (rounds (another entry [body.entry, next])
        (fun s => (run invoke limit body s).andThen fun s => (s.moveTo back).sync .back) limit)
  | .plus start back next body, s =>
    ((s.moveTo start).sync .entry).andThen fun s =>
      let round := fun s => (run invoke limit body s).andThen fun s => (s.moveTo back).sync .back
      (round s).andThen (rounds (another start [body.entry, next]) round limit)

def runAll (invoke : Invoke) (limit : Nat) : List Form → Parser → Outcome
  | [], s => ⟨s, none⟩
  | f :: fs, s => (run invoke limit f s).andThen (runAll invoke limit fs)

/-- Reads one of some forms, counted from one; a number beyond the last reads nothing. -/
def runNth (invoke : Invoke) (limit : Nat) : List Form → Nat → Parser → Outcome
  | [], _, s => ⟨s, none⟩
  | _ :: _, 0, s => ⟨s, none⟩
  | f :: _, 1, s => run invoke limit f s
  | _ :: fs, n + 2, s => runNth invoke limit fs (n + 1) s

end

def node (rule : Rule) (start : Token) (s : Parser) : Tree :=
  .node rule start s.previous s.fields s.children.reverse

/-- Reads a tail: the node so far becomes the first child of a new one. -/
def tail (invoke : Invoke) (limit : Nat) (rule : Rule) (ops : Operators) (level : Nat)
    (start : Token) (s : Parser) : Outcome :=
  ((s.moveTo ops.start).sync .entry).andThen fun s =>
    proceed (s.predict (.tail ops level)) fun alt s =>
      match ops.tails[alt - 1]? with
      | none => ⟨s, none⟩
      | some t =>
        let s := { s with children := [s.node rule start], fields := [] }
        if level ≤ t.1 then run invoke limit t.2 s
        else ⟨s.moveTo t.2.entry, some (.lowLevel t.1)⟩

def anotherTail (rule : Rule) (ops : Operators) (level : Nat) (s : Parser) :
    Parser × Except Halt Bool :=
  match s.predict (.again rule ops level) with
  | (s, .ok alt) => (s, .ok (alt == 1))
  | (s, .error h) => (s, .error h)

def runBody (invoke : Invoke) (limit : Nat) (rule : Rule) (level : Nat) (s : Parser) : Outcome :=
  match (Layout.ruleForm rule).body with
  | .plain form => run invoke limit form s
  | .operators ops =>
    let start := s.current
    (run invoke limit ops.heads s).andThen fun s =>
      ((s.moveTo ops.entry).sync .entry).andThen
        (rounds (anotherTail rule ops level)
          (fun s => (tail invoke limit rule ops level start s).andThen fun s =>
            (s.moveTo ops.back).sync .back) limit)

def textBetween (s : Parser) (first last : Token) : String :=
  String.join (((s.source.tokens.toList.drop first.index).take (last.index + 1 - first.index)).map
    fun t => if t.kind = .eof then "" else t.text)

/-- Reports why a rule is not read to its end. Showing the text of an alternative that fits
nothing reads the source to its end. -/
def reportHalt (s : Parser) (rule : Rule) : Halt → Except Halt Parser
  | .noViable first last =>
    if s.recovering then .ok s
    else if first.kind = .eof then
      .ok (s.report last "no viable alternative at input '<EOF>'")
    else
      .ok ((s.look s.rest.length).report last
        ("no viable alternative at input '" ++ showBlanks (s.textBetween first last) ++ "'"))
  | .mismatch =>
    if s.recovering then .ok s
    else s.expected.map fun ks =>
      s.report s.current
        ("mismatched input " ++ shown s.current ++ " expecting " ++ Kinds.listed ks)
  | .lowLevel level =>
    if s.recovering then .ok s
    else .ok (s.report s.current ("rule " ++ rule.name ++
      " failed predicate: \x7bself.precpred(self._ctx, " ++ toString level ++ ")\x7d?"))
  | h => .error h

/-- Whether a rule was given up at this point before this token since a token fitted. -/
def gaveUpHere (s : Parser) : Bool :=
  match s.givenUp, s.here with
  | some (n, points), some p => n == s.position && points.contains p
  | _, _ => false

def noteGivenUp (s : Parser) : Parser :=
  let points := match s.givenUp with
    | some (_, points) => points
    | none => []
  { s with givenUp := some (s.position, s.here.toList ++ points), everGaveUp := true }

/-- Gives up a rule: skips to a token at which an open rule can go on. A rule given up twice at
the same point before the same token skips at least that token. -/
def giveUp (s : Parser) : Except Halt Parser :=
  let s := (if s.gaveUpHere then s.consume else s).noteGivenUp
  s.resumption.map fun ks => skipUntil ks s.rest s

/-- Ends the work on a rule: a halt inside it is reported and the rule given up. -/
def close (rule : Rule) (o : Outcome) : Outcome :=
  match o.halt with
  | none => o
  | some h =>
    match (o.parser.reportHalt rule h).bind giveUp with
    | .ok s => ⟨s, none⟩
    | .error h => ⟨o.parser, some h⟩

/-- Where the parser is after a rule: back where it was called. After operators it stays where
their reading ended. -/
def pointAfter (rule : Rule) (before after : Option Point) : Option Point :=
  if Follow.hasOperators rule then after else before

/-- Calls a rule, with at most `depth` calls inside each other. -/
def call (limit : Nat) : Nat → Invoke
  | 0, _, _, _, _, s => ⟨s, some .exhausted⟩
  | depth + 1, next, rule, level, field, s =>
    let start := s.current
    let inner := { s with stack := next :: s.stack, children := [], fields := [] }
    let o := close rule (runBody (call limit depth) limit rule level inner)
    let part := o.parser.node rule start
    let s' := { o.parser with
      stack := s.stack
      children := part :: s.children
      fields := s.fields
      here := pointAfter rule s.here o.parser.here }
    ⟨s'.setField field part, o.halt⟩

/-- How often a loop may go around, and how deep calls may go, before a source is read: for each
token, once for each point and each rule. -/
def limit (s : Parser) : Nat := (s.rest.length + 1) * (Layout.size + 2) * Rule.all.length

def parse (rule : Rule) (s : Parser) : Tree × Outcome :=
  let s := s.look 0
  let start := s.current
  let inner := { s with root := s.here, stack := [], children := [], fields := [] }
  let o := close rule (runBody (call s.limit s.limit) s.limit rule 0 inner)
  (o.parser.node rule start,
    ⟨{ o.parser with children := [], fields := [], here := pointAfter rule s.here o.parser.here },
      o.halt⟩)

end Parser

end ResourceNames.Java
