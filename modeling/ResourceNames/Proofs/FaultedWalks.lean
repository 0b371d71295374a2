import Mathlib.Data.List.TakeWhile
import ResourceNames.Proofs.ResourceTable
import ResourceNames.Proofs.Termination

/-!
What a file of resources leaves behind that faults.

A walk is the list of its visits, each with the nodes that are open then. Every open node has put
its names around the place of the reader, and a visit that faults leaves them there. Files read
later begin with what was left, so that it stands before every name they enter.
-/
namespace ResourceNames

open Java Text Resource

namespace Java

/-! Variables have names, because no rule is left for want of calls. -/

namespace Parser

variable {limit depth level : Nat} {s s' : Parser} {o : Outcome}

/-- A rule that is left without a halt was read to its end, or its halt is reported. -/
theorem Closed.isReported {rule : Rule} {t : Parser} (h : Closed rule o ⟨t, none⟩) :
    ∀ x, o.halt = some x → x.isReported = true := by
  intro x hx
  generalize ho : (⟨t, none⟩ : Outcome) = o' at h
  cases h with
  | ended halt => simp [halt] at hx
  | @gaveUp y _ _ halt report =>
    obtain rfl : y = x := Option.some.inj (halt.symm.trans hx)
    cases y with
    | noViable | mismatch | lowLevel => rfl
    | astray | exhausted => simp [reportHalt] at report
  | raised => cases ho

/-- A rule that is left with a halt that is reported is left without one. -/
private theorem Closed.parser {rule : Rule} {o' : Outcome} (h : Closed rule o o')
    (hroot : o.parser.root = none) (hx : ∀ x, o'.halt = some x → x.isReported = true) :
    Closed rule o ⟨o'.parser, none⟩ := by
  cases h with
  | ended halt =>
    obtain ⟨t, x⟩ := o
    obtain rfl : x = none := halt
    exact .ended rfl
  | gaveUp halt report skip => exact .gaveUp halt report skip
  | raised halt why =>
    have hrep := hx _ rfl
    rcases why hroot with ⟨rfl, rfl | ⟨p, rfl⟩⟩ <;> cases hrep

section

variable {P : Tree → Prop}

private theorem Work.each_of_quiet (h : Work [] [] s s') (hs : ∀ c ∈ s.children, c.Each P) :
    ∀ c ∈ s'.children, c.Each P := by
  intro c hc
  cases hr : c.rule? with
  | none => exact Tree.each_of_rule?_eq_none hr
  | some r => exact hs c (h.mem_of_quiet hc hr)

private theorem each_node_of_children {rule : Rule} {start : Token} (hn : P (s.node rule start))
    (hs : ∀ c ∈ s.children, c.Each P) : (s.node rule start).Each P :=
  Tree.each_node.mpr ⟨hn, fun d hd => hs d (List.mem_reverse.mp hd)⟩

/-- What holds of the nodes of all rules that are left without a halt, and of those wrapped around
operands, holds of all nodes that are made, as long as no halt comes up that is not reported. -/
theorem Reads.each
    (made : ∀ {limit depth level rule} {s t : Parser} {o}, s.children = [] →
      Reads limit depth (.body rule level) s o → Closed rule o ⟨t, none⟩ → P (t.node rule s.current))
    (wrapped : ∀ {rule ops} (start : Token) (s : Parser),
      (Layout.ruleForm rule).body = .operators ops → P (s.node rule start))
    {t : Task} (h : Reads limit depth t s o) (hroot : s.root = none)
    (hx : ∀ x, o.halt = some x → x.isReported = true) (hs : ∀ c ∈ s.children, c.Each P) :
    ∀ c ∈ o.parser.children, c.Each P := by
  have hwrap : ∀ {rule ops} (start : Token) {s : Parser},
      (Layout.ruleForm rule).body = .operators ops → (∀ c ∈ s.children, c.Each P) →
      ∀ c ∈ (s.wrap rule start).children, c.Each P := by
    intro rule ops start s form hs c hc
    obtain rfl := List.mem_singleton.mp hc
    exact each_node_of_children (wrapped start s form) hs
  induction h with
  | sync back => exact (Reads.sync back : Reads limit depth _ _ _).work.each_of_quiet hs
  | token held => exact (Reads.token held : Reads limit depth _ _ _).work.each_of_quiet hs
  | oneOf held => exact (Reads.oneOf held : Reads limit depth _ _ _).work.each_of_quiet hs
  | nil | worn | wornTails | wornCall => exact hs
  | cons first rest ih ih' => exact ih' (first.work.root.trans hroot) hx (ih hroot (by rintro x ⟨⟩) hs)
  | stop first ih => exact ih hroot hx hs
  | invoke call ih => exact ih hroot hx hs
  | seq _ ih | choice _ ih | opt _ ih | star _ ih | plus _ ih | plain _ _ ih | operators _ _ ih =>
    exact ih hroot hx hs
  | picked _ choice _ _ ih =>
    exact ih ((Work.choose choice : Work [] [] _ _).root.trans hroot) hx
      ((Work.choose choice).each_of_quiet hs)
  | passed _ choice | unfit _ choice => exact (Work.choose choice).each_of_quiet hs
  | again _ more _ ih =>
    exact ih ((Work.another more : Work [] [] _ _).root.trans hroot) hx
      ((Work.another more).each_of_quiet hs)
  | done _ more | undecided _ more => exact (Work.another more).each_of_quiet hs
  | tail form choice _ _ _ ih =>
    exact ih ((Work.predict choice : Work [] [] _ _).root.trans hroot) hx
      (hwrap _ form ((Work.predict choice).each_of_quiet hs))
  | lowTail form choice => exact hwrap _ form ((Work.predict choice).each_of_quiet hs)
  | noTail _ choice | unfitTail choice => exact (Work.predict choice).each_of_quiet hs
  | againTails _ more _ ih =>
    exact ih ((Work.anotherTail more : Work [] [] _ _).root.trans hroot) hx
      ((Work.anotherTail more).each_of_quiet hs)
  | doneTails more | undecidedTails more => exact (Work.anotherTail more).each_of_quiet hs
  | @call depth next rule level field s o read ih =>
    have hclosed := (closed rule o).parser (read.work.root.trans hroot) fun x hc => hx x (by
      cases field <;> exact hc)
    have hbody := ih hroot hclosed.isReported (by simp [enter])
    have hafter := (Work.closed hclosed).each_of_quiet hbody
    have hnode : P ((close rule o).parser.node rule s.current) :=
      made (s := s.enter next) rfl read hclosed
    intro c hc
    rw [children_leave] at hc
    rcases List.mem_cons.mp hc with rfl | hc
    · exact each_node_of_children hnode hafter
    · exact hs c hc

end

/-- A call that is made adds a node of the rule. -/
theorem Reads.call_named {here next : Point} {rule : Rule} {field : Option Field}
    (h : Reads limit depth (.form (.call here next rule level field)) s o)
    (hx : ∀ x, o.halt = some x → x.isReported = true) :
    ∃ c ∈ o.parser.children, c.rule? = some rule := by
  cases h with | invoke call => ?_
  cases call with
  | call read =>
    rw [children_leave]
    exact ⟨_, List.mem_cons_self, rfl⟩
  | wornCall => cases hx _ rfl

/-- A variable that is read has a name. -/
private theorem variableDeclarator_named {t : Parser}
    (h : Reads limit depth (.body .variableDeclarator level) s o)
    (hc : Closed .variableDeclarator o ⟨t, none⟩) :
    ∃ c ∈ t.children, c.rule? = some .variableDeclaratorId := by
  have hnamed : ∃ c ∈ o.parser.children, c.rule? = some .variableDeclaratorId := by
    cases h with
    | operators form => rw [body_variableDeclarator] at form; cases form
    | plain form read =>
      rw [body_variableDeclarator] at form
      cases form
      cases read with | seq all => ?_
      cases all with
      | stop first => exact first.call_named hc.isReported
      | cons first rest =>
        obtain ⟨c, hc, hr⟩ := first.call_named (by rintro x ⟨⟩)
        obtain ⟨new, hnew, -⟩ := (rest.work : Work _ [] _ _).grows
        exact ⟨c, hnew ▸ List.mem_append_right new hc, hr⟩
  obtain ⟨c, hm, hr⟩ := hnamed
  obtain ⟨new, hnew, -⟩ := (Work.closed hc : Work [] [] _ _).grows
  exact ⟨c, hnew ▸ List.mem_append_right new hm, hr⟩

end Parser

namespace Tree

def IsNamed (n : Tree) : Prop :=
  n.rule? = some .variableDeclarator → ∃ id, n.child? (.rule .variableDeclaratorId) = some id

/-- In the tree of a rule that is read on its own all variables have names. -/
theorem each_isNamed_parse (rule : Rule) {s : Parser} (he : Ended s.rest) (hroot : s.here = none) :
    (s.parse rule).1.Each IsNamed := by
  obtain ⟨o, t, read, hc, hp⟩ := Parser.parse_closes rule he hroot
  have made : ∀ {limit depth level rule} {s t : Parser} {o}, s.children = [] →
      Parser.Reads limit depth (.body rule level) s o → Parser.Closed rule o ⟨t, none⟩ →
      IsNamed (t.node rule s.current) := by
    intro limit depth level rule s t o _ read hc hr
    obtain rfl := Option.some.inj hr
    obtain ⟨c, hm, hr⟩ := Parser.variableDeclarator_named read hc
    exact Option.isSome_iff_exists.mp
      (List.find?_isSome.mpr ⟨c, List.mem_reverse.mpr hm, isRule_eq_true_iff.mpr hr⟩)
  have wrapped : ∀ {rule ops} (start : Token) (s : Parser),
      (Layout.ruleForm rule).body = .operators ops → IsNamed (s.node rule start) := by
    intro rule ops start s form hr
    obtain rfl := Option.some.inj hr
    rw [Parser.body_variableDeclarator] at form
    cases form
  have hbody := read.each (P := IsNamed) made wrapped hroot hc.isReported
    (by rintro c ⟨⟩)
  have hnode : IsNamed (t.node rule s.current) := made (s := s.outset.moveTo _) rfl read hc
  rw [hp]
  refine each_node.mpr ⟨hnode, fun c hm => ?_⟩
  exact (Parser.Work.closed hc).each_of_quiet hbody c (List.mem_reverse.mp hm)

mutual

/-- The visits of a tree in order, each with the nodes around the one visited, the outermost
first. -/
def visitsIn (around : List Tree) : Tree → List (List Tree × Visit)
  | .leaf .. => []
  | .missing _ => []
  | .node rule start stop fields children =>
    let node := Tree.node rule start stop fields children
    (around, .enter node) :: (visitsAllIn (around ++ [node]) children ++ [(around, .exit node)])

def visitsAllIn (around : List Tree) : List Tree → List (List Tree × Visit)
  | [] => []
  | t :: ts => t.visitsIn around ++ visitsAllIn around ts

end

mutual

theorem map_snd_visitsIn (around : List Tree) (t : Tree) :
    (t.visitsIn around).map Prod.snd = t.visits [] := by
  cases t with
  | leaf | missing => rfl
  | node rule start stop fields children =>
    rw [visits_node, ← map_snd_visitsAllIn (around ++ [.node rule start stop fields children])]
    simp [visitsIn]

private theorem map_snd_visitsAllIn (around : List Tree) (ts : List Tree) :
    (visitsAllIn around ts).map Prod.snd = visitsAll [] ts := by
  cases ts with
  | nil => rfl
  | cons t ts =>
    rw [visitsAll, ← map_snd_visitsIn around t, ← map_snd_visitsAllIn around ts, visitsAllIn,
      List.map_append]

end

def partText (rule : Rule) (part : Part) (node : Tree) : List String :=
  if node.rule? = some rule then (node.child? part).toList.map text else []

/-- The names that a node puts around what is in it. -/
def frame (node : Tree) : List String :=
  node.partText .classDeclaration (.token .identifier) ++
    node.partText .variableDeclarator (.rule .variableDeclaratorId) ++
    node.partText .variableDeclarator (.rule .variableInitializer)

def needed? (node : Tree) : Option Part :=
  match node.rule? with
  | some .packageDeclaration => some (.rule .qualifiedName)
  | some .classDeclaration => some (.token .identifier)
  | some .variableDeclarator => some (.rule .variableInitializer)
  | _ => none

end Tree

namespace Visit

/-- Visits lead from some open nodes to others. -/
inductive Leads : List Tree → List (List Tree × Visit) → List Tree → Prop where
  | nil {around : List Tree} : Leads around [] around
  | enter {around around' : List Tree} {n : Tree} {xs : List (List Tree × Visit)}
      (rest : Leads (around ++ [n]) xs around') : Leads around ((around, .enter n) :: xs) around'
  | exit {around around' : List Tree} {n : Tree} {xs : List (List Tree × Visit)}
      (rest : Leads around xs around') : Leads (around ++ [n]) ((around, .exit n) :: xs) around'

theorem Leads.append {as bs cs : List Tree} {xs ys : List (List Tree × Visit)} (h : Leads as xs bs)
    (h' : Leads bs ys cs) : Leads as (xs ++ ys) cs := by
  induction h with
  | nil => exact h'
  | enter _ ih => exact .enter (ih h')
  | exit _ ih => exact .exit (ih h')

theorem Leads.split {as cs : List Tree} {xs ys : List (List Tree × Visit)}
    (h : Leads as (xs ++ ys) cs) : ∃ bs, Leads as xs bs ∧ Leads bs ys cs := by
  induction xs generalizing as with
  | nil => exact ⟨as, .nil, h⟩
  | cons x xs ih =>
    cases h with
    | enter rest =>
      obtain ⟨bs, hx, hy⟩ := ih rest
      exact ⟨bs, .enter hx, hy⟩
    | exit rest =>
      obtain ⟨bs, hx, hy⟩ := ih rest
      exact ⟨bs, .exit hx, hy⟩

/-- A tree is left as it was found. -/
theorem leads_visitsIn (around : List Tree) (t : Tree) : Leads around (t.visitsIn around) around := by
  induction t using Tree.ofChildren generalizing around with
  | leaf | missing => exact .nil
  | node rule start stop fields children ih =>
    refine .enter (.append ?_ (.exit .nil))
    generalize around ++ [_] = around'
    induction children with
    | nil => exact .nil
    | cons c cs ih' =>
      exact (ih c List.mem_cons_self around').append
        (ih' fun d hd => ih d (List.mem_cons_of_mem c hd))

/-- The fault of a visit. A node cannot be entered without its part, and a variable cannot be left
whose value is no number. -/
def fault? : Visit → Option Fault
  | .enter node => node.needed?.bind fun part =>
    if node.child? part = none then some .missingPart else none
  | .exit node => (node.partText .variableDeclarator (.rule .variableInitializer)).findSome? fun text =>
    match readNumeral .ten text with
    | .ok _ => none
    | .error e => some (.numeral e)

/-- The number and the name that a visit enters: those of a variable that is left. -/
def entered? (names : List String) : List Tree × Visit → Option (Int × String)
  | (_, .enter _) => none
  | (around, .exit node) =>
    if node.rule? = some .variableDeclarator then node.declared? (names ++ around.flatMap Tree.frame)
    else none

end Visit

/-- What is entered from a tree before a visit faults. -/
def Tree.entered (names : List String) (t : Tree) : List (Int × String) :=
  ((t.visitsIn []).takeWhile fun x => x.2.fault?.isNone).filterMap (Visit.entered? names)

end Java

namespace Resource.Reader

open Java.Tree Java.Visit

variable {r : Reader} {node : Tree}

private theorem exists_part (part : Part) (h : (Visit.enter node).fault? = none)
    (hp : node.needed? = some part) : ∃ t, node.child? part = some t := by
  refine Option.ne_none_iff_exists'.mp fun hc => ?_
  simp [fault?, hp, hc] at h

/-- To enter a node puts its names around what is in it. -/
private theorem enter_ok {node : Tree} (hn : node.IsNamed) (h : (Visit.enter node).fault? = none) (r : Reader) :
    (visitor.enter node r).fault = none ∧ (visitor.enter node r).state.table = r.table ∧
      (visitor.enter node r).state.names = r.names ++ node.frame := by
  simp only [visitor]
  split
  · rename_i hr
    obtain ⟨t, ht⟩ := exists_part (.rule .qualifiedName) h (by simp [needed?, hr])
    simp [frame, partText, hr, ht, Visited.ok]
  · rename_i hr
    obtain ⟨t, ht⟩ := exists_part (.token .identifier) h (by simp [needed?, hr])
    simp [frame, partText, hr, ht, pushPart, push, Visited.ok]
  · rename_i hr
    obtain ⟨value, hv⟩ := exists_part (.rule .variableInitializer) h (by simp [needed?, hr])
    obtain ⟨id, hid⟩ := hn hr
    simp [frame, partText, hr, hv, hid, pushPart, push, Visited.ok, Visited.andThen]
  · rename_i hc hv
    simp [frame, partText, if_neg hc, if_neg hv, Visited.ok]

/-- Of a node that cannot be entered the name is left if it is a variable. -/
private theorem enter_failed (hn : node.IsNamed) {f : Fault}
    (h : (Visit.enter node).fault? = some f) (r : Reader) :
    (visitor.enter node r).fault = some f ∧ (visitor.enter node r).state.table = r.table ∧
      (visitor.enter node r).state.names =
        r.names ++ node.partText .variableDeclarator (.rule .variableDeclaratorId) := by
  obtain ⟨part, hp, hif⟩ := Option.bind_eq_some_iff.mp h
  obtain ⟨hc, rfl⟩ : node.child? part = none ∧ .missingPart = f := by simpa using hif
  unfold needed? at hp
  simp only [visitor]
  split at hp
  · rename_i hr
    obtain rfl := Option.some.inj hp
    simp [partText, hr, hc, Visited.failed]
  · rename_i hr
    obtain rfl := Option.some.inj hp
    simp [partText, hr, hc, pushPart, Visited.failed]
  · rename_i hr
    obtain rfl := Option.some.inj hp
    obtain ⟨id, hid⟩ := hn hr
    simp [partText, hr, hc, hid, pushPart, push, Visited.failed, Visited.andThen, Visited.ok]
  · cases hp

section

variable {names : List String} {around : List Tree}

/-- To leave a node takes its names back, and enters a variable. -/
private theorem exit_ok (hn : node.IsNamed) (he : (Visit.enter node).fault? = none)
    (h : (Visit.exit node).fault? = none) (hr : r.names = names ++ (around ++ [node]).flatMap frame) :
    (visitor.exit node r).fault = none ∧
      (visitor.exit node r).state.table =
        r.table.enterAll (entered? names (around, .exit node)).toList ∧
      (visitor.exit node r).state.names = names ++ around.flatMap frame := by
  rw [List.flatMap_append, List.flatMap_singleton, ← List.append_assoc] at hr
  generalize hbase : names ++ around.flatMap frame = base at hr
  simp only [visitor, entered?, hbase]
  split
  · rename_i hrule
    obtain ⟨t, ht⟩ := exists_part (.token .identifier) he (by simp [needed?, hrule])
    simp [hr, frame, partText, hrule, ht, pop, Visited.ok, Table.enterAll]
  · rename_i hrule
    obtain ⟨value, hv⟩ := exists_part (.rule .variableInitializer) he (by simp [needed?, hrule])
    obtain ⟨id, hid⟩ := hn hrule
    have hnames : r.names = base ++ [id.text] ++ [value.text] := by
      simp [hr, frame, partText, hrule, hid, hv]
    simp only [fault?, partText, hrule, if_true, hv, Option.toList_some, List.map_singleton,
      List.findSome?_singleton] at h
    cases hread : readNumeral .ten value.text with
    | error e => simp [hread] at h
    | ok n => simp [hrule, enterValue, pop, hnames, hread, declared?, hid, hv, Visited.ok, Table.enterAll]
  · rename_i hc hv
    simp [hr, frame, partText, if_neg hc, if_neg hv, Visited.ok, Table.enterAll]

/-- A variable that cannot be left takes only its value back. -/
private theorem exit_failed (hn : node.IsNamed) {f : Fault} (h : (Visit.exit node).fault? = some f)
    (hr : r.names = names ++ (around ++ [node]).flatMap frame) :
    (visitor.exit node r).fault = some f ∧ (visitor.exit node r).state.table = r.table ∧
      (visitor.exit node r).state.names = names ++ around.flatMap frame ++
        node.partText .variableDeclarator (.rule .variableDeclaratorId) := by
  rw [List.flatMap_append, List.flatMap_singleton, ← List.append_assoc] at hr
  generalize names ++ around.flatMap frame = base at hr
  obtain ⟨text, ht, hf⟩ := List.exists_of_findSome?_eq_some h
  have hrule : node.rule? = some .variableDeclarator := by
    unfold partText at ht
    split at ht
    · assumption
    · simp at ht
  obtain ⟨id, hid⟩ := hn hrule
  obtain ⟨value, hv, rfl⟩ : ∃ value, node.child? (.rule .variableInitializer) = some value ∧
      value.text = text := by
    simpa [partText, hrule] using ht
  have hnames : r.names = base ++ [id.text] ++ [value.text] := by
    simp [hr, frame, partText, hrule, hid, hv]
  split at hf
  · cases hf
  · rename_i e hread
    obtain rfl := Option.some.inj hf
    simp [visitor, hrule, enterValue, pop, hnames, hread, partText, hid, Visited.failed]

end

/-- Visits without a fault keep the names of the open nodes around the place of the reader. -/
private theorem makeAll_leads {around around' : List Tree} {xs : List (List Tree × Visit)}
    (h : Leads around xs around') (names : List String)
    (hr : r.names = names ++ around.flatMap frame)
    (hopen : ∀ n ∈ around, (Visit.enter n).fault? = none)
    (hn : ∀ x ∈ xs, x.2.node.IsNamed) (hok : ∀ x ∈ xs, x.2.fault? = none) :
    (makeAll visitor (xs.map Prod.snd) r).fault = none ∧
      (makeAll visitor (xs.map Prod.snd) r).state.table =
        r.table.enterAll (xs.filterMap (entered? names)) ∧
      (makeAll visitor (xs.map Prod.snd) r).state.names = names ++ around'.flatMap frame ∧
      ∀ n ∈ around', (Visit.enter n).fault? = none := by
  induction h generalizing r with
  | nil => exact ⟨rfl, rfl, hr, hopen⟩
  | @enter around around' n xs rest ih =>
    obtain ⟨hfirst, hlast⟩ := List.forall_mem_cons.mp hok
    obtain ⟨hnamed, hn⟩ := List.forall_mem_cons.mp hn
    obtain ⟨hf, ht, hnames⟩ := @enter_ok n hnamed hfirst r
    have hmake : makeAll visitor (((around, .enter n) :: xs).map Prod.snd) r =
      makeAll visitor (xs.map Prod.snd) (visitor.enter n r).state := Visited.andThen_of_ok hf
    have hopen' : ∀ m ∈ around ++ [n], (Visit.enter m).fault? = none := by
      intro m hm
      rcases List.mem_append.mp hm with hm | hm
      · exact hopen m hm
      · exact List.mem_singleton.mp hm ▸ hfirst
    rw [hmake, List.filterMap_cons_none rfl, ← ht]
    exact ih (by simp [hnames, hr]) hopen' hn hlast
  | @exit around around' n xs rest ih =>
    obtain ⟨hfirst, hlast⟩ := List.forall_mem_cons.mp hok
    obtain ⟨hnamed, hn⟩ := List.forall_mem_cons.mp hn
    obtain ⟨hf, ht, hnames⟩ := @exit_ok r n names around hnamed (hopen n (by simp)) hfirst hr
    have hmake : makeAll visitor (((around, .exit n) :: xs).map Prod.snd) r =
      makeAll visitor (xs.map Prod.snd) (visitor.exit n r).state := Visited.andThen_of_ok hf
    have hopen' : ∀ m ∈ around, (Visit.enter m).fault? = none :=
      fun m hm => hopen m (List.mem_append_left _ hm)
    obtain ⟨hf', ht', hend⟩ := ih hnames hopen' hn hlast
    rw [hmake]
    refine ⟨hf', ?_, hend⟩
    rw [ht', ht]
    cases he : entered? names (around, .exit n) <;> simp [he, Table.enterAll]

/-- A visit that faults after visits without a fault ends the walk. -/
private theorem makeAll_faults {around around' around'' : List Tree} {xs ys : List (List Tree × Visit)}
    {x : Visit} {f : Fault} (h : Leads around (xs ++ (around', x) :: ys) around'')
    (names : List String) (hr : r.names = names ++ around.flatMap frame)
    (hopen : ∀ n ∈ around, (Visit.enter n).fault? = none)
    (hn : ∀ x ∈ xs, x.2.node.IsNamed) (hok : ∀ x ∈ xs, x.2.fault? = none)
    (hx : x.node.IsNamed) (hf : x.fault? = some f) :
    (makeAll visitor ((xs ++ (around', x) :: ys).map Prod.snd) r).fault = some f ∧
      (makeAll visitor ((xs ++ (around', x) :: ys).map Prod.snd) r).state.table =
        r.table.enterAll (xs.filterMap (entered? names)) ∧
      (makeAll visitor ((xs ++ (around', x) :: ys).map Prod.snd) r).state.names =
        names ++ around'.flatMap frame ++
          x.node.partText .variableDeclarator (.rule .variableDeclaratorId) := by
  obtain ⟨mid, hxs, hys⟩ := h.split
  obtain ⟨hfault, htable, hnames, -⟩ := makeAll_leads hxs names hr hopen hn hok
  rw [List.map_append, makeAll_append, Visited.andThen_of_ok hfault, List.map_cons, makeAll]
  generalize (makeAll visitor (xs.map Prod.snd) r).state = r' at htable hnames ⊢
  rw [← htable]
  have hmake : (x.make visitor r').fault = some f ∧ (x.make visitor r').state.table = r'.table ∧
      (x.make visitor r').state.names = names ++ around'.flatMap frame ++
        x.node.partText .variableDeclarator (.rule .variableDeclaratorId) := by
    cases hys with
    | enter =>
      rw [← hnames]
      exact enter_failed hx hf r'
    | exit => exact exit_failed hx hf hnames
  have hstop (next : Reader → Visited Reader Fault) :
      (x.make visitor r').andThen next = x.make visitor r' := by
    simp [Visited.andThen, hmake.1]
  rwa [hstop]

/-- The visit that ends the walk of a reader, with the nodes around it. -/
def firstFault? (tree : Tree) : Option (List Tree × Visit) :=
  (tree.visitsIn []).find? fun x => x.2.fault?.isSome

/-- What a reader leaves of a tree in which all variables have names. -/
theorem read_of_isNamed {tree : Tree} (hn : tree.Each IsNamed) (r : Reader) :
    (r.read tree).fault = (firstFault? tree).bind (fun x => x.2.fault?) ∧
      (r.read tree).state.table = r.table.enterAll (tree.entered r.names) ∧
      (r.read tree).state.names = r.names ++ match firstFault? tree with
        | some (around, x) => around.flatMap frame ++
            x.node.partText .variableDeclarator (.rule .variableDeclaratorId)
        | none => [] := by
  have hnamed : ∀ x ∈ tree.visitsIn [], x.2.node.IsNamed := by
    intro x hx
    have hm := List.mem_map_of_mem (f := Prod.snd) hx
    rw [map_snd_visitsIn] at hm
    exact hn _ (mem_visits.mp hm)
  have hleads := leads_visitsIn [] tree
  have hnone : r.names = r.names ++ [].flatMap frame := by rw [List.flatMap_nil, List.append_nil]
  rw [read, walk_eq_makeAll, ← map_snd_visitsIn []]
  cases hfirst : firstFault? tree with
  | none =>
    have hok : ∀ x ∈ tree.visitsIn [], x.2.fault? = none := by
      simpa using List.find?_eq_none.mp hfirst
    have htake : (tree.visitsIn []).takeWhile (fun x => x.2.fault?.isNone) = tree.visitsIn [] :=
      List.takeWhile_eq_self_iff.mpr fun x hx => by simp [hok x hx]
    obtain ⟨hf, ht, hnames, -⟩ := makeAll_leads hleads r.names hnone (List.forall_mem_nil _) hnamed hok
    exact ⟨hf, by rw [ht, entered, htake], by simpa using hnames⟩
  | some x =>
    obtain ⟨around, x⟩ := x
    obtain ⟨hx, xs, ys, hvisits, hxs⟩ := List.find?_eq_some_iff_append.mp hfirst
    obtain ⟨f, hf⟩ := Option.isSome_iff_exists.mp hx
    have hok : ∀ x ∈ xs, x.2.fault? = none := by simpa using hxs
    have htake : (tree.visitsIn []).takeWhile (fun x => x.2.fault?.isNone) = xs := by
      rw [hvisits, List.takeWhile_append_of_pos fun x hx => by simp [hok x hx]]
      simp [hf]
    rw [hvisits] at hleads hnamed
    have hend := makeAll_faults hleads r.names hnone (List.forall_mem_nil _)
      (fun x hx => hnamed x (List.mem_append_left _ hx)) hok (hnamed (around, x) (by simp)) hf
    rw [hvisits, entered, htake, ← List.append_assoc]
    exact ⟨hend.1.trans hf.symm, hend.2⟩

end Resource.Reader

namespace Session

open Resource.Reader

def unitTree (text : String) (s : Session) : Tree :=
  ((Parser.ofSource (sourceOf text) s.widened).parse .compilationUnit).1

/-- To read resources is to read their tree. -/
theorem readResources_reads (s : Session) (text : String) :
    (s.readResources text).result = (firstFault? (s.unitTree text)).bind (fun x => x.2.fault?) ∧
      (s.readResources text).session.reader.table =
        s.reader.table.enterAll ((s.unitTree text).entered s.reader.names) ∧
      (s.readResources text).session.reader.names =
        s.reader.names ++ match firstFault? (s.unitTree text) with
          | some (around, x) => around.flatMap Tree.frame ++
              x.node.partText .variableDeclarator (.rule .variableDeclaratorId)
          | none => [] := by
  have hnamed : (s.unitTree text).Each Tree.IsNamed :=
    Tree.each_isNamed_parse .compilationUnit (Parser.ended_ofSource _ s.widened) rfl
  exact read_of_isNamed hnamed { s.reader with package := "" }

/-- Names that were left behind stay. -/
theorem Next.names {s t : Session} (h : Next s t) : s.reader.names <+: t.reader.names := by
  cases h with
  | goes h =>
    cases h with
    | readResources text =>
      rw [(s.readResources_reads text).2.2]
      exact List.prefix_append _ _
    | restore | reread | text => exact List.prefix_rfl
  | openFile => exact List.prefix_rfl

end Session

end ResourceNames
