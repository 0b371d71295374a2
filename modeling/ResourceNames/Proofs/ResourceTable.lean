import ResourceNames.Proofs.ReaderNodes
import ResourceNames.Proofs.Restoration
import ResourceNames.Proofs.Sessions
import ResourceNames.Proofs.Shapes
import ResourceNames.Proofs.Walks

/-!
What a file of resources enters into the table.

If a walk goes through a file of resources without a fault, it enters every variable, in order,
under the names of the classes around it and its own name, and leaves no name behind. No variable
is declared inside another one: the value of the outer one would hold an equals sign or a token
made up, and neither is part of a number.
-/
namespace ResourceNames

open Java Text

namespace Text

private theorem mem_dropWhile_of_not {p : Char → Bool} {c : Char} {cs : List Char} (h : c ∈ cs)
    (hp : p c = false) : c ∈ cs.dropWhile p := by
  induction cs with
  | nil => simp at h
  | cons d ds ih =>
    rw [List.dropWhile_cons]
    split
    · rename_i hd
      rcases List.mem_cons.mp h with rfl | h
      · simp [hp] at hd
      · exact ih h
    · exact h

private theorem mem_takeSign {c : Char} {cs : List Char} (h : c ∈ cs) :
    c = '+' ∨ c = '-' ∨ c ∈ (takeSign cs).2 := by
  unfold takeSign
  split
  · exact (List.mem_cons.mp h).imp_right .inr
  · exact .inr (List.mem_cons.mp h)
  · exact .inr (.inr h)

/-- A number in base ten is made of blanks, signs, digits and marks. -/
private theorem mem_of_readNumeral {text : String} {v : Int} (h : readNumeral .ten text = .ok v)
    {c : Char} (hc : c ∈ text.toList.map plainChar) :
    isBlank c ∨ c = '+' ∨ c = '-' ∨ isDigitOrMark .ten c := by
  cases hb : isBlank c with
  | true => exact .inl rfl
  | false =>
    right
    rcases mem_takeSign (mem_dropWhile_of_not hc hb) with hc | hc | hc
    · exact .inl hc
    · exact .inr (.inl hc)
    · right; right
      -- What is left after the sign is digits and marks, and blanks behind them.
      unfold readNumeral at h
      generalize takeSign ((text.toList.map plainChar).dropWhile isBlank) = p at h hc
      obtain ⟨minus, cs⟩ := p
      dsimp only at h hc
      rw [show dropMark .ten cs = cs from rfl] at h
      cases hd : isDigitOrMark .ten c with
      | true => rfl
      | false =>
        have hrest := mem_dropWhile_of_not hc hd
        split at h
        · simp at h
        · split at h
          · simp at h
          · split at h
            · simp at h
            · rename_i hn
              simp only [not_or, Bool.not_eq_true, Bool.not_eq_false', List.all_eq_true] at hn
              simp [hn.2 c hrest] at hb

/-- A number in base ten has neither an equals sign nor an angle bracket. -/
theorem not_mem_of_readNumeral {text : String} {v : Int} (h : readNumeral .ten text = .ok v) :
    '=' ∉ text.toList ∧ '<' ∉ text.toList := by
  constructor
  all_goals
    intro hc
    have hm := mem_of_readNumeral h (List.mem_map_of_mem (f := plainChar) hc)
    revert hm
    decide

end Text

namespace Java.Tree

def classNames (node : Tree) : List String :=
  match node.rule?, node.child? (.token .identifier) with
  | some .classDeclaration, some t => [t.text]
  | _, _ => []

private theorem classNames_of_ne {node : Tree} (h : node.rule? ≠ some .classDeclaration) :
    node.classNames = [] := by
  unfold classNames
  split
  · rename_i hr _
    exact absurd hr h
  · rfl

mutual

def variableNodes (names : List String) : Tree → List (List String × Tree)
  | .leaf .. => []
  | .missing _ => []
  | .node rule start stop fields children =>
    let node := Tree.node rule start stop fields children
    (if rule = .variableDeclarator then [(names, node)] else []) ++
      variableNodesAll (names ++ node.classNames) children

def variableNodesAll (names : List String) : List Tree → List (List String × Tree)
  | [] => []
  | t :: ts => t.variableNodes names ++ variableNodesAll names ts

end

/-- The number and the full name that a variable declares, if it has them. -/
def declared? (names : List String) (node : Tree) : Option (Int × String) :=
  match node.child? (.rule .variableDeclaratorId), node.child? (.rule .variableInitializer) with
  | some id, some value =>
    match readNumeral .ten value.text with
    | .ok n => some (n, ".".intercalate (names ++ [id.text]))
    | .error _ => none
  | _, _ => none

theorem mem_children_of_child? {node c : Tree} {part : Part} (h : node.child? part = some c) :
    c ∈ node.children ∧ part.holds c = true :=
  ⟨List.mem_of_find?_eq_some h, List.find?_some h⟩

theorem rule?_of_child? {node c : Tree} {r : Rule} (h : node.child? (.rule r) = some c) :
    c.rule? = some r := by
  have hr := (mem_children_of_child? h).2
  cases c with
  | node rule => simpa [Part.holds, isRule, rule?] using hr
  | leaf | missing => simp [Part.holds, isRule] at hr

private theorem mem_texts {c : Char} {ts : List Tree} :
    c ∈ (texts ts).toList ↔ ∃ t ∈ ts, c ∈ t.text.toList := by
  induction ts with
  | nil => simp [texts]
  | cons t ts ih => simp [texts, ih]

mutual

/-- The text of a node is part of the text of the tree. -/
private theorem mem_text_of_mem_nodes {n : Tree} {c : Char} (t : Tree) (hn : n ∈ t.nodes)
    (hc : c ∈ n.text.toList) : c ∈ t.text.toList := by
  cases t with
  | leaf | missing => simp [nodes] at hn
  | node rule start stop fields children =>
    rcases List.mem_cons.mp hn with rfl | hn
    · exact hc
    · exact mem_texts_of_mem_nodesAll children hn hc

private theorem mem_texts_of_mem_nodesAll {n : Tree} {c : Char} (ts : List Tree)
    (hn : n ∈ nodesAll ts) (hc : c ∈ n.text.toList) : c ∈ (texts ts).toList := by
  cases ts with
  | nil => simp [nodesAll] at hn
  | cons t ts =>
    simp only [texts, String.toList_append, List.mem_append]
    rcases List.mem_append.mp hn with hn | hn
    · exact .inl (mem_text_of_mem_nodes t hn hc)
    · exact .inr (mem_texts_of_mem_nodesAll ts hn hc)

end

private theorem IsEqualsSign.mem_text {t : Tree} (h : t.IsEqualsSign) :
    '=' ∈ t.text.toList ∨ '<' ∈ t.text.toList := by
  rcases h with ⟨u, stray, rfl, hu⟩ | ⟨k, rfl⟩
  · exact .inl (by simp [text, hu])
  · exact .inr (by simp [text, missingText])

/-- A tree in which no variable is declared. -/
def IsPlain (t : Tree) : Prop := t.Each fun n => n.rule? ≠ some .variableDeclarator

private theorem parts_variableDeclarator :
    Rule.parts .variableDeclarator = [.variableDeclaratorId, .variableInitializer] := by
  decide +kernel

private theorem parts_variableDeclaratorId : Rule.parts .variableDeclaratorId = [] := by
  decide +kernel

/-- Inside a variable whose value is a number no variable is declared. -/
private theorem isPlain_of_readNumeral {start : Token} {stop : Option Token}
    {fields : List (Field × Tree)} {children : List Tree} {value : Tree} {v : Int}
    (hb : (Tree.node .variableDeclarator start stop fields children).Each Parser.Built)
    (hvalue : (Tree.node .variableDeclarator start stop fields children).child?
      (.rule .variableInitializer) = some value)
    (hv : readNumeral .ten value.text = .ok v)
    (hall : ∀ c ∈ children, c.Each fun n => n.rule? = some .variableDeclarator →
      ∃ i, n.child? (.rule .variableInitializer) = some i) :
    ∀ c ∈ children, c.IsPlain := by
  intro c hc n hn hr
  obtain ⟨hbuilt, hchildren⟩ := each_node.mp hb
  cases c with
  | leaf | missing => simp [nodes] at hn
  | node rule start' stop' fields' children' =>
    have hrule := hbuilt.parts hc rfl
    simp only [parts_variableDeclarator, List.mem_cons, List.not_mem_nil, or_false] at hrule
    rcases hrule with rfl | rfl
    · -- A name has no nodes below it.
      have hname := (each_node.mp (hchildren _ hc)).1
      rcases List.mem_cons.mp hn with rfl | hn
      · simp [rule?] at hr
      · obtain ⟨d, hd, hn⟩ := mem_nodesAll.mp hn
        cases hrd : d.rule? with
        | none => exact (each_of_rule?_eq_none hrd : d.Each fun _ => False) n hn
        | some r => simpa [parts_variableDeclaratorId] using hname.parts hd hrd
    · obtain ⟨hm, -⟩ := mem_children_of_child? hvalue
      obtain rfl := (hbuilt.initializer hc rfl).2 value hm (rule?_of_child? hvalue)
      obtain ⟨i, hi⟩ := hall _ hc n hn hr
      have hbn := hchildren _ hc n hn
      cases n with
      | leaf | missing => simp [rule?] at hr
      | node rule start'' stop'' fields'' children'' =>
        obtain rfl : rule = .variableDeclarator := by simpa [rule?] using hr
        obtain ⟨him, -⟩ := mem_children_of_child? hi
        obtain ⟨⟨d, hd, hsign⟩, -⟩ := hbn.initializer him (rule?_of_child? hi)
        have hin {c : Char} (hc : c ∈ d.text.toList) : c ∈ (Tree.text _).toList :=
          mem_text_of_mem_nodes _ hn (mem_texts.mpr ⟨d, hd, hc⟩)
        obtain ⟨heq, hlt⟩ := not_mem_of_readNumeral hv
        exact hsign.mem_text.elim (fun hc => heq (hin hc)) (fun hc => hlt (hin hc))

mutual

/-- The variables are listed as they stand in the tree. -/
private theorem map_snd_variableNodes (names : List String) (t : Tree) :
    (t.variableNodes names).map Prod.snd = t.nodes.filter (isRule .variableDeclarator) := by
  cases t with
  | leaf | missing => rfl
  | node rule start stop fields children =>
    by_cases hr : rule = .variableDeclarator <;>
      simp [variableNodes, nodes, isRule, hr, map_snd_variableNodesAll _ children]

private theorem map_snd_variableNodesAll (names : List String) (ts : List Tree) :
    (variableNodesAll names ts).map Prod.snd = (nodesAll ts).filter (isRule .variableDeclarator) := by
  cases ts with
  | nil => rfl
  | cons t ts =>
    simp [variableNodesAll, nodesAll, map_snd_variableNodes names t, map_snd_variableNodesAll names ts]

end

mutual

private theorem variableNodes_of_isPlain (names : List String) (t : Tree) (h : t.IsPlain) :
    t.variableNodes names = [] := by
  cases t with
  | leaf | missing => rfl
  | node rule start stop fields children =>
    obtain ⟨hn, hc⟩ := each_node.mp h
    have hr : rule ≠ .variableDeclarator := by simpa [rule?] using hn
    simp [variableNodes, hr, variableNodesAll_of_isPlain _ children hc]

private theorem variableNodesAll_of_isPlain (names : List String) (ts : List Tree)
    (h : ∀ t ∈ ts, t.IsPlain) : variableNodesAll names ts = [] := by
  cases ts with
  | nil => rfl
  | cons t ts =>
    simp [variableNodesAll, variableNodes_of_isPlain names t (h t List.mem_cons_self),
      variableNodesAll_of_isPlain names ts fun u hu => h u (List.mem_cons_of_mem t hu)]

end

end Java.Tree

namespace Resource

open Java.Tree

namespace Table

def enterAll (entries : List (Int × String)) (t : Table) : Table :=
  entries.foldl (fun t e => t.insert e.1 e.2) t

def ids (t : Table) : List Int := t.map Prod.fst

private theorem get?_cons (id : Int) (e : Int × String) (t : Table) :
    get? (e :: t) id = if id = e.1 then some e.2 else t.get? id := by
  obtain ⟨id', name⟩ := e
  by_cases h : id = id'
  · simp [get?, h]
  · have hb : (id == id') = false := by simpa using h
    simp [get?, List.lookup_cons, hb, h]

theorem isSome_get?_of_mem {t : Table} {id : Int} (h : id ∈ t.ids) : (t.get? id).isSome := by
  induction t with
  | nil => simp [ids] at h
  | cons e es ih =>
    rw [get?_cons]
    split
    · rfl
    · rename_i hne
      rw [ids, List.map_cons, List.mem_cons] at h
      exact ih (h.resolve_left hne)

theorem get?_insert (id id' : Int) (name : String) (t : Table) :
    (t.insert id name).get? id' = if id' = id then some name else t.get? id' := by
  induction t with
  | nil => exact get?_cons id' (id, name) []
  | cons e es ih =>
    by_cases he : e.1 = id
    · by_cases h : id' = id <;> simp [insert, get?_cons, he, h]
    · by_cases h : id' = e.1 <;> simp [insert, get?_cons, he, h, ih]

/-- The latest name counts. -/
theorem get?_enterAll (entries : List (Int × String)) (t : Table) (id : Int) :
    (t.enterAll entries).get? id = (entries.reverse.lookup id).or (t.get? id) := by
  induction entries generalizing t with
  | nil => rfl
  | cons e es ih =>
    have hs := ih (t.insert e.1 e.2)
    simp only [enterAll, List.foldl_cons] at hs ⊢
    have hone : List.lookup id [e] = if id = e.1 then some e.2 else none := get?_cons id e []
    rw [hs, get?_insert, List.reverse_cons, List.lookup_append, hone]
    cases es.reverse.lookup id <;> by_cases h : id = e.1 <;> simp [h]

end Table

namespace Reader

variable {r : Reader} {node : Tree}

private theorem pushPart_ok {part : Part} (h : (r.pushPart node part).fault = none) :
    ∃ t, node.child? part = some t ∧ r.pushPart node part = .ok (r.push t.text) := by
  unfold pushPart at h ⊢
  split at h
  · exact ⟨_, by assumption, rfl⟩
  · simp [Visited.failed] at h

/-- Entering a node that is no variable adds the name of a class. -/
private theorem enter_of_ne (hn : node.rule? ≠ some .variableDeclarator)
    (h : (visitor.enter node r).fault = none) :
    (visitor.enter node r).state.names = r.names ++ node.classNames ∧
      (visitor.enter node r).state.table = r.table := by
  simp only [visitor] at h ⊢
  split at h
  · rename_i hr
    split at h
    · simp [Visited.ok, classNames, hr]
    · simp [Visited.failed] at h
  · rename_i hr
    obtain ⟨t, ht, he⟩ := pushPart_ok h
    simp [he, Visited.ok, push, classNames, hr, ht]
  · rename_i hr
    exact absurd hr hn
  · rename_i hc _
    simp [Visited.ok, classNames_of_ne hc]

/-- Leaving a node that is no variable drops the name of a class. -/
private theorem exit_of_ne (hn : node.rule? ≠ some .variableDeclarator)
    (he : (visitor.enter node r).fault = none) {r' : Reader}
    (hr : r'.names = r.names ++ node.classNames) :
    (visitor.exit node r').state.names = r.names ∧
      (visitor.exit node r').state.table = r'.table := by
  simp only [visitor] at he ⊢
  split
  · rename_i hc
    rw [hc] at he
    obtain ⟨t, ht, -⟩ := pushPart_ok he
    simp [Visited.ok, pop, hr, classNames, hc, ht]
  · rename_i hv
    exact absurd hv hn
  · rename_i hc _
    simp [Visited.ok, hr, classNames_of_ne hc]

private theorem enter_variable (hn : node.rule? = some .variableDeclarator)
    (h : (visitor.enter node r).fault = none) :
    ∃ id value, node.child? (.rule .variableDeclaratorId) = some id ∧
      node.child? (.rule .variableInitializer) = some value ∧
      (visitor.enter node r).state = { r with names := r.names ++ [id.text, value.text] } := by
  simp only [visitor, hn] at h ⊢
  obtain ⟨hid, he⟩ := Visited.andThen_ok h
  obtain ⟨id, hi, hid'⟩ := pushPart_ok hid
  rw [he, hid'] at h
  obtain ⟨value, hv, hvalue⟩ := pushPart_ok h
  rw [he, hid']
  exact ⟨id, value, hi, hv, by rw [hvalue]; simp [Visited.ok, push]⟩

private theorem exit_variable (hn : node.rule? = some .variableDeclarator) {names : List String}
    {id value : String} (hr : r.names = names ++ [id, value])
    (h : (visitor.exit node r).fault = none) :
    ∃ n, readNumeral .ten value = .ok n ∧ (visitor.exit node r).state.names = names ∧
      (visitor.exit node r).state.table = r.table.insert n (".".intercalate (names ++ [id])) := by
  have hlast : r.names.getLast?.getD "" = value := by simp [hr]
  have hpop : r.names.dropLast = names ++ [id] := by simp [hr]
  simp only [visitor, hn, enterValue, hlast] at h ⊢
  cases hv : readNumeral .ten value with
  | error e => simp [hv, Visited.failed] at h
  | ok n => exact ⟨n, rfl, by simp [Visited.ok, pop, hpop], by simp [Visited.ok, pop, hpop]⟩

/-- What a reader knows after a part of a tree: no name is left behind, and the variables declared
in it are entered in order. No variable is declared inside another one. -/
private structure Enters (r r' : Reader) (declared : List (List String × Tree))
    (nodes : List Tree) : Prop where
  names : r'.names = r.names
  table : ∃ entries, (declared.map fun d => d.2.declared? d.1) = entries.map some ∧
    r'.table = r.table.enterAll entries
  flat : ∀ n ∈ nodes, n.rule? = some .variableDeclarator → ∀ c ∈ n.children, c.IsPlain

mutual

private theorem enters_of_walk (t : Tree) {r : Reader} (hb : t.Each Parser.Built)
    (h : (t.walk visitor r).fault = none) :
    Enters r (t.walk visitor r).state (t.variableNodes r.names) t.nodes := by
  cases t with
  | leaf | missing => exact ⟨rfl, ⟨[], rfl, rfl⟩, by simp [nodes]⟩
  | node rule start stop fields children =>
    obtain ⟨he, hw, hx⟩ := walk_node_ok h
    have hall := enters_of_walkAll children (each_node.mp hb).2 hw
    rw [hx] at h ⊢
    by_cases hv : rule = .variableDeclarator
    · subst hv
      obtain ⟨id, value, hid, hvalue, hs⟩ := enter_variable rfl he
      obtain ⟨n, hnum, hnames', htable'⟩ :=
        exit_variable rfl (hall.names.trans (congrArg Reader.names hs)) h
      have hplain := isPlain_of_readNumeral hb hvalue hnum fun c hc =>
        (enter_ok_of_walkAll children hw c hc).mono fun m ⟨r', hm⟩ hr =>
          let ⟨_, i, _, hi, _⟩ := enter_variable hr hm
          ⟨i, hi⟩
      -- Nothing is entered between the two visits.
      obtain ⟨entries, hmap, ht⟩ := hall.table
      rw [variableNodesAll_of_isPlain _ children hplain] at hmap
      obtain rfl : entries = [] := by simpa using hmap
      refine ⟨hnames', ⟨[(n, ".".intercalate (r.names ++ [id.text]))], ?_, ?_⟩, ?_⟩
      · simp [variableNodes, variableNodesAll_of_isPlain _ children hplain, declared?, hid, hvalue, hnum]
      · rw [htable', ht, hs]
        rfl
      · intro m hm hr
        rcases List.mem_cons.mp hm with rfl | hm
        · exact hplain
        · obtain ⟨c, hc, hm⟩ := mem_nodesAll.mp hm
          exact absurd hr (hplain c hc m hm)
    · have hn : (Java.Tree.node rule start stop fields children).rule? ≠ some .variableDeclarator := by
        simpa [rule?] using hv
      obtain ⟨hnames, htable⟩ := enter_of_ne hn he
      obtain ⟨hnames', htable'⟩ := exit_of_ne hn he (hall.names.trans hnames)
      obtain ⟨entries, hmap, ht⟩ := hall.table
      refine ⟨hnames', ⟨entries, ?_, ?_⟩, ?_⟩
      · simpa [variableNodes, hv, hnames] using hmap
      · rw [htable', ht, htable]
      · intro n hm hr
        rcases List.mem_cons.mp hm with rfl | hm
        · exact absurd hr hn
        · exact hall.flat n hm hr

private theorem enters_of_walkAll (ts : List Tree) {r : Reader}
    (hb : ∀ t ∈ ts, t.Each Parser.Built) (h : (walkAll visitor ts r).fault = none) :
    Enters r (walkAll visitor ts r).state (variableNodesAll r.names ts) (nodesAll ts) := by
  cases ts with
  | nil => exact ⟨rfl, ⟨[], rfl, rfl⟩, by simp [nodesAll]⟩
  | cons t ts =>
    obtain ⟨ht, hs⟩ := walkAll_cons_ok h
    have hone := enters_of_walk t (hb t List.mem_cons_self) ht
    have hrest := enters_of_walkAll ts (fun u hu => hb u (List.mem_cons_of_mem t hu)) (hs ▸ h)
    rw [hs]
    obtain ⟨es, hes, hte⟩ := hone.table
    obtain ⟨fs, hfs, htf⟩ := hrest.table
    refine ⟨hrest.names.trans hone.names, ⟨es ++ fs, ?_, ?_⟩, ?_⟩
    · rw [hone.names] at hfs
      simp [variableNodesAll, hes, hfs]
    · rw [htf, hte]
      simp [Table.enterAll]
    · intro n hm
      rcases List.mem_append.mp hm with hm | hm
      · exact hone.flat n hm
      · exact hrest.flat n hm

end

/-- A walk that ends without a fault has entered the declared variables one after another. -/
theorem exists_entries_of_read {session : Session} (hs : session.Reachable) (text : String)
    (r : Reader) {tree : Tree}
    (ht : tree = ((Parser.ofSource (.ofString text) session.widened).compilationUnit).1)
    (h : (r.read tree).fault = none) :
    ∃ entries, ((tree.variableNodes r.names).map fun d => d.2.declared? d.1) = entries.map some ∧
      (r.read tree).state.table = r.table.enterAll entries := by
  have hb : tree.Each Parser.Built := by
    rw [ht]
    exact Parser.each_built_parse .compilationUnit (Parser.regular_ofSource text hs.widened)
  exact (enters_of_walk tree hb h).table

def doubledWords : List (Kind × String) :=
  [(.kwClass, "class"), (.identifier, "R"), (.lbrace, "\x7b"), (.kwClass, "class"), (.identifier, "id"),
    (.lbrace, "\x7b"), (.kwInt, "int"), (.identifier, "a"), (.assign, "="), (.decimalLiteral, "1"),
    (.comma, ","), (.identifier, "b"), (.assign, "="), (.decimalLiteral, "2"), (.semi, ";"),
    (.rbrace, "\x7d"), (.kwInt, "int"), (.identifier, "c"), (.assign, "="), (.decimalLiteral, "1"),
    (.semi, ";"), (.rbrace, "\x7d")]

def variableOutline : Outline :=
  .node .variableDeclarator [.node .variableDeclaratorId [.leaf .identifier], .leaf .assign,
    .node .variableInitializer [.node .expression [.node .primary [.node .literal
      [.node .integerLiteral [.leaf .decimalLiteral]]]]]]

def fieldOutline (declarators : List Outline) : Outline :=
  .node .classBodyDeclaration [.node .memberDeclaration [.node .fieldDeclaration
    [.node .typeType [.node .primitiveType [.leaf .kwInt]], .node .variableDeclarators declarators,
      .leaf .semi]]]

def classOutline (members : List Outline) : Outline :=
  .node .classDeclaration [.leaf .kwClass, .leaf .identifier,
    .node .classBody (.leaf .lbrace :: (members ++ [.leaf .rbrace]))]

def doubledOutline : Outline :=
  .node .compilationUnit [.node .typeDeclaration [classOutline
    [.node .classBodyDeclaration [.node .memberDeclaration [classOutline
      [fieldOutline [variableOutline, .leaf .comma, variableOutline]]]], fieldOutline [variableOutline]]],
    .leaf .eof]

private theorem ways_doubled : (Grammar.body .compilationUnit).ways none (Rule.ways none 30) .compilationUnit
    ((doubledWords.map Prod.fst ++ [Kind.eof]).map some) = some [(doubledOutline, [])] := by
  decide +kernel

/-- From a text with these words its three variables are entered. -/
theorem read_doubled {session : Session} (hs : session.Reachable) {text : String}
    (hw : ((Source.words text).filter Token.isVisible).map Token.word = doubledWords) {tree : Tree}
    (ht : tree = ((Parser.ofSource (.ofString text) session.widened).parse .compilationUnit).1) (r : Reader) :
    r.read tree = .ok { r with
      table := ((r.table.insert 1 (".".intercalate (r.names ++ ["R", "id", "a"]))).insert 2
        (".".intercalate (r.names ++ ["R", "id", "b"]))).insert 1 (".".intercalate (r.names ++ ["R", "c"])) } := by
  have hone : readNumeral .ten "1" = .ok 1 := by decide +kernel
  have htwo : readNumeral .ten "2" = .ok 2 := by decide +kernel
  obtain ⟨last, hbare⟩ := hs.bare_of_ways hw (by decide) ways_doubled rfl ht
  rw [read, ← walk_bare, hbare]
  simp only [doubledOutline, doubledWords, classOutline, fieldOutline, variableOutline, Outline.grow,
    Outline.growAll, List.map_cons, List.headD_cons, List.map_nil, List.tail_cons, List.cons_append,
    List.nil_append, Tree.ofWord]
  simp [walk_plain, walk_leaf, walkAll_nil, walkAll_cons, walk_class, walk_number, hone, htwo, push, pop,
    Tree.bare]

/-- The words of a class with two declarations of the number one. -/
theorem visible_doubled : ((Source.words "class R\x7bclass id\x7bint a=1,b=2;\x7dint c=1;\x7d").filter
    Token.isVisible).map Token.word = doubledWords := by
  decide +kernel

end Reader

end Resource

end ResourceNames
