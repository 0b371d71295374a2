import Mathlib.Data.Int.ModEq
import ResourceNames.Proofs.ReadSamples
import ResourceNames.Proofs.StoppedWalks

/-!
Numbers that are declared with a sign.

A file of resources declares numbers in base ten, where a number may have a sign. The sources use numbers
in base sixteen, which never have one: the negative numbers of 32 bits stand there by the numbers that
are greater by `2 ^ 32`. A table keeps the numbers as they are declared. So the names of numbers that are
not negative are found again, and the names of negative ones are not.
-/
namespace ResourceNames

open Java Resource Text

namespace Java.Tree

/-- The last of the variables in a tree that declare a number gives it a name. -/
def DeclaresLast (tree : Java.Tree) (id : Int) (name : String) : Prop :=
  ∃ before d after, tree.variableNodes [] = before ++ d :: after ∧ d.2.declared? d.1 = some (id, name) ∧
    ∀ d' ∈ after, (d'.2.declared? d'.1).map Prod.fst ≠ some id

private theorem lookup_reverse_eq_some_iff {entries : List (Int × String)} {id : Int} {name : String} :
    entries.reverse.lookup id = some name ↔
      ∃ es fs, entries = es ++ (id, name) :: fs ∧ ∀ e ∈ fs, e.1 ≠ id := by
  rw [List.lookup_eq_some_iff]
  constructor
  · rintro ⟨fs, es, h, hfs⟩
    refine ⟨es.reverse, fs.reverse, ?_, fun e he => ?_⟩
    · rw [← List.reverse_reverse entries, h]
      simp
    · exact Ne.symm (bne_iff_ne.mp (hfs e (List.mem_reverse.mp he)))
  · rintro ⟨es, fs, rfl, hfs⟩
    refine ⟨fs.reverse, es.reverse, by simp, fun e he => ?_⟩
    exact bne_iff_ne.mpr (Ne.symm (hfs e (List.mem_reverse.mp he)))

theorem declaresLast_iff {tree : Java.Tree} {entries : List (Int × String)}
    (h : ((tree.variableNodes []).map fun d => d.2.declared? d.1) = entries.map some) {id : Int}
    {name : String} : entries.reverse.lookup id = some name ↔ tree.DeclaresLast id name := by
  rw [lookup_reverse_eq_some_iff]
  constructor
  · rintro ⟨es, fs, rfl, hfs⟩
    rw [List.map_append, List.map_cons] at h
    obtain ⟨before, rest, hnodes, -, hrest⟩ := List.map_eq_append_iff.mp h
    obtain ⟨d, after, rfl, hd, hafter⟩ := List.map_eq_cons_iff.mp hrest
    refine ⟨before, d, after, hnodes, hd, fun d' hd' hid => ?_⟩
    have hmem : d'.2.declared? d'.1 ∈ fs.map some := hafter ▸ List.mem_map_of_mem hd'
    obtain ⟨e, he, hde⟩ := List.mem_map.mp hmem
    rw [← hde] at hid
    exact hfs e he (Option.some.inj hid)
  · rintro ⟨before, d, after, hnodes, hd, hafter⟩
    rw [hnodes, List.map_append, List.map_cons, hd] at h
    obtain ⟨es, rest, rfl, -, hrest⟩ := List.map_eq_append_iff.mp h.symm
    obtain ⟨e, fs, rfl, he, hfs⟩ := List.map_eq_cons_iff.mp hrest
    obtain rfl := Option.some.inj he
    refine ⟨es, fs, rfl, fun e he hid => ?_⟩
    obtain ⟨d', hd', hde⟩ := List.mem_map.mp (hfs ▸ List.mem_map_of_mem he : some e ∈ _)
    exact hafter d' hd' (by rw [hde, Option.map_some, hid])

private theorem classNames_bare (t : Java.Tree) : t.bare.classNames = t.classNames := by
  rw [classNames, classNames, Reader.rule?_bare, Reader.child?_bare]
  cases t.child? (.token .identifier) with
  | none => rfl
  | some c =>
    rw [Option.map_some]
    split
    · rename_i hr hc
      rw [hr, ← Option.some.inj hc]
      exact congrArg (fun text => [text]) (Reader.text_bare c)
    · rename_i hne
      split
      · rename_i hr _
        exact absurd rfl (hne _ hr)
      · rfl

/-- The variables of a tree do not depend on places. -/
private theorem variableNodes_bare (t : Java.Tree) (names : List String) :
    t.bare.variableNodes names = (t.variableNodes names).map fun d => (d.1, d.2.bare) := by
  induction t using Tree.ofChildren generalizing names with
  | leaf | missing => rfl
  | node rule start stop fields children ih =>
    have hall : ∀ names, variableNodesAll names (children.map bare) =
        (variableNodesAll names children).map fun d => (d.1, d.2.bare) := by
      clear start stop fields
      induction children with
      | nil => exact fun _ => rfl
      | cons c cs ih' =>
        rw [List.forall_mem_cons] at ih
        intro names
        rw [List.map_cons, variableNodesAll, variableNodesAll, ih.1, ih' ih.2, List.map_append]
    have hnames := classNames_bare (.node rule start stop fields children)
    rw [bare, bareAll_eq_map] at hnames ⊢
    simp only [variableNodes, hnames, hall, List.map_append]
    split <;> simp [bare, bareAll_eq_map]

end Java.Tree

namespace Resource.Restorer

variable {table : Table} {package : Option String} {tree : Tree} {program : Program}

/-- The replacements that are made are those for the numbers in the table. -/
theorem Restores.mem_replace_iff (h : Restores table package tree program) {i j : Nat} {name : String} :
    some (.replace i j name) ∈ program ↔ ∃ x ∈ table.hits tree, naming x = .replace i j name := by
  cases h with
  | plain => simp [replacement]
  | importing _ _ _ _ _ hits => simp [replacement, hits, or_and_right, exists_or]

end Resource.Restorer

namespace Session

/-- A number is read from its token unless it is spoilt. -/
private theorem readNumeral_token {text : String} {t : Token} (ht : t ∈ (sourceOf text).tokens.toList)
    (hk : t.kind = .hexLiteral) (hspoilt : ¬ IsSpoilt t.text.toList) :
    readNumeral .sixteen t.text = .ok (hexValue t.text.toList) := by
  rw [sourceOf, Source.toList_tokens_ofString] at ht
  rcases List.mem_append.mp ht with hword | hend
  · rw [readNumeral_of_hexLiteral (hk ▸ (Source.isWord_of_mem_words hword).2), if_neg hspoilt]
  · rw [List.mem_singleton.mp hend] at hk
    cases hk

/-- A file without mistakes and spoilt numbers is restored number by number: each gets the name that the
table has for its value, and stays if there is none. -/
theorem Opens.restores_numbers {s : Session} (hs : s.Reachable) {text : String} {given : Option Table}
    {package : Option String} {wantsImport : Bool} {o : Opened}
    (ho : Opens s text given package wantsImport o) (hreports : o.parser.reports = [])
    (hunspoilt : ∀ t ∈ (sourceOf text).tokens.toList, t.kind = .hexLiteral →
      ¬ IsSpoilt t.text.toList) :
    ∃ r, ((s.openFile text given package wantsImport).session.restore o).result = (r, none) ∧
      ∀ t ∈ (sourceOf text).tokens.toList, t.kind = .hexLiteral → ∀ name,
        some (.replace t.index t.index name) ∈ r.program ↔
          (s.tableFor given).get? (hexValue t.text.toList) = some name := by
  have hread : ∀ t ∈ (sourceOf text).tokens.toList, t.kind = .hexLiteral →
      readNumeral .sixteen t.text = .ok (hexValue t.text.toList) :=
    fun t ht hk => readNumeral_token ht hk (hunspoilt t ht hk)
  have hreadable : Readable o.tree.numbers := by
    intro t ht hk
    have hmem := (List.mem_filter.mp ((numbers_of_source _ hs.widened ho.tree).subset ht)).1
    exact ⟨_, hread t hmem hk⟩
  obtain ⟨r, hr, hrestores, -⟩ := Restorer.restores_unit (s.tableFor given)
    (Parser.regular_ofSource _ hs.widened) ho.tree hreadable (s.packageFor package wantsImport)
  refine ⟨r, (ho.restore hr).1, fun t ht hk name => ?_⟩
  have hhits : (s.tableFor given).hits o.tree =
      (sourceOf text).tokens.toList.filterMap (s.tableFor given).named? :=
    hits_of_calm (s.tableFor given) _ hs.widened ho.tree (ho.parser ▸ hreports)
  have hnamed : (s.tableFor given).named? t =
      ((s.tableFor given).get? (hexValue t.text.toList)).map fun name => (t, name) := by
    rw [Table.named?, if_pos hk, hread t ht hk]
  rw [hrestores.mem_replace_iff, hhits]
  constructor
  · rintro ⟨x, hx, hnaming⟩
    obtain ⟨u, hu, hux⟩ := List.mem_filterMap.mp hx
    obtain ⟨rfl, -⟩ := Table.eq_of_named? hux
    obtain ⟨hindex, -, rfl⟩ := Edit.replace.inj hnaming
    -- No other token has the number of this one.
    rw [Source.eq_of_index_eq hu ht hindex, hnamed, Option.map_eq_some_iff] at hux
    obtain ⟨name, hname, hx⟩ := hux
    rw [hname, ← hx]
  · intro hname
    exact ⟨(t, name), List.mem_filterMap.mpr ⟨t, ht, by rw [hnamed, hname, Option.map_some]⟩, rfl⟩

def resourceTree (s : Session) (text : String) : Java.Tree :=
  ((Parser.ofSource (sourceOf text) s.widened).compilationUnit).1

theorem result_readResources (s : Session) (text : String) :
    (s.readResources text).result = ({ s.reader with package := "" }.read (s.resourceTree text)).fault := rfl

theorem resourceTree_eq (s : Session) (text : String) : s.resourceTree text =
    ((Parser.ofSource (sourceOf text) s.widened).parse .compilationUnit).1 := rfl

/-- The first file of resources gives to each number the name with which it was declared last. -/
theorem Reachable.get?_readResources {s : Session} (hs : s.Reachable) (hnames : s.reader.names = [])
    (htable : s.reader.table = []) {text : String} (hread : (s.readResources text).result = none)
    (id : Int) (name : String) :
    ((s.readResources text).session.tableFor none).get? id = some name ↔
      (s.resourceTree text).DeclaresLast id name := by
  obtain ⟨entries, hentries, hstate⟩ := Reader.exists_entries_of_read hs _
    { s.reader with package := "" } rfl hread
  have hget : ((s.readResources text).session.tableFor none).get? id = entries.reverse.lookup id := by
    refine (congrArg (Table.get? · id) hstate).trans ((Table.get?_enterAll ..).trans ?_)
    rw [htable]
    cases entries.reverse.lookup id <;> rfl
  have hdeclared : (((s.resourceTree text).variableNodes []).map fun d => d.2.declared? d.1) =
      entries.map some := by
    rw [← hnames]
    exact hentries
  rw [hget, Tree.declaresLast_iff hdeclared]

/-- The number of 32 bits without a sign that stands for a number with one. -/
private theorem eq_of_modEq {h : Nat} {v : Int} (hlt : h < 2 ^ 32) (hv : -2 ^ 31 ≤ v ∧ v < 2 ^ 31)
    (hmod : (h : Int) ≡ v [ZMOD 2 ^ 32]) : (h : Int) = if 0 ≤ v then v else v + 2 ^ 32 := by
  rw [Int.modEq_iff_dvd] at hmod
  obtain ⟨k, hk⟩ := hmod
  split <;> omega

/-- Every number of 32 bits is read from its digits in base ten. -/
private theorem readNumeral_int {v : Int} (hv : -2 ^ 31 ≤ v ∧ v < 2 ^ 31) :
    readNumeral .ten (toString v) = .ok v := by
  have hdigits : (Nat.toDigits 10 v.natAbs).length ≤ 10 := by
    rw [Nat.length_toDigits_le_iff (by decide) (by decide)]
    omega
  rw [readNumeral_toString, if_pos (hdigits.trans (by decide))]

/-- A variable whose value has the digits of a number of 32 bits declares this number. -/
private theorem declared?_int {node : Java.Tree} {id : String} {v : Int} (hv : -2 ^ 31 ≤ v ∧ v < 2 ^ 31)
    (hid : (node.child? (.rule .variableDeclaratorId)).map Tree.text = some id)
    (hvalue : (node.child? (.rule .variableInitializer)).map Tree.text = some (toString v))
    (names : List String) : node.declared? names = some (v, ".".intercalate (names ++ [id])) := by
  obtain ⟨name, hname?, hname⟩ := Option.map_eq_some_iff.mp hid
  obtain ⟨value, hvalue?, hvalue⟩ := Option.map_eq_some_iff.mp hvalue
  simp only [Tree.declared?, hname?, hvalue?, hvalue, readNumeral_int hv, hname]

/-- A number of 32 bits that is declared last as `R.a` is restored wherever it is used, if it is not
negative. A negative number stands in the sources as a number that is greater by `2 ^ 32`, and it is only
restored if that one is declared itself. -/
theorem restores_declared_number {s : Session} (hs : s.Reachable) (hnames : s.reader.names = [])
    (htable : s.reader.table = []) {resources : String} (hread : (s.readResources resources).result = none)
    {v : Int} (hv : -2 ^ 31 ≤ v ∧ v < 2 ^ 31) {before after : List (List String × Java.Tree)}
    {node : Java.Tree}
    (hdeclared : (s.resourceTree resources).variableNodes [] = before ++ (["R"], node) :: after)
    (hid : (node.child? (.rule .variableDeclaratorId)).map Tree.text = some "a")
    (hvalue : (node.child? (.rule .variableInitializer)).map Tree.text = some (toString v))
    (hlast : ∀ d ∈ after, (d.2.declared? d.1).map Prod.fst ≠ some v)
    {text : String} {package : Option String} {wantsImport : Bool} {o : Opened}
    (ho : ((s.readResources resources).session.openFile text none package wantsImport).session.opened =
      some o) (hreports : o.parser.reports = [])
    (hunspoilt : ∀ t ∈ (sourceOf text).tokens.toList, t.kind = .hexLiteral → ¬ IsSpoilt t.text.toList) :
    ∃ r, (((s.readResources resources).session.openFile text none package wantsImport).session.restore
        o).result = (r, none) ∧
      ∀ t ∈ (sourceOf text).tokens.toList, t.kind = .hexLiteral → hexValue t.text.toList < 2 ^ 32 →
        (hexValue t.text.toList : Int) ≡ v [ZMOD 2 ^ 32] →
          (0 ≤ v → some (.replace t.index t.index "R.a") ∈ r.program) ∧
          (v < 0 → ∀ name, some (.replace t.index t.index name) ∈ r.program ↔
            (s.resourceTree resources).DeclaresLast (v + 2 ^ 32) name) := by
  obtain ⟨r, hr, hprogram⟩ := (opens_of_opened ho).restores_numbers (hs.readResources resources) hreports
    hunspoilt
  refine ⟨r, hr, fun t ht hk hlt hmod => ?_⟩
  have hnumber := eq_of_modEq hlt hv hmod
  simp only [hprogram t ht hk, hs.get?_readResources hnames htable hread, hnumber]
  refine ⟨fun hpos => ?_, fun hneg name => ?_⟩
  · rw [if_pos hpos]
    exact ⟨before, _, after, hdeclared, declared?_int hv hid hvalue ["R"], hlast⟩
  · rw [if_neg (by omega)]

/-! A class that declares a negative number, and one that uses it. -/

def negativeWords : List (Kind × String) :=
  [(.kwClass, "class"), (.identifier, "R"), (.lbrace, "\x7b"), (.kwInt, "int"), (.identifier, "a"),
    (.assign, "="), (.sub, "-"), (.decimalLiteral, "1"), (.semi, ";"), (.rbrace, "\x7d")]

def negativeOutline : Outline :=
  .node .compilationUnit
    [.node .typeDeclaration [.node .classDeclaration [.leaf .kwClass, .leaf .identifier,
      .node .classBody [.leaf .lbrace, .node .classBodyDeclaration [.node .memberDeclaration
        [.node .fieldDeclaration [.node .typeType [.node .primitiveType [.leaf .kwInt]],
          .node .variableDeclarators [.node .variableDeclarator
            [.node .variableDeclaratorId [.leaf .identifier], .leaf .assign,
              .node .variableInitializer [.node .expression [.leaf .sub, .node .expression
                [.node .primary [.node .literal [.node .integerLiteral [.leaf .decimalLiteral]]]]]]]],
          .leaf .semi]]], .leaf .rbrace]]], .leaf .eof]

private theorem ways_negative : (Grammar.body .compilationUnit).ways none (Rule.ways none 30) .compilationUnit
    ((negativeWords.map Prod.fst ++ [Kind.eof]).map some) = some [(negativeOutline, [])] := by
  decide +kernel

private theorem ways_unsigned : ((Grammar.body .compilationUnit).ways none (Rule.ways none 30) .compilationUnit
    (([.kwClass, .identifier, .lbrace, .kwInt, .identifier, .assign, .hexLiteral, .semi, .rbrace,
      .eof] : List Kind).map some)).isWhole = true := by
  decide +kernel

def variableOf (name equals sign digits : String) : Java.Tree :=
  .node .variableDeclarator default none []
    [.node .variableDeclaratorId default none [] [Tree.ofWord (.identifier, name)],
      Tree.ofWord (.assign, equals), .node .variableInitializer default none []
        [.node .expression default none [] [Tree.ofWord (.sub, sign), .node .expression default none []
          [.node .primary default none [] [.node .literal default none []
            [.node .integerLiteral default none [] [Tree.ofWord (.decimalLiteral, digits)]]]]]]]

/-- What is in the tree of the class. -/
private theorem negative_facts (last : Token) {t : Java.Tree}
    (ht : t = (negativeOutline.grow (negativeWords.map Tree.ofWord ++ [(Tree.leaf last false).bare])).1) :
    t.variableNodes [] = [(["R"], variableOf "a" "=" "-" "1")] ∧ ∀ r, (t.walk Reader.visitor r).fault = none := by
  simp only [negativeOutline, negativeWords, Outline.grow, Outline.growAll, List.map_cons, List.headD_cons,
    List.map_nil, List.tail_cons, List.cons_append, List.nil_append] at ht
  subst ht
  constructor
  · simp [Tree.variableNodes, Tree.variableNodesAll, Tree.classNames, Tree.rule?, Tree.child?, Tree.children,
      Part.holds, Tree.isKind, Tree.ofWord, Tree.text, Tree.bare, variableOf]
  · intro r
    have hvalue : readNumeral .ten "-1" = .ok (-1) := by decide +kernel
    simp only [Tree.ofWord]
    simp [Reader.walk_plain, Reader.walk_leaf, Reader.walkAll_nil, Reader.walkAll_cons, Reader.walk_class, Tree.bare]
    rw [Reader.walk_variable rfl rfl rfl]
    · simp [Tree.text, Tree.texts, Reader.enterValue, Reader.push, hvalue]
      rfl
    · simp [Reader.walk_plain, Reader.walk_leaf, Reader.walkAll_nil, Reader.walkAll_cons]

/-- The class is read without a fault, and its only variable is declared in it. -/
private theorem declares_negative {resources : String}
    (h : ((Source.words (String.ofList (unifyNewlines resources.toList))).filter Token.isVisible).map Token.word =
      negativeWords) :
    (({} : Session).readResources resources).result = none ∧
      ∃ node, (({} : Session).resourceTree resources).variableNodes [] = [(["R"], node)] ∧
        node.bare = variableOf "a" "=" "-" "1" := by
  obtain ⟨last, hbare⟩ := Reachable.start.bare_of_ways h (by decide) ways_negative rfl
    (resourceTree_eq ({} : Session) resources)
  obtain ⟨hnodes, hwalk⟩ := negative_facts last hbare
  constructor
  · rw [result_readResources, Reader.read, ← Reader.walk_bare]
    exact hwalk _
  · rw [Tree.variableNodes_bare] at hnodes
    obtain ⟨⟨names, node⟩, hvariables, hnode⟩ := List.map_eq_singleton_iff.mp hnodes
    obtain ⟨rfl, hnode⟩ := Prod.mk.inj hnode
    exact ⟨node, hvariables, hnode⟩

private theorem text_child? {node : Java.Tree} (h : node.bare = variableOf "a" "=" "-" "1") :
    (node.child? (.rule .variableDeclaratorId)).map Tree.text = some "a" ∧
      (node.child? (.rule .variableInitializer)).map Tree.text = some (toString (-1 : Int)) := by
  have hbare : ∀ part, (node.child? part).map Tree.text = (node.bare.child? part).map Tree.text := by
    intro part
    rw [Reader.child?_bare, Option.map_map]
    exact congrArg (Option.map · _) (funext fun c => (Reader.text_bare c).symm)
  rw [hbare, hbare, h]
  exact ⟨rfl, rfl⟩

/-- A class declares `R.a` as a negative number, and a source with this number stays as it is. -/
theorem negative_number_stays : ∃ o r,
    ((({} : Session).readResources "class R\x7bint a=-1;\x7d").session.openFile
      "class A\x7bint b=0xFFFFFFFF;\x7d" none none false).session.opened = some o ∧
    (((({} : Session).readResources "class R\x7bint a=-1;\x7d").session.openFile
      "class A\x7bint b=0xFFFFFFFF;\x7d" none none false).session.restore o).result = (r, none) ∧
    ∀ t ∈ (sourceOf "class A\x7bint b=0xFFFFFFFF;\x7d").tokens.toList, t.kind = .hexLiteral →
      hexValue t.text.toList = 2 ^ 32 - 1 ∧ ∀ name, some (.replace t.index t.index name) ∉ r.program := by
  generalize hresources : "class R\x7bint a=-1;\x7d" = resources
  generalize htext : "class A\x7bint b=0xFFFFFFFF;\x7d" = text
  have hwords : ((Source.words (String.ofList (unifyNewlines resources.toList))).filter Token.isVisible).map
      Token.word = negativeWords := by
    subst hresources
    decide +kernel
  obtain ⟨hkinds, hnumber⟩ :
      ((sourceOf text).tokens.toList.filter Token.isVisible).map Token.kind = [.kwClass, .identifier, .lbrace,
        .kwInt, .identifier, .assign, .hexLiteral, .semi, .rbrace, .eof] ∧
      ∀ t ∈ (sourceOf text).tokens.toList, t.kind = .hexLiteral → t.text.toList = "0xFFFFFFFF".toList := by
    subst htext
    decide +kernel
  obtain ⟨hread, node, hnodes, hnode⟩ := declares_negative hwords
  obtain ⟨o, ho⟩ := exists_opens (({} : Session).readResources resources).session text none none false
  have hreports : o.parser.reports = [] := by
    rw [ho.parser]
    exact (Reachable.start.readResources resources).no_report_of_ways hkinds ways_unsigned
  have hdeclared : (({} : Session).resourceTree resources).variableNodes [] =
      [] ++ (["R"], node) :: [] := hnodes
  obtain ⟨r, hr, hprogram⟩ := restores_declared_number Reachable.start rfl rfl hread (v := -1) (by decide)
    hdeclared (text_child? hnode).1 (text_child? hnode).2 (by simp) ho.session hreports
    fun t ht hk => by rw [hnumber t ht hk]; decide +kernel
  refine ⟨o, r, ho.session, hr, fun t ht hk => ?_⟩
  have hvalue : hexValue t.text.toList = 2 ^ 32 - 1 := by
    rw [hnumber t ht hk]
    decide +kernel
  obtain ⟨-, hneg⟩ := hprogram t ht hk (by omega) (by
    rw [hvalue, Int.modEq_iff_dvd]
    norm_num)
  refine ⟨hvalue, fun name => ?_⟩
  rw [hneg (by decide)]
  rintro ⟨before, d, after, hd, hnumbered, -⟩
  obtain rfl : d = (["R"], node) := List.mem_singleton.mp (hnodes ▸ hd ▸ by simp)
  rw [declared?_int (by decide) (text_child? hnode).1 (text_child? hnode).2] at hnumbered
  exact absurd (congrArg Prod.fst (Option.some.inj hnumbered)) (by norm_num)

end Session

end ResourceNames
