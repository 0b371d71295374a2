import ResourceNames.Proofs.Restoration

/-!
Files without a package that are gone through again and again.

Whatever else happens in a session, such a file is edited only by putting names in place of its
numbers, and every walk may do so once more. As there is no import, the file can be written as long
as it has no edit; to write it changes nothing.
-/
namespace ResourceNames

open Java Text

namespace Resource.Restorer

/-- What comes of writing tokens, names having been put in place of some of them one after
another. -/
def writing (tokens : List Token) : List (Token × String) → Except ProgramError String
  | [] => .ok (String.join (tokens.map Program.written))
  | [_] => .error .noInsertion
  | h :: h' :: _ => .error (if h.1.index = h'.1.index then .replacedAgain else .replacedElsewhere)

variable {tokens : List Token} {hits : List (Token × String)}

private theorem clash?_replacements {h h' : Token × String} :
    Program.clash? ((h :: h' :: hits).map replacement) =
      some (if h.1.index = h'.1.index then .replacedAgain else .replacedElsewhere) := by
  have hranges := ranges_replacements (h :: h' :: hits)
  simp only [List.map_cons] at hranges
  simp only [Program.clash?, List.map_cons, hranges]
  have hle : h'.1.index ≤ h.1.index ∧ h.1.index ≤ h'.1.index ↔ h.1.index = h'.1.index := by omega
  simp only [hle]

private theorem text_of_one_name (h : Token × String) (start stop : Int) :
    Program.text tokens start stop [replacement h] = ([replacement h], .error .noInsertion) := by
  rw [Program.text_of_no_insertion]
  all_goals simp [replacement, Program.ranges, Program.edits, naming, Edit.range?, Edit.isInsert]

/-- A program that only puts names in place of tokens stays as it is. -/
theorem text_replacements_fst (start stop : Int) :
    (Program.text tokens start stop (hits.map replacement)).1 = hits.map replacement := by
  match hits with
  | [] => simp [Program.text]
  | [h] => rw [List.map_singleton, text_of_one_name]
  | h :: h' :: hits => rw [Program.text_of_clash clash?_replacements]

theorem text_replacements :
    Program.text tokens 0 ((tokens.length : Int) - 1) (hits.map replacement) =
      (hits.map replacement, writing tokens hits) := by
  match hits with
  | [] => exact Program.text_nil
  | [h] => exact text_of_one_name h _ _
  | h :: h' :: hits => exact Program.text_of_clash clash?_replacements _ _

/-- A restorer has done nothing but put names in place of numbers among some tokens. -/
def OnlyNames (tokens : List Token) (r : Restorer) : Prop :=
  ∃ hits : List (Token × String), r.program = hits.map replacement ∧ r.count = hits.length ∧
    ∀ h ∈ hits, h.1 ∈ tokens ∧ h.1.kind = .hexLiteral

theorem OnlyNames.record {r : Restorer} (hr : r.OnlyNames tokens) {t : Token} (ht : t ∈ tokens)
    (hk : t.kind = .hexLiteral) (name : String) : (r.record [(t, name)]).OnlyNames tokens := by
  obtain ⟨hits, hprogram, hcount, hall⟩ := hr
  refine ⟨hits ++ [(t, name)], by simp [Restorer.record, hprogram], by simp [Restorer.record, hcount], ?_⟩
  intro h hm
  rcases List.mem_append.mp hm with hm | hm
  · exact hall h hm
  · obtain rfl := List.mem_singleton.mp hm
    exact ⟨ht, hk⟩

/-- A number is left as it is or replaced by a name, also if it cannot be read. -/
private theorem literal_cases (table : Table) {n : Tree} (h : n.IsNumber) (r : Restorer) :
    (r.literal table n).state = r ∨ ∃ t ∈ n.tokens, t.kind = .hexLiteral ∧
      ∃ name, (r.literal table n).state = r.record [(t, name)] := by
  cases h with
  | @mk t fields kind =>
    by_cases hk : t.kind = .hexLiteral
    · have htokens : t ∈ (Java.Tree.node .integerLiteral t (some t) fields [.leaf t false]).tokens := by
        simp [Tree.tokens, Tree.tokensAll, hk]
      cases hread : readNumeral .sixteen t.text with
      | error e =>
        left
        simp [literal, Tree.start?, Tree.child?, Tree.children, Part.holds, Tree.isKind, hk, Tree.text,
          hread, Visited.failed]
      | ok id =>
        cases hg : table.get? id with
        | none =>
          left
          simp [literal, Tree.start?, Tree.child?, Tree.children, Part.holds, Tree.isKind, hk, Tree.text,
            hread, hg, Visited.ok]
        | some name =>
          refine .inr ⟨t, htokens, hk, name, ?_⟩
          simp [literal, Tree.start?, Tree.child?, Tree.children, Part.holds, Tree.isKind, hk, Tree.text,
            hread, hg, Visited.ok, Restorer.record, edit, replacement, naming]
    · left
      simp [literal, Tree.start?, Tree.child?, Tree.children, Part.holds, Tree.isKind, hk, Visited.ok]

/-- Without a package to import from, going through a tree only puts names in place of its
numbers. -/
theorem restore_onlyNames (table : Table) {tree : Tree} (hn : tree.NumbersAreTokens)
    (ht : ∀ t ∈ tree.numbers, t ∈ tokens) {r : Restorer} (hp : r.package.getD "" = "")
    (hr : r.OnlyNames tokens) :
    (r.restore table tree).state.package = r.package ∧
      (r.restore table tree).state.OnlyNames tokens := by
  refine Tree.walk_keeps (P := fun r' : Restorer => r'.package = r.package ∧ r'.OnlyNames tokens)
    (fun n hin r' hr' => ?_) (fun n _ r' hr' => ?_) ⟨rfl, hr⟩
  · simp only [visitor]
    split
    · rename_i hrule
      rcases literal_cases table (hn n hin hrule) r' with heq | ⟨t, htn, hk, name, heq⟩
      · rwa [heq]
      · have hmem : t ∈ tree.numbers :=
          List.mem_flatMap.mpr ⟨n, List.mem_filter.mpr ⟨hin, Tree.isRule_eq_true_iff.mpr hrule⟩, htn⟩
        rw [heq]
        exact ⟨hr'.1, hr'.2.record (ht t hmem) hk name⟩
    · exact hr'
  · simp only [visitor]
    split
    · rw [addImport_of_empty (by rw [hr'.1, hp])]
      exact hr'
    · exact hr'

end Resource.Restorer

namespace Session

open Resource

abbrev Continues : Session → Session → Prop := Relation.ReflTransGen Goes

theorem Continues.reachable {s t : Session} (h : Continues s t) (hs : s.Reachable) :
    t.Reachable := by
  induction h with
  | refl => exact hs
  | tail _ step ih => exact step.reachable ih

/-- A parser that reads on in a source, and the latest tree it gave. -/
structure ReadsOn (source : Source) (p : Parser) (tree : Tree) : Prop where
  ended : Ended p.rest
  words : ∀ t ∈ p.rest, t.kind ≠ .eof → t.IsWord
  rest : p.rest ⊆ source.tokens.toList
  numbers : tree.NumbersAreTokens
  tokens : tree.numbers ⊆ source.tokens.toList
  source : p.source = source

/-- Another unit is read from where the last one ended. -/
theorem readsOn_parse {source : Source} {p : Parser} (hp : p.Regular) (hs : p.source = source)
    (hr : p.rest ⊆ source.tokens.toList) :
    ReadsOn source (p.parse .compilationUnit).2.parser (p.parse .compilationUnit).1 := by
  obtain ⟨hrest, hended, hsource⟩ := Parser.parse_advances .compilationUnit p hp.ended
  have hbuilt := Parser.each_built_parse .compilationUnit hp
  have hnumbers := Parser.numbersAreTokens_of_built hbuilt nofun
  have hafter : (p.parse .compilationUnit).2.parser.rest ⊆ p.rest := by
    intro t ht
    rw [hrest]
    exact List.mem_append_right _ ht
  refine ⟨hended, fun t ht => hp.words t (hafter ht), List.Subset.trans hafter hr, hnumbers,
    fun t ht => hr ?_, hsource.trans hs⟩
  rw [hrest]
  exact List.mem_append_left _ (hnumbers.sublist.subset ht)

/-- A file that is edited only by names in place of its numbers. -/
structure OnlyNamed (source : Source) (o : Opened) : Prop where
  package : o.restorer.package.getD "" = ""
  edits : o.restorer.OnlyNames source.tokens.toList
  read : ReadsOn source o.parser o.tree

namespace OnlyNamed

variable {source : Source} {o : Opened}

theorem openFile {s : Session} (hs : s.Reachable) {text : String} {given : Option Table}
    {package : Option String} {wantsImport : Bool}
    (hp : (s.packageFor package wantsImport).getD "" = "")
    (ho : (s.openFile text given package wantsImport).session.opened = some o) :
    OnlyNamed (sourceOf text) o := by
  have hopens := opens_of_opened ho
  have hregular := Parser.regular_ofSource (String.ofList (unifyNewlines text.toList)) hs.widened
  have hread : ReadsOn (sourceOf text) o.parser o.tree := by
    rw [hopens.parser, hopens.tree]
    refine readsOn_parse hregular rfl fun t ht => ?_
    have hvisible := Parser.rest_ofSource (String.ofList (unifyNewlines text.toList)) s.widened ▸ ht
    exact (List.mem_filter.mp hvisible).1
  refine ⟨?_, ?_, hread⟩ <;> rw [hopens.restorer]
  · exact hp
  · exact ⟨[], rfl, rfl, by simp⟩

theorem restore (h : OnlyNamed source o) (table : Table) :
    OnlyNamed source { o with restorer := (o.restorer.restore table o.tree).state } := by
  obtain ⟨hpackage, hnames⟩ :=
    Restorer.restore_onlyNames table h.read.numbers (fun _ ht => h.read.tokens ht) h.package h.edits
  exact ⟨by rw [hpackage, h.package], hnames, h.read⟩

theorem reread (h : OnlyNamed source o) {widened : Widened}
    (hw : ∀ w ∈ widened, w.1 ∈ Layout.backs) :
    OnlyNamed source { o with
      parser := ({ o.parser with widened }.parse .compilationUnit).2.parser
      tree := ({ o.parser with widened }.parse .compilationUnit).1 } :=
  ⟨h.package, h.edits, readsOn_parse ⟨h.read.ended, h.read.words, hw⟩ h.read.source h.read.rest⟩

/-- To write such a file changes nothing. -/
theorem session_text (h : OnlyNamed source o) {s : Session} (ho : s.opened = some o)
    (start stop : Option Int) : (s.text start stop o).session = s := by
  obtain ⟨hits, hprogram, -⟩ := h.edits
  have hsame (tokens : List Token) (start stop : Int) :
      (Program.text tokens start stop o.restorer.program).1 = o.restorer.program := by
    rw [hprogram, Restorer.text_replacements_fst]
  simp only [Session.text, hsame]
  rw [← ho]

end OnlyNamed

/-- However a session goes on after a file was opened without a package, the file is edited only by
names in place of its numbers. -/
theorem Continues.onlyNamed {source : Source} {s t : Session} (h : Continues s t) (hs : s.Reachable)
    (hopen : ∀ o, s.opened = some o → OnlyNamed source o) :
    ∀ o, t.opened = some o → OnlyNamed source o := by
  induction h with
  | refl => exact hopen
  | @tail t _ h step ih =>
    cases step with
    | readResources text => exact ih
    | @restore o ho =>
      rintro o' ⟨⟩
      exact (ih o ho).restore _
    | @reread o ho =>
      rintro o' ⟨⟩
      exact (ih o ho).reread (Continues.reachable h hs).widened
    | @text o ho start stop =>
      rw [(ih o ho).session_text ho]
      exact ih

/-- A file was opened without a package, and the session has gone on in any way. Then the file is
edited only by names in place of numbers in base sixteen, and writing it changes nothing. If there is
no edit the tokens are written as they are; one edit alone cannot be written for want of an import,
and of several ones the second is compared with the first and refused. -/
theorem text_of_file_without_package {s t : Session} (hs : s.Reachable) (text : String)
    (given : Option Table) (package : Option String) (wantsImport : Bool)
    (hp : (s.packageFor package wantsImport).getD "" = "")
    (hc : Continues (s.openFile text given package wantsImport).session t) {o : Opened}
    (ho : t.opened = some o) :
    (∀ start stop, (t.text start stop o).session = t) ∧
      ∃ hits : List (Token × String), o.restorer.program = hits.map Restorer.replacement ∧
        o.restorer.count = hits.length ∧
        (∀ h ∈ hits, (sourceOf text).tokens.toList[h.1.index]? = some h.1 ∧ h.1.kind = .hexLiteral) ∧
        (t.text none none o).result =
          (o.restorer.program, Restorer.writing (sourceOf text).tokens.toList hits) := by
  have hfile : OnlyNamed (sourceOf text) o :=
    hc.onlyNamed (hs.openFile text given package wantsImport) (fun o ho => .openFile hs hp ho) o ho
  obtain ⟨hits, hprogram, hcount, hall⟩ := hfile.edits
  refine ⟨hfile.session_text ho, hits, hprogram, hcount, fun h hm => ⟨?_, (hall h hm).2⟩, ?_⟩
  · exact Source.getElem?_tokens_of_mem (hall h hm).1
  · simp only [Session.text, Option.getD_none, hfile.read.source, hprogram, Restorer.text_replacements]

private theorem ways_single : ((Grammar.body .compilationUnit).ways none (Rule.ways none 30) .compilationUnit
    (([.kwClass, .identifier, .lbrace, .kwInt, .identifier, .assign, .hexLiteral, .semi, .rbrace,
      .eof] : List Kind).map some)).isWhole = true := by
  decide +kernel

/-- Two edits of one token are refused. -/
private theorem writing_of_twice {hits : List (Token × String)} {i : Nat} {name : String}
    (h : hits.map Restorer.replacement = [some (.replace i i name), some (.replace i i name)])
    (tokens : List Token) : Restorer.writing tokens hits = .error .replacedAgain := by
  obtain ⟨a, rest, rfl, ha, hrest⟩ := List.map_eq_cons_iff.mp h
  obtain ⟨b, rfl, hb⟩ := List.map_eq_singleton_iff.mp hrest
  have hindex : a.1.index = b.1.index := by
    simp only [Restorer.replacement, Restorer.naming, Option.some.injEq, Edit.replace.injEq] at ha hb
    rw [ha.1, hb.1]
  rw [Restorer.writing, if_pos hindex]

/-- A class is gone through, and once more after resources were read. Its number is edited twice. -/
theorem text_of_class_walked_twice :
    ∃ t o, Continues (({} : Session).openFile "class A\x7bint a=0x1;\x7d" (some [(1, "R.a")]) none
        false).session t ∧ t.opened = some o ∧
      (∀ start stop, (t.text start stop o).session = t) ∧
      o.restorer.program = [some (.replace 8 8 "R.a"), some (.replace 8 8 "R.a")] ∧
      o.restorer.count = 2 ∧ (t.text none none o).result.2 = .error .replacedAgain := by
  generalize ht : "class A\x7bint a=0x1;\x7d" = text
  obtain ⟨hread, hkinds, hnamed⟩ : Readable (sourceOf text).tokens.toList ∧
      ((sourceOf text).tokens.toList.filter Token.isVisible).map Token.kind = [.kwClass, .identifier, .lbrace,
        .kwInt, .identifier, .assign, .hexLiteral, .semi, .rbrace, .eof] ∧
      ((sourceOf text).tokens.toList.filterMap (Table.named? [(1, "R.a")])).map Restorer.replacement =
        [some (.replace 8 8 "R.a")] := by
    subst ht
    decide +kernel
  obtain ⟨o, ho⟩ := exists_opens {} text (some [(1, "R.a")]) none false
  have hwalk : Continues _ _ := .single (.restore ho.session)
  have hagain := (hwalk.tail (.readResources "class R\x7bint b=2;\x7d")).tail (.restore rfl)
  obtain ⟨hsame, hits, hprogram, hcount, -, hresult⟩ :=
    text_of_file_without_package .start _ _ none false rfl hagain rfl
  have hnumbers := numbers_of_source _ Reachable.start.widened ho.tree
  have hr := hread.mono fun t ht => (List.mem_filter.mp (hnumbers.subset ht)).1
  have hhits := Opens.hits_of_ways .start ho hkinds ways_single [(1, "R.a")]
  have htable : o.table = some [(1, "R.a")] := ho.table
  have hrestore : ∀ (r : Restorer) (table : Table), r.package = none →
      r.restore (o.table.getD table) o.tree = .ok (r.record (Table.hits [(1, "R.a")] o.tree)) := by
    intro r table hpackage
    rw [htable, Option.getD_some]
    exact Restorer.restore_of_no_import _ (Parser.regular_ofSource _ Reachable.start.widened) ho.tree hr
      (by rw [hpackage]; rfl)
  have htwice : ∀ t₁ t₂ : Table,
      ((o.restorer.restore (o.table.getD t₁) o.tree).state.restore (o.table.getD t₂) o.tree).state =
        o.restorer.record (Table.hits [(1, "R.a")] o.tree ++ Table.hits [(1, "R.a")] o.tree) := by
    intro t₁ t₂
    have hfirst : o.restorer.package = none := by rw [ho.restorer]; rfl
    have hsecond := hrestore (o.restorer.record (Table.hits [(1, "R.a")] o.tree)) t₂ hfirst
    simp only [hrestore _ t₁ hfirst, Visited.ok, hsecond, Restorer.record_record]
  have hedits : ∀ t₁ t₂ : Table,
      ((o.restorer.restore (o.table.getD t₁) o.tree).state.restore (o.table.getD t₂) o.tree).state.program =
        [some (.replace 8 8 "R.a"), some (.replace 8 8 "R.a")] := by
    intro t₁ t₂
    rw [htwice, Restorer.record, ho.restorer, List.map_append, hhits, hnamed]
    rfl
  have hprogram' := (hedits _ _).symm.trans hprogram
  refine ⟨_, _, hagain, rfl, hsame, hedits _ _, ?_, ?_⟩
  · rw [hcount, ← List.length_map, ← hprogram']
    rfl
  · rw [hresult, writing_of_twice hprogram'.symm]

end Session

end ResourceNames
