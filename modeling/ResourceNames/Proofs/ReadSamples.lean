import ResourceNames.Proofs.ReaderNodes
import ResourceNames.Proofs.ResourceTable
import ResourceNames.Proofs.SampleResources

/-!
The sample file of resources is read back.

The row of kinds of the file has a single tree, as those of a declaration and of the class of a group do.
In these trees the reader finds the classes and declarations of the file, and enters their names and
numbers one after another, as long as the numbers do not have too many digits.
-/
namespace ResourceNames.Sample

open Java Resource Text

/-! ### The trees of the file -/

def declarationKinds : List Kind :=
  [.kwPublic, .kwStatic, .kwFinal, .kwInt, .identifier, .assign, .decimalLiteral, .semi]

def braced (bs : List (List Kind)) : List Kind := .lbrace :: (bs.flatten ++ [.rbrace])

def groupKinds (per : Nat) : List Kind :=
  ([.kwPublic, .kwStatic, .kwFinal, .kwClass, .identifier] : List Kind) ++
    braced (List.replicate per declarationKinds)

def fileKinds (per : Nat) : List Kind :=
  ([.kwPackage, .identifier, .dot, .identifier, .dot, .identifier, .semi, .kwPublic, .kwFinal, .kwClass,
    .identifier] : List Kind) ++ braced (List.replicate groups.length (groupKinds per)) ++ [Kind.eof]

def modifierOutline (k : Kind) : Outline := .node .modifier [.node .classOrInterfaceModifier [.leaf k]]

def numberOutline : Outline :=
  .node .expression [.node .primary [.node .literal [.node .integerLiteral [.leaf .decimalLiteral]]]]

def declarationOutline : Outline :=
  .node .classBodyDeclaration
    [modifierOutline .kwPublic, modifierOutline .kwStatic, modifierOutline .kwFinal,
      .node .memberDeclaration [.node .fieldDeclaration
        [.node .typeType [.node .primitiveType [.leaf .kwInt]],
          .node .variableDeclarators [.node .variableDeclarator
            [.node .variableDeclaratorId [.leaf .identifier], .leaf .assign,
              .node .variableInitializer [numberOutline]]],
          .leaf .semi]]]

def groupOutline : Outline :=
  .node .classBodyDeclaration
    [modifierOutline .kwPublic, modifierOutline .kwStatic, modifierOutline .kwFinal,
      .node .memberDeclaration [.node .classDeclaration [.leaf .kwClass, .leaf .identifier, .gap]]]

def fileOutline : Outline :=
  .node .compilationUnit
    [.node .packageDeclaration
      [.leaf .kwPackage,
        .node .qualifiedName
          [.leaf .identifier, .leaf .dot, .leaf .identifier, .leaf .dot, .leaf .identifier],
        .leaf .semi],
      .node .typeDeclaration
        [.node .classOrInterfaceModifier [.leaf .kwPublic], .node .classOrInterfaceModifier [.leaf .kwFinal],
          .node .classDeclaration [.leaf .kwClass, .leaf .identifier, .gap]],
      .leaf .eof]

/-- The open stretch of a class is its body. -/
abbrev bodyGap : Gap := some (.classBody, .lbrace)

private theorem ways_declaration : Rule.ways none 30 .classBodyDeclaration (declarationKinds.map some) =
    some [(declarationOutline, [])] := by
  decide +kernel

private theorem ways_group : Rule.ways bodyGap 30 .classBodyDeclaration
    [some .kwPublic, some .kwStatic, some .kwFinal, some .kwClass, some .identifier, none] =
      some [(groupOutline, [])] := by
  decide +kernel

private theorem ways_file : (Grammar.body .compilationUnit).ways (bodyGap.map Prod.snd)
    (Rule.ways bodyGap 30) .compilationUnit
    [some .kwPackage, some .identifier, some .dot, some .identifier, some .dot, some .identifier, some .semi,
      some .kwPublic, some .kwFinal, some .kwClass, some .identifier, none, some .eof] =
      some [(fileOutline, [])] := by
  decide +kernel

private theorem ways_rbrace : Rule.ways none 30 .classBodyDeclaration [some .rbrace] = some [] := by
  decide +kernel

private theorem classBody_encloses : Rule.Encloses .classBody .classBodyDeclaration := rfl

/-- The body of a class is settled if its members are. -/
private theorem settles_braced {S : Tree → Prop} {k : Kind} {b : List Kind} (hk : k ≠ .rbrace)
    (hb : Rule.classBodyDeclaration.Settles (k :: b) S) (m : Nat) :
    Rule.classBody.Settles (braced (List.replicate m (k :: b)))
      (IsBraced .classBody S (List.replicate m (k :: b))) := by
  refine classBody_encloses.settles (by decide) (by decide) ?_ ?_ ways_rbrace
  · intro b' hb'
    rw [List.eq_of_mem_replicate hb']
    exact hb
  · intro b' hb'
    rw [List.eq_of_mem_replicate hb']
    exact ⟨k, rfl, hk⟩

def IsDeclaration (t : Tree) : Prop := declarationOutline.Of (fun _ => True) t

def IsGroup (per : Nat) (t : Tree) : Prop :=
  groupOutline.Of (IsBraced .classBody IsDeclaration (List.replicate per declarationKinds)) t

def IsFile (per : Nat) (t : Tree) : Prop :=
  fileOutline.Of (IsBraced .classBody (IsGroup per) (List.replicate groups.length (groupKinds per))) t

private theorem settles_declaration :
    Rule.classBodyDeclaration.Settles declarationKinds IsDeclaration :=
  Rule.settles_of_closed_ways (by decide) ways_declaration

private theorem settles_gap {S : Tree → Prop} {stretch : List Kind}
    (h : Rule.classBody.Settles (.lbrace :: stretch) S) :
    ∀ q k, bodyGap = some (q, k) → (Kind.lbrace :: stretch).head? = some k ∧ q.Settles (.lbrace :: stretch) S := by
  rintro _ _ ⟨⟩
  exact ⟨rfl, h⟩

private theorem settles_group (per : Nat) :
    Rule.classBodyDeclaration.Settles (groupKinds per) (IsGroup per) := by
  have hbody := settles_braced (by decide) settles_declaration per
  have h := Rule.settles_of_ways (settles_gap hbody) (by decide) ways_group
  simp only [Row.fill_some, Row.fill_none, Row.fill_nil, List.append_nil] at h
  exact h

private theorem isFile_of_isSound {per : Nat} {t : Tree} (ht : t.IsSound)
    (hr : t.rule? = some .compilationUnit)
    (hk : t.tokens.map Token.kind ++ [.eof] = fileKinds per) : IsFile per t := by
  have hbody := settles_braced (by decide) (settles_group per) groups.length
  refine ht.of_unit_ways (settles_gap hbody) hr ?_ ways_file
  rw [hk]
  rfl

/-! ### The file is a sentence -/

private theorem spells_braced {b : List Kind} (hb : Rule.classBodyDeclaration.Spells b) (m : Nat) :
    ∀ q k, bodyGap = some (q, k) → q.Spells (braced (List.replicate m b)) := by
  rintro _ _ ⟨⟩
  refine classBody_encloses.spells fun b' hb' => ?_
  rw [List.eq_of_mem_replicate hb']
  exact hb

private theorem spells_fileKinds (per : Nat) : Rule.compilationUnit.Spells (fileKinds per) := by
  have hdeclaration : Rule.classBodyDeclaration.Spells declarationKinds :=
    Rule.spells_of_ways (by rw [ways_declaration]; rfl)
  have hgroup : Rule.classBodyDeclaration.Spells (groupKinds per) := by
    have h := (Rule.over_ways (spells_braced hdeclaration per) 30 _ _).whole (by rw [ways_group]; rfl)
    simp only [Row.fill_some, Row.fill_none, Row.fill_nil, List.append_nil] at h
    exact h
  have hlook := Rule.over_ways (spells_braced hgroup groups.length) 30
  exact (Rule.over_body hlook .compilationUnit _).whole (by rw [ways_file]; rfl)

def declarationSeen (name value : String) : List (Kind × String) :=
  [(.kwPublic, "public"), (.kwStatic, "static"), (.kwFinal, "final"), (.kwInt, "int"),
    (.identifier, name), (.assign, "="), (.decimalLiteral, value), (.semi, ";")]

def groupSeen (group : String) (entries : List (String × String)) : List (Kind × String) :=
  ([(.kwPublic, "public"), (.kwStatic, "static"), (.kwFinal, "final"), (.kwClass, "class"),
    (.identifier, group), (.lbrace, "\x7b")] : List (Kind × String)) ++
    (entries.flatMap fun e => declarationSeen e.1 e.2) ++ [(Kind.rbrace, "\x7d")]

def declarations (group : String) (per : Nat) (id : Int) : List (String × String) :=
  (List.range per).map fun j => (resourceName group j, toString (id + j))

def declaredGroups (per : Nat) : List String → Int → List (String × List (String × String))
  | [], _ => []
  | group :: rest, id => (group, declarations group per id) :: declaredGroups per rest (id + per)

def fileSeen (gs : List (String × List (String × String))) : List (Kind × String) :=
  ([(.kwPackage, "package"), (.identifier, "com"), (.dot, "."), (.identifier, "example"), (.dot, "."),
    (.identifier, "app"), (.semi, ";"), (.kwPublic, "public"), (.kwFinal, "final"), (.kwClass, "class"),
    (.identifier, "R"), (.lbrace, "\x7b")] : List (Kind × String)) ++
    (gs.flatMap fun g => groupSeen g.1 g.2) ++ [(Kind.rbrace, "\x7d")]

private theorem seen_groupWords (group : String) (per : Nat) (id : Int) :
    seen (groupWords group per id) = groupSeen group (declarations group per id) := by
  have hbody : seen (declarationsWords group per id) =
      (declarations group per id).flatMap fun e => declarationSeen e.1 e.2 := by
    rw [declarationsWords, declarations, List.flatMap_map, seen_flatMap]
    rfl
  have hrest : seen ((.identifier, group) :: (groupOpening ++
      (declarationsWords group per id ++ groupClosing))) =
      (.identifier, group) :: (seen groupOpening ++
        (((declarations group per id).flatMap fun e => declarationSeen e.1 e.2) ++ seen groupClosing)) := by
    rw [← hbody, ← seen_append, ← seen_append]
    rfl
  rw [groupWords, seen_append, hrest, groupSeen, List.append_assoc]
  rfl

private theorem seen_groupsWords (per : Nat) (gs : List String) (id : Int) :
    seen (groupsWords per gs id) = (declaredGroups per gs id).flatMap fun g => groupSeen g.1 g.2 := by
  induction gs generalizing id with
  | nil => rfl
  | cons g gs ih =>
    rw [groupsWords, seen_append, seen_groupWords, ih, declaredGroups, List.flatMap_cons]

private theorem seen_fileWords (n : Int) :
    seen (fileWords n) = fileSeen (declaredGroups (perGroup n) groups firstId) := by
  rw [fileWords, seen_append, seen_append, seen_groupsWords, fileSeen, List.append_assoc]
  rfl

/-! ### Reading the trees -/

def declare (e : String × String) (r : Reader) : Visited Reader Fault :=
  match readNumeral .ten e.2 with
  | .ok id => .ok { r with table := r.table.insert id (".".intercalate (r.names ++ [e.1])) }
  | .error fault => .failed { r with names := r.names ++ [e.1] } (.numeral fault)

private theorem walk_declaration {t : Tree} (ht : IsDeclaration t) {e : String × String}
    (hw : t.words = declarationSeen e.1 e.2) (r : Reader) : t.walk Reader.visitor r = declare e r := by
  have hwalk : ∀ a b c d f g : String, Tree.walk Reader.visitor (declarationOutline.grow
      ([(.kwPublic, a), (.kwStatic, b), (.kwFinal, c), (.kwInt, d), (.identifier, e.1), (.assign, f),
        (.decimalLiteral, e.2), (.semi, g)].map Tree.ofWord)).1 r = declare e r := by
    intro a b c d f g
    simp only [declarationOutline, modifierOutline, numberOutline, Outline.grow, Outline.growAll,
      List.map_cons, List.headD_cons, List.tail_cons, Tree.ofWord]
    simp [Reader.walk_plain, Reader.walk_leaf, Reader.walkAll_nil, Reader.walkAll_cons]
    rw [Reader.walk_number, declare]
    rfl
  have hbare := Outline.Of.bare_eq ht declarationKinds rfl (by decide)
  rw [← Reader.walk_bare, hbare, hw, declarationSeen, hwalk]

def declareAll : List (String × String) → Reader → Visited Reader Fault
  | [], r => .ok r
  | e :: es, r => (declare e r).andThen (declareAll es)

def declareGroup (g : String × List (String × String)) (r : Reader) : Visited Reader Fault :=
  (declareAll g.2 (r.push g.1)).andThen fun r => .ok r.pop

def declareGroups : List (String × List (String × String)) → Reader → Visited Reader Fault
  | [], r => .ok r
  | g :: gs, r => (declareGroup g r).andThen (declareGroups gs)

private theorem walkAll_declarations {ds : List Tree} (hds : ∀ d ∈ ds, IsDeclaration d)
    {es : List (String × String)} (hw : ds.map Tree.words = es.map fun e => declarationSeen e.1 e.2)
    (r : Reader) : Tree.walkAll Reader.visitor ds r = declareAll es r := by
  induction ds generalizing es r with
  | nil =>
    obtain rfl := List.map_eq_nil_iff.mp hw.symm
    rfl
  | cons d ds ih =>
    obtain ⟨e, es, rfl, he, hes⟩ := List.map_eq_cons_iff.mp hw.symm
    rw [List.forall_mem_cons] at hds
    rw [Tree.walkAll, walk_declaration hds.1 he.symm, declareAll, funext (ih hds.2 hes.symm)]

/-- Rows of trees with the kinds of rows of words have these words. -/
private theorem map_words_eq {ds : List Tree} {ws : List (List (Kind × String))}
    (h : ds.flatMap Tree.words = ws.flatten) (hk : ds.map Tree.kinds = ws.map (List.map Prod.fst))
    (hnode : ∀ d ∈ ds, d.kinds.length = d.words.length) : ds.map Tree.words = ws := by
  rw [List.eq_iff_flatten_eq, ← List.flatMap_def, List.map_map]
  refine ⟨h, ?_⟩
  have hlengths := congrArg (List.map List.length) hk
  rw [List.map_map, List.map_map] at hlengths
  calc
    ds.map (List.length ∘ Tree.words) = ds.map (List.length ∘ Tree.kinds) :=
      List.map_congr_left fun d hd => (hnode d hd).symm
    _ = ws.map List.length := by
      rw [hlengths]
      exact List.map_congr_left fun w _ => by simp

/-- The body of a class is gone through member by member, and its words are those of its members
between braces. -/
private theorem walk_braced {S : Tree → Prop} {bs : List (List Kind)} {t : Tree}
    (ht : IsBraced .classBody S bs t) {ws : List (List (Kind × String))}
    (hw : t.words = (.lbrace, "\x7b") :: (ws.flatten ++ [(.rbrace, "\x7d")]))
    (hbs : ws.map (List.map Prod.fst) = bs) (hS : ∀ d, S d → d.kinds.length = d.words.length) :
    ∃ ds, (∀ d ∈ ds, S d) ∧ ds.map Tree.words = ws ∧
      ∀ r, t.walk Reader.visitor r = Tree.walkAll Reader.visitor ds r := by
  obtain ⟨start, stop, fields, opening, closing, ds, rfl, hopening, hclosing, hds, hkinds⟩ := ht
  refine ⟨ds, hds, map_words_eq ?_ (hkinds.trans hbs.symm) fun d hd => hS d (hds d hd), fun r => ?_⟩
  · rw [Tree.words_node, List.flatMap_cons, List.flatMap_append, List.flatMap_singleton,
      Tree.words_leaf (by rw [hopening]; decide), Tree.words_leaf (by rw [hclosing]; decide),
      List.singleton_append, List.cons.injEq] at hw
    exact (List.append_inj' hw.2 rfl).1
  · rw [Reader.walk_plain (by decide), Tree.walkAll, Reader.walk_leaf, Visited.ok_andThen,
      Tree.walkAll_append]
    simp [Reader.walk_leaf, Reader.walkAll_cons, Reader.walkAll_nil]

private theorem kinds_length {S : Tree → Prop} {o : Outline} {r : Rule} {os : List Outline} (ho : o = .node r os)
    {t : Tree} (ht : o.Of S t) : t.kinds.length = t.words.length := by
  subst ho
  obtain ⟨start, stop, fields, children, rfl, -⟩ := by simpa only [Outline.Of] using ht
  simp [Tree.kinds, Tree.words]

private theorem map_fst_groupSeen (group : String) (es : List (String × String)) :
    (groupSeen group es).map Prod.fst = groupKinds es.length := by
  have hbody : (es.flatMap fun e => declarationSeen e.1 e.2).map Prod.fst =
      (List.replicate es.length declarationKinds).flatten := by
    rw [List.map_flatMap, ← List.map_const', List.flatMap_def]
    rfl
  rw [groupSeen, List.append_assoc, List.map_append, List.map_append, hbody]
  rfl

private theorem walk_group {per : Nat} {t : Tree} (ht : IsGroup per t)
    {g : String × List (String × String)} (hw : t.words = groupSeen g.1 g.2) (hg : g.2.length = per)
    (r : Reader) : t.walk Reader.visitor r = declareGroup g r := by
  obtain ⟨body, ps, us, hbody, hps, hus, hwords, hbare⟩ := Outline.Of.exists_bare_eq ht
    [.kwPublic, .kwStatic, .kwFinal, .kwClass, .identifier] [] rfl (by decide)
  obtain rfl := List.forall₂_nil_left_iff.mp hps
  have hlen : us.length = 5 := by simpa using congrArg List.length hus
  have hsplit : us = (groupSeen g.1 g.2).take 5 ∧ body.words = (groupSeen g.1 g.2).drop 5 := by
    rw [← hw, hwords]
    simp [← hlen]
  have hkinds : (g.2.map fun e => declarationSeen e.1 e.2).map (List.map Prod.fst) =
      List.replicate per declarationKinds := by
    rw [List.map_map, ← hg, ← List.map_const']
    rfl
  have hbodyWords : body.words = (.lbrace, "\x7b") ::
      ((g.2.map fun e => declarationSeen e.1 e.2).flatten ++ [(.rbrace, "\x7d")]) := by
    rw [hsplit.2, groupSeen, List.flatMap_def]
    rfl
  obtain ⟨ds, hds, hwords, hwalk⟩ := walk_braced hbody hbodyWords hkinds fun d hd => kinds_length rfl hd
  have hclass : ∀ a b c d : String, Tree.walk Reader.visitor (groupOutline.grow
      ([(.kwPublic, a), (.kwStatic, b), (.kwFinal, c), (.kwClass, d), (.identifier, g.1)].map Tree.ofWord ++
        [body.bare])).1 r = (body.bare.walk Reader.visitor (r.push g.1)).andThen fun r => .ok r.pop := by
    intro a b c d
    simp only [groupOutline, modifierOutline, Outline.grow, Outline.growAll, List.map_cons, List.headD_cons,
      List.tail_cons, Tree.ofWord, List.cons_append]
    simp [Reader.walk_plain, Reader.walk_leaf, Reader.walkAll_nil, Reader.walkAll_cons, Reader.walk_class]
  rw [← Reader.walk_bare, hbare, hsplit.1, List.map_nil]
  refine (hclass _ _ _ _).trans ?_
  rw [Reader.walk_bare, hwalk, walkAll_declarations hds hwords, declareGroup]

private theorem walkAll_groups {per : Nat} {ts : List Tree} (hts : ∀ t ∈ ts, IsGroup per t)
    {gs : List (String × List (String × String))}
    (hw : ts.map Tree.words = gs.map fun g => groupSeen g.1 g.2) (hgs : ∀ g ∈ gs, g.2.length = per)
    (r : Reader) : Tree.walkAll Reader.visitor ts r = declareGroups gs r := by
  induction ts generalizing gs r with
  | nil =>
    obtain rfl := List.map_eq_nil_iff.mp hw.symm
    rfl
  | cons t ts ih =>
    obtain ⟨g, gs, rfl, hg, hgs'⟩ := List.map_eq_cons_iff.mp hw.symm
    rw [List.forall_mem_cons] at hts hgs
    rw [Tree.walkAll, walk_group hts.1 hg.symm hgs.1, declareGroups, funext (ih hts.2 hgs'.symm hgs.2)]

private theorem walk_file {per : Nat} {t : Tree} (ht : IsFile per t)
    {gs : List (String × List (String × String))} (hw : t.words = fileSeen gs)
    (hlength : gs.length = groups.length) (hgs : ∀ g ∈ gs, g.2.length = per) :
    ({} : Reader).read t = (declareGroups gs { package := "com.example.app", names := ["R"] }).andThen
      fun r => .ok r.pop := by
  obtain ⟨body, ps, us, hbody, hps, hus, hwords, hbare⟩ := Outline.Of.exists_bare_eq ht
    [.kwPackage, .identifier, .dot, .identifier, .dot, .identifier, .semi, .kwPublic, .kwFinal,
      .kwClass, .identifier] [.eof] rfl (by decide)
  obtain ⟨_, qs, ⟨last, rfl, hlast⟩, hqs, rfl⟩ := List.forall₂_cons_left_iff.mp hps
  obtain rfl := List.forall₂_nil_left_iff.mp hqs
  have hlen : us.length = 11 := by simpa using congrArg List.length hus
  have hend : (Tree.leaf last false).words = [] := by simp [Tree.words, Tree.tokens, hlast]
  have hsplit : us = (fileSeen gs).take 11 ∧ body.words = (fileSeen gs).drop 11 := by
    rw [← hw, hwords]
    simp [← hlen, hend]
  have hkinds : (gs.map fun g => groupSeen g.1 g.2).map (List.map Prod.fst) =
      List.replicate groups.length (groupKinds per) := by
    rw [List.map_map, ← hlength, ← List.map_const']
    refine List.map_congr_left fun g hg => ?_
    rw [← hgs g hg]
    exact map_fst_groupSeen g.1 g.2
  have hbodyWords : body.words = (.lbrace, "\x7b") ::
      ((gs.map fun g => groupSeen g.1 g.2).flatten ++ [(.rbrace, "\x7d")]) := by
    rw [hsplit.2, fileSeen, List.flatMap_def]
    rfl
  obtain ⟨ds, hds, hwords, hwalk⟩ := walk_braced hbody hbodyWords hkinds fun d hd => kinds_length rfl hd
  have hclass : ∀ a b c d e f g h i j k : String, Tree.walk Reader.visitor (fileOutline.grow
      ([(.kwPackage, a), (.identifier, b), (.dot, c), (.identifier, d), (.dot, e), (.identifier, f), (.semi, g),
        (.kwPublic, h), (.kwFinal, i), (.kwClass, j), (.identifier, k)].map Tree.ofWord ++
        [body.bare, (Tree.leaf last false).bare])).1 {} =
      (body.bare.walk Reader.visitor { package := b ++ (c ++ (d ++ (e ++ f))), names := [k] }).andThen
        fun r => .ok r.pop := by
    intro a b c d e f g h i j k
    simp only [fileOutline, Outline.grow, Outline.growAll, List.map_cons, List.headD_cons,
      List.tail_cons, Tree.ofWord, List.cons_append]
    simp only [Reader.walk_plain, ne_eq, reduceCtorEq, not_false_eq_true, and_self, Reader.walkAll_cons]
    rw [Reader.walk_package rfl]
    · simp [Reader.walk_leaf, Reader.walkAll_nil, Reader.walk_class, Tree.bare, Tree.text, Tree.texts,
        Reader.push]
    · simp [Reader.walk_plain, Reader.walk_leaf, Reader.walkAll_nil, Reader.walkAll_cons]
  rw [Reader.read, ← Reader.walk_bare, hbare, hsplit.1]
  refine (hclass _ _ _ _ _ _ _ _ _ _ _).trans ?_
  rw [Reader.walk_bare, hwalk, walkAll_groups hds hwords hgs]
  rfl

/-! ### What is entered -/

private theorem insert_of_fresh {t : Table} {id : Int} {name : String} (h : id ∉ t.ids) :
    t.insert id name = t ++ [(id, name)] := by
  induction t with
  | nil => rfl
  | cons e es ih =>
    obtain ⟨hne, hes⟩ := by simpa [Table.ids] using h
    rw [Table.insert, if_neg (Ne.symm hne), ih (by simpa [Table.ids] using hes), List.cons_append]

private theorem enterAll_of_fresh {t : Table} {es : List (Int × String)} (h : (t ++ es).ids.Nodup) :
    t.enterAll es = t ++ es := by
  induction es generalizing t with
  | nil => simp [Table.enterAll]
  | cons e es ih =>
    have hfresh : e.1 ∉ t.ids := by
      intro hmem
      rw [Table.ids, List.map_append, List.nodup_append] at h
      exact h.2.2 e.1 hmem e.1 (by simp) rfl
    rw [List.append_cons] at h ⊢
    rw [← ih h, Table.enterAll, Table.enterAll, List.foldl_cons, insert_of_fresh hfresh]

/-- The names that a group gives to the numbers from `id` on, inside of some classes. -/
def namedIds (names : List String) (group : String) (indices : List Nat) (id : Int) : Table :=
  indices.map fun j : Nat => (id + j, ".".intercalate (names ++ [group] ++ [resourceName group j]))

private theorem declareAll_ok {group : String} {id : Int} {l : List Nat}
    (h : ∀ j ∈ l, readNumeral .ten (toString (id + (j : Int))) = .ok (id + j)) {r : Reader}
    {names : List String} (hr : r.names = names ++ [group]) :
    declareAll (l.map fun j : Nat => (resourceName group j, toString (id + (j : Int)))) r =
      .ok { r with table := r.table.enterAll (namedIds names group l id) } := by
  induction l generalizing r with
  | nil => rfl
  | cons j l ih =>
    rw [List.forall_mem_cons] at h
    rw [List.map_cons, declareAll, declare, h.1]
    simp only [Visited.ok_andThen]
    rw [ih h.2]
    · rw [namedIds, namedIds, List.map_cons, Table.enterAll, Table.enterAll, List.foldl_cons, hr]
    · exact hr

def namedGroups (names : List String) (per : Nat) : List String → Int → Table
  | [], _ => []
  | g :: gs, id => namedIds names g (List.range per) id ++ namedGroups names per gs (id + per)

private theorem declareGroups_ok {per : Nat} {gs : List String} {id : Int}
    (h : ∀ k < gs.length * per, readNumeral .ten (toString (id + (k : Int))) = .ok (id + k)) (r : Reader) :
    declareGroups (declaredGroups per gs id) r =
      .ok { r with table := r.table.enterAll (namedGroups r.names per gs id) } := by
  induction gs generalizing id r with
  | nil => rfl
  | cons g gs ih =>
    have hfirst : declareGroup (g, declarations g per id) r =
        .ok { r with table := r.table.enterAll (namedIds r.names g (List.range per) id) } := by
      have hreadable : ∀ j ∈ List.range per,
          readNumeral .ten (toString (id + (j : Int))) = .ok (id + j) := by
        intro j hj
        have hlt := List.mem_range.mp hj
        exact h j (by rw [List.length_cons]; nlinarith)
      rw [declareGroup, declarations, declareAll_ok hreadable rfl]
      simp [Reader.push, Reader.pop]
    have hrest : ∀ k < gs.length * per, readNumeral .ten (toString (id + per + (k : Int))) = .ok (id + per + k) := by
      intro k hk
      have := h (per + k) (by rw [List.length_cons]; nlinarith)
      rw [Int.natCast_add, ← Int.add_assoc] at this
      exact this
    rw [declaredGroups, declareGroups, hfirst, Visited.ok_andThen, ih hrest, namedGroups]
    simp [Table.enterAll, List.foldl_append]

private theorem ids_namedGroups (names : List String) (per : Nat) (gs : List String) (id : Int) :
    (namedGroups names per gs id).ids = (List.range (gs.length * per)).map fun k : Nat => id + k := by
  induction gs generalizing id with
  | nil => simp [namedGroups, Table.ids]
  | cons g gs ih =>
    rw [namedGroups, Table.ids, List.map_append, ← Table.ids, ← Table.ids, ih, List.length_cons,
      Nat.succ_mul, Nat.add_comm, List.range_add, List.map_append, namedIds, Table.ids, List.map_map, List.map_map]
    congr 1
    refine List.map_congr_left fun k _ => ?_
    simp [Int.add_assoc]

/-- What the sample file declares: the numbers follow each other through the groups. -/
def resourceTable (n : Int) : Table :=
  groups.zipIdx.flatMap fun g => (List.range (perGroup n)).map fun j : Nat =>
    (firstId + (g.2 * perGroup n + j : Nat), "R." ++ g.1 ++ ".res_" ++ g.1 ++ "_" ++ toString j)

private theorem namedGroups_eq (per : Nat) (gs : List String) (id : Int) (i : Nat) :
    namedGroups ["R"] per gs (id + (i * per : Nat)) = (gs.zipIdx i).flatMap fun g => (List.range per).map fun j : Nat =>
      (id + (g.2 * per + j : Nat), "R." ++ g.1 ++ ".res_" ++ g.1 ++ "_" ++ toString j) := by
  induction gs generalizing i with
  | nil => rfl
  | cons g gs ih =>
    have hnext : id + (i * per : Nat) + (per : Int) = id + ((i + 1) * per : Nat) := by
      rw [Nat.succ_mul]; omega
    have hname : ∀ j, ".".intercalate (["R"] ++ [g] ++ [resourceName g j]) =
        "R." ++ g ++ ".res_" ++ g ++ "_" ++ toString j := by
      intro j
      apply String.toList_inj.mp
      simp [resourceName]
    rw [namedGroups, hnext, ih, List.zipIdx_cons, List.flatMap_cons, namedIds]
    congr 1
    refine List.map_congr_left fun j _ => ?_
    rw [hname, Nat.cast_add, Int.add_assoc]

private theorem namedGroups_file (n : Int) :
    namedGroups ["R"] (perGroup n) groups firstId = resourceTable n := by
  have hnamed := namedGroups_eq (perGroup n) groups firstId 0
  rw [Nat.zero_mul, Nat.cast_zero, Int.add_zero] at hnamed
  exact hnamed

private theorem length_toDigits_mono {m n : Nat} (h : m ≤ n) :
    (Nat.toDigits 10 m).length ≤ (Nat.toDigits 10 n).length := by
  rw [Nat.length_toDigits_le_iff (by decide) Nat.length_toDigits_pos]
  exact lt_of_le_of_lt h ((Nat.length_toDigits_le_iff (by decide) Nat.length_toDigits_pos).mp le_rfl)

/-- Each group declares equally many resources. -/
private theorem countClasses_eq (per : Nat) (gs : List String) : countClasses per gs = gs.length * per := by
  induction gs with
  | nil => simp [countClasses]
  | cons g gs ih => rw [countClasses, ih, List.length_range, List.length_cons, Nat.succ_mul, Nat.add_comm]

theorem resourceCount_eq (n : Int) : resourceCount n = groups.length * perGroup n :=
  countClasses_eq (perGroup n) groups

def lastId (n : Int) : Nat := firstId.toNat + resourceCount n - 1

private theorem readNumeral_declared {n : Int} {k : Nat} (hk : k < resourceCount n)
    (h : (Nat.toDigits 10 (lastId n)).length ≤ 4300) :
    readNumeral .ten (toString (firstId + (k : Int))) = .ok (firstId + k) := by
  have hle : (firstId + (k : Int)).natAbs ≤ lastId n := by
    unfold lastId firstId
    omega
  rw [readNumeral_toString, if_pos ((length_toDigits_mono hle).trans h)]

private theorem length_declaredGroups (per : Nat) (gs : List String) (id : Int) :
    (declaredGroups per gs id).length = gs.length ∧ ∀ g ∈ declaredGroups per gs id, g.2.length = per := by
  induction gs generalizing id with
  | nil => simp [declaredGroups]
  | cons g gs ih =>
    obtain ⟨hlength, hall⟩ := ih (id + per)
    rw [declaredGroups, List.length_cons, List.length_cons, hlength, List.forall_mem_cons]
    exact ⟨rfl, by simp [declarations], hall⟩

private theorem map_fst_fileSeen {per : Nat} {gs : List (String × List (String × String))}
    (hlength : gs.length = groups.length) (hgs : ∀ g ∈ gs, g.2.length = per) :
    (fileSeen gs).map Prod.fst ++ [.eof] = fileKinds per := by
  have hbody : (gs.flatMap fun g => groupSeen g.1 g.2).map Prod.fst =
      (List.replicate groups.length (groupKinds per)).flatten := by
    rw [List.map_flatMap, ← hlength, ← List.map_const', List.flatMap_def]
    congr 1
    refine List.map_congr_left fun g hg => ?_
    rw [map_fst_groupSeen, hgs g hg]
  rw [fileSeen, List.append_assoc, List.map_append, List.map_append, hbody, List.append_assoc]
  simp [fileKinds, braced]

private theorem kinds_fileWords (n : Int) :
    (seen (fileWords n)).map Prod.fst ++ [.eof] = fileKinds (perGroup n) := by
  obtain ⟨hlength, hall⟩ := length_declaredGroups (perGroup n) groups firstId
  rw [seen_fileWords, map_fst_fileSeen hlength hall]

/-- The tree of the file gives the names and numbers of its groups to the reader. -/
private theorem read_resourceFile {n : Int} {t : Tree} (ht : t.IsSound)
    (hr : t.rule? = some .compilationUnit) (hw : t.words = seen (fileWords n)) :
    ({} : Reader).read t = (declareGroups (declaredGroups (perGroup n) groups firstId)
      { package := "com.example.app", names := ["R"] }).andThen fun r => .ok r.pop := by
  obtain ⟨hlength, hall⟩ := length_declaredGroups (perGroup n) groups firstId
  refine walk_file (isFile_of_isSound ht hr ?_) (hw.trans (seen_fileWords n)) hlength hall
  rw [← kinds_fileWords n, ← hw, Tree.words, List.map_map]
  rfl

/-- The numbers of a sample file are all read if the last of them does not have too many digits. -/
private theorem declareGroups_file {n : Int} (h : (Nat.toDigits 10 (lastId n)).length ≤ 4300) :
    declareGroups (declaredGroups (perGroup n) groups firstId)
      { package := "com.example.app", names := ["R"] } =
      .ok { package := "com.example.app", names := ["R"], table := resourceTable n } := by
  have hids : (namedGroups ["R"] (perGroup n) groups firstId).ids.Nodup := by
    rw [ids_namedGroups]
    refine List.nodup_range.map fun a b hab => ?_
    omega
  rw [declareGroups_ok fun k hk => readNumeral_declared (by rwa [resourceCount_eq]) h, enterAll_of_fresh,
    List.nil_append, namedGroups_file]
  exact hids

private theorem reads_resourceFile (n : Int) {o : Tree × Outcome}
    (ho : o = (Parser.ofSource (.ofString (resourceFile n))).parse .compilationUnit) :
    (Source.ofString (resourceFile n)).errors = [] ∧ o.2.halt = none ∧ o.2.parser.reports = [] ∧
      ({} : Reader).read o.1 = (declareGroups (declaredGroups (perGroup n) groups firstId)
        { package := "com.example.app", names := ["R"] }).andThen fun r => .ok r.pop := by
  obtain ⟨herrors, hhalt, hreports, hsound, hrule, hwords⟩ := Session.Reachable.start.reads_words
    (spaced_fileWords n) (spelled_fileWords n) (kinds_fileWords n ▸ spells_fileKinds (perGroup n)) ho
  exact ⟨herrors, hhalt, hreports, read_resourceFile hsound hrule hwords⟩

theorem surveyResources_eq {n : Int} (h : (Nat.toDigits 10 (lastId n)).length ≤ 4300) :
    surveyResources n = resourceTable n := by
  obtain ⟨-, -, -, hread⟩ := reads_resourceFile n rfl
  rw [surveyResources, unitTree, hread, declareGroups_file h]
  rfl

/-- Every number of the file is found in what is read from it. -/
theorem isSome_get?_resourceTable {n : Int} {k : Nat} (hk : k < resourceCount n) :
    ((resourceTable n).get? (firstId + k)).isSome := by
  apply Table.isSome_get?_of_mem
  rw [← namedGroups_file, ids_namedGroups, ← resourceCount_eq]
  exact List.mem_map_of_mem (List.mem_range.mpr hk)

/-- The sample file declares as many resources as it is said to. It has no mistake, and what is read
from it is what it declares: the resources of its groups one after another. There is such a file only if
its last number does not have too many digits to be written at all. -/
theorem resourceFile_is_read_back (n : Int) :
    resourceCount n = 7 * max 1 (n.fdiv 7).toNat ∧ (resourceTable n).length = resourceCount n ∧
    (Source.ofString (resourceFile n)).errors = [] ∧
    let o := (Parser.ofSource (.ofString (resourceFile n))).parse .compilationUnit
    o.2.halt = none ∧ o.2.parser.reports = [] ∧
    ((Nat.toDigits 10 (lastId n)).length ≤ 4300 → ({} : Reader).read o.1 =
      .ok { package := "com.example.app", names := [], table := resourceTable n }) := by
  generalize ho : (Parser.ofSource (.ofString (resourceFile n))).parse .compilationUnit = o
  obtain ⟨herrors, hhalt, hreports, hread⟩ := reads_resourceFile n ho.symm
  refine ⟨resourceCount_eq n, ?_, herrors, hhalt, hreports, fun hdigits => ?_⟩
  · rw [resourceCount_eq, ← namedGroups_file, ← List.length_map, ← Table.ids, ids_namedGroups, List.length_map,
      List.length_range]
  · rw [hread, declareGroups_file hdigits]
    rfl

end ResourceNames.Sample
