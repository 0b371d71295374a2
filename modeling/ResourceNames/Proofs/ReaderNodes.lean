import ResourceNames.Proofs.Outlines
import ResourceNames.Proofs.Walks
import ResourceNames.Resource.Reader

/-!
What a reader does at the nodes of a tree.

A reader looks at the rules and words of a tree only, and not at places. It goes through most nodes
without a change. A package is kept, a class adds its name for the time of its body, and a variable
enters its value.
-/
namespace ResourceNames.Resource.Reader

open Java Text

/-! ### Reading without places -/

theorem text_bare (t : Tree) : t.bare.text = t.text := by
  induction t using Tree.ofChildren with
  | leaf | missing => rfl
  | node rule start stop fields children ih =>
    have htexts : Tree.texts (children.map Tree.bare) = Tree.texts children := by
      clear start stop fields
      induction children with
      | nil => rfl
      | cons c cs ih' =>
        rw [List.forall_mem_cons] at ih
        rw [List.map_cons, Tree.texts, Tree.texts, ih.1, ih' ih.2]
    rw [Tree.bare, Tree.text, Tree.text, Tree.bareAll_eq_map, htexts]

theorem rule?_bare (t : Tree) : t.bare.rule? = t.rule? := by
  cases t <;> rfl

theorem child?_bare (t : Tree) (part : Part) : t.bare.child? part = (t.child? part).map Tree.bare := by
  have hchildren : t.bare.children = t.children.map Tree.bare := by
    cases t with
    | leaf | missing => rfl
    | node => exact Tree.bareAll_eq_map _
  have hholds : part.holds ∘ Tree.bare = part.holds := by
    funext c
    cases part <;> cases c <;> rfl
  rw [Tree.child?, Tree.child?, hchildren, List.find?_map, hholds]

private theorem pushPart_bare (t : Tree) (part : Part) (r : Reader) :
    r.pushPart t.bare part = r.pushPart t part := by
  rw [pushPart, pushPart, child?_bare]
  cases t.child? part with
  | none => rfl
  | some c => simp only [Option.map_some, text_bare]

private theorem enter_bare (t : Tree) (r : Reader) : visitor.enter t.bare r = visitor.enter t r := by
  simp only [visitor, rule?_bare, child?_bare, pushPart_bare]
  split
  · cases t.child? (.rule .qualifiedName) with
    | none => rfl
    | some c => simp only [Option.map_some, text_bare]
  · rfl
  · congr 1
    funext r
    exact pushPart_bare t _ r
  · rfl

private theorem exit_bare (t : Tree) (r : Reader) : visitor.exit t.bare r = visitor.exit t r := by
  simp only [visitor, rule?_bare]

/-- What a reader knows after a tree depends on the rules and leaves of the tree alone. -/
theorem walk_bare (t : Tree) (r : Reader) : t.bare.walk visitor r = t.walk visitor r := by
  induction t using Tree.ofChildren generalizing r with
  | leaf | missing => rfl
  | node rule start stop fields children ih =>
    have hwalk : ∀ r, Tree.walkAll visitor (children.map Tree.bare) r =
        Tree.walkAll visitor children r := by
      clear start stop fields
      induction children with
      | nil => exact fun _ => rfl
      | cons c cs ih' =>
        rw [List.forall_mem_cons] at ih
        intro r
        rw [List.map_cons, Tree.walkAll, Tree.walkAll, ih.1, funext (ih' ih.2)]
    have henter := enter_bare (.node rule start stop fields children)
    have hexit := exit_bare (.node rule start stop fields children)
    rw [Tree.bare, Tree.bareAll_eq_map] at henter hexit ⊢
    rw [Tree.walk, Tree.walk, henter, funext hwalk, funext hexit]

/-! ### Going through nodes -/

variable {rule : Rule} {start : Token} {stop : Option Token} {fields : List (Field × Tree)}
  {children : List Tree}

/-- Most nodes are gone through without a change. -/
theorem walk_plain (h : rule ≠ .packageDeclaration ∧ rule ≠ .classDeclaration ∧ rule ≠ .variableDeclarator)
    (r : Reader) : (.node rule start stop fields children : Tree).walk visitor r = Tree.walkAll visitor children r := by
  have henter : visitor.enter (.node rule start stop fields children) r = .ok r := by
    simp only [visitor, Tree.rule?]
    split <;> simp_all
  have hexit : visitor.exit (.node rule start stop fields children) = Visited.ok := by
    funext r
    simp only [visitor, Tree.rule?]
    split <;> simp_all
  rw [Tree.walk, henter, hexit, Visited.ok_andThen, Visited.andThen_ok_right]

theorem walk_leaf (token : Token) (stray : Bool) (r : Reader) :
    (.leaf token stray : Tree).walk visitor r = .ok r := rfl

theorem walkAll_nil : Tree.walkAll visitor [] = Visited.ok := rfl

theorem walkAll_cons (t : Tree) (ts : List Tree) :
    Tree.walkAll visitor (t :: ts) = fun r => (t.walk visitor r).andThen (Tree.walkAll visitor ts) := rfl

/-- A variable adds its name and value, and enters the value when it is left. -/
theorem walk_variable {id equals value : Tree} (hid : id.rule? = some .variableDeclaratorId)
    (hequals : equals.rule? = none) (hvalue : value.rule? = some .variableInitializer)
    (hchildren : ∀ r, Tree.walkAll visitor [id, equals, value] r = .ok r) (r : Reader) :
    (.node .variableDeclarator start stop fields [id, equals, value] : Tree).walk visitor r =
      ((r.push id.text).push value.text).enterValue := by
  have hid? : (.node .variableDeclarator start stop fields [id, equals, value] : Tree).child?
      (.rule .variableDeclaratorId) = some id := by
    simp [Tree.child?, Tree.children, Part.holds, Tree.isRule_eq_true_iff, hid]
  have hvalue? : (.node .variableDeclarator start stop fields [id, equals, value] : Tree).child?
      (.rule .variableInitializer) = some value := by
    simp [Tree.child?, Tree.children, Part.holds, Tree.isRule_eq_true_iff, hid, hequals, hvalue]
  have henter : visitor.enter (.node .variableDeclarator start stop fields [id, equals, value]) r =
      .ok ((r.push id.text).push value.text) := by
    simp [visitor, Tree.rule?, pushPart, hid?, hvalue?]
  rw [Tree.walk, henter, Visited.ok_andThen, hchildren, Visited.ok_andThen]
  rfl

section

variable {s₁ s₂ s₃ s₄ s₅ s₆ : Token} {t₁ t₂ t₃ t₄ t₅ t₆ : Option Token} {f₁ f₂ f₃ f₄ f₅ f₆ : List (Field × Tree)}

/-- A variable whose value is a number enters it under the names around the variable. -/
theorem walk_number {id equals digits : Token} (r : Reader) :
    (.node .variableDeclarator start stop fields [.node .variableDeclaratorId s₁ t₁ f₁ [.leaf id false],
      .leaf equals false, .node .variableInitializer s₂ t₂ f₂ [.node .expression s₃ t₃ f₃ [.node .primary s₄ t₄ f₄
        [.node .literal s₅ t₅ f₅ [.node .integerLiteral s₆ t₆ f₆ [.leaf digits false]]]]]] : Tree).walk visitor r =
      match readNumeral .ten digits.text with
      | .ok value => .ok { r with table := r.table.insert value (".".intercalate (r.names ++ [id.text])) }
      | .error e => .failed (r.push id.text) (.numeral e) := by
  have hlast : ((r.push id.text).push digits.text).names.getLast?.getD "" = digits.text := by simp [push]
  rw [walk_variable rfl rfl rfl]
  · simp only [Tree.text, Tree.texts, String.append_empty, enterValue, hlast]
    cases readNumeral .ten digits.text <;> simp [push, pop]
  · simp [walk_plain, walk_leaf, walkAll_nil, walkAll_cons]

end

/-- A package is kept under its name. -/
theorem walk_package {keyword mark : Token} {stray stray' : Bool} {name : Tree}
    (hname : name.rule? = some .qualifiedName) (hplain : ∀ r, name.walk visitor r = .ok r) (r : Reader) :
    (.node .packageDeclaration start stop fields [.leaf keyword stray, name, .leaf mark stray'] : Tree).walk
      visitor r = .ok { r with package := name.text } := by
  have hname? : (.node .packageDeclaration start stop fields
      [.leaf keyword stray, name, .leaf mark stray'] : Tree).child? (.rule .qualifiedName) = some name := by
    have hleaf : (.leaf keyword stray : Tree).isRule .qualifiedName = false := rfl
    simp [Tree.child?, Tree.children, Part.holds, hleaf, Tree.isRule_eq_true_iff.mpr hname]
  have henter : visitor.enter (.node .packageDeclaration start stop fields
      [.leaf keyword stray, name, .leaf mark stray']) r = .ok { r with package := name.text } := by
    simp [visitor, Tree.rule?, hname?]
  rw [Tree.walk, henter, Visited.ok_andThen]
  simp only [walkAll_cons, walk_leaf, walkAll_nil, hplain, Visited.ok_andThen]
  rfl

/-- A class adds its name, and takes it off when it is left. -/
theorem walk_class {keyword name : Token} {stray stray' : Bool} (hkeyword : keyword.kind = .kwClass)
    (hname : name.kind = .identifier) (body : Tree) (r : Reader) :
    (.node .classDeclaration start stop fields [.leaf keyword stray, .leaf name stray', body] : Tree).walk
      visitor r = (body.walk visitor (r.push name.text)).andThen fun r => .ok r.pop := by
  have hname? : (.node .classDeclaration start stop fields
      [.leaf keyword stray, .leaf name stray', body] : Tree).child? (.token .identifier) =
      some (.leaf name stray') := by
    simp [Tree.child?, Tree.children, Part.holds, Tree.isKind, hkeyword, hname]
  have henter : visitor.enter (.node .classDeclaration start stop fields
      [.leaf keyword stray, .leaf name stray', body]) r = .ok (r.push name.text) := by
    simp [visitor, Tree.rule?, pushPart, hname?, Tree.text]
  rw [Tree.walk, henter, Visited.ok_andThen]
  simp only [walkAll_cons, walk_leaf, walkAll_nil, Visited.ok_andThen, Visited.andThen_ok_right]
  rfl

end ResourceNames.Resource.Reader
