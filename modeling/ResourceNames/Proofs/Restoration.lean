import ResourceNames.Proofs.Edits
import ResourceNames.Proofs.Outlines
import ResourceNames.Proofs.Sessions
import ResourceNames.Proofs.Units
import ResourceNames.Proofs.Walks

/-!
What a restorer edits.

Going through the tree of a file replaces exactly the numbers in base sixteen that are in the
table, in their order, and puts the import after the package. The replaced tokens are found in the
tree; in a file that is read without a report they are all tokens of that kind.
-/
namespace ResourceNames

open Java Text

namespace Java.Tree

/-- A node of a tree is its root or a child of another one. -/
theorem mem_nodes_cases {n t : Tree} (h : n ∈ t.nodes) :
    n = t ∨ ∃ m ∈ t.nodes, n ∈ m.children := by
  induction t using ofChildren with
  | leaf | missing => simp [nodes] at h
  | node rule start stop fields children ih =>
    rcases List.mem_cons.mp h with h | h
    · exact .inl h
    · obtain ⟨c, hc, hn⟩ := mem_nodesAll.mp h
      rcases ih c hc hn with rfl | ⟨m, hm, hn⟩
      · exact .inr ⟨_, List.mem_cons_self, hc⟩
      · exact .inr ⟨m, List.mem_cons_of_mem _ (mem_nodesAll.mpr ⟨c, hc, hm⟩), hn⟩

theorem nodesAll_of_rule?_eq_none {ts : List Tree} (h : ∀ t ∈ ts, t.rule? = none) :
    nodesAll ts = [] := by
  rw [List.eq_nil_iff_forall_not_mem]
  intro n hn
  obtain ⟨t, ht, hn⟩ := mem_nodesAll.mp hn
  cases t with
  | leaf | missing => simp [nodes] at hn
  | node => simpa [rule?] using h _ ht

theorem eq_node {t : Tree} {r : Rule} (h : t.rule? = some r) :
    ∃ start stop fields children, t = .node r start stop fields children := by
  cases t with
  | leaf | missing => cases h
  | node => exact ⟨_, _, _, _, by rw [Option.some.inj h]⟩

theorem mem_nodes_self {t : Tree} {r : Rule} (h : t.rule? = some r) : t ∈ t.nodes := by
  cases t with
  | leaf | missing => cases h
  | node => exact List.mem_cons_self

theorem nodes_subset {n c : Tree} (h : c ∈ n.children) : c.nodes ⊆ n.nodes := by
  cases n with
  | leaf | missing => simp [children] at h
  | node => exact fun m hm => List.mem_cons_of_mem _ (mem_nodesAll.mpr ⟨c, h, hm⟩)

theorem nodesAll_append (ts us : List Tree) : nodesAll (ts ++ us) = nodesAll ts ++ nodesAll us := by
  induction ts with
  | nil => rfl
  | cons t ts ih => simp [nodesAll, ih]

def numbers (t : Tree) : List Token := (t.nodes.filter (isRule .integerLiteral)).flatMap tokens

def numbersAll (ts : List Tree) : List Token :=
  ((nodesAll ts).filter (isRule .integerLiteral)).flatMap tokens

@[simp] theorem numbersAll_nil : numbersAll [] = [] := rfl

@[simp] theorem numbersAll_cons (t : Tree) (ts : List Tree) :
    numbersAll (t :: ts) = t.numbers ++ numbersAll ts := by
  simp [numbersAll, numbers, nodesAll]

theorem numbersAll_append (ts us : List Tree) :
    numbersAll (ts ++ us) = numbersAll ts ++ numbersAll us := by
  induction ts with
  | nil => rfl
  | cons t ts ih => simp [ih]

theorem numbers_subset {c t : Tree} (h : c.nodes ⊆ t.nodes) : c.numbers ⊆ t.numbers := by
  intro u hu
  simp only [numbers, List.mem_flatMap, List.mem_filter] at hu ⊢
  obtain ⟨n, ⟨hn, hr⟩, hu⟩ := hu
  exact ⟨n, ⟨h hn, hr⟩, hu⟩

theorem numbers_node {rule : Rule} (h : rule ≠ .integerLiteral) (start : Token)
    (stop : Option Token) (fields : List (Field × Tree)) (children : List Tree) :
    (Java.Tree.node rule start stop fields children).numbers = numbersAll children := by
  simp [numbers, numbersAll, nodes, isRule, h]

theorem IsNumber.numbers_eq {t : Tree} (h : t.IsNumber) : t.numbers = t.tokens := by
  cases h
  simp [numbers, nodes, nodesAll, isRule]

def NumbersAreTokens (t : Tree) : Prop := ∀ n ∈ t.nodes, n.rule? = some .integerLiteral → n.IsNumber

theorem NumbersAreTokens.mono {t c : Tree} (h : t.NumbersAreTokens) (hc : c.nodes ⊆ t.nodes) :
    c.NumbersAreTokens :=
  fun n hn => h n (hc hn)

/-- The numbers are tokens of the tree, in the same order. -/
theorem NumbersAreTokens.sublist {t : Tree} (h : t.NumbersAreTokens) : t.numbers.Sublist t.tokens := by
  induction t using ofChildren with
  | leaf | missing => simp [numbers, nodes]
  | node rule start stop fields children ih =>
    by_cases hr : rule = .integerLiteral
    · have hone := (h _ List.mem_cons_self (by rw [hr]; rfl)).numbers_eq
      simp only [hone, List.Sublist.refl]
    · rw [numbers_node hr, tokens]
      have hall : ∀ c ∈ children, c.numbers.Sublist c.tokens := fun c hc =>
        ih c hc (h.mono (nodes_subset hc))
      clear ih h
      induction children with
      | nil => exact .slnil
      | cons c cs ih =>
        rw [numbersAll_cons, tokensAll]
        exact (hall c List.mem_cons_self).append (ih fun d hd => hall d (List.mem_cons_of_mem _ hd))

end Java.Tree

namespace Java.Parser

private theorem rule_of_parts : ∀ r ∈ Rule.all,
    (.integerLiteral ∈ r.parts → r = .literal) ∧
      (.packageDeclaration ∈ r.parts → r = .compilationUnit) ∧ .compilationUnit ∉ r.parts := by
  decide +kernel

variable {t n : Tree}

private theorem Built.rule {m : Tree} (hm : Built m) (hn : n ∈ m.children) {r : Rule}
    (hr : n.rule? = some r) : ∃ q, m.rule? = some q ∧ r ∈ q.parts := by
  cases m with
  | leaf | missing => simp [Tree.children] at hn
  | node q => exact ⟨q, rfl, hm.parts hn hr⟩

/-- The numbers of a tree are tokens, however broken the source was. -/
theorem numbersAreTokens_of_built (h : t.Each Built) (ht : t.rule? ≠ some .integerLiteral) :
    t.NumbersAreTokens := by
  intro n hn hr
  rcases Tree.mem_nodes_cases hn with rfl | ⟨m, hm, hc⟩
  · exact absurd hr ht
  · obtain ⟨q, hq, hp⟩ := (h m hm).rule hc hr
    cases m with
    | leaf | missing => cases hq
    | node =>
      cases hq
      obtain rfl := (rule_of_parts q (Layout.mem_all q)).1 hp
      exact (h _ hm).isNumber hc hr

/-- Only a unit has the declaration of a package as a child, and nothing has a unit as one. -/
private theorem Built.child {m : Tree} (hm : Built m) (hn : n ∈ m.children) :
    (n.rule? = some .packageDeclaration → m.rule? = some .compilationUnit) ∧
      n.rule? ≠ some .compilationUnit := by
  refine ⟨fun hr => ?_, fun hr => ?_⟩ <;> obtain ⟨q, hq, hp⟩ := hm.rule hn hr
  · exact (rule_of_parts q (Layout.mem_all q)).2.1 hp ▸ hq
  · exact (rule_of_parts q (Layout.mem_all q)).2.2 hp

/-- Below a node that is no unit no package is declared. -/
theorem eq_of_package (h : t.Each Built) (ht : t.rule? ≠ some .compilationUnit) (hn : n ∈ t.nodes)
    (hr : n.rule? = some .packageDeclaration) : n = t := by
  rcases Tree.mem_nodes_cases hn with rfl | ⟨m, hm, hc⟩
  · rfl
  · have hunit := ((h m hm).child hc).1 hr
    rcases Tree.mem_nodes_cases hm with rfl | ⟨m', hm', hc'⟩
    · exact absurd hunit ht
    · exact absurd hunit ((h m' hm').child hc').2

/-- The declaration of a package is the first node of a unit, and there is no other one. -/
theorem unit_package {s : Parser} (hs : s.Regular) {tree : Tree}
    (ht : tree = (s.parse .compilationUnit).1) :
    (∀ m ∈ tree.nodes, m.rule? ≠ some .packageDeclaration) ∨
    ∃ (before : List Tree) (n : Tree) (after : List Tree),
      tree.children = before ++ n :: after ∧ (∀ c ∈ before, c.rule? = none) ∧
      n.rule? = some .packageDeclaration ∧ n.stop? ≠ none ∧
      ∀ c ∈ n.children ++ after, ∀ m ∈ c.nodes, m.rule? ≠ some .packageDeclaration := by
  obtain ⟨before, package, after, hcs, hbefore, hafter, hpackage⟩ := unit_children hs
  have hb : tree.Each Built := ht ▸ each_built_parse .compilationUnit hs
  rw [← ht] at hcs
  obtain ⟨start, stop, fields, children, rfl⟩ : ∃ start stop fields children,
      tree = .node .compilationUnit start stop fields children := ⟨_, _, _, _, ht⟩
  obtain ⟨hroot, hbc⟩ := Tree.each_node.mp hb
  obtain rfl : children = before ++ package.toList ++ after := hcs
  -- A child that declares no package has no package below it either.
  have hplain : ∀ c ∈ before ++ package.toList ++ after, c.rule? ≠ some .packageDeclaration →
      ∀ m ∈ c.nodes, m.rule? ≠ some .packageDeclaration := fun c hc hcr m hm hmr =>
    hcr (eq_of_package (hbc c hc) (hroot.child hc).2 hm hmr ▸ hmr)
  cases package with
  | none =>
    refine .inl fun m hm => ?_
    rcases List.mem_cons.mp hm with rfl | hm
    · simp [Tree.rule?]
    · obtain ⟨c, hc, hm⟩ := Tree.mem_nodesAll.mp hm
      refine hplain c hc ?_ m hm
      rcases List.mem_append.mp hc with hc | hc
      · simp [hbefore c (by simpa using hc)]
      · exact hafter c hc
  | some n =>
    obtain ⟨hrule, hstop⟩ := hpackage n rfl
    have hmem : n ∈ before ++ (some n).toList ++ after := by simp
    refine .inr ⟨before, n, after, by simp [Tree.children], hbefore, hrule, hstop, fun c hc => ?_⟩
    rcases List.mem_append.mp hc with hc | hc
    · have hn := hbc n hmem
      have hchild := (hn n (Tree.mem_nodes_self hrule)).child hc
      intro m hm hmr
      have hcn : c.Each Built := fun x hx => hn x (Tree.nodes_subset hc hx)
      obtain rfl := eq_of_package hcn hchild.2 hm hmr
      simp [hrule] at hchild
      exact hchild.1 hmr
    · exact hplain c (by simp [hc]) (hafter c hc)

/-- A unit declares at most one package. -/
theorem length_packages_le_one {s : Parser} (hs : s.Regular) {tree : Tree}
    (ht : tree = (s.parse .compilationUnit).1) :
    (tree.nodes.filter (Tree.isRule .packageDeclaration)).length ≤ 1 := by
  have hnil : ∀ ts : List Tree, (∀ m ∈ ts, m.rule? ≠ some .packageDeclaration) →
      ts.filter (Tree.isRule .packageDeclaration) = [] := fun ts h =>
    List.filter_eq_nil_iff.mpr fun m hm => by simpa [Tree.isRule_eq_true_iff] using h m hm
  rcases unit_package hs ht with hno | ⟨before, n, after, hcs, hbefore, hrule, -, hno⟩
  · simp [hnil _ hno]
  · have hall : ∀ cs ⊆ n.children ++ after, ∀ m ∈ Tree.nodesAll cs,
        m.rule? ≠ some .packageDeclaration := by
      intro cs hsub m hm
      obtain ⟨c, hc, hm⟩ := Tree.mem_nodesAll.mp hm
      exact hno c (hsub hc) m hm
    obtain ⟨start, stop, fields, children, rfl⟩ : ∃ start stop fields children,
        tree = .node .compilationUnit start stop fields children := ⟨_, _, _, _, ht⟩
    obtain ⟨start', stop', fields', children', rfl⟩ := Tree.eq_node hrule
    obtain rfl : children = before ++ .node _ start' stop' fields' children' :: after := hcs
    have hinside := hnil _ (hall children' (List.subset_append_left _ _))
    have hafter := hnil _ (hall after (List.subset_append_right _ _))
    simp [Tree.nodes, Tree.nodesAll_append, Tree.nodesAll, Tree.nodesAll_of_rule?_eq_none hbefore,
      Tree.isRule, hinside, hafter]

end Java.Parser

namespace Resource

/-- The token, with the name of the resource it stands for: a number in base sixteen that is in
the table. -/
def Table.named? (table : Table) (t : Token) : Option (Token × String) :=
  if t.kind = .hexLiteral then
    match readNumeral .sixteen t.text with
    | .ok id => (table.get? id).map fun name => (t, name)
    | .error _ => none
  else none

theorem Table.eq_of_named? {table : Table} {t : Token} {h : Token × String}
    (hn : table.named? t = some h) : h.1 = t ∧ t.kind = .hexLiteral := by
  unfold named? at hn
  split at hn
  · rename_i hk
    split at hn
    · obtain ⟨name, -, rfl⟩ := Option.map_eq_some_iff.mp hn
      exact ⟨rfl, hk⟩
    · cases hn
  · cases hn

theorem Table.map_named? (table : Table) (ts : List Token) :
    (ts.filterMap table.named?).map Prod.fst = ts.filter fun t => (table.named? t).isSome := by
  induction ts with
  | nil => rfl
  | cons t ts ih =>
    cases h : table.named? t with
    | none => simp [h, ih]
    | some hit => simp [h, ih, (eq_of_named? h).1]

def Table.hits (table : Table) (t : Tree) : List (Token × String) :=
  t.numbers.filterMap table.named?

theorem Table.hits_sublist (table : Table) (t : Tree) :
    ((table.hits t).map Prod.fst).Sublist t.numbers := by
  rw [hits, map_named?]
  exact List.filter_sublist

theorem Table.kind_of_mem_hits {table : Table} {t : Tree} {h : Token × String}
    (hm : h ∈ table.hits t) : h.1.kind = .hexLiteral := by
  obtain ⟨u, -, hu⟩ := List.mem_filterMap.mp hm
  obtain ⟨he, hk⟩ := eq_of_named? hu
  exact he ▸ hk

private theorem hexLiteral_of_ofRule : ∀ r ∈ Rule.all,
    Part.token .hexLiteral ∈ (Accessor.ofRule r).map Accessor.part → r = .integerLiteral := by
  decide +kernel

/-- In a derivation every number in base sixteen is the token of a number. -/
theorem hexNumbers_eq_tokens {t : Tree} (h : t.IsSound) (hn : t.NumbersAreTokens)
    (ht : t.part ≠ .token .hexLiteral) :
    t.numbers.filter (fun u => u.kind = .hexLiteral) = t.tokens.filter fun u => u.kind = .hexLiteral := by
  induction t using Tree.ofChildren with
  | leaf u stray =>
    have hk : u.kind ≠ .hexLiteral := by simpa [Tree.part] using ht
    by_cases he : u.kind = .eof <;> simp [Tree.numbers, Tree.nodes, Tree.tokens, he, hk]
  | missing => simp [Tree.numbers, Tree.nodes, Tree.tokens]
  | node rule start stop fields children ih =>
    by_cases hr : rule = .integerLiteral
    · rw [(hn _ List.mem_cons_self (by rw [hr]; rfl)).numbers_eq]
    · obtain ⟨⟨hw, herr⟩, hs⟩ := Tree.each_node.mp h.2
      have hall : ∀ c ∈ children, c.numbers.filter (fun u => u.kind = .hexLiteral) =
          c.tokens.filter fun u => u.kind = .hexLiteral := by
        intro c hc
        refine ih c hc ⟨herr c hc, hs c hc⟩ (hn.mono (Tree.nodes_subset hc)) fun hp => hr ?_
        exact hexLiteral_of_ofRule rule (Layout.mem_all rule)
          (Accessor.mem_ofRule hw (hp ▸ List.mem_map_of_mem hc))
      rw [Tree.numbers_node hr, Tree.tokens]
      clear ih hw herr hs hn h ht
      induction children with
      | nil => rfl
      | cons c cs ih =>
        rw [Tree.numbersAll_cons, Tree.tokensAll, List.filter_append, List.filter_append,
          hall c List.mem_cons_self, ih fun d hd => hall d (List.mem_cons_of_mem _ hd)]

/-- A table names numbers in base sixteen only. -/
theorem Table.filterMap_named? (table : Table) (ts : List Token) :
    (ts.filter fun t => t.kind = .hexLiteral).filterMap table.named? = ts.filterMap table.named? := by
  rw [List.filterMap_filter]
  refine List.filterMap_congr fun t _ => ?_
  by_cases hk : t.kind = .hexLiteral <;> simp [hk, named?]

/-- All numbers in base sixteen among some tokens can be read. -/
def Readable (ts : List Token) : Prop :=
  ∀ t ∈ ts, t.kind = .hexLiteral → ∃ id, readNumeral .sixteen t.text = .ok id

theorem readable_iff {ts : List Token} : Readable ts ↔
    ∀ t ∈ ts, t.kind = .hexLiteral → (readNumeral .sixteen t.text).isOk = true := by
  refine forall_congr' fun t => imp_congr_right fun _ => imp_congr_right fun _ => ?_
  cases readNumeral .sixteen t.text <;> simp [Except.isOk, Except.toBool]

instance (ts : List Token) : Decidable (Readable ts) := decidable_of_iff' _ readable_iff

theorem Readable.mono {ts us : List Token} (h : Readable us) (hs : ts ⊆ us) : Readable ts :=
  fun t ht => h t (hs ht)

namespace Restorer

def naming (h : Token × String) : Edit := .replace h.1.index h.1.index h.2

/-- The entry of a program that puts a name in place of a token. -/
def replacement (h : Token × String) : Option Edit := some (naming h)

@[simp] theorem edits_replacements (hits : List (Token × String)) :
    Program.edits (hits.map replacement) = hits.map naming := by
  induction hits with
  | nil => rfl
  | cons h hits ih => exact congrArg (naming h :: ·) ih

def record (hits : List (Token × String)) (r : Restorer) : Restorer :=
  { r with program := r.program ++ hits.map replacement, count := r.count + hits.length }

@[simp] theorem record_nil (r : Restorer) : r.record [] = r := by simp [record]

@[simp] theorem record_record (hits hits' : List (Token × String)) (r : Restorer) :
    (r.record hits).record hits' = r.record (hits ++ hits') := by
  simp [record, Nat.add_assoc]

variable (table : Table) {n t : Tree}

private theorem literal_of_isNumber (h : n.IsNumber) (hr : Readable n.tokens) (r : Restorer) :
    r.literal table n = .ok (r.record (n.tokens.filterMap table.named?)) := by
  cases h with
  | @mk t fields kind =>
    have hne : t.kind ≠ .eof := fun h => by simp [h, Kind.integers] at kind
    have htokens : (Java.Tree.node .integerLiteral t (some t) fields [.leaf t false]).tokens = [t] := by
      simp [Tree.tokens, Tree.tokensAll, hne]
    rw [htokens] at hr ⊢
    by_cases hk : t.kind = .hexLiteral
    · obtain ⟨id, hid⟩ := hr t (List.mem_singleton_self t) hk
      cases hg : table.get? id with
      | none =>
        simp [literal, Tree.start?, Tree.child?, Tree.children, Part.holds, Tree.isKind, hk, Tree.text,
          hid, hg, Table.named?]
      | some name =>
        simp [literal, Tree.start?, Tree.child?, Tree.children, Part.holds, Tree.isKind, hk, Tree.text,
          hid, hg, Table.named?, record, replacement, naming, edit]
    · simp [literal, Tree.start?, Tree.child?, Tree.children, Part.holds, Tree.isKind, hk,
        Table.named?]

/-- In a tree that is gone through without a fault all numbers can be read. -/
theorem readable_of_restore {t : Tree} (hn : t.NumbersAreTokens) {r : Restorer}
    (h : (r.restore table t).fault = none) : Readable t.numbers := by
  intro u hu hk
  obtain ⟨n, hin, hun⟩ := List.mem_flatMap.mp hu
  obtain ⟨hin, hrule⟩ := List.mem_filter.mp hin
  have hrule := Tree.isRule_eq_true_iff.mp hrule
  obtain ⟨s, hs⟩ := Tree.enter_ok_of_walk t h n hin
  cases hn n hin hrule with
  | @mk v fields kind =>
    have hne : v.kind ≠ .eof := fun h => by simp [h, Kind.integers] at kind
    have huv : u = v := by simpa [Tree.tokens, Tree.tokensAll, hne] using hun
    subst huv
    cases hread : readNumeral .sixteen u.text with
    | ok id => exact ⟨id, rfl⟩
    | error e =>
      simp [visitor, Tree.rule?, literal, Tree.start?, Tree.child?, Tree.children, Part.holds, Tree.isKind,
        hk, Tree.text, hread, Visited.failed] at hs

/-- Going through a tree replaces its numbers and does nothing else. -/
def Replaces (t : Tree) : Prop :=
  ∀ r : Restorer, t.walk (visitor table) r = .ok (r.record (table.hits t))

private theorem walkAll_eq {ts : List Tree} (h : ∀ t ∈ ts, Replaces table t) (r : Restorer) :
    Tree.walkAll (visitor table) ts r =
      .ok (r.record ((Tree.numbersAll ts).filterMap table.named?)) := by
  induction ts generalizing r with
  | nil => simp [Tree.walkAll]
  | cons t ts ih =>
    have hrest := ih (fun u hu => h u (List.mem_cons_of_mem t hu))
      (r.record (table.hits t))
    rw [Tree.walkAll, h t List.mem_cons_self r]
    simpa [Visited.andThen, Visited.ok, Table.hits] using hrest

/-- Only numbers are edited when a node is entered. -/
private theorem walk_node {rule : Rule} (hr : rule ≠ .integerLiteral) (start : Token)
    (stop : Option Token) (fields : List (Field × Tree)) (children : List Tree) (r : Restorer) :
    (Java.Tree.node rule start stop fields children).walk (visitor table) r =
      (Tree.walkAll (visitor table) children r).andThen
        ((visitor table).exit (.node rule start stop fields children)) := by
  have henter : (visitor table).enter (.node rule start stop fields children) r = .ok r := by
    simp only [visitor, Tree.rule?]
    split
    · rename_i h
      exact absurd (Option.some.inj h) hr
    · rfl
  rw [Tree.walk, henter]
  rfl

/-- Only after a package something is edited when a node is left. -/
private theorem exit_eq {rule : Rule} (hr : rule ≠ .packageDeclaration) (start : Token)
    (stop : Option Token) (fields : List (Field × Tree)) (children : List Tree) (r : Restorer) :
    (visitor table).exit (.node rule start stop fields children) r = .ok r := by
  simp only [visitor, Tree.rule?]
  split
  · rename_i h
    exact absurd (Option.some.inj h) hr
  · rfl

/-- A tree without packages is only gone through for its numbers. -/
theorem replaces_of_no_package (hn : t.NumbersAreTokens) (hr : Readable t.numbers)
    (hp : ∀ n ∈ t.nodes, n.rule? ≠ some .packageDeclaration) : Replaces table t := by
  induction t using Tree.ofChildren with
  | leaf | missing => simp [Replaces, Tree.walk, Table.hits, Tree.numbers, Tree.nodes]
  | node rule start stop fields children ih =>
    intro r
    by_cases hrule : rule = .integerLiteral
    · have hnumber := hn _ List.mem_cons_self (by rw [hrule]; rfl)
      have hlit := literal_of_isNumber table hnumber (hnumber.numbers_eq ▸ hr) r
      rw [Table.hits, hnumber.numbers_eq]
      cases hnumber
      simp only [Tree.walk, Tree.walkAll, visitor, Tree.rule?]
      rw [hlit]
      rfl
    · have hpackage : rule ≠ .packageDeclaration := by
        simpa [Tree.rule?] using hp _ List.mem_cons_self
      have hchildren : ∀ c ∈ children, Replaces table c := by
        intro c hc
        have hsub : c.nodes ⊆ (Java.Tree.node rule start stop fields children).nodes := Tree.nodes_subset hc
        exact ih c hc (hn.mono hsub) (hr.mono (Tree.numbers_subset hsub)) fun m hm => hp m (hsub hm)
      rw [walk_node table hrule, walkAll_eq table hchildren, Table.hits,
        Tree.numbers_node hrule]
      exact exit_eq table hpackage start stop fields children _

/-- After the numbers in the declaration of a package comes the import. -/
theorem walk_package {start : Token} {stop : Option Token} {fields : List (Field × Tree)}
    {children : List Tree} (h : ∀ c ∈ children, Replaces table c) (r : Restorer) :
    (Java.Tree.node .packageDeclaration start stop fields children).walk (visitor table) r =
      .ok ((r.record ((Tree.numbersAll children).filterMap table.named?)).addImport
        (.node .packageDeclaration start stop fields children)) := by
  rw [walk_node table (by decide), walkAll_eq table h]
  rfl

theorem addImport_of_empty {r : Restorer} (h : r.package.getD "" = "") : r.addImport n = r := by
  have hp : (r.package.filter fun p => !p.isEmpty) = none := by
    cases hr : r.package <;> simp_all [Option.filter]
  unfold addImport
  rw [hp]
  cases n.stop? <;> rfl

theorem addImport_of_ne_empty {r : Restorer} {name : String} {stop : Token}
    (h : r.package = some name) (hne : name ≠ "") (hs : n.stop? = some stop) :
    r.addImport n = r.edit (.insert (stop.index + 1) (importOf name)) := by
  simp [addImport, hs, h, Option.filter, hne]

variable {s : Parser}

/-- Going through a unit replaces its numbers and adds the import after those of the package. -/
theorem restore_unit (hs : s.Regular) {tree : Tree} (ht : tree = (s.parse .compilationUnit).1)
    (hr : Readable tree.numbers) (r : Restorer) :
    ((∀ m ∈ tree.nodes, m.rule? ≠ some .packageDeclaration) ∧
      r.restore table tree = .ok (r.record (table.hits tree))) ∨
    ∃ n after stop, n ∈ tree.children ∧ n.rule? = some .packageDeclaration ∧
      n.stop? = some stop ∧ tree.numbers = n.numbers ++ after ∧
      r.restore table tree = .ok (((r.record (table.hits n)).addImport n).record
        (after.filterMap table.named?)) := by
  have hb : tree.Each Parser.Built := ht ▸ Parser.each_built_parse .compilationUnit hs
  have hunit : tree.rule? = some .compilationUnit := ht ▸ rfl
  have hn := Parser.numbersAreTokens_of_built hb (by simp [hunit])
  have hreplaces : ∀ c : Tree, c.nodes ⊆ tree.nodes →
      (∀ m ∈ c.nodes, m.rule? ≠ some .packageDeclaration) → Replaces table c := fun c hc hno =>
    replaces_of_no_package table (hn.mono hc) (hr.mono (Tree.numbers_subset hc)) hno
  rcases Parser.unit_package hs ht with hno | ⟨before, n, after, hcs, hbefore, hrule, hstop, hno⟩
  · exact .inl ⟨hno, hreplaces tree (List.Subset.refl _) hno r⟩
  · obtain ⟨start, stop, fields, children, rfl⟩ := Tree.eq_node hunit
    obtain rfl : children = before ++ n :: after := hcs
    have hsub : n.nodes ⊆ (Java.Tree.node .compilationUnit start stop fields (before ++ n :: after)).nodes :=
      Tree.nodes_subset (by simp [Tree.children])
    obtain ⟨start', stop', fields', children', rfl⟩ := Tree.eq_node hrule
    have hleaves := Tree.nodesAll_of_rule?_eq_none hbefore
    have hinside : ∀ c ∈ children', Replaces table c := fun c hc =>
      hreplaces c (List.Subset.trans (Tree.nodes_subset
        (n := .node .packageDeclaration start' stop' fields' children') hc) hsub)
        (hno c (List.mem_append_left _ hc))
    have hafter : ∀ c ∈ after, Replaces table c := fun c hc =>
      hreplaces c (Tree.nodes_subset (by simp [Tree.children, hc])) (hno c (List.mem_append_right _ hc))
    obtain ⟨last, hlast⟩ := Option.ne_none_iff_exists'.mp hstop
    refine .inr ⟨_, Tree.numbersAll after, last, by simp [Tree.children], hrule, hlast, ?_, ?_⟩
    · rw [Tree.numbers_node (by decide), Tree.numbersAll_append, Tree.numbersAll_cons]
      simp [Tree.numbersAll, hleaves]
    · rw [restore, walk_node table (by decide), Tree.walkAll_append,
        Tree.walkAll_of_rule?_eq_none hbefore, Visited.ok_andThen, Tree.walkAll,
        walk_package table hinside, Visited.ok_andThen, walkAll_eq table hafter,
        Visited.ok_andThen, Table.hits, Tree.numbers_node (by decide)]
      exact exit_eq table (by decide) start stop fields _ _

/-- A program that restores a unit: all its numbers that are in the table are replaced, in their
order. If the unit declares a package and there is one to import from, the import stands after the
numbers in that declaration. -/
inductive Restores (package : Option String) (tree : Tree) : Program → Prop where
  | plain (h : ∀ n ∈ tree.nodes, n.rule? = some .packageDeclaration → package.getD "" = "") :
      Restores package tree ((table.hits tree).map replacement)
  | importing {n : Tree} {stop : Token} {name : String} {after : List (Token × String)}
      (mem : n ∈ tree.children) (rule : n.rule? = some .packageDeclaration)
      (last : n.stop? = some stop) (given : package = some name) (ne : name ≠ "")
      (hits : table.hits tree = table.hits n ++ after) :
      Restores package tree ((table.hits n).map replacement ++
        some (.insert (stop.index + 1) (importOf name)) :: after.map replacement)

theorem ranges_replacements (hits : List (Token × String)) :
    Program.ranges (hits.map replacement) = hits.map fun h => (h.1.index, h.1.index) := by
  rw [Program.ranges, edits_replacements, List.filterMap_map]
  exact congrFun List.filterMap_eq_map hits

/-- The program replaces exactly the numbers that are in the table. -/
theorem Restores.ranges {package : Option String} {tree : Tree} {program : Program}
    (h : Restores table package tree program) :
    program.ranges = (table.hits tree).map fun h => (h.1.index, h.1.index) := by
  cases h with
  | plain => exact ranges_replacements _
  | importing _ _ _ _ _ hits =>
    rw [hits, List.map_append, ← ranges_replacements, ← ranges_replacements, Program.ranges_append]
    rfl

/-- From the beginning on, going through a unit makes the program that restores it. -/
theorem restores_unit (hs : s.Regular) {tree : Tree} (ht : tree = (s.parse .compilationUnit).1)
    (hr : Readable tree.numbers) (package : Option String) :
    ∃ r, ({ package } : Restorer).restore table tree = .ok r ∧
      Restores table package tree r.program ∧ r.count = (table.hits tree).length := by
  rcases restore_unit table hs ht hr { package } with ⟨hno, he⟩ |
    ⟨n, after, stop, hmem, hrule, hstop, hnumbers, he⟩
  · refine ⟨_, he, ?_, by simp [record]⟩
    simpa [record] using Restores.plain fun n hn h => absurd h (hno n hn)
  · have hhits : table.hits tree = table.hits n ++ after.filterMap table.named? := by
      rw [Table.hits, hnumbers, List.filterMap_append, Table.hits]
    by_cases hp : package.getD "" = ""
    · rw [addImport_of_empty hp] at he
      refine ⟨_, he, ?_, by simp [record, hhits]⟩
      have hplain : Restores table package tree _ := .plain fun _ _ _ => hp
      simpa [record, hhits] using hplain
    · obtain ⟨name, rfl⟩ : ∃ name, package = some name := by
        cases package <;> simp_all
      have hne : name ≠ "" := by simpa using hp
      rw [addImport_of_ne_empty (r := record _ _) rfl hne hstop] at he
      refine ⟨_, he, ?_, by simp [record, hhits, edit]⟩
      simpa [record, edit] using Restores.importing hmem hrule hstop rfl hne hhits

/-- Without a package to import from, going through a unit puts the names in, also if it was gone
through before. -/
theorem restore_of_no_import (hs : s.Regular) {tree : Tree} (ht : tree = (s.parse .compilationUnit).1)
    (hr : Readable tree.numbers) {r : Restorer} (hp : r.package.getD "" = "") :
    r.restore table tree = .ok (r.record (table.hits tree)) := by
  rcases restore_unit table hs ht hr r with ⟨-, he⟩ | ⟨n, after, stop, -, -, -, hnumbers, he⟩
  · exact he
  · have hpackage : (r.record (table.hits n)).package.getD "" = "" := hp
    rw [he, addImport_of_empty hpackage, record_record, Table.hits, Table.hits, hnumbers,
      List.filterMap_append]

end Restorer

section

variable (table : Table) (text : String) {widened : Widened} {tree : Tree}

/-- The numbers of a unit are visible tokens of its source, in their order. -/
theorem numbers_of_source (hw : ∀ w ∈ widened, w.1 ∈ Layout.backs)
    (ht : tree = ((Parser.ofSource (.ofString text) widened).parse .compilationUnit).1) :
    tree.numbers.Sublist ((Source.ofString text).tokens.toList.filter Token.isVisible) := by
  have hs := Parser.regular_ofSource text hw
  have hb : tree.Each Parser.Built := ht ▸ Parser.each_built_parse .compilationUnit hs
  have hn := Parser.numbersAreTokens_of_built hb (by rw [ht]; exact nofun)
  obtain ⟨hrest, -⟩ := Parser.parse_advances .compilationUnit _ hs.ended
  rw [Parser.rest_ofSource, ← ht] at hrest
  exact hn.sublist.trans (hrest ▸ List.sublist_append_left _ _)

/-- Those that are in a table come in the order of their tokens. -/
theorem pairwise_hits (hw : ∀ w ∈ widened, w.1 ∈ Layout.backs)
    (ht : tree = ((Parser.ofSource (.ofString text) widened).parse .compilationUnit).1) :
    (table.hits tree).Pairwise fun h h' => h.1.index < h'.1.index := by
  have hsub := (table.hits_sublist tree).trans (numbers_of_source text hw ht)
  have hpairs := ((Source.pairwise_index_tokens text).filter Token.isVisible).sublist hsub
  rwa [List.pairwise_map] at hpairs

/-- A unit read without reports holds all visible tokens. -/
theorem tokens_of_calm (hw : ∀ w ∈ widened, w.1 ∈ Layout.backs)
    (hr : ((Parser.ofSource (.ofString text) widened).parse .compilationUnit).2.parser.reports = []) :
    ((Parser.ofSource (.ofString text) widened).parse .compilationUnit).1.tokens =
      (Source.words text).filter Token.isVisible := by
  have hs := Parser.regular_ofSource text hw
  obtain ⟨⟨last, hlast⟩, -⟩ := Parser.unit_calm hs rfl rfl hr
  obtain ⟨hrest, -⟩ := Parser.parse_advances .compilationUnit _ hs.ended
  rw [hlast, Parser.rest_ofSource, Source.toList_tokens_ofString, List.filter_append] at hrest
  have hend : [Source.last text].filter Token.isVisible = [Source.last text] := rfl
  rw [hend] at hrest
  exact (List.append_inj_left' hrest rfl).symm

/-- If nothing is reported, the numbers in base sixteen are all tokens of this kind. -/
theorem hexNumbers_of_calm (hw : ∀ w ∈ widened, w.1 ∈ Layout.backs)
    (ht : tree = ((Parser.ofSource (.ofString text) widened).parse .compilationUnit).1)
    (hr : ((Parser.ofSource (.ofString text) widened).parse .compilationUnit).2.parser.reports = []) :
    tree.numbers.filter (fun u => u.kind = .hexLiteral) =
      (Source.ofString text).tokens.toList.filter fun u => u.kind = .hexLiteral := by
  have hs := Parser.regular_ofSource text hw
  have hsound : tree.IsSound := ht ▸ Parser.isSound_parse .compilationUnit hs.ended rfl rfl hr
  have hb : tree.Each Parser.Built := ht ▸ Parser.each_built_parse .compilationUnit hs
  have hn := Parser.numbersAreTokens_of_built hb (by rw [ht]; exact nofun)
  have hend : [Source.last text].filter (fun u => u.kind = .hexLiteral) = [] := rfl
  rw [hexNumbers_eq_tokens hsound hn (by rw [ht]; exact nofun), ht, tokens_of_calm text hw hr,
    List.filter_filter, Source.toList_tokens_ofString, List.filter_append, hend, List.append_nil]
  -- A hidden token is no number.
  refine List.filter_congr fun t _ => ?_
  by_cases hk : t.kind = .hexLiteral <;> simp [hk, Token.isVisible, Kind.isHidden]

theorem hits_of_calm (hw : ∀ w ∈ widened, w.1 ∈ Layout.backs)
    (ht : tree = ((Parser.ofSource (.ofString text) widened).parse .compilationUnit).1)
    (hr : ((Parser.ofSource (.ofString text) widened).parse .compilationUnit).2.parser.reports = []) :
    table.hits tree = (Source.ofString text).tokens.toList.filterMap table.named? := by
  rw [Table.hits, ← Table.filterMap_named?, hexNumbers_of_calm text hw ht hr, Table.filterMap_named?]

end

end Resource

namespace Session

open Resource

/-- A text is read without a report if the kinds of its visible tokens can be read in some way. -/
theorem Reachable.no_report_of_ways {s : Session} (hs : s.Reachable) {text : String} {ks : List Kind}
    (hk : ((sourceOf text).tokens.toList.filter Token.isVisible).map Token.kind = ks) {depth : Nat}
    (hways : ((Grammar.body .compilationUnit).ways none (Rule.ways none depth) .compilationUnit
      (ks.map some)).isWhole = true) :
    ((Parser.ofSource (sourceOf text) s.widened).parse .compilationUnit).2.parser.reports = [] :=
  ((hs.no_report_iff_spells _).mpr (hk ▸ Rule.spells_of_body_ways hways)).2

/-- The tree of a text whose words can be read in a single way is put together from these words. -/
theorem Reachable.bare_of_ways {s : Session} (hs : s.Reachable) {text : String} {ws : List (Kind × String)}
    (hw : ((Source.words text).filter Token.isVisible).map Token.word = ws) (hne : .eof ∉ ws.map Prod.fst)
    {depth : Nat} {outline : Outline}
    (hways : (Grammar.body .compilationUnit).ways none (Rule.ways none depth) .compilationUnit
      ((ws.map Prod.fst ++ [Kind.eof]).map some) = some [(outline, [])])
    (hrow : outline.row = (ws.map Prod.fst ++ [Kind.eof]).map some) {tree : Tree}
    (ht : tree = ((Parser.ofSource (.ofString text) s.widened).parse .compilationUnit).1) :
    ∃ last : Token, tree.bare =
      (outline.grow (ws.map Tree.ofWord ++ [(Tree.leaf last false).bare])).1 := by
  have hkinds : ((Source.ofString text).tokens.toList.filter Token.isVisible).map Token.kind =
      ws.map Prod.fst ++ [.eof] := by
    rw [Source.toList_tokens_ofString, List.filter_append, List.map_append, ← hw, List.map_map]
    rfl
  have hspells := Rule.spells_of_body_ways (r := .compilationUnit) (by rw [hways]; rfl)
  obtain ⟨-, hreports⟩ := (hs.no_report_iff_spells text).mpr (hkinds ▸ hspells)
  have hsound := Parser.isSound_parse .compilationUnit (Parser.regular_ofSource text hs.widened).ended rfl rfl
    hreports
  have hwords : tree.words = ws := by rw [ht, Tree.words, tokens_of_calm text hs.widened hreports, hw]
  obtain ⟨last, hbare⟩ := (ht ▸ hsound).exists_bare_of_unit_ways (ht ▸ rfl) (congrArg _ hwords) hne hways hrow
  exact ⟨last, hwords ▸ hbare⟩

section

variable {s : Session} (hs : s.Reachable) {text : String} {given : Option Table} {package : Option String}
  {wantsImport : Bool} {o : Opened} (ho : Opens s text given package wantsImport o) {ks : List Kind}
  (hk : ((sourceOf text).tokens.toList.filter Token.isVisible).map Token.kind = ks) {depth : Nat}
  (hways : ((Grammar.body .compilationUnit).ways none (Rule.ways none depth) .compilationUnit
    (ks.map some)).isWhole = true)

include hs ho hk hways

theorem Opens.hits_of_ways (table : Table) :
    table.hits o.tree = (sourceOf text).tokens.toList.filterMap table.named? :=
  hits_of_calm table _ hs.widened ho.tree (hs.no_report_of_ways hk hways)

end

end Session

end ResourceNames
