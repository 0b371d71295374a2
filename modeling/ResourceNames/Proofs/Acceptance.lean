import ResourceNames.Proofs.Completeness
import ResourceNames.Proofs.EndOfInput
import ResourceNames.Proofs.Sessions
import ResourceNames.Proofs.Units

/-!
The parser accepts the sentences of the grammar and nothing else.

The tokens of a derivation are a sentence, so what is read without a report is one. A sentence is
read without a report whatever was read before it: a parser learns from a mistake only that more is
expected somewhere, and never less.
-/
namespace ResourceNames.Java

/-! ### The sentence of a tree -/

/-- A token or a node of a rule stands for a row of kinds. -/
def Part.Spells : Part → List Kind → Prop
  | .token k, w => w = [k]
  | .rule r, w => r.Spells w

namespace Tree

def kinds : Tree → List Kind
  | .leaf t _ => [t.kind]
  | c => c.tokens.map Token.kind

variable {cs : List Tree}

theorem kinds_of_eats {c : Tree} (h : c.part.eats = true) : c.kinds = c.tokens.map Token.kind := by
  cases c with
  | leaf t stray =>
    have hk : t.kind ≠ .eof := by simpa [part, Part.eats] using h
    simp [kinds, tokens, hk]
  | missing | node => rfl

theorem flatMap_kinds (h : ∀ c ∈ cs, c.part.eats = true) :
    cs.flatMap kinds = (tokensAll cs).map Token.kind := by
  induction cs with
  | nil => rfl
  | cons c cs ih =>
    rw [List.forall_mem_cons] at h
    rw [List.flatMap_cons, kinds_of_eats h.1, ih h.2, tokensAll, List.map_append]

/-- A single child stands for its tokens. -/
private theorem spells_of_singleton {x : Part} (hcs : cs.map part = [x])
    (hs : ∀ c ∈ cs, c.part.Spells c.kinds) : x.Spells (cs.flatMap kinds) := by
  obtain ⟨c, rfl, rfl⟩ := List.map_eq_singleton_iff.mp hcs
  rw [List.flatMap_singleton]
  exact hs c List.mem_cons_self

end Tree

/-- A word of a phrase spells the tokens of a row of children that stand for their own tokens. -/
theorem Phrase.Word.spells {p : Phrase} {w : List Part} (h : p.Word w) {cs : List Tree}
    (hcs : cs.map Tree.part = w) (hs : ∀ c ∈ cs, c.part.Spells c.kinds) :
    p.Spells (cs.flatMap Tree.kinds) := by
  induction h generalizing cs with
  | token =>
    have hkinds : cs.flatMap Tree.kinds = [_] := Tree.spells_of_singleton hcs hs
    rw [hkinds]
    exact .token
  | oneOf mem =>
    have hkinds : cs.flatMap Tree.kinds = [_] := Tree.spells_of_singleton hcs hs
    rw [hkinds]
    exact .oneOf mem
  | call =>
    obtain ⟨p, hp, hbody⟩ : Rule.Spells _ (cs.flatMap Tree.kinds) := Tree.spells_of_singleton hcs hs
    exact .call hp hbody
  | nil =>
    rw [List.map_eq_nil_iff.mp hcs]
    exact .nil
  | skip =>
    rw [List.map_eq_nil_iff.mp hcs]
    exact .skip
  | done =>
    rw [List.map_eq_nil_iff.mp hcs]
    exact .done
  | cons _ _ ih ih' =>
    obtain ⟨as, bs, rfl, ha, hb⟩ := List.map_eq_append_iff.mp hcs
    rw [List.forall_mem_append] at hs
    rw [List.flatMap_append]
    exact .cons (ih ha hs.1) (ih' hb hs.2)
  | choice mem _ ih => exact .choice mem (ih hcs hs)
  | opt mem _ ih => exact .opt mem (ih hcs hs)
  | more _ _ ih ih' =>
    obtain ⟨as, bs, rfl, ha, hb⟩ := List.map_eq_append_iff.mp hcs
    rw [List.forall_mem_append] at hs
    rw [List.flatMap_append]
    exact .more (ih ha hs.1) (ih' hb hs.2)
  | plus _ _ ih ih' =>
    obtain ⟨as, bs, rfl, ha, hb⟩ := List.map_eq_append_iff.mp hcs
    rw [List.forall_mem_append] at hs
    rw [List.flatMap_append]
    exact .plus (ih ha hs.1) (ih' hb hs.2)

private theorem Phrase.Word.forall_eats {p : Phrase} {w : List Part} (h : p.Word w)
    (hp : ∀ x ∈ (Accessor.counts p).map Prod.fst, x.eats = true) : ∀ x ∈ w, x.eats = true :=
  fun x hx => hp x (Accessor.mem_counts h hx)

private theorem Rule.parts_eat_of_mem_all : ∀ r ∈ Rule.all, r ≠ .compilationUnit →
    ∀ x ∈ (Accessor.ofRule r).map Accessor.part, x.eats = true := by
  decide +kernel

/-- Only a whole unit has the end among its children, and no rule has a whole unit. -/
theorem Rule.Word.forall_eats {r : Rule} {w : List Part} (h : r.Word w) (hr : r ≠ .compilationUnit) :
    ∀ x ∈ w, x.eats = true := fun _ hx =>
  Rule.parts_eat_of_mem_all r (Layout.mem_all r) hr _ (Accessor.mem_ofRule h hx)

/-- A whole unit ends with the end. -/
theorem Rule.Word.unit {w : List Part} (h : Rule.compilationUnit.Word w) :
    ∃ v : List Part, w = v ++ [Part.token .eof] ∧ ∀ x ∈ v, x.eats = true := by
  obtain ⟨p, hp, hw⟩ := h
  obtain rfl := List.mem_singleton.mp hp
  cases hw with | cons package rest => ?_
  cases rest with | cons imports rest => ?_
  cases rest with | cons types rest => ?_
  cases rest with | cons last rest => ?_
  cases last
  cases rest
  rename_i u v x
  refine ⟨u ++ (v ++ x), by simp, ?_⟩
  rw [List.forall_mem_append, List.forall_mem_append]
  exact ⟨package.forall_eats (by decide), imports.forall_eats (by decide),
    types.forall_eats (by decide)⟩

/-- No rule has a whole unit among its children. -/
theorem Rule.Word.unit_notMem {r : Rule} {w : List Part} (h : r.Word w) :
    Part.rule .compilationUnit ∉ w := by
  intro hmem
  by_cases hr : r = .compilationUnit
  · obtain ⟨v, rfl, heats⟩ := (hr ▸ h).unit
    rcases List.mem_append.mp hmem with hmem | hmem
    · cases heats _ hmem
    · cases List.mem_singleton.mp hmem
  · cases h.forall_eats hr _ hmem

namespace Tree

/-- A sound child stands for its tokens. -/
theorem IsSound.spells {t : Tree} (h : t.IsSound) (he : t.part.eats = true) :
    t.part.Spells t.kinds := by
  induction t using ofChildren with
  | leaf => rfl
  | missing => simp [IsSound, isError] at h
  | node rule start stop fields children ih =>
    obtain ⟨⟨hw, herr⟩, hs⟩ := each_node.mp h.2
    have hrule : rule ≠ .compilationUnit := by simpa [part, Part.eats] using he
    have heats : ∀ c ∈ children, c.part.eats = true := fun c hc =>
      hw.forall_eats hrule _ (List.mem_map_of_mem hc)
    obtain ⟨p, hp, hword⟩ := hw
    refine ⟨p, hp, ?_⟩
    have hspells := hword.spells rfl fun c hc => ih c hc ⟨herr c hc, hs c hc⟩ (heats c hc)
    rwa [flatMap_kinds heats] at hspells

/-- The children of a sound unit are its tokens and the end. -/
theorem IsSound.flatMap_kinds_unit {t : Tree} (h : t.IsSound)
    (hr : t.rule? = some .compilationUnit) :
    t.children.flatMap kinds = t.tokens.map Token.kind ++ [.eof] := by
  cases t with
  | leaf | missing => cases hr
  | node rule start stop fields children =>
    obtain rfl := Option.some.inj hr
    obtain ⟨⟨hw, herr⟩, -⟩ := each_node.mp h.2
    obtain ⟨v, hv, heats⟩ := hw.unit
    obtain ⟨cs, ds, rfl, rfl, hd⟩ := List.map_eq_append_iff.mp hv
    obtain ⟨d, rfl, hpart⟩ := List.map_eq_singleton_iff.mp hd
    have hchild : ∀ c ∈ cs, c.part.eats = true := fun c hc => heats _ (List.mem_map_of_mem hc)
    have hlast : d.kinds = [.eof] ∧ d.tokens = [] := by
      have hd' := herr d (by simp)
      cases d with
      | leaf u stray =>
        obtain hk : u.kind = .eof := by simpa [part] using hpart
        simp [kinds, tokens, hk]
      | missing => cases hd'
      | node => cases hpart
    rw [Tree.children, List.flatMap_append, List.flatMap_singleton, flatMap_kinds hchild, hlast.1]
    simp [tokens, tokensAll, hlast.2]

/-- The tokens of a sound unit, with the end, are a sentence. -/
theorem IsSound.unit_spells {t : Tree} (h : t.IsSound) (hr : t.rule? = some .compilationUnit) :
    Rule.compilationUnit.Spells (t.tokens.map Token.kind ++ [.eof]) := by
  rw [← h.flatMap_kinds_unit hr]
  cases t with
  | leaf | missing => cases hr
  | node rule start stop fields children =>
    obtain rfl := Option.some.inj hr
    obtain ⟨⟨hw, herr⟩, hs⟩ := each_node.mp h.2
    have hstands : ∀ c ∈ children, c.part.Spells c.kinds := by
      intro c hc
      have hunit : c.part ≠ .rule .compilationUnit := fun he =>
        hw.unit_notMem (he ▸ List.mem_map_of_mem hc)
      cases c with
      | leaf => rfl
      | missing => cases herr _ hc
      | node rule =>
        refine IsSound.spells ⟨herr _ hc, hs _ hc⟩ ?_
        simpa [part, Part.eats] using hunit
    obtain ⟨p, hp, hword⟩ := hw
    exact ⟨p, hp, hword.spells rfl hstands⟩

end Tree

/-! ### What a parser has learned -/

namespace Parser

variable {s : Parser}

theorem adds_cons {p : Point} {wide : List Kind} (hw : s.Widens p wide)
    (h : s.widened.Adds) : Widened.Adds ((p, wide) :: s.widened.filter fun w => w.1 != p) := by
  intro e he
  rcases List.mem_cons.mp he with rfl | he
  · obtain ⟨hends, hkinds⟩ := expected_subset h p
    exact ⟨hends.symm.trans hw.1, List.Subset.trans hkinds hw.2⟩
  · exact h e (List.mem_filter.mp he).1

/-- Whatever parsers have learned, they expect no less than before. -/
theorem Learned.adds {widened : Widened} (h : Learned widened) : widened.Adds := by
  induction h with
  | nothing =>
    intro e he
    cases he
  | parse _ rule ih => exact parse_learned (fun _ => adds_cons) rule ih

theorem Learned.no_report {widened : Widened} (h : Learned widened) {text : String}
    (hspells : Rule.compilationUnit.Spells
      (((Source.ofString text).tokens.toList.filter Token.isVisible).map Token.kind)) :
    ((ofSource (.ofString text) widened).parse .compilationUnit).2.parser.reports = [] := by
  have hbefore : Before _ (ofSource (.ofString text) widened) :=
    ⟨rfl, rfl, h.adds, (regular_ofSource text h.mem_backs).ended, .inl rfl⟩
  exact (parse_complete hbefore rfl hspells).2

section

variable {text : String} {widened : Widened} (hw : ∀ w ∈ widened, w.1 ∈ Layout.backs)
  (h : ((ofSource (.ofString text) widened).parse .compilationUnit).2.parser.reports = [])

include hw h

/-- A unit that is read without a report has all visible tokens, with the end behind them. -/
theorem kinds_of_no_report :
    ((Source.ofString text).tokens.toList.filter Token.isVisible).map Token.kind =
      ((ofSource (.ofString text) widened).parse .compilationUnit).1.tokens.map Token.kind ++ [.eof] := by
  have hregular := regular_ofSource text hw
  obtain ⟨hrest, hended, -⟩ := parse_advances .compilationUnit _ hregular.ended
  obtain ⟨⟨last, hlast⟩, -⟩ := unit_calm hregular rfl rfl h
  rw [hlast] at hended hrest
  rw [← rest_ofSource, hrest, List.map_append, List.map_singleton, hended.singleton]

/-- What is read as a unit without a report is a sentence. -/
theorem spells_of_no_report : Rule.compilationUnit.Spells
    (((Source.ofString text).tokens.toList.filter Token.isVisible).map Token.kind) := by
  rw [kinds_of_no_report hw h]
  exact (isSound_parse .compilationUnit (ended_ofSource text widened) rfl rfl h).unit_spells rfl

end

end Parser

end ResourceNames.Java

namespace ResourceNames.Session

open Java

/-- In every session the parser has learned only that more is expected. -/
theorem Reachable.adds {s : Session} (h : s.Reachable) : s.widened.Adds :=
  h.learned nofun fun _ => Parser.parse_learned (fun _ => Parser.adds_cons) .compilationUnit

/-- A text is read as a unit to its end and without a report exactly if the kinds of its visible
tokens, with the end, are a sentence of the grammar. -/
theorem Reachable.no_report_iff_spells {s : Session} (hs : s.Reachable) (text : String) :
    ((Parser.ofSource (.ofString text) s.widened).parse .compilationUnit).2.halt = none ∧
        ((Parser.ofSource (.ofString text) s.widened).parse .compilationUnit).2.parser.reports = [] ↔
      Rule.compilationUnit.Spells
        (((Source.ofString text).tokens.toList.filter Token.isVisible).map Token.kind) := by
  constructor
  · rintro ⟨-, hreports⟩
    exact Parser.spells_of_no_report hs.widened hreports
  · intro hspells
    have hbefore : Parser.Before _ (Parser.ofSource (.ofString text) s.widened) :=
      ⟨rfl, rfl, hs.adds, (Parser.regular_ofSource text hs.widened).ended, .inl rfl⟩
    exact Parser.parse_complete hbefore rfl hspells

/-! An annotation with an expression before a package, read after a unit with a mistake. The product
is derived from the sum, although it binds more tightly. -/

private theorem spells_name : Rule.expression.Spells [.identifier] :=
  ⟨_, .head _, .call (.tail _ (.tail _ (.tail _ (.tail _ (.head _))))) .token⟩

/-- Two expressions with an operator between them are an expression, however operators bind. -/
private theorem spells_binary {level : Nat} {ks : List Kind} {k : Kind} {u v : List Kind}
    (ht : Grammar.binary level ks ∈ Grammar.tails) (hk : k ∈ ks) (hu : Rule.expression.Spells u)
    (hv : Rule.expression.Spells v) : Rule.expression.Spells (u ++ k :: v) := by
  obtain ⟨p, hp, hu⟩ := hu
  obtain ⟨q, hq, hv⟩ := hv
  refine ⟨.seq [.call .expression 0 none, (Grammar.binary level ks).2],
    List.mem_append_right _ (List.mem_map_of_mem ht), ?_⟩
  have hright : (Grammar.operand (level + 1)).Spells v := .call hq hv
  have htail : (Grammar.binary level ks).2.Spells (k :: v) := by
    unfold Grammar.binary
    split
    · obtain rfl := List.mem_singleton.mp hk
      simpa using Phrase.Spells.cons .token (.cons hright .nil)
    · simpa using Phrase.Spells.cons (.oneOf hk) (.cons hright .nil)
  simpa using Phrase.Spells.cons (.call hp hu) (.cons htail .nil)

private theorem spells_qualifiedName : (Grammar.use .qualifiedName).Spells [.identifier] :=
  .call (.head _) (.cons .token (.cons .done .nil))

private theorem spells_annot {w : List Kind} (hw : Rule.expression.Spells w) :
    Rule.annot.Spells (.atSign :: .identifier :: .lparen :: w ++ [.rparen]) := by
  obtain ⟨p, hp, hw⟩ := hw
  have hvalue : (Grammar.use .elementValue).Spells w := .call (.head _) (.call hp hw)
  refine ⟨_, .head _, ?_⟩
  simpa [Grammar.maybe, Grammar.tok] using
    Phrase.Spells.cons .token (.cons spells_qualifiedName (.cons (.opt (.head _) (.cons .token
      (.cons (.opt (.tail (Grammar.use .elementValuePairs) (.head _)) hvalue) (.cons .token .nil))))
      .nil))

private theorem spells_package {w : List Kind} (hw : Rule.annot.Spells w) :
    Rule.compilationUnit.Spells (w ++ [.kwPackage, .identifier, .semi, .eof]) := by
  obtain ⟨p, hp, hw⟩ := hw
  have hannots : (Grammar.many [Grammar.use .annot]).Spells ((w ++ []) ++ []) :=
    .more (.cons (.call hp hw) .nil) .done
  have hpackage : (Grammar.use .packageDeclaration).Spells _ :=
    .call (.head _) (.cons hannots (.cons .token (.cons spells_qualifiedName (.cons .token .nil))))
  refine ⟨_, .head _, ?_⟩
  simpa [Grammar.maybe, Grammar.many, Grammar.tok] using
    Phrase.Spells.cons (.opt (.head _) (.cons hpackage .nil))
      (.cons .done (.cons .done (.cons .token .nil)))

theorem no_report_after_mistake :
    (readResources ";);" {}).session.Reachable ∧
      ((Parser.ofSource (.ofString "@A(b+c*d)package e;")
        (readResources ";);" {}).session.widened).parse .compilationUnit).2.halt = none ∧
      ((Parser.ofSource (.ofString "@A(b+c*d)package e;")
        (readResources ";);" {}).session.widened).parse .compilationUnit).2.parser.reports = [] := by
  have hkinds : ((Source.ofString "@A(b+c*d)package e;").tokens.toList.filter Token.isVisible).map
      Token.kind = [.atSign, .identifier, .lparen, .identifier, .add, .identifier, .mul,
        .identifier, .rparen, .kwPackage, .identifier, .semi, .eof] := by
    decide +kernel
  have hsum : Rule.expression.Spells ([.identifier] ++ .add :: [.identifier]) :=
    spells_binary (.tail _ (.head _)) (.head _) spells_name spells_name
  have hproduct : Rule.expression.Spells (([.identifier] ++ .add :: [.identifier]) ++
      .mul :: [.identifier]) :=
    spells_binary (.head _) (.head _) hsum spells_name
  have hreachable : (readResources ";);" {}).session.Reachable := .readResources .start _
  generalize (readResources ";);" {}).session = s at hreachable ⊢
  refine ⟨hreachable, (hreachable.no_report_iff_spells _).mpr ?_⟩
  rw [hkinds]
  exact spells_package (spells_annot hproduct)

end ResourceNames.Session
