import Mathlib.Algebra.GroupWithZero.Nat
import Mathlib.Data.List.Nodup
import ResourceNames.Proofs.Progress

/-!
The names of the children of a node.

`Accessor.counts` bounds how often each sort of child can occur in a phrase, told apart up to twice. In a
tree that is read without a report every node has a word of its rule as children, so a name that stands
for one child never hides a second one, and the names of a rule together give every child once.
-/
namespace ResourceNames.Java

namespace Accessor

variable {x : Part}

namespace Counts

variable {f : Nat → Nat → Nat}

private theorem get_cons (e : Part × Nat) (cs : Counts) (x : Part) :
    get (e :: cs) x = if x = e.1 then e.2 else get cs x := by
  obtain ⟨y, n⟩ := e
  by_cases h : x = y
  · simp [get, h]
  · have hne : (x == y) = false := beq_eq_false_iff_ne.mpr h
    simp [get, List.lookup_cons, h, hne]

private theorem get_append (a b : Counts) (x : Part) :
    get (a ++ b) x = if x ∈ a.map Prod.fst then get a x else get b x := by
  induction a with
  | nil => simp
  | cons e a ih =>
    rw [List.cons_append, get_cons, get_cons, ih, List.map_cons]
    by_cases h : x = e.1
    · simp [h]
    · rw [if_neg h, if_neg h]
      simp only [List.mem_cons, h, false_or]

private theorem get_eq_zero {cs : Counts} (h : x ∉ cs.map Prod.fst) : get cs x = 0 := by
  induction cs with
  | nil => rfl
  | cons e cs ih =>
    rw [List.map_cons, List.mem_cons, not_or] at h
    rw [get_cons, if_neg h.1, ih h.2]

theorem get_of_mem {cs : Counts} (hn : (cs.map Prod.fst).Nodup) {e : Part × Nat} (h : e ∈ cs) :
    cs.get e.1 = e.2 := by
  induction cs with
  | nil => simp at h
  | cons d cs ih =>
    rw [List.map_cons, List.nodup_cons] at hn
    rw [get_cons]
    rcases List.mem_cons.mp h with rfl | h
    · rw [if_pos rfl]
    · rw [if_neg, ih hn.2 h]
      intro heq
      exact hn.1 (heq ▸ List.mem_map_of_mem h)

/-- A number for each sort that is worked out from the sort and its own number. -/
private theorem get_map {cs : Counts} {g : Part → Nat → Nat} (h : x ∈ cs.map Prod.fst) :
    get (cs.map fun e => (e.1, g e.1 e.2)) x = g x (get cs x) := by
  induction cs with
  | nil => simp at h
  | cons e cs ih =>
    rw [List.map_cons, get_cons, get_cons]
    by_cases hx : x = e.1
    · rw [if_pos hx, if_pos hx, hx]
    · rw [if_neg hx, if_neg hx]
      exact ih ((List.mem_cons.mp h).resolve_left hx)

private theorem get_filter {cs : Counts} {p : Part → Bool} (h : p x = true) :
    get (cs.filter fun e => p e.1) x = get cs x := by
  induction cs with
  | nil => rfl
  | cons e cs ih =>
    rw [List.filter_cons, get_cons]
    by_cases hx : x = e.1
    · rw [← hx, if_pos h, get_cons, if_pos hx, if_pos rfl]
    · rw [if_neg hx]
      split
      · rw [get_cons, if_neg hx, ih]
      · exact ih

private theorem mem_fst_map {cs : Counts} {g : Part × Nat → Nat} :
    x ∈ (cs.map fun e => (e.1, g e)).map Prod.fst ↔ x ∈ cs.map Prod.fst := by
  rw [List.map_map]
  rfl

/-- Counts are combined sort by sort. -/
theorem get_combine (hf : f 0 0 = 0) (a b : Counts) (x : Part) :
    (combine f a b).get x = f (a.get x) (b.get x) := by
  rw [combine, get_append]
  by_cases ha : x ∈ a.map Prod.fst
  · rw [if_pos (mem_fst_map.mpr ha)]
    exact get_map (g := fun y n => f n (b.get y)) ha
  · have hnot : (!a.any fun d => d.1 == x) = true := by
      rw [Bool.not_eq_true', List.any_eq_false]
      intro d hd
      simp only [beq_iff_eq]
      exact fun heq => ha (heq ▸ List.mem_map_of_mem hd)
    have hfilter : get (b.filter fun e => !a.any fun d => d.1 == e.1) x = b.get x :=
      get_filter (p := fun y => !a.any fun d => d.1 == y) hnot
    rw [if_neg (mt mem_fst_map.mp ha), get_eq_zero ha, ← hfilter]
    generalize b.filter (fun e => !a.any fun d => d.1 == e.1) = rest
    by_cases hb : x ∈ rest.map Prod.fst
    · exact get_map (g := fun _ n => f 0 n) hb
    · rw [get_eq_zero (mt mem_fst_map.mp hb), get_eq_zero hb, hf]

theorem get_double (cs : Counts) (x : Part) :
    get (cs.map fun e => (e.1, 2 * e.2)) x = 2 * cs.get x := by
  by_cases h : x ∈ cs.map Prod.fst
  · exact get_map (g := fun _ n => 2 * n) h
  · rw [get_eq_zero (mt mem_fst_map.mp h), get_eq_zero h]

end Counts

open Counts

theorem get_counts_le {p : Phrase} {ps : List Phrase} (h : p ∈ ps) (x : Part) :
    (counts p).get x ≤ (countsAny ps).get x := by
  induction ps with
  | nil => simp at h
  | cons q qs ih =>
    rw [countsAny, get_combine (Nat.max_self 0)]
    rcases List.mem_cons.mp h with rfl | h
    · exact Nat.le_max_left _ _
    · exact Nat.le_trans (ih h) (Nat.le_max_right _ _)

private theorem one_le_get_oneOf {kinds : List Kind} {kind : Kind} (h : kind ∈ kinds) :
    1 ≤ Counts.get (kinds.map fun k => (.token k, 1)) (.token kind) := by
  induction kinds with
  | nil => simp at h
  | cons k ks ih =>
    rw [List.map_cons, get_cons]
    split
    · exact Nat.le_refl 1
    · rename_i hne
      refine ih ((List.mem_cons.mp h).resolve_left ?_)
      rintro rfl
      exact hne rfl

/-- A sort occurs in a row of a phrase as often as it is counted, as far as that is told apart. -/
theorem min_count_le {p : Phrase} {w : List Part} (h : p.Word w) (x : Part) :
    min (w.count x) 2 ≤ (counts p).get x := by
  induction h with
  | token | call =>
    rw [counts, get_cons, List.count_singleton]
    simp only [beq_iff_eq, eq_comm (a := x)]
    split <;> omega
  | @oneOf kinds _ kind mem =>
    rw [counts, List.count_singleton]
    simp only [beq_iff_eq]
    split
    · rename_i heq
      have := one_le_get_oneOf mem
      rw [heq] at this
      omega
    · omega
  | nil | skip | done => simp
  | cons _ _ ih ih' =>
    rw [counts] at ih' ⊢
    rw [countsAll, get_combine rfl, List.count_append]
    omega
  | choice mem _ ih | opt mem _ ih =>
    rw [counts]
    exact Nat.le_trans ih (get_counts_le mem x)
  | more _ _ ih ih' | plus _ _ ih ih' =>
    simp only [counts, get_double] at ih' ⊢
    rw [List.count_append]
    omega

/-- The names of a rule are for different sorts. -/
theorem nodup_part_ofRule (r : Rule) : ((ofRule r).map Accessor.part).Nodup := by
  have hall : ∀ r ∈ Rule.all, ((ofRule r).map Accessor.part).Nodup := by decide +kernel
  exact hall r (Layout.mem_all r)

private theorem nodup_fst_counts (r : Rule) : ((countsAny (alternatives r)).map Prod.fst).Nodup := by
  have hparts := nodup_part_ofRule r
  rw [ofRule, List.map_map] at hparts
  exact hparts

/-- A name that stands for one child: no row of the rule has a second one of its sort. -/
theorem count_le_one {r : Rule} {w : List Part} (h : r.Word w) {a : Accessor} (ha : a ∈ ofRule r)
    (hone : a.isList = false) : w.count a.part ≤ 1 := by
  obtain ⟨p, hp, hw⟩ := h
  obtain ⟨e, he, rfl⟩ := List.mem_map.mp ha
  have hbound := Nat.le_trans (min_count_le hw e.1) (get_counts_le hp e.1)
  rw [get_of_mem (nodup_fst_counts r) he] at hbound
  have hcount : ¬ 1 < e.2 := of_decide_eq_false hone
  change w.count e.1 ≤ 1
  omega

/-! ### The children of a node -/

/-- What a name gives at a node: all children of its sort, or the first one, if there is any. -/
def answer (a : Accessor) (node : Tree) : List Tree :=
  if a.isList then a.children node else (node.child? a.part).toList

/-- A tree is of the sort that it has as a child. -/
theorem holds_iff {p : Part} {t : Tree} : p.holds t = true ↔ t.part = p := by
  cases p <;> cases t <;> simp [Part.holds, Tree.isKind, Tree.isRule, Tree.part]

private theorem length_children (a : Accessor) (node : Tree) :
    (a.children node).length = (node.children.map Tree.part).count a.part := by
  rw [children, List.count, List.countP_map, ← List.countP_eq_length_filter]
  refine List.countP_congr fun c _ => ?_
  simp [holds_iff]

/-- If a name hides no child, it gives all children of its sort. -/
theorem answer_eq_children {a : Accessor} {node : Tree}
    (h : a.isList = false → (a.children node).length ≤ 1) : a.answer node = a.children node := by
  unfold answer
  split
  · rfl
  · rename_i hlist
    have hle := h (Bool.eq_false_iff.mpr hlist)
    unfold children at hle ⊢
    rw [Tree.child?, ← List.head?_filter]
    cases hf : node.children.filter a.part.holds with
    | nil => rfl
    | cons c cs =>
      rw [hf] at hle
      rw [List.eq_nil_of_length_eq_zero (Nat.le_zero.mp (Nat.le_of_succ_le_succ hle))]
      rfl

/-- Names for different sorts, among them those of all trees of a row, share out the row. -/
theorem perm_flatMap_filter {names : List Accessor} {cs : List Tree}
    (hn : (names.map Accessor.part).Nodup) (hc : ∀ c ∈ cs, c.part ∈ names.map Accessor.part) :
    (names.flatMap fun a => cs.filter a.part.holds).Perm cs := by
  induction names generalizing cs with
  | nil =>
    obtain rfl : cs = [] := List.eq_nil_iff_forall_not_mem.mpr fun c hm => List.not_mem_nil (hc c hm)
    rfl
  | cons a names ih =>
    rw [List.map_cons, List.nodup_cons] at hn
    have hothers : (names.flatMap fun b => cs.filter b.part.holds) =
        names.flatMap fun b => (cs.filter fun c => !a.part.holds c).filter b.part.holds := by
      refine List.flatMap_congr fun b hb => ?_
      rw [List.filter_filter]
      refine List.filter_congr fun c _ => ?_
      cases hbc : b.part.holds c with
      | false => rfl
      | true =>
        have hac : a.part.holds c ≠ true := by
          intro hac
          have hpart : a.part = b.part := (holds_iff.mp hac).symm.trans (holds_iff.mp hbc)
          exact hn.1 (hpart ▸ List.mem_map_of_mem hb)
        simp [hac]
    rw [List.flatMap_cons, hothers]
    refine ((ih hn.2 fun c hm => ?_).append_left _).trans (List.filter_append_perm _ _)
    obtain ⟨hmem, hnot⟩ := List.mem_filter.mp hm
    refine (List.mem_cons.mp (hc c hmem)).resolve_left fun heq => ?_
    simp [holds_iff.mpr heq] at hnot

/-- What names give is counted by those that stand for one child and give it, and by the lengths of the
lists that the others give. -/
theorem length_flatMap_answer (names : List Accessor) (node : Tree) :
    (names.flatMap fun a => a.answer node).length =
      (names.filter fun a => !a.isList && (node.child? a.part).isSome).length +
        ((names.filter Accessor.isList).map fun a => (a.children node).length).sum := by
  induction names with
  | nil => rfl
  | cons a names ih =>
    rw [List.flatMap_cons, List.length_append, ih, answer]
    cases hlist : a.isList with
    | true =>
      simp only [List.filter_cons, hlist, Bool.not_true, Bool.false_and, if_true, List.map_cons,
        List.sum_cons]
      simp only [Bool.false_eq_true, if_false]
      omega
    | false =>
      cases hchild : node.child? a.part with
      | none => simp [hlist, hchild]
      | some c =>
        simp [hlist, hchild]
        omega

end Accessor

namespace Parser

open Accessor

/-- If a text is read by a rule without a report, the names of every node show each of its children once:
a child is given by one name only, a name that stands for one child hides no other one, and all that the
names give together is the row of children. So the names for one child that give it, and the lengths of
the lists that the others give, add up to the number of children. -/
theorem names_show_children_once (text : String) (widened : Widened) (rule : Rule)
    (h : ((ofSource (.ofString text) widened).parse rule).2.parser.reports = []) :
    ∀ node ∈ ((ofSource (.ofString text) widened).parse rule).1.nodes,
      ∃ r, node.rule? = some r ∧ ((ofRule r).map Accessor.part).Nodup ∧
        (∀ c ∈ node.children, ∃! a, a ∈ ofRule r ∧ c ∈ a.answer node) ∧
        (∀ a ∈ ofRule r, a.isList = false → (node.children.filter a.part.holds).length ≤ 1) ∧
        ((ofRule r).flatMap fun a => a.answer node).Perm node.children ∧
        ((ofRule r).filter fun a => !a.isList && (node.child? a.part).isSome).length +
          (((ofRule r).filter Accessor.isList).map fun a => (a.children node).length).sum =
            node.children.length := by
  intro node hnode
  obtain ⟨-, hsound⟩ := isSound_parse rule (ended_ofSource text widened) rfl rfl h
  obtain ⟨r, hr⟩ := Tree.exists_rule_of_mem_nodes _ hnode
  have hword : r.Word (node.children.map Tree.part) := by
    have hderived := hsound node hnode
    cases node with
    | leaf | missing => cases hr
    | node => exact Option.some.inj hr ▸ hderived.1
  have hparts := nodup_part_ofRule r
  have hplain : ∀ a ∈ ofRule r, a.isList = false → (a.children node).length ≤ 1 := by
    intro a ha hone
    rw [length_children]
    exact count_le_one hword ha hone
  have hanswer : ∀ a ∈ ofRule r, a.answer node = a.children node :=
    fun a ha => answer_eq_children (hplain a ha)
  have hnamed : ∀ c ∈ node.children, c.part ∈ (ofRule r).map Accessor.part :=
    fun c hc => mem_ofRule hword (List.mem_map_of_mem hc)
  have hperm : ((ofRule r).flatMap fun a => a.answer node).Perm node.children := by
    rw [List.flatMap_congr hanswer]
    exact perm_flatMap_filter hparts hnamed
  refine ⟨r, hr, hparts, fun c hc => ?_, hplain, hperm, ?_⟩
  · obtain ⟨a, ha, hpart⟩ := List.mem_map.mp (hnamed c hc)
    refine ⟨a, ⟨ha, ?_⟩, ?_⟩
    · rw [hanswer a ha]
      exact List.mem_filter.mpr ⟨hc, holds_iff.mpr hpart.symm⟩
    · rintro b ⟨hb, hcb⟩
      rw [hanswer b hb] at hcb
      apply List.inj_on_of_nodup_map hparts hb ha
      rw [hpart, holds_iff.mp (List.mem_filter.mp hcb).2]
  · rw [← length_flatMap_answer, hperm.length_eq]

/-- A variable with two dimensions: its name stands for one child, the brackets for lists. -/
theorem names_of_dimensions :
    ∃ node ∈ ((ofSource (.ofString "x[ ][]")).parse .variableDeclaratorId).1.nodes,
      (ofRule .variableDeclaratorId).map (fun a => (a.isList, (a.answer node).map Tree.text)) =
        [(false, ["x"]), (true, ["[", "["]), (true, ["]", "]"])] ∧
      ((ofRule .variableDeclaratorId).flatMap fun a => a.answer node).Perm node.children := by
  have hv : ((ofSource (.ofString "x[ ][]")).parse .variableDeclaratorId).2.parser.reports.isEmpty ∧
      (((ofSource (.ofString "x[ ][]")).parse .variableDeclaratorId).1.nodes.map fun node =>
        (node.rule?, (ofRule .variableDeclaratorId).map fun a =>
          (a.isList, (a.answer node).map Tree.text))) =
        [(some .variableDeclaratorId,
          [(false, ["x"]), (true, ["[", "["]), (true, ["]", "]"])])] := by
    decide +kernel
  obtain ⟨hr, hn⟩ := hv
  obtain ⟨node, rest, hnodes, hnode, -⟩ := List.map_eq_cons_iff.mp hn
  obtain ⟨hrule, hanswers⟩ := Prod.mk.inj hnode
  have hmem : node ∈ ((ofSource (.ofString "x[ ][]")).parse .variableDeclaratorId).1.nodes := by
    rw [hnodes]
    exact List.mem_cons_self
  obtain ⟨r, hr', -, -, -, hperm, -⟩ :=
    names_show_children_once _ _ _ (List.isEmpty_iff.mp hr) node hmem
  obtain rfl := Option.some.inj (hrule.symm.trans hr')
  exact ⟨node, hmem, hanswers, hperm⟩

end Parser

end ResourceNames.Java
