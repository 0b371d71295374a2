import ResourceNames.Proofs.NodeSpans
import ResourceNames.Proofs.Outlines
import ResourceNames.Proofs.Restoration

/-!
The text of a restored file.

A file is restored when names stand in place of its numbers and the import stands after the
package. Not every program of edits can be carried out, so the text of a file with several numbers,
or with a number and no import, cannot be written, and an import at the very end is written twice.
-/
namespace ResourceNames

open Java Text

/-- In a unit read without reports, the token after the package is there and no number. -/
theorem Java.Parser.next_of_package {text : String} {widened : Widened} {n : Tree} {stop : Token}
    (hw : ∀ w ∈ widened, w.1 ∈ Layout.backs)
    (hr : ((ofSource (.ofString text) widened).parse .compilationUnit).2.parser.reports = [])
    (hn : n ∈ ((ofSource (.ofString text) widened).parse .compilationUnit).1.children)
    (hrule : n.rule? = some .packageDeclaration) (hstop : n.stop? = some stop) :
    stop.index + 1 < (Source.ofString text).tokens.toList.length ∧
      ∀ t ∈ (Source.ofString text).tokens.toList, t.index = stop.index + 1 → t.kind ≠ .hexLiteral := by
  obtain ⟨-, hcalm⟩ := unit_calm (regular_ofSource text hw) rfl rfl hr
  obtain ⟨before, next, after, hrest, hlast, hkind⟩ := hcalm n hn hrule
  have hprevious : (ofSource (.ofString text) widened).previous = none := rfl
  rw [hstop, hprevious, Option.or_none] at hlast
  obtain ⟨init, rfl⟩ := List.getLast?_eq_some_iff.mp hlast.symm
  have hpairs := (Source.pairwise_index_tokens text).filter Token.isVisible
  rw [rest_ofSource] at hrest
  rw [hrest] at hpairs
  obtain ⟨hfirst, hsecond, hacross⟩ := List.pairwise_append.mp hpairs
  have hlt : stop.index < next.index := hacross stop (by simp) next List.mem_cons_self
  have hmem : next ∈ (Source.ofString text).tokens.toList.filter Token.isVisible := by
    simp [hrest]
  refine ⟨?_, fun t ht hi hk => ?_⟩
  · have hbound := Source.getElem?_tokens_of_mem (List.mem_filter.mp hmem).1
    exact Nat.lt_of_le_of_lt hlt (List.getElem?_eq_some_iff.mp hbound).1
  · have hvisible : t.isVisible = true := by rw [Token.isVisible, hk]; rfl
    have ht : t ∈ (init ++ [stop]) ++ next :: after :=
      hrest ▸ List.mem_filter.mpr ⟨ht, hvisible⟩
    -- What stands until the last token of the package is too early, what stands after the next
    -- one too late.
    rcases List.mem_append.mp ht with ht | ht
    · have hle : t.index ≤ stop.index := by
        rcases List.mem_append.mp ht with ht | ht
        · exact Nat.le_of_lt ((List.pairwise_append.mp hfirst).2.2 t ht stop List.mem_cons_self)
        · exact Nat.le_of_eq (congrArg Token.index (List.mem_singleton.mp ht))
      omega
    · rcases List.mem_cons.mp ht with rfl | ht
      · exact hkind hk
      · have hgt : next.index < t.index := (List.pairwise_cons.mp hsecond).1 t ht
        omega

namespace Resource

variable (table : Table)

/-- How a token reads when names stand in place of numbers. -/
def Table.renamed (t : Token) : String := ((table.named? t).map Prod.snd).getD (Program.written t)

/-- How tokens read with names in place of numbers and, after the token given, a further line. -/
def Table.restored (tokens : List Token) : Option (Token × String) → String
  | none => String.join (tokens.map table.renamed)
  | some (stop, line) => String.join ((tokens.take (stop.index + 1)).map table.renamed) ++ line ++
      String.join ((tokens.drop (stop.index + 1)).map table.renamed)

/-- The last token in the declaration of the package, and the import that belongs after it. -/
def importAt? (package : Option String) (tree : Tree) : Option (Token × String) :=
  match tree.nodes.find? (Tree.isRule .packageDeclaration), package with
  | some n, some name =>
    if name = "" then none else n.stop?.map fun stop => (stop, Restorer.importOf name)
  | _, _ => none

/-- What comes of writing the tokens of a restored file: the restored text exactly if nothing is
edited, or if there is an import that does not stand at the end and at most one number. -/
structure Table.Outcome (tokens : List Token) (place : Option (Token × String))
    (written : Except ProgramError String) : Prop where
  restored_iff : written = .ok (table.restored tokens place) ↔
    (tokens.filterMap table.named? = [] ∧ place = none) ∨
      ((tokens.filterMap table.named?).length ≤ 1 ∧
        ∃ stop line, place = some (stop, line) ∧ stop.index + 2 < tokens.length)
  several : 2 ≤ (tokens.filterMap table.named?).length → written = .error .replacedElsewhere
  alone : (tokens.filterMap table.named?).length = 1 → place = none → written = .error .noInsertion
  doubled : ∀ stop line, (tokens.filterMap table.named?).length ≤ 1 → place = some (stop, line) →
    stop.index + 2 = tokens.length → written = .ok (table.restored tokens place ++ line)

variable {table}

theorem Table.outcome_of_plain {tokens : List Token} {written : Except ProgramError String}
    (hnone : tokens.filterMap table.named? = [] → written = .ok (table.restored tokens none))
    (hone : (tokens.filterMap table.named?).length = 1 → written = .error .noInsertion)
    (hmany : 2 ≤ (tokens.filterMap table.named?).length → written = .error .replacedElsewhere) :
    table.Outcome tokens none written where
  restored_iff := by
    refine ⟨fun h => .inl ⟨?_, rfl⟩, fun h => ?_⟩
    · rcases hl : (tokens.filterMap table.named?).length with _ | _ | k
      · exact List.length_eq_zero_iff.mp hl
      · rw [hone hl] at h
        cases h
      · rw [hmany (by omega)] at h
        cases h
    · rcases h with ⟨h, -⟩ | ⟨-, _, _, h, -⟩
      · exact hnone h
      · cases h
  several := hmany
  alone h _ := hone h
  doubled := nofun

theorem Table.outcome_of_importing {tokens : List Token} {stop : Token} {line : String}
    {written : Except ProgramError String} (hline : line ≠ "") (hstop : stop.index + 2 ≤ tokens.length)
    (hfew : (tokens.filterMap table.named?).length ≤ 1 → written = .ok
      (table.restored tokens (some (stop, line)) ++ if stop.index + 2 = tokens.length then line else ""))
    (hmany : 2 ≤ (tokens.filterMap table.named?).length → written = .error .replacedElsewhere) :
    table.Outcome tokens (some (stop, line)) written where
  restored_iff := by
    refine ⟨fun h => .inr ?_, fun h => ?_⟩
    · have hl : (tokens.filterMap table.named?).length ≤ 1 := by
        refine Nat.le_of_not_lt fun hl => ?_
        rw [hmany hl] at h
        cases h
      refine ⟨hl, stop, line, rfl, Nat.lt_of_le_of_ne hstop fun hend => hline ?_⟩
      rw [hfew hl, if_pos hend] at h
      have happend := congrArg String.toList (Except.ok.inj h)
      simpa using happend
    · rcases h with ⟨-, h⟩ | ⟨hl, _, _, h, hlt⟩
      · cases h
      · cases h
        rw [hfew hl, if_neg (Nat.ne_of_lt hlt), String.append_empty]
  several := hmany
  alone := nofun
  doubled stop' line' hl hp hend := by
    cases hp
    rw [hfew hl, if_pos hend]

open Restorer

section

variable {text : String} {tokens : List Token} (htokens : tokens = (Source.ofString text).tokens.toList)
  {before after : List (Token × String)} {stop t : Token} {line : String}

private theorem isSingle_naming (h : Token × String) : (naming h).IsSingle := by
  intro range hr
  cases hr
  rfl

/-- At the import stands its line and the token as it is. -/
private theorem rewritten_of_eq (hits : tokens.filterMap table.named? = before ++ after)
    {i : Nat} (hne : ∀ h ∈ before ++ after, h.1.index ≠ i) (ht : t ∈ tokens) (hi : t.index = i) :
    Program.rewritten (before.map naming ++ .insert i line :: after.map naming) t =
      line ++ table.renamed t := by
  have hnone : table.named? t = none := by
    cases hn : table.named? t with
    | none => rfl
    | some h =>
      have hm : h ∈ before ++ after := hits ▸ List.mem_filterMap.mpr ⟨t, ht, hn⟩
      exact absurd hi ((Table.eq_of_named? hn).1 ▸ hne h hm)
  have hbefore : (before.map naming).find? (fun e => e.index == t.index) = none := by
    rw [List.find?_eq_none]
    intro e he
    obtain ⟨h, hm, rfl⟩ := List.mem_map.mp he
    simpa [naming, Edit.index, hi] using hne h (List.mem_append_left _ hm)
  rw [Program.rewritten, List.find?_append, hbefore, List.find?_cons_of_pos (by simp [Edit.index, hi]),
    Table.renamed, hnone]
  rfl

include htokens

/-- Of the edits that put names in place of numbers, the one at a token is its own. -/
private theorem find?_naming (ht : t ∈ tokens) :
    ((tokens.filterMap table.named?).map naming).find? (fun e => e.index == t.index) =
      (table.named? t).map naming := by
  subst htokens
  cases hf : List.find? (fun e : Edit => e.index == t.index) _ with
  | none =>
    cases hn : table.named? t with
    | none => rfl
    | some h =>
      have hm := List.mem_map_of_mem (f := naming) (List.mem_filterMap.mpr ⟨t, ht, hn⟩)
      simpa [naming, Edit.index, (Table.eq_of_named? hn).1] using List.find?_eq_none.mp hf _ hm
  | some e =>
    obtain ⟨h, hm, rfl⟩ := List.mem_map.mp (List.mem_of_find?_eq_some hf)
    obtain ⟨u, hu, hn⟩ := List.mem_filterMap.mp hm
    have hi : u.index = t.index := by
      simpa [naming, Edit.index, (Table.eq_of_named? hn).1] using List.find?_some hf
    rw [← Source.eq_of_index_eq hu ht hi, hn]
    rfl

/-- Away from the import a token reads by the table. -/
private theorem rewritten_of_ne (hits : tokens.filterMap table.named? = before ++ after)
    (ht : t ∈ tokens) {i : Nat} (hi : t.index ≠ i) :
    Program.rewritten (before.map naming ++ .insert i line :: after.map naming) t =
      table.renamed t := by
  have hfind : (before.map naming ++ Edit.insert i line :: after.map naming).find?
      (fun e => e.index == t.index) = (table.named? t).map naming := by
    have hne : ((Edit.insert i line).index == t.index) = false := by simpa [Edit.index] using hi.symm
    rw [← find?_naming htokens ht, hits, List.map_append, List.find?_append, List.find?_append,
      List.find?_cons, hne]
  rw [Program.rewritten, hfind, Table.renamed]
  cases table.named? t <;> rfl

/-- The import is written before the token that follows the package. -/
private theorem join_eq_restored {f : Token → String}
    (haway : ∀ t ∈ tokens, t.index ≠ stop.index + 1 → f t = table.renamed t)
    (hat : ∀ t ∈ tokens, t.index = stop.index + 1 → f t = line ++ table.renamed t)
    (hstop : stop.index + 1 < tokens.length) :
    String.join (tokens.map f) = table.restored tokens (some (stop, line)) := by
  subst htokens
  obtain ⟨t, rest, hdrop⟩ := List.exists_cons_of_ne_nil
    (mt List.drop_eq_nil_iff.mp (Nat.not_le.mpr hstop))
  obtain ⟨hi, hrest⟩ := Source.index_of_drop hdrop
  generalize htokens : (Source.ofString text).tokens.toList = tokens at *
  have hmem : ∀ u ∈ t :: rest, u ∈ tokens := fun u hu => List.mem_of_mem_drop (hdrop ▸ hu)
  have htake : (tokens.take (stop.index + 1)).map f =
      (tokens.take (stop.index + 1)).map table.renamed :=
    List.map_congr_left fun u hu => haway u (List.mem_of_mem_take hu)
      (Nat.ne_of_lt (Source.index_lt_of_mem_take (htokens ▸ hu)))
  have htail : rest.map f = rest.map table.renamed := List.map_congr_left fun u hu =>
    haway u (hmem u (List.mem_cons_of_mem t hu)) (Nat.ne_of_gt (hrest u hu))
  calc String.join (tokens.map f)
      = String.join ((tokens.take (stop.index + 1)).map f) ++ String.join ((t :: rest).map f) := by
        rw [← hdrop, ← String.join_append, ← List.map_append, List.take_append_drop]
    _ = table.restored tokens (some (stop, line)) := by
        rw [htake, List.map_cons, String.join_cons, hat t (hmem t List.mem_cons_self) hi, htail,
          Table.restored, hdrop, List.map_cons, String.join_cons, String.append_assoc,
          String.append_assoc]

/-- No number is the end of a text. -/
private theorem index_of_named {h : Token × String} (hm : h ∈ tokens.filterMap table.named?) :
    h.1 ∈ tokens ∧ h.1.kind = .hexLiteral ∧ h.1.index + 1 < tokens.length := by
  obtain ⟨t, ht, hn⟩ := List.mem_filterMap.mp hm
  obtain ⟨rfl, hk⟩ := Table.eq_of_named? hn
  refine ⟨ht, hk, ?_⟩
  have hpairs := Source.pairwise_index_tokens text
  rw [htokens, Source.toList_tokens_ofString] at ht ⊢
  rw [Source.toList_tokens_ofString] at hpairs
  rcases List.mem_append.mp ht with ht | ht
  · have hlt := (List.pairwise_append.mp hpairs).2.2 _ ht _ (List.mem_singleton_self _)
    simpa [Source.last, Source.endToken] using hlt
  · rw [List.mem_singleton.mp ht] at hk
    cases hk

/-- With the import and at most one number a program can be carried out. -/
private theorem text_of_importing {program : Program}
    (hits : tokens.filterMap table.named? = before ++ after)
    (hpairs : (before ++ after).Pairwise fun h h' => h.1.index < h'.1.index)
    (hl : (before ++ after).length ≤ 1) (hne : ∀ h ∈ before ++ after, h.1.index ≠ stop.index + 1)
    (hstop : stop.index + 1 < tokens.length)
    (hp : program = before.map replacement ++
      some (.insert (stop.index + 1) line) :: after.map replacement)
    (hr : program.ranges = (before ++ after).map fun h => (h.1.index, h.1.index)) :
    (program.text tokens 0 ((tokens.length : Int) - 1)).2 =
      .ok (table.restored tokens (some (stop, line)) ++
        if stop.index + 2 = tokens.length then line else "") := by
  have hedits : program.edits = before.map naming ++ .insert (stop.index + 1) line :: after.map naming := by
    rw [hp, Program.edits_append, edits_replacements]
    exact congrArg (_ ++ _ :: ·) (edits_replacements after)
  have hnaming : ∀ e ∈ (before ++ after).map naming, e.isInsert = false ∧ e.IsSingle ∧
      e.index ≠ stop.index + 1 ∧ e.index + 1 < tokens.length := by
    intro e he
    obtain ⟨h, hm, rfl⟩ := List.mem_map.mp he
    exact ⟨rfl, isSingle_naming h, hne h hm, (index_of_named htokens (hits ▸ hm)).2.2⟩
  have hmem : before.map naming ⊆ (before ++ after).map naming ∧
      after.map naming ⊆ (before ++ after).map naming := by simp
  have hdistinct : program.edits.Pairwise fun d e => d.index ≠ e.index := by
    rw [hedits, List.pairwise_middle Ne.symm, ← List.map_append, List.pairwise_cons, List.pairwise_map]
    exact ⟨fun e he => (hnaming e he).2.2.1.symm, hpairs.imp Nat.ne_of_lt⟩
  have hsingle : ∀ e ∈ program.edits, e.IsSingle := by
    intro e he
    rw [hedits, List.mem_append, List.mem_cons] at he
    rcases he with he | rfl | he
    · exact (hnaming e (hmem.1 he)).2.1
    · exact nofun
    · exact (hnaming e (hmem.2 he)).2.1
  have hbefore : ∀ e ∈ Program.edits (before.map replacement), e.isInsert = false := by
    intro e he
    rw [edits_replacements] at he
    exact (hnaming e (hmem.1 he)).1
  -- Only the import can stand at the end.
  have hend : (program.edits.filter fun e => tokens.length ≤ e.index + 1) =
      if stop.index + 2 = tokens.length then [.insert (stop.index + 1) line] else [] := by
    have hnone : ∀ es ⊆ (before ++ after).map naming,
        (es.filter fun e => tokens.length ≤ e.index + 1) = [] := fun es hes =>
      List.filter_eq_nil_iff.mpr fun e he => by simpa using (hnaming e (hes he)).2.2.2
    have hiff : tokens.length ≤ stop.index + 1 + 1 ↔ stop.index + 2 = tokens.length := by omega
    rw [hedits, List.filter_append, List.filter_cons, hnone _ hmem.1, hnone _ hmem.2]
    simp only [Edit.index, hiff, List.nil_append, decide_eq_true_eq]
  have hjoin : String.join (tokens.map (Program.rewritten program.edits)) =
      table.restored tokens (some (stop, line)) := by
    rw [hedits]
    exact join_eq_restored htokens (fun t ht hi => rewritten_of_ne htokens hits ht hi)
      (fun t ht hi => rewritten_of_eq hits hne ht hi) hstop
  rw [Program.text_of_insertion hp (by simpa [hr] using hl) hbefore hdistinct hsingle
    (htokens ▸ Source.pairwise_index_tokens text), hend, hjoin]
  split <;> simp [Edit.text]

end

/-- Several numbers are too many for any program that replaces them all. -/
private theorem text_of_many {program : Program} {hits : List (Token × String)} {tokens : List Token}
    {start stop : Int} (hr : program.ranges = hits.map fun h => (h.1.index, h.1.index))
    (hp : hits.Pairwise fun h h' => h.1.index < h'.1.index) (hl : 2 ≤ hits.length) :
    (program.text tokens start stop).2 = .error .replacedElsewhere := by
  match hits, hl with
  | h :: h' :: hits, _ =>
    have hlt : h.1.index < h'.1.index := (List.pairwise_cons.mp hp).1 h' List.mem_cons_self
    rw [Program.text_of_clash (Program.clash?_of_lt hr hlt)]

/-- Without numbers and without an import nothing changes. -/
private theorem text_of_nothing {tokens : List Token} (hits : tokens.filterMap table.named? = []) :
    (Program.text tokens 0 ((tokens.length : Int) - 1) []).2 = .ok (table.restored tokens none) := by
  have hmap : tokens.map table.renamed = tokens.map Program.written :=
    List.map_congr_left fun t ht => by
      rw [Table.renamed, List.filterMap_eq_nil_iff.mp hits t ht]
      rfl
  rw [Program.text_nil, Table.restored, hmap]

/-- One number alone cannot be written. -/
private theorem text_of_one {hits : List (Token × String)} {tokens : List Token} {start stop : Int}
    (hl : hits.length = 1) :
    (Program.text tokens start stop (hits.map replacement)).2 = .error .noInsertion := by
  obtain ⟨h, rfl⟩ := List.length_eq_one_iff.mp hl
  rw [Program.text_of_no_insertion]
  all_goals simp [replacement, Program.ranges, Program.edits, naming, Edit.range?, Edit.isInsert]

section

variable {package : Option String} {tree : Tree}

theorem importAt?_of_plain
    (h : ∀ n ∈ tree.nodes, n.rule? = some .packageDeclaration → package.getD "" = "") :
    importAt? package tree = none := by
  unfold importAt?
  split
  · rename_i n name hf
    have hname := h n (List.mem_of_find?_eq_some hf) (Tree.isRule_eq_true_iff.mp (List.find?_some hf))
    exact if_pos hname
  · rfl

theorem importAt?_of_importing {n : Tree} {stop : Token} {name : String}
    (hone : (tree.nodes.filter (Tree.isRule .packageDeclaration)).length ≤ 1)
    (hn : n ∈ tree.nodes) (hrule : n.rule? = some .packageDeclaration) (hstop : n.stop? = some stop)
    (hne : name ≠ "") : importAt? (some name) tree = some (stop, importOf name) := by
  have hm : n ∈ tree.nodes.filter (Tree.isRule .packageDeclaration) :=
    List.mem_filter.mpr ⟨hn, Tree.isRule_eq_true_iff.mpr hrule⟩
  have hfind : tree.nodes.find? (Tree.isRule .packageDeclaration) = some n := by
    rw [← List.head?_filter]
    match hf : tree.nodes.filter (Tree.isRule .packageDeclaration) with
    | [] => simp [hf] at hm
    | [m] => simpa [hf, eq_comm] using hm
    | _ :: _ :: _ => simp [hf] at hone
  simp [importAt?, hfind, hne, hstop]

/-- What comes of writing a restored file, in terms of its tokens and of its package. -/
theorem outcome_of_restores {text : String} {tokens : List Token}
    (htokens : tokens = (Source.ofString text).tokens.toList) {program : Program}
    (h : Restores table package tree program)
    (hits : table.hits tree = tokens.filterMap table.named?)
    (hpairs : (table.hits tree).Pairwise fun h h' => h.1.index < h'.1.index)
    (hone : (tree.nodes.filter (Tree.isRule .packageDeclaration)).length ≤ 1)
    (hnext : ∀ n ∈ tree.children, n.rule? = some .packageDeclaration → ∀ stop, n.stop? = some stop →
      stop.index + 1 < tokens.length ∧
        ∀ t ∈ tokens, t.index = stop.index + 1 → t.kind ≠ .hexLiteral) :
    table.Outcome tokens (importAt? package tree)
      (program.text tokens 0 ((tokens.length : Int) - 1)).2 := by
  have hranges := h.ranges
  have hmany : 2 ≤ (tokens.filterMap table.named?).length →
      (program.text tokens 0 ((tokens.length : Int) - 1)).2 = .error .replacedElsewhere := fun hl =>
    text_of_many hranges hpairs (hits ▸ hl)
  cases h with
  | plain hno =>
    rw [importAt?_of_plain hno]
    rw [hits] at hmany ⊢
    refine Table.outcome_of_plain (fun hnone => ?_) (fun hl => text_of_one hl) hmany
    rw [hnone]
    exact text_of_nothing hnone
  | @importing n stop name after mem rule last given ne split =>
    subst given
    obtain ⟨hstop, hkind⟩ := hnext n mem rule stop last
    have hnode : n ∈ tree.nodes := Tree.nodes_subset mem (Tree.mem_nodes_self rule)
    have hline : importOf name ≠ "" := by simp [importOf]
    rw [importAt?_of_importing hone hnode rule last ne]
    rw [hits] at split
    have hne : ∀ h ∈ table.hits n ++ after, h.1.index ≠ stop.index + 1 := fun h hm hi => by
      obtain ⟨ht, hk, -⟩ := index_of_named htokens (split ▸ hm)
      exact hkind h.1 ht hi hk
    rw [hits, split] at hpairs hranges
    exact Table.outcome_of_importing hline hstop
      (fun hl => text_of_importing htokens split hpairs (split ▸ hl) hne hstop rfl hranges) hmany

end

end Resource

namespace Session

open Resource

private theorem unifyNewlines_of_not_mem {cs : List Char} (h : '\r' ∉ cs) : unifyNewlines cs = cs := by
  fun_induction unifyNewlines cs with
  | case1 => rfl
  | case2 cs => simp at h
  | case3 c cs _ ih =>
    obtain ⟨hc, hcs⟩ := not_or.mp (mt List.mem_cons.mpr h)
    rw [ih hcs, if_neg (Ne.symm hc)]

/-- A text whose lines end in line feeds is read as it is. -/
theorem sourceOf_eq {text : String} (h : '\r' ∉ text.toList) : sourceOf text = .ofString text := by
  rw [sourceOf, unifyNewlines_of_not_mem h, String.ofList_toList]

/-- Unedited tokens are written as they are. -/
theorem join_written_eq (text : String) :
    String.join ((Source.ofString text).tokens.toList.map Program.written) =
      String.join ((Source.words text).map Token.text) := by
  have hwords : (Source.words text).map Program.written = (Source.words text).map Token.text :=
    List.map_congr_left fun t ht => if_neg (Source.isWord_of_mem_words ht).1
  have hlast : Program.written (Source.last text) = "" := rfl
  rw [Source.toList_tokens_ofString, List.map_append, String.join_append, hwords]
  simp [hlast]

/-- Without lexical errors the tokens are the whole text. -/
theorem join_written {text : String} (h : (Source.ofString text).errors = []) :
    String.join ((Source.ofString text).tokens.toList.map Program.written) = text := by
  rw [join_written_eq, Source.join_text_words h]

/-- What comes of opening a file without errors, going through it and writing it: exactly if it is
not edited, or has an import that does not stand at its end and at most one number, the file reads
as before with names in place of numbers and the import after the package. -/
theorem text_of_restored_file {s : Session} (hs : s.Reachable) {text : String}
    (hlines : '\r' ∉ text.toList) (given : Option Table) (package : Option String)
    (wantsImport : Bool) {o o' : Opened}
    (ho : (s.openFile text given package wantsImport).session.opened = some o)
    (ho' : ((s.openFile text given package wantsImport).session.restore o).session.opened = some o')
    (hlexical : (sourceOf text).errors = []) (hreports : o.parser.reports = [])
    (hr : Readable (sourceOf text).tokens.toList) :
    String.join ((sourceOf text).tokens.toList.map Program.written) = text ∧
      ((s.openFile text given package wantsImport).session.restore o).result.2 = none ∧
      (s.tableFor given).Outcome (sourceOf text).tokens.toList
        (importAt? (s.packageFor package wantsImport) o.tree)
        (((s.openFile text given package wantsImport).session.restore o).session.text none none
          o').result.2 := by
  have hopens := opens_of_opened ho
  obtain ⟨htree, hparser⟩ := And.intro hopens.tree hopens.parser
  rw [sourceOf_eq hlines] at htree hparser hlexical hr ⊢
  have hregular := Parser.regular_ofSource text hs.widened
  have hnumbers := numbers_of_source text hs.widened htree
  have hread := hr.mono fun t ht => (List.mem_filter.mp (hnumbers.subset ht)).1
  obtain ⟨r, he, hrestores, -⟩ := Restorer.restores_unit (s.tableFor given) hregular htree hread
    (s.packageFor package wantsImport)
  obtain ⟨hresult, hopened⟩ := hopens.restore he
  cases Option.some.inj (hopened.symm.trans ho')
  rw [hparser] at hreports
  refine ⟨join_written hlexical, by rw [hresult], ?_⟩
  have hsource : o.parser.source = .ofString text := by
    rw [hparser]
    exact (Parser.parse_advances .compilationUnit _ hregular.ended).2.2
  have houtcome := outcome_of_restores rfl hrestores
    (hits_of_calm (s.tableFor given) text hs.widened htree hreports)
    (pairwise_hits (s.tableFor given) text hs.widened htree)
    (Parser.length_packages_le_one hregular htree) fun n hn hrule stop hstop =>
      Parser.next_of_package hs.widened hreports (htree ▸ hn) hrule hstop
  simpa only [Session.text, hsource, Option.getD_none] using houtcome

def packageOutline : Outline :=
  .node .compilationUnit [.node .packageDeclaration
    [.leaf .kwPackage, .node .qualifiedName [.leaf .identifier], .leaf .semi], .leaf .eof]

private theorem ways_package : (Grammar.body .compilationUnit).ways none (Rule.ways none 12) .compilationUnit
    ([Kind.kwPackage, .identifier, .semi, .eof].map some) = some [(packageOutline, [])] := by
  decide +kernel

/-- The package of such a unit stops at its semicolon. -/
private theorem stop_of_packageOutline {S : Tree → Prop} {t : Tree} (h : packageOutline.Of S t)
    (hspanned : t.Each Tree.Spanned) :
    ∃ n stop, t.nodes.find? (Tree.isRule .packageDeclaration) = some n ∧ n.stop? = some stop ∧
      stop.kind = .semi ∧ stop ∈ t.tokens := by
  obtain ⟨start, last, fields, _, rfl, n, us, rfl, hpackage, -⟩ := h
  obtain ⟨start', last', fields', cs, rfl, keyword, _, rfl, -, name, _, rfl, -, semi, _, rfl, hsemi, rfl⟩ :=
    hpackage
  obtain ⟨stop, rfl, hkind⟩ := hsemi
  have hne : stop.kind ≠ .eof := by rw [hkind]; decide
  set package := Java.Tree.node .packageDeclaration start' last' fields'
    [keyword, name, .leaf stop false] with hp
  have hmem : package ∈ (Java.Tree.node .compilationUnit start last fields (package :: us)).nodes := by
    simp [Tree.nodes, Tree.nodesAll, hp]
  have htokens : package.tokens = keyword.tokens ++ name.tokens ++ [stop] := by
    simp [hp, Tree.tokens, Tree.tokensAll, hne]
  have hlast := (hspanned package hmem (by simp [htokens])).2
  rw [htokens, List.getLast?_concat] at hlast
  have hsub : package.tokens.Sublist _ := Tree.tokens_sublist hmem
  refine ⟨package, stop, ?_, hlast, hkind, hsub.subset (by simp [htokens])⟩
  simp [Tree.nodes, Tree.nodesAll, hp, Tree.isRule]

/-- A package alone is read without a report, and its declaration stops at the semicolon. -/
private theorem reads_package {text : String}
    (h : ((Source.words text).filter Token.isVisible).map Token.kind = [.kwPackage, .identifier, .semi])
    {o : Tree × Outcome}
    (ho : o = (Parser.ofSource (.ofString text) ({} : Session).widened).parse .compilationUnit) :
    o.2.parser.reports = [] ∧ ∃ n stop, o.1.nodes.find? (Tree.isRule .packageDeclaration) = some n ∧
      n.stop? = some stop ∧ stop.kind = .semi ∧ stop ∈ Source.words text := by
  have hvisible : ((Source.ofString text).tokens.toList.filter Token.isVisible).map Token.kind =
      [.kwPackage, .identifier, .semi, .eof] := by
    rw [Source.toList_tokens_ofString, List.filter_append, List.map_append, h]
    rfl
  have hspells : Rule.compilationUnit.Spells [.kwPackage, .identifier, .semi, .eof] :=
    Rule.spells_of_body_ways (by rw [ways_package]; rfl)
  obtain ⟨-, hreports⟩ := (Reachable.start.no_report_iff_spells text).mpr (hvisible ▸ hspells)
  have hended := (Parser.regular_ofSource text Reachable.start.widened).ended
  have htokens := Resource.tokens_of_calm text Reachable.start.widened hreports
  have hsound := Parser.isSound_parse .compilationUnit hended rfl rfl hreports
  have hspanned := Parser.each_spanned_parse .compilationUnit hended
  rw [← ho] at hreports htokens hsound hspanned
  refine ⟨hreports, ?_⟩
  have hrow : o.1.tokens.map Token.kind ++ [.eof] =
      Row.fill [] ([Kind.kwPackage, .identifier, .semi, .eof].map some) := by
    rw [htokens, h, Row.fill_map]
    rfl
  have hrule : o.1.rule? = some .compilationUnit := by rw [ho]; rfl
  have hof : packageOutline.Of (fun _ => False) _ := hsound.of_unit_ways (by simp) hrule hrow ways_package
  obtain ⟨n, stop, hn, hstop, hkind, hmem⟩ := stop_of_packageOutline hof hspanned
  exact ⟨n, stop, hn, hstop, hkind, (List.mem_filter.mp (htokens ▸ hmem)).1⟩

/-- After a package at the end of its file the import stands twice. -/
theorem import_written_twice :
    ∃ o o', (({} : Session).openFile "package a;" none (some "b") false).session.opened = some o ∧
      ((({} : Session).openFile "package a;" none (some "b") false).session.restore o).session.opened =
        some o' ∧
      (sourceOf "package a;").errors = [] ∧ o.parser.reports = [] ∧
      Readable (sourceOf "package a;").tokens.toList ∧
      (((({} : Session).openFile "package a;" none (some "b") false).session.restore o).session.text
        none none o').result.2 = .ok "package a;\n\nimport b.R;\n\nimport b.R;" := by
  generalize htext : "package a;" = text
  obtain ⟨o, ho⟩ := exists_opens {} text none (some "b") false
  have hlines : '\r' ∉ text.toList := htext ▸ by decide
  obtain ⟨hlexical, hread, hlength, hnames, hkinds, hsemi⟩ :
      (sourceOf text).errors = [] ∧ Readable (sourceOf text).tokens.toList ∧
        (sourceOf text).tokens.toList.length = 5 ∧
        (sourceOf text).tokens.toList.filterMap (Table.named? []) = [] ∧
        ((Source.words text).filter Token.isVisible).map Token.kind = [.kwPackage, .identifier, .semi] ∧
        ∀ t ∈ Source.words text, t.kind = .semi → t.index = 3 := htext ▸ by decide +kernel
  obtain ⟨hreports, n, stop, hn, hnstop, hkind, hmem⟩ := reads_package hkinds rfl
  have hstop := hsemi stop hmem hkind
  rw [← sourceOf_eq hlines, ← ho.tree] at hn
  rw [← sourceOf_eq hlines, ← ho.parser] at hreports
  have hplace : importAt? (some "b") o.tree = some (stop, "\n\nimport b.R;") := by
    simp only [importAt?, hn, hnstop]
    rfl
  obtain ⟨o', ho'⟩ : ∃ o', ((({} : Session).openFile text none (some "b") false).session.restore
      o).session.opened = some o' := ⟨_, rfl⟩
  obtain ⟨-, -, houtcome⟩ := text_of_restored_file .start hlines none (some "b") false ho.session ho'
    hlexical hreports hread
  have htable : ({} : Session).tableFor none = [] := rfl
  have hpackage : ({} : Session).packageFor (some "b") false = some "b" := rfl
  rw [htable, hpackage, hplace] at houtcome
  have htwice := houtcome.doubled stop _ (by simp [hnames]) rfl (by rw [hstop, hlength])
  refine ⟨o, o', ho.session, ho', hlexical, hreports, hread, htwice.trans (congrArg Except.ok ?_)⟩
  rw [Table.restored, hstop, ← htext]
  decide +kernel

end Session

end ResourceNames
