import ResourceNames.Edit

/-!
What a program of edits writes.

Each edit stands at one token. Then a program writes the tokens one after another, each one by the
edit at it or as it is, provided that the program can be carried out at all.
-/
namespace ResourceNames

open Java

namespace Edit

/-- An edit touches no other token than the one at which it stands. -/
def IsSingle (e : Edit) : Prop := ∀ range ∈ e.range?, range.2 = e.index

def written (t : Token) : Edit → String
  | .insert _ text => text ++ Program.written t
  | .replace _ _ text => text

end Edit

namespace Program

/-- What stands for a token after the edits. -/
def rewritten (edits : List Edit) (t : Token) : String :=
  match edits.find? fun e => e.index == t.index with
  | none => written t
  | some e => e.written t

/-- Writing goes from token to token. -/
theorem write_eq_join {edits : List Edit} (he : ∀ e ∈ edits, e.IsSingle) {ts : List Token}
    (ht : ts.Pairwise fun t u => t.index < u.index) {next : Nat} (hn : ∀ t ∈ ts, next ≤ t.index) :
    write edits ts next = String.join (ts.map (rewritten edits)) := by
  induction ts generalizing next with
  | nil => rfl
  | cons t ts ih =>
    obtain ⟨hlt, ht⟩ := List.pairwise_cons.mp ht
    have hrest : write edits ts (t.index + 1) = String.join (ts.map (rewritten edits)) :=
      ih ht fun u hu => hlt u hu
    have hnext : ¬ t.index < next := Nat.not_lt.mpr (hn t List.mem_cons_self)
    rw [write, if_neg hnext, List.map_cons, String.join_cons, rewritten]
    cases hf : edits.find? fun e => e.index == t.index with
    | none => simp only [hrest]
    | some e =>
      have hi : e.index = t.index := by simpa using List.find?_some hf
      cases e with
      | insert i text => simp only [hrest, Edit.written]
      | replace i last text =>
        have hl : last = t.index := by
          rw [← hi]
          exact he _ (List.mem_of_find?_eq_some hf) _ rfl
        simp only [hl, hrest, Edit.written]

/-- All tokens stand between the first and the last one. -/
theorem between_all (tokens : List Token) : between tokens 0 ((tokens.length : Int) - 1) = tokens := by
  simp [between]

@[simp] theorem edits_append (p q : Program) : edits (p ++ q) = edits p ++ edits q := by
  simp [edits]

@[simp] theorem ranges_append (p q : Program) : ranges (p ++ q) = ranges p ++ ranges q := by
  simp [ranges]

theorem repeats_eq_false {es : List Edit} (h : es.Pairwise fun d e => d.index ≠ e.index) :
    repeats es = false := by
  induction es with
  | nil => rfl
  | cons e es ih =>
    obtain ⟨he, hes⟩ := List.pairwise_cons.mp h
    simp only [repeats, ih hes, Bool.or_false, List.any_eq_false, beq_iff_eq]
    exact fun d hd hi => he d hd hi.symm

private theorem findIdx?_insert {p : Program} (h : ∀ e ∈ p.edits, e.isInsert = false) :
    (p.findIdx? fun e => e.any Edit.isInsert) = none := by
  rw [List.findIdx?_eq_none_iff]
  intro e he
  cases e with
  | none => rfl
  | some e => exact h e (List.mem_filterMap.mpr ⟨_, he, rfl⟩)

/-- Without an insertion a program cannot be carried out. -/
theorem settle_eq_none {p : Program} (h : ∀ e ∈ p.edits, e.isInsert = false) : p.settle = none := by
  rw [settle, findIdx?_insert h]

/-- The first insertion stays as it is if nothing before it is put in the place of its token. -/
theorem settle_eq_self {before after : Program} {i : Nat} {text : String}
    (hb : ∀ e ∈ before.edits, e.isInsert = false) (hi : ∀ range ∈ before.ranges, range.1 ≠ i) :
    settle (before ++ some (.insert i text) :: after) =
      some (before ++ some (.insert i text) :: after) := by
  have hfind : ((before ++ some (.insert i text) :: after).findIdx? fun e => e.any Edit.isInsert) =
      some before.length := by
    rw [List.findIdx?_append, findIdx?_insert hb]
    simp [List.findIdx?_cons, Edit.isInsert]
  have hany : (before.any fun e => e.any fun r => r.range?.any fun range => range.1 = i) = false := by
    rw [List.any_eq_false]
    intro e he h
    obtain ⟨r, rfl, hany⟩ := (Option.any_eq_true _ _).mp h
    obtain ⟨range, hr, heq⟩ := (Option.any_eq_true _ _).mp hany
    exact hi range (List.mem_filterMap.mpr ⟨r, List.mem_filterMap.mpr ⟨_, he, rfl⟩, hr⟩)
      (of_decide_eq_true heq)
  rw [settle, hfind]
  simp [hany]

variable {tokens : List Token} {p : Program}

theorem text_nil : text tokens 0 ((tokens.length : Int) - 1) [] =
    ([], .ok (String.join (tokens.map written))) := by
  simp [text, between_all]

theorem text_of_clash {e : ProgramError} (h : p.clash? = some e) (start stop : Int) :
    p.text tokens start stop = (p, .error e) := by
  cases p with
  | nil => cases h
  | cons => simp [text, h]

/-- Two replacements cannot be carried out, the first one before the second. -/
theorem clash?_of_lt {i last j last' : Nat} {ranges : List (Nat × Nat)}
    (h : p.ranges = (i, last) :: (j, last') :: ranges) (hij : i < j) :
    p.clash? = some .replacedElsewhere := by
  simp [clash?, h, Nat.not_le.mpr hij]

theorem clash?_of_length_le_one (h : p.ranges.length ≤ 1) : p.clash? = none := by
  unfold clash?
  split
  · rename_i hr
    simp [hr] at h
  · rfl

theorem text_of_no_insertion (hne : p ≠ []) (hr : p.ranges.length ≤ 1)
    (h : ∀ e ∈ p.edits, e.isInsert = false) (start stop : Int) :
    p.text tokens start stop = (p, .error .noInsertion) := by
  simp [text, hne, clash?_of_length_le_one hr, settle_eq_none h]

/-- With an insertion, at most one replacement and all edits at tokens of their own, each token is
written by its edit. What stands at the end is written once more. -/
theorem text_of_insertion {before after : Program} {i : Nat} {line : String}
    (hp : p = before ++ some (.insert i line) :: after) (hr : p.ranges.length ≤ 1)
    (hb : ∀ e ∈ before.edits, e.isInsert = false)
    (hd : p.edits.Pairwise fun d e => d.index ≠ e.index) (hs : ∀ e ∈ p.edits, e.IsSingle)
    (ht : tokens.Pairwise fun t u => t.index < u.index) :
    p.text tokens 0 ((tokens.length : Int) - 1) = (p, .ok (String.join (tokens.map (rewritten p.edits)) ++
      String.join ((p.edits.filter fun e => tokens.length ≤ e.index + 1).map Edit.text))) := by
  have hedits : p.edits = before.edits ++ .insert i line :: after.edits := by simp [hp, edits]
  have hi : ∀ range ∈ before.ranges, range.1 ≠ i := by
    intro range hm
    obtain ⟨e, he, hrange⟩ := List.mem_filterMap.mp hm
    have hne := (List.pairwise_append.mp (hedits ▸ hd)).2.2 e he _ List.mem_cons_self
    cases e with
    | insert => cases hrange
    | replace =>
      cases hrange
      exact hne
  have hsettle : p.settle = some p := hp ▸ settle_eq_self hb hi
  have hne : p ≠ [] := by simp [hp]
  have hlast : ∀ e : Edit, (tokens.length : Int) - 1 ≤ (e.index : Int) ↔ tokens.length ≤ e.index + 1 := by
    intro e
    omega
  have hwrite : write p.edits tokens 0 = _ := write_eq_join hs ht fun _ _ => Nat.zero_le _
  simp [text, hne, clash?_of_length_le_one hr, hsettle, repeats_eq_false hd, between_all, hwrite, hlast]

end Program

end ResourceNames
