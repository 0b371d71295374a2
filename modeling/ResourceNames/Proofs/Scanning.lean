import ResourceNames.Proofs.Neighbours
import ResourceNames.Proofs.Outlines
import ResourceNames.Proofs.Restoration

/-!
Texts that are put together from words.

A word stands where a text goes on with a character that no longer word can have there. If every word of
a row stands before the one behind it, then the text of the row is cut into these words again. Whether a
fixed word stands is decided by running the patterns. A word of any length stands if all states that its
characters can lead to are known: this is so for numbers, and for names that go on with digits.
-/
namespace ResourceNames.Java.Lexicon

open Text

/-- What remains of all words after some characters. -/
def remaining (cs : List Char) : List (Kind × Pattern) := cs.foldl (fun live c => step c live) rules

theorem remaining_concat (cs : List Char) (c : Char) :
    remaining (cs ++ [c]) = step c (remaining cs) := List.foldl_append

/-- Some characters are a word of a kind, and the word ends before the next character, if any. -/
def Stands (k : Kind) (w : List Char) (next : Option Char) : Prop :=
  w ≠ [] ∧ complete? (remaining w) = some k ∧ ∀ c ∈ next, step c (remaining w) = []

instance (k : Kind) (w : List Char) (next : Option Char) : Decidable (Stands k w next) :=
  have := Option.decidableForallMem (p := fun c => step c (remaining w) = []) next
  inferInstanceAs (Decidable (_ ∧ _ ∧ _))

private theorem foldl_step_nil (cs : List Char) : cs.foldl (fun live c => step c live) [] = [] := by
  induction cs with
  | nil => rfl
  | cons c cs ih => exact ih

/-- The race goes on as long as there is a word to come. -/
private theorem race_append {k : Kind} {rest : List Char} (u v : List Char) (best : Option Munch)
    (hne : v ≠ []) (hk : complete? (remaining (u ++ v)) = some k)
    (hstop : ∀ c ∈ rest.head?, step c (remaining (u ++ v)) = []) :
    race (remaining u) u.length best (v ++ rest) = ⟨some k, (u ++ v).length⟩ := by
  induction v generalizing u best with
  | nil => exact absurd rfl hne
  | cons c v ih =>
    have hstep : step c (remaining u) ≠ [] := by
      intro hnil
      rw [remaining, List.foldl_append, List.foldl_cons] at hk
      change complete? (v.foldl _ (step c (remaining u))) = _ at hk
      rw [hnil, foldl_step_nil] at hk
      cases hk
    rw [List.append_cons] at hk hstop ⊢
    rw [List.cons_append, race]
    split
    · exact absurd ‹_› hstep
    · rw [← remaining_concat] at *
      have hlen : u.length + 1 = (u ++ [c]).length := by simp
      rw [hlen]
      cases v with
      | cons d v => exact ih (u ++ [c]) _ (List.cons_ne_nil d v) hk hstop
      | nil =>
        rw [List.append_nil] at hk hstop ⊢
        simp only [hk, List.nil_append]
        cases rest with
        | nil => rfl
        | cons d rest =>
          rw [race, hstop d rfl]
          rfl

/-- A word that stands is taken off the front of a text. -/
theorem Stands.munch {k : Kind} {w rest : List Char} (h : Stands k w rest.head?) :
    munch (w ++ rest) = ⟨some k, w.length⟩ :=
  race_append [] w none h.1 h.2.1 h.2.2

/-! ### Words of any length -/

/-- Some characters lead from some states to none but these. -/
def Closed (states : List (List (Kind × Pattern))) (cs : List Char) : Prop :=
  ∀ live ∈ states, ∀ c ∈ cs, step c live ∈ states

instance (states : List (List (Kind × Pattern))) (cs : List Char) : Decidable (Closed states cs) :=
  inferInstanceAs (Decidable (∀ _ ∈ _, ∀ _ ∈ _, _))

variable {states : List (List (Kind × Pattern))} {cs u w : List Char} {k : Kind} {c : Char}

theorem Closed.remaining_mem (h : Closed states cs) (hu : remaining u ∈ states)
    (hw : ∀ c ∈ w, c ∈ cs) : remaining (u ++ w) ∈ states := by
  induction w generalizing u with
  | nil => rwa [List.append_nil]
  | cons c w ih =>
    rw [List.forall_mem_cons] at hw
    rw [List.append_cons]
    refine ih ?_ hw.2
    rw [remaining_concat]
    exact h _ hu c hw.1

/-- In each of some states a word of a kind is complete and ends before some characters. -/
def Final (states : List (List (Kind × Pattern))) (k : Kind) (ends : List Char) : Prop :=
  ∀ live ∈ states, complete? live = some k ∧ ∀ c ∈ ends, step c live = []

instance (states : List (List (Kind × Pattern))) (k : Kind) (ends : List Char) :
    Decidable (Final states k ends) :=
  inferInstanceAs (Decidable (∀ _ ∈ _, _ ∧ ∀ _ ∈ _, _))

theorem Final.stands {ends : List Char} (h : Final states k ends) (hw : remaining w ∈ states)
    (hne : w ≠ []) (hc : c ∈ ends) : Stands k w (some c) := by
  obtain ⟨hk, hstop⟩ := h _ hw
  refine ⟨hne, hk, ?_⟩
  rintro _ ⟨⟩
  exact hstop c hc

def decimalDigits : List Char := "0123456789".toList

theorem digitChar_mem {n : Nat} (h : n < 10) : n.digitChar ∈ decimalDigits := by
  revert n
  decide

theorem mem_decimalDigits {n : Nat} (hc : c ∈ (toString n).toList) : c ∈ decimalDigits := by
  rw [Nat.toString_eq_repr, Nat.toList_repr] at hc
  obtain ⟨d, hd, rfl⟩ := exists_digitChar hc
  exact digitChar_mem hd

def decimalStates : List (List (Kind × Pattern)) :=
  [remaining ['1'], remaining ['1', '0'], remaining ['1', '0', '0']]

private theorem run_decimalStates : Closed decimalStates decimalDigits ∧
    ∀ n < 10, n ≠ 0 → remaining [n.digitChar] ∈ decimalStates := by
  decide +kernel

private theorem final_decimalStates : Final decimalStates .decimalLiteral [';', ')'] ∧
    ∀ c ∈ [';', ')'], Stands .decimalLiteral ['0'] (some c) := by
  decide +kernel

private theorem remaining_toDigits {n : Nat} (hn : n ≠ 0) :
    remaining (Nat.toDigits 10 n) ∈ decimalStates := by
  induction n using Nat.strongRecOn with
  | ind n ih =>
    rcases Nat.lt_or_ge n 10 with h | h
    · rw [Nat.toDigits_of_lt_base h]
      exact run_decimalStates.2 n h hn
    · rw [Nat.toDigits_of_base_le (by decide) h, remaining_concat]
      exact run_decimalStates.1 _ (ih (n / 10) (by omega) (by omega)) _
        (digitChar_mem (Nat.mod_lt n (by decide)))

/-- A number stands before a semicolon or a bracket. -/
theorem stands_decimal (n : Nat) (hc : c ∈ [';', ')']) :
    Stands .decimalLiteral (toString n).toList (some c) := by
  rw [Nat.toString_eq_repr, Nat.toList_repr]
  by_cases hn : n = 0
  · rw [hn]
    exact final_decimalStates.2 c hc
  · exact final_decimalStates.1.stands (remaining_toDigits hn) Nat.toDigits_ne_nil hc

/-- A word ends before a character with which none of the words still possible goes on. -/
theorem step_eq_nil {live : List (Kind × Pattern)}
    (h : ∀ r ∈ live, ∀ s ∈ r.2.starts, s.contains c = false) : step c live = [] := by
  have hnone : (live.flatMap fun r => (r.2.after c).map fun p => (r.1, p)) = [] := by
    rw [List.flatMap_eq_nil_iff]
    intro r hr
    rw [Pattern.after_eq_nil (h r hr), List.map_nil]
  rw [step, hnone]
  rfl

def hexStates : List (List (Kind × Pattern)) := [remaining "0x0".toList, remaining "0x00".toList]

def hexDigitChars : List Char := "0123456789abcdefABCDEF".toList

/-- The characters with which a number in base sixteen may go on: digits and underscores, a point, and the
marks of a long integer and of an exponent. -/
def hexFollowers : List Char := hexDigitChars ++ "_.lLpP".toList

private theorem ascii_hexFollowers : hexFollowers.all (fun c => c.toNat < 128) = true := by
  decide

private theorem mem_hexDigitChars (h : hexDigitSet.contains c = true) : c ∈ hexDigitChars := by
  have hwithin : hexDigitSet.within hexDigitChars.contains = true := by decide
  exact List.contains_iff_mem.mp (CharSet.of_within hwithin (uniform_contains (by decide)) h)

private theorem run_hexStates : Closed hexStates hexDigitChars ∧
    (∀ x ∈ ['x', 'X'], ∀ c ∈ hexDigitChars, remaining ['0', x, c] ∈ hexStates) ∧
    ∀ live ∈ hexStates, complete? live = some .hexLiteral ∧
      ∀ r ∈ live, ∀ s ∈ r.2.starts, s.within hexFollowers.contains = true := by
  decide +kernel

/-- A number that is written in base sixteen stands before every character with which such a number cannot go
on, and at the end. -/
theorem stands_of_writesHex {text : String} {mark : Char} {ds : List Char} {n : Nat}
    (h : WritesHex text mark ds n) {next : Option Char} (hnext : ∀ c ∈ next, c ∉ hexFollowers) :
    Stands .hexLiteral text.toList next := by
  obtain ⟨d, w, rfl⟩ := List.exists_cons_of_ne_nil h.ne_nil
  have hdigits : ∀ c ∈ d :: w, c ∈ hexDigitChars := fun c hc => mem_hexDigitChars (h.digits c hc)
  rw [List.forall_mem_cons] at hdigits
  obtain ⟨hclosed, hfirsts, hfinal⟩ := run_hexStates
  have hfirst := hfirsts mark (by simpa using h.mark) d hdigits.1
  have hmem := hclosed.remaining_mem hfirst hdigits.2
  obtain ⟨hcomplete, hstarts⟩ := hfinal _ hmem
  rw [h.eq]
  refine ⟨by simp, hcomplete, fun c hc => step_eq_nil fun r hr s hs => Bool.eq_false_iff.mpr fun hsc => ?_⟩
  exact hnext c hc (List.contains_iff_mem.mp
    (CharSet.of_within (hstarts r hr s hs) (uniform_contains ascii_hexFollowers) hsc))

/-- A number in base sixteen stands before a comma. -/
theorem stands_hex (n : Nat) : Stands .hexLiteral ("0x" ++ paddedHex n).toList (some ',') := by
  refine stands_of_writesHex (writesHex_paddedHex n) fun c hc => ?_
  obtain rfl : ',' = c := Option.mem_some.mp hc
  decide

end ResourceNames.Java.Lexicon

namespace ResourceNames.Java

open Lexicon

/-! ### Rows of words -/

def spelled (ws : List (Kind × String)) : List Char := ws.flatMap fun w => w.2.toList

@[simp] theorem spelled_cons (w : Kind × String) (ws : List (Kind × String)) :
    spelled (w :: ws) = w.2.toList ++ spelled ws := rfl

@[simp] theorem spelled_append (xs ys : List (Kind × String)) :
    spelled (xs ++ ys) = spelled xs ++ spelled ys := List.flatMap_append

/-- Every word of a row stands before the one behind it, and the last one before the next character
after the row. -/
def Spaced (next : Option Char) : List (Kind × String) → Prop
  | [] => True
  | w :: ws => Stands w.1 w.2.toList ((spelled ws).head?.or next) ∧ Spaced next ws

instance decidableSpaced (next : Option Char) : (ws : List (Kind × String)) → Decidable (Spaced next ws)
  | [] => isTrue trivial
  | w :: ws =>
    have := decidableSpaced next ws
    inferInstanceAs (Decidable (Stands w.1 w.2.toList _ ∧ Spaced next ws))

theorem Spaced.append {next : Option Char} {xs ys : List (Kind × String)}
    (hx : Spaced ((spelled ys).head?.or next) xs) (hy : Spaced next ys) : Spaced next (xs ++ ys) := by
  induction xs with
  | nil => exact hy
  | cons x xs ih =>
    rw [List.cons_append, Spaced, spelled_append, List.head?_append, Option.or_assoc]
    exact ⟨hx.1, ih hx.2⟩

/-- Every word of a row is taken off the front of what is left of the text, which goes on with `rest`
after the row. -/
def Taken (rest : List Char) : List (Kind × String) → Prop
  | [] => True
  | w :: ws =>
    w.2.toList ≠ [] ∧ munch (w.2.toList ++ (spelled ws ++ rest)) = ⟨some w.1, w.2.toList.length⟩ ∧
      Taken rest ws

theorem Spaced.taken {rest : List Char} {ws : List (Kind × String)} (h : Spaced rest.head? ws) :
    Taken rest ws := by
  induction ws with
  | nil => trivial
  | cons w ws ih =>
    have hfirst : Stands w.1 w.2.toList (spelled ws ++ rest).head? := by
      rw [List.head?_append]
      exact h.1
    exact ⟨hfirst.1, hfirst.munch, ih h.2⟩

/-- What is taken off the front of a text is its first piece. -/
theorem piecesFrom_append {kind : Option Kind} {w rest : List Char} (hne : w ≠ [])
    (h : munch (w ++ rest) = ⟨kind, w.length⟩) (p : Place) :
    piecesFrom (w ++ rest) p 0 = ⟨kind, p, w⟩ :: piecesFrom rest (w.foldl Place.advance p) 0 := by
  have hskip : ∀ (v : List Char) (q : Place),
      piecesFrom (v ++ rest) q v.length = piecesFrom rest (v.foldl Place.advance q) 0 := by
    intro v
    induction v with
    | nil => exact fun _ => rfl
    | cons c v ih => exact fun q => ih (q.advance c)
  obtain ⟨c, v, rfl⟩ := List.exists_cons_of_ne_nil hne
  rw [List.cons_append] at h ⊢
  rw [piecesFrom, h]
  simp only [List.length_cons, Nat.add_sub_cancel, List.take_succ_cons, List.take_left', hskip,
    List.foldl_cons]

/-- The text of a row of words that are taken off it is cut into these words. -/
private theorem map_piecesFrom {ws : List (Kind × String)} (h : Taken [] ws) (p : Place) :
    (piecesFrom (spelled ws) p 0).map (fun q => (q.kind, String.ofList q.text)) =
      ws.map fun w => (some w.1, w.2) := by
  induction ws generalizing p with
  | nil => rfl
  | cons w ws ih =>
    obtain ⟨hne, hmunch, hrest⟩ := h
    rw [List.append_nil] at hmunch
    rw [spelled_cons, piecesFrom_append hne hmunch, List.map_cons, List.map_cons,
      String.ofList_toList]
    exact congrArg _ (ih hrest _)

namespace Source

private theorem number_of_map {n : Nat} {ps : List Piece} {ws : List (Kind × String)}
    (h : ps.map (fun q => (q.kind, String.ofList q.text)) = ws.map fun w => (some w.1, w.2)) :
    (number n ps).map Token.word = ws ∧ rejected n ps = [] := by
  induction ps generalizing n ws with
  | nil =>
    obtain rfl := List.map_eq_nil_iff.mp h.symm
    exact ⟨rfl, rfl⟩
  | cons q ps ih =>
    obtain ⟨w, ws, rfl, hw, hws⟩ := List.map_eq_cons_iff.mp h.symm
    obtain ⟨hkind, htext⟩ := Prod.mk.inj hw
    obtain ⟨hnumber, hrejected⟩ := ih (n := n + 1) hws.symm
    simp only [number, rejected, ← hkind, List.map_cons, Token.word, hnumber, hrejected, ← htext, and_self]

/-- A text of words that are taken off it has these words for tokens, and no lexical error. -/
theorem words_of_taken {text : String} {ws : List (Kind × String)} (h : Taken [] ws)
    (ht : text.toList = spelled ws) :
    (words text).map Token.word = ws ∧ (ofString text).errors = [] := by
  have hmap := map_piecesFrom h Place.start
  rw [← ht] at hmap
  exact number_of_map hmap

/-- A text of words that stand has these words for tokens, and no lexical error. -/
theorem words_of_spaced {text : String} {ws : List (Kind × String)} (h : Spaced none ws)
    (ht : text.toList = spelled ws) :
    (words text).map Token.word = ws ∧ (ofString text).errors = [] :=
  words_of_taken (Spaced.taken h) ht

end Source

/-- Words that begin with a line break, if there are any, and stand before one. -/
structure Lines (ws : List (Kind × String)) : Prop where
  spaced : Spaced (some '\n') ws
  first : ∀ c ∈ (spelled ws).head?, c = '\n'

namespace Lines

variable {xs ys : List (Kind × String)}

theorem head?_or (h : Lines xs) : (spelled xs).head?.or (some '\n') = some '\n' := by
  cases hc : (spelled xs).head? with
  | none => rfl
  | some c => rw [h.first c hc, Option.some_or]

theorem append (hx : Lines xs) (hy : Lines ys) : Lines (xs ++ ys) where
  spaced := Spaced.append (by rw [hy.head?_or]; exact hx.spaced) hy.spaced
  first := by
    rw [spelled_append, List.head?_append]
    intro c hc
    rcases Option.or_eq_some_iff.mp hc with hc | ⟨-, hc⟩
    · exact hx.first c hc
    · exact hy.first c hc

theorem nil : Lines [] := ⟨trivial, nofun⟩

theorem flatMap {α : Type} {l : List α} {f : α → List (Kind × String)} (h : ∀ a ∈ l, Lines (f a)) :
    Lines (l.flatMap f) := by
  induction l with
  | nil => exact .nil
  | cons a l ih =>
    rw [List.forall_mem_cons] at h
    exact h.1.append (ih h.2)

end Lines

/-- Line breaks that end lines are line breaks that begin them, but for the first and the last. -/
theorem flatMap_lines {α : Type} {f : α → List Char} {g : α → List (Kind × String)}
    (h : ∀ a, '\n' :: f a = spelled (g a) ++ ['\n']) (l : List α) :
    '\n' :: l.flatMap f = spelled (l.flatMap g) ++ ['\n'] := by
  induction l with
  | nil => rfl
  | cons a l ih =>
    rw [List.flatMap_cons, List.flatMap_cons, ← List.cons_append, h, List.append_assoc,
      List.singleton_append, ih, spelled_append, List.append_assoc]

/-! ### Files put together from words -/

def seen (ws : List (Kind × String)) : List (Kind × String) := ws.filter fun w => !w.1.isHidden

theorem seen_append (xs ys : List (Kind × String)) : seen (xs ++ ys) = seen xs ++ seen ys :=
  List.filter_append ..

theorem seen_flatMap {α : Type} (l : List α) (f : α → List (Kind × String)) :
    seen (l.flatMap f) = l.flatMap fun a => seen (f a) :=
  List.filter_flatMap ..

end ResourceNames.Java

namespace ResourceNames.Resource

open Java Text

/-- The name in the table for a word, if it is a number in base sixteen. -/
def Table.nameOf? (table : Table) (w : Kind × String) : Option String :=
  if w.1 = .hexLiteral then
    match readNumeral .sixteen w.2 with
    | .ok id => table.get? id
    | .error _ => none
  else none

/-- The edit that puts the name of a number in the place of a word. -/
def Table.renaming? (table : Table) (w : (Kind × String) × Nat) : Option (Option Edit) :=
  (table.nameOf? w.1).map fun name => some (.replace w.2 w.2 name)

private theorem Table.map_replacement_named? (table : Table) (t : Token) :
    (table.named? t).map Restorer.replacement = table.renaming? (t.word, t.index) := by
  unfold Table.named? Table.renaming? Table.nameOf? Token.word
  split
  · cases readNumeral .sixteen t.text with
    | ok id => simp only [Option.map_map]; rfl
    | error => rfl
  · rfl

/-- The replacements for the tokens of a text, by its words. -/
private theorem map_replacement_words (table : Table) {text : String} {ws : List (Kind × String)}
    (h : (Source.words text).map Token.word = ws) :
    ((Source.words text).filterMap table.named?).map Restorer.replacement =
      ws.zipIdx.filterMap table.renaming? := by
  have hzip : ws.zipIdx = (Source.words text).map fun t => (t.word, t.index) := by
    have hindex : (Source.words text).map Token.index = List.range' 0 ws.length := by
      rw [← h, List.length_map]
      exact Source.map_index_number 0 _
    rw [List.zipIdx_eq_zip_range', ← hindex, ← h, List.zip_map']
  rw [hzip, List.filterMap_map, List.map_filterMap]
  exact List.filterMap_congr fun t _ => table.map_replacement_named? t

end ResourceNames.Resource

namespace ResourceNames.Session

open Java Resource Text

/-- A file of words that stand, and whose kinds are a sentence, is read without a mistake, and the tree
holds the words. -/
theorem Reachable.reads_words {s : Session} (hs : s.Reachable) {text : String}
    {ws : List (Kind × String)} (h : Spaced none ws) (ht : text.toList = spelled ws)
    (hkinds : Rule.compilationUnit.Spells ((seen ws).map Prod.fst ++ [.eof])) {o : Tree × Outcome}
    (ho : o = (Parser.ofSource (.ofString text) s.widened).parse .compilationUnit) :
    (Source.ofString text).errors = [] ∧ o.2.halt = none ∧ o.2.parser.reports = [] ∧
      o.1.IsSound ∧ o.1.rule? = some .compilationUnit ∧ o.1.words = seen ws := by
  obtain ⟨hwords, herrors⟩ := Source.words_of_spaced h ht
  have hseen : ((Source.words text).filter Token.isVisible).map Token.word = seen ws := by
    rw [seen, ← hwords, List.filter_map]
    rfl
  have hvisible : ((Source.ofString text).tokens.toList.filter Token.isVisible).map Token.kind =
      (seen ws).map Prod.fst ++ [.eof] := by
    rw [Source.toList_tokens_ofString, List.filter_append, List.map_append, ← hseen, List.map_map]
    rfl
  subst ho
  have hbefore : Parser.Before _ (Parser.ofSource (.ofString text) s.widened) :=
    ⟨rfl, rfl, hs.adds, (Parser.regular_ofSource text hs.widened).ended, .inl rfl⟩
  obtain ⟨hhalt, hreports⟩ := Parser.parse_complete hbefore rfl (hvisible ▸ hkinds)
  refine ⟨herrors, hhalt, hreports, ?_, rfl, ?_⟩
  · exact Parser.isSound_parse .compilationUnit (Parser.regular_ofSource text hs.widened).ended rfl rfl
      hreports
  · rw [Tree.words, Resource.tokens_of_calm text hs.widened hreports, hseen]

/-- The numbers in base sixteen among the words give way to their names, if they have one, each in its
own place. -/
theorem Reachable.restores_words {s : Session} (hs : s.Reachable) {text : String}
    {ws : List (Kind × String)} (h : Spaced none ws) (ht : text.toList = spelled ws) {o : Tree × Outcome}
    (ho : o = (Parser.ofSource (.ofString text) s.widened).parse .compilationUnit)
    (hreports : o.2.parser.reports = [])
    (hread : ∀ w ∈ ws, w.1 = .hexLiteral → ∃ id, readNumeral .sixteen w.2 = .ok id) (table : Table) :
    ∃ r, ({} : Restorer).restore table o.1 = .ok r ∧
      r.program = ws.zipIdx.filterMap table.renaming? ∧ r.count = r.program.length := by
  obtain ⟨hwords, -⟩ := Source.words_of_spaced h ht
  have htree : o.1 = ((Parser.ofSource (.ofString text) s.widened).parse .compilationUnit).1 := by rw [ho]
  have hreadable : Readable (Source.ofString text).tokens.toList := by
    intro t ht hkind
    rw [Source.toList_tokens_ofString, List.mem_append, List.mem_singleton] at ht
    rcases ht with ht | rfl
    · exact hread t.word (hwords ▸ List.mem_map_of_mem ht) hkind
    · cases hkind
  have hnumbers := numbers_of_source text hs.widened htree
  obtain ⟨r, hr, hrestores, hcount⟩ := Restorer.restores_unit table
    (Parser.regular_ofSource text hs.widened) htree
    (hreadable.mono fun t ht => (List.mem_filter.mp (hnumbers.subset ht)).1) none
  have hplain : r.program = (table.hits o.1).map Restorer.replacement := by
    generalize r.program = program at hrestores
    cases hrestores with
    | plain => rfl
    | importing _ _ _ given => cases given
  have hlast : [Source.last text].filterMap table.named? = [] := rfl
  refine ⟨r, hr, ?_, by rw [hcount, hplain, List.length_map]⟩
  rw [hplain, hits_of_calm table text hs.widened htree (ho ▸ hreports), Source.toList_tokens_ofString,
    List.filterMap_append, hlast, List.append_nil, map_replacement_words table hwords]

end ResourceNames.Session
