import ResourceNames.Java.Token

/-!
The words of a text.

A pattern is run by its partial derivatives, so what the lexicon takes off the front of a text
under some kind is a word of that kind. The pieces of a text cover it from its first character to
its last; without lexical errors its tokens do so too. Tokens are numbered in their order, and
the end comes last and only there.
-/
namespace ResourceNames.Text.Pattern

theorem matches_nil_of_nullable {p : Pattern} (h : p.nullable = true) : Matches p [] := by
  induction p with
  | empty => exact .empty
  | one s => simp [nullable] at h
  | seq p q ihp ihq =>
    simp only [nullable, Bool.and_eq_true] at h
    simpa using Matches.seq (ihp h.1) (ihq h.2)
  | alt p q ihp ihq =>
    simp only [nullable, Bool.or_eq_true] at h
    rcases h with h | h
    · exact .left (ihp h)
    · exact .right (ihq h)
  | star p => exact .done

private theorem matches_andThen {p q : Pattern} {w : List Char} (h : Matches (p.andThen q) w) :
    ∃ u v, w = u ++ v ∧ Matches p u ∧ Matches q v := by
  cases p with
  | empty => exact ⟨[], w, rfl, .empty, h⟩
  | one s | seq p p' | alt p p' | star p =>
    cases h with
    | seq hu hv => exact ⟨_, _, rfl, hu, hv⟩

/-- A word of what may stand after a character, with that character before it, is a word of the
pattern. -/
theorem matches_of_after {c : Char} {p q : Pattern} {w : List Char} (hq : q ∈ p.after c)
    (hw : Matches q w) : Matches p (c :: w) := by
  induction p generalizing q w with
  | empty => simp [after] at hq
  | one s =>
    simp only [after] at hq
    split at hq
    · rename_i hs
      obtain rfl := List.mem_singleton.mp hq
      cases hw
      exact .one hs
    · simp at hq
  | seq p p' ih ih' =>
    simp only [after, List.mem_append, List.mem_map] at hq
    rcases hq with ⟨r, hr, rfl⟩ | hq
    · obtain ⟨u, v, rfl, hu, hv⟩ := matches_andThen hw
      exact .seq (ih hr hu) hv
    · split at hq
      · rename_i hn
        exact .seq (matches_nil_of_nullable hn) (ih' hq hw)
      · simp at hq
  | alt p p' ih ih' =>
    simp only [after, List.mem_append] at hq
    rcases hq with hq | hq
    · exact .left (ih hq hw)
    · exact .right (ih' hq hw)
  | star p ih =>
    simp only [after, List.mem_map] at hq
    obtain ⟨r, hr, rfl⟩ := hq
    obtain ⟨u, v, rfl, hu, hv⟩ := matches_andThen hw
    exact .more (ih hr hu) hv

private theorem eq_of_matches_chars {cs w : List Char}
    (h : Matches (cs.foldr (fun c p => .seq (.one ⟨false, [(c, c)]⟩) p) .empty) w) : w = cs := by
  induction cs generalizing w with
  | nil => cases h; rfl
  | cons c cs ih =>
    cases h with
    | seq hu hv =>
      cases hu with
      | one hc =>
        rename_i d
        have hd : d = c := by
          simp only [CharSet.contains, List.any_cons, List.any_nil, Bool.or_false,
            Bool.false_bne, Bool.and_eq_true, decide_eq_true_eq] at hc
          exact Char.le_antisymm hc.2 hc.1
        rw [hd, ih hv]
        rfl

theorem eq_of_matches_word {s : String} {w : List Char} (h : Matches (word s) w) :
    w = s.toList := eq_of_matches_chars h

end ResourceNames.Text.Pattern

namespace ResourceNames.Java.Lexicon

open Text (Pattern)

/-- What is left of some kinds after `u`: completed by a word, it completes `u` to a word of the
kind. -/
def Sound (u : List Char) (live : List (Kind × Pattern)) : Prop :=
  ∀ r ∈ live, r.1 ≠ .eof ∧ ∀ w, r.2.Matches w → (pattern r.1).Matches (u ++ w)

theorem sound_rules : Sound [] rules := by
  intro r hr
  obtain ⟨k, hk, rfl⟩ := List.mem_map.mp hr
  refine ⟨?_, fun w hw => hw⟩
  rintro rfl
  exact absurd hk (by decide)

theorem Sound.step {u : List Char} {live : List (Kind × Pattern)} (h : Sound u live)
    (c : Char) : Sound (u ++ [c]) (step c live) := by
  intro r hr
  simp only [Lexicon.step, List.mem_eraseDups, List.mem_flatMap, List.mem_map] at hr
  obtain ⟨s, hs, p, hp, rfl⟩ := hr
  obtain ⟨hk, hw⟩ := h s hs
  refine ⟨hk, fun w hm => ?_⟩
  simpa using hw (c :: w) (Pattern.matches_of_after hp hm)

theorem Sound.complete {u : List Char} {live : List (Kind × Pattern)} (h : Sound u live)
    {k : Kind} (hk : complete? live = some k) : k ≠ .eof ∧ (pattern k).Matches u := by
  simp only [complete?, Option.map_eq_some_iff] at hk
  obtain ⟨r, hr, rfl⟩ := hk
  obtain ⟨he, hw⟩ := h r (List.mem_of_find?_eq_some hr)
  have hn : r.2.nullable = true := by simpa using List.find?_some hr
  exact ⟨he, by simpa using hw [] (Pattern.matches_nil_of_nullable hn)⟩

/-- A stretch at the front of a text: not empty, within the text, and, if it has a kind, a word of
that kind. -/
structure Munch.Fits (m : Munch) (input : List Char) : Prop where
  pos : 0 < m.length
  le : m.length ≤ input.length
  word : ∀ k, m.kind = some k → k ≠ .eof ∧ (pattern k).Matches (input.take m.length)

private theorem race_fits {live : List (Kind × Pattern)} {best : Option Munch}
    (u cs : List Char) (hl : Sound u live) (hb : ∀ m, best = some m → m.Fits (u ++ cs))
    (hne : u ++ cs ≠ []) : (race live u.length best cs).Fits (u ++ cs) := by
  induction cs generalizing u live best with
  | nil =>
    simp only [race]
    cases best with
    | some m => exact hb m rfl
    | none =>
      refine ⟨?_, by simp, by simp⟩
      simpa [List.length_pos_iff] using hne
  | cons c cs ih =>
    have hs := hl.step c
    simp only [race]
    split
    · cases best with
      | some m => exact hb m rfl
      | none => exact ⟨by simp, by simp, by simp⟩
    · rename_i live' hne'
      have hcs : u ++ c :: cs = (u ++ [c]) ++ cs := by simp
      rw [hcs] at hb ⊢
      rw [show u.length + 1 = (u ++ [c]).length by simp]
      apply ih (u ++ [c]) hs
      · intro m hm
        split at hm
        · rename_i k hk
          obtain rfl := Option.some.inj hm
          refine ⟨by simp, by simp, ?_⟩
          rintro _ ⟨⟩
          rw [List.take_left' (by simp)]
          exact hs.complete hk
        · exact hb m hm
      · simp

/-- What is taken off the front of a text that is not empty. -/
theorem munch_fits (c : Char) (cs : List Char) : (munch (c :: cs)).Fits (c :: cs) :=
  race_fits [] (c :: cs) sound_rules (by simp) (by simp)

end ResourceNames.Java.Lexicon

namespace ResourceNames.Java

open Lexicon

/-- A piece that has a kind is a word of it. -/
def Piece.IsWord (p : Piece) : Prop :=
  ∀ k, p.kind = some k → k ≠ .eof ∧ (pattern k).Matches p.text

theorem isWord_of_mem_piecesFrom {cs : List Char} {start : Place} {skip : Nat} {p : Piece}
    (h : p ∈ piecesFrom cs start skip) : p.IsWord := by
  induction cs generalizing start skip with
  | nil => simp [piecesFrom] at h
  | cons c cs ih =>
    cases skip with
    | succ skip => exact ih h
    | zero =>
      rcases List.mem_cons.mp h with rfl | h
      · exact (munch_fits c cs).word
      · exact ih h

/-- The pieces cover the text after the characters that are skipped. -/
theorem flatMap_text_piecesFrom (cs : List Char) (start : Place) (skip : Nat) :
    (piecesFrom cs start skip).flatMap Piece.text = cs.drop skip := by
  induction cs generalizing start skip with
  | nil => simp [piecesFrom]
  | cons c cs ih =>
    cases skip with
    | succ skip => simpa [piecesFrom] using ih (start.advance c) skip
    | zero =>
      obtain ⟨n, hn⟩ := Nat.exists_eq_succ_of_ne_zero (Nat.pos_iff_ne_zero.mp (munch_fits c cs).pos)
      simp [piecesFrom, ih, hn]

/-- A token that is a word of its kind. -/
def Token.IsWord (t : Token) : Prop := t.kind ≠ .eof ∧ (pattern t.kind).Matches t.text.toList

/-- A kind with one spelling is always spelled like that. -/
theorem Token.IsWord.text_eq {t : Token} (h : t.IsWord) {s : String}
    (hs : t.kind.spelling? = some s) : t.text = s := by
  have hm := h.2
  simp only [pattern, hs] at hm
  exact String.toList_inj.mp (Text.Pattern.eq_of_matches_word hm)

namespace Source

theorem isWord_of_mem_number {n : Nat} {ps : List Piece} (hps : ∀ p ∈ ps, p.IsWord) {t : Token}
    (h : t ∈ number n ps) : t.IsWord := by
  induction ps generalizing n with
  | nil => simp [number] at h
  | cons p ps ih =>
    have hrest := fun q hq => hps q (List.mem_cons_of_mem p hq)
    simp only [number] at h
    split at h
    · rename_i k hk
      rcases List.mem_cons.mp h with rfl | h
      · simpa [Token.IsWord] using hps p List.mem_cons_self k hk
      · exact ih hrest h
    · exact ih hrest h

theorem map_index_number (n : Nat) (ps : List Piece) :
    (number n ps).map Token.index = List.range' n (number n ps).length := by
  induction ps generalizing n with
  | nil => simp [number]
  | cons p ps ih =>
    simp only [number]
    split
    · simp [List.range'_succ, ih]
    · exact ih n

theorem flatMap_text_number {n : Nat} {ps : List Piece} (h : rejected n ps = []) :
    (number n ps).flatMap (fun t => t.text.toList) = ps.flatMap Piece.text := by
  induction ps generalizing n with
  | nil => simp [number]
  | cons p ps ih =>
    simp only [rejected] at h
    simp only [number]
    split at h
    · simp [ih h]
    · simp at h

def words (text : String) : List Token := number 0 (pieces text.toList)

def last (text : String) : Token := endToken (words text).length text.toList

theorem isWord_of_mem_words {text : String} {t : Token} (h : t ∈ words text) : t.IsWord :=
  isWord_of_mem_number (fun _ => isWord_of_mem_piecesFrom) h

theorem toList_tokens_ofString (text : String) :
    (ofString text).tokens.toList = words text ++ [last text] := rfl

theorem toList_visible_ofString (text : String) :
    (ofString text).visible.toList = (words text).filter Token.isVisible ++ [last text] := by
  simp [ofString, words, last, endToken, List.filter_append, Token.isVisible, Kind.isHidden]

/-- Every token has its place in the list as its number. -/
theorem map_index_tokens (text : String) :
    (ofString text).tokens.toList.map Token.index =
      List.range ((words text).length + 1) := by
  rw [toList_tokens_ofString, List.map_append, List.map_singleton, words, map_index_number,
    List.range_succ, List.range_eq_range']
  rfl

theorem getElem?_tokens_of_mem {text : String} {t : Token}
    (h : t ∈ (ofString text).tokens.toList) :
    (ofString text).tokens.toList[t.index]? = some t := by
  obtain ⟨i, hi, rfl⟩ := List.mem_iff_getElem.mp h
  have hm := congrArg (·[i]?) (map_index_tokens text)
  simp only [List.getElem?_map, List.getElem?_eq_getElem hi, Option.map_some] at hm
  have hr := (List.getElem?_eq_some_iff.mp hm.symm).2
  simp only [List.getElem_range] at hr
  rw [← hr, List.getElem?_eq_getElem hi]

theorem eq_of_index_eq {text : String} {t u : Token} (ht : t ∈ (ofString text).tokens.toList)
    (hu : u ∈ (ofString text).tokens.toList) (h : t.index = u.index) : t = u :=
  Option.some.inj ((getElem?_tokens_of_mem ht).symm.trans (h ▸ getElem?_tokens_of_mem hu))

theorem index_lt_of_mem_take {text : String} {t : Token} {i : Nat}
    (h : t ∈ (ofString text).tokens.toList.take i) : t.index < i := by
  have hm := List.mem_map_of_mem (f := Token.index) h
  rw [List.map_take, map_index_tokens, List.take_range, List.mem_range] at hm
  exact Nat.lt_of_lt_of_le hm (Nat.min_le_left _ _)

theorem index_of_drop {text : String} {t : Token} {i : Nat} {rest : List Token}
    (h : (ofString text).tokens.toList.drop i = t :: rest) :
    t.index = i ∧ ∀ u ∈ rest, i < u.index := by
  have hr := congrArg (List.map Token.index) h
  rw [List.map_drop, map_index_tokens, List.map_cons] at hr
  have hi : t.index = i := by
    have hh := congrArg List.head? hr
    rw [List.head?_drop, List.head?_cons] at hh
    obtain ⟨hlt, he⟩ := List.getElem?_eq_some_iff.mp hh
    rw [← he, List.getElem_range]
  have hp : (t.index :: rest.map Token.index).Pairwise (· < ·) := hr ▸ List.pairwise_lt_range.drop
  exact ⟨hi, fun u hu => hi ▸ (List.pairwise_cons.mp hp).1 _ (List.mem_map_of_mem hu)⟩

/-- Later tokens have greater numbers. -/
theorem pairwise_index_tokens (text : String) :
    (ofString text).tokens.toList.Pairwise fun t u => t.index < u.index := by
  rw [← List.pairwise_map (f := Token.index) (R := (· < ·)), map_index_tokens]
  exact List.pairwise_lt_range

/-- Without lexical errors the words are the whole text. -/
theorem join_text_words {text : String} (h : (ofString text).errors = []) :
    String.join ((words text).map Token.text) = text := by
  apply String.toList_inj.mp
  rw [String.toList_join, List.flatMap_map]
  rw [words, flatMap_text_number (n := 0) h]
  simpa [pieces] using flatMap_text_piecesFrom text.toList Place.start 0

end Source

end ResourceNames.Java
