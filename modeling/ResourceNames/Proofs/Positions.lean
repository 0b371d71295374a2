import ResourceNames.Java.Diagnostics
import ResourceNames.Proofs.Partition

/-!
Lines and columns.

A place counts the characters before it as it moves through a text: a line feed begins a new line, and
every other character, a carriage return or a form feed too, is one more column. So wherever a token or
a lexical error begins, its line and its column are those of its first character in the text, however
far the characters behind it were read before the word or the stretch was settled.
-/
namespace ResourceNames.Java

/-- The line of the character numbered `n`: the first one, and one more for each line feed before the
character. -/
def lineAt (text : List Char) (n : Nat) : Nat := 1 + (text.take n).count '\n'

/-- The column of the character numbered `n`: how many characters stand before it since the last line
feed, or since the beginning. -/
def columnAt (text : List Char) (n : Nat) : Nat := ((text.take n).reverse.takeWhile (· ≠ '\n')).length

/-- A place that has the line and the column of its character in a text. -/
structure Place.IsOf (p : Place) (text : List Char) : Prop where
  line : p.line = lineAt text p.offset
  column : p.column = columnAt text p.offset

variable {text cs : List Char} {p : Place} {c : Char}

theorem Place.isOf_start (text : List Char) : Place.start.IsOf text := ⟨rfl, rfl⟩

private theorem getElem?_of_drop {n : Nat} (h : text.drop n = c :: cs) : text[n]? = some c := by
  rw [← List.head?_drop, h, List.head?_cons]

private theorem drop_advance (h : text.drop p.offset = c :: cs) :
    text.drop (p.advance c).offset = cs := by
  rw [Place.offset_advance, ← List.drop_drop, h]
  rfl

/-- One character further: the line goes up and the column begins anew exactly behind a line feed. -/
theorem Place.IsOf.advance (h : p.IsOf text) (hc : text.drop p.offset = c :: cs) :
    (p.advance c).IsOf text := by
  have htake : text.take (p.offset + 1) = text.take p.offset ++ [c] := by
    rw [List.take_add_one, getElem?_of_drop hc]
    rfl
  by_cases hfeed : c = '\n'
  · subst hfeed
    constructor
    · rw [Place.offset_advance, lineAt, htake, List.count_append]
      have hline := h.line
      rw [lineAt] at hline
      simp only [Place.advance, if_pos, List.count_singleton_self]
      omega
    · rw [Place.offset_advance, columnAt, htake, List.reverse_append]
      simp [Place.advance]
  · constructor
    · rw [Place.offset_advance, lineAt, htake, List.count_append, List.count_singleton,
        if_neg (by simpa using hfeed), Nat.add_zero]
      simpa [Place.advance, hfeed, lineAt] using h.line
    · rw [Place.offset_advance, columnAt, htake, List.reverse_append]
      simpa [Place.advance, hfeed, columnAt] using h.column

/-- The pieces of a text begin at places with their lines and columns. The skipped characters of a piece
move the place just as the first one does. -/
theorem isOf_of_mem_piecesFrom {skip : Nat} (hp : p.IsOf text) (hcs : text.drop p.offset = cs)
    {q : Piece} (h : q ∈ piecesFrom cs p skip) : q.start.IsOf text := by
  induction cs generalizing p skip with
  | nil => simp [piecesFrom] at h
  | cons c cs ih =>
    have hnext := hp.advance hcs
    cases skip with
    | succ skip => exact ih hnext (drop_advance hcs) h
    | zero =>
      rcases List.mem_cons.mp h with rfl | h
      · exact hp
      · exact ih hnext (drop_advance hcs) h

theorem isOf_of_mem_pieces {q : Piece} (h : q ∈ pieces text) : q.start.IsOf text :=
  isOf_of_mem_piecesFrom (Place.isOf_start text) rfl h

/-- A place that moves through all that is left of a text keeps its line and its column. -/
theorem Place.IsOf.foldl_advance (hp : p.IsOf text) (hcs : text.drop p.offset = cs) :
    (cs.foldl Place.advance p).IsOf text := by
  induction cs generalizing p with
  | nil => exact hp
  | cons c cs ih => exact ih (hp.advance hcs) (drop_advance hcs)

namespace Source

/-- Every token, the end included, and every lexical error knows the line and the column of its first
character. The number of that character is the right one: from there on the text goes on with the token
or with the stretch of the error, and the end comes behind the last character. An error is listed with
its line and its column before the message. -/
theorem tokens_and_errors_know_their_lines (text : String) :
    (∀ t ∈ (ofString text).tokens.toList,
      (if t.kind = .eof then t.start.offset = text.length
        else t.span.slice text.toList = t.text.toList) ∧
      t.start.line = lineAt text.toList t.start.offset ∧
      t.start.column = columnAt text.toList t.start.offset) ∧
    ∀ e ∈ (ofString text).errors, e.span.slice text.toList = e.text.toList ∧
      (Diagnostic.ofLexicalError e).listed = toString (lineAt text.toList e.start.offset) ++ ":" ++
        toString (columnAt text.toList e.start.offset) ++ " " ++ e.message := by
  constructor
  · intro t ht
    rw [toList_tokens_ofString, List.mem_append, List.mem_singleton] at ht
    rcases ht with ht | rfl
    · obtain ⟨p, hp, -, hstart, htext⟩ := mem_number ht
      have hkind := (isWord_of_mem_words ht).1
      have hplace := isOf_of_mem_pieces hp
      have hspan : t.span = p.span := by
        rw [Token.span, Piece.span, hstart, Token.length, if_neg hkind, htext, String.length_toList]
      rw [hstart] at hplace
      refine ⟨?_, hplace.line, hplace.column⟩
      rw [if_neg hkind, hspan, slice_of_mem_pieces hp, htext]
    · have hplace : (last text).start.IsOf text.toList :=
        (Place.isOf_start text.toList).foldl_advance rfl
      have hoffset : (last text).start.offset = 0 + text.toList.length :=
        Place.offset_foldl_advance text.toList Place.start
      refine ⟨?_, hplace.line, hplace.column⟩
      rw [if_pos (show (last text).kind = .eof from rfl), hoffset, Nat.zero_add, String.length_toList]
  · intro e he
    obtain ⟨p, hp, -, hstart, htext⟩ := mem_rejected he
    have hplace := isOf_of_mem_pieces hp
    have hspan : e.span = p.span := by
      rw [LexicalError.span, Piece.span, hstart, htext, String.length_toList]
    rw [hstart] at hplace
    constructor
    · rw [hspan, slice_of_mem_pieces hp, htext]
    · rw [Diagnostic.listed, Diagnostic.ofLexicalError, Place.listed, hplace.line, hplace.column]

end Source

end ResourceNames.Java
