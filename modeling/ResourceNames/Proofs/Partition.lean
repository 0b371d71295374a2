import ResourceNames.Proofs.Words

/-!
Tokens and lexical errors cut a text into spans.

The pieces of a text lie one behind the other: each begins where the one before it ends, the first
one at the beginning of the text and the last one up to its end. Tokens and lexical errors are the
pieces with and without a kind, so together they are a partition of the text, and the words of the
tokens are the text without the spans of the errors.
-/
namespace ResourceNames.Java

/-- A stretch of a text: `length` characters from the one numbered `start` on. -/
structure Span where
  start : Nat
  length : Nat
  deriving DecidableEq, Repr

namespace Span

/-- The number of the first character behind a span. -/
def stop (s : Span) : Nat := s.start + s.length

def contains (s : Span) (i : Nat) : Bool := s.start ≤ i && i < s.stop

def slice (s : Span) (text : List Char) : List Char := (text.drop s.start).take s.length

def outside (spans : List Span) (text : List Char) : List Char :=
  (text.zipIdx.filter fun c => !spans.any fun s => s.contains c.2).map Prod.fst

/-- Spans that cut a text of `n` characters: none of them is empty, they stand in order and do not
overlap, and a character lies in one of them exactly if it is one of the text. -/
structure Cut (spans : List Span) (n : Nat) : Prop where
  pos : ∀ s ∈ spans, 0 < s.length
  ordered : spans.Pairwise fun s t => s.stop ≤ t.start
  covers : ∀ i, i < n ↔ ∃ s ∈ spans, s.contains i = true

/-- Spans that lead from one place to another, each beginning where the one before it ends. -/
def Tiles : Nat → List Span → Nat → Prop
  | a, [], b => a = b
  | a, s :: ss, b => s.start = a ∧ 0 < s.length ∧ Tiles s.stop ss b

variable {a b i : Nat} {s : Span} {ss : List Span}

theorem contains_iff : s.contains i = true ↔ s.start ≤ i ∧ i < s.stop := by
  simp [contains]

theorem Tiles.le (h : Tiles a ss b) : a ≤ b := by
  induction ss generalizing a with
  | nil => exact Nat.le_of_eq h
  | cons s ss ih =>
    obtain ⟨rfl, -, hss⟩ := h
    exact Nat.le_trans (Nat.le_add_right _ _) (ih hss)

theorem Tiles.of_mem (h : Tiles a ss b) (hs : s ∈ ss) : a ≤ s.start ∧ 0 < s.length ∧ s.stop ≤ b := by
  induction ss generalizing a with
  | nil => simp at hs
  | cons t ts ih =>
    obtain ⟨rfl, hpos, hts⟩ := h
    rcases List.mem_cons.mp hs with rfl | hs
    · exact ⟨Nat.le_refl _, hpos, hts.le⟩
    · obtain ⟨hle, hrest⟩ := ih hts hs
      exact ⟨Nat.le_trans (Nat.le_add_right _ _) hle, hrest⟩

theorem Tiles.ordered (h : Tiles a ss b) : ss.Pairwise fun s t => s.stop ≤ t.start := by
  induction ss generalizing a with
  | nil => exact .nil
  | cons s ss ih => exact .cons (fun t ht => (h.2.2.of_mem ht).1) (ih h.2.2)

theorem Tiles.exists_contains (h : Tiles a ss b) (ha : a ≤ i) (hb : i < b) :
    ∃ s ∈ ss, s.contains i = true := by
  induction ss generalizing a with
  | nil => exact absurd (Nat.lt_of_lt_of_eq hb (show a = b from h).symm) (Nat.not_lt.mpr ha)
  | cons s ss ih =>
    obtain ⟨rfl, -, hss⟩ := h
    by_cases hi : i < s.stop
    · exact ⟨s, List.mem_cons_self, contains_iff.mpr ⟨ha, hi⟩⟩
    · obtain ⟨t, ht, hc⟩ := ih hss (Nat.not_lt.mp hi)
      exact ⟨t, List.mem_cons_of_mem s ht, hc⟩

/-- A span begins at the beginning and wherever another one ends before the end. -/
theorem Tiles.exists_start_iff (h : Tiles a ss b) :
    (∃ s ∈ ss, s.start = i) ↔ i < b ∧ (i = a ∨ ∃ s ∈ ss, s.stop = i) := by
  induction ss generalizing a with
  | nil =>
    have hab : a = b := h
    simp only [List.not_mem_nil, false_and, exists_false, or_false, false_iff]
    omega
  | cons s ss ih =>
    obtain ⟨rfl, hpos, hss⟩ := h
    have hle := hss.le
    have hstop : s.stop = s.start + s.length := rfl
    simp only [List.mem_cons, exists_eq_or_imp, ih hss]
    constructor
    · rintro (rfl | ⟨hlt, hstop⟩)
      · exact ⟨by omega, .inl rfl⟩
      · exact ⟨hlt, .inr (hstop.imp Eq.symm id)⟩
    · rintro ⟨hlt, rfl | hstop⟩
      · exact .inl rfl
      · exact .inr ⟨hlt, hstop.imp Eq.symm id⟩

/-- Spans that lead from the beginning of a text to its end cut it. -/
theorem Tiles.cut (h : Tiles 0 ss b) : Cut ss b where
  pos s hs := (h.of_mem hs).2.1
  ordered := h.ordered
  covers i := by
    refine ⟨h.exists_contains (Nat.zero_le i), fun ⟨s, hs, hc⟩ => ?_⟩
    exact Nat.lt_of_lt_of_le (contains_iff.mp hc).2 (h.of_mem hs).2.2

end Span

def Piece.span (p : Piece) : Span := ⟨p.start.offset, p.text.length⟩

def Token.span (t : Token) : Span := ⟨t.start.offset, t.length⟩

def LexicalError.span (e : LexicalError) : Span := ⟨e.start.offset, e.text.length⟩

open Span

@[simp] theorem Place.offset_advance (p : Place) (c : Char) : (p.advance c).offset = p.offset + 1 := by
  unfold Place.advance
  split <;> rfl

theorem Place.offset_foldl_advance (cs : List Char) (p : Place) :
    (cs.foldl Place.advance p).offset = p.offset + cs.length := by
  induction cs generalizing p with
  | nil => rfl
  | cons c cs ih =>
    rw [List.foldl_cons, ih, Place.offset_advance, List.length_cons]
    omega

/-- A character lies in one piece only. -/
private theorem eq_of_contains {ps : List Piece} {p q : Piece} {i : Nat}
    (h : (ps.map Piece.span).Pairwise fun s t => s.stop ≤ t.start) (hp : p ∈ ps) (hq : q ∈ ps)
    (hpi : p.span.contains i = true) (hqi : q.span.contains i = true) : p = q := by
  obtain ⟨hp₁, hp₂⟩ := contains_iff.mp hpi
  obtain ⟨hq₁, hq₂⟩ := contains_iff.mp hqi
  induction ps with
  | nil => simp at hp
  | cons r rs ih =>
    obtain ⟨hr, hrs⟩ := List.pairwise_cons.mp h
    rcases List.mem_cons.mp hp with rfl | hps <;> rcases List.mem_cons.mp hq with rfl | hqs
    · rfl
    · have := hr _ (List.mem_map_of_mem hqs)
      omega
    · have := hr _ (List.mem_map_of_mem hps)
      omega
    · exact ih hrs hps hqs

/-- The pieces of a text lie one behind the other. -/
theorem tiles_piecesFrom (cs : List Char) (p : Place) {skip : Nat} (h : skip ≤ cs.length) :
    Tiles (p.offset + skip) ((piecesFrom cs p skip).map Piece.span) (p.offset + cs.length) := by
  induction cs generalizing p skip with
  | nil =>
    obtain rfl := Nat.le_zero.mp h
    rfl
  | cons c cs ih =>
    have hlen : (c :: cs).length = cs.length + 1 := rfl
    cases skip with
    | succ skip =>
      have hrest := ih (p.advance c) (Nat.le_of_succ_le_succ h)
      simp only [Place.offset_advance] at hrest
      rw [hlen, show p.offset + (skip + 1) = p.offset + 1 + skip by omega,
        show p.offset + (cs.length + 1) = p.offset + 1 + cs.length by omega]
      exact hrest
    | zero =>
      have hm := Lexicon.munch_fits c cs
      have hpos := hm.pos
      have hle := hm.le
      rw [hlen] at hle
      have hskip : (Lexicon.munch (c :: cs)).length - 1 ≤ cs.length := by omega
      have hrest := ih (p.advance c) hskip
      have htake : ((c :: cs).take (Lexicon.munch (c :: cs)).length).length =
          (Lexicon.munch (c :: cs)).length := by
        rw [List.length_take, hlen]
        omega
      simp only [Place.offset_advance] at hrest
      refine ⟨rfl, by rw [Piece.span, htake]; exact hpos, ?_⟩
      rw [hlen, Piece.span, Span.stop, htake]
      rw [show p.offset + 1 + ((Lexicon.munch (c :: cs)).length - 1) =
          p.offset + (Lexicon.munch (c :: cs)).length by omega,
        show p.offset + 1 + cs.length = p.offset + (cs.length + 1) by omega] at hrest
      exact hrest

/-- A piece is what its span cuts out of the text. -/
theorem slice_of_mem_piecesFrom {text cs : List Char} {p : Place} {skip : Nat}
    (hcs : text.drop p.offset = cs) {q : Piece} (h : q ∈ piecesFrom cs p skip) :
    q.span.slice text = q.text := by
  induction cs generalizing p skip with
  | nil => simp [piecesFrom] at h
  | cons c cs ih =>
    have hnext : text.drop (p.advance c).offset = cs := by
      rw [Place.offset_advance, ← List.drop_drop, hcs]
      rfl
    cases skip with
    | succ skip => exact ih hnext h
    | zero =>
      rcases List.mem_cons.mp h with rfl | h
      · simp only [Piece.span, slice, hcs]
        rw [List.length_take, List.take_eq_take_iff]
        omega
      · exact ih hnext h

theorem tiles_pieces (text : List Char) : Tiles 0 ((pieces text).map Piece.span) text.length := by
  simpa [pieces, Place.start] using tiles_piecesFrom text Place.start (Nat.zero_le _)

theorem slice_of_mem_pieces {text : List Char} {q : Piece} (h : q ∈ pieces text) :
    q.span.slice text = q.text :=
  slice_of_mem_piecesFrom (p := Place.start) rfl h

namespace Source

/-- Tokens are the pieces that have a kind. -/
theorem mem_number {n : Nat} {ps : List Piece} {t : Token} (h : t ∈ number n ps) :
    ∃ p ∈ ps, p.kind = some t.kind ∧ p.start = t.start ∧ p.text = t.text.toList := by
  induction ps generalizing n with
  | nil => simp [number] at h
  | cons p ps ih =>
    simp only [number] at h
    split at h
    · rename_i k hk
      rcases List.mem_cons.mp h with rfl | h
      · exact ⟨p, List.mem_cons_self, hk, rfl, by simp⟩
      · obtain ⟨q, hq, hrest⟩ := ih h
        exact ⟨q, List.mem_cons_of_mem p hq, hrest⟩
    · obtain ⟨q, hq, hrest⟩ := ih h
      exact ⟨q, List.mem_cons_of_mem p hq, hrest⟩

/-- Lexical errors are the pieces that have none. -/
theorem mem_rejected {n : Nat} {ps : List Piece} {e : LexicalError} (h : e ∈ rejected n ps) :
    ∃ p ∈ ps, p.kind = none ∧ p.start = e.start ∧ p.text = e.text.toList := by
  induction ps generalizing n with
  | nil => simp [rejected] at h
  | cons p ps ih =>
    simp only [rejected] at h
    split at h
    · obtain ⟨q, hq, hrest⟩ := ih h
      exact ⟨q, List.mem_cons_of_mem p hq, hrest⟩
    · rename_i hk
      rcases List.mem_cons.mp h with rfl | h
      · exact ⟨p, List.mem_cons_self, hk, rfl, by simp⟩
      · obtain ⟨q, hq, hrest⟩ := ih h
        exact ⟨q, List.mem_cons_of_mem p hq, hrest⟩

theorem exists_mem_number {n : Nat} {ps : List Piece} {p : Piece} (h : p ∈ ps) {k : Kind}
    (hk : p.kind = some k) :
    ∃ t ∈ number n ps, t.kind = k ∧ t.start = p.start ∧ t.text.toList = p.text := by
  induction ps generalizing n with
  | nil => simp at h
  | cons q ps ih =>
    simp only [number]
    rcases List.mem_cons.mp h with rfl | h
    · rw [hk]
      exact ⟨_, List.mem_cons_self, rfl, rfl, by simp⟩
    · split
      · obtain ⟨t, ht, hrest⟩ := ih (n := n + 1) h
        exact ⟨t, List.mem_cons_of_mem _ ht, hrest⟩
      · exact ih h

theorem exists_mem_rejected {n : Nat} {ps : List Piece} {p : Piece} (h : p ∈ ps)
    (hk : p.kind = none) :
    ∃ e ∈ rejected n ps, e.start = p.start ∧ e.text.toList = p.text := by
  induction ps generalizing n with
  | nil => simp at h
  | cons q ps ih =>
    simp only [rejected]
    rcases List.mem_cons.mp h with rfl | h
    · rw [hk]
      exact ⟨_, List.mem_cons_self, rfl, by simp⟩
    · split
      · exact ih h
      · obtain ⟨e, he, hrest⟩ := ih (n := n) h
        exact ⟨e, List.mem_cons_of_mem _ he, hrest⟩

theorem map_span_number (n : Nat) {ps : List Piece} (h : ∀ p ∈ ps, p.IsWord) :
    (number n ps).map Token.span = (ps.filter fun p => p.kind.isSome).map Piece.span := by
  induction ps generalizing n with
  | nil => rfl
  | cons p ps ih =>
    have hrest := fun q hq => h q (List.mem_cons_of_mem p hq)
    simp only [number]
    split
    · rename_i k hk
      have hne := (h p List.mem_cons_self k hk).1
      simp [hk, ih (n + 1) hrest, Token.span, Token.length, hne, Piece.span]
    · rename_i hk
      simp [hk, ih n hrest]

theorem map_span_rejected (n : Nat) (ps : List Piece) :
    (rejected n ps).map LexicalError.span = (ps.filter fun p => !p.kind.isSome).map Piece.span := by
  induction ps generalizing n with
  | nil => rfl
  | cons p ps ih =>
    simp only [rejected]
    split
    · rename_i k hk
      simp [hk, ih]
    · rename_i hk
      simp [hk, ih, LexicalError.span, Piece.span]

theorem flatMap_text_words (n : Nat) (ps : List Piece) :
    (number n ps).flatMap (fun t => t.text.toList) =
      (ps.filter fun p => p.kind.isSome).flatMap Piece.text := by
  induction ps generalizing n with
  | nil => rfl
  | cons p ps ih =>
    simp only [number]
    split
    · rename_i k hk
      simp [hk, ih]
    · rename_i hk
      simp [hk, ih]

/-- Where every character of a piece is dropped or kept with the piece, the pieces that are kept are
the characters that are kept. -/
private theorem filter_zipIdx {a b : Nat} {ps : List Piece} (drop : Nat → Bool)
    (ht : Tiles a (ps.map Piece.span) b)
    (hd : ∀ p ∈ ps, ∀ i, p.span.contains i = true → drop i = !p.kind.isSome) :
    (((ps.flatMap Piece.text).zipIdx a).filter fun c => !drop c.2).map Prod.fst =
      (ps.filter fun p => p.kind.isSome).flatMap Piece.text := by
  induction ps generalizing a with
  | nil => rfl
  | cons p ps ih =>
    obtain ⟨hstart, -, hrest⟩ := ht
    have hall : ∀ c ∈ p.text.zipIdx a, (!drop c.2) = p.kind.isSome := by
      rintro ⟨c, i⟩ hc
      have hi := List.mem_zipIdx hc
      rw [hd p List.mem_cons_self i (contains_iff.mpr ?_), Bool.not_not]
      rw [hstart, Span.stop, hstart]
      exact ⟨hi.1, hi.2.1⟩
    have hfirst : ((p.text.zipIdx a).filter fun c => !drop c.2).map Prod.fst =
        if p.kind.isSome then p.text else [] := by
      rw [List.filter_congr hall]
      cases p.kind.isSome with
      | false => simp
      | true => rw [List.filter_eq_self.mpr fun _ _ => rfl, List.zipIdx_map_fst, if_pos rfl]
    have hstop : p.span.stop = a + p.text.length := by rw [Span.stop, hstart]; rfl
    rw [List.flatMap_cons, List.zipIdx_append, List.filter_append, List.map_append, hfirst,
      ← hstop, ih hrest fun q hq => hd q (List.mem_cons_of_mem p hq)]
    cases hk : p.kind.isSome <;> simp [hk]

/-- The words of a text are the text without the spans of its lexical errors. -/
theorem join_text_eq_outside (text : String) :
    String.join ((words text).map Token.text) =
      String.ofList (outside ((ofString text).errors.map LexicalError.span) text.toList) := by
  have htiles := tiles_pieces text.toList
  have herrors : (ofString text).errors.map LexicalError.span =
      ((pieces text.toList).filter fun p => !p.kind.isSome).map Piece.span := map_span_rejected 0 _
  have hpieces : (pieces text.toList).flatMap Piece.text = text.toList := by
    simpa [pieces] using flatMap_text_piecesFrom text.toList Place.start 0
  have hkept := filter_zipIdx (fun i => ((ofString text).errors.map LexicalError.span).any
    fun s => s.contains i) htiles fun p hp i hi => by
      rw [herrors]
      cases hk : p.kind.isSome with
      | false =>
        simp only [Bool.not_false, List.any_eq_true]
        exact ⟨p.span, List.mem_map_of_mem (List.mem_filter.mpr ⟨hp, by simp [hk]⟩), hi⟩
      | true =>
        simp only [Bool.not_true, List.any_eq_false, List.mem_map, List.mem_filter]
        rintro _ ⟨q, ⟨hq, hqk⟩, rfl⟩ hqi
        obtain rfl := eq_of_contains htiles.ordered hp hq hi hqi
        simp [hk] at hqk
  rw [hpieces] at hkept
  apply String.toList_inj.mp
  rw [String.toList_join, List.flatMap_map, words, flatMap_text_words, ← hkept, String.toList_ofList,
    outside]

/-- Tokens and lexical errors are a partition of the text. Their spans, in order, cut it; a token is
the text from its first character until its last, an error quotes its span with the blanks made
visible. The end comes behind the last character, and only blanks and comments are hidden. Without
errors the words are the text, and in general the text without the spans of the errors. -/
theorem tokens_and_errors_cut_text (text : String) :
    ∃ words last spans, (ofString text).tokens.toList = words ++ [last] ∧
      Cut spans text.length ∧
      spans.Perm (words.map Token.span ++ (ofString text).errors.map LexicalError.span) ∧
      (words.map Token.span).Sublist spans ∧
      ((ofString text).errors.map LexicalError.span).Sublist spans ∧
      (∀ t ∈ words, t.kind ≠ .eof ∧ t.text.toList =
        (text.toList.drop t.start.offset).take (t.stop + 1 - t.start.offset).toNat) ∧
      (∀ e ∈ (ofString text).errors, e.message = "token recognition error at: '" ++
        showBlanks (String.ofList (e.span.slice text.toList)) ++ "'") ∧
      (∀ t ∈ (ofString text).tokens.toList,
        t.isVisible = false ↔ t.kind = .ws ∨ t.kind = .comment ∨ t.kind = .lineComment) ∧
      (last.kind = .eof ∧ last.start.offset = text.length ∧ last.stop = (text.length : Int) - 1) ∧
      String.join (words.map Token.text) =
        String.ofList (outside ((ofString text).errors.map LexicalError.span) text.toList) ∧
      ((ofString text).errors = [] → String.join (words.map Token.text) = text) := by
  have hwords : (words text).map Token.span =
      ((pieces text.toList).filter fun p => p.kind.isSome).map Piece.span :=
    map_span_number 0 fun p hp => isWord_of_mem_piecesFrom hp
  have herrors : (ofString text).errors.map LexicalError.span =
      ((pieces text.toList).filter fun p => !p.kind.isSome).map Piece.span := map_span_rejected 0 _
  refine ⟨words text, last text, (pieces text.toList).map Piece.span, toList_tokens_ofString text,
    ?_, ?_, ?_, ?_, fun t ht => ⟨(isWord_of_mem_words ht).1, ?_⟩, fun e he => ?_, fun t _ => ?_,
    ⟨rfl, ?_⟩, join_text_eq_outside text, join_text_words⟩
  · exact (tiles_pieces text.toList).cut
  · rw [hwords, herrors, ← List.map_append]
    exact (List.filter_append_perm _ _).symm.map _
  · exact hwords ▸ List.filter_sublist.map _
  · exact herrors ▸ List.filter_sublist.map _
  · obtain ⟨p, hp, -, hstart, htext⟩ := mem_number ht
    have hslice := slice_of_mem_pieces hp
    have hlength : t.length = t.text.length := if_neg (isWord_of_mem_words ht).1
    rw [Piece.span, slice, hstart, htext] at hslice
    rw [Token.stop, hlength, show ((t.start.offset : Int) + (t.text.length : Nat) - 1 + 1 -
      t.start.offset).toNat = t.text.length by omega]
    exact hslice.symm
  · obtain ⟨p, hp, -, hstart, htext⟩ := mem_rejected he
    have hspan : e.span = p.span := by
      simp [LexicalError.span, Piece.span, hstart, htext, String.length_toList]
    rw [hspan, slice_of_mem_pieces hp, htext, String.ofList_toList]
    rfl
  · obtain ⟨kind, -, -, -⟩ := t
    cases kind <;> simp [Token.isVisible, Kind.isHidden]
  · have hoffset : (last text).start.offset = text.length := by
      have hend := Place.offset_foldl_advance text.toList Place.start
      rwa [String.length_toList, Place.start, Nat.zero_add] at hend
    exact ⟨hoffset, by rw [Token.stop, hoffset]; rfl⟩

end Source

end ResourceNames.Java
