import ResourceNames.Proofs.EndOfInput
import ResourceNames.Proofs.Partition

/-!
Tokens that are fetched when they are needed.

A scanner cuts a text into tokens one at a time and meets the stretches that are no word on its
way. Pulled as often as a parser has looked at tokens, it gives the tokens that the parser has
seen and the errors that were met, as they are when the text is cut as a whole.
-/
namespace ResourceNames.Java

open Lexicon

namespace Source

private theorem length_takeWhile_le {α : Type} {p q : α → Bool} (h : ∀ a, p a = true → q a = true)
    (l : List α) : (l.takeWhile p).length ≤ (l.takeWhile q).length := by
  induction l with
  | nil => exact Nat.le_refl _
  | cons a l ih =>
    cases hp : p a with
    | false => simp [hp]
    | true => simpa [hp, h a hp] using ih

/-- More tokens meet more errors. -/
theorem errorsWithin_mono (source : Source) {m n : Nat} (h : m ≤ n) :
    source.errorsWithin m ≤ source.errorsWithin n := by
  apply length_takeWhile_le
  intro e he
  simp only [decide_eq_true_eq] at he ⊢
  omega

section

variable {text : String}

private theorem toList_visible (text : String) :
    (ofString text).visible.toList = (ofString text).tokens.toList.filter Token.isVisible := rfl

private theorem pairwise_index_visible (text : String) :
    (ofString text).visible.toList.Pairwise fun t u => t.index < u.index := by
  rw [toList_visible]
  exact (pairwise_index_tokens text).filter Token.isVisible

theorem fetchedFor_succ {n : Nat} {t : Token}
    (h : (ofString text).visible.toList[n]? = some t) :
    (ofString text).fetchedFor (n + 1) = t.index + 1 := by
  rw [Array.getElem?_toList] at h
  simp [fetchedFor, h]

/-- To see more tokens, more are fetched. -/
theorem fetchedFor_mono {m n : Nat} (h : m ≤ n) (hn : n ≤ (ofString text).visible.size) :
    (ofString text).fetchedFor m ≤ (ofString text).fetchedFor n := by
  cases m with
  | zero => exact Nat.zero_le _
  | succ m =>
    obtain ⟨n, rfl⟩ : ∃ k, n = k + 1 := ⟨n - 1, by omega⟩
    have hlt : n < (ofString text).visible.toList.length := hn
    have hlt' : m < (ofString text).visible.toList.length := by omega
    rw [fetchedFor_succ (List.getElem?_eq_getElem hlt), fetchedFor_succ (List.getElem?_eq_getElem hlt')]
    rcases Nat.eq_or_lt_of_le h with heq | hmn
    · obtain rfl : m = n := by omega
      exact Nat.le_refl _
    · have hindex := List.pairwise_iff_getElem.mp (pairwise_index_visible text) m n hlt' hlt (by omega)
      omega

/-- Of the tokens that are fetched, the visible ones are those seen. -/
theorem filter_take_fetchedFor {n : Nat} (hn : n ≤ (ofString text).visible.size) :
    ((ofString text).tokens.toList.take ((ofString text).fetchedFor n)).filter Token.isVisible =
      (ofString text).visible.toList.take n := by
  cases n with
  | zero => rfl
  | succ n =>
    have hlt : n < (ofString text).visible.toList.length := hn
    generalize ht : (ofString text).visible.toList[n] = t
    have hget : (ofString text).visible.toList[n]? = some t := by rw [List.getElem?_eq_getElem hlt, ht]
    obtain ⟨hmem, hvisible⟩ : t ∈ (ofString text).tokens.toList ∧ t.isVisible = true :=
      List.mem_filter.mp (List.mem_of_getElem? hget)
    obtain ⟨hi, hti⟩ := List.getElem?_eq_some_iff.mp (getElem?_tokens_of_mem hmem)
    -- The token stands behind the visible ones among the tokens before it.
    have hsplit : (ofString text).visible.toList =
        ((ofString text).tokens.toList.take t.index).filter Token.isVisible ++
          t :: ((ofString text).tokens.toList.drop (t.index + 1)).filter Token.isVisible := by
      have hcut := List.take_append_drop t.index (ofString text).tokens.toList
      rw [List.drop_eq_getElem_cons hi, hti] at hcut
      rw [toList_visible, ← List.filter_cons_of_pos (p := Token.isVisible) hvisible, ← List.filter_append, hcut]
    have hnodup : (ofString text).visible.toList.Nodup :=
      (pairwise_index_visible text).imp fun h => fun heq => by simp [heq] at h
    have hn : n = (((ofString text).tokens.toList.take t.index).filter Token.isVisible).length := by
      refine (List.getElem?_inj hlt hnodup).mp ?_
      rw [hget, hsplit, List.getElem?_append_right (Nat.le_refl _), Nat.sub_self, List.getElem?_cons_zero]
    rw [fetchedFor_succ hget, List.take_add_one, getElem?_tokens_of_mem hmem, Option.toList_some,
      List.filter_append, List.filter_cons_of_pos hvisible, List.filter_nil, hsplit, hn]
    simp [List.take_append]

end

end Source

/-! ### Scanners -/

/-- A scanner: what is left of a text and where it stands, the tokens fetched, and the stretches
met that are no word. After the end token there is nothing to fetch. -/
structure Scanner where
  input : List Char
  place : Place := .start
  tokens : List Token := []
  errors : List LexicalError := []
  ended : Bool := false

namespace Scanner

/-- Takes a stretch off the text. -/
def take (n : Nat) (s : Scanner) : Scanner :=
  { s with input := s.input.drop n, place := (s.input.take n).foldl Place.advance s.place }

theorem length_take_lt {s : Scanner} {c : Char} {cs : List Char} (h : s.input = c :: cs) :
    (s.take (munch (c :: cs)).length).input.length < s.input.length := by
  have hpos := (munch_fits c cs).pos
  rw [take, h, List.length_drop, List.length_cons]
  omega

/-- Fetches the next token, past the stretches before it that are no word. -/
def fetch (s : Scanner) : Scanner :=
  if s.ended then s
  else match _h : s.input with
    | [] =>
      { s with tokens := s.tokens ++ [⟨.eof, s.tokens.length, s.place, "<EOF>"⟩], ended := true }
    | c :: cs =>
      let m := munch (c :: cs)
      let text := String.ofList ((c :: cs).take m.length)
      match m.kind with
      | some k =>
        { s.take m.length with tokens := s.tokens ++ [⟨k, s.tokens.length, s.place, text⟩] }
      | none =>
        fetch { s.take m.length with errors := s.errors ++ [⟨s.tokens.length, s.place, text⟩] }
termination_by s.input.length
decreasing_by exact length_take_lt _h

/-- The scanner of a text after so many tokens. -/
def after (text : String) : Nat → Scanner
  | 0 => { input := text.toList }
  | n + 1 => (after text n).fetch

end Scanner

/-- Skipping characters is beginning behind them. -/
theorem piecesFrom_skip (cs : List Char) (p : Place) (skip : Nat) :
    piecesFrom cs p skip = piecesFrom (cs.drop skip) ((cs.take skip).foldl Place.advance p) 0 := by
  induction cs generalizing p skip with
  | nil => simp [piecesFrom]
  | cons c cs ih =>
    cases skip with
    | zero => rfl
    | succ skip => exact ih (p.advance c) skip

namespace Scanner

variable {text : String} {s : Scanner}

def left (s : Scanner) : List Piece := piecesFrom s.input s.place 0

theorem left_eq_cons {c : Char} {cs : List Char} (h : s.input = c :: cs) :
    s.left = ⟨(munch (c :: cs)).kind, s.place, (c :: cs).take (munch (c :: cs)).length⟩ ::
      (s.take (munch (c :: cs)).length).left := by
  have hpos := (munch_fits c cs).pos
  obtain ⟨n, hn⟩ := Nat.exists_eq_succ_of_ne_zero (Nat.pos_iff_ne_zero.mp hpos)
  rw [left, h, piecesFrom, piecesFrom_skip, left, take, h, hn]
  rfl

/-- A scanner that has not reached the end of a text: what it has and what is left make up the
tokens and errors of the text. -/
structure Reads (text : String) (s : Scanner) : Prop where
  going : s.ended = false
  words : Source.words text = s.tokens ++ Source.number s.tokens.length s.left
  errors : (Source.ofString text).errors =
    s.errors ++ Source.rejected s.tokens.length s.left
  place : s.input.foldl Place.advance s.place = text.toList.foldl Place.advance .start
  met : ∀ e ∈ s.errors, e.before ≤ s.tokens.length

/-- A scanner that has fetched all tokens of a text. -/
structure Ended (text : String) (s : Scanner) : Prop where
  ended : s.ended = true
  tokens : s.tokens = (Source.ofString text).tokens.toList
  errors : s.errors = (Source.ofString text).errors

theorem reads_start (text : String) : Reads text { input := text.toList } :=
  ⟨rfl, rfl, rfl, rfl, by simp⟩

theorem foldl_take (n : Nat) (s : Scanner) :
    (s.take n).input.foldl Place.advance (s.take n).place = s.input.foldl Place.advance s.place := by
  rw [take, ← List.foldl_append, List.take_append_drop]

section

variable {n : Nat} {cs : List Char}

/-- A word is taken off. -/
private theorem Reads.word (h : Reads text s) {k : Kind}
    (hleft : s.left = ⟨some k, s.place, cs⟩ :: (s.take n).left) :
    Reads text { s.take n with
      tokens := s.tokens ++ [⟨k, s.tokens.length, s.place, String.ofList cs⟩] } := by
  have hwords := h.words
  have herrors := h.errors
  rw [hleft] at hwords herrors
  have hone (t : Token) : (s.tokens ++ [t]).length = s.tokens.length + 1 := List.length_append
  refine ⟨h.going, ?_, ?_, (foldl_take n s).trans h.place, fun e he => ?_⟩ <;> dsimp only
  · rw [hone, List.append_assoc]
    exact hwords
  · rw [hone]
    exact herrors
  · rw [hone]
    exact Nat.le_succ_of_le (h.met e he)

/-- A stretch that is no word is taken off. -/
private theorem Reads.reject (h : Reads text s)
    (hleft : s.left = ⟨none, s.place, cs⟩ :: (s.take n).left) :
    Reads text { s.take n with
      errors := s.errors ++ [⟨s.tokens.length, s.place, String.ofList cs⟩] } := by
  have hwords := h.words
  have herrors := h.errors
  rw [hleft] at hwords herrors
  refine ⟨h.going, hwords, ?_, (foldl_take n s).trans h.place, fun e he => ?_⟩
  · dsimp only
    rw [List.append_assoc]
    exact herrors
  · rcases List.mem_append.mp he with he | he
    · exact h.met e he
    · rw [List.mem_singleton.mp he]
      exact Nat.le_refl _

/-- Nothing is left but the end. -/
private theorem Reads.finish (h : Reads text s) (hi : s.input = []) :
    Ended text { s with
      tokens := s.tokens ++ [⟨.eof, s.tokens.length, s.place, "<EOF>"⟩], ended := true } := by
  have hleft : s.left = [] := by rw [left, hi, piecesFrom]
  have hwords : Source.words text = s.tokens := by
    rw [h.words, hleft, Source.number, List.append_nil]
  have hplace := h.place
  rw [hi, List.foldl_nil] at hplace
  refine ⟨rfl, ?_, ?_⟩
  · rw [Source.toList_tokens_ofString, Source.last, Source.endToken, hwords, hplace]
  · rw [h.errors, hleft, Source.rejected, List.append_nil]

end

/-- Fetching a token leads to the next one, or to the end. -/
theorem Reads.fetch (h : Reads text s) :
    s.fetch.tokens.length = s.tokens.length + 1 ∧
      (Reads text s.fetch ∧ (∀ e ∈ s.fetch.errors, e.before < s.fetch.tokens.length) ∨
        Ended text s.fetch) := by
  have hone (ts : List Token) (t : Token) : (ts ++ [t]).length = ts.length + 1 := List.length_append
  fun_induction Scanner.fetch s with
  | case1 s ended => simp [h.going] at ended
  | case2 s _ hi => exact ⟨hone _ _, .inr (h.finish hi)⟩
  | case3 s _ c cs hi m t k hk =>
    have hleft := left_eq_cons hi
    rw [show (munch (c :: cs)).kind = some k from hk] at hleft
    have hmet : ∀ e ∈ s.errors, e.before < s.tokens.length + 1 :=
      fun e he => Nat.lt_succ_of_le (h.met e he)
    refine ⟨hone _ _, .inl ⟨h.word hleft, ?_⟩⟩
    dsimp only
    rw [hone]
    exact hmet
  | case4 s _ c cs hi m t hk ih =>
    have hleft := left_eq_cons hi
    rw [show (munch (c :: cs)).kind = none from hk] at hleft
    exact ih (h.reject hleft)

/-- What a scanner has after so many tokens: it has met the errors before them, and if it has
not reached the end, no others. -/
private theorem reads_or_ended (text : String) (n : Nat) :
    (Reads text (after text n) ∧ (after text n).tokens.length = n ∧
      ∀ e ∈ (after text n).errors, e.before < n) ∨
    Ended text (after text n) ∧ (Source.ofString text).tokens.size ≤ n := by
  induction n with
  | zero => exact .inl ⟨reads_start text, rfl, by simp [after]⟩
  | succ n ih =>
    rcases ih with ⟨hreads, hlength, -⟩ | ⟨hended, hsize⟩
    · obtain ⟨hnext, hcase⟩ := hreads.fetch
      rw [hlength] at hnext
      rcases hcase with ⟨hreads, hmet⟩ | hended
      · rw [hnext] at hmet
        exact .inl ⟨hreads, hnext, hmet⟩
      · refine .inr ⟨hended, Nat.le_of_eq ?_⟩
        rw [← Array.length_toList, ← hended.tokens]
        exact hnext
    · have hsame : after text (n + 1) = after text n := by
        rw [after, fetch, if_pos hended.ended]
      rw [hsame]
      exact .inr ⟨hended, Nat.le_succ_of_le hsize⟩

private theorem le_before_of_mem_rejected {n : Nat} {ps : List Piece} {e : LexicalError}
    (h : e ∈ Source.rejected n ps) : n ≤ e.before := by
  induction ps generalizing n with
  | nil => cases h
  | cons p ps ih =>
    rw [Source.rejected] at h
    split at h
    · exact Nat.le_of_succ_le (ih h)
    · rcases List.mem_cons.mp h with rfl | h
      · exact Nat.le_refl _
      · exact ih h

/-- Fetching tokens one by one gives those of the whole text, and meets the errors before them. -/
theorem after_eq (text : String) (n : Nat) :
    (after text n).tokens = (Source.ofString text).tokens.toList.take n ∧
      (after text n).errors =
        (Source.ofString text).errors.take ((Source.ofString text).errorsWithin n) := by
  have hcases := reads_or_ended text n
  generalize after text n = s at hcases ⊢
  rcases hcases with ⟨hreads, rfl, hmet⟩ | ⟨hended, hsize⟩
  · constructor
    · rw [Source.toList_tokens_ofString, hreads.words, List.append_assoc, List.take_left]
    · have hwhile : (Source.ofString text).errors.takeWhile (fun e => e.before < s.tokens.length) =
          s.errors := by
        rw [hreads.errors, List.takeWhile_append_of_pos fun e he => by simpa using hmet e he]
        rw [List.takeWhile_eq_nil_iff.mpr, List.append_nil]
        intro hpos
        simpa using le_before_of_mem_rejected (List.getElem_mem hpos)
      rw [Source.errorsWithin, hwhile, hreads.errors, List.take_left]
  · have hall : (Source.ofString text).errors.length ≤ (Source.ofString text).errorsWithin n := by
      rw [← Source.errorsWithin_size text]
      exact Source.errorsWithin_mono _ hsize
    rw [hended.tokens, hended.errors, List.take_of_length_le hall, List.take_of_length_le]
    · exact ⟨rfl, rfl⟩
    · rwa [Array.length_toList]

end Scanner

/-! ### Parsers -/

namespace Parser

variable {s s' : Parser} {text : String}

private theorem Move.seen_le (h : Move s s') : s.seen ≤ s'.seen := by
  cases h with
  | moveTo | settle | report | insert | widen | note => exact Nat.le_refl _
  | setField field part => cases field <;> exact Nat.le_refl _
  | look k => exact Nat.le_max_left _ _
  | consume =>
    unfold Parser.consume
    split
    · exact Nat.le_max_left _ _
    · exact Nat.le_refl _
    · exact Nat.le_refl _

theorem Work.seen_le {calls wraps : List Rule} (h : Work calls wraps s s') : s.seen ≤ s'.seen := by
  induction h with
  | refl => exact Nat.le_refl _
  | move first _ ih => exact Nat.le_trans first.seen_le ih
  | wrap start own _ ih => exact ih
  | @call _ _ s t u rule next field _ _ _ _ ih ih' =>
    refine Nat.le_trans ih (Nat.le_trans ?_ ih')
    cases field <;> exact Nat.le_refl _

theorem seen_parse (rule : Rule) (s : Parser) : s.seen ≤ (s.parse rule).2.parser.seen := by
  obtain ⟨o, o', read, closed, hp⟩ := parse_cases rule s
  have hle := (read.work.trans (Work.closed closed)).seen_le
  rw [hp]
  exact Nat.le_trans (Nat.le_max_left _ _) hle

/-- A parser that is reading a text: it stands before a visible token, and it has not seen more
than there is. -/
structure ReadsText (text : String) (s : Parser) : Prop where
  source : s.source = .ofString text
  ended : Ended s.rest
  rest : s.rest = (Source.ofString text).visible.toList.drop s.position
  count : s.position + s.rest.length = (Source.ofString text).visible.size
  seen : s.seen ≤ (Source.ofString text).visible.size

private theorem starts_increase {a b : Nat} {ss : List Span} (h : Span.Tiles a ss b) :
    ss.Pairwise fun s t => s.start < t.start := by
  induction ss generalizing a with
  | nil => exact .nil
  | cons s ss ih =>
    refine .cons (fun t ht => ?_) (ih h.2.2)
    have hpos := h.2.1
    have hle := (h.2.2.of_mem ht).1
    rw [Span.stop] at hle
    omega

/-- No two errors of a text are the same. -/
private theorem nodup_errors (text : String) :
    ((Source.ofString text).errors.map Diagnostic.ofLexicalError).Nodup := by
  have hspans : ((Source.ofString text).errors.map LexicalError.span).Pairwise
      fun s t => s.start < t.start := by
    have herrors := Source.map_span_rejected 0 (pieces text.toList)
    rw [show (Source.ofString text).errors = Source.rejected 0 (pieces text.toList) from rfl, herrors]
    exact (starts_increase (tiles_pieces text.toList)).sublist (List.filter_sublist.map _)
  rw [List.pairwise_map] at hspans
  refine List.pairwise_map.mpr (hspans.imp fun hlt heq => ?_)
  have hstart := congrArg (fun d => d.start.offset) heq
  exact Nat.lt_irrefl _ (Nat.lt_of_lt_of_eq hlt hstart.symm)

theorem readsText_ofSource (text : String) (widened : Widened) :
    ReadsText text (ofSource (.ofString text) widened) :=
  ⟨rfl, ended_ofSource text widened, rfl, by simp [ofSource], Nat.zero_le _⟩

theorem ReadsText.getElem?_position (h : ReadsText text s) :
    (Source.ofString text).visible.toList[s.position]? = some s.current := by
  obtain ⟨t, ts, ht⟩ := List.exists_cons_of_ne_nil h.ended.ne_nil
  rw [← List.head?_drop, ← h.rest, current, ht, List.head?_cons]

/-- The next token of a parser that has read further stands further on. -/
theorem ReadsText.index_le (h : ReadsText text s) (h' : ReadsText text s')
    (hrest : s'.rest.length ≤ s.rest.length) : s.current.index ≤ s'.current.index := by
  have hcount := h.count
  have hcount' := h'.count
  rcases Nat.eq_or_lt_of_le (show s.position ≤ s'.position by omega) with heq | hlt
  · have hsame := h.getElem?_position
    rw [heq, h'.getElem?_position] at hsame
    rw [Option.some.inj hsame]
  · obtain ⟨hi, hs⟩ := List.getElem?_eq_some_iff.mp h.getElem?_position
    obtain ⟨hi', hs'⟩ := List.getElem?_eq_some_iff.mp h'.getElem?_position
    have hindex := List.pairwise_iff_getElem.mp (Source.pairwise_index_visible text) _ _ hi hi' hlt
    rw [hs, hs'] at hindex
    exact Nat.le_of_lt hindex

/-- Reading by a rule goes on in the text, and sees the tokens of the tree and the next one. -/
theorem ReadsText.parse (h : ReadsText text s) (rule : Rule) :
    ReadsText text (s.parse rule).2.parser ∧
      ∀ t ∈ (s.parse rule).2.parser.current :: (s.parse rule).1.tokens,
        t ∈ (Source.ofString text).visible.toList.take (s.parse rule).2.parser.seen := by
  obtain ⟨hrest, hended, hsource⟩ := parse_advances rule s h.ended
  have hvisible : s.source.visible.size = (Source.ofString text).visible.size := by rw [h.source]
  have htracks := tracks_parse rule h.ended (hvisible ▸ h.seen) (hvisible ▸ h.count)
  generalize (s.parse rule).2.parser = s', (s.parse rule).1 = tree at *
  have hcount := htracks.count
  have hahead := htracks.ahead
  have hseen := htracks.seen
  rw [hsource, hvisible] at hcount hseen
  obtain ⟨before, htext⟩ : ∃ before, before ++ tree.tokens ++ s'.rest =
      (Source.ofString text).visible.toList := by
    refine ⟨(Source.ofString text).visible.toList.take s.position, ?_⟩
    rw [List.append_assoc, ← hrest, h.rest, List.take_append_drop]
  have hlength : (before ++ tree.tokens).length = s'.position := by
    rw [← Array.length_toList, ← htext, List.length_append] at hcount
    omega
  have hdrop : s'.rest = (Source.ofString text).visible.toList.drop s'.position := by
    rw [← htext, ← hlength, List.drop_left]
  have hreads : ReadsText text s' := ⟨hsource.trans h.source, hended, hdrop, hcount, hseen⟩
  refine ⟨hreads, fun t ht => ?_⟩
  rcases List.mem_cons.mp ht with rfl | ht
  · refine List.mem_of_getElem? (i := s'.position) ?_
    rw [List.getElem?_take_of_lt hahead]
    exact hreads.getElem?_position
  · have htake : (Source.ofString text).visible.toList.take s'.position = before ++ tree.tokens := by
      rw [← htext, ← hlength, List.take_left]
    refine List.take_subset_take_left _ (Nat.le_of_lt hahead) ?_
    rw [htake]
    exact List.mem_append_right _ ht

/-- A rule that was read: the parser before, the tree, and the parser after. -/
structure Reading where
  before : Parser
  tree : Tree
  after : Parser

namespace Reading

def lexicalErrors (r : Reading) : List Diagnostic := r.before.lexicalErrorsSince r.after

end Reading

def readings : List Rule → Parser → List Reading
  | [], _ => []
  | rule :: rules, s =>
    ⟨s, (s.parse rule).1, (s.parse rule).2.parser⟩ :: readings rules (s.parse rule).2.parser

def afterAll (rules : List Rule) (s : Parser) : Parser :=
  rules.foldl (fun s rule => (s.parse rule).2.parser) s

theorem ReadsText.afterAll (h : ReadsText text s) (rules : List Rule) :
    ReadsText text (s.afterAll rules) := by
  induction rules generalizing s with
  | nil => exact h
  | cons rule rules ih => exact ih (h.parse rule).1

/-- The errors met grow with what is seen. -/
theorem ReadsText.lexicalErrorsMet_le (h : ReadsText text s) (h' : ReadsText text s')
    (hs : s.seen ≤ s'.seen) : s.lexicalErrorsMet ≤ s'.lexicalErrorsMet := by
  rw [lexicalErrorsMet, lexicalErrorsMet, fetched, fetched, h.source, h'.source]
  exact Source.errorsWithin_mono _ (Source.fetchedFor_mono hs h'.seen)

private theorem drop_append_drop {α : Type} (xs : List α) {a b c : Nat} (hab : a ≤ b) (hbc : b ≤ c) :
    (xs.take b).drop a ++ (xs.take c).drop b = (xs.take c).drop a := by
  have hsplit := List.take_append_drop (b - a) ((xs.take c).drop a)
  rw [List.take_drop, List.drop_drop, Nat.add_sub_cancel' hab, List.take_take, Nat.min_eq_left hbc]
    at hsplit
  exact hsplit

/-- The errors met in readings one after another are those between the first state and the last
one. -/
theorem ReadsText.flatMap_lexicalErrors (h : ReadsText text s) (rules : List Rule) :
    s.seen ≤ (s.afterAll rules).seen ∧
      (s.readings rules).flatMap Reading.lexicalErrors = s.lexicalErrorsSince (s.afterAll rules) := by
  induction rules generalizing s with
  | nil =>
    refine ⟨Nat.le_refl _, ?_⟩
    simp [readings, Parser.afterAll, lexicalErrorsSince]
  | cons rule rules ih =>
    have hstep := (h.parse rule).1
    obtain ⟨hseen, herrors⟩ := ih hstep
    have hfirst := h.lexicalErrorsMet_le hstep (seen_parse rule s)
    have hlast := hstep.lexicalErrorsMet_le (hstep.afterAll rules) hseen
    have hafter : s.afterAll (rule :: rules) = (s.parse rule).2.parser.afterAll rules := rfl
    have hsource := (hstep.afterAll rules).source
    have hmore := Nat.le_trans (seen_parse rule s) hseen
    rw [readings, List.flatMap_cons, herrors, hafter]
    generalize (s.parse rule).2.parser.afterAll rules = s'' at hlast hsource hmore ⊢
    generalize (s.parse rule).2.parser = s', (s.parse rule).1 = tree at hstep hfirst hlast ⊢
    refine ⟨hmore, ?_⟩
    rw [Reading.lexicalErrors, lexicalErrorsSince, lexicalErrorsSince, lexicalErrorsSince, hstep.source,
      hsource, ← List.map_append, drop_append_drop _ hfirst hlast]

theorem ReadsText.of_mem_readings (h : ReadsText text s) {rules : List Rule} {r : Reading}
    (hr : r ∈ s.readings rules) : ReadsText text r.after ∧
      ∀ t ∈ r.after.current :: r.tree.tokens,
        t ∈ (Source.ofString text).visible.toList.take r.after.seen := by
  induction rules generalizing s with
  | nil => cases hr
  | cons rule rules ih =>
    have hstep := h.parse rule
    rw [readings] at hr
    generalize (s.parse rule).2.parser = s', (s.parse rule).1 = tree at hstep hr
    rcases List.mem_cons.mp hr with rfl | hr
    · exact hstep
    · exact ih hstep.1 hr

/-- The next tokens never go back. -/
theorem ReadsText.pairwise_next (h : ReadsText text s) (rules : List Rule) :
    (∀ r ∈ s.readings rules, s.current.index ≤ r.after.current.index) ∧
      (s.readings rules).Pairwise fun r r' => r.after.current.index ≤ r'.after.current.index := by
  induction rules generalizing s with
  | nil => exact ⟨by simp [readings], .nil⟩
  | cons rule rules ih =>
    have hstep := (h.parse rule).1
    obtain ⟨hall, hpairwise⟩ := ih hstep
    have hle : s.current.index ≤ (s.parse rule).2.parser.current.index := by
      refine h.index_le hstep ?_
      rw [(parse_advances rule s h.ended).1, List.length_append]
      exact Nat.le_add_left _ _
    rw [readings]
    generalize (s.parse rule).2.parser = s', (s.parse rule).1 = tree at hall hpairwise hle ⊢
    refine ⟨fun r hr => ?_, .cons hall hpairwise⟩
    rcases List.mem_cons.mp hr with rfl | hr
    · exact hle
    · exact Nat.le_trans hle (hall r hr)

/-- Once the end was looked at, all tokens have been seen. -/
private theorem seen_of_last_mem {n : Nat} (hn : n ≤ (Source.ofString text).visible.size)
    (h : Source.last text ∈ (Source.ofString text).visible.toList.take n) :
    n = (Source.ofString text).visible.size := by
  have hsize : (Source.ofString text).visible.size =
      ((Source.words text).filter Token.isVisible).length + 1 := by
    rw [← Array.length_toList, Source.toList_visible_ofString, List.length_append, List.length_singleton]
  rw [Source.toList_visible_ofString] at h
  by_contra hne
  have hle : n ≤ ((Source.words text).filter Token.isVisible).length := by omega
  rw [List.take_append_of_le_length hle] at h
  have hword := Source.isWord_of_mem_words (List.mem_filter.mp (List.mem_of_mem_take h)).1
  exact hword.1 rfl

/-- Reading by rules one after another, a parser sees the tokens of its text as a scanner gives
them that is pulled when they are looked at. The errors met in the readings are those that the scanner
meets: the first ones of the text in their order, each in one reading, and all of them once the end
was looked at. The next tokens are visible and never go back. -/
theorem readings_fetch_on_demand (text : String) (widened : Widened) (rules : List Rule) :
    (∀ r ∈ (ofSource (.ofString text) widened).readings rules,
      (Scanner.after text r.after.fetched).tokens =
          (Source.ofString text).tokens.toList.take r.after.fetched ∧
        (Scanner.after text r.after.fetched).tokens.filter Token.isVisible =
          (Source.ofString text).visible.toList.take r.after.seen ∧
        ∀ t ∈ r.after.current :: r.tree.tokens, t.isVisible = true ∧
          (Scanner.after text r.after.fetched).tokens[t.index]? = some t ∧
          (Source.ofString text).tokens.toList[t.index]? = some t) ∧
      ((ofSource (.ofString text) widened).readings rules).flatMap Reading.lexicalErrors =
        (Scanner.after text ((ofSource (.ofString text) widened).afterAll rules).fetched).errors.map
          Diagnostic.ofLexicalError ∧
      ((ofSource (.ofString text) widened).readings rules).flatMap Reading.lexicalErrors <+:
        (Source.ofString text).errors.map Diagnostic.ofLexicalError ∧
      (((ofSource (.ofString text) widened).readings rules).flatMap Reading.lexicalErrors).Nodup ∧
      (Source.last text ∈ (Source.ofString text).visible.toList.take
          ((ofSource (.ofString text) widened).afterAll rules).seen →
        ((ofSource (.ofString text) widened).readings rules).flatMap Reading.lexicalErrors =
          (Source.ofString text).errors.map Diagnostic.ofLexicalError) ∧
      ((ofSource (.ofString text) widened).readings rules).Pairwise
        fun r r' => r.after.current.index ≤ r'.after.current.index := by
  have hreads := readsText_ofSource text widened
  have hmet : (ofSource (.ofString text) widened).lexicalErrorsMet = 0 := lexicalErrorsMet_ofSource _ _
  generalize ofSource (.ofString text) widened = s at hreads hmet ⊢
  have hafter := hreads.afterAll rules
  have herrors : (s.readings rules).flatMap Reading.lexicalErrors =
      ((Source.ofString text).errors.take (s.afterAll rules).lexicalErrorsMet).map
        Diagnostic.ofLexicalError := by
    rw [(hreads.flatMap_lexicalErrors rules).2, lexicalErrorsSince, hmet, List.drop_zero, hafter.source]
  refine ⟨fun r hr => ?_, ?_, ?_, ?_, fun hlast => ?_, (hreads.pairwise_next rules).2⟩
  · obtain ⟨hr, hseen⟩ := hreads.of_mem_readings hr
    have hfetched := (Scanner.after_eq text r.after.fetched).1
    have hvisible : (Scanner.after text r.after.fetched).tokens.filter Token.isVisible =
        (Source.ofString text).visible.toList.take r.after.seen := by
      rw [hfetched, fetched, hr.source]
      exact Source.filter_take_fetchedFor hr.seen
    refine ⟨hfetched, hvisible, fun t ht => ?_⟩
    obtain ⟨hmem, hshown⟩ := List.mem_filter.mp (hvisible ▸ hseen t ht)
    rw [hfetched] at hmem ⊢
    have hget := Source.getElem?_tokens_of_mem (List.mem_of_mem_take hmem)
    exact ⟨hshown, by rw [List.getElem?_take_of_lt (Source.index_lt_of_mem_take hmem), hget], hget⟩
  · rw [herrors, (Scanner.after_eq text _).2, lexicalErrorsMet, hafter.source]
  · rw [herrors, List.map_take]
    exact List.take_prefix _ _
  · rw [herrors, List.map_take]
    exact (nodup_errors text).sublist (List.take_sublist _ _)
  · have hseen := seen_of_last_mem hafter.seen hlast
    rw [herrors, lexicalErrorsMet, fetched, hafter.source, hseen, Source.fetchedFor_size,
      Source.errorsWithin_size, List.take_length]

end Parser

end ResourceNames.Java
