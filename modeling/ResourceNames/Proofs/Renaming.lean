import ResourceNames.Proofs.Neighbours
import ResourceNames.Proofs.RepeatedWalks
import ResourceNames.Proofs.Scanning

/-!
Names in the place of numbers.

A row of words is what its text is cut into if each word is the longest one at its place. When a name takes the
place of a number in base sixteen, the words behind it stay as they are, and the name ends where it should
unless a letter or a digit follows. Of the words before it none can grow into the name: where one of them ended
before the zero of the number, it is no name and no number that could take up a letter, and a comment or a
text in quotes that reached across the name would have reached across the number as well. There is one
exception. A point, digits and the mark of a floating-point number are also digits in base sixteen, and a name
that begins with an exponent makes one number out of them: `0x1.8f0x2` is three numbers and `0x1.8fp1` is one.
-/
namespace ResourceNames.Java.Lexicon

open Text Text.Pattern

variable {u v w rest text : List Char} {c : Char} {k j : Kind} {n : Nat}

/-! ### Words before a text -/

/-- A word of a kind is the longest one where a text begins with it and goes on with `rest`. -/
structure Holds (k : Kind) (w rest : List Char) : Prop where
  ne_nil : w ≠ []
  word : HasWord k w
  preferred : ∀ j, j.index < k.index → ¬ HasWord j w
  longest : ∀ j v, v ≠ [] → v <+: rest → ¬ HasWord j (w ++ v)

private theorem holds_of_isLongest (h : IsLongest (w ++ rest) k w.length) : Holds k w rest where
  ne_nil := List.length_pos_iff.mp h.pos
  word := by simpa using h.word
  preferred j hj := by simpa using h.preferred j hj
  longest j v hv hpre hw := by
    obtain ⟨x, rfl⟩ := hpre
    have hpos := List.length_pos_iff.mpr hv
    refine h.longest j (w ++ v).length (by simp; omega) (by simp) ?_
    rwa [← List.append_assoc, List.take_left]

private theorem isLongest_of_holds (h : Holds k w rest) : IsLongest (w ++ rest) k w.length where
  pos := List.length_pos_iff.mpr h.ne_nil
  le := by simp
  word := by simpa using h.word
  longest j m hlt hle hw := by
    rw [List.take_append, List.take_of_length_le (Nat.le_of_lt hlt)] at hw
    rw [List.length_append] at hle
    refine h.longest j (rest.take (m - w.length)) ?_ (List.take_prefix _ _) hw
    rw [← List.length_pos_iff, List.length_take]
    omega
  preferred j hj := by simpa using h.preferred j hj

private theorem eq_of_isLongest (h : IsLongest text k n) {m : Nat} (h' : IsLongest text j m) :
    k = j ∧ n = m := by
  have hnm : n = m := by
    rcases Nat.lt_trichotomy n m with hlt | heq | hgt
    · exact absurd h'.word (h.longest j m hlt h'.le)
    · exact heq
    · exact absurd h.word (h'.longest k n hgt h.le)
  subst hnm
  refine ⟨Kind.eq_of_index_eq ?_, rfl⟩
  rcases Nat.lt_trichotomy k.index j.index with hlt | heq | hgt
  · exact absurd h.word (h'.preferred k hlt)
  · exact heq
  · exact absurd h'.word (h.preferred j hgt)

/-- A word is taken off the front of a text exactly if it is the longest one there. -/
theorem munch_eq_iff (hne : w ≠ []) : munch (w ++ rest) = ⟨some k, w.length⟩ ↔ Holds k w rest := by
  obtain ⟨c, cs, hcs⟩ := List.exists_cons_of_ne_nil (List.append_ne_nil_of_left_ne_nil hne rest)
  have hmax := munch_isMaximal c cs
  rw [hcs]
  constructor
  · intro h
    rw [h] at hmax
    exact holds_of_isLongest (hcs ▸ hmax)
  · intro h
    have hlong := isLongest_of_holds h
    rw [hcs] at hlong
    cases hm : munch (c :: cs) with
    | mk kind length =>
      rw [hm] at hmax
      cases kind with
      | none => exact absurd hlong.word (hmax.wordless k _ hlong.pos hlong.le)
      | some j =>
        obtain ⟨rfl, rfl⟩ := eq_of_isLongest hlong hmax
        rfl

/-! ### What can reach across the place of a number -/

/-- A number in base sixteen begins with a zero and closes no comment. -/
theorem number_clean (h : HasWord .hexLiteral w) :
    (∃ v, w = '0' :: v) ∧ ∀ c ∈ w, c ≠ '*' ∧ c ≠ '/' := by
  obtain ⟨run, mark, hparts⟩ := exists_isHexNumeral h
  constructor
  · rcases hparts.eq with rfl | rfl <;> exact ⟨_, rfl⟩
  · have hdigit (c : Char) (hc : hexDigitSet.contains c = true) : c ≠ '*' ∧ c ≠ '/' := by
      constructor <;> rintro rfl <;> exact absurd hc (by decide)
    intro c hc
    have hcases : c ∈ "0xX".toList ∨ c ∈ run ∨ c ∈ mark := by
      rcases hparts.eq with rfl | rfl
      · simp only [List.mem_cons, List.mem_append] at hc
        rcases hc with rfl | rfl | hc
        · exact .inl (by decide)
        · exact .inl (by decide)
        · exact .inr hc
      · simp only [List.mem_cons, List.mem_append] at hc
        rcases hc with rfl | rfl | hc
        · exact .inl (by decide)
        · exact .inl (by decide)
        · exact .inr hc
    rcases hcases with hc | hc | hc
    · exact (by decide : ∀ c ∈ "0xX".toList, c ≠ '*' ∧ c ≠ '/') c hc
    · rcases hparts.digits c hc with hc | rfl
      · exact hdigit c hc
      · decide
    · have hmark : c ∈ "lL".toList := by
        rcases hparts.mark with rfl | rfl | rfl
        · cases hc
        · exact List.mem_singleton.mp hc ▸ by decide
        · exact List.mem_singleton.mp hc ▸ by decide
      exact (by decide : ∀ c ∈ "lL".toList, c ≠ '*' ∧ c ≠ '/') c hmark

/-- Nothing closes a comment across characters that are neither stars nor slashes. -/
private theorem closes_across {x y : List Char} (hw : w ≠ []) (hclean : ∀ c ∈ w, c ≠ '*' ∧ c ≠ '/')
    (h : Closes (x ++ (w ++ y))) : Closes x ∨ Closes y := by
  rcases pair_infix_append h with h | h | ⟨-, h⟩
  · exact .inl h
  · rcases pair_infix_append h with h | h | ⟨h, -⟩
    · exact absurd rfl (hclean '*' (h.subset (by simp))).1
    · exact .inr h
    · exact absurd rfl (hclean '*' (List.mem_of_getLast? h)).1
  · obtain ⟨c, w, rfl⟩ := List.exists_cons_of_ne_nil hw
    exact absurd (Option.some.inj h) (hclean c List.mem_cons_self).2

variable {lit name end_ before : List Char} {l : Char}

/-- The last word of a text is none with a zero behind it, and neither is the text. -/
structure BreaksOff (before : List Char) : Prop where
  last : ∃ k z, z <:+ before ∧ z ≠ [] ∧ HasWord k z ∧ ∀ j, ¬ HasWord j (z ++ ['0'])
  whole : ∀ j, ¬ HasWord j (before ++ ['0'])

/-- No number but a hexadecimal one with an exponent goes on with a letter where a text breaks off. -/
private theorem BreaksOff.not_number (h : BreaksOff before) (hk : k ∈ numbers)
    (hfloat : k ≠ .hexFloatLiteral) (hl : isLetter l = true) :
    ¬ Matches (pattern k) (before ++ l :: v) := by
  intro hw
  obtain ⟨kz, z, ⟨y, hy⟩, hzne, hz, hzero⟩ := h.last
  obtain ⟨x, c, rfl⟩ : ∃ x c, z = x ++ [c] := ⟨_, _, (List.dropLast_concat_getLast hzne).symm⟩
  obtain ⟨hmark, hdots⟩ := hz.last_of_not_grown hzero List.getLast?_concat
  have hpair : [c, l] <:+: before ++ l :: v := ⟨y ++ x, v, by rw [← hy]; simp⟩
  obtain ⟨hpart | rfl, hhex⟩ := before_letter_of_number hk hfloat hw hpair hl
  · obtain rfl := hhex (hmark hpart)
    refine h.whole .hexLiteral (hex_of_broken hw (List.cons_ne_nil l v) ⟨c, hmark hpart, ?_⟩)
    rw [← hy, ← List.append_assoc, List.getLast?_concat]
  · refine not_points_of_number hk hfloat hw ⟨y ++ ['.'], l :: v, ?_⟩
    rw [← hy, hdots rfl]
    simp

/-- A comment that reached across a name would reach across the number in its place. -/
private theorem not_comment (hlit : HasWord .hexLiteral lit) (hname : name ≠ [])
    (hclean : ∀ c ∈ name, c ≠ '*' ∧ c ≠ '/') (hl : isLetter l = true)
    (hpre : l :: v <+: name ++ end_) (hbefore : before ≠ [])
    (hno : ∀ x, x <+: end_ → ¬ HasWord .comment (before ++ (lit ++ x))) :
    ¬ HasWord .comment (before ++ l :: v) := by
  rintro ⟨u, heq, hopen⟩
  -- the comment is opened before the name, as the name begins with a letter
  obtain ⟨inside, rfl⟩ : ∃ inside, before = '/' :: '*' :: inside := by
    match before with
    | [] => exact absurd rfl hbefore
    | [_] =>
      obtain rfl : l = '*' := (List.cons.inj (List.cons.inj heq).2).1
      exact absurd hl (by decide)
    | c :: d :: inside =>
      obtain ⟨rfl, htail⟩ := List.cons.inj heq
      obtain ⟨rfl, -⟩ := List.cons.inj htail
      exact ⟨inside, rfl⟩
  have hbody : inside ++ l :: v = u ++ ['*', '/'] := by simpa using heq
  -- it is closed behind the name, which has neither stars nor slashes
  have hlast : (l :: v).getLast? = some '/' := by
    have := congrArg List.getLast? hbody
    rwa [List.getLast?_append_of_ne_nil _ (List.cons_ne_nil l v), List.getLast?_append] at this
  obtain ⟨x, hx, hend⟩ : ∃ x, l :: v = name ++ x ∧ x <+: end_ := by
    obtain ⟨t, ht⟩ := hpre
    rcases List.append_eq_append_iff.mp ht with ⟨a, ha, -⟩ | ⟨a, ha, hend⟩
    · have hin : '/' ∈ name := ha ▸ List.mem_append_left a (List.mem_of_getLast? hlast)
      exact absurd rfl (hclean '/' hin).2
    · exact ⟨a, ha, t, hend.symm⟩
  have hclosing : inside ++ name ++ x = u ++ ['*', '/'] := by rw [List.append_assoc, ← hx, hbody]
  obtain ⟨y, rfl, rfl⟩ : ∃ y, u = inside ++ name ++ y ∧ x = y ++ ['*', '/'] := by
    rcases List.append_eq_append_iff.mp hclosing with ⟨a, ha, hxa⟩ | ⟨a, ha, hxa⟩
    · exact ⟨a, ha, hxa⟩
    · -- a star or a slash would be the last character of the name
      rcases List.eq_nil_or_concat' a with rfl | ⟨b, c, rfl⟩
      · exact ⟨[], by simpa using ha.symm, hxa.symm⟩
      · have hc : c ∈ name := by
          have := congrArg List.getLast? ha
          rw [List.getLast?_append_of_ne_nil _ hname, ← List.append_assoc, List.getLast?_concat] at this
          exact List.mem_of_getLast? this
        have hin : c ∈ ['*', '/'] := by rw [hxa]; simp
        obtain ⟨hstar, hslash⟩ := hclean c hc
        simp [hstar, hslash] at hin
  obtain ⟨⟨d, hd⟩, hlitclean⟩ := number_clean hlit
  refine hno _ hend ⟨inside ++ lit ++ y, by simp, fun hcloses => hopen ?_⟩
  rw [List.append_assoc, List.append_assoc] at hcloses ⊢
  rcases closes_across (by rw [hd]; exact List.cons_ne_nil _ _) hlitclean hcloses with h | h
  · exact h.trans (List.prefix_append _ _).isInfix
  · exact h.trans ((List.suffix_append name _).trans (List.suffix_append inside _)).isInfix

/-- No word but a hexadecimal number with an exponent reaches across the border between a text and a
name, if none reaches across the border between the text and a number in the place of the name. -/
theorem Holds.not_across (h : Holds k w (rest ++ (lit ++ end_))) (hbreaks : BreaksOff (w ++ rest))
    (hlit : HasWord .hexLiteral lit) (hclean : ∀ c ∈ name, c ≠ '*' ∧ c ≠ '/') (hname : name ≠ [])
    (hl : isLetter l = true) (hpre : l :: v <+: name ++ end_) (hfloat : j ≠ .hexFloatLiteral) :
    ¬ HasWord j (w ++ rest ++ l :: v) := by
  intro hw
  have hbefore : w ++ rest ≠ [] := List.append_ne_nil_of_left_ne_nil h.ne_nil rest
  cases hw.shape with
  | name hname =>
    refine hbreaks.whole .identifier (hasWord_identifier_iff.mpr ((hname.of_append hbefore).append ?_))
    decide
  | symbol hall =>
    have hno := (by decide : ∀ c ∈ symbols, isLetter c = false) l (hall l (by simp))
    rw [hl] at hno
    cases hno
  | number hk hw => exact hbreaks.not_number hk hfloat hl hw
  | quoted quote hquote hq =>
    obtain ⟨c, w, rfl⟩ := List.exists_cons_of_ne_nil h.ne_nil
    obtain rfl : c = quote := by
      obtain ⟨x, hx, -⟩ := hq
      exact (List.cons.inj hx).1
    have hfirst := h.word.isQuoted hquote rfl
    rw [List.append_assoc] at hq
    refine hfirst.not_append ?_ ?_ hq
    · rintro rfl
      exact absurd hquote (by decide)
    · simp
  | comment u hk hw' hu =>
    subst hk
    refine not_comment hlit hname hclean hl hpre hbefore (fun x hx => ?_) hw
    rw [List.append_assoc]
    refine h.longest .comment _ ?_ ?_
    · obtain ⟨⟨d, rfl⟩, -⟩ := number_clean hlit
      simp
    · exact (List.prefix_append_right_inj rest).mpr ((List.prefix_append_right_inj lit).mpr hx)
  | line u hw' hu =>
    obtain ⟨inside, hinside, huin⟩ : ∃ inside, w ++ rest = ['/', '/'] ++ inside ∧ inside ⊆ u := by
      match hwr : w ++ rest with
      | [] => exact absurd hwr hbefore
      | [_] =>
        rw [hwr] at hw'
        obtain rfl : l = '/' := (List.cons.inj (List.cons.inj hw').2).1
        exact absurd hl (by decide)
      | c :: d :: inside =>
        rw [hwr] at hw'
        obtain ⟨rfl, htail⟩ := List.cons.inj hw'
        obtain ⟨rfl, hu'⟩ := List.cons.inj htail
        have hu' : inside ++ l :: v = u := hu'
        exact ⟨inside, rfl, fun c hc => hu' ▸ List.mem_append_left _ hc⟩
    refine hbreaks.whole .lineComment ?_
    rw [hinside, List.append_assoc]
    refine hasWord_line fun c hc => ?_
    rcases List.mem_append.mp hc with hc | hc
    · exact hu c (huin hc)
    · rw [List.mem_singleton.mp hc]
      decide

end ResourceNames.Java.Lexicon

namespace ResourceNames.Java

open Lexicon

variable {rest : List Char} {xs ys : List (Kind × String)}

theorem taken_cons_iff {x : Kind × String} :
    Taken rest (x :: xs) ↔ Holds x.1 x.2.toList (spelled xs ++ rest) ∧ Taken rest xs := by
  constructor
  · rintro ⟨hne, hmunch, htaken⟩
    exact ⟨(munch_eq_iff hne).mp hmunch, htaken⟩
  · rintro ⟨hholds, htaken⟩
    exact ⟨hholds.ne_nil, (munch_eq_iff hholds.ne_nil).mpr hholds, htaken⟩

theorem taken_append_iff : Taken rest (xs ++ ys) ↔ Taken (spelled ys ++ rest) xs ∧ Taken rest ys := by
  induction xs with
  | nil => exact ⟨fun h => ⟨trivial, h⟩, And.right⟩
  | cons x xs ih =>
    rw [List.cons_append, taken_cons_iff, taken_cons_iff, ih, spelled_append, List.append_assoc,
      and_assoc]

theorem Span.Tiles.start_of_append {ss ts : List Span} {s : Span} {a b : Nat}
    (h : Tiles a (ss ++ s :: ts) b) : s.start = a + (ss.map Span.length).sum := by
  induction ss generalizing a with
  | nil => exact h.1
  | cons r ss ih =>
    obtain ⟨rfl, -, hrest⟩ := h
    rw [ih hrest, Span.stop, List.map_cons, List.sum_cons, Nat.add_assoc]

namespace Source

private theorem taken_number (text : List Char) (p : Place) (n : Nat) :
    (spelled ((number n (piecesFrom text p 0)).map Token.word)).Sublist text ∧
      (spelled ((number n (piecesFrom text p 0)).map Token.word) = text →
        Taken [] ((number n (piecesFrom text p 0)).map Token.word)) := by
  induction hlen : text.length using Nat.strongRecOn generalizing text p n with
  | ind len ih =>
    cases text with
    | nil => exact ⟨List.Sublist.refl [], fun _ => trivial⟩
    | cons c cs =>
      have hfits := munch_fits c cs
      cases hm : munch (c :: cs) with
      | mk kind m =>
        rw [hm] at hfits
        -- the first piece and what is left of the text behind it
        obtain ⟨w, rest, hw, hlength⟩ : ∃ w rest, c :: cs = w ++ rest ∧ w.length = m :=
          ⟨(c :: cs).take m, (c :: cs).drop m, (List.take_append_drop m (c :: cs)).symm,
            List.length_take_of_le hfits.le⟩
        subst hlength
        have hne : w ≠ [] := List.length_pos_iff.mp hfits.pos
        rw [hw] at hm hlen ⊢
        rw [List.length_append] at hlen
        have hpos : 0 < w.length := hfits.pos
        rw [piecesFrom_append hne hm]
        cases kind with
        | none =>
          obtain ⟨hsub, -⟩ := ih rest.length (by omega) rest (w.foldl Place.advance p) n rfl
          refine ⟨hsub.trans (List.sublist_append_right w rest), fun heq => ?_⟩
          have hle := hsub.length_le
          have hlonger := congrArg List.length heq
          simp only [number, List.length_append] at hlonger
          omega
        | some k =>
          obtain ⟨hsub, htaken⟩ := ih rest.length (by omega) rest (w.foldl Place.advance p) (n + 1) rfl
          have hword : Token.word ⟨k, n, p, String.ofList w⟩ = (k, String.ofList w) := rfl
          simp only [number, List.map_cons, hword, spelled_cons, String.toList_ofList,
            List.append_sublist_append_left, List.append_cancel_left_eq, taken_cons_iff]
          refine ⟨hsub, fun heq => ⟨?_, htaken heq⟩⟩
          rw [heq, List.append_nil]
          exact (munch_eq_iff hne).mp hm

/-- The words of a text are taken off it one after another if they are the whole text. -/
theorem taken_words {text : String} (h : spelled ((words text).map Token.word) = text.toList) :
    Taken [] ((words text).map Token.word) :=
  (taken_number text.toList Place.start 0).2 h

theorem spelled_words {text : String} (h : (ofString text).errors = []) :
    spelled ((words text).map Token.word) = text.toList := by
  rw [spelled, List.flatMap_map, ← join_text_words h, String.toList_join, List.flatMap_map, join_text_words h]
  rfl

/-- A row of words is what its text is cut into exactly if the words are taken off it. -/
theorem words_eq_iff {text : String} {ws : List (Kind × String)} (ht : text.toList = spelled ws) :
    (words text).map Token.word = ws ↔ Taken [] ws := by
  constructor
  · rintro rfl
    exact taken_words ht.symm
  · intro h
    exact (words_of_taken h ht).1

/-- Without lexical errors a word begins behind the words before it. -/
theorem offset_of_words {text : String} (h : (ofString text).errors = []) {before after : List Token}
    {t : Token} (hsplit : words text = before ++ t :: after) :
    t.start.offset = (spelled (before.map Token.word)).length := by
  have hkinds : (pieces text.toList).filter (fun p => p.kind.isSome) = pieces text.toList := by
    rw [List.filter_eq_self]
    intro p hp
    by_contra hk
    have hrejected : ((pieces text.toList).filter fun p => !p.kind.isSome).map Piece.span = [] := by
      rw [← map_span_rejected 0]
      exact congrArg _ h
    rw [List.map_eq_nil_iff, List.filter_eq_nil_iff] at hrejected
    exact hrejected p hp (by simpa using hk)
  have hspans : (words text).map Token.span = (pieces text.toList).map Piece.span := by
    have hwords : ∀ p ∈ pieces text.toList, p.IsWord := fun p hp => isWord_of_mem_piecesFrom hp
    rw [words, map_span_number 0 hwords, hkinds]
  have htiles := tiles_pieces text.toList
  rw [← hspans, hsplit, List.map_append, List.map_cons] at htiles
  have hstart := htiles.start_of_append
  have hlengths : ∀ u ∈ before, u.span.length = u.word.2.toList.length := by
    intro u hu
    have hword := isWord_of_mem_words (hsplit ▸ List.mem_append_left _ hu)
    rw [Token.word, String.length_toList]
    exact if_neg hword.1
  rw [spelled, List.flatMap_map, List.length_flatMap, ← List.map_congr_left hlengths]
  rw [List.map_map, Nat.zero_add] at hstart
  exact hstart

end Source

/-! ### Names in the place of numbers -/

/-- No hexadecimal number with an exponent begins with a word of a row and ends behind the row, where
the text goes on with `rest`. -/
def Clear (rest : List Char) : List (Kind × String) → Prop
  | [] => True
  | x :: xs =>
    (∀ v, v ≠ [] → v <+: rest → ¬ HasWord .hexFloatLiteral (spelled (x :: xs) ++ v)) ∧ Clear rest xs

variable {lit name end_ : List Char}

/-- The last word of a row before a zero is none with the zero. -/
private theorem Taken.exists_last {v : List Char} (h : Taken ('0' :: v) xs) (hne : xs ≠ []) :
    ∃ k z, z <:+ spelled xs ∧ z ≠ [] ∧ HasWord k z ∧ ∀ j, ¬ HasWord j (z ++ ['0']) := by
  induction xs with
  | nil => exact absurd rfl hne
  | cons x xs ih =>
    obtain ⟨hx, hxs⟩ := taken_cons_iff.mp h
    cases xs with
    | nil =>
      refine ⟨x.1, x.2.toList, by simp [spelled], hx.ne_nil, hx.word, fun j => ?_⟩
      exact hx.longest j ['0'] (List.cons_ne_nil _ _) ⟨v, rfl⟩
    | cons y ys =>
      obtain ⟨k, z, hz, hrest⟩ := ih hxs (List.cons_ne_nil y ys)
      exact ⟨k, z, hz.trans (List.suffix_append _ _), hrest⟩

private theorem prefix_append_cases {α : Type} {v x y : List α} (h : v <+: x ++ y) :
    v <+: x ∨ ∃ z, z ≠ [] ∧ v = x ++ z ∧ z <+: y := by
  obtain ⟨t, ht⟩ := h
  rcases List.append_eq_append_iff.mp ht with ⟨a, ha, -⟩ | ⟨a, ha, hy⟩
  · exact .inl ⟨a, ha.symm⟩
  · by_cases hnil : a = []
    · exact .inl (by rw [ha, hnil, List.append_nil])
    · exact .inr ⟨a, hnil, ha, t, hy.symm⟩

/-- The words before a number stay where they are when a name takes its place, unless one of them
becomes a hexadecimal number with an exponent. -/
theorem Taken.before_name_iff (h : Taken (lit ++ end_) xs) (hlit : HasWord .hexLiteral lit)
    {l : Char} (hname : name.head? = some l) (hl : isLetter l = true)
    (hclean : ∀ c ∈ name, c ≠ '*' ∧ c ≠ '/') :
    Taken (name ++ end_) xs ↔ Clear (name ++ end_) xs := by
  induction xs with
  | nil => exact Iff.rfl
  | cons x xs ih =>
    obtain ⟨hx, hxs⟩ := taken_cons_iff.mp h
    rw [taken_cons_iff, ih hxs, Clear]
    refine and_congr_left fun _ => ⟨fun hholds v hv hpre => ?_, fun hclear => ?_⟩
    · rw [spelled_cons, List.append_assoc]
      exact hholds.longest _ _ (List.append_ne_nil_of_right_ne_nil _ hv)
        ((List.prefix_append_right_inj _).mpr hpre)
    · refine ⟨hx.ne_nil, hx.word, hx.preferred, fun j v hv hpre => ?_⟩
      rcases prefix_append_cases hpre with hin | ⟨z, hz, rfl, hout⟩
      · exact hx.longest j v hv (hin.trans (List.prefix_append _ _))
      · rw [← List.append_assoc]
        by_cases hfloat : j = .hexFloatLiteral
        · exact hfloat ▸ hclear z hz hout
        · obtain ⟨cs, rfl⟩ := List.head?_eq_some_iff.mp hname
          obtain ⟨d, z, rfl⟩ := List.exists_cons_of_ne_nil hz
          obtain ⟨rfl, -⟩ := List.cons_prefix_cons.mp hout
          obtain ⟨⟨lit, rfl⟩, -⟩ := number_clean hlit
          have hbreaks : BreaksOff (x.2.toList ++ spelled xs) := by
            refine ⟨h.exists_last (List.cons_ne_nil x xs), fun j => ?_⟩
            rw [List.append_assoc]
            refine hx.longest j _ (List.append_ne_nil_of_right_ne_nil _ (List.cons_ne_nil _ _)) ?_
            exact (List.prefix_append_right_inj _).mpr ⟨lit ++ end_, rfl⟩
          exact hx.not_across hbreaks hlit hclean (List.cons_ne_nil d cs) hl hout hfloat

/-- The words of a name that is joined by points. -/
def nameRow : List String → List (Kind × String)
  | [] => []
  | [w] => [(.identifier, w)]
  | w :: v :: ws => (.identifier, w) :: (.dot, ".") :: nameRow (v :: ws)

theorem spelled_nameRow (ws : List String) : spelled (nameRow ws) = (".".intercalate ws).toList := by
  fun_induction nameRow ws with
  | case1 => simp [spelled]
  | case2 w => simp [spelled]
  | case3 w v ws ih =>
    rw [spelled_cons, spelled_cons, ih, String.intercalate_cons_cons, String.toList_append,
      String.toList_append, List.append_assoc]

def IsIdentifier (w : String) : Prop := (Source.words w).map Token.word = [(.identifier, w)]

instance : DecidablePred IsIdentifier := fun _ => inferInstanceAs (Decidable (_ = _))

theorem IsIdentifier.holds {w : String} (h : IsIdentifier w) : Holds .identifier w.toList [] := by
  have htaken := (Source.words_eq_iff (by simp [spelled])).mp h
  exact (taken_cons_iff.mp htaken).1

theorem IsIdentifier.isName {w : String} (h : IsIdentifier w) : IsName w.toList :=
  hasWord_identifier_iff.mp h.holds.word

/-- An identifier ends where no letter and no digit follows. -/
theorem IsIdentifier.holds_iff {w : String} (h : IsIdentifier w) :
    Holds .identifier w.toList rest ↔ ∀ c ∈ rest.head?, isNamePart c = false := by
  constructor
  · intro hholds c hc
    by_contra hpart
    obtain ⟨cs, rfl⟩ := List.head?_eq_some_iff.mp hc
    refine hholds.longest .identifier [c] (List.cons_ne_nil c []) ⟨cs, rfl⟩ ?_
    refine hasWord_identifier_iff.mpr (h.isName.append fun d hd => ?_)
    rw [List.mem_singleton.mp hd]
    simpa using hpart
  · intro hnext
    refine ⟨h.holds.ne_nil, h.holds.word, h.holds.preferred, fun j v hv hpre hw => ?_⟩
    obtain ⟨d, v, rfl⟩ := List.exists_cons_of_ne_nil hv
    obtain ⟨x, rfl⟩ := hpre
    obtain ⟨c, hc, hletter⟩ := h.isName.head
    have hhead : (w.toList ++ d :: v).head? = some c := by rw [List.head?_append, hc, Option.some_or]
    have hpart := (hw.isName hhead hletter).parts d (by simp)
    rw [hnext d rfl] at hpart
    cases hpart

private theorem holds_dot {l : Char} (hl : isLetter l = true) : Holds .dot ['.'] (l :: rest) := by
  have halone : Holds .dot ['.'] [] := (munch_eq_iff (List.cons_ne_nil _ _)).mp (by decide +kernel)
  refine ⟨halone.ne_nil, halone.word, halone.preferred, fun j v hv hpre hw => ?_⟩
  obtain ⟨d, v, rfl⟩ := List.exists_cons_of_ne_nil hv
  obtain ⟨rfl, -⟩ := List.cons_prefix_cons.mp hpre
  have hno := hw.not_isLetter_of_point
  rw [hl] at hno
  cases hno

private theorem head?_nameRow {w : String} (h : IsIdentifier w) (ws : List String) :
    ∃ l cs, spelled (nameRow (w :: ws)) = l :: cs ∧ isLetter l = true := by
  obtain ⟨l, hl, hletter⟩ := h.isName.head
  obtain ⟨cs, hcs⟩ := List.head?_eq_some_iff.mp hl
  cases ws with
  | nil => exact ⟨l, _, by rw [nameRow, spelled_cons, hcs, List.cons_append], hletter⟩
  | cons v ws => exact ⟨l, _, by rw [nameRow, spelled_cons, hcs, List.cons_append], hletter⟩

theorem spelled_nameRow_ne_nil {ws : List String} (hne : ws ≠ []) (hws : ∀ w ∈ ws, IsIdentifier w) :
    spelled (nameRow ws) ≠ [] := by
  obtain ⟨w, ws, rfl⟩ := List.exists_cons_of_ne_nil hne
  obtain ⟨l, cs, hcs, -⟩ := head?_nameRow (hws w List.mem_cons_self) ws
  rw [hcs]
  exact List.cons_ne_nil l cs

/-- The words of a name are taken off a text exactly if no letter and no digit follows. -/
theorem taken_nameRow_iff {ws : List String} (hne : ws ≠ []) (hws : ∀ w ∈ ws, IsIdentifier w) :
    Taken rest (nameRow ws) ↔ ∀ c ∈ rest.head?, isNamePart c = false := by
  fun_induction nameRow ws with
  | case1 => exact absurd rfl hne
  | case2 w =>
    rw [taken_cons_iff, spelled, List.flatMap_nil, List.nil_append,
      (hws w List.mem_cons_self).holds_iff]
    exact and_iff_left trivial
  | case3 w v ws ih =>
    rw [List.forall_mem_cons] at hws
    obtain ⟨l, cs, hcs, hl⟩ := head?_nameRow (hws.2 v List.mem_cons_self) ws
    rw [taken_cons_iff, taken_cons_iff, ih (List.cons_ne_nil v ws) hws.2, hws.1.holds_iff, hcs]
    constructor
    · exact fun h => h.2.2
    · refine fun h => ⟨?_, holds_dot hl, h⟩
      rintro c ⟨⟩
      decide

theorem words_of_name {ws : List String} (hne : ws ≠ []) (hws : ∀ w ∈ ws, IsIdentifier w) :
    (Source.words (".".intercalate ws)).map Token.word = nameRow ws :=
  (Source.words_eq_iff (spelled_nameRow ws).symm).mpr ((taken_nameRow_iff hne hws).mpr nofun)

private theorem nameRow_clean {ws : List String} (hws : ∀ w ∈ ws, IsIdentifier w) :
    ∀ c ∈ spelled (nameRow ws), c ≠ '*' ∧ c ≠ '/' := by
  have hpart (c : Char) (hc : isNamePart c = true) : c ≠ '*' ∧ c ≠ '/' := by
    constructor <;> rintro rfl <;> exact absurd hc (by decide)
  fun_induction nameRow ws with
  | case1 => simp [spelled]
  | case2 w =>
    intro c hc
    rw [spelled_cons, spelled, List.flatMap_nil, List.append_nil] at hc
    exact hpart c ((hws w List.mem_cons_self).isName.parts c hc)
  | case3 w v ws ih =>
    rw [List.forall_mem_cons] at hws
    intro c hc
    rw [spelled_cons, spelled_cons, List.mem_append, List.mem_append] at hc
    rcases hc with hc | hc | hc
    · exact hpart c (hws.1.isName.parts c hc)
    · rw [List.mem_singleton.mp hc]
      decide
    · exact ih hws.2 c hc

/-- A name takes the place of a number among the words of a text. The text is cut into these words exactly
if behind the name no letter and no digit follows, and before it no hexadecimal number with an exponent
arises. -/
theorem taken_with_name_iff {lit : String} {ws : List String}
    (h : Taken [] (xs ++ (.hexLiteral, lit) :: ys)) (hne : ws ≠ []) (hws : ∀ w ∈ ws, IsIdentifier w) :
    Taken [] (xs ++ nameRow ws ++ ys) ↔ (∀ c ∈ (spelled ys).head?, isNamePart c = false) ∧
      Clear (spelled (nameRow ws) ++ spelled ys) xs := by
  rw [taken_append_iff, taken_cons_iff] at h
  obtain ⟨hxs, hlit, hys⟩ := h
  obtain ⟨w, ws, rfl⟩ := List.exists_cons_of_ne_nil hne
  obtain ⟨l, cs, hcs, hl⟩ := head?_nameRow (hws w List.mem_cons_self) ws
  rw [spelled_cons, List.append_nil] at hxs
  rw [List.append_assoc, taken_append_iff, taken_append_iff, spelled_append, List.append_nil,
    List.append_nil, taken_nameRow_iff hne hws,
    hxs.before_name_iff hlit.word (by rw [hcs]; rfl) hl (nameRow_clean hws)]
  constructor
  · rintro ⟨hclear, hnext, -⟩
    exact ⟨hnext, hclear⟩
  · rintro ⟨hnext, hclear⟩
    exact ⟨hclear, hnext, hys⟩

/-- Where a word begins that stands before a place, a hexadecimal number with an exponent begins too, and it
ends behind the place. -/
def ReachesAcross (text : List Char) (start place : Nat) : Prop :=
  ∃ n, place < start + n ∧ HasWord .hexFloatLiteral ((text.drop start).take n)

private theorem clear_iff_forall : Clear rest xs ↔ ∀ a x b, xs = a ++ x :: b →
    ∀ v, v ≠ [] → v <+: rest → ¬ HasWord .hexFloatLiteral (spelled (x :: b) ++ v) := by
  induction xs with
  | nil => exact ⟨fun _ a x b h => absurd h.symm (by simp), fun _ => trivial⟩
  | cons y ys ih =>
    rw [Clear, ih]
    constructor
    · rintro ⟨hy, hys⟩ a x b heq
      cases a with
      | nil =>
        obtain ⟨rfl, rfl⟩ := List.cons.inj heq
        exact hy
      | cons z a => exact hys a x b (List.cons.inj heq).2
    · intro h
      exact ⟨h [] y ys rfl, fun a x b heq => h (y :: a) x b (by rw [heq, List.cons_append])⟩

theorem clear_iff (hrest : rest ≠ []) : Clear rest xs ↔ ∀ a x b, xs = a ++ x :: b →
    ¬ ReachesAcross (spelled xs ++ rest) (spelled a).length (spelled xs).length := by
  rw [clear_iff_forall]
  refine forall_congr' fun a => forall_congr' fun x => forall_congr' fun b => forall_congr' fun heq => ?_
  have hdrop : (spelled xs ++ rest).drop (spelled a).length = spelled (x :: b) ++ rest := by
    rw [heq, spelled_append, List.append_assoc, List.drop_left]
  have hlength : (spelled xs).length = (spelled a).length + (spelled (x :: b)).length := by
    rw [heq, spelled_append, List.length_append]
  rw [ReachesAcross, hdrop, hlength]
  constructor
  · rintro hclear ⟨n, hn, hw⟩
    rw [List.take_append, List.take_of_length_le (by omega)] at hw
    refine hclear _ ?_ (List.take_prefix _ _) hw
    rw [← List.length_pos_iff, List.length_take]
    have := List.length_pos_iff.mpr hrest
    omega
  · rintro hno v hv ⟨y, rfl⟩ hw
    have hpos := List.length_pos_iff.mpr hv
    refine hno ⟨(spelled (x :: b) ++ v).length, by rw [List.length_append]; omega, ?_⟩
    rwa [← List.append_assoc, List.take_left]

end ResourceNames.Java

namespace ResourceNames.Session

open Java Java.Lexicon Resource Text

/-- What is written when a name takes the place of one token. -/
private theorem toList_write {text name : String} {before after : List Token} {t : Token}
    (hsplit : Source.words text = before ++ t :: after) :
    (Program.write [.replace t.index t.index name] (Source.ofString text).tokens.toList 0).toList =
      spelled (before.map Token.word) ++ name.toList ++ spelled (after.map Token.word) := by
  have hsingle : ∀ e ∈ [Edit.replace t.index t.index name], e.IsSingle := by
    intro e he
    rw [List.mem_singleton.mp he]
    rintro _ ⟨⟩
    rfl
  have hordered := Source.pairwise_index_tokens text
  rw [Program.write_eq_join hsingle hordered fun _ _ => Nat.zero_le _]
  rw [Source.toList_tokens_ofString, hsplit, List.append_assoc, List.cons_append] at hordered ⊢
  obtain ⟨-, hafter, hbefore⟩ := List.pairwise_append.mp hordered
  have hother (us : List Token) (hus : ∀ u ∈ us, u.index ≠ t.index) (hwords : us ⊆ Source.words text) :
      us.flatMap (fun u => (Program.rewritten [.replace t.index t.index name] u).toList) =
        spelled (us.map Token.word) := by
    rw [spelled, List.flatMap_map]
    refine List.flatMap_congr fun u hu => ?_
    have hne : ¬ t.index = u.index := fun h => hus u hu h.symm
    simp [Program.rewritten, Edit.index, hne, Program.written,
      (Source.isWord_of_mem_words (hwords hu)).1, Token.word]
  have hself : Program.rewritten [.replace t.index t.index name] t = name := by
    simp [Program.rewritten, Edit.index, Edit.written]
  have hlast : Program.rewritten [.replace t.index t.index name] (Source.last text) = "" := by
    have hne : ¬ t.index = (Source.last text).index :=
      Nat.ne_of_lt ((List.pairwise_cons.mp hafter).1 _ (by simp))
    simp only [Program.rewritten, Edit.index, List.find?_cons, beq_eq_false_iff_ne.mpr hne]
    rfl
  rw [String.toList_join, List.flatMap_map, List.flatMap_append, List.flatMap_cons, List.flatMap_append,
    hother before, hother after, hself]
  · simp [hlast]
  · intro u hu
    exact Nat.ne_of_gt ((List.pairwise_cons.mp hafter).1 u (List.mem_append_left _ hu))
  · intro u hu
    rw [hsplit]
    exact List.mem_append_right _ (List.mem_cons_of_mem t hu)
  · intro u hu
    exact Nat.ne_of_lt (hbefore u hu t List.mem_cons_self)
  · intro u hu
    rw [hsplit]
    exact List.mem_append_left _ hu

/-- The tokens before a word of a text are those with smaller numbers. -/
private theorem mem_before_iff {text : String} {before after : List Token} {t u : Token}
    (hsplit : Source.words text = before ++ t :: after) :
    u ∈ before ↔ u ∈ (Source.ofString text).tokens.toList ∧ u.index < t.index := by
  have htokens : (Source.ofString text).tokens.toList = before ++ t :: (after ++ [Source.last text]) := by
    rw [Source.toList_tokens_ofString, hsplit, List.append_assoc, List.cons_append]
  have hordered := Source.pairwise_index_tokens text
  rw [htokens] at hordered ⊢
  obtain ⟨-, hafter, hbefore⟩ := List.pairwise_append.mp hordered
  constructor
  · intro hu
    exact ⟨List.mem_append_left _ hu, hbefore u hu t List.mem_cons_self⟩
  · rintro ⟨hu, hlt⟩
    rcases List.mem_append.mp hu with hu | hu
    · exact hu
    · rcases List.mem_cons.mp hu with rfl | hu
      · exact absurd hlt (Nat.lt_irrefl _)
      · exact absurd hlt (Nat.not_lt.mpr (Nat.le_of_lt ((List.pairwise_cons.mp hafter).1 u hu)))

/-- That the words before a place are clear is said by their offsets in the text. -/
private theorem clear_iff_offsets {text : String} (h : (Source.ofString text).errors = [])
    {before after : List Token} {t : Token} (hsplit : Source.words text = before ++ t :: after)
    {rest : List Char} (hrest : rest ≠ []) :
    Clear rest (before.map Token.word) ↔ ∀ u ∈ (Source.ofString text).tokens.toList,
      u.index < t.index → ¬ ReachesAcross (spelled (before.map Token.word) ++ rest) u.start.offset
        t.start.offset := by
  rw [clear_iff hrest, Source.offset_of_words h hsplit]
  constructor
  · intro hclear u hu hlt
    obtain ⟨a, b, rfl⟩ := List.append_of_mem ((mem_before_iff hsplit).mpr ⟨hu, hlt⟩)
    rw [List.append_assoc, List.cons_append] at hsplit
    rw [Source.offset_of_words h hsplit]
    exact hclear _ u.word (b.map Token.word) (by rw [List.map_append, List.map_cons])
  · intro hoffsets a x b heq
    obtain ⟨us, vs, rfl, rfl, hvs⟩ := List.map_eq_append_iff.mp heq
    obtain ⟨u, vs, rfl, rfl, -⟩ := List.map_eq_cons_iff.mp hvs
    obtain ⟨hu, hlt⟩ := (mem_before_iff hsplit).mp (List.mem_append_right us List.mem_cons_self)
    have hno := hoffsets u hu hlt
    rw [List.append_assoc, List.cons_append] at hsplit
    rwa [Source.offset_of_words h hsplit] at hno

private theorem words_with_name_iff {text : String} (h : (Source.ofString text).errors = [])
    {before after : List Token} {n : Token} (hsplit : Source.words text = before ++ n :: after)
    (hkind : n.kind = .hexLiteral) {ws : List String} (hne : ws ≠ []) (hws : ∀ w ∈ ws, IsIdentifier w)
    {written : String} (hwritten : written.toList = spelled (before.map Token.word) ++
      (".".intercalate ws).toList ++ spelled (after.map Token.word)) :
    (Source.words written).map Token.word =
        before.map Token.word ++ nameRow ws ++ after.map Token.word ↔
      (∀ c ∈ text.toList[n.span.stop]?, isNamePart c = false) ∧
        ∀ u ∈ (Source.ofString text).tokens.toList, u.index < n.index →
          ¬ ReachesAcross written.toList u.start.offset n.start.offset := by
  have hword : n.word = (.hexLiteral, n.text) := by rw [Token.word, hkind]
  have hspelled := Source.spelled_words h
  have htaken := Source.taken_words hspelled
  rw [hsplit, List.map_append, List.map_cons, hword] at hspelled htaken
  have hlength : n.length = n.text.toList.length := by
    rw [Token.length, hkind, if_neg (by decide), String.length_toList]
  have hnext : text.toList[n.span.stop]? = (spelled (after.map Token.word)).head? := by
    rw [Span.stop, Token.span, Source.offset_of_words h hsplit, hlength, ← hspelled, spelled_append,
      spelled_cons, ← List.head?_drop, ← List.append_assoc, ← List.length_append, List.drop_left]
  have hrest : spelled (nameRow ws) ++ spelled (after.map Token.word) ≠ [] :=
    List.append_ne_nil_of_left_ne_nil (spelled_nameRow_ne_nil hne hws) _
  rw [Source.words_eq_iff (by rw [hwritten, spelled_append, spelled_append, spelled_nameRow]),
    taken_with_name_iff htaken hne hws, hnext, clear_iff_offsets h hsplit hrest, hwritten,
    List.append_assoc, spelled_nameRow]

/-- A name in the place of a number leaves the tokens around it as they are exactly if no letter and no
digit follows behind the number, and no hexadecimal number with an exponent reaches from an earlier token
into the name. -/
theorem tokens_with_name_iff {text : String} (h : (Source.ofString text).errors = []) {n : Token}
    (hn : n ∈ (Source.ofString text).tokens.toList) (hkind : n.kind = .hexLiteral) {ws : List String}
    (hne : ws ≠ []) (hws : ∀ w ∈ ws, IsIdentifier w) {written : String}
    (hwritten : written = Program.write [.replace n.index n.index (".".intercalate ws)]
      (Source.ofString text).tokens.toList 0) :
    (Source.ofString written).tokens.toList.map Token.word =
        ((Source.ofString text).tokens.toList.take n.index).map Token.word ++
          (Source.words (".".intercalate ws)).map Token.word ++
          ((Source.ofString text).tokens.toList.drop (n.index + 1)).map Token.word ↔
      (∀ c ∈ text.toList[n.span.stop]?, isNamePart c = false) ∧
        ∀ u ∈ (Source.ofString text).tokens.toList, u.index < n.index →
          ¬ ReachesAcross written.toList u.start.offset n.start.offset := by
  have hword : n ∈ Source.words text := by
    rcases List.mem_append.mp hn with hn | hn
    · exact hn
    · rw [List.mem_singleton.mp hn] at hkind
      cases hkind
  obtain ⟨before, after, hsplit⟩ := List.append_of_mem hword
  have htokens : (Source.ofString text).tokens.toList = before ++ n :: (after ++ [Source.last text]) := by
    rw [Source.toList_tokens_ofString, hsplit, List.append_assoc, List.cons_append]
  have hdrop : (Source.ofString text).tokens.toList.drop before.length =
      n :: (after ++ [Source.last text]) := by rw [htokens, List.drop_left]
  have hindex : n.index = before.length := (Source.index_of_drop hdrop).1
  have hends : (Source.last written).word = (Source.last text).word := rfl
  rw [← words_with_name_iff h hsplit hkind hne hws (by rw [hwritten, toList_write hsplit]),
    words_of_name hne hws, hindex, ← List.drop_drop, hdrop, htokens, List.take_left,
    Source.toList_tokens_ofString, List.drop_one, List.tail_cons, List.map_append, List.map_append,
    List.map_singleton, List.map_singleton, hends, ← List.append_assoc, List.append_left_inj]

example : (Source.words "0x1.8f0x2").map Token.word =
      [(.hexLiteral, "0x1"), (.floatLiteral, ".8f"), (.hexLiteral, "0x2")] ∧
    (Source.words "0x1.8fp1").map Token.word = [(.hexFloatLiteral, "0x1.8fp1")] := by
  decide +kernel

/-- A file was opened without a package, and after some steps its only edit puts a name in the place of a
number. The file cannot be written for want of an import. What the edit describes, the tokens with the name
in the place of the number, is cut into these very tokens again exactly if no letter and no digit follows
behind the number, and no hexadecimal number with an exponent reaches from an earlier token into the
name. -/
theorem name_in_place_of_number {s t : Session} (hs : s.Reachable) (text : String)
    (given : Option Table) (package : Option String) (wantsImport : Bool)
    (hp : (s.packageFor package wantsImport).getD "" = "")
    (hc : Continues (s.openFile text given package wantsImport).session t) {o : Opened}
    (ho : t.opened = some o) (hlexical : (sourceOf text).errors = []) {i : Nat} {ws : List String}
    (hne : ws ≠ []) (hws : ∀ w ∈ ws, IsIdentifier w)
    (hprogram : o.restorer.program = [some (.replace i i (".".intercalate ws))]) :
    (t.text none none o).result = (o.restorer.program, .error .noInsertion) ∧
      ∃ n, (sourceOf text).tokens.toList[i]? = some n ∧ n.kind = .hexLiteral ∧
        let written := Program.write o.restorer.program.edits (sourceOf text).tokens.toList 0
        ((Source.ofString written).tokens.toList.map Token.word =
            ((sourceOf text).tokens.toList.take i).map Token.word ++
              (Source.words (".".intercalate ws)).map Token.word ++
              ((sourceOf text).tokens.toList.drop (i + 1)).map Token.word ↔
          (∀ c ∈ (unifyNewlines text.toList)[n.span.stop]?, isNamePart c = false) ∧
            ∀ u ∈ (sourceOf text).tokens.toList, u.index < i →
              ¬ ReachesAcross written.toList u.start.offset n.start.offset) := by
  have hfile : OnlyNamed (sourceOf text) o :=
    hc.onlyNamed (hs.openFile text given package wantsImport) (fun o ho => .openFile hs hp ho) o ho
  obtain ⟨hits, hhits, -, hall⟩ := hfile.edits
  obtain ⟨n, rfl, rfl⟩ : ∃ n, n.index = i ∧ hits = [(n, ".".intercalate ws)] := by
    rw [hprogram] at hhits
    obtain ⟨⟨n, name⟩, rest, rfl, hfirst, hrest⟩ := List.map_eq_cons_iff.mp hhits.symm
    rw [List.map_eq_nil_iff.mp hrest]
    obtain ⟨hi, -, hname⟩ := Edit.replace.inj (Option.some.inj hfirst)
    exact ⟨n, hi, by rw [← hname]⟩
  obtain ⟨hn, hkind⟩ := hall _ (List.mem_singleton_self _)
  refine ⟨?_, n, Source.getElem?_tokens_of_mem hn, hkind, ?_⟩
  · simp only [Session.text, Option.getD_none, hfile.read.source, hhits, Restorer.text_replacements]
    rfl
  intro written
  have hwritten : written = Program.write [.replace n.index n.index (".".intercalate ws)]
      (sourceOf text).tokens.toList 0 := by
    simp only [written, hprogram]
    rfl
  have hiff := tokens_with_name_iff hlexical hn hkind hne hws hwritten
  rwa [String.toList_ofList] at hiff

def namedWords : List (Kind × String) :=
  [(.kwClass, "class"), (.ws, " "), (.identifier, "A"), (.lbrace, "\x7b"), (.kwInt, "int"), (.ws, " "),
    (.identifier, "a"), (.assign, "="), (.hexLiteral, "0x1"), (.semi, ";"), (.rbrace, "\x7d")]

private theorem words_namedWords : Spaced none namedWords ∧
    (String.ofList (unifyNewlines "class A\x7bint a=0x1;\x7d".toList)).toList = spelled namedWords ∧
    ∀ w ∈ namedWords, w.1 = .hexLiteral → readNumeral .sixteen w.2 = .ok 1 := by
  decide +kernel

private theorem ways_namedWords : ((Grammar.body .compilationUnit).ways none (Rule.ways none 30) .compilationUnit
    (((seen namedWords).map Prod.fst ++ [Kind.eof]).map some)).isWhole = true := by
  decide +kernel

/-- A class in which the only number has a name; the name ends before the semicolon. -/
theorem name_before_semicolon :
    ∃ t o, Continues (({} : Session).openFile "class A\x7bint a=0x1;\x7d" (some [(1, "R.a")]) none
        false).session t ∧ t.opened = some o ∧
      o.restorer.program = [some (.replace 8 8 "R.a")] ∧
      (t.text none none o).result = (o.restorer.program, .error .noInsertion) ∧
      ∃ n, (sourceOf "class A\x7bint a=0x1;\x7d").tokens.toList[8]? = some n ∧
        (∀ c ∈ "class A\x7bint a=0x1;\x7d".toList[n.span.stop]?, isNamePart c = false) ∧
        ∀ u ∈ (sourceOf "class A\x7bint a=0x1;\x7d").tokens.toList, u.index < 8 →
          ¬ ReachesAcross "class A\x7bint a=R.a;\x7d".toList u.start.offset n.start.offset := by
  have hwritten : Program.write [.replace 8 8 "R.a"] (sourceOf "class A\x7bint a=0x1;\x7d").tokens.toList 0 =
      "class A\x7bint a=R.a;\x7d" := by
    decide +kernel
  have hwords : (Source.ofString "class A\x7bint a=R.a;\x7d").tokens.toList.map Token.word =
      ((sourceOf "class A\x7bint a=0x1;\x7d").tokens.toList.take 8).map Token.word ++
        (Source.words "R.a").map Token.word ++
        ((sourceOf "class A\x7bint a=0x1;\x7d").tokens.toList.drop 9).map Token.word := by
    decide +kernel
  have hlines : unifyNewlines "class A\x7bint a=0x1;\x7d".toList = "class A\x7bint a=0x1;\x7d".toList := by
    decide +kernel
  obtain ⟨hspaced, hspelled, hread⟩ := words_namedWords
  generalize "class A\x7bint a=0x1;\x7d" = text at *
  obtain ⟨o, ho⟩ := exists_opens {} text (some [(1, "R.a")]) none false
  obtain ⟨hlexical, -, hreports, -⟩ := Reachable.start.reads_words hspaced hspelled
    (Rule.spells_of_body_ways ways_namedWords) rfl
  obtain ⟨r, hr, hprogram, -⟩ := Reachable.start.restores_words hspaced hspelled rfl hreports
    (fun w hw hk => ⟨1, hread w hw hk⟩) [(1, "R.a")]
  have hrenaming : namedWords.zipIdx.filterMap (Table.renaming? [(1, "R.a")]) =
      [some (.replace 8 8 (".".intercalate ["R", "a"]))] := by
    decide +kernel
  rw [hrenaming] at hprogram
  obtain ⟨-, hopened⟩ := ho.restore (ho.tree ▸ hr)
  have hwalk : Continues _ _ := .single (.restore ho.session)
  obtain ⟨hresult, n, hn, -, hiff⟩ := name_in_place_of_number .start text _ none false rfl hwalk hopened
    hlexical (by decide) (by decide +kernel) hprogram
  refine ⟨_, _, hwalk, hopened, hprogram, hresult, n, hn, ?_⟩
  have hedits : Program.edits r.program = [.replace 8 8 "R.a"] := by
    rw [hprogram]
    rfl
  simp only [hedits, hwritten, hlines] at hiff
  exact hiff.mp hwords

end ResourceNames.Session
