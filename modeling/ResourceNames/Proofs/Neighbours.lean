import ResourceNames.Proofs.LongestWords
import ResourceNames.Proofs.Numerals

/-!
Which characters stand side by side in words.

A pattern tells with which characters its words begin and end, and which ones are neighbours in them. The
sets of characters in the lexicon are few, so that what holds of all neighbours in all words of a kind is
checked set by set. In this way every word is found to have one of a few shapes: a name, a symbol, a
number, a text in quotes or a comment. A word that is none with a zero behind it ends neither like a name
nor like a number, unless the number is marked by a letter.
-/
namespace ResourceNames.Text

/-- Whether all characters of a set have a property. The characters beyond ASCII are alike to the set, and the
first one of them stands for all. -/
def CharSet.within (s : CharSet) (f : Char → Bool) : Bool :=
  s.ranges.all (fun r => r.2.toNat < 128) &&
    (List.range 129).all fun n => !s.contains (Char.ofNat n) || f (Char.ofNat n)

/-- A property that the characters beyond ASCII have or lack together. -/
def Uniform (f : Char → Bool) : Prop := ∀ c : Char, 128 ≤ c.toNat → f c = f (Char.ofNat 128)

theorem Uniform.not {f : Char → Bool} (h : Uniform f) : Uniform fun c => !f c :=
  fun c hc => congrArg (!·) (h c hc)

theorem CharSet.contains_beyond {s : CharSet} (h : s.ranges.all (fun r => r.2.toNat < 128) = true)
    {c : Char} (hc : 128 ≤ c.toNat) : s.contains c = s.outside := by
  have hno : (s.ranges.any fun r => r.1 ≤ c && c ≤ r.2) = false := by
    rw [List.any_eq_false]
    intro r hr hin
    have hlast : r.2.toNat < 128 := by simpa using List.all_eq_true.mp h r hr
    rw [Bool.and_eq_true, decide_eq_true_eq, decide_eq_true_eq] at hin
    have hle : c.toNat ≤ r.2.toNat := hin.2
    omega
  rw [CharSet.contains, hno, Bool.xor_false]

theorem CharSet.of_within {s : CharSet} {f : Char → Bool} (h : s.within f = true) (hf : Uniform f)
    {c : Char} (hc : s.contains c = true) : f c = true := by
  obtain ⟨hplain, hall⟩ := Bool.and_eq_true_iff.mp h
  have hof : ∀ n < 129, s.contains (Char.ofNat n) = true → f (Char.ofNat n) = true := by
    intro n hn hcn
    have := List.all_eq_true.mp hall n (List.mem_range.mpr hn)
    rw [hcn] at this
    exact this
  rcases Nat.lt_or_ge c.toNat 128 with hlt | hge
  · have := hof c.toNat (by omega)
    rw [Char.ofNat_toNat] at this
    exact this hc
  · rw [hf c hge]
    apply hof 128 (by decide)
    rw [CharSet.contains_beyond hplain hge] at hc
    rw [CharSet.contains_beyond hplain (by decide), hc]

namespace Pattern

variable {p q : Pattern} {w u v : List Char} {a b c : Char}

def starts : Pattern → List CharSet
  | .empty => []
  | .one s => [s]
  | .seq p q => p.starts ++ if p.nullable then q.starts else []
  | .alt p q => p.starts ++ q.starts
  | .star p => p.starts

/-- Nothing may stand after a character with which no word of a pattern begins. -/
theorem after_eq_nil (h : ∀ s ∈ p.starts, s.contains c = false) : p.after c = [] := by
  induction p with
  | empty => rfl
  | one s => simp [after, h s (List.mem_singleton_self s)]
  | seq p q ihp ihq =>
    rw [starts, List.forall_mem_append] at h
    rw [after, ihp h.1]
    split
    · rename_i hnull
      rw [if_pos hnull] at h
      rw [ihq h.2]
      rfl
    · rfl
  | alt p q ihp ihq =>
    rw [starts, List.forall_mem_append] at h
    rw [after, ihp h.1, ihq h.2]
    rfl
  | star p ih => rw [after, ih h, List.map_nil]

/-- The sets of characters with which the words of a pattern end. -/
def ends : Pattern → List CharSet
  | .empty => []
  | .one s => [s]
  | .seq p q => (if q.nullable then p.ends else []) ++ q.ends
  | .alt p q => p.ends ++ q.ends
  | .star p => p.ends

/-- The sets of characters of which two stand side by side in the words of a pattern. -/
def pairs : Pattern → List (CharSet × CharSet)
  | .empty => []
  | .one _ => []
  | .seq p q => p.pairs ++ q.pairs ++ p.ends.flatMap fun s => q.starts.map (s, ·)
  | .alt p q => p.pairs ++ q.pairs
  | .star p => p.pairs ++ p.ends.flatMap fun s => p.starts.map (s, ·)

/-- The ends and the neighbours of a word are such as a pattern allows. -/
structure Fits (p : Pattern) (w : List Char) : Prop where
  head : ∀ c ∈ w.head?, ∃ s ∈ p.starts, s.contains c = true
  last : ∀ c ∈ w.getLast?, ∃ s ∈ p.ends, s.contains c = true
  pair : ∀ a b, [a, b] <:+: w → ∃ st ∈ p.pairs, st.1.contains a = true ∧ st.2.contains b = true

/-- Two characters side by side stand in one of two parts of a text or around their border. -/
theorem pair_infix_append (h : [a, b] <:+: u ++ v) :
    [a, b] <:+: u ∨ [a, b] <:+: v ∨ (u.getLast? = some a ∧ v.head? = some b) := by
  induction u with
  | nil => exact .inr (.inl h)
  | cons c u ih =>
    rw [List.cons_append, List.infix_cons_iff] at h
    rcases h with h | h
    · rw [List.cons_prefix_cons] at h
      obtain ⟨rfl, h⟩ := h
      cases u with
      | nil =>
        cases v with
        | nil => simp at h
        | cons d v =>
          obtain ⟨rfl, -⟩ := List.cons_prefix_cons.mp h
          exact .inr (.inr ⟨rfl, rfl⟩)
      | cons d u =>
        obtain ⟨rfl, -⟩ := List.cons_prefix_cons.mp h
        exact .inl (List.prefix_append [a, b] u).isInfix
    · rcases ih h with h | h | ⟨hu, hv⟩
      · exact .inl (h.trans (List.suffix_cons c u).isInfix)
      · exact .inr (.inl h)
      · refine .inr (.inr ⟨?_, hv⟩)
        cases u with
        | nil => cases hu
        | cons d u => rw [List.getLast?_cons_cons, hu]

private theorem Fits.border (hu : p.Fits u) (hv : q.Fits v)
    (h : u.getLast? = some a ∧ v.head? = some b) :
    ∃ st ∈ p.ends.flatMap fun s => q.starts.map (s, ·), st.1.contains a = true ∧
      st.2.contains b = true := by
  obtain ⟨s, hs, ha⟩ := hu.last a h.1
  obtain ⟨t, ht, hb⟩ := hv.head b h.2
  exact ⟨(s, t), List.mem_flatMap.mpr ⟨s, hs, List.mem_map_of_mem ht⟩, ha, hb⟩

theorem fits_of_matches (h : Matches p w) : p.Fits w := by
  induction h with
  | empty => exact ⟨nofun, nofun, by simp⟩
  | @one s c h =>
    refine ⟨?_, ?_, by simp [List.infix_cons_iff]⟩
    · rintro _ ⟨⟩
      exact ⟨s, List.mem_singleton_self s, h⟩
    · rintro _ ⟨⟩
      exact ⟨s, List.mem_singleton_self s, h⟩
  | @seq p q u v hu hv ihu ihv =>
    refine ⟨fun c hc => ?_, fun c hc => ?_, fun a b hab => ?_⟩
    · rw [List.head?_append] at hc
      rcases Option.or_eq_some_iff.mp hc with hc | ⟨hnil, hc⟩
      · obtain ⟨s, hs, hsc⟩ := ihu.head c hc
        exact ⟨s, List.mem_append_left _ hs, hsc⟩
      · obtain ⟨s, hs, hsc⟩ := ihv.head c hc
        rw [List.head?_eq_none_iff.mp hnil] at hu
        refine ⟨s, List.mem_append_right _ ?_, hsc⟩
        rwa [if_pos (nullable_of_matches_nil hu)]
    · rw [List.getLast?_append] at hc
      rcases Option.or_eq_some_iff.mp hc with hc | ⟨hnil, hc⟩
      · obtain ⟨s, hs, hsc⟩ := ihv.last c hc
        exact ⟨s, List.mem_append_right _ hs, hsc⟩
      · obtain ⟨s, hs, hsc⟩ := ihu.last c hc
        rw [List.getLast?_eq_none_iff.mp hnil] at hv
        refine ⟨s, List.mem_append_left _ ?_, hsc⟩
        rwa [if_pos (nullable_of_matches_nil hv)]
    · rcases pair_infix_append hab with hab | hab | hab
      · obtain ⟨st, hst, h⟩ := ihu.pair a b hab
        exact ⟨st, List.mem_append_left _ (List.mem_append_left _ hst), h⟩
      · obtain ⟨st, hst, h⟩ := ihv.pair a b hab
        exact ⟨st, List.mem_append_left _ (List.mem_append_right _ hst), h⟩
      · obtain ⟨st, hst, h⟩ := ihu.border ihv hab
        exact ⟨st, List.mem_append_right _ hst, h⟩
  | @left p q u _ ih =>
    refine ⟨fun c hc => ?_, fun c hc => ?_, fun a b hab => ?_⟩
    · obtain ⟨s, hs, h⟩ := ih.head c hc
      exact ⟨s, List.mem_append_left _ hs, h⟩
    · obtain ⟨s, hs, h⟩ := ih.last c hc
      exact ⟨s, List.mem_append_left _ hs, h⟩
    · obtain ⟨s, hs, h⟩ := ih.pair a b hab
      exact ⟨s, List.mem_append_left _ hs, h⟩
  | @right p q u _ ih =>
    refine ⟨fun c hc => ?_, fun c hc => ?_, fun a b hab => ?_⟩
    · obtain ⟨s, hs, h⟩ := ih.head c hc
      exact ⟨s, List.mem_append_right _ hs, h⟩
    · obtain ⟨s, hs, h⟩ := ih.last c hc
      exact ⟨s, List.mem_append_right _ hs, h⟩
    · obtain ⟨s, hs, h⟩ := ih.pair a b hab
      exact ⟨s, List.mem_append_right _ hs, h⟩
  | done => exact ⟨nofun, nofun, by simp⟩
  | @more p u v _ _ ihu ihv =>
    refine ⟨fun c hc => ?_, fun c hc => ?_, fun a b hab => ?_⟩
    · rw [List.head?_append] at hc
      rcases Option.or_eq_some_iff.mp hc with hc | ⟨-, hc⟩
      · exact ihu.head c hc
      · exact ihv.head c hc
    · rw [List.getLast?_append] at hc
      rcases Option.or_eq_some_iff.mp hc with hc | ⟨-, hc⟩
      · exact ihv.last c hc
      · exact ihu.last c hc
    · rcases pair_infix_append hab with hab | hab | hab
      · obtain ⟨st, hst, h⟩ := ihu.pair a b hab
        exact ⟨st, List.mem_append_left _ hst, h⟩
      · exact ihv.pair a b hab
      · obtain ⟨st, hst, h⟩ := ihu.border ihv hab
        exact ⟨st, List.mem_append_right _ hst, h⟩

end Pattern
end ResourceNames.Text

namespace ResourceNames.Java.Lexicon

open Text Text.Pattern

/-! ### Numbers with a zero behind them -/

def marks : List Char := "lLfFdD".toList

/-- A word ends in one of the letters that can end a number. -/
def Marked (w : List Char) : Prop := ∃ c ∈ marks, w.getLast? = some c

/-- A word of a pattern stays one with a zero behind it, unless it is marked. -/
def Grows (p : Pattern) : Prop := ∀ w, Matches p w → Marked w ∨ Matches p (w ++ ['0'])

/-- The same of the words that are not empty. -/
def Trails (p : Pattern) : Prop := ∀ w, Matches p w → w = [] ∨ Marked w ∨ Matches p (w ++ ['0'])

variable {p q : Pattern} {s t : CharSet} {u v w : List Char} {c : Char} {k : Kind}

private theorem Marked.append (h : Marked v) (u : List Char) : Marked (u ++ v) := by
  obtain ⟨c, hc, hv⟩ := h
  exact ⟨c, hc, by rw [List.getLast?_append, hv, Option.some_or]⟩

private theorem grows_one (h : ∀ c, s.contains c = true → c ∈ marks) : Grows (.one s) := by
  intro w hw
  obtain ⟨c, hc, rfl⟩ := matches_one_iff.mp hw
  exact .inl ⟨c, h c hc, rfl⟩

private theorem trails_seq (hp : Trails p) (hq : Trails q) : Trails (.seq p q) := by
  intro w hw
  obtain ⟨u, v, hu, hv, rfl⟩ := matches_seq_iff.mp hw
  rcases hq v hv with rfl | hmark | hgrown
  · rw [List.append_nil]
    rcases hp u hu with rfl | hmark | hgrown
    · exact .inl rfl
    · exact .inr (.inl hmark)
    · exact .inr (.inr (by simpa using Matches.seq hgrown hv))
  · exact .inr (.inl (hmark.append u))
  · exact .inr (.inr (List.append_assoc u v _ ▸ .seq hu hgrown))

private theorem trails_opt (hp : Grows p) : Trails (opt p) := by
  intro w hw
  rcases matches_alt_iff.mp hw with hw | hw
  · exact .inr ((hp w hw).imp_right .left)
  · exact .inl (matches_empty_iff.mp hw)

private theorem trails_empty : Trails .empty := fun _ hw => .inl (matches_empty_iff.mp hw)

private theorem grows_seq (hq : Grows q) : Grows (.seq p q) := by
  intro w hw
  obtain ⟨u, v, hu, hv, rfl⟩ := matches_seq_iff.mp hw
  rcases hq v hv with hmark | hgrown
  · exact .inl (hmark.append u)
  · exact .inr (List.append_assoc u v _ ▸ .seq hu hgrown)

private theorem grows_seq_trails (hp : Grows p) (hq : Trails q) : Grows (.seq p q) := by
  intro w hw
  obtain ⟨u, v, hu, hv, rfl⟩ := matches_seq_iff.mp hw
  rcases hq v hv with rfl | hmark | hgrown
  · rw [List.append_nil]
    refine (hp u hu).imp_right fun hgrown => ?_
    simpa using Matches.seq hgrown hv
  · exact .inl (hmark.append u)
  · exact .inr (List.append_assoc u v _ ▸ .seq hu hgrown)

private theorem grows_alt (hp : Grows p) (hq : Grows q) : Grows (.alt p q) := by
  intro w hw
  rcases matches_alt_iff.mp hw with hw | hw
  · exact (hp w hw).imp_right .left
  · exact (hq w hw).imp_right .right

private theorem grows_opt (hp : Grows p) (hzero : Matches p ['0']) : Grows (opt p) := by
  intro w hw
  rcases matches_alt_iff.mp hw with hw | hw
  · exact (hp w hw).imp_right .left
  · rw [matches_empty_iff.mp hw]
    exact .inr (.left hzero)

/-- More digits, with lines between them, before the last one. -/
private theorem grows_more (hst : ∀ c, s.contains c = true → t.contains c = true)
    (hzero : s.contains '0' = true) : Grows (opt (.seq (.star (.one t)) (.one s))) := by
  intro w hw
  right
  rcases matches_alt_iff.mp hw with hw | hw
  · obtain ⟨u, v, hu, hv, rfl⟩ := matches_seq_iff.mp hw
    obtain ⟨c, hc, rfl⟩ := matches_one_iff.mp hv
    refine .left (.seq (matches_star_one_iff.mpr ?_) (.one hzero))
    intro d hd
    rcases List.mem_append.mp hd with hd | hd
    · exact matches_star_one_iff.mp hu d hd
    · rw [List.mem_singleton.mp hd]
      exact hst c hc
  · rw [matches_empty_iff.mp hw]
    exact .left (.seq .done (.one hzero))

private theorem contains_of_subset {rs rs' : List (Char × Char)} (h : rs ⊆ rs') (c : Char)
    (hc : CharSet.contains ⟨false, rs⟩ c = true) : CharSet.contains ⟨false, rs'⟩ c = true := by
  rw [CharSet.contains, Bool.false_xor, List.any_eq_true] at hc ⊢
  obtain ⟨r, hr, hin⟩ := hc
  exact ⟨r, h hr, hin⟩

private theorem grows_digits : Grows digits :=
  grows_seq (grows_more (contains_of_subset (by decide)) (by decide))

private theorem grows_exponent : Grows exponent :=
  grows_seq (grows_seq (grows_seq_trails grows_digits trails_empty))

private theorem trails_longMark : Trails longMark :=
  trails_opt (grows_one fun c hc => by
    rw [CharSet.contains_of_iff] at hc
    revert c
    decide)

private theorem grows_floatMark : Grows (oneOf "fFdD") :=
  grows_one fun c hc => by
    rw [CharSet.contains_of_iff] at hc
    revert c
    decide

private theorem trails_floatMark : Trails floatMark := trails_opt grows_floatMark

private theorem grows_hexLiteral : Grows (pattern .hexLiteral) :=
  grows_seq (grows_seq (grows_seq (grows_seq_trails
    (grows_more (contains_of_subset (by decide)) (by decide)) (trails_seq trails_longMark trails_empty))))

private theorem grows_octLiteral : Grows (pattern .octLiteral) :=
  grows_seq (grows_seq (grows_seq (grows_seq_trails
    (grows_more (contains_of_subset (by decide)) (by decide)) (trails_seq trails_longMark trails_empty))))

private theorem grows_binaryLiteral : Grows (pattern .binaryLiteral) :=
  grows_seq (grows_seq (grows_seq (grows_seq_trails
    (grows_more (contains_of_subset (by decide)) (by decide)) (trails_seq trails_longMark trails_empty))))

private theorem matches_digits_zero : Matches digits ['0'] := .seq (.one (by decide)) (.right .empty)

private theorem grows_floatLiteral : Grows (pattern .floatLiteral) :=
  grows_alt
    (grows_seq_trails
      (grows_alt
        (grows_seq (grows_seq (grows_seq_trails (grows_opt grows_digits matches_digits_zero) trails_empty)))
        (grows_seq grows_digits))
      (trails_seq (trails_opt grows_exponent) (trails_seq trails_floatMark trails_empty)))
    (grows_seq (grows_alt (grows_seq_trails grows_exponent trails_floatMark) grows_floatMark))

private theorem grows_hexFloatLiteral : Grows (pattern .hexFloatLiteral) :=
  grows_seq (grows_seq (grows_seq (grows_seq (grows_seq
    (grows_seq_trails grows_digits (trails_seq trails_floatMark trails_empty))))))

variable {a b : Char}

/-! ### The shapes of words -/

def isLetter (c : Char) : Bool := c.isAlpha || c == '$' || c == '_' || 128 ≤ c.toNat

def isNamePart (c : Char) : Bool := isLetter c || c.isDigit

structure IsName (w : List Char) : Prop where
  head : ∃ c, w.head? = some c ∧ isLetter c = true
  parts : ∀ c ∈ w, isNamePart c = true

theorem IsName.of_append (h : IsName (u ++ v)) (hu : u ≠ []) : IsName u where
  head := by
    obtain ⟨c, hc, hletter⟩ := h.head
    obtain ⟨d, u, rfl⟩ := List.exists_cons_of_ne_nil hu
    exact ⟨c, hc, hletter⟩
  parts c hc := h.parts c (List.mem_append_left v hc)

theorem IsName.append (hu : IsName u) (hv : ∀ c ∈ v, isNamePart c = true) : IsName (u ++ v) where
  head := by
    obtain ⟨c, hc, hletter⟩ := hu.head
    exact ⟨c, by rw [List.head?_append, hc, Option.some_or], hletter⟩
  parts c hc := (List.mem_append.mp hc).elim (hu.parts c) (hv c)

/-- A property of single characters is one of the characters of the words in a row. -/
private theorem matches_star_iff {f : Char → Bool} (hp : ∀ w, Matches p w ↔ ∃ c, f c = true ∧ w = [c]) :
    Matches (.star p) w ↔ ∀ c ∈ w, f c = true := by
  constructor
  · intro h
    generalize hr : Pattern.star p = r at h
    induction h with
    | empty | one | seq | left | right => cases hr
    | done => simp
    | more hu _ _ ih =>
      cases hr
      obtain ⟨c, hc, rfl⟩ := (hp _).mp hu
      simpa [hc] using ih rfl
  · intro h
    induction w with
    | nil => exact .done
    | cons c w ih =>
      rw [List.forall_mem_cons] at h
      exact .more (u := [c]) ((hp [c]).mpr ⟨c, h.1, rfl⟩) (ih h.2)

private theorem isLetter_beyond (hc : 128 ≤ c.toNat) : isLetter c = true := by
  simp [isLetter, hc]

private theorem contains_letters (c : Char) :
    (CharSet.contains ⟨false, [('a', 'z'), ('A', 'Z'), ('$', '$'), ('_', '_')]⟩ c ||
      CharSet.contains ⟨true, [('\x00', '\x7f')]⟩ c) = isLetter c := by
  rcases Nat.lt_or_ge c.toNat 128 with hc | hc
  · exact forall_ascii (p := fun c => (CharSet.contains ⟨false, [('a', 'z'), ('A', 'Z'), ('$', '$'), ('_', '_')]⟩ c ||
      CharSet.contains ⟨true, [('\x00', '\x7f')]⟩ c) = isLetter c) (by decide) hc
  · rw [CharSet.contains_beyond (by decide) hc, CharSet.contains_beyond (by decide) hc, isLetter_beyond hc]
    rfl

private theorem matches_letter_iff : Matches letter w ↔ ∃ c, isLetter c = true ∧ w = [c] := by
  rw [letter, matches_alt_iff, Pattern.ranges, beyondAscii, matches_one_iff, matches_one_iff, ← exists_or]
  simp only [← or_and_right, ← Bool.or_eq_true, contains_letters]

private theorem contains_digits (c : Char) : CharSet.contains ⟨false, [('0', '9')]⟩ c = c.isDigit := by
  simp [CharSet.contains, Char.isDigit, Char.le_def]

private theorem matches_letterOrDigit_iff :
    Matches letterOrDigit w ↔ ∃ c, isNamePart c = true ∧ w = [c] := by
  rw [letterOrDigit, matches_alt_iff, matches_letter_iff, range, matches_one_iff, ← exists_or]
  simp only [← or_and_right, ← Bool.or_eq_true, contains_digits, isNamePart]

theorem hasWord_identifier_iff : HasWord .identifier w ↔ IsName w := by
  have hword : HasWord .identifier w ↔ Matches (.seq letter (.star letterOrDigit)) w := Iff.rfl
  rw [hword, matches_seq_iff]
  constructor
  · rintro ⟨_, v, hu, hv, rfl⟩
    obtain ⟨c, hc, rfl⟩ := matches_letter_iff.mp hu
    refine ⟨⟨c, rfl, hc⟩, ?_⟩
    intro d hd
    rcases List.mem_cons.mp hd with rfl | hd
    · rw [isNamePart, hc, Bool.true_or]
    · exact (matches_star_iff fun _ => matches_letterOrDigit_iff).mp hv d hd
  · rintro ⟨⟨c, hc, hletter⟩, hparts⟩
    cases w with
    | nil => cases hc
    | cons d w =>
      obtain rfl : d = c := Option.some.inj hc
      rw [List.forall_mem_cons] at hparts
      exact ⟨[d], w, matches_letter_iff.mpr ⟨d, hletter, rfl⟩,
        (matches_star_iff fun _ => matches_letterOrDigit_iff).mpr hparts.2, rfl⟩

def symbols : List Char := "(){}[];,.=<>!~?:&|+-*/^%@ \t\r\n\x0c".toList

def numbers : List Kind :=
  [.decimalLiteral, .hexLiteral, .octLiteral, .binaryLiteral, .floatLiteral, .hexFloatLiteral]

/-- Whether a text between quotes leaves them closed: a quote stands only behind a backslash, which
is undone by no other one. -/
def staysInside (quote : Char) : List Char → Bool
  | [] => true
  | [c] => c != '\\' && c != quote
  | c :: d :: cs =>
    if c = '\\' then staysInside quote cs else c != quote && staysInside quote (d :: cs)

def IsQuoted (quote : Char) (w : List Char) : Prop :=
  ∃ u, w = quote :: (u ++ [quote]) ∧ staysInside quote u = true

/-- What a word of a kind looks like. -/
inductive WordShape (k : Kind) (w : List Char) : Prop where
  | name (h : IsName w)
  | symbol (h : ∀ c ∈ w, c ∈ symbols) (hdot : '.' ∈ w → w = ['.'] ∨ w = ['.', '.', '.'])
  | number (hk : k ∈ numbers) (h : Matches (pattern k) w)
  | quoted (quote : Char) (hquote : quote ∈ ['"', '\'']) (h : IsQuoted quote w)
  | comment (u : List Char) (hk : k = .comment) (h : w = ['/', '*'] ++ u ++ ['*', '/'])
      (hu : ¬ Closes (u ++ ['*']))
  | line (u : List Char) (h : w = ['/', '/'] ++ u) (hu : ∀ c ∈ u, c ∉ ['\r', '\n'])

theorem staysInside_append {quote : Char} (hu : staysInside quote u = true) (v : List Char) :
    staysInside quote (u ++ v) = staysInside quote v := by
  fun_induction staysInside quote u with
  | case1 => rfl
  | case2 c =>
    rw [Bool.and_eq_true, bne_iff_ne, bne_iff_ne] at hu
    cases v with
    | nil => simp [staysInside, hu]
    | cons d v => simp [staysInside, hu]
  | case3 d cs ih =>
    rw [List.cons_append, List.cons_append, staysInside, if_pos rfl]
    exact ih hu
  | case4 c d cs hc ih =>
    rw [Bool.and_eq_true] at hu
    rw [List.cons_append, List.cons_append, staysInside, if_neg hc, hu.1, Bool.true_and]
    exact ih hu.2

private theorem staysInside_of_forall {quote : Char} (h : ∀ c ∈ w, c ≠ '\\' ∧ c ≠ quote) :
    staysInside quote w = true := by
  induction w with
  | nil => rfl
  | cons c w ih =>
    rw [List.forall_mem_cons] at h
    rw [← List.singleton_append, staysInside_append (by simp [staysInside, h.1]), ih h.2]

/-- A text in quotes ends with the quote that closes it. -/
theorem IsQuoted.not_append {quote : Char} (hq : quote ≠ '\\') (h : IsQuoted quote w) (hv : v ≠ []) :
    ¬ IsQuoted quote (w ++ v) := by
  rintro ⟨u', heq, hin'⟩
  obtain ⟨u, rfl, hin⟩ := h
  have hbody : u ++ quote :: v = u' ++ [quote] := by simpa using heq
  obtain ⟨x, c, rfl⟩ : ∃ x c, v = x ++ [c] := ⟨_, _, (List.dropLast_concat_getLast hv).symm⟩
  have hu' : u ++ quote :: x = u' := by
    have hdrop := congrArg List.dropLast hbody
    rw [← List.cons_append, ← List.append_assoc, List.dropLast_concat, List.dropLast_concat] at hdrop
    exact hdrop
  rw [← hu', staysInside_append hin] at hin'
  cases x with
  | nil => simp [staysInside] at hin'
  | cons d x => simp [staysInside, hq] at hin'

/-- A character behind the first one has a neighbour before it. -/
private theorem exists_pair_of_mem_tail (h : c ∈ w.tail) : ∃ a, [a, c] <:+: w := by
  obtain ⟨u, v, huv⟩ := List.append_of_mem h
  cases w with
  | nil => cases h
  | cons b w =>
    obtain rfl : w = u ++ c :: v := huv
    obtain ⟨x, a, hx⟩ : ∃ x a, b :: u = x ++ [a] :=
      ⟨_, _, (List.dropLast_concat_getLast (List.cons_ne_nil b u)).symm⟩
    refine ⟨a, x, v, ?_⟩
    rw [← List.cons_append, hx]
    simp

private theorem not_contains_beyond {cs : List Char} (h : cs.all (fun d => d.toNat < 128) = true)
    (hc : 128 ≤ c.toNat) : cs.contains c = false := by
  rw [← Bool.not_eq_true, List.contains_iff_mem]
  intro hmem
  have := List.all_eq_true.mp h c hmem
  simp at this
  omega

theorem uniform_contains {cs : List Char} (h : cs.all (fun d => d.toNat < 128) = true) :
    Uniform cs.contains := fun c hc => by
  rw [not_contains_beyond h hc, not_contains_beyond h (by decide)]

private theorem uniform_isLetter : Uniform isLetter := fun c hc => by
  rw [isLetter_beyond hc, isLetter_beyond (by decide)]

private theorem uniform_partOrPoint : Uniform fun c => isNamePart c || c == '.' := fun c hc => by
  simp only [isNamePart, isLetter_beyond hc, isLetter_beyond (c := Char.ofNat 128) (by decide), Bool.true_or]

private theorem pairs_escape : ∀ st ∈ Pattern.pairs (.alt (oneOf "btnfr\"'\\") (.alt
    (.seq (opt (.seq (opt (range '0' '3')) (range '0' '7'))) (range '0' '7'))
    (all [plus (oneOf "u"), hexDigit, hexDigit, hexDigit, hexDigit]))),
    st.2.within (fun c => !(['\\', '"', '\''].contains c)) = true := by
  decide +kernel

private theorem staysInside_escape {quote : Char} (hquote : quote ∈ ['"', '\''])
    (h : Matches escape w) : staysInside quote w = true := by
  obtain ⟨_, v, hu, hv, rfl⟩ := matches_seq_iff.mp h
  obtain ⟨c, hc, rfl⟩ := matches_one_iff.mp hu
  obtain rfl : c = '\\' := by simpa using CharSet.contains_of_iff.mp hc
  cases v with
  | nil => exact absurd (nullable_of_matches_nil hv) (by decide)
  | cons d v =>
    rw [List.singleton_append, staysInside, if_pos rfl]
    apply staysInside_of_forall
    intro e he
    obtain ⟨a, ha⟩ := exists_pair_of_mem_tail (w := d :: v) he
    obtain ⟨st, hst, -, hin⟩ := (fits_of_matches hv).pair a e ha
    have hnone := CharSet.of_within (pairs_escape st hst) (uniform_contains (by decide)).not hin
    simp at hnone hquote
    rcases hquote with rfl | rfl
    · exact ⟨hnone.1, hnone.2.1⟩
    · exact ⟨hnone.1, hnone.2.2⟩

private theorem staysInside_part {quote : Char} {chars : String} (hquote : quote ∈ ['"', '\''])
    (hchars : quote ∈ chars.toList ∧ '\\' ∈ chars.toList)
    (h : Matches (.alt (noneOf chars) escape) w) : staysInside quote w = true := by
  rcases matches_alt_iff.mp h with h | h
  · obtain ⟨c, hc, rfl⟩ := matches_one_iff.mp h
    rw [CharSet.contains_but_iff] at hc
    apply staysInside_of_forall
    rintro d hd
    rw [List.mem_singleton.mp hd]
    exact ⟨fun h => hc (h ▸ hchars.2), fun h => hc (h ▸ hchars.1)⟩
  · exact staysInside_escape hquote h

private theorem staysInside_star {quote : Char} (hp : ∀ w, Matches p w → staysInside quote w = true)
    (h : Matches (.star p) w) : staysInside quote w = true := by
  generalize hr : Pattern.star p = r at h
  induction h with
  | empty | one | seq | left | right => cases hr
  | done => rfl
  | more hu _ _ ih =>
    cases hr
    rw [staysInside_append (hp _ hu), ih rfl]

private theorem isQuoted_of_all {quote : Char} {chars : String} (hchars : chars.toList = [quote])
    (hp : ∀ w, Matches p w → staysInside quote w = true)
    (h : Matches (all [oneOf chars, p, oneOf chars]) w) : IsQuoted quote w := by
  obtain ⟨_, _, hu, hrest, rfl⟩ := matches_seq_iff.mp h
  obtain ⟨u, _, hbody, hclose, rfl⟩ := matches_seq_iff.mp hrest
  obtain ⟨_, _, hv, hend, rfl⟩ := matches_seq_iff.mp hclose
  obtain ⟨c, hc, rfl⟩ := matches_one_iff.mp hu
  obtain ⟨d, hd, rfl⟩ := matches_one_iff.mp hv
  rw [CharSet.contains_of_iff, hchars, List.mem_singleton] at hc hd
  rw [matches_empty_iff.mp hend, hc, hd]
  exact ⟨u, by simp, hp u hbody⟩

/-- A spelling is a name or has only symbols. -/
private theorem shape_of_spelling (k : Kind) : (k.spelling?.all fun s =>
    (s.toList.head?.any isLetter && s.toList.all isNamePart) || (s.toList.all symbols.contains &&
      (!s.toList.contains '.' || s.toList == ['.'] || s.toList == ['.', '.', '.']))) = true := by
  cases k <;> decide +kernel

private theorem form_of_bool (h : Matches (.alt (word "true") (word "false")) w) : IsName w := by
  rcases matches_alt_iff.mp h with h | h
  · rw [eq_of_matches_word h]
    exact ⟨⟨'t', rfl, by decide⟩, by decide⟩
  · rw [eq_of_matches_word h]
    exact ⟨⟨'f', rfl, by decide⟩, by decide⟩

private theorem mem_of_matches_plus {chars : String} (h : Matches (plus (oneOf chars)) w) :
    ∀ c ∈ w, c ∈ chars.toList := by
  obtain ⟨_, v, hu, hv, rfl⟩ := matches_seq_iff.mp h
  obtain ⟨c, hc, rfl⟩ := matches_one_iff.mp hu
  intro d hd
  apply CharSet.contains_of_iff.mp
  rcases List.mem_cons.mp hd with rfl | hd
  · exact hc
  · exact matches_star_one_iff.mp hv d hd

private theorem form_of_line (h : Matches (.seq (word "//") (.star (noneOf "\r\n"))) w) :
    ∃ u, w = ['/', '/'] ++ u ∧ ∀ c ∈ u, c ∉ ['\r', '\n'] := by
  obtain ⟨u, v, hu, hv, rfl⟩ := matches_seq_iff.mp h
  rw [eq_of_matches_word hu]
  exact ⟨v, rfl, fun c hc => CharSet.contains_but_iff.mp (matches_star_one_iff.mp hv c hc)⟩

/-- Every word has the shape of its kind. -/
theorem HasWord.shape (h : HasWord k w) : WordShape k w := by
  obtain ⟨heof, hw⟩ := hasWord_iff.mp h
  cases hs : k.spelling? with
  | some s =>
    rw [pattern, hs] at hw
    rw [eq_of_matches_word hw]
    have hspelling := shape_of_spelling k
    rw [hs, Option.all_some, Bool.or_eq_true, Bool.and_eq_true, Bool.and_eq_true] at hspelling
    rcases hspelling with ⟨hhead, hparts⟩ | ⟨hall, hdot⟩
    · obtain ⟨c, hc, hletter⟩ := (Option.any_eq_true _ _).mp hhead
      exact .name ⟨⟨c, hc, hletter⟩, List.all_eq_true.mp hparts⟩
    · refine .symbol (fun c hc => List.contains_iff_mem.mp (List.all_eq_true.mp hall c hc)) fun hin => ?_
      simpa [hin] using hdot
  | none =>
    cases k with
    | boolLiteral => exact .name (form_of_bool hw)
    | charLiteral =>
      refine .quoted '\'' (by decide) (isQuoted_of_all rfl (fun _ hp => ?_) hw)
      exact staysInside_part (by decide) (by decide) hp
    | stringLiteral =>
      refine .quoted '"' (by decide) (isQuoted_of_all rfl (fun _ hp => staysInside_star ?_ hp) hw)
      exact fun _ hp => staysInside_part (by decide) (by decide) hp
    | ws =>
      have hblank := mem_of_matches_plus hw
      refine .symbol (fun c hc => ?_) fun hdot => absurd (hblank '.' hdot) (by decide)
      exact (by decide : ∀ c ∈ " \t\r\n\x0c".toList, c ∈ symbols) c (hblank c hc)
    | comment =>
      obtain ⟨u, hu, hclosed⟩ := matches_starComment_iff.mp hw
      exact .comment u rfl hu hclosed
    | lineComment =>
      obtain ⟨u, hu, hline⟩ := form_of_line hw
      exact .line u hu hline
    | identifier => exact .name (hasWord_identifier_iff.mp h)
    | eof => exact absurd rfl heof
    | _ => first | exact .number (by decide) hw | cases hs

/-! ### What stands before a zero -/

private theorem hasWord_of_pattern (hk : k ∈ numbers) (h : Matches (pattern k) w) : HasWord k w := by
  refine hasWord_iff.mpr ⟨?_, h⟩
  rintro rfl
  exact absurd hk (by decide)

private theorem grows_decimal :
    Grows (.seq (.seq (range '1' '9') (.alt (opt digits) (.seq (plus (oneOf "_")) digits))) longMark) :=
  grows_seq_trails
    (grows_seq (grows_alt (grows_opt grows_digits matches_digits_zero) (grows_seq grows_digits)))
    trails_longMark

private theorem matches_double_zero : Matches (pattern .octLiteral) ['0', '0'] :=
  .seq (u := ['0']) (.one (by decide)) (.seq .done (.seq (u := ['0']) (.one (by decide))
    (.seq (.right .empty) (.seq (.right .empty) .empty))))

private theorem matches_point_zero : Matches (pattern .floatLiteral) ['.', '0'] :=
  .left (.seq (u := ['.', '0']) (.right (.seq (u := ['.']) (.one (by decide)) matches_digits_zero))
    (.seq (.right .empty) (.seq (.right .empty) .empty)))

/-- A number stays a word with a zero behind it, unless it is marked. -/
private theorem number_grows (hk : k ∈ numbers) (h : Matches (pattern k) w) :
    Marked w ∨ ∃ j, HasWord j (w ++ ['0']) := by
  have of_grows (hp : Grows (pattern k)) : Marked w ∨ ∃ j, HasWord j (w ++ ['0']) :=
    (hp w h).imp_right fun hw => ⟨k, hasWord_of_pattern hk hw⟩
  simp only [numbers, List.mem_cons, List.not_mem_nil, or_false] at hk
  rcases hk with rfl | rfl | rfl | rfl | rfl | rfl
  · obtain ⟨u, v, hu, hv, rfl⟩ := matches_seq_iff.mp h
    rcases matches_alt_iff.mp hu with hzero | hdigit
    · obtain ⟨c, hc, rfl⟩ := matches_one_iff.mp hzero
      obtain rfl : c = '0' := by simpa using CharSet.contains_of_iff.mp hc
      rcases trails_longMark v hv with rfl | hmark | hgrown
      · exact .inr ⟨.octLiteral, matches_double_zero⟩
      · exact .inl (hmark.append _)
      · exact .inr ⟨.decimalLiteral, List.append_assoc _ v _ ▸ .seq hu hgrown⟩
    · refine (grows_decimal _ (.seq hdigit hv)).imp_right fun hgrown => ⟨.decimalLiteral, ?_⟩
      obtain ⟨x, y, hx, hy, heq⟩ := matches_seq_iff.mp hgrown
      exact heq ▸ .seq (.right hx) hy
  · exact of_grows grows_hexLiteral
  · exact of_grows grows_octLiteral
  · exact of_grows grows_binaryLiteral
  · exact of_grows grows_floatLiteral
  · exact of_grows grows_hexFloatLiteral

theorem hasWord_line (hu : ∀ c ∈ u, c ∉ ['\r', '\n']) : HasWord .lineComment (['/', '/'] ++ u) :=
  .seq (.seq (u := ['/']) (.one (by decide)) (.seq (u := ['/']) (.one (by decide)) .empty))
    (matches_star_one_iff.mpr fun c hc => CharSet.contains_but_iff.mpr (hu c hc))

private theorem ends_in (cs : List Char) (hcs : ∀ c ∈ cs, isNamePart c = false ∧ c ≠ '.') (hc : c ∈ cs) :
    (isNamePart c = true → c ∈ marks) ∧ (c = '.' → w = ['.', '.', '.']) := by
  obtain ⟨hpart, hdot⟩ := hcs c hc
  exact ⟨fun h => absurd (hpart.symm.trans h) (by decide), fun h => absurd h hdot⟩

/-- The end of a word that is none with a zero behind it. -/
theorem HasWord.last_of_not_grown (h : HasWord k w) (hzero : ∀ j, ¬ HasWord j (w ++ ['0']))
    (hc : w.getLast? = some c) :
    (isNamePart c = true → c ∈ marks) ∧ (c = '.' → w = ['.', '.', '.']) := by
  have hmem : c ∈ w := List.mem_of_getLast? hc
  cases h.shape with
  | name hname =>
    refine absurd (hasWord_identifier_iff.mpr (hname.append ?_)) (hzero .identifier)
    decide
  | symbol hall hdot =>
    have hsymbol := (by decide : ∀ c ∈ symbols, isNamePart c = false) c (hall c hmem)
    refine ⟨fun hpart => ?_, ?_⟩
    · rw [hsymbol] at hpart
      cases hpart
    · rintro rfl
      rcases hdot hmem with rfl | rfl
      · exact absurd matches_point_zero (hzero .floatLiteral)
      · rfl
  | number hk hw =>
    rcases number_grows hk hw with ⟨d, hd, hlast⟩ | ⟨j, hj⟩
    · obtain rfl : d = c := Option.some.inj (hlast.symm.trans hc)
      refine ⟨fun _ => hd, ?_⟩
      rintro rfl
      exact absurd hd (by decide)
    · exact absurd hj (hzero j)
  | quoted quote hquote hq =>
    obtain ⟨u, rfl, -⟩ := hq
    rw [← List.cons_append, List.getLast?_concat] at hc
    obtain rfl : quote = c := Option.some.inj hc
    exact ends_in _ (by decide) hquote
  | comment u hk hw hu =>
    rw [hw, List.getLast?_append] at hc
    obtain rfl : '/' = c := Option.some.inj hc
    exact ends_in ['/'] (by decide) (by decide)
  | line u hw hu =>
    refine absurd ?_ (hzero .lineComment)
    rw [hw, List.append_assoc]
    exact hasWord_line fun c hc => (List.mem_append.mp hc).elim (hu c) fun h => by
      rw [List.mem_singleton.mp h]
      decide

/-! ### Words that reach across a place -/

private theorem starts_number : ∀ k ∈ numbers,
    (∀ s ∈ (pattern k).starts, s.within "0123456789.".toList.contains = true) ∧
      ∀ p ∈ (pattern k).after '.', ∀ s ∈ p.starts, s.within (fun c => !isLetter c) = true := by
  decide +kernel

private theorem pairs_number : ∀ k ∈ numbers, k ≠ .hexFloatLiteral → ∀ st ∈ (pattern k).pairs,
    (st.2.within (fun c => !isLetter c) = true ∨
      (st.1.within (fun c => isNamePart c || c == '.') = true ∧
        (k = .hexLiteral ∨ st.1.within (fun c => !marks.contains c) = true))) ∧
    ¬ (st.1.contains '.' = true ∧ st.2.contains '.' = true) := by
  decide +kernel

private theorem isLetter_symbols : ∀ c ∈ symbols, isLetter c = false := by
  decide

/-- The first character of a number is a digit or a point. -/
private theorem head_number (hk : k ∈ numbers) (h : Matches (pattern k) w) (hc : w.head? = some c) :
    c ∈ "0123456789.".toList := by
  obtain ⟨s, hs, hin⟩ := (fits_of_matches h).head c hc
  have hwithin := CharSet.of_within ((starts_number k hk).1 s hs) (uniform_contains (by decide)) hin
  exact List.contains_iff_mem.mp hwithin

/-- A word that begins with a letter is a name. -/
theorem HasWord.isName (h : HasWord k w) (hc : w.head? = some c) (hletter : isLetter c = true) :
    IsName w := by
  have hmem := List.mem_of_head? hc
  have hother (cs : List Char) (hcs : ∀ c ∈ cs, isLetter c = false) (hin : c ∈ cs) : IsName w := by
    rw [hcs c hin] at hletter
    cases hletter
  cases h.shape with
  | name h => exact h
  | symbol h => exact hother _ isLetter_symbols (h c hmem)
  | number hk h => exact hother _ (by decide) (head_number hk h hc)
  | quoted quote hquote h =>
    obtain ⟨u, rfl, -⟩ := h
    exact hother ['"', '\''] (by decide) (Option.some.inj hc ▸ hquote)
  | comment u _ h | line u h =>
    subst h
    exact hother ['/'] (by decide) (Option.some.inj hc ▸ List.mem_singleton_self _)

/-- A letter stands behind a point that begins a word in no word. -/
theorem HasWord.not_isLetter_of_point (h : HasWord k ('.' :: c :: w)) : isLetter c = false := by
  cases h.shape with
  | name h =>
    obtain ⟨d, hd, hletter⟩ := h.head
    obtain rfl : '.' = d := Option.some.inj hd
    exact absurd hletter (by decide)
  | symbol h => exact isLetter_symbols c (h c (by simp))
  | number hk h =>
    obtain ⟨p, hp, hm⟩ := exists_after_of_matches h
    obtain ⟨s, hs, hin⟩ := (fits_of_matches hm).head c rfl
    simpa using CharSet.of_within ((starts_number k hk).2 p hp s hs) uniform_isLetter.not hin
  | quoted quote hquote h =>
    obtain ⟨u, heq, -⟩ := h
    exact absurd ((List.cons.inj heq).1 ▸ hquote) (by decide)
  | comment u _ h | line u h => exact absurd (List.cons.inj h).1 (by decide)

/-- A word that begins with a quote is a text in quotes. -/
theorem HasWord.isQuoted {quote : Char} (h : HasWord k w) (hquote : quote ∈ ['"', '\''])
    (hc : w.head? = some quote) : IsQuoted quote w := by
  have hmem := List.mem_of_head? hc
  cases h.shape with
  | name h => exact absurd (h.parts quote hmem) ((by decide : ∀ c ∈ ['"', '\''], ¬ isNamePart c = true) _ hquote)
  | symbol h => exact absurd (h quote hmem) ((by decide : ∀ c ∈ ['"', '\''], c ∉ symbols) _ hquote)
  | number hk h =>
    exact absurd (head_number hk h hc) ((by decide : ∀ c ∈ ['"', '\''], c ∉ "0123456789.".toList) _ hquote)
  | quoted quote' _ h =>
    obtain ⟨u, rfl, hu⟩ := h
    obtain rfl : quote' = quote := Option.some.inj hc
    exact ⟨u, rfl, hu⟩
  | comment u _ h | line u h =>
    subst h
    obtain rfl : '/' = quote := Option.some.inj hc
    exact absurd hquote (by decide)

/-- In a number a letter stands behind a letter, a digit or a point, and behind a mark only if the number is in
base sixteen. -/
theorem before_letter_of_number (hk : k ∈ numbers) (hfloat : k ≠ .hexFloatLiteral)
    (h : Matches (pattern k) w) (hab : [a, b] <:+: w) (hletter : isLetter b = true) :
    (isNamePart a = true ∨ a = '.') ∧ (a ∈ marks → k = .hexLiteral) := by
  obtain ⟨st, hst, ha, hb⟩ := (fits_of_matches h).pair a b hab
  rcases (pairs_number k hk hfloat st hst).1 with hno | ⟨hparts, hhex⟩
  · have := CharSet.of_within hno uniform_isLetter.not hb
    simp [hletter] at this
  · refine ⟨by simpa using CharSet.of_within hparts uniform_partOrPoint ha, fun hmark => ?_⟩
    refine hhex.resolve_right fun hno => ?_
    have := CharSet.of_within hno (uniform_contains (by decide)).not ha
    simp [hmark] at this

/-- A number has no two points side by side. -/
theorem not_points_of_number (hk : k ∈ numbers) (hfloat : k ≠ .hexFloatLiteral)
    (h : Matches (pattern k) w) : ¬ ['.', '.'] <:+: w := by
  intro hab
  obtain ⟨st, hst, ha, hb⟩ := (fits_of_matches h).pair _ _ hab
  exact (pairs_number k hk hfloat st hst).2 ⟨ha, hb⟩

/-- A number in base sixteen goes on with a zero wherever it is broken off behind a mark. -/
theorem hex_of_broken (h : Matches (pattern .hexLiteral) (u ++ v)) (hv : v ≠ [])
    (hu : Marked u) : Matches (pattern .hexLiteral) (u ++ ['0']) := by
  obtain ⟨run, mark, hparts⟩ := exists_isHexNumeral h
  obtain ⟨x, hx, heq⟩ : ∃ x ∈ "xX".toList, u ++ v = '0' :: x :: (run ++ mark) := by
    rcases hparts.eq with heq | heq
    · exact ⟨'x', by decide, heq⟩
    · exact ⟨'X', by decide, heq⟩
  obtain ⟨m, hm, hlast⟩ := hu
  match u with
  | [] => cases hlast
  | [c] =>
    obtain rfl : c = '0' := (List.cons.inj heq).1
    exact absurd (Option.some.inj hlast ▸ hm) (by decide)
  | [c, d] =>
    obtain rfl : d = x := (List.cons.inj (List.cons.inj heq).2).1
    obtain rfl : d = m := Option.some.inj hlast
    exact absurd hm ((by decide : ∀ c ∈ "xX".toList, c ∉ marks) d hx)
  | c :: d :: e :: r =>
    obtain ⟨rfl, htail⟩ := List.cons.inj heq
    obtain ⟨rfl, hrun⟩ := List.cons.inj htail
    obtain ⟨rest, hrest⟩ : e :: r <+: run := by
      rcases List.append_eq_append_iff.mp hrun with ⟨a, ha, -⟩ | ⟨a, ha, hmark⟩
      · exact ⟨a, ha.symm⟩
      · -- the mark is one character at most, and some of it is in `v`
        have hlength : mark.length ≤ 1 := by
          rcases hparts.mark with rfl | rfl | rfl <;> simp
        have hpos := List.length_pos_iff.mpr hv
        rw [hmark, List.length_append] at hlength
        have hnil : a = [] := List.length_eq_zero_iff.mp (by omega)
        exact ⟨[], by rw [ha, hnil, List.append_nil, List.append_nil]⟩
    obtain ⟨e', he', hdigit⟩ := hparts.first
    obtain rfl : e = e' := Option.some.inj (by rw [← he', ← hrest]; rfl)
    have hmore : Matches (opt (.seq (.star hexDigitOrLine) hexDigit)) (r ++ ['0']) := by
      refine .left (.seq (matches_star_one_iff.mpr fun c hc => ?_) (.one (by decide)))
      rw [contains_hexDigitOrLine]
      apply hparts.digits
      rw [← hrest]
      exact List.mem_append_left _ (List.mem_cons_of_mem e hc)
    have hmark : Matches (.seq longMark .empty) [] := .seq (.right .empty) .empty
    have hend := Matches.seq hmore hmark
    rw [List.append_nil] at hend
    exact .seq (u := ['0']) (.one (by decide)) (.seq (u := [d]) (.one (CharSet.contains_of_iff.mpr hx))
      (.seq (u := [e]) (.one hdigit) hend))

end ResourceNames.Java.Lexicon
