import Mathlib.Data.Nat.Digits.Defs
import ResourceNames.Proofs.LongestWords
import ResourceNames.Text.Numeral

/-!
The numbers that numerals denote.

A numeral is read as the run of its digits, which underscores may part one at a time, and nothing may
stand after the run. So of the numerals in base sixteen that the lexicon knows, those with the mark of
a long integer or with two underscores in a row cannot be read.
-/
namespace ResourceNames.Text

/-! ### Runs of digits -/

theorem marksFit_iff {cs : List Char} :
    marksFit cs = true ↔ ¬ ['_', '_'] <:+: cs ∧ cs.getLast? ≠ some '_' := by
  fun_induction marksFit cs with
  | case1 => simp
  | case2 => simp
  | case3 rest => simpa using fun h => absurd (List.prefix_append ['_', '_'] rest).isInfix h
  | case4 c cs hlast hdouble ih =>
    have hpair : ¬ ['_', '_'] <+: c :: cs := by
      rintro ⟨rest, h⟩
      obtain ⟨rfl, rfl⟩ := List.cons.inj h
      exact hdouble rest rfl rfl
    have hend : (c :: cs).getLast? = some '_' ↔ cs.getLast? = some '_' := by
      cases cs with
      | nil => simpa using fun h => hlast h rfl
      | cons d ds => rw [List.getLast?_cons_cons]
    rw [ih, List.infix_cons_iff, ne_eq, ne_eq, hend]
    simp [hpair]

theorem marksFit_of_forall_ne {cs : List Char} (h : ∀ c ∈ cs, c ≠ '_') : marksFit cs = true := by
  rw [marksFit_iff]
  exact ⟨fun hpair => h '_' (hpair.subset (by simp)) rfl, fun hlast =>
    h '_' (List.mem_of_getLast? hlast) rfl⟩

/-- The digits of a run give its value, the last one counting least. -/
theorem digitsValue_eq (b : Base) (cs : List Char) :
    digitsValue b cs = Nat.ofDigits b.size (cs.filterMap b.digit?).reverse := by
  rw [Nat.ofDigits_eq_foldr, List.foldr_reverse, List.foldl_filterMap, digitsValue]
  congr 1
  funext n c
  cases b.digit? c with
  | none => rfl
  | some d => simp [Nat.add_comm]

section

variable {b : Base} {text : String} {minus : Bool} {cs run rest : List Char}

/-- A run of digits is read up to the first character that is none of them. -/
private theorem readNumeral_unfold (hplain : ∀ c ∈ text.toList, c.toNat < 127)
    (hblank : ∀ c ∈ text.toList.head?, isBlank c = false) (hsign : takeSign text.toList = (minus, cs))
    (hmark : dropMark b cs = run ++ rest) (hrun : ∀ c ∈ run, isDigitOrMark b c = true)
    (hrest : ∀ c ∈ rest.head?, isDigitOrMark b c = false) (hfirst : run.head? ≠ some '_')
    (hdigit : ∃ c ∈ run, c ≠ '_') :
    readNumeral b text =
      if marksFit run = true then
        match b.maxDigits?.filter (· < (run.filter (· ≠ '_')).length) with
        | some limit => .error (.tooLong (run.filter (· ≠ '_')).length limit)
        | none => if rest.all isBlank = true then
            .ok (if minus then -(digitsValue b run : Int) else digitsValue b run)
          else .error (.malformed b text)
      else .error (.malformed b text) := by
  have hmap : text.toList.map plainChar = text.toList := by
    conv_rhs => rw [← List.map_id text.toList]
    exact List.map_congr_left fun c hc => if_pos (hplain c hc)
  have hdrop : text.toList.dropWhile isBlank = text.toList := by
    cases h : text.toList with
    | nil => rfl
    | cons c cs => exact List.dropWhile_cons_of_neg (by simp [hblank c (by simp [h])])
  have htake : (run ++ rest).takeWhile (isDigitOrMark b) = run := by
    rw [List.takeWhile_append_of_pos hrun]
    cases rest with
    | nil => simp
    | cons c cs => simp [hrest c (by simp)]
  have hleft : (run ++ rest).dropWhile (isDigitOrMark b) = rest := by
    rw [List.dropWhile_append_of_pos hrun]
    cases rest with
    | nil => rfl
    | cons c cs => simp [hrest c (by simp)]
  simp only [readNumeral, hmap, hdrop, hsign, hmark, htake, hleft]
  by_cases hmarks : marksFit run = true
  · rw [if_pos hmarks, if_neg (by simp [hfirst, hmarks])]
    cases b.maxDigits?.filter (· < (run.filter (· ≠ '_')).length) with
    | some limit => rfl
    | none => by_cases hends : rest.all isBlank = true <;> simp [hdigit, hends]
  · simp [hmarks]

/-- A run that is not too long has the value of its digits, if its underscores stand well and nothing
but blanks stands after it. -/
theorem readNumeral_of_run (hplain : ∀ c ∈ text.toList, c.toNat < 127)
    (hblank : ∀ c ∈ text.toList.head?, isBlank c = false) (hsign : takeSign text.toList = (minus, cs))
    (hmark : dropMark b cs = run ++ rest) (hrun : ∀ c ∈ run, isDigitOrMark b c = true)
    (hrest : ∀ c ∈ rest.head?, isDigitOrMark b c = false) (hfirst : run.head? ≠ some '_')
    (hdigit : ∃ c ∈ run, c ≠ '_')
    (hlimit : ∀ limit ∈ b.maxDigits?, (run.filter (· ≠ '_')).length ≤ limit) :
    readNumeral b text =
      if marksFit run = true ∧ rest.all isBlank = true then
        .ok (if minus then -(digitsValue b run : Int) else digitsValue b run)
      else .error (.malformed b text) := by
  have hshort : (b.maxDigits?.filter (· < (run.filter (· ≠ '_')).length)) = none := by
    cases hb : b.maxDigits? with
    | none => rfl
    | some limit => simpa [Option.filter] using hlimit limit hb
  rw [readNumeral_unfold hplain hblank hsign hmark hrun hrest hfirst hdigit, hshort]
  by_cases hmarks : marksFit run = true <;> simp [hmarks]

end

/-! ### Decimal numerals -/

private theorem digit?_digitChar : ∀ d < 10, Base.ten.digit? d.digitChar = some d ∧
    d.digitChar.toNat < 127 ∧ d.digitChar ≠ '_' ∧ isBlank d.digitChar = false ∧
    d.digitChar ≠ '+' ∧ d.digitChar ≠ '-' := by
  decide

theorem exists_digitChar {n : Nat} {c : Char} (h : c ∈ Nat.toDigits 10 n) :
    ∃ d < 10, c = d.digitChar := by
  induction n using Nat.strongRecOn with
  | ind n ih =>
    rcases Nat.lt_or_ge n 10 with hn | hn
    · rw [Nat.toDigits_of_lt_base hn, List.mem_singleton] at h
      exact ⟨n, hn, h⟩
    · rw [Nat.toDigits_of_base_le (by decide) hn, List.mem_append, List.mem_singleton] at h
      rcases h with h | h
      · exact ih (n / 10) (by omega) h
      · exact ⟨n % 10, Nat.mod_lt n (by decide), h⟩

/-- The digits of a number have it for their value. -/
private theorem digitsValue_toDigits (n : Nat) : digitsValue .ten (Nat.toDigits 10 n) = n := by
  have hlast : ∀ (cs : List Char), ∀ d < 10,
      digitsValue .ten (cs ++ [d.digitChar]) = 10 * digitsValue .ten cs + d := by
    intro cs d hd
    rw [digitsValue, List.foldl_append, List.foldl_cons, List.foldl_nil, (digit?_digitChar d hd).1]
    rfl
  induction n using Nat.strongRecOn with
  | ind n ih =>
    rcases Nat.lt_or_ge n 10 with hn | hn
    · rw [Nat.toDigits_of_lt_base hn]
      simpa [digitsValue] using hlast [] n hn
    · rw [Nat.toDigits_of_base_le (by decide) hn, hlast _ _ (Nat.mod_lt n (by decide)),
        ih (n / 10) (by omega)]
      omega

/-- The sign of a number is written before the digits of its absolute value. -/
private theorem toList_toString (v : Int) :
    (toString v).toList = (if v < 0 then ['-'] else []) ++ Nat.toDigits 10 v.natAbs := by
  rw [Int.toString_eq_repr, Int.repr_eq_if]
  rcases Int.lt_or_le v 0 with hv | hv
  · rw [if_neg (by omega), if_pos hv, String.toList_append, Nat.toList_repr,
      show (-v).toNat = v.natAbs by omega]
    rfl
  · rw [if_pos hv, if_neg (by omega), Nat.toList_repr, show v.toNat = v.natAbs by omega,
      List.nil_append]

/-- The decimal numeral of a number is read back as the number, as long as it has not too many
digits. -/
theorem readNumeral_toString (v : Int) : readNumeral .ten (toString v) =
    if (Nat.toDigits 10 v.natAbs).length ≤ 4300 then .ok v
    else .error (.tooLong (Nat.toDigits 10 v.natAbs).length 4300) := by
  have hdigits : ∀ c ∈ Nat.toDigits 10 v.natAbs, c.toNat < 127 ∧ c ≠ '_' ∧
      isDigitOrMark .ten c = true ∧ isBlank c = false ∧ c ≠ '+' ∧ c ≠ '-' := by
    intro c hc
    obtain ⟨d, hd, rfl⟩ := exists_digitChar hc
    obtain ⟨hvalue, hplain, hline, hblank, hplus, hminus⟩ := digit?_digitChar d hd
    exact ⟨hplain, hline, by simp [isDigitOrMark, hvalue], hblank, hplus, hminus⟩
  obtain ⟨c, cs, hcs⟩ := List.exists_cons_of_ne_nil (Nat.toDigits_ne_nil (b := 10) (n := v.natAbs))
  have hc := hdigits c (by simp [hcs])
  have hplain : ∀ c ∈ (toString v).toList, c.toNat < 127 ∧ isBlank c = false := by
    rw [toList_toString, List.forall_mem_append]
    refine ⟨?_, fun c hc => ⟨(hdigits c hc).1, (hdigits c hc).2.2.2.1⟩⟩
    split <;> decide
  have hsign : takeSign (toString v).toList = (decide (v < 0), Nat.toDigits 10 v.natAbs) := by
    rw [toList_toString, hcs]
    rcases Int.lt_or_le v 0 with hv | hv
    · simp [hv, takeSign]
    · simp [Int.not_lt.mpr hv, takeSign, hc.2.2.2.2]
  have hmark : dropMark .ten (Nat.toDigits 10 v.natAbs) = Nat.toDigits 10 v.natAbs ++ [] := by
    simp [dropMark]
  have hmarks := marksFit_of_forall_ne fun c hc => (hdigits c hc).2.1
  have hfilter : (Nat.toDigits 10 v.natAbs).filter (· ≠ '_') = Nat.toDigits 10 v.natAbs :=
    List.filter_eq_self.mpr fun c hc => by simpa using (hdigits c hc).2.1
  have hvalue : (if decide (v < 0) = true then -(v.natAbs : Int) else v.natAbs) = v := by
    simp only [decide_eq_true_eq]
    split <;> omega
  rw [readNumeral_unfold (fun c hc => (hplain c hc).1)
    (fun c hc => (hplain c (List.mem_of_mem_head? hc)).2) hsign hmark
    (fun c hc => (hdigits c hc).2.2.1) nofun (by simp [hcs, hc.2.1]) ⟨c, by simp [hcs], hc.2.1⟩,
    if_pos hmarks, hfilter, digitsValue_toDigits, hvalue]
  by_cases hshort : (Nat.toDigits 10 v.natAbs).length ≤ 4300
  · have hnone : Base.ten.maxDigits?.filter (· < (Nat.toDigits 10 v.natAbs).length) = none := by
      simpa [Base.maxDigits?, Option.filter] using hshort
    rw [hnone, if_pos hshort]
    rfl
  · have hsome : Base.ten.maxDigits?.filter (· < (Nat.toDigits 10 v.natAbs).length) = some 4300 := by
      simpa [Base.maxDigits?, Option.filter] using Nat.lt_of_not_le hshort
    rw [hsome, if_neg hshort]

/-! ### Numerals in base sixteen -/

def hexDigitValue (c : Char) : Nat := "0123456789abcdef".toList.idxOf c.toLower

/-- The number that the digits of a numeral in base sixteen denote, whatever underscores stand between
them. -/
def hexValue (w : List Char) : Nat :=
  Nat.ofDigits 16 (((w.drop 2).filter (· ≠ '_')).map hexDigitValue).reverse

/-- A numeral in base sixteen is spoilt by the mark of a long integer and by two underscores in a
row. -/
def IsSpoilt (w : List Char) : Prop :=
  w.getLast? = some 'l' ∨ w.getLast? = some 'L' ∨ ['_', '_'] <:+: w
  deriving Decidable

namespace Pattern

variable {p q : Pattern} {set : CharSet} {w : List Char}

theorem matches_empty_iff : Matches .empty w ↔ w = [] :=
  ⟨fun h => by cases h; rfl, fun h => h ▸ .empty⟩

theorem matches_one_iff : Matches (.one set) w ↔ ∃ c, set.contains c = true ∧ w = [c] := by
  constructor
  · rintro ⟨⟩
    exact ⟨_, by assumption, rfl⟩
  · rintro ⟨c, hc, rfl⟩
    exact .one hc

theorem matches_seq_iff : Matches (.seq p q) w ↔ ∃ u v, Matches p u ∧ Matches q v ∧ w = u ++ v := by
  constructor
  · rintro ⟨⟩
    exact ⟨_, _, by assumption, by assumption, rfl⟩
  · rintro ⟨u, v, hu, hv, rfl⟩
    exact .seq hu hv

theorem matches_alt_iff : Matches (.alt p q) w ↔ Matches p w ∨ Matches q w := by
  constructor
  · rintro (_ | _ | _)
    · exact .inl (by assumption)
    · exact .inr (by assumption)
  · rintro (h | h)
    · exact .left h
    · exact .right h

theorem matches_star_one_iff : Matches (.star (.one set)) w ↔ ∀ c ∈ w, set.contains c = true := by
  constructor
  · intro h
    generalize hp : Pattern.star (.one set) = p at h
    induction h with
    | empty | one | seq | left | right => cases hp
    | done => simp
    | more hu hv _ ih =>
      cases hp
      obtain ⟨c, hc, rfl⟩ := matches_one_iff.mp hu
      simpa [hc] using ih rfl
  · intro h
    induction w with
    | nil => exact .done
    | cons c w ih =>
      exact .more (u := [c]) (.one (h c List.mem_cons_self)) (ih fun d hd => h d (List.mem_cons_of_mem c hd))

end Pattern

/-- What holds of the characters of ASCII can be checked one by one. -/
theorem forall_ascii {p : Char → Prop} (h : ∀ n < 128, p (Char.ofNat n)) {c : Char}
    (hc : c.toNat < 128) : p c := by
  simpa using h c.toNat hc

def hexDigitSet : CharSet := ⟨false, [('0', '9'), ('a', 'f'), ('A', 'F')]⟩

theorem digit?_of_hexDigitSet {c : Char} (h : hexDigitSet.contains c = true) :
    c.toNat < 127 ∧ c ≠ '_' ∧ Base.sixteen.digit? c = some (hexDigitValue c) := by
  have hc : c.toNat < 128 := by
    simp [hexDigitSet, CharSet.contains, Char.le_def, UInt32.le_iff_toNat_le] at h
    have : c.toNat = c.val.toNat := rfl
    omega
  revert h
  exact forall_ascii (p := fun c => hexDigitSet.contains c = true →
    c.toNat < 127 ∧ c ≠ '_' ∧ Base.sixteen.digit? c = some (hexDigitValue c)) (by decide) hc

/-- The parts of a numeral in base sixteen: a run that begins and ends with a digit, and maybe the mark
of a long integer. -/
structure IsHexNumeral (w run mark : List Char) : Prop where
  eq : w = '0' :: 'x' :: (run ++ mark) ∨ w = '0' :: 'X' :: (run ++ mark)
  digits : ∀ c ∈ run, hexDigitSet.contains c = true ∨ c = '_'
  first : ∃ c, run.head? = some c ∧ hexDigitSet.contains c = true
  last : ∃ c, run.getLast? = some c ∧ hexDigitSet.contains c = true
  mark : mark = [] ∨ mark = ['l'] ∨ mark = ['L']

theorem contains_hexDigitOrLine {c : Char} :
    CharSet.contains ⟨false, [('0', '9'), ('a', 'f'), ('A', 'F'), ('_', '_')]⟩ c = true ↔
      hexDigitSet.contains c = true ∨ c = '_' := by
  have hline : '_' ≤ c ∧ c ≤ '_' ↔ c = '_' := ⟨fun h => Char.le_antisymm h.2 h.1, fun h => by simp [h]⟩
  simp [CharSet.contains, hexDigitSet, hline, or_assoc]

/-- The words of the lexicon have these parts. -/
theorem exists_isHexNumeral {w : List Char} (h : (Java.Lexicon.pattern .hexLiteral).Matches w) :
    ∃ run mark, IsHexNumeral w run mark := by
  have hpattern : Java.Lexicon.pattern .hexLiteral =
      .seq (.one (.of "0")) (.seq (.one (.of "xX")) (.seq (.one hexDigitSet)
        (.seq (.alt (.seq (.star (.one ⟨false, [('0', '9'), ('a', 'f'), ('A', 'F'), ('_', '_')]⟩))
          (.one hexDigitSet)) .empty) (.seq (.alt (.one (.of "lL")) .empty) .empty)))) := rfl
  simp only [hpattern, Pattern.matches_seq_iff, Pattern.matches_one_iff, Pattern.matches_alt_iff,
    Pattern.matches_empty_iff, Pattern.matches_star_one_iff, CharSet.contains_of_iff,
    contains_hexDigitOrLine] at h
  obtain ⟨_, _, ⟨z, hz, rfl⟩, ⟨_, _, ⟨x, hx, rfl⟩, ⟨_, _, ⟨d, hd, rfl⟩, ⟨more, _, hmore,
    ⟨mark, _, hmark, rfl, rfl⟩, rfl⟩, rfl⟩, rfl⟩, rfl⟩ := h
  obtain rfl : z = '0' := by simpa using hz
  refine ⟨d :: more, mark, ?_, ?_, ⟨d, rfl, hd⟩, ?_, ?_⟩
  · rcases hx with hx
    simp at hx
    rcases hx with rfl | rfl <;> simp
  · intro c hc
    rcases List.mem_cons.mp hc with rfl | hc
    · exact .inl hd
    · rcases hmore with ⟨body, _, hbody, ⟨e, he, rfl⟩, rfl⟩ | rfl
      · rcases List.mem_append.mp hc with hc | hc
        · exact hbody c hc
        · exact .inl (List.mem_singleton.mp hc ▸ he)
      · simp at hc
  · rcases hmore with ⟨body, _, -, ⟨e, he, rfl⟩, rfl⟩ | rfl
    · exact ⟨e, by rw [← List.cons_append, List.getLast?_concat], he⟩
    · exact ⟨d, rfl, hd⟩
  · rcases hmark with ⟨c, hc, rfl⟩ | rfl
    · simp at hc
      rcases hc with rfl | rfl <;> simp
    · exact .inl rfl

namespace IsHexNumeral

variable {w run mark : List Char}

private theorem run_ne_nil (h : IsHexNumeral w run mark) : run ≠ [] := by
  obtain ⟨c, hc, -⟩ := h.first
  rintro rfl
  cases hc

/-- With the mark of a long integer a numeral is spoilt, without it only by its underscores. -/
theorem isSpoilt_iff (h : IsHexNumeral w run mark) : IsSpoilt w ↔ ¬ (marksFit run = true ∧ mark = []) := by
  have hlast : w.getLast? = (run ++ mark).getLast? := by
    have hne : run ++ mark ≠ [] := by simp [h.run_ne_nil]
    rcases h.eq with rfl | rfl <;> simp [List.getLast?_cons, List.getLast?_eq_some_getLast hne]
  rcases h.mark with rfl | rfl | rfl
  · obtain ⟨c, hc, hd⟩ := h.last
    have hl : c ≠ 'l' ∧ c ≠ 'L' ∧ c ≠ '_' := by
      refine ⟨?_, ?_, ?_⟩ <;> rintro rfl <;> revert hd <;> decide
    have hinfix : ['_', '_'] <:+: w ↔ ['_', '_'] <:+: run := by
      rcases h.eq with rfl | rfl <;> simp [List.infix_cons_iff, List.cons_prefix_cons]
    simp [IsSpoilt, hlast, hc, hl, hinfix, marksFit_iff]
  · simp [IsSpoilt, hlast]
  · simp [IsSpoilt, hlast]

/-- Without a mark the value of a numeral is that of its run. -/
theorem digitsValue_run (h : IsHexNumeral w run []) : digitsValue .sixteen run = hexValue w := by
  have hdrop : w.drop 2 = run := by rcases h.eq with rfl | rfl <;> simp
  have hdigits : ∀ cs : List Char, (∀ c ∈ cs, hexDigitSet.contains c = true ∨ c = '_') →
      cs.filterMap Base.sixteen.digit? = (cs.filter (· ≠ '_')).map hexDigitValue := by
    intro cs hcs
    induction cs with
    | nil => rfl
    | cons c cs ih =>
      have htail := ih fun d hd => hcs d (List.mem_cons_of_mem c hd)
      rcases hcs c List.mem_cons_self with hc | rfl
      · obtain ⟨-, hne, hd⟩ := digit?_of_hexDigitSet hc
        rw [List.filterMap_cons_some hd, htail, List.filter_cons_of_pos (by simpa using hne), List.map_cons]
      · rw [List.filterMap_cons_none (by decide), htail, List.filter_cons_of_neg (by simp)]
  rw [digitsValue_eq, hexValue, hdrop, hdigits run h.digits]
  rfl

end IsHexNumeral

/-- A numeral in base sixteen can be read unless it is spoilt, and then denotes what its digits do. -/
theorem IsHexNumeral.readNumeral_eq {text : String} {run mark : List Char}
    (hn : IsHexNumeral text.toList run mark) : readNumeral .sixteen text =
      if IsSpoilt text.toList then .error (.malformed .sixteen text) else .ok (hexValue text.toList) := by
  obtain ⟨d, hfirst, hd⟩ := hn.first
  have hrun : ∀ c ∈ run, isDigitOrMark .sixteen c = true := by
    intro c hc
    rcases hn.digits c hc with hc | rfl
    · simp [isDigitOrMark, digit?_of_hexDigitSet hc]
    · rfl
  have hletters : ∀ c ∈ mark, c.toNat < 127 ∧ isDigitOrMark .sixteen c = false ∧ isBlank c = false := by
    rcases hn.mark with hm | hm | hm <;> rw [hm] <;> decide
  have hplain : ∀ c ∈ text.toList, c.toNat < 127 := by
    have hall : ∀ c ∈ run ++ mark, c.toNat < 127 := by
      intro c hc
      rcases List.mem_append.mp hc with hc | hc
      · rcases hn.digits c hc with hc | rfl
        · exact (digit?_of_hexDigitSet hc).1
        · decide
      · exact (hletters c hc).1
    rcases hn.eq with he | he <;> rw [he] <;> simpa using hall
  have hsign : takeSign text.toList = (false, text.toList) := by
    rcases hn.eq with he | he <;> rw [he] <;> rfl
  have hmark : dropMark .sixteen text.toList = run ++ mark := by
    obtain ⟨ds, rfl⟩ := List.head?_eq_some_iff.mp hfirst
    have hne : d ≠ '_' := (digit?_of_hexDigitSet hd).2.1
    rcases hn.eq with he | he <;> rw [he] <;> simp [dropMark, hne]
  rw [readNumeral_of_run hplain (by rcases hn.eq with he | he <;> rw [he] <;> simp [isBlank]) hsign hmark hrun
    (fun c hc => (hletters c (List.mem_of_mem_head? hc)).2.1)
    (by rw [hfirst]; simpa using (digit?_of_hexDigitSet hd).2.1)
    ⟨d, List.mem_of_mem_head? hfirst, (digit?_of_hexDigitSet hd).2.1⟩ nofun]
  have hblank : mark.all isBlank = true ↔ mark = [] := by
    rcases hn.mark with hm | hm | hm <;> rw [hm] <;> decide
  by_cases hgood : marksFit run = true ∧ mark = []
  · have hnot : ¬ IsSpoilt text.toList := fun hs => hn.isSpoilt_iff.mp hs hgood
    have hbare : IsHexNumeral text.toList run [] := hgood.2 ▸ hn
    rw [if_pos ⟨hgood.1, hblank.mpr hgood.2⟩, if_neg hnot, ← hbare.digitsValue_run]
    rfl
  · rw [if_neg fun hm => hgood ⟨hm.1, hblank.mp hm.2⟩, if_pos (hn.isSpoilt_iff.mpr hgood)]

theorem readNumeral_of_hexLiteral {text : String}
    (h : (Java.Lexicon.pattern .hexLiteral).Matches text.toList) :
    readNumeral .sixteen text =
      if IsSpoilt text.toList then .error (.malformed .sixteen text) else .ok (hexValue text.toList) :=
  let ⟨_, _, hn⟩ := exists_isHexNumeral h
  hn.readNumeral_eq

/-! ### Numbers that are written in base sixteen -/

/-- A text writes a number in base sixteen: behind a zero and the mark of the base stand digits that have the
number for their value. -/
structure WritesHex (text : String) (mark : Char) (ds : List Char) (n : Nat) : Prop where
  eq : text.toList = '0' :: mark :: ds
  mark : mark = 'x' ∨ mark = 'X'
  ne_nil : ds ≠ []
  digits : ∀ c ∈ ds, hexDigitSet.contains c = true
  value : Nat.ofDigits 16 (ds.map hexDigitValue).reverse = n

/-- A number that is written in base sixteen is read back. -/
theorem WritesHex.readNumeral_eq {text : String} {mark : Char} {ds : List Char} {n : Nat}
    (h : WritesHex text mark ds n) : readNumeral .sixteen text = .ok n := by
  have hne : ∀ c ∈ ds, c ≠ '_' := fun c hc => (digit?_of_hexDigitSet (h.digits c hc)).2.1
  have hn : IsHexNumeral text.toList ds [] :=
    { eq := by rcases h.mark with hx | hx <;> simp [h.eq, hx]
      digits := fun c hc => .inl (h.digits c hc)
      first := ⟨_, List.head?_eq_some_head h.ne_nil, h.digits _ (List.head_mem h.ne_nil)⟩
      last := ⟨_, List.getLast?_eq_some_getLast h.ne_nil, h.digits _ (List.getLast_mem h.ne_nil)⟩
      mark := .inl rfl }
  have hfilter : ds.filter (· ≠ '_') = ds := List.filter_eq_self.mpr fun c hc => by simpa using hne c hc
  rw [hn.readNumeral_eq, if_neg fun hs => hn.isSpoilt_iff.mp hs ⟨marksFit_of_forall_ne hne, rfl⟩, hexValue, h.eq,
    List.drop_succ_cons, List.drop_succ_cons, List.drop_zero, hfilter, h.value]

theorem hexNat_ne_nil (n : Nat) : hexNat n ≠ [] := by
  rw [hexNat]
  split <;> simp

/-- The digits of a number, in small letters or in capitals, have the number for their value. -/
private theorem digits_hexNat {f : Char → Char} (hf : ∀ d < 16,
      hexDigitSet.contains (f (hexDigit d)) = true ∧ hexDigitValue (f (hexDigit d)) = d) (n : Nat) :
    (∀ c ∈ (hexNat n).map f, hexDigitSet.contains c = true) ∧
      Nat.ofDigits 16 (((hexNat n).map f).map hexDigitValue).reverse = n := by
  induction n using Nat.strongRecOn with
  | ind n ih =>
    rw [hexNat]
    split
    · rename_i hn
      simpa using hf n hn
    · obtain ⟨hcs, hvalue⟩ := ih (n / 16) (by omega)
      obtain ⟨hc, hd⟩ := hf (n % 16) (Nat.mod_lt n (by decide))
      rw [List.map_append, List.forall_mem_append, List.map_append, List.reverse_append]
      refine ⟨⟨hcs, by simpa using hc⟩, ?_⟩
      simp only [List.map_cons, List.map_nil, List.reverse_singleton, List.singleton_append, hd,
        Nat.ofDigits_cons, hvalue]
      omega

private theorem capitals_hexNat (n : Nat) :
    (∀ c ∈ (hexNat n).map Char.toUpper, hexDigitSet.contains c = true) ∧
      Nat.ofDigits 16 (((hexNat n).map Char.toUpper).map hexDigitValue).reverse = n :=
  digits_hexNat (by decide) n

theorem writesHex_hex (n : Nat) : WritesHex (hex n) 'x' (hexNat n) n := by
  have hn := digits_hexNat (f := id) (by decide) n
  rw [List.map_id] at hn
  have hsign : ¬ (n : Int) < 0 := by omega
  refine ⟨?_, .inl rfl, hexNat_ne_nil n, hn.1, hn.2⟩
  rw [hex, if_neg hsign, Int.natAbs_natCast, String.toList_append, String.toList_ofList (l := hexNat n)]
  rfl

theorem writesHex_upperHex (n : Nat) : WritesHex (upperHex n) 'X' ((hexNat n).map Char.toUpper) n := by
  obtain ⟨hdigits, hvalue⟩ := capitals_hexNat n
  refine ⟨?_, .inr rfl, by simpa using hexNat_ne_nil n, hdigits, hvalue⟩
  rw [upperHex, String.toList_ofList, (writesHex_hex n).eq]
  rfl

/-- The zeros in front add nothing to the value of the digits. -/
theorem writesHex_paddedHex (n : Nat) : WritesHex ("0x" ++ paddedHex n) 'x' (paddedHex n).toList n := by
  obtain ⟨hdigits, hvalue⟩ := capitals_hexNat n
  have hsign : ¬ (n : Int) < 0 := by omega
  obtain ⟨k, hk⟩ : ∃ k, (paddedHex n).toList = List.replicate k '0' ++ (hexNat n).map Char.toUpper := by
    refine ⟨8 - (0 + ((hexNat n).map Char.toUpper).length), ?_⟩
    simp only [paddedHex, if_neg hsign, String.toList_ofList, List.nil_append, Int.natAbs_natCast,
      List.length_nil]
  have hzeros : ((List.replicate k '0').map hexDigitValue).reverse = List.replicate k 0 := by
    rw [List.map_replicate, List.reverse_replicate]
    rfl
  refine ⟨by rw [String.toList_append]; rfl, .inl rfl, by simp [hk, hexNat_ne_nil n], fun c hc => ?_, ?_⟩
  · rw [hk] at hc
    rcases List.mem_append.mp hc with hc | hc
    · rw [List.eq_of_mem_replicate hc]
      decide
    · exact hdigits c hc
  · rw [hk, List.map_append, List.reverse_append, Nat.ofDigits_append, hzeros, Nat.ofDigits_replicate_zero,
      hvalue, Nat.mul_zero, Nat.add_zero]

theorem readNumeral_paddedHex (n : Nat) : readNumeral .sixteen ("0x" ++ paddedHex n) = .ok n :=
  (writesHex_paddedHex n).readNumeral_eq

end ResourceNames.Text
