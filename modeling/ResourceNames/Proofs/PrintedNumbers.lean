import ResourceNames.Proofs.Scanning

/-!
Printed numbers are read back.

Numbers are printed in base sixteen in three ways: in small letters, in capitals, and in capitals filled up with
zeros. Each of them is one word for the lexicon, as long as nothing follows with which such a number could go
on, and the digits of the word denote the number that was printed.
-/
namespace ResourceNames.Java

open Lexicon Text

/-- A word that stands at the front of a text is its first token. -/
theorem Source.exists_tokens_of_stands {k : Kind} {text rest : String}
    (h : Stands k text.toList rest.toList.head?) :
    ∃ ts, (ofString (text ++ rest)).tokens.toList = ⟨k, 0, Place.start, text⟩ :: ts := by
  have hpieces : pieces (text ++ rest).toList = ⟨some k, Place.start, text.toList⟩ ::
      piecesFrom rest.toList (text.toList.foldl Place.advance Place.start) 0 := by
    rw [String.toList_append]
    exact piecesFrom_append h.1 h.munch Place.start
  have hwords := toList_tokens_ofString (text ++ rest)
  rw [words, hpieces, number, String.ofList_toList, List.cons_append] at hwords
  exact ⟨_, hwords⟩

end ResourceNames.Java

namespace ResourceNames.Text

open Java Lexicon

/-- However a number is printed, it is written in base sixteen. -/
theorem exists_writesHex {n : Nat} {text : String}
    (h : text ∈ [hex n, upperHex n, "0x" ++ paddedHex n]) : ∃ mark ds, WritesHex text mark ds n := by
  simp only [List.mem_cons, List.not_mem_nil, or_false] at h
  rcases h with rfl | rfl | rfl
  · exact ⟨_, _, writesHex_hex n⟩
  · exact ⟨_, _, writesHex_upperHex n⟩
  · exact ⟨_, _, writesHex_paddedHex n⟩

/-- A printed number is the first token of a text that begins with it, unless a digit, an underscore, a point or
the mark of a long integer or of an exponent follows. The token denotes the number again. -/
theorem printed_number_is_read_back (n : Nat) {text : String}
    (htext : text ∈ [hex n, upperHex n, "0x" ++ paddedHex n]) (rest : String)
    (hrest : ∀ c ∈ rest.toList.head?, c ∉ "0123456789abcdefABCDEF_.lLpP".toList) :
    ∃ ts, (Source.ofString (text ++ rest)).tokens.toList = ⟨.hexLiteral, 0, Place.start, text⟩ :: ts ∧
      readNumeral .sixteen text = .ok n := by
  obtain ⟨mark, ds, hwrites⟩ := exists_writesHex htext
  obtain ⟨ts, hts⟩ := Source.exists_tokens_of_stands (stands_of_writesHex hwrites hrest)
  exact ⟨ts, hts, hwrites.readNumeral_eq⟩

/-- A number in capitals before the name of its resource, as a table is printed. -/
theorem capitals_before_name_are_read_back :
    upperHex 2130771968 = "0X7F010000" ∧
    ∃ ts, (Source.ofString (upperHex 2130771968 ++ " = R.id.a")).tokens.toList =
        ⟨.hexLiteral, 0, Place.start, upperHex 2130771968⟩ :: ts ∧
      readNumeral .sixteen (upperHex 2130771968) = .ok 2130771968 := by
  refine ⟨by decide +kernel, ?_⟩
  refine printed_number_is_read_back 2130771968 (.tail _ (.head _)) " = R.id.a" fun c hc => ?_
  obtain rfl : ' ' = c := Option.mem_some.mp hc
  decide

end ResourceNames.Text
