import ResourceNames.Proofs.Partition

/-!
The lexicon takes the longest word.

A pattern is exhausted by its partial derivatives: a word of it that begins with `c` goes on with a
word of one of the patterns `after c`. So the patterns left over after some characters describe all
words that begin with these characters, and as every pattern left over has a word, none is left
exactly if no word begins with them. What is taken off the front of a text is therefore the longest
word there, of the preferred kind, and where there is no word at all, everything up to the first
character after which no word can go on.
-/
namespace ResourceNames.Text

/-- What is said of the characters of a text is decided by going through the text, not through all
characters. -/
instance (priority := 1100) decidableForallMemText (cs : List Char) (p : Char → Prop) [DecidablePred p] :
    Decidable (∀ c ∈ cs, p c) := List.decidableBAll p cs

/-- Whether a set of characters holds the first character of one of its ranges, a letter of ASCII or
a letter beyond it. -/
def CharSet.hasSample (s : CharSet) : Bool :=
  ('a' :: 'é' :: s.ranges.map Prod.fst).any s.contains

namespace Pattern

variable {p q r : Pattern} {c : Char} {u v w : List Char}

def isInhabited : Pattern → Bool
  | .empty => true
  | .one s => s.hasSample
  | .seq p q => p.isInhabited && q.isInhabited
  | .alt p q => p.isInhabited && q.isInhabited
  | .star p => p.isInhabited

theorem exists_matches (h : p.isInhabited = true) : ∃ w, Matches p w := by
  induction p with
  | empty => exact ⟨[], .empty⟩
  | one s =>
    obtain ⟨c, -, hc⟩ := List.any_eq_true.mp h
    exact ⟨[c], .one hc⟩
  | seq p q ihp ihq =>
    obtain ⟨hp, hq⟩ := Bool.and_eq_true_iff.mp h
    obtain ⟨u, hu⟩ := ihp hp
    obtain ⟨v, hv⟩ := ihq hq
    exact ⟨u ++ v, .seq hu hv⟩
  | alt p q ihp _ =>
    obtain ⟨u, hu⟩ := ihp (Bool.and_eq_true_iff.mp h).1
    exact ⟨u, .left hu⟩
  | star p _ => exact ⟨[], .done⟩

private theorem isInhabited_andThen (hp : p.isInhabited = true) (hq : q.isInhabited = true) :
    (p.andThen q).isInhabited = true := by
  cases p with
  | empty => exact hq
  | one | seq | alt | star => exact Bool.and_eq_true_iff.mpr ⟨hp, hq⟩

theorem isInhabited_of_mem_after (h : p.isInhabited = true) (hq : q ∈ p.after c) :
    q.isInhabited = true := by
  induction p generalizing q with
  | empty => simp [after] at hq
  | one s =>
    simp only [after] at hq
    split at hq
    · obtain rfl := List.mem_singleton.mp hq
      rfl
    · simp at hq
  | seq p p' ih ih' =>
    obtain ⟨hp, hp'⟩ := Bool.and_eq_true_iff.mp h
    simp only [after, List.mem_append, List.mem_map] at hq
    rcases hq with ⟨r, hr, rfl⟩ | hq
    · exact isInhabited_andThen (ih hp hr) hp'
    · split at hq
      · exact ih' hp' hq
      · simp at hq
  | alt p p' ih ih' =>
    obtain ⟨hp, hp'⟩ := Bool.and_eq_true_iff.mp h
    rcases List.mem_append.mp hq with hq | hq
    · exact ih hp hq
    · exact ih' hp' hq
  | star p ih =>
    obtain ⟨r, hr, rfl⟩ := List.mem_map.mp hq
    exact isInhabited_andThen (ih h hr) h

theorem nullable_of_matches_nil (h : Matches p []) : p.nullable = true := by
  induction p with
  | empty => rfl
  | one s => cases h
  | seq p q ihp ihq =>
    generalize hw : ([] : List Char) = w at h
    cases h with
    | seq hu hv =>
      obtain ⟨rfl, rfl⟩ := List.append_eq_nil_iff.mp hw.symm
      exact Bool.and_eq_true_iff.mpr ⟨ihp hu, ihq hv⟩
  | alt p q ihp ihq =>
    cases h with
    | left h => exact Bool.or_eq_true_iff.mpr (.inl (ihp h))
    | right h => exact Bool.or_eq_true_iff.mpr (.inr (ihq h))
  | star p _ => rfl

private theorem matches_andThen_append (hu : Matches p u) (hv : Matches q v) :
    Matches (p.andThen q) (u ++ v) := by
  cases p with
  | empty =>
    cases hu
    exact hv
  | one | seq | alt | star => exact .seq hu hv

/-- A word that begins with a character goes on with a word of what may stand after it. -/
theorem exists_after_of_matches (h : Matches p (c :: w)) : ∃ q ∈ p.after c, Matches q w := by
  generalize hcw : c :: w = x at h
  induction h generalizing w with
  | empty => cases hcw
  | one hs =>
    obtain ⟨rfl, rfl⟩ := List.cons.inj hcw
    exact ⟨.empty, by simp [after, hs], .empty⟩
  | @seq p q u v hu hv ihu ihv =>
    cases u with
    | nil =>
      obtain ⟨r, hr, hw⟩ := ihv hcw
      have hn := nullable_of_matches_nil hu
      exact ⟨r, List.mem_append_right _ (by rwa [if_pos hn]), hw⟩
    | cons d u =>
      obtain ⟨rfl, rfl⟩ := List.cons.inj hcw
      obtain ⟨r, hr, hw⟩ := ihu rfl
      exact ⟨r.andThen q, List.mem_append_left _ (List.mem_map_of_mem hr),
        matches_andThen_append hw hv⟩
  | left _ ih =>
    obtain ⟨r, hr, hw⟩ := ih hcw
    exact ⟨r, List.mem_append_left _ hr, hw⟩
  | right _ ih =>
    obtain ⟨r, hr, hw⟩ := ih hcw
    exact ⟨r, List.mem_append_right _ hr, hw⟩
  | done => cases hcw
  | @more p u v hu hv ihu ihv =>
    cases u with
    | nil => exact ihv hcw
    | cons d u =>
      obtain ⟨rfl, rfl⟩ := List.cons.inj hcw
      obtain ⟨r, hr, hw⟩ := ihu rfl
      exact ⟨r.andThen (.star p), List.mem_map_of_mem hr, matches_andThen_append hw hv⟩

end Pattern

namespace CharSet

variable {s : String} {c : Char}

private theorem any_between_iff {cs : List Char} :
    ((cs.map fun d => (d, d)).any fun r => decide (r.1 ≤ c) && decide (c ≤ r.2)) = true ↔ c ∈ cs := by
  rw [List.any_map, List.any_eq_true]
  constructor
  · rintro ⟨d, hd, h⟩
    simp only [Function.comp_apply, Bool.and_eq_true, decide_eq_true_eq] at h
    exact Char.le_antisymm h.2 h.1 ▸ hd
  · intro h
    exact ⟨c, h, by simp⟩

theorem contains_of_iff : (of s).contains c = true ↔ c ∈ s.toList := by
  rw [contains, of, Bool.false_xor, any_between_iff]

theorem contains_but_iff : (but s).contains c = true ↔ c ∉ s.toList := by
  rw [contains, but, Bool.true_xor, Bool.not_eq_true', ← Bool.not_eq_true, any_between_iff]

end CharSet

end ResourceNames.Text

namespace ResourceNames.Java.Lexicon

open Text Text.Pattern

/-! ### Comments in stars -/

/-- A step through a comment: a character other than a star, or some stars with a character that
does not close the comment. -/
def commentStep : Pattern := .alt (noneOf "*") (.seq (plus (oneOf "*")) (noneOf "*/"))

private theorem matches_stars_iff {w : List Char} :
    Matches (.star (oneOf "*")) w ↔ ∃ n, w = List.replicate n '*' := by
  constructor
  · intro h
    generalize hp : Pattern.star (oneOf "*") = p at h
    induction h with
    | empty | one | seq | left | right => cases hp
    | done => exact ⟨0, rfl⟩
    | more hu _ _ ih =>
      cases hp
      obtain ⟨n, rfl⟩ := ih rfl
      cases hu with
      | one hc =>
        obtain rfl := List.mem_singleton.mp (CharSet.contains_of_iff.mp hc)
        exact ⟨n + 1, rfl⟩
  · rintro ⟨n, rfl⟩
    induction n with
    | zero => exact .done
    | succ n ih => exact .more (.one rfl) ih

private theorem matches_plus_stars_iff {w : List Char} :
    Matches (plus (oneOf "*")) w ↔ ∃ n, w = List.replicate (n + 1) '*' := by
  constructor
  · intro h
    cases h with
    | seq hu hv =>
      obtain ⟨n, rfl⟩ := matches_stars_iff.mp hv
      cases hu with
      | one hc =>
        obtain rfl := List.mem_singleton.mp (CharSet.contains_of_iff.mp hc)
        exact ⟨n, rfl⟩
  · rintro ⟨n, rfl⟩
    exact .seq (u := ['*']) (.one rfl) (matches_stars_iff.mpr ⟨n, rfl⟩)

private theorem matches_commentStep_iff {w : List Char} :
    Matches commentStep w ↔ ∃ n c, w = List.replicate n '*' ++ [c] ∧ c ≠ '*' ∧ (0 < n → c ≠ '/') := by
  constructor
  · intro h
    cases h with
    | left h =>
      cases h with
      | one hc => exact ⟨0, _, rfl, by simpa using CharSet.contains_but_iff.mp hc, by simp⟩
    | right h =>
      cases h with
      | seq hu hv =>
        obtain ⟨n, rfl⟩ := matches_plus_stars_iff.mp hu
        cases hv with
        | one hc =>
          have hc := CharSet.contains_but_iff.mp hc
          exact ⟨n + 1, _, rfl, fun h => hc (by simp [h]), fun _ h => hc (by simp [h])⟩
  · rintro ⟨n, c, rfl, hstar, hslash⟩
    cases n with
    | zero => exact .left (.one (CharSet.contains_but_iff.mpr (by simpa using hstar)))
    | succ n =>
      refine .right (.seq (matches_plus_stars_iff.mpr ⟨n, rfl⟩) (.one ?_))
      have := hslash (Nat.succ_pos n)
      exact CharSet.contains_but_iff.mpr (by simp [hstar, this])

def Closes (w : List Char) : Prop := ['*', '/'] <:+: w

private theorem closes_cons_iff {c : Char} {w : List Char} :
    Closes (c :: w) ↔ (c = '*' ∧ w.head? = some '/') ∨ Closes w := by
  rw [Closes, List.infix_cons_iff, List.cons_prefix_cons, eq_comm]
  cases w with
  | nil => simp [Closes]
  | cons d w => simp [Closes, List.cons_prefix_cons, eq_comm]

private theorem not_closes_stars {w : List Char} (h : ¬ Closes w) (hw : w.head? ≠ some '/') (n : Nat) :
    ¬ Closes (List.replicate n '*' ++ w) := by
  induction n with
  | zero => exact h
  | succ n ih =>
    rw [List.replicate_succ, List.cons_append, closes_cons_iff]
    rintro (⟨-, hn⟩ | hn)
    · cases n with
      | zero => exact hw hn
      | succ n => simp [List.replicate_succ] at hn
    · exact ih hn

private theorem not_closes_of_steps {u w : List Char} (hu : Matches (.star commentStep) u)
    (hw : ¬ Closes w) : ¬ Closes (u ++ w) := by
  generalize hp : Pattern.star commentStep = p at hu
  induction hu with
  | empty | one | seq | left | right => cases hp
  | done => exact hw
  | @more _ u v hu _ _ ih =>
    cases hp
    obtain ⟨n, c, rfl, hstar, hslash⟩ := matches_commentStep_iff.mp hu
    have hc : ¬ Closes (c :: (v ++ w)) := by
      rw [closes_cons_iff]
      exact fun h => h.elim (fun h => hstar h.1) (ih rfl)
    rw [List.append_assoc, List.append_assoc]
    cases n with
    | zero => exact hc
    | succ n => exact not_closes_stars hc (by simpa using hslash (Nat.succ_pos n)) (n + 1)

/-- A text with a star behind it that closes no comment is walked through in steps until only stars
are left. -/
private theorem exists_steps {u : List Char} (h : ¬ Closes (u ++ ['*'])) :
    ∃ v n, u ++ ['*'] = v ++ List.replicate (n + 1) '*' ∧ Matches (.star commentStep) v := by
  induction u with
  | nil => exact ⟨[], 0, rfl, .done⟩
  | cons c u ih =>
    rw [List.cons_append, closes_cons_iff, not_or] at h
    obtain ⟨v, n, hv, hm⟩ := ih h.2
    rw [List.cons_append, hv]
    by_cases hc : c = '*'
    · subst hc
      cases hm with
      | done => exact ⟨[], n + 1, rfl, .done⟩
      | @more _ x y hx hy =>
        -- the star joins the first step, which may therefore not be a slash
        obtain ⟨m, d, rfl, hstar, hslash⟩ := matches_commentStep_iff.mp hx
        refine ⟨'*' :: (List.replicate m '*' ++ [d]) ++ y, n, rfl, .more ?_ hy⟩
        refine matches_commentStep_iff.mpr ⟨m + 1, d, rfl, hstar, fun _ => ?_⟩
        cases m with
        | zero =>
          rintro rfl
          exact h.1 ⟨rfl, by rw [hv]; rfl⟩
        | succ m => exact hslash (Nat.succ_pos m)
    · refine ⟨[c] ++ v, n, rfl, .more ?_ hm⟩
      exact matches_commentStep_iff.mpr ⟨0, c, rfl, hc, by simp⟩

/-- A comment in stars ends at the first place where it is closed. -/
theorem matches_starComment_iff {w : List Char} :
    Matches starComment w ↔ ∃ u, w = ['/', '*'] ++ u ++ ['*', '/'] ∧ ¬ Closes (u ++ ['*']) := by
  constructor
  · intro h
    cases h with
    | seq ho h =>
      cases h with
      | seq hs h =>
        cases h with
        | seq hp h =>
          cases h with
          | seq hl he =>
            obtain rfl := eq_of_matches_word ho
            obtain ⟨n, rfl⟩ := matches_plus_stars_iff.mp hp
            cases he
            cases hl with
            | @one _ c hc =>
              rename_i v
              have hslash : c = '/' := List.mem_singleton.mp (CharSet.contains_of_iff.mp hc)
              subst hslash
              refine ⟨v ++ List.replicate n '*', by simp [List.replicate_succ'], ?_⟩
              rw [List.append_assoc, ← List.replicate_succ']
              refine not_closes_of_steps hs ?_
              simpa using not_closes_stars (w := []) (by simp [Closes]) (by simp) (n + 1)
  · rintro ⟨u, rfl, h⟩
    obtain ⟨v, n, hv, hm⟩ := exists_steps h
    have hw : ['/', '*'] ++ u ++ ['*', '/'] =
        "/*".toList ++ (v ++ (List.replicate (n + 1) '*' ++ (['/'] ++ []))) := by
      have := congrArg (['/', '*'] ++ · ++ ['/']) hv
      simpa using this
    rw [hw]
    refine .seq ?_ (.seq hm (.seq (matches_plus_stars_iff.mpr ⟨n, rfl⟩) (.seq (.one rfl) .empty)))
    exact .seq (u := ['/']) (.one rfl) (.seq (u := ['*']) (.one rfl) .empty)

/-! ### The words of the kinds -/

/-- The words of a kind. The end of the input has none, and a comment in stars ends where it is
closed first. -/
def HasWord (k : Kind) (w : List Char) : Prop :=
  match k with
  | .eof => False
  | .comment => ∃ u, w = ['/', '*'] ++ u ++ ['*', '/'] ∧ ¬ Closes (u ++ ['*'])
  | k => (pattern k).Matches w

theorem hasWord_iff {k : Kind} {w : List Char} :
    HasWord k w ↔ k ≠ .eof ∧ (pattern k).Matches w := by
  unfold HasWord
  split
  · simp
  · have hpattern : pattern .comment = starComment := rfl
    rw [← matches_starComment_iff, hpattern]
    exact ⟨fun h => ⟨by decide, h⟩, And.right⟩
  · rename_i hne _
    exact ⟨fun h => ⟨hne, h⟩, And.right⟩

/-- Some word begins with these characters. -/
def Begins (u : List Char) : Prop := ∃ k w, HasWord k (u ++ w)

theorem Begins.of_append {u v : List Char} (h : Begins (u ++ v)) : Begins u := by
  obtain ⟨k, w, hw⟩ := h
  exact ⟨k, v ++ w, by rwa [← List.append_assoc]⟩

theorem Begins.take {u : List Char} (h : Begins u) (n : Nat) : Begins (u.take n) :=
  Begins.of_append (v := u.drop n) (by rwa [List.take_append_drop])

/-- The longest word at the front of a text has `n` characters, and `k` is the preferred one among
its kinds. -/
structure IsLongest (text : List Char) (k : Kind) (n : Nat) : Prop where
  pos : 0 < n
  le : n ≤ text.length
  word : HasWord k (text.take n)
  longest : ∀ j m, n < m → m ≤ text.length → ¬ HasWord j (text.take m)
  preferred : ∀ j, j.index < k.index → ¬ HasWord j (text.take n)

/-- No word stands at the front of a text, and the `n`th character is the first one after which no
word can go on, or the last one of the text. -/
structure IsStuck (text : List Char) (n : Nat) : Prop where
  pos : 0 < n
  le : n ≤ text.length
  wordless : ∀ k m, 0 < m → m ≤ text.length → ¬ HasWord k (text.take m)
  begins : ∀ m, m < n → Begins (text.take m)
  stops : n = text.length ∨ ¬ Begins (text.take n)

/-- What a stretch at the front of a text ought to be. -/
def Munch.IsMaximal (m : Munch) (text : List Char) : Prop :=
  match m.kind with
  | some k => IsLongest text k m.length
  | none => IsStuck text m.length

/-! ### The patterns left over -/

/-- The patterns that describe all words beginning with `u`, the preferred kinds first. -/
structure Exhausts (u : List Char) (live : List (Kind × Pattern)) : Prop where
  sound : Sound u live
  exhaustive : ∀ k w, HasWord k (u ++ w) → ∃ q, (k, q) ∈ live ∧ q.Matches w
  inhabited : ∀ r ∈ live, r.2.isInhabited = true
  ordered : live.Pairwise fun r s => r.1.index ≤ s.1.index

private theorem eraseDups_sublist {α : Type} [BEq α] (l : List α) : l.eraseDups.Sublist l := by
  induction hn : l.length using Nat.strongRecOn generalizing l with
  | _ n ih =>
    cases l with
    | nil => simp
    | cons a l =>
      rw [List.eraseDups_cons]
      have hle := List.length_filter_le (fun b => !b == a) l
      have hlt : (l.filter fun b => !b == a).length < n := by
        rw [← hn, List.length_cons]
        exact Nat.lt_succ_of_le hle
      exact ((ih _ hlt _ rfl).trans List.filter_sublist).cons_cons a

private theorem inhabited_pattern : ∀ k : Kind, (pattern k).isInhabited = true := by
  intro k
  cases k <;> decide +kernel

private theorem exhausts_rules : Exhausts [] rules where
  sound := sound_rules
  exhaustive k w h := by
    obtain ⟨hk, hw⟩ := hasWord_iff.mp h
    have hall : k ∈ Kind.all := by cases k <;> decide
    exact ⟨pattern k, List.mem_map_of_mem ((List.mem_erase_of_ne hk).mpr hall), hw⟩
  inhabited r hr := by
    obtain ⟨k, -, rfl⟩ := List.mem_map.mp hr
    exact inhabited_pattern k
  ordered := by
    rw [rules, List.pairwise_map]
    decide +kernel

namespace Exhausts

variable {u : List Char} {live : List (Kind × Pattern)} {c : Char}

theorem step (h : Exhausts u live) (c : Char) : Exhausts (u ++ [c]) (step c live) where
  sound := h.sound.step c
  exhaustive k w hw := by
    rw [List.append_assoc] at hw
    obtain ⟨q, hq, hm⟩ := h.exhaustive k (c :: w) hw
    obtain ⟨r, hr, hm⟩ := exists_after_of_matches hm
    refine ⟨r, ?_, hm⟩
    simp only [Lexicon.step, List.mem_eraseDups, List.mem_flatMap]
    exact ⟨(k, q), hq, List.mem_map_of_mem hr⟩
  inhabited r hr := by
    simp only [Lexicon.step, List.mem_eraseDups, List.mem_flatMap, List.mem_map] at hr
    obtain ⟨s, hs, p, hp, rfl⟩ := hr
    exact isInhabited_of_mem_after (h.inhabited s hs) hp
  ordered := by
    refine List.Pairwise.sublist (eraseDups_sublist _) (List.pairwise_flatMap.mpr ⟨?_, ?_⟩)
    · exact fun s _ => List.pairwise_map.mpr (List.pairwise_of_forall fun _ _ => Nat.le_refl _)
    · refine h.ordered.imp fun {s t} hst x hx y hy => ?_
      obtain ⟨-, -, rfl⟩ := List.mem_map.mp hx
      obtain ⟨-, -, rfl⟩ := List.mem_map.mp hy
      exact hst

theorem begins_iff (h : Exhausts u live) : Begins u ↔ live ≠ [] := by
  constructor
  · rintro ⟨k, w, hw⟩ rfl
    obtain ⟨q, hq, -⟩ := h.exhaustive k w hw
    exact List.not_mem_nil hq
  · intro hne
    obtain ⟨r, hr⟩ := List.exists_mem_of_ne_nil live hne
    obtain ⟨w, hw⟩ := exists_matches (h.inhabited r hr)
    obtain ⟨hk, hs⟩ := h.sound r hr
    exact ⟨r.1, w, hasWord_iff.mpr ⟨hk, hs w hw⟩⟩

theorem exists_nullable (h : Exhausts u live) {k : Kind} (hk : HasWord k u) :
    ∃ q, (k, q) ∈ live ∧ q.nullable = true := by
  obtain ⟨q, hq, hm⟩ := h.exhaustive k [] (by rwa [List.append_nil])
  exact ⟨q, hq, nullable_of_matches_nil hm⟩

/-- A complete word has the preferred one among its kinds. -/
theorem of_complete? (h : Exhausts u live) {k : Kind} (hk : complete? live = some k) :
    HasWord k u ∧ ∀ j, j.index < k.index → ¬ HasWord j u := by
  refine ⟨hasWord_iff.mpr (h.sound.complete hk), fun j hj hw => ?_⟩
  obtain ⟨q, hq, hn⟩ := h.exists_nullable hw
  simp only [complete?, Option.map_eq_some_iff] at hk
  obtain ⟨r, hr, rfl⟩ := hk
  obtain ⟨-, before, behind, rfl, hbefore⟩ := List.find?_eq_some_iff_append.mp hr
  have hord := (List.pairwise_append.mp h.ordered).2.1
  rcases List.mem_append.mp hq with hq | hq
  · simpa [hn] using hbefore _ hq
  · rcases List.mem_cons.mp hq with rfl | hq
    · exact Nat.lt_irrefl _ hj
    · exact Nat.not_lt.mpr ((List.pairwise_cons.mp hord).1 _ hq) hj

theorem of_complete?_none (h : Exhausts u live) (hk : complete? live = none) (j : Kind) :
    ¬ HasWord j u := by
  intro hw
  obtain ⟨q, hq, hn⟩ := h.exists_nullable hw
  simp only [complete?, Option.map_eq_none_iff, List.find?_eq_none] at hk
  exact hk _ hq hn

end Exhausts

/-! ### The race -/

/-- The longest word among the first characters of a text. -/
def IsBest (best : Option Munch) (u : List Char) : Prop :=
  match best with
  | some m => ∃ k, m.kind = some k ∧ IsLongest u k m.length
  | none => ∀ k m, 0 < m → m ≤ u.length → ¬ HasWord k (u.take m)

private theorem not_hasWord_concat {u : List Char} {c : Char} {k : Kind} {n m : Nat}
    (hu : ∀ m, n < m → m ≤ u.length → ¬ HasWord k (u.take m)) (hc : ¬ HasWord k (u ++ [c]))
    (hn : n < m) (hm : m ≤ (u ++ [c]).length) : ¬ HasWord k ((u ++ [c]).take m) := by
  rw [List.length_append, List.length_singleton] at hm
  by_cases hle : m ≤ u.length
  · rw [List.take_append_of_le_length hle]
    exact hu m hn hle
  · have hlen : m = (u ++ [c]).length := by
      rw [List.length_append, List.length_singleton]
      omega
    rwa [hlen, List.take_length]

/-- A character that completes no word leaves the longest word as it is. -/
theorem IsBest.concat {best : Option Munch} {u : List Char} (h : IsBest best u) {c : Char}
    (hc : ∀ k, ¬ HasWord k (u ++ [c])) : IsBest best (u ++ [c]) := by
  cases best with
  | none => exact fun k m hpos hle => not_hasWord_concat (fun m => h k m) (hc k) hpos hle
  | some m =>
    obtain ⟨k, hk, hl⟩ := h
    have htake : (u ++ [c]).take m.length = u.take m.length := List.take_append_of_le_length hl.le
    refine ⟨k, hk, hl.pos, ?_, by rw [htake]; exact hl.word, ?_, by rw [htake]; exact hl.preferred⟩
    · rw [List.length_append]
      exact Nat.le_add_right_of_le hl.le
    · exact fun j n hlt hle => not_hasWord_concat (fun n => hl.longest j n) (hc j) hlt hle

/-- A word that has just been completed is the longest one. -/
theorem IsBest.of_complete? {u : List Char} {live : List (Kind × Pattern)} (hl : Exhausts u live)
    {k : Kind} (hk : complete? live = some k) (hne : u ≠ []) : IsBest (some ⟨some k, u.length⟩) u := by
  obtain ⟨hw, hp⟩ := hl.of_complete? hk
  refine ⟨k, rfl, List.length_pos_iff.mpr hne, Nat.le_refl _, ?_, ?_, ?_⟩
  · rwa [List.take_length]
  · exact fun j m hlt hle => absurd hle (Nat.not_le.mpr hlt)
  · rwa [List.take_length]

/-- Where no word goes on after `u`, the longest word in `u` is the longest word of the text. -/
theorem IsBest.getD {best : Option Munch} {u cs : List Char} {n : Nat} (h : IsBest best u)
    (hpos : 0 < n) (hle : n ≤ (u ++ cs).length) (hend : u.length < (u ++ cs).length → ∀ m, u.length < m →
      ¬ Begins ((u ++ cs).take m))
    (hbegins : ∀ m, m < n → Begins ((u ++ cs).take m))
    (hstops : n = (u ++ cs).length ∨ ¬ Begins ((u ++ cs).take n)) :
    (best.getD ⟨none, n⟩).IsMaximal (u ++ cs) := by
  have hbeyond : ∀ k m, u.length < m → m ≤ (u ++ cs).length → ¬ HasWord k ((u ++ cs).take m) :=
    fun k m hlt hm hw => hend (Nat.lt_of_lt_of_le hlt hm) m hlt ⟨k, [], by rwa [List.append_nil]⟩
  cases best with
  | none =>
    refine ⟨hpos, hle, fun k m hm hmle => ?_, hbegins, hstops⟩
    by_cases hmu : m ≤ u.length
    · rw [List.take_append_of_le_length hmu]
      exact h k m hm hmu
    · exact hbeyond k m (Nat.not_le.mp hmu) hmle
  | some m =>
    obtain ⟨k, hk, hl⟩ := h
    have htake : (u ++ cs).take m.length = u.take m.length := List.take_append_of_le_length hl.le
    simp only [Option.getD_some, Munch.IsMaximal, hk]
    refine ⟨hl.pos, ?_, by rw [htake]; exact hl.word, fun j i hlt hi => ?_,
      by rw [htake]; exact hl.preferred⟩
    · rw [List.length_append]
      exact Nat.le_add_right_of_le hl.le
    · by_cases hiu : i ≤ u.length
      · rw [List.take_append_of_le_length hiu]
        exact hl.longest j i hlt hiu
      · exact hbeyond j i (Nat.not_le.mp hiu) hi

/-- The race from the middle of a text: `u` has been read, and some word may still begin with it. -/
theorem race_isMaximal {live : List (Kind × Pattern)} {best : Option Munch} (u cs : List Char)
    (hl : Exhausts u live) (hb : IsBest best u) (hu : Begins u) (hne : u ++ cs ≠ []) :
    (race live u.length best cs).IsMaximal (u ++ cs) := by
  induction cs generalizing u live best with
  | nil =>
    rw [List.append_nil] at hne
    refine hb.getD (List.length_pos_iff.mpr hne) (by simp) (by simp) ?_ (by simp)
    intro m _
    rw [List.append_nil]
    exact hu.take m
  | cons c cs ih =>
    have hs := hl.step c
    have happ : u ++ c :: cs = u ++ [c] ++ cs := by simp
    simp only [race]
    split
    · rename_i hnil
      have hend : ¬ Begins (u ++ [c]) := fun h => hs.begins_iff.mp h hnil
      have hbeyond : ∀ m, u.length < m → ¬ Begins ((u ++ c :: cs).take m) := by
        intro m hm h
        refine hend (Begins.of_append (v := cs.take (m - (u ++ [c]).length)) ?_)
        rwa [happ, List.take_append, List.take_of_length_le (by simp; omega)] at h
      refine hb.getD (Nat.succ_pos _) (by simp) (fun _ => hbeyond) (fun m hm => ?_)
        (.inr (hbeyond _ (Nat.lt_succ_self _)))
      rw [List.take_append_of_le_length (Nat.le_of_lt_succ hm)]
      exact hu.take m
    · rename_i live' hlive
      have hbegins : Begins (u ++ [c]) := hs.begins_iff.mpr (fun h => hlive h)
      have hlen : u.length + 1 = (u ++ [c]).length := by simp
      rw [happ, hlen]
      refine ih (u ++ [c]) hs ?_ hbegins (by simp)
      split
      · rename_i k hk
        exact .of_complete? hs hk (by simp)
      · rename_i hk
        exact hb.concat (hs.of_complete?_none hk)

/-- What is taken off the front of a text is the longest word there, of the preferred kind, and
without any word what keeps words from going on. -/
theorem munch_isMaximal (c : Char) (cs : List Char) : (munch (c :: cs)).IsMaximal (c :: cs) := by
  refine race_isMaximal [] (c :: cs) exhausts_rules ?_ ?_ (by simp)
  · exact fun k m hpos hle => absurd hle (Nat.not_le.mpr hpos)
  · exact exhausts_rules.begins_iff.mpr (by decide)

end ResourceNames.Java.Lexicon

namespace ResourceNames.Java

open Lexicon

theorem isMaximal_of_mem_piecesFrom {text cs : List Char} {p : Place} {skip : Nat}
    (hcs : text.drop p.offset = cs) {q : Piece} (h : q ∈ piecesFrom cs p skip) :
    Munch.IsMaximal ⟨q.kind, q.text.length⟩ (text.drop q.start.offset) := by
  induction cs generalizing p skip with
  | nil => simp [piecesFrom] at h
  | cons c cs ih =>
    have hnext : text.drop (p.advance c).offset = cs := by
      rw [Place.offset_advance, ← List.drop_drop, hcs]
      rfl
    cases skip with
    | succ skip => exact ih hnext h
    | zero =>
      rcases List.mem_cons.mp h with rfl | h
      · rw [hcs, List.length_take, Nat.min_eq_left (munch_fits c cs).le]
        exact munch_isMaximal c cs
      · exact ih hnext h

theorem isMaximal_of_mem_pieces {text : List Char} {q : Piece} (h : q ∈ pieces text) :
    Munch.IsMaximal ⟨q.kind, q.text.length⟩ (text.drop q.start.offset) :=
  isMaximal_of_mem_piecesFrom (p := Place.start) rfl h

namespace Source

/-- The places at which a token is looked for: the beginning of the text, and before its end every
place right behind a token or a lexical error. -/
def IsStart (text : String) (p : Nat) : Prop :=
  p < text.length ∧ (p = 0 ∨ (∃ t ∈ (ofString text).tokens.toList, t.kind ≠ .eof ∧ t.span.stop = p) ∨
    ∃ e ∈ (ofString text).errors, e.span.stop = p)

/-- Tokens before the end and lexical errors stand where the pieces stand. -/
private theorem exists_piece_iff (text : String) (P : Span → Prop) :
    (∃ s ∈ (pieces text.toList).map Piece.span, P s) ↔
      (∃ t ∈ (ofString text).tokens.toList, t.kind ≠ .eof ∧ P t.span) ∨
        ∃ e ∈ (ofString text).errors, P e.span := by
  constructor
  · rintro ⟨_, hs, hP⟩
    obtain ⟨q, hq, rfl⟩ := List.mem_map.mp hs
    cases hk : q.kind with
    | some k =>
      obtain ⟨t, ht, rfl, hstart, htext⟩ := exists_mem_number (n := 0) hq hk
      have hne := (isWord_of_mem_words ht).1
      refine .inl ⟨t, List.mem_append_left _ ht, hne, ?_⟩
      rwa [Token.span, Token.length, if_neg hne, hstart, ← String.length_toList, htext]
    | none =>
      obtain ⟨e, he, hstart, htext⟩ := exists_mem_rejected (n := 0) hq hk
      refine .inr ⟨e, he, ?_⟩
      rwa [LexicalError.span, hstart, ← String.length_toList, htext]
  · rintro (⟨t, ht, hne, hP⟩ | ⟨e, he, hP⟩)
    · rw [toList_tokens_ofString, List.mem_append, List.mem_singleton] at ht
      rcases ht with ht | rfl
      · obtain ⟨q, hq, -, hstart, htext⟩ := mem_number ht
        refine ⟨q.span, List.mem_map_of_mem hq, ?_⟩
        rwa [Token.span, Token.length, if_neg hne, ← hstart, ← String.length_toList, ← htext] at hP
      · exact absurd rfl hne
    · obtain ⟨q, hq, -, hstart, htext⟩ := mem_rejected he
      refine ⟨q.span, List.mem_map_of_mem hq, ?_⟩
      rwa [Piece.span, hstart, htext, String.length_toList]

theorem isStart_iff {text : String} {p : Nat} :
    IsStart text p ↔ ∃ s ∈ (pieces text.toList).map Piece.span, s.start = p := by
  rw [(tiles_pieces text.toList).exists_start_iff, exists_piece_iff text fun s => s.stop = p,
    String.length_toList]
  rfl

/-- Wherever a token is looked for, the longest word that stands there is the token, and it has the
preferred one among the kinds of that word. If no word stands there, there is a lexical error, which
ends with the first character after which no word can go on, or with the text. Every token and every
error stands at such a place. -/
theorem longest_word_wherever_token_starts (text : String) :
    (∀ p, IsStart text p →
      ((∃ k n, 0 < n ∧ n ≤ (text.toList.drop p).length ∧ HasWord k ((text.toList.drop p).take n)) →
        ∃ t ∈ (ofString text).tokens.toList, t.start.offset = p ∧
          IsLongest (text.toList.drop p) t.kind t.length) ∧
      (¬ (∃ k n, 0 < n ∧ n ≤ (text.toList.drop p).length ∧ HasWord k ((text.toList.drop p).take n)) →
        ∃ e ∈ (ofString text).errors, e.start.offset = p ∧
          IsStuck (text.toList.drop p) e.text.length)) ∧
    (∀ t ∈ (ofString text).tokens.toList, t.kind ≠ .eof → IsStart text t.start.offset) ∧
    ∀ e ∈ (ofString text).errors, IsStart text e.start.offset := by
  refine ⟨fun p hp => ?_, fun t ht hne => ?_, fun e he => ?_⟩
  · obtain ⟨_, hs, rfl⟩ := isStart_iff.mp hp
    obtain ⟨q, hq, rfl⟩ := List.mem_map.mp hs
    have hmax := isMaximal_of_mem_pieces hq
    cases hk : q.kind with
    | some k =>
      rw [hk] at hmax
      have hlong : IsLongest (text.toList.drop q.start.offset) k q.text.length := hmax
      refine ⟨fun _ => ?_, fun hno => absurd ⟨k, _, hlong.pos, hlong.le, hlong.word⟩ hno⟩
      obtain ⟨t, ht, rfl, hstart, htext⟩ := exists_mem_number (n := 0) hq hk
      refine ⟨t, List.mem_append_left _ ht, congrArg Place.offset hstart, ?_⟩
      rwa [Token.length, if_neg (isWord_of_mem_words ht).1, ← String.length_toList, htext]
    | none =>
      rw [hk] at hmax
      have hstuck : IsStuck (text.toList.drop q.start.offset) q.text.length := hmax
      have hnone : ¬ ∃ k n, 0 < n ∧ n ≤ (text.toList.drop q.start.offset).length ∧
          HasWord k ((text.toList.drop q.start.offset).take n) := by
        rintro ⟨k, n, hpos, hle, hw⟩
        exact hstuck.wordless k n hpos hle hw
      refine ⟨fun hword => absurd hword hnone, fun _ => ?_⟩
      obtain ⟨e, he, hstart, htext⟩ := exists_mem_rejected (n := 0) hq hk
      refine ⟨e, he, congrArg Place.offset hstart, ?_⟩
      rwa [← String.length_toList, htext]
  · exact isStart_iff.mpr
      ((exists_piece_iff text fun s => s.start = t.start.offset).mpr (.inl ⟨t, ht, hne, rfl⟩))
  · exact isStart_iff.mpr
      ((exists_piece_iff text fun s => s.start = e.start.offset).mpr (.inr ⟨e, he, rfl⟩))

end Source

end ResourceNames.Java
