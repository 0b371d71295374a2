import Mathlib.Computability.Language
import ResourceNames.Proofs.Derivations

/-!
The sentences of the grammar.

`Phrase.Spells` reads the grammar as a context-free one: it says which rows of kinds a phrase can be
derived to, where a rule stands for its right-hand sides and the levels of operands do not matter.
The rows of a phrase are a language, put together from those of its parts. An expression derived by
its left-recursive right-hand sides is a head with tails behind it.
-/
namespace ResourceNames.Java

open Computability

/-- The rows of kinds to which a phrase can be derived. -/
inductive Phrase.Spells : Phrase → List Kind → Prop where
  | token {kind field} : Spells (.token kind field) [kind]
  | oneOf {kinds field kind} (mem : kind ∈ kinds) : Spells (.oneOf kinds field) [kind]
  | call {rule level field p w} (mem : p ∈ Accessor.alternatives rule) (body : Spells p w) :
      Spells (.call rule level field) w
  | nil : Spells (.seq []) []
  | cons {p ps u v} (first : Spells p u) (rest : Spells (.seq ps) v) :
      Spells (.seq (p :: ps)) (u ++ v)
  | choice {alts p w} (mem : p ∈ alts) (word : Spells p w) : Spells (.choice alts) w
  | opt {alts p w} (mem : p ∈ alts) (word : Spells p w) : Spells (.opt alts) w
  | skip {alts} : Spells (.opt alts) []
  | done {body} : Spells (.star body) []
  | more {body u v} (first : Spells body u) (rest : Spells (.star body) v) :
      Spells (.star body) (u ++ v)
  | plus {body u v} (first : Spells body u) (rest : Spells (.star body) v) :
      Spells (.plus body) (u ++ v)

def Rule.Spells (r : Rule) (w : List Kind) : Prop := ∃ p ∈ Accessor.alternatives r, p.Spells w

namespace Phrase

def language (p : Phrase) : Language Kind := {w | p.Spells w}

def languageAny (ps : List Phrase) : Language Kind := {w | ∃ p ∈ ps, p.Spells w}

variable {p : Phrase} {ps alts : List Phrase} {w : List Kind}

theorem mem_languageAny : w ∈ languageAny ps ↔ ∃ p ∈ ps, w ∈ p.language := Iff.rfl

theorem mem_language_token {kind : Kind} {field : Option Field} :
    w ∈ (token kind field).language ↔ w = [kind] := by
  constructor
  · rintro ⟨⟩
    rfl
  · rintro rfl
    exact .token

theorem mem_language_oneOf {kinds : List Kind} {field : Option Field} :
    w ∈ (oneOf kinds field).language ↔ ∃ k ∈ kinds, w = [k] := by
  constructor
  · intro h
    cases h with
    | oneOf mem => exact ⟨_, mem, rfl⟩
  · rintro ⟨k, hk, rfl⟩
    exact .oneOf hk

@[simp] theorem language_seq_nil : (seq []).language = 1 := by
  ext w
  rw [Language.mem_one]
  constructor
  · rintro ⟨⟩
    rfl
  · rintro rfl
    exact .nil

@[simp] theorem language_seq_cons : (seq (p :: ps)).language = p.language * (seq ps).language := by
  ext w
  rw [Language.mem_mul]
  constructor
  · intro h
    cases h with
    | cons first rest => exact ⟨_, first, _, rest, rfl⟩
  · rintro ⟨u, hu, v, hv, rfl⟩
    exact .cons hu hv

@[simp] theorem language_choice : (choice alts).language = languageAny alts := by
  ext w
  constructor
  · intro h
    cases h with
    | choice mem word => exact ⟨_, mem, word⟩
  · rintro ⟨p, hp, hw⟩
    exact .choice hp hw

@[simp] theorem language_opt : (opt alts).language = 1 + languageAny alts := by
  ext w
  rw [Language.mem_add, Language.mem_one]
  constructor
  · intro h
    cases h with
    | opt mem word => exact .inr ⟨_, mem, word⟩
    | skip => exact .inl rfl
  · rintro (rfl | ⟨p, hp, hw⟩)
    · exact .skip
    · exact .opt hp hw

private theorem spells_star_flatten {words : List (List Kind)} (h : ∀ u ∈ words, p.Spells u) :
    (star p).Spells words.flatten := by
  induction words with
  | nil => exact .done
  | cons u words ih =>
    exact .more (h u List.mem_cons_self) (ih fun v hv => h v (List.mem_cons_of_mem u hv))

private theorem exists_words_of_spells_star {q : Phrase} (h : q.Spells w) (hq : q = star p) :
    ∃ words : List (List Kind), w = words.flatten ∧ ∀ u ∈ words, p.Spells u := by
  induction h with
  | token | oneOf | call | nil | cons | choice | opt | skip | plus => cases hq
  | done => exact ⟨[], rfl, by simp⟩
  | more first _ _ ih =>
    cases hq
    obtain ⟨words, rfl, hw⟩ := ih rfl
    exact ⟨_ :: words, rfl, by simpa using ⟨first, hw⟩⟩

@[simp] theorem language_star : (star p).language = p.language∗ := by
  ext w
  rw [Language.mem_kstar]
  constructor
  · exact fun h => exists_words_of_spells_star h rfl
  · rintro ⟨words, rfl, hw⟩
    exact spells_star_flatten hw

@[simp] theorem language_plus : (plus p).language = p.language * p.language∗ := by
  rw [← language_star]
  ext w
  rw [Language.mem_mul]
  constructor
  · intro h
    cases h with
    | plus first rest => exact ⟨_, first, _, rest, rfl⟩
  · rintro ⟨u, hu, v, hv, rfl⟩
    exact .plus hu hv

end Phrase

def Rule.language (r : Rule) : Language Kind := {w | r.Spells w}

@[simp] theorem Phrase.language_call {rule : Rule} {level : Nat} {field : Option Field} :
    (call rule level field).language = rule.language := by
  ext w
  constructor
  · intro h
    cases h with
    | call mem body => exact ⟨_, mem, body⟩
  · rintro ⟨p, hp, hw⟩
    exact .call hp hw

namespace Rule

variable {r : Rule}

theorem language_of_alternatives {alts : List Phrase} (h : Grammar.body r = .alternatives alts) :
    r.language = Phrase.languageAny alts := by
  have ha : Accessor.alternatives r = alts := by rw [Accessor.alternatives, h]
  ext w
  rw [← ha]
  rfl

section

variable {heads : List Phrase} {tails : List (Nat × Phrase)}

/-- What is derived from the rule by its left-recursive right-hand sides is a head with tails. -/
private theorem mem_of_spells {p : Phrase} {w : List Kind} (h : p.Spells w)
    (hr : Grammar.body r = .operators heads tails) :
    (∀ level field, p = .call r level field → w ∈ Phrase.languageAny heads *
      (Phrase.languageAny (tails.map Prod.snd))∗) ∧
    ∀ ps, p = .seq (.call r 0 none :: ps) → w ∈ Phrase.languageAny heads *
      (Phrase.languageAny (tails.map Prod.snd))∗ * (Phrase.seq ps).language := by
  induction h with
  | token | oneOf | nil | choice | opt | skip | done | more | plus => exact ⟨nofun, nofun⟩
  | @call rule level field p w mem body ih =>
    refine ⟨?_, nofun⟩
    rintro _ _ ⟨⟩
    rw [Accessor.alternatives, hr] at mem
    rcases List.mem_append.mp mem with mem | mem
    · refine Language.mem_mul.mpr ⟨w, ⟨p, mem, body⟩, [], Language.nil_mem_kstar _, ?_⟩
      exact List.append_nil w
    · obtain ⟨t, ht, rfl⟩ := List.mem_map.mp mem
      have hw := ih.2 [t.2] rfl
      rw [Phrase.language_seq_cons, Phrase.language_seq_nil, mul_one, mul_assoc] at hw
      obtain ⟨u, hu, v, hv, rfl⟩ := Language.mem_mul.mp hw
      refine Language.append_mem_mul hu ?_
      obtain ⟨x, hx, y, hy, rfl⟩ := Language.mem_mul.mp hv
      rw [← Language.one_add_kstar_mul_self_eq_kstar]
      exact .inr (Language.append_mem_mul hx ⟨t.2, List.mem_map_of_mem ht, hy⟩)
  | cons first rest ih _ =>
    refine ⟨nofun, ?_⟩
    rintro _ ⟨⟩
    exact Language.append_mem_mul (ih.1 _ _ rfl) rest

private theorem spells_flatten (hr : Grammar.body r = .operators heads tails) {u : List Kind}
    (hu : r.Spells u) (words : List (List Kind))
    (hw : ∀ v ∈ words, v ∈ Phrase.languageAny (tails.map Prod.snd)) :
    r.Spells (u ++ words.flatten) := by
  induction words generalizing u with
  | nil => simpa using hu
  | cons v words ih =>
    obtain ⟨p, hp, hv⟩ := hw v List.mem_cons_self
    obtain ⟨t, ht, rfl⟩ := List.mem_map.mp hp
    obtain ⟨q, hq, hu⟩ := hu
    have hnext : r.Spells (u ++ v) := by
      refine ⟨.seq [.call r 0 none, t.2], ?_, ?_⟩
      · rw [Accessor.alternatives, hr]
        exact List.mem_append_right _ (List.mem_map.mpr ⟨t, ht, rfl⟩)
      · simpa using Phrase.Spells.cons (.call hq hu) (.cons hv .nil)
    simpa using ih hnext fun x hx => hw x (List.mem_cons_of_mem v hx)

/-- A rule that is given by operators stands for a head with any number of tails. -/
theorem language_of_operators (hr : Grammar.body r = .operators heads tails) :
    r.language = Phrase.languageAny heads * (Phrase.languageAny (tails.map Prod.snd))∗ := by
  ext w
  constructor
  · rintro ⟨p, hp, hw⟩
    exact (mem_of_spells (.call hp hw) hr).1 0 none rfl
  · intro h
    obtain ⟨u, ⟨p, hp, hu⟩, v, hv, rfl⟩ := Language.mem_mul.mp h
    obtain ⟨words, rfl, hw⟩ := Language.mem_kstar.mp hv
    refine spells_flatten hr ⟨p, ?_, hu⟩ words hw
    rw [Accessor.alternatives, hr]
    exact List.mem_append_left _ hp

end

end Rule

def Form.language (f : Form) : Language Kind := f.phrase.language

def Form.languageSeq (fs : List Form) : Language Kind := (Phrase.seq (phrases fs)).language

def Form.languageAny (fs : List Form) : Language Kind := {w | ∃ f ∈ fs, w ∈ f.language}

def Operators.tailLanguage (ops : Operators) : Language Kind :=
  Form.languageAny (ops.tails.map Prod.snd)

namespace Form

variable {fs : List Form} {w : List Kind}

theorem mem_languageAny : w ∈ languageAny fs ↔ ∃ f ∈ fs, w ∈ f.language := Iff.rfl

theorem languageAny_nil : languageAny [] = 0 := by
  ext w
  simp [mem_languageAny, Language.notMem_zero]

theorem languageAny_cons (f : Form) (fs : List Form) :
    languageAny (f :: fs) = f.language + languageAny fs := by
  ext w
  rw [Language.mem_add]
  simp [mem_languageAny]

theorem languageAny_eq (fs : List Form) : languageAny fs = Phrase.languageAny (phrases fs) := by
  ext w
  rw [phrases_eq_map, Phrase.mem_languageAny]
  simp [mem_languageAny, language]

@[simp] theorem languageSeq_nil : languageSeq [] = 1 := Phrase.language_seq_nil

@[simp] theorem languageSeq_cons (f : Form) (fs : List Form) :
    languageSeq (f :: fs) = f.language * languageSeq fs := Phrase.language_seq_cons

@[simp] theorem language_call (here next : Point) (rule : Rule) (level : Nat)
    (field : Option Field) : (Form.call here next rule level field).language = rule.language :=
  Phrase.language_call

@[simp] theorem language_seq (entry : Point) (parts : List Form) :
    (Form.seq entry parts).language = languageSeq parts := rfl

@[simp] theorem language_choice (start join : Point) (alts : List Form) :
    (Form.choice start join alts).language = languageAny alts := by
  rw [languageAny_eq]
  exact Phrase.language_choice

@[simp] theorem language_opt (start join : Point) (alts : List Form) :
    (Form.opt start join alts).language = 1 + languageAny alts := by
  rw [languageAny_eq]
  exact Phrase.language_opt

@[simp] theorem language_star (entry back next : Point) (body : Form) :
    (Form.star entry back next body).language = body.language∗ := Phrase.language_star

@[simp] theorem language_plus (start back next : Point) (body : Form) :
    (Form.plus start back next body).language = body.language * body.language∗ :=
  Phrase.language_plus

end Form

namespace Rule

variable {r : Rule}

theorem language_plain {f : Form} (h : (Layout.ruleForm r).body = .plain f) :
    f.language = r.language := by
  rw [Layout.ruleForm_eq_placeRule, Layout.placeRule] at h
  split at h
  · rename_i alt hb
    cases h
    rw [Form.language, Phrase.phrase_place, language_of_alternatives hb]
    ext w
    simp [Phrase.mem_languageAny]
  · rename_i alts _ hb
    cases h
    rw [Form.language, Phrase.phrase_place, language_of_alternatives hb, Phrase.language_choice]
  · cases h

private theorem map_phrase_placeTails (ts : List (Nat × Phrase)) (free next : Point) :
    Form.phrases ((Layout.placeTails ts free next).map Prod.snd) = ts.map Prod.snd := by
  induction ts generalizing free with
  | nil => rfl
  | cons t ts ih => simp [Layout.placeTails, Form.phrases, Phrase.phrase_place, ih]

theorem language_operators {ops : Operators} (h : (Layout.ruleForm r).body = .operators ops) :
    r.language = ops.heads.language * ops.tailLanguage∗ := by
  rw [Layout.ruleForm_eq_placeRule, Layout.placeRule] at h
  split at h
  · cases h
  · cases h
  · rename_i heads tails hb
    cases h
    rw [language_of_operators hb, Operators.tailLanguage, Form.languageAny_eq,
      map_phrase_placeTails, Form.language, Phrase.phrase_place, Phrase.language_choice]

end Rule

end ResourceNames.Java
