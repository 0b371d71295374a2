import ResourceNames.Java.Parser

/-!
Which alternatives looking ahead can come to.

Following alternatives through the tokens ahead never makes one up. An alternative that comes out
either had come to the end of its rule before the first token, or can read that token.
-/
namespace ResourceNames.Java

namespace Config

/-- A configuration with which reading can go on: it is at the end of a rule, or it can read the
next token. -/
def Fits (ahead : List Token) (c : Config) : Prop :=
  (c.left || isStop c.point) = true ∨ ∃ t ts, ahead = t :: ts ∧ (read? t.kind c).isSome

theorem mem_place {anyCaller : Bool} {x c : Config} {ds : List Config}
    (h : c ∈ place anyCaller x ds) :
    ∃ d ∈ x :: ds, d.point = c.point ∧ d.alt = c.alt ∧ (c.left = true → d.left = true) := by
  induction ds with
  | nil => exact ⟨c, by simpa [place] using h, rfl, rfl, id⟩
  | cons d ds ih =>
    simp only [place] at h
    split at h
    · rename_i hs
      simp only [sameWay, Bool.and_eq_true, beq_iff_eq] at hs
      rcases List.mem_cons.mp h with rfl | h
      · -- The two merged configurations are at one point for one alternative.
        cases hl : x.left with
        | true => exact ⟨x, by simp, rfl, rfl, fun _ => hl⟩
        | false => exact ⟨d, by simp, hs.1.symm, hs.2.symm, by simp [merge, hl]⟩
      · exact ⟨c, by simp [h], rfl, rfl, id⟩
    · split at h
      · exact ⟨c, h, rfl, rfl, id⟩
      · rcases List.mem_cons.mp h with rfl | h
        · exact ⟨c, by simp, rfl, rfl, id⟩
        · obtain ⟨e, he, hsame⟩ := ih h
          refine ⟨e, ?_, hsame⟩
          rcases List.mem_cons.mp he with rfl | he
          · simp
          · simp [he]

theorem mem_gather {anyCaller : Bool} {c : Config} {cs : List Config}
    (h : c ∈ gather anyCaller cs) :
    ∃ d ∈ cs, d.point = c.point ∧ d.alt = c.alt ∧ (c.left = true → d.left = true) := by
  induction cs generalizing c with
  | nil => simp [gather] at h
  | cons x cs ih =>
    obtain ⟨d, hd, hp, ha, hl⟩ := mem_place h
    rcases List.mem_cons.mp hd with rfl | hd
    · exact ⟨d, by simp, hp, ha, hl⟩
    · obtain ⟨e, he, hp', ha', hl'⟩ := ih hd
      exact ⟨e, by simp [he], hp'.trans hp, ha'.trans ha, hl' ∘ hl⟩

theorem alt_of_mem_beyond {anyCaller left : Bool} {alt : Nat} {rule : Rule}
    {callers : Callers} {c : Config} (h : c ∈ beyond anyCaller alt left rule callers) :
    c.alt = alt := by
  induction callers generalizing rule with
  | none => simp [beyond] at h
  | bottom =>
    simp only [beyond] at h
    split at h
    · obtain ⟨o, -, rfl⟩ := List.mem_map.mp h
      rfl
    · rw [List.mem_singleton.mp h]
  | top ret below others ihb iho =>
    simp only [beyond, List.mem_append] at h
    rcases h with (h | h) | h
    · obtain ⟨l, -, rfl⟩ := List.mem_map.mp h
      rfl
    · split at h
      · exact ihb h
      · simp at h
    · exact iho h

theorem alt_of_mem_spread {anyCaller left : Bool} {alt : Nat} {p : Point} {callers : Callers}
    {c : Config} (h : c ∈ spread anyCaller alt left p callers) : c.alt = alt := by
  simp only [spread, List.mem_append] at h
  rcases h with h | h
  · obtain ⟨l, -, rfl⟩ := List.mem_map.mp h
    rfl
  · split at h
    · exact alt_of_mem_beyond h
    · simp at h

theorem alt_of_read? {k : Kind} {c d : Config} (h : read? k c = some d) :
    d.alt = c.alt := by
  unfold read? at h
  generalize Item.ofPoint c.point = i at h
  cases i with
  | token ks next =>
    simp only at h
    split at h
    · rw [← Option.some.inj h]
    · simp at h
  | silent | call => simp at h

private theorem mem_kindsAt_of_read? {k : Kind} {c : Config} (h : (read? k c).isSome) :
    k ∈ Follow.kindsAt c.point := by
  unfold read? at h
  unfold Follow.kindsAt
  generalize Item.ofPoint c.point = i at h
  cases i with
  | token ks next =>
    simp only at h ⊢
    split at h
    · rename_i hk
      simpa using hk
    · simp at h
  | silent | call => simp at h

/-- At a point from which the end of the rule is not met, only the tokens met there can be read. -/
theorem mem_kinds_of_fits {anyCaller : Bool} {alt : Nat} {p : Point} {callers : Callers}
    {c : Config} {ahead : List Token} (h : c ∈ spread anyCaller alt false p callers)
    (hp : (Reach.point p).exits = false)
    (hs : ∀ l ∈ (Reach.point p).leaves, isStop l.point = false) {d : Config}
    (hpoint : c.point = d.point) (hleft : d.left = true → c.left = true) (hf : d.Fits ahead) :
    ∃ t ts, ahead = t :: ts ∧ ∃ l ∈ (Reach.point p).leaves, t.kind ∈ Follow.kindsAt l.point := by
  have hloops : (Reach.point p).loops = false := by
    simp only [Reach.exits, Bool.or_eq_false_iff] at hp
    exact hp.2
  simp only [spread, within, hp, hloops, Bool.false_and, Bool.false_eq_true, if_false,
    List.append_nil] at h
  obtain ⟨l, hl, rfl⟩ := List.mem_map.mp h
  rcases hf with hf | ⟨t, ts, rfl, hr⟩
  · rw [← hpoint, hs l hl, Bool.or_false] at hf
    simpa using hleft hf
  · have hl' : l.point = d.point := hpoint
    exact ⟨t, ts, rfl, l, hl, hl' ▸ mem_kindsAt_of_read? hr⟩

/-- The configurations after a token come from some that fit it. -/
private theorem exists_of_mem_advance {anyCaller : Bool} {cs : List Config} {t : Token}
    {ts : List Token} {c : Config} (h : c ∈ advance anyCaller cs t.kind) :
    ∃ d ∈ cs, d.alt = c.alt ∧ d.Fits (t :: ts) := by
  unfold advance at h
  extract_lets ended moved met kept at h
  have hended : ∀ e ∈ ended, ∃ d ∈ cs, d.alt = e.alt ∧ d.Fits (t :: ts) := by
    intro e he
    simp only [ended] at he
    split at he
    · simp at he
    · obtain ⟨hm, hs⟩ := List.mem_filter.mp he
      exact ⟨e, hm, rfl, .inl (by simp [hs])⟩
  have hmoved : ∀ e ∈ moved, ∃ d ∈ cs, d.alt = e.alt ∧ d.Fits (t :: ts) := by
    intro e he
    obtain ⟨x, hx, -, ha, -⟩ := mem_gather he
    obtain ⟨d, hd, hr⟩ := List.mem_filterMap.mp hx
    exact ⟨d, hd, (alt_of_read? hr).symm.trans ha, .inr ⟨t, ts, rfl, by simp [hr]⟩⟩
  split at h
  · exact hmoved c h
  · have hmet : ∀ e ∈ met, ∃ d ∈ cs, d.alt = e.alt ∧ d.Fits (t :: ts) := by
      intro e he
      obtain ⟨x, hx, -, ha, -⟩ := mem_gather he
      obtain ⟨y, hy, hxy⟩ := List.mem_flatMap.mp hx
      obtain ⟨d, hd, had, hf⟩ := hmoved y hy
      exact ⟨d, hd, by rw [had, ← alt_of_mem_spread hxy, ha], hf⟩
    have hkept : ∀ e ∈ kept, ∃ d ∈ cs, d.alt = e.alt ∧ d.Fits (t :: ts) := by
      intro e he
      simp only [kept] at he
      split at he
      · exact hmet e (List.mem_filter.mp he).1
      · exact hmet e he
    split at h
    · exact hkept c h
    · split at h
      · obtain ⟨x, hx, -, ha, -⟩ := mem_gather h
        rcases List.mem_append.mp hx with hx | hx
        · obtain ⟨d, hd, had, hf⟩ := hkept x hx
          exact ⟨d, hd, had.trans ha, hf⟩
        · obtain ⟨d, hd, had, hf⟩ := hended x hx
          exact ⟨d, hd, had.trans ha, hf⟩
      · exact hkept c h

theorem exists_of_only? {cs : List Config} {a : Nat} (h : only? cs = some a) :
    ∃ c ∈ cs, c.alt = a := by
  cases cs with
  | nil => simp [only?] at h
  | cons c cs =>
    simp only [only?] at h
    split at h
    · exact ⟨c, by simp, Option.some.inj h⟩
    · simp at h

private theorem exists_of_mem_alts {cs : List Config} {a : Nat} (h : a ∈ alts cs) :
    ∃ c ∈ cs, c.alt = a := by
  simpa [alts] using h

theorem exists_of_least? {cs : List Config} {a : Nat} (h : least? (alts cs) = some a) :
    ∃ c ∈ cs, c.alt = a :=
  exists_of_mem_alts (List.min?_mem h)

private theorem exists_of_winner? {cs : List Config} {a : Nat} (h : winner? cs = some a) :
    ∃ c ∈ cs, c.alt = a := by
  unfold winner? at h
  split at h
  · simp at h
  · rename_i b hb
    split at h
    · exact Option.some.inj h ▸ exists_of_least? hb
    · simp at h

theorem exists_of_finished? {cs : List Config} {a : Nat} (h : finished? cs = some a) :
    ∃ c ∈ cs, c.alt = a ∧ (c.left || isStop c.point) = true := by
  obtain ⟨c, hc, ha⟩ := exists_of_least? h
  obtain ⟨hm, hf⟩ := List.mem_filter.mp hc
  exact ⟨c, hm, ha, hf⟩

end Config

namespace Decision

open Config

/-- How following came out concerns only certain alternatives. -/
private def Outcome.Among (good : Nat → Prop) : Outcome → Prop
  | .one a => good a
  | .several as => ∀ a ∈ as, good a
  | .nothing last => ∀ c ∈ last, (c.left || isStop c.point) = true → good c.alt

section

variable {good : Nat → Prop} {cs : List Config} {ahead : List Token}

private theorem good_of_mem_advance (anyCaller : Bool) {t : Token} {ts : List Token}
    (h : ∀ c ∈ cs, c.Fits (t :: ts) → good c.alt) :
    ∀ c ∈ advance anyCaller cs t.kind, good c.alt := by
  intro c hc
  obtain ⟨d, hd, ha, hf⟩ := exists_of_mem_advance hc
  exact ha ▸ h d hd hf

-- After one token all configurations are good, so the condition only matters for the first one.
private theorem among_followAny (depth : Nat) (h : ∀ c ∈ cs, c.Fits ahead → good c.alt) :
    (followAny depth cs ahead).1.Among good := by
  induction ahead generalizing cs depth with
  | nil => exact fun c hc hs => h c hc (.inl hs)
  | cons t ts ih =>
    have hnext := good_of_mem_advance true h
    simp only [followAny]
    split
    · exact fun c hc hs => h c hc (.inl hs)
    · split
      · rename_i a ha
        obtain ⟨c, hc, rfl⟩ := exists_of_only? ha
        exact hnext c hc
      · split
        · intro a ha
          obtain ⟨c, hc, rfl⟩ := exists_of_mem_alts ha
          exact hnext c hc
        · exact ih _ fun c hc _ => hnext c hc

private theorem among_followActual (depth : Nat) (h : ∀ c ∈ cs, c.Fits ahead → good c.alt) :
    (followActual depth cs ahead).1.Among good := by
  induction ahead generalizing cs depth with
  | nil => exact fun c hc hs => h c hc (.inl hs)
  | cons t ts ih =>
    have hnext := good_of_mem_advance false h
    simp only [followActual]
    split
    · exact fun c hc hs => h c hc (.inl hs)
    · split
      · rename_i a ha
        obtain ⟨c, hc, rfl⟩ := exists_of_only? ha
        exact hnext c hc
      · rename_i a _ ha
        obtain ⟨c, hc, rfl⟩ := exists_of_winner? ha
        exact hnext c hc
      · exact ih _ fun c hc _ => hnext c hc

private theorem good_of_salvage {d : Decision} {last : List Config} {depth a : Nat}
    (h : (Outcome.nothing last).Among good)
    (hs : d.salvage last depth = .ok a) : good a := by
  unfold salvage at hs
  split at hs
  · rename_i b hb
    obtain ⟨c, hc, rfl, hf⟩ := exists_of_finished? hb
    exact Except.ok.inj hs ▸ h c (List.mem_filter.mp hc).1 hf
  · split at hs
    · rename_i b hb
      obtain ⟨c, hc, rfl, hf⟩ := exists_of_finished? hb
      exact Except.ok.inj hs ▸ h c (List.mem_filter.mp hc).1 hf
    · simp at hs

end

private theorem exists_of_decideActual {d : Decision} {stack : List Point} {ahead : List Token}
    {a : Nat} (h : (d.decideActual stack ahead).choice = .ok a) :
    ∃ c ∈ d.start false (.ofStack stack), c.alt = a ∧ c.Fits ahead := by
  have ho : (followActual 0 (d.start false (.ofStack stack)) ahead).1.Among
      fun a => ∃ c ∈ d.start false (.ofStack stack), c.alt = a ∧ c.Fits ahead :=
    among_followActual 0 fun c hc hf => ⟨c, hc, rfl, hf⟩
  unfold decideActual at h
  split at h <;> rename_i he <;> rw [he] at ho
  · exact Except.ok.inj h ▸ ho
  · simp at h
  · exact good_of_salvage ho h

/-- An alternative that is chosen fits the tokens ahead. -/
theorem exists_of_decide {d : Decision} {stack : List Point} {ahead : List Token} {a : Nat}
    (h : (d.decide stack ahead).choice = .ok a) :
    ∃ anyCaller callers, ∃ c ∈ d.start anyCaller callers, c.alt = a ∧ c.Fits ahead := by
  have ho : (followAny 0 (d.start true .bottom) ahead).1.Among
      fun a => ∃ c ∈ d.start true .bottom, c.alt = a ∧ c.Fits ahead :=
    among_followAny 0 fun c hc hf => ⟨c, hc, rfl, hf⟩
  unfold decide at h
  split at h <;> rename_i he <;> rw [he] at ho
  · split at h
    · exact ⟨true, .bottom, Except.ok.inj h ▸ ho⟩
    · simp at h
  · exact ⟨true, .bottom, good_of_salvage ho h⟩
  · split at h
    · rename_i b hb
      have hm := (List.mem_filter.mp (hb ▸ List.mem_singleton_self b : b ∈ List.filter _ _)).1
      exact ⟨true, .bottom, Except.ok.inj h ▸ ho b hm⟩
    · exact ⟨false, _, exists_of_decideActual h⟩

theorem mem_startAmong {anyCaller : Bool} {callers : Callers} {n : Nat} {points : List Point}
    {c : Config} : c ∈ startAmong anyCaller callers n points ↔
      ∃ i p, points[i]? = some p ∧ c ∈ spread anyCaller (n + i) false p callers := by
  induction points generalizing n with
  | nil => simp [startAmong]
  | cons p ps ih =>
    rw [startAmong, List.mem_append, ih]
    constructor
    · rintro (h | ⟨i, q, hq, hc⟩)
      · exact ⟨0, p, rfl, h⟩
      · exact ⟨i + 1, q, by simpa using hq, by rwa [show n + (i + 1) = n + 1 + i by omega]⟩
    · rintro ⟨_ | i, q, hq, hc⟩
      · obtain rfl : p = q := by simpa using hq
        exact .inl hc
      · exact .inr ⟨i, q, by simpa using hq, by rwa [show n + 1 + i = n + (i + 1) by omega]⟩

/-- The alternatives between which a choice is made are numbered from one, and the one chosen fits
the tokens ahead from where it begins. -/
theorem exists_of_decide_among {points : List Point} {stack : List Point} {ahead : List Token}
    {a : Nat} (h : ((among points).decide stack ahead).choice = .ok a) :
    ∃ i p, points[i]? = some p ∧ a = i + 1 ∧
      ∃ anyCaller callers, ∃ c ∈ spread anyCaller (i + 1) false p callers, ∃ d : Config,
        c.point = d.point ∧ (d.left = true → c.left = true) ∧ d.Fits ahead := by
  obtain ⟨anyCaller, callers, d, hd, rfl, hf⟩ := exists_of_decide h
  obtain ⟨c, hc, hp, ha, hl⟩ := mem_gather hd
  obtain ⟨i, p, hi, hs⟩ := mem_startAmong.mp hc
  rw [Nat.add_comm 1 i] at hs
  exact ⟨i, p, hi, by rw [← ha, alt_of_mem_spread hs], anyCaller, callers, c, hs, d, hp, hl, hf⟩

theorem mem_startTails {anyCaller : Bool} {callers : Callers} {level n : Nat}
    {ts : List (Nat × Form)} {c : Config} : c ∈ startTails anyCaller callers level n ts ↔
      ∃ i t, ts[i]? = some t ∧ (anyCaller = true ∨ level ≤ t.1) ∧
        c ∈ spread anyCaller (n + i) false t.2.entry callers := by
  induction ts generalizing n with
  | nil => simp [startTails]
  | cons t ts ih =>
    rw [startTails, List.mem_append, ih]
    constructor
    · rintro (h | ⟨i, u, hu, hl, hc⟩)
      · split at h
        · rename_i hl
          exact ⟨0, t, rfl, by simpa using hl, h⟩
        · simp at h
      · exact ⟨i + 1, u, by simpa using hu, hl, by rwa [show n + (i + 1) = n + 1 + i by omega]⟩
    · rintro ⟨_ | i, u, hu, hl, hc⟩
      · obtain rfl : t = u := by simpa using hu
        rw [if_pos (by simpa using hl)]
        exact .inl hc
      · exact .inr ⟨i, u, by simpa using hu, hl, by rwa [show n + 1 + i = n + (i + 1) by omega]⟩

/-- The tail that is chosen is one of the tails. -/
theorem exists_of_decide_tail {ops : Operators} {level : Nat} {stack : List Point}
    {ahead : List Token} {a : Nat} (h : ((tail ops level).decide stack ahead).choice = .ok a) :
    ∃ t, ops.tails[a - 1]? = some t := by
  obtain ⟨anyCaller, callers, d, hd, rfl, -⟩ := exists_of_decide h
  obtain ⟨c, hc, -, ha, -⟩ := mem_gather hd
  obtain ⟨i, t, ht, -, hs⟩ := mem_startTails.mp hc
  exact ⟨t, by rw [← ha, alt_of_mem_spread hs]; simpa using ht⟩

end Decision

end ResourceNames.Java
