import ResourceNames.Proofs.Reading

/-!
What the single steps of a parser do.

Checking at a point, mending and giving up a rule are composed of a few moves: to look ahead, to
report, to read a token. `Synced`, `Mended` and `Closed` list the ways these steps can go, with
the states they lead to.
-/
namespace ResourceNames.Java

/-! ### Sets of kinds -/

private theorem Kind.getElem?_all (k : Kind) : Kind.all[k.index]? = some k := by
  cases k <;> rfl

theorem Kind.eq_of_index_eq {k j : Kind} (h : k.index = j.index) : k = j :=
  Option.some.inj ((Kind.getElem?_all k).symm.trans (h ▸ Kind.getElem?_all j))

namespace Kinds

theorem mem_insert {k j : Kind} {ks : List Kind} : k ∈ insert j ks ↔ k = j ∨ k ∈ ks := by
  induction ks with
  | nil => simp [insert]
  | cons i is ih =>
    simp only [insert]
    split
    · simp
    · split
      · rename_i h
        rw [Kind.eq_of_index_eq h]
        simp
      · simp only [List.mem_cons, ih]
        exact or_left_comm

theorem mem_union {k : Kind} {ks js : List Kind} : k ∈ union ks js ↔ k ∈ ks ∨ k ∈ js := by
  unfold union
  induction ks generalizing js with
  | nil => simp
  | cons i is ih =>
    simp only [List.foldl_cons, ih, mem_insert, List.mem_cons]
    rw [or_left_comm, or_assoc]

theorem mem_ofList {k : Kind} {ks : List Kind} : k ∈ ofList ks ↔ k ∈ ks := by
  simp [ofList, mem_union]

end Kinds

namespace Parser

variable {s s' : Parser}

private theorem expectedFrom_ok (hr : s.root = none) (stack : List Point) (e : Follow.Expected) :
    ∃ ks, s.expectedFrom stack e = .ok ks := by
  induction stack generalizing e with
  | nil =>
    unfold expectedFrom
    split
    · exact ⟨Kinds.insert .eof e.kinds, by simp only [hr]⟩
    · exact ⟨_, rfl⟩
  | cons ret rets ih =>
    unfold expectedFrom
    split
    · obtain ⟨ks, hk⟩ := ih (s.expectedAt ret)
      exact ⟨Kinds.union e.kinds ks, by simp only [hk, Except.map]⟩
    · exact ⟨_, rfl⟩

/-- What is expected is known, unless the outermost rule was called from a point that is no
call. -/
theorem expected_ok (hr : s.root = none) : ∃ ks, s.expected = .ok ks := by
  unfold expected
  split
  · exact expectedFrom_ok hr s.stack _
  · exact ⟨[], rfl⟩

/-- Where the rule cannot end, what is expected does not depend on the open calls. -/
theorem expected_of_here {p : Point} (hp : s.here = some p) (he : (s.expectedAt p).ends = false) :
    s.expected = .ok (s.expectedAt p).kinds := by
  unfold expected
  rw [hp]
  dsimp only
  unfold expectedFrom
  rw [if_neg (by simp [he])]

theorem reportExtra_error {h : Halt} (he : s.reportExtra = .error h) : s.root ≠ none := by
  intro hr
  obtain ⟨ks, hk⟩ := expected_ok hr
  unfold reportExtra at he
  split at he <;> simp [hk, Except.map] at he

theorem reportMissing_error {h : Halt} (he : s.reportMissing = .error h) : s.root ≠ none := by
  intro hr
  obtain ⟨ks, hk⟩ := expected_ok hr
  unfold reportMissing at he
  split at he <;> simp [hk, Except.map] at he

theorem resumption_error {h : Halt} (he : s.resumption = .error h) : s.root ≠ none := by
  intro hr
  simp [resumption, hr] at he

theorem reportExtra_ok (h : s.reportExtra = .ok s') :
    s.recovering = true ∧ s' = s ∨
      s.recovering = false ∧ ∃ message, s' = s.report s.current message := by
  unfold reportExtra at h
  split at h
  · rename_i hr
    exact .inl ⟨hr, (Except.ok.inj h).symm⟩
  · rename_i hr
    cases he : s.expected with
    | error x => simp [he, Except.map] at h
    | ok ks =>
      simp only [he, Except.map, Except.ok.injEq] at h
      exact .inr ⟨by simpa using hr, _, h.symm⟩

theorem reportMissing_ok (h : s.reportMissing = .ok s') :
    s.recovering = true ∧ s' = s ∨
      s.recovering = false ∧ ∃ message, s' = s.report s.current message := by
  unfold reportMissing at h
  split at h
  · rename_i hr
    exact .inl ⟨hr, (Except.ok.inj h).symm⟩
  · rename_i hr
    cases he : s.expected with
    | error x => simp [he, Except.map] at h
    | ok ks =>
      simp only [he, Except.map, Except.ok.injEq] at h
      exact .inr ⟨by simpa using hr, _, h.symm⟩

/-- A token is dropped because the one after it is expected. -/
structure Dropped (s s' : Parser) : Prop where
  expected : ∃ ks, (s.look 1).expected = .ok ks ∧ (s.look 1).second.kind ∈ ks
  reported : ∃ s₁, (s.look 1).reportExtra = .ok s₁ ∧ s' = s₁.consume.settle

theorem dropOne?_some (h : s.dropOne? = .ok (some s')) : Dropped s s' := by
  unfold dropOne? at h
  cases he : (s.look 1).expected with
  | error x => simp [he, Except.bind] at h
  | ok ks =>
    simp only [he, Except.bind] at h
    split at h
    · rename_i hk
      cases hr : (s.look 1).reportExtra with
      | error x => simp [hr, Except.map] at h
      | ok s₁ =>
        simp only [hr, Except.map, Except.ok.injEq, Option.some.injEq] at h
        exact ⟨⟨ks, he, by simpa using hk⟩, ⟨s₁, hr, h.symm⟩⟩
    · simp at h

theorem dropOne?_error {h : Halt} (he : s.dropOne? = .error h) : s.root ≠ none := by
  intro hr
  obtain ⟨ks, hk⟩ := expected_ok (s := s.look 1) hr
  simp only [dropOne?, hk, Except.bind] at he
  split at he
  · cases hx : (s.look 1).reportExtra with
    | error x => exact reportExtra_error hx hr
    | ok u => simp [hx, Except.map] at he
  · simp at he

/-- Some kinds are more than those expected at a point, where the rule cannot end. -/
def Widens (s : Parser) (p : Point) (wide : List Kind) : Prop :=
  (s.expectedAt p).ends = false ∧ (s.expectedAt p).kinds ⊆ wide

/-- How a check at a point can end. -/
inductive Synced (gate : Gate) (s : Parser) : Outcome → Prop where
  | passed (why : s.recovering = true ∨ ∀ p, s.here = some p →
      ((s.expectedAt p).ends || (s.expectedAt p).kinds.contains s.current.kind) = true) :
      Synced gate s ⟨s, none⟩
  | dropped {u} (idle : s.recovering = false) (drop : Dropped s u)
      (stray : ∀ ks, (s.look 1).expected = .ok ks → s.current.kind ∉ ks) : Synced gate s ⟨u, none⟩
  | mismatch (idle : s.recovering = false) : Synced gate s ⟨s.look 1, some .mismatch⟩
  | astray {h} (lost : s.root ≠ none) : Synced gate s ⟨s, some h⟩
  | skipped {u p wide} (back : gate = .back) (idle : s.recovering = false) (at_ : s.here = some p)
      (report : s.reportExtra = .ok u) (wider : u.Widens p wide) :
      Synced gate s ⟨skipUntil wide u.rest
        { u with widened := (p, wide) :: u.widened.filter fun w => w.1 != p }, none⟩

theorem synced (gate : Gate) (s : Parser) : Synced gate s (s.sync gate) := by
  unfold sync
  split
  · rename_i p hr hp
    dsimp only
    split
    · rename_i he
      refine .passed (.inr fun q hq => ?_)
      rw [← Option.some.inj (hp.symm.trans hq)]
      exact he
    · rename_i hne
      split
      · split
        · rename_i hd
          refine .dropped hr (dropOne?_some hd) fun ks hk => ?_
          simp only [Bool.or_eq_true, List.contains_iff_mem, not_or, Bool.not_eq_true] at hne
          cases (expected_of_here (s := s.look 1) hp hne.1).symm.trans hk
          exact hne.2
        · exact .mismatch hr
        · rename_i he
          exact .astray (dropOne?_error he)
      · split
        · rename_i u ks he _
          have hwider : s.Widens p (Kinds.union ks (s.expectedAt p).kinds) :=
            ⟨by simp_all, fun k hk => Kinds.mem_union.mpr (.inr hk)⟩
          refine .skipped rfl hr hp he ?_
          rcases reportExtra_ok he with ⟨-, rfl⟩ | ⟨-, message, rfl⟩ <;> exact hwider
        · rename_i he
          exact .astray (reportExtra_error he)
        · rename_i he _
          exact .astray (resumption_error he)
  · rename_i hne
    cases hr : s.recovering with
    | true => exact .passed (.inl hr)
    | false => exact .passed (.inr fun p hp => absurd hp (hne p hr))

/-- How mending can end: with a part read or made up, or with a halt. -/
inductive Mended (next : Point) (s : Parser) : Parser × Except Halt Tree → Prop where
  | dropped {u} (drop : Dropped s u) : Mended next s (u.consume, .ok (.leaf u.current false))
  | inserted {u k} (fits : s.current.kind ∈ Follow.expectedIn s.stack next)
      (report : (s.look 1).reportMissing = .ok u) : Mended next s (u, .ok (.missing k))
  | failed {h} (lost : s.root ≠ none) : Mended next s (s, .error h)
  | looked {h} (why : h = .mismatch ∨ s.root ≠ none) : Mended next s (s.look 1, .error h)
  | reported {u h} (report : (s.look 1).reportMissing = .ok u)
      (why : h = .mismatch ∨ u.root ≠ none) : Mended next s (u, .error h)

theorem mended (next : Point) (s : Parser) : Mended next s (s.mend next) := by
  unfold mend
  split
  · rename_i he
    exact .failed (dropOne?_error he)
  · rename_i hd
    exact .dropped (dropOne?_some hd)
  · dsimp only
    split
    · rename_i hfits
      split
      · rename_i he
        exact .looked (.inr (reportMissing_error (s := s.look 1) he))
      · rename_i u hm
        split
        · exact .inserted (List.contains_iff_mem.mp hfits) hm
        · exact .reported hm (.inl rfl)
        · rename_i h he
          refine .reported hm (.inr fun hr => ?_)
          obtain ⟨ks, hk⟩ := expected_ok hr
          simp [hk] at he
    · exact .looked (.inl rfl)

theorem reportHalt_ok {rule : Rule} {h : Halt} (hk : s.reportHalt rule h = .ok s') :
    s.recovering = true ∧ s' = s ∨
      s.recovering = false ∧ ∃ u t message, (u = s ∨ u = s.look s.rest.length) ∧
        s' = u.report t message := by
  cases h with
  | noViable first last =>
    simp only [reportHalt] at hk
    split at hk
    · rename_i hr
      exact .inl ⟨hr, (Except.ok.inj hk).symm⟩
    · rename_i hr
      split at hk
      · exact .inr ⟨by simpa using hr, _, _, _, .inl rfl, (Except.ok.inj hk).symm⟩
      · exact .inr ⟨by simpa using hr, _, _, _, .inr rfl, (Except.ok.inj hk).symm⟩
  | mismatch =>
    simp only [reportHalt] at hk
    split at hk
    · rename_i hr
      exact .inl ⟨hr, (Except.ok.inj hk).symm⟩
    · rename_i hr
      cases he : s.expected with
      | error x => simp [he, Except.map] at hk
      | ok ks =>
        simp only [he, Except.map, Except.ok.injEq] at hk
        exact .inr ⟨by simpa using hr, _, _, _, .inl rfl, hk.symm⟩
  | lowLevel level =>
    simp only [reportHalt] at hk
    split at hk
    · rename_i hr
      exact .inl ⟨hr, (Except.ok.inj hk).symm⟩
    · rename_i hr
      exact .inr ⟨by simpa using hr, _, _, _, .inl rfl, (Except.ok.inj hk).symm⟩
  | astray p => simp [reportHalt] at hk
  | exhausted => simp [reportHalt] at hk

theorem reportHalt_error {rule : Rule} {h h' : Halt} (he : s.reportHalt rule h = .error h')
    (hr : s.root = none) : h' = h ∧ (h = .exhausted ∨ ∃ p, h = .astray p) := by
  obtain ⟨ks, hk⟩ := expected_ok hr
  cases h with
  | noViable first last | mismatch | lowLevel level =>
    simp only [reportHalt, hk, Except.map] at he
    split at he <;> try split at he
    all_goals cases he
  | astray p => exact ⟨(Except.error.inj he).symm, .inr ⟨p, rfl⟩⟩
  | exhausted => exact ⟨(Except.error.inj he).symm, .inl rfl⟩

theorem giveUp_ok (h : s.giveUp = .ok s') :
    ∃ u ks, (s.gaveUpHere = false ∧ u = s ∨ s.gaveUpHere = true ∧ u = s.consume) ∧
      u.noteGivenUp.resumption = .ok ks ∧ s' = skipUntil ks u.rest u.noteGivenUp := by
  unfold giveUp at h
  generalize hu : (if s.gaveUpHere = true then s.consume else s) = u at h
  cases hs : u.noteGivenUp.resumption with
  | error x => simp [hs, Except.map] at h
  | ok ks =>
    simp only [hs, Except.map, Except.ok.injEq] at h
    refine ⟨u, ks, ?_, hs, h.symm⟩
    split at hu
    · rename_i hg
      exact .inr ⟨hg, hu.symm⟩
    · rename_i hg
      exact .inl ⟨Bool.eq_false_iff.mpr hg, hu.symm⟩

theorem giveUp_error {h : Halt} (he : s.giveUp = .error h) : s.root ≠ none := by
  intro hr
  unfold giveUp at he
  have hu : (if s.gaveUpHere = true then s.consume else s).noteGivenUp.root = none := by
    split
    · simp only [noteGivenUp, consume]
      split <;> exact hr
    · exact hr
  simp [resumption, hu, Except.map] at he

/-- How the work on a rule can end: read to its end, given up, or left by a halt that cannot be
reported. -/
inductive Closed (rule : Rule) (o : Outcome) : Outcome → Prop where
  | ended (halt : o.halt = none) : Closed rule o o
  | gaveUp {h u v} (halt : o.halt = some h) (report : o.parser.reportHalt rule h = .ok u)
      (skip : u.giveUp = .ok v) : Closed rule o ⟨v, none⟩
  | raised {h h'} (halt : o.halt = some h)
      (why : o.parser.root = none → h' = h ∧ (h = .exhausted ∨ ∃ p, h = .astray p)) :
      Closed rule o ⟨o.parser, some h'⟩

theorem reportHalt_root {rule : Rule} {h : Halt} (hk : s.reportHalt rule h = .ok s') :
    s'.root = s.root := by
  rcases reportHalt_ok hk with ⟨-, rfl⟩ | ⟨-, u, t, message, rfl | rfl, rfl⟩ <;> rfl

theorem closed (rule : Rule) (o : Outcome) : Closed rule o (close rule o) := by
  unfold close
  split
  · rename_i hn
    exact .ended hn
  · rename_i h hs
    cases hr : o.parser.reportHalt rule h with
    | error h' => exact .raised hs fun hroot => reportHalt_error hr hroot
    | ok u =>
      cases hg : u.giveUp with
      | error h' =>
        simp only [Except.bind, hg]
        refine .raised hs fun hroot => ?_
        exact absurd ((reportHalt_root hr).trans hroot) (giveUp_error hg)
      | ok v =>
        simp only [Except.bind, hg]
        exact .gaveUp hs hr hg

end Parser

end ResourceNames.Java
