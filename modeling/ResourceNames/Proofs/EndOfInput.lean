import Mathlib.Data.List.TakeWhile
import ResourceNames.Proofs.Sessions
import ResourceNames.Proofs.Termination
import ResourceNames.Proofs.Units

/-!
A unit is read to the end of the input.

The outermost rule has nowhere to go on after it is given up, so giving it up skips all tokens. If it
is read to its end, the end of the input was read or put in the place of the one token before it. So
every token is seen, and every stretch that is no word is met. From then on a parser reads units
without any tokens.
-/
namespace ResourceNames.Java

open Computability Layout

/-! ### What is seen of a source -/

namespace Source

/-- All tokens are fetched when the last visible one is seen. -/
theorem fetchedFor_size (text : String) :
    (ofString text).fetchedFor (ofString text).visible.size = (ofString text).tokens.size := by
  have htokens : (ofString text).tokens = (words text ++ [last text]).toArray := rfl
  have hvisible : (ofString text).visible =
      ((words text).filter Token.isVisible ++ [last text]).toArray := by
    rw [← show [last text].filter Token.isVisible = [last text] from rfl, ← List.filter_append]
    rfl
  rw [hvisible, htokens]
  simp [fetchedFor, hvisible, last, endToken]

private theorem before_le_of_mem_rejected {n : Nat} {ps : List Piece} {e : LexicalError}
    (h : e ∈ rejected n ps) : e.before ≤ n + (number n ps).length := by
  induction ps generalizing n with
  | nil => cases h
  | cons p ps ih =>
    simp only [rejected, number] at h ⊢
    cases hk : p.kind with
    | some k =>
      simp only [hk] at h
      have hle := ih h
      simp only [List.length_cons]
      omega
    | none =>
      simp only [hk] at h
      rcases List.mem_cons.mp h with rfl | h
      · exact Nat.le_add_right _ _
      · exact ih h

/-- All lexical errors are met when all tokens are fetched. -/
theorem errorsWithin_size (text : String) :
    (ofString text).errorsWithin (ofString text).tokens.size = (ofString text).errors.length := by
  rw [errorsWithin, List.takeWhile_eq_self_iff.mpr]
  intro e he
  have hle := before_le_of_mem_rejected (show e ∈ rejected 0 (pieces text.toList) from he)
  simp only [ofString, List.size_toArray, List.length_append, List.length_singleton, decide_eq_true_eq]
  omega

end Source

namespace Parser

variable {s s' t : Parser} {o : Outcome} {limit depth : Nat}

/-- A parser has seen its next token, and stands so many tokens before the end of its source. -/
structure Tracks (s : Parser) : Prop where
  count : s.position + s.rest.length = s.source.visible.size
  ahead : s.position < s.seen
  seen : s.seen ≤ s.source.visible.size

theorem Tracks.of_eq (h : Tracks s) (hp : s'.position = s.position) (hr : s'.rest = s.rest)
    (hs : s'.source = s.source) (hn : s'.seen = s.seen) : Tracks s' := by
  refine ⟨?_, ?_, ?_⟩
  · rw [hp, hr, hs, h.count]
  · rw [hp, hn]
    exact h.ahead
  · rw [hn, hs]
    exact h.seen

theorem Tracks.setField (h : Tracks s) (field : Option Field) (part : Tree) :
    Tracks (s.setField field part) := by
  cases field <;> exact h.of_eq rfl rfl rfl rfl

private theorem Move.tracks (h : Move s s') (ht : Tracks s) : Tracks s' := by
  have hcount := ht.count
  have hahead := ht.ahead
  have hseen := ht.seen
  cases h with
  | moveTo | settle | report | insert | widen | note => exact ht.of_eq rfl rfl rfl rfl
  | setField field part => exact ht.setField field part
  | look k =>
    refine ⟨hcount, ?_, ?_⟩ <;> simp only [Parser.look]
    · omega
    · omega
  | consume =>
    unfold Parser.consume
    split
    · rename_i v w ts hr
      rw [hr] at hcount
      simp only [List.length_cons] at hcount
      refine ⟨?_, ?_, ?_⟩ <;> simp only [List.length_cons]
      · omega
      · omega
      · omega
    · exact ht.of_eq rfl rfl rfl rfl
    · exact ht

theorem Work.tracks {calls wraps : List Rule} (h : Work calls wraps s s') (ht : Tracks s) :
    Tracks s' := by
  induction h with
  | refl => exact ht
  | move first _ ih => exact ih (first.tracks ht)
  | wrap start own _ ih => exact ih (ht.of_eq rfl rfl rfl rfl)
  | @call _ _ s t u rule next field _ _ _ _ ih ih' =>
    have hinner := ih (ht.of_eq rfl rfl rfl rfl)
    refine ih' (Tracks.setField ?_ field _)
    exact hinner.of_eq rfl rfl rfl rfl

/-- Before the end of its input a parser has seen all of its source. -/
theorem Tracks.seen_eq (h : Tracks s) {last : Token} (hr : s.rest = [last]) :
    s.seen = s.source.visible.size := by
  have hcount := h.count
  have hahead := h.ahead
  have hseen := h.seen
  rw [hr, List.length_singleton] at hcount
  omega

theorem tracks_parse (rule : Rule) (he : Ended s.rest) (hn : s.seen ≤ s.source.visible.size)
    (hcount : s.position + s.rest.length = s.source.visible.size) :
    Tracks (s.parse rule).2.parser := by
  obtain ⟨o, o', read, closed, hp⟩ := parse_cases rule s
  have hpos := List.length_pos_iff.mpr he.ne_nil
  have hout : Tracks s.outset := by
    refine ⟨hcount, ?_, ?_⟩ <;> simp only [outset, Parser.look]
    · omega
    · omega
  have hend : Tracks o'.parser := (read.work.trans (Work.closed closed)).tracks hout
  rw [hp]
  exact hend.of_eq rfl rfl rfl rfl

/-! ### The end of a unit -/

private theorem skipUntil_nil (he : Ended s.rest) : ∃ last, (skipUntil [] s.rest s).rest = [last] := by
  generalize hr : s.rest = ts at he
  induction ts generalizing s with
  | nil => exact absurd rfl he.ne_nil
  | cons v ts ih =>
    unfold skipUntil
    cases ts with
    | nil =>
      rw [if_pos (by simp [he.singleton])]
      exact ⟨v, hr⟩
    | cons w ts =>
      obtain ⟨hv, he'⟩ := he.tail
      rw [if_neg (by simp [hv])]
      exact ih (by simp [Parser.consume, hr]) he'

/-- Giving up the outermost rule skips all tokens. -/
theorem rest_giveUp (h : s.giveUp = .ok s') (hs : s.stack = []) (he : Ended s.rest) :
    ∃ last, s'.rest = [last] := by
  obtain ⟨u, ks, hu, hks, rfl⟩ := giveUp_ok h
  have hu' : u.stack = [] ∧ Ended u.rest := by
    rcases hu with ⟨-, rfl⟩ | ⟨-, rfl⟩
    · exact ⟨hs, he⟩
    · refine ⟨(Eases.consume s).stack.trans hs, ?_⟩
      obtain ⟨-, -, he'⟩ := (Work.single .consume : Work [] [] s s.consume).advances he
      exact he'
  have hnil : ks = [] := by
    unfold resumption at hks
    have hstack : u.noteGivenUp.stack = [] := hu'.1
    rw [hstack] at hks
    split at hks
    · cases hks
    · exact (Except.ok.inj hks).symm
  rw [hnil]
  exact skipUntil_nil (s := u.noteGivenUp) hu'.2

private theorem expected_end :
    ((Follow.expected (stop .compilationUnit + 10)).kinds,
      (Follow.expected (stop .compilationUnit + 10)).ends, Follow.expectedIn [] (stop .compilationUnit)) =
        ([.eof], false, [.eof]) ∧ stop .compilationUnit + 10 ∉ Layout.backs := by
  decide +kernel

/-- Before the end of a unit only the end is expected. -/
private theorem expected_at_end (hs : s.Regular) (hat : s.here = some (stop .compilationUnit + 10)) :
    s.expected = .ok [.eof] := by
  obtain ⟨hexpected, hbacks⟩ := expected_end
  simp only [Prod.mk.injEq] at hexpected
  obtain ⟨hkinds, hends, -⟩ := hexpected
  rw [expected_of_here hat (by rw [expectedAt_eq hs hbacks, hends]), expectedAt_eq hs hbacks, hkinds]

/-- A token is dropped before the end of a unit only if the end comes next. -/
private theorem rest_dropped (hs : s.Regular) (hat : s.here = some (stop .compilationUnit + 10))
    (hk : s.current.kind ≠ .eof) (h : Dropped s s') : ∃ last, s'.rest = [last] := by
  obtain ⟨ks, hks, hsecond⟩ := h.expected
  obtain ⟨u, hreport, rfl⟩ := h.reported
  have hok : (s.look 1).expected = .ok [.eof] := expected_at_end ⟨hs.ended, hs.words, hs.widened⟩ hat
  cases hok.symm.trans hks
  have hrest : u.rest = s.rest := by
    rcases reportExtra_ok hreport with ⟨-, rfl⟩ | ⟨-, message, rfl⟩ <;> rfl
  obtain ⟨v, ts, hr⟩ := rest_of_ne_eof hs.ended hk
  have hv : v.kind = .eof := by
    have hsame : (s.look 1).second = v := by
      simp only [second, Parser.look, hr]
    rw [hsame] at hsecond
    exact List.mem_singleton.mp hsecond
  cases ts with
  | nil => exact ⟨v, by simp [Parser.consume, settle, hrest, hr]⟩
  | cons w ts =>
    have he := hs.ended
    rw [hr] at he
    exact absurd hv he.tail.2.tail.1

private theorem rest_consume {last : Token} (h : s.rest = [last]) : s.consume.rest = [last] := by
  simp [Parser.consume, h]

/-- After the last token of a unit comes nothing but the end. -/
private theorem rest_token (hs : s.Regular) (hstack : s.stack = [])
    (h : token (stop .compilationUnit + 10) (stop .compilationUnit) .eof none s = ⟨t, none⟩) :
    ∃ last, t.rest = [last] := by
  have hs' : (s.moveTo (stop .compilationUnit + 10)).Regular := ⟨hs.ended, hs.words, hs.widened⟩
  unfold token at h
  dsimp only at h
  split at h
  · rename_i hk
    obtain ⟨last, hl⟩ := rest_of_eof hs.ended hk
    cases h
    exact ⟨last, rest_consume (s := (s.moveTo (stop .compilationUnit + 10)).settle) hl⟩
  · rename_i hk
    have hm := mended (stop .compilationUnit) (s.moveTo (stop .compilationUnit + 10))
    generalize (s.moveTo (stop .compilationUnit + 10)).mend (stop .compilationUnit) = m at hm h
    cases hm with
    | dropped drop =>
      obtain ⟨last, hl⟩ := rest_dropped hs' rfl hk drop
      cases h
      exact ⟨last, rest_consume hl⟩
    | inserted fits =>
      have hin : Follow.expectedIn [] (stop .compilationUnit) = [.eof] := by
        obtain ⟨hexpected, -⟩ := expected_end
        simp only [Prod.mk.injEq] at hexpected
        exact hexpected.2.2
      have hstack' : (s.moveTo (stop .compilationUnit + 10)).stack = [] := hstack
      rw [hstack', hin] at fits
      exact absurd (List.mem_singleton.mp fits) hk
    | failed | looked | reported => cases h

/-- A unit that is read to its end has left nothing but the end of the input. -/
private theorem rest_body (hs : s.Regular) (hstack : s.stack = [])
    (h : Reads limit depth (.body .compilationUnit 0) s ⟨t, none⟩) : ∃ last, t.rest = [last] := by
  cases h with
  | operators form => rw [body_compilationUnit] at form; cases form
  | plain form read =>
    have hsits := sits_plain form
    rw [body_compilationUnit] at form
    cases form
    cases read with | seq all => ?_
    have hall := Task.sitsAll_forms hsits.2
    cases all with | @cons _ _ _ _ t₁ _ package rest => ?_
    cases rest with | @cons _ _ _ _ t₂ _ imports rest => ?_
    cases rest with | @cons _ _ _ _ t₃ _ types rest => ?_
    have hstack₃ : t₃.stack = [] := (types.spends hall.2.2.1).stack.trans
      ((imports.spends hall.2.1).stack.trans ((package.spends hall.1).stack.trans hstack))
    have hs₃ : t₃.Regular := types.work.regular (imports.work.regular (package.work.regular hs))
    exact rest_token hs₃ hstack₃ rest.last.token_eq

/-- After a unit comes the end of the input. -/
theorem rest_parse (hs : s.Regular) (hroot : s.here = none) :
    ∃ last, (s.parse .compilationUnit).2.parser.rest = [last] := by
  obtain ⟨o, t, read, hclosed, hp⟩ := parse_closes .compilationUnit hs.ended hroot
  have hs' : (s.outset.moveTo (stop .compilationUnit)).Regular := ⟨hs.ended, hs.words, hs.widened⟩
  have hbody : (Task.body .compilationUnit 0).Sits .compilationUnit 1 := ⟨rfl, rfl⟩
  rw [hp]
  show ∃ last, t.rest = [last]
  cases hclosed with
  | ended halt => exact rest_body hs' rfl read
  | gaveUp halt report skip =>
    have hstack := (Eases.reportHalt report).stack.trans (read.spends hbody).stack
    obtain ⟨-, -, he⟩ := (Work.reportHalt report : Work [] [] _ _).advances (read.work.regular hs').ended
    exact rest_giveUp skip hstack he

/-! ### Units at the end of the input -/

/-- A parser goes to a point and looks ahead, but does nothing else. -/
def Stays (s s' : Parser) : Prop := ∃ here seen, s' = { s with here := here, seen := seen }

theorem Stays.trans (h : Stays s s') (h' : Stays s' t) : Stays s t := by
  obtain ⟨here, seen, rfl⟩ := h
  obtain ⟨here', seen', rfl⟩ := h'
  exact ⟨here', seen', rfl⟩

theorem Stays.moveTo (s : Parser) (p : Point) : Stays s (s.moveTo p) := ⟨some p, s.seen, rfl⟩

theorem Stays.looked (h : s' = s ∨ ∃ k, s' = s.look k) : Stays s s' := by
  rcases h with rfl | ⟨k, rfl⟩
  · exact ⟨s'.here, s'.seen, rfl⟩
  · exact ⟨s.here, _, rfl⟩

/-- A parser without open calls stands before the end of its input. -/
structure AtEnd (s : Parser) : Prop where
  regular : s.Regular
  stack : s.stack = []
  kind : s.current.kind = .eof

theorem AtEnd.stays (h : AtEnd s) (hs : Stays s s') : AtEnd s' := by
  obtain ⟨here, seen, rfl⟩ := hs
  exact ⟨⟨h.regular.ended, h.regular.words, h.regular.widened⟩, h.stack, h.kind⟩

variable {after : Language Kind}

/-- At the end of the input a form is passed over if it may be. -/
private theorem pick_passes {start join : Point} {alts : List Form}
    (h : Reads limit depth (.pick start (alts.map Form.entry ++ [join]) alts true) s o)
    (hs : AtEnd s) (hsit : (Form.opt start join alts).Sits .compilationUnit after)
    (hpoints : ∀ p ∈ alts.map Form.entry ++ [join], p ≠ stop .compilationUnit)
    (hafter : [.eof] ∈ after) : o.halt = none ∧ Stays s o.parser := by
  have hsits : (Task.pick start (alts.map Form.entry ++ [join]) alts true).Sits .compilationUnit after := by
    have hall := (Task.sitsAll_opt hsit).2.1
    rwa [Task.languageAll, one_mul] at hall
  cases h with
  | picked origin choice alt read =>
    have hbegins := origin.begins hsits hs.regular.ended choice alt
    exact absurd hs.kind ((origin.leads _ (List.mem_of_getElem? alt)).begins hbegins).2
  | passed origin choice beyond => exact ⟨rfl, .looked (choose_looks choice)⟩
  | unfit origin choice =>
    exfalso
    obtain ⟨last, hl⟩ := rest_of_eof hs.regular.ended hs.kind
    have hlast : last.kind = .eof := by
      have hended := hs.regular.ended
      rw [hl] at hended
      exact hended.singleton
    have hw : s.rest.map Token.kind ∈ rests (join :: s.stack) := by
      rw [hl, hs.stack, rests_cons, hsit.2.1.rest, rests_nil, mul_one]
      simpa [hlast] using hafter
    unfold choose at choice
    split at choice
    · obtain ⟨i, p, hok, -⟩ := Decision.decide_among_complete (r := .compilationUnit) hs.regular.ended
        (by rw [hs.stack]; rfl) (fun p hp => ⟨hsits.mem_points p hp, hpoints p hp⟩)
        ⟨join, List.mem_append_right _ (List.mem_singleton_self join), hw⟩
      simp only [predict, hok] at choice
      cases choice
    · split at choice <;> cases choice

/-- At the end of the input a loop is passed over if the next token settles that. -/
private theorem loop_passes {entry back next : Point} {body : Form} {rounds : Nat}
    (h : Reads limit depth (.loop entry [body.entry, next] (roundTasks back body) (rounds + 1)) s o)
    (hs : AtEnd s) (hsit : (Form.star entry back next body).Sits .compilationUnit after)
    (hsettled : Follow.settled? entry ≠ none) : o.halt = none ∧ Stays s o.parser := by
  obtain ⟨-, -, hnext, -, hbody⟩ := hsit
  cases h with
  | again origin more =>
    have hbegins := origin.begins hnext.mem hbody hs.regular.ended more
    exact absurd hs.kind (origin.leads.begins hbegins).2
  | done origin more => exact ⟨rfl, .looked (another_looks more)⟩
  | undecided origin more =>
    exfalso
    unfold another choose at more
    cases hlooks : Follow.settled? entry with
    | none => exact hsettled hlooks
    | some looks =>
      simp only [hlooks] at more
      split at more
      · cases more
      · rename_i hc
        split at hc <;> cases hc

private theorem unit_points :
    (∀ p ∈ [stop .compilationUnit + 1, stop .compilationUnit + 4, stop .compilationUnit + 7],
      .eof ∈ (Follow.expected p).kinds ∧ p ∉ Layout.backs) ∧
    Follow.settled? (stop .compilationUnit + 4) ≠ none ∧
      Follow.settled? (stop .compilationUnit + 7) ≠ none := by
  decide +kernel

private theorem sync_passes {gate : Gate} {p : Point} (hs : AtEnd s)
    (h : Reads limit depth (.sync gate p) s o) (hp : .eof ∈ (Follow.expected p).kinds)
    (hb : p ∉ Layout.backs) : o = ⟨s.moveTo p, none⟩ := by
  rw [← h.sync_eq]
  exact sync_of_mem hs.regular hb (hs.kind ▸ hp)

private theorem star_passes {entry back next : Point} {body : Form}
    (h : Reads (limit + 1) depth (.form (.star entry back next body)) s o)
    (hs : AtEnd s) (hsit : (Form.star entry back next body).Sits .compilationUnit after)
    (hp : .eof ∈ (Follow.expected entry).kinds) (hb : entry ∉ Layout.backs)
    (hsettled : Follow.settled? entry ≠ none) : o.halt = none ∧ Stays s o.parser := by
  cases h with | star all => ?_
  cases all with
  | stop sync => cases sync_passes hs sync hp hb
  | cons sync rest =>
    cases sync_passes hs sync hp hb
    have hmove := Stays.moveTo s entry
    obtain ⟨hhalt, hstays⟩ := loop_passes rest.last (hs.stays hmove) hsit hsettled
    exact ⟨hhalt, hmove.trans hstays⟩

private theorem opt_passes {start join : Point} {alts : List Form}
    (h : Reads limit depth (.form (.opt start join alts)) s o)
    (hs : AtEnd s) (hsit : (Form.opt start join alts).Sits .compilationUnit after)
    (hp : .eof ∈ (Follow.expected start).kinds) (hb : start ∉ Layout.backs)
    (hpoints : ∀ p ∈ alts.map Form.entry ++ [join], p ≠ stop .compilationUnit)
    (hafter : [.eof] ∈ after) : o.halt = none ∧ Stays s o.parser := by
  cases h with | opt all => ?_
  cases all with
  | stop sync => cases sync_passes hs sync hp hb
  | cons sync rest =>
    cases sync_passes hs sync hp hb
    have hmove := Stays.moveTo s start
    obtain ⟨hhalt, hstays⟩ := pick_passes rest.last (hs.stays hmove) hsit hpoints hafter
    exact ⟨hhalt, hmove.trans hstays⟩

def ended (s : Parser) (here : Option Point) (seen : Nat) : Parser :=
  { s with
    here := here
    seen := seen
    recovering := false
    givenUp := none
    children := .leaf s.current false :: s.children }

private theorem token_at_end {p next : Point} {here : Option Point} {seen : Nat}
    (h : token p next .eof none t = o) (hs : AtEnd t) (ht : t = { s with here := here, seen := seen }) :
    o.halt = none ∧ ∃ here seen, o.parser = s.ended here seen := by
  obtain ⟨last, hl⟩ := rest_of_eof hs.regular.ended hs.kind
  subst h ht
  have hk : ({ s with here := here, seen := seen }.moveTo p).current.kind = .eof := hs.kind
  unfold token
  dsimp only
  rw [if_pos hk]
  refine ⟨rfl, some p, seen, ?_⟩
  have hl' : s.rest = [last] := hl
  simp [setField, Parser.consume, settle, moveTo, hl', ended, current]

private theorem eof_mem_loops {entry back next entry' back' next' here join : Point} {body body' : Form} :
    [.eof] ∈ Form.languageSeq [.star entry back next body, .star entry' back' next' body',
      .token here join .eof none] * 1 := by
  simp only [Form.languageSeq_cons, Form.language_star, Form.languageSeq_nil, mul_one]
  exact Language.append_mem_mul (Language.nil_mem_kstar _)
    (Language.append_mem_mul (Language.nil_mem_kstar _) (Phrase.mem_language_token.mpr rfl))

/-- At the end of the input the body of a unit reads the end and nothing else. -/
private theorem body_at_end (h : Reads (limit + 1) depth (.body .compilationUnit 0) s o)
    (hs : AtEnd s) : o.halt = none ∧ ∃ here seen, o.parser = s.ended here seen := by
  obtain ⟨hpoints, hsettled, hsettled'⟩ := unit_points
  simp only [List.forall_mem_cons] at hpoints
  obtain ⟨⟨hp₁, hb₁⟩, ⟨hp₂, hb₂⟩, ⟨hp₃, hb₃⟩, -⟩ := hpoints
  cases h with
  | operators form => rw [body_compilationUnit] at form; cases form
  | plain form read =>
    have hsits := sits_plain form
    rw [body_compilationUnit] at form
    cases form
    cases read with | seq all => ?_
    obtain ⟨hsit₁, hsit₂, hsit₃, -⟩ := hsits.2
    cases all with
    | stop package => cases (opt_passes package hs hsit₁ hp₁ hb₁ (by simp [Form.entry]) eof_mem_loops).1
    | cons package rest =>
      obtain ⟨-, hstays₁⟩ := opt_passes package hs hsit₁ hp₁ hb₁ (by simp [Form.entry]) eof_mem_loops
      have hs₁ := hs.stays hstays₁
      cases rest with
      | stop imports => cases (star_passes imports hs₁ hsit₂ hp₂ hb₂ hsettled).1
      | cons imports rest =>
        obtain ⟨-, hstays₂⟩ := star_passes imports hs₁ hsit₂ hp₂ hb₂ hsettled
        have hs₂ := hs₁.stays hstays₂
        cases rest with
        | stop types => cases (star_passes types hs₂ hsit₃ hp₃ hb₃ hsettled').1
        | cons types rest =>
          obtain ⟨-, hstays₃⟩ := star_passes types hs₂ hsit₃ hp₃ hb₃ hsettled'
          have hs₃ := hs₂.stays hstays₃
          obtain ⟨here, seen, hall⟩ := (hstays₁.trans hstays₂).trans hstays₃
          exact token_at_end rest.last.token_eq hs₃ hall

/-- At the end of the input a unit is the end alone. -/
theorem parse_at_end (hs : s.Regular) (hroot : s.here = none) {last : Token} (hr : s.rest = [last]) :
    ∃ seen, s.parse .compilationUnit =
      (.node .compilationUnit last s.previous [] [.leaf last false], ⟨{ s with
        seen := seen
        recovering := false
        givenUp := none
        root := none
        stack := []
        children := []
        fields := [] }, none⟩) := by
  obtain ⟨o, o', read, hclosed, hp⟩ := parse_cases .compilationUnit s
  obtain ⟨n, hn⟩ := limit_pos s
  rw [hn] at read
  have hcurrent : s.current = last := by simp [current, hr]
  have hlast : last.kind = .eof := by
    have he := hs.ended
    rw [hr] at he
    exact he.singleton
  have hend : AtEnd s.outset := by
    refine ⟨⟨hs.ended, hs.words, hs.widened⟩, rfl, ?_⟩
    show s.current.kind = .eof
    rw [hcurrent, hlast]
  obtain ⟨hhalt, here, seen, ho⟩ := body_at_end read hend
  obtain ⟨t, halt⟩ := o
  cases hhalt
  cases hclosed with
  | ended =>
    subst ho
    have hafter : pointAfter .compilationUnit none here = none := by
      rw [pointAfter, if_neg (by decide)]
    have hout : s.outset.current = last := hcurrent
    refine ⟨seen, ?_⟩
    rw [hp, hroot, hcurrent]
    simp only [node, ended, hout, hafter]
    simp only [outset, Parser.look, hroot]
    rfl
  | gaveUp halt | raised halt => cases halt

/-! ### Reading on -/

/-- What parsers may have learned to expect in loops, whatever they have read. -/
inductive Learned : Widened → Prop where
  | nothing : Learned []
  | parse {s : Parser} (h : Learned s.widened) (rule : Rule) :
      Learned (s.parse rule).2.parser.widened

theorem Learned.mem_backs {widened : Widened} (h : Learned widened) :
    ∀ w ∈ widened, w.1 ∈ Layout.backs := by
  induction h with
  | nothing => exact nofun
  | parse _ rule ih => exact widened_parse rule ih

def learn (s : Parser) (widened : Widened) : Parser := { s with widened := widened }

theorem learn_self (s : Parser) : s.learn s.widened = s := rfl

/-- Further units are read by a parser. Others may read their texts in between. -/
inductive Rereads (s : Parser) : Parser → Prop where
  | refl : Rereads s s
  | unit {t : Parser} {widened : Widened} (h : Rereads s t) (learned : Learned widened) :
      Rereads s (t.learn widened).compilationUnit.2.1

/-- A parser has read a text to its end. -/
structure Done (text : String) (s : Parser) : Prop where
  source : s.source = .ofString text
  here : s.here = none
  rest : s.rest = [Source.last text]
  tracks : Tracks s

namespace Done

variable {text : String}

theorem regular (h : Done text s) {widened : Widened} (hw : Learned widened) :
    (s.learn widened).Regular := by
  refine ⟨⟨[], _, h.rest, rfl, nofun⟩, fun v hv hk => ?_, hw.mem_backs⟩
  have hv' : v ∈ s.rest := hv
  rw [h.rest, List.mem_singleton] at hv'
  exact absurd (congrArg Token.kind hv') hk

/-- A parser that has read its text to the end has it still, after another unit. -/
theorem parse (h : Done text s) {widened : Widened} (hw : Learned widened) :
    Done text ((s.learn widened).parse .compilationUnit).2.parser := by
  obtain ⟨seen, hp⟩ := parse_at_end (h.regular hw) h.here h.rest
  have htracks := tracks_parse .compilationUnit (h.regular hw).ended h.tracks.seen h.tracks.count
  rw [hp] at htracks ⊢
  exact ⟨h.source, h.here, h.rest, htracks⟩

theorem rereads (h : Done text s) (ht : Rereads s t) : Done text t := by
  induction ht with
  | refl => exact h
  | unit _ learned ih => exact ih.parse learned

theorem fetched_eq (h : Done text s) : s.fetched = (Source.ofString text).tokens.size := by
  rw [fetched, h.tracks.seen_eq h.rest, h.source, Source.fetchedFor_size]

theorem lexicalErrorsMet_eq (h : Done text s) :
    s.lexicalErrorsMet = (Source.ofString text).errors.length := by
  rw [lexicalErrorsMet, h.fetched_eq, h.source, Source.errorsWithin_size]

/-- Another unit is the end alone, and nothing is found wrong. -/
theorem compilationUnit (h : Done text s) {widened : Widened} (hw : Learned widened) :
    ((s.learn widened).parse .compilationUnit).2.halt = none ∧
      (s.learn widened).compilationUnit.1.listed = "(compilationUnit <EOF>)" ∧
      (s.learn widened).compilationUnit.2.2 = [] := by
  obtain ⟨seen, hp⟩ := parse_at_end (h.regular hw) h.here h.rest
  have hdone := h.parse hw
  have hmet : ((s.learn widened).parse .compilationUnit).2.parser.lexicalErrorsMet =
      s.lexicalErrorsMet := by
    rw [hdone.lexicalErrorsMet_eq, h.lexicalErrorsMet_eq]
  have hreports : ((s.learn widened).parse .compilationUnit).2.parser.reports = s.reports := by
    rw [hp]
    rfl
  refine ⟨by rw [hp], ?_, ?_⟩
  · show ((s.learn widened).parse .compilationUnit).1.listed = _
    rw [hp]
    simp only [Tree.listed, Tree.listedAll, Source.last, Source.endToken]
    decide +kernel
  · show diagnosticsSince _ ((s.learn widened).parse .compilationUnit).2.parser = []
    rw [diagnosticsSince, hmet, reportsSince, hreports]
    have hsame : (s.learn widened).reports = s.reports ∧
        (s.learn widened).lexicalErrorsMet = s.lexicalErrorsMet := ⟨rfl, rfl⟩
    rw [hsame.1, hsame.2, Nat.sub_self, List.take_zero, List.reverse_nil, interleave]
    simp

end Done

private theorem drop_sublist_append {α : Type} (xs : List α) (last met now : Nat) :
    ((xs.take last).drop met).Sublist ((xs.take now).drop met ++ (xs.take last).drop now) := by
  rcases Nat.le_total met now with hle | hle
  · have hsplit := List.take_append_drop (now - met) ((xs.take last).drop met)
    rw [List.take_drop, List.drop_drop, Nat.add_sub_cancel' hle, List.take_take] at hsplit
    rw [← hsplit]
    refine List.Sublist.append ?_ (.refl _)
    exact (List.take_sublist_take_left (Nat.min_le_left _ _)).drop met
  · obtain ⟨k, rfl⟩ := Nat.exists_eq_add_of_le hle
    rw [← List.drop_drop]
    exact (List.drop_sublist k _).trans (List.sublist_append_right _ _)

/-- Every lexical error until the last one is listed, whatever was reported in between. -/
private theorem errors_sublist_interleave (source : Source) (last met : Nat) (rs : List Report) :
    (((source.errors.take last).drop met).map Diagnostic.ofLexicalError).Sublist
      (interleave source last met rs) := by
  induction rs generalizing met with
  | nil => exact .refl _
  | cons r rs ih =>
    rw [interleave]
    generalize source.errorsWithin (source.fetchedFor r.seen) = now
    have hsplit := (drop_sublist_append source.errors last met now).map Diagnostic.ofLexicalError
    rw [List.map_append] at hsplit
    exact hsplit.trans (.append (.refl _) ((ih now).cons (Diagnostic.ofReport r)))

/-- All lexical errors are listed for a text that is read to its end. -/
theorem Done.errors_sublist {text : String} (h : Done text t) (hs : s.lexicalErrorsMet = 0) :
    ((Source.ofString text).errors.map Diagnostic.ofLexicalError).Sublist (s.diagnosticsSince t) := by
  have hsublist := errors_sublist_interleave (.ofString text) (Source.ofString text).errors.length 0
    (s.reportsSince t)
  rw [List.take_length, List.drop_zero] at hsublist
  rwa [diagnosticsSince, h.lexicalErrorsMet_eq, h.source, hs]

theorem lexicalErrorsMet_ofSource (source : Source) (widened : Widened) :
    (ofSource source widened).lexicalErrorsMet = 0 := by
  show (source.errors.takeWhile fun e => decide (e.before < 0)).length = 0
  cases source.errors <;> simp

/-- A unit is read to the end of its text. -/
theorem done_parse (text : String) {widened : Widened} (learned : Learned widened) :
    Done text ((ofSource (.ofString text) widened).parse .compilationUnit).2.parser := by
  have hs := regular_ofSource text learned.mem_backs
  obtain ⟨hadvance, -, hsource⟩ := parse_advances .compilationUnit _ hs.ended
  obtain ⟨last, hlast⟩ := rest_parse hs rfl
  refine ⟨hsource, ?_, ?_, tracks_parse .compilationUnit hs.ended (Nat.zero_le _) ?_⟩
  · obtain ⟨_, _, -, -, hp⟩ := parse_closes .compilationUnit hs.ended rfl
    rw [hp]
    simp only [pointAfter, if_neg (show ¬ Follow.hasOperators .compilationUnit = true by decide)]
  · have hend : (ofSource (.ofString text) widened).rest.getLast? = some last := by
      rw [hadvance, hlast, List.getLast?_concat]
    have hvisible : [Source.last text].filter Token.isVisible = [Source.last text] := rfl
    rw [rest_ofSource, Source.toList_tokens_ofString, List.filter_append, hvisible,
      List.getLast?_concat] at hend
    rw [hlast, Option.some.inj hend]
  · simp [ofSource]

/-- A unit is read to the end of its text, whatever is wrong in it: all tokens are fetched and all
stretches that are no word are met. Each further unit is then the end alone, and nothing is found wrong,
also if the parser was still recovering from an error. -/
theorem unit_reaches_end (text : String) {widened : Widened} (learned : Learned widened) :
    ((ofSource (.ofString text) widened).parse .compilationUnit).2.halt = none ∧
      (ofSource (.ofString text) widened).compilationUnit.2.1.current.kind = .eof ∧
      (ofSource (.ofString text) widened).compilationUnit.2.1.fetched =
        (Source.ofString text).tokens.size ∧
      ((Source.ofString text).errors.map Diagnostic.ofLexicalError).Sublist
        (ofSource (.ofString text) widened).compilationUnit.2.2 ∧
      ∀ {s : Parser} {widened' : Widened},
        Rereads (ofSource (.ofString text) widened).compilationUnit.2.1 s → Learned widened' →
          ((s.learn widened').parse .compilationUnit).2.halt = none ∧
            (s.learn widened').compilationUnit.1.listed = "(compilationUnit <EOF>)" ∧
            (s.learn widened').compilationUnit.2.2 = [] := by
  have hdone := done_parse text learned
  refine ⟨halt_parse .compilationUnit (ended_ofSource text widened) rfl, ?_, hdone.fetched_eq, ?_,
    fun ht hw => (hdone.rereads ht).compilationUnit hw⟩
  · show (Parser.current ((ofSource (.ofString text) widened).parse .compilationUnit).2.parser).kind = _
    rw [current, hdone.rest]
    rfl
  · exact hdone.errors_sublist (lexicalErrorsMet_ofSource _ _)

theorem broken_class_reaches_end :
    ∃ widened, Learned widened ∧
      ((ofSource (.ofString "class A #\x7b") widened).parse .compilationUnit).2.halt = none ∧
      (ofSource (.ofString "class A #\x7b") widened).compilationUnit.2.1.current.kind = .eof ∧
      (ofSource (.ofString "class A #\x7b") widened).compilationUnit.2.1.fetched = 6 ∧
      "token recognition error at: '#'" ∈
        (ofSource (.ofString "class A #\x7b") widened).compilationUnit.2.2.map Diagnostic.message ∧
      (ofSource (.ofString "class A #\x7b") widened).compilationUnit.2.1.compilationUnit.1.listed =
        "(compilationUnit <EOF>)" ∧
      (ofSource (.ofString "class A #\x7b") widened).compilationUnit.2.1.compilationUnit.2.2 = [] := by
  have hlexed : ((Source.ofString "class A #\x7b").tokens.size,
      (Source.ofString "class A #\x7b").errors.map LexicalError.message) =
        (6, ["token recognition error at: '#'"]) := by
    decide +kernel
  obtain ⟨hsize, herrors⟩ := Prod.mk.inj hlexed
  obtain ⟨widened, hlearned⟩ : ∃ widened, Learned widened :=
    ⟨_, .parse (s := ofSource (.ofString ";);")) .nothing .compilationUnit⟩
  obtain ⟨hhalt, hend, hfetched, hall, hagain⟩ := unit_reaches_end "class A #\x7b" hlearned
  refine ⟨_, hlearned, hhalt, hend, hfetched.trans hsize, ?_, ?_⟩
  · have hmessages := hall.map Diagnostic.message
    rw [List.map_map] at hmessages
    exact hmessages.subset (herrors ▸ List.mem_singleton_self _)
  · have hwidened : Learned (ofSource (.ofString "class A #\x7b") widened).compilationUnit.2.1.widened :=
      .parse (s := ofSource (.ofString "class A #\x7b") widened) hlearned .compilationUnit
    have hunit := hagain .refl hwidened
    rw [learn_self] at hunit
    exact hunit.2

end Parser

end ResourceNames.Java
