import ResourceNames.Proofs.Supply

/-!
The bounds on calls and rounds are never used up.

A call either follows a choice, and then the next token begins the rule, or it is made whatever comes
next. As long as nothing is used up, calls of the first sort go into rules of lower rank, since each
token they meet is passed. Calls of the second sort go deep only through rules that call others
without a choice, and from there to calls of the first sort. So between two times that something is
used up calls go no deeper than a fixed number of times into each other. Each further round of a loop
is chosen and uses something up.
-/
namespace ResourceNames.Java

open Computability Layout

mutual

def Phrase.sureCalls : Phrase → List Rule
  | .token .. => []
  | .oneOf .. => []
  | .call rule _ _ => [rule]
  | .seq parts => sureCallsAll parts
  | .choice _ => []
  | .opt _ => []
  | .star _ => []
  | .plus body => body.sureCalls

def Phrase.sureCallsAll : List Phrase → List Rule
  | [] => []
  | p :: ps => p.sureCalls ++ sureCallsAll ps

end

namespace Rule

def sureCalls (r : Rule) : List Rule :=
  match Grammar.body r with
  | .alternatives [alt] => alt.sureCalls
  | _ => []

/-- How deep calls without a choice may go into each other, followed for some calls. -/
def sureHeight : Nat → Rule → Nat
  | 0, _ => 0
  | n + 1, r => (r.sureCalls.map (sureHeight n)).foldr max 0 + 1

/-- More than the depth of any calls without a choice. -/
def sureRanks : Nat := 6

/-- How deep calls without a choice may go into each other. -/
def sureRank (r : Rule) : Nat := sureHeight sureRanks r

private theorem sureRank_of_mem_all : ∀ r ∈ Rule.all, r.sureRank < sureRanks ∧
    ∀ q ∈ r.sureCalls, q.sureRank < r.sureRank := by
  decide +kernel

/-- How deep calls may go into each other, from a call of a rule on, before something is used up. If
the rule is led, the next token begins it. -/
def reserve (led : Bool) (r : Rule) : Nat := if led then r.rank else ranks + r.sureRank

/-- More than any reserve. -/
def reserves : Nat := ranks + sureRanks

theorem reserve_lt (led : Bool) (r : Rule) : r.reserve led < reserves := by
  have hrank := r.rank_lt
  have hsure := (sureRank_of_mem_all r (mem_all r)).1
  unfold reserve reserves
  split <;> omega

def callsIn (led : Bool) (r : Rule) : List Rule := if led then r.firstCalls else r.sureCalls

theorem reserve_lt_of_mem {led : Bool} {r q : Rule} (h : q ∈ r.callsIn led) :
    q.reserve led < r.reserve led := by
  cases led with
  | true => exact rank_lt_of_mem h
  | false => exact Nat.add_lt_add_left ((sureRank_of_mem_all r (mem_all r)).2 q h) _

end Rule

def Phrase.callsIn (led : Bool) (p : Phrase) : List Rule := if led then p.firstCalls else p.sureCalls

theorem Rule.callsIn_plain {r : Rule} {f : Form} (led : Bool) (h : (ruleForm r).body = .plain f) :
    f.phrase.callsIn led = r.callsIn led := by
  cases led with
  | true => exact Rule.firstCalls_plain h
  | false =>
    rw [ruleForm_eq_placeRule, placeRule] at h
    unfold Rule.callsIn Rule.sureCalls
    split at h
    · rename_i alt hb
      cases h
      simp [hb, Phrase.phrase_place, Phrase.callsIn]
    · rename_i alts halts hb
      cases h
      simp only [hb, Phrase.phrase_place, Phrase.callsIn, Phrase.sureCalls, if_false,
        Bool.false_eq_true]
      split
      · rename_i alt heq
        cases heq
        exact (halts alt rfl).elim
      · rfl
    · cases h

theorem Rule.callsIn_heads {r : Rule} {ops : Operators} (led : Bool)
    (h : (ruleForm r).body = .operators ops) : ops.heads.phrase.callsIn led = r.callsIn led := by
  cases led with
  | true => exact Rule.firstCalls_heads h
  | false =>
    rw [ruleForm_eq_placeRule, placeRule] at h
    unfold Rule.callsIn Rule.sureCalls
    split at h
    · cases h
    · cases h
    · rename_i heads tails hb
      cases h
      simp [hb, Phrase.phrase_place, Phrase.callsIn, Phrase.sureCalls]

mutual

/-- Whether a form goes to a point before anything else. -/
def Form.moves : Form → Bool
  | .seq _ parts => movesFirst parts
  | _ => true

def Form.movesFirst : List Form → Bool
  | [] => false
  | f :: _ => f.moves

end

namespace Parser

variable {limit depth n m : Nat} {led : Bool} {s s' : Parser} {o : Outcome}

/-- With so many calls and rounds left a phrase can be read before a supply of `n`. -/
structure Lasts (limit depth : Nat) (led : Bool) (n : Nat) (p : Phrase) : Prop where
  rounds : n < limit
  base : n * Rule.reserves ≤ depth
  chosen : led = false → n * Rule.reserves + Rule.ranks ≤ depth
  calls : ∀ r ∈ p.callsIn led, n * Rule.reserves + r.reserve led < depth

namespace Lasts

variable {p q : Phrase}

theorem mono (h : Lasts limit depth led n p) (hm : m ≤ n) (hq : q.callsIn led ⊆ p.callsIn led) :
    Lasts limit depth led m q := by
  have hmul : m * Rule.reserves ≤ n * Rule.reserves := Nat.mul_le_mul_right _ hm
  refine ⟨Nat.lt_of_le_of_lt hm h.rounds, Nat.le_trans hmul h.base, fun hf => ?_, fun r hr => ?_⟩
  · have := h.chosen hf
    omega
  · have := h.calls r (hq hr)
    omega

/-- Once something is used up, any phrase can be read. -/
theorem after (h : Lasts limit depth led n p) (hm : m < n) (led' : Bool) (q : Phrase) :
    Lasts limit depth led' m q := by
  have hmul : (m + 1) * Rule.reserves ≤ n * Rule.reserves := Nat.mul_le_mul_right _ hm
  rw [Nat.succ_mul] at hmul
  have hbase := h.base
  have hranks : Rule.ranks ≤ Rule.reserves := Nat.le_add_right _ _
  refine ⟨Nat.lt_trans hm h.rounds, by omega, fun _ => by omega, fun r _ => ?_⟩
  have := r.reserve_lt led'
  omega

/-- After a choice the phrase is led. -/
theorem lead (h : Lasts limit depth false n p) (q : Phrase) : Lasts limit depth true n q := by
  have hchosen := h.chosen rfl
  refine ⟨h.rounds, h.base, nofun, fun r _ => ?_⟩
  have hrank : r.reserve true < Rule.ranks := r.rank_lt
  omega

theorem of_body {rule : Rule} (hr : n < limit) (hd : n * Rule.reserves + rule.reserve led ≤ depth)
    (hp : p.callsIn led = rule.callsIn led) : Lasts limit depth led n p := by
  refine ⟨hr, by omega, fun hf => ?_, fun r hm => ?_⟩
  · subst hf
    have hle : Rule.ranks ≤ rule.reserve false := Nat.le_add_right _ _
    omega
  · rw [hp] at hm
    have := Rule.reserve_lt_of_mem hm
    omega

/-- A part of a phrase that is chosen is led. -/
theorem pick (h : Lasts limit depth led n p) (hm : m ≤ n)
    (hq : led = true → q.firstCalls ⊆ p.firstCalls) : Lasts limit depth true m q := by
  cases led with
  | false => exact (h.lead q).mono hm (List.Subset.refl _)
  | true => exact h.mono hm (hq rfl)

theorem alternative {alts : List Form} {f : Form} (h : Lasts limit depth led n p) (hm : m ≤ n)
    (hp : p.firstCalls = Phrase.firstCallsAny (Form.phrases alts)) (hf : f ∈ alts) :
    Lasts limit depth true m f.phrase := by
  refine h.pick hm fun _ r hr => ?_
  rw [hp, Phrase.firstCallsAny_eq, Form.phrases_eq_map]
  exact List.mem_flatMap.mpr ⟨_, List.mem_map_of_mem hf, hr⟩

end Lasts

/-- Whether a task is read only if the next token begins it. -/
def Task.isChosen : Task → Bool
  | .tail .. => true
  | _ => false

mutual

/-- The calls and rounds left are enough for a task before a supply of `n`. -/
def Task.Lasts (limit depth : Nat) : Task → Bool → Nat → Prop
  | .sync .., _, _ => True
  | .form f, led, n => Parser.Lasts limit depth led n f.phrase
  | .all ts, led, n => LastsAll limit depth ts led n
  | .pick _ _ alts _, _, n => ∀ f ∈ alts, Parser.Lasts limit depth true n f.phrase
  | .loop _ _ round rounds, _, n => n < rounds ∧
    ∀ back body, round = roundTasks back body → Parser.Lasts limit depth true n body.phrase
  | .tail _ ops .., _, n => ∀ t ∈ ops.tails, Parser.Lasts limit depth true n t.2.phrase
  | .tails _ ops _ _ rounds, _, n => n < rounds ∧
    ∀ t ∈ ops.tails, Parser.Lasts limit depth true n t.2.phrase
  | .body rule _, led, n => n < limit ∧ n * Rule.reserves + rule.reserve led ≤ depth
  | .call _ rule .., led, n => n < limit ∧ n * Rule.reserves + rule.reserve led < depth

/-- The calls and rounds left are enough for some tasks one after another. A task that is led and
uses nothing up leaves the next one led. -/
def Task.LastsAll (limit depth : Nat) : List Task → Bool → Nat → Prop
  | [], _, _ => True
  | t :: ts, led, n => t.Lasts limit depth led n ∧
    (∀ m ≤ n, (led = true ∨ t.isChosen = true → m < n) → LastsAll limit depth ts false m) ∧
    (led = true → [] ∈ t.language → LastsAll limit depth ts true n)

end

private theorem lastsAll_forms {fs : List Form} {entry : Point}
    (h : Lasts limit depth led n (Form.seq entry fs).phrase) :
    Task.LastsAll limit depth (fs.map .form) led n := by
  induction fs generalizing led n with
  | nil => trivial
  | cons f fs ih =>
    have hfirst : f.phrase.callsIn led ⊆ (Form.seq entry (f :: fs)).phrase.callsIn led := by
      cases led <;> simp [Phrase.callsIn, Form.phrase, Form.phrases, Phrase.firstCalls,
        Phrase.firstCallsSeq, Phrase.sureCalls, Phrase.sureCallsAll]
    refine ⟨h.mono (Nat.le_refl n) hfirst, fun m hm hlt => ih ?_, fun hled hnil => ih ?_⟩
    · cases led with
      | true => exact h.after (hlt (.inl rfl)) _ _
      | false =>
        refine h.mono hm ?_
        simp [Phrase.callsIn, Form.phrase, Form.phrases, Phrase.sureCalls, Phrase.sureCallsAll]
    · subst hled
      have heats : f.phrase.eats = false := by
        rw [Bool.eq_false_iff]
        exact fun he => Form.nil_not_mem_language he hnil
      refine h.mono (Nat.le_refl n) ?_
      simp [Phrase.callsIn, Form.phrase, Form.phrases, Phrase.firstCalls, Phrase.firstCallsSeq, heats]

/-- A check and a task that is read only if it is chosen. -/
private theorem lastsAll_checked {gate : Gate} {p : Point} {t : Task}
    (h : ∀ m ≤ n, ∀ led, t.Lasts limit depth led m) :
    Task.LastsAll limit depth [.sync gate p, t] led n :=
  ⟨trivial, fun m hm _ => ⟨h m hm false, fun _ _ _ => trivial, nofun⟩,
    fun _ _ => ⟨h n (Nat.le_refl n) true, fun _ _ _ => trivial, fun _ _ => trivial⟩⟩

/-- A round of a loop and what comes after it. -/
private theorem lastsAll_round {back : Point} {body : Form} {t : Task}
    (h : Lasts limit depth led n body.phrase)
    (ht : ∀ m ≤ n, (led = true → [] ∉ body.language → m < n) → ∀ led, t.Lasts limit depth led m) :
    Task.LastsAll limit depth (roundTasks back body ++ [t]) led n := by
  refine ⟨h, fun m hm hlt => lastsAll_checked fun k hk => ht k (Nat.le_trans hk hm) fun hled _ => ?_,
    fun _ hnil => lastsAll_checked fun k hk => ht k hk fun _ hne => absurd hnil hne⟩
  exact Nat.lt_of_le_of_lt hk (hlt (.inl hled))

private theorem lasts_loop {entry back : Point} {points : List Point} {body : Form} {rounds : Nat}
    {led' : Bool} (h : Lasts limit depth true n body.phrase) (hr : n < rounds) :
    (Task.loop entry points (roundTasks back body) rounds).Lasts limit depth led' n := by
  refine ⟨hr, fun back' body' he => ?_⟩
  simp only [roundTasks, List.cons.injEq, Task.form.injEq] at he
  exact he.1 ▸ h

/-- The next token begins a task, and there is more to come. -/
structure Task.Led (t : Task) (after : Language Kind) (s : Parser) : Prop where
  inner : s.current.kind ≠ .eof
  begins : Begins s.current.kind (t.language * after)
  reads : [] ∉ t.language * after

theorem Task.Led.of_form {f : Form} {after : Language Kind} (h : f.Leads)
    (hk : Begins s.current.kind (f.language * after)) : (Task.form f).Led after s :=
  ⟨(h.begins hk).2, hk, h.nil_not_mem after⟩

theorem Task.Led.of_language {t t' : Task} {after : Language Kind} (h : t.Led after s)
    (ht : t.language = t'.language) : t'.Led after s :=
  ⟨h.inner, ht ▸ h.begins, ht ▸ h.reads⟩

/-- A rule that halts only for a reason that is reported is given up and returns. -/
private theorem close_halt (rule : Rule) (hroot : o.parser.root = none)
    (h : ∀ h, o.halt = some h → h.isReported = true) : (close rule o).halt = none := by
  have hclosed := closed rule o
  generalize close rule o = o' at hclosed
  cases hclosed with
  | ended halt => exact halt
  | gaveUp => rfl
  | raised halt why =>
    have hrep := h _ halt
    rcases why hroot with ⟨rfl, rfl | ⟨p, rfl⟩⟩ <;> cases hrep

/-- A tail that is read uses something up. -/
private theorem Reads.tail_lt {rule : Rule} {ops : Operators} {level : Nat} {start : Token}
    (h : Reads limit depth (.tail rule ops level start) s ⟨s', none⟩) (he : Ended s.rest)
    (hl : s.Located) : s'.supply < s.supply := by
  cases h with
  | @tail _ _ _ _ _ _ u alt t _ form choice found allowed read =>
    have hmem := List.mem_of_getElem? found
    have hsit := sits_tail form hmem
    have hlook := (Eases.looked (predict_looks choice)).trans (.wrap rule start u)
    have hsame : (u.wrap rule start).rest = s.rest :=
      show u.rest = s.rest from rest_of_looked (predict_looks choice)
    have hleads := Operators.leads form hmem
    have hbegins := predict_tail_begins he form choice found
    rw [hsit.stands_entry.rest, ← current_of_rest hsame he.ne_nil] at hbegins
    have hled := Task.Led.of_form hleads hbegins
    rcases read.begins hsit (hsame ▸ he) (hlook.located hl) hled.inner rfl hled.begins hled.reads with
      hlt | ⟨hthrough, -⟩
    · exact Nat.lt_of_lt_of_le hlt hlook.supply
    · exact absurd hthrough (Form.nil_not_mem_language hleads.eats)
  | noTail form choice found =>
    obtain ⟨-, hd⟩ := predict_ok choice
    obtain ⟨t, ht⟩ := Decision.exists_of_decide_tail hd
    cases found.symm.trans ht

private theorem root_of_looked (h : s' = s ∨ ∃ k, s' = s.look k) : s'.root = s.root := by
  rcases h with rfl | ⟨k, rfl⟩ <;> rfl

private theorem unled {p : Prop} : false = true → p := nofun

private theorem ledBy {p : Prop} (h : p) : true = true → p := fun _ => h

variable {r : Rule} {after : Language Kind}

/-- If tasks in a row are led, so is the first of them. -/
private theorem Task.Led.first {t : Task} {ts : List Task} (h : (Task.all (t :: ts)).Led after s) :
    t.Led (languageAll ts * after) s := by
  obtain ⟨hinner, hbegins, hreads⟩ := h
  rw [language, languageAll, mul_assoc] at hbegins hreads
  exact ⟨hinner, hbegins, hreads⟩

/-- If the first of some tasks uses nothing up, the others are led as well. -/
private theorem Task.Led.others {t : Task} {ts : List Task} (h : (Task.all (t :: ts)).Led after s)
    (first : Reads limit depth t s ⟨s', none⟩) (hs : t.Sits r (languageAll ts * after))
    (he : Ended s.rest) (hl : s.Located) (hlt : ¬ s'.supply < s.supply) :
    [] ∈ t.language ∧ (Task.all ts).Led after s' := by
  have hfirst := h.first
  obtain ⟨hthrough, hnext⟩ :=
    (first.begins hs he hl hfirst.inner rfl hfirst.begins hfirst.reads).resolve_left hlt
  have hcurrent := current_of_rest (first.rest_eq he hlt) he.ne_nil
  refine ⟨hthrough, ?_, ?_, fun hnil => hfirst.reads ?_⟩
  · rw [hcurrent]
    exact h.inner
  · rw [hcurrent]
    exact hnext
  · exact Language.append_mem_mul hthrough hnil

/-- Whatever is reported on the way, a halt is one that will be reported, as long as the calls and
rounds left are enough. -/
theorem Reads.lasts {t : Task} (h : Reads limit depth t s o) (hs : t.Sits r after)
    (he : Ended s.rest) (hl : s.Located) (hroot : s.root = none)
    (hled : led = true → t.Led after s) (hn : t.Lasts limit depth led s.supply) :
    ∀ h, o.halt = some h → h.isReported = true := by
  induction h generalizing r after led with
  | @sync depth gate p s back =>
    intro h hh
    have hsync := synced gate (s.moveTo p)
    generalize (s.moveTo p).sync gate = o at hsync hh
    cases hsync with
    | passed | dropped | skipped => cases hh
    | mismatch =>
      cases hh
      rfl
    | astray lost => exact absurd hroot lost
  | nil | passed | done | noTail | doneTails => intro h hh; cases hh
  | @cons depth t ts s s' o first rest ih ih' =>
    obtain ⟨-, hunled, hledAll⟩ := hn
    have hspends : Spends s s' := first.spends hs.1
    have hroot' := first.work.root.trans hroot
    obtain ⟨-, -, he'⟩ := first.work.advances he
    have hl' := hspends.located hl
    by_cases hlt : s'.supply < s.supply
    · exact ih' hs.2 he' hl' hroot' unled (hunled _ hspends.supply fun _ => hlt)
    · cases led with
      | false =>
        refine ih' hs.2 he' hl' hroot' unled (hunled _ hspends.supply fun ht => ?_)
        have hchosen := ht.resolve_left (by simp)
        cases t with
        | tail => exact first.tail_lt he hl
        | _ => cases hchosen
      | true =>
        obtain ⟨hthrough, hled'⟩ := (hled rfl).others first hs.1 he hl hlt
        have hsupply : s'.supply = s.supply := Nat.le_antisymm hspends.supply (Nat.le_of_not_lt hlt)
        have hall := hledAll rfl hthrough
        rw [← hsupply] at hall
        exact ih' hs.2 he' hl' hroot' (ledBy hled') hall
  | stop first ih => exact ih hs.1 he hl hroot (fun h => (hled h).first) hn.1
  | @token depth here next kind field s held =>
    intro h hh
    unfold Parser.token at hh
    dsimp only at hh
    split at hh
    · cases hh
    · split at hh
      · rename_i hm
        cases hh
        exact mend_error hm hroot
      · cases hh
  | @oneOf depth here next kinds field s held =>
    intro h hh
    have hr : ((s.moveTo here).setField field (.leaf s.current false)).root = none := by
      cases field <;> exact hroot
    unfold Parser.oneOf at hh
    dsimp only at hh
    split at hh
    · cases hh
    · split at hh
      · rename_i hm
        cases hh
        exact mend_error hm hr
      · cases hh
  | @invoke _ here next rule level field s o call ih =>
    have hcall : (Task.call next rule level field).Sits r after :=
      (Follow.proper_of_mem_sites hs.2.2).called
    have hled' : led = true → (Task.call next rule level field).Led after (s.moveTo here) := by
      intro h
      obtain ⟨hinner, hbegins, hreads⟩ := (hled h).of_language (Task.language_call ..)
      exact ⟨hinner, hbegins, hreads⟩
    refine ih hcall he (located_moveTo hs.1.mem) hroot hled' ⟨hn.rounds, ?_⟩
    refine hn.calls rule ?_
    cases led <;> exact List.mem_singleton_self _
  | seq all ih =>
    exact ih (Task.sitsAll_forms hs.2) he hl hroot
      (fun h => (hled h).of_language (Task.language_seq ..)) (lastsAll_forms hn)
  | choice all ih =>
    refine ih (Task.sitsAll_choice hs) he hl hroot
      (fun h => (hled h).of_language (Task.language_choice ..)) (lastsAll_checked fun m hm _ f hf => ?_)
    exact hn.alternative hm rfl hf
  | opt all ih =>
    refine ih (Task.sitsAll_opt hs) he hl hroot
      (fun h => (hled h).of_language (Task.language_opt ..)) (lastsAll_checked fun m hm _ f hf => ?_)
    exact hn.alternative hm rfl hf
  | star all ih =>
    refine ih (Task.sitsAll_star hs) he hl hroot
      (fun h => (hled h).of_language (Task.language_star ..)) (lastsAll_checked fun m hm _ => ?_)
    exact lasts_loop (hn.pick hm fun _ => List.Subset.refl _) (Nat.lt_of_le_of_lt hm hn.rounds)
  | @plus depth start back next body s o all ih =>
    have hloop : ∀ m ≤ s.supply, ∀ led,
        (Task.loop start [body.entry, next] (roundTasks back body) limit).Lasts limit depth led m :=
      fun m hm _ =>
        lasts_loop (hn.pick hm fun _ => List.Subset.refl _) (Nat.lt_of_le_of_lt hm hn.rounds)
    refine ih (Task.sitsAll_plus hs) he hl hroot
      (fun h => (hled h).of_language (Task.language_plus ..)) ⟨trivial, fun m hm hlt => ?_, fun h _ => ?_⟩
    · refine lastsAll_round ?_ fun k hk _ => hloop k (Nat.le_trans hk hm)
      cases led with
      | false => exact hn.mono hm (List.Subset.refl _)
      | true => exact hn.after (hlt (.inl rfl)) _ _
    · subst h
      exact lastsAll_round (hn.mono (Nat.le_refl _) (List.Subset.refl _)) fun k hk _ => hloop k hk
  | picked origin choice alt read ih =>
    have hlooks := choose_looks choice
    have hsame := rest_of_looked hlooks
    have hlook := Eases.looked hlooks
    have hf := List.mem_of_getElem? alt
    have hbegins := origin.begins hs he choice alt
    rw [← current_of_rest hsame he.ne_nil] at hbegins
    refine ih (Form.sitEach_iff.mp hs.1 _ hf) (hsame ▸ he) (hlook.located hl)
      ((root_of_looked hlooks).trans hroot) (ledBy (.of_form (origin.leads _ hf) hbegins)) ?_
    exact (hn _ hf).mono hlook.supply (List.Subset.refl _)
  | @unfit _ _ _ _ optional _ _ _ origin choice =>
    rintro h ⟨⟩
    rcases choose_error choice with hr | ho
    · exact hr
    · cases optional with
      | true => cases ho
      | false =>
        cases ho
        rfl
  | @again _ entry points round rounds s s' o origin more all ih =>
    obtain ⟨back, next, body, rfl, rfl, hback, hnext, hbody⟩ := hs
    obtain ⟨hlt, hround⟩ := hn
    have hlooks := another_looks more
    have hsame := rest_of_looked hlooks
    have hlook := Eases.looked hlooks
    have hbegins := origin.begins hnext.mem hbody he more
    rw [← current_of_rest hsame he.ne_nil] at hbegins
    have hform := Task.Led.of_form origin.leads hbegins
    have hlasts := (hround back body rfl).mono hlook.supply (List.Subset.refl _)
    refine ih (Task.sitsAll_round hback hnext hbody) (hsame ▸ he) (hlook.located hl)
      ((root_of_looked hlooks).trans hroot) (ledBy ⟨hform.inner, ?_, ?_⟩) ?_
    · rw [Task.language_again, mul_assoc]
      exact hbegins
    · rw [Task.language_again, mul_assoc]
      exact hform.reads
    · refine lastsAll_round hlasts fun m hm hb _ => ?_
      have hlt' := hb rfl (Form.nil_not_mem_language origin.leads.eats)
      exact lasts_loop (hlasts.mono hm (List.Subset.refl _)) (by have := hlook.supply; omega)
  | undecided origin more =>
    rintro h ⟨⟩
    exact another_error more
  | worn => exact absurd hn.1 (Nat.not_lt_zero _)
  | @tail _ rule ops _ start s s' _ t o form choice found allowed read ih =>
    have hmem := List.mem_of_getElem? found
    have hsit := sits_tail form hmem
    have hlook := (Eases.looked (predict_looks choice)).trans (.wrap rule start s')
    have hsame : (s'.wrap rule start).rest = s.rest :=
      show s'.rest = s.rest from rest_of_looked (predict_looks choice)
    have hbegins := predict_tail_begins he form choice found
    rw [hsit.stands_entry.rest, ← current_of_rest hsame he.ne_nil] at hbegins
    refine ih hsit (hsame ▸ he) (hlook.located hl)
      ((root_of_looked (predict_looks choice)).trans hroot)
      (ledBy (.of_form (Operators.leads form hmem) hbegins)) ?_
    exact (hn _ hmem).mono hlook.supply (List.Subset.refl _)
  | lowTail => rintro h ⟨⟩; rfl
  | unfitTail choice => rintro h ⟨⟩; exact predict_error choice
  | againTails form more all ih =>
    obtain ⟨rfl, hops, -⟩ := hs
    obtain ⟨hlt, htails⟩ := hn
    have hlooks := anotherTail_looks more
    have hsame := rest_of_looked hlooks
    have hlook := Eases.looked hlooks
    have hmono : ∀ m ≤ _, ∀ t ∈ _, Lasts limit _ true m (Form.phrase (Prod.snd t)) :=
      fun m hm t ht => (htails t ht).mono (Nat.le_trans hm hlook.supply) (List.Subset.refl _)
    refine ih (Task.sitsAll_tails hops) (hsame ▸ he) (hlook.located hl)
      ((root_of_looked hlooks).trans hroot) unled ?_
    refine ⟨trivial, fun m hm _ => ⟨hmono m hm, fun k hk hb => lastsAll_checked fun j hj _ => ?_,
      nofun⟩, nofun⟩
    have hlt' := hb (.inr rfl)
    exact ⟨by have := hlook.supply; omega, hmono j (by omega)⟩
  | undecidedTails more =>
    rintro h ⟨⟩
    exact anotherTail_error more
  | wornTails => exact absurd hn.1 (Nat.not_lt_zero _)
  | plain form read ih =>
    obtain ⟨rfl, rfl⟩ := hs
    exact ih (sits_plain form) he hl hroot (fun h => (hled h).of_language (Task.language_plain form _))
      (.of_body hn.1 hn.2 (Rule.callsIn_plain led form))
  | operators form all ih =>
    obtain ⟨rfl, rfl⟩ := hs
    have hheads := Lasts.of_body hn.1 hn.2 (Rule.callsIn_heads led form)
    refine ih (Task.sitsAll_operators form) he hl hroot
      (fun h => (hled h).of_language (Task.language_operators form ..)) ?_
    refine ⟨hheads, fun m hm hlt => lastsAll_checked fun k hk _ => ⟨?_, fun t _ => ?_⟩, fun _ hnil => ?_⟩
    · exact Nat.lt_of_le_of_lt (Nat.le_trans hk hm) hn.1
    · cases led with
      | false => exact (hheads.lead _).mono (Nat.le_trans hk hm) (List.Subset.refl _)
      | true => exact hheads.after (Nat.lt_of_le_of_lt hk (hlt (.inl rfl))) _ _
    · exact absurd hnil (Form.nil_not_mem_language (Rule.operators_eat form).1)
  | @call depth next rule level field s o read ih =>
    have hbody : (Task.body rule level).Sits rule 1 := ⟨rfl, rfl⟩
    have hclose : (close rule o).halt = none := by
      refine close_halt rule (read.work.root.trans hroot) (ih hbody he hl hroot (fun h => ?_)
        ⟨hn.1, Nat.le_of_lt_succ hn.2⟩)
      obtain ⟨hinner, hbegins, -⟩ := hled h
      refine ⟨hinner, ?_, ?_⟩ <;> rw [mul_one]
      · exact hbegins.of_mul.resolve_right fun h => Rule.nil_not_mem_language hs h.1
      · exact Rule.nil_not_mem_language hs
    intro h hh
    cases hclose.symm.trans hh
  | wornCall => exact absurd hn.2 (Nat.not_lt_zero _)

/-! ### Whole rules -/

mutual

private theorem run_moveTo (invoke : Invoke) (limit : Nat) (f : Form) (h : f.moves = true) (s : Parser)
    (p : Point) : run invoke limit f (s.moveTo p) = run invoke limit f s := by
  cases f with
  | seq entry parts =>
    rw [run, run]
    exact runAll_moveTo invoke limit parts h s p
  | token | oneOf | call | choice | opt | star | plus => rw [run, run]; rfl

private theorem runAll_moveTo (invoke : Invoke) (limit : Nat) (fs : List Form)
    (h : Form.movesFirst fs = true) (s : Parser) (p : Point) :
    runAll invoke limit fs (s.moveTo p) = runAll invoke limit fs s := by
  cases fs with
  | nil => cases h
  | cons f fs => rw [runAll, runAll, run_moveTo invoke limit f h]

end

private theorem moves_of_mem_all : ∀ r ∈ Rule.all,
    (match (ruleForm r).body with
      | .plain f => f.moves
      | .operators ops => ops.heads.moves) = true := by
  decide +kernel

/-- The body of a rule does not depend on where the parser was before. -/
private theorem runBody_moveTo (invoke : Invoke) (limit : Nat) (rule : Rule) (level : Nat) (s : Parser)
    (p : Point) : runBody invoke limit rule level (s.moveTo p) = runBody invoke limit rule level s := by
  have hmoves := moves_of_mem_all rule (mem_all rule)
  unfold runBody
  split
  · rename_i f hf
    rw [hf] at hmoves
    exact run_moveTo invoke limit f hmoves s p
  · rename_i ops ho
    rw [ho] at hmoves
    rw [run_moveTo invoke limit ops.heads hmoves s p]
    rfl

private theorem reserves_le_rules : Rule.reserves ≤ Rule.all.length := by decide

private theorem lasts_limit (rule : Rule) (he : Ended s.rest) :
    (Task.body rule 0).Lasts s.limit s.limit false s.supply := by
  have hreserve := rule.reserve_lt false
  have hsupply := supply_lt_mul he.ne_nil
  have hmul : (s.rest.length + 1) * (Layout.size + 2) * Rule.reserves ≤ s.limit :=
    Nat.mul_le_mul_left _ reserves_le_rules
  have hle : s.supply + 1 ≤ (s.rest.length + 1) * (Layout.size + 2) := by
    rw [Nat.succ_mul]
    omega
  have hall : (s.supply + 1) * Rule.reserves ≤ s.limit :=
    Nat.le_trans (Nat.mul_le_mul_right _ hle) hmul
  rw [Nat.succ_mul] at hall
  have hone : s.supply ≤ s.supply * Rule.reserves := Nat.le_mul_of_pos_right _ (by decide)
  exact ⟨by omega, by omega⟩

/-- A rule is read to its end or given up, but never left with a halt. -/
theorem parse_closes (rule : Rule) (he : Ended s.rest) (hroot : s.here = none) :
    ∃ o t, Reads s.limit s.limit (.body rule 0) (s.outset.moveTo (stop rule)) o ∧
      Closed rule o ⟨t, none⟩ ∧ s.parse rule = (t.node rule s.current,
        ⟨{ t with children := [], fields := [], here := pointAfter rule none t.here }, none⟩) := by
  have read := reads_body s.limit s.limit rule 0 (s.outset.moveTo (stop rule))
  have hhalt := close_halt rule (read.work.root.trans hroot)
    (read.lasts ⟨rfl, rfl⟩ he (located_moveTo List.mem_cons_self) hroot unled (lasts_limit rule he))
  rw [runBody_moveTo] at read hhalt
  have hclosed := closed rule (runBody (call s.limit s.limit) s.limit rule 0 s.outset)
  refine ⟨_, (close rule (runBody (call s.limit s.limit) s.limit rule 0 s.outset)).parser, read, ?_, ?_⟩
  · rwa [← hhalt]
  · rw [← hhalt, ← hroot]
    rfl

/-- Whatever the tokens are, a rule ends. -/
theorem halt_parse (rule : Rule) (he : Ended s.rest) (hroot : s.here = none) :
    (s.parse rule).2.halt = none := by
  obtain ⟨_, _, -, -, hp⟩ := parse_closes rule he hroot
  rw [hp]

end Parser

end ResourceNames.Java
