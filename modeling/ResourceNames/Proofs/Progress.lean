import ResourceNames.Proofs.Derivations

/-!
The bounds on calls and rounds are not used up while nothing is reported.

Every rule but that of a whole unit reads a token, and so does every round of a loop and every
tail. Between two tokens calls only go into rules of lower rank. So a bound of some calls for each
token that is left is enough, and so is one of a round for each of them.
-/
namespace ResourceNames.Java

mutual

/-- Whether every word of a phrase has a token before the end. -/
def Phrase.eats : Phrase → Bool
  | .token kind _ => kind != .eof
  | .oneOf kinds _ => !kinds.contains .eof
  | .call rule _ _ => rule != .compilationUnit
  | .seq parts => anyEats parts
  | .choice alts => allEat alts
  | .opt _ => false
  | .star _ => false
  | .plus body => body.eats

def Phrase.anyEats : List Phrase → Bool
  | [] => false
  | p :: ps => p.eats || anyEats ps

def Phrase.allEat : List Phrase → Bool
  | [] => true
  | p :: ps => p.eats && allEat ps

end

mutual

def Phrase.firstCalls : Phrase → List Rule
  | .token .. => []
  | .oneOf .. => []
  | .call rule _ _ => [rule]
  | .seq parts => firstCallsSeq parts
  | .choice alts => firstCallsAny alts
  | .opt alts => firstCallsAny alts
  | .star body => body.firstCalls
  | .plus body => body.firstCalls

def Phrase.firstCallsSeq : List Phrase → List Rule
  | [] => []
  | p :: ps => p.firstCalls ++ if p.eats then [] else firstCallsSeq ps

def Phrase.firstCallsAny : List Phrase → List Rule
  | [] => []
  | p :: ps => p.firstCalls ++ firstCallsAny ps

end

namespace Rule

def firstCalls (r : Rule) : List Rule :=
  match Grammar.body r with
  | .alternatives alts => Phrase.firstCallsAny alts
  | .operators heads _ => Phrase.firstCallsAny heads

/-- How deep calls may go into each other before a token is read, followed for some calls. -/
def height : Nat → Rule → Nat
  | 0, _ => 0
  | n + 1, r => (r.firstCalls.map (height n)).foldr max 0 + 1

/-- More than any rank. -/
def ranks : Nat := 10

/-- How deep calls may go into each other before a token is read. -/
def rank (r : Rule) : Nat := height ranks r

end Rule

namespace Phrase

theorem allEat_iff {ps : List Phrase} : allEat ps = true ↔ ∀ p ∈ ps, p.eats = true := by
  induction ps with
  | nil => simp [allEat]
  | cons p ps ih => simp [allEat, ih]

theorem firstCallsAny_eq (ps : List Phrase) : firstCallsAny ps = ps.flatMap firstCalls := by
  induction ps with
  | nil => rfl
  | cons p ps ih => simp [firstCallsAny, ih]

end Phrase

def Part.eats : Part → Bool
  | .token k => k != .eof
  | .rule r => r != .compilationUnit

theorem Phrase.Word.exists_eats {p : Phrase} {w : List Part} (h : p.Word w) (he : p.eats = true) :
    ∃ x ∈ w, x.eats = true := by
  induction h with
  | token => exact ⟨_, List.mem_singleton_self _, he⟩
  | @oneOf kinds _ kind mem =>
    refine ⟨_, List.mem_singleton_self _, ?_⟩
    have hk : kind ≠ .eof := by
      rintro rfl
      simp [Phrase.eats, mem] at he
    simpa [Part.eats] using hk
  | call => exact ⟨_, List.mem_singleton_self _, he⟩
  | nil | skip | done => simp [Phrase.eats, Phrase.anyEats] at he
  | cons _ _ ih ih' =>
    simp only [Phrase.eats, Phrase.anyEats, Bool.or_eq_true] at he
    rcases he with he | he
    · obtain ⟨x, hx, hxe⟩ := ih he
      exact ⟨x, List.mem_append_left _ hx, hxe⟩
    · obtain ⟨x, hx, hxe⟩ := ih' he
      exact ⟨x, List.mem_append_right _ hx, hxe⟩
  | choice mem _ ih => exact ih (Phrase.allEat_iff.mp he _ mem)
  | opt | more => simp [Phrase.eats] at he
  | plus _ _ ih =>
    obtain ⟨x, hx, hxe⟩ := ih he
    exact ⟨x, List.mem_append_left _ hx, hxe⟩

namespace Rule

theorem eats_of_mem_all : ∀ r ∈ Rule.all, r ≠ .compilationUnit →
    ∀ p ∈ Accessor.alternatives r, p.eats = true := by
  decide +kernel

/-- Every rule but that of a whole unit has a token. -/
theorem Word.exists_eats {r : Rule} {w : List Part} (h : r.Word w) (hr : r ≠ .compilationUnit) :
    ∃ x ∈ w, x.eats = true := by
  obtain ⟨p, hp, hw⟩ := h
  exact hw.exists_eats (eats_of_mem_all r (Layout.mem_all r) hr p hp)

private theorem rank_of_mem_all : ∀ r ∈ Rule.all, r.rank < ranks ∧
    ∀ q ∈ r.firstCalls, q.rank < r.rank := by
  decide +kernel

theorem rank_lt (r : Rule) : r.rank < ranks := (rank_of_mem_all r (Layout.mem_all r)).1

/-- Calls before the first token go to rules of lower rank. -/
theorem rank_lt_of_mem {r q : Rule} (h : q ∈ r.firstCalls) : q.rank < r.rank :=
  (rank_of_mem_all r (Layout.mem_all r)).2 q h

theorem firstCalls_plain {r : Rule} {f : Form} (h : (Layout.ruleForm r).body = .plain f) :
    f.phrase.firstCalls = r.firstCalls := by
  rw [Layout.ruleForm_eq_placeRule, Layout.placeRule] at h
  unfold Rule.firstCalls
  split at h
  · rename_i alt hb
    cases h
    simp [hb, Phrase.phrase_place, Phrase.firstCallsAny]
  · rename_i alts _ hb
    cases h
    simp [hb, Phrase.phrase_place, Phrase.firstCalls]
  · cases h

theorem firstCalls_heads {r : Rule} {ops : Operators}
    (h : (Layout.ruleForm r).body = .operators ops) :
    ops.heads.phrase.firstCalls = r.firstCalls := by
  rw [Layout.ruleForm_eq_placeRule, Layout.placeRule] at h
  unfold Rule.firstCalls
  split at h
  · cases h
  · cases h
  · rename_i heads tails hb
    cases h
    simp [hb, Phrase.phrase_place, Phrase.firstCalls]

/-- Whether the loops and the operators of a rule read a token in each round. -/
def roundsEat (r : Rule) : Bool :=
  (r.forms.all fun f =>
    match f with
    | .star _ _ _ body => body.phrase.eats
    | .plus _ _ _ body => body.phrase.eats
    | _ => true) &&
  match (Layout.ruleForm r).body with
  | .plain _ => true
  | .operators ops => ops.heads.phrase.eats && ops.tails.all fun t => t.2.phrase.eats

private theorem roundsEat_of_mem_all : ∀ r ∈ Rule.all, r.roundsEat = true := by
  decide +kernel

theorem roundsEat_eq_true (r : Rule) : r.roundsEat = true :=
  roundsEat_of_mem_all r (Layout.mem_all r)

theorem operators_eat {r : Rule} {ops : Operators}
    (h : (Layout.ruleForm r).body = .operators ops) :
    ops.heads.phrase.eats = true ∧ ∀ t ∈ ops.tails, t.2.phrase.eats = true := by
  have hr := r.roundsEat_eq_true
  simp only [roundsEat, h, Bool.and_eq_true, List.all_eq_true] at hr
  exact hr.2

end Rule

/-- Every round of a loop reads a token. -/
theorem Parser.Loops.eats {entry back : Point} {points : List Point} {body : Form}
    (h : Parser.Loops entry points (Parser.roundTasks back body)) : body.phrase.eats = true := by
  generalize hround : Parser.roundTasks back body = round at h
  cases h with
  | star held | plus held =>
    obtain ⟨r, hr⟩ := held
    have hall := r.roundsEat_eq_true
    simp only [Rule.roundsEat, Bool.and_eq_true, List.all_eq_true] at hall
    simp only [Parser.roundTasks, List.cons.injEq, Parser.Task.form.injEq] at hround
    exact hround.1 ▸ hall.1 _ hr

namespace Tree

theorem exists_rule_of_mem_nodes {n : Tree} (t : Tree) (h : n ∈ t.nodes) : ∃ r, n.rule? = some r := by
  induction t using ofChildren with
  | leaf | missing => simp [nodes] at h
  | node rule start stop fields children ih =>
    rcases List.mem_cons.mp h with rfl | h
    · exact ⟨rule, rfl⟩
    · obtain ⟨c, hc, hn⟩ := mem_nodesAll.mp h
      exact ih c hc hn

mutual

/-- A sound node of any rule but that of a whole unit has a token. -/
private theorem tokens_ne_nil (t : Tree) (h : t.IsSound) (he : t.part.eats = true) :
    t.tokens ≠ [] := by
  cases t with
  | leaf u stray =>
    have hk : u.kind ≠ .eof := by simpa [part, Part.eats] using he
    simp [tokens, hk]
  | missing k => simp [IsSound, isError] at h
  | node rule start stop fields children =>
    obtain ⟨⟨hw, herr⟩, hs⟩ := each_node.mp h.2
    have hr : rule ≠ .compilationUnit := by simpa [part, Part.eats] using he
    obtain ⟨x, hx, hxe⟩ := hw.exists_eats hr
    rw [tokens]
    exact tokensAll_ne_nil children (fun c hc => ⟨herr c hc, hs c hc⟩) hx hxe

private theorem tokensAll_ne_nil (ts : List Tree) (h : ∀ t ∈ ts, t.IsSound) {x : Part}
    (hx : x ∈ ts.map part) (he : x.eats = true) : tokensAll ts ≠ [] := by
  cases ts with
  | nil => simp at hx
  | cons t ts =>
    rw [tokensAll]
    rcases List.mem_cons.mp hx with rfl | hx
    · exact List.append_ne_nil_of_left_ne_nil (tokens_ne_nil t (h t List.mem_cons_self) he) _
    · refine List.append_ne_nil_of_right_ne_nil _ ?_
      exact tokensAll_ne_nil ts (fun u hu => h u (List.mem_cons_of_mem _ hu)) hx he

end

end Tree

def Halt.isReported : Halt → Bool
  | .noViable .. => true
  | .mismatch => true
  | .lowLevel _ => true
  | .astray _ => false
  | .exhausted => false

namespace Parser

variable {limit depth : Nat} {s s' : Parser} {o : Outcome}

def Task.eats : Task → Bool
  | .form f => f.phrase.eats
  | .tail .. => true
  | _ => false

theorem taken_eq (s : Parser) : s.taken = Tree.tokensAll s.made := rfl

theorem Reads.rest_le {t : Task} (h : Reads limit depth t s o) (he : Ended s.rest) :
    o.parser.rest.length ≤ s.rest.length := by
  obtain ⟨ts, ha, -⟩ := h.work.advances he
  simp [ha.rest]

private theorem Reads.form_shorter {f : Form} (h : Reads limit depth (.form f) s o)
    (he : Ended s.rest) (hc : Calm s o.parser) (hh : o.halt = none) (hf : f.phrase.eats = true) :
    o.parser.rest.length < s.rest.length := by
  obtain ⟨new, hnew, hw, hs⟩ : Tree.Adds f.phrase.Word s.made o.parser.made := h.does he hc hh
  obtain ⟨x, hx, hxe⟩ := hw.exists_eats hf
  have hne := Tree.tokensAll_ne_nil new hs hx hxe
  obtain ⟨ts, ha, -⟩ := h.work.advances he
  have ht := ha.taken
  rw [taken_eq, taken_eq, hnew, Tree.tokensAll_append, List.append_cancel_left_eq] at ht
  rw [ha.rest, ← ht, List.length_append]
  have hpos := List.length_pos_iff.mpr hne
  omega

/-- Fewer tokens are left after a task that eats. -/
theorem Reads.shorter {t : Task} (h : Reads limit depth t s o) (he : Ended s.rest)
    (hc : Calm s o.parser) (hh : o.halt = none) (ht : t.eats = true) :
    o.parser.rest.length < s.rest.length := by
  cases t with
  | form f => exact h.form_shorter he hc hh ht
  | tail rule ops level start =>
    cases h with
    | tail form choice found allowed read =>
      have hl := predict_looks choice
      have hc' := hc.of_looked hl
      rw [← rest_of_looked hl] at he ⊢
      exact read.form_shorter he ⟨hc'.root, hc'.idle, hc'.reports⟩ hh
        ((Rule.operators_eat form).2 _ (List.mem_of_getElem? found))
    | noTail form choice found =>
      obtain ⟨-, hd⟩ := predict_ok choice
      obtain ⟨t, ht⟩ := Decision.exists_of_decide_tail hd
      cases found.symm.trans ht
    | lowTail | unfitTail => cases hh
  | sync | all | pick | loop | tails | body | call => cases ht

/-- With so many calls and rounds left a form can be read before `n` tokens that calls some rules
before its first token. -/
structure Fits (limit depth n : Nat) (rules : List Rule) : Prop where
  rounds : n < limit
  calls : n * Rule.ranks ≤ depth
  first : ∀ r ∈ rules, n * Rule.ranks + r.rank < depth

theorem Fits.mono {n m : Nat} {rules rules' : List Rule} (h : Fits limit depth n rules) (hm : m ≤ n)
    (hr : rules' ⊆ rules) : Fits limit depth m rules' := by
  have hmul : m * Rule.ranks ≤ n * Rule.ranks := Nat.mul_le_mul_right _ hm
  refine ⟨by have := h.rounds; omega, Nat.le_trans hmul h.calls, fun r hm => ?_⟩
  have := h.first r (hr hm)
  omega

/-- After a token any rule may be called. -/
theorem Fits.after {n m : Nat} {rules : List Rule} (h : Fits limit depth n rules) (hm : m < n)
    (rules' : List Rule) : Fits limit depth m rules' := by
  have hmul : (m + 1) * Rule.ranks ≤ n * Rule.ranks := Nat.mul_le_mul_right _ hm
  rw [Nat.succ_mul] at hmul
  refine ⟨by have := h.rounds; omega, by have := h.calls; omega, fun r _ => ?_⟩
  have := h.calls
  have := r.rank_lt
  omega

mutual

/-- The calls and rounds left are enough for a task before `n` tokens. -/
def Task.Enough (limit depth : Nat) : Task → Nat → Prop
  | .sync .., _ => True
  | .form f, n => Fits limit depth n f.phrase.firstCalls
  | .all ts, n => EnoughAll limit depth ts n
  | .pick _ _ alts _, n => ∀ f ∈ alts, Fits limit depth n f.phrase.firstCalls
  | .loop _ _ round rounds, n => n < rounds ∧
    ∀ back body, round = roundTasks back body → Fits limit depth n body.phrase.firstCalls
  | .tail _ ops .., n => ∀ t ∈ ops.tails, Fits limit depth n t.2.phrase.firstCalls
  | .tails _ ops _ _ rounds, n => n < rounds ∧
    ∀ t ∈ ops.tails, Fits limit depth n t.2.phrase.firstCalls
  | .body rule _, n => n < limit ∧ n * Rule.ranks + rule.rank ≤ depth
  | .call _ rule .., n => n < limit ∧ n * Rule.ranks + rule.rank < depth

def Task.EnoughAll (limit depth : Nat) : List Task → Nat → Prop
  | [], _ => True
  | t :: ts, n => t.Enough limit depth n ∧
    ∀ m ≤ n, (t.eats = true → m < n) → EnoughAll limit depth ts m

end

private theorem enoughAll_forms {fs : List Form} {n : Nat}
    (h : Fits limit depth n (Phrase.firstCallsSeq (Form.phrases fs))) :
    Task.EnoughAll limit depth (fs.map .form) n := by
  induction fs generalizing n with
  | nil => trivial
  | cons f fs ih =>
    refine ⟨h.mono (Nat.le_refl n) (by simp [Form.phrases, Phrase.firstCallsSeq]), fun m hm hf => ih ?_⟩
    cases he : f.phrase.eats with
    | true => exact h.after (hf he) _
    | false => exact h.mono hm (by simp [Form.phrases, Phrase.firstCallsSeq, he])

/-- A round of a loop and what comes after it. -/
private theorem enoughAll_round {back : Point} {body : Form} {t : Task} {n : Nat}
    (h : Fits limit depth n body.phrase.firstCalls)
    (ht : ∀ m ≤ n, (body.phrase.eats = true → m < n) → t.Enough limit depth m) :
    Task.EnoughAll limit depth (roundTasks back body ++ [t]) n :=
  ⟨h, fun _ hm he => ⟨trivial, fun k hk _ =>
    ⟨ht k (Nat.le_trans hk hm) fun hb => Nat.lt_of_le_of_lt hk (he hb), fun _ _ _ => trivial⟩⟩⟩

private theorem enough_loop {entry back : Point} {points : List Point} {body : Form} {n rounds : Nat}
    (h : Fits limit depth n body.phrase.firstCalls) (hr : n < rounds) :
    (Task.loop entry points (roundTasks back body) rounds).Enough limit depth n := by
  refine ⟨hr, fun back' body' he => ?_⟩
  simp only [roundTasks, List.cons.injEq, Task.form.injEq] at he
  exact he.1 ▸ h

private theorem fits_of_rank {n : Nat} {rule : Rule} (hr : n < limit)
    (hd : n * Rule.ranks + rule.rank ≤ depth) : Fits limit depth n rule.firstCalls := by
  refine ⟨hr, by omega, fun r hm => ?_⟩
  have := Rule.rank_lt_of_mem hm
  omega

private theorem fits_of_mem_alts {alts : List Form} {n m : Nat}
    (h : Fits limit depth n (Phrase.firstCallsAny (Form.phrases alts))) (hm : m ≤ n) :
    ∀ f ∈ alts, Fits limit depth m f.phrase.firstCalls := by
  intro f hf
  refine h.mono hm fun r hr => ?_
  rw [Phrase.firstCallsAny_eq, Form.phrases_eq_map]
  exact List.mem_flatMap.mpr ⟨_, List.mem_map_of_mem hf, hr⟩

theorem mend_error {next : Point} {h : Halt} (hm : s.mend next = (s', .error h))
    (hr : s.root = none) : h.isReported = true := by
  have hmend := mended next s
  rw [hm] at hmend
  cases hmend with
  | failed lost => exact absurd hr lost
  | looked why =>
    rcases why with rfl | lost
    · rfl
    · exact absurd hr lost
  | reported report why =>
    rcases why with rfl | lost
    · rfl
    · exact absurd (((Work.reportMissing report : Work [] [] _ _).root).trans hr) lost

theorem predict_error {d : Decision} {h : Halt} (hp : s.predict d = (s', .error h)) :
    h.isReported = true := by
  unfold predict at hp
  dsimp only at hp
  split at hp
  · cases hp
  · cases hp
    rfl

theorem choose_error {p : Point} {alts : List Point} {otherwise : Except Halt Nat} {h : Halt}
    (hc : s.choose p alts otherwise = (s', .error h)) :
    h.isReported = true ∨ otherwise = .error h := by
  unfold choose at hc
  split at hc
  · exact .inl (predict_error hc)
  · split at hc
    · cases hc
    · exact .inr (Prod.mk.inj hc).2

theorem another_error {p : Point} {alts : List Point} {h : Halt}
    (ha : another p alts s = (s', .error h)) : h.isReported = true := by
  unfold another at ha
  split at ha
  · cases ha
  · rename_i hc
    cases ha
    exact (choose_error hc).resolve_right (by simp)

theorem anotherTail_error {rule : Rule} {ops : Operators} {level : Nat} {h : Halt}
    (ha : anotherTail rule ops level s = (s', .error h)) : h.isReported = true := by
  unfold anotherTail at ha
  split at ha
  · cases ha
  · rename_i hc
    cases ha
    exact predict_error hc

/-- A halt that comes up while nothing is reported is one that will be, as long as the calls and
rounds left are enough. -/
theorem Reads.isReported {t : Task} (h : Reads limit depth t s o) (he : Ended s.rest)
    (hc : Calm s o.parser) (hn : t.Enough limit depth s.rest.length) :
    ∀ h, o.halt = some h → h.isReported = true := by
  induction h with
  | @sync depth gate p s back =>
    intro h hh
    have hsync := synced gate (s.moveTo p)
    generalize (s.moveTo p).sync gate = o at hsync hh
    cases hsync with
    | passed | dropped | skipped => cases hh
    | mismatch =>
      cases hh
      rfl
    | astray lost => exact absurd hc.root lost
  | nil | passed | done | noTail | doneTails => intro h hh; cases hh
  | @cons depth t ts s s' o first rest ih ih' =>
    obtain ⟨hc₁, hc₂⟩ := hc.split first.work rest.work
    obtain ⟨-, -, he'⟩ := first.work.advances he
    exact ih' he' hc₂ (hn.2 _ (first.rest_le he) fun ht => first.shorter he hc₁ rfl ht)
  | stop first ih => exact ih he hc hn.1
  | @token depth here next kind field s held =>
    intro h hh
    unfold Parser.token at hh
    dsimp only at hh
    split at hh
    · cases hh
    · split at hh
      · rename_i hm
        cases hh
        exact mend_error hm hc.root
      · cases hh
  | @oneOf depth here next kinds field s held =>
    intro h hh
    have hr : ((s.moveTo here).setField field (.leaf s.current false)).root = none := by
      cases field <;> exact hc.root
    unfold Parser.oneOf at hh
    dsimp only at hh
    split at hh
    · cases hh
    · split at hh
      · rename_i hm
        cases hh
        exact mend_error hm hr
      · cases hh
  | invoke call ih => exact ih he (hc.moveTo _) ⟨hn.rounds, hn.first _ (List.mem_singleton_self _)⟩
  | seq all ih => exact ih he hc (enoughAll_forms hn)
  | choice all ih | opt all ih =>
    exact ih he hc ⟨trivial, fun m hm _ => ⟨fits_of_mem_alts hn hm, fun _ _ _ => trivial⟩⟩
  | star all ih =>
    refine ih he hc ⟨trivial, fun m hm _ => ⟨?_, fun _ _ _ => trivial⟩⟩
    exact enough_loop (hn.mono hm (List.Subset.refl _)) (Nat.lt_of_le_of_lt hm hn.rounds)
  | plus all ih =>
    refine ih he hc ⟨trivial, fun m hm _ => ?_⟩
    have hfits := hn.mono hm (List.Subset.refl _)
    exact enoughAll_round hfits fun k hk _ =>
      enough_loop (hfits.mono hk (List.Subset.refl _)) (Nat.lt_of_le_of_lt hk hfits.rounds)
  | picked origin choice alt read ih =>
    have hl := choose_looks choice
    refine ih (rest_of_looked hl ▸ he) (hc.of_looked hl) ?_
    rw [rest_of_looked hl]
    exact hn _ (List.mem_of_getElem? alt)
  | @unfit _ _ _ _ optional _ _ _ origin choice =>
    rintro h ⟨⟩
    rcases choose_error choice with hr | ho
    · exact hr
    · cases optional with
      | true => cases ho
      | false =>
        cases ho
        rfl
  | @again _ entry points round rounds s s' o origin more all ih =>
    have hl := another_looks more
    obtain ⟨hlt, hround⟩ := hn
    obtain ⟨back, body, rfl⟩ : ∃ back body, round = roundTasks back body := by
      cases origin <;> exact ⟨_, _, rfl⟩
    have hfits := hround back body rfl
    refine ih (rest_of_looked hl ▸ he) (hc.of_looked hl) ?_
    rw [rest_of_looked hl]
    refine enoughAll_round hfits fun m hm hb => enough_loop (hfits.mono hm (List.Subset.refl _)) ?_
    have := hb origin.eats
    omega
  | undecided origin more =>
    rintro h ⟨⟩
    exact another_error more
  | worn => exact absurd hn.1 (Nat.not_lt_zero _)
  | @tail _ rule ops _ start s s' _ t o form choice found allowed read ih =>
    have hl := predict_looks choice
    have hc' := hc.of_looked hl
    refine ih (rest_of_looked hl ▸ he) ⟨hc'.root, hc'.idle, hc'.reports⟩ ?_
    have hr : (s'.wrap rule start).rest = s.rest := show s'.rest = s.rest from rest_of_looked hl
    rw [hr]
    exact hn _ (List.mem_of_getElem? found)
  | lowTail => rintro h ⟨⟩; rfl
  | unfitTail choice => rintro h ⟨⟩; exact predict_error choice
  | againTails form more all ih =>
    have hl := anotherTail_looks more
    obtain ⟨hlt, htails⟩ := hn
    have hmono : ∀ m ≤ _, ∀ t ∈ _, Fits limit _ m (Form.phrase (Prod.snd t)).firstCalls :=
      fun m hm t ht => (htails t ht).mono hm (List.Subset.refl _)
    refine ih (rest_of_looked hl ▸ he) (hc.of_looked hl) ?_
    rw [rest_of_looked hl]
    refine ⟨trivial, fun m hm _ => ⟨hmono m hm, fun k hk hb => ⟨trivial, fun j hj _ => ?_⟩⟩⟩
    have := hb rfl
    exact ⟨⟨by omega, hmono j (by omega)⟩, fun _ _ _ => trivial⟩
  | undecidedTails more =>
    rintro h ⟨⟩
    exact anotherTail_error more
  | wornTails => exact absurd hn.1 (Nat.not_lt_zero _)
  | plain form read ih =>
    refine ih he hc ?_
    rw [Task.Enough, Rule.firstCalls_plain form]
    exact fits_of_rank hn.1 hn.2
  | operators form all ih =>
    have hfits := fits_of_rank hn.1 hn.2
    refine ih he hc ⟨?_, fun m hm hb => ⟨trivial, fun k hk _ =>
      ⟨⟨?_, fun t _ => ?_⟩, fun _ _ _ => trivial⟩⟩⟩
    · rw [Task.Enough, Rule.firstCalls_heads form]
      exact hfits
    · have := hn.1
      omega
    · have := hb (Rule.operators_eat form).1
      exact hfits.after (by omega) _
  | @call depth next rule level field s o read ih =>
    intro h hh
    obtain ⟨hc₁, hc₂⟩ := hc.split_call read
    obtain ⟨ho, hhalt⟩ := close_calm (closed rule o) hc₂
    have hs : o.halt = some h := by
      rw [ho] at hh
      exact hh
    have hr := ih he hc₁ ⟨hn.1, Nat.le_of_lt_succ hn.2⟩ h hs
    rcases hhalt h hs with rfl | ⟨p, rfl⟩ <;> cases hr
  | wornCall => exact absurd hn.2 (Nat.not_lt_zero _)

private theorem ranks_le_rules : Rule.ranks ≤ Rule.all.length := by decide

private theorem enough_limit (rule : Rule) (s : Parser) :
    (Task.body rule 0).Enough s.limit s.limit s.rest.length := by
  have hr := rule.rank_lt
  have hpos : s.rest.length + 1 ≤ (s.rest.length + 1) * (Layout.size + 2) :=
    Nat.le_mul_of_pos_right _ (by omega)
  have hmul : (s.rest.length + 1) * Rule.ranks ≤ s.limit :=
    Nat.mul_le_mul hpos ranks_le_rules
  rw [Nat.succ_mul] at hmul
  have hone : s.rest.length ≤ s.rest.length * Rule.ranks := Nat.le_mul_of_pos_right _ (by decide)
  exact ⟨by omega, by omega⟩

/-- A rule that is read without a report is read to its end. -/
theorem parse_calm (rule : Rule) (he : Ended s.rest) (hroot : s.here = none)
    (hi : s.recovering = false) (hr : (s.parse rule).2.parser.reports = s.reports) :
    ∃ t, Reads s.limit s.limit (.body rule 0) s.outset ⟨t, none⟩ ∧ Calm s.outset t ∧
      (s.parse rule).1 = t.node rule s.current ∧ (s.parse rule).2.parser.rest = t.rest ∧
      (s.parse rule).2.halt = none := by
  obtain ⟨o, o', read, closed, hp⟩ := parse_cases rule s
  rw [hp] at hr ⊢
  have hc : Calm s.outset o'.parser := ⟨hroot, hi, hr⟩
  obtain ⟨hc₁, hc₂⟩ := hc.split read.work (Work.closed closed : Work [] [] _ _)
  obtain ⟨rfl, hhalt⟩ := close_calm closed hc₂
  obtain ⟨t, halt⟩ := o'
  cases halt with
  | none => exact ⟨t, read, hc, rfl, rfl, rfl⟩
  | some h =>
    have hrep := read.isReported he hc₁ (enough_limit rule s) h rfl
    rcases hhalt h rfl with rfl | ⟨p, rfl⟩ <;> cases hrep

/-- The tree of a rule that is read without a report is a derivation. -/
theorem isSound_parse (rule : Rule) (he : Ended s.rest) (hroot : s.here = none)
    (hi : s.recovering = false) (hr : (s.parse rule).2.parser.reports = s.reports) :
    (s.parse rule).1.IsSound := by
  obtain ⟨t, read, hc, htree, -⟩ := parse_calm rule he hroot hi hr
  have hw : Tree.Whole rule t.made := read.does he hc rfl rfl
  rw [htree]
  exact hw.isSound _ _ _

/-- If a text is read by a rule without a report, its tree is a derivation of the rule: a node of
the rule, in which every node has a word of the right-hand side of its own rule as children, and no
child is a token that was skipped or made up. -/
theorem derivation_of_no_report (text : String) (widened : Widened) (rule : Rule)
    (h : ((ofSource (.ofString text) widened).parse rule).2.parser.reports = []) :
    ((ofSource (.ofString text) widened).parse rule).1.rule? = some rule ∧
      ∀ n ∈ ((ofSource (.ofString text) widened).parse rule).1.nodes,
        (∃ r, n.rule? = some r ∧ r.Word (n.children.map Tree.part)) ∧
          ∀ c ∈ n.children, c.isError = false := by
  obtain ⟨-, hsound⟩ := isSound_parse rule (ended_ofSource text widened) rfl rfl h
  refine ⟨rfl, fun n hn => ?_⟩
  have hderived := hsound n hn
  obtain ⟨r, hr⟩ := Tree.exists_rule_of_mem_nodes _ hn
  cases n with
  | leaf | missing => cases hr
  | node rule start stop fields children => exact ⟨⟨rule, rfl, hderived.1⟩, hderived.2⟩

/-- A row of parameters is read by a loop, with a node for each of them. -/
theorem derivation_of_parameters :
    ((ofSource (.ofString "<A,/**/B>")).parse .typeParameters).1.nodes.map (fun n => n.children.map Tree.part) =
        [[.token .lt, .rule .typeParameter, .token .comma, .rule .typeParameter, .token .gt],
          [.token .identifier], [.token .identifier]] ∧
      ∀ n ∈ ((ofSource (.ofString "<A,/**/B>")).parse .typeParameters).1.nodes,
        (∃ r, n.rule? = some r ∧ r.Word (n.children.map Tree.part)) ∧
          ∀ c ∈ n.children, c.isError = false := by
  have hv : (((ofSource (.ofString "<A,/**/B>")).parse .typeParameters).2.parser.reports.isEmpty,
      ((ofSource (.ofString "<A,/**/B>")).parse .typeParameters).1.nodes.map (fun n => n.children.map Tree.part)) =
        (true, [[.token .lt, .rule .typeParameter, .token .comma, .rule .typeParameter, .token .gt],
          [.token .identifier], [.token .identifier]]) := by
    decide +kernel
  obtain ⟨hr, hn⟩ := Prod.mk.inj hv
  exact ⟨hn, (derivation_of_no_report _ _ _ (List.isEmpty_iff.mp hr)).2⟩

end Parser

end ResourceNames.Java
