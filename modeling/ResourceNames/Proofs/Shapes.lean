import ResourceNames.Proofs.Nodes

/-!
What the nodes of some rules look like, also where errors were mended.

A number is always one token, at which its node starts. A variable has an initializer only behind
an equals sign, read or made up.
-/
namespace ResourceNames.Java

def Kind.integers : List Kind := [.decimalLiteral, .hexLiteral, .octLiteral, .binaryLiteral]

/-- A number in a tree: one token, at which the node starts and stops. -/
inductive Tree.IsNumber : Tree → Prop where
  | mk {t : Token} {fields : List (Field × Tree)} (kind : t.kind ∈ Kind.integers) :
      IsNumber (.node .integerLiteral t (some t) fields [.leaf t false])

/-- An equals sign in a tree, or a token made up. -/
def Tree.IsEqualsSign (t : Tree) : Prop :=
  (∃ u stray, t = .leaf u stray ∧ u.text = "=") ∨ ∃ k, t = .missing k

namespace Parser

variable {limit depth level : Nat} {s s' : Parser} {o : Outcome}

theorem Reads.last {t : Task} (h : Reads limit depth (.all [t]) s o) : Reads limit depth t s o := by
  cases h with
  | cons first rest =>
    cases rest
    exact first
  | stop first => exact first

theorem Reads.token_eq {here next : Point} {kind : Kind} {field : Option Field}
    (h : Reads limit depth (.form (.token here next kind field)) s o) :
    Parser.token here next kind field s = o := by
  cases h
  rfl

/-- A form that may be left out is left out, or chosen and read. -/
theorem Reads.opt_cases {start join : Point} {f : Form}
    (h : Reads limit depth (.form (.opt start join [f])) s o) :
    Work [] [] s o.parser ∨ ∃ s₁ s₂, Work [] [] s s₁ ∧
      s₁.choose start [f.entry, join] (.ok 2) = (s₂, .ok 1) ∧
      Reads limit depth (.form f) s₂ o := by
  cases h with | opt all => ?_
  cases all with
  | stop sync => exact .inl sync.work
  | cons sync rest =>
    cases rest.last with
    | passed _ choice | unfit _ choice => exact .inl (sync.work.trans (.choose choice))
    | @picked _ _ _ _ _ _ _ n g _ _ choice alt read =>
      obtain rfl := List.mem_singleton.mp (List.mem_of_getElem? alt)
      obtain rfl : n = 0 := by
        have hlt := (List.getElem?_eq_some_iff.mp alt).1
        simpa using hlt
      exact .inr ⟨_, _, sync.work, choice, read⟩

/-- A call adds one node, or nothing if no calls are left. -/
theorem Reads.call_children {next : Point} {rule : Rule} {field : Option Field}
    (h : Reads limit depth (.call next rule level field) s o) :
    o.parser.children = s.children ∨
      ∃ depth' o', Reads limit depth' (.body rule level) (s.enter next) o' ∧
        o.parser.children = (close rule o').parser.node rule s.current :: s.children := by
  cases h with
  | call read => exact .inr ⟨_, _, read, children_leave _ _ _ _ _⟩
  | wornCall => exact .inl rfl

/-- If the next token settles a choice that must be made, the alternative taken begins with it. -/
theorem choose_settled {p : Point} {alts : List Point} {looks : List (List Kind)} {h : Halt}
    {n : Nat} (hl : Follow.settled? p = some looks)
    (hc : s.choose p alts (.error h) = (s', .ok (n + 1))) :
    s' = s ∧ ∃ ks, looks[n]? = some ks ∧ s.current.kind ∈ ks := by
  unfold choose at hc
  rw [hl] at hc
  simp only at hc
  split at hc
  · rename_i i hi
    obtain ⟨hs, hn⟩ := Prod.mk.inj hc
    obtain rfl : i = n := by simpa using hn
    obtain ⟨hlt, hk, -⟩ := List.findIdx?_eq_some_iff_getElem.mp hi
    exact ⟨hs.symm, looks[i], List.getElem?_eq_getElem hlt, by simpa using hk⟩
  · simp at hc

theorem rest_of_ne_eof (he : Ended s.rest) (hk : s.current.kind ≠ .eof) :
    ∃ u ts, s.rest = s.current :: u :: ts := by
  unfold current at hk ⊢
  match hr : s.rest with
  | [] => exact absurd hr he.ne_nil
  | [t] =>
    rw [hr] at he hk
    exact absurd he.singleton hk
  | t :: u :: ts => exact ⟨u, ts, rfl⟩

@[simp] theorem current_moveTo (p : Point) (s : Parser) : (s.moveTo p).current = s.current := rfl

/-- A node of a rule that the work does not call was there before. -/
theorem Work.mem_of_mem {calls : List Rule} (h : Work calls [] s s') {c : Tree}
    (hc : c ∈ s'.children) {r : Rule} (hr : c.rule? = some r) (hn : r ∉ calls) :
    c ∈ s.children := by
  obtain ⟨new, he, hnew⟩ := h.grows
  rcases List.mem_append.mp (he ▸ hc) with hc | hc
  · exact absurd (hnew c hc r hr) hn
  · exact hc

/-- Work without calls makes no nodes. -/
theorem Work.mem_of_quiet (h : Work [] [] s s') {c : Tree} (hc : c ∈ s'.children) {r : Rule}
    (hr : c.rule? = some r) : c ∈ s.children :=
  h.mem_of_mem hc hr (by simp)

/-! Numbers. -/

private theorem body_integerLiteral : (Layout.ruleForm .integerLiteral).body =
    .plain (.oneOf (Layout.stop .integerLiteral + 1) (Layout.stop .integerLiteral)
      Kind.integers none) := by
  rw [Layout.ruleForm_eq_placeRule]
  rfl

private theorem body_literal : ∃ others, (Layout.ruleForm .literal).body =
    .plain (.choice (Layout.stop .literal + 1) (Layout.stop .literal + 2)
      (.call (Layout.stop .literal + 3) (Layout.stop .literal + 2) .integerLiteral 0 none ::
        others)) ∧ ∀ f ∈ others, .integerLiteral ∉ f.calls := by
  rw [Layout.ruleForm_eq_placeRule]
  refine ⟨_, rfl, ?_⟩
  decide

private theorem settled_literal : Follow.settled? (Layout.stop .literal + 1) =
    some [Kind.integers, [.floatLiteral, .hexFloatLiteral], [.charLiteral], [.stringLiteral],
      [.boolLiteral], [.nullLiteral]] := by
  decide +kernel

/-- A number whose token is next is read by that token. -/
private theorem integerLiteral_reads (h : Reads limit depth (.body .integerLiteral level) s o)
    (he : Ended s.rest) (hk : s.current.kind ∈ Kind.integers) :
    o.halt = none ∧ o.parser.previous = some s.current ∧
      o.parser.children = .leaf s.current false :: s.children := by
  have hne : s.current.kind ≠ .eof := fun h => by simp [h, Kind.integers] at hk
  obtain ⟨u, ts, hr⟩ := rest_of_ne_eof he hne
  cases h with
  | operators form => rw [body_integerLiteral] at form; cases form
  | plain form read =>
    rw [body_integerLiteral] at form
    cases form
    cases read
    have hc : Kind.integers.contains (s.moveTo (Layout.stop .integerLiteral + 1)).current.kind =
        true := by simpa using hk
    simp only [oneOf, setField, hc, if_true]
    simp [consume, settle, moveTo, hr]

private theorem literal_reads (h : Reads limit depth (.body .literal level) s o)
    (he : Ended s.rest) {c : Tree} (hc : c ∈ o.parser.children)
    (hr : c.rule? = some .integerLiteral) : c ∈ s.children ∨ c.IsNumber := by
  obtain ⟨others, hbody, hothers⟩ := body_literal
  cases h with
  | operators form => rw [hbody] at form; cases form
  | plain form read =>
    rw [hbody] at form
    cases form
    cases read with | choice all => ?_
    cases all with
    | stop first => exact .inl (first.work.mem_of_quiet hc hr)
    | cons first rest =>
      cases rest.last with
      | passed _ choice | unfit _ choice =>
        exact .inl (first.work.mem_of_quiet ((Work.choose choice).mem_of_quiet hc hr) hr)
      | @picked _ _ _ _ _ _ _ n f _ _ choice alt read =>
        cases n with
        | succ n =>
          have hf := hothers f (List.mem_of_getElem? (by simpa using alt))
          have hm := read.work.mem_of_mem hc hr hf
          exact .inl (first.work.mem_of_quiet ((Work.choose choice).mem_of_quiet hm hr) hr)
        | zero =>
          obtain rfl : _ = f := by simpa using alt
          obtain ⟨rfl, ks, hks, hk⟩ := choose_settled settled_literal choice
          obtain rfl : Kind.integers = ks := by simpa using hks
          cases read with | invoke call => ?_
          rcases call.call_children with hcs | ⟨depth', o', hbody, hcs⟩
          · exact .inl (first.work.mem_of_quiet (hcs ▸ hc) hr)
          · obtain ⟨ts, -, he'⟩ := first.work.advances he
            obtain ⟨hh, hp, hcs'⟩ := integerLiteral_reads hbody he' hk
            have hclose : close .integerLiteral o' = o' := by simp [close, hh]
            rw [hclose] at hcs
            rcases List.mem_cons.mp (hcs ▸ hc) with rfl | hc
            · right
              simp only [node, hp, hcs']
              exact .mk hk
            · exact .inl (first.work.mem_of_quiet hc hr)

/-- The numbers below a literal are tokens. -/
theorem Built.isNumber {start : Token} {stop : Option Token} {fields : List (Field × Tree)}
    {children : List Tree} (h : Built (.node .literal start stop fields children)) {c : Tree}
    (hc : c ∈ children) (hr : c.rule? = some .integerLiteral) : c.IsNumber := by
  cases h with
  | wrapped own => exact absurd own (by decide)
  | @read _ s t regular fresh read =>
    obtain ⟨limit, depth, level, o, h, read, closed⟩ := read
    have hm := (Work.closed closed).mem_of_quiet (List.mem_reverse.mp hc) hr
    rcases literal_reads read regular.ended hm hr with hm | hn
    · simp [fresh] at hm
    · exact hn

/-! Tokens. -/

theorem expectedAt_eq (hs : s.Regular) {p : Point} (hp : p ∉ Layout.backs) :
    s.expectedAt p = Follow.expected p := by
  unfold expectedAt
  split
  · rename_i ks hk
    obtain ⟨ws, ws', he, -⟩ := List.lookup_eq_some_iff.mp hk
    exact absurd (hs.widened (p, ks) (by simp [he])) hp
  · rfl

private theorem expected_eq (hs : s.Regular) {p : Point} (hp : s.here = some p)
    (hb : p ∉ Layout.backs) {ks : List Kind} (he : Follow.expected p = ⟨ks, false⟩) :
    s.expected = .ok ks := by
  have hat : s.expectedAt p = ⟨ks, false⟩ := (expectedAt_eq hs hb).trans he
  rw [expected_of_here hp (by rw [hat]), hat]

private theorem rest_reportExtra (h : s.reportExtra = .ok s') : s'.rest = s.rest := by
  rcases reportExtra_ok h with ⟨-, rfl⟩ | ⟨-, message, rfl⟩ <;> rfl

/-- A token is dropped only for one that is wanted. -/
private theorem Dropped.current_mem (h : Dropped s s') (hs : s.Regular) {p : Point}
    (hp : s.here = some p) (hb : p ∉ Layout.backs) {ks : List Kind}
    (he : Follow.expected p = ⟨ks, false⟩) : s'.current ∈ s.rest ∧ s'.current.kind ∈ ks := by
  obtain ⟨⟨ks', hk, hm⟩, u, hu, rfl⟩ := h
  have hlook : (s.look 1).Regular := ⟨hs.ended, hs.words, hs.widened⟩
  obtain rfl : ks = ks' := Except.ok.inj ((expected_eq hlook hp hb he).symm.trans hk)
  have hr : u.rest = s.rest := (rest_reportExtra hu).trans rfl
  have hcurrent : u.consume.settle.current = (s.look 1).second := by
    unfold settle current consume second look
    rw [hr]
    match hs' : s.rest with
    | [] => exact absurd hs' hs.ended.ne_nil
    | [t] => simp [current]
    | t :: v :: ts => simp
  rw [hcurrent]
  refine ⟨?_, hm⟩
  unfold second look
  match hs' : s.rest with
  | [] => exact absurd hs' hs.ended.ne_nil
  | [t] => simp [current]
  | t :: v :: ts => simp

theorem children_consume (he : Ended s.rest) :
    s.consume.children = .leaf s.current s.recovering :: s.children := by
  unfold consume current
  match hr : s.rest with
  | [] => exact absurd hr he.ne_nil
  | [t] => rfl
  | t :: u :: ts => rfl

theorem current_mem (he : Ended s.rest) : s.current ∈ s.rest := by
  unfold current
  match hr : s.rest with
  | [] => exact absurd hr he.ne_nil
  | t :: ts => simp

@[simp] theorem children_setField (field : Option Field) (part : Tree) (s : Parser) :
    (s.setField field part).children = s.children := by
  cases field <;> rfl

/-- Where one kind of token is wanted, one is read or made up. -/
private theorem token_reads {here next : Point} {kind : Kind} {field : Option Field}
    (h : token here next kind field s = ⟨s', none⟩) (hs : s.Regular) (hb : here ∉ Layout.backs)
    (he : Follow.expected here = ⟨[kind], false⟩) :
    ∃ c ∈ s'.children, (∃ t ∈ s.rest, t.kind = kind ∧ ∃ stray, c = .leaf t stray) ∨
      ∃ k, c = .missing k := by
  have hmoved : (s.moveTo here).Regular := ⟨hs.ended, hs.words, hs.widened⟩
  unfold token at h
  dsimp only at h
  split at h
  · rename_i hk
    obtain rfl := (Outcome.mk.inj h).1
    have hc : (s.moveTo here).settle.consume.children =
        .leaf s.current false :: s.children := children_consume hmoved.ended
    refine ⟨.leaf s.current false, ?_, .inl ⟨s.current, current_mem hs.ended, hk, false, rfl⟩⟩
    simp [hc]
  · split at h
    · simp at h
    · rename_i u part hm
      have hmend := mended next (s.moveTo here)
      rw [hm] at hmend
      obtain rfl := (Outcome.mk.inj h).1
      cases hmend with
      | @dropped u drop =>
        obtain ⟨hu, hk⟩ := drop.current_mem hmoved rfl hb he
        obtain ⟨ts, -, hu'⟩ := (Work.dropped drop : Work [] [] _ _).advances hmoved.ended
        refine ⟨.leaf u.current u.recovering, ?_, .inl ⟨u.current, hu, by simpa using hk, _, rfl⟩⟩
        simp [children_consume hu']
      | @inserted u k => exact ⟨.missing k, by simp, .inr ⟨k, rfl⟩⟩

/-! Variables. -/

theorem body_variableDeclarator : (Layout.ruleForm .variableDeclarator).body =
    .plain (.seq (Layout.stop .variableDeclarator + 1)
      [.call (Layout.stop .variableDeclarator + 1) (Layout.stop .variableDeclarator + 2)
        .variableDeclaratorId 0 none,
       .opt (Layout.stop .variableDeclarator + 2) (Layout.stop .variableDeclarator + 3)
        [.seq (Layout.stop .variableDeclarator + 4)
          [.token (Layout.stop .variableDeclarator + 4) (Layout.stop .variableDeclarator + 5)
            .assign none,
           .call (Layout.stop .variableDeclarator + 5) (Layout.stop .variableDeclarator + 3)
            .variableInitializer 0 none]]]) := by
  rw [Layout.ruleForm_eq_placeRule]
  rfl

private theorem expected_assign : Follow.expected (Layout.stop .variableDeclarator + 4) =
    ⟨[.assign], false⟩ := by
  decide +kernel

private theorem assign_not_mem_backs : Layout.stop .variableDeclarator + 4 ∉ Layout.backs := by
  decide +kernel

/-- An initializer is read once, behind a sign. -/
private theorem variableDeclarator_reads
    (h : Reads limit depth (.body .variableDeclarator level) s o) (hs : s.Regular) :
    (∀ c ∈ o.parser.children, c.rule? = some .variableInitializer → c ∈ s.children) ∨
      (∃ d ∈ o.parser.children, d.IsEqualsSign) ∧
        ∃ n, ∀ c ∈ o.parser.children, c.rule? = some .variableInitializer → c ∈ s.children ∨ c = n := by
  cases h with
  | operators form => rw [body_variableDeclarator] at form; cases form
  | plain form read =>
    rw [body_variableDeclarator] at form
    cases form
    cases read with | seq all => ?_
    cases all with
    | stop first => exact .inl fun c hc hr => first.work.mem_of_mem hc hr (by simp [Task.calls])
    | @cons _ _ _ _ s₁ _ first rest =>
      have hs₁ : s₁.Regular := first.work.regular hs
      have hfirst : ∀ c ∈ s₁.children, c.rule? = some .variableInitializer → c ∈ s.children :=
        fun c hc hr => first.work.mem_of_mem hc hr (by simp [Task.calls])
      rcases rest.last.opt_cases with hw | ⟨s₂, s₃, hw, choice, read⟩
      · exact .inl fun c hc hr => hfirst c (hw.mem_of_quiet hc hr) hr
      · have hw' : Work [] [] s₁ s₃ := hw.trans (.choose choice)
        have hs₃ : s₃.Regular := hw'.regular hs₁
        cases read with | seq all => ?_
        cases all with
        | stop sign =>
          have hsign : Work [] [] s₁ _ := hw'.trans sign.work
          exact .inl fun c hc hr => hfirst c (hsign.mem_of_quiet hc hr) hr
        | @cons _ _ _ _ s₄ _ sign rest =>
          have hsign : Work [] [] s₁ s₄ := hw'.trans sign.work
          cases rest.last with | invoke call => ?_
          rcases call.call_children with hcs | ⟨depth', o', -, hcs⟩
          · exact .inl fun c hc hr => hfirst c (hsign.mem_of_quiet (hcs ▸ hc) hr) hr
          · obtain ⟨d, hd, he⟩ := token_reads sign.token_eq hs₃ assign_not_mem_backs expected_assign
            obtain ⟨n, hcs⟩ : ∃ n, o.parser.children = n :: s₄.children := ⟨_, hcs⟩
            refine .inr ⟨⟨d, ?_, he.imp_left ?_⟩, n, fun c hc hr => ?_⟩
            · rw [hcs]
              exact List.mem_cons_of_mem _ hd
            · rintro ⟨t, ht, hk, stray, rfl⟩
              have hword := hs₃.words t ht (by simp [hk])
              exact ⟨t, stray, rfl, hword.text_eq (by rw [hk]; rfl)⟩
            · rcases List.mem_cons.mp (hcs ▸ hc) with hc | hc
              · exact .inr hc
              · exact .inl (hfirst c (hsign.mem_of_quiet hc hr) hr)

/-- A variable has at most one initializer, and only behind an equals sign. -/
theorem Built.initializer {start : Token} {stop : Option Token} {fields : List (Field × Tree)}
    {children : List Tree} (h : Built (.node .variableDeclarator start stop fields children))
    {c : Tree} (hc : c ∈ children) (hr : c.rule? = some .variableInitializer) :
    (∃ d ∈ children, d.IsEqualsSign) ∧
      ∀ d ∈ children, d.rule? = some .variableInitializer → d = c := by
  cases h with
  | wrapped own => exact absurd own (by decide)
  | @read _ s t regular fresh read =>
    obtain ⟨limit, depth, level, o, h, read, closed⟩ := read
    have hclosed : Work [] [] o.parser t := .closed closed
    have hquiet : ∀ c ∈ t.children.reverse, c.rule? = some .variableInitializer →
        c ∈ o.parser.children := fun c hc hr => hclosed.mem_of_quiet (List.mem_reverse.mp hc) hr
    rcases variableDeclarator_reads read regular with hn | ⟨⟨d, hd, hsign⟩, n, hn⟩
    · simpa [fresh] using hn c (hquiet c hc hr) hr
    · simp only [fresh, List.not_mem_nil, false_or] at hn
      obtain ⟨new, he, -⟩ := hclosed.grows
      refine ⟨⟨d, List.mem_reverse.mpr (he ▸ List.mem_append_right new hd), hsign⟩, ?_⟩
      intro d hd hrd
      rw [hn d (hquiet d hd hrd) hrd, hn c (hquiet c hc hr) hr]

end Parser

end ResourceNames.Java
