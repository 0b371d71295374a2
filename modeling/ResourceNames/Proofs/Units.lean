import ResourceNames.Proofs.Progress

/-!
What the tree of a compilation unit looks like, also where errors were mended.

A package is declared at most once, before everything else, and only if its first token is next.
So its node has read at least one token.
-/
namespace ResourceNames.Java.Parser

variable {limit depth level : Nat} {s s' : Parser} {o : Outcome}

/-- What has been read stays read. -/
theorem Work.previous_ne_none {calls wraps : List Rule} (h : Work calls wraps s s')
    (he : Ended s.rest) (hp : s.previous ≠ none) : s'.previous ≠ none := by
  obtain ⟨ts, ha, -⟩ := h.advances he
  rw [ha.previous]
  cases ts.getLast? with
  | none => simpa using hp
  | some t => simp

/-- A token that is wanted is read. -/
theorem Reads.token_of_kind {here next : Point} {kind : Kind} {field : Option Field}
    (h : Reads limit depth (.form (.token here next kind field)) s o) (he : Ended s.rest)
    (hk : s.current.kind = kind) (hne : kind ≠ .eof) : o.parser.previous ≠ none := by
  obtain ⟨u, ts, hr⟩ := rest_of_ne_eof he (hk ▸ hne)
  rw [← h.token_eq]
  unfold Parser.token
  simp only [current_moveTo, hk, if_true]
  cases field <;> simp [consume, settle, moveTo, hr, setField]

/-- The check at a point passes if the next token is expected there. -/
theorem sync_of_mem (hs : s.Regular) {gate : Gate} {p : Point} (hb : p ∉ Layout.backs)
    (hk : s.current.kind ∈ (Follow.expected p).kinds) :
    (s.moveTo p).sync gate = ⟨s.moveTo p, none⟩ := by
  have hm : (s.moveTo p).Regular := ⟨hs.ended, hs.words, hs.widened⟩
  have he : ((s.moveTo p).expectedAt p).kinds.contains (s.moveTo p).current.kind = true := by
    rw [expectedAt_eq hm hb]
    simpa using hk
  unfold sync
  split
  · rename_i q _ hq
    obtain rfl : p = q := Option.some.inj hq
    simp only [he, Bool.or_true, if_true]
  · rfl

theorem Reads.sync_eq {gate : Gate} {p : Point} (h : Reads limit depth (.sync gate p) s o) :
    (s.moveTo p).sync gate = o := by
  cases h
  rfl

/-! Packages. -/

private theorem body_annot : ∃ next rest, (Layout.ruleForm .annot).body =
    .plain (.seq (Layout.stop .annot + 1)
      (.token (Layout.stop .annot + 1) next .atSign none :: rest)) := by
  rw [Layout.ruleForm_eq_placeRule]
  exact ⟨_, _, rfl⟩

private theorem body_packageDeclaration : ∃ rest, (Layout.ruleForm .packageDeclaration).body =
    .plain (.seq (Layout.stop .packageDeclaration + 1)
      (.star (Layout.stop .packageDeclaration + 1) (Layout.stop .packageDeclaration + 2)
        (Layout.stop .packageDeclaration + 4) (.seq (Layout.stop .packageDeclaration + 3)
          [.call (Layout.stop .packageDeclaration + 3) (Layout.stop .packageDeclaration + 2)
            .annot 0 none]) ::
       .token (Layout.stop .packageDeclaration + 4) (Layout.stop .packageDeclaration + 5)
        .kwPackage none :: rest)) := by
  rw [Layout.ruleForm_eq_placeRule]
  exact ⟨_, rfl⟩

private theorem start_packageDeclaration :
    (Follow.expected (Layout.stop .packageDeclaration + 1)).kinds = [.kwPackage, .atSign] ∧
      Follow.settled? (Layout.stop .packageDeclaration + 1) = some [[.atSign], [.kwPackage]] ∧
      Layout.stop .packageDeclaration + 1 ∉ Layout.backs := by
  decide +kernel

/-- An annotation whose first token is next reads it. -/
private theorem annot_reads (h : Reads limit depth (.body .annot level) s o) (he : Ended s.rest)
    (hk : s.current.kind = .atSign) : o.parser.previous ≠ none := by
  obtain ⟨next, rest, hbody⟩ := body_annot
  cases h with
  | operators form => rw [hbody] at form; cases form
  | plain form read =>
    rw [hbody] at form
    cases form
    cases read with | seq all => ?_
    cases all with
    | stop first => exact first.token_of_kind he hk (by decide)
    | cons first rest =>
      obtain ⟨ts, -, he'⟩ := first.work.advances he
      exact rest.work.previous_ne_none he' (first.token_of_kind he hk (by decide))

/-- A call reads what the body of its rule reads. -/
private theorem Reads.call_previous {next : Point} {rule : Rule} {field : Option Field}
    (h : Reads limit (depth + 1) (.call next rule level field) s o) :
    ∃ o', Reads limit depth (.body rule level) (s.enter next) o' ∧
      o.parser.previous = (close rule o').parser.previous := by
  cases h with
  | call read =>
    refine ⟨_, read, ?_⟩
    cases field <;> rfl

private theorem annotation_reads {here next entry : Point}
    (h : Reads limit (depth + 1) (.form (.seq entry [.call here next .annot 0 none])) s o)
    (he : Ended s.rest) (hk : s.current.kind = .atSign) : o.parser.previous ≠ none := by
  cases h with | seq all => ?_
  cases all.last with | invoke call => ?_
  obtain ⟨o', hbody, hp⟩ := call.call_previous
  have hread := annot_reads hbody he hk
  obtain ⟨ts, -, he'⟩ := hbody.work.advances he
  rw [hp]
  exact (Work.closed (closed .annot o') : Work [] [] _ _).previous_ne_none he' hread

/-- Whether there is another round, if the next token settles it. -/
private theorem another_settled {p : Point} {alts : List Point} {looks : List (List Kind)} {i : Nat}
    (hl : Follow.settled? p = some looks)
    (hi : (looks.findIdx? fun ks => ks.contains s.current.kind) = some i) :
    another p alts s = (s, .ok (i + 1 == 1)) := by
  unfold another choose
  rw [hl]
  simp only [hi]

/-- The annotations of a package: its first token is read, or it is not the token of one. -/
private theorem annotations_read {back next : Point} {body next' : Point}
    (h : Reads (limit + 1) (depth + 1) (.form (.star (Layout.stop .packageDeclaration + 1) back next
      (.seq body [.call body next' .annot 0 none]))) s o) (hs : s.Regular)
    (hk : s.current.kind = .atSign ∨ s.current.kind = .kwPackage) :
    o.parser.previous ≠ none ∨ s.current.kind = .kwPackage ∧
      o = ⟨s.moveTo (Layout.stop .packageDeclaration + 1), none⟩ := by
  generalize hp : Layout.stop .packageDeclaration + 1 = p at h ⊢
  have hsettled : Follow.settled? p = some [[.atSign], [.kwPackage]] :=
    hp ▸ start_packageDeclaration.2.1
  have hpass : (s.moveTo p).sync .entry = ⟨s.moveTo p, none⟩ := by
    refine sync_of_mem hs (hp ▸ start_packageDeclaration.2.2) ?_
    rw [← hp, start_packageDeclaration.1]
    rcases hk with hk | hk <;> simp [hk]
  cases h with | star all => ?_
  cases all with
  | stop sync => cases hpass.symm.trans sync.sync_eq
  | cons sync rest =>
    cases hpass.symm.trans sync.sync_eq
    have hmoved : (s.moveTo p).Regular := ⟨hs.ended, hs.words, hs.widened⟩
    rcases hk with hk | hk
    · have hmore : another p [body, next] (s.moveTo p) = (s.moveTo p, .ok true) :=
        another_settled (i := 0) hsettled (by simp [hk, List.findIdx?_cons])
      cases rest.last with
      | done _ more => cases hmore.symm.trans more
      | undecided _ more => cases hmore.symm.trans more
      | again _ more round =>
        cases hmore.symm.trans more
        cases round with
        | stop annot => exact .inl (annotation_reads annot hmoved.ended hk)
        | cons annot rest =>
          obtain ⟨ts, -, he⟩ := annot.work.advances hmoved.ended
          exact .inl (rest.work.previous_ne_none he (annotation_reads annot hmoved.ended hk))
    · have hmore : another p [body, next] (s.moveTo p) = (s.moveTo p, .ok false) :=
        another_settled (i := 1) hsettled (by simp [hk, List.findIdx?_cons])
      cases rest.last with
      | again _ more => cases hmore.symm.trans more
      | undecided _ more => cases hmore.symm.trans more
      | done _ more =>
        cases hmore.symm.trans more
        exact .inr ⟨hk, rfl⟩

/-- The declaration of a package whose first token is next reads a token. -/
private theorem packageDeclaration_reads
    (h : Reads (limit + 1) (depth + 1) (.body .packageDeclaration level) s o) (hs : s.Regular)
    (hk : s.current.kind = .atSign ∨ s.current.kind = .kwPackage) :
    o.parser.previous ≠ none := by
  obtain ⟨parts, hbody⟩ := body_packageDeclaration
  cases h with
  | operators form => rw [hbody] at form; cases form
  | plain form read =>
    rw [hbody] at form
    cases form
    cases read with | seq all => ?_
    cases all with
    | stop annotations =>
      rcases annotations_read annotations hs hk with hp | ⟨-, ho⟩
      · exact hp
      · cases ho
    | cons annotations rest =>
      have hs' := annotations.work.regular hs
      rcases annotations_read annotations hs hk with hp | ⟨hk, ho⟩
      · exact rest.work.previous_ne_none hs'.ended hp
      · cases ho
        cases rest with
        | stop package => exact package.token_of_kind hs'.ended hk (by decide)
        | cons package rest =>
          have hp := package.token_of_kind hs'.ended hk (by decide)
          exact rest.work.previous_ne_none (package.work.regular hs').ended hp

/-! Units. -/

theorem body_compilationUnit : (Layout.ruleForm .compilationUnit).body =
    .plain (.seq (Layout.stop .compilationUnit + 1)
      [.opt (Layout.stop .compilationUnit + 1) (Layout.stop .compilationUnit + 2)
        [.seq (Layout.stop .compilationUnit + 3)
          [.call (Layout.stop .compilationUnit + 3) (Layout.stop .compilationUnit + 2)
            .packageDeclaration 0 none]],
       .star (Layout.stop .compilationUnit + 4) (Layout.stop .compilationUnit + 5)
        (Layout.stop .compilationUnit + 7) (.seq (Layout.stop .compilationUnit + 6)
          [.call (Layout.stop .compilationUnit + 6) (Layout.stop .compilationUnit + 5)
            .importDeclaration 0 none]),
       .star (Layout.stop .compilationUnit + 7) (Layout.stop .compilationUnit + 8)
        (Layout.stop .compilationUnit + 10) (.seq (Layout.stop .compilationUnit + 9)
          [.call (Layout.stop .compilationUnit + 9) (Layout.stop .compilationUnit + 8)
            .typeDeclaration 0 none]),
       .token (Layout.stop .compilationUnit + 10) (Layout.stop .compilationUnit) .eof none]) := by
  rw [Layout.ruleForm_eq_placeRule]
  rfl

private theorem start_compilationUnit :
    Follow.settled? (Layout.stop .compilationUnit + 1) = none ∧
      (Reach.point (Layout.stop .compilationUnit + 3)).exits = false ∧
      ∀ l ∈ (Reach.point (Layout.stop .compilationUnit + 3)).leaves,
        Config.isStop l.point = false ∧
          ∀ k ∈ Follow.kindsAt l.point, k = .atSign ∨ k = .kwPackage := by
  decide +kernel

/-- The declaration of a package is chosen only if its first token is next. -/
private theorem package_chosen {otherwise : Except Halt Nat}
    (h : s.choose (Layout.stop .compilationUnit + 1)
      [Layout.stop .compilationUnit + 3, Layout.stop .compilationUnit + 2] otherwise =
        (s', .ok 1)) :
    s'.current = s.current ∧ (s.current.kind = .atSign ∨ s.current.kind = .kwPackage) := by
  obtain ⟨hsettled, hexits, hleaves⟩ := start_compilationUnit
  unfold choose at h
  rw [hsettled] at h
  obtain ⟨⟨k, rfl⟩, hd⟩ := predict_ok h
  obtain ⟨i, p, hi, hn, anyCaller, callers, c, hc, d, hpoint, hleft, hfits⟩ :=
    Decision.exists_of_decide_among hd
  obtain rfl : i = 0 := by omega
  obtain rfl : Layout.stop .compilationUnit + 3 = p := by simpa using hi
  obtain ⟨t, ts, hr, l, hl, hk⟩ :=
    Config.mem_kinds_of_fits hc hexits (fun l hl => (hleaves l hl).1) hpoint hleft hfits
  have ht : s.current = t := by simp [current, hr]
  exact ⟨rfl, ht ▸ (hleaves l hl).2 _ hk⟩

/-- Before everything else stands at most one declaration of a package. -/
private theorem package_reads {here next : Point}
    (h : Reads (limit + 1) (depth + 2) (.form (.opt (Layout.stop .compilationUnit + 1)
      (Layout.stop .compilationUnit + 2) [.seq (Layout.stop .compilationUnit + 3)
        [.call here next .packageDeclaration 0 none]])) s o) (hs : s.Regular) :
    ∃ leaves, (∀ c ∈ leaves, c.rule? = none) ∧ (o.parser.children = leaves ++ s.children ∨
      ∃ n : Tree, n.rule? = some .packageDeclaration ∧ n.stop? = o.parser.previous ∧
        n.stop? ≠ none ∧ o.parser.children = n :: (leaves ++ s.children)) := by
  have hquiet : ∀ {t : Parser}, Work [] [] s t → ∃ leaves, t.children = leaves ++ s.children ∧
      ∀ c ∈ leaves, c.rule? = none := by
    intro t hw
    obtain ⟨new, he, hn⟩ := hw.grows
    refine ⟨new, he, fun c hc => ?_⟩
    cases hr : c.rule? with
    | none => rfl
    | some r => simpa using hn c hc r hr
  rcases h.opt_cases with hw | ⟨s₁, s₂, hw, choice, read⟩
  · obtain ⟨leaves, he, hn⟩ := hquiet hw
    exact ⟨leaves, hn, .inl he⟩
  · have hw' : Work [] [] s s₂ := hw.trans (.choose choice)
    obtain ⟨leaves, he, hn⟩ := hquiet hw'
    refine ⟨leaves, hn, .inr ?_⟩
    obtain ⟨hc, hk⟩ := package_chosen choice
    have hs₂ : s₂.Regular := hw'.regular hs
    cases read with | seq all => ?_
    cases all.last with | invoke call => ?_
    cases call with | @call _ _ _ _ _ _ o' read => ?_
    have hread := packageDeclaration_reads read ⟨hs₂.ended, hs₂.words, hs₂.widened⟩ (hc ▸ hk)
    have he' := (read.work.regular ⟨hs₂.ended, hs₂.words, hs₂.widened⟩).ended
    have hclosed : Work [] [] o'.parser (close .packageDeclaration o').parser :=
      .closed (closed _ _)
    refine ⟨(close .packageDeclaration o').parser.node .packageDeclaration s₂.current, rfl, rfl,
      hclosed.previous_ne_none he' hread, (children_leave _ _ _ _ _).trans ?_⟩
    exact congrArg _ he

theorem limit_pos (s : Parser) : ∃ n, s.limit = n + 2 := by
  refine ⟨s.limit - 2, ?_⟩
  have hpoints : 1 * 2 ≤ (s.rest.length + 1) * (Layout.size + 2) :=
    Nat.mul_le_mul (by omega) (by omega)
  have h : 1 * 2 * 1 ≤ s.limit := Nat.mul_le_mul hpoints (by decide)
  omega

/-- In the tree of a unit only leaves stand before the declaration of a package, and no other one
after it. -/
theorem unit_children (hs : s.Regular) :
    ∃ (before : List Tree) (package : Option Tree) (after : List Tree),
      (s.parse .compilationUnit).1.children = before ++ Option.toList package ++ after ∧
      (∀ c ∈ before, c.rule? = none) ∧ (∀ c ∈ after, c.rule? ≠ some .packageDeclaration) ∧
      ∀ n ∈ package, n.rule? = some .packageDeclaration ∧ n.stop? ≠ none := by
  obtain ⟨o, o', hr, hc, hp⟩ := parse_cases .compilationUnit s
  obtain ⟨limit, hlimit⟩ := limit_pos s
  rw [hlimit] at hr
  have hs' : s.outset.Regular := ⟨hs.ended, hs.words, hs.widened⟩
  cases hr with
  | operators form => rw [body_compilationUnit] at form; cases form
  | plain form read =>
    rw [body_compilationUnit] at form
    cases form
    cases read with | seq all => ?_
    obtain ⟨o₁, hread, hrest⟩ : ∃ o₁, Reads (limit + 2) (limit + 2) (.form (.opt _ _ [.seq _
        [.call _ _ .packageDeclaration 0 none]])) s.outset o₁ ∧
        Work [.importDeclaration, .typeDeclaration] [] o₁.parser o'.parser := by
      cases all with
      | stop package => exact ⟨_, package, .closed hc⟩
      | cons package rest => exact ⟨_, package, rest.work.trans (.closed hc)⟩
    obtain ⟨leaves, hleaves, hcs⟩ := package_reads hread hs'
    obtain ⟨new, hnew, hcalls⟩ := hrest.grows
    have hafter : ∀ c ∈ new.reverse, c.rule? ≠ some .packageDeclaration :=
      fun c hm hr => absurd (hcalls c (List.mem_reverse.mp hm) _ hr) (by decide)
    have hchildren : (s.parse .compilationUnit).1.children =
        o₁.parser.children.reverse ++ new.reverse := by
      simp [hp, node, Tree.children, hnew]
    have hbefore : ∀ c ∈ leaves.reverse, c.rule? = none :=
      fun c hm => hleaves c (List.mem_reverse.mp hm)
    rcases hcs with he | ⟨n, hrule, -, hstop, he⟩
    · refine ⟨leaves.reverse, none, new.reverse, ?_, hbefore, hafter, by simp⟩
      simp [hchildren, he, outset]
    · refine ⟨leaves.reverse, some n, new.reverse, ?_, hbefore, hafter, ?_⟩
      · simp [hchildren, he, outset]
      · rintro m ⟨⟩
        exact ⟨hrule, hstop⟩

theorem rest_of_eof (he : Ended s.rest) (hk : s.current.kind = .eof) :
    ∃ last, s.rest = [last] := by
  match hr : s.rest with
  | [] => exact absurd hr he.ne_nil
  | [t] => exact ⟨t, rfl⟩
  | t :: u :: ts =>
    have ht : s.current = t := by simp [current, hr]
    exact absurd (ht ▸ hk) (hr ▸ he).tail.1

private theorem expected_imports :
    (Follow.expected (Layout.stop .compilationUnit + 4)).ends = false ∧
      .hexLiteral ∉ (Follow.expected (Layout.stop .compilationUnit + 4)).kinds ∧
      Layout.stop .compilationUnit + 4 ∉ Layout.backs := by
  decide +kernel

/-- After the declaration of a package stands no number. -/
private theorem imports_calm {back next : Point} {body : Form}
    (h : Reads limit depth (.form (.star (Layout.stop .compilationUnit + 4) back next body)) s o)
    (hs : s.Regular) (hc : Calm s o.parser) (hh : o.halt = none) :
    s.current.kind ≠ .hexLiteral := by
  obtain ⟨hends, hkinds, hbacks⟩ := expected_imports
  cases h with | star all => ?_
  cases all with
  | stop => cases hh
  | cons sync rest =>
    obtain ⟨hc', -⟩ := hc.split sync.work rest.work
    have hexp := (sync.sync_calm hc').2
    rw [expectedAt_eq hs hbacks, hends] at hexp
    intro hk
    exact hkinds (hk ▸ hexp.resolve_left (by simp))

/-- A unit that is read without a report is read until the end, and no number stands directly after
the declaration of a package. -/
theorem unit_calm (hs : s.Regular) (hroot : s.here = none) (hi : s.recovering = false)
    (hr : (s.parse .compilationUnit).2.parser.reports = s.reports) :
    (∃ last, (s.parse .compilationUnit).2.parser.rest = [last]) ∧
      ∀ n ∈ (s.parse .compilationUnit).1.children, n.rule? = some .packageDeclaration →
        ∃ (before : List Token) (t : Token) (after : List Token), s.rest = before ++ t :: after ∧
          n.stop? = before.getLast?.or s.previous ∧ t.kind ≠ .hexLiteral := by
  obtain ⟨t, read, hc, htree, hrest, -⟩ := parse_calm .compilationUnit hs.ended hroot hi hr
  obtain ⟨limit, hlimit⟩ := limit_pos s
  rw [hlimit] at read
  rw [htree, hrest]
  have hs' : s.outset.Regular := ⟨hs.ended, hs.words, hs.widened⟩
  cases read with
  | operators form => rw [body_compilationUnit] at form; cases form
  | plain form read =>
    rw [body_compilationUnit] at form
    cases form
    cases read with | seq all => ?_
    cases all with | @cons _ _ _ _ t₁ _ package rest => ?_
    have hs₁ : t₁.Regular := package.work.regular hs'
    have hc₁ : Calm t₁ t := (hc.split package.work rest.work).2
    have hnodes : Work [.importDeclaration, .typeDeclaration] [] t₁ t := rest.work
    cases rest with | @cons _ _ _ _ t₂ _ imports rest => ?_
    obtain ⟨hci, hc₂⟩ : Calm t₁ t₂ ∧ Calm t₂ t := hc₁.split imports.work rest.work
    have hs₂ : t₂.Regular := imports.work.regular hs₁
    cases rest with | @cons _ _ _ _ t₃ _ types rest => ?_
    have hc₃ : Calm t₃ t := (hc₂.split types.work rest.work).2
    have hs₃ : t₃.Regular := types.work.regular hs₂
    refine ⟨?_, fun n hn hrule => ?_⟩
    · obtain ⟨hk, rfl⟩ := token_calm rest.last.token_eq hc₃
      obtain ⟨last, hl⟩ := rest_of_eof hs₃.ended hk
      exact ⟨last, by simp [setField, consume, settle, moveTo, hl]⟩
    · have hm : n ∈ t₁.children :=
        hnodes.mem_of_mem (List.mem_reverse.mp hn) hrule (by decide)
      obtain ⟨ts, ha, -⟩ : ∃ ts, Advance s.outset t₁ ts ∧ _ := package.work.advances hs'.ended
      obtain ⟨u, us, hu⟩ := List.exists_cons_of_ne_nil hs₁.ended.ne_nil
      have hcurrent : t₁.current = u := by simp [current, hu]
      have hstop : n.stop? = t₁.previous := by
        obtain ⟨leaves, hleaves, hcs | ⟨m, -, hstop, -, hcs⟩⟩ := package_reads package hs'
        · have hm' : n ∈ leaves ++ [] := hcs ▸ hm
          simp [hleaves n (by simpa using hm')] at hrule
        · have hm' : n ∈ m :: (leaves ++ []) := hcs ▸ hm
          rcases List.mem_cons.mp hm' with rfl | hm'
          · exact hstop
          · simp [hleaves n (by simpa using hm')] at hrule
      exact ⟨ts, u, us, hu ▸ ha.rest, hstop.trans ha.previous,
        hcurrent ▸ imports_calm imports hs₁ hci rfl⟩

end ResourceNames.Java.Parser
