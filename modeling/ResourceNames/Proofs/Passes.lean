import ResourceNames.Project.Run
import ResourceNames.Proofs.EndOfInput
import ResourceNames.Proofs.RestoredText

/-!
Going through one source file.

A job is run from some progress; each of its parts changes little of that. A file in which some literal
is a resource is read once more, to its end, and the literals are edited in what is read after that. There
is nothing left then: the text that is stored or printed is that of the tokens, with no edit in it.
-/
namespace ResourceNames.Project

open Java Resource Text

def Files.text (path : String) (es : Files) : Except Failure String :=
  match es.read path with
  | .error e => .error (.path e)
  | .ok bytes =>
    match decodeUtf8 bytes with
    | .error e => .error (.bytes e)
    | .ok chars => .ok (String.ofList (unifyNewlines chars))

def Progress.afterUnit (p : Progress) (s : Parser) : Progress :=
  let unit := (s.learn p.widened).compilationUnit
  { p with
    err := p.err ++ Diagnostic.printed unit.2.2
    widened := unit.2.1.widened
    gaveUp := p.gaveUp || unit.2.1.everGaveUp }

def Progress.afterLine (p : Progress) (line : String) : Progress := { p with out := p.out ++ line ++ "\n" }

namespace Job

section Runs

variable {α β : Type} (p : Progress)

/-! ### Parts of a job -/

theorem run_bind (x : Job α) (f : α → Job β) : (x >>= f).run.run p =
    match x.run.run p with
    | (.ok a, q) => (f a).run.run q
    | (.error e, q) => (.error e, q) := by
  rw [ExceptT.run_bind, StateT.run_bind]
  cases x.run.run p with
  | mk r q => cases r <;> rfl

theorem run_pure (a : α) : (pure a : Job α).run.run p = (.ok a, p) := rfl

theorem run_get : (get : Job Progress).run.run p = (.ok p, p) := rfl

theorem run_set (q : Progress) : (set q : Job PUnit).run.run p = (.ok ⟨⟩, q) := rfl

theorem run_orFail {ε : Type} (failure : ε → Failure) (r : Except ε α) :
    (orFail failure r).run.run p = (r.mapError failure, p) := by
  cases r <;> rfl

theorem run_say (line : String) : (say line).run.run p = (.ok (), p.afterLine line) := rfl

theorem run_readUnit (s : Parser) : (readUnit s).run.run p =
    (.ok ((s.learn p.widened).compilationUnit.1, (s.learn p.widened).compilationUnit.2.1),
      p.afterUnit s) := rfl

theorem run_openSource (path : String) :
    (openSource path).run.run p = ((p.files.text path).map Source.ofString, p) := by
  simp only [openSource, run_bind, run_get, run_orFail, run_pure, Files.text]
  cases p.files.read path with
  | error e => rfl
  | ok bytes =>
    simp only [Except.mapError]
    cases decodeUtf8 bytes <;> rfl

theorem run_walked {σ : Type} (v : Visited σ Fault) : (walked v).run.run p =
    (match v.fault with
    | none => .ok v.state
    | some e => .error (.walk e), p) := by
  rw [walked]
  cases v.fault <;> rfl

end Runs

end Job

/-- Files are as they were, and so is the text that is held back. -/
structure Progress.Kept (p q : Progress) : Prop where
  files : q.files = p.files
  held : q.held = p.held
  learned : Parser.Learned p.widened → Parser.Learned q.widened

namespace Progress.Kept

variable {p q r : Progress}

theorem refl (p : Progress) : Kept p p := ⟨rfl, rfl, id⟩

theorem trans (h : Kept p q) (h' : Kept q r) : Kept p r :=
  ⟨h'.files.trans h.files, h'.held.trans h.held, h'.learned ∘ h.learned⟩

theorem line (p : Progress) (text : String) : Kept p (p.afterLine text) := ⟨rfl, rfl, id⟩

theorem unit (p : Progress) (s : Parser) : Kept p (p.afterUnit s) :=
  ⟨rfl, rfl, fun h => .parse (s := s.learn p.widened) h .compilationUnit⟩

end Progress.Kept

namespace Job

/-- After the unit there is nothing left to edit. -/
theorem restore_rest {text : String} {s : Parser} (h : s.Done text) {widened : Widened}
    (learned : Parser.Learned widened) (table : Table) (r : Restorer) :
    r.restore table (s.learn widened).compilationUnit.1 = .ok r := by
  obtain ⟨seen, hp⟩ := Parser.parse_at_end (h.regular learned) h.here h.rest
  show r.restore table ((s.learn widened).parse .compilationUnit).1 = .ok r
  rw [hp]
  rfl

/-- Going through a file once more either fails before anything is delivered, or delivers the text of
its tokens. -/
theorem run_rewriteFile (options : Options) (reader : Reader) (found : Restorer) {path text : String}
    {p q : Progress} {s : Parser} (htext : p.files.text path = .ok text)
    (learned : Parser.Learned p.widened)
    (hq : q = (p.afterLine "Rewriting tokens").afterUnit (.ofSource (.ofString text)))
    (hs : s = (Parser.ofSource (.ofString text) p.widened).compilationUnit.2.1) :
    (rewriteFile options reader path found).run.run p =
      match (found.restore reader.table
        (Parser.ofSource (.ofString text) p.widened).compilationUnit.1).fault with
      | some e => (.error (.walk e), q)
      | none => (do
          deliver options path (String.join ((Source.words text).map Token.text))
          pure 0 : Job Nat).run.run (q.afterUnit s) := by
  have htext' : (p.afterLine "Rewriting tokens").files.text path = .ok text := htext
  have hlearn : (Parser.ofSource (.ofString text)).learn (p.afterLine "Rewriting tokens").widened =
      Parser.ofSource (.ofString text) p.widened := rfl
  have hdone : s.Done text := hs ▸ Parser.done_parse text learned
  have hwidened : Parser.Learned q.widened := by
    rw [hq]
    exact .parse (s := .ofSource (.ofString text) p.widened) learned .compilationUnit
  simp only [rewriteFile, run_bind, run_say, run_openSource, htext', Except.map, run_readUnit, run_walked,
    hlearn, ← hq, ← hs]
  cases (found.restore reader.table
    (Parser.ofSource (.ofString text) p.widened).compilationUnit.1).fault with
  | some e => rfl
  | none =>
    simp only [restore_rest hdone hwidened, Visited.ok, run_orFail, Program.text_nil,
      Session.join_written_eq, Except.mapError]

end Job

/-! ### A pass -/

/-- A source file that was gone through: its path, its text, and the literals in it that are
resources. -/
structure Pass where
  path : String
  text : String
  found : List (Token × String)

namespace Pass

def written (x : Pass) : String := String.join ((Source.words x.text).map Token.text)

def announced (options : Options) (x : Pass) : String :=
  "First pass: " ++ x.path ++ "\n" ++
    if x.found = [] then ""
    else
      "Identified " ++ toString x.found.length ++ " hex values to be replaced.\nRewriting tokens\n" ++
        (if options.overwrite then "Overwriting file: " ++ x.path else x.written) ++ "\n"

/-- A pass goes through the file at its path and finds the resources of a table. -/
structure Of (files : Files) (table : Table) (x : Pass) : Prop where
  text : files.text x.path = .ok x.text
  found : ∃ widened, Parser.Learned widened ∧
    x.found = table.hits (Parser.ofSource (.ofString x.text) widened).compilationUnit.1

end Pass

namespace Progress

/-- What comes of the delivery of a text. -/
inductive Delivers (options : Options) (path text : String) (p : Progress) : Progress → Prop where
  | printed (overwrite : options.overwrite = false) : Delivers options path text p (p.afterLine text)
  | stored {q : Progress} (overwrite : options.overwrite = true)
      (store : (p.afterLine ("Overwriting file: " ++ path)).store path text.toUTF8 = .ok q) :
      Delivers options path text p q

inductive Passes (options : Options) (table : Table) (path : String) (p : Progress) :
    Except Failure Nat → Progress → Prop where
  | failed {f : Failure} {q : Progress} (kept : Kept p q) : Passes options table path p (.error f) q
  | read {x : Pass} {q : Progress} (of : x.Of p.files table) (path_eq : x.path = path)
      (found : x.found = []) (kept : Kept p q) (out : q.out = p.out ++ x.announced options) :
      Passes options table path p (.ok 0) q
  | delivered {x : Pass} {p' q : Progress} (of : x.Of p.files table) (path_eq : x.path = path)
      (found : x.found ≠ []) (kept : Kept p p') (delivers : Delivers options path x.written p' q)
      (out : q.out = p.out ++ x.announced options) : Passes options table path p (.ok 0) q

theorem close_cases {p q : Progress} (h : p.close = .ok q) :
    p.held = none ∧ q = p ∨
    ∃ path bytes files, p.held = some (path, bytes) ∧ p.files.write path bytes = .ok files ∧
      q = { p with files, held := none } := by
  rw [close] at h
  split at h
  · rename_i hheld
    exact .inl ⟨hheld, (Except.ok.inj h).symm⟩
  · rename_i path bytes hheld
    cases hwrite : p.files.write path bytes with
    | error e => rw [hwrite] at h; cases h
    | ok files =>
      rw [hwrite] at h
      exact .inr ⟨path, bytes, files, hheld, hwrite, (Except.ok.inj h).symm⟩

/-- Storing closes the open file and then writes the text, or nothing yet if it is held back. -/
theorem store_cases {path : String} {bytes : ByteArray} {p q : Progress} (h : p.store path bytes = .ok q) :
    ∃ r files, p.close = .ok r ∧ r.held = none ∧
      (bytes.size < longText ∧ r.files.write path ByteArray.empty = .ok files ∧
          q = { r with files, held := some (path, bytes) } ∨
        ¬bytes.size < longText ∧ r.files.write path bytes = .ok files ∧ q = { r with files }) := by
  rw [store] at h
  cases hclose : p.close with
  | error e => rw [hclose] at h; cases h
  | ok r =>
    rw [hclose] at h
    replace h : (if bytes.size < longText then _ else _) = Except.ok q := h
    have hheld : r.held = none := by
      rcases close_cases hclose with ⟨hheld, rfl⟩ | ⟨_, _, _, -, -, rfl⟩
      · exact hheld
      · rfl
    split at h
    · rename_i hshort
      cases hwrite : r.files.write path ByteArray.empty with
      | error e => rw [hwrite] at h; cases h
      | ok files =>
        rw [hwrite] at h
        exact ⟨r, files, rfl, hheld, .inl ⟨hshort, hwrite, (Except.ok.inj h).symm⟩⟩
    · rename_i hlong
      cases hwrite : r.files.write path bytes with
      | error e => rw [hwrite] at h; cases h
      | ok files =>
        rw [hwrite] at h
        exact ⟨r, files, rfl, hheld, .inr ⟨hlong, hwrite, (Except.ok.inj h).symm⟩⟩

theorem store_same {path : String} {bytes : ByteArray} {p q : Progress} (h : p.store path bytes = .ok q) :
    q.out = p.out ∧ q.widened = p.widened := by
  obtain ⟨r, files, hclose, -, hstored⟩ := store_cases h
  have hsame : r.out = p.out ∧ r.widened = p.widened := by
    rcases close_cases hclose with ⟨-, rfl⟩ | ⟨_, _, _, -, -, rfl⟩ <;> exact ⟨rfl, rfl⟩
  rcases hstored with ⟨-, -, rfl⟩ | ⟨-, -, rfl⟩ <;> exact hsame

/-- The file is announced before its text is stored; a printed text follows the announcement. -/
theorem Delivers.out {options : Options} {path text : String} {p q : Progress}
    (h : Delivers options path text p q) :
    q.out = p.out ++ (if options.overwrite then "Overwriting file: " ++ path else text) ++ "\n" := by
  cases h with
  | printed overwrite => simp [overwrite, afterLine]
  | stored overwrite store => simp [(store_same store).1, overwrite, afterLine]

end Progress

namespace Job

theorem deliver_cases (options : Options) (path text : String) (p : Progress) :
    (∃ f q, (deliver options path text).run.run p = (.error f, q) ∧ p.Kept q) ∨
    ∃ q, (deliver options path text).run.run p = (.ok (), q) ∧ p.Delivers options path text q := by
  rw [deliver]
  cases hoverwrite : options.overwrite with
  | false => exact .inr ⟨_, rfl, .printed hoverwrite⟩
  | true =>
    simp only [if_true, run_bind, run_say, run_get, run_orFail, run_set]
    cases hstore : (p.afterLine ("Overwriting file: " ++ path)).store path text.toUTF8 with
    | error e => exact .inl ⟨_, _, rfl, .line ..⟩
    | ok q => exact .inr ⟨q, rfl, .stored hoverwrite hstore⟩

/-- A restorer counts the resources that it finds. -/
theorem count_restore {text : String} {widened : Widened} (learned : Parser.Learned widened) {table : Table}
    {tree : Tree} (ht : tree = (Parser.ofSource (.ofString text) widened).compilationUnit.1)
    (h : (({} : Restorer).restore table tree).fault = none) :
    (({} : Restorer).restore table tree).state.count = (table.hits tree).length := by
  have hregular := Parser.regular_ofSource text learned.mem_backs
  have hbuilt : tree.Each Parser.Built := ht ▸ Parser.each_built_parse .compilationUnit hregular
  have hunit : tree.rule? = some .compilationUnit := ht ▸ rfl
  have hread : Readable tree.numbers :=
    Restorer.readable_of_restore table (Parser.numbersAreTokens_of_built hbuilt (by simp [hunit])) h
  obtain ⟨r, hr, -, hcount⟩ := Restorer.restores_unit table hregular ht hread none
  rw [hr]
  exact hcount

/-- Going through a file once more either fails before anything is delivered, or delivers the text of
its tokens. -/
theorem rewriteFile_cases (options : Options) (reader : Reader) (found : Restorer) {path text : String}
    {p : Progress} (htext : p.files.text path = .ok text) (learned : Parser.Learned p.widened) :
    (∃ f q, (rewriteFile options reader path found).run.run p = (.error f, q) ∧ p.Kept q) ∨
    ∃ p' q, (rewriteFile options reader path found).run.run p = (.ok 0, q) ∧ p.Kept p' ∧
      p'.out = p.out ++ "Rewriting tokens\n" ∧
      p'.Delivers options path (String.join ((Source.words text).map Token.text)) q := by
  generalize hq : (p.afterLine "Rewriting tokens").afterUnit (.ofSource (.ofString text)) = q
  generalize hs : (Parser.ofSource (.ofString text) p.widened).compilationUnit.2.1 = s
  have hkept : p.Kept q := hq ▸ (Progress.Kept.line ..).trans (.unit ..)
  have hout : q.out = p.out ++ "Rewriting tokens" ++ "\n" := hq ▸ rfl
  rw [run_rewriteFile options reader found htext learned hq.symm hs.symm]
  cases (found.restore reader.table
    (Parser.ofSource (.ofString text) p.widened).compilationUnit.1).fault with
  | some e => exact .inl ⟨_, _, rfl, hkept⟩
  | none =>
    simp only [run_bind]
    rcases deliver_cases options path (String.join ((Source.words text).map Token.text)) (q.afterUnit s) with
      ⟨f, q', hrun, hfail⟩ | ⟨q', hrun, hdelivers⟩
    · rw [hrun]
      exact .inl ⟨f, q', rfl, hkept.trans ((Progress.Kept.unit ..).trans hfail)⟩
    · rw [hrun]
      exact .inr ⟨_, q', rfl, hkept.trans (.unit ..), hout.trans (by rw [String.append_assoc]; rfl), hdelivers⟩

theorem restoreFile_passes (options : Options) (reader : Reader) (path : String) {p : Progress}
    (learned : Parser.Learned p.widened) :
    p.Passes options reader.table path ((restoreFile options reader path).run.run p).1
      ((restoreFile options reader path).run.run p).2 := by
  have hlearn : ∀ text, (Parser.ofSource (.ofString text)).learn
      (p.afterLine ("First pass: " ++ path)).widened = Parser.ofSource (.ofString text) p.widened :=
    fun _ => rfl
  have hfiles : (p.afterLine ("First pass: " ++ path)).files = p.files := rfl
  simp only [restoreFile, run_bind, run_say, run_openSource, hfiles]
  cases htext : p.files.text path with
  | error f => exact .failed (.line ..)
  | ok text =>
    generalize hq : (p.afterLine ("First pass: " ++ path)).afterUnit (.ofSource (.ofString text)) = q
    generalize ht : (Parser.ofSource (.ofString text) p.widened).compilationUnit.1 = tree
    have hkept : p.Kept q := hq ▸ (Progress.Kept.line ..).trans (.unit ..)
    have hout : q.out = p.out ++ ("First pass: " ++ path) ++ "\n" := hq ▸ rfl
    have hof : Pass.Of p.files reader.table ⟨path, text, reader.table.hits tree⟩ :=
      ⟨htext, p.widened, learned, ht ▸ rfl⟩
    simp only [Except.map, run_readUnit, run_walked, hlearn, hq, ht]
    cases hfault : (({} : Restorer).restore reader.table tree).fault with
    | some e => exact .failed hkept
    | none =>
      simp only [count_restore learned ht.symm hfault]
      by_cases hnone : reader.table.hits tree = []
      · simp only [hnone, List.length_nil, if_true, run_pure]
        refine .read hof rfl hnone hkept ?_
        rw [hout]
        simp [Pass.announced, hnone, String.append_assoc]
      · simp only [List.length_eq_zero_iff, hnone, if_false, run_bind, run_say]
        generalize hp' : q.afterLine ("Identified " ++ toString (reader.table.hits tree).length ++
          " hex values to be replaced.") = p'
        have hkept' : p.Kept p' := hkept.trans (hp' ▸ .line ..)
        have hout' : p'.out = q.out ++ ("Identified " ++ toString (reader.table.hits tree).length ++
          " hex values to be replaced.") ++ "\n" := hp' ▸ rfl
        have htext' : p'.files.text path = .ok text := hkept'.files ▸ htext
        rcases rewriteFile_cases options reader (({} : Restorer).restore reader.table tree).state htext'
          (hkept'.learned learned) with ⟨f, q', hrun, hfail⟩ | ⟨p₂, q', hrun, hrewrite, hout₂, hdelivers⟩
        · rw [hrun]
          exact .failed (hkept'.trans hfail)
        · rw [hrun]
          refine .delivered hof rfl hnone (hkept'.trans hrewrite) hdelivers ?_
          rw [hdelivers.out, hout₂, hout', hout]
          simp [Pass.announced, Pass.written, hnone, String.append_assoc]

end Job

end ResourceNames.Project
