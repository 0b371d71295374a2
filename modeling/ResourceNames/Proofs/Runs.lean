import ResourceNames.Proofs.Partition
import ResourceNames.Proofs.Passes
import ResourceNames.Proofs.Places
import ResourceNames.Proofs.ResourceTable
import ResourceNames.Proofs.Scanning

/-!
What a run of the command leaves behind.

The sources below the project are gone through in the order in which they are found. At every moment the
files are the first ones, but for those whose text was stored, and of these the last one may still be
empty, with its text held back. So a failure leaves its file and all that come after it alone, and at the
end every text is stored in full, but that the last one may be lost if the parser gave up a rule somewhere.
-/
namespace ResourceNames.Project

open Java Resource Text

/-! ### Contents at some paths -/

namespace Files

/-- Files that have got some contents, by their paths, and have no other changes. -/
structure Stored (files : Files) (contents : List (String × ByteArray)) (es : Files) : Prop where
  kind : ∀ place, (es.get? place).map Entry.isFolder = (files.get? place).map Entry.isFolder
  there : ∀ c ∈ contents, ∃ place, files.locate c.1 = .ok place ∧ es.content? place = some c.2
  elsewhere : ∀ place, (∀ c ∈ contents, files.locate c.1 ≠ .ok place) →
    es.content? place = files.content? place

variable {files es es' : Files}

theorem isSome_content?_iff {place : List String} :
    (es.content? place).isSome = true ↔ (es.get? place).map Entry.isFolder = some false := by
  rw [content?]
  cases es.get? place with
  | none => simp
  | some e => cases e <;> simp [Entry.content?, Entry.isFolder]

theorem locate_of_read {path : String} {content : ByteArray} (h : files.read path = .ok content) :
    ∃ place, files.locate path = .ok place ∧ (files.content? place).isSome = true := by
  rw [read_eq] at h
  cases hplace : files.locate path with
  | error e => rw [hplace] at h; cases h
  | ok place =>
    rw [hplace] at h
    refine ⟨place, rfl, ?_⟩
    cases hcontent : files.content? place with
    | some c => rfl
    | none =>
      simp only [Except.bind, hcontent] at h
      split at h <;> cases h

namespace Stored

variable {contents : List (String × ByteArray)}

theorem refl (files : Files) : Stored files [] files :=
  ⟨fun _ => rfl, by simp, fun _ _ => rfl⟩

theorem locate_eq (h : Stored files contents es) (path : String) : es.locate path = files.locate path :=
  locate_congr h.kind path

/-- A path to none of the contents leads to what it did. -/
theorem read_eq (h : Stored files contents es) {path : String}
    (hpath : ∀ c ∈ contents, files.locate c.1 ≠ files.locate path) : es.read path = files.read path :=
  read_congr h.kind fun place hplace =>
    h.elsewhere place fun c hc heq => hpath c hc (heq.trans hplace.symm)

/-- A content takes the place of one with the same path, or is added. -/
theorem write {old : List (String × ByteArray)} (h : Stored files (contents ++ old) es) {path : String}
    {place : List String} (hplace : files.locate path = .ok place)
    (hfile : (files.content? place).isSome = true)
    (hold : ∀ c ∈ old, files.locate c.1 = files.locate path)
    (hother : ∀ c ∈ contents, files.locate c.1 ≠ files.locate path) (content : ByteArray) :
    ∃ es', es.write path content = .ok es' ∧ Stored files (contents ++ [(path, content)]) es' := by
  have hlocate : es.locate path = .ok place := (h.locate_eq path).trans hplace
  have hfile' : (es.content? place).isSome = true := by
    rw [isSome_content?_iff] at hfile ⊢
    exact (h.kind place).trans hfile
  obtain ⟨c, hc⟩ := Option.isSome_iff_exists.1 hfile'
  have hput := put_replaced hc content
  refine ⟨es.put content place, by rw [Files.write, hlocate]; rfl, ?_, ?_, ?_⟩
  · exact fun p => (hput.kind p).trans (h.kind p)
  · intro d hd
    rcases List.mem_append.1 hd with hd | hd
    · obtain ⟨p, hp, hcontent⟩ := h.there d (List.mem_append_left _ hd)
      have hne : p ≠ place := by
        rintro rfl
        exact hother d hd (hp.trans hplace.symm)
      exact ⟨p, hp, (hput.elsewhere p hne).trans hcontent⟩
    · obtain rfl := List.mem_singleton.1 hd
      exact ⟨place, hplace, hput.here⟩
  · intro p hp
    have hne : p ≠ place := by
      rintro rfl
      exact hp (path, content) (by simp) hplace
    rw [hput.elsewhere p hne]
    refine h.elsewhere p fun d hd => ?_
    rcases List.mem_append.1 hd with hd | hd
    · exact hp d (List.mem_append_left _ hd)
    · rw [hold d hd, hplace]
      exact fun heq => hne (Except.ok.inj heq).symm

end Stored

end Files

/-! ### What the passes leave -/

namespace Pass

def content (x : Pass) : String × ByteArray := (x.path, x.written.toUTF8)

/-- The text that is held back while the file is open. -/
def held? (x : Pass) : Option (String × ByteArray) :=
  if x.written.toUTF8.size < Progress.longText then some x.content else none

def opened (x : Pass) : String × ByteArray :=
  (x.path, if x.written.toUTF8.size < Progress.longText then ByteArray.empty else x.written.toUTF8)

variable {x : Pass}

theorem opened_fst : x.opened.1 = x.path := rfl

theorem held?_of_short (h : x.written.toUTF8.size < Progress.longText) :
    x.held? = some x.content ∧ x.opened = (x.path, ByteArray.empty) := by
  simp only [held?, opened, if_pos h, and_self]

theorem held?_of_long (h : ¬x.written.toUTF8.size < Progress.longText) :
    x.held? = none ∧ x.opened = x.content := by
  simp only [held?, opened, if_neg h, content, and_self]

theorem Of.file {files : Files} {table : Table} {x : Pass} (h : x.Of files table) :
    ∃ place, files.locate x.path = .ok place ∧ (files.content? place).isSome = true := by
  have htext := h.text
  rw [Files.text] at htext
  cases hread : files.read x.path with
  | error e => rw [hread] at htext; cases htext
  | ok bytes => exact Files.locate_of_read hread

def stored (options : Options) (passes : List Pass) : List Pass :=
  passes.filter fun x => options.overwrite && !x.found.isEmpty

/-- What files have got while the last one of them is open. -/
def underway (xs : List Pass) : List (String × ByteArray) :=
  xs.dropLast.map content ++ xs.getLast?.toList.map opened

/-- What files have got at the end; the text that is held back may be lost. -/
def left (options : Options) (lost : Bool) (passes : List Pass) : List (String × ByteArray) :=
  if lost then underway (stored options passes) else (stored options passes).map content

@[simp] theorem underway_concat (xs : List Pass) (x : Pass) :
    underway (xs ++ [x]) = xs.map content ++ [x.opened] := by
  simp [underway]

theorem underway_of_held?_eq_none {xs : List Pass} (h : xs.getLast?.bind held? = none) :
    underway xs = xs.map content := by
  rcases List.eq_nil_or_concat xs with rfl | ⟨ys, y, rfl⟩
  · rfl
  · rw [List.concat_eq_append, List.getLast?_concat, Option.bind_some] at h
    rw [List.concat_eq_append, underway_concat, List.map_append]
    by_cases hshort : y.written.toUTF8.size < Progress.longText
    · rw [(held?_of_short hshort).1] at h
      cases h
    · rw [(held?_of_long hshort).2]
      rfl

theorem exists_of_mem_underway {xs : List Pass} {c : String × ByteArray} (h : c ∈ underway xs) :
    ∃ x ∈ xs, c.1 = x.path := by
  rcases List.eq_nil_or_concat xs with rfl | ⟨ys, y, rfl⟩
  · cases h
  · rw [List.concat_eq_append, underway_concat] at h
    rcases List.mem_append.1 h with h | h
    · obtain ⟨x, hx, rfl⟩ := List.mem_map.1 h
      exact ⟨x, by simp [hx], rfl⟩
    · exact ⟨y, by simp, by rw [List.mem_singleton.1 h]; rfl⟩

theorem exists_of_mem_left {options : Options} {lost : Bool} {passes : List Pass}
    {c : String × ByteArray} (h : c ∈ left options lost passes) : ∃ x ∈ passes, c.1 = x.path := by
  obtain ⟨x, hx, heq⟩ : ∃ x ∈ stored options passes, c.1 = x.path := by
    rw [left] at h
    split at h
    · exact exists_of_mem_underway h
    · obtain ⟨x, hx, rfl⟩ := List.mem_map.1 h
      exact ⟨x, hx, rfl⟩
  exact ⟨x, List.mem_of_mem_filter hx, heq⟩

theorem stored_concat_of_not {options : Options} {x : Pass}
    (h : x.found = [] ∨ options.overwrite = false) (passes : List Pass) :
    stored options (passes ++ [x]) = stored options passes := by
  rcases h with h | h <;> simp [stored, h]

theorem stored_concat_of {options : Options} {x : Pass} (hfound : x.found ≠ [])
    (h : options.overwrite = true) (passes : List Pass) :
    stored options (passes ++ [x]) = stored options passes ++ [x] := by
  simp [stored, h, hfound]

/-- A content is at the path of its pass. -/
theorem ne_of_apart {files : Files} {xs : List Pass} {x : Pass}
    (h : files.Apart (xs.map path ++ [x.path])) :
    ∀ c ∈ xs.map content, files.locate c.1 ≠ files.locate x.path := by
  intro c hc
  obtain ⟨y, hy, rfl⟩ := List.mem_map.1 hc
  exact h.ne (List.mem_map_of_mem hy) (List.mem_singleton_self _)

end Pass

/-- Work on the sources has come behind some passes. -/
structure Progress.After (options : Options) (table : Table) (files : Files) (passes : List Pass)
    (p : Progress) : Prop where
  of : ∀ x ∈ passes, x.Of files table
  learned : Parser.Learned p.widened
  held : p.held = (Pass.stored options passes).getLast?.bind Pass.held?
  files : files.Stored (Pass.underway (Pass.stored options passes)) p.files

namespace Progress.After

variable {options : Options} {table : Table} {files : Files} {passes : List Pass} {p q : Progress}

theorem kept (h : After options table files passes p) (hk : p.Kept q) : After options table files passes q :=
  ⟨h.of, hk.learned h.learned, hk.held.trans h.held, hk.files ▸ h.files⟩

/-- The open file can be closed, and all texts are stored then. -/
theorem close (h : After options table files passes p)
    (hd : files.Apart (passes.map Pass.path)) : ∃ es, p.close = .ok { p with files := es, held := none } ∧
      files.Stored ((Pass.stored options passes).map Pass.content) es := by
  cases hheld : p.held with
  | none =>
    have hsame : { p with held := none } = p := hheld ▸ rfl
    refine ⟨p.files, by rw [Progress.close, hheld, hsame], ?_⟩
    rw [← Pass.underway_of_held?_eq_none (h.held.symm.trans hheld)]
    exact h.files
  | some c =>
    obtain ⟨y, hlast, hy⟩ := Option.bind_eq_some_iff.1 (h.held.symm.trans hheld)
    obtain ⟨ys, hstored⟩ := List.getLast?_eq_some_iff.1 hlast
    obtain rfl : y.content = c := by
      by_cases hshort : y.written.toUTF8.size < longText
      · exact Option.some.inj ((Pass.held?_of_short hshort).1.symm.trans hy)
      · cases (Pass.held?_of_long hshort).1.symm.trans hy
    have hsub : (ys ++ [y]).Sublist passes := hstored ▸ List.filter_sublist
    obtain ⟨place, hplace, hfile⟩ := (h.of y (hsub.subset (by simp))).file
    have hother : ∀ c ∈ ys.map Pass.content, files.locate c.1 ≠ files.locate y.path :=
      Pass.ne_of_apart (hd.sublist (by simpa using hsub.map Pass.path))
    have hfiles := h.files
    rw [hstored, Pass.underway_concat] at hfiles
    obtain ⟨es, hwrite, hes⟩ := hfiles.write hplace hfile (by simp [Pass.opened]) hother y.content.2
    refine ⟨es, ?_, ?_⟩
    · rw [Progress.close, hheld]
      simp only [Pass.content] at hwrite ⊢
      rw [hwrite]
      rfl
    · rw [hstored, List.map_append]
      exact hes

/-- A path at which nothing was stored leads to the first text. -/
theorem text_eq (h : After options table files passes p) {path : String}
    (hpath : ∀ x ∈ passes, files.locate x.path ≠ files.locate path) :
    p.files.text path = files.text path := by
  have hread : p.files.read path = files.read path := by
    refine h.files.read_eq fun c hc => ?_
    obtain ⟨x, hx, heq⟩ := Pass.exists_of_mem_underway hc
    exact heq ▸ hpath x (List.mem_of_mem_filter hx)
  rw [Files.text, hread, Files.text]

/-- A text can be stored at the path of a file. -/
theorem exists_store (h : After options table files passes p) {path : String} {place : List String}
    (hplace : files.locate path = .ok place) (hfile : (files.content? place).isSome = true)
    (hd : files.Apart (passes.map Pass.path ++ [path])) (bytes : ByteArray) :
    ∃ q, p.store path bytes = .ok q := by
  obtain ⟨es, hclose, hes⟩ := h.close (hd.sublist (List.sublist_append_left _ _))
  have hother : ∀ c ∈ (Pass.stored options passes).map Pass.content,
      files.locate c.1 ≠ files.locate path := by
    intro c hc
    obtain ⟨x, hx, rfl⟩ := List.mem_map.1 hc
    exact hd.ne (List.mem_map_of_mem (List.mem_of_mem_filter hx)) (List.mem_singleton_self _)
  rw [← List.append_nil (List.map ..)] at hes
  have hwrite : ∀ content, ∃ es', es.write path content = .ok es' := fun content =>
    (hes.write hplace hfile (by simp) hother content).imp fun _ => And.left
  rw [Progress.store, hclose]
  simp only [Except.bind]
  split
  · obtain ⟨es', hes'⟩ := hwrite ByteArray.empty
    exact ⟨_, by rw [hes']; rfl⟩
  · obtain ⟨es', hes'⟩ := hwrite bytes
    exact ⟨_, by rw [hes']; rfl⟩

theorem store (h : After options table files passes p) {x : Pass} (of : x.Of files table)
    (hd : files.Apart (passes.map Pass.path ++ [x.path])) (hs : p.store x.path x.written.toUTF8 = .ok q) :
    q.held = x.held? ∧ files.Stored ((Pass.stored options passes).map Pass.content ++ [x.opened]) q.files := by
  obtain ⟨es, hclose, hes⟩ := h.close (hd.sublist (List.sublist_append_left _ _))
  obtain ⟨r, es', hclose', -, hstored⟩ := store_cases hs
  obtain rfl := Except.ok.inj (hclose.symm.trans hclose')
  obtain ⟨place, hplace, hfile⟩ := of.file
  have hother : ∀ c ∈ (Pass.stored options passes).map Pass.content,
      files.locate c.1 ≠ files.locate x.path :=
    Pass.ne_of_apart (hd.sublist ((List.filter_sublist.map Pass.path).append (.refl _)))
  rw [← List.append_nil (List.map ..)] at hes
  obtain ⟨es₂, hwrite, hes₂⟩ := hes.write hplace hfile (by simp) hother x.opened.2
  have hstored' : q.held = x.held? ∧ es.write x.path x.opened.2 = .ok q.files := by
    rcases hstored with ⟨hshort, hwrite', rfl⟩ | ⟨hlong, hwrite', rfl⟩
    · obtain ⟨hheld, hopened⟩ := Pass.held?_of_short hshort
      exact ⟨hheld.symm, by rw [hopened]; exact hwrite'⟩
    · obtain ⟨hheld, hopened⟩ := Pass.held?_of_long hlong
      exact ⟨hheld.symm, by rw [hopened]; exact hwrite'⟩
  have hopened : x.opened = (x.path, x.opened.2) := by rw [← Pass.opened_fst]
  rw [hopened, ← Except.ok.inj (hwrite.symm.trans hstored'.2)]
  exact ⟨hstored'.1, hes₂⟩

/-- At the end of the work the open file is closed, unless it lingers because a rule was given up. -/
theorem finish (h : After options table files passes p) (hd : files.Apart (passes.map Pass.path))
    (lingers : Bool) : (p.finish lingers).out = p.out ∧
      files.Stored (Pass.left options (lingers && (p.finish lingers).gaveUp) passes)
        (p.finish lingers).files := by
  cases hlost : lingers && p.gaveUp with
  | true =>
    have hfinish : p.finish lingers = p := by rw [Progress.finish, if_pos hlost]
    rw [hfinish, hlost]
    exact ⟨rfl, h.files⟩
  | false =>
    obtain ⟨es, hclose, hes⟩ := h.close hd
    have hfinish : p.finish lingers = { p with files := es, held := none } := by
      rw [Progress.finish, if_neg (by simp [hlost]), hclose]
      rfl
    rw [hfinish]
    exact ⟨rfl, hlost ▸ hes⟩

/-- A source that is gone through adds a pass, a failure adds none. -/
theorem pass (h : After options table files passes p) {path : String} {r : Except Failure Nat}
    (hd : files.Apart (passes.map Pass.path ++ [path])) (hp : p.Passes options table path r q) :
    (∃ f, r = .error f ∧ p.Kept q) ∨
    ∃ x, r = .ok 0 ∧ x.path = path ∧ After options table files (passes ++ [x]) q ∧
      q.out = p.out ++ x.announced options := by
  have hof : ∀ {x : Pass}, x.Of p.files table → x.path = path → x.Of files table := by
    rintro x of rfl
    exact ⟨by rw [← h.text_eq fun y hy => hd.ne (List.mem_map_of_mem hy) (by simp)]; exact of.text, of.found⟩
  have hall : ∀ {x : Pass}, x.Of files table → ∀ y ∈ passes ++ [x], y.Of files table := by
    intro x of y hy
    rcases List.mem_append.1 hy with hy | hy
    · exact h.of y hy
    · exact List.mem_singleton.1 hy ▸ of
  have hkept : ∀ {x : Pass}, x.Of files table → x.found = [] ∨ options.overwrite = false → p.Kept q →
      After options table files (passes ++ [x]) q := by
    intro x of hnone hk
    obtain ⟨-, learned, held, files⟩ := h.kept hk
    rw [← Pass.stored_concat_of_not hnone passes] at held files
    exact ⟨hall of, learned, held, files⟩
  cases hp with
  | failed kept => exact .inl ⟨_, rfl, kept⟩
  | @read x _ of path_eq found kept out =>
    exact .inr ⟨x, rfl, path_eq, hkept (hof of path_eq) (.inl found) kept, out⟩
  | @delivered x p' _ of path_eq found kept delivers out =>
    subst path_eq
    refine .inr ⟨x, rfl, rfl, ?_, out⟩
    cases delivers with
    | printed overwrite => exact hkept (hof of rfl) (.inr overwrite) (kept.trans (.line ..))
    | stored overwrite store =>
      have hq := h.kept (kept.trans (.line _ ("Overwriting file: " ++ x.path)))
      obtain ⟨held, files⟩ := hq.store (hof of rfl) hd store
      have hstored := Pass.stored_concat_of found overwrite passes
      refine ⟨hall (hof of rfl), (store_same store).2 ▸ hq.learned, ?_, ?_⟩
      · rw [hstored, List.getLast?_concat, Option.bind_some]
        exact held
      · rw [hstored, Pass.underway_concat]
        exact files

end Progress.After

/-! ### The whole work -/

namespace Job

def sources (paths : List String) : List String := paths.filter fun path => !isResources path

theorem sources_sublist (paths : List String) : (sources paths).Sublist paths := List.filter_sublist

/-- How the work on sources ends: all were gone through, or the work on the first one of those that are
left failed. -/
inductive Ends (options : Options) (reader : Reader) (q : Progress) :
    List String → Except Failure Nat → Progress → Prop where
  | finished : Ends options reader q [] (.ok 0) q
  | failed {path : String} {later : List String} {f : Failure} {q' : Progress}
      (fails : (restoreFile options reader path).run.run q = (.error f, q')) (kept : q.Kept q') :
      Ends options reader q (path :: later) (.error f) q'

section

variable {options : Options} {reader : Reader} {path : String} {p q : Progress}

private theorem run_add_zero (j : Job Nat) (p : Progress) :
    (do let more ← j; pure (0 + more) : Job Nat).run.run p = j.run.run p := by
  rw [run_bind]
  cases j.run.run p with
  | mk r q => cases r <;> simp only [run_pure, Nat.zero_add]

theorem run_restoreAll_resources (h : isResources path = true) (paths : List String) (p : Progress) :
    (restoreAll options reader (path :: paths)).run.run p = (restoreAll options reader paths).run.run p := by
  rw [restoreAll, if_pos h, run_bind]
  exact run_add_zero _ p

theorem run_restoreAll_passed (h : isResources path = false)
    (hp : (restoreFile options reader path).run.run p = (.ok 0, q)) (paths : List String) :
    (restoreAll options reader (path :: paths)).run.run p = (restoreAll options reader paths).run.run q := by
  rw [restoreAll, if_neg (by simp [h]), run_bind, hp]
  exact run_add_zero _ q

theorem run_restoreAll_failed (h : isResources path = false) {f : Failure}
    (hp : (restoreFile options reader path).run.run p = (.error f, q)) (paths : List String) :
    (restoreAll options reader (path :: paths)).run.run p = (.error f, q) := by
  rw [restoreAll, if_neg (by simp [h]), run_bind, hp]

end

/-- Sources are gone through one after another until all are, or one of them fails. -/
theorem restoreAll_after {options : Options} {reader : Reader} {files : Files} (paths : List String)
    {passes : List Pass} {p : Progress} (h : Progress.After options reader.table files passes p)
    (hd : files.Apart (passes.map Pass.path ++ paths)) :
    ∃ more rest q, sources paths = more.map Pass.path ++ rest ∧
      (restoreAll options reader (more.map Pass.path)).run.run p = (.ok 0, q) ∧
      Progress.After options reader.table files (passes ++ more) q ∧
      q.out = p.out ++ String.join (more.map (Pass.announced options)) ∧
      Ends options reader q rest ((restoreAll options reader paths).run.run p).1
        ((restoreAll options reader paths).run.run p).2 := by
  induction paths generalizing passes p with
  | nil => exact ⟨[], [], p, rfl, rfl, by simpa using h, by simp, .finished⟩
  | cons path paths ih =>
    cases hresources : isResources path with
    | true =>
      have hrest : files.Apart (passes.map Pass.path ++ paths) :=
        hd.sublist ((List.Sublist.refl _).append (List.sublist_cons_self ..))
      obtain ⟨more, rest, q, hsources, hrun, hafter, hout, hends⟩ := ih h hrest
      rw [run_restoreAll_resources hresources]
      exact ⟨more, rest, q, by simpa [sources, hresources] using hsources, hrun, hafter, hout, hends⟩
    | false =>
      have hfirst : files.Apart (passes.map Pass.path ++ [path]) :=
        hd.sublist ((List.Sublist.refl _).append (by simp))
      have hpass := h.pass hfirst (restoreFile_passes options reader path h.learned)
      cases hstep : (restoreFile options reader path).run.run p with
      | mk r p₁ =>
        rw [hstep] at hpass
        rcases hpass with ⟨f, rfl, hkept⟩ | ⟨x, rfl, rfl, hafter, hout⟩
        · rw [run_restoreAll_failed hresources hstep]
          exact ⟨[], path :: sources paths, p, by simp [sources, hresources], rfl, by simpa using h,
            by simp, .failed hstep hkept⟩
        · rw [run_restoreAll_passed hresources hstep]
          obtain ⟨more, rest, q, hsources, hrun, hafter', hout', hends⟩ := ih hafter (by simpa using hd)
          refine ⟨x :: more, rest, q, ?_, ?_, by simpa using hafter', ?_, hends⟩
          · rw [sources, List.filter_cons_of_pos (by simp [hresources]), List.map_cons, List.cons_append,
              ← hsources, sources]
          · rw [List.map_cons, run_restoreAll_passed hresources hstep, hrun]
          · rw [hout', hout, List.map_cons, String.join_cons, String.append_assoc]

def listing (table : Table) : String :=
  String.join (table.map fun e => upperHex e.1 ++ " = " ++ e.2 ++ "\n")

theorem run_list (table : Table) (p : Progress) :
    (table.forM fun e => say (upperHex e.1 ++ " = " ++ e.2)).run.run p =
      (.ok (), { p with out := p.out ++ listing table }) := by
  induction table generalizing p with
  | nil =>
    rw [listing, List.map_nil, String.join_nil, String.append_empty]
    rfl
  | cons e table ih =>
    rw [List.forM, run_bind, run_say]
    show (table.forM fun e => say (upperHex e.1 ++ " = " ++ e.2)).run.run _ = _
    rw [ih, listing, listing, List.map_cons, String.join_cons, Progress.afterLine]
    simp [String.append_assoc]

/-- The resources are read and listed before anything else is done. -/
theorem readResources_kept (path : String) {files : Files} {r : Except Failure Reader} {p : Progress}
    (h : (readResources path).run.run { files } = (r, p)) :
    ({ files } : Progress).Kept p ∧ ∀ reader, r = .ok reader → p.out = listing reader.table := by
  simp only [readResources, run_bind, run_openSource] at h
  cases htext : files.text path with
  | error f =>
    rw [htext] at h
    obtain ⟨rfl, rfl⟩ := Prod.mk.inj h
    exact ⟨.refl _, nofun⟩
  | ok text =>
    have hunit := Progress.Kept.unit { files } (.ofSource (.ofString text))
    simp only [htext, Except.map, run_readUnit, run_walked] at h
    have hout : (Progress.afterUnit { files } (.ofSource (.ofString text))).out = "" := rfl
    generalize Progress.afterUnit { files } (.ofSource (.ofString text)) = q at h hunit hout
    split at h
    · rename_i reader _ hwalk
      obtain ⟨-, rfl⟩ := Prod.mk.inj hwalk
      rw [run_list] at h
      obtain ⟨rfl, rfl⟩ := Prod.mk.inj h
      refine ⟨⟨hunit.files, hunit.held, hunit.learned⟩, ?_⟩
      rintro _ ⟨⟩
      show q.out ++ listing reader.table = listing reader.table
      rw [hout, String.empty_append]
    · rename_i f _ hwalk
      obtain ⟨-, rfl⟩ := Prod.mk.inj hwalk
      obtain ⟨rfl, rfl⟩ := Prod.mk.inj h
      exact ⟨hunit, nofun⟩

end Job

variable {arguments : List String} {options : Options} {files : Files} (lingers : Bool)

theorem run_of_resources_failed (given : Options.ofArguments arguments = .ok options) {f : Failure}
    {p : Progress} (h : (Job.readResources options.resources).run.run { files } = (.error f, p)) :
    run arguments files lingers = (p, .failed f) := by
  have hheld : p.held = none := (Job.readResources_kept _ h).1.held
  have hfinish : p.finish lingers = p := by
    rw [Progress.finish, Progress.close, hheld]
    exact ite_self p
  have hproject : (Job.restoreProject options).run.run { files } = (.error f, p) := by
    rw [Job.restoreProject, Job.run_bind, h]
  rw [run, given]
  simp only [hproject, hfinish]

theorem run_of_resources_read (given : Options.ofArguments arguments = .ok options) {reader : Reader}
    {p : Progress} (h : (Job.readResources options.resources).run.run { files } = (.ok reader, p)) :
    run arguments files lingers =
      match (Job.restoreAll options reader (files.find options.project ".java")).run.run p with
      | (.ok n, q) => ((q.afterLine ("Replaced " ++ toString n ++ " hex values.")).finish lingers, .finished)
      | (.error f, q) => (q.finish lingers, .failed f) := by
  have hfiles : p.files = files := (Job.readResources_kept _ h).1.files
  rw [run, given]
  simp only [Job.restoreProject, Job.run_bind, h, Job.run_get, hfiles, Job.run_say]
  cases (Job.restoreAll options reader (files.find options.project ".java")).run.run p with
  | mk r q => cases r <;> rfl

theorem run_after (given : Options.ofArguments arguments = .ok options) (proper : Files.Proper files)
    {reader : Reader} {p : Progress}
    (h : (Job.readResources options.resources).run.run { files } = (.ok reader, p)) :
    ∃ passes rest q,
      Job.sources (files.find options.project ".java") = passes.map Pass.path ++ rest ∧
      Progress.After options reader.table files passes q ∧
      (Job.restoreAll options reader (passes.map Pass.path)).run.run p = (.ok 0, q) ∧
      q.out = Job.listing reader.table ++ String.join (passes.map (Pass.announced options)) ∧
      (rest = [] ∧ (run arguments files lingers).2 = .finished ∧
          (run arguments files lingers).1.out = q.out ++ "Replaced 0 hex values.\n" ∨
        ∃ path later f, rest = path :: later ∧ (run arguments files lingers).2 = .failed f ∧
          ((Job.restoreFile options reader path).run.run q).1 = .error f) ∧
      files.Stored (Pass.left options (lingers && (run arguments files lingers).1.gaveUp) passes)
        (run arguments files lingers).1.files := by
  obtain ⟨hkept, hlisting⟩ := Job.readResources_kept _ h
  have hstart : Progress.After options reader.table files [] p :=
    ⟨by simp, hkept.learned .nothing, hkept.held, hkept.files ▸ .refl files⟩
  have hapart : files.Apart (files.find options.project ".java") := proper.apart_find ..
  obtain ⟨passes, rest, q, hsources, hrun, hafter, hout, hends⟩ :=
    Job.restoreAll_after (files.find options.project ".java") hstart (by simpa using hapart)
  have hpasses : files.Apart (passes.map Pass.path) :=
    hapart.sublist ((List.sublist_append_left ..).trans (hsources ▸ Job.sources_sublist _))
  rw [hlisting reader rfl] at hout
  refine ⟨passes, rest, q, hsources, hafter, hrun, hout, ?_⟩
  rw [run_of_resources_read lingers given h]
  cases hall : (Job.restoreAll options reader (files.find options.project ".java")).run.run p with
  | mk r q' =>
    rw [hall] at hends
    cases hends with
    | finished =>
      obtain ⟨hsame, hstored⟩ := (hafter.kept (.line _ "Replaced 0 hex values.")).finish hpasses lingers
      refine ⟨.inl ⟨rfl, rfl, hsame.trans ?_⟩, hstored⟩
      rw [Progress.afterLine, String.append_assoc]
      rfl
    | @failed path later f _ fails kept =>
      obtain ⟨-, hstored⟩ := (hafter.kept kept).finish hpasses lingers
      exact ⟨.inr ⟨path, later, f, rfl, rfl, by rw [fails]⟩, hstored⟩

/-- The literals that are found in a file are words of its text. -/
theorem Pass.Of.mem_words {table : Table} {x : Pass} (h : x.Of files table) :
    ∀ l ∈ x.found, l.1 ∈ Source.words x.text := by
  intro l hl
  obtain ⟨widened, learned, hfound⟩ := h.found
  rw [hfound] at hl
  have hnumber := (table.hits_sublist _).subset (List.mem_map_of_mem hl)
  have htoken := (numbers_of_source x.text learned.mem_backs rfl).subset hnumber
  rw [Source.toList_tokens_ofString] at htoken
  rcases List.mem_append.1 (List.mem_filter.1 htoken).1 with hword | hlast
  · exact hword
  · have hkind := table.kind_of_mem_hits hl
    rw [List.mem_singleton.1 hlast] at hkind
    cases hkind

namespace Job

variable {reader : Reader} {path text : String} {passes : List Pass} {p : Progress}

theorem exists_deliver (options : Options)
    (h : ∃ q, (p.afterLine ("Overwriting file: " ++ path)).store path text.toUTF8 = .ok q) :
    ∃ q, (deliver options path text).run.run p = (.ok (), q) := by
  rw [deliver]
  cases options.overwrite with
  | false => exact ⟨_, rfl⟩
  | true =>
    obtain ⟨q, hq⟩ := h
    simp only [if_true, run_bind, run_say, run_get, run_orFail, run_set, hq]
    exact ⟨q, rfl⟩

/-- A source whose numbers can be read is gone through without a fault, whatever was learned before. -/
theorem restore_of_readable (hread : Readable (Source.ofString text).tokens.toList) {widened : Widened}
    (learned : Parser.Learned widened) (table : Table) {r : Restorer} (hr : r.package = none) :
    r.restore table (Parser.ofSource (.ofString text) widened).compilationUnit.1 =
      .ok (r.record (table.hits (Parser.ofSource (.ofString text) widened).compilationUnit.1)) := by
  have hnumbers := numbers_of_source text learned.mem_backs rfl
  exact Restorer.restore_of_no_import table (Parser.regular_ofSource text learned.mem_backs) rfl
    (hread.mono fun t ht => (List.mem_filter.1 (hnumbers.subset ht)).1) (by rw [hr]; rfl)

/-- Nothing fails in such a source. -/
theorem restoreFile_of_readable (h : Progress.After options reader.table files passes p)
    (hd : files.Apart (passes.map Pass.path ++ [path])) (htext : files.text path = .ok text)
    (hread : Readable (Source.ofString text).tokens.toList) :
    ((restoreFile options reader path).run.run p).1 = .ok 0 := by
  have htext' : p.files.text path = .ok text := by
    rw [h.text_eq fun x hx => hd.ne (List.mem_map_of_mem hx) (by simp)]
    exact htext
  have hof : Pass.Of files reader.table ⟨path, text,
      reader.table.hits (Parser.ofSource (.ofString text) p.widened).compilationUnit.1⟩ :=
    ⟨htext, p.widened, h.learned, rfl⟩
  obtain ⟨place, hplace, hfile⟩ := hof.file
  have hfiles : (p.afterLine ("First pass: " ++ path)).files = p.files := rfl
  have hlearn : (Parser.ofSource (.ofString text)).learn (p.afterLine ("First pass: " ++ path)).widened =
      Parser.ofSource (.ofString text) p.widened := rfl
  simp only [restoreFile, run_bind, run_say, run_openSource, hfiles, htext', Except.map, run_readUnit, hlearn,
    run_walked, restore_of_readable hread h.learned reader.table (r := {}) rfl, Visited.ok]
  generalize reader.table.hits (Parser.ofSource (.ofString text) p.widened).compilationUnit.1 = hits
  split
  · rfl
  · simp only [run_bind, run_say]
    generalize hq : ((p.afterLine ("First pass: " ++ path)).afterUnit (.ofSource (.ofString text))).afterLine
      ("Identified " ++ toString (({} : Restorer).record hits).count ++ " hex values to be replaced.") = q
    have hkept : p.Kept q := hq ▸ ((Progress.Kept.line ..).trans (.unit ..)).trans (.line ..)
    have hlearned := hkept.learned h.learned
    rw [run_rewriteFile options reader _ (hkept.files ▸ htext') hlearned rfl rfl,
      restore_of_readable hread hlearned reader.table rfl]
    simp only [Visited.ok, run_bind]
    generalize hq' : Progress.afterUnit (Progress.afterUnit _ _) _ = q'
    have hkept' : q.Kept q' := hq' ▸ ((Progress.Kept.line ..).trans (.unit ..)).trans (.unit ..)
    have hstore := (h.kept ((hkept.trans hkept').trans (.line _ ("Overwriting file: " ++ path)))).exists_store
      hplace hfile hd (String.join ((Source.words text).map Token.text)).toUTF8
    obtain ⟨_, hdeliver⟩ := exists_deliver options hstore
    rw [hdeliver]
    rfl

/-- A run finishes if the resources can be read and the numbers of all sources, too. -/
theorem finished_of_readable (given : Options.ofArguments arguments = .ok options)
    (proper : Files.Proper files) (h : (readResources options.resources).run.run { files } = (.ok reader, p))
    (hread : ∀ path ∈ sources (files.find options.project ".java"), ∃ text,
      files.text path = .ok text ∧ Readable (Source.ofString text).tokens.toList) :
    (run arguments files lingers).2 = .finished := by
  obtain ⟨passes, rest, q, hsources, hafter, -, -, hending, -⟩ := run_after lingers given proper h
  rcases hending with ⟨-, hfinished, -⟩ | ⟨path, later, f, rfl, -, hfails⟩
  · exact hfinished
  · have hapart : files.Apart (passes.map Pass.path ++ path :: later) :=
      hsources ▸ (proper.apart_find ..).sublist (sources_sublist _)
    obtain ⟨text, htext, hreadable⟩ := hread path (by simp [hsources])
    have hfirst : files.Apart (passes.map Pass.path ++ [path]) :=
      hapart.sublist ((List.Sublist.refl _).append (by simp))
    rw [restoreFile_of_readable hafter hfirst htext hreadable] at hfails
    cases hfails

end Job

/-- A run changes no file but those that were gone through and have some literal that is a resource, and
it does so only if they are to be overwritten. Such a file gets the text of its tokens, which is its text
without the stretches that are no word; no literal is replaced and no import added. Only if the parser gave
up a rule somewhere may the last one of them linger, and then it is left empty if its text is not long. The
file at which a run fails is as it was, and so are all that come after it; if the resources cannot be read,
all are. -/
theorem run_stores_tokens (given : Options.ofArguments arguments = .ok options)
    (proper : Files.Proper files) :
    (∀ f p, (Job.readResources options.resources).run.run { files } = (.error f, p) →
      run arguments files lingers = (p, .failed f) ∧ p.files = files) ∧
    ∀ reader p, (Job.readResources options.resources).run.run { files } = (.ok reader, p) →
      ∃ passes rest q,
        Job.sources (files.find options.project ".java") = passes.map Pass.path ++ rest ∧
        (∀ x ∈ passes, x.Of files reader.table ∧
          x.written = String.ofList
            (Span.outside ((Source.ofString x.text).errors.map LexicalError.span) x.text.toList) ∧
          ∃ root names, files.locate options.project = .ok root ∧
            files.locate x.path = .ok (root ++ names) ∧ names.getLast?.map extension = some ".java" ∧
            names.getLast? ≠ some "R.java") ∧
        (Job.restoreAll options reader (passes.map Pass.path)).run.run p = (.ok 0, q) ∧
        (rest = [] ∧ (run arguments files lingers).2 = .finished ∨
          ∃ path later f, rest = path :: later ∧ (run arguments files lingers).2 = .failed f ∧
            ((Job.restoreFile options reader path).run.run q).1 = .error f) ∧
        files.Stored (Pass.left options (lingers && (run arguments files lingers).1.gaveUp) passes)
          (run arguments files lingers).1.files ∧
        ∀ path ∈ rest, (run arguments files lingers).1.files.read path = files.read path := by
  refine ⟨fun f p h => ⟨run_of_resources_failed lingers given h, (Job.readResources_kept _ h).1.files⟩, ?_⟩
  intro reader p h
  obtain ⟨passes, rest, q, hsources, hafter, hrun, -, hending, hstored⟩ := run_after lingers given proper h
  have hmem : ∀ path ∈ passes.map Pass.path ++ rest, path ∈ files.find options.project ".java" ∧
      Job.isResources path = false := by
    intro path hpath
    obtain ⟨hfound, hother⟩ := List.mem_filter.1 (hsources ▸ hpath)
    exact ⟨hfound, by simpa using hother⟩
  have hapart : files.Apart (passes.map Pass.path ++ rest) :=
    hsources ▸ (proper.apart_find ..).sublist (Job.sources_sublist _)
  refine ⟨passes, rest, q, hsources, fun x hx => ⟨hafter.of x hx, Source.join_text_eq_outside _, ?_⟩, hrun, ?_,
    hstored, fun path hpath => ?_⟩
  · obtain ⟨hfound, hresources⟩ := hmem x.path (List.mem_append_left _ (List.mem_map_of_mem hx))
    obtain ⟨root, names, hroot, hplace, -, hext, hlast⟩ := proper.exists_of_mem_find hfound
    refine ⟨root, names, hroot, hplace, hext, ?_⟩
    rw [← hlast]
    simpa [Job.isResources] using hresources
  · rcases hending with ⟨hrest, hfinished, -⟩ | hfailed
    · exact .inl ⟨hrest, hfinished⟩
    · exact .inr hfailed
  · refine hstored.read_eq fun c hc => ?_
    obtain ⟨x, hx, heq⟩ := Pass.exists_of_mem_left hc
    rw [heq]
    exact hapart.ne (List.mem_map_of_mem hx) hpath

/-! A project with two resources and a source that uses one of them and has a sign that is no word. -/

def usingFiles : Files :=
  .ofList [("R.java", "class R\x7bclass id\x7bint a=1,b=2;\x7dint c=1;\x7d".toUTF8),
    ("src/A.java", "class A\x7bint x=0x2;#\x7d".toUTF8)]

def usingTable : Table := [(1, "R.c"), (2, "R.id.b")]

private theorem proper_usingFiles : Files.Proper usingFiles := Files.proper_ofList (by decide +kernel)

private theorem usingFiles_facts : usingFiles.find "src" ".java" = ["src/A.java"] ∧
    usingFiles.text "R.java" = .ok "class R\x7bclass id\x7bint a=1,b=2;\x7dint c=1;\x7d" ∧
    usingFiles.text "src/A.java" = .ok "class A\x7bint x=0x2;#\x7d" := by
  decide +kernel

private theorem reads_usingTable :
    ∃ p, (Job.readResources "R.java").run.run { files := usingFiles } = (.ok { table := usingTable }, p) := by
  obtain ⟨-, htext, -⟩ := usingFiles_facts
  have hwords := Reader.visible_doubled
  generalize "class R\x7bclass id\x7bint a=1,b=2;\x7dint c=1;\x7d" = resources at htext hwords
  have hread : ({} : Reader).read (Parser.ofSource (.ofString resources) []).compilationUnit.1 =
      .ok { table := usingTable } := Reader.read_doubled .start hwords rfl {}
  have hlearn : (Parser.ofSource (.ofString resources)).learn [] = Parser.ofSource (.ofString resources) [] := rfl
  simp only [Job.readResources, Job.run_bind, Job.run_openSource, htext, Except.map, Job.run_readUnit, hlearn, hread,
    Job.run_walked, Visited.ok, Job.run_list]
  exact ⟨_, rfl⟩

private theorem ways_using : ((Grammar.body .compilationUnit).ways none (Rule.ways none 30) .compilationUnit
    (([.kwClass, .identifier, .lbrace, .kwInt, .identifier, .assign, .hexLiteral, .semi, .rbrace,
      .eof] : List Kind).map some)).isWhole = true := by
  decide +kernel

/-- What stands in the only source of the project. -/
private theorem tokens_using : String.join ((Source.words "class A\x7bint x=0x2;#\x7d").map Token.text) =
      "class A\x7bint x=0x2;\x7d" ∧
    ((Source.ofString "class A\x7bint x=0x2;#\x7d").tokens.toList.filter Token.isVisible).map Token.kind =
      [.kwClass, .identifier, .lbrace, .kwInt, .identifier, .assign, .hexLiteral, .semi, .rbrace, .eof] ∧
    ((Source.ofString "class A\x7bint x=0x2;#\x7d").tokens.toList.filterMap usingTable.named?).length = 1 ∧
    Readable (Source.ofString "class A\x7bint x=0x2;#\x7d").tokens.toList := by
  decide +kernel

/-- The source has one literal that is a resource. -/
private theorem pass_of_using {x : Pass} (h : x.Of usingFiles usingTable) (hpath : x.path = "src/A.java") :
    x.written = "class A\x7bint x=0x2;\x7d" ∧ x.found.length = 1 := by
  have htext : x.text = "class A\x7bint x=0x2;#\x7d" := by
    have htext := h.text
    rw [hpath, usingFiles_facts.2.2] at htext
    exact (Except.ok.inj htext).symm
  obtain ⟨hwritten, hkinds, hnamed, -⟩ := tokens_using
  rw [← htext] at hwritten hkinds hnamed
  obtain ⟨widened, learned, hfound⟩ := h.found
  have hreports := learned.no_report (hkinds ▸ Rule.spells_of_body_ways ways_using)
  have hhits := hits_of_calm usingTable x.text learned.mem_backs rfl hreports
  exact ⟨hwritten, hfound ▸ (congrArg List.length hhits).trans hnamed⟩

private theorem finished_using (given : Options.ofArguments arguments = .ok options)
    (hresources : options.resources = "R.java") (hproject : options.project = "src") :
    (run arguments usingFiles lingers).2 = .finished := by
  obtain ⟨hfind, -, htext⟩ := usingFiles_facts
  obtain ⟨p, hp⟩ := reads_usingTable
  refine Job.finished_of_readable lingers given proper_usingFiles (hresources ▸ hp) ?_
  rw [hproject, hfind]
  rintro _ hmem
  obtain rfl := List.mem_singleton.1 (List.mem_of_mem_filter hmem)
  exact ⟨_, htext, tokens_using.2.2.2⟩

/-- The source is overwritten, and the sign is gone. -/
theorem run_overwrites_source :
    usingFiles.read "src/A.java" = .ok "class A\x7bint x=0x2;#\x7d".toUTF8 ∧
    (run ["-r", "R.java", "-p", "src", "--overwrite"] usingFiles false).2 = .finished ∧
    (run ["-r", "R.java", "-p", "src", "--overwrite"] usingFiles false).1.files.read "src/A.java" =
      .ok "class A\x7bint x=0x2;\x7d".toUTF8 := by
  have hgiven : Options.ofArguments ["-r", "R.java", "-p", "src", "--overwrite"] =
      .ok ⟨"R.java", "src", false, true⟩ := rfl
  have hfinished := finished_using false hgiven rfl rfl
  obtain ⟨p, hp⟩ := reads_usingTable
  obtain ⟨passes, rest, _, hsources, hpasses, -, hending, hstored, -⟩ :=
    (run_stores_tokens false hgiven proper_usingFiles).2 _ p hp
  obtain rfl : rest = [] := by
    rcases hending with ⟨hrest, -⟩ | ⟨_, _, _, -, hfailed, -⟩
    · exact hrest
    · rw [hfinished] at hfailed
      cases hfailed
  have hpath : passes.map Pass.path = ["src/A.java"] := by
    rw [usingFiles_facts.1, List.append_nil] at hsources
    rw [← hsources]
    decide +kernel
  obtain ⟨x, rfl, hx⟩ := List.map_eq_singleton_iff.1 hpath
  obtain ⟨hwritten, hfound⟩ := pass_of_using (hpasses x (List.mem_singleton_self x)).1 hx
  have hleft : Pass.left ⟨"R.java", "src", false, true⟩ false [x] = [("src/A.java",
      "class A\x7bint x=0x2;\x7d".toUTF8)] := by
    have hne : x.found ≠ [] := by
      rw [← List.length_pos_iff, hfound]
      exact Nat.one_pos
    simp [Pass.left, Pass.stored, Pass.content, hne, hx, hwritten]
  rw [Bool.false_and, hleft] at hstored
  obtain ⟨place, hplace, hcontent⟩ := hstored.there _ (List.mem_singleton_self _)
  refine ⟨by decide +kernel, hfinished, ?_⟩
  rw [Files.read_eq, hstored.locate_eq, hplace]
  simp only [Except.bind, hcontent]

/-- A line that says zero says no other number. -/
private theorem eq_zero_of_last_line {a b : String} {n : Nat}
    (h : a ++ "Replaced 0 hex values.\n" = b ++ "Replaced " ++ toString n ++ " hex values.\n") : n = 0 := by
  have hzero : "Replaced 0 hex values.\n".toList =
      "Replaced".toList ++ [' '] ++ ['0'] ++ " hex values.\n".toList := by decide
  have hword : "Replaced ".toList = "Replaced".toList ++ [' '] := by decide
  have hlist := congrArg String.toList h
  simp only [String.toList_append, hzero, hword, ← List.append_assoc] at hlist
  replace hlist := List.append_cancel_right hlist
  have hdigits : (toString n).toList ≠ [] := by
    rw [Nat.toString_eq_repr, Nat.toList_repr]
    exact Nat.toDigits_ne_nil
  obtain ⟨ds, d, hds⟩ := (List.eq_nil_or_concat (toString n).toList).resolve_left hdigits
  rw [List.concat_eq_append] at hds
  rw [hds, ← List.append_assoc] at hlist
  obtain ⟨hbefore, hlast⟩ := List.append_inj' hlist rfl
  rcases List.eq_nil_or_concat ds with rfl | ⟨es, e, rfl⟩
  · have hdigit : ∀ m < 10, Nat.toDigits 10 m = ['0'] → m = 0 := by decide
    rw [← hlast, List.nil_append, Nat.toString_eq_repr, Nat.toList_repr] at hds
    have hlength : (Nat.toDigits 10 n).length ≤ 1 := by rw [hds]; exact Nat.le_refl 1
    exact hdigit n ((Nat.length_toDigits_le_iff (by decide) Nat.one_pos).mp hlength) hds
  · -- Before the last digit stands a blank, which is no digit.
    rw [List.concat_eq_append, ← List.append_assoc] at hbefore
    obtain rfl := List.cons.inj (List.append_inj' hbefore rfl).2 |>.1
    have hblank : ' ' ∈ (toString n).toList := by rw [hds]; simp
    exact absurd (Lexicon.mem_decimalDigits hblank) (by decide)

/-- A run that finishes announces the literals that it finds and replaces none of them. It prints the
resources, then what it does with each file and the text of its tokens if that is not stored, in which all
the literals still stand, and at last that nothing was replaced. So the last line gives the sum of the
announced numbers only if nothing was announced. -/
theorem finished_run_replaces_nothing (given : Options.ofArguments arguments = .ok options)
    (proper : Files.Proper files) (finished : (run arguments files lingers).2 = .finished) :
    ∃ reader passes,
      ((Job.readResources options.resources).run.run { files }).1 = .ok reader ∧
      Job.sources (files.find options.project ".java") = passes.map Pass.path ∧
      (∀ x ∈ passes, x.Of files reader.table ∧ ∀ l ∈ x.found, l.1 ∈ Source.words x.text) ∧
      (run arguments files lingers).1.out = Job.listing reader.table ++
        String.join (passes.map (Pass.announced options)) ++ "Replaced 0 hex values.\n" ∧
      files.Stored (Pass.left options (lingers && (run arguments files lingers).1.gaveUp) passes)
        (run arguments files lingers).1.files ∧
      ((∃ before, (run arguments files lingers).1.out = before ++ "Replaced " ++
          toString (passes.map fun x => x.found.length).sum ++ " hex values.\n") ↔
        ∀ x ∈ passes, x.found = []) := by
  cases h : (Job.readResources options.resources).run.run { files } with
  | mk r p =>
    cases r with
    | error f =>
      rw [run_of_resources_failed lingers given h] at finished
      cases finished
    | ok reader =>
      obtain ⟨passes, rest, q, hsources, hafter, -, hout, hending, hstored⟩ := run_after lingers given proper h
      rcases hending with ⟨rfl, -, hprinted⟩ | ⟨path, later, f, -, hfailed, -⟩
      · refine ⟨reader, passes, rfl, by simpa using hsources,
          fun x hx => ⟨hafter.of x hx, (hafter.of x hx).mem_words⟩, hout ▸ hprinted, hstored, ?_⟩
        rw [hprinted]
        constructor
        · rintro ⟨before, hline⟩
          simpa [List.sum_eq_zero_iff] using eq_zero_of_last_line hline
        · intro hnone
          have hsum : (passes.map fun x => x.found.length).sum = 0 := by
            simpa [List.sum_eq_zero_iff] using hnone
          rw [hsum]
          exact ⟨q.out, by rw [String.append_assoc, String.append_assoc]; rfl⟩
      · rw [hfailed] at finished
        cases finished

/-- One literal is announced, none is replaced. -/
theorem run_announces_literal :
    (run ["-r", "R.java", "-p", "src"] usingFiles).2 = .finished ∧
    (run ["-r", "R.java", "-p", "src"] usingFiles).1.out =
      "0X1 = R.c\n0X2 = R.id.b\nFirst pass: src/A.java\nIdentified 1 hex values to be replaced.\n" ++
        "Rewriting tokens\nclass A\x7bint x=0x2;\x7d\nReplaced 0 hex values.\n" := by
  have hgiven : Options.ofArguments ["-r", "R.java", "-p", "src"] = .ok ⟨"R.java", "src", false, false⟩ := rfl
  have hfinished := finished_using true hgiven rfl rfl
  obtain ⟨reader, passes, hreader, hsources, hpasses, hout, -, -⟩ :=
    finished_run_replaces_nothing true hgiven proper_usingFiles hfinished
  obtain ⟨p, hp⟩ := reads_usingTable
  obtain rfl : { table := usingTable } = reader := Except.ok.inj ((congrArg Prod.fst hp).symm.trans hreader)
  have hpath : passes.map Pass.path = ["src/A.java"] := by
    rw [usingFiles_facts.1] at hsources
    rw [← hsources]
    decide +kernel
  obtain ⟨x, rfl, hx⟩ := List.map_eq_singleton_iff.1 hpath
  obtain ⟨hwritten, hfound⟩ := pass_of_using (hpasses x (List.mem_singleton_self x)).1 hx
  have hne : x.found ≠ [] := by
    rw [← List.length_pos_iff, hfound]
    exact Nat.one_pos
  refine ⟨hfinished, hout.trans ?_⟩
  have hannounced : x.announced ⟨"R.java", "src", false, false⟩ =
      "First pass: src/A.java\nIdentified 1 hex values to be replaced.\nRewriting tokens\n" ++
        "class A\x7bint x=0x2;\x7d\n" := by
    rw [Pass.announced, if_neg hne, hx, hwritten, hfound]
    decide +kernel
  rw [List.map_singleton, hannounced]
  decide +kernel

end ResourceNames.Project
