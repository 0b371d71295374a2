import Mathlib.Data.List.Nodup
import Mathlib.Tactic.SplitIfs
import ResourceNames.Project.Files

/-!
Where paths lead, and what is there.

A file is stored where one is already. Then every path leads where it did before, and only the content
at that one place is another. The paths that are found below a folder lead to its files, each of them to
another one.
-/
namespace ResourceNames.Project

namespace Entry

def isFolder : Entry → Bool
  | .file .. => false
  | .folder .. => true

def content? : Entry → Option ByteArray
  | .file _ content => some content
  | .folder .. => none

end Entry

namespace Files

/-! ### Storing a content -/

def content? (place : List String) (es : Files) : Option ByteArray :=
  (es.get? place).bind Entry.content?

theorem entry?_cons (name : String) (d : Entry) (ds : Files) :
    entry? name (d :: ds) = if d.name = name then some d else entry? name ds := by
  simp only [List.find?_cons, entry?]
  by_cases h : d.name = name
  · simp [h]
  · simp [h, beq_false_of_ne h]

theorem entry?_putEntry (e : Entry) (name : String) (es : Files) :
    entry? name (es.putEntry e) = if e.name = name then some e else entry? name es := by
  induction es with
  | nil => simp [putEntry, entry?]
  | cons d ds ih =>
    rw [putEntry]
    split
    · rename_i h
      simp only [entry?_cons, h]
      split <;> rfl
    · rename_i hne
      split
      · simp only [entry?_cons]
      · rw [entry?_cons, entry?_cons, ih]
        by_cases hd : d.name = name
        · rw [if_pos hd, if_neg fun he => hne (he.trans hd.symm), if_pos hd]
        · rw [if_neg hd, if_neg hd]

theorem get?_nil (es : Files) : get? [] es = some (.folder "" es) := by
  rw [get?]

theorem get?_file {name : String} {names : List String} {es : Files} {n : String} {c : ByteArray}
    (h : entry? name es = some (.file n c)) :
    get? (name :: names) es = if names.isEmpty then some (.file n c) else none := by
  rw [get?, h]

theorem get?_folder {name : String} {names : List String} {es entries : Files} {n : String}
    (h : entry? name es = some (.folder n entries)) :
    get? (name :: names) es = if names.isEmpty then some (.folder n entries) else get? names entries := by
  rw [get?, h]

theorem get?_none {name : String} {names : List String} {es : Files} (h : entry? name es = none) :
    get? (name :: names) es = none := by
  rw [get?, h]

/-- Two collections of files differ in nothing but contents, and that only at one place. -/
structure Replaced (place : List String) (content : ByteArray) (es es' : Files) : Prop where
  kind : ∀ p, (es'.get? p).map Entry.isFolder = (es.get? p).map Entry.isFolder
  here : es'.content? place = some content
  elsewhere : ∀ p, p ≠ place → es'.content? p = es.content? p

private theorem putFile_replaced {name n : String} {es : Files} {old : ByteArray}
    (h : entry? name es = some (.file n old)) (content : ByteArray) :
    Replaced [name] content es (es.putEntry (.file name content)) := by
  have hentry : ∀ p, entry? p (es.putEntry (.file name content)) =
      if name = p then some (.file name content) else entry? p es :=
    fun p => entry?_putEntry (.file name content) p es
  refine ⟨fun p => ?_, ?_, fun p hp => ?_⟩
  · cases p with
    | nil => rfl
    | cons q qs =>
      by_cases hq : name = q
      · subst hq
        rw [get?_file ((hentry name).trans (if_pos rfl)), get?_file h]
        split <;> rfl
      · rw [get?, get?, hentry, if_neg hq]
  · rw [content?, get?_file ((hentry name).trans (if_pos rfl))]
    rfl
  · cases p with
    | nil => rfl
    | cons q qs =>
      by_cases hq : name = q
      · subst hq
        have hqs : qs.isEmpty = false := by
          cases qs with
          | nil => exact absurd rfl hp
          | cons => rfl
        rw [content?, content?, get?_file ((hentry name).trans (if_pos rfl)), get?_file h, hqs]
        rfl
      · rw [content?, content?, get?, get?, hentry, if_neg hq]

private theorem putFolder_replaced {name n : String} {names : List String} {es entries entries' : Files}
    {content : ByteArray} (h : entry? name es = some (.folder n entries)) (hne : names ≠ [])
    (hin : Replaced names content entries entries') :
    Replaced (name :: names) content es (es.putEntry (.folder name entries')) := by
  have hentry : ∀ p, entry? p (es.putEntry (.folder name entries')) =
      if name = p then some (.folder name entries') else entry? p es :=
    fun p => entry?_putEntry (.folder name entries') p es
  have hnames : names.isEmpty = false := by simpa using hne
  refine ⟨fun p => ?_, ?_, fun p hp => ?_⟩
  · cases p with
    | nil => rfl
    | cons q qs =>
      by_cases hq : name = q
      · subst hq
        rw [get?_folder ((hentry name).trans (if_pos rfl)), get?_folder h]
        split
        · rfl
        · exact hin.kind qs
      · rw [get?, get?, hentry, if_neg hq]
  · rw [content?, get?_folder ((hentry name).trans (if_pos rfl)), hnames]
    exact hin.here
  · cases p with
    | nil => rfl
    | cons q qs =>
      by_cases hq : name = q
      · subst hq
        rw [content?, content?, get?_folder ((hentry name).trans (if_pos rfl)), get?_folder h]
        split
        · rfl
        · exact hin.elsewhere qs fun hqs => hp (by rw [hqs])
      · rw [content?, content?, get?, get?, hentry, if_neg hq]

/-- Storing a content where there is a file changes that content and nothing else. -/
theorem put_replaced {place : List String} {es : Files} {old : ByteArray}
    (h : es.content? place = some old) (content : ByteArray) :
    Replaced place content es (es.put content place) := by
  induction place generalizing es with
  | nil => simp [content?, get?_nil, Entry.content?] at h
  | cons name names ih =>
    cases he : entry? name es with
    | none => simp [content?, get?_none he] at h
    | some e =>
      cases e with
      | file n c =>
        rw [content?, get?_file he] at h
        cases names with
        | nil => exact putFile_replaced he content
        | cons => simp at h
      | folder n entries =>
        rw [content?, get?_folder he] at h
        cases names with
        | nil => simp [Entry.content?] at h
        | cons m ms =>
          have hinside : inside name es = entries := by rw [inside, he]
          rw [put, hinside]
          · exact putFolder_replaced he (by simp) (ih h)
          · simp

/-! ### Paths -/

/-- What is at a place matters for a path only as a folder, a file or nothing. -/
private theorem follow_cons (path : String) (es : Files) (step : String) (steps place : List String) :
    follow path es (step :: steps) place =
      match (es.get? place).map Entry.isFolder with
      | none => .error (.missing path)
      | some false => .error (.notFolder path)
      | some true =>
        if step = "" ∨ step = "." then follow path es steps place
        else if step = ".." then
          if place.isEmpty then .error (.missing path) else follow path es steps place.dropLast
        else if ((es.get? (place ++ [step])).map Entry.isFolder).isSome then
          follow path es steps (place ++ [step])
        else .error (.missing path) := by
  rw [follow, Option.isSome_map]
  cases es.get? place with
  | none => rfl
  | some e => cases e <;> rfl

private theorem follow_congr {es es' : Files}
    (h : ∀ p, (es'.get? p).map Entry.isFolder = (es.get? p).map Entry.isFolder) (path : String)
    (steps place : List String) : follow path es' steps place = follow path es steps place := by
  induction steps generalizing place with
  | nil => rfl
  | cons step steps ih => simp only [follow_cons, h, ih]

/-- Every path leads where it did, as long as files and folders are the same. -/
theorem locate_congr {es es' : Files}
    (h : ∀ p, (es'.get? p).map Entry.isFolder = (es.get? p).map Entry.isFolder) (path : String) :
    locate path es' = locate path es := by
  rw [locate, locate, follow_congr h]

theorem read_eq (path : String) (es : Files) : read path es = (locate path es).bind fun p =>
    match es.content? p with
    | some content => .ok content
    | none =>
      if ((es.get? p).map Entry.isFolder).isSome then .error (.isFolder path)
      else .error (.missing path) := by
  refine congrArg (Except.bind _) (funext fun p => ?_)
  unfold content?
  cases es.get? p with
  | none => rfl
  | some e => cases e <;> rfl

theorem read_of_content? {path : String} {es : Files} {p : List String} {c : ByteArray}
    (hp : locate path es = .ok p) (hc : es.content? p = some c) : read path es = .ok c := by
  rw [read_eq, hp]
  simp [Except.bind, hc]

theorem read_congr {es es' : Files}
    (h : ∀ p, (es'.get? p).map Entry.isFolder = (es.get? p).map Entry.isFolder) {path : String}
    (hc : ∀ p, locate path es = .ok p → es'.content? p = es.content? p) :
    read path es' = read path es := by
  rw [read_eq, read_eq, locate_congr h]
  cases hp : locate path es with
  | error e => rfl
  | ok p => simp [Except.bind, h, hc p hp]

private theorem follow_append (path : String) (es : Files) (xs ys place : List String) :
    follow path es (xs ++ ys) place = (follow path es xs place).bind (follow path es ys) := by
  induction xs generalizing place with
  | nil => rfl
  | cons step steps ih =>
    rw [List.cons_append, follow_cons, follow_cons]
    simp only [ih]
    split
    · rfl
    · rfl
    · split
      · rfl
      · split
        · split <;> rfl
        · split <;> rfl

/-- Errors apart, a path matters only by its steps. -/
private theorem follow_ok {path : String} (path' : String) {es : Files} {steps place p : List String}
    (h : follow path es steps place = .ok p) : follow path' es steps place = .ok p := by
  induction steps generalizing place with
  | nil => exact h
  | cons step steps ih =>
    rw [follow_cons] at h ⊢
    cases hkind : (es.get? place).map Entry.isFolder with
    | none => simp [hkind] at h
    | some folder =>
      cases folder with
      | false => simp [hkind] at h
      | true =>
        simp only [hkind] at h ⊢
        split_ifs at h ⊢
        all_goals exact ih h

/-- A name of an entry: a path over it leads to that entry. -/
def IsName (name : String) : Prop :=
  '/' ∉ name.toList ∧ name ≠ "" ∧ name ≠ "." ∧ name ≠ ".."

instance (name : String) : Decidable (IsName name) := by
  unfold IsName
  infer_instance

theorem steps_of_no_slash {path : String} (h : '/' ∉ path.toList) : steps path = [path] := by
  rw [steps, List.splitOn_eq_singleton h]
  simp

/-- A slash divides the steps of a path. -/
theorem steps_append_slash (a b : String) : steps (a ++ "/" ++ b) = steps a ++ steps b := by
  have hlist : (a ++ "/" ++ b).toList = a.toList ++ '/' :: b.toList := by simp
  rw [steps, hlist, List.splitOn_append_cons_self, List.map_append]
  rfl

private theorem follow_name {path name : String} {es : Files} {p : List String}
    (hfolder : (es.get? p).map Entry.isFolder = some true) (hname : IsName name)
    (hget : (es.get? (p ++ [name])).isSome = true) :
    follow path es [name] p = .ok (p ++ [name]) := by
  obtain ⟨-, hempty, hdot, hdots⟩ := hname
  rw [follow_cons, hfolder]
  simp [hempty, hdot, hdots, hget, follow]

private theorem follow_empty {path : String} {es : Files} {q p : List String}
    (h : follow path es [""] q = .ok p) : q = p := by
  rw [follow_cons] at h
  split at h
  · cases h
  · cases h
  · exact Except.ok.inj h

/-- A path that ends with a slash is one without it and nothing more. -/
private theorem exists_of_getLast?_slash {path : String} (h : path.toList.getLast? = some '/') :
    ∃ before, path = before ++ "/" := by
  obtain ⟨chars, hchars⟩ := List.getLast?_eq_some_iff.1 h
  refine ⟨String.ofList chars, String.toList_inj.1 ?_⟩
  simp [hchars]

/-- A name below a folder does not change how its path begins. -/
private theorem relative_join {folder : String} (hne : ¬folder.isEmpty = true)
    (hhead : ¬folder.toList.head? = some '/') (name : String) :
    ¬(join folder name).isEmpty = true ∧ ¬(join folder name).toList.head? = some '/' := by
  have hfolder : folder ≠ "" := by simpa using hne
  obtain ⟨tail, htail⟩ : ∃ tail, join folder name = folder ++ tail := by
    rw [join]
    split
    · exact ⟨name, rfl⟩
    · exact ⟨"/" ++ name, String.append_assoc⟩
  rw [htail]
  constructor
  · simp [hfolder]
  · cases hchars : folder.toList with
    | nil => exact absurd (String.toList_eq_nil_iff.1 hchars) hfolder
    | cons c cs => simpa [hchars] using hhead

/-- A path of a folder, and a name in it. -/
theorem locate_join {folder name : String} {es : Files} {p : List String}
    (h : locate folder es = .ok p) (hfolder : (es.get? p).map Entry.isFolder = some true)
    (hname : IsName name) (hget : (es.get? (p ++ [name])).isSome = true) :
    locate (join folder name) es = .ok (p ++ [name]) := by
  have hnext : ∀ path, follow path es [name] p = .ok (p ++ [name]) :=
    fun path => follow_name hfolder hname hget
  rw [locate] at h
  split at h
  · cases h
  · rename_i hstart
    rw [not_or] at hstart
    obtain ⟨hne, hhead⟩ := hstart
    have hsteps : ∀ path, follow path es (steps (join folder name)) [] = .ok (p ++ [name]) := by
      intro path
      rw [join]
      split
      · rename_i hslash
        obtain ⟨before, rfl⟩ := exists_of_getLast?_slash (hslash.resolve_left hne)
        have hends : steps (before ++ "/") = steps before ++ [""] := by
          simpa [steps_of_no_slash] using steps_append_slash before ""
        rw [hends, follow_append] at h
        rw [steps_append_slash, steps_of_no_slash hname.1, follow_append]
        cases hbefore : follow (before ++ "/") es (steps before) [] with
        | error e => rw [hbefore] at h; cases h
        | ok q =>
          rw [hbefore] at h
          rw [follow_ok path hbefore, follow_empty h]
          exact hnext path
      · rw [steps_append_slash, steps_of_no_slash hname.1, follow_append, follow_ok path h]
        exact hnext path
    rw [locate, if_neg, hsteps]
    rw [not_or]
    exact relative_join hne hhead name

/-! ### Files below a folder -/

end Files

mutual

/-- The names of an entry and of all below it can be told apart by paths. -/
def Entry.Proper : Entry → Prop
  | .file name _ => Files.IsName name
  | .folder name entries => Files.IsName name ∧ Files.Proper entries

/-- Entries are in the order of their names, and no two of them have the same name. -/
def Files.Proper : List Entry → Prop
  | [] => True
  | e :: es => e.Proper ∧ (∀ d ∈ es, e.name < d.name) ∧ Files.Proper es

end

def ownNames (ext : String) (es : Files) : List String :=
  es.filterMap fun e =>
    match e with
    | .file name _ => if extension name = ext then some name else none
    | .folder .. => none

mutual

def Entry.placesBelow (ext : String) : Entry → List (List String)
  | .file .. => []
  | .folder name entries =>
    ((ownNames ext entries).map ([·]) ++ Files.placesBelow ext entries).map (name :: ·)

def Files.placesBelow (ext : String) : List Entry → List (List String)
  | [] => []
  | e :: es => e.placesBelow ext ++ Files.placesBelow ext es

end

/-- The order of places below a folder: its own files by their names, then those in its folders by the
names of the folders, and in each of these folders the same order again. -/
inductive Precedes : List String → List String → Prop
  | own {a b : String} (h : a < b) : Precedes [a] [b]
  | ownFirst (a b : String) {names : List String} (h : names ≠ []) : Precedes [a] (b :: names)
  | folders {a b : String} {xs ys : List String} (h : a < b) (hx : xs ≠ []) (hy : ys ≠ []) :
      Precedes (a :: xs) (b :: ys)
  | inside (a : String) {xs ys : List String} (h : Precedes xs ys) : Precedes (a :: xs) (a :: ys)

theorem precedes_irrefl (place : List String) : ¬Precedes place place := by
  induction place with
  | nil => exact nofun
  | cons a names ih =>
    intro h
    cases h with
    | own h => exact String.lt_irrefl a h
    | ownFirst _ _ h => exact h rfl
    | folders h => exact String.lt_irrefl a h
    | inside _ h => exact ih h

def pathOver (folder : String) (names : List String) : String := names.foldl join folder

theorem ownFiles_eq (ext folder : String) (es : Files) :
    ownFiles ext folder es = ((ownNames ext es).map ([·])).map (pathOver folder) := by
  rw [ownFiles, ownNames, List.map_map, List.map_filterMap]
  refine congrArg (es.filterMap ·) (funext fun e => ?_)
  cases e with
  | file name c => by_cases h : extension name = ext <;> simp [h, pathOver]
  | folder => rfl

mutual

theorem Entry.find_eq (ext folder : String) (e : Entry) :
    e.find ext folder = (e.placesBelow ext).map (pathOver folder) := by
  cases e with
  | file => rfl
  | folder name entries =>
    rw [Entry.find, Entry.placesBelow, Files.findBelow_eq ext _ entries, ownFiles_eq, ← List.map_append,
      List.map_map]
    rfl

theorem Files.findBelow_eq (ext folder : String) (es : List Entry) :
    Files.findBelow ext folder es = (Files.placesBelow ext es).map (pathOver folder) := by
  cases es with
  | nil => rfl
  | cons e es =>
    rw [Files.findBelow, Files.placesBelow, Entry.find_eq ext folder e, Files.findBelow_eq ext folder es,
      List.map_append]

end

namespace Files

def places (ext : String) (es : Files) : List (List String) :=
  (ownNames ext es).map ([·]) ++ placesBelow ext es

theorem mem_ownNames {ext name : String} {es : Files} :
    name ∈ ownNames ext es ↔ extension name = ext ∧ ∃ content, .file name content ∈ es := by
  simp only [ownNames, List.mem_filterMap]
  constructor
  · rintro ⟨e, he, hname⟩
    cases e with
    | file n c =>
      by_cases h : extension n = ext
      · simp only [h, if_true, Option.some.injEq] at hname
        exact hname ▸ ⟨h, c, he⟩
      · simp [h] at hname
    | folder => simp at hname
  · rintro ⟨hext, content, he⟩
    exact ⟨_, he, by simp [hext]⟩

theorem mem_placesBelow {ext : String} {place : List String} {es : Files} :
    place ∈ placesBelow ext es ↔ ∃ name entries names, .folder name entries ∈ es ∧
      names ∈ places ext entries ∧ place = name :: names := by
  induction es with
  | nil => simp [placesBelow]
  | cons e es ih =>
    rw [placesBelow, List.mem_append, ih]
    cases e with
    | file n c => simp [Entry.placesBelow]
    | folder n entries =>
      simp only [Entry.placesBelow, List.mem_map, List.mem_cons, Entry.folder.injEq]
      constructor
      · rintro (⟨names, hnames, rfl⟩ | ⟨name, inner, names, hin, hnames, rfl⟩)
        · exact ⟨n, entries, names, .inl ⟨rfl, rfl⟩, hnames, rfl⟩
        · exact ⟨name, inner, names, .inr hin, hnames, rfl⟩
      · rintro ⟨name, inner, names, (⟨rfl, rfl⟩ | hin), hnames, rfl⟩
        · exact .inl ⟨names, hnames, rfl⟩
        · exact .inr ⟨name, inner, names, hin, hnames, rfl⟩

theorem mem_places {ext : String} {place : List String} {es : Files} :
    place ∈ places ext es ↔
      (∃ name content, .file name content ∈ es ∧ extension name = ext ∧ place = [name]) ∨
      ∃ name entries names, .folder name entries ∈ es ∧ names ∈ places ext entries ∧
        place = name :: names := by
  rw [places, List.mem_append, mem_placesBelow, List.mem_map]
  simp only [mem_ownNames]
  refine or_congr_left ⟨?_, ?_⟩
  · rintro ⟨name, ⟨hext, content, he⟩, rfl⟩
    exact ⟨name, content, he, hext, rfl⟩
  · rintro ⟨name, content, he, hext, rfl⟩
    exact ⟨name, ⟨hext, content, he⟩, rfl⟩

theorem Proper.of_mem {es : Files} (h : Proper es) {e : Entry} (he : e ∈ es) : e.Proper := by
  induction es with
  | nil => cases he
  | cons d ds ih =>
    obtain ⟨hd, -, hds⟩ := h
    rcases List.mem_cons.1 he with rfl | he
    · exact hd
    · exact ih hds he

/-- In proper files an entry is the one with its name. -/
theorem Proper.entry?_of_mem {es : Files} (h : Proper es) {e : Entry} (he : e ∈ es) :
    entry? e.name es = some e := by
  induction es with
  | nil => cases he
  | cons d ds ih =>
    obtain ⟨-, hlt, hds⟩ := h
    rw [entry?_cons]
    rcases List.mem_cons.1 he with rfl | he
    · rw [if_pos rfl]
    · rw [if_neg fun hname => String.lt_irrefl _ (hname ▸ hlt e he), ih hds he]

theorem Proper.of_get? {es entries : Files} (h : Proper es) {p : List String} {n : String}
    (hp : es.get? p = some (.folder n entries)) : Proper entries := by
  induction p generalizing es with
  | nil =>
    rw [get?_nil] at hp
    cases hp
    exact h
  | cons name names ih =>
    cases he : entry? name es with
    | none => rw [get?_none he] at hp; cases hp
    | some e =>
      have hproper : e.Proper := h.of_mem (List.mem_of_find?_eq_some he)
      cases e with
      | file m c => rw [get?_file he] at hp; split at hp <;> cases hp
      | folder m inner =>
        rw [get?_folder he] at hp
        split at hp
        · cases hp
          exact hproper.2
        · exact ih hproper.2 hp

theorem mem_putEntry {e d : Entry} {es : Files} (h : d ∈ es.putEntry e) : d = e ∨ d ∈ es := by
  induction es with
  | nil => exact .inl (List.mem_singleton.1 h)
  | cons c cs ih =>
    rw [putEntry] at h
    split at h
    · exact (List.mem_cons.1 h).imp_right (.tail c)
    · split at h
      · exact List.mem_cons.1 h
      · rcases List.mem_cons.1 h with rfl | h
        · exact .inr (.head cs)
        · exact (ih h).imp_right (.tail c)

theorem Proper.putEntry {es : Files} (h : Proper es) {e : Entry} (he : e.Proper) :
    Proper (es.putEntry e) := by
  induction es with
  | nil => exact ⟨he, by simp, trivial⟩
  | cons d ds ih =>
    obtain ⟨hd, hlt, hds⟩ := h
    rw [Files.putEntry]
    split
    · rename_i heq
      exact ⟨he, heq ▸ hlt, hds⟩
    · rename_i hne
      split
      · rename_i hless
        refine ⟨he, fun c hc => ?_, hd, hlt, hds⟩
        rcases List.mem_cons.1 hc with rfl | hc
        · exact hless
        · exact String.lt_trans hless (hlt c hc)
      · rename_i hnot
        refine ⟨hd, fun c hc => ?_, ih hds⟩
        rcases mem_putEntry hc with rfl | hc
        · exact Std.lt_of_le_of_ne (String.not_lt.1 hnot) (Ne.symm hne)
        · exact hlt c hc

theorem Proper.put {es : Files} (h : Proper es) {names : List String} (hnames : ∀ name ∈ names, IsName name)
    (content : ByteArray) : Proper (es.put content names) := by
  induction names generalizing es with
  | nil => exact h
  | cons name names ih =>
    have hname : IsName name := hnames name (by simp)
    have hinside : Proper (inside name es) := by
      rw [inside]
      split
      · rename_i n entries he
        have hfolder : IsName n ∧ Proper entries := h.of_mem (List.mem_of_find?_eq_some he)
        exact hfolder.2
      · trivial
    cases names with
    | nil => exact h.putEntry hname
    | cons next names =>
      exact h.putEntry ⟨hname, ih hinside fun name h => hnames name (.tail _ h)⟩

/-- Files stored by paths over names are proper. -/
theorem proper_ofList {files : List (String × ByteArray)}
    (h : ∀ f ∈ files, ∀ name ∈ steps f.1, IsName name) : Proper (ofList files) := by
  suffices hfold : ∀ es, Proper es → Proper (files.foldl (fun es f => put f.2 (steps f.1) es) es) from
    hfold [] trivial
  induction files with
  | nil => exact fun es hes => hes
  | cons f files ih =>
    intro es hes
    exact ih (fun g hg => h g (.tail _ hg)) _ (hes.put (h f (by simp)) f.2)

/-- The files of a folder are in the order of their names. -/
theorem Proper.ordered_ownNames {es : Files} (h : Proper es) (ext : String) :
    (ownNames ext es).Pairwise (· < ·) := by
  induction es with
  | nil => exact .nil
  | cons e es ih =>
    obtain ⟨-, hlt, hes⟩ := h
    cases e with
    | folder => exact ih hes
    | file name c =>
      rw [ownNames, List.filterMap_cons]
      by_cases hext : extension name = ext
      · simp only [hext, if_true]
        refine List.pairwise_cons.2 ⟨fun other hmem => ?_, ih hes⟩
        obtain ⟨-, content, he⟩ := mem_ownNames.1 hmem
        exact hlt (.file other content) he
      · simp only [hext, if_false]
        exact ih hes

theorem ne_nil_of_mem_places {ext : String} {place : List String} {es : Files}
    (h : place ∈ places ext es) : place ≠ [] := by
  rcases mem_places.1 h with ⟨_, _, _, _, rfl⟩ | ⟨_, _, _, _, _, rfl⟩ <;> simp

theorem Proper.ordered_places_of_below {es : Files} (h : Proper es) {ext : String}
    (hbelow : (placesBelow ext es).Pairwise Precedes) : (places ext es).Pairwise Precedes := by
  have hown : ((ownNames ext es).map ([·])).Pairwise Precedes :=
    (h.ordered_ownNames ext).map _ fun _ _ => .own
  refine List.pairwise_append.2 ⟨hown, hbelow, fun own hmem below hin => ?_⟩
  obtain ⟨name, -, rfl⟩ := List.mem_map.1 hmem
  obtain ⟨folder, entries, names, -, hnames, rfl⟩ := mem_placesBelow.1 hin
  exact .ownFirst name folder (ne_nil_of_mem_places hnames)

end Files

mutual

theorem Entry.Proper.ordered_placesBelow {e : Entry} (h : e.Proper) (ext : String) :
    (e.placesBelow ext).Pairwise Precedes := by
  cases e with
  | file => exact .nil
  | folder name entries =>
    have hentries : Files.Proper entries := h.2
    exact (hentries.ordered_places_of_below (Files.Proper.ordered_placesBelow hentries ext)).map
      _ fun _ _ => .inside name

theorem Files.Proper.ordered_placesBelow {es : List Entry} (h : Files.Proper es) (ext : String) :
    (Files.placesBelow ext es).Pairwise Precedes := by
  cases es with
  | nil => exact .nil
  | cons e es =>
    obtain ⟨he, hlt, hes⟩ := h
    rw [Files.placesBelow]
    refine List.pairwise_append.2 ⟨Entry.Proper.ordered_placesBelow he ext,
      Files.Proper.ordered_placesBelow hes ext, fun place hplace other hother => ?_⟩
    obtain ⟨name, entries, names, hin, hnames, rfl⟩ := Files.mem_placesBelow.1 hother
    cases e with
    | file => cases hplace
    | folder first inner =>
      obtain ⟨below, hbelow, rfl⟩ := List.mem_map.1 hplace
      exact .folders (hlt _ hin) (Files.ne_nil_of_mem_places hbelow) (Files.ne_nil_of_mem_places hnames)

end

namespace Files

theorem Proper.ordered_places {es : Files} (h : Proper es) (ext : String) :
    (places ext es).Pairwise Precedes :=
  h.ordered_places_of_below (h.ordered_placesBelow ext)

theorem Proper.nodup_places {es : Files} (h : Proper es) (ext : String) : (places ext es).Nodup := by
  refine (h.ordered_places ext).imp ?_
  rintro place _ hbefore rfl
  exact precedes_irrefl place hbefore

theorem get?_append {p names : List String} {name n : String} {es entries : Files}
    (h : es.get? p = some (.folder n entries)) :
    get? (p ++ name :: names) es = get? (name :: names) entries := by
  induction p generalizing es with
  | nil =>
    rw [get?_nil] at h
    cases h
    rfl
  | cons q qs ih =>
    cases he : entry? q es with
    | none => rw [get?_none he] at h; cases h
    | some e =>
      cases e with
      | file m c => rw [get?_file he] at h; split at h <;> cases h
      | folder m inner =>
        rw [get?_folder he] at h
        rw [List.cons_append, get?_folder he, if_neg (by simp)]
        split at h
        · rename_i hqs
          cases h
          rw [List.isEmpty_iff.1 hqs]
          rfl
        · exact ih h

/-- What a place found below proper files is: that of a file with the extension. -/
theorem Proper.file_of_mem_places {es : Files} (h : Proper es) {ext : String} {place : List String}
    (hmem : place ∈ places ext es) :
    (∀ name ∈ place, IsName name) ∧ (es.content? place).isSome = true ∧
      place.getLast?.map extension = some ext := by
  induction place generalizing es with
  | nil => rcases mem_places.1 hmem with ⟨_, _, _, _, hnil⟩ | ⟨_, _, _, _, _, hnil⟩ <;> cases hnil
  | cons name names ih =>
    rcases mem_places.1 hmem with ⟨_, content, he, hext, heq⟩ | ⟨_, entries, _, he, hnames, heq⟩
    · obtain ⟨rfl, rfl⟩ := List.cons.inj heq
      have hname : IsName name := h.of_mem he
      have hentry : entry? name es = some (.file name content) := h.entry?_of_mem he
      refine ⟨by simpa using hname, ?_, by simp [hext]⟩
      rw [content?, get?_file hentry]
      rfl
    · obtain ⟨rfl, rfl⟩ := List.cons.inj heq
      have hfolder : IsName name ∧ Proper entries := h.of_mem he
      have hentry : entry? name es = some (.folder name entries) := h.entry?_of_mem he
      obtain ⟨hall, hcontent, hlast⟩ := ih hfolder.2 hnames
      have hne : names ≠ [] := by
        rintro rfl
        simp at hlast
      refine ⟨?_, ?_, ?_⟩
      · simpa using ⟨hfolder.1, hall⟩
      · rw [content?, get?_folder hentry, if_neg (by simpa using hne)]
        exact hcontent
      · rwa [List.getLast?_cons_of_ne_nil hne]

theorem locate_pathOver {names : List String} {folder n : String} {es entries : Files} {p : List String}
    (hp : locate folder es = .ok p) (hentries : es.get? p = some (.folder n entries))
    (hnames : ∀ name ∈ names, IsName name) (hget : (get? names entries).isSome = true) :
    locate (pathOver folder names) es = .ok (p ++ names) := by
  induction names generalizing folder n entries p with
  | nil => simpa [pathOver] using hp
  | cons name names ih =>
    have hname : IsName name := hnames name (by simp)
    have hfolder : (es.get? p).map Entry.isFolder = some true := by rw [hentries]; rfl
    have hstep : get? (p ++ [name]) es = get? [name] entries := get?_append hentries
    have hone : (get? [name] entries).isSome = true := by
      cases he : entry? name entries with
      | none => simp [get?_none he] at hget
      | some e =>
        cases e with
        | file m c => simp [get?_file he]
        | folder m inner => simp [get?_folder he]
    have hjoin : locate (join folder name) es = .ok (p ++ [name]) :=
      locate_join hp hfolder hname (hstep ▸ hone)
    cases names with
    | nil => exact hjoin
    | cons next names =>
      cases he : entry? name entries with
      | none => simp [get?_none he] at hget
      | some e =>
        cases e with
        | file m c => simp [get?_file he] at hget
        | folder m inner =>
          rw [get?_folder he] at hget
          have hinner : es.get? (p ++ [name]) = some (.folder m inner) := by
            rw [hstep, get?_folder he]
            rfl
          have hover := ih hjoin hinner (fun name h => hnames name (.tail _ h)) hget
          rwa [List.append_assoc] at hover

/-- The last step of a path over names is the last of the names. -/
theorem getLast?_steps_pathOver {names : List String} (folder : String) (hne : names ≠ [])
    (hnames : ∀ name ∈ names, IsName name) :
    (steps (pathOver folder names)).getLast? = names.getLast? := by
  obtain ⟨init, name, rfl⟩ := (List.eq_nil_or_concat names).resolve_left hne
  have hsteps : steps name = [name] := steps_of_no_slash (hnames name (by simp)).1
  rw [List.concat_eq_append, pathOver, List.foldl_append, List.getLast?_concat, List.foldl_cons,
    List.foldl_nil, join]
  split
  · rename_i hend
    rcases hend with hempty | hslash
    · rw [String.isEmpty_iff.1 hempty, String.empty_append, hsteps, List.getLast?_singleton]
    · obtain ⟨before, hbefore⟩ := exists_of_getLast?_slash hslash
      rw [hbefore, steps_append_slash, hsteps, List.getLast?_concat]
  · rw [steps_append_slash, hsteps, List.getLast?_concat]

theorem find_eq {folder n : String} {es entries : Files} {p : List String}
    (hp : locate folder es = .ok p) (hentries : es.get? p = some (.folder n entries)) (ext : String) :
    find folder ext es = (places ext entries).map (pathOver folder) := by
  rw [find, hp]
  simp only [Except.toOption, Option.bind_some, hentries]
  rw [ownFiles_eq, findBelow_eq, ← List.map_append, places]

/-- Something is found only at the end of a path to a folder. -/
theorem exists_folder_of_find_ne_nil {folder ext : String} {es : Files} (h : find folder ext es ≠ []) :
    ∃ p n entries, locate folder es = .ok p ∧ es.get? p = some (.folder n entries) := by
  rw [find] at h
  split at h
  · rename_i n entries hfolder
    obtain ⟨p, hp, hget⟩ := Option.bind_eq_some_iff.1 hfolder
    cases hlocate : locate folder es with
    | error e => simp [hlocate, Except.toOption] at hp
    | ok q =>
      simp only [hlocate, Except.toOption, Option.some.injEq] at hp
      exact ⟨p, n, entries, by rw [hp], hget⟩
  · exact absurd rfl h

/-- A path that is found leads below the folder, to a file with the extension. -/
theorem Proper.exists_of_mem_find {es : Files} (h : Proper es) {folder ext path : String}
    (hpath : path ∈ es.find folder ext) : ∃ p names, locate folder es = .ok p ∧
      locate path es = .ok (p ++ names) ∧ (es.content? (p ++ names)).isSome = true ∧
      names.getLast?.map extension = some ext ∧ (steps path).getLast? = names.getLast? := by
  obtain ⟨p, n, entries, hp, hentries⟩ := exists_folder_of_find_ne_nil (List.ne_nil_of_mem hpath)
  rw [find_eq hp hentries] at hpath
  obtain ⟨names, hmem, rfl⟩ := List.mem_map.1 hpath
  obtain ⟨hnames, hcontent, hlast⟩ := (h.of_get? hentries).file_of_mem_places hmem
  have hget : (get? names entries).isSome = true := Option.isSome_of_isSome_bind hcontent
  have hne : names ≠ [] := by
    rintro rfl
    simp at hlast
  refine ⟨p, names, hp, locate_pathOver hp hentries hnames hget, ?_, hlast,
    getLast?_steps_pathOver folder hne hnames⟩
  obtain ⟨name, names, rfl⟩ := List.exists_cons_of_ne_nil hne
  rwa [content?, get?_append hentries]

/-- Paths that lead to different places. -/
def Apart (es : Files) (paths : List String) : Prop := (paths.map fun path => locate path es).Nodup

theorem Apart.sublist {es : Files} {paths paths' : List String} (h : es.Apart paths)
    (hs : paths'.Sublist paths) : es.Apart paths' :=
  List.Nodup.sublist (hs.map _) h

theorem Apart.ne {es : Files} {before after : List String} (h : es.Apart (before ++ after))
    {path other : String} (hp : path ∈ before) (ho : other ∈ after) : locate path es ≠ locate other es := by
  rw [Apart, List.map_append, List.nodup_append] at h
  exact h.2.2 _ (List.mem_map_of_mem hp) _ (List.mem_map_of_mem ho)

/-- Paths that are found lead to different files. -/
theorem Proper.apart_find {es : Files} (h : Proper es) (folder ext : String) :
    es.Apart (es.find folder ext) := by
  by_cases hnil : find folder ext es = []
  · simp [Apart, hnil]
  · obtain ⟨p, n, entries, hp, hentries⟩ := exists_folder_of_find_ne_nil hnil
    have hproper : Proper entries := h.of_get? hentries
    have hplaces : (find folder ext es).map (fun path => locate path es) =
        (places ext entries).map fun names => .ok (p ++ names) := by
      rw [find_eq hp hentries, List.map_map]
      refine List.map_congr_left fun names hmem => ?_
      obtain ⟨hnames, hcontent, -⟩ := hproper.file_of_mem_places hmem
      have hget : (get? names entries).isSome = true := Option.isSome_of_isSome_bind hcontent
      exact locate_pathOver hp hentries hnames hget
    rw [Apart, hplaces]
    refine (hproper.nodup_places ext).map fun a b heq => ?_
    exact List.append_cancel_left (Except.ok.inj heq)

end Files

end ResourceNames.Project
