import Mathlib.Data.List.TakeWhile
import ResourceNames.Proofs.Places

/-!
What is found below a folder.

The files with an extension are listed once each, in the order `Precedes`. A path that is found is the
one of the folder, joined with the names of the folders below it and of the file.
-/
namespace ResourceNames.Project

/-! ### Extensions -/

/-- What the extension of a name is: the part from the last dot on, if something else than dots stands
before it, and nothing otherwise. -/
inductive IsExtension : List Char → List Char → Prop
  | dotted {before after : List Char} (hafter : '.' ∉ after) (hbefore : ∃ c ∈ before, c ≠ '.') :
      IsExtension (before ++ '.' :: after) ('.' :: after)
  | none {name : List Char}
      (h : ∀ before after, name = before ++ '.' :: after → '.' ∉ after → ∀ c ∈ before, c = '.') :
      IsExtension name []

/-- There is only one last dot. -/
private theorem after_unique {a b a' b' : List Char} (hb : '.' ∉ b) (hb' : '.' ∉ b')
    (h : a ++ '.' :: b = a' ++ '.' :: b') : a = a' ∧ b = b' := by
  rcases List.append_eq_append_iff.1 h with ⟨cs, rfl, hcs⟩ | ⟨cs, rfl, hcs⟩
  · cases cs with
    | nil => simpa using hcs
    | cons c cs =>
      obtain ⟨-, rfl⟩ := List.cons.inj hcs
      simp at hb
  · cases cs with
    | nil => simpa using hcs.symm
    | cons c cs =>
      obtain ⟨-, rfl⟩ := List.cons.inj hcs
      simp at hb'

theorem IsExtension.unique {name ext ext' : List Char} (h : IsExtension name ext)
    (h' : IsExtension name ext') : ext = ext' := by
  cases h with
  | @dotted before after hafter hbefore =>
    generalize hname : before ++ '.' :: after = name at h'
    cases h' with
    | dotted hafter' => rw [(after_unique hafter hafter' hname).2]
    | none hnone =>
      obtain ⟨c, hc, hdot⟩ := hbefore
      exact absurd (hnone before after hname.symm hafter c hc) hdot
  | none hnone =>
    cases h' with
    | dotted hafter hbefore =>
      obtain ⟨c, hc, hdot⟩ := hbefore
      exact absurd (hnone _ _ rfl hafter c hc) hdot
    | none => rfl

/-- A list with a dot is what stands before the last one, the dot, and what follows. -/
private theorem split_last_dot {chars : List Char} (h : '.' ∈ chars) :
    ∃ before, chars = before ++ '.' :: (chars.reverse.takeWhile (· ≠ '.')).reverse := by
  have hcut : chars.reverse.takeWhile (· ≠ '.') ++ chars.reverse.dropWhile (· ≠ '.') = chars.reverse :=
    List.takeWhile_append_dropWhile
  have hafter : ∀ c ∈ chars.reverse.takeWhile (· ≠ '.'), c ≠ '.' := fun c hc => by
    simpa using List.mem_takeWhile_imp hc
  have hrest := List.head?_dropWhile_not (fun c : Char => decide (c ≠ '.')) chars.reverse
  generalize chars.reverse.takeWhile (· ≠ '.') = after at hcut hafter
  generalize chars.reverse.dropWhile (· ≠ '.') = rest at hcut hrest
  have hchars : chars = rest.reverse ++ after.reverse := by
    rw [← List.reverse_append, hcut, List.reverse_reverse]
  cases rest with
  | nil =>
    rw [hchars] at h
    exact absurd rfl (hafter '.' (by simpa using h))
  | cons c rest =>
    obtain rfl : c = '.' := by simpa using hrest
    exact ⟨rest.reverse, by simpa using hchars⟩

theorem isExtension_extension (name : String) : IsExtension name.toList (extension name).toList := by
  have hcut : name.toList.takeWhile (· = '.') ++ name.toList.dropWhile (· = '.') = name.toList :=
    List.takeWhile_append_dropWhile
  have hdots : ∀ c ∈ name.toList.takeWhile (· = '.'), c = '.' := fun c hc => by
    simpa using List.mem_takeWhile_imp hc
  have hhead := List.head?_dropWhile_not (fun c : Char => decide (c = '.')) name.toList
  rw [extension]
  generalize name.toList.takeWhile (· = '.') = dots at hcut hdots
  generalize name.toList.dropWhile (· = '.') = body at hcut hhead
  simp only [List.contains_iff_mem]
  split
  · rename_i hmem
    obtain ⟨before, hbefore⟩ := split_last_dot hmem
    -- the body begins with another character, which stands before its last dot
    have hfirst : ∃ c ∈ dots ++ before, c ≠ '.' := by
      rw [hbefore] at hhead
      cases before with
      | nil => simp at hhead
      | cons c before => exact ⟨c, by simp, by simpa using hhead⟩
    have hafter : '.' ∉ (body.reverse.takeWhile (· ≠ '.')).reverse := fun hin => by
      simpa using List.mem_takeWhile_imp (List.mem_reverse.1 hin)
    have hname : name.toList = (dots ++ before) ++ '.' :: (body.reverse.takeWhile (· ≠ '.')).reverse := by
      rw [← hcut, List.append_assoc, ← hbefore]
    rw [hname, String.toList_ofList]
    exact .dotted hafter hfirst
  · rename_i hnone
    refine .none fun before after hname hafter => ?_
    rw [← hcut] at hname
    rcases List.append_eq_append_iff.1 hname with ⟨cs, -, hcs⟩ | ⟨cs, hcs, -⟩
    · exact absurd (hcs ▸ by simp) hnone
    · exact fun c hc => hdots c (hcs ▸ List.mem_append_left _ hc)

theorem extension_eq_iff {name ext : String} :
    extension name = ext ↔ IsExtension name.toList ext.toList := by
  constructor
  · rintro rfl
    exact isExtension_extension name
  · intro h
    exact String.toList_inj.1 ((isExtension_extension name).unique h)

namespace Files

/-! ### Places of files -/

/-- A file with the extension is at one of the places. -/
theorem mem_places_of_content? {ext name : String} {place : List String} {es : Files}
    (hcontent : (es.content? place).isSome = true) (hlast : place.getLast? = some name)
    (hext : extension name = ext) : place ∈ places ext es := by
  induction place generalizing es with
  | nil => cases hlast
  | cons first names ih =>
    cases he : entry? first es with
    | none => simp [content?, get?_none he] at hcontent
    | some e =>
      have hmem : e ∈ es := List.mem_of_find?_eq_some he
      have hname : e.name = first := by simpa using List.find?_some he
      cases e with
      | file n c =>
        rw [content?, get?_file he] at hcontent
        cases names with
        | nil =>
          obtain rfl : first = name := by simpa using hlast
          subst hname
          exact mem_places.2 (.inl ⟨_, c, hmem, hext, rfl⟩)
        | cons => simp at hcontent
      | folder n entries =>
        rw [content?, get?_folder he] at hcontent
        cases names with
        | nil => simp [Entry.content?] at hcontent
        | cons next names =>
          subst hname
          exact mem_places.2 (.inr ⟨_, entries, _, hmem, ih hcontent hlast, rfl⟩)

/-- Exactly the places of files with the extension are listed. -/
theorem Proper.mem_places_iff {es : Files} (h : Proper es) {ext : String} {place : List String} :
    place ∈ places ext es ↔ (es.content? place).isSome = true ∧
      ∃ name, place.getLast? = some name ∧ extension name = ext := by
  constructor
  · intro hmem
    obtain ⟨-, hcontent, hlast⟩ := h.file_of_mem_places hmem
    exact ⟨hcontent, Option.map_eq_some_iff.1 hlast⟩
  · rintro ⟨hcontent, name, hlast, hext⟩
    exact mem_places_of_content? hcontent hlast hext

theorem content?_append {p names : List String} {n : String} {es entries : Files}
    (h : es.get? p = some (.folder n entries)) : es.content? (p ++ names) = entries.content? names := by
  cases names with
  | nil => rw [List.append_nil, content?, content?, h, get?_nil]; rfl
  | cons name names => rw [content?, get?_append h]; rfl

/-! ### Spelling -/

theorem join_join {folder name rest : String} (hname : IsName name) :
    join (join folder name) rest = join folder (name ++ "/" ++ rest) := by
  obtain ⟨hslash, hne, -⟩ := hname
  have hlast : ∀ before : String, ¬((before ++ name).isEmpty = true ∨
      (before ++ name).toList.getLast? = some '/') := by
    intro before
    rw [not_or]
    refine ⟨by simp [hne], fun hend => hslash ?_⟩
    have hchars : name.toList ≠ [] := fun hnil => hne (String.toList_eq_nil_iff.1 hnil)
    rw [String.toList_append, List.getLast?_append_of_ne_nil _ hchars] at hend
    exact List.mem_of_getLast? hend
  rw [join.eq_1 (join folder name), join, join]
  split
  · rw [if_neg (hlast folder)]
    simp only [String.append_assoc]
  · rw [if_neg (hlast (folder ++ "/"))]
    simp only [String.append_assoc]

/-- A path over names is the folder joined with the names, with slashes between them. -/
theorem pathOver_eq_join {names : List String} (folder : String) (hne : names ≠ [])
    (hnames : ∀ name ∈ names, IsName name) :
    pathOver folder names = join folder ("/".intercalate names) := by
  induction names generalizing folder with
  | nil => exact absurd rfl hne
  | cons name names ih =>
    cases names with
    | nil => rw [String.intercalate_singleton]; rfl
    | cons next names =>
      calc pathOver folder (name :: next :: names)
        _ = pathOver (join folder name) (next :: names) := rfl
        _ = join (join folder name) ("/".intercalate (next :: names)) :=
            ih _ (by simp) fun name h => hnames name (.tail _ h)
        _ = join folder ("/".intercalate (name :: next :: names)) := by
            rw [join_join (hnames name (by simp)), String.intercalate_cons_cons]

/-! ### The listing -/

/-- Below the folder at the end of a path, exactly the files with the extension are found, each of them
once and in the order of places, and each by the path joined with its names. Every path that is found
can be read, so none leads to a folder. Nothing is found if the path leads to no folder. -/
theorem find_lists_files_below {es : Files} (proper : Proper es) (path ext : String) :
    (∀ place, locate path es = .ok place → (es.get? place).map Entry.isFolder = some true →
      ∃ below : List (List String),
        find path ext es = below.map (fun names => join path ("/".intercalate names)) ∧
        below.Pairwise Precedes ∧
        ∀ names, names ∈ below ↔ (es.content? (place ++ names)).isSome = true ∧
          ∃ name, names.getLast? = some name ∧ IsExtension name.toList ext.toList) ∧
    (find path ext es).Nodup ∧
    (∀ file ∈ find path ext es, ∃ content, read file es = .ok content) ∧
    ((∀ place, locate path es = .ok place → (es.get? place).map Entry.isFolder ≠ some true) →
      find path ext es = []) := by
  refine ⟨fun place hplace hfolder => ?_, ?_, fun file hfile => ?_, fun hnone => ?_⟩
  · obtain ⟨e, hget, hkind⟩ := Option.map_eq_some_iff.1 hfolder
    cases e with
    | file => cases hkind
    | folder n entries =>
      have hproper : Proper entries := proper.of_get? hget
      refine ⟨places ext entries, ?_, hproper.ordered_places ext, fun names => ?_⟩
      · rw [find_eq hplace hget]
        refine List.map_congr_left fun names hmem => ?_
        exact pathOver_eq_join path (ne_nil_of_mem_places hmem) (hproper.file_of_mem_places hmem).1
      · simp only [hproper.mem_places_iff, content?_append hget, extension_eq_iff]
  · exact List.Nodup.of_map _ (proper.apart_find path ext)
  · obtain ⟨p, names, -, hlocate, hcontent, -⟩ := proper.exists_of_mem_find hfile
    obtain ⟨content, hcontent⟩ := Option.isSome_iff_exists.1 hcontent
    exact ⟨content, read_of_content? hlocate hcontent⟩
  · by_contra hfound
    obtain ⟨place, n, entries, hplace, hget⟩ := exists_folder_of_find_ne_nil hfound
    exact hnone place hplace (by rw [hget]; rfl)

/-- A folder with the name of a file is no file; a file below it is found. -/
theorem find_below_folder_named_like_file : ∃ es : Files, Proper es ∧
    locate "src/" es = .ok ["src"] ∧ (es.get? ["src"]).map Entry.isFolder = some true ∧
    ((es.get? ["src", "x.java"]).map Entry.isFolder = some true ∧
      (es.content? ["src", "x.java", "b.java"]).isSome = true) ∧
    ∃ below : List (List String),
      find "src/" ".java" es = below.map (fun names => join "src/" ("/".intercalate names)) ∧
      below.Pairwise Precedes ∧ ["x.java"] ∉ below ∧ ["x.java", "b.java"] ∈ below := by
  obtain ⟨es, hes⟩ : ∃ es, es = ofList [("src/x.java/b.java", .empty), ("src/a.java", .empty)] := ⟨_, rfl⟩
  have hproper : Proper es := hes ▸ proper_ofList (by decide +kernel)
  have hplace : locate "src/" es = .ok ["src"] := hes ▸ rfl
  have hsrc : (es.get? ["src"]).map Entry.isFolder = some true := hes ▸ rfl
  have hfolder : (es.get? ["src", "x.java"]).map Entry.isFolder = some true := hes ▸ rfl
  have hfile : (es.content? ["src", "x.java", "b.java"]).isSome = true := hes ▸ rfl
  obtain ⟨below, hfind, hordered, hmem⟩ :=
    (find_lists_files_below hproper "src/" ".java").1 ["src"] hplace hsrc
  refine ⟨es, hproper, hplace, hsrc, ⟨hfolder, hfile⟩, below, hfind, hordered, ?_, ?_⟩
  · intro hin
    have hnone : (es.content? ["src", "x.java"]).isSome = false := hes ▸ rfl
    exact absurd ((hmem ["x.java"]).1 hin).1 (by simp [hnone])
  · refine (hmem ["x.java", "b.java"]).2 ⟨hfile, "b.java", rfl, ?_⟩
    have hext : IsExtension (['b'] ++ '.' :: ['j', 'a', 'v', 'a']) ['.', 'j', 'a', 'v', 'a'] :=
      .dotted (by simp) ⟨'b', List.mem_singleton_self 'b', by decide⟩
    exact hext

end Files

end ResourceNames.Project
