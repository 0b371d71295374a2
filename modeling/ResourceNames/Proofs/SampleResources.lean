import ResourceNames.Proofs.Outlines
import ResourceNames.Proofs.ResourceTable
import ResourceNames.Proofs.Scanning
import ResourceNames.Sample.Survey

/-!
The sample file of resources is read back.

The file is put together from words that begin with their line break: declarations, the classes of the
groups around them, and the class around these. The row of their kinds has a single tree, in which the
reader finds the classes and declarations again. So it enters all resources in their order.
-/
namespace ResourceNames.Sample

open Java Java.Lexicon Resource Text

/-! ### The words of the file -/

def fieldHead : List (Kind × String) :=
  [(.ws, "\n        "), (.kwPublic, "public"), (.ws, " "), (.kwStatic, "static"), (.ws, " "),
    (.kwFinal, "final"), (.ws, " "), (.kwInt, "int"), (.ws, " ")]

def equals : List (Kind × String) := [(.ws, " "), (.assign, "="), (.ws, " ")]

def declarationWords (name value : String) : List (Kind × String) :=
  fieldHead ++ (Kind.identifier, name) :: (equals ++ [(Kind.decimalLiteral, value), (Kind.semi, ";")])

def resourceName (group : String) (index : Nat) : String := "res_" ++ group ++ "_" ++ toString index

def groupHead : List (Kind × String) :=
  [(.ws, "\n    "), (.kwPublic, "public"), (.ws, " "), (.kwStatic, "static"), (.ws, " "),
    (.kwFinal, "final"), (.ws, " "), (.kwClass, "class"), (.ws, " ")]

def groupOpening : List (Kind × String) := [(.ws, " "), (.lbrace, "\x7b")]

def groupClosing : List (Kind × String) := [(.ws, "\n    "), (.rbrace, "\x7d")]

def declarationsWords (group : String) (per : Nat) (id : Int) : List (Kind × String) :=
  (List.range per).flatMap fun j => declarationWords (resourceName group j) (toString (id + j))

def groupWords (group : String) (per : Nat) (id : Int) : List (Kind × String) :=
  groupHead ++ (.identifier, group) :: (groupOpening ++ (declarationsWords group per id ++ groupClosing))

def groupsWords (per : Nat) : List String → Int → List (Kind × String)
  | [], _ => []
  | group :: rest, id => groupWords group per id ++ groupsWords per rest (id + per)

def fileHead : List (Kind × String) :=
  [(.kwPackage, "package"), (.ws, " "), (.identifier, "com"), (.dot, "."), (.identifier, "example"),
    (.dot, "."), (.identifier, "app"), (.semi, ";"), (.ws, "\n"), (.kwPublic, "public"), (.ws, " "),
    (.kwFinal, "final"), (.ws, " "), (.kwClass, "class"), (.ws, " "), (.identifier, "R"), (.ws, " "),
    (.lbrace, "\x7b")]

def fileTail : List (Kind × String) := [(.ws, "\n"), (.rbrace, "\x7d"), (.ws, "\n")]

def fileWords (n : Int) : List (Kind × String) :=
  fileHead ++ (groupsWords (perGroup n) groups firstId ++ fileTail)

theorem spelled_declarationWords (group : String) (index : Nat) (id : Int) :
    '\n' :: (declaration group index id).toList =
      spelled (declarationWords (resourceName group index) (toString id)) ++ ['\n'] := by
  have hhead : '\n' :: "        public static final int res_".toList =
      spelled fieldHead ++ "res_".toList := by decide +kernel
  have hequals : spelled equals = " = ".toList := by decide +kernel
  have hsemi : ";\n".toList = ";".toList ++ ['\n'] := by decide +kernel
  unfold declaration declarationWords resourceName
  simp only [String.toList_append, spelled_append, spelled_cons]
  rewrite [hequals, hsemi]
  -- The letters of the fixed parts do not matter any more.
  generalize "        public static final int res_".toList = a at *
  generalize "res_".toList = b at *
  generalize " = ".toList = c at *
  generalize ";".toList = d at *
  generalize "_".toList = e at *
  simp only [← List.cons_append, hhead]
  simp [spelled]

theorem spelled_groupWords (group : String) (per : Nat) (id : Int) :
    '\n' :: (groupClass group per id).toList = spelled (groupWords group per id) ++ ['\n'] := by
  have hhead : '\n' :: "    public static final class ".toList = spelled groupHead := by decide +kernel
  have hopening : " \x7b\n".toList = spelled groupOpening ++ ['\n'] := by decide +kernel
  have hclosing : '\n' :: "    \x7d\n".toList = spelled groupClosing ++ ['\n'] := by decide +kernel
  have hbody := flatMap_lines (fun j : Nat => spelled_declarationWords group j (id + j)) (List.range per)
  unfold groupClass groupWords declarationsWords
  simp only [String.toList_append, String.toList_join, List.flatMap_map, spelled_append, spelled_cons]
  generalize "    public static final class ".toList = a at *
  generalize "    \x7d\n".toList = b at *
  rewrite [hopening]
  simp only [← List.cons_append, hhead, List.append_assoc, ← hclosing]
  simp only [List.cons_append, List.nil_append]
  simp only [← List.cons_append, hbody, List.append_assoc, List.singleton_append]

theorem spelled_groupsWords (per : Nat) (gs : List String) (id : Int) :
    '\n' :: (groupClasses per gs id).toList = spelled (groupsWords per gs id) ++ ['\n'] := by
  induction gs generalizing id with
  | nil => rfl
  | cons g gs ih =>
    rw [groupClasses, String.toList_append, ← List.cons_append, spelled_groupWords, List.append_assoc,
      List.singleton_append, ih, groupsWords, spelled_append, List.append_assoc]

theorem spelled_fileWords (n : Int) : (resourceFile n).toList = spelled (fileWords n) := by
  have hhead : "package com.example.app;\npublic final class R \x7b\n".toList =
      spelled fileHead ++ ['\n'] := by decide +kernel
  have htail : '\n' :: "\x7d\n".toList = spelled fileTail := by decide +kernel
  unfold resourceFile fileWords
  simp only [String.toList_append, spelled_append, ← htail]
  rewrite [hhead]
  generalize "\x7d\n".toList = a at *
  rw [List.append_assoc, List.append_assoc, List.singleton_append, ← List.cons_append,
    spelled_groupsWords, List.append_assoc, List.singleton_append]

/-! ### The words stand -/

def nameChars : List Char := "abcdefghijklmnopqrstuvwxyz_0123456789".toList

private theorem run_nameStates : Closed [remaining "res".toList] nameChars ∧
    Final [remaining "res".toList] .identifier [' '] := by
  decide +kernel

private theorem mem_nameChars_of_group : ∀ g ∈ groups, ∀ c ∈ g.toList, c ∈ nameChars := by
  decide +kernel

private theorem decimalDigits_subset : ∀ c ∈ decimalDigits, c ∈ nameChars := by
  decide

theorem stands_resourceName {group : String} (hg : group ∈ groups) (index : Nat) :
    Stands .identifier (resourceName group index).toList (some ' ') := by
  have htext : (resourceName group index).toList =
      "res".toList ++ ('_' :: group.toList ++ '_' :: (toString index).toList) := by
    simp [resourceName]
  have hchars : ∀ c ∈ '_' :: group.toList ++ '_' :: (toString index).toList, c ∈ nameChars := by
    have hline : '_' ∈ nameChars := by decide
    simp only [List.forall_mem_append, List.forall_mem_cons]
    exact ⟨⟨hline, mem_nameChars_of_group group hg⟩, hline, fun c hc =>
      decimalDigits_subset c (mem_decimalDigits hc)⟩
  rw [htext]
  exact run_nameStates.2.stands (run_nameStates.1.remaining_mem List.mem_cons_self hchars) (by simp)
    List.mem_cons_self

private theorem spaced_fixed : Spaced (some 'r') fieldHead ∧
    (∀ c ∈ decimalDigits, Spaced (some c) equals) ∧ Spaced (some '\n') [(.semi, ";")] ∧
    (∀ g ∈ groups, Spaced (some '\n') (groupHead ++ (.identifier, g) :: groupOpening)) ∧
    Spaced (some '\n') groupClosing ∧ Spaced (some '\n') fileHead ∧ Spaced none fileTail := by
  decide +kernel

private theorem lines_declaration {group : String} (hg : group ∈ groups) (index id : Nat) :
    Lines (declarationWords (resourceName group index) (toString id)) := by
  obtain ⟨hhead, hequals, hsemi, -⟩ := spaced_fixed
  have hvalue := stands_decimal id (c := ';') (by simp)
  obtain ⟨c, cs, hcs⟩ := List.exists_cons_of_ne_nil hvalue.1
  have hc : c ∈ decimalDigits := mem_decimalDigits (hcs ▸ List.mem_cons_self)
  have hname : ∃ cs, (resourceName group index).toList = 'r' :: cs := ⟨_, by simp [resourceName]; rfl⟩
  obtain ⟨ds, hds⟩ := hname
  have hnumber : Spaced (some '\n') (equals ++ [(.decimalLiteral, toString id), (.semi, ";")]) := by
    refine Spaced.append ?_ ⟨hvalue, hsemi⟩
    rw [spelled_cons, hcs]
    exact hequals c hc
  refine ⟨Spaced.append ?_ ⟨stands_resourceName hg index, hnumber⟩, ?_⟩
  · simpa [hds] using hhead
  · rintro _ ⟨⟩
    rfl

private theorem lines_groupWords {group : String} (hg : group ∈ groups) (per id : Nat) :
    Lines (groupWords group per id) := by
  obtain ⟨-, -, -, hhead, hclosing, -⟩ := spaced_fixed
  have hfirst : Lines (groupHead ++ (.identifier, group) :: groupOpening) := by
    refine ⟨hhead group hg, ?_⟩
    rintro _ ⟨⟩
    rfl
  have hlast : Lines groupClosing := by
    refine ⟨hclosing, ?_⟩
    rintro _ ⟨⟩
    rfl
  have hbody : Lines (declarationsWords group per id) := Lines.flatMap fun j _ =>
    lines_declaration hg j (id + j)
  have hwords : groupWords group per id = (groupHead ++ (.identifier, group) :: groupOpening) ++
      (declarationsWords group per id ++ groupClosing) := by
    rw [groupWords, List.append_assoc, List.cons_append]
  rw [hwords]
  exact hfirst.append (hbody.append hlast)

private theorem lines_groupsWords (per : Nat) {gs : List String} (hgs : ∀ g ∈ gs, g ∈ groups)
    (id : Nat) : Lines (groupsWords per gs id) := by
  induction gs generalizing id with
  | nil => exact .nil
  | cons g gs ih =>
    rw [List.forall_mem_cons] at hgs
    exact (lines_groupWords hgs.1 per id).append (ih hgs.2 (id + per))

theorem spaced_fileWords (n : Int) : Spaced none (fileWords n) := by
  obtain ⟨-, -, -, -, -, hhead, htail⟩ := spaced_fixed
  have hlines : Lines (groupsWords (perGroup n) groups firstId) :=
    lines_groupsWords (perGroup n) (fun _ h => h) firstId.toNat
  have hgroups : Spaced none (groupsWords (perGroup n) groups firstId ++ fileTail) :=
    Spaced.append hlines.spaced htail
  refine Spaced.append ?_ hgroups
  have hlast : (spelled fileTail).head? = some '\n' := rfl
  rw [spelled_append, List.head?_append, hlast, hlines.head?_or]
  exact hhead

end ResourceNames.Sample
