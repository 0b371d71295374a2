import ResourceNames.Proofs.ReadSamples

/-!
The sample consumers are restored.

A consumer is put together from words as the sample file is: a head, a line for each use, and a tail. The
block of its first method is a row of statements, one for each use. So the file has no mistake, and its
numbers in base sixteen are those of the uses, with thirteen tokens from each of them to the next.
-/
namespace ResourceNames.Sample

open Java Java.Lexicon Resource Text

/-! ### The words of a consumer -/

def consumerHead : List (Kind × String) :=
  [(.kwPackage, "package"), (.ws, " "), (.identifier, "com"), (.dot, "."), (.identifier, "example"),
    (.dot, "."), (.identifier, "app"), (.semi, ";"), (.ws, "\n"), (.kwImport, "import"), (.ws, " "),
    (.identifier, "android"), (.dot, "."), (.identifier, "view"), (.dot, "."), (.identifier, "View"),
    (.semi, ";"), (.ws, "\n"), (.kwPublic, "public"), (.ws, " "), (.kwClass, "class"), (.ws, " "),
    (.identifier, "Consumer"), (.ws, " "), (.lbrace, "\x7b"), (.ws, "\n    "), (.kwPublic, "public"),
    (.ws, " "), (.kwInt, "int"), (.ws, " "), (.identifier, "use"), (.lparen, "("), (.rparen, ")"),
    (.ws, " "), (.lbrace, "\x7b"), (.ws, "\n        "), (.kwInt, "int"), (.ws, " "),
    (.identifier, "acc"), (.ws, " "), (.assign, "="), (.ws, " "), (.decimalLiteral, "0"), (.semi, ";")]

def usageHead : List (Kind × String) :=
  [(.ws, "\n        "), (.identifier, "acc"), (.ws, " "), (.addAssign, "+="), (.ws, " "),
    (.identifier, "call"), (.lparen, "(")]

def argumentGap : List (Kind × String) := [(.comma, ","), (.ws, " ")]

def usageEnd : List (Kind × String) := [(.rparen, ")"), (.semi, ";")]

def usageWords (id : Int) (index : Nat) : List (Kind × String) :=
  usageHead ++ (.hexLiteral, "0x" ++ paddedHex id) ::
    (argumentGap ++ (.decimalLiteral, toString index) :: usageEnd)

def consumerTail : List (Kind × String) :=
  [(.ws, "\n        "), (.kwReturn, "return"), (.ws, " "), (.identifier, "acc"), (.semi, ";"),
    (.ws, "\n    "), (.rbrace, "\x7d"), (.ws, "\n    "), (.kwPrivate, "private"), (.ws, " "),
    (.kwInt, "int"), (.ws, " "), (.identifier, "call"), (.lparen, "("), (.kwInt, "int"), (.ws, " "),
    (.identifier, "a"), (.comma, ","), (.ws, " "), (.kwInt, "int"), (.ws, " "), (.identifier, "b"),
    (.rparen, ")"), (.ws, " "), (.lbrace, "\x7b"), (.ws, " "), (.kwReturn, "return"), (.ws, " "),
    (.identifier, "a"), (.ws, " "), (.add, "+"), (.ws, " "), (.identifier, "b"), (.semi, ";"),
    (.ws, " "), (.rbrace, "\x7d"), (.ws, "\n"), (.rbrace, "\x7d"), (.ws, "\n")]

def usagesWords (id : Nat → Int) (n : Nat) : List (Kind × String) :=
  (List.range n).flatMap fun i => usageWords (id i) i

def consumerWords (id : Nat → Int) (n : Nat) : List (Kind × String) :=
  consumerHead ++ (usagesWords id n ++ consumerTail)

private theorem spelled_usageWords (id : Int) (index : Nat) :
    '\n' :: (usage id index).toList = spelled (usageWords id index) ++ ['\n'] := by
  have hhead : '\n' :: "        acc += call(0x".toList = spelled usageHead ++ "0x".toList := by
    decide +kernel
  have hgap : spelled argumentGap = ", ".toList := by decide +kernel
  have hend : ");\n".toList = spelled usageEnd ++ ['\n'] := by decide +kernel
  unfold usage usageWords
  simp only [String.toList_append, spelled_append, spelled_cons]
  rewrite [hgap, hend]
  generalize "        acc += call(0x".toList = a at *
  generalize "0x".toList = b at *
  generalize ", ".toList = c at *
  simp only [← List.cons_append, hhead, List.append_assoc]

private theorem spelled_consumerWords (n base span : Nat) :
    (consumer n base span).toList = spelled (consumerWords (usedId base span) n) := by
  have hhead : "package com.example.app;\nimport android.view.View;\npublic class Consumer \x7b\n".toList ++
      "    public int use() \x7b\n        int acc = 0;\n".toList = spelled consumerHead ++ ['\n'] := by
    decide +kernel
  have htail : '\n' :: ("        return acc;\n    \x7d\n".toList ++
      "    private int call(int a, int b) \x7b return a + b; \x7d\n\x7d\n".toList) =
      spelled consumerTail := by
    decide +kernel
  have hbody := flatMap_lines (fun i : Nat => spelled_usageWords (usedId base span i) i) (List.range n)
  unfold consumer consumerWords usagesWords
  simp only [String.toList_append, String.toList_join, List.flatMap_map, spelled_append, Int.toNat_natCast]
  generalize "package com.example.app;\nimport android.view.View;\npublic class Consumer \x7b\n".toList = a at *
  generalize "    public int use() \x7b\n        int acc = 0;\n".toList = b at *
  generalize "        return acc;\n    \x7d\n".toList = c at *
  generalize "    private int call(int a, int b) \x7b return a + b; \x7d\n\x7d\n".toList = d at *
  rw [hhead, ← htail, List.append_assoc, List.append_assoc, List.append_assoc, List.singleton_append,
    ← List.cons_append, hbody, List.append_assoc, List.singleton_append]

/-! ### The words stand -/

private theorem spaced_parts : Spaced (some '0') usageHead ∧
    (∀ c ∈ decimalDigits, Spaced (some c) argumentGap) ∧ Spaced (some '\n') usageEnd ∧
    Spaced (some '\n') consumerHead ∧ Spaced none consumerTail := by
  decide +kernel

private theorem lines_usageWords (id index : Nat) : Lines (usageWords id index) := by
  obtain ⟨hhead, hgap, hend, -⟩ := spaced_parts
  have hindex := stands_decimal index (c := ')') (by simp)
  obtain ⟨c, cs, hcs⟩ := List.exists_cons_of_ne_nil hindex.1
  have hc : c ∈ decimalDigits := mem_decimalDigits (hcs ▸ List.mem_cons_self)
  have hrest : Spaced (some '\n') (argumentGap ++ (.decimalLiteral, toString index) :: usageEnd) := by
    refine Spaced.append ?_ ⟨hindex, hend⟩
    rw [spelled_cons, hcs]
    exact hgap c hc
  refine ⟨Spaced.append ?_ ⟨stands_hex id, hrest⟩, ?_⟩
  · simpa using hhead
  · rintro _ ⟨⟩
    rfl

private theorem spaced_consumerWords (id : Nat → Nat) (n : Nat) :
    Spaced none (consumerWords (fun i => id i) n) := by
  obtain ⟨-, -, -, hhead, htail⟩ := spaced_parts
  have hlines : Lines (usagesWords (fun i => id i) n) := Lines.flatMap fun i _ => lines_usageWords (id i) i
  refine Spaced.append ?_ (Spaced.append hlines.spaced htail)
  have hlast : (spelled consumerTail).head? = some '\n' := rfl
  rw [spelled_append, List.head?_append, hlast, hlines.head?_or]
  exact hhead

/-! ### A consumer is a sentence -/

def startKinds : List Kind := [.kwInt, .identifier, .assign, .decimalLiteral, .semi]

def usageKinds : List Kind :=
  [.identifier, .addAssign, .identifier, .lparen, .hexLiteral, .comma, .decimalLiteral, .rparen, .semi]

def returnKinds : List Kind := [.kwReturn, .identifier, .semi]

/-- The kinds of a consumer around the block of its first method. -/
def consumerRow : Row :=
  ([.kwPackage, .identifier, .dot, .identifier, .dot, .identifier, .semi, .kwImport, .identifier, .dot,
    .identifier, .dot, .identifier, .semi, .kwPublic, .kwClass, .identifier, .lbrace, .kwPublic, .kwInt,
    .identifier, .lparen, .rparen] : List Kind).map some ++
  none :: ([.kwPrivate, .kwInt, .identifier, .lparen, .kwInt, .identifier, .comma, .kwInt, .identifier,
    .rparen, .lbrace, .kwReturn, .identifier, .add, .identifier, .semi, .rbrace, .rbrace, .eof] : List Kind).map some

private theorem ways_statements : ∀ ks ∈ [startKinds, usageKinds, returnKinds],
    (Rule.ways none 30 .blockStatement (ks.map some)).isWhole = true := by
  decide +kernel

private theorem ways_consumer : ((Grammar.body .compilationUnit).ways (some .lbrace)
    (Rule.ways (some (.block, .lbrace)) 30) .compilationUnit consumerRow).isWhole = true := by
  decide +kernel

def usesBlock (n : Nat) : List Kind :=
  .lbrace :: ((startKinds :: (List.replicate n usageKinds ++ [returnKinds])).flatten ++ [.rbrace])

private theorem block_encloses : Rule.Encloses .block .blockStatement := rfl

private theorem spells_consumer (n : Nat) :
    Rule.compilationUnit.Spells (consumerRow.fill (usesBlock n)) := by
  have hblock : Rule.block.Spells (usesBlock n) := by
    refine block_encloses.spells fun ks hks => Rule.spells_of_ways (ways_statements ks ?_)
    rcases List.mem_cons.mp hks with rfl | hks
    · exact List.mem_cons_self
    · rcases List.mem_append.mp hks with hks | hks
      · rw [List.eq_of_mem_replicate hks]
        simp
      · rw [List.mem_singleton.mp hks]
        simp
  have hgap : ∀ q k, (some (.block, .lbrace) : Gap) = some (q, k) → q.Spells (usesBlock n) := by
    rintro _ _ ⟨⟩
    exact hblock
  exact (Rule.over_body (Rule.over_ways hgap 30) .compilationUnit _).whole ways_consumer

private theorem kinds_usagesWords (id : Nat → Int) (n : Nat) :
    (seen (usagesWords id n)).map Prod.fst = (List.replicate n usageKinds).flatten := by
  rw [usagesWords, seen_flatMap, List.map_flatMap, List.flatMap_def]
  have hline : (List.range n).map (fun i => (seen (usageWords (id i) i)).map Prod.fst) =
      (List.range n).map fun _ => usageKinds := rfl
  rw [hline, List.map_const', List.length_range]

private theorem kinds_consumerWords (id : Nat → Int) (n : Nat) :
    (seen (consumerWords id n)).map Prod.fst ++ [.eof] = consumerRow.fill (usesBlock n) := by
  rw [consumerWords, seen_append, seen_append, List.map_append, List.map_append, kinds_usagesWords,
    usesBlock, List.flatten_cons, List.flatten_append, List.flatten_singleton]
  generalize (List.replicate n usageKinds).flatten = ks
  simp [consumerRow, startKinds, returnKinds, seen, consumerHead, consumerTail, Kind.isHidden]

/-! ### The uses are replaced -/

private theorem length_usagesWords (id : Nat → Int) (n : Nat) : (usagesWords id n).length = 13 * n := by
  induction n with
  | zero => rfl
  | succ n ih =>
    rw [usagesWords, List.range_succ, List.flatMap_append, List.length_append, ← usagesWords, ih]
    rfl

private theorem usedId_natCast (base span i : Nat) :
    usedId base span i = ((base + if span = 0 then 0 else i % span : Nat) : Int) := by
  unfold usedId
  split <;> simp_all [Int.fmod_eq_emod]

/-- The replacements in the uses. -/
private theorem filterMap_usagesWords (table : Table) (id : Nat → Nat) (k n : Nat) :
    ((usagesWords (fun i => id i) n).zipIdx k).filterMap table.renaming? =
      (List.range n).filterMap fun i => (table.get? (id i)).map fun name =>
        some (.replace (k + 7 + 13 * i) (k + 7 + 13 * i) name) := by
  induction n with
  | zero => rfl
  | succ n ih =>
    have hline : ((usageWords (id n) n).zipIdx (k + 13 * n)).filterMap table.renaming? =
        ((table.get? (id n)).map fun name =>
          some (Edit.replace (k + 7 + 13 * n) (k + 7 + 13 * n) name)).toList := by
      have hend : ∀ m, ((argumentGap ++ (.decimalLiteral, toString n) :: usageEnd).zipIdx m).filterMap
          table.renaming? = [] := fun _ => rfl
      have hhead : ∀ m, (usageHead.zipIdx m).filterMap table.renaming? = [] := fun _ => rfl
      have hplace : k + 13 * n + usageHead.length = k + 7 + 13 * n := by
        rw [usageHead]
        simp only [List.length_cons, List.length_nil]
        omega
      have hname : table.nameOf? (.hexLiteral, "0x" ++ paddedHex (id n)) = table.get? (id n) := by
        rw [Table.nameOf?, if_pos rfl, readNumeral_paddedHex]
      rw [usageWords, List.zipIdx_append, List.filterMap_append, hhead, List.zipIdx_cons, hplace,
        List.nil_append, List.filterMap_cons, hend, Table.renaming?, hname]
      cases table.get? (id n) <;> rfl
    rw [usagesWords, List.range_succ, List.flatMap_append, List.zipIdx_append, List.filterMap_append,
      ← usagesWords, ih, length_usagesWords, List.flatMap_singleton, hline, List.filterMap_append,
      List.filterMap_cons, List.filterMap_nil]
    cases table.get? (id n) <;> rfl

private theorem filterMap_consumerWords (table : Table) (id : Nat → Nat) (n : Nat) :
    (consumerWords (fun i => id i) n).zipIdx.filterMap table.renaming? =
      (List.range n).filterMap fun i => (table.get? (id i)).map fun name =>
        some (.replace (51 + 13 * i) (51 + 13 * i) name) := by
  have hhead : (consumerHead.zipIdx 0).filterMap table.renaming? = [] := rfl
  have htail : ∀ k, (consumerTail.zipIdx k).filterMap table.renaming? = [] := fun _ => rfl
  have hlength : 0 + consumerHead.length = 44 := rfl
  rw [consumerWords, List.zipIdx_append, List.zipIdx_append, List.filterMap_append, List.filterMap_append,
    hhead, htail, hlength, filterMap_usagesWords, List.append_nil, List.nil_append]

private theorem readable_consumerWords (id : Nat → Nat) (n : Nat) :
    ∀ w ∈ consumerWords (fun i => id i) n, w.1 = .hexLiteral → ∃ v, readNumeral .sixteen w.2 = .ok v := by
  have hfixed : ∀ w ∈ consumerHead ++ (consumerTail ++ (usageHead ++ (argumentGap ++ usageEnd))),
      w.1 ≠ .hexLiteral := by
    decide
  simp only [List.forall_mem_append] at hfixed
  intro w hw hkind
  simp only [consumerWords, usagesWords, usageWords, List.mem_append, List.mem_flatMap, List.mem_cons] at hw
  rcases hw with hw | ⟨i, -, hw | rfl | hw | rfl | hw⟩ | hw
  · exact absurd hkind (hfixed.1 w hw)
  · exact absurd hkind (hfixed.2.2.1 w hw)
  · exact ⟨id i, readNumeral_paddedHex (id i)⟩
  · exact absurd hkind (hfixed.2.2.2.1 w hw)
  · cases hkind
  · exact absurd hkind (hfixed.2.2.2.2 w hw)
  · exact absurd hkind (hfixed.2.1 w hw)

/-- How the sample consumers are read and restored. -/
private theorem consumer_facts (n base span : Nat) {o : Tree × Outcome}
    (ho : o = (Parser.ofSource (.ofString (consumer n base span))).parse .compilationUnit) (table : Table) :
    (Source.ofString (consumer n base span)).tokens.size = 84 + 13 * n ∧
    (Source.ofString (consumer n base span)).errors = [] ∧ o.2.halt = none ∧ o.2.parser.reports = [] ∧
    ∃ r, ({} : Restorer).restore table o.1 = .ok r ∧
      r.program = ((List.range n).filterMap fun i =>
        (table.get? (base + if span = 0 then 0 else i % span : Nat)).map fun name =>
          some (.replace (51 + 13 * i) (51 + 13 * i) name)) ∧
      r.count = r.program.length := by
  have hids : usedId base span = fun i => ((base + if span = 0 then 0 else i % span : Nat) : Int) :=
    funext (usedId_natCast base span)
  have hspelled := spelled_consumerWords n base span
  rw [hids] at hspelled
  have hspaced := spaced_consumerWords (fun i => base + if span = 0 then 0 else i % span) n
  have hkinds := kinds_consumerWords (fun i => ((base + if span = 0 then 0 else i % span : Nat) : Int)) n
  obtain ⟨herrors, hhalt, hreports, -⟩ := Session.Reachable.start.reads_words hspaced hspelled
    (hkinds ▸ spells_consumer n) ho
  obtain ⟨r, hr, hprogram, hcount⟩ := Session.Reachable.start.restores_words hspaced hspelled ho hreports
    (readable_consumerWords _ n) table
  refine ⟨?_, herrors, hhalt, hreports, r, hr, ?_, hcount⟩
  · obtain ⟨hwords, -⟩ := Source.words_of_spaced hspaced hspelled
    have hlength := congrArg List.length hwords
    rw [List.length_map, consumerWords, List.length_append, List.length_append, length_usagesWords] at hlength
    rw [← Array.length_toList, Source.toList_tokens_ofString, List.length_append, hlength]
    simp only [consumerHead, consumerTail, List.length_cons, List.length_nil]
    omega
  · rw [hprogram]
    exact filterMap_consumerWords table _ n

/-- Uses that go around all resources of a file are all replaced by names from it. -/
private theorem surveyConsumer_eq (n : Nat) (h : (Nat.toDigits 10 (lastId (askedFor n))).length ≤ 4300) :
    surveyConsumer n = (n, 84 + 13 * n) := by
  have hspan : 0 < resourceCount (askedFor n) := by
    have hper : 1 ≤ perGroup (askedFor n) := le_max_left ..
    rw [resourceCount_eq]
    exact Nat.mul_pos (by decide) hper
  have htext : roundConsumer n = consumer n firstId.toNat (resourceCount (askedFor n)) := by
    rw [roundConsumer, max_eq_right (by exact_mod_cast hspan)]
    rfl
  obtain ⟨hsize, -, -, -, r, hr, hprogram, hcount⟩ := consumer_facts n firstId.toNat
    (resourceCount (askedFor n)) rfl (resourceTable (askedFor n))
  have hall : r.program.length = n := by
    rw [hprogram, List.length_filterMap_eq_countP, List.countP_eq_length.mpr, List.length_range]
    intro i _
    rw [if_neg (Nat.ne_of_gt hspan), Option.isSome_map]
    exact isSome_get?_resourceTable (Nat.mod_lt i hspan)
  rw [surveyConsumer, surveySource, surveyResources_eq h, htext]
  simp only [hr, hsize, Visited.ok, hcount, hall]

/-- A sample consumer has no mistake, and it is restored use by use: the number of each use gives way to
its name, if it has one. If the uses go around the resources of a file, each of them has a name. -/
theorem consumer_is_restored (n base span : Nat) (table : Table) :
    (Source.ofString (consumer n base span)).tokens.size = 84 + 13 * n ∧
    (Source.ofString (consumer n base span)).errors = [] ∧
    let o := (Parser.ofSource (.ofString (consumer n base span))).parse .compilationUnit
    let name? := fun i : Nat => table.get? ((base + if span = 0 then 0 else i % span : Nat) : Int)
    o.2.halt = none ∧ o.2.parser.reports = [] ∧
    (∃ r, ({} : Restorer).restore table o.1 = .ok r ∧
      r.program = ((List.range n).filterMap fun i =>
        (name? i).map fun name => some (.replace (51 + 13 * i) (51 + 13 * i) name)) ∧
      r.count = ((List.range n).filter fun i => (name? i).isSome).length) ∧
    ((Nat.toDigits 10 (lastId (askedFor n))).length ≤ 4300 → surveyConsumer n = (n, 84 + 13 * n)) := by
  generalize ho : (Parser.ofSource (.ofString (consumer n base span))).parse .compilationUnit = o
  obtain ⟨hsize, herrors, hhalt, hreports, r, hr, hprogram, hcount⟩ := consumer_facts n base span ho.symm table
  refine ⟨hsize, herrors, hhalt, hreports, ⟨r, hr, hprogram, ?_⟩, surveyConsumer_eq n⟩
  rw [hcount, hprogram, List.length_filterMap_eq_countP, ← List.countP_eq_length_filter]
  simp

end ResourceNames.Sample
