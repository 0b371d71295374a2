import ResourceNames.Proofs.Points

/-!
The forms of the grammar.

`Layout.Holds f` says that a form is part of the body of some rule. The rules that such a form
calls, the kinds it reads and the points after the rounds of its loops are listed from its parts.
-/
namespace ResourceNames.Java

namespace Form

mutual

def parts : Form → List Form
  | .token here next kind field => [.token here next kind field]
  | .oneOf here next kinds field => [.oneOf here next kinds field]
  | .call here next rule level field => [.call here next rule level field]
  | .seq entry fs => .seq entry fs :: partsAll fs
  | .choice start join alts => .choice start join alts :: partsAll alts
  | .opt start join alts => .opt start join alts :: partsAll alts
  | .star entry back next body => .star entry back next body :: body.parts
  | .plus start back next body => .plus start back next body :: body.parts

def partsAll : List Form → List Form
  | [] => []
  | f :: fs => f.parts ++ partsAll fs

end

theorem mem_partsAll {g : Form} {fs : List Form} : g ∈ partsAll fs ↔ ∃ f ∈ fs, g ∈ f.parts := by
  induction fs with
  | nil => simp [partsAll]
  | cons f fs ih => simp [partsAll, ih]

@[simp] theorem mem_parts_self (f : Form) : f ∈ f.parts := by
  cases f <;> simp [parts]

mutual

theorem parts_trans {g h : Form} (f : Form) (hg : g ∈ f.parts) (hh : h ∈ g.parts) :
    h ∈ f.parts := by
  cases f with
  | token | oneOf | call =>
    simp only [parts, List.mem_singleton] at hg
    exact hg ▸ hh
  | seq entry fs | choice start join fs | opt start join fs =>
    rcases List.mem_cons.mp hg with rfl | hg
    · exact hh
    · exact List.mem_cons_of_mem _ (partsAll_trans fs hg hh)
  | star entry back next body | plus start back next body =>
    rcases List.mem_cons.mp hg with rfl | hg
    · exact hh
    · exact List.mem_cons_of_mem _ (parts_trans body hg hh)

private theorem partsAll_trans {g h : Form} (fs : List Form) (hg : g ∈ partsAll fs)
    (hh : h ∈ g.parts) : h ∈ partsAll fs := by
  cases fs with
  | nil => simp [partsAll] at hg
  | cons f fs =>
    rcases List.mem_append.mp hg with hg | hg
    · exact List.mem_append_left _ (parts_trans f hg hh)
    · exact List.mem_append_right _ (partsAll_trans fs hg hh)

end

def callee? : Form → Option Rule
  | .call _ _ rule .. => some rule
  | _ => none

def ownKinds : Form → List Kind
  | .token _ _ kind _ => [kind]
  | .oneOf _ _ kinds _ => kinds
  | _ => []

def back? : Form → Option Point
  | .star _ back .. => some back
  | .plus _ back .. => some back
  | _ => none

def calls (f : Form) : List Rule := f.parts.filterMap callee?

def kinds (f : Form) : List Kind := f.parts.flatMap ownKinds

theorem calls_partsAll (fs : List Form) :
    (partsAll fs).filterMap callee? = fs.flatMap calls := by
  induction fs with
  | nil => rfl
  | cons f fs ih => simp [partsAll, calls, ih]

@[simp] theorem calls_token (here next : Point) (kind : Kind) (field : Option Field) :
    (Form.token here next kind field).calls = [] := rfl

@[simp] theorem calls_oneOf (here next : Point) (kinds : List Kind) (field : Option Field) :
    (Form.oneOf here next kinds field).calls = [] := rfl

@[simp] theorem calls_call (here next : Point) (rule : Rule) (level : Nat)
    (field : Option Field) : (Form.call here next rule level field).calls = [rule] := rfl

@[simp] theorem calls_seq (entry : Point) (fs : List Form) :
    (Form.seq entry fs).calls = fs.flatMap calls := calls_partsAll fs

@[simp] theorem calls_choice (start join : Point) (alts : List Form) :
    (Form.choice start join alts).calls = alts.flatMap calls := calls_partsAll alts

@[simp] theorem calls_opt (start join : Point) (alts : List Form) :
    (Form.opt start join alts).calls = alts.flatMap calls := calls_partsAll alts

@[simp] theorem calls_star (entry back next : Point) (body : Form) :
    (Form.star entry back next body).calls = body.calls := rfl

@[simp] theorem calls_plus (start back next : Point) (body : Form) :
    (Form.plus start back next body).calls = body.calls := rfl

end Form

def BodyForm.forms : BodyForm → List Form
  | .plain f => f.parts
  | .operators ops => ops.heads.parts ++ ops.tails.flatMap fun t => t.2.parts

def Rule.forms (r : Rule) : List Form := (Layout.ruleForm r).body.forms

def Rule.calls (r : Rule) : List Rule := r.forms.filterMap Form.callee?

def Rule.kinds (r : Rule) : List Kind := r.forms.flatMap Form.ownKinds

/-- A rule that is given by operators puts its nodes below each other. -/
def Rule.wraps (r : Rule) : List Rule := if Follow.hasOperators r then [r] else []

theorem Rule.calls_plain {r : Rule} {f : Form} (h : (Layout.ruleForm r).body = .plain f) :
    r.calls = f.calls := by
  simp [Rule.calls, Rule.forms, h, BodyForm.forms, Form.calls]

theorem Rule.calls_operators {r : Rule} {ops : Operators}
    (h : (Layout.ruleForm r).body = .operators ops) :
    r.calls = ops.heads.calls ++ ops.tails.flatMap fun t => t.2.calls := by
  simp [Rule.calls, Rule.forms, h, BodyForm.forms, Form.calls, List.filterMap_flatMap]

theorem Rule.wraps_operators {r : Rule} {ops : Operators}
    (h : (Layout.ruleForm r).body = .operators ops) : r.wraps = [r] := by
  obtain ⟨free, he, -⟩ := Layout.ruleForm_eq r
  rw [he, Layout.placeRule] at h
  unfold Rule.wraps Follow.hasOperators
  split at h
  · cases h
  · cases h
  · rename_i hb
    simp [hb]

def Rule.backs (r : Rule) : List Point :=
  match (Layout.ruleForm r).body with
  | .plain _ => r.forms.filterMap Form.back?
  | .operators ops => ops.back :: r.forms.filterMap Form.back?

namespace Layout

theorem ruleForm_eq_placeRule (r : Rule) : ruleForm r = placeRule r (stop r) := by
  obtain ⟨free, he, -⟩ := ruleForm_eq r
  rw [stop, he, stop_placeRule]

def backs : List Point := Rule.all.flatMap Rule.backs

theorem mem_all (r : Rule) : r ∈ Rule.all := List.mem_of_getElem? (getElem?_all r)

def Holds (f : Form) : Prop := ∃ r : Rule, f ∈ r.forms

theorem holds_plain {r : Rule} {f : Form} (h : (ruleForm r).body = .plain f) : Holds f :=
  ⟨r, by simp [Rule.forms, h, BodyForm.forms]⟩

theorem holds_heads {r : Rule} {ops : Operators} (h : (ruleForm r).body = .operators ops) :
    Holds ops.heads :=
  ⟨r, by simp [Rule.forms, h, BodyForm.forms]⟩

theorem holds_tail {r : Rule} {ops : Operators} (h : (ruleForm r).body = .operators ops)
    {t : Nat × Form} (ht : t ∈ ops.tails) : Holds t.2 := by
  refine ⟨r, ?_⟩
  simp only [Rule.forms, h, BodyForm.forms, List.mem_append, List.mem_flatMap]
  exact .inr ⟨t, ht, t.2.mem_parts_self⟩

theorem Holds.part {f g : Form} (h : Holds f) (hg : g ∈ f.parts) : Holds g := by
  obtain ⟨r, hr⟩ := h
  refine ⟨r, ?_⟩
  unfold Rule.forms at hr ⊢
  cases hb : (ruleForm r).body with
  | plain e =>
    simp only [hb, BodyForm.forms] at hr ⊢
    exact Form.parts_trans e hr hg
  | operators ops =>
    simp only [hb, BodyForm.forms, List.mem_append, List.mem_flatMap] at hr ⊢
    rcases hr with hr | ⟨t, ht, hr⟩
    · exact .inl (Form.parts_trans ops.heads hr hg)
    · exact .inr ⟨t, ht, Form.parts_trans t.2 hr hg⟩

theorem mem_backs {f : Form} (h : Holds f) {p : Point} (hp : f.back? = some p) : p ∈ backs := by
  obtain ⟨r, hr⟩ := h
  refine List.mem_flatMap.mpr ⟨r, mem_all r, ?_⟩
  have hm : p ∈ r.forms.filterMap Form.back? := List.mem_filterMap.mpr ⟨f, hr, hp⟩
  unfold Rule.backs
  split
  · exact hm
  · exact List.mem_cons_of_mem _ hm

theorem operators_back_mem {r : Rule} {ops : Operators} (h : (ruleForm r).body = .operators ops) :
    ops.back ∈ backs :=
  List.mem_flatMap.mpr ⟨r, mem_all r, by simp [Rule.backs, h]⟩

end Layout

namespace Follow

mutual

private theorem decisions_subset {g : Form} (f : Form) (h : g ∈ f.parts) :
    decisions g ⊆ decisions f := by
  cases f with
  | token | oneOf | call =>
    simp only [Form.parts, List.mem_singleton] at h
    exact h ▸ List.Subset.refl _
  | seq entry fs =>
    rcases List.mem_cons.mp h with rfl | h
    · exact List.Subset.refl _
    · exact decisionsAll_subset fs h
  | choice start join fs | opt start join fs =>
    rcases List.mem_cons.mp h with rfl | h
    · exact List.Subset.refl _
    · exact List.subset_cons_of_subset _ (decisionsAll_subset fs h)
  | star entry back next body | plus entry back next body =>
    rcases List.mem_cons.mp h with rfl | h
    · exact List.Subset.refl _
    · exact List.subset_cons_of_subset _ (decisions_subset body h)

private theorem decisionsAll_subset {g : Form} (fs : List Form) (h : g ∈ Form.partsAll fs) :
    decisions g ⊆ decisionsAll fs := by
  cases fs with
  | nil => simp [Form.partsAll] at h
  | cons f fs =>
    rcases List.mem_append.mp h with h | h
    · exact List.subset_append_of_subset_left _ (decisions_subset f h)
    · exact List.subset_append_of_subset_right _ (decisionsAll_subset fs h)

end

/-- Whether the next token settles a decision of a form is found from its alternatives. -/
theorem settled?_of_holds {f : Form} (h : Layout.Holds f) {p : Point} {alts : List Point}
    (hd : (p, alts) ∈ decisions f) : settled? p = looks? alts := by
  obtain ⟨r, hr⟩ := h
  refine settled?_of_mem (r := r) ?_
  unfold Rule.forms at hr
  cases hb : (Layout.ruleForm r).body with
  | plain e =>
    simp only [hb, BodyForm.forms] at hr
    simpa only [decisionsOf, hb] using decisions_subset e hr hd
  | operators ops =>
    simp only [hb, BodyForm.forms, List.mem_append, List.mem_flatMap] at hr
    simp only [decisionsOf, hb, List.mem_append, List.mem_flatMap]
    rcases hr with hr | ⟨t, ht, hr⟩
    · exact .inl (decisions_subset ops.heads hr hd)
    · exact .inr ⟨t, ht, decisions_subset t.2 hr hd⟩

end Follow

end ResourceNames.Java
