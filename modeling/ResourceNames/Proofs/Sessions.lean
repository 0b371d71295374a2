import Mathlib.Logic.Relation
import ResourceNames.Proofs.Nodes
import ResourceNames.Session

/-!
The sessions that can come about.
-/
namespace ResourceNames.Session

open Java

/-- Steps lead from the beginning to a session. -/
inductive Reachable : Session → Prop where
  | start : Reachable {}
  | readResources {s : Session} (h : Reachable s) (text : String) :
      Reachable (s.readResources text).session
  | openFile {s : Session} (h : Reachable s) (text : String) (table : Option Resource.Table)
      (package : Option String) (wantsImport : Bool) :
      Reachable (s.openFile text table package wantsImport).session
  | restore {s : Session} {o : Opened} (h : Reachable s) (ho : s.opened = some o) :
      Reachable (s.restore o).session
  | reread {s : Session} {o : Opened} (h : Reachable s) (ho : s.opened = some o) :
      Reachable (s.reread o).session
  | text {s : Session} {o : Opened} (h : Reachable s) (ho : s.opened = some o)
      (start stop : Option Int) : Reachable (s.text start stop o).session

/-- What a session has learned, it has learned by reading units. -/
theorem Reachable.learned {P : Widened → Prop} (nothing : P [])
    (unit : ∀ p : Parser, P p.widened → P (p.parse .compilationUnit).2.parser.widened)
    {s : Session} (h : s.Reachable) : P s.widened := by
  induction h with
  | start => exact nothing
  | @readResources s _ text ih => exact unit (.ofSource (sourceOf text) s.widened) ih
  | @openFile s _ text _ _ _ ih => exact unit (.ofSource (sourceOf text) s.widened) ih
  | restore _ _ ih => exact ih
  | @reread s o _ _ ih => exact unit { o.parser with widened := s.widened } ih
  | text _ _ _ _ ih => exact ih

/-- In every session the parser has learned only about loops. -/
theorem Reachable.widened {s : Session} (h : s.Reachable) :
    ∀ w ∈ s.widened, w.1 ∈ Layout.backs :=
  h.learned (P := fun widened => ∀ w ∈ widened, w.1 ∈ Layout.backs) (by simp)
    fun _ => Parser.widened_parse .compilationUnit

/-- A step of a session in which no file is opened. -/
inductive Goes (s : Session) : Session → Prop where
  | readResources (text : String) : Goes s (s.readResources text).session
  | restore {o : Opened} (ho : s.opened = some o) : Goes s (s.restore o).session
  | reread {o : Opened} (ho : s.opened = some o) : Goes s (s.reread o).session
  | text {o : Opened} (ho : s.opened = some o) (start stop : Option Int) :
      Goes s (s.text start stop o).session

inductive Next (s : Session) : Session → Prop where
  | goes {t : Session} (h : Goes s t) : Next s t
  | openFile (text : String) (table : Option Resource.Table) (package : Option String)
      (wantsImport : Bool) : Next s (s.openFile text table package wantsImport).session

theorem Goes.reachable {s t : Session} (h : Goes s t) (hs : s.Reachable) : t.Reachable := by
  cases h with
  | readResources text => exact hs.readResources text
  | restore ho => exact hs.restore ho
  | reread ho => exact hs.reread ho
  | text ho start stop => exact hs.text ho start stop

/-- A file is opened with the tree of its unit. -/
structure Opens (s : Session) (text : String) (table : Option Resource.Table)
    (package : Option String) (wantsImport : Bool) (o : Opened) : Prop where
  session : (s.openFile text table package wantsImport).session.opened = some o
  tree : o.tree = ((Parser.ofSource (sourceOf text) s.widened).parse .compilationUnit).1
  parser : o.parser = ((Parser.ofSource (sourceOf text) s.widened).parse .compilationUnit).2.parser
  table : o.table = s.ownTable table
  restorer : o.restorer = { package := s.packageFor package wantsImport }

private theorem compilationUnit_eq (p : Parser) :
    p.compilationUnit.1 = (p.parse .compilationUnit).1 ∧
      p.compilationUnit.2.1 = (p.parse .compilationUnit).2.parser := ⟨rfl, rfl⟩

theorem exists_opens (s : Session) (text : String) (table : Option Resource.Table)
    (package : Option String) (wantsImport : Bool) :
    ∃ o, Opens s text table package wantsImport o := by
  obtain ⟨ht, hp⟩ := compilationUnit_eq (.ofSource (sourceOf text) s.widened)
  exact ⟨⟨_, _, _, _⟩, rfl, ht, hp, rfl, rfl⟩

theorem opens_of_opened {s : Session} {text : String} {table : Option Resource.Table}
    {package : Option String} {wantsImport : Bool} {o : Opened}
    (h : (s.openFile text table package wantsImport).session.opened = some o) :
    Opens s text table package wantsImport o := by
  obtain ⟨o', ho⟩ := exists_opens s text table package wantsImport
  exact Option.some.inj (ho.session.symm.trans h) ▸ ho

/-- The table with which a file opened now is gone through. -/
def tableFor (given : Option Resource.Table) (s : Session) : Resource.Table :=
  (s.ownTable given).getD s.reader.table

theorem Opens.restore {s : Session} {text : String} {table : Option Resource.Table}
    {package : Option String} {wantsImport : Bool} {o : Opened}
    (h : Opens s text table package wantsImport o) {r : Resource.Restorer}
    (hr : Resource.Restorer.restore (s.tableFor table) o.tree
      { package := s.packageFor package wantsImport } = .ok r) :
    ((s.openFile text table package wantsImport).session.restore o).result = (r, none) ∧
      ((s.openFile text table package wantsImport).session.restore o).session.opened =
        some { o with restorer := r } := by
  have hv : o.restorer.restore (o.table.getD
      (s.openFile text table package wantsImport).session.reader.table) o.tree = .ok r := by
    rw [h.table, h.restorer]
    exact hr
  simp only [Session.restore, hv]
  exact ⟨rfl, rfl⟩

end ResourceNames.Session
