import ResourceNames.Proofs.Walks
import ResourceNames.Resource.Restorer

/-!
Walks that are listed before they are made.

The visits of a tree are listed without a visitor, and can be made later by any visitor in any state. Making
them leads where a walk through the tree leads, and stops at the visit at which the walk stops. Every node
has two visits. A list without the nodes of some rules is the whole list without their visits: what lies
below such a node stays where it was.
-/
namespace ResourceNames.Java

namespace Visit

def stays (skipped : List Rule) (x : Visit) : Bool := x.node.rule?.all fun r => !skipped.contains r

end Visit

namespace Tree

/-- Every node is entered once and left once. -/
theorem length_visits (t : Tree) : (t.visits []).length = 2 * t.nodes.length := by
  induction t using ofChildren with
  | leaf | missing => rfl
  | node rule start stop fields children ih =>
    have hall : (visitsAll [] children).length = 2 * (nodesAll children).length := by
      induction children with
      | nil => rfl
      | cons c cs ih' =>
        rw [visitsAll, nodesAll, List.length_append, List.length_append, ih c List.mem_cons_self,
          ih' fun d hd => ih d (List.mem_cons_of_mem c hd), Nat.mul_add]
    simp only [visits_node, nodes, List.length_cons, List.length_append, List.length_nil, hall]
    omega

/-- Leaving out the nodes of some rules leaves out their visits and no other. -/
theorem visits_eq_filter (skipped : List Rule) (t : Tree) :
    t.visits skipped = (t.visits []).filter (Visit.stays skipped) := by
  induction t using ofChildren with
  | leaf | missing => rfl
  | node rule start stop fields children ih =>
    have hall : visitsAll skipped children = (visitsAll [] children).filter (Visit.stays skipped) := by
      induction children with
      | nil => rfl
      | cons c cs ih' =>
        rw [visitsAll, visitsAll, List.filter_append, ih c List.mem_cons_self,
          ih' fun d hd => ih d (List.mem_cons_of_mem c hd)]
    have henter : (Visit.enter (.node rule start stop fields children)).stays skipped =
        !skipped.contains rule := rfl
    have hexit : (Visit.exit (.node rule start stop fields children)).stays skipped =
        !skipped.contains rule := rfl
    rw [visits_node, List.filter_cons, List.filter_append, List.filter_cons, henter, hexit, ← hall, visits]
    cases skipped.contains rule with
    | false => rfl
    | true => exact (List.append_nil _).symm

end Tree

end ResourceNames.Java

namespace ResourceNames.Resource

open Java

/-- To make the visits that are listed for a tree is to walk through the tree: for a reader and for a restorer,
whatever they know before, the states are the same afterwards and so are the faults. There are two visits
for each node. A list without the nodes of some rules has all other visits, in the same order. -/
theorem listed_visits_replay_walk (t : Tree) :
    (∀ r : Reader, Visit.makeAll Reader.visitor (t.visits []) r = r.read t) ∧
    (∀ (table : Table) (r : Restorer),
      Visit.makeAll (Restorer.visitor table) (t.visits []) r = r.restore table t) ∧
    (t.visits []).length = 2 * t.nodes.length ∧
    ((t.visits []).map Visit.listed).length = 2 * t.nodes.length ∧
    ∀ skipped, t.visits skipped = (t.visits []).filter (Visit.stays skipped) := by
  refine ⟨fun r => ?_, fun table r => ?_, t.length_visits, ?_, fun skipped => t.visits_eq_filter skipped⟩
  · exact (t.walk_eq_makeAll Reader.visitor r).symm
  · exact (t.walk_eq_makeAll (Restorer.visitor table) r).symm
  · rw [List.length_map, t.length_visits]

end ResourceNames.Resource
