import ResourceNames.Java.Walk
import ResourceNames.Proofs.Nodes

/-!
What walks keep, walks that end without a fault, and walks as lists of visits.
-/
namespace ResourceNames.Java

variable {σ ε : Type}

namespace Visited

@[simp] theorem ok_andThen (s : σ) (next : σ → Visited σ ε) : (ok s).andThen next = next s := rfl

theorem andThen_ok {v : Visited σ ε} {next : σ → Visited σ ε} (h : (v.andThen next).fault = none) :
    v.fault = none ∧ v.andThen next = next v.state := by
  unfold andThen at h ⊢
  split at h
  · rename_i hv
    exact ⟨hv, rfl⟩
  · simp_all

theorem andThen_of_ok {v : Visited σ ε} {next : σ → Visited σ ε} (h : v.fault = none) :
    v.andThen next = next v.state := by
  simp [andThen, h]

theorem andThen_assoc (v : Visited σ ε) (f g : σ → Visited σ ε) :
    (v.andThen f).andThen g = v.andThen fun s => (f s).andThen g := by
  cases h : v.fault <;> simp [andThen, h]

@[simp] theorem andThen_ok_right (v : Visited σ ε) : v.andThen ok = v := by
  unfold andThen
  split
  · rename_i hv
    simp [ok, ← hv]
  · rfl

end Visited

namespace Visit

def node : Visit → Tree
  | enter node => node
  | exit node => node

theorem makeAll_append (v : Visitor σ ε) (xs ys : List Visit) (s : σ) :
    makeAll v (xs ++ ys) s = (makeAll v xs s).andThen (makeAll v ys) := by
  induction xs generalizing s with
  | nil => rfl
  | cons x xs ih =>
    have hxs : makeAll v (xs ++ ys) = fun s => (makeAll v xs s).andThen (makeAll v ys) := funext ih
    rw [List.cons_append, makeAll, makeAll, hxs, Visited.andThen_assoc]

end Visit

namespace Tree

/-- What no visit of a node breaks holds after a walk, also if it faults. -/
theorem walk_keeps {v : Visitor σ ε} {P : σ → Prop} {t : Tree}
    (enter : ∀ n ∈ t.nodes, ∀ s, P s → P (v.enter n s).state)
    (exit : ∀ n ∈ t.nodes, ∀ s, P s → P (v.exit n s).state) {s : σ} (h : P s) :
    P (t.walk v s).state := by
  have hthen : ∀ {x : Visited σ ε} {next : σ → Visited σ ε}, P x.state →
      (∀ s, P s → P (next s).state) → P (x.andThen next).state := by
    intro x next hx hnext
    unfold Visited.andThen
    split
    · exact hnext x.state hx
    · exact hx
  induction t using ofChildren generalizing s with
  | leaf | missing => simpa [walk, Visited.ok] using h
  | node rule start stop fields children ih =>
    have hchildren : ∀ c ∈ children, ∀ s, P s → P (c.walk v s).state := fun c hc s hs =>
      ih c hc (fun n hn => enter n (List.mem_cons_of_mem _ (mem_nodesAll.mpr ⟨c, hc, hn⟩)))
        (fun n hn => exit n (List.mem_cons_of_mem _ (mem_nodesAll.mpr ⟨c, hc, hn⟩))) hs
    have hall : ∀ s, P s → P (walkAll v children s).state := by
      clear ih enter exit
      induction children with
      | nil => exact fun s hs => by simpa [walkAll, Visited.ok] using hs
      | cons c cs ih =>
        intro s hs
        rw [walkAll]
        exact hthen (hchildren c List.mem_cons_self s hs)
          (ih fun d hd => hchildren d (List.mem_cons_of_mem c hd))
    rw [walk]
    exact hthen (hthen (enter _ List.mem_cons_self s h) hall) (exit _ List.mem_cons_self)

/-- A node that is gone through without a fault is entered, its children are gone through, and it
is left. -/
theorem walk_node_ok {v : Visitor σ ε} {rule : Rule} {start : Token} {stop : Option Token}
    {fields : List (Field × Tree)} {children : List Tree} {s : σ}
    (h : ((Tree.node rule start stop fields children).walk v s).fault = none) :
    (v.enter (.node rule start stop fields children) s).fault = none ∧
      (walkAll v children (v.enter (.node rule start stop fields children) s).state).fault = none ∧
      (Tree.node rule start stop fields children).walk v s =
        v.exit (.node rule start stop fields children)
          (walkAll v children (v.enter (.node rule start stop fields children) s).state).state := by
  rw [walk] at h ⊢
  obtain ⟨hi, he⟩ := Visited.andThen_ok h
  obtain ⟨hn, hw⟩ := Visited.andThen_ok hi
  exact ⟨hn, hw ▸ hi, he.trans (by rw [hw])⟩

theorem walkAll_cons_ok {v : Visitor σ ε} {t : Tree} {ts : List Tree} {s : σ}
    (h : (walkAll v (t :: ts) s).fault = none) :
    (t.walk v s).fault = none ∧ walkAll v (t :: ts) s = walkAll v ts (t.walk v s).state := by
  rw [walkAll] at h ⊢
  exact Visited.andThen_ok h

theorem walkAll_append (v : Visitor σ ε) (ts us : List Tree) (s : σ) :
    walkAll v (ts ++ us) s = (walkAll v ts s).andThen (walkAll v us) := by
  induction ts generalizing s with
  | nil => rfl
  | cons t ts ih =>
    simp only [List.cons_append, walkAll]
    cases hf : (t.walk v s).fault with
    | none => simp [Visited.andThen_of_ok hf, ih]
    | some e => simp [Visited.andThen, hf]

/-- Leaves are not visited. -/
theorem walkAll_of_rule?_eq_none {v : Visitor σ ε} {ts : List Tree}
    (h : ∀ t ∈ ts, t.rule? = none) (s : σ) : walkAll v ts s = .ok s := by
  induction ts with
  | nil => rfl
  | cons t ts ih =>
    have ht : t.walk v s = .ok s := by
      cases t with
      | leaf | missing => simp [walk]
      | node => simpa [rule?] using h _ List.mem_cons_self
    rw [walkAll, ht]
    exact ih fun u hu => h u (List.mem_cons_of_mem t hu)

theorem visits_node (rule : Rule) (start : Token) (stop : Option Token)
    (fields : List (Field × Tree)) (children : List Tree) :
    (Tree.node rule start stop fields children).visits [] =
      .enter (.node rule start stop fields children) ::
        (visitsAll [] children ++ [.exit (.node rule start stop fields children)]) := by
  simp [visits]

mutual

/-- To walk through a tree is to make its visits. -/
theorem walk_eq_makeAll (v : Visitor σ ε) (t : Tree) (s : σ) :
    t.walk v s = Visit.makeAll v (t.visits []) s := by
  cases t with
  | leaf | missing => rfl
  | node rule start stop fields children =>
    have hall : walkAll v children = Visit.makeAll v (visitsAll [] children) :=
      funext (walkAll_eq_makeAll v children)
    have hleft (xs : List Visit) (x : Visit) :
        Visit.makeAll v (xs ++ [x]) = fun s => (Visit.makeAll v xs s).andThen (x.make v) := by
      funext s
      rw [Visit.makeAll_append]
      congr 1
      funext s
      exact Visited.andThen_ok_right _
    rw [walk, visits_node, Visit.makeAll, hleft, hall, Visited.andThen_assoc]
    rfl

theorem walkAll_eq_makeAll (v : Visitor σ ε) (ts : List Tree) (s : σ) :
    walkAll v ts s = Visit.makeAll v (visitsAll [] ts) s := by
  cases ts with
  | nil => rfl
  | cons t ts =>
    have hall : walkAll v ts = Visit.makeAll v (visitsAll [] ts) :=
      funext (walkAll_eq_makeAll v ts)
    rw [walkAll, visitsAll, Visit.makeAll_append, walk_eq_makeAll v t, hall]

end

/-- Every node is visited, and nothing else. -/
theorem mem_visits {x : Visit} {t : Tree} : x ∈ t.visits [] ↔ x.node ∈ t.nodes := by
  induction t using ofChildren with
  | leaf | missing => simp [visits, nodes]
  | node rule start stop fields children ih =>
    have hall : x ∈ visitsAll [] children ↔ x.node ∈ nodesAll children := by
      induction children with
      | nil => simp [visitsAll, nodesAll]
      | cons c cs ih' =>
        simp only [visitsAll, nodesAll, List.mem_append, ih c List.mem_cons_self,
          ih' fun d hd => ih d (List.mem_cons_of_mem c hd)]
    cases x <;> simp [visits_node, nodes, hall, Visit.node, or_comm]

mutual

/-- In a walk without a fault every node is entered without one. -/
theorem enter_ok_of_walk {v : Visitor σ ε} (t : Tree) {s : σ} (h : (t.walk v s).fault = none) :
    t.Each fun n => ∃ s, (v.enter n s).fault = none := by
  cases t with
  | leaf | missing => simp [Each, nodes]
  | node rule start stop fields children =>
    obtain ⟨he, hw, -⟩ := walk_node_ok h
    exact each_node.mpr ⟨⟨s, he⟩, enter_ok_of_walkAll children hw⟩

theorem enter_ok_of_walkAll {v : Visitor σ ε} (ts : List Tree) {s : σ}
    (h : (walkAll v ts s).fault = none) :
    ∀ t ∈ ts, t.Each fun n => ∃ s, (v.enter n s).fault = none := by
  cases ts with
  | nil => simp
  | cons t ts =>
    obtain ⟨ht, hs⟩ := walkAll_cons_ok h
    intro u hu
    rcases List.mem_cons.mp hu with heq | hu
    · exact heq ▸ enter_ok_of_walk t ht
    · exact enter_ok_of_walkAll ts (hs ▸ h) u hu

end

end Tree

end ResourceNames.Java
