import ResourceNames.Proofs.Acceptance

/-!
All trees for the front of a row of tokens.

An outline is a tree without its tokens. `Rule.ways` follows every derivation of a rule at once and lists
the outlines of all trees that the front of a row of kinds can have, each with what is left of the row.
One stretch of the row may stay open, if it is known what the trees of a rule for it are. It gives up
where the row is too short to tell.

What `Rule.ways` lists are derivations, and it leaves none out: a row with a single outline has a single
tree.
-/
namespace ResourceNames.Java

/-- A tree without its tokens. The tree of the open stretch of a row has no outline of its own. -/
inductive Outline where
  | leaf (kind : Kind)
  | node (rule : Rule) (children : List Outline)
  | gap
  deriving Repr, Inhabited

/-- A row of kinds, in which a stretch that stays open stands as `none`. -/
abbrev Row := List (Option Kind)

/-- The row with the open stretch filled in. -/
def Row.fill (stretch : List Kind) (row : Row) : List Kind := row.flatMap (·.elim stretch ([·]))

@[simp] theorem Row.fill_nil {stretch : List Kind} : Row.fill stretch [] = [] := rfl

@[simp] theorem Row.fill_none {stretch : List Kind} {row : Row} :
    Row.fill stretch (none :: row) = stretch ++ row.fill stretch := rfl

@[simp] theorem Row.fill_some {stretch : List Kind} {k : Kind} {row : Row} :
    Row.fill stretch (some k :: row) = k :: row.fill stretch := rfl

@[simp] theorem Row.fill_map {stretch ks : List Kind} : Row.fill stretch (ks.map some) = ks := by
  induction ks with
  | nil => rfl
  | cons k ks ih => rw [List.map_cons, Row.fill_some, ih]

namespace Outline

mutual

def decideEq : (o p : Outline) → Decidable (o = p)
  | .leaf k, .leaf l =>
    if h : k = l then isTrue (by rw [h]) else isFalse fun he => h (leaf.inj he)
  | .node r os, .node q ps =>
    if h : r = q then
      match decideEqAll os ps with
      | isTrue hs => isTrue (by rw [h, hs])
      | isFalse hs => isFalse fun he => hs (node.inj he).2
    else isFalse fun he => h (node.inj he).1
  | .gap, .gap => isTrue rfl
  | .leaf _, .node .. | .leaf _, .gap | .node .., .leaf _ | .node .., .gap | .gap, .leaf _
  | .gap, .node .. => isFalse nofun

def decideEqAll : (os ps : List Outline) → Decidable (os = ps)
  | [], [] => isTrue rfl
  | [], _ :: _ | _ :: _, [] => isFalse nofun
  | o :: os, p :: ps =>
    match decideEq o p, decideEqAll os ps with
    | isTrue h, isTrue hs => isTrue (by rw [h, hs])
    | isFalse h, _ => isFalse fun he => h (List.cons.inj he).1
    | _, isFalse hs => isFalse fun he => hs (List.cons.inj he).2

end

instance : DecidableEq Outline := decideEq

mutual

/-- An outline is that of a tree, where the open stretch has a tree such that `S`. -/
def Of (S : Tree → Prop) : Outline → Tree → Prop
  | .leaf k, t => ∃ token, t = .leaf token false ∧ token.kind = k
  | .node r os, t => ∃ start stop fields children,
    t = .node r start stop fields children ∧ OfAll S os children
  | .gap, t => S t

def OfAll (S : Tree → Prop) : List Outline → List Tree → Prop
  | [], ts => ts = []
  | o :: os, ts => ∃ t us, ts = t :: us ∧ o.Of S t ∧ OfAll S os us

end

variable {S : Tree → Prop}

theorem OfAll.append {os ps : List Outline} {ts us : List Tree} (h : OfAll S os ts)
    (h' : OfAll S ps us) : OfAll S (os ++ ps) (ts ++ us) := by
  induction os generalizing ts with
  | nil =>
    obtain rfl : ts = [] := by simpa [OfAll] using h
    exact h'
  | cons o os ih =>
    obtain ⟨t, rest, rfl, ht, hrest⟩ := by simpa only [OfAll] using h
    simpa [OfAll] using ⟨ht, ih hrest⟩

theorem OfAll.singleton {o : Outline} {t : Tree} (h : o.Of S t) : OfAll S [o] [t] := by
  simp [OfAll, h]

mutual

def nodes : Outline → List Outline
  | .leaf _ | .gap => []
  | .node r os => .node r os :: nodesAll os

def nodesAll : List Outline → List Outline
  | [] => []
  | o :: os => o.nodes ++ nodesAll os

end

mutual

/-- The nodes of an outline are those of nodes of the tree. -/
theorem Of.exists_node : ∀ (o : Outline) {t : Tree}, o.Of S t → ∀ p ∈ o.nodes, ∃ n ∈ t.nodes, p.Of S n
  | .leaf _, _, _ => by simp [nodes]
  | .gap, _, _ => by simp [nodes]
  | .node r os, t, h => by
    intro p hp
    rcases List.mem_cons.mp hp with rfl | hp
    · obtain ⟨start, stop, fields, children, rfl, -⟩ := by simpa only [Of] using h
      exact ⟨_, List.mem_cons_self, h⟩
    · obtain ⟨start, stop, fields, children, rfl, hall⟩ := by simpa only [Of] using h
      obtain ⟨n, hn, hof⟩ := OfAll.exists_node os hall p hp
      exact ⟨n, List.mem_cons_of_mem _ hn, hof⟩

theorem OfAll.exists_node : ∀ (os : List Outline) {ts : List Tree}, OfAll S os ts →
    ∀ p ∈ nodesAll os, ∃ n ∈ Tree.nodesAll ts, p.Of S n
  | [], _, _ => by simp [nodesAll]
  | o :: os, ts, h => by
    intro p hp
    obtain ⟨t, us, rfl, ht, hus⟩ := by simpa only [OfAll] using h
    rcases List.mem_append.mp hp with hp | hp
    · obtain ⟨n, hn, hof⟩ := Of.exists_node o ht p hp
      exact ⟨n, List.mem_append_left _ hn, hof⟩
    · obtain ⟨n, hn, hof⟩ := OfAll.exists_node os hus p hp
      exact ⟨n, List.mem_append_right _ hn, hof⟩

end

end Outline

/-! ### Following every derivation -/

/-- Ways to read the front of a row, each with what is left of it. There is none if the row is too
short to tell them all. -/
abbrev Ways (α : Type) := Option (List (α × Row))

namespace Ways

variable {α β : Type}

def one (a : α) (left : Row) : Ways α := some [(a, left)]

def both (x y : Ways α) : Ways α :=
  match x, y with
  | some xs, some ys => some (xs ++ ys)
  | _, _ => none

def each (next : α → Row → Ways β) : List (α × Row) → Ways β
  | [] => some []
  | x :: xs => (next x.1 x.2).both (each next xs)

def andThen (x : Ways α) (next : α → Row → Ways β) : Ways β := x.bind (each next)

def follow (x : Ways (List Outline)) (next : Row → Ways (List Outline)) : Ways (List Outline) :=
  x.andThen fun os left => (next left).andThen fun ps left => one (os ++ ps) left

def isWhole (x : Ways α) : Bool := (x.getD []).any fun y => y.2.isEmpty

/-- The way to read a token. The first kind of the open stretch is `head?`; only what cannot begin it
is known not to be read there. -/
def token (head? : Option Kind) (fits : Kind → Bool) : Row → Ways (List Outline)
  | [] => none
  | some k :: left => some (if fits k then [([.leaf k], left)] else [])
  | none :: _ => head?.bind fun k => if fits k then none else some []

/-- The ways to go around a loop, fewer than `limit` times. -/
def rounds (body : Row → Ways (List Outline)) : Nat → Row → Ways (List Outline)
  | 0, _ => none
  | limit + 1, w => (one [] w).both ((body w).follow (rounds body limit))

def tails (tail : Row → Ways (List Outline)) (r : Rule) : Nat → Outline → Row → Ways Outline
  | 0, _, _ => none
  | limit + 1, o, w => (one o w).both ((tail w).andThen fun os left =>
    tails tail r limit (.node r (o :: os)) left)

end Ways

mutual

def Phrase.ways (head? : Option Kind) (look : Rule → Row → Ways Outline) :
    Phrase → Row → Ways (List Outline)
  | .token kind _, w => Ways.token head? (· == kind) w
  | .oneOf kinds _, w => Ways.token head? (kinds.contains ·) w
  | .call rule _ _, w => (look rule w).andThen fun o left => .one [o] left
  | .seq parts, w => Phrase.waysSeq head? look parts w
  | .choice alts, w => Phrase.waysAny head? look alts w
  | .opt alts, w => (Ways.one [] w).both (Phrase.waysAny head? look alts w)
  | .star body, w => Ways.rounds (body.ways head? look) (w.length + 1) w
  | .plus body, w => (body.ways head? look w).follow fun left =>
    Ways.rounds (body.ways head? look) (left.length + 1) left

def Phrase.waysSeq (head? : Option Kind) (look : Rule → Row → Ways Outline) :
    List Phrase → Row → Ways (List Outline)
  | [], w => .one [] w
  | p :: ps, w => (p.ways head? look w).follow (Phrase.waysSeq head? look ps)

def Phrase.waysAny (head? : Option Kind) (look : Rule → Row → Ways Outline) :
    List Phrase → Row → Ways (List Outline)
  | [], _ => some []
  | p :: ps, w => (p.ways head? look w).both (Phrase.waysAny head? look ps w)

end

/-- The open stretch of a row: the rule it is read by, and its first kind. -/
abbrev Gap := Option (Rule × Kind)

def Body.ways (head? : Option Kind) (look : Rule → Row → Ways Outline) (r : Rule) :
    Body → Row → Ways Outline
  | .alternatives alts, w => (Phrase.waysAny head? look alts w).andThen fun os left =>
    .one (.node r os) left
  | .operators heads tails, w => (Phrase.waysAny head? look heads w).andThen fun os left =>
    Ways.tails (Phrase.waysAny head? look (tails.map Prod.snd)) r (left.length + 1) (.node r os) left

/-- The ways to read a rule, with fewer than `depth` calls inside each other. -/
def Rule.ways (gap : Gap) : Nat → Rule → Row → Ways Outline
  | 0, _, _ => none
  | depth + 1, r, w =>
    if gap.map Prod.fst = some r ∧ w.head? = some none then .one .gap w.tail
    else (Grammar.body r).ways (gap.map Prod.snd) (Rule.ways gap depth) r w

namespace Ways

variable {α β : Type}

theorem both_eq_some {x y : Ways α} {zs : List (α × Row)} (h : x.both y = some zs) :
    ∃ xs ys, x = some xs ∧ y = some ys ∧ zs = xs ++ ys := by
  cases x <;> cases y <;> simp_all [both]

/-- To go on from every way is to go on from each of them. -/
theorem andThen_eq_some {x : Ways α} {next : α → Row → Ways β} {zs : List (β × Row)}
    (h : x.andThen next = some zs) : ∃ xs, x = some xs ∧
      (∀ a ∈ xs, ∃ ys, next a.1 a.2 = some ys ∧ ∀ y ∈ ys, y ∈ zs) ∧
      ∀ z ∈ zs, ∃ a ∈ xs, ∃ ys, next a.1 a.2 = some ys ∧ z ∈ ys := by
  obtain ⟨xs, rfl, hx⟩ := Option.bind_eq_some_iff.mp h
  refine ⟨xs, rfl, ?_⟩
  clear h
  induction xs generalizing zs with
  | nil => simp_all [each]
  | cons a xs ih =>
    obtain ⟨ys, ys', hy, hy', rfl⟩ := both_eq_some hx
    obtain ⟨hall, hfrom⟩ := ih hy'
    constructor
    · intro b hb
      rcases List.mem_cons.mp hb with rfl | hb
      · exact ⟨ys, hy, fun y hy => List.mem_append_left ys' hy⟩
      · obtain ⟨us, hu, hsub⟩ := hall b hb
        exact ⟨us, hu, fun y hy => List.mem_append_right ys (hsub y hy)⟩
    · intro z hz
      rcases List.mem_append.mp hz with hz | hz
      · exact ⟨a, List.mem_cons_self, ys, hy, hz⟩
      · obtain ⟨b, hb, us, hu, hzu⟩ := hfrom z hz
        exact ⟨b, List.mem_cons_of_mem a hb, us, hu, hzu⟩

/-- Tails can be put to all outlines that are found. -/
theorem tails_closed {tail : Row → Ways (List Outline)} {r : Rule} {limit : Nat} {o p : Outline}
    {w left : Row} {rs : List (Outline × Row)} (h : tails tail r limit o w = some rs)
    (hp : (p, left) ∈ rs) :
    ∃ ts, tail left = some ts ∧ ∀ x ∈ ts, (Outline.node r (p :: x.1), x.2) ∈ rs := by
  induction limit generalizing o w rs with
  | zero => cases h
  | succ limit ih =>
    obtain ⟨xs, ys, hx, hy, rfl⟩ := both_eq_some h
    obtain ⟨ts, hts, hall, hfrom⟩ := andThen_eq_some hy
    obtain rfl := Option.some.inj hx
    rcases List.mem_append.mp hp with hp | hp
    · obtain ⟨rfl, rfl⟩ := Prod.mk.inj (List.mem_singleton.mp hp)
      refine ⟨ts, hts, fun x hx => List.mem_append_right _ ?_⟩
      obtain ⟨us, hu, hsub⟩ := hall x hx
      refine hsub _ ?_
      cases limit with
      | zero => cases hu
      | succ limit =>
        obtain ⟨_, _, hone, -, rfl⟩ := both_eq_some hu
        obtain rfl := Option.some.inj hone
        exact List.mem_append_left _ List.mem_cons_self
    · obtain ⟨a, ha, us, hu, hmem⟩ := hfrom _ hp
      obtain ⟨us', hu', hsub⟩ := hall a ha
      obtain rfl := Option.some.inj (hu.symm.trans hu')
      obtain ⟨ts', hts', hclosed⟩ := ih hu hmem
      exact ⟨ts', hts', fun x hx => List.mem_append_right _ (hsub _ (hclosed x hx))⟩

end Ways

/-! ### What is listed is derived -/

/-- The ways to read rows lead over rows such that `L`. -/
def Ways.Over (stretch : List Kind) (L : List Kind → Prop) {α : Type} (x : Ways α) (w : Row) : Prop :=
  ∀ rs, x = some rs → ∀ y ∈ rs, ∃ u, w.fill stretch = u ++ y.2.fill stretch ∧ L u

namespace Ways.Over

variable {α β : Type} {stretch : List Kind} {L M N : List Kind → Prop} {w : Row} {x : Ways α}

/-- A way over a whole row. -/
theorem whole (h : x.Over stretch L w) (hx : x.isWhole = true) : L (w.fill stretch) := by
  cases x with
  | none => cases hx
  | some ys =>
    obtain ⟨y, hy, hleft⟩ := List.any_eq_true.mp hx
    obtain ⟨u, hu, hL⟩ := h ys rfl y hy
    rw [List.isEmpty_iff.mp hleft, Row.fill_nil, List.append_nil] at hu
    rwa [hu]

theorem mono (h : x.Over stretch L w) (hLM : ∀ u, L u → M u) : x.Over stretch M w := by
  intro rs hrs y hy
  obtain ⟨u, hu, hL⟩ := h rs hrs y hy
  exact ⟨u, hu, hLM u hL⟩

theorem one {a : α} (h : L []) : (Ways.one a w).Over stretch L w := by
  rintro _ ⟨⟩ y hy
  obtain rfl := List.mem_singleton.mp hy
  exact ⟨[], rfl, h⟩

theorem both {y : Ways α} (hx : x.Over stretch L w) (hy : y.Over stretch L w) :
    (x.both y).Over stretch L w := by
  intro rs hrs z hz
  obtain ⟨xs, ys, h, h', rfl⟩ := Ways.both_eq_some hrs
  rcases List.mem_append.mp hz with hz | hz
  · exact hx xs h z hz
  · exact hy ys h' z hz

theorem andThen {next : α → Row → Ways β} (hx : x.Over stretch L w)
    (hn : ∀ a u left, L u → (next a left).Over stretch (fun v => M (u ++ v)) left) :
    (x.andThen next).Over stretch M w := by
  intro rs hrs z hz
  obtain ⟨xs, hxs, -, hfrom⟩ := Ways.andThen_eq_some hrs
  obtain ⟨a, ha, ys, hys, hmem⟩ := hfrom z hz
  obtain ⟨u, hu, hL⟩ := hx xs hxs a ha
  obtain ⟨v, hv, hM⟩ := hn a.1 u a.2 hL ys hys z hmem
  exact ⟨u ++ v, by rw [hu, hv, List.append_assoc], hM⟩

theorem follow {x : Ways (List Outline)} {next : Row → Ways (List Outline)}
    (hx : x.Over stretch L w) (hn : ∀ left, (next left).Over stretch M left)
    (hN : ∀ u v, L u → M v → N (u ++ v)) : (x.follow next).Over stretch N w :=
  hx.andThen fun _ u _ hu => (hn _).andThen fun _ v _ hv => .one (by simpa using hN u v hu hv)

theorem token {head? : Option Kind} {fits : Kind → Bool} (h : ∀ k, fits k = true → L [k]) :
    (Ways.token head? fits w).Over stretch L w := by
  intro rs hrs y hy
  match w with
  | [] => cases hrs
  | some k :: left =>
    obtain rfl := Option.some.inj hrs
    split at hy
    · obtain rfl := List.mem_singleton.mp hy
      exact ⟨[k], rfl, h k ‹_›⟩
    · cases hy
  | none :: left =>
    obtain ⟨k, -, hk⟩ := Option.bind_eq_some_iff.mp hrs
    split at hk
    · cases hk
    · obtain rfl := Option.some.inj hk
      cases hy

theorem rounds {body : Row → Ways (List Outline)} {p : Phrase}
    (h : ∀ w, (body w).Over stretch p.Spells w) (limit : Nat) (w : Row) :
    (Ways.rounds body limit w).Over stretch (Phrase.star p).Spells w := by
  induction limit generalizing w with
  | zero => nofun
  | succ limit ih => exact .both (.one .done) ((h w).follow ih fun u v => .more)

theorem tails {tail : Row → Ways (List Outline)} {r : Rule}
    (ht : ∀ w, (tail w).Over stretch M w) (hL : ∀ u v, L u → M v → L (u ++ v)) {limit : Nat}
    {o : Outline} {u : List Kind} (hu : L u) (w : Row) :
    (Ways.tails tail r limit o w).Over stretch (fun v => L (u ++ v)) w := by
  induction limit generalizing o u w with
  | zero => nofun
  | succ limit ih =>
    refine .both (.one (by simpa using hu)) ((ht w).andThen fun os v left hv => ?_)
    exact (ih (hL u v hu hv) left).mono fun v' h => by simpa using h

end Ways.Over

section Over

variable {stretch : List Kind} {head? : Option Kind} {look : Rule → Row → Ways Outline}

mutual

/-- The ways to read a phrase lead over rows that it spells. -/
theorem Phrase.over_ways (hlook : ∀ r w, (look r w).Over stretch r.Spells w) :
    ∀ (p : Phrase) (w : Row), (p.ways head? look w).Over stretch p.Spells w
  | .token kind field, w => by
    rw [Phrase.ways]
    refine .token fun k hk => ?_
    rw [beq_iff_eq.mp hk]
    exact .token
  | .oneOf kinds field, w => by
    rw [Phrase.ways]
    exact .token fun k hk => .oneOf (List.contains_iff_mem.mp hk)
  | .call rule level field, w => by
    rw [Phrase.ways]
    refine (hlook rule w).andThen fun o u left hu => .one ?_
    obtain ⟨p, hp, hw⟩ := hu
    rw [List.append_nil]
    exact .call hp hw
  | .seq parts, w => by
    rw [Phrase.ways]
    exact Phrase.over_waysSeq hlook parts w
  | .choice alts, w => by
    rw [Phrase.ways]
    exact (Phrase.over_waysAny hlook alts w).mono fun u ⟨p, hp, hw⟩ => .choice hp hw
  | .opt alts, w => by
    rw [Phrase.ways]
    exact .both (.one .skip)
      ((Phrase.over_waysAny hlook alts w).mono fun u ⟨p, hp, hw⟩ => .opt hp hw)
  | .star body, w => by
    rw [Phrase.ways]
    exact .rounds (Phrase.over_ways hlook body) _ w
  | .plus body, w => by
    rw [Phrase.ways]
    exact (Phrase.over_ways hlook body w).follow
      (fun left => .rounds (Phrase.over_ways hlook body) _ left) fun u v => .plus

theorem Phrase.over_waysSeq (hlook : ∀ r w, (look r w).Over stretch r.Spells w) :
    ∀ (ps : List Phrase) (w : Row),
      (Phrase.waysSeq head? look ps w).Over stretch (Phrase.seq ps).Spells w
  | [], w => by
    rw [Phrase.waysSeq]
    exact .one .nil
  | p :: ps, w => by
    rw [Phrase.waysSeq]
    exact (Phrase.over_ways hlook p w).follow (Phrase.over_waysSeq hlook ps) fun u v => .cons

theorem Phrase.over_waysAny (hlook : ∀ r w, (look r w).Over stretch r.Spells w) :
    ∀ (ps : List Phrase) (w : Row),
      (Phrase.waysAny head? look ps w).Over stretch (∃ p ∈ ps, p.Spells ·) w
  | [], w => by
    rw [Phrase.waysAny]
    rintro _ ⟨⟩ y hy
    cases hy
  | p :: ps, w => by
    rw [Phrase.waysAny]
    refine .both ((Phrase.over_ways hlook p w).mono fun u hu => ⟨p, List.mem_cons_self, hu⟩) ?_
    exact (Phrase.over_waysAny hlook ps w).mono fun u ⟨q, hq, hu⟩ =>
      ⟨q, List.mem_cons_of_mem p hq, hu⟩

end

theorem Rule.over_body (hlook : ∀ r w, (look r w).Over stretch r.Spells w) (r : Rule) (w : Row) :
    ((Grammar.body r).ways head? look r w).Over stretch r.Spells w := by
  cases hbody : Grammar.body r with
  | alternatives alts =>
    refine (Phrase.over_waysAny hlook alts w).andThen fun os u left hu => .one ?_
    rw [Rule.Spells, Accessor.alternatives, hbody, List.append_nil]
    exact hu
  | operators heads tails =>
    have halts : Accessor.alternatives r =
        heads ++ tails.map fun t => .seq [.call r 0 none, t.2] := by rw [Accessor.alternatives, hbody]
    refine (Phrase.over_waysAny hlook heads w).andThen fun os u left ⟨p, hp, hw⟩ => ?_
    refine .tails (Phrase.over_waysAny hlook (tails.map Prod.snd)) ?_
      ⟨p, halts ▸ List.mem_append_left _ hp, hw⟩ left
    rintro u v ⟨q, hq, hqu⟩ ⟨t, ht, htv⟩
    obtain ⟨x, hx, rfl⟩ := List.mem_map.mp ht
    refine ⟨.seq [.call r 0 none, x.2], ?_, ?_⟩
    · rw [halts]
      exact List.mem_append_right _ (List.mem_map.mpr ⟨x, hx, rfl⟩)
    · have hrest : (Phrase.seq [x.2]).Spells v := by simpa using Phrase.Spells.cons htv .nil
      exact .cons (.call hq hqu) hrest

end Over

/-- The ways to read a rule lead over rows that it spells, if the open stretch is such a row. -/
theorem Rule.over_ways {gap : Gap} {stretch : List Kind}
    (hgap : ∀ q k, gap = some (q, k) → q.Spells stretch) (depth : Nat) (r : Rule) (w : Row) :
    (r.ways gap depth w).Over stretch r.Spells w := by
  induction depth generalizing r w with
  | zero => nofun
  | succ depth ih =>
    rw [Rule.ways]
    split
    · rename_i h
      obtain ⟨⟨q, k⟩, hq, rfl⟩ := Option.map_eq_some_iff.mp h.1
      obtain ⟨left, rfl⟩ := List.head?_eq_some_iff.mp h.2
      rintro _ ⟨⟩ y hy
      obtain rfl := List.mem_singleton.mp hy
      exact ⟨stretch, rfl, hgap q k hq⟩
    · exact Rule.over_body ih r w

/-- A rule spells a row without gaps that its right-hand side can be read over. -/
theorem Rule.spells_of_body_ways {r : Rule} {depth : Nat} {ks : List Kind}
    (h : ((Grammar.body r).ways none (Rule.ways none depth) r (ks.map some)).isWhole = true) :
    r.Spells ks := by
  have hnogap : ∀ q k, (none : Gap) = some (q, k) → q.Spells [] := by simp
  have hrow := (Rule.over_body (Rule.over_ways hnogap depth) r _).whole h
  rwa [Row.fill_map] at hrow

/-- A rule spells a row without gaps that it can be read over. -/
theorem Rule.spells_of_ways {r : Rule} {depth : Nat} {ks : List Kind}
    (h : (r.ways none depth (ks.map some)).isWhole = true) : r.Spells ks := by
  have hnogap : ∀ q k, (none : Gap) = some (q, k) → q.Spells [] := by simp
  have hrow := (Rule.over_ways hnogap depth r _).whole h
  rwa [Row.fill_map] at hrow

/-! ### No derivation is left out -/

namespace Tree

/-- A sound node has its rule's words for children, and they are sound. -/
theorem IsSound.node {r : Rule} {start : Token} {stop : Option Token} {fields : List (Field × Tree)}
    {children : List Tree} (h : (Tree.node r start stop fields children).IsSound) :
    r.Word (children.map part) ∧ ∀ c ∈ children, c.IsSound := by
  obtain ⟨⟨hw, herr⟩, hs⟩ := each_node.mp h.2
  exact ⟨hw, fun c hc => ⟨herr c hc, hs c hc⟩⟩

/-- The kinds of a sound node are those of its children. Only a whole unit leaves the end out. -/
theorem IsSound.flatMap_kinds_children {t : Tree} (h : t.IsSound) {r : Rule} (hr : t.part = .rule r)
    (hne : r ≠ .compilationUnit) : t.children.flatMap kinds = t.kinds := by
  cases t with
  | leaf | missing => cases hr
  | node rule start stop fields children =>
    obtain rfl := Part.rule.inj hr
    exact flatMap_kinds fun c hc => h.node.1.forall_eats hne _ (List.mem_map_of_mem hc)

end Tree

/-- Every tree of a rule for a row that begins with a stretch is of the stretch alone, and is such that
`S`. -/
def Rule.Settles (r : Rule) (stretch : List Kind) (S : Tree → Prop) : Prop :=
  ∀ (t : Tree) (v z : List Kind), t.IsSound → t.part = .rule r → t.kinds ++ v = stretch ++ z →
    S t ∧ v = z

/-- A tree that is settled has the kinds of the stretch. -/
theorem Rule.Settles.kinds_eq {r : Rule} {stretch : List Kind} {S : Tree → Prop}
    (h : r.Settles stretch S) : r.Settles stretch fun t => S t ∧ t.kinds = stretch := by
  intro t v z ht hr hk
  obtain ⟨hS, rfl⟩ := h t v z ht hr hk
  exact ⟨⟨hS, List.append_cancel_right hk⟩, rfl⟩

/-- The ways to read a row take in the outlines of some trees in a row, whenever the trees begin it. -/
def Ways.Cover (stretch : List Kind) (S : Tree → Prop) (f : Row → Ways (List Outline))
    (cs : List Tree) : Prop :=
  ∀ w rs v z, f w = some rs → cs.flatMap Tree.kinds ++ v = w.fill stretch ++ z →
    ∃ x ∈ rs, Outline.OfAll S x.1 cs ∧ v = x.2.fill stretch ++ z

/-- The ways to read rules take in the outlines of all sound trees. -/
def Ways.CoverRules (stretch : List Kind) (S : Tree → Prop) (look : Rule → Row → Ways Outline) : Prop :=
  ∀ r w rs t v z, r ≠ .compilationUnit → look r w = some rs → t.IsSound → t.part = .rule r →
    t.kinds ++ v = w.fill stretch ++ z → ∃ x ∈ rs, x.1.Of S t ∧ v = x.2.fill stretch ++ z

namespace Ways.Cover

variable {stretch : List Kind} {S : Tree → Prop} {cs ds : List Tree}
  {f g : Row → Ways (List Outline)}

theorem congr (hg : Ways.Cover stretch S g cs) (h : ∀ w, f w = g w) : Ways.Cover stretch S f cs :=
  funext h ▸ hg

theorem one : Ways.Cover stretch S (Ways.one []) [] := by
  rintro w _ v z ⟨⟩ h
  exact ⟨_, List.mem_cons_self, by simp [Outline.OfAll], h⟩

theorem both_left (h : Ways.Cover stretch S f cs) :
    Ways.Cover stretch S (fun w => (f w).both (g w)) cs := by
  intro w rs v z hrs hk
  obtain ⟨xs, ys, hx, -, rfl⟩ := Ways.both_eq_some hrs
  obtain ⟨x, hmem, hof⟩ := h w xs v z hx hk
  exact ⟨x, List.mem_append_left ys hmem, hof⟩

theorem both_right (h : Ways.Cover stretch S g cs) :
    Ways.Cover stretch S (fun w => (f w).both (g w)) cs := by
  intro w rs v z hrs hk
  obtain ⟨xs, ys, -, hy, rfl⟩ := Ways.both_eq_some hrs
  obtain ⟨x, hmem, hof⟩ := h w ys v z hy hk
  exact ⟨x, List.mem_append_right xs hmem, hof⟩

theorem follow (hf : Ways.Cover stretch S f cs) (hg : Ways.Cover stretch S g ds) :
    Ways.Cover stretch S (fun w => (f w).follow g) (cs ++ ds) := by
  intro w rs v z hrs hk
  rw [List.flatMap_append, List.append_assoc] at hk
  obtain ⟨xs, hxs, hall, -⟩ := Ways.andThen_eq_some hrs
  obtain ⟨x, hx, hofx, hleft⟩ := hf w xs _ z hxs hk
  obtain ⟨ys, hys, hsub⟩ := hall x hx
  obtain ⟨us, hus, hall', -⟩ := Ways.andThen_eq_some hys
  obtain ⟨y, hy, hofy, hleft'⟩ := hg x.2 us v z hus hleft
  obtain ⟨_, ⟨⟩, hsub'⟩ := hall' y hy
  exact ⟨_, hsub _ (hsub' _ List.mem_cons_self), hofx.append hofy, hleft'⟩

/-- A single sound token is taken in. It is not in the open stretch unless that begins with it. -/
theorem token {head? : Option Kind} (fits : Kind → Bool) {c : Tree} {k : Kind} (hc : c.IsSound)
    (hpart : c.part = .token k) (hk : fits k = true)
    (hhead : ∀ q, head? = some q → stretch.head? = some q) :
    Ways.Cover stretch S (Ways.token head? fits) [c] := by
  intro w rs v z hrs hkinds
  obtain ⟨u, rfl, rfl⟩ : ∃ u, c = .leaf u false ∧ u.kind = k := by
    cases c with
    | leaf u stray =>
      obtain rfl : stray = false := hc.1
      exact ⟨u, rfl, Part.token.inj hpart⟩
    | missing => cases hc.1
    | node => cases hpart
  rw [List.flatMap_singleton, Tree.kinds, List.singleton_append] at hkinds
  rcases w with _ | ⟨_ | q, left⟩
  · cases hrs
  · obtain ⟨q, hq, hno⟩ := Option.bind_eq_some_iff.mp hrs
    obtain ⟨rest, hstretch⟩ := List.head?_eq_some_iff.mp (hhead q hq)
    rw [Row.fill_none, hstretch] at hkinds
    obtain ⟨rfl, -⟩ := List.cons.inj hkinds
    rw [if_pos hk] at hno
    cases hno
  · obtain ⟨rfl, rfl⟩ := List.cons.inj hkinds
    obtain rfl := Option.some.inj hrs
    rw [if_pos hk]
    exact ⟨_, List.mem_cons_self, .singleton ⟨u, rfl, rfl⟩, rfl⟩

end Ways.Cover

section Cover

variable {stretch : List Kind} {S : Tree → Prop} {head? : Option Kind}
  {look : Rule → Row → Ways Outline}

/-- One of some phrases is read in all the ways that it is read alone. -/
theorem Phrase.cover_waysAny {p : Phrase} {ps : List Phrase} {cs : List Tree} (hp : p ∈ ps)
    (h : Ways.Cover stretch S (p.ways head? look) cs) :
    Ways.Cover stretch S (Phrase.waysAny head? look ps) cs := by
  induction ps with
  | nil => cases hp
  | cons q ps ih =>
    rcases List.mem_cons.mp hp with rfl | hp
    · exact h.both_left.congr fun w => by rw [Phrase.waysAny]
    · exact (ih hp).both_right.congr fun w => by rw [Phrase.waysAny]

/-- A row of sound trees that is a word of a phrase is taken in. A loop is, however often it may
go around. -/
theorem Phrase.Word.cover {p : Phrase} {ws : List Part} (h : p.Word ws)
    (hlook : Ways.CoverRules stretch S look) (hhead : ∀ q, head? = some q → stretch.head? = some q)
    {cs : List Tree} (hcs : cs.map Tree.part = ws) (hs : ∀ c ∈ cs, c.IsSound)
    (hne : Part.rule .compilationUnit ∉ ws) :
    Ways.Cover stretch S (p.ways head? look) cs ∧ ∀ body, p = .star body → ∀ limit,
      Ways.Cover stretch S (Ways.rounds (body.ways head? look) limit) cs := by
  -- The count of a loop depends on the row, so that its rounds are followed for every count.
  have hstar : ∀ {body : Phrase} {cs : List Tree},
      (∀ limit, Ways.Cover stretch S (Ways.rounds (body.ways head? look) limit) cs) →
      Ways.Cover stretch S ((Phrase.star body).ways head? look) cs ∧ ∀ body', Phrase.star body = .star body' →
        ∀ limit, Ways.Cover stretch S (Ways.rounds (body'.ways head? look) limit) cs := by
    refine fun h => ⟨fun w rs v z hrs => h (w.length + 1) w rs v z ?_, fun _ he => ?_⟩
    · rwa [Phrase.ways] at hrs
    · rwa [← Phrase.star.inj he]
  induction h generalizing cs with
  | @token kind =>
    obtain ⟨c, rfl, hc⟩ := List.map_eq_singleton_iff.mp hcs
    have htoken := Ways.Cover.token (S := S) (· == kind) (hs c List.mem_cons_self) hc
      (beq_self_eq_true kind) hhead
    exact ⟨htoken.congr fun w => by rw [Phrase.ways], nofun⟩
  | @oneOf kinds _ kind mem =>
    obtain ⟨c, rfl, hc⟩ := List.map_eq_singleton_iff.mp hcs
    have htoken := Ways.Cover.token (S := S) (kinds.contains ·) (hs c List.mem_cons_self) hc
      (List.contains_iff_mem.mpr mem) hhead
    exact ⟨htoken.congr fun w => by rw [Phrase.ways], nofun⟩
  | @call rule =>
    obtain ⟨c, rfl, hc⟩ := List.map_eq_singleton_iff.mp hcs
    refine ⟨fun w rs v z hrs hk => ?_, nofun⟩
    rw [Phrase.ways] at hrs
    obtain ⟨xs, hxs, hall, -⟩ := Ways.andThen_eq_some hrs
    have hrule : rule ≠ .compilationUnit := fun he => hne (by simp [he])
    rw [List.flatMap_singleton] at hk
    obtain ⟨x, hx, hof, hleft⟩ := hlook rule w xs c v z hrule hxs (hs c List.mem_cons_self) hc hk
    obtain ⟨_, ⟨⟩, hsub⟩ := hall x hx
    exact ⟨_, hsub _ List.mem_cons_self, .singleton hof, hleft⟩
  | nil =>
    obtain rfl := List.map_eq_nil_iff.mp hcs
    exact ⟨Ways.Cover.one.congr fun w => by rw [Phrase.ways, Phrase.waysSeq], nofun⟩
  | cons _ _ ih ih' =>
    obtain ⟨as, bs, rfl, ha, hb⟩ := List.map_eq_append_iff.mp hcs
    rw [List.forall_mem_append] at hs
    rw [List.mem_append, not_or] at hne
    have hrest := (ih' hb hs.2 hne.2).1.congr fun w => by rw [Phrase.ways]
    exact ⟨((ih ha hs.1 hne.1).1.follow hrest).congr fun w => by rw [Phrase.ways, Phrase.waysSeq], nofun⟩
  | choice mem _ ih =>
    have hany := Phrase.cover_waysAny mem (ih hcs hs hne).1
    exact ⟨hany.congr fun w => by rw [Phrase.ways], nofun⟩
  | opt mem _ ih =>
    have hany := Phrase.cover_waysAny mem (ih hcs hs hne).1
    exact ⟨hany.both_right.congr fun w => by rw [Phrase.ways], nofun⟩
  | skip =>
    obtain rfl := List.map_eq_nil_iff.mp hcs
    exact ⟨Ways.Cover.one.both_left.congr fun w => by rw [Phrase.ways], nofun⟩
  | done =>
    obtain rfl := List.map_eq_nil_iff.mp hcs
    refine hstar fun limit => ?_
    cases limit with
    | zero => nofun
    | succ limit => exact Ways.Cover.one.both_left
  | more _ _ ih ih' =>
    obtain ⟨as, bs, rfl, ha, hb⟩ := List.map_eq_append_iff.mp hcs
    rw [List.forall_mem_append] at hs
    rw [List.mem_append, not_or] at hne
    refine hstar fun limit => ?_
    cases limit with
    | zero => nofun
    | succ limit =>
      exact ((ih ha hs.1 hne.1).1.follow ((ih' hb hs.2 hne.2).2 _ rfl limit)).both_right
  | plus _ _ ih ih' =>
    obtain ⟨as, bs, rfl, ha, hb⟩ := List.map_eq_append_iff.mp hcs
    rw [List.forall_mem_append] at hs
    rw [List.mem_append, not_or] at hne
    have hrest := (ih' hb hs.2 hne.2).1.congr fun w => by rw [Phrase.ways]
    exact ⟨((ih ha hs.1 hne.1).1.follow hrest).congr fun w => by rw [Phrase.ways], nofun⟩

/-- Children that are an operand with a tail. -/
private theorem Phrase.Word.operand_tail {r : Rule} {p : Phrase} {ws : List Part}
    (h : (Phrase.seq [.call r 0 none, p]).Word ws) {cs : List Tree} (hcs : cs.map Tree.part = ws) :
    ∃ e es, cs = e :: es ∧ e.part = .rule r ∧ p.Word (es.map Tree.part) := by
  cases h with | cons first rest => ?_
  cases first
  cases rest with | cons tail rest => ?_
  cases rest
  obtain ⟨e, es, rfl, he, hes⟩ := List.map_eq_cons_iff.mp hcs
  rw [List.append_nil] at hes
  exact ⟨e, es, rfl, he, hes ▸ tail⟩

/-- A sound tree of a rule is taken in. Where the rule puts tails to operands, the induction is on
the operand in front: all outlines with one tail more are among the ways as well. -/
theorem Rule.cover_body (hlook : Ways.CoverRules stretch S look)
    (hhead : ∀ q, head? = some q → stretch.head? = some q) {r : Rule} {t : Tree} (ht : t.IsSound)
    (hr : t.part = .rule r) {w : Row} {rs : List (Outline × Row)} {v z : List Kind}
    (h : (Grammar.body r).ways head? look r w = some rs)
    (hk : t.children.flatMap Tree.kinds ++ v = w.fill stretch ++ z) :
    ∃ x ∈ rs, x.1.Of S t ∧ v = x.2.fill stretch ++ z := by
  induction t using Tree.ofChildren generalizing v with
  | leaf | missing => cases hr
  | node rule start stop fields children ih =>
    obtain rfl := Part.rule.inj hr
    obtain ⟨hword, hs⟩ := ht.node
    have hne : Part.rule .compilationUnit ∉ children.map Tree.part := hword.unit_notMem
    obtain ⟨p, hp, hword⟩ := hword
    cases hbody : Grammar.body rule with
    | alternatives alts =>
      rw [Accessor.alternatives, hbody] at hp
      rw [hbody] at h
      obtain ⟨xs, hxs, hall, -⟩ := Ways.andThen_eq_some h
      have hcover := Phrase.cover_waysAny hp (hword.cover hlook hhead rfl hs hne).1
      obtain ⟨x, hx, hof, hleft⟩ := hcover w xs v z hxs hk
      obtain ⟨_, ⟨⟩, hsub⟩ := hall x hx
      exact ⟨_, hsub _ List.mem_cons_self, ⟨start, stop, fields, children, rfl, hof⟩, hleft⟩
    | operators heads tails =>
      rw [Accessor.alternatives, hbody, List.mem_append, List.mem_map] at hp
      rw [hbody] at h
      obtain ⟨xs, hxs, hall, hfrom⟩ := Ways.andThen_eq_some h
      rcases hp with hp | ⟨q, hq, rfl⟩
      · have hcover := Phrase.cover_waysAny hp (hword.cover hlook hhead rfl hs hne).1
        obtain ⟨x, hx, hof, hleft⟩ := hcover w xs v z hxs hk
        obtain ⟨ys, hys, hsub⟩ := hall x hx
        obtain ⟨_, _, ⟨⟩, -, rfl⟩ := Ways.both_eq_some hys
        exact ⟨_, hsub _ (List.mem_append_left _ List.mem_cons_self),
          ⟨start, stop, fields, children, rfl, hof⟩, hleft⟩
      · obtain ⟨e, cs, rfl, he, htail⟩ : ∃ e cs, children = e :: cs ∧ e.part = .rule rule ∧
            q.2.Word (cs.map Tree.part) := Phrase.Word.operand_tail hword rfl
        have hrule : rule ≠ .compilationUnit := fun hu => hne (by simp [he, hu])
        have hsound := hs e List.mem_cons_self
        rw [Tree.children, List.flatMap_cons, List.append_assoc, ← hsound.flatMap_kinds_children he hrule] at hk
        obtain ⟨x, hx, hof, hleft⟩ := ih e List.mem_cons_self hsound he hk
        obtain ⟨a, ha, ys, hys, hmem⟩ := hfrom x hx
        obtain ⟨ts, hts, hclosed⟩ := Ways.tails_closed hys hmem
        obtain ⟨ys', hys', hsub⟩ := hall a ha
        obtain rfl := Option.some.inj (hys.symm.trans hys')
        have hcover := Phrase.cover_waysAny (List.mem_map_of_mem hq)
          (htail.cover hlook hhead rfl (fun c hc => hs c (List.mem_cons_of_mem e hc))
            fun h => hne (List.mem_cons_of_mem _ h)).1
        obtain ⟨y, hy, hofy, hlefty⟩ := hcover x.2 ts v z hts hleft
        exact ⟨_, hsub _ (hclosed y hy),
          ⟨start, stop, fields, e :: cs, rfl, e, cs, rfl, hof, hofy⟩, hlefty⟩

end Cover

section Settled

variable {gap : Gap} {stretch : List Kind} {S : Tree → Prop}

private theorem head_of_gap
    (hgap : ∀ q k, gap = some (q, k) → stretch.head? = some k ∧ q.Settles stretch S) :
    ∀ k, gap.map Prod.snd = some k → stretch.head? = some k := by
  intro k hk
  obtain ⟨⟨q, k⟩, hq, rfl⟩ := Option.map_eq_some_iff.mp hk
  exact (hgap q k hq).1

/-- The ways to read rules take in all sound trees, if the open stretch is settled. -/
theorem Rule.cover_ways
    (hgap : ∀ q k, gap = some (q, k) → stretch.head? = some k ∧ q.Settles stretch S) (depth : Nat) :
    Ways.CoverRules stretch S (Rule.ways gap depth) := by
  induction depth with
  | zero => nofun
  | succ depth ih =>
    intro r w rs t v z hr h ht hpart hk
    rw [Rule.ways] at h
    split at h
    · rename_i hat
      obtain ⟨⟨q, k⟩, hq, rfl⟩ := Option.map_eq_some_iff.mp hat.1
      obtain ⟨left, rfl⟩ := List.head?_eq_some_iff.mp hat.2
      obtain rfl := Option.some.inj h
      rw [Row.fill_none, List.append_assoc] at hk
      obtain ⟨hS, hv⟩ := (hgap q k hq).2 t v _ ht hpart hk
      exact ⟨_, List.mem_cons_self, hS, hv⟩
    · rw [← ht.flatMap_kinds_children hpart hr] at hk
      exact Rule.cover_body ih (head_of_gap hgap) ht hpart h hk

/-- A rule settles a row that it can be read over in a single way. -/
theorem Rule.settles_of_ways
    (hgap : ∀ q k, gap = some (q, k) → stretch.head? = some k ∧ q.Settles stretch S) {r : Rule}
    (hr : r ≠ .compilationUnit) {depth : Nat} {w : Row} {o : Outline}
    (h : r.ways gap depth w = some [(o, [])]) : r.Settles (w.fill stretch) (o.Of S) := by
  intro t v z ht hpart hk
  obtain ⟨x, hx, hof, hleft⟩ := Rule.cover_ways hgap depth r w _ t v z hr h ht hpart hk
  obtain rfl := List.mem_singleton.mp hx
  exact ⟨hof, hleft⟩

/-- A rule settles a row without gaps that it can be read over in a single way. -/
theorem Rule.settles_of_closed_ways {r : Rule} (hr : r ≠ .compilationUnit) {depth : Nat}
    {ks : List Kind} {o : Outline} (h : r.ways none depth (ks.map some) = some [(o, [])]) :
    r.Settles ks (o.Of S) := by
  have hrow : r.Settles (Row.fill [] (ks.map some)) (o.Of S) :=
    Rule.settles_of_ways (by simp) hr h
  rwa [Row.fill_map] at hrow

/-- A sound tree of a whole unit is one of those in which its row can be read. -/
theorem Tree.IsSound.exists_of_unit_ways
    (hgap : ∀ q k, gap = some (q, k) → stretch.head? = some k ∧ q.Settles stretch S) {t : Tree}
    (ht : t.IsSound) (hr : t.rule? = some .compilationUnit) {depth : Nat} {w : Row}
    {rs : List (Outline × Row)} (hk : t.tokens.map Token.kind ++ [.eof] = w.fill stretch)
    (h : (Grammar.body .compilationUnit).ways (gap.map Prod.snd) (Rule.ways gap depth)
      .compilationUnit w = some rs) : ∃ x ∈ rs, x.1.Of S t := by
  have hpart : t.part = .rule .compilationUnit := by
    cases t with
    | leaf | missing => cases hr
    | node => rw [part, Option.some.inj hr]
  rw [← ht.flatMap_kinds_unit hr] at hk
  obtain ⟨x, hx, hof, -⟩ := Rule.cover_body (Rule.cover_ways hgap depth) (head_of_gap hgap)
    ht hpart h (congrArg (· ++ []) hk)
  exact ⟨x, hx, hof⟩

/-- A row that is read in a single way has a single tree as a whole unit. -/
theorem Tree.IsSound.of_unit_ways
    (hgap : ∀ q k, gap = some (q, k) → stretch.head? = some k ∧ q.Settles stretch S) {t : Tree}
    (ht : t.IsSound) (hr : t.rule? = some .compilationUnit) {depth : Nat} {w : Row} {o : Outline}
    (hk : t.tokens.map Token.kind ++ [.eof] = w.fill stretch)
    (h : (Grammar.body .compilationUnit).ways (gap.map Prod.snd) (Rule.ways gap depth)
      .compilationUnit w = some [(o, [])]) : o.Of S t := by
  obtain ⟨x, hx, hof⟩ := ht.exists_of_unit_ways hgap hr hk h
  obtain rfl := List.mem_singleton.mp hx
  exact hof

end Settled

/-! ### Trees by their words -/

def Token.word (t : Token) : Kind × String := (t.kind, t.text)

namespace Tree

def words (t : Tree) : List (Kind × String) := t.tokens.map Token.word

def ofWord (w : Kind × String) : Tree := .leaf ⟨w.1, 0, default, w.2⟩ false

mutual

/-- A tree without the places of its tokens and nodes and without the labels of its parts. -/
def bare : Tree → Tree
  | .leaf t stray => .leaf ⟨t.kind, 0, default, t.text⟩ stray
  | .missing k => .missing k
  | .node rule _ _ _ children => .node rule default none [] (bareAll children)

def bareAll : List Tree → List Tree
  | [] => []
  | t :: ts => t.bare :: bareAll ts

end

theorem bareAll_eq_map (ts : List Tree) : bareAll ts = ts.map bare := by
  induction ts with
  | nil => rfl
  | cons t ts ih => rw [bareAll, ih, List.map_cons]

theorem words_node (rule : Rule) (start : Token) (stop : Option Token) (fields : List (Field × Tree))
    (children : List Tree) :
    (Tree.node rule start stop fields children).words = children.flatMap words := by
  rw [words, tokens]
  induction children with
  | nil => rfl
  | cons c cs ih => rw [tokensAll, List.map_append, ih, List.flatMap_cons, words]

theorem words_leaf {token : Token} {stray : Bool} (h : token.kind ≠ .eof) :
    (Tree.leaf token stray).words = [token.word] := by
  rw [words, tokens, if_neg h, List.map_singleton]

end Tree

namespace Outline

mutual

/-- The leaves of an outline, and its gaps, as a row. -/
def row : Outline → Row
  | .leaf k => [some k]
  | .node _ os => rowAll os
  | .gap => [none]

def rowAll : List Outline → Row
  | [] => []
  | o :: os => o.row ++ rowAll os

end

mutual

/-- Takes trees for the leaves and gaps of an outline from a list, and leaves the others. -/
def grow : Outline → List Tree → Tree × List Tree
  | .leaf _, ps => (ps.headD default, ps.tail)
  | .gap, ps => (ps.headD default, ps.tail)
  | .node r os, ps => (.node r default none [] (growAll os ps).1, (growAll os ps).2)

def growAll : List Outline → List Tree → List Tree × List Tree
  | [], ps => ([], ps)
  | o :: os, ps => ((o.grow ps).1 :: (growAll os (o.grow ps).2).1, (growAll os (o.grow ps).2).2)

end

variable {S : Tree → Prop}

/-- A tree in the place of a leaf or gap. -/
def Fits (S : Tree → Prop) : Option Kind → Tree → Prop
  | some k, t => ∃ token, t = .leaf token false ∧ token.kind = k
  | none, t => S t

mutual

/-- A tree is put together from its leaves and the trees in its gaps. -/
theorem Of.exists_grow : ∀ (o : Outline) {t : Tree}, o.Of S t →
    ∃ ps, List.Forall₂ (Fits S) o.row ps ∧ t.words = ps.flatMap Tree.words ∧
      ∀ rest, o.grow (ps.map Tree.bare ++ rest) = (t.bare, rest)
  | .leaf k, t, h => by
    obtain ⟨token, rfl, hk⟩ := by simpa only [Of] using h
    exact ⟨[.leaf token false], .cons ⟨token, rfl, hk⟩ .nil, by simp, fun _ => rfl⟩
  | .gap, t, h => by
    have hS : S t := by simpa only [Of] using h
    exact ⟨[t], .cons hS .nil, by simp, fun _ => rfl⟩
  | .node r os, t, h => by
    obtain ⟨start, stop, fields, children, rfl, hall⟩ := by simpa only [Of] using h
    obtain ⟨ps, hfits, hwords, hgrow⟩ := OfAll.exists_grow os hall
    refine ⟨ps, hfits, ?_, fun rest => ?_⟩
    · rw [Tree.words_node, hwords]
    · rw [grow, hgrow, Tree.bare]

theorem OfAll.exists_grow : ∀ (os : List Outline) {ts : List Tree}, OfAll S os ts →
    ∃ ps, List.Forall₂ (Fits S) (rowAll os) ps ∧ ts.flatMap Tree.words = ps.flatMap Tree.words ∧
      ∀ rest, growAll os (ps.map Tree.bare ++ rest) = (Tree.bareAll ts, rest)
  | [], ts, h => by
    obtain rfl : ts = [] := by simpa only [OfAll] using h
    exact ⟨[], .nil, rfl, fun _ => rfl⟩
  | o :: os, ts, h => by
    obtain ⟨t, us, rfl, ht, hus⟩ := by simpa only [OfAll] using h
    obtain ⟨ps, hps, hwords, hgrow⟩ := Of.exists_grow o ht
    obtain ⟨qs, hqs, hwords', hgrow'⟩ := OfAll.exists_grow os hus
    refine ⟨ps ++ qs, List.rel_append hps hqs, ?_, fun rest => ?_⟩
    · rw [List.flatMap_cons, List.flatMap_append, hwords, hwords']
    · rw [growAll, List.map_append, List.append_assoc, hgrow, hgrow', Tree.bareAll]

end

/-- Trees for the leaves of a row are the words of the row. -/
theorem Fits.words {ks : List Kind} {ps : List Tree} (h : List.Forall₂ (Fits S) (ks.map some) ps)
    (hne : .eof ∉ ks) : (ps.flatMap Tree.words).map Prod.fst = ks ∧
      ps.map Tree.bare = (ps.flatMap Tree.words).map Tree.ofWord := by
  induction ks generalizing ps with
  | nil =>
    obtain rfl := List.forall₂_nil_left_iff.mp h
    exact ⟨rfl, rfl⟩
  | cons k ks ih =>
    obtain ⟨_, ps, ⟨token, rfl, rfl⟩, hps, rfl⟩ := List.forall₂_cons_left_iff.mp h
    obtain ⟨hk, hks⟩ := by simpa using hne
    obtain ⟨hkinds, hbare⟩ := ih hps hks
    rw [List.map_cons, List.flatMap_cons, Tree.words_leaf (Ne.symm hk), List.map_append,
      List.map_append, hkinds, hbare]
    exact ⟨rfl, rfl⟩

private theorem Fits.split {ks : List Kind} {row : Row} {qs : List Tree}
    (h : List.Forall₂ (Fits S) (ks.map some ++ row) qs) :
    ∃ ps rs, List.Forall₂ (Fits S) (ks.map some) ps ∧ List.Forall₂ (Fits S) row rs ∧ qs = ps ++ rs := by
  refine ⟨qs.take ks.length, qs.drop ks.length, ?_, ?_, (List.take_append_drop _ _).symm⟩
  · simpa using List.forall₂_take ks.length h
  · simpa using List.forall₂_drop ks.length h

/-- A tree without gaps is put together from its words. -/
theorem Of.bare_eq {o : Outline} {t : Tree} (h : o.Of S t) (ks : List Kind)
    (hrow : o.row = ks.map some) (hne : .eof ∉ ks) : t.bare = (o.grow (t.words.map Tree.ofWord)).1 := by
  obtain ⟨ps, hps, hwords, hgrow⟩ := Of.exists_grow o h
  rw [hwords, ← (Fits.words (hrow ▸ hps) hne).2, ← List.append_nil (ps.map Tree.bare), hgrow]

/-- A tree with one gap is put together from the words before the gap, the tree in it and the leaves
behind it. -/
theorem Of.exists_bare_eq {o : Outline} {t : Tree} (h : o.Of S t) (ks ls : List Kind)
    (hrow : o.row = ks.map some ++ none :: ls.map some) (hne : .eof ∉ ks) :
    ∃ g ps us, S g ∧ List.Forall₂ (Fits S) (ls.map some) ps ∧ us.map Prod.fst = ks ∧
      t.words = us ++ (g.words ++ ps.flatMap Tree.words) ∧
      t.bare = (o.grow (us.map Tree.ofWord ++ g.bare :: ps.map Tree.bare)).1 := by
  obtain ⟨qs, hqs, hwords, hgrow⟩ := Of.exists_grow o h
  rw [hrow] at hqs
  obtain ⟨as, bs, has, hbs, rfl⟩ := Fits.split hqs
  obtain ⟨g, ps, hg, hps, rfl⟩ := List.forall₂_cons_left_iff.mp hbs
  obtain ⟨hkinds, hbare⟩ := Fits.words has hne
  refine ⟨g, ps, as.flatMap Tree.words, hg, hps, hkinds, by simp [hwords], ?_⟩
  rw [← hbare, ← List.map_cons, ← List.map_append, ← List.append_nil (List.map _ _), hgrow]

end Outline

/-- The tree of a unit that is read in a single way is put together from its words and the end. -/
theorem Tree.IsSound.exists_bare_of_unit_ways {t : Tree} (ht : t.IsSound)
    (hr : t.rule? = some .compilationUnit) {depth : Nat} {ks : List Kind} {o : Outline}
    (hk : t.words.map Prod.fst = ks) (hne : .eof ∉ ks)
    (h : (Grammar.body .compilationUnit).ways none (Rule.ways none depth) .compilationUnit
      ((ks ++ [Kind.eof]).map some) = some [(o, [])]) (hrow : o.row = (ks ++ [Kind.eof]).map some) :
    ∃ last : Token, t.bare = (o.grow (t.words.map ofWord ++ [(Tree.leaf last false).bare])).1 := by
  have hkinds : t.tokens.map Token.kind ++ [.eof] = Row.fill [] ((ks ++ [Kind.eof]).map some) := by
    rw [Row.fill_map, ← hk, words, List.map_map]
    rfl
  have hnogap : ∀ q k, (none : Gap) = some (q, k) →
      ([] : List Kind).head? = some k ∧ q.Settles [] fun _ => True := by simp
  obtain ⟨qs, hqs, hwords, hgrow⟩ := Outline.Of.exists_grow o (ht.of_unit_ways hnogap hr hkinds h)
  rw [hrow, List.map_append] at hqs
  obtain ⟨ps, rs, hps, hrs, rfl⟩ := Outline.Fits.split hqs
  obtain ⟨_, us, ⟨last, rfl, hlast⟩, hus, rfl⟩ := List.forall₂_cons_left_iff.mp hrs
  obtain rfl := List.forall₂_nil_left_iff.mp hus
  have hend : (Tree.leaf last false).words = [] := by simp [words, tokens, hlast]
  refine ⟨last, ?_⟩
  rw [hwords, List.flatMap_append, List.flatMap_singleton, hend, List.append_nil,
    ← (Outline.Fits.words hps hne).2, ← List.map_singleton, ← List.map_append,
    ← List.append_nil (List.map _ _), hgrow]

/-! ### Rows between braces -/

/-- A rule that stands for a row of nodes of another rule between braces. -/
def Rule.Encloses (r q : Rule) : Prop :=
  Grammar.body r = Grammar.only [Grammar.tok .lbrace, Grammar.many [Grammar.use q], Grammar.tok .rbrace]

/-- A tree of a row between braces, with such trees as `S` for the stretches between them. -/
def IsBraced (r : Rule) (S : Tree → Prop) (bs : List (List Kind)) (t : Tree) : Prop :=
  ∃ start stop fields opening closing, ∃ ds : List Tree,
    t = .node r start stop fields (.leaf opening false :: (ds ++ [.leaf closing false])) ∧
      opening.kind = .lbrace ∧ closing.kind = .rbrace ∧ (∀ d ∈ ds, S d) ∧ ds.map Tree.kinds = bs

namespace Rule.Encloses

variable {r q : Rule}

theorem alternatives_eq (h : r.Encloses q) : Accessor.alternatives r =
    [.seq [Grammar.tok .lbrace, Grammar.many [Grammar.use q], Grammar.tok .rbrace]] := by
  rw [Accessor.alternatives, h, Grammar.only]

/-- Nodes that spell their parts spell the row between braces. -/
theorem spells (h : r.Encloses q) {bs : List (List Kind)} (hb : ∀ b ∈ bs, q.Spells b) :
    r.Spells (.lbrace :: (bs.flatten ++ [.rbrace])) := by
  have hmany : (Grammar.many [Grammar.use q]).Spells bs.flatten := by
    induction bs with
    | nil => exact .done
    | cons b bs ih =>
      rw [List.forall_mem_cons] at hb
      obtain ⟨p, hp, hpb⟩ := hb.1
      have hone : (Phrase.seq [Grammar.use q]).Spells (b ++ []) := .cons (.call hp hpb) .nil
      rw [List.append_nil] at hone
      exact .more hone (ih hb.2)
  rw [Rule.Spells, h.alternatives_eq]
  have hclosing : (Phrase.seq [Grammar.tok .rbrace]).Spells ([.rbrace] ++ []) := .cons .token .nil
  have hopening : (Grammar.tok .lbrace).Spells [.lbrace] := .token
  exact ⟨_, List.mem_singleton.mpr rfl, .cons hopening (.cons hmany hclosing)⟩

/-- The nodes of a loop over a rule. -/
private theorem forall_rule {p : Phrase} {ws : List Part} (h : p.Word ws)
    (hp : p = Grammar.many [Grammar.use q]) : ∀ x ∈ ws, x = .rule q := by
  induction h with
  | token | oneOf | call | nil | cons | choice | opt | skip | plus => cases hp
  | done => simp
  | more first _ _ ih =>
    obtain rfl := Phrase.star.inj hp
    cases first with | cons first rest => ?_
    cases first
    cases rest
    simpa using ih rfl

/-- A sound token. -/
private theorem exists_leaf {c : Tree} (hc : c.IsSound) {k : Kind} (hk : c.part = .token k) :
    ∃ u, c = .leaf u false ∧ u.kind = k := by
  cases c with
  | leaf u stray =>
    obtain rfl : stray = false := hc.1
    exact ⟨u, rfl, Part.token.inj hk⟩
  | missing => cases hc.1
  | node => cases hk

/-- The children of a row between braces. -/
theorem children (h : r.Encloses q) {t : Tree} (ht : t.IsSound) (hr : t.part = .rule r) :
    ∃ start stop fields opening closing, ∃ ds : List Tree,
      t = .node r start stop fields (.leaf opening false :: (ds ++ [.leaf closing false])) ∧
        opening.kind = .lbrace ∧ closing.kind = .rbrace ∧ ∀ d ∈ ds, d.IsSound ∧ d.part = .rule q := by
  cases t with
  | leaf | missing => cases hr
  | node rule start stop fields cs =>
    obtain rfl := Part.rule.inj hr
    obtain ⟨⟨p, hp, hword⟩, hs⟩ := ht.node
    rw [h.alternatives_eq, List.mem_singleton] at hp
    subst hp
    generalize hcs : cs.map Tree.part = ws at hword
    cases hword with | cons opening rest => ?_
    cases rest with | cons loop rest => ?_
    cases rest with | cons closing rest => ?_
    cases opening
    cases closing
    cases rest
    rw [List.append_nil, List.singleton_append] at hcs
    obtain ⟨c, cs, rfl, hc, hcs⟩ := List.map_eq_cons_iff.mp hcs
    obtain ⟨ds, es, rfl, hds, hes⟩ := List.map_eq_append_iff.mp hcs
    obtain ⟨e, rfl, he⟩ := List.map_eq_singleton_iff.mp hes
    obtain ⟨opening, rfl, hopening⟩ := exists_leaf (hs c (by simp)) hc
    obtain ⟨closing, rfl, hclosing⟩ := exists_leaf (hs e (by simp)) he
    refine ⟨start, stop, fields, opening, closing, ds, rfl, hopening, hclosing, fun d hd => ?_⟩
    exact ⟨hs d (by simp [hd]), forall_rule loop rfl _ (hds ▸ List.mem_map_of_mem hd)⟩

/-- Stretches that each settle a node and do not begin with a brace settle the row between braces. -/
theorem settles (h : r.Encloses q) (hr : r ≠ .compilationUnit) (hq : q ≠ .compilationUnit)
    {S : Tree → Prop} {bs : List (List Kind)} (hb : ∀ b ∈ bs, q.Settles b S)
    (hfirst : ∀ b ∈ bs, ∃ k, b.head? = some k ∧ k ≠ .rbrace) {depth : Nat}
    (hend : q.ways none depth [some .rbrace] = some []) :
    r.Settles (.lbrace :: (bs.flatten ++ [.rbrace])) (IsBraced r S bs) := by
  intro t v z ht hpart hk
  obtain ⟨start, stop, fields, opening, closing, ds, rfl, hopening, hclosing, hds⟩ :=
    h.children ht hpart
  rw [← ht.flatMap_kinds_children hpart hr] at hk
  simp only [Tree.children, List.flatMap_cons, List.flatMap_append, Tree.kinds, hopening, hclosing,
    List.flatMap_nil, List.append_nil, List.cons_append, List.append_assoc, List.cons.injEq,
    true_and] at hk
  suffices hrow : ((∀ d ∈ ds, S d) ∧ ds.map Tree.kinds = bs) ∧ v = z from
    ⟨⟨start, stop, fields, opening, closing, ds, rfl, hopening, hclosing, hrow.1⟩, hrow.2⟩
  clear ht hpart
  induction bs generalizing ds with
  | nil =>
    cases ds with
    | nil => simpa using hk
    | cons d ds =>
      -- No node of the rule begins with the brace that closes the row.
      have hd := hds d List.mem_cons_self
      have hcover : Ways.CoverRules [] (fun _ => True) (Rule.ways none depth) :=
        Rule.cover_ways (by simp) depth
      have hkinds : d.kinds ++ (ds.flatMap Tree.kinds ++ .rbrace :: v) = [.rbrace] ++ z := by
        simpa using hk
      obtain ⟨x, hx, -⟩ := hcover q _ _ d _ z hq hend hd.1 hd.2 hkinds
      cases hx
  | cons b bs ih =>
    rw [List.forall_mem_cons] at hb hfirst
    cases ds with
    | nil =>
      obtain ⟨⟨k, hk', hne⟩, -⟩ := hfirst
      obtain ⟨b', rfl⟩ := List.head?_eq_some_iff.mp hk'
      simp at hk
      exact absurd hk.1.symm hne
    | cons d ds =>
      rw [List.forall_mem_cons] at hds
      rw [List.flatten_cons, List.flatMap_cons, List.append_assoc, List.append_assoc] at hk
      obtain ⟨⟨hS, hkinds⟩, hk⟩ := hb.1.kinds_eq d _ _ hds.1.1 hds.1.2 hk
      obtain ⟨⟨hall, hmap⟩, hv⟩ := ih hb.2 hfirst.2 ds hds.2 hk
      rw [List.forall_mem_cons, List.map_cons, hkinds, hmap]
      exact ⟨⟨⟨hS, hall⟩, rfl⟩, hv⟩

end Rule.Encloses

end ResourceNames.Java
