import TileSelect.Proofs.GraphEvaluation
import TileSelect.Proofs.SelectionCompleteness
import Mathlib.Data.List.Forall2

/-! # Selection sees expressions only

Two nodes, of one graph or of two, may stand for the same expression although they have different names and
numbers and share different values below them.  Matching, boundaries and prices go by the expression, so the tile
selected for a node does not depend on anything else; in particular it does not depend on the root that selection
started from.  Annotations are compared without the number of their node, and the tile by its place in the
catalog: the first of the cheapest. -/
namespace TileSelect

/-- Opcodes with ordered operands, without names. -/
inductive Expression where
  | leaf
  | binary (op : Opcode) (lhs rhs : Expression)
  deriving DecidableEq

def Interpretation.expressions : Interpretation Expression where
  leaf _ := .leaf
  apply := .binary

namespace Graph

/-- The expression under a node, with shared values repeated. -/
def expression? (g : Graph) (id : NodeId) : Option Expression := g.eval .expressions id

/-- Nodes of two graphs that stand for the same expression. -/
def Alike (g g' : Graph) (n n' : NodeId) : Prop :=
  ∃ e, g.expression? n = some e ∧ g'.expression? n' = some e

theorem alike_of_eq {g g' : Graph} {n n' : NodeId} (hn : n < g.size)
    (h : g.expression? n = g'.expression? n') : Alike g g' n n' := by
  obtain ⟨e, he⟩ := exists_eval .expressions hn
  exact ⟨e, he, h ▸ he⟩

theorem Alike.symm {g g' : Graph} {n n' : NodeId} (h : Alike g g' n n') : Alike g' g n' n := by
  obtain ⟨e, hn, hn'⟩ := h
  exact ⟨e, hn', hn⟩

theorem lt_size_of_expression? {g : Graph} {n : NodeId} {e : Expression}
    (h : g.expression? n = some e) : n < g.size := by
  rw [expression?, eval] at h
  split at h
  · cases h
  · next hnode => exact lt_size_of_node? hnode
  · next hnode => exact lt_size_of_node? hnode

theorem expression?_leaf {g : Graph} {n : NodeId} {name : String}
    (h : g.node? n = some (.leaf name)) : g.expression? n = some .leaf :=
  eval_leaf .expressions h

theorem exists_expression?_binary {g : Graph} {n lhs rhs : NodeId} {name : String} {op : Opcode}
    (h : g.node? n = some (.binary name op lhs rhs)) :
    ∃ l r, g.expression? lhs = some l ∧ g.expression? rhs = some r ∧
      g.expression? n = some (.binary op l r) := by
  obtain ⟨hl, hr⟩ := lt_of_node? h
  have hn := lt_size_of_node? h
  obtain ⟨l, hl⟩ := exists_eval .expressions (Nat.lt_trans hl hn)
  obtain ⟨r, hr⟩ := exists_eval .expressions (Nat.lt_trans hr hn)
  exact ⟨l, r, hl, hr, eval_binary .expressions h hl hr⟩

/-- Alike nodes are both leaves, or both apply one opcode to alike operands. -/
theorem Alike.cases {g g' : Graph} {n n' : NodeId} (h : Alike g g' n n') :
    (∃ name name', g.node? n = some (.leaf name) ∧ g'.node? n' = some (.leaf name')) ∨
    ∃ name name' op lhs rhs lhs' rhs', g.node? n = some (.binary name op lhs rhs) ∧
      g'.node? n' = some (.binary name' op lhs' rhs') ∧
      Alike g g' lhs lhs' ∧ Alike g g' rhs rhs' := by
  obtain ⟨e, he, he'⟩ := h
  obtain ⟨node, hnode⟩ := exists_node_of_lt (lt_size_of_expression? he)
  obtain ⟨node', hnode'⟩ := exists_node_of_lt (lt_size_of_expression? he')
  cases node with
  | leaf name =>
    obtain rfl := Option.some.inj ((expression?_leaf hnode).symm.trans he)
    cases node' with
    | leaf name' => exact Or.inl ⟨name, name', hnode, hnode'⟩
    | binary name' op' lhs' rhs' =>
      obtain ⟨l', r', -, -, hbinary⟩ := exists_expression?_binary hnode'
      cases hbinary.symm.trans he'
  | binary name op lhs rhs =>
    obtain ⟨l, r, hl, hr, hbinary⟩ := exists_expression?_binary hnode
    obtain rfl := Option.some.inj (hbinary.symm.trans he)
    cases node' with
    | leaf name' => cases (expression?_leaf hnode').symm.trans he'
    | binary name' op' lhs' rhs' =>
      obtain ⟨l', r', hl', hr', hbinary'⟩ := exists_expression?_binary hnode'
      cases hbinary'.symm.trans he'
      exact Or.inr ⟨name, name', op, lhs, rhs, lhs', rhs', hnode, hnode', ⟨l, hl, hl'⟩, ⟨r, hr, hr'⟩⟩

theorem Alike.opcode_eq {g g' : Graph} {n n' : NodeId} (h : Alike g g' n n') {node node' : Node}
    (hnode : g.node? n = some node) (hnode' : g'.node? n' = some node') :
    node.opcode = node'.opcode := by
  rcases h.cases with
    ⟨name, name', hleaf, hleaf'⟩ | ⟨name, name', op, lhs, rhs, lhs', rhs', hbinary, hbinary', -, -⟩
  · cases hnode.symm.trans hleaf
    cases hnode'.symm.trans hleaf'
    rfl
  · cases hnode.symm.trans hbinary
    cases hnode'.symm.trans hbinary'
    rfl

/-- The trees under alike nodes have alike nodes in the same places. -/
theorem Alike.unfolded {g g' : Graph} {n n' : NodeId} (h : Alike g g' n n') :
    List.Forall₂ (Alike g g') (g.unfolded n) (g'.unfolded n') := by
  induction n using Nat.strong_induction_on generalizing n' with
  | _ n ih =>
    rcases h.cases with
      ⟨name, name', hleaf, hleaf'⟩ | ⟨name, name', op, lhs, rhs, lhs', rhs', hnode, hnode', hl, hr⟩
    · rw [unfolded_leaf hleaf, unfolded_leaf hleaf']
      exact .cons h .nil
    · rw [unfolded_binary hnode, unfolded_binary hnode']
      have hleft := ih lhs (lt_of_node? hnode).1 hl
      have hright := ih rhs (lt_of_node? hnode).2 hr
      exact List.rel_append (List.rel_append hleft hright) (.cons h .nil)

/-- The first node of a walk with a property is the first of the tree with it. -/
theorem find?_eraseDups (p : NodeId → Bool) (ids : List NodeId) :
    ids.eraseDups.find? p = ids.find? p := by
  cases ids with
  | nil => rfl
  | cons id ids =>
    have hlength : (ids.filter fun n => !n == id).length < ids.length + 1 :=
      Nat.lt_succ_of_le (List.length_filter_le _ ids)
    rw [List.eraseDups_cons, List.find?_cons, List.find?_cons,
      find?_eraseDups p (ids.filter fun n => !n == id)]
    cases hid : p id with
    | true => rfl
    | false =>
      -- leaving out `id` leaves out nothing with the property
      rw [List.find?_filter]
      show ids.find? _ = ids.find? p
      congr 1
      funext n
      by_cases hn : n = id
      · simp [hn, hid]
      · simp [hn]
termination_by ids.length

end Graph

section Matching

variable {g g' : Graph} {n n' : NodeId}

theorem Shape.accepts_eq (h : g.Alike g' n n') (shape : Shape) :
    shape.accepts g n = shape.accepts g' n' := by
  induction shape generalizing n n' with
  | free => rfl
  | node op left right ihl ihr =>
    rcases h.cases with
      ⟨name, name', hleaf, hleaf'⟩ | ⟨name, name', op', lhs, rhs, lhs', rhs', hnode, hnode', hl, hr⟩
    · rw [Shape.accepts, Shape.accepts, hleaf, hleaf']
    · rw [Shape.accepts, Shape.accepts, hnode, hnode']
      simp only
      rw [ihl hl, ihr hr]

theorem Shape.boundary_alike (h : g.Alike g' n n') {shape : Shape} {b b' : Boundary}
    (hb : shape.boundary g n = .ok b) (hb' : shape.boundary g' n' = .ok b') :
    List.Forall₂ (g.Alike g') b.inputs b'.inputs := by
  induction shape generalizing n n' b b' with
  | free =>
    obtain rfl : ⟨[n], []⟩ = b := Except.ok.inj hb
    obtain rfl : ⟨[n'], []⟩ = b' := Except.ok.inj hb'
    exact .cons h .nil
  | node op left right ihl ihr =>
    rcases h.cases with
      ⟨name, name', hleaf, hleaf'⟩ | ⟨name, name', op', lhs, rhs, lhs', rhs', hnode, hnode', hl, hr⟩
    · rcases Shape.boundary_node_eq_ok_iff.mp hb with
        ⟨_, -, -, -, rfl⟩ | ⟨_, _, _, _, _, _, hother, -⟩
      · rcases Shape.boundary_node_eq_ok_iff.mp hb' with
          ⟨_, -, -, -, rfl⟩ | ⟨_, _, _, _, _, _, hother', -⟩
        · exact .nil
        · cases hleaf'.symm.trans hother'
      · cases hleaf.symm.trans hother
    · rcases Shape.boundary_node_eq_ok_iff.mp hb with
        ⟨_, hother, -⟩ | ⟨_, _, _, _, l, r, hsame, hleft, hright, rfl⟩
      · cases hnode.symm.trans hother
      · cases hnode.symm.trans hsame
        rcases Shape.boundary_node_eq_ok_iff.mp hb' with
          ⟨_, hother', -⟩ | ⟨_, _, _, _, l', r', hsame', hleft', hright', rfl⟩
        · cases hnode'.symm.trans hother'
        · cases hnode'.symm.trans hsame'
          exact List.rel_append (ihl hl hleft hleft') (ihr hr hright hright')

theorem Catalog.matchesAt_eq (h : g.Alike g' n n') (catalog : Catalog) :
    catalog.matchesAt g n = catalog.matchesAt g' n' := by
  unfold Catalog.matchesAt
  congr 1
  funext tile
  exact Shape.accepts_eq h tile.pattern.shape

/-- In two lists of alike nodes the first nodes that no tile matches are alike, if there are such nodes. -/
theorem Catalog.find?_alike (catalog : Catalog) {ids ids' : List NodeId}
    (h : List.Forall₂ (g.Alike g') ids ids') :
    Option.Rel (g.Alike g') (ids.find? fun n => !catalog.matchesAt g n)
      (ids'.find? fun n => !catalog.matchesAt g' n) := by
  induction h with
  | nil => exact .none
  | @cons m m' ids ids' hm _ ih =>
    rw [List.find?_cons, List.find?_cons, ← catalog.matchesAt_eq hm]
    cases catalog.matchesAt g m with
    | true => exact ih
    | false => exact .some hm

end Matching

/-- What an annotation says, whatever node it is of. -/
def Annotation.verdict (a : Annotation) : Tile × Loc × UInt64 := (a.tile, a.loc, a.cost)

namespace Selection

theorem cheapest?_verdict {found found' : List Annotation}
    (h : List.Forall₂ (fun a a' => a.verdict = a'.verdict) found found') :
    (cheapest? found).map Annotation.verdict = (cheapest? found').map Annotation.verdict := by
  induction h with
  | nil => rfl
  | @cons a a' rest rest' ha _ ih =>
    have hcost : a.cost = a'.cost := congrArg (fun v => v.2.2) ha
    rw [cheapest?, cheapest?]
    cases hrest : cheapest? rest with
    | none =>
      rw [hrest, Option.map_none, eq_comm, Option.map_eq_none_iff] at ih
      simp [ih, ha]
    | some b =>
      rw [hrest, Option.map_some, eq_comm, Option.map_eq_some_iff] at ih
      obtain ⟨b', hrest', hb⟩ := ih
      have hcost' : b'.cost = b.cost := congrArg (fun v => v.2.2) hb
      simp only [hrest', hcost', ← hcost]
      split
      · exact congrArg some hb.symm
      · exact congrArg some ha

/-- The cheapest annotation that is chosen comes before all others as cheap. -/
theorem exists_split_of_cheapest? {found : List Annotation} {a : Annotation}
    (h : cheapest? found = some a) :
    ∃ before after, found = before ++ a :: after ∧ ∀ b ∈ before, a.cost < b.cost := by
  induction found generalizing a with
  | nil => cases h
  | cons c rest ih =>
    rw [cheapest?] at h
    cases hrest : cheapest? rest with
    | none =>
      obtain rfl : c = a := by simpa [hrest] using h
      exact ⟨[], rest, rfl, by simp⟩
    | some b =>
      simp only [hrest] at h
      split at h
      · next hlt =>
        obtain rfl : b = a := Option.some.inj h
        obtain ⟨before, after, rfl, hbefore⟩ := ih hrest
        refine ⟨c :: before, after, rfl, fun d hd => ?_⟩
        rcases List.mem_cons.mp hd with rfl | hd
        · exact hlt
        · exact hbefore d hd
      · obtain rfl : c = a := Option.some.inj h
        exact ⟨[], rest, rfl, by simp⟩

/-- The tile at a place of the catalog is the one selected for a node: it matches, its price is the annotation,
no tile that matches has a lower price and those before it have higher ones. -/
def SettlesOn (s : Selection) (catalog : Catalog) (id : NodeId) (place : Nat) : Prop :=
  ∃ tile a, catalog.tiles[place]? = some tile ∧ tile.pattern.accepts s.graph id = true ∧
    s.candidate id tile = .ok a ∧ s.annotation? id = some a ∧
    ∀ place' tile' b, catalog.tiles[place']? = some tile' →
      tile'.pattern.accepts s.graph id = true → s.candidate id tile' = .ok b →
      a.cost ≤ b.cost ∧ (place' < place → a.cost < b.cost)

theorem Visited.exists_settlesOn {g : Graph} {root : NodeId} {catalog : Catalog}
    {done : List NodeId} {s : Selection} (h : Visited g root catalog done s) {id : NodeId}
    (hid : id ∈ done) : ∃ place, s.SettlesOn catalog id place := by
  obtain ⟨a, ha⟩ := (h.annotated id).mpr hid
  obtain ⟨-, found, hfound, hcheapest⟩ := choose_eq_ok_iff.mp (h.chosen id a ha)
  have hleast := (cheapest?_spec hcheapest).2
  obtain ⟨before, after, hsplit, hbefore⟩ := exists_split_of_cheapest? hcheapest
  -- where the annotation stands among the candidates shows where its tile stands in the catalog
  have hmap := Result.mapM_eq_ok_iff.mp (mapM_candidate_eq_ok hfound)
  rw [hsplit, List.map_append, List.map_cons, List.map_eq_append_iff] at hmap
  obtain ⟨earlier, rest, htiles, hearlier, hrest⟩ := hmap
  obtain ⟨tile, later, rfl, hcandidate, -⟩ := List.map_eq_cons_iff.mp hrest
  obtain ⟨first, second, hcatalog, hfirst, hsecond⟩ := List.filter_eq_append_iff.mp htiles
  obtain ⟨skipped, last, rfl, hskipped, haccepts, -⟩ := List.filter_eq_cons_iff.mp hsecond
  rw [← List.append_assoc] at hcatalog
  have hplace : catalog.tiles[(first ++ skipped).length]? = some tile := by
    rw [hcatalog, List.getElem?_append_right (Nat.le_refl _), Nat.sub_self, List.getElem?_cons_zero]
  refine ⟨(first ++ skipped).length, tile, a, hplace, haccepts, hcandidate, ha, ?_⟩
  intro place' tile' b hplace' haccepts' hcandidate'
  have hmem : tile' ∈ catalog.tiles := List.mem_of_getElem? hplace'
  refine ⟨hleast b ((mem_of_candidates_eq_ok hfound).mpr ⟨tile', hmem, haccepts', hcandidate'⟩), ?_⟩
  intro hlt
  rw [hcatalog, List.getElem?_append_left hlt] at hplace'
  rcases List.mem_append.mp (List.mem_of_getElem? hplace') with hin | hin
  · have hb : Except.ok b ∈ earlier.map (s.candidate id) := by
      rw [← hcandidate']
      exact List.mem_map_of_mem (hfirst ▸ List.mem_filter.mpr ⟨hin, haccepts'⟩)
    rw [hearlier, List.mem_map] at hb
    obtain ⟨c, hc, heq⟩ := hb
    exact Except.ok.inj heq ▸ hbefore c hc
  · exact absurd haccepts' (hskipped tile' hin)

section TwoSelections

variable {g g' : Graph} {root root' : NodeId} {catalog : Catalog} {done done' : List NodeId}
  {s s' : Selection}

theorem map_cost_eq {ids ids' : List NodeId} (h : List.Forall₂ (g.Alike g') ids ids')
    (hverdict : ∀ m ∈ ids, ∀ m', g.Alike g' m m' → ∀ a a', s.annotation? m = some a →
      s'.annotation? m' = some a' → a.verdict = a'.verdict) {found found' : List Annotation}
    (hfound : ids.map s.annotation? = found.map some)
    (hfound' : ids'.map s'.annotation? = found'.map some) :
    found.map Annotation.cost = found'.map Annotation.cost := by
  induction h generalizing found found' with
  | nil =>
    obtain rfl := List.map_eq_nil_iff.mp hfound.symm
    obtain rfl := List.map_eq_nil_iff.mp hfound'.symm
    rfl
  | @cons m m' ids ids' hm _ ih =>
    obtain ⟨a, rest, rfl, ha, hrest⟩ := List.map_eq_cons_iff.mp hfound.symm
    obtain ⟨a', rest', rfl, ha', hrest'⟩ := List.map_eq_cons_iff.mp hfound'.symm
    have hsame := hverdict m List.mem_cons_self m' hm a a' ha.symm ha'.symm
    have hcost : a.cost = a'.cost := congrArg (fun v => v.2.2) hsame
    rw [List.map_cons, List.map_cons, hcost,
      ih (fun m hm => hverdict m (List.mem_cons_of_mem _ hm)) hrest.symm hrest'.symm]

/-- A tile has the same price at alike nodes if alike inputs before them have. -/
theorem verdict_candidate_eq (hs : s.graph = g) (hs' : s'.graph = g') {n n' : NodeId}
    (h : g.Alike g' n n')
    (hinputs : ∀ m < n, ∀ m', g.Alike g' m m' → ∀ a a', s.annotation? m = some a →
      s'.annotation? m' = some a' → a.verdict = a'.verdict)
    {tile : Tile} {a a' : Annotation} (ha : s.candidate n tile = .ok a)
    (ha' : s'.candidate n' tile = .ok a') : a.verdict = a'.verdict := by
  subst hs hs'
  obtain ⟨b, found, hb, hfound, rfl⟩ := candidate_eq_ok_iff.mp ha
  obtain ⟨b', found', hb', hfound', rfl⟩ := candidate_eq_ok_iff.mp ha'
  have hcosts : found.map Annotation.cost = found'.map Annotation.cost :=
    map_cost_eq (Shape.boundary_alike h hb hb')
      (fun m hm => hinputs m (Pattern.lt_of_mem_boundary hb m hm)) hfound hfound'
  rw [ Annotation.verdict, Annotation.verdict, hcosts]

/-- Candidates at alike nodes say the same, tile by tile. -/
theorem candidates_alike (hs : s.graph = g) (hs' : s'.graph = g') {n n' : NodeId}
    (h : g.Alike g' n n')
    (hsame : ∀ tile a a', s.candidate n tile = .ok a → s'.candidate n' tile = .ok a' →
      a.verdict = a'.verdict) {found found' : List Annotation}
    (hfound : s.candidates catalog n = .ok found) (hfound' : s'.candidates catalog n' = .ok found') :
    List.Forall₂ (fun a a' => a.verdict = a'.verdict) found found' := by
  subst hs hs'
  have hfilter : (catalog.tiles.filter fun tile => tile.pattern.accepts s.graph n) =
      catalog.tiles.filter fun tile => tile.pattern.accepts s'.graph n' := by
    congr 1
    funext tile
    exact Shape.accepts_eq h tile.pattern.shape
  replace hfound := Result.mapM_eq_ok_iff.mp (mapM_candidate_eq_ok hfound)
  replace hfound' := Result.mapM_eq_ok_iff.mp (mapM_candidate_eq_ok hfound')
  rw [← hfilter] at hfound'
  generalize (catalog.tiles.filter fun tile => tile.pattern.accepts s.graph n) = tiles
    at hfound hfound'
  induction tiles generalizing found found' with
  | nil =>
    obtain rfl := List.map_eq_nil_iff.mp hfound.symm
    obtain rfl := List.map_eq_nil_iff.mp hfound'.symm
    exact .nil
  | cons tile tiles ih =>
    obtain ⟨a, rest, rfl, ha, hrest⟩ := List.map_eq_cons_iff.mp hfound.symm
    obtain ⟨a', rest', rfl, ha', hrest'⟩ := List.map_eq_cons_iff.mp hfound'.symm
    exact .cons (hsame tile a a' ha.symm ha'.symm) (ih hrest.symm hrest'.symm)

/-- Two selections say the same about alike nodes. -/
theorem Visited.verdict_eq (hs : Visited g root catalog done s)
    (hs' : Visited g' root' catalog done' s') {n n' : NodeId} (h : g.Alike g' n n')
    {a a' : Annotation} (ha : s.annotation? n = some a) (ha' : s'.annotation? n' = some a') :
    a.verdict = a'.verdict := by
  induction n using Nat.strong_induction_on generalizing n' a a' with
  | _ n ih =>
    obtain ⟨-, found, hfound, hcheapest⟩ := choose_eq_ok_iff.mp (hs.chosen n a ha)
    obtain ⟨-, found', hfound', hcheapest'⟩ := choose_eq_ok_iff.mp (hs'.chosen n' a' ha')
    have hsame := cheapest?_verdict (candidates_alike hs.graph hs'.graph h
      (fun tile c c' => verdict_candidate_eq hs.graph hs'.graph h
        (fun m hm m' halike b b' hb hb' => ih m hm halike hb hb')) hfound hfound')
    rw [hcheapest, hcheapest'] at hsame
    exact Option.some.inj hsame

/-- Two selections settle on the same place of the catalog at alike nodes. -/
theorem Visited.settlesOn_of_alike (hs : Visited g root catalog done s)
    (hs' : Visited g' root' catalog done' s') {n n' : NodeId} (h : g.Alike g' n n')
    (hn' : n' ∈ done') {place : Nat} (hplace : s.SettlesOn catalog n place) :
    s'.SettlesOn catalog n' place := by
  obtain ⟨tile, a, htile, haccepts, hcandidate, ha, hleast⟩ := hplace
  obtain ⟨a', ha'⟩ := (hs'.annotated n').mpr hn'
  have haccept : ∀ t : Tile, t.pattern.accepts s'.graph n' = t.pattern.accepts s.graph n := by
    intro t
    rw [hs.graph, hs'.graph]
    exact (Shape.accepts_eq h t.pattern.shape).symm
  have hprice : ∀ t c c', s.candidate n t = .ok c → s'.candidate n' t = .ok c' →
      c.verdict = c'.verdict := fun t c c' =>
    verdict_candidate_eq hs.graph hs'.graph h
      (fun m _ m' halike b b' hb hb' => hs.verdict_eq hs' halike hb hb')
  have hverdict : a.verdict = a'.verdict := hs.verdict_eq hs' h ha ha'
  have hcost : a'.cost = a.cost := congrArg (fun v => v.2.2) hverdict.symm
  obtain ⟨-, found, hfound, -⟩ := choose_eq_ok_iff.mp (hs.chosen n a ha)
  obtain ⟨-, found', hfound', hcheapest'⟩ := choose_eq_ok_iff.mp (hs'.chosen n' a' ha')
  obtain ⟨tile', -, -, hcandidate'⟩ :=
    (mem_of_candidates_eq_ok hfound').mp (cheapest?_spec hcheapest').1
  have hsame : tile' = tile := by
    obtain ⟨_, _, -, -, htile⟩ := candidate_eq_ok_iff.mp hcandidate
    obtain ⟨_, _, -, -, htile'⟩ := candidate_eq_ok_iff.mp hcandidate'
    have hfirst : a.tile = a'.tile := congrArg Prod.fst hverdict
    rw [htile, htile'] at hfirst
    exact hfirst.symm
  refine ⟨tile, a', htile, by rw [haccept, haccepts], hsame ▸ hcandidate', ha', ?_⟩
  intro place' other b' hother hothers hb'
  rw [haccept] at hothers
  obtain ⟨b, -, hb⟩ := exists_candidate_of_candidates_eq_ok hfound
    (List.mem_of_getElem? hother) hothers
  have hbcost : b'.cost = b.cost := congrArg (fun v => v.2.2) (hprice other b b' hb hb').symm
  rw [hcost, hbcost]
  exact hleast place' other b hother hothers hb

end TwoSelections

section Runs

variable {g g' : Graph} {n n' : NodeId} {catalog : Catalog}

/-- Selection is decided by the first node of the tree that no tile matches. -/
theorem exists_select_of_find?_eq_none (hn : n < g.size)
    (h : (g.unfolded n).find? (fun m => !catalog.matchesAt g m) = none) :
    ∃ s, select g n catalog = .ok s := by
  rcases select_cases hn catalog with ⟨-, s, hs, -⟩ | ⟨id, node, hfind, -, -⟩
  · exact ⟨s, hs⟩
  · rw [Graph.find?_eraseDups, h] at hfind
    cases hfind

theorem select_eq_error_of_find? (hn : n < g.size) {id : NodeId}
    (h : (g.unfolded n).find? (fun m => !catalog.matchesAt g m) = some id) :
    ∃ node, g.node? id = some node ∧
      select g n catalog = .error (.noCover node.name node.opcode) := by
  rcases select_cases hn catalog with ⟨hall, -⟩ | ⟨id', node, hfind, hnode, herror⟩
  · have hmatched := hall id (List.mem_eraseDups.mpr (List.mem_of_find?_eq_some h))
    have hunmatched := List.find?_some h
    simp [hmatched] at hunmatched
  · rw [Graph.find?_eraseDups, h] at hfind
    obtain rfl := Option.some.inj hfind
    exact ⟨node, hnode, herror⟩

/-- Selections from alike nodes both succeed, or both fail at nodes with the same opcode. -/
theorem select_alike (hn : n < g.size) (hn' : n' < g'.size) (h : g.Alike g' n n')
    (catalog : Catalog) :
    (∃ s s', select g n catalog = .ok s ∧ select g' n' catalog = .ok s') ∨
    ∃ name name' op, select g n catalog = .error (.noCover name op) ∧
      select g' n' catalog = .error (.noCover name' op) := by
  have hfirst := catalog.find?_alike h.unfolded
  cases hfind : (g.unfolded n).find? (fun m => !catalog.matchesAt g m) with
  | none =>
    cases hfind' : (g'.unfolded n').find? (fun m => !catalog.matchesAt g' m) with
    | none =>
      obtain ⟨s, hs⟩ := exists_select_of_find?_eq_none hn hfind
      obtain ⟨s', hs'⟩ := exists_select_of_find?_eq_none hn' hfind'
      exact Or.inl ⟨s, s', hs, hs'⟩
    | some id' =>
      rw [hfind, hfind'] at hfirst
      cases hfirst
  | some id =>
    cases hfind' : (g'.unfolded n').find? (fun m => !catalog.matchesAt g' m) with
    | none =>
      rw [hfind, hfind'] at hfirst
      cases hfirst
    | some id' =>
      rw [hfind, hfind'] at hfirst
      obtain ⟨node, hnode, herror⟩ := select_eq_error_of_find? hn hfind
      obtain ⟨node', hnode', herror'⟩ := select_eq_error_of_find? hn' hfind'
      cases hfirst with
      | some halike =>
        rw [← halike.opcode_eq hnode hnode'] at herror'
        exact Or.inr ⟨node.name, node'.name, node.opcode, herror, herror'⟩

/-- Whatever roots two selections start from, they say the same about alike nodes under them. -/
theorem annotation?_alike {r r' : NodeId} {s s' : Selection} (hs : select g r catalog = .ok s)
    (hs' : select g' r' catalog = .ok s') (hr : g.Reaches r n) (hr' : g'.Reaches r' n')
    (h : g.Alike g' n n') :
    ∃ a a', s.annotation? n = some a ∧ s'.annotation? n' = some a' ∧ a.verdict = a'.verdict ∧
      a.node = n ∧ a'.node = n' := by
  obtain ⟨a, ha⟩ := exists_annotation_of_reaches hs hr
  obtain ⟨a', ha'⟩ := exists_annotation_of_reaches hs' hr'
  have hvisited := visited_of_select hs
  have hvisited' := visited_of_select hs'
  exact ⟨a, a', ha, ha', hvisited.verdict_eq hvisited' h ha ha',
    node_of_choose (hvisited.chosen n a ha), node_of_choose (hvisited'.chosen n' a' ha')⟩

theorem settlesOn_iff_of_alike {r r' : NodeId} {s s' : Selection} (hs : select g r catalog = .ok s)
    (hs' : select g' r' catalog = .ok s') (hr : g.Reaches r n) (hr' : g'.Reaches r' n')
    (h : g.Alike g' n n') (place : Nat) :
    s.SettlesOn catalog n place ↔ s'.SettlesOn catalog n' place := by
  have hmem := List.mem_eraseDups.mpr ((Graph.mem_unfolded (lt_size_of_select hs) n).mpr hr)
  have hmem' := List.mem_eraseDups.mpr ((Graph.mem_unfolded (lt_size_of_select hs') n').mpr hr')
  have hvisited := visited_of_select hs
  have hvisited' := visited_of_select hs'
  exact ⟨hvisited.settlesOn_of_alike hvisited' h hmem',
    hvisited'.settlesOn_of_alike hvisited h.symm hmem⟩

theorem exists_settlesOn {s : Selection} (hs : select g n catalog = .ok s) :
    ∃ place, s.SettlesOn catalog n place := by
  apply (visited_of_select hs).exists_settlesOn
  rw [List.mem_eraseDups, Graph.mem_unfolded (lt_size_of_select hs)]
  exact .refl n

/-- Below a root from which selection succeeds it succeeds from every node. -/
theorem exists_select_of_reaches {r : NodeId} (hreaches : g.Reaches r n) {s : Selection}
    (hs : select g r catalog = .ok s) : ∃ s', select g n catalog = .ok s' := by
  have hn := hreaches.lt_size (lt_size_of_select hs)
  exact exists_select_of_matched hn fun id hid => matchesAt_of_select hs (hreaches.trans hid)

/-- Selection goes by the expression of its root.  Two nodes with the same expression have selections or have
none; if they have, the same place of the catalog, location and cost are selected for both; if not, both errors
name one opcode.  And a node gets the same annotation from every root above it. -/
theorem select_independent_of_sharing (hn : n < g.size) (hn' : n' < g'.size)
    (h : g.expression? n = g'.expression? n') (catalog : Catalog) :
    ((∃ s, select g n catalog = .ok s) ↔ ∃ s', select g' n' catalog = .ok s') ∧
    (∀ s s', select g n catalog = .ok s → select g' n' catalog = .ok s' →
      (∃ place, s.SettlesOn catalog n place ∧ s'.SettlesOn catalog n' place) ∧
      (∀ place, s.SettlesOn catalog n place ↔ s'.SettlesOn catalog n' place) ∧
      ∃ a a', s.annotation? n = some a ∧ s'.annotation? n' = some a' ∧
        a.tile = a'.tile ∧ a.loc = a'.loc ∧ a.cost = a'.cost) ∧
    (∀ e e', select g n catalog = .error e → select g' n' catalog = .error e' →
      ∃ name name' op, e = .noCover name op ∧ e' = .noCover name' op) ∧
    ∀ r s, g.Reaches r n → select g r catalog = .ok s →
      ∃ s' a, select g n catalog = .ok s' ∧ s.annotation? n = some a ∧ s'.annotation? n = some a ∧
        ∀ place, s.SettlesOn catalog n place ↔ s'.SettlesOn catalog n place := by
  have halike := Graph.alike_of_eq hn h
  have hself := Graph.alike_of_eq hn (rfl : g.expression? n = g.expression? n)
  refine ⟨?_, fun s s' hs hs' => ?_, fun e e' he he' => ?_, fun r s hreaches hs => ?_⟩
  · rcases select_alike hn hn' halike catalog with
      ⟨s, s', hs, hs'⟩ | ⟨name, name', op, herror, herror'⟩
    · exact ⟨fun _ => ⟨s', hs'⟩, fun _ => ⟨s, hs⟩⟩
    · simp [herror, herror']
  · have hplaces := settlesOn_iff_of_alike hs hs' (.refl n) (.refl n') halike
    obtain ⟨place, hplace⟩ := exists_settlesOn hs
    obtain ⟨a, a', ha, ha', hverdict, -, -⟩ :=
      annotation?_alike hs hs' (.refl n) (.refl n') halike
    refine ⟨⟨place, hplace, (hplaces place).mp hplace⟩, hplaces, a, a', ha, ha', ?_⟩
    simpa [ Annotation.verdict] using hverdict
  · rcases select_alike hn hn' halike catalog with
      ⟨s, s', hs, -⟩ | ⟨name, name', op, herror, herror'⟩
    · cases hs.symm.trans he
    · exact ⟨name, name', op, Except.error.inj (he.symm.trans herror),
        Except.error.inj (he'.symm.trans herror')⟩
  · obtain ⟨s', hs'⟩ := exists_select_of_reaches hreaches hs
    obtain ⟨a, a', ha, ha', hverdict, hnode, hnode'⟩ :=
      annotation?_alike hs hs' hreaches (.refl n) hself
    have hsame : a = a' := by
      cases a
      cases a'
      simp_all [ Annotation.verdict]
    exact ⟨s', a, hs', ha, hsame ▸ ha',
      settlesOn_iff_of_alike hs hs' hreaches (.refl n) hself⟩

/-- A sum of one product with itself and a sum of two products are the same expression. -/
theorem select_independent_of_sharing_products :
    productTwice.expression? 3 = productsApart.expression? 6 ∧
      ∃ s s', select productTwice 3 Catalog.standard = .ok s ∧
        select productsApart 6 Catalog.standard = .ok s' ∧
        ∀ place, s.SettlesOn Catalog.standard 3 place ↔ s'.SettlesOn Catalog.standard 6 place := by
  have hexpression : productTwice.expression? 3 = productsApart.expression? 6 := by
    decide +kernel
  obtain ⟨hsuccess, hsame, -⟩ := select_independent_of_sharing
    (by decide : 3 < productTwice.size) (by decide : 6 < productsApart.size) hexpression
    Catalog.standard
  obtain ⟨s, hs⟩ := exists_select_productTwice
  obtain ⟨s', hs'⟩ := hsuccess.mp ⟨s, hs⟩
  exact ⟨hexpression, s, s', hs, hs', (hsame s s' hs hs').2.1⟩

end Runs

end Selection
end TileSelect
