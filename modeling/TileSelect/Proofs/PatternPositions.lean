import TileSelect.Proofs.GraphConstruction
import TileSelect.Proofs.PatternBoundary
import TileSelect.Proofs.PostorderWalks

/-! # Matching place by place

A place in a pattern is a path of left and right steps from its top.  A match asks one thing of every place where
the pattern has an opcode: the same steps through the operands lead from the node to some node, and that node has
the opcode, unless any opcode will do.  What is asked at one place does not depend on the other places.  So a
pattern that asks less at some places, with a wildcard for an opcode or nothing in place of a pattern below it,
matches wherever the first pattern does. -/
namespace TileSelect

/-- The pattern that a shape has at the end of a path. -/
def Shape.sub? : Shape → List Side → Option Pattern
  | free, _ => none
  | node op left right, [] => some ⟨op, left, right⟩
  | node _ left _, .left :: path => left.sub? path
  | node _ _ right, .right :: path => right.sub? path

/-- A path leads from a node to one with the given opcode; the wildcard is content with any node. -/
def Graph.Shows (g : Graph) (id : NodeId) (path : List Side) (op : Opcode) : Prop :=
  ∃ n node, g.follow id path = some n ∧ g.node? n = some node ∧ (node.opcode = op ∨ op = .any)

/-- Whatever a shape asks at the end of a path, going on along that path from a node shows it. -/
def Graph.ShowsAll (g : Graph) (id : NodeId) (start : List Side) (shape : Shape) : Prop :=
  ∀ path q, shape.sub? path = some q → g.Shows id (start ++ path) q.op

/-- The first shape with one opcode replaced by the wildcard, or with one shape in it replaced by nothing. -/
inductive Shape.Loosens : Shape → Shape → Prop where
  | wildcard (op : Opcode) (left right : Shape) : Loosens (.node op left right) (.node .any left right)
  | free (shape : Shape) : Loosens shape .free
  | left (op : Opcode) {left left' : Shape} (right : Shape) (below : Loosens left left') :
      Loosens (.node op left right) (.node op left' right)
  | right (op : Opcode) (left : Shape) {right right' : Shape} (below : Loosens right right') :
      Loosens (.node op left right) (.node op left right')

theorem Opcode.accepts_iff_of_ne_any {pattern op : Opcode} (h : op ≠ .any) :
    pattern.accepts op = true ↔ op = pattern ∨ pattern = .any := by
  simp only [Opcode.accepts, Bool.or_eq_true, beq_iff_eq]
  constructor
  · rintro ((hany | hany) | heq)
    · exact Or.inr hany
    · exact absurd hany h
    · exact Or.inl heq.symm
  · rintro (heq | hany)
    · exact Or.inr heq.symm
    · exact Or.inl (Or.inl hany)

section Matching

variable {g : Graph} {id : NodeId} {node : Node}

theorem Graph.Grown.opcode_ne_any (hg : g.Grown) (hnode : g.node? id = some node) :
    node.opcode ≠ .any := by
  cases node with
  | leaf name => exact fun h => by cases h
  | binary name op lhs rhs =>
    have hop := hg.isBinary hnode
    rintro (rfl : op = .any)
    cases hop

theorem Graph.follow_cons (hnode : g.node? id = some node) (side : Side) (path : List Side) :
    g.follow id (side :: path) = (node.operand? side).bind fun operand => g.follow operand path := by
  rw [Graph.follow, hnode, Option.bind_some]

theorem Graph.shows_nil_iff (hnode : g.node? id = some node) (op : Opcode) :
    g.Shows id [] op ↔ node.opcode = op ∨ op = .any := by
  simp [Graph.Shows, Graph.follow, hnode]

theorem Graph.shows_cons_iff (hnode : g.node? id = some node) (side : Side) (path : List Side)
    (op : Opcode) : g.Shows id (side :: path) op ↔
      ∃ operand, node.operand? side = some operand ∧ g.Shows operand path op := by
  simp only [Graph.Shows, Graph.follow_cons hnode, Option.bind_eq_some_iff]
  constructor
  · rintro ⟨n, target, ⟨operand, hoperand, hfollow⟩, htarget, hop⟩
    exact ⟨operand, hoperand, n, target, hfollow, htarget, hop⟩
  · rintro ⟨operand, hoperand, n, target, hfollow, htarget, hop⟩
    exact ⟨n, target, ⟨operand, hoperand, hfollow⟩, htarget, hop⟩

theorem Graph.showsAll_free (start : List Side) : g.ShowsAll id start .free := by
  intro path q hq
  cases hq

/-- The places of a shape are its top and those of its two slots. -/
theorem Graph.showsAll_node_iff (op : Opcode) (left right : Shape) :
    g.ShowsAll id [] (.node op left right) ↔
      g.Shows id [] op ∧ g.ShowsAll id [.left] left ∧ g.ShowsAll id [.right] right := by
  constructor
  · intro h
    exact ⟨h [] ⟨op, left, right⟩ rfl, fun path q hq => h (.left :: path) q hq,
      fun path q hq => h (.right :: path) q hq⟩
  · rintro ⟨htop, hleft, hright⟩ path q hq
    cases path with
    | nil =>
      cases hq
      exact htop
    | cons side path =>
      cases side with
      | left => exact hleft path q hq
      | right => exact hright path q hq

/-- A slot that asks for something makes the node have the operand. -/
theorem Graph.showsAll_slot_iff (hnode : g.node? id = some node) (side : Side) (shape : Shape) :
    g.ShowsAll id [side] shape ↔
      shape.isFree = true ∨ ∃ operand, node.operand? side = some operand ∧ g.ShowsAll operand [] shape := by
  cases shape with
  | free => simp [Graph.showsAll_free, Shape.isFree]
  | node op left right =>
    simp only [Shape.isFree, Bool.false_eq_true, false_or]
    constructor
    · intro h
      obtain ⟨operand, hoperand, -⟩ :=
        (Graph.shows_cons_iff hnode side [] op).mp (h [] ⟨op, left, right⟩ rfl)
      refine ⟨operand, hoperand, fun path q hq => ?_⟩
      obtain ⟨operand', hoperand', hshows⟩ := (Graph.shows_cons_iff hnode side path q.op).mp (h path q hq)
      obtain rfl := Option.some.inj (hoperand.symm.trans hoperand')
      exact hshows
    · rintro ⟨operand, hoperand, h⟩ path q hq
      exact (Graph.shows_cons_iff hnode side path q.op).mpr ⟨operand, hoperand, h path q hq⟩

/-- One step of matching: the opcode of the node, and each slot that is not free at an operand. -/
theorem Shape.accepts_node_iff (hnode : g.node? id = some node) (op : Opcode) (left right : Shape) :
    (Shape.node op left right).accepts g id = true ↔ op.accepts node.opcode = true ∧
      (left.isFree = true ∨
        ∃ operand, node.operand? .left = some operand ∧ left.accepts g operand = true) ∧
      (right.isFree = true ∨
        ∃ operand, node.operand? .right = some operand ∧ right.accepts g operand = true) := by
  have hfree : ∀ (shape : Shape) (operand : NodeId),
      shape.accepts g operand = true ↔ shape.isFree = true ∨ shape.accepts g operand = true := by
    intro shape operand
    cases shape with
    | free => simp [Shape.accepts]
    | node => simp [Shape.isFree]
  cases node with
  | leaf name => simp [Shape.accepts, hnode, Node.opcode, Node.operand?, and_assoc]
  | binary name op' lhs rhs =>
    rw [Shape.accepts, hnode]
    simp only [Node.opcode, Node.operand?, Option.some.injEq, exists_eq_left', Bool.and_eq_true,
      and_assoc, ← hfree]

/-- Matching is what every place asks, by induction over the shape. -/
theorem Shape.accepts_iff_showsAll (hg : g.Grown) (shape : Shape) (id : NodeId) :
    shape.accepts g id = true ↔ g.ShowsAll id [] shape := by
  induction shape generalizing id with
  | free => exact ⟨fun _ => Graph.showsAll_free [], fun _ => rfl⟩
  | node op left right ihl ihr =>
    cases hnode : g.node? id with
    | none =>
      -- outside the graph the top already shows nothing
      rw [Graph.showsAll_node_iff]
      simp [Shape.accepts, hnode, Graph.Shows, Graph.follow]
    | some node =>
      rw [Shape.accepts_node_iff hnode, Graph.showsAll_node_iff, Graph.shows_nil_iff hnode,
        Graph.showsAll_slot_iff hnode, Graph.showsAll_slot_iff hnode,
        Opcode.accepts_iff_of_ne_any (hg.opcode_ne_any hnode)]
      simp only [ihl, ihr]

/-- Where a loosened shape has a pattern, the shape has one that asks for the same opcode or a stricter one. -/
theorem Shape.Loosens.exists_sub? {shape shape' : Shape} (h : shape.Loosens shape') {path : List Side}
    {q' : Pattern} (hq' : shape'.sub? path = some q') :
    ∃ q, shape.sub? path = some q ∧ (q'.op = q.op ∨ q'.op = .any) := by
  induction h generalizing path with
  | wildcard op left right =>
    cases path with
    | nil =>
      cases hq'
      exact ⟨⟨op, left, right⟩, rfl, Or.inr rfl⟩
    | cons side path =>
      cases side with
      | left => exact ⟨q', hq', Or.inl rfl⟩
      | right => exact ⟨q', hq', Or.inl rfl⟩
  | free shape => cases hq'
  | left op right _ ih =>
    cases path with
    | nil =>
      cases hq'
      exact ⟨_, rfl, Or.inl rfl⟩
    | cons side path =>
      cases side with
      | left => exact ih hq'
      | right => exact ⟨q', hq', Or.inl rfl⟩
  | right op left _ ih =>
    cases path with
    | nil =>
      cases hq'
      exact ⟨_, rfl, Or.inl rfl⟩
    | cons side path =>
      cases side with
      | left => exact ⟨q', hq', Or.inl rfl⟩
      | right => exact ih hq'

theorem Graph.ShowsAll.loosen {shape shape' : Shape} (hall : g.ShowsAll id [] shape)
    (h : shape.Loosens shape') : g.ShowsAll id [] shape' := by
  intro path q' hq'
  obtain ⟨q, hq, hop⟩ := h.exists_sub? hq'
  obtain ⟨n, node, hfollow, hnode, hshows⟩ := hall path q hq
  refine ⟨n, node, hfollow, hnode, ?_⟩
  rcases hop with hsame | hany
  · rwa [hsame]
  · exact Or.inr hany

/-- A test of a pattern at a node of the graph answers whether the pattern matches, and there is no other fault than
a node outside the graph.  In a graph that can be made, a pattern matches at a node exactly if, for every path at
whose end the pattern has a pattern, that path leads from the node to one with the opcode asked for there, or any
opcode is asked for.  Replacing an opcode by the wildcard or a pattern below the top by nothing keeps every match. -/
theorem Pattern.accepts_place_by_place (hg : g.Constructed) (p : Pattern) (id : NodeId) :
    p.test g id = (if id < g.size then .ok (p.accepts g id) else .error .outOfRange) ∧
    (p.accepts g id = true ↔ ∀ path q, p.shape.sub? path = some q →
      ∃ n node, g.follow id path = some n ∧ g.node? n = some node ∧
        (node.opcode = q.op ∨ q.op = .any)) ∧
    ∀ p' : Pattern, p.shape.Loosens p'.shape → p.accepts g id = true → p'.accepts g id = true := by
  have hplaces := fun q : Pattern => Shape.accepts_iff_showsAll hg.grown q.shape id
  refine ⟨p.test_eq g id, hplaces p, fun p' hloosens haccepts => ?_⟩
  exact (hplaces p').mpr (((hplaces p).mp haccepts).loosen hloosens)

/-- A sum with a product on its left is found in the sum of a product with itself, and so is any node with a product
on its left. -/
theorem Pattern.accepts_place_by_place_productTwice :
    ∃ g, Graph.build ⟨[], [⟨.mul, "t", "a", "b"⟩, ⟨.add, "u", "t", "t"⟩]⟩ {} = .ok g ∧
      (∃ n node, g.follow 3 [.left] = some n ∧ g.node? n = some node ∧ node.opcode = .mul) ∧
      (Pattern.mk .any (.node .mul .free .free) .free).accepts g 3 = true ∧
      (Pattern.mk .any (.node .mul .free .free) .free).test g 4 = .error .outOfRange := by
  obtain ⟨g, hg, hsize, haccepts⟩ :
      ∃ g, Graph.build ⟨[], [⟨.mul, "t", "a", "b"⟩, ⟨.add, "u", "t", "t"⟩]⟩ {} = .ok g ∧ g.size = 4 ∧
        (Pattern.mk .add (.node .mul .free .free) .free).accepts g 3 = true :=
    ⟨_, rfl, rfl, rfl⟩
  obtain ⟨-, hplaces, hloosen⟩ := accepts_place_by_place (.build hg) _ 3
  obtain ⟨n, node, hfollow, hnode, hop⟩ := hplaces.mp haccepts [.left] ⟨.mul, .free, .free⟩ rfl
  refine ⟨g, hg, ⟨n, node, hfollow, hnode, ?_⟩, hloosen _ (.wildcard .add _ _) haccepts, ?_⟩
  · exact hop.resolve_right (by decide)
  · rw [(accepts_place_by_place (.build hg) _ 4).1, hsize]
    rfl

end Matching

end TileSelect
