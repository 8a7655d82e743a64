import TileSelect.Graph.Builder
import TileSelect.Proofs.PatternBoundary

/-! # Every operand is left or taken in

A pattern visits its node and the nodes it takes in, and each operand of each of them is met once: it is left at the
boundary as an input, or it is taken in itself.  A shared node may be met several times, as an input and as an
interior node of one match, so that this is a statement about lists up to order.  Finding the boundary does not look
at opcodes; it fails exactly where the pattern asks something of operands that a node does not have. -/
namespace TileSelect

def Graph.operandsOf (g : Graph) (id : NodeId) : List NodeId :=
  ((g.node? id).map Node.operands).getD []

/-- The shape with the wildcard for all its opcodes. -/
def Shape.wild : Shape → Shape
  | free => free
  | node _ left right => node .any left.wild right.wild

def Pattern.wild (p : Pattern) : Pattern := ⟨.any, p.left.wild, p.right.wild⟩

section Boundaries

variable {g : Graph} {id : NodeId} {b : Boundary}

theorem Graph.operandsOf_leaf {name : String} (hnode : g.node? id = some (.leaf name)) :
    g.operandsOf id = [] := by
  rw [Graph.operandsOf, hnode]
  rfl

theorem Graph.operandsOf_binary {name : String} {op : Opcode} {lhs rhs : NodeId}
    (hnode : g.node? id = some (.binary name op lhs rhs)) : g.operandsOf id = [lhs, rhs] := by
  rw [Graph.operandsOf, hnode]
  rfl

@[simp] theorem Shape.isFree_wild (shape : Shape) : shape.wild.isFree = shape.isFree := by
  cases shape <;> rfl

theorem Shape.accepts_wild_of_boundary {shape : Shape} (hb : shape.boundary g id = .ok b) :
    shape.wild.accepts g id = true := by
  induction shape generalizing id b with
  | free => rfl
  | node op left right ihl ihr =>
    rcases Shape.boundary_node_eq_ok_iff.mp hb with
      ⟨name, hnode, hleft, hright, -⟩ | ⟨name, op', lhs, rhs, l, r, hnode, hl, hr, -⟩
    · simp [Shape.wild, Shape.accepts, hnode, hleft, hright, Opcode.accepts]
    · simp [Shape.wild, Shape.accepts, hnode, ihl hl, ihr hr, Opcode.accepts]

theorem Shape.boundary_wild (shape : Shape) (id : NodeId) :
    shape.wild.boundary g id = shape.boundary g id := by
  have htaken : ∀ (shape : Shape) (operand : NodeId), shape.wild.taken operand = shape.taken operand := by
    intro shape operand
    rw [Shape.taken, Shape.taken, Shape.isFree_wild]
  induction shape generalizing id with
  | free => rfl
  | node op left right ihl ihr =>
    simp only [Shape.wild, Shape.boundary, Shape.isFree_wild, ihl, ihr, htaken]

/-- The only fault is an operand that is not there. -/
theorem Shape.boundary_eq_error {shape : Shape} {fault : Fault} (h : shape.boundary g id = .error fault) :
    fault = .outOfRange := by
  induction shape generalizing id with
  | free => cases h
  | node op left right ihl ihr =>
    rw [Shape.boundary] at h
    split at h
    · exact (Except.error.inj h).symm
    · split at h
      · cases h
      · exact (Except.error.inj h).symm
    · rcases Result.bind_eq_error_iff.mp h with hl | ⟨l, -, h⟩
      · exact ihl hl
      · rcases Result.bind_eq_error_iff.mp h with hr | ⟨r, -, h⟩
        · exact ihr hr
        · cases h

theorem Pattern.exists_boundary_iff (p : Pattern) :
    (∃ b, p.boundary g id = .ok b) ↔ p.wild.accepts g id = true := by
  constructor
  · rintro ⟨b, hb⟩
    exact Shape.accepts_wild_of_boundary hb
  · intro h
    obtain ⟨b, hb⟩ := Pattern.exists_boundary h
    exact ⟨b, (Shape.boundary_wild p.shape id).symm.trans hb⟩

/-- Together with the node itself, the operands of all nodes taken in are what is left and what is taken in. -/
theorem Shape.boundary_perm {shape : Shape} (hb : shape.boundary g id = .ok b) :
    (id :: (shape.taken id ++ b.interior).flatMap g.operandsOf).Perm
      (b.inputs ++ (shape.taken id ++ b.interior)) := by
  induction shape generalizing id b with
  | free =>
    cases hb
    exact List.Perm.refl _
  | node op left right ihl ihr =>
    rcases Shape.boundary_node_eq_ok_iff.mp hb with
      ⟨name, hnode, -, -, rfl⟩ | ⟨name, op', lhs, rhs, l, r, hnode, hl, hr, rfl⟩
    · simp [Shape.taken, Shape.isFree, Graph.operandsOf_leaf hnode]
    · -- each operand of the node stands for the rest of the match below it
      rw [List.perm_iff_count]
      intro n
      have hleft := (ihl hl).count_eq n
      have hright := (ihr hr).count_eq n
      simp only [Shape.taken, Shape.isFree, Bool.false_eq_true, if_false, List.singleton_append,
        List.flatMap_cons, List.flatMap_append, Graph.operandsOf_binary hnode, List.count_cons,
        List.count_append, List.count_nil] at hleft hright ⊢
      omega

theorem Pattern.boundary_perm {p : Pattern} (hb : p.boundary g id = .ok b) :
    (g.operandsOf id ++ b.interior.flatMap g.operandsOf).Perm (b.inputs ++ b.interior) := by
  have hshape : (id :: (g.operandsOf id ++ b.interior.flatMap g.operandsOf)).Perm
      (b.inputs ++ id :: b.interior) := Shape.boundary_perm hb
  exact (hshape.trans List.perm_middle).cons_inv

theorem Shape.reaches_of_mem_interior {shape : Shape} (hb : shape.boundary g id = .ok b) :
    ∀ n ∈ shape.taken id ++ b.interior, g.Reaches id n := by
  induction shape generalizing id b with
  | free =>
    cases hb
    exact fun n hn => by cases hn
  | node op left right ihl ihr =>
    intro n hn
    rcases List.mem_append.mp hn with hn | hn
    · obtain rfl := List.mem_singleton.mp hn
      exact .refl _
    · rcases Shape.boundary_node_eq_ok_iff.mp hb with
        ⟨name, hnode, -, -, rfl⟩ | ⟨name, op', lhs, rhs, l, r, hnode, hl, hr, rfl⟩
      · cases hn
      · rw [Graph.reaches_binary hnode]
        rcases List.mem_append.mp hn with hn | hn
        · exact Or.inl (ihl hl n hn)
        · exact Or.inr (Or.inl (ihr hr n hn))

theorem Pattern.strictly_under {p : Pattern} (hb : p.boundary g id = .ok b) :
    ∀ n ∈ b.inputs ++ b.interior, ∃ operand, g.Uses id operand ∧ g.Reaches operand n := by
  intro n hn
  rcases Shape.boundary_node_eq_ok_iff.mp hb with
    ⟨name, hnode, -, -, rfl⟩ | ⟨name, op', lhs, rhs, l, r, hnode, hl, hr, rfl⟩
  · cases hn
  · have hleft : g.Uses id lhs := (Graph.uses_binary hnode).mpr (Or.inl rfl)
    have hright : g.Uses id rhs := (Graph.uses_binary hnode).mpr (Or.inr rfl)
    simp only [List.mem_append] at hn
    rcases hn with (hn | hn) | hn | hn
    · exact ⟨lhs, hleft, Shape.reaches_of_mem_inputs hl n hn⟩
    · exact ⟨rhs, hright, Shape.reaches_of_mem_inputs hr n hn⟩
    · exact ⟨lhs, hleft, Shape.reaches_of_mem_interior hl n (List.mem_append.mpr hn)⟩
    · exact ⟨rhs, hright, Shape.reaches_of_mem_interior hr n (List.mem_append.mpr hn)⟩

/-- A pattern has a boundary at a node exactly if it matches there once its opcodes do not count, so in particular
where it matches; elsewhere an operand is missing.  The operands of the node and of the interior nodes are, up to
order, the inputs and the interior nodes, and all of these are under an operand of the node. -/
theorem Pattern.boundary_accounts_operands (g : Graph) (p : Pattern) (id : NodeId) :
    ((∃ b, p.boundary g id = .ok b) ↔ p.wild.accepts g id = true) ∧
    (p.accepts g id = true → ∃ b, p.boundary g id = .ok b) ∧
    (p.wild.accepts g id = false → p.boundary g id = .error .outOfRange) ∧
    ∀ b, p.boundary g id = .ok b →
      (g.operandsOf id ++ b.interior.flatMap g.operandsOf).Perm (b.inputs ++ b.interior) ∧
      ∀ n ∈ b.inputs ++ b.interior, ∃ operand, g.Uses id operand ∧ g.Reaches operand n := by
  refine ⟨p.exists_boundary_iff, Pattern.exists_boundary, fun hwild => ?_, fun b hb => ?_⟩
  · cases hb : p.boundary g id with
    | ok b =>
      have haccepts := p.exists_boundary_iff.mp ⟨b, hb⟩
      rw [hwild] at haccepts
      cases haccepts
    | error fault => rw [Shape.boundary_eq_error hb]
  · exact ⟨Pattern.boundary_perm hb, Pattern.strictly_under hb⟩

end Boundaries

/-- The product of a sum with itself is taken in on the left and left as an input on the right, and a pattern that
goes into the operands of an input finds none. -/
theorem Pattern.boundary_accounts_operands_productTwice :
    ∃ g b, Graph.build ⟨[], [⟨.mul, "t", "a", "b"⟩, ⟨.add, "u", "t", "t"⟩]⟩ {} = .ok g ∧
      (Pattern.mk .sub (.node .add .free .free) .free).accepts g 3 = false ∧
      (Pattern.mk .sub (.node .add .free .free) .free).boundary g 3 = .ok b ∧
      b = ⟨[0, 1, 2], [2]⟩ ∧ (g.operandsOf 3 ++ g.operandsOf 2).Perm [0, 1, 2, 2] ∧
      (Pattern.mk .mul (.node .ref (.node .ref .free .free) .free) .free).boundary g 2 = .error .outOfRange := by
  obtain ⟨g, hg, haccepts, hb, hwild⟩ :
      ∃ g, Graph.build ⟨[], [⟨.mul, "t", "a", "b"⟩, ⟨.add, "u", "t", "t"⟩]⟩ {} = .ok g ∧
        (Pattern.mk .sub (.node .add .free .free) .free).accepts g 3 = false ∧
        (Pattern.mk .sub (.node .add .free .free) .free).boundary g 3 = .ok ⟨[0, 1, 2], [2]⟩ ∧
        (Pattern.mk .mul (.node .ref (.node .ref .free .free) .free) .free).wild.accepts g 2 = false :=
    ⟨_, rfl, rfl, rfl, rfl⟩
  obtain ⟨-, -, -, haccounts⟩ := boundary_accounts_operands g (.mk .sub (.node .add .free .free) .free) 3
  obtain ⟨-, -, hfault, -⟩ :=
    boundary_accounts_operands g (.mk .mul (.node .ref (.node .ref .free .free) .free) .free) 2
  refine ⟨g, _, hg, haccepts, hb, rfl, ?_, hfault hwild⟩
  simpa using (haccounts _ hb).1

end TileSelect
