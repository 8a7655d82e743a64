import TileSelect.Proofs.BuildMeaning
import TileSelect.Proofs.PostorderTraversal

/-! # Which programs have graphs, and how their graphs are laid out

Building decides by node numbers and by which names are bound so far.  Here the same is said of names and places
in the program alone: the demands on a program are listed in the order in which building comes to them, building
fails with the error of the first demand that is broken, and all demands are met exactly if the program is well
formed.  The nodes of the graph are then the names of the program in the order of their first mention. -/
namespace TileSelect

/-- The names of an instruction in the order in which building comes to them. -/
def Instruction.names (insn : Instruction) : List String := [insn.lhs, insn.rhs, insn.dst]

/-- Something asked of a program, and the error if it is not so. -/
structure Demand where
  met : Bool
  error : BuildError

def firstBroken (demands : List Demand) : Option BuildError :=
  (demands.find? fun demand => !demand.met).map Demand.error

namespace Program

/-- The name may be an operand after the earlier instructions: it is declared, or defined by one of them, or, if
leaves need no declaration, defined nowhere in the program. -/
def Known (program : Program) (options : BuildOptions) (earlier : List Instruction)
    (name : String) : Prop :=
  name ∈ program.inputs ∨ name ∈ earlier.map Instruction.dst ∨
    (options.strict = false ∧ name ∉ program.instructions.map Instruction.dst)

/-- The destination may be defined after the earlier instructions: those that define it too, if there are any,
are allowed to be repeated and define it in the same way. -/
def Definable (options : BuildOptions) (earlier : List Instruction) (insn : Instruction) : Prop :=
  ∀ first ∈ earlier, first.dst = insn.dst →
    options.reuse = true ∧ first.op = insn.op ∧ first.lhs = insn.lhs ∧ first.rhs = insn.rhs

instance (program : Program) (options : BuildOptions) (earlier : List Instruction) (name : String) :
    Decidable (program.Known options earlier name) :=
  inferInstanceAs (Decidable (_ ∨ _ ∨ _))

instance (options : BuildOptions) (earlier : List Instruction) (insn : Instruction) :
    Decidable (Definable options earlier insn) :=
  inferInstanceAs (Decidable (∀ first ∈ earlier, _))

/-- Inputs are different and not defined by instructions, opcodes are binary, operands have values where they are
used, and destinations are defined once or always in the same way. -/
structure WellFormed (program : Program) (options : BuildOptions) : Prop where
  inputs_nodup : program.inputs.Nodup
  inputs_undefined : ∀ name ∈ program.inputs, name ∉ program.instructions.map Instruction.dst
  binary : ∀ insn ∈ program.instructions, insn.op = .add ∨ insn.op = .mul ∨ insn.op = .sub
  operands : ∀ i insn, program.instructions[i]? = some insn →
    program.Known options (program.instructions.take i) insn.lhs ∧
      program.Known options (program.instructions.take i) insn.rhs
  repeats : ∀ i insn, program.instructions[i]? = some insn →
    Definable options (program.instructions.take i) insn

def inputDemand (program : Program) (earlier : List String) (name : String) : Demand :=
  ⟨decide (name ∉ earlier ∧ name ∉ program.instructions.map Instruction.dst),
    .alreadyDefined name none⟩

/-- What is asked of an instruction: of its opcode, its operands and its destination. -/
def instructionDemands (program : Program) (options : BuildOptions) (index : Nat)
    (earlier : List Instruction) (insn : Instruction) : List Demand :=
  [⟨insn.op.isBinary, .notBinary insn.dst index insn.op⟩,
    ⟨decide (program.Known options earlier insn.lhs), .unknownValue insn.lhs index⟩,
    ⟨decide (program.Known options earlier insn.rhs), .unknownValue insn.rhs index⟩,
    ⟨decide (Definable options earlier insn), .alreadyDefined insn.dst (some index)⟩]

/-- All that is asked of a program: of its inputs as they are declared, then of its instructions one by one. -/
def demands (program : Program) (options : BuildOptions) : List Demand :=
  (program.inputs.zipIdx.map fun entry =>
      program.inputDemand (program.inputs.take entry.2) entry.1) ++
    program.instructions.zipIdx.flatMap fun entry =>
      program.instructionDemands options entry.2 (program.instructions.take entry.2) entry.1

/-- The names of a program in the order of their first mention, inputs first. -/
def layout (program : Program) : List String :=
  (program.inputs ++ program.instructions.flatMap Instruction.names).eraseDups

theorem defines_eq_true_iff {program : Program} {name : String} :
    program.defines name = true ↔ name ∈ program.instructions.map Instruction.dst := by
  simp [defines]

theorem defines_eq_false_iff {program : Program} {name : String} :
    program.defines name = false ↔ name ∉ program.instructions.map Instruction.dst := by
  rw [← defines_eq_true_iff, Bool.not_eq_true]

theorem Known.mono {program : Program} {options : BuildOptions} {earlier : List Instruction}
    {name : String} (h : program.Known options earlier name) (more : List Instruction) :
    program.Known options (earlier ++ more) name := by
  rcases h with h | h | h
  · exact Or.inl h
  · exact Or.inr (Or.inl (by rw [List.map_append]; exact List.mem_append_left _ h))
  · exact Or.inr (Or.inr h)

end Program

theorem Opcode.isBinary_iff {op : Opcode} :
    op.isBinary = true ↔ op = .add ∨ op = .mul ∨ op = .sub := by
  cases op <;> simp [Opcode.isBinary]

theorem firstBroken_append (xs ys : List Demand) :
    firstBroken (xs ++ ys) = (firstBroken xs).or (firstBroken ys) := by
  rw [firstBroken, List.find?_append, Option.map_or]
  rfl

theorem firstBroken_eq_none_iff {demands : List Demand} :
    firstBroken demands = none ↔ ∀ demand ∈ demands, demand.met = true := by
  simp [firstBroken]

/-- A step of building fails with the error of the first demand that is broken, and if none is it has a result as
described. -/
def Answers {α : Type} (demands : List Demand) (result : Except BuildError α) (P : α → Prop) : Prop :=
  (∀ e, firstBroken demands = some e → result = .error e) ∧
    (firstBroken demands = none → ∃ a, result = .ok a ∧ P a)

namespace Answers

variable {α β : Type}

theorem nil {a : α} {P : α → Prop} (h : P a) : Answers [] (.ok a) P := by
  constructor
  · intro e he
    cases he
  · intro _
    exact ⟨a, rfl, h⟩

theorem of_met {demand : Demand} {demands : List Demand} {x : Except BuildError α} {P : α → Prop}
    (hmet : demand.met = true) (h : Answers demands x P) : Answers (demand :: demands) x P := by
  have hrest : firstBroken (demand :: demands) = firstBroken demands := by
    simp [firstBroken, hmet]
  rw [Answers, hrest]
  exact h

theorem of_broken {demand : Demand} {demands : List Demand} {P : α → Prop}
    (hmet : demand.met = false) : Answers (demand :: demands) (.error demand.error) P := by
  have hfirst : firstBroken (demand :: demands) = some demand.error := by
    simp [firstBroken, hmet]
  rw [Answers, hfirst]
  constructor
  · intro e he
    rw [Option.some.inj he]
  · intro hnone
    cases hnone

/-- Steps one after another answer to their demands one after another. -/
theorem bind {xs ys : List Demand} {x : Except BuildError α} {f : α → Except BuildError β}
    {P : α → Prop} {Q : β → Prop} (hx : Answers xs x P) (hf : ∀ a, P a → Answers ys (f a) Q) :
    Answers (xs ++ ys) (x >>= f) Q := by
  rw [Answers, firstBroken_append]
  cases hxs : firstBroken xs with
  | some e =>
    refine ⟨fun e' he' => ?_, fun h => by cases h⟩
    obtain rfl : e = e' := Option.some.inj he'
    rw [hx.1 e hxs]
    rfl
  | none =>
    obtain ⟨a, ha, hP⟩ := hx.2 hxs
    rw [ha]
    exact hf a hP

theorem error_iff {xs : List Demand} {x : Except BuildError α} {P : α → Prop} (h : Answers xs x P)
    (e : BuildError) : x = .error e ↔ firstBroken xs = some e := by
  refine ⟨fun he => ?_, h.1 e⟩
  cases hbroken : firstBroken xs with
  | none =>
    obtain ⟨a, ha, -⟩ := h.2 hbroken
    cases ha.symm.trans he
  | some e' => rw [Except.error.inj ((h.1 e' hbroken).symm.trans he)]

theorem ok_iff {xs : List Demand} {x : Except BuildError α} {P : α → Prop} (h : Answers xs x P) :
    (∃ a, x = .ok a) ↔ firstBroken xs = none := by
  constructor
  · rintro ⟨a, ha⟩
    cases hbroken : firstBroken xs with
    | none => rfl
    | some e => cases ha.symm.trans (h.1 e hbroken)
  · intro hnone
    obtain ⟨a, ha, -⟩ := h.2 hnone
    exact ⟨a, ha⟩

theorem of_ok {xs : List Demand} {x : Except BuildError α} {P : α → Prop} (h : Answers xs x P)
    {a : α} (ha : x = .ok a) : P a := by
  obtain ⟨b, hb, hP⟩ := h.2 (h.ok_iff.mp ⟨a, ha⟩)
  rwa [Except.ok.inj (ha.symm.trans hb)]

end Answers

namespace Graph

def nodeNames (g : Graph) : List String := g.nodes.toList.map Node.name

theorem getElem?_nodeNames (g : Graph) (id : NodeId) : g.nodeNames[id]? = (g.node? id).map Node.name := by
  simp [nodeNames, nodes, node?, vertex?]

theorem mem_nodeNames_iff {g : Graph} {name : String} :
    name ∈ g.nodeNames ↔ ∃ id node, g.node? id = some node ∧ node.name = name := by
  simp only [List.mem_iff_getElem?, getElem?_nodeNames, Option.map_eq_some_iff]

theorem Consistent.lookup_eq_none_iff {g : Graph} (hg : g.Consistent) {name : String} :
    g.lookup name = none ↔ name ∉ g.nodeNames := by
  simp only [Option.eq_none_iff_forall_ne_some, Ne, hg.named, mem_nodeNames_iff, not_exists]

theorem Consistent.lookup_eq_idxOf? {g : Graph} (hg : g.Consistent) (name : String) :
    g.lookup name = g.nodeNames.idxOf? name := by
  refine Option.ext fun id => ?_
  rw [hg.named, List.idxOf?_eq_some_iff]
  constructor
  · rintro ⟨node, hnode, rfl⟩
    have hget : g.nodeNames[id]? = some node.name := by rw [getElem?_nodeNames, hnode, Option.map_some]
    obtain ⟨hid, hname⟩ := List.getElem?_eq_some_iff.mp hget
    refine ⟨hid, hname, fun j hj hsame => Nat.ne_of_lt hj ?_⟩
    -- an earlier node of the name would be the node
    have hgetj : g.nodeNames[j]? = some node.name := hsame ▸ List.getElem?_eq_getElem _
    rw [getElem?_nodeNames, Option.map_eq_some_iff] at hgetj
    obtain ⟨node', hnode', hname'⟩ := hgetj
    exact hg.eq_of_name_eq hnode' hnode hname'
  · rintro ⟨hid, hname, -⟩
    have hget : g.nodeNames[id]? = some name := hname ▸ List.getElem?_eq_getElem hid
    rwa [getElem?_nodeNames, Option.map_eq_some_iff] at hget

/-- One node has one name. -/
theorem Consistent.eq_of_lookup {g : Graph} (hg : g.Consistent) {name other : String} {id : NodeId}
    (h : g.lookup name = some id) (hother : g.lookup other = some id) : name = other := by
  obtain ⟨node, hnode, rfl⟩ := (hg.named name id).mp h
  exact hg.name_of_lookup hother hnode

theorem nodeNames_push {g : Graph} {node : Node} (h : ∀ operand ∈ node.operands, operand < g.size) :
    (g.push node h).nodeNames = g.nodeNames ++ [node.name] := by
  simp [nodeNames, nodes, push]

theorem eraseDups_concat_of_mem {names : List String} {name : String} (h : name ∈ names) :
    (names ++ [name]).eraseDups = names.eraseDups := by
  rw [List.eraseDups_append, List.cons_removeAll, if_neg (by simpa using h)]
  simp

theorem eraseDups_concat_of_not_mem {names : List String} {name : String} (h : name ∉ names) :
    (names ++ [name]).eraseDups = names.eraseDups ++ [name] := by
  rw [List.eraseDups_append, List.cons_removeAll, if_pos (by simpa using h)]
  simp [List.eraseDups_cons]

/-- The second graph has the bindings and the table of the first. -/
structure Keeps (g g' : Graph) : Prop where
  lookup : ∀ {name id}, g.lookup name = some id → g'.lookup name = some id
  vertex? : ∀ {id vertex}, g.vertex? id = some vertex → g'.vertex? id = some vertex

theorem Keeps.refl (g : Graph) : Keeps g g := ⟨fun h => h, fun h => h⟩

theorem Keeps.node? {g g' : Graph} (h : Keeps g g') {id : NodeId} {node : Node}
    (hnode : g.node? id = some node) : g'.node? id = some node := by
  obtain ⟨vertex, hvertex, rfl⟩ := node?_eq_some_iff.mp hnode
  exact node?_eq_some_iff.mpr ⟨vertex, h.vertex? hvertex, rfl⟩

theorem keeps_push {g : Graph} {node : Node} (h : ∀ operand ∈ node.operands, operand < g.size)
    (hnew : g.lookup node.name = none) : Keeps g (g.push node h) := by
  constructor
  · intro name id hname
    exact lookup_push_of_eq_some h hnew hname
  · intro id vertex hvertex
    rw [vertex?_push, if_neg (Nat.ne_of_lt (lt_size_of_vertex? hvertex))]
    exact hvertex

def Applies (g : Graph) (insn : Instruction) : Prop :=
  ∃ id lhs rhs, g.lookup insn.dst = some id ∧ g.lookup insn.lhs = some lhs ∧
    g.lookup insn.rhs = some rhs ∧ g.node? id = some (.binary insn.dst insn.op lhs rhs)

def HasLeaf (g : Graph) (name : String) : Prop :=
  ∃ id, g.lookup name = some id ∧ g.node? id = some (.leaf name)

theorem Keeps.applies {g g' : Graph} (h : Keeps g g') {insn : Instruction} (hinsn : g.Applies insn) :
    g'.Applies insn := by
  obtain ⟨id, lhs, rhs, hdst, hlhs, hrhs, hnode⟩ := hinsn
  exact ⟨id, lhs, rhs, h.lookup hdst, h.lookup hlhs, h.lookup hrhs, h.node? hnode⟩

theorem Keeps.hasLeaf {g g' : Graph} (h : Keeps g g') {name : String} (hname : g.HasLeaf name) :
    g'.HasLeaf name := by
  obtain ⟨id, hid, hnode⟩ := hname
  exact ⟨id, h.lookup hid, h.node? hnode⟩

/-- The graph has the names mentioned so far, all of them known, in the order of their first mention.  The
earlier instructions are applied at their destinations, all other names are leaves, and the root is the
destination of the last instruction. -/
structure Laid (program : Program) (options : BuildOptions) (earlier : List Instruction)
    (mentioned : List String) (g : Graph) : Prop where
  consistent : g.Consistent
  names : g.nodeNames = mentioned.eraseDups
  known : ∀ name ∈ mentioned, program.Known options earlier name
  applies : ∀ insn ∈ earlier, g.Applies insn
  leaves : ∀ name ∈ mentioned, name ∉ earlier.map Instruction.dst → g.HasLeaf name
  root : g.root = earlier.getLast?.bind fun insn => g.lookup insn.dst

variable {program : Program} {options : BuildOptions} {earlier : List Instruction}
  {mentioned : List String} {g g' : Graph} {name : String} {index : Nat} {insn : Instruction}

theorem laid_empty (program : Program) (options : BuildOptions) :
    Laid program options [] [] empty :=
  ⟨consistent_empty, by simp [nodeNames, nodes, empty], by simp, by simp, by simp, rfl⟩

namespace Laid

theorem lookup_eq_none_iff_not_mem (h : Laid program options earlier mentioned g) :
    g.lookup name = none ↔ name ∉ mentioned := by
  rw [h.consistent.lookup_eq_none_iff, h.names, List.mem_eraseDups]

theorem mem_of_lookup (h : Laid program options earlier mentioned g) {id : NodeId}
    (hname : g.lookup name = some id) : name ∈ mentioned := by
  by_contra hnot
  rw [h.lookup_eq_none_iff_not_mem.mpr hnot] at hname
  cases hname

theorem dst_mem (h : Laid program options earlier mentioned g)
    (hname : name ∈ earlier.map Instruction.dst) : name ∈ mentioned := by
  obtain ⟨insn, hinsn, rfl⟩ := List.mem_map.mp hname
  obtain ⟨id, _, _, hid, -⟩ := h.applies insn hinsn
  exact h.mem_of_lookup hid

/-- Mentioning a name again changes nothing. -/
theorem mention (h : Laid program options earlier mentioned g) (hname : name ∈ mentioned) :
    Laid program options earlier (mentioned ++ [name]) g := by
  have hmem : ∀ other ∈ mentioned ++ [name], other ∈ mentioned := by
    intro other hother
    rcases List.mem_append.mp hother with hother | hother
    · exact hother
    · rw [List.mem_singleton.mp hother]
      exact hname
  exact ⟨h.consistent, by rw [h.names, eraseDups_concat_of_mem hname],
    fun other hother => h.known other (hmem other hother), h.applies,
    fun other hother => h.leaves other (hmem other hother), h.root⟩

/-- A new name that is known becomes a leaf. -/
theorem push_leaf (h : Laid program options earlier mentioned g) (hnew : name ∉ mentioned)
    (hknown : program.Known options earlier name)
    (hoperands : ∀ operand ∈ (Node.leaf name).operands, operand < g.size) :
    Laid program options earlier (mentioned ++ [name]) (g.push (.leaf name) hoperands) := by
  have hname : g.lookup name = none := h.lookup_eq_none_iff_not_mem.mpr hnew
  have hkeeps := keeps_push hoperands hname
  have hcases : ∀ other ∈ mentioned ++ [name], other ∈ mentioned ∨ other = name := by
    intro other hother
    rwa [List.mem_append, List.mem_singleton] at hother
  refine ⟨h.consistent.push hoperands hname, ?_, fun other hother => ?_,
    fun insn hinsn => hkeeps.applies (h.applies insn hinsn), fun other hother hnot => ?_, ?_⟩
  · rw [nodeNames_push, h.names, eraseDups_concat_of_not_mem hnew]
    rfl
  · rcases hcases other hother with hother | rfl
    · exact h.known other hother
    · exact hknown
  · rcases hcases other hother with hother | rfl
    · exact hkeeps.hasLeaf (h.leaves other hother hnot)
    · exact ⟨g.size, lookup_push_self hoperands, node?_push_size hoperands⟩
  · show g.root = _
    rw [h.root]
    cases hlast : earlier.getLast? with
    | none => rfl
    | some insn =>
      obtain ⟨id, _, _, hid, -⟩ := h.applies insn (List.mem_of_getLast? hlast)
      rw [Option.bind_some, Option.bind_some, hid, hkeeps.lookup hid]

/-- One more instruction, applied at its destination. -/
theorem concat (h : Laid program options earlier mentioned g) (hkeeps : Keeps g g')
    (hconsistent : g'.Consistent) (hnames : g'.nodeNames = (mentioned ++ [insn.dst]).eraseDups)
    (happlies : g'.Applies insn) (hroot : g'.root = g'.lookup insn.dst) :
    Laid program options (earlier ++ [insn]) (mentioned ++ [insn.dst]) g' := by
  have hdsts : ∀ other, other ∉ (earlier ++ [insn]).map Instruction.dst →
      other ∉ earlier.map Instruction.dst ∧ other ≠ insn.dst := by
    intro other hother
    simpa [not_or] using hother
  refine ⟨hconsistent, hnames, fun other hother => ?_, fun i hi => ?_, fun other hother hnot => ?_, ?_⟩
  · rcases List.mem_append.mp hother with hother | hother
    · exact (h.known other hother).mono [insn]
    · exact Or.inr (Or.inl (by simp [List.mem_singleton.mp hother]))
  · rcases List.mem_append.mp hi with hi | hi
    · exact hkeeps.applies (h.applies i hi)
    · rw [List.mem_singleton.mp hi]
      exact happlies
  · rcases List.mem_append.mp hother with hother | hother
    · exact hkeeps.hasLeaf (h.leaves other hother (hdsts other hnot).1)
    · exact absurd (List.mem_singleton.mp hother) (hdsts other hnot).2
  · rw [List.getLast?_concat, Option.bind_some]
    exact hroot

end Laid

theorem Laid.declare (h : Laid program options [] mentioned g) (hinput : name ∈ program.inputs)
    (hundefined : ∀ other ∈ mentioned, other ∉ program.instructions.map Instruction.dst) :
    Answers [program.inputDemand mentioned name] (declare program g name) fun g' =>
      Laid program options [] (mentioned ++ [name]) g' ∧
        ∀ other ∈ mentioned ++ [name], other ∉ program.instructions.map Instruction.dst := by
  by_cases hmet : name ∉ mentioned ∧ name ∉ program.instructions.map Instruction.dst
  · have hdeclare : Graph.declare program g name =
        .ok (g.push (.leaf name) (by simp [Node.operands])) :=
      declare_eq_ok_iff.mpr ⟨h.lookup_eq_none_iff_not_mem.mpr hmet.1,
        Program.defines_eq_false_iff.mpr hmet.2, _, rfl⟩
    rw [hdeclare]
    refine .of_met (decide_eq_true hmet) (.nil ⟨h.push_leaf hmet.1 (Or.inl hinput) _, ?_⟩)
    intro other hother
    rcases List.mem_append.mp hother with hother | hother
    · exact hundefined other hother
    · rw [List.mem_singleton.mp hother]
      exact hmet.2
  · have hdeclare : Graph.declare program g name = .error (.alreadyDefined name none) := by
      rw [Graph.declare, if_pos]
      rw [Bool.or_eq_true, Option.isSome_iff_ne_none, Ne, h.lookup_eq_none_iff_not_mem,
        Program.defines_eq_true_iff]
      tauto
    rw [hdeclare]
    exact .of_broken (decide_eq_false hmet)

theorem Laid.declare_all {before rest : List String} (hinputs : program.inputs = before ++ rest)
    (h : Laid program options [] before g)
    (hundefined : ∀ name ∈ before, name ∉ program.instructions.map Instruction.dst) :
    Answers ((rest.zipIdx before.length).map fun entry =>
        program.inputDemand (program.inputs.take entry.2) entry.1)
      (rest.foldlM (Graph.declare program) g) fun g' =>
        Laid program options [] program.inputs g' ∧
          ∀ name ∈ program.inputs, name ∉ program.instructions.map Instruction.dst := by
  induction rest generalizing before g with
  | nil =>
    obtain rfl : program.inputs = before := by simpa using hinputs
    exact .nil ⟨h, hundefined⟩
  | cons name rest ih =>
    have hsplit : program.inputs = before ++ [name] ++ rest := by simpa using hinputs
    have htake : program.inputs.take before.length = before := by
      rw [hinputs, List.take_left' rfl]
    rw [List.zipIdx_cons, List.map_cons, htake, List.foldlM_cons]
    refine Answers.bind (h.declare (by simp [hinputs]) hundefined) fun g' hg' => ?_
    have hrest := ih hsplit hg'.1 hg'.2
    rwa [List.length_append, List.length_singleton] at hrest

section Instructions

theorem Laid.resolve (h : Laid program options earlier mentioned g)
    (hinputs : ∀ other ∈ program.inputs, other ∈ mentioned) :
    Answers [⟨decide (program.Known options earlier name), .unknownValue name index⟩]
      (resolve program options index g name) fun added =>
        Laid program options earlier (mentioned ++ [name]) added.2 ∧ Keeps g added.2 ∧
          added.2.lookup name = some added.1 := by
  cases hname : g.lookup name with
  | some id =>
    have hmem := h.mem_of_lookup hname
    rw [resolve_eq_ok_iff.mpr (Or.inl ⟨hname, rfl⟩)]
    exact .of_met (decide_eq_true (h.known name hmem)) (.nil ⟨h.mention hmem, .refl g, hname⟩)
  | none =>
    have hnew := h.lookup_eq_none_iff_not_mem.mp hname
    by_cases hknown : program.Known options earlier name
    · -- a name that is not mentioned yet is neither an input nor defined before
      obtain ⟨hstrict, hundefined⟩ : options.strict = false ∧
          name ∉ program.instructions.map Instruction.dst := by
        rcases hknown with hin | hdst | hfree
        · exact absurd (hinputs name hin) hnew
        · exact absurd (h.dst_mem hdst) hnew
        · exact hfree
      have hoperands : ∀ operand ∈ (Node.leaf name).operands, operand < g.size := by
        simp [Node.operands]
      rw [resolve_eq_ok_iff.mpr (Or.inr ⟨hname, Program.defines_eq_false_iff.mpr hundefined, hstrict,
        rfl, hoperands, rfl⟩)]
      exact .of_met (decide_eq_true hknown) (.nil ⟨h.push_leaf hnew hknown hoperands,
        keeps_push hoperands hname, lookup_push_self hoperands⟩)
    · have hresolve : Graph.resolve program options index g name =
          .error (.unknownValue name index) := by
        rw [Graph.resolve, hname]
        simp only
        rw [if_pos]
        rw [Bool.or_eq_true, Program.defines_eq_true_iff]
        by_contra hfree
        rw [not_or, Bool.not_eq_true] at hfree
        exact hknown (Or.inr (Or.inr ⟨hfree.2, hfree.1⟩))
      rw [hresolve]
      exact .of_broken (decide_eq_false hknown)

/-- A bound destination was defined before: it is no input and no implicit leaf. -/
theorem Laid.dst_mem_of_lookup (h : Laid program options earlier mentioned g)
    (hundefined : ∀ other ∈ program.inputs, other ∉ program.instructions.map Instruction.dst)
    (hinsn : insn ∈ program.instructions) {id : NodeId} (hdst : g.lookup insn.dst = some id) :
    insn.dst ∈ earlier.map Instruction.dst := by
  have hmem : insn.dst ∈ program.instructions.map Instruction.dst := List.mem_map_of_mem hinsn
  rcases h.known insn.dst (h.mem_of_lookup hdst) with hin | hearlier | hfree
  · exact absurd hmem (hundefined _ hin)
  · exact hearlier
  · exact absurd hmem hfree.2

/-- Applied at one node, two instructions are the same exactly if the second has the node's opcode and operands. -/
theorem definable_iff (h : Laid program options earlier mentioned g)
    (hearlier : insn.dst ∈ earlier.map Instruction.dst) {id lhs rhs : NodeId}
    (hdst : g.lookup insn.dst = some id) (hlhs : g.lookup insn.lhs = some lhs)
    (hrhs : g.lookup insn.rhs = some rhs) :
    Program.Definable options earlier insn ↔
      options.reuse = true ∧ isApplication (g.node? id) insn.op lhs rhs = true := by
  rw [isApplication_iff]
  constructor
  · intro hdefinable
    obtain ⟨first, hfirst, hsame⟩ := List.mem_map.mp hearlier
    obtain ⟨hreuse, hop, hl, hr⟩ := hdefinable first hfirst hsame
    obtain ⟨id', lhs', rhs', hdst', hlhs', hrhs', hnode⟩ := h.applies first hfirst
    rw [hsame, hdst] at hdst'
    rw [hl, hlhs] at hlhs'
    rw [hr, hrhs] at hrhs'
    cases hdst'
    cases hlhs'
    cases hrhs'
    exact ⟨hreuse, first.dst, hop ▸ hnode⟩
  · rintro ⟨hreuse, name, hnode⟩ first hfirst hsame
    obtain ⟨id', lhs', rhs', hdst', hlhs', hrhs', hnode'⟩ := h.applies first hfirst
    rw [hsame, hdst] at hdst'
    cases hdst'
    obtain ⟨-, hop, rfl, rfl⟩ : name = first.dst ∧ insn.op = first.op ∧ lhs = lhs' ∧ rhs = rhs' := by
      simpa using hnode.symm.trans hnode'
    exact ⟨hreuse, hop.symm, h.consistent.eq_of_lookup hlhs' hlhs,
      h.consistent.eq_of_lookup hrhs' hrhs⟩

theorem Laid.define (h : Laid program options earlier mentioned g)
    (hundefined : ∀ other ∈ program.inputs, other ∉ program.instructions.map Instruction.dst)
    (hinsn : insn ∈ program.instructions) (hop : insn.op.isBinary = true) {lhs rhs : NodeId}
    (hlhs : g.lookup insn.lhs = some lhs) (hrhs : g.lookup insn.rhs = some rhs) :
    Answers [⟨decide (Program.Definable options earlier insn),
        .alreadyDefined insn.dst (some index)⟩]
      (define options index g insn lhs rhs)
      (Laid program options (earlier ++ [insn]) (mentioned ++ [insn.dst])) := by
  cases hdst : g.lookup insn.dst with
  | none =>
    have hnew := h.lookup_eq_none_iff_not_mem.mp hdst
    have hdefinable : Program.Definable options earlier insn := fun first hfirst hsame =>
      absurd (h.dst_mem (hsame ▸ List.mem_map_of_mem hfirst)) hnew
    have hoperands : ∀ operand ∈ (Node.binary insn.dst insn.op lhs rhs).operands, operand < g.size :=
      Node.forall_operands_lt ⟨h.consistent.lt_size_of_lookup hlhs, h.consistent.lt_size_of_lookup hrhs⟩
    have hkeeps := keeps_push hoperands hdst
    have hself := lookup_push_self hoperands
    rw [define_eq_ok_iff.mpr (Or.inr ⟨hdst, hop, hoperands, rfl⟩)]
    refine .of_met (decide_eq_true hdefinable) (.nil (h.concat ⟨hkeeps.lookup, hkeeps.vertex?⟩
      ((h.consistent.push hoperands hdst).withRoot g.size) ?_ ?_ ?_))
    · show (g.push _ hoperands).nodeNames = _
      rw [nodeNames_push, h.names, eraseDups_concat_of_not_mem hnew]
      rfl
    · exact ⟨g.size, lhs, rhs, hself, hkeeps.lookup hlhs, hkeeps.lookup hrhs,
        node?_push_size hoperands⟩
    · exact hself.symm
  | some id =>
    have hearlier := h.dst_mem_of_lookup hundefined hinsn hdst
    have hiff := definable_iff h hearlier hdst hlhs hrhs
    by_cases hdefinable : Program.Definable options earlier insn
    · obtain ⟨hreuse, happlication⟩ := hiff.mp hdefinable
      obtain ⟨name, hnode⟩ := isApplication_iff.mp happlication
      obtain rfl : name = insn.dst := h.consistent.name_of_lookup hdst hnode
      rw [define_eq_ok_iff.mpr (Or.inl ⟨id, _, hdst, hreuse, hnode, rfl⟩)]
      refine .of_met (decide_eq_true hdefinable)
        (.nil (h.concat ⟨fun hname => hname, fun hid => hid⟩ (h.consistent.withRoot id) ?_ ?_ ?_))
      · show g.nodeNames = _
        rw [h.names, eraseDups_concat_of_mem (h.mem_of_lookup hdst)]
      · exact ⟨id, lhs, rhs, hdst, hlhs, hrhs, hnode⟩
      · exact hdst.symm
    · have hdefine : Graph.define options index g insn lhs rhs =
          .error (.alreadyDefined insn.dst (some index)) := by
        rw [hiff, ← Bool.and_eq_true] at hdefinable
        rw [Graph.define, hdst]
        simp only
        rw [if_neg hdefinable]
      rw [hdefine]
      exact .of_broken (decide_eq_false hdefinable)

theorem Laid.addInstruction (h : Laid program options earlier mentioned g)
    (hinputs : ∀ other ∈ program.inputs, other ∈ mentioned)
    (hundefined : ∀ other ∈ program.inputs, other ∉ program.instructions.map Instruction.dst)
    (hinsn : insn ∈ program.instructions) :
    Answers (program.instructionDemands options index earlier insn)
      (addInstruction program options index g insn)
      (Laid program options (earlier ++ [insn]) (mentioned ++ insn.names)) := by
  rw [Graph.addInstruction]
  cases hop : insn.op.isBinary with
  | false => exact .of_broken hop
  | true =>
    have hinputs' : ∀ other ∈ program.inputs, other ∈ mentioned ++ [insn.lhs] := fun other hother =>
      List.mem_append_left _ (hinputs other hother)
    have hnames : mentioned ++ insn.names =
        mentioned ++ [insn.lhs] ++ [insn.rhs] ++ [insn.dst] := by
      simp [Instruction.names]
    rw [hnames]
    refine .of_met hop ((h.resolve hinputs).bind fun added hlhs => ?_)
    obtain ⟨hlaid, -, hlookup⟩ := hlhs
    refine (hlaid.resolve hinputs').bind fun added' hrhs => ?_
    obtain ⟨hlaid', hkeeps, hlookup'⟩ := hrhs
    exact hlaid'.define hundefined hinsn hop (hkeeps.lookup hlookup) hlookup'

theorem Laid.addInstructions {rest : List Instruction}
    (hinsns : program.instructions = earlier ++ rest)
    (h : Laid program options earlier mentioned g)
    (hinputs : ∀ other ∈ program.inputs, other ∈ mentioned)
    (hundefined : ∀ other ∈ program.inputs, other ∉ program.instructions.map Instruction.dst) :
    Answers ((rest.zipIdx earlier.length).flatMap fun entry =>
        program.instructionDemands options entry.2 (program.instructions.take entry.2) entry.1)
      (addInstructions program options earlier.length g rest)
      (Laid program options program.instructions (mentioned ++ rest.flatMap Instruction.names)) := by
  induction rest generalizing earlier mentioned g with
  | nil =>
    obtain rfl : program.instructions = earlier := by simpa using hinsns
    exact .nil (by simpa using h)
  | cons insn rest ih =>
    have hsplit : program.instructions = earlier ++ [insn] ++ rest := by simpa using hinsns
    have htake : program.instructions.take earlier.length = earlier := by
      rw [hinsns, List.take_left' rfl]
    rw [List.zipIdx_cons, List.flatMap_cons, htake, Graph.addInstructions]
    refine (h.addInstruction hinputs hundefined (by simp [hinsns])).bind fun g' hg' => ?_
    have hrest := ih hsplit hg' fun other hother => List.mem_append_left _ (hinputs other hother)
    rwa [List.length_append, List.length_singleton, List.append_assoc, ← List.flatMap_cons] at hrest

end Instructions

/-- Building fails with the error of the first demand that is broken, and lays out the program if none is. -/
theorem build_answers (program : Program) (options : BuildOptions) :
    Answers (program.demands options) (build program options)
      (Laid program options program.instructions
        (program.inputs ++ program.instructions.flatMap Instruction.names)) := by
  have hdeclared := (laid_empty program options).declare_all
    (List.nil_append program.inputs).symm (by simp)
  refine hdeclared.bind fun g hg => ?_
  exact hg.1.addInstructions (List.nil_append program.instructions).symm (fun _ h => h) hg.2

end Graph

namespace Program

theorem nodup_iff_not_mem_take {names : List String} :
    names.Nodup ↔ ∀ i name, names[i]? = some name → name ∉ names.take i := by
  constructor
  · intro hnodup i name hname hmem
    obtain ⟨j, hj⟩ := List.mem_iff_getElem?.mp hmem
    rw [List.getElem?_take] at hj
    split at hj
    · next hlt =>
      have hi : i < names.length := (List.getElem?_eq_some_iff.mp hname).1
      exact List.nodup_iff_getElem?_ne_getElem?.mp hnodup j i hlt hi (hj.trans hname.symm)
    · cases hj
  · intro h
    rw [List.nodup_iff_getElem?_ne_getElem?]
    intro i j hlt hj heq
    rw [List.getElem?_eq_getElem hj] at heq
    refine h j names[j] (List.getElem?_eq_getElem hj) (List.mem_iff_getElem?.mpr ⟨i, ?_⟩)
    rw [List.getElem?_take, if_pos hlt, heq]

theorem mem_demands_iff {program : Program} {options : BuildOptions} {demand : Demand} :
    demand ∈ program.demands options ↔
      (∃ i name, program.inputs[i]? = some name ∧
        demand = program.inputDemand (program.inputs.take i) name) ∨
      ∃ i insn, program.instructions[i]? = some insn ∧
        demand ∈ program.instructionDemands options i (program.instructions.take i) insn := by
  rw [demands, List.mem_append, List.mem_map, List.mem_flatMap]
  constructor
  · rintro (⟨entry, hentry, rfl⟩ | ⟨entry, hentry, hdemand⟩)
    · exact Or.inl ⟨entry.2, entry.1, List.mem_zipIdx_iff_getElem?.mp hentry, rfl⟩
    · exact Or.inr ⟨entry.2, entry.1, List.mem_zipIdx_iff_getElem?.mp hentry, hdemand⟩
  · rintro (⟨i, name, hname, rfl⟩ | ⟨i, insn, hinsn, hdemand⟩)
    · exact Or.inl ⟨(name, i), List.mem_zipIdx_iff_getElem?.mpr hname, rfl⟩
    · exact Or.inr ⟨(insn, i), List.mem_zipIdx_iff_getElem?.mpr hinsn, hdemand⟩

theorem instructionDemands_met_iff {program : Program} {options : BuildOptions} {index : Nat}
    {earlier : List Instruction} {insn : Instruction} :
    (∀ demand ∈ program.instructionDemands options index earlier insn, demand.met = true) ↔
      insn.op.isBinary = true ∧ program.Known options earlier insn.lhs ∧
        program.Known options earlier insn.rhs ∧ Definable options earlier insn := by
  simp [instructionDemands]

theorem wellFormed_iff (program : Program) (options : BuildOptions) :
    program.WellFormed options ↔ firstBroken (program.demands options) = none := by
  rw [firstBroken_eq_none_iff]
  constructor
  · intro h demand hdemand
    rcases mem_demands_iff.mp hdemand with ⟨i, name, hname, rfl⟩ | ⟨i, insn, hinsn, hdemand⟩
    · exact decide_eq_true ⟨nodup_iff_not_mem_take.mp h.inputs_nodup i name hname,
        h.inputs_undefined name (List.mem_of_getElem? hname)⟩
    · have hop := Opcode.isBinary_iff.mpr (h.binary insn (List.mem_of_getElem? hinsn))
      obtain ⟨hlhs, hrhs⟩ := h.operands i insn hinsn
      exact instructionDemands_met_iff.mpr ⟨hop, hlhs, hrhs, h.repeats i insn hinsn⟩ demand hdemand
  · intro h
    have hinput : ∀ i name, program.inputs[i]? = some name → name ∉ program.inputs.take i ∧
        name ∉ program.instructions.map Instruction.dst := fun i name hname =>
      of_decide_eq_true (h _ (mem_demands_iff.mpr (Or.inl ⟨i, name, hname, rfl⟩)))
    have hinsn := fun i insn (hi : program.instructions[i]? = some insn) =>
      instructionDemands_met_iff.mp fun demand hdemand =>
        h demand (mem_demands_iff.mpr (Or.inr ⟨i, insn, hi, hdemand⟩))
    refine ⟨nodup_iff_not_mem_take.mpr fun i name hname => (hinput i name hname).1, ?_, ?_, ?_, ?_⟩
    · intro name hname
      obtain ⟨i, hi⟩ := List.mem_iff_getElem?.mp hname
      exact (hinput i name hi).2
    · intro insn hmem
      obtain ⟨i, hi⟩ := List.mem_iff_getElem?.mp hmem
      exact Opcode.isBinary_iff.mp (hinsn i insn hi).1
    · intro i insn hi
      exact ⟨(hinsn i insn hi).2.1, (hinsn i insn hi).2.2.1⟩
    · intro i insn hi
      exact (hinsn i insn hi).2.2.2

end Program

namespace Graph

variable {program : Program} {options : BuildOptions} {earlier : List Instruction}
  {mentioned : List String} {g : Graph}

theorem Laid.root_eq_none_iff (h : Laid program options earlier mentioned g) :
    g.root = none ↔ earlier = [] := by
  rw [h.root]
  cases hlast : earlier.getLast? with
  | none => simpa using List.getLast?_eq_none_iff.mp hlast
  | some insn =>
    have hmem := List.mem_of_getLast? hlast
    obtain ⟨id, _, _, hid, -⟩ := h.applies insn hmem
    simp [hid, List.ne_nil_of_mem hmem]

theorem Laid.lookup_name (h : Laid program options earlier mentioned g) {id : NodeId} {node : Node}
    (hnode : g.node? id = some node) : g.lookup node.name = some id :=
  (h.consistent.named node.name id).mpr ⟨node, hnode, rfl⟩

theorem Laid.not_mem_of_hasLeaf (h : Laid program options earlier mentioned g) {name : String}
    (hleaf : g.HasLeaf name) : name ∉ earlier.map Instruction.dst := by
  intro hmem
  obtain ⟨insn, hinsn, rfl⟩ := List.mem_map.mp hmem
  obtain ⟨id, lhs, rhs, hid, -, -, hnode⟩ := h.applies insn hinsn
  obtain ⟨id', hid', hnode'⟩ := hleaf
  obtain rfl : id = id' := Option.some.inj (hid.symm.trans hid')
  cases hnode.symm.trans hnode'

/-- A program has a graph exactly if it is well formed, and otherwise the error is that of the first demand it
breaks.  The graph has one node for each name of the program, numbered by first mention; destinations are their
instructions applied and all other names are leaves; the root is the destination of the last instruction. -/
theorem build_accepts_wellFormed (program : Program) (options : BuildOptions) :
    ((∃ g, build program options = .ok g) ↔ program.WellFormed options) ∧
    (∀ e, build program options = .error e ↔ firstBroken (program.demands options) = some e) ∧
    ∀ g, build program options = .ok g →
      g.nodes.toList.map Node.name = program.layout ∧ program.layout.Nodup ∧
      (∀ name, g.lookup name = program.layout.idxOf? name) ∧
      (∀ insn ∈ program.instructions, ∃ id lhs rhs, g.lookup insn.dst = some id ∧
        g.lookup insn.lhs = some lhs ∧ g.lookup insn.rhs = some rhs ∧
        g.node? id = some (.binary insn.dst insn.op lhs rhs)) ∧
      (∀ name ∈ program.layout, name ∉ program.instructions.map Instruction.dst →
        ∃ id, g.lookup name = some id ∧ g.node? id = some (.leaf name)) ∧
      (g.root = none ↔ program.instructions = []) ∧
      ∀ last, program.instructions.getLast? = some last → g.root = g.lookup last.dst := by
  have hanswers := build_answers program options
  refine ⟨by rw [Program.wellFormed_iff, hanswers.ok_iff], hanswers.error_iff, fun g hg => ?_⟩
  have hlaid := hanswers.of_ok hg
  refine ⟨hlaid.names, nodup_eraseDups _, fun name => ?_, hlaid.applies, fun name hname hnot => ?_,
    hlaid.root_eq_none_iff, fun last hlast => ?_⟩
  · rw [hlaid.consistent.lookup_eq_idxOf?, hlaid.names]
    rfl
  · exact hlaid.leaves name (List.mem_eraseDups.mp hname) hnot
  · rw [hlaid.root, hlast, Option.bind_some]

/-- The repeated definition adds no node and moves the root back. -/
theorem build_accepts_wellFormed_productRepeated :
    productRepeated.WellFormed { reuse := true } ∧
      ∃ g, build productRepeated { reuse := true } = .ok g ∧
        g.nodes.toList.map Node.name = ["a", "b", "t", "u"] ∧ g.root = some 2 ∧
        build productRepeated {} = .error (.alreadyDefined "t" (some 2)) := by
  obtain ⟨haccepts, -, hlaid⟩ := build_accepts_wellFormed productRepeated { reuse := true }
  obtain ⟨g, hg⟩ : ∃ g, build productRepeated { reuse := true } = .ok g := ⟨_, rfl⟩
  obtain ⟨hnames, -, hlookup, -, -, -, hroot⟩ := hlaid g hg
  have hlayout : productRepeated.layout = ["a", "b", "t", "u"] := by decide
  refine ⟨haccepts.mp ⟨g, hg⟩, g, hg, hnames.trans hlayout, ?_, ?_⟩
  · rw [hroot ⟨.mul, "t", "a", "b"⟩ rfl, hlookup, hlayout]
    decide
  · rw [(build_accepts_wellFormed productRepeated {}).2.1]
    decide

end Graph
end TileSelect
