import TileSelect.Proofs.BuildLayout

/-! # Build options only refuse

The options of building say which programs are refused and nothing else.  What a program is built into is fixed by
its names: two graphs that are laid out for the same program are the same graph, whatever the options were.  Which
programs are refused is compared on well-formed programs: with declared leaves only, the well-formed programs are
those whose leaves are declared, and without repeated definitions those whose destinations are different. -/
namespace TileSelect

namespace Program

variable {program : Program} {earlier : List Instruction}

/-- Where leaves have to be declared, an operand is known if it is known anyway and not an undeclared leaf. -/
theorem known_strict_iff {reuse : Bool} {name : String} (hearlier : earlier ⊆ program.instructions) :
    program.Known ⟨true, reuse⟩ earlier name ↔ program.Known ⟨false, reuse⟩ earlier name ∧
      (name ∉ program.instructions.map Instruction.dst → name ∈ program.inputs) := by
  constructor
  · rintro (hin | hdst | hfree)
    · exact ⟨Or.inl hin, fun _ => hin⟩
    · exact ⟨Or.inr (Or.inl hdst), fun hnot => absurd (List.map_subset _ hearlier hdst) hnot⟩
    · cases hfree.1
  · rintro ⟨hin | hdst | hfree, hdeclared⟩
    · exact Or.inl hin
    · exact Or.inr (Or.inl hdst)
    · exact Or.inl (hdeclared hfree.2)

/-- Is every name of the program that no instruction defines a declared input? -/
def LeavesDeclared (program : Program) : Prop :=
  ∀ name ∈ program.layout, name ∉ program.instructions.map Instruction.dst → name ∈ program.inputs

theorem mem_layout_iff {name : String} : name ∈ program.layout ↔
    name ∈ program.inputs ∨ ∃ insn ∈ program.instructions, name ∈ insn.names := by
  rw [layout, List.mem_eraseDups, List.mem_append, List.mem_flatMap]

theorem wellFormed_strict_iff {reuse : Bool} :
    program.WellFormed ⟨true, reuse⟩ ↔ program.WellFormed ⟨false, reuse⟩ ∧ program.LeavesDeclared := by
  have hknown : ∀ i name, program.Known ⟨true, reuse⟩ (program.instructions.take i) name ↔
      program.Known ⟨false, reuse⟩ (program.instructions.take i) name ∧
        (name ∉ program.instructions.map Instruction.dst → name ∈ program.inputs) := fun i _ =>
    known_strict_iff (List.take_subset i program.instructions)
  constructor
  · intro h
    refine ⟨⟨h.inputs_nodup, h.inputs_undefined, h.binary, fun i insn hi => ?_, h.repeats⟩, ?_⟩
    · obtain ⟨hlhs, hrhs⟩ := h.operands i insn hi
      exact ⟨((hknown i _).mp hlhs).1, ((hknown i _).mp hrhs).1⟩
    · intro name hname hnot
      rcases mem_layout_iff.mp hname with hin | ⟨insn, hinsn, hname⟩
      · exact hin
      obtain ⟨i, hi⟩ := List.mem_iff_getElem?.mp hinsn
      obtain ⟨hlhs, hrhs⟩ := h.operands i insn hi
      simp only [Instruction.names, List.mem_cons, List.not_mem_nil, or_false] at hname
      rcases hname with rfl | rfl | rfl
      · exact ((hknown i _).mp hlhs).2 hnot
      · exact ((hknown i _).mp hrhs).2 hnot
      · exact absurd (List.mem_map_of_mem hinsn) hnot
  · rintro ⟨h, hdeclared⟩
    refine ⟨h.inputs_nodup, h.inputs_undefined, h.binary, fun i insn hi => ?_, h.repeats⟩
    obtain ⟨hlhs, hrhs⟩ := h.operands i insn hi
    have hmentioned : ∀ name ∈ insn.names, name ∈ program.layout := fun name hname =>
      mem_layout_iff.mpr (Or.inr ⟨insn, List.mem_of_getElem? hi, hname⟩)
    constructor
    · exact (hknown i _).mpr ⟨hlhs, hdeclared _ (hmentioned _ (by simp [Instruction.names]))⟩
    · exact (hknown i _).mpr ⟨hrhs, hdeclared _ (hmentioned _ (by simp [Instruction.names]))⟩

/-- Without repeated definitions a destination is definable if it is new. -/
theorem definable_iff_not_mem {strict : Bool} {insn : Instruction} :
    Definable ⟨strict, false⟩ earlier insn ↔ insn.dst ∉ earlier.map Instruction.dst := by
  constructor
  · intro h hmem
    obtain ⟨first, hfirst, hsame⟩ := List.mem_map.mp hmem
    cases (h first hfirst hsame).1
  · intro hnew first hfirst hsame
    exact absurd (hsame ▸ List.mem_map_of_mem hfirst) hnew

theorem nodup_dsts_iff {strict : Bool} :
    (program.instructions.map Instruction.dst).Nodup ↔
      ∀ i insn, program.instructions[i]? = some insn →
        Definable ⟨strict, false⟩ (program.instructions.take i) insn := by
  rw [nodup_iff_not_mem_take]
  simp only [definable_iff_not_mem, List.map_take, List.getElem?_map, Option.map_eq_some_iff]
  constructor
  · intro h i insn hi
    exact h i insn.dst ⟨insn, hi, rfl⟩
  · rintro h i _ ⟨insn, hi, rfl⟩
    exact h i insn hi

theorem wellFormed_reject_iff {strict : Bool} :
    program.WellFormed ⟨strict, false⟩ ↔
      program.WellFormed ⟨strict, true⟩ ∧ (program.instructions.map Instruction.dst).Nodup := by
  constructor
  · intro h
    refine ⟨⟨h.inputs_nodup, h.inputs_undefined, h.binary, h.operands, fun i insn hi => ?_⟩,
      nodup_dsts_iff.mpr h.repeats⟩
    intro first hfirst hsame
    cases (h.repeats i insn hi first hfirst hsame).1
  · rintro ⟨h, hnodup⟩
    exact ⟨h.inputs_nodup, h.inputs_undefined, h.binary, h.operands, nodup_dsts_iff.mp hnodup⟩

end Program

namespace Graph

/-- Where nodes carry their places, a graph is what it shows of nodes, names and the root. -/
theorem Consistent.ext_node? {g g' : Graph} (hg : g.Consistent) (hg' : g'.Consistent)
    (hnodes : ∀ id, g.node? id = g'.node? id) (hnames : ∀ name, g.lookup name = g'.lookup name)
    (hroot : g.root = g'.root) : g = g' := by
  have hvertex : ∀ id, g.vertex? id = g'.vertex? id := by
    intro id
    have hnode := hnodes id
    unfold node? at hnode
    cases h : g.vertex? id with
    | none => simpa [h, eq_comm] using hnode
    | some vertex =>
      rw [h, Option.map_some, eq_comm, Option.map_eq_some_iff] at hnode
      obtain ⟨vertex', h', hsame⟩ := hnode
      have hid : vertex'.id = vertex.id := (hg'.numbered id vertex' h').trans (hg.numbered id vertex h).symm
      rw [h', show vertex' = vertex by cases vertex; cases vertex'; simp_all]
  obtain ⟨vertices, bindings, root, _⟩ := g
  obtain ⟨vertices', bindings', root', _⟩ := g'
  obtain rfl : vertices = vertices' := Array.ext_getElem? hvertex
  obtain rfl : bindings = bindings' := funext hnames
  obtain rfl : root = root' := hroot
  rfl

theorem Laid.lookup_eq {program : Program} {options options' : BuildOptions}
    {earlier : List Instruction} {mentioned : List String} {g g' : Graph}
    (h : Laid program options earlier mentioned g) (h' : Laid program options' earlier mentioned g')
    (name : String) : g.lookup name = g'.lookup name := by
  rw [h.consistent.lookup_eq_idxOf?, h'.consistent.lookup_eq_idxOf?, h.names, h'.names]

/-- A node of one graph is a node of the other: both are the instruction that defines its name, applied, or both
are leaves. -/
theorem Laid.node?_of_node? {program : Program} {options options' : BuildOptions}
    {earlier : List Instruction} {mentioned : List String} {g g' : Graph}
    (h : Laid program options earlier mentioned g) (h' : Laid program options' earlier mentioned g')
    {id : NodeId} {node : Node} (hnode : g.node? id = some node) : g'.node? id = some node := by
  have hlookup := h.lookup_name hnode
  have hlookup' : g'.lookup node.name = some id := (h.lookup_eq h' node.name).symm.trans hlookup
  by_cases hdst : node.name ∈ earlier.map Instruction.dst
  · obtain ⟨insn, hinsn, hname⟩ := List.mem_map.mp hdst
    obtain ⟨id₁, lhs, rhs, hid₁, hlhs, hrhs, hnode₁⟩ := h.applies insn hinsn
    obtain ⟨id₂, lhs', rhs', hid₂, hlhs', hrhs', hnode₂⟩ := h'.applies insn hinsn
    rw [hname] at hid₁ hid₂
    obtain rfl : id₁ = id := Option.some.inj (hid₁.symm.trans hlookup)
    obtain rfl : id₂ = id₁ := Option.some.inj (hid₂.symm.trans hlookup')
    rw [h.lookup_eq h', hlhs'] at hlhs
    rw [h.lookup_eq h', hrhs'] at hrhs
    rw [hnode₂, Option.some.inj hlhs, Option.some.inj hrhs, ← hnode₁, hnode]
  · have hmem := h.mem_of_lookup hlookup
    obtain ⟨id₁, hid₁, hnode₁⟩ := h.leaves node.name hmem hdst
    obtain ⟨id₂, hid₂, hnode₂⟩ := h'.leaves node.name hmem hdst
    obtain rfl : id₁ = id := Option.some.inj (hid₁.symm.trans hlookup)
    obtain rfl : id₂ = id₁ := Option.some.inj (hid₂.symm.trans hlookup')
    rw [hnode₂, ← hnode₁, hnode]

/-- Names and instructions fix the graph. -/
theorem Laid.unique {program : Program} {options options' : BuildOptions} {earlier : List Instruction}
    {mentioned : List String} {g g' : Graph} (h : Laid program options earlier mentioned g)
    (h' : Laid program options' earlier mentioned g') : g = g' := by
  refine h.consistent.ext_node? h'.consistent (fun id => Option.ext fun node => ?_) (h.lookup_eq h') ?_
  · exact ⟨h.node?_of_node? h', h'.node?_of_node? h⟩
  · rw [h.root, h'.root]
    simp only [h.lookup_eq h']

theorem build_unique {program : Program} {options options' : BuildOptions} {g g' : Graph}
    (h : build program options = .ok g) (h' : build program options' = .ok g') : g = g' :=
  ((build_answers program options).of_ok h).unique ((build_answers program options').of_ok h')

theorem exists_build_iff {program : Program} {options : BuildOptions} :
    (∃ g, build program options = .ok g) ↔ program.WellFormed options := by
  rw [Program.wellFormed_iff, (build_answers program options).ok_iff]

/-- One kind of options refuses more than another kind.  If this is so by a property of the program, then both give
the same graph to the programs with the property. -/
theorem build_eq_ok_iff_of_wellFormed {program : Program} {options options' : BuildOptions} {P : Prop}
    (h : program.WellFormed options ↔ program.WellFormed options' ∧ P) {g : Graph} :
    build program options = .ok g ↔ build program options' = .ok g ∧ P := by
  constructor
  · intro hg
    obtain ⟨hformed, hP⟩ := h.mp (exists_build_iff.mp ⟨g, hg⟩)
    obtain ⟨g', hg'⟩ := exists_build_iff.mpr hformed
    exact ⟨build_unique hg' hg ▸ hg', hP⟩
  · rintro ⟨hg, hP⟩
    obtain ⟨g', hg'⟩ := exists_build_iff.mpr (h.mpr ⟨exists_build_iff.mp ⟨g, hg⟩, hP⟩)
    exact build_unique hg' hg ▸ hg'

/-- The leaves of the graph are declared exactly if those of the program are. -/
theorem leavesDeclared_iff {program : Program} {options : BuildOptions} {g : Graph}
    (h : build program options = .ok g) :
    program.LeavesDeclared ↔ ∀ id name, g.node? id = some (.leaf name) → name ∈ program.inputs := by
  have hlaid := (build_answers program options).of_ok h
  constructor
  · intro hdeclared id name hnode
    have hlookup := hlaid.lookup_name hnode
    exact hdeclared name (List.mem_eraseDups.mpr (hlaid.mem_of_lookup hlookup))
      (hlaid.not_mem_of_hasLeaf ⟨id, hlookup, hnode⟩)
  · intro hleaves name hname hnot
    obtain ⟨id, -, hnode⟩ := hlaid.leaves name (List.mem_eraseDups.mp hname) hnot
    exact hleaves id name hnode

/-- Building options only refuse programs.  Where leaves have to be declared, a program has the graph it would have
otherwise, if every leaf of that graph is a declared input, and none if not.  Where values may not be defined again,
a program has the graph it would have otherwise, if its destinations are pairwise different, and none if not.  Under
any two options under which a program has a graph, it is the same graph. -/
theorem build_options_filter (program : Program) :
    (∀ reuse g, build program { strict := true, reuse := reuse } = .ok g ↔
      build program { strict := false, reuse := reuse } = .ok g ∧
        ∀ id name, g.node? id = some (.leaf name) → name ∈ program.inputs) ∧
    (∀ strict g, build program { strict := strict, reuse := false } = .ok g ↔
      build program { strict := strict, reuse := true } = .ok g ∧
        (program.instructions.map Instruction.dst).Nodup) ∧
    ∀ options options' g g', build program options = .ok g → build program options' = .ok g' → g = g' := by
  refine ⟨fun reuse g => ?_, fun strict g => ?_, fun _ _ _ _ h h' => build_unique h h'⟩
  · rw [build_eq_ok_iff_of_wellFormed Program.wellFormed_strict_iff]
    exact and_congr_right fun h => leavesDeclared_iff h
  · exact build_eq_ok_iff_of_wellFormed Program.wellFormed_reject_iff

/-- A program with an undeclared leaf and a repeated definition is refused by both options, and one with neither has
the same graph under all of them. -/
theorem build_options_filter_productRepeated :
    (∀ g, build productRepeated { strict := true, reuse := true } ≠ .ok g) ∧
    (∀ g, build productRepeated { strict := false, reuse := false } ≠ .ok g) ∧
    ∃ g, build ⟨["a", "b"], [⟨.mul, "t", "a", "b"⟩]⟩ { strict := true, reuse := false } = .ok g ∧
      build ⟨["a", "b"], [⟨.mul, "t", "a", "b"⟩]⟩ { strict := false, reuse := true } = .ok g := by
  obtain ⟨hstrict, hreuse, -⟩ := build_options_filter productRepeated
  obtain ⟨-, -, hsame⟩ := build_options_filter ⟨["a", "b"], [⟨.mul, "t", "a", "b"⟩]⟩
  obtain ⟨g, hg, hleaf⟩ : ∃ g, build productRepeated { strict := false, reuse := true } = .ok g ∧
      g.node? 1 = some (.leaf "b") := ⟨_, rfl, rfl⟩
  obtain ⟨g₁, hg₁⟩ : ∃ g, build ⟨["a", "b"], [⟨.mul, "t", "a", "b"⟩]⟩
      { strict := true, reuse := false } = .ok g := ⟨_, rfl⟩
  obtain ⟨g₂, hg₂⟩ : ∃ g, build ⟨["a", "b"], [⟨.mul, "t", "a", "b"⟩]⟩
      { strict := false, reuse := true } = .ok g := ⟨_, rfl⟩
  refine ⟨fun g' hg' => ?_, fun g' hg' => ?_, g₁, hg₁, ?_⟩
  · obtain ⟨hlenient, hdeclared⟩ := (hstrict true g').mp hg'
    obtain rfl := Except.ok.inj (hg.symm.trans hlenient)
    exact absurd (hdeclared 1 "b" hleaf) (by decide)
  · exact absurd ((hreuse false g').mp hg').2 (by decide)
  · rw [hsame _ _ g₁ g₂ hg₁ hg₂]
    exact hg₂

end Graph
end TileSelect
