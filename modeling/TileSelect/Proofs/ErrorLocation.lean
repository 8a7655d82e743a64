import TileSelect.Diagnosis
import TileSelect.Proofs.BuildLayout
import TileSelect.Proofs.InstructionSpans
import TileSelect.Proofs.SelectionCompleteness

/-! # Errors at the right instruction

An error of building or selecting is about one instruction of the program, and it is located there: at the one that
uses the unknown name, binds a name again or defines the value without a cover.  Two kinds of error are about no
instruction: an input with the name of a destination, and a leaf without a cover.  Looking for an error past the last
instruction finds nothing, so both ways to locate an error agree. -/
namespace TileSelect

namespace Program

theorem definition?_concat (inputs : List String) (insns : List Instruction) (last : Instruction)
    (name : String) :
    (⟨inputs, insns ++ [last]⟩ : Program).definition? name =
      if last.dst = name then some insns.length else (⟨inputs, insns⟩ : Program).definition? name := by
  simp only [definition?, List.zipIdx_append, List.zipIdx_singleton, List.foldl_append, List.foldl_cons,
    List.foldl_nil, Nat.zero_add]

theorem definition?_eq_none_iff {program : Program} {name : String} :
    program.definition? name = none ↔ name ∉ program.instructions.map Instruction.dst := by
  obtain ⟨inputs, insns⟩ := program
  induction insns using List.reverseRecOn with
  | nil => simp [definition?]
  | append_singleton insns last ih =>
    rw [definition?_concat]
    by_cases hlast : last.dst = name
    · simp [hlast]
    · rw [if_neg hlast, ih]
      simp [Ne.symm hlast]

theorem exists_of_definition? {program : Program} {name : String} {i : Nat}
    (h : program.definition? name = some i) :
    ∃ insn, program.instructions[i]? = some insn ∧ insn.dst = name := by
  obtain ⟨inputs, insns⟩ := program
  induction insns using List.reverseRecOn with
  | nil => cases h
  | append_singleton insns last ih =>
    rw [definition?_concat] at h
    by_cases hlast : last.dst = name
    · rw [if_pos hlast] at h
      obtain rfl := Option.some.inj h
      exact ⟨last, List.getElem?_concat_length, hlast⟩
    · rw [if_neg hlast] at h
      obtain ⟨insn, hinsn, hdst⟩ := ih h
      have hlt : i < insns.length := (List.getElem?_eq_some_iff.mp hinsn).1
      exact ⟨insn, (List.getElem?_append_left hlt).trans hinsn, hdst⟩

end Program

namespace Graph

/-- The ways in which building fails. -/
theorem build_eq_error {program : Program} {options : BuildOptions} {error : BuildError}
    (h : build program options = .error error) :
    (∃ i name, program.inputs[i]? = some name ∧ error = .alreadyDefined name none ∧
      (name ∈ program.inputs.take i ∨ name ∈ program.instructions.map Instruction.dst)) ∨
    ∃ i insn, program.instructions[i]? = some insn ∧
      (insn.op.isBinary = false ∧ error = .notBinary insn.dst i insn.op ∨
        error = .unknownValue insn.lhs i ∨ error = .unknownValue insn.rhs i ∨
        error = .alreadyDefined insn.dst (some i)) := by
  obtain ⟨demand, hfind, rfl⟩ := Option.map_eq_some_iff.mp
    (((build_answers program options).error_iff error).mp h)
  have hbroken : demand.met = false := by simpa using List.find?_some hfind
  rcases Program.mem_demands_iff.mp (List.mem_of_find?_eq_some hfind) with
    ⟨i, name, hname, rfl⟩ | ⟨i, insn, hinsn, hdemand⟩
  · refine .inl ⟨i, name, hname, rfl, ?_⟩
    have hnot := of_decide_eq_false hbroken
    by_contra hneither
    exact hnot (not_or.mp hneither)
  · simp only [Program.instructionDemands, List.mem_cons, List.not_mem_nil, or_false] at hdemand
    refine .inr ⟨i, insn, hinsn, ?_⟩
    rcases hdemand with rfl | rfl | rfl | rfl
    · exact .inl ⟨hbroken, rfl⟩
    · exact .inr (.inl rfl)
    · exact .inr (.inr (.inl rfl))
    · exact .inr (.inr (.inr rfl))

variable {program : Program} {options : BuildOptions} {earlier : List Instruction}
  {mentioned : List String} {g : Graph}

/-- A node is a leaf with a name that nothing defines, or has the opcode of all instructions that define it. -/
theorem Laid.node_cases (h : Laid program options earlier mentioned g) {id : NodeId} {node : Node}
    (hnode : g.node? id = some node) :
    g.HasLeaf node.name ∧ node.name ∉ earlier.map Instruction.dst ∨
      node.name ∈ earlier.map Instruction.dst ∧
        ∀ insn ∈ earlier, insn.dst = node.name → insn.op = node.opcode := by
  have hlookup := h.lookup_name hnode
  by_cases hmem : node.name ∈ earlier.map Instruction.dst
  · refine .inr ⟨hmem, fun insn hinsn hdst => ?_⟩
    obtain ⟨id', lhs, rhs, hid', -, -, hnode'⟩ := h.applies insn hinsn
    rw [hdst] at hid'
    obtain rfl : id' = id := Option.some.inj (hid'.symm.trans hlookup)
    obtain rfl := Option.some.inj (hnode'.symm.trans hnode)
    rfl
  · exact .inl ⟨h.leaves node.name (h.mem_of_lookup hlookup) hmem, hmem⟩

end Graph

/-- Selection that does not break off fails at a node of the graph. -/
theorem Selection.exists_node_of_select_eq_error {g : Graph} {root : NodeId} {catalog : Catalog}
    {error : SelectError} (h : select g root catalog = .error error)
    (hfault : ∀ fault, error ≠ .fault fault) :
    ∃ id node, g.node? id = some node ∧ error = .noCover node.name node.opcode := by
  by_cases hroot : root < g.size
  · rcases select_cases hroot catalog with ⟨-, s, hs, -⟩ | ⟨id, node, -, hnode, herror⟩
    · cases hs.symm.trans h
    · exact ⟨id, node, hnode, Except.error.inj (h.symm.trans herror)⟩
  · have houtside : select g root catalog = .error (.fault .outOfRange) := by
      rw [select, Graph.postorderOnce_eq_error hroot]
      rfl
    exact (hfault _ (Except.error.inj (h.symm.trans houtside))).elim

namespace CoreError

/-- The error comes from building the program, or from selecting at some root of its graph.  A selection that breaks
off with a fault gives no error. -/
inductive Arises (program : Program) (options : BuildOptions) (catalog : Catalog) : CoreError → Prop
  | build {error : BuildError} (h : Graph.build program options = .error error) :
      Arises program options catalog (.build error)
  | select {g : Graph} {root : NodeId} {error : SelectError}
      (hbuild : Graph.build program options = .ok g)
      (h : Selection.select g root catalog = .error error) (hfault : ∀ fault, error ≠ .fault fault) :
      Arises program options catalog (.select error)

/-- Is this the instruction that the error speaks of? -/
def Concerns (insn : Instruction) : CoreError → Prop
  | .build (.unknownValue name _) => insn.lhs = name ∨ insn.rhs = name
  | .build (.alreadyDefined name _) => insn.dst = name
  | .select (.noCover name op) => insn.dst = name ∧ insn.op = op
  | _ => False

/-- An error names an input that is a destination too, or a leaf, or else it speaks of an instruction. -/
theorem Arises.cases {program : Program} {options : BuildOptions} {catalog : Catalog} {error : CoreError}
    (h : Arises program options catalog error) (hprogram : program.Writable) :
    (∃ name, error = .build (.alreadyDefined name none) ∧ name ∈ program.inputs ∧
      name ∈ program.instructions.map Instruction.dst) ∨
    (∃ g name op, error = .select (.noCover name op) ∧ Graph.build program options = .ok g ∧
      g.HasLeaf name ∧ name ∉ program.instructions.map Instruction.dst) ∨
    ∃ i insn, error.index? program = some i ∧ program.instructions[i]? = some insn ∧
      error.Concerns insn := by
  cases h with
  | build h =>
    rcases Graph.build_eq_error h with ⟨i, name, hname, rfl, hclash⟩ | ⟨i, insn, hinsn, herror⟩
    · have hnew := Program.nodup_iff_not_mem_take.mp hprogram.distinct i name hname
      exact .inl ⟨name, rfl, List.mem_of_getElem? hname, hclash.resolve_left hnew⟩
    · have hop := (hprogram.instructions insn (List.mem_of_getElem? hinsn)).binary
      refine .inr (.inr ⟨i, insn, ?_⟩)
      rcases herror with ⟨hnot, -⟩ | rfl | rfl | rfl
      · rw [hop] at hnot
        cases hnot
      · exact ⟨rfl, hinsn, .inl rfl⟩
      · exact ⟨rfl, hinsn, .inr rfl⟩
      · exact ⟨rfl, hinsn, rfl⟩
  | @select g root error hbuild h hfault =>
    have hlaid := (Graph.build_answers program options).of_ok hbuild
    obtain ⟨id, node, hnode, rfl⟩ := Selection.exists_node_of_select_eq_error h hfault
    rcases hlaid.node_cases hnode with ⟨hleaf, hnone⟩ | ⟨hmem, hops⟩
    · exact .inr (.inl ⟨g, node.name, node.opcode, rfl, hbuild, hleaf, hnone⟩)
    · refine .inr (.inr ?_)
      -- all instructions that define the name have the opcode of the node, so the last one does
      cases hindex : program.definition? node.name with
      | none => exact (Program.definition?_eq_none_iff.mp hindex hmem).elim
      | some i =>
        obtain ⟨insn, hinsn, hdst⟩ := Program.exists_of_definition? hindex
        exact ⟨i, insn, hindex, hinsn, hdst, hops insn (List.mem_of_getElem? hinsn) hdst⟩

theorem locate?_of_index? {parsed : Program.Parsed} {error : CoreError} {i : Nat}
    {insn : Instruction} {span : Span} (hindex : error.index? parsed.program = some i)
    (h : parsed.instructions[i]? = some (insn, span)) :
    error.locate? parsed.program parsed.spans = some ⟨parsed.file, span, error.message⟩ := by
  rw [locate?, hindex, Option.bind_some, SpanMap.syntaxError?, Program.get?_spans, h]
  rfl

/-- Past the last instruction there is none, so an error without an instruction is found at the start. -/
theorem inFile_eq (error : CoreError) (parsed : Program.Parsed) (file : File) :
    error.inFile file parsed.program parsed.spans =
      (error.locate? parsed.program parsed.spans).getD (atStart file error.message) := by
  rw [inFile, locate?]
  cases error.index? parsed.program with
  | some i => rfl
  | none =>
    have hlength : parsed.program.instructions.length = parsed.instructions.length := List.length_map _
    have hend : parsed.spans.get? parsed.instructions.length = none := by
      rw [Program.get?_spans, List.getElem?_eq_none (Nat.le_refl _)]
      rfl
    simp only [Option.getD_none, hlength, SpanMap.syntaxError?, hend, Option.map_none, Option.bind_none]

/-- For a text that is read without error, no error of building or selecting is a fault or about an opcode.  An error
has no place exactly if an input is a destination too or a leaf has no cover.  Any other error is located at an
instruction that it speaks of, and the text there is read as this instruction alone.  Reporting an error in the file
gives it the same place, and the start of the file if it has none. -/
theorem located_at_instruction {file : File} {parsed : Program.Parsed}
    (hparse : Program.parse file = .ok parsed) (haccepted : parsed.error = none) (options : BuildOptions)
    (catalog : Catalog) {error : CoreError} (h : Arises parsed.program options catalog error) :
    error.fault? = none ∧ (∀ name index op, error ≠ .build (.notBinary name index op)) ∧
    (error.locate? parsed.program parsed.spans = none ↔
      (∃ name, error = .build (.alreadyDefined name none)) ∨
      ∃ g name op, Graph.build parsed.program options = .ok g ∧ error = .select (.noCover name op) ∧
        g.HasLeaf name) ∧
    (∀ name, error = .build (.alreadyDefined name none) →
      name ∈ parsed.program.inputs ∧ name ∈ parsed.program.instructions.map Instruction.dst) ∧
    (∀ located, error.locate? parsed.program parsed.spans = some located →
      located.file = file ∧ located.message = error.message ∧
      ∃ (i : Nat) (insn : Instruction), error.index? parsed.program = some i ∧
        parsed.program.instructions[i]? = some insn ∧ error.Concerns insn ∧
        ∃ text alone, file.text located.span = .ok text ∧ Program.parse ⟨file.name, text⟩ = .ok alone ∧
          alone.error = none ∧ alone.program = ⟨[], [insn]⟩) ∧
    error.inFile file parsed.program parsed.spans =
      (error.locate? parsed.program parsed.spans).getD ⟨file, Span.between 0 0, error.message⟩ := by
  obtain ⟨rfl, -⟩ := Program.parse_eq_ok hparse
  have hfile := inFile_eq error parsed parsed.file
  rcases h.cases (Program.writable_of_parse hparse haccepted) with
    ⟨name, rfl, hinput, hdst⟩ | ⟨g, name, op, rfl, hbuild, hleaf, hnone⟩ |
    ⟨i, insn, hindex, hinsn, hconcerns⟩
  · refine ⟨rfl, nofun, ⟨fun _ => .inl ⟨name, rfl⟩, fun _ => rfl⟩, ?_, nofun, hfile⟩
    rintro _ ⟨⟩
    exact ⟨hinput, hdst⟩
  · have hlocate : locate? (.select (.noCover name op)) parsed.program parsed.spans = none := by
      rw [locate?, index?, Program.definition?_eq_none_iff.mpr hnone, Option.bind_none]
    refine ⟨rfl, nofun, ⟨fun _ => .inr ⟨g, name, op, hbuild, rfl, hleaf⟩, fun _ => hlocate⟩, nofun, ?_,
      hfile⟩
    intro located hlocated
    cases hlocate.symm.trans hlocated
  · obtain ⟨span, hread⟩ := Program.exists_span hinsn
    have hlocate := locate?_of_index? hindex hread
    obtain ⟨text, alone, htext, halone⟩ := Program.exists_parse_span hparse (List.mem_of_getElem? hread)
      parsed.file.name
    -- an index rules out faults, and what the error says of the instruction rules out the other kinds
    refine ⟨?_, ?_, ⟨?_, ?_⟩, ?_, ?_, hfile⟩
    · cases error with
      | build error => cases error <;> first | rfl | cases hindex
      | select error => cases error <;> first | rfl | cases hindex
    · rintro name index op rfl
      exact hconcerns
    · intro hunplaced
      cases hlocate.symm.trans hunplaced
    · rintro (⟨name, rfl⟩ | ⟨g, name, op, hbuild, rfl, hleaf⟩)
      · cases hindex
      · have hlaid := (Graph.build_answers parsed.program options).of_ok hbuild
        have hdst : insn.dst ∈ parsed.program.instructions.map Instruction.dst :=
          List.mem_map_of_mem (List.mem_of_getElem? hinsn)
        rw [hconcerns.1] at hdst
        exact (hlaid.not_mem_of_hasLeaf hleaf hdst).elim
    · rintro name rfl
      cases hindex
    · intro located hlocated
      obtain rfl := Option.some.inj (hlocate.symm.trans hlocated)
      exact ⟨rfl, rfl, i, insn, hindex, hinsn, hconcerns, text, alone, htext, halone⟩

/-- A repeated definition is located where it is repeated, an input without a cover at the start of the file. -/
theorem located_at_instruction_productRepeated :
    let file : File := ⟨"", Graph.productRepeated.chars⟩
    ∃ parsed, Program.parse file = .ok parsed ∧ parsed.error = none ∧
      (∃ located text alone,
        locate? (.build (.alreadyDefined "t" (some 2))) parsed.program parsed.spans = some located ∧
        file.text located.span = .ok text ∧ Program.parse ⟨"", text⟩ = .ok alone ∧
        alone.program = ⟨[], [⟨.mul, "t", "a", "b"⟩]⟩) ∧
      inFile (.select (.noCover "a" .ref)) file parsed.program parsed.spans =
        ⟨file, Span.between 0 0, "no tile covers \"a\" (ref)"⟩ := by
  intro file
  have hwritable : Graph.productRepeated.Writable := by
    refine ⟨by decide, by decide, ?_⟩
    simp only [Graph.productRepeated, List.forall_mem_cons]
    refine ⟨?_, ?_, ?_, by simp⟩
    all_goals exact ⟨rfl, by decide, by decide, by decide⟩
  have hparse := Program.parse_chars hwritable ""
  refine ⟨_, hparse, rfl, ?_, ?_⟩
  · have hrebind : Graph.build Graph.productRepeated {} = .error (.alreadyDefined "t" (some 2)) := rfl
    obtain ⟨-, -, hplace, -, hlocated, -⟩ := located_at_instruction hparse rfl {} .standard (.build hrebind)
    cases hlocate : locate? (.build (.alreadyDefined "t" (some 2))) _ _ with
    | none =>
      rcases hplace.mp hlocate with ⟨name, hname⟩ | ⟨g, name, op, -, hname, -⟩
      · cases hname
      · cases hname
    | some located =>
      obtain ⟨-, -, i, insn, hindex, hinsn, -, text, alone, htext, halone, -, hprogram⟩ :=
        hlocated located hlocate
      cases hindex
      cases hinsn
      exact ⟨located, text, alone, rfl, htext, halone, hprogram⟩
  · obtain ⟨g, hg, hrun, hname, hnode⟩ :
        ∃ g, Graph.build Graph.productRepeated { reuse := true } = .ok g ∧
          (Selection.select g 2 ⟨[]⟩).map Selection.order = .error (.noCover "a" .ref) ∧
          g.lookup "a" = some 0 ∧ g.node? 0 = some (.leaf "a") := ⟨_, rfl, by decide +kernel, rfl, rfl⟩
    have huncovered := Result.map_eq_error_iff.mp hrun
    obtain ⟨-, -, hplace, -, -, hfile⟩ :=
      located_at_instruction hparse rfl { reuse := true } ⟨[]⟩ (.select hg huncovered (by simp))
    rw [hplace.mpr (.inr ⟨g, "a", .ref, hg, rfl, 0, hname, hnode⟩)] at hfile
    exact hfile

end CoreError
end TileSelect
