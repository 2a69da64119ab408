import Mathlib.Data.List.Nodup
import SigilAsm.Program.Listing
import SigilAsm.Proofs.Elaboration.Diagnostics
import SigilAsm.Proofs.Elaboration.Recording
import SigilAsm.Proofs.Elaboration.Written
import SigilAsm.Proofs.Name.Vocabulary

/-! # How instructions are shown

An instruction whose names are all known is shown by these names
(`Program.instructionText_of_resolve`): every handle and number leads back to
the name that it was looked up by, also in the program of all that is declared
later.  Where nothing is reported, all names are known, so every block shows
the instructions that were written into it (`Clauses.map_text_instructions`).
-/

namespace SigilAsm

/-- An argument as it is written, without the quotes of its name. -/
def Argument.text : Argument → String
  | .name .inner ident => "%" ++ ident.name
  | .name .global ident => "@" ++ ident.name
  | .name .builtin ident => "$" ++ ident.name
  | .number value => toString value.toNat

/-- An instruction as it is written, without quotes and without the signature of a call. -/
def Tree.Instruction.text : Tree.Instruction → String
  | .call target _ => "call @" ++ target.name
  | .operation head [] => "$" ++ head.name
  | .operation head arguments =>
    "$" ++ head.name ++ " " ++ ", ".intercalate (arguments.map Argument.text)

/-! ## Handles lead back to names -/

theorem getElem?_of_placeOf? {α κ : Type} [DecidableEq κ] {key : α → κ} {k : κ} {l : List α}
    {place : Nat} (h : placeOf? key k l = some place) (more : List α) :
    ∃ a, (firsts key (l ++ more))[place]? = some a ∧ key a = k := by
  have member : k ∈ l.map key := isSome_placeOf?_iff.mp (by rw [h]; rfl)
  have later : k ∈ (l ++ more).map key := by
    rw [List.map_append]
    exact List.mem_append_left _ member
  rw [placeOf?_of_mem member] at h
  cases h
  rw [← placeOf_append_of_mem member more]
  exact exists_getElem?_placeOf later

namespace Program

theorem local?_ofDeclared (name : String) (d : Declared) (place : Nat) :
    (ofDeclared name d).local? ⟨place⟩ = (firsts id d.locals)[place]?.map d.localRow := by
  simp [ofDeclared, local?]

theorem global?_ofDeclared (name : String) (d : Declared) (place : Nat) :
    (ofDeclared name d).global? ⟨place⟩ = (firsts (·.name) d.globals)[place]? := by
  simp [ofDeclared, global?]

theorem function?_ofDeclared (name : String) (d : Declared) (place : Nat) :
    (ofDeclared name d).function? ⟨place⟩ = (firsts Prod.fst d.mentions)[place]?.map
      d.functionRow := by
  simp [ofDeclared, function?]

theorem block?_ofDeclared (name : String) (d : Declared) (place : Nat) :
    (ofDeclared name d).block? ⟨place⟩ = (firsts Prod.fst d.blocks)[place]?.map d.blockRow := by
  simp [ofDeclared, block?]

end Program

section Resolved

open Clauses (resolve resolveArgument resolveArguments)

variable {vocabulary : Vocabulary} {name : String} {cs : List Clause} {body : BodyKey}

namespace Program

theorem operandText_of_resolve (numbered : vocabulary.Numbered) (name : String)
    (rest : List Clause) {argument : Argument} {operand : Operand}
    (h : resolveArgument vocabulary cs body argument = some operand) :
    (ofDeclared name (Clauses.declared vocabulary (cs ++ rest))).operandText vocabulary operand =
      argument.text := by
  rcases argument with ⟨sigil, ident⟩ | value
  · cases sigil with
    | inner =>
      obtain ⟨place, found, rfl⟩ := Option.map_eq_some_iff.mp h
      obtain ⟨x, here, same⟩ := getElem?_of_placeOf? found (Clauses.locals rest)
      rw [← Clauses.locals_append] at here
      obtain rfl : x = (body, ident.name) := same
      simp only [operandText, local?_ofDeclared, Clauses.declared, here]
      rfl
    | global =>
      obtain ⟨place, found, rfl⟩ := Option.map_eq_some_iff.mp h
      obtain ⟨g, here, same⟩ := getElem?_of_placeOf? found (Clauses.globals rest)
      rw [← Clauses.globals_append] at here
      simp only [operandText, global?_ofDeclared, Clauses.declared, here, Option.map_some, same,
        Option.getD_some, Argument.text]
    | builtin =>
      obtain ⟨id, found, rfl⟩ := Option.map_eq_some_iff.mp h
      rw [operandText, numbered.typeName?_of_lookup? found, Option.getD_some, Argument.text]
  · cases h
    rfl

theorem map_operandText_of_resolve (numbered : vocabulary.Numbered) (name : String)
    (rest : List Clause) {arguments : List Argument} {operands : List Operand}
    (h : resolveArguments vocabulary cs body arguments = some operands) :
    operands.map
        ((ofDeclared name (Clauses.declared vocabulary (cs ++ rest))).operandText vocabulary) =
      arguments.map Argument.text := by
  induction arguments generalizing operands with
  | nil =>
    cases h
    rfl
  | cons argument arguments ih =>
    obtain ⟨operand, first, others⟩ := Option.bind_eq_some_iff.mp h
    obtain ⟨operands, resolved, rfl⟩ := Option.map_eq_some_iff.mp others
    rw [List.map_cons, List.map_cons, operandText_of_resolve numbered name rest first, ih resolved]

/-- An instruction that was resolved somewhere is shown as it is written there. -/
theorem instructionText_of_resolve (numbered : vocabulary.Numbered) (name : String)
    (rest : List Clause) {i : Tree.Instruction} {resolved : Instruction}
    (h : resolve vocabulary cs body i = some resolved) :
    (ofDeclared name (Clauses.declared vocabulary (cs ++ rest))).instructionText vocabulary
      resolved = i.text := by
  cases i with
  | call target signature =>
    obtain ⟨place, found, rfl⟩ := Option.map_eq_some_iff.mp h
    obtain ⟨x, here, same⟩ := getElem?_of_placeOf? found (Clauses.mentions rest)
    rw [← Clauses.mentions_append] at here
    simp only [instructionText, function?_ofDeclared, Clauses.declared, here, Option.map_some,
      Option.getD_some, Declared.functionRow, same, Tree.Instruction.text]
  | operation head arguments =>
    obtain ⟨id, found, others⟩ := Option.bind_eq_some_iff.mp h
    obtain ⟨operands, all, rfl⟩ := Option.map_eq_some_iff.mp others
    have texts := map_operandText_of_resolve numbered name rest all
    simp only [instructionText, numbered.operationName?_of_lookup? found, Option.getD_some]
    cases arguments with
    | nil =>
      rw [List.map_eq_nil_iff.mp texts]
      rfl
    | cons argument arguments =>
      cases operands with
      | nil => cases texts
      | cons operand operands => simp only [texts, Tree.Instruction.text]

end Program

/-! ## Clean sources -/

namespace Clauses

theorem exists_resolveArgument {argument : Argument}
    (known : ∀ o, argument.occurrence? body = some o → o.diagnostic? vocabulary cs = none) :
    ∃ operand, resolveArgument vocabulary cs body argument = some operand := by
  rcases argument with ⟨sigil, ident⟩ | value
  · have fine := known _ rfl
    rw [Occurrence.diagnostic?, Option.map_eq_none_iff] at fine
    cases sigil with
    | inner =>
      have member : (body, ident.name) ∈ locals cs := by simpa [Use.problem?] using fine
      exact ⟨_, Option.map_eq_some_iff.mpr ⟨_, placeOf?_of_mem (by simpa using member), rfl⟩⟩
    | global =>
      have member : ident.name ∈ (globals cs).map (·.name) := by simpa [Use.problem?] using fine
      exact ⟨_, Option.map_eq_some_iff.mpr ⟨_, placeOf?_of_mem member, rfl⟩⟩
    | builtin =>
      have bound : vocabulary.types.contains ident.name = true := by
        simpa [Use.problem?] using fine
      obtain ⟨id, found⟩ := Option.isSome_iff_exists.mp bound
      exact ⟨_, Option.map_eq_some_iff.mpr ⟨id, found, rfl⟩⟩
  · exact ⟨_, rfl⟩

theorem exists_resolveArguments {arguments : List Argument}
    (known : ∀ o ∈ arguments.filterMap (Argument.occurrence? body),
      o.diagnostic? vocabulary cs = none) :
    ∃ operands, resolveArguments vocabulary cs body arguments = some operands := by
  induction arguments with
  | nil => exact ⟨[], rfl⟩
  | cons argument arguments ih =>
    obtain ⟨operand, first⟩ := exists_resolveArgument fun o here =>
      known o (List.mem_filterMap.mpr ⟨argument, .head _, here⟩)
    obtain ⟨operands, others⟩ := ih fun o later => by
      obtain ⟨other, member, here⟩ := List.mem_filterMap.mp later
      exact known o (List.mem_filterMap.mpr ⟨other, .tail _ member, here⟩)
    exact ⟨operand :: operands, by rw [resolveArguments, first, Option.bind_some, others]; rfl⟩

/-- An instruction about which nothing is reported is resolved. -/
theorem exists_resolve {key : BlockKey} {i : Tree.Instruction}
    (known : ∀ o ∈ (Clause.instruction key i).occurrences, o.diagnostic? vocabulary cs = none) :
    ∃ resolved, resolve vocabulary (cs ++ [.instruction key i]) key.body i = some resolved := by
  cases i with
  | call target signature =>
    have member : target.name ∈
        (mentions (cs ++ [.instruction key (.call target signature)])).map Prod.fst := by
      cases signature with
      | some signature => simp [Clause.mention?]
      | none =>
        have fine := known ⟨.callee, target⟩ (.head _)
        have mentioned : target.name ∈ (mentions cs).map Prod.fst := by
          simpa [Occurrence.diagnostic?, Use.problem?] using fine
        rw [mentions_append, List.map_append]
        exact List.mem_append_left _ mentioned
    exact ⟨_, Option.map_eq_some_iff.mpr ⟨_, placeOf?_of_mem member, rfl⟩⟩
  | operation head arguments =>
    have fine := known ⟨.operation, head⟩ (.head _)
    have bound : vocabulary.operations.contains head.name = true := by
      simpa [Occurrence.diagnostic?, Use.problem?] using fine
    obtain ⟨id, found⟩ := Option.isSome_iff_exists.mp bound
    obtain ⟨operands, all⟩ := exists_resolveArguments fun o member => known o (.tail _ member)
    refine ⟨.operation id operands, ?_⟩
    have looked : vocabulary.operations.lookup? head.name = some id := found
    rw [resolve_instruction rfl, resolve, looked, Option.bind_some, all, Option.map_some]

/-- Where nothing is reported, a block shows the instructions that are written into it. -/
theorem map_text_instructions (numbered : vocabulary.Numbered) (name : String)
    (clean : diagnostics vocabulary cs = []) (rest : List Clause) (key : BlockKey) :
    (instructions vocabulary cs key).map ((Program.ofDeclared name
      (declared vocabulary (cs ++ rest))).instructionText vocabulary) =
      (written cs key).map Tree.Instruction.text := by
  induction cs using List.reverseRecOn generalizing rest with
  | nil => rfl
  | append_singleton cs c ih =>
    rw [diagnostics_snoc, List.append_eq_nil_iff] at clean
    obtain ⟨before, now⟩ := clean
    have earlier := ih before ([c] ++ rest)
    rw [← List.append_assoc] at earlier
    rw [instructions_snoc, written_snoc, List.map_append, List.map_append, earlier]
    congr 1
    cases c with
    | instruction inside i =>
      by_cases here : inside = key
      · subst here
        obtain ⟨resolved, found⟩ := exists_resolve (List.filterMap_eq_nil_iff.mp now)
        have shown := Program.instructionText_of_resolve numbered name rest found
        simp only [emitted?, Clause.written?, if_true, found, Option.toList_some,
          List.map_singleton, shown]
      · simp [emitted?, Clause.written?, here]
    | global _ _ _ | header _ _ _ | localName _ _ | block _ _ _ | entry _ => rfl

/-! ### Nothing comes twice -/

theorem nodup_globals (clean : diagnostics vocabulary cs = []) :
    ((globals cs).map (·.name)).Nodup := by
  induction cs using List.reverseRecOn with
  | nil => exact List.nodup_nil
  | append_singleton cs c ih =>
    rw [diagnostics_snoc, List.append_eq_nil_iff] at clean
    obtain ⟨before, now⟩ := clean
    cases c with
    | global name mutability data =>
      have fresh : name.name ∉ (globals cs).map (·.name) := by
        simpa [Clause.occurrences, Occurrence.diagnostic?, Use.problem?] using now
      simpa [Clause.global?] using List.Nodup.concat fresh (ih before)
    | header _ _ _ | localName _ _ | block _ _ _ | entry _ | instruction _ _ =>
      simpa [Clause.global?] using ih before

theorem nodup_blocks_snoc {c : Clause} {key : BlockKey} {signature : Option Signature}
    (nodup : ((blocks cs).map Prod.fst).Nodup) (begins : c.block? = some (key, signature))
    (fresh : key ∉ (blocks cs).map Prod.fst) : ((blocks (cs ++ [c])).map Prod.fst).Nodup := by
  simpa [begins] using List.Nodup.concat fresh nodup

/-- A label that is taken is reported, and a body without labels has one block. -/
theorem nodup_blocks {p : Place} (reaches : Reaches cs p)
    (clean : diagnostics vocabulary cs = []) : ((blocks cs).map Prod.fst).Nodup := by
  induction reaches with
  | nil => exact List.nodup_nil
  | @block cs n b l label signature _ _ ih =>
    rw [diagnostics_snoc, List.append_eq_nil_iff] at clean
    obtain ⟨before, now⟩ := clean
    have fresh : (⟨b, some label.name⟩ : BlockKey) ∉ (blocks cs).map Prod.fst := by
      simpa [Clause.occurrences, Occurrence.diagnostic?, Use.problem?] using now
    exact nodup_blocks_snoc (ih before) rfl fresh
  | @entry cs n b reaches ih =>
    rw [diagnostics_snoc, List.append_eq_nil_iff] at clean
    have fresh : (⟨b, none⟩ : BlockKey) ∉ (blocks cs).map Prod.fst := by
      intro member
      obtain ⟨⟨key, signature⟩, inside, rfl⟩ := List.mem_map.mp member
      exact reaches.ordered.no_block b rfl rfl none signature inside
    exact nodup_blocks_snoc (ih clean.1) rfl fresh
  | global _ _ _ _ ih | header _ _ _ ih | localName _ _ ih | instruction _ _ ih =>
    rw [diagnostics_snoc, List.append_eq_nil_iff] at clean
    simpa [Clause.block?] using ih clean.1

end Clauses

theorem Tree.Module.nodup_blocks {m : Tree.Module}
    (clean : Clauses.diagnostics vocabulary m.clauses = []) :
    ((Clauses.blocks m.clauses).map Prod.fst).Nodup := by
  obtain ⟨p, reaches⟩ := m.exists_reaches
  exact Clauses.nodup_blocks reaches clean

end Resolved

end SigilAsm
