import SigilAsm.Proofs.Assembly.LocalNames
import SigilAsm.Proofs.Elaboration.Shown
import SigilAsm.Proofs.Grammar.Mentions
import SigilAsm.Proofs.Program.Rows

/-! # The listing of a source

Where nothing is reported, the listing of what was assembled shows each thing
that was recorded in one row, and by the name that is written in the source
(`assemble_listing`).  Names are known where they are shown, since the unknown
ones are reported; and since no name can hold a line feed, the rows are the
lines of the listing.
-/

namespace SigilAsm

/-! ## The rows of a tree -/

namespace Tree

/-- The rows of a block that has a given handle, in a function of a given signature. -/
def Code.rows (signature : Signature) (id : BlockId) (c : Code) : List String :=
  ("  block #" ++ toString id.index ++ (c.signature?.getD signature).render) ::
    c.instructions.map ("    " ++ ·.text)

def Module.functionRows (m : Module) (f : Program.Function) : List String :=
  ("function @" ++ f.name ++ f.signature.render) ::
    ((m.bodiesOf f.name).flatMap Body.localNames).map ("  local %" ++ ·) ++
      (f.blocks.toList.zip ((m.bodiesOf f.name).flatMap Body.code)).flatMap fun (id, c) =>
        c.rows f.signature id

/-- The rows of a listing by what is written in the source. -/
def Module.listingRows (m : Module) (functions : List Program.Function) : List String :=
  ("module @" ++ m.name.name) :: m.globals.map Program.Global.row ++
    functions.flatMap m.functionRows

end Tree

/-- All that a module declares is recorded, each part once and in order. -/
structure Program.Tallies (p : Program) (m : Tree.Module) : Prop where
  globals : p.globals.toList = m.globals
  functions : p.functions.toList.map (fun f => (f.name, f.signature)) =
    firsts Prod.fst (Clauses.mentions m.clauses)
  locals : ∀ f ∈ p.functions.toList,
    f.locals.size = ((m.bodiesOf f.name).flatMap Tree.Body.localNames).length
  blocks : ∀ f ∈ p.functions.toList,
    List.Forall₂ (fun id (c : Tree.Code) =>
        ∃ b, p.block? id = some b ∧ b.instructions.size = c.instructions.length)
      f.blocks.toList ((m.bodiesOf f.name).flatMap Tree.Body.code)

/-! ## Names are of one line -/

theorem Cursor.Spells.oneLine_of_mention {c next : Cursor} {ls : List Lexeme}
    (h : c.Spells ls next) {m : Mention} (member : m ∈ ls.flatMap Lexeme.mentions) :
    OneLine m.ident.name := by
  obtain ⟨start, text, stop, -, at_, -⟩ := h.exists_at_of_mem member
  obtain ⟨sigil, ident⟩ := m
  intro feed
  have inText : '\n' ∈ text := by
    cases at_.spelling with
    | bareName bare =>
      rw [String.toList_ofList] at feed
      exact .tail _ feed
    | quotedName quotable =>
      rw [String.toList_ofList] at feed
      exact .tail _ (.tail _ (List.mem_append_left _ feed))
  cases isLineEnd_of_spelling_name at_.spelling '\n' inText

namespace Tree.Module

variable {m : Module} {limit : Nat} {source : String}

theorem IsTreeOf.oneLine_of_mem (tree : m.IsTreeOf limit source)
    (short : source.utf8ByteSize ≤ maxSourceBytes) {c : Clause} (member : c ∈ m.clauses)
    {x : Mention} (mentioned : x ∈ c.statement.mentions) : OneLine x.ident.name := by
  obtain ⟨stop, read⟩ := tree.read short
  obtain ⟨ls, stop, spells, inOrder, -⟩ := Statement.situated_read limit source
  rw [read, m.statements_eq] at inOrder
  refine spells.oneLine_of_mention (inOrder.subset ?_)
  exact List.mem_flatMap.mpr ⟨_, .tail _ (List.mem_map_of_mem member), mentioned⟩

theorem IsTreeOf.oneLine_name (tree : m.IsTreeOf limit source) : OneLine m.name.name := by
  obtain ⟨stop, spells, -⟩ := tree.spells
  have member : (⟨.global, m.name⟩ : Mention) ∈ m.lexemes.flatMap Lexeme.mentions := by
    simp [lexemes, Lexeme.mentions]
  exact spells.oneLine_of_mention member

end Tree.Module

/-! ### Rows are of one line -/

theorem Argument.oneLine_text {a : Argument} (h : ∀ x ∈ a.mentions, OneLine x.ident.name) :
    OneLine a.text := by
  rcases a with ⟨sigil, ident⟩ | value
  · have name : OneLine ident.name := h ⟨sigil, ident⟩ (.head _)
    cases sigil <;> exact .append (by decide) name
  · exact .toString _

theorem Tree.Instruction.oneLine_text {i : Tree.Instruction}
    (h : ∀ x ∈ i.statement.mentions, OneLine x.ident.name) : OneLine i.text := by
  cases i with
  | call target signature => exact .append (by decide) (h ⟨.global, target⟩ (.head _))
  | operation head arguments =>
    have shown : OneLine ("$" ++ head.name) := .append (by decide) (h ⟨.builtin, head⟩ (.head _))
    have texts : ∀ text ∈ arguments.map Argument.text, OneLine text := by
      intro text member
      obtain ⟨a, inside, rfl⟩ := List.mem_map.mp member
      exact Argument.oneLine_text fun x mentioned =>
        h x (.tail _ (List.mem_flatMap.mpr ⟨a, inside, mentioned⟩))
    cases arguments with
    | nil => exact shown
    | cons first rest => exact (shown.append (by decide)).append (.intercalate (by decide) texts)

namespace Tree.Module

section Rows

variable {m : Module} (names : ∀ c ∈ m.clauses, ∀ x ∈ c.statement.mentions, OneLine x.ident.name)
include names

theorem oneLine_global {g : Program.Global} (member : g ∈ m.globals) : OneLine g.name := by
  rw [← globals_clauses] at member
  obtain ⟨c, inside, said⟩ := List.mem_filterMap.mp member
  cases c with
  | global name mutability data =>
    cases said
    exact names _ inside _ (.head _)
  | _ => cases said

theorem oneLine_mention {x : String × Signature} (member : x ∈ Clauses.mentions m.clauses) :
    OneLine x.1 := by
  obtain ⟨c, inside, said⟩ := List.mem_filterMap.mp member
  cases c with
  | header body name signature =>
    cases said
    exact names _ inside _ (.head _)
  | instruction block i =>
    rcases i with ⟨target, _ | signature⟩ | _
    · cases said
    · cases said
      exact names _ inside _ (.head _)
    · cases said
  | _ => cases said

theorem oneLine_local {f name : String}
    (member : name ∈ (m.bodiesOf f).flatMap Body.localNames) : OneLine name := by
  rw [← filter_locals_clauses] at member
  obtain ⟨x, filtered, rfl⟩ := List.mem_map.mp member
  obtain ⟨c, inside, said⟩ := List.mem_filterMap.mp (List.mem_of_mem_filter filtered)
  cases c with
  | localName body name =>
    cases said
    exact names _ inside _ (.head _)
  | _ => cases said

theorem oneLine_instruction (nodup : ((Clauses.blocks m.clauses).map Prod.fst).Nodup)
    {x : BodyKey × Code} (member : x ∈ m.code) {i : Instruction} (stands : i ∈ x.2.instructions) :
    OneLine i.text := by
  rw [← written_of_mem nodup member] at stands
  obtain ⟨c, inside, said⟩ := List.mem_filterMap.mp stands
  cases c with
  | instruction block j =>
    obtain ⟨-, rfl⟩ : block = x.2.key x.1 ∧ j = i := by simpa [Clause.written?] using said
    exact Instruction.oneLine_text (names _ inside)
  | _ => cases said

theorem oneLine_functionRows (nodup : ((Clauses.blocks m.clauses).map Prod.fst).Nodup)
    {f : Program.Function} (name : OneLine f.name) : ∀ row ∈ m.functionRows f, OneLine row := by
  intro row member
  rw [functionRows, List.cons_append, List.mem_cons, List.mem_append] at member
  obtain rfl | member | member := member
  · exact (OneLine.append (by decide) name).append (.render _)
  · obtain ⟨shown, here, rfl⟩ := List.mem_map.mp member
    exact .append (by decide) (oneLine_local names here)
  · obtain ⟨⟨id, c⟩, pair, member⟩ := List.mem_flatMap.mp member
    have block := (List.of_mem_zip pair).2
    rw [flatMap_bodiesOf] at block
    obtain ⟨x, filtered, rfl⟩ := List.mem_map.mp block
    obtain rfl | member := List.mem_cons.mp member
    · exact (OneLine.append (by decide) (.toString _)).append (.render _)
    · obtain ⟨i, written, rfl⟩ := List.mem_map.mp member
      have stands : x ∈ m.code := List.mem_of_mem_filter filtered
      exact .append (by decide) (oneLine_instruction names nodup stands written)

theorem oneLine_listingRows (nodup : ((Clauses.blocks m.clauses).map Prod.fst).Nodup)
    (name : OneLine m.name.name) {functions : List Program.Function}
    (mentioned : ∀ f ∈ functions, f.name ∈ (Clauses.mentions m.clauses).map Prod.fst) :
    ∀ row ∈ m.listingRows functions, OneLine row := by
  intro row member
  rw [listingRows, List.cons_append, List.mem_cons, List.mem_append] at member
  obtain rfl | member | member := member
  · exact .append (by decide) name
  · obtain ⟨g, inside, rfl⟩ := List.mem_map.mp member
    exact .row (oneLine_global names inside)
  · obtain ⟨f, inside, member⟩ := List.mem_flatMap.mp member
    obtain ⟨x, said, same⟩ := List.mem_map.mp (mentioned f inside)
    have name : OneLine f.name := same ▸ oneLine_mention names said
    exact oneLine_functionRows names nodup name row member

end Rows

end Tree.Module

/-! ## What is shown of a program -/

section Functions

variable {name : String} {d : Program.Declared} {f : Program.Function}

theorem Program.mentioned_of_mem (member : f ∈ (ofDeclared name d).functions.toList) :
    f.name ∈ d.mentions.map Prod.fst := by
  obtain ⟨mention, first, rfl⟩ := mem_functions_ofDeclared.mp member
  exact List.mem_map_of_mem (mem_of_mem_firsts first)

theorem Program.signature_of_mem (member : f ∈ (ofDeclared name d).functions.toList) :
    d.signature f.name = f.signature := by
  obtain ⟨mention, first, rfl⟩ := mem_functions_ofDeclared.mp member
  rw [Declared.signature, Declared.functionRow, lookup_of_mem_firsts first, Option.getD_some]

end Functions

theorem flatMap_eq_of_forall₂ {α β γ : Type} {part : α → List γ} {other : α × β → List γ}
    {as : List α} {bs : List β} (h : List.Forall₂ (fun a b => part a = other (a, b)) as bs) :
    as.flatMap part = (as.zip bs).flatMap other := by
  induction h with
  | nil => rfl
  | cons same _ ih => rw [List.flatMap_cons, List.zip_cons_cons, List.flatMap_cons, same, ih]

namespace Tree.Module

variable {m : Module} {vocabulary : Vocabulary} {f : Program.Function}

section Clean

variable (clean : Clauses.diagnostics vocabulary m.clauses = [])
include clean

theorem firsts_blocks : firsts Prod.fst (Clauses.blocks m.clauses) =
    m.code.map fun x => (x.2.key x.1, x.2.signature?) :=
  (firsts_eq_self (nodup_blocks clean)).trans m.blocks_clauses

/-- The handles of a function lead to the blocks of its bodies. -/
theorem forall₂_blocks (member : f ∈ (m.program vocabulary).functions.toList) :
    List.Forall₂ (fun id x => m.code[id.index]? = some x ∧ x.1.function = f.name)
      f.blocks.toList (m.code.filter (·.1.function = f.name)) := by
  obtain ⟨mention, -, rfl⟩ := Program.mem_functions_ofDeclared.mp member
  simp only [Program.Declared.functionRow, Clauses.declared, firsts_blocks clean,
    placesWhere_map, List.forall₂_map_left_iff]
  exact (forall₂_placesWhere _ m.code).imp fun i x h => ⟨h.1, of_decide_eq_true h.2⟩

theorem globals_program : (m.program vocabulary).globals.toList = m.globals := by
  rw [← globals_clauses]
  exact firsts_eq_self (Clauses.nodup_globals clean)

theorem localRows_program (member : f ∈ (m.program vocabulary).functions.toList) :
    f.locals.toList.map (m.program vocabulary).localRow =
      ((m.bodiesOf f.name).flatMap Body.localNames).map ("  local %" ++ ·) := by
  calc f.locals.toList.map (m.program vocabulary).localRow
    _ = ((m.program vocabulary).localNames f).map
        fun name => "  local %" ++ name.getD Program.missingName := by
      rw [Program.localNames, List.map_map]
      rfl
    _ = ((m.bodiesOf f.name).flatMap Body.localNames).map ("  local %" ++ ·) := by
      rw [localNames_program (Clauses.nodup_locals clean) member, List.map_map]
      rfl

variable (numbered : vocabulary.Numbered)
include numbered

theorem exists_block {id : BlockId} {x : BodyKey × Code} (here : m.code[id.index]? = some x) :
    ∃ b, (m.program vocabulary).block? id = some b ∧
      b.signature = x.2.signature?.getD
        ((Clauses.declared vocabulary m.clauses).signature x.1.function) ∧
      b.instructions.toList.map ((m.program vocabulary).instructionText vocabulary) =
        x.2.instructions.map Instruction.text := by
  have shown := Clauses.map_text_instructions numbered m.name.name clean [] (x.2.key x.1)
  rw [List.append_nil, written_of_mem (nodup_blocks clean) (List.mem_of_getElem? here)] at shown
  refine ⟨(Clauses.declared vocabulary m.clauses).blockRow (x.2.key x.1, x.2.signature?), ?_, rfl,
    shown⟩
  obtain ⟨place⟩ := id
  rw [program, Program.block?_ofDeclared]
  simp only [Clauses.declared, firsts_blocks clean, List.getElem?_map, here, Option.map_some]

/-- The blocks of a function are those of its bodies, with the instructions that stand there. -/
theorem forall₂_code (member : f ∈ (m.program vocabulary).functions.toList) :
    List.Forall₂ (fun id (c : Code) => ∃ b, (m.program vocabulary).block? id = some b ∧
        b.signature = c.signature?.getD f.signature ∧
        b.instructions.toList.map ((m.program vocabulary).instructionText vocabulary) =
          c.instructions.map Instruction.text)
      f.blocks.toList ((m.bodiesOf f.name).flatMap Body.code) := by
  rw [flatMap_bodiesOf, List.forall₂_map_right_iff]
  refine (forall₂_blocks clean member).imp fun id x ⟨here, inside⟩ => ?_
  have shown := exists_block clean numbered here
  rwa [inside, Program.signature_of_mem member] at shown

theorem blockRows_program (member : f ∈ (m.program vocabulary).functions.toList) :
    f.blocks.toList.flatMap ((m.program vocabulary).blockRows vocabulary) =
      (f.blocks.toList.zip ((m.bodiesOf f.name).flatMap Body.code)).flatMap
        fun x => x.2.rows f.signature x.1 := by
  refine flatMap_eq_of_forall₂ ((forall₂_code clean numbered member).imp ?_)
  rintro id c ⟨b, here, signature, texts⟩
  have rows : b.instructions.toList.map
      ("    " ++ (m.program vocabulary).instructionText vocabulary ·) =
      c.instructions.map ("    " ++ ·.text) := by
    simpa only [List.map_map, Function.comp_def] using congrArg (List.map ("    " ++ ·)) texts
  simp only [Program.blockRows, here, signature, rows, Code.rows]

/-- The rows of the program are those of the tree. -/
theorem listingRows_program : (m.program vocabulary).listingRows vocabulary =
    m.listingRows (m.program vocabulary).functions.toList := by
  have functions : ∀ f ∈ (m.program vocabulary).functions.toList,
      (m.program vocabulary).functionRows vocabulary f = m.functionRows f := by
    intro f member
    rw [Program.functionRows, localRows_program clean member,
      blockRows_program clean numbered member, functionRows]
  rw [Program.listingRows, globals_program clean, List.flatMap_congr functions, listingRows]
  rfl

theorem tallies_program : (m.program vocabulary).Tallies m where
  globals := globals_program clean
  functions := by
    simp [program, Program.ofDeclared, Clauses.declared, Program.Declared.functionRow,
      Function.comp_def]
  locals f member := by
    simpa [Program.localNames] using
      congrArg List.length (localNames_program (Clauses.nodup_locals clean) member)
  blocks f member := by
    refine (forall₂_code clean numbered member).imp ?_
    rintro id c ⟨b, here, -, texts⟩
    exact ⟨b, here, by simpa using congrArg List.length texts⟩

end Clean

end Tree.Module

/-! ## Listings of sources -/

variable {settings : Settings} {source : String} {a : Assembly}

/-- The lines of the listing of a source without diagnostics are one for the module, one for each
thing that is recorded of it, and none besides, and they show what is written in the source.  The
vocabulary can be any that was built by definitions, as long as there are numbers for its names. -/
theorem assemble_listing (assembled : assemble settings source = .ok a)
    (clean : a.diagnostics = []) (built : settings.vocabulary.Built)
    (fits : settings.vocabulary.Fits) :
    (∃ m : Tree.Module, m.IsTreeOf settings.maxDataBytes source) ∧
      ∀ m : Tree.Module, m.IsTreeOf settings.maxDataBytes source →
        a.program.Tallies m ∧
          (a.program.listing settings.vocabulary).toList.splitOn '\n' =
            (m.listingRows a.program.functions.toList).map String.toList ++ [[]] := by
  refine ⟨exists_isTreeOf_of_assemble assembled, fun m tree => ?_⟩
  obtain ⟨program, diagnostics⟩ := assembly_of_isTreeOf assembled tree
  have numbered := built.numbered fits
  have silent : Clauses.diagnostics settings.vocabulary m.clauses = [] :=
    diagnostics.symm.trans clean
  rw [program]
  refine ⟨Tree.Module.tallies_program silent numbered, ?_⟩
  -- The names of the rows are names of the source, none of which holds a line feed.
  obtain ⟨stop, read⟩ := elaborate_isOk_iff.mp (isOk_of_assemble assembled)
  have short := (Statement.exists_isTreeOf_of_read read).1
  have oneLine : ∀ row ∈ m.listingRows (m.program settings.vocabulary).functions.toList,
      OneLine row :=
    Tree.Module.oneLine_listingRows (fun c member x => tree.oneLine_of_mem short member)
      (Tree.Module.nodup_blocks silent) tree.oneLine_name fun f => Program.mentioned_of_mem
  rw [← Tree.Module.listingRows_program silent numbered] at oneLine ⊢
  exact Program.splitOn_listing oneLine

/-- A quoted name with a blank, and operands of every kind. -/
theorem assemble_listing_quoted_name :
    ∃ a m, assemble .standard
        ("module @m; global const @'a b' = 01; function @f \x7b local %x; block %l \x7b " ++
          "$add %x, @'a b', $i32, 7; call @f; \x7d \x7d") = .ok a ∧
      a.program.Tallies m ∧
      (m.listingRows a.program.functions.toList).map String.toList ++ [[]] =
        ["module @m", "global const @a b (1 bytes) 01", "function @f[0=>0]", "  local %x",
          "  block #0[0=>0]", "    $add %x, @a b, $i32, 7", "    call @f", ""].map
            String.toList := by
  have checked : ((assemble .standard
        ("module @m; global const @'a b' = 01; function @f \x7b local %x; block %l \x7b " ++
          "$add %x, @'a b', $i32, 7; call @f; \x7d \x7d")).toOption.map fun a =>
        (a.diagnostics, (a.program.listing .standard).toList.splitOn '\n')) =
      some ([], ["module @m", "global const @a b (1 bytes) 01", "function @f[0=>0]", "  local %x",
          "  block #0[0=>0]", "    $add %x, @a b, $i32, 7", "    call @f", ""].map
            String.toList) := by
    decide +kernel
  rcases assembled : assemble _ _ with e | a
  · rw [assembled] at checked
    cases checked
  · rw [assembled] at checked
    obtain ⟨clean, lines⟩ := Prod.mk.inj (Option.some.inj checked)
    have fits : Settings.standard.vocabulary.Fits :=
      ⟨by decide +kernel, by decide +kernel⟩
    obtain ⟨⟨m, tree⟩, shown⟩ :=
      assemble_listing assembled clean Vocabulary.built_standard fits
    exact ⟨a, m, rfl, (shown m tree).1, (shown m tree).2.symm.trans lines⟩

end SigilAsm
