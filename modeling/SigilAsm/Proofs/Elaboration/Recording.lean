import SigilAsm.Proofs.Elaboration.Diagnostics
import SigilAsm.Proofs.Elaboration.Meaning
import SigilAsm.Proofs.Grammar.Thrift

/-! # What a program records

A source that is taken in over an empty program leaves the program that its
tree means.  The invariant `Scope.Records` says that the program and the handles
in the tables are those of what was declared so far; since places never change,
each clause only adds to them.
-/

namespace SigilAsm

open Program (Declared)

namespace Program.Declared

variable {d : Declared}

/-! ## Handles -/

def global? (d : Declared) (x : String) : Option GlobalId :=
  (placeOf? (·.name) x d.globals).map .mk

def local? (d : Declared) (b : BodyKey) (x : String) : Option LocalId :=
  (placeOf? id (b, x) d.locals).map .mk

def block? (d : Declared) (key : BlockKey) : Option BlockId :=
  (placeOf? Prod.fst key d.blocks).map .mk

theorem isSome_global?_iff {x : String} :
    (d.global? x).isSome = true ↔ x ∈ d.globals.map (·.name) := by
  rw [global?, Option.isSome_map, isSome_placeOf?_iff]

theorem isSome_local?_iff {b : BodyKey} {x : String} :
    (d.local? b x).isSome = true ↔ (b, x) ∈ d.locals := by
  rw [local?, Option.isSome_map, isSome_placeOf?_iff, List.map_id]

theorem isSome_block?_iff {key : BlockKey} :
    (d.block? key).isSome = true ↔ key ∈ d.blocks.map Prod.fst := by
  rw [block?, Option.isSome_map, isSome_placeOf?_iff]

theorem global?_withGlobal_of_mem {g : Global} (taken : g.name ∈ d.globals.map (·.name))
    (x : String) : (d.withGlobal g).global? x = d.global? x :=
  congrArg (Option.map GlobalId.mk) (placeOf?_snoc_of_mem taken)

theorem global?_withGlobal_of_not_mem {g : Global} (fresh : g.name ∉ d.globals.map (·.name))
    (x : String) : (d.withGlobal g).global? x =
      (d.global? x).or
        (if x = g.name then some ⟨(firsts (·.name) d.globals).length⟩ else none) := by
  rw [global?, withGlobal, placeOf?_snoc_of_not_mem fresh, Option.map_or, apply_ite (Option.map _)]
  rfl

theorem local?_withLocal_of_mem {b : BodyKey} {y : String} (taken : (b, y) ∈ d.locals)
    (x : String) : (d.withLocal b y).local? b x = d.local? b x := by
  have member : id (b, y) ∈ d.locals.map id := by simpa using taken
  exact congrArg (Option.map LocalId.mk) (placeOf?_snoc_of_mem member)

theorem local?_withLocal_of_not_mem {b : BodyKey} {y : String} (fresh : (b, y) ∉ d.locals)
    (x : String) : (d.withLocal b y).local? b x =
      (d.local? b x).or (if x = y then some ⟨(firsts id d.locals).length⟩ else none) := by
  have absent : id (b, y) ∉ d.locals.map id := by simpa using fresh
  rw [local?, withLocal, placeOf?_snoc_of_not_mem absent, Option.map_or, apply_ite (Option.map _)]
  simp [local?]

theorem block?_withBlock_of_mem {key : BlockKey} (taken : key ∈ d.blocks.map Prod.fst)
    (signature : Option Signature) (other : BlockKey) :
    (d.withBlock key signature).block? other = d.block? other :=
  congrArg (Option.map BlockId.mk)
    (placeOf?_snoc_of_mem (a := (key, signature)) taken)

theorem block?_withBlock_of_not_mem {key : BlockKey} (fresh : key ∉ d.blocks.map Prod.fst)
    (signature : Option Signature) (other : BlockKey) :
    (d.withBlock key signature).block? other = (d.block? other).or
      (if other = key then some ⟨(firsts Prod.fst d.blocks).length⟩ else none) := by
  rw [block?, withBlock, placeOf?_snoc_of_not_mem (a := (key, signature)) fresh, Option.map_or,
    apply_ite (Option.map _)]
  rfl

/-- What is known of a function, if it was mentioned. -/
def mentioned? (d : Declared) (f : String) : Option FunctionEntry :=
  if f ∈ d.mentions.map Prod.fst then some ⟨d.functionId f, d.signature f⟩ else none

theorem mentioned?_withMention (d : Declared) (x : String) (signature : Signature) (f : String) :
    (d.withMention x signature).mentioned? f = (d.mentioned? f).or (if f = x then
      some ⟨(d.withMention x signature).functionId x, (d.withMention x signature).signature x⟩
    else none) := by
  by_cases known : f ∈ d.mentions.map Prod.fst
  · have still : f ∈ (d.withMention x signature).mentions.map Prod.fst := by
      rw [withMention, List.map_append]
      exact List.mem_append_left _ known
    rw [mentioned?, mentioned?, if_pos known, if_pos still, functionId_withMention known,
      signature_withMention known]
    rfl
  · rw [mentioned?, mentioned?, if_neg known, Option.none_or]
    by_cases same : f = x
    · have now : f ∈ (d.withMention x signature).mentions.map Prod.fst := by
        simp [withMention, same]
      rw [if_pos now, if_pos same, same]
    · have never : f ∉ (d.withMention x signature).mentions.map Prod.fst := by
        rw [withMention, List.map_append, List.mem_append]
        rintro (old | new)
        · exact known old
        · exact same (List.mem_singleton.mp new)
      rw [if_neg never, if_neg same]

end Program.Declared

namespace Scope

/-- The tables of a scope hold the handles of the program of what is declared.  The scope stands in
the body and in the block that are given. -/
structure Records (s : Scope Program) (vocabulary : Vocabulary) (name : String) (d : Declared)
    (body : Option BodyKey) (block : Option (Option String)) : Prop where
  target : s.target = .ofDeclared name d
  vocabulary : s.vocabulary = vocabulary
  globals : ∀ x, s.globals.lookup? x = d.global? x
  functions : ∀ f, s.functions.lookup? f = d.mentioned? f
  function : ∀ b, body = some b →
    s.function = some ⟨d.functionId b.function, d.signature b.function⟩
  locals : ∀ b, body = some b → ∀ x, s.locals.lookup? x = d.local? b x
  blocks : ∀ b, body = some b → block ≠ some none → ∀ x,
    (s.blocks.lookup? x).map (·.id) = d.block? ⟨b, some x⟩
  block : ∀ b l, body = some b → block = some l →
    (d.block? ⟨b, l⟩).isSome ∧ s.block = d.block? ⟨b, l⟩

variable {s s' : Scope Program} {vocabulary : Vocabulary} {name : String} {d : Declared}
  {body : Option BodyKey} {block : Option (Option String)} {b : BodyKey}

theorem Reports.records {ds : List Diagnostic} (h : s.Reports ds s')
    (records : s.Records vocabulary name d body block) :
    s'.Records vocabulary name d body block := by
  rw [h.same]
  exact ⟨records.target, records.vocabulary, records.globals, records.functions, records.function,
    records.locals, records.blocks, records.block⟩

/-! ## Declarations -/

theorem Records.declareGlobal (h : s.Records vocabulary name d body block) (valid : d.Valid)
    (ident : Ident) (mutability : Mutability) (data : List UInt8) :
    (s.declareGlobal ident mutability data).2.Records vocabulary name
      (d.withGlobal ⟨ident.name, mutability, data⟩) body block := by
  have bound : s.globals.contains ident.name = true ↔ ident.name ∈ d.globals.map (·.name) := by
    rw [NameTable.contains, h.globals, Declared.isSome_global?_iff]
  by_cases taken : s.globals.contains ident.name = true
  · rw [declareGlobal_of_contains taken]
    have declared := bound.mp taken
    refine (Reports.report s _).records ⟨?_, h.vocabulary, fun x => ?_, h.functions, h.function,
      h.locals, h.blocks, h.block⟩
    · rw [Program.ofDeclared_withGlobal_of_mem declared, h.target]
    · rw [Declared.global?_withGlobal_of_mem declared, h.globals]
  · rw [declareGlobal_of_not_contains taken]
    have fresh := mt bound.mpr taken
    have added := Program.addGlobal_ofDeclared name valid
      (g := ⟨ident.name, mutability, data⟩) fresh
    rw [← h.target] at added
    refine ⟨congrArg Prod.snd added, h.vocabulary, fun x => ?_, h.functions, h.function, h.locals,
      h.blocks, h.block⟩
    change (s.globals.insert ident.name
      (s.target.addGlobal ident.name mutability data).1).lookup? x = _
    rw [NameTable.lookup?_insert, h.globals, added, Declared.global?_withGlobal_of_not_mem fresh]

/-- A function that was mentioned before keeps its entry, and any other gets the next handle. -/
theorem Records.mentionFunction (h : s.Records vocabulary name d body block) (valid : d.Valid)
    (mentioned : ∀ b, body = some b → b.function ∈ d.mentions.map Prod.fst) (ident : Ident)
    (signature : Signature) :
    (d.withMention ident.name signature).mentioned? ident.name =
        some (s.mentionFunction ident signature).1 ∧
      (s.mentionFunction ident signature).2.Records vocabulary name
        (d.withMention ident.name signature) body block := by
  have function : ∀ b, body = some b → s.function =
      some ⟨(d.withMention ident.name signature).functionId b.function,
        (d.withMention ident.name signature).signature b.function⟩ := by
    intro b current
    rw [Declared.functionId_withMention (mentioned b current),
      Declared.signature_withMention (mentioned b current), h.function b current]
  cases found : s.functions.lookup? ident.name with
  | some entry =>
    have old := (h.functions ident.name).symm.trans found
    have known : ident.name ∈ d.mentions.map Prod.fst := by
      by_contra absent
      rw [Declared.mentioned?, if_neg absent] at old
      cases old
    -- The first mention decides, so one more of the same name tells nothing new.
    have same : ∀ f, (d.withMention ident.name signature).mentioned? f = d.mentioned? f := by
      intro f
      rw [Declared.mentioned?_withMention]
      by_cases equal : f = ident.name
      · rw [equal, old, Option.some_or]
      · rw [if_neg equal, Option.or_none]
    have records : s.Records vocabulary name (d.withMention ident.name signature) body block :=
      ⟨by rw [Program.ofDeclared_withMention_of_mem valid known, h.target], h.vocabulary, h.globals,
        fun f => by rw [same, h.functions], function, h.locals, h.blocks, h.block⟩
    rw [mentionFunction_of_eq_some found]
    refine ⟨(same ident.name).trans old, ?_⟩
    dsimp only
    split
    · exact records
    · exact (Reports.report s _).records records
  | none =>
    have old := (h.functions ident.name).symm.trans found
    have fresh : ident.name ∉ d.mentions.map Prod.fst := by
      intro known
      rw [Declared.mentioned?, if_pos known] at old
      cases old
    have added := Program.addFunction_ofDeclared name valid fresh signature
    rw [← h.target] at added
    have next : (⟨(s.target.addFunction ident.name signature).1, signature⟩ : FunctionEntry) =
        ⟨(d.withMention ident.name signature).functionId ident.name,
          (d.withMention ident.name signature).signature ident.name⟩ := by
      rw [Declared.functionId_withMention_of_not_mem fresh,
        Declared.signature_withMention_of_not_mem fresh, added]
    rw [mentionFunction_of_eq_none found]
    refine ⟨?_, congrArg Prod.snd added, h.vocabulary, h.globals, fun f => ?_, function, h.locals,
      h.blocks, h.block⟩
    · rw [Declared.mentioned?_withMention, old, Option.none_or, if_pos rfl]
      exact congrArg some next.symm
    · change ((s.functions.insert ident.name ⟨(s.target.addFunction ident.name signature).1,
        signature⟩).lookup? f) = _
      rw [NameTable.lookup?_insert, h.functions, Declared.mentioned?_withMention, next]

/-- A header opens a body that has no locals and no blocks yet. -/
theorem Records.declareFunction {n : Nat} (h : s.Records vocabulary name d body block)
    (valid : d.Valid) (mentioned : ∀ b, body = some b → b.function ∈ d.mentions.map Prod.fst)
    (ident : Ident) (signature : Signature)
    (noLocal : ∀ x, (⟨n, ident.name⟩, x) ∉ d.locals)
    (noBlock : ∀ l, ⟨⟨n, ident.name⟩, l⟩ ∉ d.blocks.map Prod.fst) :
    (s.declareFunction ident signature).2.Records vocabulary name
      (d.withMention ident.name signature) (some ⟨n, ident.name⟩) none := by
  obtain ⟨entry, records⟩ := h.mentionFunction valid mentioned ident signature
  unfold Scope.declareFunction
  refine ⟨records.target, records.vocabulary, records.globals, records.functions, ?_, ?_, ?_,
    by rintro _ _ - ⟨⟩⟩
  · rintro _ ⟨⟩
    have known : ident.name ∈ (d.withMention ident.name signature).mentions.map Prod.fst := by
      simp [Declared.withMention]
    rw [Declared.mentioned?, if_pos known] at entry
    exact entry.symm
  · rintro _ ⟨⟩ x
    have absent := mt Declared.isSome_local?_iff.mp (noLocal x)
    exact (Option.not_isSome_iff_eq_none.mp absent).symm
  · rintro _ ⟨⟩ - x
    have absent := mt Declared.isSome_block?_iff.mp (noBlock (some x))
    exact (Option.not_isSome_iff_eq_none.mp absent).symm

theorem Records.declareLocal (h : s.Records vocabulary name d (some b) none) (valid : d.Valid)
    (ident : Ident) :
    (s.declareLocal ident).2.Records vocabulary name (d.withLocal b ident.name) (some b) none := by
  have bound : s.locals.contains ident.name = true ↔ (b, ident.name) ∈ d.locals := by
    rw [NameTable.contains, h.locals b rfl, Declared.isSome_local?_iff]
  by_cases taken : s.locals.contains ident.name = true
  · rw [declareLocal_of_contains (h.function b rfl) taken]
    have declared := bound.mp taken
    refine (Reports.report s _).records ⟨?_, h.vocabulary, h.globals, h.functions, h.function, ?_,
      h.blocks, by rintro _ _ - ⟨⟩⟩
    · rw [Program.ofDeclared_withLocal_of_mem declared, h.target]
    · rintro _ ⟨⟩ x
      rw [Declared.local?_withLocal_of_mem declared, h.locals b rfl]
  · rw [declareLocal_of_not_contains (h.function b rfl) taken]
    have fresh := mt bound.mpr taken
    have added := Program.addLocal_ofDeclared name valid fresh
    rw [← h.target] at added
    refine ⟨congrArg Prod.snd added, h.vocabulary, h.globals, h.functions, h.function, ?_, h.blocks,
      by rintro _ _ - ⟨⟩⟩
    rintro _ ⟨⟩ x
    change (s.locals.insert ident.name
      (s.target.addLocal (d.functionId b.function) ident.name).1).lookup? x = _
    rw [NameTable.lookup?_insert, h.locals b rfl, added, Declared.local?_withLocal_of_not_mem fresh]

/-- A label that is there already leads back to its block. -/
theorem Records.declareBlock (h : s.Records vocabulary name d (some b) block) (valid : d.Valid)
    (labelled : block ≠ some none) (ident : Ident) (signature : Signature) :
    (s.declareBlock ident signature).2.Records vocabulary name
      (d.withBlock ⟨b, some ident.name⟩ (some signature)) (some b) (some (some ident.name)) := by
  have old := h.blocks b rfl labelled ident.name
  cases found : s.blocks.lookup? ident.name with
  | some entry =>
    rw [declareBlock_of_eq_some (h.function b rfl) found]
    rw [found, Option.map_some] at old
    have declared : ⟨b, some ident.name⟩ ∈ d.blocks.map Prod.fst :=
      Declared.isSome_block?_iff.mp (by rw [← old]; rfl)
    refine ⟨?_, h.vocabulary, h.globals, h.functions, h.function, h.locals, ?_, ?_⟩
    · rw [Program.ofDeclared_withBlock_of_mem declared, ← h.target]
      rfl
    · rintro _ ⟨⟩ - x
      rw [Declared.block?_withBlock_of_mem declared]
      exact h.blocks b rfl labelled x
    · rintro _ _ ⟨⟩ ⟨⟩
      rw [Declared.block?_withBlock_of_mem declared, ← old]
      exact ⟨rfl, rfl⟩
  | none =>
    rw [declareBlock_of_eq_none (h.function b rfl) found]
    rw [found, Option.map_none] at old
    have fresh : ⟨b, some ident.name⟩ ∉ d.blocks.map Prod.fst :=
      mt Declared.isSome_block?_iff.mpr (by simp [← old])
    have added := Program.addBlock_ofDeclared name valid (some signature) fresh
    rw [← h.target] at added
    refine ⟨congrArg Prod.snd added, h.vocabulary, h.globals, h.functions, h.function, h.locals, ?_,
      ?_⟩
    · rintro _ ⟨⟩ - x
      change ((s.blocks.insert ident.name
        ⟨(s.target.addBlock (d.functionId b.function) signature).1, signature⟩).lookup? x).map
          (·.id) = _
      rw [NameTable.lookup?_insert, Option.map_or, h.blocks b rfl labelled,
        Declared.block?_withBlock_of_not_mem fresh]
      have next := congrArg Prod.fst added
      by_cases same : x = ident.name
      · rw [same, ← old]
        simpa using next
      · simp [same]
    · rintro _ _ ⟨⟩ ⟨⟩
      rw [Declared.block?_withBlock_of_not_mem fresh, ← old, if_pos rfl]
      exact ⟨rfl, congrArg (fun added => some added.1) added⟩

theorem Records.enterEntryBlock (h : s.Records vocabulary name d (some b) none) (valid : d.Valid)
    (fresh : ⟨b, none⟩ ∉ d.blocks.map Prod.fst) :
    s.enterEntryBlock.2.Records vocabulary name (d.withBlock ⟨b, none⟩ none) (some b)
      (some none) := by
  have added := Program.addBlock_ofDeclared name valid none fresh
  have absent := Option.not_isSome_iff_eq_none.mp (mt Declared.isSome_block?_iff.mp fresh)
  rw [← h.target] at added
  rw [enterEntryBlock_of_current (h.function b rfl)]
  refine ⟨congrArg Prod.snd added, h.vocabulary, h.globals, h.functions, h.function, h.locals,
    fun _ _ labelled => absurd rfl labelled, ?_⟩
  rintro _ _ ⟨⟩ ⟨⟩
  rw [Declared.block?_withBlock_of_not_mem fresh, absent, if_pos rfl]
  exact ⟨rfl, congrArg (fun added => some added.1) added⟩

/-! ## Instructions -/

theorem Records.emit {l : Option String} (h : s.Records vocabulary name d (some b) (some l))
    (i : Instruction) :
    (s.emit i).Records vocabulary name (d.withInstruction ⟨b, l⟩ i) (some b) (some l) := by
  obtain ⟨isSome, current⟩ := h.block b l rfl rfl
  have declared := Declared.isSome_block?_iff.mp isSome
  have place : d.block? ⟨b, l⟩ = some ⟨placeOf Prod.fst ⟨b, l⟩ d.blocks⟩ := by
    rw [Declared.block?, placeOf?_of_mem declared, Option.map_some]
  rw [place] at current
  rw [emit_of_current (h.function b rfl) current]
  refine ⟨?_, h.vocabulary, h.globals, h.functions, h.function, h.locals, h.blocks, h.block⟩
  change s.target.emit _ _ = _
  rw [h.target, Program.emit_ofDeclared]

theorem Records.fst_resolveArgument {cs : List Clause}
    (h : s.Records vocabulary name (Clauses.declared vocabulary cs) (some b) block) (a : Argument) :
    (s.resolveArgument a).1 = Clauses.resolveArgument vocabulary cs b a := by
  rcases a with ⟨sigil, ident⟩ | value
  · cases sigil with
    | inner =>
      simp only [Scope.resolveArgument, resolveLocal, fst_resolve, Clauses.resolveArgument]
      rw [h.locals b rfl, Declared.local?, Option.map_map]
      rfl
    | global =>
      simp only [Scope.resolveArgument, resolveGlobal, fst_resolve, Clauses.resolveArgument]
      rw [h.globals, Declared.global?, Option.map_map]
      rfl
    | builtin =>
      simp only [Scope.resolveArgument, resolveType, fst_resolve, Clauses.resolveArgument]
      rw [h.vocabulary]
  · rfl

theorem Records.fst_resolveArguments {cs : List Clause} {p : Place}
    (h : s.Records vocabulary name (Clauses.declared vocabulary cs) (some b) block)
    (known : s.Knows vocabulary cs p) (inside : p.body = some b) (arguments : List Argument) :
    (s.resolveArguments arguments).1 = Clauses.resolveArguments vocabulary cs b arguments := by
  induction arguments generalizing s with
  | nil => rfl
  | cons a rest ih =>
    have first := reports_resolveArgument known inside a
    simp only [Scope.resolveArguments, Clauses.resolveArguments]
    rw [h.fst_resolveArgument, ih (first.records h) (first.knows known)]

end Scope

/-! ## One more clause -/

namespace Clauses

variable {vocabulary : Vocabulary} {cs : List Clause} {b : BodyKey} {k : BlockKey}

theorem declared_snoc {c : Clause} (h : ∀ key, emitted? vocabulary (cs ++ [c]) key c = none) :
    declared vocabulary (cs ++ [c]) =
      ⟨globals cs ++ c.global?.toList, mentions cs ++ c.mention?.toList,
        locals cs ++ c.local?.toList, blocks cs ++ c.block?.toList,
        instructions vocabulary cs⟩ := by
  have code : instructions vocabulary (cs ++ [c]) = instructions vocabulary cs := by
    funext key
    rw [instructions_snoc, h, Option.toList_none, List.append_nil]
  rw [declared, globals_snoc, mentions_snoc, locals_snoc, blocks_snoc, code]

theorem declared_global (ident : Ident) (mutability : Mutability) (data : List UInt8) :
    declared vocabulary (cs ++ [.global ident mutability data]) =
      (declared vocabulary cs).withGlobal ⟨ident.name, mutability, data⟩ := by
  rw [declared_snoc fun _ => rfl]
  simp [declared, Declared.withGlobal, Clause.global?, Clause.mention?, Clause.local?,
    Clause.block?]

theorem declared_header (ident : Ident) (signature : Signature) :
    declared vocabulary (cs ++ [.header b ident signature]) =
      (declared vocabulary cs).withMention ident.name signature := by
  rw [declared_snoc fun _ => rfl]
  simp [declared, Declared.withMention, Clause.global?, Clause.mention?, Clause.local?,
    Clause.block?]

theorem declared_localName (ident : Ident) :
    declared vocabulary (cs ++ [.localName b ident]) =
      (declared vocabulary cs).withLocal b ident.name := by
  rw [declared_snoc fun _ => rfl]
  simp [declared, Declared.withLocal, Clause.global?, Clause.mention?, Clause.local?, Clause.block?]

theorem declared_block (ident : Ident) (signature : Signature) :
    declared vocabulary (cs ++ [.block b ident signature]) =
      (declared vocabulary cs).withBlock ⟨b, some ident.name⟩ (some signature) := by
  rw [declared_snoc fun _ => rfl]
  simp [declared, Declared.withBlock, Clause.global?, Clause.mention?, Clause.local?, Clause.block?]

theorem declared_entry : declared vocabulary (cs ++ [.entry b]) =
    (declared vocabulary cs).withBlock ⟨b, none⟩ none := by
  rw [declared_snoc fun _ => rfl]
  simp [declared, Declared.withBlock, Clause.global?, Clause.mention?, Clause.local?, Clause.block?]

/-- An instruction adds its mention, and to its block what it resolves to. -/
theorem declared_instruction (i : Tree.Instruction) :
    declared vocabulary (cs ++ [.instruction k i]) =
      { declared vocabulary cs with
        mentions := mentions (cs ++ [.instruction k i])
        code := fun key => if key = k then instructions vocabulary cs key ++
          (resolve vocabulary (cs ++ [.instruction k i]) k.body i).toList
          else instructions vocabulary cs key } := by
  have code : instructions vocabulary (cs ++ [.instruction k i]) = fun key =>
      if key = k then instructions vocabulary cs key ++
        (resolve vocabulary (cs ++ [.instruction k i]) k.body i).toList
      else instructions vocabulary cs key := by
    funext key
    rw [instructions_snoc]
    by_cases same : key = k
    · simp [emitted?, same]
    · simp [emitted?, same, Ne.symm same]
  rw [declared, code, globals_snoc, locals_snoc, blocks_snoc]
  simp [declared, Clause.global?, Clause.local?, Clause.block?]

/-- A call that states a signature counts as a mention before it is resolved. -/
theorem declared_call (target : Ident) (signature : Signature) :
    declared vocabulary (cs ++ [.instruction k (.call target (some signature))]) =
      ((declared vocabulary cs).withMention target.name signature).withInstruction k
        (.call (((declared vocabulary cs).withMention target.name signature).functionId
          target.name)) := by
  have mentioned : mentions (cs ++ [.instruction k (.call target (some signature))]) =
      mentions cs ++ [(target.name, signature)] := by
    simp [Clause.mention?]
  have known : target.name ∈ (mentions cs ++ [(target.name, signature)]).map Prod.fst := by
    simp
  rw [declared_instruction]
  simp only [resolve, mentioned, placeOf?_of_mem known]
  rfl

theorem resolveArgument_instruction (i : Tree.Instruction) (a : Argument) :
    resolveArgument vocabulary (cs ++ [.instruction k i]) b a =
      resolveArgument vocabulary cs b a := by
  rcases a with ⟨sigil, ident⟩ | value
  · cases sigil <;> simp [resolveArgument, Clause.global?, Clause.local?]
  · rfl

theorem resolveArguments_instruction (i : Tree.Instruction) (arguments : List Argument) :
    resolveArguments vocabulary (cs ++ [.instruction k i]) b arguments =
      resolveArguments vocabulary cs b arguments := by
  induction arguments with
  | nil => rfl
  | cons a rest ih => simp only [resolveArguments, resolveArgument_instruction, ih]

/-- An instruction that mentions no function is resolved by what came before it. -/
theorem resolve_instruction {i : Tree.Instruction} (h : (Clause.instruction k i).mention? = none) :
    resolve vocabulary (cs ++ [.instruction k i]) b i = resolve vocabulary cs b i := by
  cases i with
  | call target signature =>
    simp only [resolve, mentions_snoc, h, Option.toList_none, List.append_nil]
  | operation head arguments => simp only [resolve, resolveArguments_instruction]

theorem resolve_call_none (vocabulary : Vocabulary) (cs : List Clause) (b : BodyKey)
    (target : Ident) : resolve vocabulary cs b (.call target none) =
    ((declared vocabulary cs).mentioned? target.name).map fun entry => .call entry.id := by
  rw [resolve, Declared.mentioned?]
  change (placeOf? Prod.fst target.name (declared vocabulary cs).mentions).map _ = _
  by_cases known : target.name ∈ (declared vocabulary cs).mentions.map Prod.fst
  · rw [if_pos known, placeOf?_of_mem known]
    rfl
  · rw [if_neg known, placeOf?, if_neg known]
    rfl

theorem declared_of_resolve_eq_some {i : Tree.Instruction} {resolved : Instruction}
    (h : (Clause.instruction k i).mention? = none)
    (found : resolve vocabulary cs k.body i = some resolved) :
    declared vocabulary (cs ++ [.instruction k i]) =
      (declared vocabulary cs).withInstruction k resolved := by
  rw [declared_instruction, mentions_snoc, h, resolve_instruction h, found, Option.toList_none,
    List.append_nil]
  rfl

theorem declared_of_resolve_eq_none {i : Tree.Instruction}
    (h : (Clause.instruction k i).mention? = none)
    (unknown : resolve vocabulary cs k.body i = none) :
    declared vocabulary (cs ++ [.instruction k i]) = declared vocabulary cs := by
  rw [declared_instruction, mentions_snoc, h, resolve_instruction h, unknown, Option.toList_none,
    List.append_nil]
  simp only [Option.toList_none, List.append_nil, ite_self]
  rfl

end Clauses

/-! ## Whole modules -/

namespace Reaches

variable {vocabulary : Vocabulary} {cs : List Clause} {p : Place}

theorem instructions_eq_nil (h : Reaches cs p) {key : BlockKey}
    (absent : key ∉ (Clauses.blocks cs).map Prod.fst) :
    Clauses.instructions vocabulary cs key = [] := by
  have earlier {cs : List Clause} {c : Clause}
      (absent : key ∉ (Clauses.blocks (cs ++ [c])).map Prod.fst) :
      key ∉ (Clauses.blocks cs).map Prod.fst := by
    intro begun
    rw [Clauses.blocks_snoc, List.map_append] at absent
    exact absent (List.mem_append_left _ begun)
  induction h with
  | nil => rfl
  | @instruction cs n b l i before ih =>
    -- The block that the instruction stands in was begun, so it is not `key`.
    have other : (⟨b, l⟩ : BlockKey) ≠ key := by
      rintro rfl
      exact earlier absent (before.ordered.block_begun b l rfl rfl)
    rw [Clauses.instructions_snoc, ih (earlier absent), Clauses.emitted?, if_neg other]
    rfl
  | _ =>
    rename_i ih
    rw [Clauses.instructions_snoc, ih (earlier absent)]
    rfl

/-- A source that is not too long declares nothing that there is no handle for. -/
theorem valid (h : Reaches cs p) (room : cs.length ≤ 0xffffffff) :
    (Clauses.declared vocabulary cs).Valid where
  locals_mentioned x member := (h.ordered.locals x.1 x.2 member).mentioned
  blocks_mentioned b member := (h.ordered.blocks b.1 b.2 member).mentioned
  code_eq_nil _ absent := h.instructions_eq_nil absent
  globals_le := Nat.le_trans (List.length_filterMap_le _ _) room
  mentions_le := Nat.le_trans (List.length_filterMap_le _ _) room
  locals_le := Nat.le_trans (List.length_filterMap_le _ _) room
  blocks_le := Nat.le_trans (List.length_filterMap_le _ _) room

end Reaches

namespace Scope

variable {s : Scope Program} {vocabulary : Vocabulary} {name : String} {cs : List Clause}
  {n : Nat} {b : BodyKey} {l : Option String}

theorem Records.signedCall
    (h : s.Records vocabulary name (Clauses.declared vocabulary cs) (some b) (some l))
    (before : Reaches cs ⟨n, some b, some l⟩) (room : cs.length ≤ 0xffffffff) (target : Ident)
    (signature : Signature) :
    (s.step (.call target (some signature))).Records vocabulary name
      (Clauses.declared vocabulary (cs ++ [.instruction ⟨b, l⟩ (.call target (some signature))]))
      (some b) (some l) := by
  have mentioned : ∀ b', some b = some b' → b'.function ∈ (Clauses.mentions cs).map Prod.fst :=
    fun b' current => (before.ordered.body b' current).mentioned
  obtain ⟨entry, records⟩ := h.mentionFunction (before.valid room) mentioned target signature
  have id : (s.mentionFunction target signature).1.id =
      ((Clauses.declared vocabulary cs).withMention target.name signature).functionId
        target.name := by
    rw [Declared.mentioned?, if_pos (by simp [Declared.withMention])] at entry
    rw [← Option.some.inj entry]
  rw [Clauses.declared_call, ← id]
  exact records.emit _

theorem Records.unsignedCall
    (h : s.Records vocabulary name (Clauses.declared vocabulary cs) (some b) (some l))
    (target : Ident) :
    (s.step (.call target none)).Records vocabulary name
      (Clauses.declared vocabulary (cs ++ [.instruction ⟨b, l⟩ (.call target none)]))
      (some b) (some l) := by
  have found := h.functions target.name
  have resolved := Clauses.resolve_call_none vocabulary cs b target
  simp only [step, referenceFunction, resolve]
  cases entry : (Clauses.declared vocabulary cs).mentioned? target.name with
  | some entry' =>
    rw [entry] at found resolved
    rw [Clauses.declared_of_resolve_eq_some rfl resolved, found]
    exact h.emit _
  | none =>
    rw [entry] at found resolved
    rw [Clauses.declared_of_resolve_eq_none rfl resolved, found]
    exact (Reports.report s _).records h

/-- An operation is dropped if any of its names is unknown. -/
theorem Records.operation
    (h : s.Records vocabulary name (Clauses.declared vocabulary cs) (some b) (some l))
    (known : s.Knows vocabulary cs ⟨n, some b, some l⟩) (head : Ident) (arguments : List Argument) :
    (s.step (.operation head arguments true)).Records vocabulary name
      (Clauses.declared vocabulary (cs ++ [.instruction ⟨b, l⟩ (.operation head arguments)]))
      (some b) (some l) := by
  have operation : (s.resolveOperation head).1 = vocabulary.operations.lookup? head.name := by
    rw [resolveOperation, fst_resolve, h.vocabulary]
  have bound : s.vocabulary.operations.contains head.name = true ↔
      s.vocabulary.operations.contains head.name = true := Iff.rfl
  have first : s.Reports _ (s.resolveOperation head).2 := reports_resolve .operation cs s bound rfl
  have operands := (first.records h).fst_resolveArguments (first.knows known) rfl arguments
  have others := reports_resolveArguments (first.knows known) rfl arguments
  have records := (first.trans others).records h
  have resolved : Clauses.resolve vocabulary cs b (.operation head arguments) =
      (s.resolveOperation head).1.bind fun id =>
        ((s.resolveOperation head).2.resolveArguments arguments).1.map (.operation id) := by
    rw [operation, operands, Clauses.resolve]
  simp only [step]
  cases id : (s.resolveOperation head).1 with
  | none =>
    rw [id, Option.bind_none] at resolved
    rw [Clauses.declared_of_resolve_eq_none rfl resolved]
    exact records
  | some id =>
    rw [id, Option.bind_some] at resolved
    cases all : ((s.resolveOperation head).2.resolveArguments arguments).1 with
    | none =>
      rw [all, Option.map_none] at resolved
      rw [Clauses.declared_of_resolve_eq_none rfl resolved]
      exact records
    | some all =>
      rw [all, Option.map_some] at resolved
      rw [Clauses.declared_of_resolve_eq_some rfl resolved]
      exact records.emit _

/-- What was declared is what the program records, after each clause. -/
theorem records_run {p : Place} (h : Reaches cs p) (room : cs.length ≤ 0xffffffff)
    (lines : LineMap) (vocabulary : Vocabulary) (name : String) :
    ((start lines vocabulary Program.empty).run
      (.module name :: cs.map Clause.statement)).Records vocabulary name
      (Clauses.declared vocabulary cs) p.body p.block := by
  have earlier {cs : List Clause} {c : Clause} (room : (cs ++ [c]).length ≤ 0xffffffff) :
      cs.length ≤ 0xffffffff := by
    rw [List.length_append] at room
    omega
  induction h with
  | nil =>
    refine ⟨?_, rfl, fun _ => rfl, fun _ => rfl, nofun, nofun, nofun, nofun⟩
    rfl
  | global ident mutability data before ih =>
    rw [run_clauses_snoc, Clauses.declared_global]
    exact (ih (earlier room)).declareGlobal (before.valid (earlier room)) ident mutability data
  | @header _ p ident signature before ih =>
    have ordered := before.ordered
    rw [run_clauses_snoc, Clauses.declared_header]
    -- The body is of the next declaration, which no clause before it belongs to.
    refine (ih (earlier room)).declareFunction (before.valid (earlier room)) ?_ ident signature
      ?_ ?_
    · exact fun b current => (ordered.body b current).mentioned
    · intro x member
      exact absurd (ordered.locals _ x member).declaration_lt (Nat.lt_irrefl _)
    · intro l member
      obtain ⟨⟨_, s⟩, member, rfl⟩ := List.mem_map.mp member
      exact absurd (ordered.blocks _ s member).declaration_lt (Nat.lt_irrefl _)
  | localName ident before ih =>
    rw [run_clauses_snoc, Clauses.declared_localName]
    exact (ih (earlier room)).declareLocal (before.valid (earlier room)) ident
  | block label signature labelled before ih =>
    rw [run_clauses_snoc, Clauses.declared_block]
    exact (ih (earlier room)).declareBlock (before.valid (earlier room)) labelled label signature
  | @entry cs _ b before ih =>
    -- A body without labels begins its only block, so this registration is always a new one.
    have fresh : ⟨b, none⟩ ∉ (Clauses.blocks cs).map Prod.fst := by
      intro member
      obtain ⟨⟨_, s⟩, member, rfl⟩ := List.mem_map.mp member
      exact before.ordered.no_block _ rfl rfl _ s member
    rw [run_clauses_snoc, Clauses.declared_entry]
    exact (ih (earlier room)).enterEntryBlock (before.valid (earlier room)) fresh
  | instruction i before ih =>
    have known := (agrees_run before lines vocabulary Program.empty name).knows
    rw [run_clauses_snoc]
    cases i with
    | operation head arguments => exact (ih (earlier room)).operation known head arguments
    | call target signature =>
      cases signature with
      | none => exact (ih (earlier room)).unsignedCall target
      | some signature =>
        exact (ih (earlier room)).signedCall before (earlier room) target signature

end Scope

/-- An accepted text is recorded as what its tree means. -/
theorem elaborate_program (settings : Settings) (source : String)
    (accepted : (elaborate settings Program.empty source).1.isOk = true) :
    (∃ m : Tree.Module, m.IsTreeOf settings.maxDataBytes source) ∧
      ∀ m : Tree.Module, m.IsTreeOf settings.maxDataBytes source →
        (elaborate settings Program.empty source).2.target = m.program settings.vocabulary := by
  obtain ⟨stop, read⟩ := elaborate_isOk_iff.mp accepted
  obtain ⟨short, exists_tree⟩ := Statement.exists_isTreeOf_of_read read
  refine ⟨exists_tree, fun m tree => ?_⟩
  obtain ⟨stop, read⟩ := tree.read short
  obtain ⟨outline, event, elaborated⟩ := elaborate_of_read Program.empty read
  obtain ⟨p, reaches⟩ := m.exists_reaches
  have room : m.clauses.length ≤ 0xffffffff := by
    have items := Statement.length_items_read_le settings.maxDataBytes source
    rw [read, m.statements_eq, List.length_cons, List.length_map, maxSourceBytes] at items
    omega
  rw [elaborated, m.statements_eq]
  exact (Scope.records_run reaches room _ _ _).target

/-- A label comes twice, a function is called before its header, and an operation is unknown. -/
theorem elaborate_program_labels_and_calls :
    ∃ m : Tree.Module,
      m.IsTreeOf 16
        "module @m; function @f{block %a{call @h[1=>0]; $no;} block %a{call @h;}} function @h;" ∧
      m.program .empty = {
        name := some "m"
        functions := #[⟨"f", .none, #[], #[⟨0⟩]⟩, ⟨"h", ⟨1, 0⟩, #[], #[]⟩]
        globals := #[]
        locals := #[]
        blocks := #[⟨⟨0⟩, .none, #[.call ⟨1⟩, .call ⟨1⟩]⟩] } := by
  obtain ⟨⟨m, tree⟩, recorded⟩ := elaborate_program ⟨16, .empty⟩
    "module @m; function @f{block %a{call @h[1=>0]; $no;} block %a{call @h;}} function @h;"
    (by decide +kernel)
  refine ⟨m, tree, (recorded m tree).symm.trans ?_⟩
  decide +kernel

end SigilAsm
