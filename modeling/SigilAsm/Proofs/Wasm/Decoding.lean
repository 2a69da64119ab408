import SigilAsm.Proofs.Wasm.Decoder
import SigilAsm.Wasm.Lowering

/-! # Encoded modules decode

Whatever was encoded is decoded again, and what follows it is left alone.  There
is one lemma for each production of the format; they are put together in the way
in which the decoders are.
-/

namespace SigilAsm.Wasm.Core

open Decoder

variable {α β : Type} {d : Decoder α} {f : α → Decoder β} {bytes more : List UInt8} {a : α} {b : β}

/-- The decoder takes these bytes, whatever follows them, and makes the value of them. -/
def Decodes (d : Decoder α) (bytes : List UInt8) (a : α) : Prop :=
  ∀ rest, d.run (bytes ++ rest) = some (a, rest)

namespace Decodes

theorem pure (a : α) : Decodes (Pure.pure a) [] a := fun _ => rfl

theorem run_bind (h : Decodes d bytes a) (f : α → Decoder β) (rest : List UInt8) :
    (d >>= f).run (bytes ++ rest) = (f a).run rest := by
  rw [StateT.run_bind, h]
  rfl

theorem bind (h : Decodes d bytes a) (h' : Decodes (f a) more b) :
    Decodes (d >>= f) (bytes ++ more) b := by
  intro rest
  rw [List.append_assoc, h.run_bind]
  exact h' rest

/-- The last decoder of a sequence. -/
theorem map (h : Decodes d bytes a) (g : α → β) :
    Decodes (d >>= fun a => Pure.pure (g a)) bytes (g a) := by
  intro rest
  rw [h.run_bind]
  rfl

end Decodes

/-! ## Numbers -/

theorem decodes_byte (b : UInt8) : Decodes byte [b] b := fun _ => rfl

theorem decodes_symbol (b : UInt8) : Decodes (symbol b) [b] () := by
  intro rest
  change (if b = b then pure () else failure : Decoder Unit).run rest = _
  rw [if_pos rfl]
  rfl

theorem decodes_symbols (expected : List UInt8) : Decodes (symbols expected) expected () := by
  induction expected with
  | nil => exact .pure ()
  | cons b rest ih => exact (decodes_symbol b).bind ih

theorem toNat_toUInt8 {n : Nat} (h : n < 256) : n.toUInt8.toNat = n :=
  UInt8.toNat_ofNat_of_lt' h

/-- A number that goes on after its lowest seven bits has a width that leaves room for the rest. -/
theorem div_lt_shift {n width : Nat} (large : 128 ≤ n) (h : n < 1 <<< width) :
    7 < width ∧ n / 128 < 1 <<< (width - 7) := by
  rw [Nat.one_shiftLeft] at h ⊢
  have wide : 7 < width := (Nat.pow_lt_pow_iff_right (by decide)).mp (Nat.lt_of_le_of_lt large h)
  refine ⟨wide, Nat.div_lt_of_lt_mul ?_⟩
  rwa [← Nat.pow_add 2 7, Nat.add_sub_cancel' (Nat.le_of_lt wide)]

theorem decodes_unsigned {width n : Nat} (h : n < 1 <<< width) :
    Decodes (unsigned width) (Leb128.unsigned n) n := by
  fun_induction Leb128.unsigned n generalizing width with
  | case1 n small =>
    intro rest
    have value := toNat_toUInt8 (n := n) (by omega)
    change unsigned width (_ :: rest) = _
    rw [unsigned, value, if_pos small, if_pos h]
  | case2 n large ih =>
    intro rest
    obtain ⟨wide, high⟩ := div_lt_shift (by omega) h
    have value := toNat_toUInt8 (n := n % 128 + 128) (by omega)
    have others : unsigned (width - 7) (Leb128.unsigned (n / 128) ++ rest) =
        some (n / 128, rest) := ih high rest
    change unsigned width (_ :: (Leb128.unsigned (n / 128) ++ rest)) = _
    have whole : 0x80 * (n / 128) + (n % 128 + 128 - 0x80) = n := by omega
    rw [unsigned, value, if_neg (by omega), if_pos wide, others, Option.map_some]
    dsimp only
    rw [whole]

/-- The same for numbers in two's complement, whose last group has one bit less for the value. -/
theorem div_mem_shift {i : Int} {width : Nat} (large : ¬ (-64 ≤ i ∧ i < 64))
    (low : -(1 <<< (width - 1) : Nat) ≤ i) (high : i < (1 <<< (width - 1) : Nat)) :
    7 < width ∧ -(1 <<< (width - 7 - 1) : Nat) ≤ i / 128 ∧
      i / 128 < (1 <<< (width - 7 - 1) : Nat) := by
  rw [Nat.one_shiftLeft] at low high
  have room : 2 ^ 6 < 2 ^ (width - 1) := by omega
  have wide := (Nat.pow_lt_pow_iff_right (by decide)).mp room
  have split : 2 ^ (width - 1) = 128 * 2 ^ (width - 7 - 1) := by
    rw [← Nat.pow_add 2 7]
    congr 1
    omega
  rw [Nat.one_shiftLeft]
  rw [split] at low high
  omega

theorem decodes_signed {width : Nat} {i : Int} (low : -(1 <<< (width - 1) : Nat) ≤ i)
    (high : i < (1 <<< (width - 1) : Nat)) : Decodes (signed width) (Leb128.signed i) i := by
  fun_induction Leb128.signed i generalizing width with
  | case1 i small =>
    intro rest
    have value := toNat_toUInt8 (n := (i % 128).toNat) (by omega)
    change signed width (_ :: rest) = _
    rw [signed, value]
    rcases Int.lt_or_le i 0 with negative | positive
    · have whole : ((i % 128).toNat : Int) - 0x80 = i := by omega
      rw [if_neg (by omega), if_pos (by omega), if_pos (by omega), whole]
    · have whole : ((i % 128).toNat : Int) = i := by omega
      rw [if_pos (by omega), if_pos (by omega), whole]
  | case2 i large ih =>
    intro rest
    obtain ⟨wide, low, high⟩ := div_mem_shift large low high
    have value := toNat_toUInt8 (n := (i % 128).toNat + 128) (by omega)
    have others : signed (width - 7) (Leb128.signed (i / 128) ++ rest) = some (i / 128, rest) :=
      ih low high rest
    change signed width (_ :: (Leb128.signed (i / 128) ++ rest)) = _
    have whole : 0x80 * (i / 128) + ((((i % 128).toNat + 128 : Nat) : Int) - 0x80) = i := by omega
    rw [signed, value, if_neg (by omega), if_neg (by omega), if_pos wide, others, Option.map_some]
    dsimp only
    rw [whole]

theorem decodes_u32 {n : Nat} (small : n < 0x100000000) : Decodes u32 (Leb128.unsigned n) n :=
  decodes_unsigned small

theorem asSigned32_mem {n : Nat} (small : n < 0x100000000) :
    -0x80000000 ≤ asSigned32 n ∧ asSigned32 n < 0x80000000 := by
  unfold asSigned32
  split <;> omega

theorem ofInt_asSigned32 (n : Nat) : BitVec.ofInt 32 (asSigned32 n) = BitVec.ofNat 32 n := by
  apply BitVec.eq_of_toNat_eq
  rw [BitVec.toNat_ofInt, BitVec.toNat_ofNat]
  unfold asSigned32
  split <;> omega

/-! ## Sequences -/

theorem decodes_times {γ : Type} (items : List γ) {encode : γ → List UInt8} {value : γ → α}
    (h : ∀ x ∈ items, Decodes d (encode x) (value x)) :
    Decodes (times items.length d) (items.map encode).flatten (items.map value) := by
  induction items with
  | nil => exact .pure []
  | cons x rest ih =>
    have others := ih fun y member => h y (List.mem_cons_of_mem x member)
    exact (h x List.mem_cons_self).bind (others.map (value x :: ·))

theorem decodes_vec {γ : Type} (items : List γ) {encode : γ → List UInt8} {value : γ → α}
    (small : items.length < 0x100000000) (h : ∀ x ∈ items, Decodes d (encode x) (value x)) :
    Decodes (vec d) (vector (items.map encode)) (items.map value) := by
  have count : Decodes u32 (Leb128.unsigned (items.map encode).length) items.length := by
    rw [List.length_map]
    exact decodes_u32 small
  exact count.bind (decodes_times items h)

theorem byteVector_eq_vector (bytes : List UInt8) :
    byteVector bytes = vector (bytes.map fun b => [b]) := by
  simp [byteVector, vector, ← List.flatMap_def]

theorem decodes_bytes {bytes : List UInt8} (small : bytes.length < 0x100000000) :
    Decodes (vec byte) (byteVector bytes) bytes := by
  have all : Decodes (vec byte) (vector (bytes.map fun b => [b])) (bytes.map id) :=
    decodes_vec bytes small fun b _ => decodes_byte b
  rwa [List.map_id, ← byteVector_eq_vector] at all

theorem decodes_sized (h : Decodes d bytes a) (small : bytes.length < 0x100000000) :
    Decodes (sized d) (byteVector bytes) a := by
  refine (decodes_u32 small).bind fun rest => ?_
  have whole := h []
  rw [List.append_nil] at whole
  rw [StateT.run_bind]
  change (if bytes.length ≤ (bytes ++ rest).length then _ else _ : Decoder α).run _ = _
  rw [if_pos (by simp), List.take_left, List.drop_left, whole]
  rfl

theorem decodes_name (text : String)
    (small : (Utf8.encode text.toList).length < 0x100000000) :
    Decodes name (byteVector (Utf8.encode text.toList)) text := by
  intro rest
  rw [name, (decodes_bytes small).run_bind, Utf8.fromUTF8?_encode]
  rfl

/-! ## Types and instructions -/

theorem decodes_valueTypes {n : Nat} (small : n < 0x100000000) :
    Decodes (vec valueType) (byteVector (List.replicate n i32)) (List.replicate n .i32) := by
  have all : Decodes (vec valueType) (vector ((List.replicate n i32).map fun b => [b]))
      ((List.replicate n i32).map fun _ => .i32) := by
    refine decodes_vec _ (by simpa using small) fun b member rest => ?_
    rw [List.eq_of_mem_replicate member]
    rfl
  rwa [← byteVector_eq_vector, List.map_replicate] at all

theorem decodes_functionType {t : Wasm.FunctionType} (parameters : t.parameters < 0x100000000)
    (results : t.results < 0x100000000) :
    Decodes functionType t.encode
      ⟨List.replicate t.parameters .i32, List.replicate t.results .i32⟩ := by
  have all : Decodes functionType
      ([0x60] ++ (byteVector (List.replicate t.parameters i32) ++
        byteVector (List.replicate t.results i32)))
      ⟨List.replicate t.parameters .i32, List.replicate t.results .i32⟩ :=
    (decodes_symbol 0x60).bind ((decodes_valueTypes parameters).bind
      ((decodes_valueTypes results).map (FunctionType.mk _)))
  exact all

theorem decodes_limits {n : Nat} (small : n < 0x100000000) :
    Decodes limits (0x00 :: Leb128.unsigned n) ⟨n, none⟩ :=
  (decodes_byte 0x00).bind ((decodes_u32 small).map (Limits.mk · none))

variable {is : List Instruction} {n : Nat}

theorem decodes_end (n : Nat) : Decodes (instructions (n + 1)) [0x0b] [] := fun _ => rfl

theorem decodes_unreachable (h : Decodes (instructions n) bytes is) :
    Decodes (instructions (n + 1)) (0x00 :: bytes) (.unreachable :: is) :=
  (decodes_byte 0x00).bind (h.map (Instruction.unreachable :: ·))

theorem decodes_i32Const {value : Nat} (small : value < 0x100000000)
    (h : Decodes (instructions n) bytes is) :
    Decodes (instructions (n + 1)) (0x41 :: (Leb128.signed (asSigned32 value) ++ bytes))
      (.i32Const (.ofNat 32 value) :: is) := by
  obtain ⟨low, high⟩ := asSigned32_mem small
  have number : Decodes s32 (Leb128.signed (asSigned32 value)) (asSigned32 value) :=
    decodes_signed low high
  rw [← ofInt_asSigned32]
  exact (decodes_byte 0x41).bind
    (number.bind (h.map (.i32Const (.ofInt 32 (asSigned32 value)) :: ·)))

/-- There are bytes enough for the instructions, whatever follows. -/
theorem decodes_expression (h : ∀ n, bytes.length ≤ n → Decodes (instructions n) bytes is) :
    Decodes expression bytes is := by
  intro rest
  exact h (bytes ++ rest).length (by simp) rest

theorem decodes_constant {value : Nat} (small : value < 0x100000000) :
    Decodes expression (constant value) [.i32Const (.ofNat 32 value)] := by
  refine decodes_expression fun n enough => ?_
  have enough : 2 ≤ n := by
    simp only [constant, List.cons_append, List.length_cons, List.length_append] at enough
    omega
  obtain ⟨n, rfl⟩ := Nat.exists_eq_add_of_le' enough
  exact decodes_i32Const small (decodes_end n)

/-! ## Entries -/

theorem decodes_global {value : Nat} (small : value < 0x100000000) :
    Decodes global (encodeGlobal value) ⟨.i32, .immutable, [.i32Const (.ofNat 32 value)]⟩ := by
  have type : Decodes valueType [i32] .i32 := fun _ => rfl
  have constant : Decodes mutability [0x00] .immutable := fun _ => rfl
  exact type.bind (constant.bind
    ((decodes_constant small).map (Global.mk .i32 .immutable)))

/-- How the specification names what is exported. -/
def ofExportKind : ExportKind → ExternalKind
  | .function => .function
  | .memory => .memory
  | .global => .global

theorem decodes_export {e : Wasm.Export} (name : (Utf8.encode e.name.toList).length < 0x100000000)
    (index : e.index < 0x100000000) :
    Decodes exportEntry e.encode ⟨e.name, ofExportKind e.kind, e.index⟩ := by
  have kind : Decodes externalKind [e.kind.encode] (ofExportKind e.kind) := by
    cases e.kind <;> exact fun _ => rfl
  exact (decodes_name e.name name).bind (kind.bind
    ((decodes_u32 index).map (Export.mk e.name (ofExportKind e.kind))))

theorem decodes_body : Decodes code encodeBody ⟨[], [.unreachable]⟩ := by
  have noLocals : Decodes (vec localGroup) [0x00] [] := fun _ => rfl
  have body : Decodes expression [0x00, 0x0b] [.unreachable] := by
    refine decodes_expression fun n enough => ?_
    obtain ⟨n, rfl⟩ := Nat.exists_eq_add_of_le' enough
    exact decodes_unreachable (decodes_end n)
  exact decodes_sized (noLocals.bind (body.map (Code.mk []))) (by decide)

theorem decodes_segment {s : Wasm.Segment} (offset : s.offset < 0x100000000)
    (size : s.bytes.length < 0x100000000) :
    Decodes segment s.encode (.active 0 [.i32Const (.ofNat 32 s.offset)] s.bytes) := by
  have mode : Decodes u32 [0x00] 0 := fun _ => rfl
  exact mode.bind ((decodes_constant offset).bind
    ((decodes_bytes size).map (Segment.active 0 [.i32Const (.ofNat 32 s.offset)])))

/-! ## Sections -/

theorem unsigned_ne_nil (n : Nat) : Leb128.unsigned n ≠ [] := by
  rw [Leb128.unsigned]
  split <;> exact List.cons_ne_nil _ _

theorem byteVector_ne_nil (bytes : List UInt8) : byteVector bytes ≠ [] :=
  List.append_ne_nil_of_left_ne_nil (unsigned_ne_nil _) _

theorem length_le_length_flatten {items : List (List UInt8)} (h : ∀ i ∈ items, i ≠ []) :
    items.length ≤ items.flatten.length := by
  induction items with
  | nil => exact Nat.le_refl _
  | cons i rest ih =>
    have first := List.length_pos_iff.mpr (h i List.mem_cons_self)
    have others := ih fun j member => h j (List.mem_cons_of_mem i member)
    rw [List.flatten_cons, List.length_append, List.length_cons]
    omega

theorem length_le_length_byteVector (bytes : List UInt8) :
    bytes.length ≤ (byteVector bytes).length := by
  rw [byteVector, List.length_append]
  omega

theorem length_name_le_length_encode (e : Wasm.Export) :
    (Utf8.encode e.name.toList).length ≤ e.encode.length := by
  rw [Wasm.Export.encode, List.length_append]
  exact Nat.le_add_right_of_le (length_le_length_byteVector _)

theorem length_bytes_le_length_encode (s : Wasm.Segment) : s.bytes.length ≤ s.encode.length := by
  rw [Wasm.Segment.encode, List.length_append]
  exact Nat.le_add_left_of_le (length_le_length_byteVector _)

theorem length_le_length_vector {γ : Type} (items : List γ) {encode : γ → List UInt8}
    (nonempty : ∀ x ∈ items, encode x ≠ []) :
    items.length ≤ (vector (items.map encode)).length := by
  have count := length_le_length_flatten (List.forall_mem_map.mpr nonempty)
  rw [List.length_map] at count
  rw [vector, List.length_append]
  omega

/-- The size of a section bounds the number of its entries and the size of each. -/
theorem decodes_entries {γ : Type} (items : List γ) {encode : γ → List UInt8} {value : γ → α}
    (size : (vector (items.map encode)).length < 0x100000000)
    (nonempty : ∀ x ∈ items, encode x ≠ [])
    (h : ∀ x ∈ items, (encode x).length < 0x100000000 → Decodes d (encode x) (value x)) :
    Decodes (sized (vec d)) (byteVector (vector (items.map encode))) (items.map value) := by
  have count := Nat.lt_of_le_of_lt (length_le_length_vector items nonempty) size
  refine decodes_sized (decodes_vec items count fun x member => h x member ?_) size
  have entry : encode x ∈ items.map encode := List.mem_map_of_mem member
  have part := (List.sublist_flatten_of_mem entry).length_le
  rw [vector, List.length_append] at size
  omega

theorem run_sections_succ (n : Nat) (some : bytes.isEmpty = false) :
    (sections (n + 1)).run bytes =
      (do
        let first ← moduleSection
        let rest ← sections n
        return first :: rest : Decoder (List Section)).run bytes := by
  change (if bytes.isEmpty = true then _ else _ : Decoder (List Section)).run bytes = _
  rw [some]
  rfl

/-- Sections one after the other, up to the end. -/
theorem run_sections (parts : List (List UInt8 × Section))
    (h : ∀ p ∈ parts, Decodes moduleSection p.1 p.2) (nonempty : ∀ p ∈ parts, p.1 ≠ []) {n : Nat}
    (enough : parts.length ≤ n) :
    (sections n).run (parts.map Prod.fst).flatten = some (parts.map Prod.snd, []) := by
  induction parts generalizing n with
  | nil => cases n <;> rfl
  | cons part rest ih =>
    obtain ⟨n, rfl⟩ := Nat.exists_eq_add_of_le' (Nat.lt_of_lt_of_le (Nat.succ_pos _) enough)
    have here := h part List.mem_cons_self (rest.map Prod.fst).flatten
    have others := ih (fun p member => h p (List.mem_cons_of_mem part member))
      (fun p member => nonempty p (List.mem_cons_of_mem part member))
      (Nat.le_of_succ_le_succ enough)
    rw [List.map_cons, List.flatten_cons, run_sections_succ, StateT.run_bind, here]
    · change ((sections n).run _).bind _ = _
      rw [others]
      rfl
    · exact List.isEmpty_eq_false_iff.mpr
        (List.append_ne_nil_of_left_ne_nil (nonempty part List.mem_cons_self) _)

end SigilAsm.Wasm.Core

namespace SigilAsm.Wasm

/-- What the description of a module says, in the terms of the specification. -/
def Module.core (m : Module) : Core.Module where
  types := m.types.map fun t => ⟨List.replicate t.parameters .i32, List.replicate t.results .i32⟩
  functions := m.functions
  memories := [⟨m.memoryPages, none⟩]
  globals := m.globals.map fun n => ⟨.i32, .immutable, [.i32Const (.ofNat 32 n)]⟩
  exports := m.exports.map fun e => ⟨e.name, Core.ofExportKind e.kind, e.index⟩
  codes := m.functions.map fun _ => ⟨[], [.unreachable]⟩
  segments := m.segments.map fun s => .active 0 [.i32Const (.ofNat 32 s.offset)] s.bytes

/-- All numbers of the description have 32 bits. -/
structure Module.Narrow (m : Module) : Prop where
  types : ∀ t ∈ m.types, t.parameters < 0x100000000 ∧ t.results < 0x100000000
  functions : ∀ t ∈ m.functions, t < 0x100000000
  pages : m.memoryPages < 0x100000000
  globals : ∀ n ∈ m.globals, n < 0x100000000
  exports : ∀ e ∈ m.exports, e.index < 0x100000000
  segments : ∀ s ∈ m.segments, s.offset < 0x100000000

/-- The sections of a module with the bytes of each. -/
def Module.parts (m : Module) : List (List UInt8 × Core.Section) :=
  (m.sections.map fun (id, contents) => sectionBytes id contents).zip m.core.sections

open Wasm.Core Wasm.Core.Decoder in
theorem Module.decodes_parts (m : Module) (narrow : m.Narrow)
    (sizes : ∀ part ∈ m.sections, part.2.length < 0x100000000) :
    ∀ part ∈ m.parts, Decodes moduleSection part.1 part.2 := by
  simp only [Module.sections, List.forall_mem_cons] at sizes
  obtain ⟨types, functions, memories, globals, exports, codes, segments, -⟩ := sizes
  have types := decodes_entries m.types types (fun _ _ => List.cons_ne_nil _ _)
    fun t member _ => decodes_functionType (narrow.types t member).1 (narrow.types t member).2
  have functions := decodes_entries m.functions functions (fun _ _ => unsigned_ne_nil _)
    fun t member _ => decodes_u32 (narrow.functions t member)
  have memories : (vector ([m.memoryPages].map (0x00 :: Leb128.unsigned ·))).length <
      0x100000000 := memories
  have memories := decodes_entries [m.memoryPages] memories (fun _ _ => List.cons_ne_nil _ _)
    fun n member _ => decodes_limits (List.mem_singleton.mp member ▸ narrow.pages)
  rw [List.map_id'] at functions
  have globals := decodes_entries m.globals globals (fun _ _ => List.cons_ne_nil _ _)
    fun n member _ => decodes_global (narrow.globals n member)
  have exports := decodes_entries m.exports exports
    (fun _ _ => List.append_ne_nil_of_left_ne_nil (byteVector_ne_nil _) _)
    fun e member size => decodes_export
      (Nat.lt_of_le_of_lt (length_name_le_length_encode e) size) (narrow.exports e member)
  have codes := decodes_entries m.functions codes (fun _ _ => byteVector_ne_nil _)
    fun _ _ _ => decodes_body
  have segments := decodes_entries m.segments segments (fun _ _ => List.cons_ne_nil _ _)
    fun s member size => decodes_segment (narrow.segments s member)
      (Nat.lt_of_le_of_lt (length_bytes_le_length_encode s) size)
  refine List.forall_mem_cons.mpr ⟨(decodes_byte 1).bind (types.map Section.types), ?_⟩
  refine List.forall_mem_cons.mpr ⟨(decodes_byte 3).bind (functions.map Section.functions), ?_⟩
  refine List.forall_mem_cons.mpr ⟨(decodes_byte 5).bind (memories.map Section.memories), ?_⟩
  refine List.forall_mem_cons.mpr ⟨(decodes_byte 6).bind (globals.map Section.globals), ?_⟩
  refine List.forall_mem_cons.mpr ⟨(decodes_byte 7).bind (exports.map Section.exports), ?_⟩
  refine List.forall_mem_cons.mpr ⟨(decodes_byte 10).bind (codes.map Section.codes), ?_⟩
  exact List.forall_mem_singleton.mpr ((decodes_byte 11).bind (segments.map Section.segments))

/-- A module that is described by narrow numbers and has sections of fewer than 2^32 bytes decodes
into what its description says. -/
theorem Module.decode_encode (m : Module) (narrow : m.Narrow)
    (sizes : ∀ part ∈ m.sections, part.2.length < 0x100000000) :
    Core.decode m.encode = some m.core.sections := by
  have encoded : m.encode = [0x00, 0x61, 0x73, 0x6d] ++ ([0x01, 0x00, 0x00, 0x00] ++
      (m.parts.map Prod.fst).flatten) := rfl
  have nonempty : ∀ part ∈ m.parts, part.1 ≠ [] := by
    simp [parts, sections, Core.Module.sections, sectionBytes]
  -- Every section has bytes, so counting bytes counts enough sections.
  have read := Core.run_sections m.parts (m.decodes_parts narrow sizes) nonempty
    (Core.length_le_length_flatten (List.forall_mem_map.mpr nonempty))
  have whole : Core.Decoder.wholeModule.run m.encode = some (m.core.sections, []) := by
    rw [encoded, Core.Decoder.wholeModule, (Core.decodes_symbols _).run_bind,
      (Core.decodes_symbols _).run_bind]
    exact read
  rw [Core.decode, whole]

end SigilAsm.Wasm
