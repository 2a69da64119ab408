import SigilAsm.Proofs.Program.Layout
import SigilAsm.Proofs.Wasm.Decoding

/-! # What programs are lowered to

A module represents a program if it shows the program's outside: a function for
each function, a global for each global, which holds the offset of its data, and
the data in memory.  The bytes that a program is lowered to decode into a module
that represents it.
-/

namespace SigilAsm

open Wasm

/-- The module shows the outside of the program. -/
structure Wasm.Core.Module.Represents (m : Core.Module) (p : Program) : Prop where
  -- Each function has the type of its counts, all of whose values are `i32`.
  functions : m.functions.map (m.types[·]?) = p.functions.toList.map fun f =>
    some ⟨List.replicate f.signature.input.toNat .i32,
      List.replicate f.signature.output.toNat .i32⟩
  codes : m.codes = p.functions.toList.map fun _ => ⟨[], [.unreachable]⟩
  -- There is one memory, and it has room for the data.
  memory : ∃ pages, m.memories = [⟨pages, none⟩] ∧ pages ≤ 65536 ∧
    p.dataLayout.total ≤ pages * 65536
  -- Each global holds the offset of its data, read as an unsigned number, and a segment puts the
  -- data there, unless it is empty.
  data : ∃ values : List (BitVec 32), values.map (·.toNat) = p.dataLayout.offsets ∧
    m.globals = values.map (fun v => ⟨.i32, .immutable, [.i32Const v]⟩) ∧
    m.segments = ((p.globals.toList.zip values).filter fun (g, _) => !g.data.isEmpty).map
      fun (g, v) => .active 0 [.i32Const v] g.data
  exports : m.exports = ⟨"memory", .memory, 0⟩ ::
    p.globals.toList.mapIdx (fun i g => ⟨"global:" ++ g.name, .global, i⟩) ++
    p.functions.toList.mapIdx fun i f => ⟨"function:" ++ f.name, .function, i⟩

namespace Program

variable {p : Program} {m : Wasm.Module}

theorem exists_lower (room : p.dataLayout.total ≤ maxLayoutBytes) : ∃ m, p.lower = .ok m := by
  rw [lower, refusal?_eq_none_iff.mpr room]
  exact ⟨_, rfl⟩

theorem eq_of_lower (lowered : p.lower = .ok m) :
    p.dataLayout.total ≤ maxLayoutBytes ∧
      m = ⟨p.distinctSignatures.map wasmType,
        p.functions.toList.map fun f => p.distinctSignatures.idxOf f.signature,
        pagesFor p.dataLayout.total, p.dataLayout.offsets, p.wasmExports, p.wasmSegments⟩ := by
  cases refused : refusal? p.dataLayout with
  | some failure => simp [lower, refused] at lowered
  | none =>
    rw [lower, refused] at lowered
    cases lowered
    exact ⟨refusal?_eq_none_iff.mp refused, rfl⟩

theorem pagesFor_le {bytes : Nat} (room : bytes ≤ maxLayoutBytes) : pagesFor bytes ≤ 65536 := by
  unfold pagesFor pageBytes
  unfold maxLayoutBytes at room
  omega

theorem le_pagesFor (bytes : Nat) : bytes ≤ pagesFor bytes * 65536 := by
  unfold pagesFor pageBytes
  omega

theorem offset_lt (room : p.dataLayout.total ≤ maxLayoutBytes) {offset : Nat}
    (member : offset ∈ p.dataLayout.offsets) : offset < 0x100000000 := by
  have within := le_total_of_mem_offsets member
  unfold maxLayoutBytes at room
  omega

theorem type_of_function {f : Function} (member : f ∈ p.functions.toList) :
    p.distinctSignatures[p.distinctSignatures.idxOf f.signature]? = some f.signature := by
  have known : f.signature ∈ p.distinctSignatures :=
    List.mem_eraseDups.mpr (List.mem_map_of_mem member)
  rw [List.getElem?_eq_getElem (List.idxOf_lt_length_of_mem known), List.getElem_idxOf]

theorem map_mapIdx {α β γ : Type} (l : List α) (f : Nat → α → β) (g : β → γ) :
    (l.mapIdx f).map g = l.mapIdx fun i a => g (f i a) := by
  simp [List.mapIdx_eq_zipIdx_map]

theorem lower_represents (lowered : p.lower = .ok m) : m.core.Represents p := by
  obtain ⟨room, rfl⟩ := eq_of_lower lowered
  exact {
    functions := by
      simp only [Module.core, List.map_map]
      refine List.map_congr_left fun f member => ?_
      simp [type_of_function member, wasmType]
    codes := by
      simp only [Module.core, List.map_map]
      rfl
    memory := ⟨_, rfl, pagesFor_le room, le_pagesFor _⟩
    data := by
      refine ⟨p.dataLayout.offsets.map (.ofNat 32 ·), ?_, ?_, ?_⟩
      · -- The offsets have 32 bits, so nothing of them is lost.
        rw [List.map_map]
        refine (List.map_congr_left fun offset member => ?_).trans (List.map_id' _)
        exact (BitVec.toNat_ofNat offset 32).trans (Nat.mod_eq_of_lt (offset_lt room member))
      · simp [Module.core]
      · rw [List.zip_map_right, List.filter_map, List.map_map]
        simp only [Module.core, wasmSegments, List.map_map]
        rfl
    exports := by
      simp [Module.core, wasmExports, map_mapIdx, Core.ofExportKind] }

/-- The sections of a lowered program bound the numbers of its parts, and so its indices. -/
theorem narrow_of_lower (lowered : p.lower = .ok m)
    (sizes : ∀ part ∈ m.sections, part.2.length < 0x100000000) : m.Narrow := by
  obtain ⟨room, rfl⟩ := eq_of_lower lowered
  simp only [Module.sections, List.forall_mem_cons] at sizes
  obtain ⟨types, functions, -, globals, -, -, -, -⟩ := sizes
  have types := Nat.lt_of_le_of_lt
    (Core.length_le_length_vector _ fun _ _ => List.cons_ne_nil _ _) types
  have functions := Nat.lt_of_le_of_lt
    (Core.length_le_length_vector _ fun _ _ => Core.unsigned_ne_nil _) functions
  have globals := Nat.lt_of_le_of_lt
    (Core.length_le_length_vector _ fun _ _ => List.cons_ne_nil _ _) globals
  rw [List.length_map] at types functions
  rw [length_offsets] at globals
  exact {
    types := fun t member => by
      obtain ⟨s, -, rfl⟩ := List.mem_map.mp member
      have input := s.input.toNat_lt
      have output := s.output.toNat_lt
      exact ⟨by change s.input.toNat < _; omega, by change s.output.toNat < _; omega⟩
    functions := fun t member => by
      obtain ⟨f, known, rfl⟩ := List.mem_map.mp member
      have index := (List.getElem?_eq_some_iff.mp (type_of_function known)).1
      exact Nat.lt_trans index types
    pages := Nat.lt_of_le_of_lt (pagesFor_le room) (by decide)
    globals := fun offset member => offset_lt room member
    exports := fun e member => by
      rcases List.mem_append.mp member with first | function
      · rcases List.mem_cons.mp first with rfl | global
        · exact Nat.zero_lt_succ _
        · obtain ⟨i, lt, rfl⟩ := List.mem_mapIdx.mp global
          exact Nat.lt_trans lt globals
      · obtain ⟨i, lt, rfl⟩ := List.mem_mapIdx.mp function
        exact Nat.lt_trans lt functions
    segments := fun s member => by
      obtain ⟨⟨g, offset⟩, placed, rfl⟩ := List.mem_map.mp member
      exact offset_lt room (List.of_mem_zip (List.mem_filter.mp placed).1).2 }

/-- A program whose data fits in a 32-bit memory is lowered, and its binary form decodes into a
module that represents it, if no section has 2^32 bytes or more. -/
theorem decode_lower (p : Program) (room : p.dataLayout.total ≤ maxLayoutBytes) :
    ∃ m : Wasm.Module, p.lower = .ok m ∧
      ((∀ part ∈ m.sections, part.2.length < 0x100000000) →
        ∃ c : Core.Module, Core.decode m.encode = some c.sections ∧ c.Represents p) := by
  obtain ⟨m, lowered⟩ := exists_lower room
  refine ⟨m, lowered, fun sizes => ⟨m.core, ?_, lower_represents lowered⟩⟩
  exact m.decode_encode (narrow_of_lower lowered sizes) sizes

/-- An empty global between two others, and two functions of one type. -/
theorem decode_lower_of_two_segments :
    let p : Program := { Program.empty with
      functions := #[⟨"f", ⟨2, 1⟩, #[], #[]⟩, ⟨"g", ⟨2, 1⟩, #[], #[]⟩]
      globals := #[⟨"a", .immutable, [1, 2, 3]⟩, ⟨"b", .mutable, []⟩, ⟨"c", .immutable, [4]⟩] }
    ∃ m : Wasm.Module, p.lower = .ok m ∧
      ∃ c : Core.Module, Core.decode m.encode = some c.sections ∧ c.Represents p := by
  intro p
  obtain ⟨m, lowered, decoded⟩ := decode_lower p (by decide)
  refine ⟨m, lowered, decoded ?_⟩
  cases lowered
  decide +kernel

end Program

end SigilAsm
