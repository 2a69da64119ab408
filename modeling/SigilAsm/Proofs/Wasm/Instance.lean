import Mathlib.Data.List.Nodup
import SigilAsm.Proofs.Wasm.Lowered
import SigilAsm.Proofs.Wasm.Semantics

/-! # Instances of lowered programs

A module that represents a program is valid, if no two globals and no two
functions have the same name.  Instantiating it puts the data of every global
where the exported global says, and leaves the rest of the memory zero.
-/

namespace SigilAsm.Wasm.Core

/-! ## Writing to memory -/

theorem write?_of_le {memory bytes : List UInt8} {start : Nat}
    (inside : start + bytes.length ≤ memory.length) :
    ∃ after, write? memory start bytes = some after ∧ after.length = memory.length ∧
      ∀ a, after[a]? =
        if start ≤ a ∧ a < start + bytes.length then bytes[a - start]? else memory[a]? := by
  refine ⟨_, if_pos inside, by simp; omega, fun a => ?_⟩
  rcases Nat.lt_or_ge a start with before | behind
  · rw [if_neg (by omega), List.append_assoc, List.getElem?_append_left (by simp; omega),
      List.getElem?_take_of_lt before]
  · rcases Nat.lt_or_ge a (start + bytes.length) with within | beyond
    · rw [if_pos ⟨behind, within⟩, List.getElem?_append_left (by simp; omega),
        List.getElem?_append_right (by simp; omega), List.length_take_of_le (by omega)]
    · rw [if_neg (by omega), List.getElem?_append_right (by simp; omega), List.getElem?_drop]
      congr 1
      simp
      omega

/-- A segment of memory 0 that starts at a constant. -/
def Segment.at (p : BitVec 32 × List UInt8) : Segment := .active 0 [.i32Const p.1] p.2

theorem run_at (memory : List UInt8) (p : BitVec 32 × List UInt8) :
    (Segment.at p).run [memory] = (write? memory p.1.toNat p.2).map fun after => [after] := by
  change ((write? memory p.1.toNat p.2).bind fun after => some [after]) = _
  cases write? memory p.1.toNat p.2 <;> rfl

/-- Segments that lie apart from each other and inside the memory are all written, and nothing else
changes. -/
theorem run_segments (segments : List (BitVec 32 × List UInt8)) (memory : List UInt8)
    (inside : ∀ p ∈ segments, p.1.toNat + p.2.length ≤ memory.length)
    (apart : segments.Pairwise fun a b => a.1.toNat + a.2.length ≤ b.1.toNat) :
    ∃ after, (segments.map Segment.at).foldlM Segment.run [memory] = some [after] ∧
      after.length = memory.length ∧
      (∀ p ∈ segments, ∀ k < p.2.length, after[p.1.toNat + k]? = p.2[k]?) ∧
      ∀ a, (∀ p ∈ segments, ¬ (p.1.toNat ≤ a ∧ a < p.1.toNat + p.2.length)) →
        after[a]? = memory[a]? := by
  induction segments generalizing memory with
  | nil => exact ⟨memory, rfl, rfl, nofun, fun _ _ => rfl⟩
  | cons p rest ih =>
    obtain ⟨later, apart⟩ := List.pairwise_cons.mp apart
    obtain ⟨middle, wrote, length, bytes⟩ := write?_of_le (inside p List.mem_cons_self)
    obtain ⟨after, ran, same, written, kept⟩ := ih middle
      (fun q member => length ▸ inside q (List.mem_cons_of_mem p member)) apart
    refine ⟨after, ?_, same.trans length, fun q member k lt => ?_, fun a free => ?_⟩
    · rw [List.map_cons, List.foldlM_cons, run_at, wrote]
      exact ran
    · rcases List.mem_cons.mp member with rfl | member
      · -- The segments that are written later lie behind this one.
        rw [kept _ fun r other => ?_, bytes, if_pos (by omega), Nat.add_sub_cancel_left]
        have behind := later r other
        omega
      · exact written q member k lt
    · rw [kept a fun r other => free r (List.mem_cons_of_mem p other), bytes,
        if_neg (free p List.mem_cons_self)]

/-! ## Exports -/

theorem find?_of_nodup {α κ : Type} [BEq κ] [LawfulBEq κ] {key : α → κ} {l : List α} {x : α}
    (nodup : (l.map key).Nodup) (member : x ∈ l) : l.find? (key · == key x) = some x := by
  induction l with
  | nil => cases member
  | cons y rest ih =>
    obtain ⟨fresh, nodup⟩ := List.nodup_cons.mp nodup
    rcases List.mem_cons.mp member with rfl | member
    · simp
    · have other : (key y == key x) = false :=
        beq_false_of_ne fun same => fresh (same ▸ List.mem_map_of_mem member)
      rw [List.find?_cons_of_neg (by simp [other]), ih nodup member]

theorem Instance.exported?_of_mem {α : Type} (i : Instance) {kind : ExternalKind} {parts : List α}
    {name : String} {index : Nat} (names : (i.exports.map (·.name)).Nodup)
    (exported : ⟨name, kind, index⟩ ∈ i.exports) : i.exported? kind parts name = parts[index]? := by
  have found := find?_of_nodup names exported
  rw [exported?, found]
  exact if_pos rfl

/-! ## Lowered programs -/

/-- The memory that an instance exports holds the data of each global where the exported value of
the global says, and zeros elsewhere. -/
structure Instance.Holds (i : Instance) (memory : List UInt8) (globals : List Program.Global) :
    Prop where
  exported : i.memory? "memory" = some memory
  data : ∀ g ∈ globals, ∃ start, i.global? ("global:" ++ g.name) = some start ∧
    ∀ k < g.data.length, memory[start.toNat + k]? = g.data[k]?
  zero : ∀ a < memory.length,
    (∀ g ∈ globals, ∀ start, i.global? ("global:" ++ g.name) = some start →
      ¬ (start.toNat ≤ a ∧ a < start.toNat + g.data.length)) → memory[a]? = some 0

theorem typed_constant (value : BitVec 32) : Constant .i32 [.i32Const value] where
  typed := .cons (.i32Const value []) (.nil _)
  constant := by simp [Instruction.isConstant]

namespace Module.Represents

variable {m : Module} {p : Program}

theorem length_globals (h : m.Represents p) : m.globals.length = p.globals.size := by
  obtain ⟨values, offsets, globals, -⟩ := h.data
  have counts := congrArg List.length offsets
  rw [List.length_map, p.length_offsets] at counts
  rw [globals, List.length_map, counts]

theorem length_functions (h : m.Represents p) : m.functions.length = p.functions.size := by
  simpa using congrArg List.length h.functions

/-- Exports that are named after what they export. -/
theorem map_name_mapIdx {α : Type} (l : List α) (name : α → String) (kind : ExternalKind) :
    (l.mapIdx fun i a => (⟨name a, kind, i⟩ : Export)).map (·.name) = l.map name := by
  refine List.ext_getElem? fun i => ?_
  cases found : l[i]? <;> simp [found]

/-- Names are unique in each sort, and the prefixes keep the sorts apart. -/
theorem nodup_names (h : m.Represents p) (globals : (p.globals.toList.map (·.name)).Nodup)
    (functions : (p.functions.toList.map (·.name)).Nodup) :
    (m.exports.map (·.name)).Nodup := by
  have listed : m.exports.map (·.name) = "memory" ::
      (p.globals.toList.map (·.name)).map ("global:" ++ ·) ++
      (p.functions.toList.map (·.name)).map ("function:" ++ ·) := by
    simp only [h.exports, List.map_append, List.map_cons, map_name_mapIdx, List.map_map]
    rfl
  rw [listed]
  refine List.nodup_append.mpr ⟨List.nodup_cons.mpr ⟨fun member => ?_, ?_⟩, ?_,
    fun x first y second same => ?_⟩
  · obtain ⟨name, -, same⟩ := List.mem_map.mp member
    have letters := congrArg String.toList same
    simp at letters
  · exact globals.map fun a b same => (String.append_right_inj _).mp same
  · exact functions.map fun a b same => (String.append_right_inj _).mp same
  · obtain ⟨function, -, rfl⟩ := List.mem_map.mp second
    subst same
    rcases List.mem_cons.mp first with memory | global
    · have letters := congrArg String.toList memory
      simp at letters
    · obtain ⟨name, -, same⟩ := List.mem_map.mp global
      have letters := congrArg String.toList same
      simp at letters

theorem valid (h : m.Represents p) (globals : (p.globals.toList.map (·.name)).Nodup)
    (functions : (p.functions.toList.map (·.name)).Nodup) : m.Valid := by
  obtain ⟨pages, memories, fewPages, -⟩ := h.memory
  obtain ⟨values, -, constants, segments⟩ := h.data
  exact {
    types := fun t member => by
      have known : m.types[t]? ∈ m.functions.map (m.types[·]?) := List.mem_map_of_mem member
      rw [h.functions] at known
      obtain ⟨f, -, found⟩ := List.mem_map.mp known
      exact (List.getElem?_eq_some_iff.mp found.symm).1
    codes := by rw [h.codes, List.length_map, h.length_functions, Array.length_toList]
    bodies := fun i code t type here _ _ => by
      rw [h.codes] at here
      have member := List.mem_of_getElem? here
      obtain ⟨f, -, rfl⟩ := List.mem_map.mp member
      exact .cons (.unreachable [] type.results) (.nil _)
    memories := by simp [memories]
    limits := fun l member => by
      rw [memories] at member
      cases List.mem_singleton.mp member
      exact ⟨fewPages, nofun⟩
    globals := fun g member => by
      rw [constants] at member
      obtain ⟨v, -, rfl⟩ := List.mem_map.mp member
      exact typed_constant v
    exports := fun e member => by
      rw [h.exports] at member
      rcases List.mem_append.mp member with first | function
      · rcases List.mem_cons.mp first with rfl | global
        · simp [count, memories]
        · obtain ⟨i, lt, rfl⟩ := List.mem_mapIdx.mp global
          rw [count, h.length_globals]
          exact lt
      · obtain ⟨i, lt, rfl⟩ := List.mem_mapIdx.mp function
        rw [count, h.length_functions]
        exact lt
    names := h.nodup_names globals functions
    segments := fun memory offset bytes member => by
      rw [segments] at member
      obtain ⟨⟨g, v⟩, -, same⟩ := List.mem_map.mp member
      cases same
      exact ⟨by simp [memories], typed_constant v⟩ }

section

variable {values : List (BitVec 32)} (offsets : values.map (·.toNat) = p.dataLayout.offsets)

include offsets

theorem map_zip_values :
    (p.globals.toList.zip values).map (Prod.map id (·.toNat)) = p.placed := by
  rw [← List.zip_map_right, offsets]
  rfl

theorem map_fst_zip_values : (p.globals.toList.zip values).map Prod.fst = p.globals.toList := by
  have firsts := p.map_fst_placed
  rw [← map_zip_values offsets, List.map_map] at firsts
  exact firsts

/-- Memory that is written by the segments of a program holds the data of each global where its
value says, and zeros elsewhere. -/
theorem run_data {size : Nat} (room : p.dataLayout.total ≤ size) :
    ∃ memory, (((p.globals.toList.zip values).filter fun (g, _) => !g.data.isEmpty).map
        fun (g, v) => Segment.active 0 [.i32Const v] g.data).foldlM Segment.run
          [List.replicate size 0] = some [memory] ∧
      memory.length = size ∧
      (∀ g v, (g, v) ∈ p.globals.toList.zip values →
        ∀ k < g.data.length, memory[v.toNat + k]? = g.data[k]?) ∧
      ∀ a < size, (∀ g v, (g, v) ∈ p.globals.toList.zip values →
        ¬ (v.toNat ≤ a ∧ a < v.toNat + g.data.length)) → memory[a]? = some 0 := by
  have placed := map_zip_values offsets
  have inside : ∀ q ∈ p.globals.toList.zip values,
      q.2.toNat + q.1.data.length ≤ p.dataLayout.total := fun q member =>
    Program.add_length_le_total (g := q.1) (placed ▸ List.mem_map_of_mem member)
  have apart : (p.globals.toList.zip values).Pairwise fun a b =>
      a.2.toNat + a.1.data.length ≤ b.2.toNat := List.pairwise_map.mp (placed ▸ p.pairwise_placed)
  obtain ⟨memory, ran, length, written, kept⟩ := run_segments
    (((p.globals.toList.zip values).filter fun (g, _) => !g.data.isEmpty).map
      fun (g, v) => (v, g.data))
    (List.replicate size 0)
    (fun q piece => by
      obtain ⟨⟨g, v⟩, there, rfl⟩ := List.mem_map.mp piece
      rw [List.length_replicate]
      exact Nat.le_trans (inside _ (List.mem_filter.mp there).1) room)
    (List.pairwise_map.mpr (apart.filter _))
  rw [List.map_map] at ran
  rw [List.length_replicate] at length
  refine ⟨memory, ran, length, fun g v there k lt => ?_, fun a lt free => ?_⟩
  · -- A global with a byte is not empty, so its segment is there.
    have full : (!g.data.isEmpty) = true := by
      cases data : g.data with
      | nil => simp [data] at lt
      | cons => rfl
    exact written (v, g.data) (List.mem_map.mpr ⟨(g, v), List.mem_filter.mpr ⟨there, full⟩, rfl⟩)
      k lt
  · rw [kept a fun q piece => ?_]
    · exact List.getElem?_replicate_of_lt lt
    · obtain ⟨⟨g, v⟩, there, rfl⟩ := List.mem_map.mp piece
      exact free g v (List.mem_filter.mp there).1

end

theorem mapM_evaluate (values : List (BitVec 32)) :
    (values.map fun v => (⟨.i32, .immutable, [.i32Const v]⟩ : Global)).mapM
      (fun g => evaluate g.initial) = some values := by
  induction values with
  | nil => rfl
  | cons v values ih =>
    rw [List.map_cons, List.mapM_cons, ih]
    rfl

/-- Instantiation does not trap, and leaves the data of the program in the memory. -/
theorem instantiate (h : m.Represents p) (globals : (p.globals.toList.map (·.name)).Nodup)
    (functions : (p.functions.toList.map (·.name)).Nodup) :
    ∃ i memory, m.instantiate = some i ∧ i.Holds memory p.globals.toList := by
  obtain ⟨pages, memories, -, room⟩ := h.memory
  obtain ⟨values, offsets, constants, segments⟩ := h.data
  have names := h.nodup_names globals functions
  obtain ⟨memory, ran, length, written, zero⟩ := run_data offsets room
  let i : Instance := ⟨values, [memory], m.exports⟩
  have instantiated : m.instantiate = some i := by
    rw [Module.instantiate, constants, mapM_evaluate, memories, segments]
    exact congrArg (Option.bind · fun after => some (Instance.mk values after m.exports)) ran
  have shown : i.memory? "memory" = some memory := by
    have exported : ⟨"memory", .memory, 0⟩ ∈ m.exports := by
      rw [h.exports]
      exact List.mem_append_left _ List.mem_cons_self
    exact i.exported?_of_mem names exported
  -- Each global is exported with the value it is zipped with.
  have value : ∀ g v, (g, v) ∈ p.globals.toList.zip values →
      i.global? ("global:" ++ g.name) = some v := by
    intro g v member
    obtain ⟨j, here⟩ := List.getElem?_of_mem member
    obtain ⟨global, value⟩ := List.getElem?_zip_eq_some.mp here
    obtain ⟨lt, rfl⟩ := List.getElem?_eq_some_iff.mp global
    have exported : ⟨"global:" ++ p.globals.toList[j].name, .global, j⟩ ∈ m.exports := by
      rw [h.exports]
      exact List.mem_append_left _ (List.mem_cons_of_mem _ (List.mem_mapIdx.mpr ⟨j, lt, rfl⟩))
    exact (i.exported?_of_mem names exported).trans value
  refine ⟨i, memory, instantiated, shown, fun g member => ?_, fun a lt free => ?_⟩
  · rw [← map_fst_zip_values offsets] at member
    obtain ⟨⟨g, v⟩, there, rfl⟩ := List.mem_map.mp member
    exact ⟨v, value g v there, written g v there⟩
  · exact zero a (length ▸ lt) fun g v there =>
      free g (List.of_mem_zip there).1 v (value g v there)

end Module.Represents

end SigilAsm.Wasm.Core
