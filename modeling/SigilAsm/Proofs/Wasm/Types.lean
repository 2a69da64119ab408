import Mathlib.Data.List.Induction
import Mathlib.Data.List.Nodup
import SigilAsm.Proofs.Wasm.Lowered

/-! # Types of functions

A module that a program is lowered to has one type for each signature that
occurs among the functions, by first occurrence, and functions share a type
exactly if they have the same signature (`Wasm.Module.SharesTypes`).

The same numbers come out of one pass over the functions that writes a type and
notes its number when a signature is new, and takes the number from the notes
otherwise (`Wasm.Numbering`).
-/

namespace SigilAsm

/-! ## First occurrences -/

/-- The second list has the elements of the first, each once, in the order in which they first
occur. -/
structure FirstOccurrences {α : Type} [DecidableEq α] (l distinct : List α) : Prop where
  nodup : distinct.Nodup
  mem_iff : ∀ a, a ∈ distinct ↔ a ∈ l
  ordered : (distinct.map l.idxOf).Pairwise (· < ·)

section FirstOccurrences

variable {α : Type} [DecidableEq α] {l : List α} {a : α}

theorem eraseDups_snoc_of_mem (seen : a ∈ l) : (l ++ [a]).eraseDups = l.eraseDups := by
  have nothing : [a].removeAll l = [] := by simp [List.removeAll, seen]
  rw [List.eraseDups_append, nothing, List.eraseDups_nil, List.append_nil]

theorem eraseDups_snoc_of_not_mem (fresh : a ∉ l) :
    (l ++ [a]).eraseDups = l.eraseDups ++ [a] := by
  have all : [a].removeAll l = [a] := by simp [List.removeAll, fresh]
  rw [List.eraseDups_append, all]
  rfl

/-- A new element at the end leaves the places of first occurrences as they are. -/
theorem map_idxOf_eraseDups_snoc (l : List α) (a : α) :
    l.eraseDups.map (l ++ [a]).idxOf = l.eraseDups.map l.idxOf :=
  List.map_congr_left fun _ member => List.idxOf_append_of_mem (List.mem_eraseDups.mp member)

theorem eraseDups_firstOccurrences (l : List α) : FirstOccurrences l l.eraseDups := by
  induction l using List.reverseRecOn with
  | nil => exact ⟨List.nodup_nil, fun _ => Iff.rfl, .nil⟩
  | append_singleton l a ih =>
    by_cases seen : a ∈ l
    · rw [eraseDups_snoc_of_mem seen]
      refine ⟨ih.nodup, fun b => ?_, ?_⟩
      · rw [ih.mem_iff, List.mem_append, List.mem_singleton]
        exact ⟨.inl, fun member => member.elim id (· ▸ seen)⟩
      · rw [map_idxOf_eraseDups_snoc]
        exact ih.ordered
    · rw [eraseDups_snoc_of_not_mem seen]
      have fresh : a ∉ l.eraseDups := mt List.mem_eraseDups.mp seen
      refine ⟨?_, fun b => ?_, ?_⟩
      · exact List.nodup_append.mpr ⟨ih.nodup, List.nodup_singleton a, fun b member c single same =>
          fresh (List.mem_singleton.mp single ▸ same ▸ member)⟩
      · rw [List.mem_append, ih.mem_iff, List.mem_append]
      · -- The new element comes last, and all others occur in front of it.
        rw [List.map_append, map_idxOf_eraseDups_snoc, List.pairwise_append]
        refine ⟨ih.ordered, List.pairwise_singleton _ _, fun i member j last => ?_⟩
        obtain ⟨b, distinct, rfl⟩ := List.mem_map.mp member
        rw [List.map_singleton, List.mem_singleton, List.idxOf_append_of_notMem seen] at last
        rw [last]
        exact Nat.lt_add_right _
          (List.idxOf_lt_length_of_mem (List.mem_eraseDups.mp distinct))

end FirstOccurrences

/-! ## One pass -/

namespace Wasm

/-- The types written so far, the numbers noted for signatures, and the numbers of the functions
that were seen. -/
structure Numbering where
  types : List FunctionType
  numbers : List (Signature × Nat)
  functions : List Nat

namespace Numbering

def start : Numbering := ⟨[], [], []⟩

/-- Sees one more function.  A signature without a number gets a type at the end of the types. -/
def see (n : Numbering) (s : Signature) : Numbering :=
  match n.numbers.lookup s with
  | some number => { n with functions := n.functions ++ [number] }
  | none => {
      types := n.types ++ [Program.wasmType s]
      numbers := (s, n.types.length) :: n.numbers
      functions := n.functions ++ [n.types.length] }

def seeAll (signatures : List Signature) : Numbering := signatures.foldl see start

/-- The notes are in step with the types: what was seen has the number of its first occurrence. -/
structure InStep (n : Numbering) (seen : List Signature) : Prop where
  types : n.types = seen.eraseDups.map Program.wasmType
  numbers : ∀ s, n.numbers.lookup s =
    if s ∈ seen then some (seen.eraseDups.idxOf s) else none
  functions : n.functions = seen.map seen.eraseDups.idxOf

variable {n : Numbering} {seen : List Signature}

theorem InStep.see (h : n.InStep seen) (s : Signature) : (n.see s).InStep (seen ++ [s]) := by
  by_cases known : s ∈ seen
  · have found := h.numbers s
    rw [if_pos known] at found
    have same : (seen ++ [s]).eraseDups = seen.eraseDups := eraseDups_snoc_of_mem known
    rw [Numbering.see, found]
    refine ⟨by rw [same, h.types], fun t => ?_, by rw [same, List.map_append, h.functions]; rfl⟩
    have still : t ∈ seen ++ [s] ↔ t ∈ seen := by
      rw [List.mem_append, List.mem_singleton]
      exact ⟨fun member => member.elim id (· ▸ known), .inl⟩
    simp only [same, still, h.numbers]
  · have found := h.numbers s
    rw [if_neg known] at found
    have more : (seen ++ [s]).eraseDups = seen.eraseDups ++ [s] := eraseDups_snoc_of_not_mem known
    have fresh : s ∉ seen.eraseDups := mt List.mem_eraseDups.mp known
    have last : (seen.eraseDups ++ [s]).idxOf s = n.types.length := by
      rw [List.idxOf_append_of_notMem fresh, h.types, List.length_map]
      simp
    have others (t : Signature) (member : t ∈ seen) :
        (seen.eraseDups ++ [s]).idxOf t = seen.eraseDups.idxOf t :=
      List.idxOf_append_of_mem (List.mem_eraseDups.mpr member)
    rw [Numbering.see, found]
    refine ⟨by rw [more, List.map_append, h.types]; rfl, fun t => ?_, ?_⟩
    · rw [more]
      by_cases same : t = s
      · subst same
        simp [last]
      · rw [List.lookup_cons, beq_false_of_ne same, h.numbers]
        by_cases member : t ∈ seen
        · simp [member, others t member]
        · simp [member, same]
    · rw [more, List.map_append, List.map_singleton, last, h.functions,
        List.map_congr_left others]

theorem seeAll_inStep (signatures : List Signature) : (seeAll signatures).InStep signatures := by
  induction signatures using List.reverseRecOn with
  | nil => exact ⟨rfl, fun _ => rfl, rfl⟩
  | append_singleton signatures s ih =>
    rw [seeAll, List.foldl_append]
    exact ih.see s

end Numbering

end Wasm

/-! ## Lowered programs -/

/-- The types of the module are those of the program's signatures, each once, and functions share a
type exactly if they have the same signature. -/
structure Wasm.Module.SharesTypes (m : Module) (p : Program) : Prop where
  types : ∃ signatures, FirstOccurrences (p.functions.toList.map (·.signature)) signatures ∧
    m.types = signatures.map Program.wasmType
  nodup : m.types.Nodup
  functions : m.functions.length = p.functions.size
  denotes : ∀ (i : Nat) (f : Program.Function), p.functions[i]? = some f →
    (m.functions[i]?).bind (m.types[·]?) = some (Program.wasmType f.signature)
  shared : ∀ (i j : Nat) (f g : Program.Function),
    p.functions[i]? = some f → p.functions[j]? = some g →
    (m.functions[i]? = m.functions[j]? ↔ f.signature = g.signature)
  -- One pass over the functions finds the same types and numbers.
  numbered : ∃ numbers, Numbering.seeAll (p.functions.toList.map (·.signature)) =
    ⟨m.types, numbers, m.functions⟩

namespace Program

variable {p : Program} {m : Wasm.Module}

theorem wasmType_injective {s t : Signature} (h : wasmType s = wasmType t) : s = t := by
  obtain ⟨input, output⟩ := s
  obtain ⟨input', output'⟩ := t
  simp only [wasmType, Wasm.FunctionType.mk.injEq, UInt8.toNat_inj] at h
  obtain ⟨rfl, rfl⟩ := h
  rfl

theorem sharesTypes_of_lower (lowered : p.lower = .ok m) : m.SharesTypes p := by
  obtain ⟨-, rfl⟩ := eq_of_lower lowered
  have firsts : FirstOccurrences (p.functions.toList.map (·.signature)) p.distinctSignatures :=
    eraseDups_firstOccurrences _
  have number {i : Nat} {f : Function} (found : p.functions[i]? = some f) :
      (p.functions.toList.map fun f => p.distinctSignatures.idxOf f.signature)[i]? =
        some (p.distinctSignatures.idxOf f.signature) := by
    rw [List.getElem?_map, Array.getElem?_toList, found, Option.map_some]
  have member {i : Nat} {f : Function} (found : p.functions[i]? = some f) :
      f ∈ p.functions.toList := Array.mem_toList_iff.mpr (Array.mem_of_getElem? found)
  exact {
    types := ⟨_, firsts, rfl⟩
    nodup := firsts.nodup.map fun _ _ => wasmType_injective
    functions := by simp
    denotes := fun i f found => by
      rw [number found, Option.bind_some, List.getElem?_map, type_of_function (member found),
        Option.map_some]
    shared := fun i j f g found found' => by
      have occurs : f.signature ∈ p.distinctSignatures :=
        (firsts.mem_iff _).mpr (List.mem_map_of_mem (member found))
      rw [number found, number found', Option.some.injEq, List.idxOf_inj occurs]
    numbered := by
      have inStep := Wasm.Numbering.seeAll_inStep (p.functions.toList.map (·.signature))
      generalize Wasm.Numbering.seeAll _ = n at inStep
      obtain ⟨types, numbers, functions⟩ := n
      obtain ⟨rfl, -, rfl⟩ := inStep
      exact ⟨numbers, by rw [List.map_map]; rfl⟩ }

/-- A program whose data fits is lowered to a module in which equal signatures, and no others, share
a type. -/
theorem exists_lower_sharesTypes (p : Program) (room : p.dataLayout.total ≤ maxLayoutBytes) :
    ∃ m, p.lower = .ok m ∧ m.SharesTypes p := by
  obtain ⟨m, lowered⟩ := exists_lower room
  exact ⟨m, lowered, sharesTypes_of_lower lowered⟩

/-- Of four functions the first and the last share the first type. -/
theorem exists_lower_sharesTypes_four_functions :
    let p : Program := { Program.empty with functions := #[
      ⟨"a", ⟨2, 1⟩, #[], #[]⟩, ⟨"b", ⟨1, 2⟩, #[], #[]⟩, ⟨"c", ⟨0, 0⟩, #[], #[]⟩,
      ⟨"d", ⟨2, 1⟩, #[], #[]⟩] }
    p.dataLayout.total ≤ maxLayoutBytes ∧ ∃ m, p.lower = .ok m ∧ m.SharesTypes p ∧
      m.types = [⟨2, 1⟩, ⟨1, 2⟩, ⟨0, 0⟩] ∧ m.functions = [0, 1, 2, 0] := by
  intro p
  have room : p.dataLayout.total ≤ maxLayoutBytes := by decide
  obtain ⟨m, lowered, shares⟩ := exists_lower_sharesTypes p room
  refine ⟨room, m, lowered, shares, ?_⟩
  cases lowered
  decide

end Program

end SigilAsm
