import SigilAsm.Program.Layout
import SigilAsm.Report.Failure
import SigilAsm.Wasm.Module

/-! # Lowering

A program is lowered by its outside: the data of its globals is put into an
exported memory, each global becomes an exported constant that holds the offset
of its data, and each function an exported function of the same counts that
does not return.
-/

namespace SigilAsm.Program

/-- The bytes of one page of memory. -/
def pageBytes : Nat := 65536

/-- The largest data layout that is lowered. -/
def maxLayoutBytes : Nat := 0xffffffff

/-- The pages that hold the given number of bytes; there is always one. -/
def pagesFor (bytes : Nat) : Nat := max 1 ((bytes + (pageBytes - 1)) / pageBytes)

/-- The signatures of the functions, each once, by first occurrence. -/
def distinctSignatures (p : Program) : List Signature :=
  (p.functions.toList.map (·.signature)).eraseDups

def wasmType (s : Signature) : Wasm.FunctionType := ⟨s.input.toNat, s.output.toNat⟩

/-- The exports: the memory, then the globals, then the functions. -/
def wasmExports (p : Program) : List Wasm.Export :=
  ⟨"memory", .memory, 0⟩
    :: p.globals.toList.mapIdx (fun i g => ⟨"global:" ++ g.name, .global, i⟩)
    ++ p.functions.toList.mapIdx fun i f => ⟨"function:" ++ f.name, .function, i⟩

/-- The data of the globals at their offsets, except of those that have none. -/
def wasmSegments (p : Program) : List Wasm.Segment :=
  ((p.globals.toList.zip p.dataLayout.offsets).filter fun (g, _) => !g.data.isEmpty).map
    fun (g, offset) => ⟨offset, g.data⟩

/-- Why data of this layout is not lowered, if it is not: the size of the whole decides. -/
def refusal? (layout : DataLayout) : Option Failure :=
  if maxLayoutBytes < layout.total then
    some (.lowering
      ("global data needs " ++ toString layout.total ++ " bytes, more than a 32-bit memory holds"))
  else none

theorem refusal?_eq_none_iff {layout : DataLayout} :
    refusal? layout = none ↔ layout.total ≤ maxLayoutBytes := by
  simp [refusal?]

/-- The WebAssembly counterpart of a program, unless a memory with 32-bit offsets is too small. -/
def lower (p : Program) : Except Failure Wasm.Module :=
  let layout := p.dataLayout
  match refusal? layout with
  | some failure => .error failure
  | none =>
    let signatures := p.distinctSignatures
    .ok {
      types := signatures.map wasmType
      functions := p.functions.toList.map fun f => signatures.idxOf f.signature
      memoryPages := pagesFor layout.total
      globals := layout.offsets
      exports := p.wasmExports
      segments := p.wasmSegments }

theorem lower_eq_error_iff {p : Program} {f : Failure} :
    p.lower = .error f ↔ refusal? p.dataLayout = some f := by
  rw [lower]
  cases refusal? p.dataLayout <;> simp

end SigilAsm.Program
