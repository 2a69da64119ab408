import SigilAsm.Proofs.Wasm.Syntax

/-! # Decoding WebAssembly

A decoder for binary modules that follows the grammar of the specification, one
decoder for each production: numbers in LEB128 of a given width, vectors after
their length, sections after their size.  It knows nothing of how modules are
encoded here, and it refuses what is left out of the abstract syntax.
-/

namespace SigilAsm.Wasm.Core

/-- Takes bytes from the front. -/
abbrev Decoder (α : Type) := StateT (List UInt8) Option α

namespace Decoder

variable {α : Type}

/-! ## Values -/

def byte : Decoder UInt8
  | [] => none
  | b :: rest => some (b, rest)

/-- A given byte. -/
def symbol (expected : UInt8) : Decoder Unit := do
  if (← byte) = expected then return () else failure

def symbols : List UInt8 → Decoder Unit
  | [] => return ()
  | expected :: rest => do
    symbol expected
    symbols rest

/-- An unsigned number of at most `width` bits. -/
def unsigned (width : Nat) : List UInt8 → Option (Nat × List UInt8)
  | [] => none
  | b :: rest =>
    if b.toNat < 0x80 then if b.toNat < 1 <<< width then some (b.toNat, rest) else none
    else if 7 < width then
      (unsigned (width - 7) rest).map fun (high, rest) => (0x80 * high + (b.toNat - 0x80), rest)
    else none

/-- A number of at most `width` bits in two's complement.  Bit six of the last byte is the sign. -/
def signed (width : Nat) : List UInt8 → Option (Int × List UInt8)
  | [] => none
  | b :: rest =>
    if b.toNat < 0x40 then
      if b.toNat < 1 <<< (width - 1) then some ((b.toNat : Int), rest) else none
    else if b.toNat < 0x80 then
      if 0x80 ≤ b.toNat + 1 <<< (width - 1) then some ((b.toNat : Int) - 0x80, rest) else none
    else if 7 < width then
      (signed (width - 7) rest).map fun (high, rest) =>
        (0x80 * high + ((b.toNat : Int) - 0x80), rest)
    else none

def u32 : Decoder Nat := unsigned 32

def s32 : Decoder Int := signed 32

def times : Nat → Decoder α → Decoder (List α)
  | 0, _ => return []
  | n + 1, item => do
    let first ← item
    let rest ← times n item
    return first :: rest

/-- As many items as the number before them says. -/
def vec (item : Decoder α) : Decoder (List α) := do
  let count ← u32
  times count item

/-- Contents that take exactly as many bytes as the number before them says. -/
def sized (contents : Decoder α) : Decoder α := do
  let size ← u32
  let bytes ← get
  if size ≤ bytes.length then
    match contents.run (bytes.take size) with
    | some (a, []) =>
      set (bytes.drop size)
      return a
    | _ => failure
  else failure

/-- A text in UTF-8. -/
def name : Decoder String := do
  let bytes ← vec byte
  match String.fromUTF8? bytes.toByteArray with
  | some text => return text
  | none => failure

/-! ## Types and instructions -/

def valueType : Decoder ValueType := do
  match ← byte with
  | 0x7f => return .i32
  | 0x7e => return .i64
  | 0x7d => return .f32
  | 0x7c => return .f64
  | _ => failure

def functionType : Decoder FunctionType := do
  symbol 0x60
  let parameters ← vec valueType
  let results ← vec valueType
  return ⟨parameters, results⟩

def limits : Decoder Limits := do
  match ← byte with
  | 0x00 => return ⟨← u32, none⟩
  | 0x01 =>
    let least ← u32
    let most ← u32
    return ⟨least, some most⟩
  | _ => failure

def mutability : Decoder Mutability := do
  match ← byte with
  | 0x00 => return .immutable
  | 0x01 => return .mutable
  | _ => failure

/-- Fewer than the given number of instructions, up to the end mark. -/
def instructions : Nat → Decoder (List Instruction)
  | 0 => failure
  | n + 1 => do
    match ← byte with
    | 0x0b => return []
    | 0x00 =>
      let rest ← instructions n
      return .unreachable :: rest
    | 0x41 =>
      let value ← s32
      let rest ← instructions n
      return .i32Const (.ofInt 32 value) :: rest
    | _ => failure

/-- Every instruction takes a byte, so there are no more of them than bytes. -/
def expression : Decoder (List Instruction) := do
  let bytes ← get
  instructions bytes.length

/-! ## Modules -/

def global : Decoder Global := do
  let type ← valueType
  let mutability ← mutability
  let initial ← expression
  return ⟨type, mutability, initial⟩

def externalKind : Decoder ExternalKind := do
  match ← byte with
  | 0x00 => return .function
  | 0x01 => return .table
  | 0x02 => return .memory
  | 0x03 => return .global
  | _ => failure

def exportEntry : Decoder Export := do
  let name ← name
  let kind ← externalKind
  let index ← u32
  return ⟨name, kind, index⟩

def localGroup : Decoder (Nat × ValueType) := do
  let count ← u32
  let type ← valueType
  return (count, type)

def code : Decoder Code :=
  sized do
    let locals ← vec localGroup
    let body ← expression
    return ⟨locals, body⟩

def segment : Decoder Segment := do
  match ← u32 with
  | 0 =>
    let offset ← expression
    let bytes ← vec byte
    return .active 0 offset bytes
  | 1 => return .passive (← vec byte)
  | 2 =>
    let memory ← u32
    let offset ← expression
    let bytes ← vec byte
    return .active memory offset bytes
  | _ => failure

def moduleSection : Decoder Section := do
  match ← byte with
  | 1 => return .types (← sized (vec functionType))
  | 3 => return .functions (← sized (vec u32))
  | 5 => return .memories (← sized (vec limits))
  | 6 => return .globals (← sized (vec global))
  | 7 => return .exports (← sized (vec exportEntry))
  | 10 => return .codes (← sized (vec code))
  | 11 => return .segments (← sized (vec segment))
  | _ => failure

/-- At most the given number of sections, up to the end of the bytes. -/
def sections : Nat → Decoder (List Section)
  | 0 => return []
  | n + 1 => do
    if (← get).isEmpty then return []
    else
      let first ← moduleSection
      let rest ← sections n
      return first :: rest

/-- The magic number and the version come before the sections. -/
def wholeModule : Decoder (List Section) := do
  symbols [0x00, 0x61, 0x73, 0x6d]
  symbols [0x01, 0x00, 0x00, 0x00]
  let bytes ← get
  sections bytes.length

end Decoder

/-- The sections of a binary module, if the bytes are such a module and nothing else. -/
def decode (bytes : List UInt8) : Option (List Section) :=
  match Decoder.wholeModule.run bytes with
  | some (sections, []) => some sections
  | _ => none

end SigilAsm.Wasm.Core
