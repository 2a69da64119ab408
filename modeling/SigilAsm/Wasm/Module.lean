import SigilAsm.Text.Utf8
import SigilAsm.Wasm.Leb128

/-! # WebAssembly modules

The modules that programs are lowered to use little of WebAssembly: every value
is an `i32`, there is one memory, globals are constants, and each function body
consists of the one instruction `unreachable`.  `Module` describes such a
module and `Module.encode` gives its binary form.
-/

namespace SigilAsm.Wasm

/-- How many values a function takes and leaves. -/
structure FunctionType where
  parameters : Nat
  results : Nat
  deriving DecidableEq, Repr

inductive ExportKind where
  | function
  | memory
  | global
  deriving DecidableEq, Repr

structure Export where
  name : String
  kind : ExportKind
  index : Nat
  deriving DecidableEq, Repr

/-- Bytes that the memory holds from the start. -/
structure Segment where
  offset : Nat
  bytes : List UInt8
  deriving DecidableEq, Repr

structure Module where
  types : List FunctionType
  -- The number of the type of each function.
  functions : List Nat
  memoryPages : Nat
  -- The value of each global, read as an unsigned number of 32 bits.
  globals : List Nat
  exports : List Export
  segments : List Segment
  deriving DecidableEq, Repr

/-! ## Binary form -/

/-- A sequence of items, after their number. -/
def vector (items : List (List UInt8)) : List UInt8 :=
  Leb128.unsigned items.length ++ items.flatten

/-- A sequence of bytes, after their number. -/
def byteVector (bytes : List UInt8) : List UInt8 := Leb128.unsigned bytes.length ++ bytes

def sectionBytes (id : UInt8) (contents : List UInt8) : List UInt8 := id :: byteVector contents

/-- A number below 2^32 as 32 bits in two's complement. -/
def asSigned32 (n : Nat) : Int := if n < 0x80000000 then n else (n : Int) - 0x100000000

def i32 : UInt8 := 0x7f

/-- The expression `i32.const n`. -/
def constant (n : Nat) : List UInt8 := 0x41 :: Leb128.signed (asSigned32 n) ++ [0x0b]

def FunctionType.encode (t : FunctionType) : List UInt8 :=
  0x60 :: byteVector (List.replicate t.parameters i32) ++ byteVector (List.replicate t.results i32)

def ExportKind.encode : ExportKind → UInt8
  | function => 0
  | memory => 2
  | global => 3

def Export.encode (e : Export) : List UInt8 :=
  byteVector (Utf8.encode e.name.toList) ++ e.kind.encode :: Leb128.unsigned e.index

def encodeGlobal (value : Nat) : List UInt8 := i32 :: 0x00 :: constant value

/-- A body without locals that consists of `unreachable`. -/
def encodeBody : List UInt8 := byteVector [0x00, 0x00, 0x0b]

def Segment.encode (s : Segment) : List UInt8 := 0x00 :: constant s.offset ++ byteVector s.bytes

namespace Module

/-- The magic number and the version. -/
def preamble : List UInt8 := [0x00, 0x61, 0x73, 0x6d, 0x01, 0x00, 0x00, 0x00]

/-- The sections of a module, each with its number; a section without entries is written too. -/
def sections (m : Module) : List (UInt8 × List UInt8) :=
  [(1, vector (m.types.map FunctionType.encode)),
    (3, vector (m.functions.map Leb128.unsigned)),
    (5, vector [0x00 :: Leb128.unsigned m.memoryPages]),
    (6, vector (m.globals.map encodeGlobal)),
    (7, vector (m.exports.map Export.encode)),
    (10, vector (m.functions.map fun _ => encodeBody)),
    (11, vector (m.segments.map Segment.encode))]

def encode (m : Module) : List UInt8 :=
  preamble ++ m.sections.flatMap fun (id, contents) => sectionBytes id contents

end Module

end SigilAsm.Wasm
