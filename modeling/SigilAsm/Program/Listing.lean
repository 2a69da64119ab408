import SigilAsm.Name.Vocabulary
import SigilAsm.Program.Basic

/-! # Listings

The listing of a program has one row for the module, one for each global, and
for each function its header, its locals, and its blocks with their
instructions.  Of the data of a global it shows the first bytes.
-/

namespace SigilAsm

def byteText (b : UInt8) : String :=
  String.ofList [Nat.digitChar (b.toNat / 16), Nat.digitChar (b.toNat % 16)]

namespace Program

/-- How many bytes of a global its row shows. -/
def listedBytes : Nat := 16

/-- What stands in a listing for a name that cannot be told. -/
def missingName : String := "?"

def operandText (p : Program) (vocabulary : Vocabulary) : Operand → String
  | .ofLocal id => "%" ++ ((p.local? id).map (·.name)).getD missingName
  | .ofGlobal id => "@" ++ ((p.global? id).map (·.name)).getD missingName
  | .ofType id => "$" ++ (vocabulary.typeName? id).getD missingName
  | .immediate value => toString value.toNat

def instructionText (p : Program) (vocabulary : Vocabulary) : Instruction → String
  | .call target => "call @" ++ ((p.function? target).map (·.name)).getD missingName
  | .operation id operands =>
    let head := "$" ++ (vocabulary.operationName? id).getD missingName
    match operands with
    | [] => head
    | operands => head ++ " " ++ ", ".intercalate (operands.map (p.operandText vocabulary))

def Global.row (g : Global) : String :=
  let keyword := match g.mutability with
    | .mutable => "global"
    | .immutable => "global const"
  let bytes := String.join ((g.data.take listedBytes).map (" " ++ byteText ·))
  let more := if listedBytes < g.data.length then " .." else ""
  keyword ++ " @" ++ g.name ++ " (" ++ toString g.data.length ++ " bytes)" ++ bytes ++ more

def localRow (p : Program) (id : LocalId) : String :=
  "  local %" ++ ((p.local? id).map (·.name)).getD missingName

def blockRows (p : Program) (vocabulary : Vocabulary) (id : BlockId) : List String :=
  match p.block? id with
  | none => []
  | some block =>
    ("  block #" ++ toString id.index ++ block.signature.render)
      :: block.instructions.toList.map ("    " ++ p.instructionText vocabulary ·)

def functionRows (p : Program) (vocabulary : Vocabulary) (f : Function) : List String :=
  ("function @" ++ f.name ++ f.signature.render)
    :: f.locals.toList.map p.localRow ++ f.blocks.toList.flatMap (p.blockRows vocabulary)

def listingRows (p : Program) (vocabulary : Vocabulary) : List String :=
  ("module @" ++ p.name.getD missingName)
    :: p.globals.toList.map Global.row ++ p.functions.toList.flatMap (p.functionRows vocabulary)

/-- The rows of the listing, each ended by a line feed. -/
def listing (p : Program) (vocabulary : Vocabulary) : String :=
  String.join ((p.listingRows vocabulary).map (· ++ "\n"))

end Program

end SigilAsm
