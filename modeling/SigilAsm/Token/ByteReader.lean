import SigilAsm.Token.Query

/-! # Reading by bytes

Queries are answered by a reader whose only state is an index into the bytes of
the source.  It looks at one byte at a time and moves on by one or two of them,
and all offsets that it tells are words of 32 bits.

Nothing keeps the index from falling inside a character.  Where the text is cut
there, where an offset does not fit a word and where a sum of words does not,
reading ends in a `Trap`, which is not a fault of the text.  After a fault the
reader can be asked on, from the index at which the fault left it.
-/

namespace SigilAsm

/-- A half-open range of byte offsets in words. -/
structure Span where
  start : UInt32
  stop : UInt32
  deriving DecidableEq, Repr

namespace Span

/-- The span between two offsets, whichever of them comes first. -/
def between (a b : UInt32) : Span := if a ≤ b then ⟨a, b⟩ else ⟨b, a⟩

def point (offset : UInt32) : Span := ⟨offset, offset⟩

end Span

/-- A token that tells its payload by its place alone. -/
structure PlacedToken where
  kind : Token.Kind
  span : Span
  textStart : UInt32
  textStop : UInt32
  deriving DecidableEq, Repr

structure PlacedFault where
  fault : Fault
  span : Span
  deriving DecidableEq, Repr

/-- What no text may lead to. -/
inductive Trap where
  -- The text was cut inside a character or past its end.
  | cut
  -- An offset lost its upper bits.
  | narrowed
  -- A sum of two words lost its upper bit.
  | overflow
  deriving DecidableEq, Repr

/-- What reads from an index on and leaves another. -/
abbrev ByteReader (α : Type) := StateT Nat (Except Trap) α

/-- What may refuse the text as well, and leaves an index in either case. -/
abbrev ByteScanner (α : Type) := ExceptT PlacedFault (StateT Nat (Except Trap)) α

namespace ByteReader

open Cursor (Query)

/-! ## Classes of bytes -/

def isWithin (first last : Char) (b : UInt8) : Bool := first.toUInt8 ≤ b && b ≤ last.toUInt8

/-- The byte is the character by itself. -/
def isByte (ch : Char) (b : UInt8) : Bool := b == ch.toUInt8

def isBlank (b : UInt8) : Bool :=
  b == 0x20 || b == 0x09 || b == 0x0a || b == 0x0d || b == 0x0b || b == 0x0c

def isDigit : UInt8 → Bool := isWithin '0' '9'

def isWordStart (b : UInt8) : Bool :=
  isWithin 'a' 'z' b || isWithin 'A' 'Z' b || isByte '_' b || isByte '.' b

def isWordPart (b : UInt8) : Bool := isWordStart b || isDigit b

def isStringPart (b : UInt8) : Bool := !isByte '"' b && isWithin ' ' '~' b

def hexDigit? (b : UInt8) : Option UInt8 :=
  if isWithin '0' '9' b then some (b - '0'.toUInt8)
  else if isWithin 'a' 'f' b then some (b - 'a'.toUInt8 + 10)
  else if isWithin 'A' 'F' b then some (b - 'A'.toUInt8 + 10)
  else none

/-! ## Offsets -/

/-- The offset as a word. -/
def word (n : Nat) : ByteReader UInt32 :=
  if n < UInt32.size then return n.toUInt32 else throw .narrowed

def sum (a b : UInt32) : ByteReader UInt32 :=
  if a.toNat + b.toNat < UInt32.size then return a + b else throw .overflow

/-- The index as a word. -/
def here : ByteReader UInt32 := do word (← get)

variable (source : String)

/-! ## Moving on -/

def byteAt? (i : Nat) : Option UInt8 :=
  if inside : i < source.utf8ByteSize then some (source.getUTF8Byte ⟨i⟩ inside) else none

variable {source} in
theorem lt_of_byteAt? {i : Nat} {b : UInt8} (h : byteAt? source i = some b) :
    i < source.utf8ByteSize := by
  unfold byteAt? at h
  split at h
  · assumption
  · cases h

/-- The byte that comes next. -/
def current? : ByteReader (Option UInt8) := return byteAt? source (← get)

def consume : ByteReader Unit := modify fun i => if i < source.utf8ByteSize then i + 1 else i

/-- Where a run of bytes ends that begins at an index. -/
def runEnd (p : UInt8 → Bool) (i : Nat) : Nat :=
  match here : byteAt? source i with
  | none => i
  | some b =>
    if p b then
      have := lt_of_byteAt? here
      runEnd p (i + 1)
    else i
termination_by source.utf8ByteSize - i

variable {source} in
theorem le_runEnd (p : UInt8 → Bool) (i : Nat) : i ≤ runEnd source p i := by
  fun_induction runEnd source p i with
  | case1 | case3 => exact Nat.le_refl _
  | case2 i b here taken inside ih => exact Nat.le_of_succ_le ih

variable {source} in
theorem lt_runEnd {p : UInt8 → Bool} {i : Nat} {b : UInt8} (here : byteAt? source i = some b)
    (taken : p b = true) : i < runEnd source p i := by
  have further : i + 1 ≤ runEnd source p (i + 1) := le_runEnd p (i + 1)
  rw [runEnd]
  split
  · next none => cases here.symm.trans none
  · next b' some =>
    cases here.symm.trans some
    rwa [if_pos taken]

/-- Where the trivia ends that begins at an index: blanks, and comments up to their line feed. -/
def triviaEnd (i : Nat) : Nat :=
  match here : byteAt? source i with
  | none => i
  | some b =>
    have := lt_of_byteAt? here
    if isBlank b then triviaEnd (i + 1)
    else if comment : isByte '#' b then
      have := lt_runEnd (p := fun b => !isByte '\n' b) here (by
        rw [beq_iff_eq.mp comment]
        rfl)
      triviaEnd (runEnd source (fun b => !isByte '\n' b) i)
    else i
termination_by source.utf8ByteSize - i

def skipRun (p : UInt8 → Bool) : ByteReader Unit := modify (runEnd source p)

def skipTrivia : ByteReader Unit := modify (triviaEnd source)

/-! ## Cutting the text -/

/-- The text from an offset on. -/
def textFrom (start : Nat) : ByteReader (List Char) :=
  match Utf8.dropBytes? start source.toList with
  | some cs => return cs
  | none => throw .cut

/-- The payload of a token. -/
def text (t : PlacedToken) : ByteReader String :=
  match Utf8.slice? t.textStart.toNat t.textStop.toNat source.toList with
  | some cs => return String.ofList cs
  | none => throw .cut

/-! ## Tokens -/

def refuse {α : Type} (fault : Fault) (span : Span) : ByteScanner α := throw ⟨fault, span⟩

/-- The token that ends at the index. -/
def token (kind : Token.Kind) (start textStart textStop : UInt32) : ByteScanner PlacedToken :=
  return ⟨kind, .between start (← here), textStart, textStop⟩

def plainToken (kind : Token.Kind) (start : UInt32) : ByteScanner PlacedToken := do
  token kind start start (← here)

/-- Reads on between quotes, of which the first stands at `opening` and has the text from `content`
on behind it, at the characters that come `offset` bytes after that. -/
def quotedFrom (opening : UInt32) (content : Nat) :
    Nat → List Char → ByteScanner (UInt32 × UInt32)
  | _, [] => do
    set source.utf8ByteSize
    refuse .unclosedName (.between opening (← here))
  | offset, ch :: rest =>
    if ch == '\'' then do
      set (content + offset + 1)
      return (← word content, ← word (content + offset))
    else if Token.isControl ch then do
      let place ← word (content + offset)
      refuse .controlInName (.between place (← sum place (← word ch.utf8Size)))
    else quotedFrom opening content (offset + ch.utf8Size) rest

/-- Reads a quoted name and tells the place of the text between its quotes. -/
def quoted : ByteScanner (UInt32 × UInt32) := do
  let opening ← here
  consume source
  let content ← get
  quotedFrom source opening content 0 (← textFrom source content)

def string (start : UInt32) : ByteScanner PlacedToken := do
  consume source
  let textStart ← here
  skipRun source isStringPart
  match ← current? source with
  | none => refuse .unclosedString (.between start (← here))
  | some b =>
    if isByte '"' b then do
      let textStop ← here
      consume source
      token .string start textStart textStop
    else if isByte '\n' b || isByte '\r' b then
      refuse .unclosedString (.between start (← here))
    else do
      let place ← here
      refuse .unprintableInString (.between place (← sum place 1))

def name (sigil : Sigil) (start : UInt32) : ByteScanner PlacedToken := do
  consume source
  match ← current? source with
  | none => refuse (.bareSigil sigil) (.between start (← here))
  | some b =>
    if isByte '\'' b then do
      let (textStart, textStop) ← quoted source
      token (.name sigil) start textStart textStop
    else if isWordStart b then do
      let textStart ← here
      skipRun source isWordPart
      token (.name sigil) start textStart (← here)
    else refuse (.bareSigil sigil) (.between start (← here))

/-- Refuses the character at an offset, which begins no token. -/
def stray (start : UInt32) : ByteScanner PlacedToken := do
  let ch := (← textFrom source start.toNat).headD '\x00'
  refuse (.strayCharacter ch) (.between start (← sum start (← word ch.utf8Size)))

/-- The token that begins at an offset with the given byte. -/
def tokenAt (start : UInt32) (b : UInt8) : ByteScanner PlacedToken :=
  match Token.Kind.ofMark? (Char.ofUInt8 b) with
  | some kind => do
    consume source
    plainToken kind start
  | none =>
    if isByte '=' b then do
      consume source
      if (← current? source).any (isByte '>') then do
        consume source
        plainToken .arrow start
      else plainToken .equals start
    else if isByte '"' b then string source start
    else if isByte '\'' b then do
      let (textStart, textStop) ← quoted source
      token .quoted start textStart textStop
    else if isDigit b then do
      skipRun source isDigit
      plainToken .integer start
    else
      match Sigil.ofChar? (Char.ofUInt8 b) with
      | some sigil => name source sigil start
      | none =>
        if isWordStart b then do
          skipRun source isWordPart
          plainToken .word start
        else stray source start

def nextToken : ByteScanner PlacedToken := do
  skipTrivia source
  let start ← here
  match ← current? source with
  | none => plainToken .endOfInput start
  | some b => tokenAt source start b

/-- The byte of two hexadecimal digits from `start` on, which no third may follow. -/
def byteOf (start : Nat) (high low : UInt8) : ByteScanner (UInt8 × Span) := do
  set (start + 2)
  if ((← current? source).bind hexDigit?).isSome then do
    refuse .longByte (.between (← word start) (← sum (← here) 1))
  else
    return ((high <<< 4) ||| low, .between (← word start) (← here))

def hexByte : ByteScanner (UInt8 × Span) := do
  skipTrivia source
  let start ← get
  match (← current? source).bind hexDigit?, (byteAt? source (start + 1)).bind hexDigit? with
  | some high, some low => byteOf source start high low
  | _, _ => refuse .noDataElement (.point (← word start))

/-! ## Queries -/

inductive Answer where
  | token (result : Except PlacedFault PlacedToken)
  | byte (result : Except PlacedFault (UInt8 × Span))
  | offset (value : UInt32)
  | firstByte (value : Option UInt8)

def ask : Query → ByteReader Answer
  | .token => return .token (← (nextToken source).run)
  | .byte => return .byte (← (hexByte source).run)
  | .peek => do
    -- A copy of the reader is asked, so the index is put back.
    let index ← get
    let result ← (nextToken source).run
    set index
    return .token result
  | .offset => do
    skipTrivia source
    return .offset (← here)
  | .firstByte => do
    skipTrivia source
    return .firstByte (← current? source)

/-- The answers to queries in order, whether or not some of them are faults. -/
def askAll (queries : List Query) : ByteReader (List Answer) := queries.mapM (ask source)

end ByteReader

end SigilAsm
