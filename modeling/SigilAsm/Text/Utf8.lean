/-! # Byte lengths of characters

Offsets count bytes of the UTF-8 form of a text, while texts are read one
character at a time.  This module measures lists of characters in bytes and
cuts them at byte offsets; a cut that would fall inside a character has no
answer.
-/

namespace SigilAsm.Utf8

def byteLength (cs : List Char) : Nat := cs.foldr (fun c n => c.utf8Size + n) 0

@[simp] theorem byteLength_nil : byteLength [] = 0 := rfl

@[simp] theorem byteLength_cons (c : Char) (cs : List Char) :
    byteLength (c :: cs) = c.utf8Size + byteLength cs := rfl

@[simp] theorem byteLength_append (cs ds : List Char) :
    byteLength (cs ++ ds) = byteLength cs + byteLength ds := by
  induction cs with
  | nil => simp
  | cons c cs ih => simp [ih, Nat.add_assoc]

/-- A character takes at least one byte. -/
theorem length_le_byteLength (cs : List Char) : cs.length ≤ byteLength cs := by
  induction cs with
  | nil => exact Nat.le_refl _
  | cons c cs ih =>
    have pos := Char.utf8Size_pos c
    simp only [List.length_cons, byteLength_cons]
    omega

theorem byteLength_pos {cs : List Char} (h : cs ≠ []) : 0 < byteLength cs :=
  Nat.lt_of_lt_of_le (List.length_pos_iff.mpr h) (length_le_byteLength cs)

theorem utf8ByteSize_ofList (cs : List Char) : (String.ofList cs).utf8ByteSize = byteLength cs := by
  induction cs with
  | nil => rfl
  | cons c cs ih =>
    have cons : String.ofList (c :: cs) = String.singleton c ++ String.ofList cs := by simp
    rw [cons, String.utf8ByteSize_append, String.utf8ByteSize_singleton, ih, byteLength_cons]

theorem byteLength_toList (source : String) : byteLength source.toList = source.utf8ByteSize := by
  rw [← utf8ByteSize_ofList, String.ofList_toList]

/-- The boundaries of a string are the offsets behind what it begins with. -/
theorem isValid_iff_exists_front {source : String} {n : Nat} :
    (⟨n⟩ : String.Pos.Raw).IsValid source ↔
      ∃ front back, source.toList = front ++ back ∧ byteLength front = n := by
  rw [String.Pos.Raw.isValid_iff_exists_append]
  constructor
  · rintro ⟨front, back, rfl, start⟩
    refine ⟨front.toList, back.toList, String.toList_append, ?_⟩
    rw [byteLength_toList]
    exact (congrArg String.Pos.Raw.byteIdx start).symm
  · rintro ⟨front, back, split, rfl⟩
    refine ⟨String.ofList front, String.ofList back, ?_, ?_⟩
    · rw [← String.ofList_append, ← split, String.ofList_toList]
    · rw [← utf8ByteSize_ofList]
      rfl

def encode (cs : List Char) : List UInt8 := cs.flatMap String.utf8EncodeChar

theorem encode_append (cs ds : List Char) : encode (cs ++ ds) = encode cs ++ encode ds :=
  List.flatMap_append

theorem length_encode (cs : List Char) : (encode cs).length = byteLength cs := by
  induction cs with
  | nil => rfl
  | cons c cs ih =>
    rw [byteLength_cons, ← ih, ← String.length_utf8EncodeChar, ← List.length_append]
    rfl

/-- The bytes of a string are its encoded characters. -/
theorem toByteArray_encode (source : String) :
    (encode source.toList).toByteArray = source.toByteArray := by
  change source.toList.utf8Encode = _
  rw [← String.toByteArray_ofList, String.ofList_toList]

theorem fromUTF8?_encode (text : String) :
    String.fromUTF8? (encode text.toList).toByteArray = some text := by
  rw [toByteArray_encode, String.fromUTF8?, dif_pos text.isValidUTF8]
  rfl

/-- What is left of a text after its first `n` bytes, where these end between characters. -/
def dropBytes? : Nat → List Char → Option (List Char)
  | 0, cs => some cs
  | _ + 1, [] => none
  | n + 1, c :: cs => if c.utf8Size ≤ n + 1 then dropBytes? (n + 1 - c.utf8Size) cs else none

/-- The first `n` bytes of a text, where these end between characters. -/
def takeBytes? : Nat → List Char → Option (List Char)
  | 0, _ => some []
  | _ + 1, [] => none
  | n + 1, c :: cs =>
    if c.utf8Size ≤ n + 1 then (takeBytes? (n + 1 - c.utf8Size) cs).map (c :: ·) else none

/-- The text between two byte offsets, where both fall between characters. -/
def slice? (start stop : Nat) (cs : List Char) : Option (List Char) :=
  if start ≤ stop then (dropBytes? start cs).bind (takeBytes? (stop - start)) else none

theorem dropBytes?_byteLength_add (cs ds : List Char) (k : Nat) :
    dropBytes? (byteLength cs + k) (cs ++ ds) = dropBytes? k ds := by
  induction cs with
  | nil => simp
  | cons c cs ih =>
    have pos := Char.utf8Size_pos c
    obtain ⟨n, hn⟩ : ∃ n, c.utf8Size + byteLength cs + k = n + 1 :=
      ⟨c.utf8Size + byteLength cs + k - 1, by omega⟩
    have rest : n + 1 - c.utf8Size = byteLength cs + k := by omega
    have fits : c.utf8Size ≤ n + 1 := by omega
    simp [hn, dropBytes?, fits, rest, ih]

theorem dropBytes?_byteLength_append (cs ds : List Char) :
    dropBytes? (byteLength cs) (cs ++ ds) = some ds := by
  have cut := dropBytes?_byteLength_add cs ds 0
  rw [Nat.add_zero] at cut
  rw [cut]
  cases ds <;> rfl

/-- No cut falls inside a character. -/
theorem dropBytes?_one {c : Char} (wide : 1 < c.utf8Size) (cs : List Char) :
    dropBytes? 1 (c :: cs) = none := by
  simp [dropBytes?, Nat.not_le_of_lt wide]

theorem takeBytes?_byteLength_append (cs ds : List Char) :
    takeBytes? (byteLength cs) (cs ++ ds) = some cs := by
  induction cs with
  | nil => cases ds <;> rfl
  | cons c cs ih =>
    have pos := Char.utf8Size_pos c
    obtain ⟨n, hn⟩ : ∃ n, c.utf8Size + byteLength cs = n + 1 :=
      ⟨c.utf8Size + byteLength cs - 1, by omega⟩
    have rest : n + 1 - c.utf8Size = byteLength cs := by omega
    have fits : c.utf8Size ≤ n + 1 := by omega
    simp [hn, takeBytes?, fits, rest, ih]

theorem slice?_byteLength_append (before inside after : List Char) :
    slice? (byteLength before) (byteLength before + byteLength inside)
      (before ++ (inside ++ after)) = some inside := by
  simp [slice?, dropBytes?_byteLength_append, takeBytes?_byteLength_append]

end SigilAsm.Utf8
