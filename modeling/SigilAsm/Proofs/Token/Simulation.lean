import SigilAsm.Proofs.Token.Bytes

/-! # The reader of bytes follows the cursor

At the offset of a place, a query is answered by the reader of bytes as it is by
the cursor there, in words, and leaves the index at the offset where the cursor
goes on (`ByteReader.run_ask`, `ByteReader.run_askAll`).  The reader is therefore
never trapped in a source whose length fits a word.

The computations are taken apart along their steps: `ByteReader.Gives` says what
one of them gives at an index, and is closed under putting them together.
-/

namespace SigilAsm

/-! ## Narrowing -/

def Span.ofExtent (e : Extent) : Span := ⟨e.start.toUInt32, e.stop.toUInt32⟩

def PlacedToken.ofToken (t : Token) : PlacedToken where
  kind := t.kind
  span := .ofExtent t.extent
  textStart := t.payload.start.toUInt32
  textStop := t.payload.stop.toUInt32

def PlacedFault.ofError (e : SyntaxError) : PlacedFault := ⟨e.fault, .ofExtent e.extent⟩

namespace ByteReader

open Cursor (Query)
open Token (isQuotable)

variable {α β : Type} {source : String} {c : Cursor}

/-- What was read of the text, in words. -/
def narrow (f : α → β) : Except SyntaxError α → Except PlacedFault β
  | .ok a => .ok (f a)
  | .error e => .error (.ofError e)

def ofByte (b : UInt8 × Extent) : UInt8 × Span := (b.1, .ofExtent b.2)

def Answer.ofAnswer : Cursor.Answer → Answer
  | .token result => .token (narrow .ofToken result)
  | .byte result => .byte (narrow ofByte result)
  | .offset n => .offset n.toUInt32
  | .firstByte b => .firstByte b

theorem toNat_toUInt32 {n : Nat} (fits : n < UInt32.size) : n.toUInt32.toNat = n :=
  UInt32.toNat_ofNat_of_lt' fits

theorem between_toUInt32 {a b : Nat} (ha : a < UInt32.size) (hb : b < UInt32.size) :
    Span.between a.toUInt32 b.toUInt32 = .ofExtent (.between a b) := by
  simp only [Span.between, UInt32.le_iff_toNat_le, toNat_toUInt32 ha, toNat_toUInt32 hb]
  split
  · next le => rw [Extent.between_of_le le]; rfl
  · next gt => rw [Extent.between_comm, Extent.between_of_le (Nat.le_of_not_le gt)]; rfl

/-! ## What a computation gives -/

/-- Where the index is `i`, the computation gives the result and leaves the index at `j`. -/
def Gives (m : ByteScanner α) (i : Nat) (result : Except PlacedFault α) (j : Nat) : Prop :=
  m.run.run i = .ok (result, j)

theorem run_bind_of_ok {m : ByteReader α} {f : α → ByteReader β} {a : α} {i j : Nat}
    (h : m.run i = .ok (a, j)) : (m >>= f).run i = (f a).run j := by
  rw [StateT.run_bind, h]
  rfl

theorem Gives.bind {m : ByteScanner α} {f : α → ByteScanner β} {a : α} {i j k : Nat}
    {result : Except PlacedFault β} (h : Gives m i (.ok a) j) (h' : Gives (f a) j result k) :
    Gives (m >>= f) i result k := by
  unfold Gives at h
  rw [Gives, ExceptT.run_bind, StateT.run_bind, h]
  exact h'

theorem Gives.refused {m : ByteScanner α} {f : α → ByteScanner β} {e : PlacedFault} {i j : Nat}
    (h : Gives m i (.error e) j) : Gives (m >>= f) i (.error e) j := by
  unfold Gives at h
  rw [Gives, ExceptT.run_bind, StateT.run_bind, h]
  rfl

theorem gives_get (i : Nat) : Gives get i (.ok i) i := rfl

theorem gives_set (i j : Nat) : Gives (set j) i (.ok ()) j := rfl

theorem gives_current (i : Nat) : Gives (liftM (current? source)) i (.ok (byteAt? source i)) i :=
  rfl

theorem gives_of_run {m : ByteReader α} {a : α} {i j : Nat} (h : m.run i = .ok (a, j)) :
    Gives (liftM m) i (.ok a) j := by
  change (Except.ok <$> m).run i = _
  rw [StateT.run_map, h]
  rfl

theorem run_word {n : Nat} (fits : n < UInt32.size) (i : Nat) :
    (word n).run i = .ok (n.toUInt32, i) := by
  rw [word, if_pos fits]
  rfl

theorem run_here {i : Nat} (fits : i < UInt32.size) : here.run i = .ok (i.toUInt32, i) :=
  run_word fits i

theorem gives_word {n : Nat} (fits : n < UInt32.size) (i : Nat) :
    Gives (liftM (word n)) i (.ok n.toUInt32) i :=
  gives_of_run (run_word fits i)

theorem gives_here {i : Nat} (fits : i < UInt32.size) :
    Gives (liftM here) i (.ok i.toUInt32) i :=
  gives_of_run (run_here fits)

theorem gives_sum {a b : Nat} (fits : a + b < UInt32.size) (i : Nat) :
    Gives (liftM (sum a.toUInt32 b.toUInt32)) i (.ok (a + b).toUInt32) i := by
  have ha := toNat_toUInt32 (Nat.lt_of_le_of_lt (Nat.le_add_right a b) fits)
  have hb := toNat_toUInt32 (Nat.lt_of_le_of_lt (Nat.le_add_left b a) fits)
  have total : a.toUInt32 + b.toUInt32 = (a + b).toUInt32 := by
    refine UInt32.toNat_inj.mp ?_
    rw [UInt32.toNat_add, ha, hb, toNat_toUInt32 fits, Nat.mod_eq_of_lt fits]
  rw [sum, ha, hb, if_pos fits, total]
  rfl

theorem gives_refuse {a b : Nat} (ha : a < UInt32.size) (hb : b < UInt32.size) (fault : Fault)
    (i : Nat) :
    Gives (refuse fault (.between a.toUInt32 b.toUInt32) : ByteScanner α) i
      (.error (.ofError ⟨fault, .between a b⟩)) i := by
  rw [between_toUInt32 ha hb]
  rfl

/-- Refuses the text from an offset up to the index. -/
theorem gives_refuse_here {a i : Nat} (ha : a < UInt32.size) (hi : i < UInt32.size)
    (fault : Fault) :
    Gives (do refuse fault (.between a.toUInt32 (← here)) : ByteScanner α) i
      (.error (.ofError ⟨fault, .between a i⟩)) i :=
  (gives_here hi).bind (gives_refuse ha hi fault i)

/-! ## Steps at a place -/

section

variable (short : source.utf8ByteSize ≤ maxSourceBytes)
  (reads : (Cursor.ofString source).ReadsTo c)

include short

theorem fits_of_le {n : Nat} (h : n ≤ source.utf8ByteSize) : n < UInt32.size :=
  Nat.lt_succ_of_le (Nat.le_trans h short)

include reads

theorem fits_offset : c.offset < UInt32.size :=
  fits_of_le short reads.hasPlace.le_utf8ByteSize

omit short

theorem gives_consume {ch : Char} {rest : List Char} (first : c.rest = ch :: rest)
    (single : ch.utf8Size = 1) :
    Gives (liftM (consume source)) c.offset (.ok ()) (c.skip 1).offset := by
  obtain ⟨b, here, -⟩ := exists_byteAt? reads first
  have next : (c.skip 1).offset = c.offset + 1 := by simp [Cursor.skip, first, single]
  rw [next]
  change Except.ok (Except.ok (), if c.offset < source.utf8ByteSize then _ else _) = _
  rw [if_pos (lt_of_byteAt? here)]

theorem gives_skipRun {p : UInt8 → Bool} {q : Char → Bool} (tests : Tests p q) :
    Gives (liftM (skipRun source p)) c.offset (.ok ())
      (c.skip (c.rest.takeWhile q).length).offset := by
  rw [← runEnd_offset tests reads]
  rfl

theorem run_skipTrivia : (skipTrivia source).run c.offset = .ok ((), c.skipTrivia.offset) := by
  rw [← triviaEnd_offset reads]
  rfl

include short in
/-- Refuses the character that stands at the place. -/
theorem gives_refuse_character {ch : Char} {rest : List Char} (first : c.rest = ch :: rest)
    (fault : Fault) (i : Nat) :
    Gives (do refuse fault (.between c.offset.toUInt32
        (← sum c.offset.toUInt32 (← word ch.utf8Size))) : ByteScanner α) i
      (.error (.ofError ⟨fault, .between c.offset (c.offset + ch.utf8Size)⟩)) i := by
  have size : ch.utf8Size < UInt32.size := Nat.lt_of_le_of_lt ch.utf8Size_le_four (by decide)
  have behind := fits_of_le short (reads.hasPlace_add first).le_utf8ByteSize
  exact (gives_word size i).bind ((gives_sum behind i).bind
    (gives_refuse (fits_offset short reads) behind fault i))

theorem gives_textFrom (i : Nat) :
    Gives (liftM (textFrom source c.offset)) i (.ok c.rest) i := by
  rw [textFrom, reads.dropBytes?]
  rfl

end

/-! ## Tokens -/

/-- The computation at the index gives what the cursor reads, and leaves the index where the cursor
goes on. -/
def Follows (m : ByteScanner β) (i : Nat) (f : α → β)
    (outcome : Except SyntaxError α × Cursor) : Prop :=
  Gives m i (narrow f outcome.1) outcome.2.offset

/-- What may stand between the quotes is passed over. -/
theorem quotedFrom_append (opening : UInt32) (content offset : Nat) {inside rest : List Char}
    (quotable : ∀ ch ∈ inside, isQuotable ch = true) :
    quotedFrom source opening content offset (inside ++ rest) =
      quotedFrom source opening content (offset + Utf8.byteLength inside) rest := by
  induction inside generalizing offset with
  | nil => rfl
  | cons ch inside ih =>
    obtain ⟨here, further⟩ := List.forall_mem_cons.mp quotable
    simp only [isQuotable, Bool.and_eq_true, bne_iff_ne, Bool.not_eq_true'] at here
    simp only [List.cons_append, quotedFrom, beq_iff_eq, here, if_false, Bool.false_eq_true,
      Utf8.byteLength_cons, ← Nat.add_assoc]
    exact ih _ further

theorem offset_skip_inside {inside rest : List Char} (first : c.rest = '\'' :: (inside ++ rest)) :
    (c.skip (1 + inside.length)).offset = (c.skip 1).offset + Utf8.byteLength inside := by
  rw [← Cursor.skip_skip]
  simp [Cursor.skip, first]

theorem rest_skip_inside {inside rest : List Char} (first : c.rest = '\'' :: (inside ++ rest)) :
    (c.skip (1 + inside.length)).rest = rest := by
  rw [← Cursor.skip_skip]
  simp [Cursor.skip, first]

section

variable (short : source.utf8ByteSize ≤ maxSourceBytes)
  (reads : (Cursor.ofString source).ReadsTo c)

include short reads

theorem follows_token (kind : Token.Kind) (length opening closing : Nat)
    (inside : opening ≤ length - closing) :
    Follows (token kind c.offset.toUInt32 (c.skip opening).offset.toUInt32
        (c.skip (length - closing)).offset.toUInt32)
      (c.skip length).offset .ofToken (c.lexeme kind length opening closing) := by
  have last : (c.skip opening).offset +
      Utf8.byteLength ((c.rest.take (length - closing)).drop opening) =
        (c.skip (length - closing)).offset := by
    have split := List.take_append_drop opening (c.rest.take (length - closing))
    rw [List.take_take, Nat.min_eq_left inside] at split
    have lengths := congrArg Utf8.byteLength split
    rw [Utf8.byteLength_append] at lengths
    simp only [Cursor.skip]
    omega
  have order : (c.skip opening).offset ≤ (c.skip (length - closing)).offset := by omega
  refine (gives_here (fits_offset short (reads.skip length))).bind ?_
  rw [between_toUInt32 (fits_offset short reads) (fits_offset short (reads.skip length))]
  simp only [Cursor.lexeme, last, Extent.between_of_le order]
  rfl

theorem follows_plainToken (kind : Token.Kind) (length : Nat) :
    Follows (plainToken kind c.offset.toUInt32) (c.skip length).offset .ofToken
      (c.lexeme kind length 0 0) := by
  refine (gives_here (fits_offset short (reads.skip length))).bind ?_
  exact follows_token short reads kind length 0 0 (Nat.zero_le length)

/-! ### Quoted names -/

/-- Between the quotes, reading goes on at the first character that may not stand there. -/
theorem gives_quoted {inside rest : List Char} {result : Except PlacedFault (UInt32 × UInt32)}
    {j : Nat} (first : c.rest = '\'' :: (inside ++ rest))
    (quotable : ∀ ch ∈ inside, isQuotable ch = true)
    (h : Gives (quotedFrom source c.offset.toUInt32 (c.skip 1).offset (Utf8.byteLength inside) rest)
      (c.skip 1).offset result j) :
    Gives (quoted source) c.offset result j := by
  have content : (c.skip 1).rest = inside ++ rest := by simp [Cursor.skip, first]
  refine (gives_here (fits_offset short reads)).bind ?_
  refine (gives_consume reads first rfl).bind ?_
  refine (gives_get _).bind ?_
  refine (gives_textFrom (reads.skip 1) _).bind ?_
  rw [content, quotedFrom_append _ _ _ quotable, Nat.zero_add]
  exact h

/-- Without a closing quote the index goes to the end of the source. -/
theorem gives_quoted_unclosed {inside : List Char} (first : c.rest = '\'' :: (inside ++ []))
    (quotable : ∀ ch ∈ inside, isQuotable ch = true) :
    Gives (quoted source) c.offset
      (.error (.ofError ⟨.unclosedName, .between c.offset (c.skip (1 + inside.length)).offset⟩))
      (c.skip (1 + inside.length)).offset := by
  have fits := fits_offset short (reads.skip (1 + inside.length))
  refine gives_quoted short reads first quotable ((gives_set _ _).bind ?_)
  rw [← (reads.skip (1 + inside.length)).offset_of_rest_nil (rest_skip_inside first)]
  exact gives_refuse_here (fits_offset short reads) fits .unclosedName

theorem gives_quoted_closed {inside rest : List Char}
    (first : c.rest = '\'' :: (inside ++ '\'' :: rest))
    (quotable : ∀ ch ∈ inside, isQuotable ch = true) :
    Gives (quoted source) c.offset
      (.ok ((c.skip 1).offset.toUInt32, (c.skip (1 + inside.length)).offset.toUInt32))
      (c.skip (1 + inside.length + 1)).offset := by
  have behind : (c.skip (1 + inside.length + 1)).offset =
      (c.skip (1 + inside.length)).offset + 1 := by
    rw [← Cursor.skip_skip, Cursor.skip, rest_skip_inside first]
    rfl
  refine gives_quoted short reads first quotable ((gives_set _ _).bind ?_)
  rw [← offset_skip_inside first, ← behind]
  exact (gives_word (fits_offset short (reads.skip 1)) _).bind
    ((gives_word (fits_offset short (reads.skip (1 + inside.length))) _).bind rfl)

/-- A control character leaves the index behind the opening quote. -/
theorem gives_quoted_control {inside rest : List Char} {ch : Char}
    (first : c.rest = '\'' :: (inside ++ ch :: rest))
    (quotable : ∀ ch ∈ inside, isQuotable ch = true) (tick : ch ≠ '\'')
    (control : Token.isControl ch = true) :
    Gives (quoted source) c.offset
      (.error (.ofError ⟨.controlInName, .between (c.skip (1 + inside.length)).offset
        ((c.skip (1 + inside.length)).offset + ch.utf8Size)⟩))
      (c.skip 1).offset := by
  have readsStop := reads.skip (1 + inside.length)
  refine gives_quoted short reads first quotable ?_
  rw [quotedFrom, if_neg (by simpa using tick), if_pos control, ← offset_skip_inside first]
  exact (gives_word (fits_offset short readsStop) _).bind
    (gives_refuse_character short readsStop (rest_skip_inside first) .controlInName _)

/-- The quotes and the text between them, from the first quote on. -/
theorem follows_quoted (kind : Token.Kind) {opening more : List Char}
    (first : c.rest = opening ++ '\'' :: more) :
    Follows (quoted source >>= fun text => token kind c.offset.toUInt32 text.1 text.2)
      (c.skip opening.length).offset .ofToken (c.scanQuoted kind (opening.length + 1)) := by
  obtain ⟨inside, rest, rfl, quotable, taken⟩ := Cursor.exists_run isQuotable more
  have quote : (c.skip opening.length).rest = '\'' :: (inside ++ rest) := by
    simp [Cursor.skip, first]
  have content : (c.skip (opening.length + 1)).rest = inside ++ rest := by
    rw [← Cursor.skip_skip]
    simp [Cursor.skip, first]
  have stop := rest_skip_inside quote
  have readsQuote := reads.skip opening.length
  simp only [Cursor.scanQuoted, content, taken, Nat.add_sub_cancel]
  simp only [Cursor.skip_skip, ← Nat.add_assoc] at stop ⊢
  rw [stop]
  cases rest with
  | nil =>
    have refusal := gives_quoted_unclosed short readsQuote quote quotable
    simp only [Cursor.skip_skip, ← Nat.add_assoc] at refusal
    exact refusal.refused
  | cons ch rest =>
    by_cases tick : ch = '\''
    · subst tick
      have read := gives_quoted_closed short readsQuote quote quotable
      simp only [Cursor.skip_skip, ← Nat.add_assoc] at read
      simp only [beq_self_eq_true, if_true]
      exact read.bind (follows_token short reads kind (opening.length + 1 + inside.length + 1)
        (opening.length + 1) 1 (by omega))
    · have control : Token.isControl ch = true := by
        have stops := Cursor.stopsAt_of_takeWhile quotable taken ch rfl
        simpa [isQuotable, tick] using stops
      have refusal := gives_quoted_control short readsQuote quote quotable tick control
      simp only [Cursor.skip_skip, ← Nat.add_assoc] at refusal
      simp only [beq_iff_eq, tick, if_false]
      exact refusal.refused

/-! ### Strings and names -/

theorem follows_string {more : List Char} (first : c.rest = '"' :: more) :
    Follows (string source c.offset.toUInt32) c.offset .ofToken c.scanString := by
  have readsInside := reads.skip 1
  refine (gives_consume reads first rfl).bind ?_
  refine (gives_here (fits_offset short readsInside)).bind ?_
  refine (gives_skipRun readsInside tests_isStringPart).bind ?_
  refine (gives_current _).bind ?_
  rw [Cursor.scanString]
  generalize ((c.skip 1).rest.takeWhile Token.isStringPart).length = length
  have readsStop := readsInside.skip length
  have fits := fits_offset short readsStop
  have unclosed : Follows (do refuse .unclosedString (.between c.offset.toUInt32 (← here)))
      ((c.skip 1).skip length).offset PlacedToken.ofToken
      (c.refuse .unclosedString ((c.skip 1).skip length).offset ((c.skip 1).skip length)) :=
    gives_refuse_here (fits_offset short reads) fits .unclosedString
  cases here : byteAt? source ((c.skip 1).skip length).offset with
  | none =>
    simp only [rest_of_byteAt?_none readsStop here]
    exact unclosed
  | some b =>
    obtain ⟨ch, rest, stop, stands⟩ := exists_first readsStop here
    have quote : isByte '"' b = (ch == '"') := isByte_of_stands stands (by decide)
    have feed : isByte '\n' b = (ch == '\n') := isByte_of_stands stands (by decide)
    have back : isByte '\r' b = (ch == '\r') := isByte_of_stands stands (by decide)
    simp only [stop, quote, feed, back]
    split
    · next closes =>
      rw [beq_iff_eq.mp closes] at stop
      have inside : (c.skip 1).skip length = c.skip (length + 2 - 1) := by
        rw [Cursor.skip_skip, Nat.add_comm]
        rfl
      have behind : ((c.skip 1).skip length).skip 1 = c.skip (length + 2) := by
        rw [inside, Cursor.skip_skip]
        rfl
      refine (gives_here fits).bind ((gives_consume readsStop stop rfl).bind ?_)
      rw [behind, inside]
      exact follows_token short reads .string (length + 2) 1 1 (by omega)
    · split
      · exact unclosed
      · have size := Char.utf8Size_pos ch
        have behind := fits_of_le short (readsStop.hasPlace_add stop).le_utf8ByteSize
        have next : ((c.skip 1).skip length).offset + 1 < UInt32.size := by omega
        exact (gives_here fits).bind ((gives_sum next _).bind
          (gives_refuse fits next .unprintableInString _))

theorem follows_name {sigil : Sigil} {more : List Char} (first : c.rest = sigil.char :: more) :
    Follows (name source sigil c.offset.toUInt32) c.offset .ofToken (c.scanName sigil) := by
  have readsInside := reads.skip 1
  have fits := fits_offset short readsInside
  have single : sigil.char.utf8Size = 1 := by cases sigil <;> rfl
  refine (gives_consume reads first single).bind ?_
  refine (gives_current _).bind ?_
  have bare : Follows (do refuse (.bareSigil sigil) (.between c.offset.toUInt32 (← here)))
      (c.skip 1).offset PlacedToken.ofToken
      (c.refuse (.bareSigil sigil) (c.skip 1).offset (c.skip 1)) :=
    gives_refuse_here (fits_offset short reads) fits (.bareSigil sigil)
  rw [Cursor.scanName]
  cases here : byteAt? source (c.skip 1).offset with
  | none =>
    simp only [rest_of_byteAt?_none readsInside here]
    exact bare
  | some b =>
    obtain ⟨ch, rest, stop, stands⟩ := exists_first readsInside here
    have quote : isByte '\'' b = (ch == '\'') := isByte_of_stands stands (by decide)
    simp only [stop, quote, tests_isWordStart.of_stands stands]
    split
    · next opens =>
      have quoted : c.rest = [sigil.char] ++ '\'' :: rest := by
        rw [beq_iff_eq.mp opens] at stop
        simpa [Cursor.skip, first] using stop
      have read := follows_quoted short reads (.name sigil) quoted
      exact read
    · split
      · refine (gives_here fits).bind ((gives_skipRun readsInside tests_isWordPart).bind ?_)
        rw [← stop]
        generalize ((c.skip 1).rest.takeWhile Token.isWordPart).length = length
        rw [Cursor.skip_skip]
        refine (gives_here (fits_offset short (reads.skip _))).bind ?_
        exact follows_token short reads (.name sigil) (1 + length) 1 0 (by omega)
      · exact bare

theorem follows_stray {ch : Char} {rest : List Char} (first : c.rest = ch :: rest) :
    Follows (stray source c.offset.toUInt32) c.offset .ofToken
      (c.refuse (.strayCharacter ch) (c.offset + ch.utf8Size) c) := by
  have text : Gives (liftM (textFrom source c.offset.toUInt32.toNat)) c.offset (.ok (ch :: rest))
      c.offset := by
    rw [toNat_toUInt32 (fits_offset short reads), ← first]
    exact gives_textFrom reads _
  exact text.bind (gives_refuse_character short reads first (.strayCharacter ch) _)

/-! ### Any token -/

/-- An equals sign begins an arrow or stands for itself. -/
theorem follows_equals {rest : List Char} (first : c.rest = '=' :: rest) :
    Follows (tokenAt source c.offset.toUInt32 '='.toUInt8) c.offset .ofToken (c.scanAt '=') := by
  refine (gives_consume reads first rfl).bind ((gives_current _).bind ?_)
  rw [any_byteAt? (reads.skip 1) (by decide), Cursor.head?_skip]
  have scanned : c.scanAt '=' = if c.rest[1]? == some '>' then c.lexeme .arrow 2 0 0
      else c.lexeme .equals 1 0 0 := rfl
  rw [scanned]
  split
  · next arrow =>
    have second := (Cursor.head?_skip 1 c).trans (beq_iff_eq.mp arrow)
    obtain ⟨more, follows⟩ := List.head?_eq_some_iff.mp second
    refine (gives_consume (reads.skip 1) follows rfl).bind ?_
    rw [Cursor.skip_skip]
    exact follows_plainToken short reads .arrow 2
  · exact follows_plainToken short reads .equals 1

theorem follows_tokenAt {ch : Char} {rest : List Char} {b : UInt8} (first : c.rest = ch :: rest)
    (stands : Utf8.Stands b ch) :
    Follows (tokenAt source c.offset.toUInt32 b) c.offset .ofToken (c.scanAt ch) := by
  have mark := tests_ofMark?.of_stands stands
  have named := tests_ofChar?.of_stands stands
  have equals : isByte '=' b = (ch == '=') := isByte_of_stands stands (by decide)
  have quote : isByte '"' b = (ch == '"') := isByte_of_stands stands (by decide)
  have tick : isByte '\'' b = (ch == '\'') := isByte_of_stands stands (by decide)
  by_cases isEquals : ch = '='
  · subst isEquals
    rw [beq_self_eq_true] at equals
    rw [beq_iff_eq.mp equals]
    exact follows_equals short reads first
  simp only [tokenAt, mark, named, equals, quote, tick, tests_isDigit.of_stands stands,
    tests_isWordStart.of_stands stands]
  cases isMark : Token.Kind.ofMark? ch with
  | some kind =>
    rw [scanAt_of_ofMark? isMark]
    exact (gives_consume reads first (utf8Size_of_ofMark? isMark)).bind
      (follows_plainToken short reads kind 1)
  | none =>
    cases isSigil : Sigil.ofChar? ch with
    | some sigil =>
      obtain rfl := Sigil.ofChar?_eq_some_iff.mp isSigil
      have read := follows_name short reads first
      rw [← Cursor.scanAt_sigil] at read
      cases sigil <;> exact read
    | none =>
      simp only [Cursor.scanAt, isMark, isSigil, beq_iff_eq, isEquals, if_false]
      split
      · next isQuote =>
        subst isQuote
        exact follows_string short reads first
      split
      · next isTick =>
        subst isTick
        have quoted : c.rest = [] ++ '\'' :: rest := first
        have read := follows_quoted short reads .quoted quoted
        rwa [List.length_nil, Cursor.skip_zero] at read
      split
      · refine (gives_skipRun reads tests_isDigit).bind ?_
        exact follows_plainToken short reads .integer _
      split
      · refine (gives_skipRun reads tests_isWordPart).bind ?_
        exact follows_plainToken short reads .word _
      · exact follows_stray short reads first

theorem follows_nextToken : Follows (nextToken source) c.offset .ofToken c.scan := by
  have readsToken := reads.skipTrivia
  refine (gives_of_run (run_skipTrivia reads)).bind ?_
  refine (gives_here (fits_offset short readsToken)).bind ?_
  refine (gives_current _).bind ?_
  rw [Cursor.scan]
  cases here : byteAt? source c.skipTrivia.offset with
  | none =>
    have last := follows_plainToken short readsToken .endOfInput 0
    simp only [rest_of_byteAt?_none readsToken here]
    rwa [Cursor.skip_zero] at last
  | some b =>
    obtain ⟨ch, rest, first, stands⟩ := exists_first readsToken here
    simp only [first]
    exact follows_tokenAt short readsToken first stands

/-! ### Bytes -/

/-- Two digits are read as the cursor reads them, and a third is refused. -/
theorem follows_byteOf {first second : Char} {rest : List Char} {high low : UInt8}
    (digits : c.rest = first :: second :: rest) (isHigh : Token.hexDigit? first = some high)
    (isLow : Token.hexDigit? second = some low) (i : Nat) :
    Follows (byteOf source c.offset high low) i ofByte
      (if ((c.skip 2).rest.head?.bind Token.hexDigit?).isSome then
        c.refuse .longByte ((c.skip 2).offset + 1) (c.skip 2)
      else (.ok (high * 16 + low, .between c.offset (c.skip 2).offset), c.skip 2)) := by
  have stop : (c.skip 2).offset = c.offset + 2 := by
    simp [Cursor.skip, digits, Utf8.utf8Size_eq_one_of_lt (lt_of_hexDigit? isHigh),
      Utf8.utf8Size_eq_one_of_lt (lt_of_hexDigit? isLow)]
  have readsStop := reads.skip 2
  have fits := fits_offset short reads
  have fitsStop := fits_offset short readsStop
  refine (gives_set _ _).bind ?_
  rw [← stop]
  refine (gives_current _).bind ?_
  rw [bind_hexDigit? readsStop]
  split
  · next more =>
    obtain ⟨value, isThird⟩ := Option.isSome_iff_exists.mp more
    obtain ⟨third, head, digit⟩ := Option.bind_eq_some_iff.mp isThird
    obtain ⟨rest', follows⟩ := List.head?_eq_some_iff.mp head
    have behind := fits_of_le short (readsStop.hasPlace_add follows).le_utf8ByteSize
    rw [Utf8.utf8Size_eq_one_of_lt (lt_of_hexDigit? digit)] at behind
    exact (gives_word fits _).bind ((gives_here fitsStop).bind ((gives_sum behind _).bind
      (gives_refuse fits behind .longByte _)))
  · refine (gives_word fits _).bind ((gives_here fitsStop).bind ?_)
    rw [shift_or_eq (toNat_lt_of_hexDigit? isHigh) (toNat_lt_of_hexDigit? isLow),
      between_toUInt32 fits fitsStop]
    rfl

theorem follows_hexByte : Follows (hexByte source) c.offset ofByte c.scanByte := by
  have readsByte := reads.skipTrivia
  refine (gives_of_run (run_skipTrivia reads)).bind ((gives_get _).bind ((gives_current _).bind ?_))
  rw [bind_hexDigit? readsByte, Cursor.scanByte]
  have refusal : Follows (do refuse .noDataElement (.point (← word c.skipTrivia.offset)))
      c.skipTrivia.offset ofByte
      (c.skipTrivia.refuse .noDataElement c.skipTrivia.offset c.skipTrivia) := by
    refine (gives_word (fits_offset short readsByte) _).bind ?_
    rw [Cursor.refuse, Extent.between_self]
    rfl
  cases isHigh : c.skipTrivia.rest.head?.bind Token.hexDigit? with
  | none => exact refusal
  | some high =>
    obtain ⟨first, head, digit⟩ := Option.bind_eq_some_iff.mp isHigh
    obtain ⟨rest, starts⟩ := List.head?_eq_some_iff.mp head
    -- The byte behind a digit is the next character's, since a digit is one byte.
    have second : (c.skipTrivia.skip 1).offset = c.skipTrivia.offset + 1 := by
      simp [Cursor.skip, starts, Utf8.utf8Size_eq_one_of_lt (lt_of_hexDigit? digit)]
    rw [← second, bind_hexDigit? (readsByte.skip 1), Cursor.head?_skip]
    cases isLow : c.skipTrivia.rest[1]?.bind Token.hexDigit? with
    | none => exact refusal
    | some low =>
      obtain ⟨second, follows, digit'⟩ := Option.bind_eq_some_iff.mp isLow
      obtain ⟨more, starts'⟩ : ∃ more, rest = second :: more := by
        rw [starts, List.getElem?_cons_succ, ← List.head?_eq_getElem?] at follows
        exact List.head?_eq_some_iff.mp follows
      exact follows_byteOf short readsByte (starts.trans (congrArg _ starts')) digit digit' _

end

/-! ## Queries -/

section

variable (short : source.utf8ByteSize ≤ maxSourceBytes)

include short

/-- A query is answered as it is by the cursor at the same place, and the reader stops where the
cursor does. -/
theorem run_ask (reads : (Cursor.ofString source).ReadsTo c) (query : Query) :
    (ask source query).run c.offset =
      .ok (.ofAnswer (c.ask query).1, (c.ask query).2.offset) := by
  have token := follows_nextToken short reads
  have trivia := run_skipTrivia reads
  cases query with
  | token => exact run_bind_of_ok token
  | byte => exact run_bind_of_ok (follows_hexByte short reads)
  | peek =>
    have index : (get : ByteReader Nat).run c.offset = .ok (c.offset, c.offset) := rfl
    exact (run_bind_of_ok index).trans (run_bind_of_ok token)
  | offset =>
    have place := run_here (fits_offset short reads.skipTrivia)
    exact (run_bind_of_ok trivia).trans (run_bind_of_ok place)
  | firstByte =>
    have byte : (current? source).run c.skipTrivia.offset =
        .ok (c.peekByte, c.skipTrivia.offset) := by
      have same : byteAt? source c.skipTrivia.offset = c.peekByte :=
        byteAt?_offset reads.skipTrivia
      rw [← same]
      rfl
    exact (run_bind_of_ok trivia).trans (run_bind_of_ok byte)

/-- All queries are answered as they are by the cursor. -/
theorem run_askAll (reads : (Cursor.ofString source).ReadsTo c) (queries : List Query) :
    (askAll source queries).run c.offset =
      .ok ((c.askAll queries).1.map .ofAnswer, (c.askAll queries).2.offset) := by
  induction queries generalizing c with
  | nil => rfl
  | cons query queries ih =>
    have others := ih (reads.trans (c.readsTo_ask query))
    rw [askAll, List.mapM_cons, run_bind_of_ok (run_ask short reads query)]
    exact run_bind_of_ok others

end

end ByteReader

end SigilAsm
