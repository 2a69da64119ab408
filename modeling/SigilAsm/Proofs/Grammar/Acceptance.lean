import SigilAsm.Proofs.Grammar.Readings
import SigilAsm.Scope.Elaboration

/-! # Which texts are accepted

A text is accepted when it is short enough and is some tree of the grammar
written out.  What is read of it then are the statements of that tree.
-/

namespace SigilAsm

variable {limit : Nat} {source : String}

theorem Statement.read_eq_ok_iff {items : List Statement} {stop : Cursor} :
    Statement.read limit source = ⟨items, .ok stop⟩ ↔
      source.utf8ByteSize ≤ maxSourceBytes ∧ ∃ m : Tree.Module,
        (∀ d ∈ m.declarations, d.Admissible limit) ∧ items = m.statements ∧
        (Cursor.ofString source).Spells m.lexemes stop ∧ Trivia stop.rest [] := by
  unfold Statement.read
  by_cases short : source.utf8ByteSize ≤ maxSourceBytes
  · rw [if_pos short, Grammar.wholeModule_eq_ok_iff]
    simp [short]
  · rw [if_neg short]
    simp [Reading.refuse, short]

/-- Of a text that is a tree written out, the statements of that tree are read. -/
theorem Tree.Module.IsTreeOf.read {m : Tree.Module} (h : m.IsTreeOf limit source)
    (short : source.utf8ByteSize ≤ maxSourceBytes) :
    ∃ stop, Statement.read limit source = ⟨m.statements, .ok stop⟩ := by
  obtain ⟨⟨stop, spells, covers⟩, admissible⟩ := h
  exact ⟨stop, Statement.read_eq_ok_iff.mpr ⟨short, m, admissible, rfl, spells, covers⟩⟩

theorem Statement.exists_isTreeOf_of_read {stop : Cursor}
    (h : (Statement.read limit source).result = .ok stop) :
    source.utf8ByteSize ≤ maxSourceBytes ∧ ∃ m : Tree.Module, m.IsTreeOf limit source := by
  have read : Statement.read limit source = ⟨(Statement.read limit source).items, .ok stop⟩ := by
    rw [← h]
  obtain ⟨short, m, admissible, -, spells, covers⟩ := Statement.read_eq_ok_iff.mp read
  exact ⟨short, m, ⟨stop, spells, covers⟩, admissible⟩

variable {σ : Type} [Builder σ] {settings : Settings} {target : σ}

/-- What is left of a text that is read to its end: the scope that took in its statements. -/
theorem elaborate_of_read (target : σ) {items : List Statement} {stop : Cursor}
    (h : Statement.read settings.maxDataBytes source = ⟨items, .ok stop⟩) :
    ∃ outline event, elaborate settings target source = (.ok outline,
      ((Scope.start (.ofString source) settings.vocabulary target).run items).note event) := by
  simp only [elaborate, h]
  exact ⟨_, _, rfl⟩

theorem elaborate_isOk_iff : (elaborate settings target source).1.isOk = true ↔
    ∃ stop, (Statement.read settings.maxDataBytes source).result = .ok stop := by
  rcases h : Statement.read settings.maxDataBytes source with ⟨items, e | stop⟩
  · simp [elaborate, h, Except.isOk, Except.toBool]
  · simp [elaborate, h, Except.isOk, Except.toBool]

/-- The accepted texts are those that the grammar derives.  Neither the vocabulary nor the builder
nor what is reported has a say in it. -/
theorem elaborate_isOk_iff_exists_tree (settings : Settings) (target : σ) (source : String) :
    (elaborate settings target source).1.isOk = true ↔
      source.utf8ByteSize ≤ maxSourceBytes ∧
        ∃ m : Tree.Module, m.IsTreeOf settings.maxDataBytes source := by
  rw [elaborate_isOk_iff]
  constructor
  · rintro ⟨stop, h⟩
    exact Statement.exists_isTreeOf_of_read h
  · rintro ⟨short, m, h⟩
    obtain ⟨stop, read⟩ := h.read short
    exact ⟨stop, by rw [read]⟩

end SigilAsm
