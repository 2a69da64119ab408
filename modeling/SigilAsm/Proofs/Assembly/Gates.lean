import SigilAsm.Proofs.Assembly.Output
import SigilAsm.Proofs.Elaboration.SourceOrder

/-! # What is let through

An assembly about which something was reported is refused wherever output could
be made from it, and one about which nothing was reported is let through.  Both
are told by the number in its outline, so this rests on the number being that of
the diagnostics.  Whether the diagnostics are handed out beside an assembly or
left with it makes no other difference, and a fault of form does not lose those
that came before it.
-/

namespace SigilAsm

variable {settings : Settings} {source : String} {a : Assembly}

/-! ## Attempts -/

theorem diagnostics_attempt (settings : Settings) (source : String) :
    (attempt settings source).diagnostics =
      (elaborate settings Program.empty source).2.diagnostics.toList := by
  rcases elaborated : elaborate settings Program.empty source with ⟨e | outline, s⟩
  · simp only [attempt, elaborated]
  · simp only [attempt, elaborated]

/-- The log tells of the diagnostics that are handed out, whatever comes of the source. -/
theorem filterMap_log_attempt (settings : Settings) (source : String) :
    (attempt settings source).log.filterMap LogEvent.diagnostic? =
      (attempt settings source).diagnostics := by
  have counted := counted_elaborate settings Program.empty source
  rcases elaborated : elaborate settings Program.empty source with ⟨e | outline, s⟩
  · rw [elaborated] at counted
    simp only [attempt, elaborated]
    exact counted.log
  · rw [elaborated] at counted
    simp only [attempt, elaborated]
    exact (counted.note _ rfl).log

theorem errorCount_of_attempt (accepted : (attempt settings source).outcome = .ok a) :
    a.outline.errorCount = (attempt settings source).diagnostics.length := by
  rw [diagnostics_attempt]
  rcases elaborated : elaborate settings Program.empty source with ⟨e | outline, s⟩
  · simp only [attempt, elaborated] at accepted
    cases accepted
  · simp only [attempt, elaborated] at accepted
    cases accepted
    exact (errorCount_of_elaborate elaborated).trans Array.length_toList.symm

theorem diagnostics_of_attempt (accepted : (attempt settings source).outcome = .ok a) :
    a.diagnostics = [] := by
  rcases elaborated : elaborate settings Program.empty source with ⟨e | outline, s⟩
  · simp only [attempt, elaborated] at accepted
    cases accepted
  · simp only [attempt, elaborated] at accepted
    cases accepted
    rfl

/-- Whether a source is refused is a matter of its reading alone. -/
theorem attempt_eq_error_iff {e : SyntaxError} :
    (attempt settings source).outcome = .error e ↔
      (Statement.read settings.maxDataBytes source).result = .error e := by
  rw [← @elaborate_eq_error_iff _ _ settings Program.empty source e]
  rcases elaborated : elaborate settings Program.empty source with ⟨e | outline, s⟩
  · simp [attempt, elaborated]
  · simp [attempt, elaborated]

/-! ## Gates -/

namespace Program

theorem lower_isError_iff {p : Program} :
    (∃ f, p.lower = .error f) ↔ maxLayoutBytes < p.dataLayout.total := by
  simp only [lower_eq_error_iff, refusal?]
  split <;> simp [*]

end Program

namespace Assembly

theorem hasErrors_eq_true_iff : a.hasErrors = true ↔ 0 < a.outline.errorCount := by
  simp [hasErrors, Outline.hasErrors, Nat.pos_iff_ne_zero]

theorem hasErrors_eq_false_iff : a.hasErrors = false ↔ a.outline.errorCount = 0 := by
  simp [hasErrors, Outline.hasErrors]

/-- With as many diagnostics as the outline counts, an assembly is refused wherever it is asked for
output; with none it is let through, unless its data is too large for the output format. -/
structure Gated (a : Assembly) : Prop where
  counted : a.diagnostics.length = a.outline.errorCount
  refused : 0 < a.outline.errorCount →
    a.checked = .error (.faulty a.outline.errorCount) ∧
      ∀ format vocabulary, a.emit format vocabulary = .error (.faulty a.outline.errorCount)
  checked : a.outline.errorCount = 0 → a.checked = .ok a
  emitted : a.outline.errorCount = 0 → ∀ vocabulary,
    a.emit .listing vocabulary = .ok (Utf8.encode (a.program.listing vocabulary).toList) ∧
      a.emit .check vocabulary = .ok [] ∧
      ((∃ f, a.emit .wasm vocabulary = .error f) ↔
        Program.maxLayoutBytes < a.program.dataLayout.total)

theorem checked_of_errors (errors : 0 < a.outline.errorCount) :
    a.checked = .error (.faulty a.outline.errorCount) := by
  unfold checked
  split
  next none => exact absurd errors (none ▸ Nat.lt_irrefl 0)
  next => rfl

theorem checked_of_clean (clean : a.outline.errorCount = 0) : a.checked = .ok a := by
  rw [checked, clean]
  rfl

theorem emit_of_errors (errors : 0 < a.outline.errorCount) (format : OutputFormat)
    (vocabulary : Vocabulary) :
    a.emit format vocabulary = .error (.faulty a.outline.errorCount) := by
  unfold emit
  exact if_pos (hasErrors_eq_true_iff.mpr errors)

theorem emit_listing_of_clean (clean : a.outline.errorCount = 0) (vocabulary : Vocabulary) :
    a.emit .listing vocabulary = .ok (Utf8.encode (a.program.listing vocabulary).toList) := by
  rw [emit, hasErrors_eq_false_iff.mpr clean]
  rfl

theorem emit_check_of_clean (clean : a.outline.errorCount = 0) (vocabulary : Vocabulary) :
    a.emit .check vocabulary = .ok [] := by
  rw [emit, hasErrors_eq_false_iff.mpr clean]
  rfl

theorem emit_wasm_of_clean (clean : a.outline.errorCount = 0) (vocabulary : Vocabulary) :
    a.emit .wasm vocabulary = a.program.lower.map (·.encode) := by
  rw [emit, hasErrors_eq_false_iff.mpr clean]
  rfl

theorem emit_wasm_isError_iff (clean : a.outline.errorCount = 0) (vocabulary : Vocabulary) :
    (∃ f, a.emit .wasm vocabulary = .error f) ↔
      Program.maxLayoutBytes < a.program.dataLayout.total := by
  rw [emit_wasm_of_clean clean, ← Program.lower_isError_iff]
  cases a.program.lower <;> simp [Except.map]

theorem gated_of_length (counted : a.diagnostics.length = a.outline.errorCount) : a.Gated where
  counted := counted
  refused errors := ⟨checked_of_errors errors, emit_of_errors errors⟩
  checked := checked_of_clean
  emitted clean vocabulary := ⟨emit_listing_of_clean clean vocabulary,
    emit_check_of_clean clean vocabulary, emit_wasm_isError_iff clean vocabulary⟩

end Assembly

/-! ## Assemblies -/

theorem assemble_eq (settings : Settings) (source : String) :
    assemble settings source =
      (assembleReporting settings source).1.map fun assembly =>
        { assembly with diagnostics := (assembleReporting settings source).2 } :=
  rfl

theorem exists_attempt_of_assemble (assembled : assemble settings source = .ok a) :
    ∃ b, (attempt settings source).outcome = .ok b ∧
      a = { b with diagnostics := (attempt settings source).diagnostics } := by
  cases outcome : (attempt settings source).outcome with
  | error e =>
    simp only [assemble_eq, assembleReporting, outcome] at assembled
    cases assembled
  | ok b =>
    simp only [assemble_eq, assembleReporting, outcome] at assembled
    cases assembled
    exact ⟨b, rfl, rfl⟩

/-- An assembly that keeps its diagnostics has as many as its outline counts, and is refused or let
through by that number.  Handed out beside the assembly, the diagnostics are the same, those that
the log tells of, and so is the assembly otherwise.  A fault of form is the same both ways, and what
was reported before it is handed out. -/
theorem assemble_gated (settings : Settings) (source : String) :
    (∀ a, assemble settings source = .ok a → a.Gated) ∧
    (assembleReporting settings source).2 =
      (attempt settings source).log.filterMap LogEvent.diagnostic? ∧
    ((∃ b, (assembleReporting settings source).1 = .ok b ∧ b.diagnostics = [] ∧
        assemble settings source =
          .ok { b with diagnostics := (assembleReporting settings source).2 }) ∨
      ∃ e, (Statement.read settings.maxDataBytes source).result = .error e ∧
        (assembleReporting settings source).1 = .error (.ofSyntaxError e) ∧
        assemble settings source = .error (.ofSyntaxError e)) := by
  refine ⟨fun a assembled => ?_, (filterMap_log_attempt settings source).symm, ?_⟩
  · obtain ⟨b, accepted, rfl⟩ := exists_attempt_of_assemble assembled
    exact Assembly.gated_of_length (errorCount_of_attempt accepted).symm
  · cases outcome : (attempt settings source).outcome with
    | ok b =>
      refine .inl ⟨b, ?_, diagnostics_of_attempt outcome, ?_⟩
      · simp only [assembleReporting, outcome, Except.mapError]
      · simp only [assemble_eq, assembleReporting, outcome, Except.mapError, Except.map]
    | error e =>
      refine .inr ⟨e, attempt_eq_error_iff.mp outcome, ?_, ?_⟩
      · simp only [assembleReporting, outcome, Except.mapError]
      · simp only [assemble_eq, assembleReporting, outcome, Except.mapError, Except.map]

end SigilAsm
