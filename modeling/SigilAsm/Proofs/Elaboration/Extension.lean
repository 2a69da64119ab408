import SigilAsm.Proofs.Elaboration.Relocation
import SigilAsm.Proofs.Elaboration.SourceOrder
import SigilAsm.Proofs.Grammar.Extension

/-! # Appending text extends a run

When text is appended to an accepted text on a new line, the longer text is
taken in like the shorter one up to the end of the latter, whether or not it is
accepted in the end.  What was told to the builder, what was reported and what
was bound by then stays.
-/

namespace SigilAsm

/-! ## Scopes that nothing was added to -/

namespace Scope

variable {σ : Type} {s t : Scope (Logged σ)}

theorem Grows.of_relocates (h : s.Relocates id t) : s.Grows [] t where
  calls := prefix_of_eq (by rw [h.target])
  globals := prefix_of_eq (by rw [h.globals])
  functions := prefix_of_eq (by rw [h.functions])
  diagnostics := by
    have stays : Diagnostic.relocate id = id := rfl
    exact ⟨[], by rw [h.diagnostics, stays, List.map_id, List.append_nil], .nil⟩

theorem Reports.symm {s t : Scope σ} (h : s.Reports [] t) : t.Reports [] s where
  same := by
    rw [h.same]
    rfl
  diagnostics := by simp only [h.diagnostics, List.append_nil]

end Scope

/-! ## Tables with and without a record -/

theorem NameTable.Alike.eq {α : Type} {t u : NameTable α} (h : t.Alike Eq u) : t = u := by
  have entries : t.entries = u.entries := by
    refine List.forall₂_eq_eq_eq ▸ h.imp fun x y same => ?_
    exact Prod.ext same.1 same.2
  cases t
  cases u
  cases entries
  rfl

variable {σ : Type} [Builder σ] {settings : Settings} {target : σ} {source : String}

/-- The tables hold the answers of the builder, which are the same when they are recorded. -/
theorem tables_elaborate_logged (settings : Settings) (target : σ) (source : String) :
    (elaborate settings (Logged.start target) source).2.globals =
        (elaborate settings target source).2.globals ∧
      (elaborate settings (Logged.start target) source).2.functions =
        (elaborate settings target source).2.functions := by
  obtain ⟨-, related⟩ := elaborate_related (Logged.transparent σ) (a := Logged.start target)
    (b := target) rfl settings source
  have entry (e e' : FunctionEntry)
      (same : HandleRelation.equality.SameFunction e e') : e = e' := by
    obtain ⟨id, signature⟩ := same
    cases e
    cases e'
    cases id
    cases signature
    rfl
  exact ⟨related.alike.globals.eq, (related.alike.functions.mono entry).eq⟩

theorem exists_of_isOk {ε α : Type} {r : Except ε α} (h : r.isOk = true) : ∃ a, r = .ok a := by
  cases r with
  | error e => cases h
  | ok a => exact ⟨a, rfl⟩

theorem outline_of_elaborate {outline : Outline}
    (accepted : (elaborate settings target source).1 = .ok outline) :
    outline = (elaborate settings target source).2.outline := by
  unfold elaborate at accepted ⊢
  dsimp only at accepted ⊢
  split at accepted
  · cases accepted
  · cases accepted
    rfl

/-! ## Longer texts -/

/-- Of the longer text the statements of the shorter one are taken in first, and then others. -/
theorem exists_grows_elaborate_append (target : σ) {s : String} (t : String)
    (accepted : (elaborate settings target s).1.isOk = true)
    (short : (s ++ "\n" ++ t).utf8ByteSize ≤ maxSourceBytes) :
    ∃ ms, (elaborate settings (Logged.start target) s).2.Grows ms
      (elaborate settings (Logged.start target) (s ++ "\n" ++ t)).2 := by
  obtain ⟨stop, read⟩ := elaborate_isOk_iff.mp accepted
  obtain ⟨shorter, m, tree⟩ := Statement.exists_isTreeOf_of_read read
  obtain ⟨stop, read⟩ := tree.read shorter
  obtain ⟨more, longer⟩ := tree.exists_items_read_append t short
  have run := Scope.reports_elaborate settings (Logged.start target) s
  have run' := Scope.reports_elaborate settings (Logged.start target) (s ++ "\n" ++ t)
  rw [read] at run
  rw [longer, Scope.run_append] at run'
  -- Both texts lead to the same scope after the statements of the first, but for lines in the log.
  have same := (Scope.start_relocates id (.ofString s) (.ofString (s ++ "\n" ++ t))
    settings.vocabulary (Logged.start target)).run m.statements
  simp only [Statement.relocate_id, List.map_id'] at same
  have before : (elaborate settings (Logged.start target) s).2.Grows [] _ :=
    .of_reports run.symm .nil
  have after : Scope.Grows [] _ (elaborate settings (Logged.start target) (s ++ "\n" ++ t)).2 :=
    .of_reports run' .nil
  exact ⟨_, (before.trans (.of_relocates same)).trans ((Scope.grows_run _ more).trans after)⟩

/-- Appending text to an accepted text on a new line only extends the run: the builder is told the
same calls first and the same is reported first, and if the longer text is accepted as well, the
globals and functions of the shorter one come first in its tables, with what they were bound to. -/
theorem elaborate_append_line {outline : Outline} {s : String}
    (accepted : (elaborate settings target s).1 = .ok outline) (t : String)
    (short : (s ++ "\n" ++ t).utf8ByteSize ≤ maxSourceBytes) :
    calls settings target s <+: calls settings target (s ++ "\n" ++ t) ∧
      (elaborate settings target s).2.diagnostics.toList <+:
        (elaborate settings target (s ++ "\n" ++ t)).2.diagnostics.toList ∧
      ∀ outline', (elaborate settings target (s ++ "\n" ++ t)).1 = .ok outline' →
        outline.globals.entries <+: outline'.globals.entries ∧
        outline.functions.entries <+: outline'.functions.entries := by
  obtain ⟨ms, grows⟩ := exists_grows_elaborate_append target t (by rw [accepted]; rfl) short
  refine ⟨grows.calls, ?_, fun outline' accepted' => ?_⟩
  · obtain ⟨ds, grown, -⟩ := grows.diagnostics
    rw [← (elaborate_logged settings target s).2.1,
      ← (elaborate_logged settings target (s ++ "\n" ++ t)).2.1, grown]
    exact List.prefix_append _ _
  · obtain ⟨globals, functions⟩ := tables_elaborate_logged settings target s
    obtain ⟨globals', functions'⟩ := tables_elaborate_logged settings target (s ++ "\n" ++ t)
    rw [outline_of_elaborate accepted, outline_of_elaborate accepted']
    simp only [Scope.outline, ← globals, ← globals', ← functions, ← functions']
    exact ⟨grows.globals, grows.functions⟩

/-- A call of an unknown function is reported, also when the function comes after it. -/
theorem elaborate_append_line_function :
    ∃ outline outline',
      (elaborate .standard (⟨0⟩ : Counter) "module @m; function @f { call @g; }").1 =
        .ok outline ∧
      (elaborate .standard (⟨0⟩ : Counter)
        ("module @m; function @f { call @g; }" ++ "\n" ++ "function @g;")).1 = .ok outline' ∧
      outline.functions.entries <+: outline'.functions.entries ∧
      calls .standard (⟨0⟩ : Counter) "module @m; function @f { call @g; }" <+:
        calls .standard (⟨0⟩ : Counter)
          ("module @m; function @f { call @g; }" ++ "\n" ++ "function @g;") := by
  have short : ("module @m; function @f { call @g; }" ++ "\n" ++ "function @g;").utf8ByteSize ≤
      maxSourceBytes := by decide +kernel
  obtain ⟨outline, accepted⟩ := exists_of_isOk (show (elaborate .standard (⟨0⟩ : Counter)
    "module @m; function @f { call @g; }").1.isOk = true by decide +kernel)
  obtain ⟨outline', accepted'⟩ := exists_of_isOk (show (elaborate .standard (⟨0⟩ : Counter)
    ("module @m; function @f { call @g; }" ++ "\n" ++ "function @g;")).1.isOk = true by
      decide +kernel)
  obtain ⟨calls, -, tables⟩ := elaborate_append_line accepted "function @g;" short
  exact ⟨outline, outline', accepted, accepted', (tables outline' accepted').2, calls⟩

end SigilAsm
