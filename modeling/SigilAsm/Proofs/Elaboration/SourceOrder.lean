import SigilAsm.Proofs.Elaboration.Growth

/-! # Diagnostics come in source order

What is reported of a text points at names in it, one after the other, and a
fault of form stands after all of them.  Rules report at different moments, some
only after their semicolon, but each statement mentions its names in the order
of the text, and no statement is taken in before the earlier ones are.
-/

namespace SigilAsm

variable {σ : Type} [Builder σ]

/-- The scope of an answer is that which took in the statements, apart from the log. -/
theorem Scope.reports_elaborate (settings : Settings) (target : σ) (source : String) :
    ((Scope.start (.ofString source) settings.vocabulary target).run
      (Statement.read settings.maxDataBytes source).items).Reports []
        (elaborate settings target source).2 := by
  unfold elaborate
  dsimp only
  split
  · exact .refl _
  · exact .note _ _

theorem elaborate_eq_error_iff {settings : Settings} {target : σ} {source : String}
    {e : SyntaxError} : (elaborate settings target source).1 = .error e ↔
      (Statement.read settings.maxDataBytes source).result = .error e := by
  unfold elaborate
  dsimp only
  split
  · next e' refused => simp [refused]
  · next stop accepted => simp [accepted]

/-- Everything that is reported points at a mention of its own in what was read of the text. -/
theorem exists_mentions_of_elaborate (settings : Settings) (target : σ) (source : String) :
    ∃ ls stop, (Cursor.ofString source).Spells ls stop ∧
      List.SublistForall₂ Diagnostic.PointsAt
        (elaborate settings target source).2.diagnostics.toList (ls.flatMap Lexeme.mentions) ∧
      ∀ e, (elaborate settings target source).1 = .error e → stop.offset ≤ e.extent.start := by
  obtain ⟨ls, stop, spells, inOrder, ends⟩ := Statement.situated_read settings.maxDataBytes source
  refine ⟨ls, stop, spells, ?_, fun e refused => ?_⟩
  · obtain ⟨-, diagnostics, -⟩ := elaborate_logged settings target source
    have reported := (Scope.reports_elaborate settings (Logged.start target) source).diagnostics
    obtain ⟨ds, grown, points⟩ := (Scope.grows_run (.start (.ofString source) settings.vocabulary
      (Logged.start target)) (Statement.read settings.maxDataBytes source).items).diagnostics
    rw [← diagnostics, reported, List.append_nil, grown]
    exact sublistForall₂_of_sublist points inOrder
  · rw [elaborate_eq_error_iff.mp refused] at ends
    exact ends.hasPlace_start.offset_le

theorem extents_of_pointsAt {ds : List Diagnostic} {ms : List Mention}
    (h : List.Forall₂ Diagnostic.PointsAt ds ms) :
    ds.map (·.extent) = ms.map (·.ident.extent) := by
  induction h with
  | nil => rfl
  | cons points _ ih => rw [List.map_cons, List.map_cons, points.extent, ih]

/-- Of every text, whether it is accepted or not, the diagnostics point at names of the text: each
covers a whole name with its sigil, says that name, and is about something that is written with
that sigil.  They come in the order of the text and none overlaps another, and the fault of a
refused text stands after all of them. -/
theorem elaborate_in_source_order (settings : Settings) (target : σ) (source : String) :
    (∃ ls stop, (Cursor.ofString source).Spells ls stop ∧
      List.SublistForall₂ Diagnostic.PointsAt
        (elaborate settings target source).2.diagnostics.toList (ls.flatMap Lexeme.mentions)) ∧
    (∀ d ∈ (elaborate settings target source).2.diagnostics.toList,
      d.extent.start < d.extent.stop) ∧
    (elaborate settings target source).2.diagnostics.toList.Pairwise
      (fun d d' => d.extent.Precedes d'.extent) ∧
    ∀ e, (elaborate settings target source).1 = .error e →
      ∀ d ∈ (elaborate settings target source).2.diagnostics.toList,
        d.extent.Precedes e.extent := by
  obtain ⟨ls, stop, spells, points, fault⟩ := exists_mentions_of_elaborate settings target source
  obtain ⟨ms, same, inside⟩ := List.sublistForall₂_iff.mp points
  have extents := extents_of_pointsAt same
  have within : ∀ d ∈ (elaborate settings target source).2.diagnostics.toList,
      d.extent.start < d.extent.stop ∧ d.extent.stop ≤ stop.offset := by
    intro d member
    have covered : d.extent ∈ ms.map (·.ident.extent) := extents ▸ List.mem_map_of_mem member
    obtain ⟨m, inMs, same⟩ := List.mem_map.mp covered
    rw [← same]
    exact (spells.mention_within.2 m (inside.subset inMs)).2
  refine ⟨⟨ls, stop, spells, points⟩, fun d member => (within d member).1, ?_, ?_⟩
  · have ordered : (ms.map (·.ident.extent)).Pairwise Extent.Precedes :=
      List.pairwise_map.mpr (spells.mentions_pairwise.sublist inside)
    rw [← extents] at ordered
    exact List.pairwise_map.mp ordered
  · intro e refused d member
    exact Nat.le_trans (within d member).2 (fault e refused)

end SigilAsm
