import SigilAsm.Proofs.Elaboration.Extension
import SigilAsm.Proofs.Grammar.Layout

/-! # Layout and quoting do not matter

An accepted text is accepted in every other layout, and both are taken in alike:
the builder is told the same calls with the same answers, the outline is the
same, and the same problems are reported.

A name whose quotes are left out has to end where it did.  Before a digit it goes
on with it, which makes it another name.
-/

namespace SigilAsm

open Lexeme (CanBeBare CanEndBare)
open Tree.Module (Relayout)

variable {σ : Type} [Builder σ] {settings : Settings} {target : σ} {s s' : String}

/-- Both texts have the same outline, or the same fault, the builder is told the same of both, and
the same problems are reported in the same order, wherever in the texts these stand. -/
structure TakenInAlike (settings : Settings) (target : σ) (s s' : String) : Prop where
  outcome : (elaborate settings target s').1 = (elaborate settings target s).1
  calls : calls settings target s' = calls settings target s
  problems : (elaborate settings target s').2.diagnostics.toList.map (·.problem) =
    (elaborate settings target s).2.diagnostics.toList.map (·.problem)

/-- The same statements with names in other places. -/
theorem elaborate_relocate (target : σ) {items : List Statement} {f : Extent → Extent}
    {stop stop' : Cursor} (read : Statement.read settings.maxDataBytes s = ⟨items, .ok stop⟩)
    (read' : Statement.read settings.maxDataBytes s' = ⟨items.map (·.relocate f), .ok stop'⟩) :
    (elaborate settings target s').1 = (elaborate settings target s).1 ∧
      (elaborate settings target s).2.Relocates f (elaborate settings target s').2 := by
  have run := (Scope.start_relocates f (.ofString s) (.ofString s') settings.vocabulary target).run
    items
  refine ⟨?_, ?_⟩
  · simp only [elaborate, read, read', run.outline]
  · simp only [elaborate, read, read']
    exact run.note _ _

/-- In another layout an accepted text is accepted and taken in alike, if names whose quotes are
left out end where they did. -/
theorem elaborate_relayout (target : σ) (accepted : (elaborate settings target s).1.isOk = true)
    (relayout : Relayout CanEndBare settings.maxDataBytes s s')
    (short : s'.utf8ByteSize ≤ maxSourceBytes) : TakenInAlike settings target s s' := by
  obtain ⟨stop, read⟩ := elaborate_isOk_iff.mp accepted
  obtain ⟨shorter, -⟩ := Statement.exists_isTreeOf_of_read read
  obtain ⟨m, f, tree, tree'⟩ := relayout.exists_isTreeOf
  obtain ⟨stop, read⟩ := tree.read shorter
  obtain ⟨stop', read'⟩ := tree'.read short
  rw [m.statements_relocate] at read'
  obtain ⟨outcome, relocates⟩ := elaborate_relocate target read read'
  obtain ⟨-, recorded⟩ := elaborate_relocate (Logged.start target) read read'
  exact ⟨outcome, by simp only [calls, recorded.target], relocates.problems⟩

/-- A comment, a blank and a name without its quotes. -/
theorem elaborate_relayout_module :
    (elaborate .standard (⟨0⟩ : Counter) "module @'m';").1.isOk = true ∧
      Relayout CanEndBare Settings.standard.maxDataBytes "module @'m';" "#x\nmodule @m ;" ∧
      "#x\nmodule @m ;".utf8ByteSize ≤ maxSourceBytes ∧
      TakenInAlike .standard (⟨0⟩ : Counter) "module @'m';" "#x\nmodule @m ;" := by
  have accepted : (elaborate .standard (⟨0⟩ : Counter) "module @'m';").1.isOk = true := by
    decide +kernel
  have short : "#x\nmodule @m ;".utf8ByteSize ≤ maxSourceBytes := by decide +kernel
  have semicolon : (⟨11, ";".toList⟩ : Cursor).Relaid CanEndBare [.mark .semicolon]
      " ;".toList := by
    have spells : (⟨11, ";".toList⟩ : Cursor).Spells [.mark .semicolon] ⟨12, []⟩ :=
      Cursor.spells_of_lexemes? (show Cursor.lexemes? _ 1 = _ by decide +kernel)
    exact .change [' '] [] [] [';'] [';'] spells (by decide +kernel) ⟨.blank rfl .nil, .nil⟩ .same
      (.nil .nil .nil .nil) rfl
  have name : (⟨6, " @'m';".toList⟩ : Cursor).Relaid CanEndBare
      [.name .global ⟨"m", .between 7 11⟩, .mark .semicolon] " @m ;".toList := by
    have spells : (⟨6, " @'m';".toList⟩ : Cursor).Spells [.name .global ⟨"m", .between 7 11⟩]
        ⟨11, ";".toList⟩ :=
      Cursor.spells_of_lexemes? (show Cursor.lexemes? _ 1 = _ by decide +kernel)
    have free : CanEndBare ['m'] [' ', ';'] := ⟨⟨rfl, nofun⟩, by rintro _ ⟨⟩; rfl⟩
    exact .change [] [' '] [] "@'m'".toList "@m".toList spells (by decide +kernel) ⟨.nil, .nil⟩
      (.unquote free) semicolon rfl
  have all : (Cursor.ofString "module @'m';").Relaid CanEndBare
      [.word "module", .name .global ⟨"m", .between 7 11⟩, .mark .semicolon]
      "#x\nmodule @m ;".toList := by
    have spells : (Cursor.ofString "module @'m';").Spells [.word "module"] ⟨6, " @'m';".toList⟩ :=
      Cursor.spells_of_lexemes? (show Cursor.lexemes? _ 1 = _ by decide +kernel)
    have comment : Filler ('#' :: (['x'] ++ '\n' :: [])) := .comment (by decide) .nil
    exact .change ['#', 'x', '\n'] [] [] "module".toList "module".toList spells (by decide +kernel)
      ⟨comment, .nil⟩ .same name rfl
  have relayout : Relayout CanEndBare Settings.standard.maxDataBytes "module @'m';"
      "#x\nmodule @m ;" := .of_relaid (m := ⟨⟨"m", .between 7 11⟩, []⟩) all nofun
  exact ⟨accepted, relayout, short, elaborate_relayout _ accepted relayout short⟩

/-- Before a digit the quotes around a name cannot be left out, although the name could be written
without them elsewhere: the digit becomes a part of the name. -/
theorem not_takenInAlike_unquoted_before_digit :
    (elaborate .standard (⟨0⟩ : Counter)
        "module @m; function @f \x7b $'nop'1; \x7d").1.isOk = true ∧
      Relayout CanBeBare Settings.standard.maxDataBytes "module @m; function @f \x7b $'nop'1; \x7d"
        "module @m; function @f \x7b $nop1; \x7d" ∧
      "module @m; function @f \x7b $nop1; \x7d".utf8ByteSize ≤ maxSourceBytes ∧
      ¬ TakenInAlike .standard (⟨0⟩ : Counter) "module @m; function @f \x7b $'nop'1; \x7d"
        "module @m; function @f \x7b $nop1; \x7d" := by
  have before : (Cursor.ofString "module @m; function @f \x7b $'nop'1; \x7d").Spells
      [.word "module", .name .global ⟨"m", .between 7 9⟩, .mark .semicolon, .word "function",
        .name .global ⟨"f", .between 20 22⟩, .mark .openBrace] ⟨24, " $'nop'1; \x7d".toList⟩ :=
    Cursor.spells_of_lexemes? (show Cursor.lexemes? _ 6 = _ by decide +kernel)
  have head : (⟨24, " $'nop'1; \x7d".toList⟩ : Cursor).Spells
      [.name .builtin ⟨"nop", .between 25 31⟩] ⟨31, "1; \x7d".toList⟩ :=
    Cursor.spells_of_lexemes? (show Cursor.lexemes? _ 1 = _ by decide +kernel)
  have after : (⟨31, "1; \x7d".toList⟩ : Cursor).Spells
      [.integer 1, .mark .semicolon, .mark .closeBrace] ⟨35, []⟩ :=
    Cursor.spells_of_lexemes? (show Cursor.lexemes? _ 3 = _ by decide +kernel)
  have free : CanBeBare ['n', 'o', 'p'] "1; \x7d".toList := ⟨rfl, List.all_eq_true.mp rfl⟩
  have unquoted : (⟨24, " $'nop'1; \x7d".toList⟩ : Cursor).Relaid CanBeBare
      [.name .builtin ⟨"nop", .between 25 31⟩, .integer 1, .mark .semicolon, .mark .closeBrace]
      " $nop1; \x7d".toList :=
    .change [] [' '] [] "$'nop'".toList "$nop".toList head (by decide +kernel) ⟨.nil, .nil⟩
      (.unquote free) (.refl after .nil) rfl
  have kept : (Cursor.ofString "module @m; function @f \x7b $'nop'1; \x7d").Over
      "module @m; function @f \x7b".toList ⟨24, " $'nop'1; \x7d".toList⟩ := by
    decide +kernel
  have all := Cursor.Relaid.keep before kept unquoted
  refine ⟨by decide +kernel, .of_relaid (m := ⟨⟨"m", .between 7 9⟩, [.function ⟨"f", .between 20 22⟩
    none (some ⟨[], .instructions [.operation ⟨"nop", .between 25 31⟩ [.number 1]]⟩)]⟩) all
    (by simp [Tree.Declaration.Admissible]), by decide +kernel, fun alike => ?_⟩
  exact absurd alike.problems (by decide +kernel)

end SigilAsm
