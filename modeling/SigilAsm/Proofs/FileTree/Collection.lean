import SigilAsm.FileTree.Collection
import SigilAsm.Text.Utf8

/-! # Collected sources

What is collected below a directory are its source files, each with its text, in
the order of their locations.
-/

namespace SigilAsm

/-! ## The order of locations -/

instance : Std.TransCmp Path.compareText :=
  have _characters : Std.TransCmp fun x y : Char => compareOfLessAndEq x.toNat y.toNat :=
    inferInstanceAs (Std.TransCmp (compareOn Char.toNat))
  have texts : Std.TransCmp
      (List.compareLex fun x y : Char => compareOfLessAndEq x.toNat y.toNat) := inferInstance
  { eq_swap := texts.eq_swap, isLE_trans := texts.isLE_trans }

theorem Found.before_trans (a b c : Location × List UInt8) (h : before a b = true)
    (h' : before b c = true) : before a c = true :=
  Std.TransCmp.isLE_trans h h'

theorem Found.before_total (a b : Location × List UInt8) : (before a b || before b a) = true := by
  have swapped : List.compareLex Path.compareText b.1 a.1 =
      (List.compareLex Path.compareText a.1 b.1).swap := Std.OrientedCmp.eq_swap
  rw [before, before, swapped]
  cases List.compareLex Path.compareText a.1 b.1 <;> rfl

/-! ## Reading all of a list -/

section Reading

variable {ε α β γ : Type} {f : α → Except ε β} {a : α} {as : List α} {bs : List β}

theorem mapM_cons_eq_ok : (a :: as).mapM f = .ok bs ↔
    ∃ b bs', f a = .ok b ∧ as.mapM f = .ok bs' ∧ bs = b :: bs' := by
  rw [List.mapM_cons]
  cases first : f a with
  | error e => simp [bind, Except.bind]
  | ok b =>
    cases others : as.mapM f with
    | error e => simp [bind, Except.bind]
    | ok bs' => simp [bind, Except.bind, pure, Except.pure, eq_comm]

theorem exists_mapM_eq_ok (all : ∀ a ∈ as, ∃ b, f a = .ok b) : ∃ bs, as.mapM f = .ok bs := by
  induction as with
  | nil => exact ⟨[], rfl⟩
  | cons a as ih =>
    obtain ⟨b, first⟩ := all a List.mem_cons_self
    obtain ⟨bs, others⟩ := ih fun a member => all a (List.mem_cons_of_mem _ member)
    exact ⟨b :: bs, mapM_cons_eq_ok.mpr ⟨b, bs, first, others, rfl⟩⟩

/-- If elements of a list can only fail in one way, and one does, the list fails in this way. -/
theorem mapM_eq_error {e : ε} (only : ∀ a e', f a = .error e' → e' = e)
    (fails : ∃ a ∈ as, ∃ e', f a = .error e') :
    as.mapM f = .error e := by
  induction as with
  | nil => simp at fails
  | cons a as ih =>
    rw [List.mapM_cons]
    cases first : f a with
    | error e' =>
      rw [only a e' first]
      rfl
    | ok b =>
      have later : ∃ a ∈ as, ∃ e', f a = .error e' := by simpa [first] using fails
      rw [ih later]
      rfl

theorem map_eq_of_mapM_eq_ok {g : β → γ} {h : α → γ} (agree : ∀ a b, f a = .ok b → g b = h a)
    (taken : as.mapM f = .ok bs) : bs.map g = as.map h := by
  induction as generalizing bs with
  | nil =>
    cases taken
    rfl
  | cons a as ih =>
    obtain ⟨b, bs', first, others, rfl⟩ := mapM_cons_eq_ok.mp taken
    rw [List.map_cons, List.map_cons, agree a b first, ih others]

end Reading

/-- Texts are read back from files. -/
theorem textOf_encode (text : String) : textOf (Utf8.encode text.toList) = .ok text := by
  have bytes : (⟨(Utf8.encode text.toList).toArray⟩ : ByteArray) =
      (Utf8.encode text.toList).toByteArray := ByteArray.ext List.data_toByteArray.symm
  rw [textOf, bytes, Utf8.fromUTF8?_encode]

theorem encode_of_textOf {contents : List UInt8} {text : String}
    (read : textOf contents = .ok text) : Utf8.encode text.toList = contents := by
  rw [textOf] at read
  split at read
  next found valid =>
    cases read
    rw [String.fromUTF8?] at valid
    split at valid
    next isValid =>
      have bytes : text.toByteArray = ⟨contents.toArray⟩ := by
        rw [← Option.some.inj valid]
        rfl
      rw [← Utf8.toByteArray_encode] at bytes
      have data := congrArg ByteArray.data bytes
      rw [List.data_toByteArray] at data
      exact congrArg Array.toList data
    next => cases valid
  next => cases read

theorem textOf_eq_ok_iff {contents : List UInt8} {text : String} :
    textOf contents = .ok text ↔ Utf8.encode text.toList = contents :=
  ⟨encode_of_textOf, fun same => same ▸ textOf_encode text⟩

theorem textOf_eq_error_iff {contents : List UInt8} {fault : FileFault} :
    textOf contents = .error fault ↔
      fault = .notText ∧ ∀ text : String, Utf8.encode text.toList ≠ contents := by
  cases read : textOf contents with
  | ok text => simpa using fun _ => ⟨text, encode_of_textOf read⟩
  | error other =>
    have notText : other = .notText := by
      rw [textOf] at read
      split at read
      · cases read
      · exact (Except.error.inj read).symm
    subst notText
    constructor
    · intro same
      refine ⟨(Except.error.inj same).symm, fun text encoded => ?_⟩
      rw [textOf_eq_ok_iff.mpr encoded] at read
      cases read
    · rintro ⟨rfl, -⟩
      rfl

/-! ## Collections -/

/-- The sources are those among the files, each with its text, in the order of their locations. -/
structure Collected (files : List (Location × List UInt8)) (sources : List SourceFile) : Prop where
  perm : (sources.map fun s => (s.location, (Except.ok s.text : Except FileFault String))).Perm
    ((files.filter fun (l, _) => Found.isSource l).map fun (l, contents) => (l, textOf contents))
  sorted : sources.Pairwise fun a b =>
    (List.compareLex Path.compareText a.location b.location).isLE = true

variable {files : List (Location × List UInt8)} {sources : List SourceFile} {path : String}

theorem collected_of_sources (h : (Found.directory files).sources path = .ok sources) :
    Collected files sources := by
  have texts : sources.map (fun s => (s.location, (Except.ok s.text : Except FileFault String))) =
      ((files.filter fun (l, _) => Found.isSource l).mergeSort Found.before).map
        fun (l, contents) => (l, textOf contents) := by
    refine map_eq_of_mapM_eq_ok (fun file s read => ?_) h
    dsimp only at read
    split at read
    · next text valid =>
      cases read
      simp only [valid]
    · cases read
  constructor
  · rw [texts]
    exact (List.mergeSort_perm _ _).map _
  · have ordered := List.pairwise_mergeSort Found.before_trans Found.before_total
      (files.filter fun (l, _) => Found.isSource l)
    have locations : sources.map (·.location) =
        ((files.filter fun (l, _) => Found.isSource l).mergeSort Found.before).map (·.1) := by
      have firsts := congrArg (List.map Prod.fst) texts
      simpa only [List.map_map, Function.comp_def] using firsts
    rw [← List.pairwise_map (f := SourceFile.location)
      (R := fun a b => (List.compareLex Path.compareText a b).isLE = true), locations]
    exact List.pairwise_map.mpr ordered

theorem exists_sources (path : String)
    (texts : ∀ file ∈ files, Found.isSource file.1 = true → ∃ text, textOf file.2 = .ok text) :
    ∃ sources, (Found.directory files).sources path = .ok sources := by
  refine exists_mapM_eq_ok fun file member => ?_
  obtain ⟨listed, isSource⟩ := List.mem_filter.mp (List.mem_mergeSort.mp member)
  obtain ⟨text, valid⟩ := texts file listed isSource
  exact ⟨⟨file.1, text⟩, by simp only [valid]⟩

namespace Collected

theorem exists_file (h : Collected files sources) {s : SourceFile} (member : s ∈ sources) :
    ∃ contents, (s.location, contents) ∈ files ∧ Found.isSource s.location = true ∧
      textOf contents = .ok s.text := by
  obtain ⟨⟨l, contents⟩, inside, same⟩ :=
    List.mem_map.mp (h.perm.subset (List.mem_map_of_mem member))
  obtain ⟨location, text⟩ := Prod.mk.inj same
  obtain ⟨listed, isSource⟩ := List.mem_filter.mp inside
  exact ⟨contents, location ▸ listed, location ▸ isSource, text⟩

theorem exists_source (h : Collected files sources) {file : Location × List UInt8}
    (member : file ∈ files) (isSource : Found.isSource file.1 = true) :
    ∃ s ∈ sources, s.location = file.1 ∧ textOf file.2 = .ok s.text := by
  have inside := List.mem_map_of_mem (f := fun (l, contents) => (l, textOf contents))
    (List.mem_filter (p := fun (l, _) => Found.isSource l) |>.mpr ⟨member, isSource⟩)
  obtain ⟨s, collected, same⟩ := List.mem_map.mp (h.perm.symm.subset inside)
  obtain ⟨location, text⟩ := Prod.mk.inj same
  exact ⟨s, collected, location, text.symm⟩

theorem perm_locations (h : Collected files sources) : (sources.map SourceFile.location).Perm
    ((files.filter fun file => Found.isSource file.1).map Prod.fst) := by
  have locations := h.perm.map Prod.fst
  rw [List.map_map, List.map_map] at locations
  exact locations

theorem nodup_locations (h : Collected files sources) (distinct : (files.map Prod.fst).Nodup) :
    (sources.map SourceFile.location).Nodup :=
  h.perm_locations.nodup_iff.mpr (distinct.sublist (List.filter_sublist.map _))

end Collected

end SigilAsm
