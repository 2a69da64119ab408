import Mathlib.Data.List.Sort
import SigilAsm.Proofs.Elaboration.Firsts
import SigilAsm.Proofs.FileTree.Collection
import SigilAsm.Proofs.FileTree.Places

/-! # Nothing is lost and nothing twice

Collecting the sources below a directory fails if one of them is no text, and
otherwise it gives each of them once, in the order of their locations
(`FileTree.Enumerates`).  This tells what is collected from the files alone, so
the order in which a tree lists them makes no difference.
-/

namespace SigilAsm

/-! ## What sources are called -/

namespace Path

theorem extension?_append {stem : String} (some : stem ≠ "") :
    extension? (stem ++ ".ira") = .some sourceExtension := by
  have other : stem ++ ".ira" ≠ ".." := by
    intro same
    have last := congrArg (·.toList.getLast?) same
    simp [String.toList_append] at last
  have letters : ".ira".toList.reverse = ['a', 'r', 'i', '.'] := rfl
  have backwards :
      (stem ++ ".ira").toList.reverse = ['a', 'r', 'i'] ++ '.' :: stem.toList.reverse := by
    rw [String.toList_append, List.reverse_append, letters]
    rfl
  obtain ⟨c, more, full⟩ : ∃ c more, stem.toList.reverse = c :: more := by
    refine List.exists_cons_of_ne_nil fun nothing => some ?_
    exact String.toList_eq_nil_iff.mp (List.reverse_eq_nil_iff.mp nothing)
  rw [extension?, splitExtension, if_neg other, backwards, full]
  rfl

theorem ne_empty_of_splitExtension {name stem extension : String}
    (split : splitExtension name = (stem, some extension)) : stem ≠ "" := by
  unfold splitExtension at split
  split at split
  · cases split
  · dsimp only at split
    split at split
    · cases split
    · cases split
    next dot before full _ =>
      obtain ⟨rfl, -⟩ := Prod.mk.inj split
      intro nothing
      have characters := congrArg String.toList nothing
      rw [String.toList_ofList] at characters
      exact full (List.reverse_eq_nil_iff.mp characters)

theorem extension?_eq_some_iff {name : String} :
    extension? name = some sourceExtension ↔ ∃ stem, stem ≠ "" ∧ name = stem ++ ".ira" := by
  constructor
  · intro found
    have split : splitExtension name = ((splitExtension name).1, some sourceExtension) :=
      Prod.ext rfl found
    refine ⟨_, ne_empty_of_splitExtension split, (splitExtension_eq split).trans ?_⟩
    rw [String.append_assoc]
    rfl
  · rintro ⟨stem, some, rfl⟩
    exact extension?_append some

end Path

namespace Location

/-- The last name ends in `.ira`, and something stands before that. -/
def IsSource (l : Location) : Prop := ∃ above stem, stem ≠ "" ∧ l = above ++ [stem ++ ".ira"]

theorem isSource_iff {l : Location} : Found.isSource l = true ↔ l.IsSource := by
  rw [Found.isSource]
  constructor
  · intro isSource
    split at isSource
    next name last =>
      obtain ⟨stem, some, rfl⟩ := Path.extension?_eq_some_iff.mp (beq_iff_eq.mp isSource)
      exact ⟨l.dropLast, stem, some, (List.dropLast_append_getLast? _ last).symm⟩
    next => cases isSource
  · rintro ⟨above, stem, some, rfl⟩
    simp [Path.extension?_append some]

end Location

/-! ## Order -/

theorem compareLex_eq_lt_iff {α : Type} {cmp : α → α → Ordering} [Std.LawfulEqCmp cmp]
    {as bs : List α} :
    List.compareLex cmp as bs = .lt ↔ List.Lex (fun a b => cmp a b = .lt) as bs := by
  induction as generalizing bs with
  | nil =>
    cases bs with
    | nil => simp [List.compareLex_nil_nil]
    | cons b bs => simp [List.compareLex_nil_cons]
  | cons a as ih =>
    cases bs with
    | nil => simp [List.compareLex_cons_nil]
    | cons b bs =>
      rw [List.compareLex_cons_cons, Ordering.then_eq_lt, ih, List.cons_lex_cons_iff,
        Std.LawfulEqCmp.compare_eq_iff_eq]

instance lawfulEqCmp_toNat :
    Std.LawfulEqCmp fun c d : Char => compareOfLessAndEq c.toNat d.toNat where
  compare_self := by simp [compareOfLessAndEq]
  eq_of_compare same := Char.toNat_inj.mp (by
    rw [compareOfLessAndEq] at same
    split at same
    · cases same
    · split at same
      · assumption
      · cases same)

instance lawfulEqCmp_compareText : Std.LawfulEqCmp Path.compareText where
  eq_of_compare same := String.toList_inj.mp (Std.LawfulEqCmp.eq_of_compare same)
  compare_self {a} := by
    have same : List.compareLex (fun c d : Char => compareOfLessAndEq c.toNat d.toNat)
        a.toList a.toList = .eq := Std.ReflCmp.compare_self
    exact same

namespace Location

/-- Names are ordered by the first character that differs, and those that a name begins with come
before it. -/
def NameBefore (a b : String) : Prop :=
  List.Lex (fun c d : Char => c.toNat < d.toNat) a.toList b.toList

/-- Locations are ordered by the first name that differs, and what lies above a location comes
before it. -/
def Before (a b : Location) : Prop := List.Lex NameBefore a b

theorem nameBefore_iff {a b : String} : NameBefore a b ↔ Path.compareText a b = .lt := by
  rw [Path.compareText, compareLex_eq_lt_iff]
  simp only [compareOfLessAndEq_eq_lt]
  rfl

theorem before_iff {a b : Location} :
    Before a b ↔ List.compareLex Path.compareText a b = .lt := by
  rw [compareLex_eq_lt_iff]
  simp only [← nameBefore_iff]
  rfl

/-- Names are compared one by one, and not the texts of the paths. -/
example : Before ["a", "x"] ["a b"] ∧ Before ["a b"] ["a-b", "x"] := by
  rw [before_iff, before_iff]
  decide

theorem Before.asymm {a b : Location} (before : Before a b) : ¬ Before b a := by
  have swapped : List.compareLex Path.compareText b a =
      (List.compareLex Path.compareText a b).swap := Std.OrientedCmp.eq_swap
  rw [before_iff, swapped, before_iff.mp before]
  nofun

theorem before_of_isLE {a b : Location}
    (ordered : (List.compareLex Path.compareText a b).isLE = true) (apart : a ≠ b) :
    Before a b := by
  rw [before_iff]
  cases compared : List.compareLex Path.compareText a b with
  | lt => rfl
  | eq => exact absurd (Std.LawfulEqCmp.eq_of_compare compared) apart
  | gt => rw [compared] at ordered; cases ordered

end Location

/-! ## Files -/

namespace FileTree

variable {t t' : FileTree} {l : Location}

theorem mem_filesBelow_iff {file : Location × List UInt8} :
    file ∈ t.filesBelow l ↔ (l ++ file.1, file.2) ∈ t.files := by
  constructor
  · intro member
    obtain ⟨listed, inside, rfl⟩ := List.mem_map.mp member
    obtain ⟨here, below⟩ := List.mem_filter.mp inside
    obtain ⟨rest, whole⟩ := List.isPrefixOf_iff_prefix.mp below
    have same : l ++ listed.1.drop l.length = listed.1 := by
      rw [← whole, List.drop_left]
    exact (congrArg (·, listed.2) same).symm ▸ here
  · intro member
    refine List.mem_map.mpr ⟨_, List.mem_filter.mpr ⟨member, ?_⟩, ?_⟩
    · exact List.isPrefixOf_iff_prefix.mpr (List.prefix_append l file.1)
    · exact congrArg (·, file.2) List.drop_left

/-- The two trees list the same files and directories, each in its own order. -/
structure SameEntries (t t' : FileTree) : Prop where
  files : t.files.Perm t'.files
  directories : t.directories.Perm t'.directories

namespace SameEntries

theorem distinct (same : SameEntries t t') (distinct : (t.files.map Prod.fst).Nodup) :
    (t'.files.map Prod.fst).Nodup := (same.files.map Prod.fst).nodup_iff.mp distinct

theorem lookup (same : SameEntries t t') (distinct : (t.files.map Prod.fst).Nodup)
    (place : Location) : t'.files.lookup place = t.files.lookup place := by
  cases here : t.files.lookup place with
  | none =>
    rw [List.lookup_eq_none_iff] at here ⊢
    exact fun file member => here file (same.files.mem_iff.mpr member)
  | some contents =>
    obtain ⟨before, after, listed, -⟩ := List.lookup_eq_some_iff.mp here
    have member : (place, contents) ∈ t'.files :=
      same.files.mem_iff.mp (listed ▸ List.mem_append_right _ List.mem_cons_self)
    exact lookup_of_nodup (same.distinct distinct) member

theorem isDirectoryAt (same : SameEntries t t') (place : Location) :
    t'.isDirectoryAt place = t.isDirectoryAt place := by
  rw [Bool.eq_iff_iff, isDirectoryAt_iff, isDirectoryAt_iff]
  simp only [same.files.mem_iff, same.directories.mem_iff]

theorem nodeAt? (same : SameEntries t t') (distinct : (t.files.map Prod.fst).Nodup)
    (place : Location) : t'.nodeAt? place = t.nodeAt? place := by
  rw [FileTree.nodeAt?, FileTree.nodeAt?, same.lookup distinct, same.isDirectoryAt]

theorem follow (same : SameEntries t t') (distinct : (t.files.map Prod.fst).Nodup) (l : Location)
    (pieces : List String) : t'.follow l pieces = t.follow l pieces := by
  induction pieces generalizing l with
  | nil => rfl
  | cons piece rest ih => simp only [FileTree.follow, ih, same.nodeAt? distinct]

theorem resolve (same : SameEntries t t') (distinct : (t.files.map Prod.fst).Nodup)
    (path : String) : t'.resolve path = t.resolve path := by
  rw [FileTree.resolve, FileTree.resolve, same.follow distinct]

end SameEntries

/-! ## What is collected -/

/-- Below this place there is a source that is no text. -/
def Unreadable (t : FileTree) (l : Location) : Prop :=
  ∃ below contents, (l ++ below, contents) ∈ t.files ∧ below.IsSource ∧
    ∀ text : String, Utf8.encode text.toList ≠ contents

/-- These are the sources below a place, each once, in the order of their locations. -/
structure Enumerates (t : FileTree) (l : Location) (sources : List SourceFile) : Prop where
  mem_iff : ∀ s : SourceFile, s ∈ sources ↔
    s.location.IsSource ∧ (l ++ s.location, Utf8.encode s.text.toList) ∈ t.files
  ascending : sources.Pairwise fun a b => a.location.Before b.location

instance : Std.Asymm fun a b : SourceFile => a.location.Before b.location where
  asymm _ _ := Location.Before.asymm

theorem Enumerates.unique {sources sources' : List SourceFile} (h : t.Enumerates l sources)
    (h' : t.Enumerates l sources') : sources = sources' :=
  h.ascending.eq_of_mem_iff h'.ascending fun s => (h.mem_iff s).trans (h'.mem_iff s).symm

theorem SameEntries.unreadable_iff (same : SameEntries t t') :
    t'.Unreadable l ↔ t.Unreadable l := by
  simp only [Unreadable, same.files.mem_iff]

theorem SameEntries.enumerates (same : SameEntries t t') {sources : List SourceFile}
    (h : t'.Enumerates l sources) : t.Enumerates l sources where
  mem_iff s := by rw [h.mem_iff, same.files.mem_iff]
  ascending := h.ascending

theorem enumerates_of_collected (sound : t.Sound) {sources : List SourceFile}
    (collected : Collected (t.filesBelow l) sources) : t.Enumerates l sources where
  mem_iff s := by
    constructor
    · intro member
      obtain ⟨contents, listed, isSource, read⟩ := collected.exists_file member
      rw [encode_of_textOf read]
      exact ⟨Location.isSource_iff.mp isSource, mem_filesBelow_iff.mp listed⟩
    · rintro ⟨isSource, listed⟩
      have below : (s.location, Utf8.encode s.text.toList) ∈ t.filesBelow l :=
        mem_filesBelow_iff.mpr listed
      obtain ⟨⟨location, text⟩, member, rfl, read⟩ :=
        collected.exists_source below (Location.isSource_iff.mpr isSource)
      rw [textOf_encode] at read
      obtain rfl : s.text = text := Except.ok.inj read
      exact member
  ascending := by
    have apart : sources.Pairwise fun a b => a.location ≠ b.location :=
      List.pairwise_map.mp (collected.nodup_locations (sound.distinct_below l))
    exact (collected.sorted.and apart).imp fun both => Location.before_of_isLE both.1 both.2

variable {root : String}

theorem sources_of_not_directory (other : ∀ l, t.resolve root ≠ .ok (.directory l)) :
    (t.find root).sources root = .error (.missingDirectory root) := by
  rw [find]
  split
  next l directory => exact absurd directory (other l)
  next => rfl
  next => rfl

theorem sources_of_unreadable (directory : t.resolve root = .ok (.directory l))
    (unreadable : t.Unreadable l) :
    (t.find root).sources root = .error (.unreadable .notText) := by
  obtain ⟨below, contents, listed, isSource, noText⟩ := unreadable
  have found : t.find root = .directory (t.filesBelow l) := by rw [find, directory]
  rw [found]
  refine mapM_eq_error (fun file failure failed => ?_) ⟨(below, contents), ?_, ?_⟩
  · dsimp only at failed
    split at failed
    · cases failed
    next fault read =>
      rw [← Except.error.inj failed, (textOf_eq_error_iff.mp read).1]
  · exact List.mem_mergeSort.mpr (List.mem_filter.mpr
      ⟨mem_filesBelow_iff.mpr listed, Location.isSource_iff.mpr isSource⟩)
  · exact ⟨.unreadable .notText, by simp only [textOf_eq_error_iff.mpr ⟨rfl, noText⟩]⟩

theorem exists_sources_of_readable (sound : t.Sound)
    (directory : t.resolve root = .ok (.directory l)) (readable : ¬ t.Unreadable l) :
    ∃ sources, (t.find root).sources root = .ok sources ∧ t.Enumerates l sources := by
  have found : t.find root = .directory (t.filesBelow l) := by rw [find, directory]
  rw [found]
  obtain ⟨sources, taken⟩ := exists_sources root fun file member isSource => by
    cases read : textOf file.2 with
    | ok text => exact ⟨text, rfl⟩
    | error fault =>
      exact absurd ⟨file.1, file.2, mem_filesBelow_iff.mp member,
        Location.isSource_iff.mp isSource, (textOf_eq_error_iff.mp read).2⟩ readable
  exact ⟨sources, taken, enumerates_of_collected sound (collected_of_sources taken)⟩

theorem SameEntries.sound (same : SameEntries t t') (sound : t.Sound) : t'.Sound where
  isName file member := sound.isName file (same.files.mem_iff.mpr member)
  distinct := same.distinct sound.distinct

/-- What is collected depends on the entries alone, since there is no choice in how to list it. -/
theorem SameEntries.sources (same : SameEntries t t') (sound : t.Sound) (root : String) :
    (t'.find root).sources root = (t.find root).sources root := by
  have resolved := same.resolve sound.distinct root
  by_cases directory : ∃ l, t.resolve root = .ok (.directory l)
  · obtain ⟨l, directory⟩ := directory
    have directory' : t'.resolve root = .ok (.directory l) := resolved.trans directory
    by_cases unreadable : t.Unreadable l
    · rw [sources_of_unreadable directory unreadable,
        sources_of_unreadable directory' (same.unreadable_iff.mpr unreadable)]
    · obtain ⟨sources, taken, here⟩ := exists_sources_of_readable sound directory unreadable
      obtain ⟨sources', taken', there⟩ := exists_sources_of_readable (same.sound sound) directory'
        (mt same.unreadable_iff.mp unreadable)
      rw [taken, taken', here.unique (same.enumerates there)]
  · have other := not_exists.mp directory
    rw [sources_of_not_directory other,
      sources_of_not_directory fun l => resolved ▸ other l]

/-- Collecting the sources below a directory fails if a path leads to no directory, and if some
source is no text; otherwise it gives all of them once, in the order of their locations, whatever
the order in which the tree lists them. -/
theorem sources_enumerate (t : FileTree) (sound : t.Sound) (root : String) :
    let result := (t.find root).sources root
    (result = .error (.missingDirectory root) ↔ ∀ l, t.resolve root ≠ .ok (.directory l)) ∧
      (∀ l, t.resolve root = .ok (.directory l) →
        (result = .error (.unreadable .notText) ↔ t.Unreadable l) ∧
          (¬ t.Unreadable l → ∃ sources, result = .ok sources ∧ t.Enumerates l sources)) ∧
      ∀ t', SameEntries t t' → (t'.find root).sources root = result := by
  intro result
  refine ⟨⟨fun missing l directory => ?_, sources_of_not_directory⟩, fun l directory =>
    ⟨⟨fun failed => ?_, sources_of_unreadable directory⟩,
      exists_sources_of_readable sound directory⟩, fun t' same => ?_⟩
  · by_cases unreadable : t.Unreadable l
    · have failed := sources_of_unreadable directory unreadable
      exact absurd (failed.symm.trans missing) (by simp)
    · obtain ⟨sources, taken, -⟩ := exists_sources_of_readable sound directory unreadable
      exact absurd (taken.symm.trans missing) nofun
  · by_contra readable
    obtain ⟨sources, taken, -⟩ := exists_sources_of_readable sound directory readable
    exact absurd (taken.symm.trans failed) nofun
  · exact same.sources sound root

/-- A directory called like a source, a name with nothing before the extension whose file is no
text, and places whose order is not that of the texts of their paths, listed in two ways. -/
theorem sources_enumerate_mixed :
    let files := [
      (["src", "a-b", "x.ira"], Utf8.encode "module @c;".toList),
      (["src", "a b.ira"], Utf8.encode "module @b;".toList),
      (["src", ".ira"], [0xff]),
      (["src", "a", "x.ira"], Utf8.encode "module @a;".toList)]
    let t : FileTree := ⟨files, [["src", "d.ira"], ["e"]]⟩
    let t' : FileTree := ⟨files.reverse, [["e"], ["src", "d.ira"]]⟩
    t.Sound ∧ t.resolve "src" = .ok (.directory ["src"]) ∧ ¬ t.Unreadable ["src"] ∧
      SameEntries t t' ∧ ∃ sources, (t.find "src").sources "src" = .ok sources ∧
        t.Enumerates ["src"] sources ∧ (t'.find "src").sources "src" = .ok sources := by
  intro files t t'
  have sound : t.Sound := ⟨by decide +kernel, by decide +kernel⟩
  have directory : t.resolve "src" = .ok (.directory ["src"]) := by rfl
  have readable : ¬ t.Unreadable ["src"] := by
    rintro ⟨below, contents, listed, isSource, noText⟩
    have place := Location.isSource_iff.mpr isSource
    simp only [t, files, List.mem_cons, List.not_mem_nil, or_false, Prod.mk.injEq,
      List.cons_append, List.nil_append, List.cons.injEq, true_and] at listed
    rcases listed with ⟨-, rfl⟩ | ⟨-, rfl⟩ | ⟨rfl, -⟩ | ⟨-, rfl⟩
    · exact noText _ rfl
    · exact noText _ rfl
    · exact absurd place (by decide +kernel)
    · exact noText _ rfl
  have same : SameEntries t t' := ⟨(List.reverse_perm _).symm, .swap ..⟩
  obtain ⟨-, below, others⟩ := sources_enumerate t sound "src"
  obtain ⟨sources, taken, here⟩ := (below _ directory).2 readable
  exact ⟨sound, directory, readable, same, sources, taken, here, (others t' same).trans taken⟩

end FileTree

end SigilAsm
