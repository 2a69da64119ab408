import SigilAsm.CommandLine.Plan

/-! # Names on paths

Where a path leads is told by the names on it.  A path to an output is put
together from the output path and the names that lead to a source, and the
names on it are those on the one and then those on the other.
-/

namespace SigilAsm.Path

/-- Whether a piece of a path makes a difference to the place it leads to. -/
def leads (piece : String) : Bool := piece != "" && piece != "."

/-- The names that lead somewhere, from the top down. -/
def names (path : String) : List String := (pieces path).filter leads

theorem namesUpwards_eq (path : String) : namesUpwards path = (names path).reverse := rfl

/-- What files and directories can be called. -/
structure IsName (name : String) : Prop where
  leads : Path.leads name = true
  notUp : name ≠ ".."
  noSlash : '/' ∉ name.toList

instance (name : String) : Decidable (IsName name) :=
  decidable_of_iff (Path.leads name = true ∧ name ≠ ".." ∧ '/' ∉ name.toList)
    ⟨fun ⟨leads, notUp, noSlash⟩ => ⟨leads, notUp, noSlash⟩,
      fun h => ⟨h.leads, h.notUp, h.noSlash⟩⟩

theorem IsName.filter_eq {ns : List String} (names : ∀ name ∈ ns, IsName name) :
    ns.filter Path.leads = ns :=
  List.filter_eq_self.mpr fun name member => (names name member).leads

/-! ## Pieces -/

theorem splitSlashes_eq (cs : List Char) : splitSlashes cs = cs.splitOn '/' := by
  induction cs with
  | nil => rfl
  | cons c cs ih =>
    rw [splitSlashes, List.splitOn_cons_eq_if_modifyHead, ih]
    by_cases slash : c = '/'
    · simp [slash]
    · simp only [slash, if_false, beq_iff_eq]
      cases split : cs.splitOn '/' with
      | nil => exact absurd split (List.splitOn_ne_nil _ _)
      | cons piece pieces => rfl

theorem pieces_eq (path : String) :
    pieces path = (path.toList.splitOn '/').map String.ofList := by
  rw [pieces, splitSlashes_eq]

theorem noSlash_of_mem_pieces {path piece : String} (member : piece ∈ pieces path) :
    '/' ∉ piece.toList := by
  suffices ∀ cs : List Char, ∀ part ∈ cs.splitOn '/', '/' ∉ part by
    rw [pieces_eq] at member
    obtain ⟨part, inside, rfl⟩ := List.mem_map.mp member
    rw [String.toList_ofList]
    exact this _ part inside
  intro cs
  induction cs with
  | nil => simp
  | cons c cs ih =>
    intro part inside
    rw [List.splitOn_cons_eq_if_modifyHead] at inside
    split at inside
    next =>
      rcases List.mem_cons.mp inside with rfl | later
      · exact List.not_mem_nil
      · exact ih part later
    next other =>
      cases split : cs.splitOn '/' with
      | nil => exact absurd split (List.splitOn_ne_nil _ _)
      | cons first rest =>
        rw [split, List.modifyHead_cons] at inside
        rw [split] at ih
        rcases List.mem_cons.mp inside with rfl | later
        · have apart : '/' ≠ c := fun same => other (by rw [← same]; exact beq_self_eq_true _)
          exact List.not_mem_cons_of_ne_of_not_mem apart (ih first List.mem_cons_self)
        · exact ih part (List.mem_cons_of_mem _ later)

theorem pieces_append_slash (before after : String) :
    pieces (before ++ "/" ++ after) = pieces before ++ pieces after := by
  have slash : "/".toList = ['/'] := rfl
  rw [pieces_eq, pieces_eq, pieces_eq, String.toList_append, String.toList_append, slash,
    List.append_assoc, List.singleton_append, List.splitOn_append_cons_self, List.map_append]

theorem pieces_ofNames {ns : List String} (noSlash : ∀ name ∈ ns, '/' ∉ name.toList)
    (some : ns ≠ []) : pieces (ofNames ns) = ns := by
  have slash : "/".toList = ['/'] := rfl
  have parts : ∀ part ∈ ns.map String.toList, '/' ∉ part := by
    intro part member
    obtain ⟨name, inside, rfl⟩ := List.mem_map.mp member
    exact noSlash name inside
  rw [pieces_eq, ofNames, String.toList_intercalate, slash,
    List.splitOn_intercalate '/' parts (mt List.map_eq_nil_iff.mp some), List.map_map]
  exact List.map_id'' (fun _ => String.ofList_toList) ns

theorem names_ofNames {ns : List String} (noSlash : ∀ name ∈ ns, '/' ∉ name.toList) :
    names (ofNames ns) = ns.filter leads := by
  cases ns with
  | nil => rfl
  | cons name ns => rw [names, pieces_ofNames noSlash (List.cons_ne_nil _ _)]

/-- A path that is joined to another follows the names on it first. -/
theorem exists_pieces_join (directory relative : String) :
    ∃ before, pieces (join directory relative) = before ++ pieces relative ∧
      before.filter leads = names directory := by
  unfold join
  split
  next ending =>
    rcases Bool.or_eq_true_iff.mp ending with empty | slash
    · obtain rfl := String.isEmpty_iff.mp empty
      exact ⟨[], by rw [String.empty_append, List.nil_append], rfl⟩
    · -- The slash at the end separates the two, and no name follows it in the first.
      obtain ⟨front, split⟩ := List.getLast?_eq_some_iff.mp (beq_iff_eq.mp slash)
      have directory_eq : directory = String.ofList front ++ "/" ++ "" := by
        rw [← String.toList_inj, split]
        simp
      refine ⟨pieces (String.ofList front), ?_, ?_⟩
      · rw [directory_eq, String.append_empty, pieces_append_slash]
      · rw [directory_eq, names, pieces_append_slash, List.filter_append]
        simp [pieces, splitSlashes, leads]
  next => exact ⟨pieces directory, pieces_append_slash directory relative, rfl⟩

/-! ## The last name -/

theorem fromLastName_cons {name : String} (named : leads name = true) (before : List String) :
    fromLastName (name :: before) = name :: before := by
  obtain ⟨full, other⟩ : name ≠ "" ∧ name ≠ "." := by simpa [leads] using named
  cases before with
  | nil => rw [fromLastName, if_neg full]
  | cons piece before =>
    rw [fromLastName, if_neg (not_or.mpr ⟨full, other⟩)]
    nofun

theorem fromLastName_suffix (backwards : List String) : fromLastName backwards <:+ backwards := by
  fun_induction fromLastName backwards with
  | case1 => exact List.suffix_rfl
  | case2 => exact List.nil_suffix
  | case3 => exact List.suffix_rfl
  | case4 piece before _ _ ih => exact ih.trans (List.suffix_cons piece before)
  | case5 => exact List.suffix_rfl

/-- What is left away behind the last name leads nowhere. -/
theorem filter_fromLastName (backwards : List String) :
    (fromLastName backwards).filter leads = backwards.filter leads := by
  fun_induction fromLastName backwards with
  | case1 => rfl
  | case2 => simp [leads]
  | case3 => rfl
  | case4 piece before _ nowhere ih =>
    have skipped : leads piece = false := by
      rcases nowhere with rfl | rfl <;> rfl
    rw [List.filter_cons_of_neg (by simp [skipped]), ih]
  | case5 => rfl

/-- A path that ends in a name, and the names before it. -/
structure Ends (path : String) (above : List String) (name : String) : Prop where
  split : ∃ before, pieces path = before ++ [name] ∧ before.filter leads = above
  isName : IsName name

theorem ends_join {directory name : String} {ns : List String}
    (isNames : ∀ n ∈ ns ++ [name], IsName n) :
    Ends (join directory (ofNames (ns ++ [name]))) (names directory ++ ns) name := by
  obtain ⟨before, split, above⟩ := exists_pieces_join directory (ofNames (ns ++ [name]))
  have pieces_eq : pieces (ofNames (ns ++ [name])) = ns ++ [name] :=
    pieces_ofNames (fun n member => (isNames n member).noSlash) (by simp)
  refine ⟨⟨before ++ ns, ?_, ?_⟩, isNames name (by simp)⟩
  · rw [split, pieces_eq, List.append_assoc]
  · rw [List.filter_append, above,
      IsName.filter_eq fun n member => isNames n (List.mem_append_left _ member)]

theorem Ends.ne_empty {path name : String} {above : List String} (ends : Ends path above name) :
    path ≠ "" := by
  rintro rfl
  obtain ⟨before, split, -⟩ := ends.split
  have same : before = [] ∧ "" = name := by
    have one : before ++ [name] = [] ++ [""] := split.symm
    obtain ⟨front, last⟩ := List.append_inj' one rfl
    exact ⟨front, (List.cons.inj last).1.symm⟩
  exact absurd ends.isName.leads (by rw [← same.2]; decide)

/-- The directory of a path that ends in a name is reached by the names before it. -/
theorem Ends.names_parent {path name : String} {above : List String}
    (ends : Ends path above name) : names ((parent? path).getD "") = above := by
  obtain ⟨before, split, rfl⟩ := ends.split
  have backwards : fromLastName (pieces path).reverse = name :: before.reverse := by
    rw [split, List.reverse_append, List.reverse_singleton, List.singleton_append,
      fromLastName_cons ends.isName.leads]
  have noSlash : ∀ n ∈ (fromLastName before.reverse).reverse, '/' ∉ n.toList := by
    intro n member
    have inside := (fromLastName_suffix before.reverse).subset (List.mem_reverse.mp member)
    have piece : n ∈ pieces path := by
      rw [split]
      exact List.mem_append_left _ (List.mem_reverse.mp inside)
    exact noSlash_of_mem_pieces piece
  have parent : parent? path = some (ofNames (fromLastName before.reverse).reverse) := by
    rw [parent?, backwards]
    rfl
  rw [parent, Option.getD_some, names_ofNames noSlash, List.filter_reverse, filter_fromLastName,
    ← List.filter_reverse, List.reverse_reverse]

/-! ## Extensions -/

/-- The text before an extension, with a dot and another extension behind it. -/
def withExtension (name extension : String) : String :=
  (splitExtension name).1 ++ "." ++ extension

theorem splitExtension_eq {name stem extension : String}
    (split : splitExtension name = (stem, some extension)) :
    name = stem ++ "." ++ extension := by
  unfold splitExtension at split
  split at split
  · cases split
  · dsimp only at split
    have whole := List.takeWhile_append_dropWhile (p := (· != '.')) (l := name.toList.reverse)
    split at split
    · cases split
    · cases split
    · next dot stemBackwards more rest =>
      obtain ⟨rfl, h⟩ := Prod.mk.inj split
      obtain rfl := Option.some.inj h
      have isDot : dot = '.' := by
        have failed := List.head?_dropWhile_not (· != '.') name.toList.reverse
        rw [rest] at failed
        simpa using failed
      have backwards : name.toList = stemBackwards.reverse ++ ['.'] ++
          (name.toList.reverse.takeWhile (· != '.')).reverse := by
        calc name.toList
          _ = (name.toList.reverse.takeWhile (· != '.') ++
                name.toList.reverse.dropWhile (· != '.')).reverse := by
            rw [whole, List.reverse_reverse]
          _ = _ := by rw [rest, isDot, List.reverse_append, List.reverse_cons]
      rw [← String.toList_inj]
      simp only [String.toList_append, String.toList_ofList]
      exact backwards

theorem replaceExtension_eq {name stem old : String} (extension : String)
    (split : splitExtension name = (stem, some old)) (other : stem ≠ ".") :
    replaceExtension name extension = withExtension name extension := by
  unfold replaceExtension withExtension
  rw [split]
  split
  next h => exact absurd (congrArg Prod.fst h) other
  next h =>
    obtain ⟨rfl, -⟩ := Prod.mk.inj h
    rfl

/-- An extension that does not end in a dot makes a name of any text without slashes. -/
theorem isName_of_extension {stem extension : String} {c : Char} (noSlash : '/' ∉ stem.toList)
    (plain : '/' ∉ extension.toList) (last : extension.toList.getLast? = some c)
    (letter : c ≠ '.') : IsName (stem ++ "." ++ extension) := by
  have ends : (stem ++ "." ++ extension).toList.getLast? = some c := by
    rw [String.toList_append, List.getLast?_append, last]
    rfl
  have apart (name : String) (other : name.toList.getLast? ≠ some c) :
      stem ++ "." ++ extension ≠ name := fun same => other (same ▸ ends)
  have noDot : some '.' ≠ some c := fun same => letter (Option.some.inj same).symm
  refine ⟨?_, apart ".." noDot, ?_⟩
  · have full := apart "" nofun
    have other := apart "." noDot
    simp [leads, full, other]
  · rw [String.toList_append, String.toList_append]
    simp [noSlash, plain]

end SigilAsm.Path
