import Mathlib.Data.List.Basic
import Peephole.Discovery
import Peephole.Proofs.Files.Destinations

/-!
# Proofs/Files/PathOrder — the paths of the names in a directory

A name inside a directory has the path of the directory before it (`join`), and that path leads one
part further, ends in the name and has its extension.  Paths are compared component by component,
names by their bytes.  So among the paths of one directory the names decide, and they compare by
bytes as they do by characters: UTF-8 keeps the order of characters (`utf8_lt`).
-/

namespace Peephole

namespace Path

/-- A name that an entry of a directory can have. -/
structure IsName (name : String) : Prop where
  ne_empty : name ≠ ""
  ne_dot : name ≠ "."
  ne_dots : name ≠ ".."
  no_slash : '/' ∉ name.toList
  no_nul : '\x00' ∉ name.toList
  short : name.utf8ByteSize ≤ FileSystem.maxNameBytes

instance (name : String) : Decidable (IsName name) :=
  decidable_of_iff (name ≠ "" ∧ name ≠ "." ∧ name ≠ ".." ∧ '/' ∉ name.toList ∧
      '\x00' ∉ name.toList ∧ name.utf8ByteSize ≤ FileSystem.maxNameBytes)
    ⟨fun h => ⟨h.1, h.2.1, h.2.2.1, h.2.2.2.1, h.2.2.2.2.1, h.2.2.2.2.2⟩,
      fun h => ⟨h.ne_empty, h.ne_dot, h.ne_dots, h.no_slash, h.no_nul, h.short⟩⟩

/-! ## Slashes at the end -/

/-- A path with slashes at its end. -/
def slashed (path : String) (count : Nat) : String :=
  path ++ String.ofList (List.replicate count '/')

theorem toList_slashed (path : String) (count : Nat) :
    (slashed path count).toList = path.toList ++ List.replicate count '/' := by
  rw [slashed, String.toList_append, String.toList_ofList]

theorem utf8ByteSize_slashed (path : String) (count : Nat) :
    (slashed path count).utf8ByteSize = path.utf8ByteSize + count := by
  induction count with
  | zero => simp [slashed]
  | succ count ih =>
    have hlast : slashed path (count + 1) = slashed path count ++ "/" := by
      rw [slashed, List.replicate_succ', String.ofList_append, ← String.append_assoc]
      rfl
    rw [hlast, String.utf8ByteSize_append, ih, Nat.add_assoc]
    rfl

theorem IsName.splitParts_eq {name : String} (hname : IsName name) :
    splitParts [] name.toList = [name] := by
  rw [splitParts_of_no_slash hname.no_slash, List.reverse_nil, List.nil_append,
    String.ofList_toList]

/-- Slashes at the end add no part. -/
theorem parts_slashed {name : String} (hname : IsName name) (count : Nat) :
    parts (slashed name count) = [name] := by
  rw [parts, toList_slashed]
  induction count with
  | zero =>
    rw [List.replicate_zero, List.append_nil, hname.splitParts_eq]
    simp [hname.ne_empty]
  | succ count ih =>
    rw [List.replicate_succ', ← List.append_assoc, splitParts_slash, List.filter_append, ih]
    rfl

/-- A name with slashes behind it is no absolute path. -/
theorem isAbsolute_slashed {name : String} (hname : IsName name) (count : Nat) :
    isAbsolute (slashed name count) = false := by
  obtain ⟨c, cs, hcs⟩ := List.exists_cons_of_ne_nil
    (mt String.toList_eq_nil_iff.1 hname.ne_empty)
  have hc : c ≠ '/' := by
    rintro rfl
    exact hname.no_slash (by simp [hcs])
  simp [isAbsolute, toList_slashed, hcs, hc]

section Join

variable {directory name : String}

/-! ## A name in a directory -/

theorem forall_ne_of_not_mem {d : Char} {cs : List Char} (h : d ∉ cs) :
    ∀ c ∈ cs.reverse, decide (c ≠ d) = true := by
  intro c hc
  rw [decide_eq_true_iff]
  rintro rfl
  exact h (List.mem_reverse.1 hc)

/-- The path of a directory, with or without a slash at its end, goes before a slash and the
name. -/
theorem exists_toList_join (hdirectory : directory ≠ "") (name : String) :
    ∃ start, (join directory name).toList = start ++ '/' :: name.toList ∧
      (directory.toList = start ++ ['/'] ∨ directory.toList = start ∧ start ≠ []) := by
  rw [join]
  split
  case isTrue hslash =>
    obtain ⟨start, hstart⟩ := List.getLast?_eq_some_iff.1 (hslash.resolve_left hdirectory)
    refine ⟨start, ?_, .inl hstart⟩
    rw [String.toList_append, hstart, List.append_assoc]
    rfl
  case isFalse =>
    refine ⟨directory.toList, ?_, .inr ⟨rfl, mt String.toList_eq_nil_iff.1 hdirectory⟩⟩
    rw [String.toList_append, String.toList_append, List.append_assoc]
    rfl

theorem join_ne_empty (hdirectory : directory ≠ "") : join directory name ≠ "" := by
  obtain ⟨start, hjoin, -⟩ := exists_toList_join hdirectory name
  intro hempty
  rw [hempty] at hjoin
  simp at hjoin

/-- A joined path starts where its directory does. -/
theorem isAbsolute_join (hdirectory : directory ≠ "") :
    isAbsolute (join directory name) = isAbsolute directory := by
  obtain ⟨start, hjoin, hstart⟩ := exists_toList_join hdirectory name
  rw [isAbsolute, isAbsolute, hjoin]
  cases start with
  | nil =>
    obtain hstart | ⟨-, hne⟩ := hstart
    · rw [hstart]
      rfl
    · exact absurd rfl hne
  | cons c start =>
    obtain hstart | ⟨hstart, -⟩ := hstart <;> rw [hstart] <;> rfl

/-- **The path of a name leads one part further.** -/
theorem parts_join (hdirectory : directory ≠ "") (hname : IsName name) :
    parts (join directory name) = parts directory ++ [name] := by
  obtain ⟨start, hjoin, hstart⟩ := exists_toList_join hdirectory name
  rw [parts, parts, hjoin, splitParts_slash, hname.splitParts_eq, List.filter_append]
  congr 1
  · obtain hstart | ⟨hstart, -⟩ := hstart
    · rw [hstart, splitParts_slash, List.filter_append]
      exact (List.append_nil _).symm
    · rw [hstart]
  · simp [hname.ne_empty]

/-- A name ends in something other than a slash. -/
theorem IsName.exists_concat (hname : IsName name) :
    ∃ front c, name.toList = front ++ [c] ∧ c ≠ '/' := by
  obtain hnil | ⟨front, c, hconcat⟩ := List.eq_nil_or_concat' name.toList
  · exact absurd (String.toList_eq_nil_iff.1 hnil) hname.ne_empty
  · refine ⟨front, c, hconcat, ?_⟩
    rintro rfl
    exact hname.no_slash (by simp [hconcat])

/-- A path joined with a name does not end in a slash. -/
theorem endsInSlash_join (hdirectory : directory ≠ "") (hname : IsName name) :
    endsInSlash (join directory name) = false := by
  obtain ⟨start, hjoin, -⟩ := exists_toList_join hdirectory name
  obtain ⟨front, c, hconcat, hc⟩ := hname.exists_concat
  have hlast : (join directory name).toList = start ++ '/' :: front ++ [c] := by
    rw [hjoin, hconcat, List.append_assoc, List.cons_append]
  rw [endsInSlash, hlast, List.getLast?_concat]
  simpa using hc

/-- The last name of a joined path is the name. -/
theorem lastName_join (hdirectory : directory ≠ "") (hname : IsName name) :
    lastName (join directory name) = name := by
  obtain ⟨start, hjoin, -⟩ := exists_toList_join hdirectory name
  have hall := forall_ne_of_not_mem hname.no_slash
  have htake : ((join directory name).toList.reverse.takeWhile (· ≠ '/')).reverse
      = name.toList := by
    rw [hjoin, List.reverse_append, List.reverse_cons, List.append_assoc,
      List.takeWhile_append_of_pos hall]
    simp
  rw [lastName, htake, String.ofList_toList]

/-- **The path of a name ends in it.** -/
theorem fileName?_join (hdirectory : directory ≠ "") (hname : IsName name) :
    fileName? (join directory name) = some name := by
  obtain ⟨start, hjoin, -⟩ := exists_toList_join hdirectory name
  obtain ⟨front, c, hconcat, hc⟩ := hname.exists_concat
  have hreverse : (join directory name).toList.reverse
      = c :: (front.reverse ++ '/' :: start.reverse) := by
    simp [hjoin, hconcat]
  -- Only the name `.` could be taken for a part that says nothing.
  have hkept : ∀ more, c :: (front.reverse ++ '/' :: start.reverse) ≠ '.' :: '/' :: more := by
    intro more heq
    obtain ⟨rfl, hrest⟩ := List.cons.inj heq
    cases hfront : front.reverse with
    | nil =>
      rw [List.reverse_eq_nil_iff.1 hfront] at hconcat
      exact hname.ne_dot (String.toList_inj.1 hconcat)
    | cons d behind =>
      rw [hfront] at hrest
      obtain rfl := (List.cons.inj hrest).1
      have hmem : '/' ∈ front := List.mem_reverse.1 (by simp [hfront])
      exact hname.no_slash (by simp [hconcat, hmem])
  have hlast := lastName_join hdirectory hname
  obtain ⟨-, hnone⟩ | ⟨cut, hcut, hcutname⟩ :=
    cut?_of_dropEnd (hreverse ▸ dropEnd_of_ne hc hkept)
  · simp [hlast, hname.ne_empty, hname.ne_dot, hname.ne_dots] at hnone
  · rw [fileName?, hcut, Option.map_some, hcutname, hlast]

end Join

/-! ## Extensions -/

/-- A name has an extension: it stands behind the last dot, which is not at the front. -/
def EndsInExtension (name extension : String) : Prop :=
  ∃ stem, stem ≠ "" ∧ name = stem ++ "." ++ extension ∧ '.' ∉ extension.toList

/-- A name is split at its last dot, unless that is the first character. -/
theorem splitName_dot {stem extension : String} (hstem : stem ≠ "")
    (hextension : '.' ∉ extension.toList) :
    splitName (stem ++ "." ++ extension) = (stem, some extension) := by
  have hreverse : (stem ++ "." ++ extension).toList.reverse
      = extension.toList.reverse ++ '.' :: stem.toList.reverse := by
    simp
  have hall := forall_ne_of_not_mem hextension
  have hdrop : (stem ++ "." ++ extension).toList.reverse.dropWhile (· ≠ '.')
      = '.' :: stem.toList.reverse := by
    rw [hreverse, List.dropWhile_append_of_pos hall]
    rfl
  have htake : (stem ++ "." ++ extension).toList.reverse.takeWhile (· ≠ '.')
      = extension.toList.reverse := by
    rw [hreverse, List.takeWhile_append_of_pos hall]
    exact List.append_nil _
  have hne : stem.toList.reverse.isEmpty = false := by
    simpa [List.isEmpty_eq_false_iff] using hstem
  rw [splitName, hdrop]
  dsimp only
  rw [htake, hne]
  simp

/-- The extension that a name is split into is the one it ends in. -/
theorem splitName_eq_some_iff {name extension : String} :
    (splitName name).2 = some extension ↔ EndsInExtension name extension := by
  constructor
  · intro h
    have hname := reverse_dropWhile_append (· ≠ '.') name.toList
    have hdot := List.head?_dropWhile_not (· ≠ '.') name.toList.reverse
    rw [splitName] at h
    split at h
    case h_2 => cases h
    case h_1 c stem hdrop =>
      split at h
      case isTrue => cases h
      case isFalse hstem =>
        obtain rfl := Option.some.inj h
        rw [hdrop] at hdot hname
        obtain rfl : c = '.' := by simpa using hdot
        refine ⟨String.ofList stem.reverse, ?_, ?_, ?_⟩
        · simpa using hstem
        · rw [List.reverse_cons] at hname
          rw [← String.toList_inj, String.toList_append, String.toList_append]
          simp only [String.toList_ofList]
          exact hname.symm
        · rw [String.toList_ofList]
          intro hmem
          simpa using List.mem_takeWhile_imp (List.mem_reverse.1 hmem)
  · rintro ⟨stem, hstem, rfl, hextension⟩
    rw [splitName_dot hstem hextension]

/-- An extension without the dots in front of it. -/
def withoutDots (extension : String) : String :=
  String.ofList (extension.toList.dropWhile (· == '.'))

/-- **The path of a name has the extension of the name.** -/
theorem hasExtension_join {directory name : String} (hdirectory : directory ≠ "")
    (hname : IsName name) (extension : String) :
    hasExtension (join directory name) extension = true ↔
      EndsInExtension name (withoutDots extension) := by
  rw [hasExtension, beq_iff_eq, extension?, fileName?_join hdirectory hname, Option.bind_some]
  exact splitName_eq_some_iff

/-! ## The order of paths -/

/-- A component of a path. -/
inductive Component where
  | root
  /-- The `.` that a path starts with; others say nothing. -/
  | here
  | up
  | named (name : String)

/-- The component of a part. -/
def component (part : String) : Component := if part = ".." then .up else .named part

/-- The components of a path. -/
def components (path : String) : List Component :=
  (if isAbsolute path then [.root] else if (parts path).head? = some "." then [.here] else [])
    ++ ((parts path).filter (· ≠ ".")).map component

/-- The UTF-8 bytes of a text. -/
def bytes (text : String) : List Nat := text.toUTF8.data.toList.map UInt8.toNat

/-- What components are compared by: their sort, and names by their bytes. -/
def Component.key : Component → List Nat
  | root => [0]
  | here => [1]
  | up => [2]
  | named name => 3 :: bytes name

/-- **The order of paths**: component by component. -/
def Precedes (first second : String) : Prop :=
  (components first).map Component.key < (components second).map Component.key

theorem Precedes.ne {first second : String} (h : Precedes first second) : first ≠ second := by
  rintro rfl
  exact List.lt_irrefl _ h

/-- A joined path has the components of its directory, and the name. -/
theorem components_join {directory name : String} (hdirectory : directory ≠ "")
    (hname : IsName name) :
    components (join directory name) = components directory ++ [.named name] := by
  have hhead : (parts directory ++ [name]).head? = some "."
      ↔ (parts directory).head? = some "." := by
    cases parts directory with
    | nil => simp [hname.ne_dot]
    | cons part parts => rfl
  rw [components, components, isAbsolute_join hdirectory, parts_join hdirectory hname,
    if_congr hhead rfl rfl, List.filter_append, List.map_append, List.append_assoc]
  simp [hname.ne_dot, component, hname.ne_dots]

/-- The UTF-8 bytes of a character. -/
def bytesOf (c : Char) : List Nat := (String.utf8EncodeChar c).map UInt8.toNat

/-- The bytes of a text are those of its characters, one after the other. -/
theorem bytes_eq_flatMap (text : String) : bytes text = text.toList.flatMap bytesOf := by
  obtain ⟨cs, rfl⟩ : ∃ cs, text = String.ofList cs := ⟨text.toList, String.ofList_toList.symm⟩
  rw [bytes, String.toUTF8_eq_toByteArray, String.toByteArray_ofList, String.toList_ofList,
    List.utf8Encode, List.data_toByteArray, List.map_flatMap]
  rfl

/-- **UTF-8 keeps the order of characters**, whatever stands behind them. -/
theorem bytesOf_lt {c d : Char} (h : c < d) (first second : List Nat) :
    bytesOf c ++ first < bytesOf d ++ second := by
  have hlt : c.val.toNat < d.val.toNat := h
  have hmax : d.val.toNat < 0x110000 := by
    rcases d.valid with hlow | hhigh <;> omega
  simp only [bytesOf, String.utf8EncodeChar]
  generalize c.val.toNat = v at hlt ⊢
  generalize d.val.toNat = w at hlt hmax ⊢
  -- Of two characters with as many bytes the first byte that differs decides; of others the first
  -- byte does, which is greater where more bytes follow.
  split_ifs <;> simp (disch := omega) only [List.map_cons, List.map_nil, List.cons_append,
    List.nil_append, List.cons_lt_cons_iff, UInt8.toNat_ofNat', Nat.mod_eq_of_lt] <;> omega

/-- The first characters that differ decide, and so do their bytes. -/
theorem flatMap_bytesOf_lt : ∀ {cs ds : List Char}, cs < ds →
    cs.flatMap bytesOf < ds.flatMap bytesOf
  | cs, [], h => absurd h (List.not_lt_nil cs)
  | [], d :: ds, _ => by
    obtain ⟨byte, more, heq⟩ := List.exists_cons_of_ne_nil (@String.utf8EncodeChar_ne_nil d)
    rw [List.flatMap_cons, bytesOf, heq]
    exact List.nil_lt_cons _ _
  | c :: cs, d :: ds, h => by
    rw [List.flatMap_cons, List.flatMap_cons]
    obtain hlt | ⟨rfl, hrest⟩ := List.cons_lt_cons_iff.1 h
    · exact bytesOf_lt hlt _ _
    · exact List.append_left_lt (flatMap_bytesOf_lt hrest)

/-- **UTF-8 keeps the order**: texts compare as their bytes do. -/
theorem utf8_lt {first second : String} (h : first < second) : bytes first < bytes second := by
  rw [bytes_eq_flatMap, bytes_eq_flatMap]
  exact flatMap_bytesOf_lt (String.lt_iff.1 h)

/-- **Paths of one directory come in the order of their names.** -/
theorem precedes_join {directory first second : String} (hdirectory : directory ≠ "")
    (hfirst : IsName first) (hsecond : IsName second) (h : first < second) :
    Precedes (join directory first) (join directory second) := by
  rw [Precedes, components_join hdirectory hfirst, components_join hdirectory hsecond,
    List.map_append, List.map_append]
  refine List.append_left_lt ?_
  exact List.cons_lt_cons_iff.2 (.inl (List.cons_lt_cons_iff.2 (.inr ⟨rfl, utf8_lt h⟩)))

end Path

end Peephole
