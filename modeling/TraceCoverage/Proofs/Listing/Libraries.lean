import TraceCoverage.Listing.LoadMap
import TraceCoverage.Proofs.Text.Scanning
import Mathlib.Data.List.Basic
import Mathlib.Data.List.Perm.Basic

/-!
# Looking a library up

A load map is looked up by file names alone, the one that is asked for and those of its entries.
What stands in front of a name as its directory does not count, nor do lines that are no entries. An
entry of the very name wins over all that only hold it, wherever it stands.
-/

namespace TraceCoverage

open Text

/-! ## File names -/

namespace Text

variable {name : List Char}

theorem parts_append_cons (dir name : List Char) :
    parts (dir ++ '/' :: name) = parts dir ++ parts name := by
  rw [parts, pieces_append_cons (by decide), List.filter_append]
  rfl

theorem fileName?_append_cons (dir : List Char) (h : (fileName? name).isSome = true) :
    fileName? (dir ++ '/' :: name) = fileName? name := by
  have hne : parts name ≠ [] := by
    intro hnil
    rw [fileName?, hnil] at h
    cases h
  rw [fileName?, parts_append_cons, List.getLast?_append_of_ne_nil _ hne, fileName?]

end Text

namespace LoadMap

variable {m m' : LoadMap} {lines lines' : List String} {line line' library library' : String}
  {wanted : List Char}

def files (m : LoadMap) : List (List Char × Address) :=
  m.entries.filterMap fun entry => (fileName? entry.1.toList).map (·, entry.2)

theorem find?_files (m : LoadMap) (p : List Char → Bool) :
    (m.entries.find? fun entry => (fileName? entry.1.toList).any p).map (·.2) =
      (m.files.find? (p ·.1)).map (·.2) := by
  have hnamed : ∀ entry : String × Address,
      ((fileName? entry.1.toList).map (·, entry.2)).any (p ·.1) =
        (fileName? entry.1.toList).any p := by
    intro entry
    cases fileName? entry.1.toList <;> rfl
  rw [files, List.find?_filterMap]
  simp only [hnamed]
  cases hfind : m.entries.find? fun entry => (fileName? entry.1.toList).any p with
  | none => rfl
  | some entry =>
    have hany := List.find?_some hfind
    cases hname : fileName? entry.1.toList with
    | none => simp [hname] at hany
    | some name => simp [hname]

theorem lookup_congr (hfiles : m.files = m'.files)
    (hlibrary : fileName? library.toList = fileName? library'.toList) :
    m.lookup library = m'.lookup library' := by
  unfold lookup
  simp only [hlibrary, Option.map_or, find?_files, hfiles]

/-! ## Lines -/

def Line.file? (line : String) : Option (List Char × Address) :=
  match words line.toList with
  | name :: digits :: _ =>
    (Address.ofChars? digits).bind fun address => (fileName? name).map (·, address)
  | _ => none

theorem files_ofLines (lines : List String) :
    (ofLines lines).files = lines.filterMap Line.file? := by
  rw [files, ofLines, List.filterMap_filterMap]
  congr 1
  funext line
  unfold Line.ofString Line.file?
  rcases words line.toList with _ | ⟨name, _ | ⟨digits, _⟩⟩
  · rfl
  · rfl
  · dsimp only
    cases Address.ofChars? digits with
    | none => rfl
    | some address => simp

/-- A line that is no entry: it has fewer than two words, or the second one is no number. -/
def Line.Noise (line : String) : Prop :=
  ∀ name digits more, words line.toList = name :: digits :: more → Address.ofChars? digits = none

/-- The second line has a directory more in front of its name, which names a file. -/
structure Line.Moves (line line' : String) (lead dir name rest : List Char) : Prop where
  lead_blank : ∀ c ∈ lead, isBlank c = true
  dir_solid : ∀ c ∈ dir, isBlank c = false
  name_solid : ∀ c ∈ name, isBlank c = false
  rest_apart : ∀ c ∈ rest.head?, isBlank c = true
  names_file : (fileName? name).isSome = true
  before : line.toList = lead ++ (name ++ rest)
  after : line'.toList = lead ++ (dir ++ '/' :: name ++ rest)

theorem Line.noise_of_ofString (h : Line.ofString line = .blank ∨ Line.ofString line = .malformed) :
    Line.Noise line := by
  intro name digits more hwords
  unfold Line.ofString at h
  rw [hwords] at h
  cases hdigits : Address.ofChars? digits with
  | none => rfl
  | some address => simp [hdigits] at h

theorem Line.Noise.file? (h : Line.Noise line) : Line.file? line = none := by
  unfold Line.file?
  split
  next name digits more hwords => rw [h name digits more hwords, Option.bind_none]
  next => rfl

theorem Line.Moves.file? {lead dir name rest : List Char}
    (h : Line.Moves line line' lead dir name rest) : Line.file? line' = Line.file? line := by
  have hne : name ≠ [] := by
    rintro rfl
    exact absurd h.names_file (by decide)
  have hsolid : ∀ c ∈ dir ++ '/' :: name, isBlank c = false := by
    intro c hc
    rcases List.mem_append.1 hc with hc | hc
    · exact h.dir_solid c hc
    · rcases List.mem_cons.1 hc with rfl | hc
      · decide
      · exact h.name_solid c hc
  unfold Line.file?
  rw [h.before, h.after, words_append_of_blank h.lead_blank, words_append_of_blank h.lead_blank,
    words_append_of_head hne h.name_solid h.rest_apart,
    words_append_of_head (by simp) hsolid h.rest_apart]
  cases words rest with
  | nil => rfl
  | cons digits _ => dsimp only; rw [fileName?_append_cons dir h.names_file]

/-- Some lines of a load map get directories in front of their names, and noise comes between. -/
inductive Edits : List String → List String → Prop
  | nil : Edits [] []
  | keep (line : String) {lines lines' : List String} :
    Edits lines lines' → Edits (line :: lines) (line :: lines')
  | move {line line' : String} {lead dir name rest : List Char} {lines lines' : List String} :
    Line.Moves line line' lead dir name rest → Edits lines lines' →
      Edits (line :: lines) (line' :: lines')
  | insert {line : String} {lines lines' : List String} :
    Line.Noise line → Edits lines lines' → Edits lines (line :: lines')

theorem Edits.files (h : Edits lines lines') : (ofLines lines').files = (ofLines lines).files := by
  simp only [files_ofLines]
  induction h with
  | nil => rfl
  | keep line _ ih => rw [List.filterMap_cons, List.filterMap_cons, ih]
  | move hmoves _ ih => rw [List.filterMap_cons, List.filterMap_cons, hmoves.file?, ih]
  | insert hnoise _ ih => rw [List.filterMap_cons_none hnoise.file?, ih]

/-! ## Entries of the very name -/

def isExact (wanted : List Char) (entry : String × Address) : Bool :=
  fileName? entry.1.toList == some wanted

theorem lookup_of_exact (hwanted : fileName? library.toList = some wanted)
    {entry : String × Address} (h : m.entries.find? (isExact wanted) = some entry) :
    m.lookup library = some entry.2 := by
  have hexact : (fun entry : String × Address => (fileName? entry.1.toList).any (· == wanted)) =
      isExact wanted := by
    funext entry
    unfold isExact
    cases fileName? entry.1.toList <;> rfl
  unfold lookup
  rw [hwanted, Option.bind_some]
  dsimp only
  rw [hexact, h]
  rfl

theorem find?_exact_perm (hperm : lines.Perm lines')
    (hone : (ofLines lines).entries.countP (isExact wanted) = 1) :
    ∃ entry, (ofLines lines).entries.find? (isExact wanted) = some entry ∧
      (ofLines lines').entries.find? (isExact wanted) = some entry := by
  have hentries : (ofLines lines).entries.Perm (ofLines lines').entries := hperm.filterMap _
  rw [List.countP_eq_length_filter] at hone
  obtain ⟨entry, hentry⟩ := List.length_eq_one_iff.1 hone
  have hentry' : (ofLines lines').entries.filter (isExact wanted) = [entry] :=
    (List.singleton_perm.1 (hentry ▸ hentries.filter _)).symm
  exact ⟨entry, by rw [← List.head?_filter, hentry, List.head?_cons],
    by rw [← List.head?_filter, hentry', List.head?_cons]⟩

/-! ## Lookups -/

section

variable {e : Executable}

theorem resolve_of_some {address : Address} (h : e.library.bind m.lookup = some address) :
    m.resolve e = { state := { e with loadAddress := address }, result := .ok address } := by
  obtain ⟨name, hname, hlookup⟩ := Option.bind_eq_some_iff.1 h
  simp only [resolve, hname, hlookup]

theorem resolve_of_none (h : e.library.bind m.lookup = none) :
    ∃ cause, m.resolve e = { state := e, result := .error cause } := by
  unfold resolve
  cases hname : e.library with
  | none => exact ⟨.notALibrary e.file, rfl⟩
  | some name =>
    rw [hname, Option.bind_some] at h
    exact ⟨.libraryNotFound name, by simp only [h]⟩

end

/-- A library is found by its file name. Directories in front of it or of an entry do not count, nor
does noise. The first entry of the very name wins, and if it is the only one, the order of the lines
does not count. A library that is found gives its address to the executable, and else nothing
changes. -/
theorem lookup_by_file_name (hwanted : fileName? library.toList = some wanted) :
    (∀ lines' dir, Edits lines lines' →
      (ofLines lines').lookup library = (ofLines lines).lookup library ∧
        (ofLines lines').lookup (String.ofList (dir ++ '/' :: library.toList)) =
          (ofLines lines).lookup library) ∧
      (∀ before entry after, (ofLines lines).entries = before ++ entry :: after →
        isExact wanted entry = true → (∀ other ∈ before, isExact wanted other = false) →
          (ofLines lines).lookup library = some entry.2) ∧
      (∀ lines', lines.Perm lines' → (ofLines lines).entries.countP (isExact wanted) = 1 →
        (ofLines lines').lookup library = (ofLines lines).lookup library) ∧
      ∀ e : Executable,
        (∃ address, e.library.bind (ofLines lines).lookup = some address ∧
          (ofLines lines).resolve e =
            { state := { e with loadAddress := address }, result := .ok address }) ∨
        (e.library.bind (ofLines lines).lookup = none ∧
          ∃ cause, (ofLines lines).resolve e = { state := e, result := .error cause }) := by
  refine ⟨fun lines' dir hedits => ⟨lookup_congr hedits.files rfl, ?_⟩, ?_, ?_, fun e => ?_⟩
  · refine lookup_congr hedits.files ?_
    rw [String.toList_ofList, fileName?_append_cons dir (by rw [hwanted]; rfl)]
  · intro before entry after hsplit hentry hbefore
    refine lookup_of_exact hwanted ?_
    rw [List.find?_eq_some_iff_append]
    exact ⟨hentry, before, after, hsplit, by simpa using hbefore⟩
  · intro lines' hperm hone
    obtain ⟨entry, hentry, hentry'⟩ := find?_exact_perm hperm hone
    rw [lookup_of_exact hwanted hentry, lookup_of_exact hwanted hentry']
  · cases h : e.library.bind (ofLines lines).lookup with
    | none => exact .inr ⟨rfl, resolve_of_none h⟩
    | some address => exact .inl ⟨address, rfl, resolve_of_some h⟩

def threeLibraries : List String :=
  ["/lib/libfoo.so.1 40000000", "libc.so 10000", "libfoo.so 0x50000000"]

def threeLibraries' : List String :=
  ["/lib/libfoo.so.1 40000000", "", "opt/libc.so 10000", "libfoo.so zz", "libfoo.so 0x50000000"]

theorem edits_threeLibraries : Edits threeLibraries threeLibraries' := by
  have hmoves : Line.Moves "libc.so 10000" "opt/libc.so 10000" [] "opt".toList "libc.so".toList
      " 10000".toList :=
    { lead_blank := isBlank_of_mem_nil
      dir_solid := by simp [isBlank]
      name_solid := by simp [isBlank]
      rest_apart := by rintro _ ⟨rfl⟩; decide
      names_file := by decide
      before := by decide
      after := by decide }
  have hempty : Line.Noise "" := Line.noise_of_ofString (.inl (by decide +kernel))
  have hmalformed : Line.Noise "libfoo.so zz" := Line.noise_of_ofString (.inr (by decide +kernel))
  exact .keep _ (.insert hempty (.move hmoves (.insert hmalformed (.keep _ .nil))))

theorem lookup_by_file_name_threeLibraries :
    (ofLines threeLibraries').lookup (String.ofList ("build".toList ++ '/' :: "libfoo.so".toList)) =
        some 0x50000000 ∧
      (ofLines threeLibraries.reverse).lookup "libfoo.so" = some 0x50000000 := by
  have hwanted : fileName? "libfoo.so".toList = some "libfoo.so".toList := by decide
  obtain ⟨hedits, hexact, hperm, _⟩ := lookup_by_file_name hwanted
  have hfound : (ofLines threeLibraries).lookup "libfoo.so" = some 0x50000000 :=
    hexact [("/lib/libfoo.so.1", 0x40000000), ("libc.so", 0x10000)] ("libfoo.so", 0x50000000) []
      (by decide +kernel) (by decide) (by decide)
  refine ⟨?_, ?_⟩
  · rw [(hedits _ "build".toList edits_threeLibraries).2, hfound]
  · rw [hperm _ threeLibraries.reverse_perm.symm (by decide +kernel), hfound]

end LoadMap

end TraceCoverage
