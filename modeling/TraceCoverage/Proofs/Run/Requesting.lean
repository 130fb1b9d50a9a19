import TraceCoverage.Proofs.Listing.Closing
import TraceCoverage.Proofs.Listing.Grammar
import TraceCoverage.Proofs.Run.Parts

/-!
# Asking for a symbol by its label

A symbol list names one symbol on a line, and the name ends where the first blank stands. Listings
show demangled labels as well, which may have blanks. So a line that is a label asks for that symbol
if there is no blank in it, and else for its first word.
-/

namespace TraceCoverage

open Text

/-! ## Labels -/

namespace LineKind

variable {t : Target} {line : List Char} {offset : UInt32} {label : String}

theorem header?_of_ofLine (h : ofLine t line = .header offset label) :
    header? line = some (offset, label) := by
  unfold ofLine at h
  cases hheader : header? line with
  | some found =>
    rw [hheader] at h
    cases h
    rfl
  | none =>
    rw [hheader] at h
    dsimp only at h
    split at h
    next => cases h
    next => split at h <;> cases h

theorem ne_nil_of_ofLine (h : ofLine t line = .header offset label) : label.toList ≠ [] := by
  have hheader := header?_of_ofLine h
  unfold header? at hheader
  dsimp only at hheader
  split at hheader
  next =>
    split at hheader
    next hlabel =>
      cases hheader
      obtain ⟨name, _, _, _, hne, _, rfl⟩ := label?_eq_some_iff.1 hlabel
      rwa [String.toList_ofList]
    next => cases hheader
  next => cases hheader

end LineKind

/-! ## Symbol lists -/

namespace Registry

variable {r : Registry} {stream : TextStream} {line name label : String}

def firstField (line : String) : String := String.ofList (line.toList.takeWhile (!isBlank ·))

theorem firstField_eq_iff : firstField line = line ↔ ∀ c ∈ line.toList, isBlank c = false := by
  rw [firstField, ← String.toList_inj, String.toList_ofList, List.takeWhile_eq_self_iff]
  simp only [Bool.not_eq_true']

theorem not_isBlank_of_nameOnLine (h : nameOnLine line = some name) :
    ∀ c ∈ name.toList, isBlank c = false := by
  unfold nameOnLine at h
  split at h
  next => cases h
  next w rest hwords =>
    rw [Option.ite_none_left_eq_some, Option.some.injEq] at h
    obtain ⟨_, rfl⟩ := h
    intro c hc
    rw [String.toList_ofList] at hc
    exact not_isBlank_of_mem_words (hwords ▸ List.mem_cons_self) hc

theorem nameOnLine_eq_firstField (hne : line.toList ≠ []) (htrim : trim line.toList = line.toList)
    (hcomment : line.toList.head? ≠ some '#') : nameOnLine line = some (firstField line) := by
  obtain ⟨c, cs, hcs⟩ := List.exists_cons_of_ne_nil hne
  rw [hcs] at htrim hcomment
  have hc : isBlank c = false := not_isBlank_of_trim_eq htrim
  obtain ⟨rest, hrest⟩ := exists_words_eq hc cs
  have hhead : ((c :: cs).takeWhile (!isBlank ·)).head? = some c := by
    rw [List.takeWhile_cons_of_pos (by rw [hc]; rfl), List.head?_cons]
  rw [List.head?_cons] at hcomment
  rw [nameOnLine, firstField, hcs, hrest]
  dsimp only
  rw [hhead, if_neg (by simpa using hcomment)]

theorem contains_load_iff : (r.load stream).state.contains name = true ↔
    r.contains name = true ∨ ∃ line ∈ stream.lines, nameOnLine line = some name := by
  rw [contains, contains, Std.ExtTreeMap.contains_eq_isSome_getElem?,
    Std.ExtTreeMap.contains_eq_isSome_getElem?, load, Pipeline.getElem?_foldl_insert,
    Option.isSome_or, Bool.or_eq_true, ← List.mem_filterMap]
  split
  next hnamed => simp [hnamed]
  next hnamed => simp [hnamed]

end Registry

namespace Registry

variable {t : Target} {r : Registry} {stream : TextStream} {line label : String} {offset : UInt32}

/-- A line of a symbol list that is the label of a header asks for the first field of the label.
The label itself is wanted then if there is no blank in it, or if it was wanted before. In that
case, and in no other, the header opens its symbol when a listing is read. -/
theorem requested_by_label (hline : LineKind.ofLine t line.toList = .header offset label)
    (htrim : trim label.toList = label.toList) (hcomment : label.toList.head? ≠ some '#')
    (hlabel : label ∈ stream.lines) :
    (r.load stream).state.contains (firstField label) = true ∧
      ((r.load stream).state.contains label = true ↔
        r.contains label = true ∨ ∀ c ∈ label.toList, isBlank c = false) ∧
      ∀ reader : Listing.Reader, ∃ opened,
        Listing.Reader.step t (r.load stream).state.contains reader line = .ok opened ∧
          opened.current = if (r.load stream).state.contains label then
            some
              { name := label, start := reader.executable.loadAddress + offset
                lines := [{ text := line }] }
          else none := by
  have hname := nameOnLine_eq_firstField (LineKind.ne_nil_of_ofLine hline) htrim hcomment
  have hfirst : (r.load stream).state.contains (firstField label) = true :=
    contains_load_iff.2 (.inr ⟨label, hlabel, hname⟩)
  refine ⟨hfirst, ⟨fun hwanted => ?_, ?_⟩, fun reader => Listing.Reader.step_header hline⟩
  · refine (contains_load_iff.1 hwanted).imp_right ?_
    rintro ⟨other, _, hother⟩
    exact not_isBlank_of_nameOnLine hother
  · rintro (hbefore | hwhole)
    · exact contains_load_iff.2 (.inl hbefore)
    · rwa [firstField_eq_iff.2 hwhole] at hfirst

def methodHeader : String := "40001000 <Foo::bar(int)>:"

def methodList : TextStream := { lines := ["Foo::bar(int)"] }

theorem requested_by_label_method :
    ∃ opened, Listing.Reader.step Listing.i386 (load {} methodList).state.contains
        { executable := { id := 0, file := "a.exe" } } methodHeader = .ok opened ∧
      opened.current =
        some
          { name := "Foo::bar(int)", start := 0x40001000
            lines := [{ text := methodHeader }] } := by
  have hline : LineKind.ofLine Listing.i386 methodHeader.toList =
      .header 0x40001000 "Foo::bar(int)" := by
    decide +kernel
  have hlisted : "Foo::bar(int)" ∈ methodList.lines := List.mem_cons_self
  have hwhole : firstField "Foo::bar(int)" = "Foo::bar(int)" := by decide +kernel
  obtain ⟨_, hwanted, hopens⟩ :=
    requested_by_label (r := {}) hline (by decide +kernel) (by decide +kernel) hlisted
  obtain ⟨opened, hstep, hcurrent⟩ := hopens { executable := { id := 0, file := "a.exe" } }
  rw [if_pos (hwanted.2 (.inr (firstField_eq_iff.1 hwhole)))] at hcurrent
  exact ⟨opened, hstep, hcurrent⟩

def constMethodList : TextStream := { lines := ["Foo::bar(int) const"] }

/-- That label has a blank, and its line does not ask for it. -/
theorem not_requested_by_label :
    LineKind.ofLine Listing.i386 "40001000 <Foo::bar(int) const>:".toList =
        .header 0x40001000 "Foo::bar(int) const" ∧
      trim "Foo::bar(int) const".toList = "Foo::bar(int) const".toList ∧
      "Foo::bar(int) const".toList.head? ≠ some '#' ∧
      "Foo::bar(int) const" ∈ constMethodList.lines ∧
      (load {} constMethodList).state.contains "Foo::bar(int) const" = false := by
  decide +kernel

end Registry

end TraceCoverage
