import Mathlib
import FlowPaths.Report

/-!
Reading a report back.  Every line of a report ends in a line break, and on the line of a path every
name ends in an arrow.  So names without line breaks and arrow heads are found again, whatever else
they hold: blanks, dashes, the words of the report itself, or nothing at all.
-/

namespace FlowPaths.Report

def segments (x : Char) (cs : List Char) : List (List Char) × List Char :=
  ((cs.splitOn x).dropLast, (cs.splitOn x).getLastD [])

section

variable {x : Char} {cs last : List Char} {pieces : List (List Char)}

theorem splitOn_flatMap (hpieces : ∀ piece ∈ pieces, x ∉ piece) (hlast : x ∉ last) :
    (pieces.flatMap (· ++ [x]) ++ last).splitOn x = pieces ++ [last] := by
  induction pieces with
  | nil => exact List.splitOn_eq_singleton hlast
  | cons piece pieces ih =>
    obtain ⟨hpiece, hpieces⟩ := List.forall_mem_cons.1 hpieces
    rw [List.flatMap_cons, List.append_assoc, List.append_assoc, List.singleton_append,
      List.splitOn_append_cons_self_of_not_mem hpiece, ih hpieces, List.cons_append]

theorem exists_pieces (x : Char) (cs : List Char) :
    ∃ (pieces : List (List Char)) (last : List Char), (∀ piece ∈ pieces, x ∉ piece) ∧ x ∉ last ∧
      cs = pieces.flatMap (· ++ [x]) ++ last := by
  induction cs with
  | nil => exact ⟨[], [], by simp⟩
  | cons c cs ih =>
    obtain ⟨pieces, last, hpieces, hlast, rfl⟩ := ih
    by_cases hc : x = c
    · exact ⟨[] :: pieces, last, by simpa using hpieces, hlast, by simp [hc]⟩
    · -- The character belongs to whatever comes first, be it a piece or the rest.
      cases pieces with
      | nil => exact ⟨[], c :: last, by simp, by simp [hc, hlast], by simp⟩
      | cons piece pieces =>
        refine ⟨(c :: piece) :: pieces, last, ?_, hlast, by simp⟩
        simpa [hc] using hpieces

theorem segments_eq_iff :
    segments x cs = (pieces, last) ↔ (∀ piece ∈ pieces, x ∉ piece) ∧ x ∉ last ∧
      cs = pieces.flatMap (· ++ [x]) ++ last := by
  have hsegments : ∀ {pieces last}, (∀ piece ∈ pieces, x ∉ piece) → x ∉ last →
      segments x (pieces.flatMap (· ++ [x]) ++ last) = (pieces, last) := by
    intro pieces last hpieces hlast
    simp [segments, splitOn_flatMap hpieces hlast]
  constructor
  · intro h
    obtain ⟨pieces', last', hpieces, hlast, rfl⟩ := exists_pieces x cs
    rw [hsegments hpieces hlast] at h
    obtain ⟨rfl, rfl⟩ := Prod.mk.inj h
    exact ⟨hpieces, hlast, rfl⟩
  · rintro ⟨hpieces, hlast, rfl⟩
    exact hsegments hpieces hlast

end

/-! ### The reader -/

def hop (name : String) : List Char := ' ' :: name.toList ++ [' ', '-']

def readHop (piece : List Char) : Option String := do
  let rest ← piece.dropPrefix? [' ']
  let name ← rest.dropSuffix? [' ', '-']
  return String.ofList name

def label (number : Nat) : List Char := ("Path " ++ toString number ++ ":").toList

def readLine (number : Nat) (line : List Char) : Option (List String) := do
  let hops ← line.dropPrefix? (label number)
  let (pieces, last) := segments '>' hops
  -- No line is without an arrow: a path without names is written as if it had an empty one.
  guard (pieces ≠ [] ∧ last = (" " ++ endMarker).toList)
  pieces.mapM readHop

def readLines (first : Nat) : List (List Char) → Option (List (List String))
  | [] => some []
  | line :: lines => return (← readLine first line) :: (← readLines (first + 1) lines)

def readNumber (digits : List Char) : Option Nat :=
  (String.ofList digits).toNat?.filter fun n => (toString n).toList = digits

def readBody : List (List Char) → Option (Nat × List (List String))
  | [] :: header :: lines => do
    let digits ← header.dropPrefix? "Total paths found: ".toList
    let total ← readNumber digits
    let paths ← readLines 1 lines
    guard (total = paths.length)
    return (total, paths)
  | _ => none

def read (s : String) : Option (Nat × List (List String)) :=
  match segments '\n' s.toList with
  | (lines, []) => readBody lines
  | _ => none

/-! ### What is read is what was written -/

def pathOf (names : List String) : Path := names.map Value.text

theorem readHop_eq_some_iff {piece : List Char} {name : String} :
    readHop piece = some name ↔ piece = hop name := by
  simp only [readHop, Option.bind_eq_bind, Option.bind_eq_some_iff, List.dropPrefix?_eq_some_iff,
    List.dropSuffix?_eq_some_iff, beq_iff_eq, Option.pure_def, Option.some.injEq]
  constructor
  · rintro ⟨_, ⟨_, rfl, rfl⟩, cs, ⟨_, rfl, rfl⟩, rfl⟩
    simp [hop]
  · rintro rfl
    exact ⟨name.toList ++ [' ', '-'], ⟨_, rfl, rfl⟩, name.toList, ⟨_, rfl, rfl⟩,
      String.ofList_toList⟩

theorem mapM_readHop_eq_some_iff {pieces : List (List Char)} {names : List String} :
    pieces.mapM readHop = some names ↔ pieces = names.map hop := by
  induction pieces generalizing names with
  | nil => cases names <;> simp
  | cons piece pieces ih =>
    simp only [List.mapM_cons, Option.bind_eq_bind, Option.bind_eq_some_iff, readHop_eq_some_iff,
      ih, Option.pure_def, Option.some.injEq]
    constructor
    · rintro ⟨name, rfl, names, rfl, rfl⟩
      rfl
    · cases names with
      | nil => simp
      | cons name names => simp

theorem toList_hops {names : List String} (h : names ≠ []) :
    (" " ++ arrow.intercalate names ++ " ->").toList =
      (names.map hop).flatMap (· ++ ['>']) := by
  induction names with
  | nil => exact absurd rfl h
  | cons name names ih =>
    cases names with
    | nil => simp [hop]
    | cons next names =>
      rw [List.map_cons, List.flatMap_cons, ← ih (List.cons_ne_nil next names),
        String.intercalate_cons_cons]
      simp [arrow, hop]

theorem toList_pathLine (number : Nat) {names : List String} (h : names ≠ []) :
    (pathLine number (pathOf names)).toList =
      label number ++ ((names.map hop).flatMap (· ++ ['>']) ++ (" " ++ endMarker).toList) := by
  have htexts : (pathOf names).map Value.toText = names := by
    simp [pathOf, Value.toText, Function.comp_def]
  simp only [pathLine, htexts, label, ← toList_hops h]
  simp [arrow]

theorem readLine_eq_some_iff {number : Nat} {line : List Char} {names : List String} :
    readLine number line = some names ↔ names ≠ [] ∧ (∀ name ∈ names, '>' ∉ name.toList) ∧
      line = (pathLine number (pathOf names)).toList := by
  have hhop : ∀ name : String, '>' ∉ hop name ↔ '>' ∉ name.toList := by simp [hop]
  have hend : '>' ∉ (" " ++ endMarker).toList := by decide
  simp only [readLine, Option.bind_eq_bind, Option.bind_eq_some_iff, List.dropPrefix?_eq_some_iff,
    beq_iff_eq, Option.guard_eq_some', exists_const, mapM_readHop_eq_some_iff]
  constructor
  · rintro ⟨hops, ⟨_, rfl, rfl⟩, h⟩
    rcases hsegments : segments '>' hops with ⟨pieces, last⟩
    rw [hsegments] at h
    obtain ⟨⟨hpieces, rfl⟩, rfl⟩ := h
    obtain ⟨hheads, -, rfl⟩ := segments_eq_iff.1 hsegments
    have hnames : names ≠ [] := by simpa using hpieces
    refine ⟨hnames, fun name hname => ?_, (toList_pathLine number hnames).symm⟩
    exact (hhop name).1 (hheads _ (List.mem_map_of_mem hname))
  · rintro ⟨hnames, hheads, rfl⟩
    have hsegments := segments_eq_iff.2
      ⟨List.forall_mem_map.2 fun name hname => (hhop name).2 (hheads name hname), hend, rfl⟩
    refine ⟨_, ⟨_, toList_pathLine number hnames, rfl⟩, ?_⟩
    rw [hsegments]
    exact ⟨⟨by simpa using hnames, rfl⟩, rfl⟩

theorem readLines_eq_some_iff {first : Nat} {lines : List (List Char)}
    {paths : List (List String)} :
    readLines first lines = some paths ↔
      (∀ names ∈ paths, names ≠ [] ∧ ∀ name ∈ names, '>' ∉ name.toList) ∧
        lines = (pathLines first (paths.map pathOf)).map String.toList := by
  induction lines generalizing first paths with
  | nil => cases paths <;> simp [readLines, pathLines]
  | cons line lines ih =>
    simp only [readLines, Option.bind_eq_bind, Option.bind_eq_some_iff, readLine_eq_some_iff, ih,
      Option.pure_def, Option.some.injEq]
    constructor
    · rintro ⟨names, ⟨hnames, hheads, rfl⟩, paths, ⟨hpaths, rfl⟩, rfl⟩
      exact ⟨List.forall_mem_cons.2 ⟨⟨hnames, hheads⟩, hpaths⟩, rfl⟩
    · rintro ⟨hpaths, heq⟩
      cases paths with
      | nil => cases heq
      | cons names paths =>
        obtain ⟨⟨hnames, hheads⟩, hpaths⟩ := List.forall_mem_cons.1 hpaths
        obtain ⟨hline, hlines⟩ := List.cons.inj heq
        exact ⟨names, ⟨hnames, hheads, hline⟩, paths, ⟨hpaths, hlines⟩, rfl⟩

theorem readNumber_eq_some_iff {digits : List Char} {n : Nat} :
    readNumber digits = some n ↔ digits = (toString n).toList := by
  simp only [readNumber, Option.filter_eq_some_iff, decide_eq_true_eq]
  constructor
  · rintro ⟨-, h⟩
    exact h.symm
  · rintro rfl
    refine ⟨?_, rfl⟩
    rw [String.ofList_toList, Nat.toString_eq_repr, Nat.toNat?_repr]

/-! ### Line breaks -/

theorem newline_not_mem_toString (n : Nat) : '\n' ∉ (toString n).toList := by
  rw [Nat.toString_eq_repr, Nat.toList_repr]
  intro h
  have hdigit := Nat.isDigit_of_mem_toDigits (by decide) (by decide) h
  exact absurd hdigit (by decide)

theorem newline_not_mem_header (n : Nat) :
    '\n' ∉ ("Total paths found: " ++ toString n).toList := by
  rw [String.toList_append, List.mem_append, not_or]
  exact ⟨by decide, newline_not_mem_toString n⟩

theorem newline_not_mem_pathLine_iff (number : Nat) {names : List String} (h : names ≠ []) :
    '\n' ∉ (pathLine number (pathOf names)).toList ↔ ∀ name ∈ names, '\n' ∉ name.toList := by
  have hlabel : '\n' ∉ label number := by
    simp only [label, String.toList_append, List.mem_append, not_or]
    exact ⟨⟨by decide, newline_not_mem_toString number⟩, by decide⟩
  have hend : '\n' ∉ (" " ++ endMarker).toList := by decide
  rw [toList_pathLine number h]
  simp only [List.mem_append, hlabel, hend, false_or, or_false]
  simp [hop]

/-! ### Reports as a whole -/

def Legible (names : List String) : Prop :=
  names ≠ [] ∧ ∀ name ∈ names, '\n' ∉ name.toList ∧ '>' ∉ name.toList

instance : DecidablePred Legible := fun _ => inferInstanceAs (Decidable (_ ∧ _))

def body (paths : List Path) : List (List Char) :=
  [] :: ("Total paths found: " ++ toString paths.length).toList ::
    (pathLines 1 paths).map String.toList

theorem intercalate_newline (line : String) (lines : List String) :
    "\n".intercalate (line :: lines) ++ "\n" = String.join ((line :: lines).map (· ++ "\n")) := by
  induction lines generalizing line with
  | nil => simp [String.join_cons]
  | cons next lines ih =>
    rw [String.intercalate_cons_cons, String.append_assoc, ih next, ← String.join_cons]
    rfl

theorem toList_text (paths : List Path) :
    (text paths).toList = (body paths).flatMap (· ++ ['\n']) := by
  rw [text, intercalate_newline, String.toList_join]
  simp [body, List.flatMap_map]

theorem readBody_eq_some_iff {lines : List (List Char)} {total : Nat}
    {paths : List (List String)} :
    readBody lines = some (total, paths) ↔
      (∀ names ∈ paths, names ≠ [] ∧ ∀ name ∈ names, '>' ∉ name.toList) ∧
        total = paths.length ∧ lines = body (paths.map pathOf) := by
  fun_cases readBody lines with
  | case1 header lines =>
    simp only [Option.bind_eq_bind, Option.bind_eq_some_iff, List.dropPrefix?_eq_some_iff,
      beq_iff_eq, readNumber_eq_some_iff, readLines_eq_some_iff, Option.guard_eq_some',
      exists_const, Option.pure_def, Option.some.injEq, Prod.mk.injEq]
    constructor
    · rintro ⟨_, ⟨_, rfl, rfl⟩, _, rfl, _, ⟨hpaths, rfl⟩, rfl, rfl, rfl⟩
      exact ⟨hpaths, rfl, by simp [body]⟩
    · rintro ⟨hpaths, rfl, heq⟩
      simp only [body, List.cons.injEq, true_and, String.toList_append, List.length_map] at heq
      obtain ⟨rfl, rfl⟩ := heq
      exact ⟨_, ⟨_, rfl, rfl⟩, _, rfl, _, ⟨hpaths, rfl⟩, rfl, rfl, rfl⟩
  | case2 lines hlines =>
    simp only [reduceCtorEq, false_iff]
    rintro ⟨-, -, rfl⟩
    exact hlines _ _ rfl

theorem newline_not_mem_pathLines_iff (first : Nat) {paths : List (List String)}
    (h : ∀ names ∈ paths, names ≠ []) :
    (∀ line ∈ (pathLines first (paths.map pathOf)).map String.toList, '\n' ∉ line) ↔
      ∀ names ∈ paths, ∀ name ∈ names, '\n' ∉ name.toList := by
  induction paths generalizing first with
  | nil => simp [pathLines]
  | cons names paths ih =>
    obtain ⟨hnames, hpaths⟩ := List.forall_mem_cons.1 h
    rw [List.map_cons, pathLines, List.map_cons, List.forall_mem_cons, List.forall_mem_cons,
      newline_not_mem_pathLine_iff first hnames, ih (first + 1) hpaths]

theorem newline_not_mem_body_iff {paths : List (List String)} (h : ∀ names ∈ paths, names ≠ []) :
    (∀ line ∈ body (paths.map pathOf), '\n' ∉ line) ↔
      ∀ names ∈ paths, ∀ name ∈ names, '\n' ∉ name.toList := by
  rw [body, List.forall_mem_cons, List.forall_mem_cons, newline_not_mem_pathLines_iff 1 h]
  simp only [List.not_mem_nil, not_false_eq_true, newline_not_mem_header, true_and]

theorem forall_legible_iff {paths : List (List String)} :
    (∀ names ∈ paths, Legible names) ↔
      (∀ names ∈ paths, names ≠ [] ∧ ∀ name ∈ names, '>' ∉ name.toList) ∧
        ∀ names ∈ paths, ∀ name ∈ names, '\n' ∉ name.toList := by
  simp only [Legible]
  grind

theorem read_eq_some_iff {s : String} {total : Nat} {paths : List (List String)} :
    read s = some (total, paths) ↔
      (∀ names ∈ paths, Legible names) ∧ total = paths.length ∧ s = text (paths.map pathOf) := by
  have hread : read s = some (total, paths) ↔
      ∃ lines, segments '\n' s.toList = (lines, []) ∧ readBody lines = some (total, paths) := by
    unfold read
    split
    · rename_i lines hlines
      simp [hlines]
    · rename_i hlines
      simp only [reduceCtorEq, false_iff]
      rintro ⟨lines, heq, -⟩
      exact hlines lines heq
  simp only [hread, readBody_eq_some_iff, segments_eq_iff, List.append_nil, forall_legible_iff]
  constructor
  · rintro ⟨_, ⟨hbreaks, -, htext⟩, hpaths, rfl, rfl⟩
    refine ⟨⟨hpaths, ?_⟩, rfl, ?_⟩
    · exact (newline_not_mem_body_iff fun names hnames => (hpaths names hnames).1).1 hbreaks
    · rw [← String.toList_inj, htext, toList_text]
  · rintro ⟨⟨hpaths, hbreaks⟩, rfl, rfl⟩
    refine ⟨_, ⟨?_, List.not_mem_nil, toList_text _⟩, hpaths, rfl, rfl⟩
    exact (newline_not_mem_body_iff fun names hnames => (hpaths names hnames).1).2 hbreaks

/-- A report determines its paths, if their names are texts without line breaks and arrow heads and
no path is empty.  The reader finds them again, in order and with their number, and accepts nothing
but such reports. -/
theorem text_determines_paths :
    (∀ (s : String) (total : Nat) (paths : List (List String)),
      read s = some (total, paths) ↔
        (∀ names ∈ paths, Legible names) ∧ total = paths.length ∧
          s = text (paths.map pathOf)) ∧
      ∀ paths paths' : List (List String), (∀ names ∈ paths, Legible names) →
        (∀ names ∈ paths', Legible names) →
        text (paths.map pathOf) = text (paths'.map pathOf) → paths = paths' := by
  refine ⟨fun s total paths => read_eq_some_iff, fun paths paths' hpaths hpaths' htext => ?_⟩
  have hread : read (text (paths.map pathOf)) = some (paths.length, paths) :=
    read_eq_some_iff.2 ⟨hpaths, rfl, rfl⟩
  have hread' : read (text (paths.map pathOf)) = some (paths'.length, paths') :=
    read_eq_some_iff.2 ⟨hpaths', rfl, htext⟩
  exact (Prod.mk.inj (Option.some.inj (hread.symm.trans hread'))).2

theorem text_determines_awkward_paths :
    let paths := [["", "Path 2: a -", "END"], ["1 -", "b"]]
    let paths' := [["", "Path 2: a -", "END"], ["1", "- b"]]
    (∀ names ∈ paths, Legible names) ∧ (∀ names ∈ paths', Legible names) ∧
      read (text (paths.map pathOf)) = some (2, paths) ∧
      text (paths.map pathOf) ≠ text (paths'.map pathOf) := by
  intro paths paths'
  have hpaths : ∀ names ∈ paths, Legible names := by decide
  have hpaths' : ∀ names ∈ paths', Legible names := by decide
  refine ⟨hpaths, hpaths', ?_, fun htext => ?_⟩
  · exact (text_determines_paths.1 _ _ _).2 ⟨hpaths, rfl, rfl⟩
  · exact absurd (text_determines_paths.2 _ _ hpaths hpaths' htext) (by decide)

-- An arrow in a name, or a path without names, can be taken for something else.
example : text [pathOf ["a -> b"]] = text [pathOf ["a", "b"]] := rfl
example : text [pathOf []] = text [pathOf [""]] := rfl

end FlowPaths.Report
