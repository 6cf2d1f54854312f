import PooledHttp.Config
import PooledHttp.Proofs.Handler.Status

/-! Where a program is looked up. The file that a path leads to is inspected from the directory of the
server. The process that is to run it has moved to the document root before it looks up the same
text. Under an absolute root both find one file. A relative root is gone through twice, and what is
found there need not be what was inspected. -/

namespace PooledHttp

open Target

namespace FileTree

/-- The names in a path text, with or without a slash at its end. -/
def parts (path : List Char) : List (List Char) := (segments path).filter (· ≠ [])

theorem steps_eq (path : List Char) :
    steps path = parts path ++ if path.getLast? = some '/' then [['.']] else [] := by
  rw [steps, parts]
  split
  · rfl
  · rw [List.append_nil]

theorem parts_append (front back : List Char) :
    parts (front ++ '/' :: back) = parts front ++ parts back := by
  rw [parts, segments_append, List.filter_append]
  rfl

theorem parts_push (base : List Char) {path : List Char} (h : path.head? ≠ some '/') :
    parts (push base path) = parts base ++ parts path := by
  have hnil : parts [] = [] := rfl
  rcases push_cases base h with ⟨rfl, hpush⟩ | ⟨front, rfl, hpush⟩ | ⟨-, hpush⟩
  · rw [hpush, hnil, List.nil_append]
  · rw [hpush, parts_append, parts_append, hnil, List.append_nil]
  · rw [hpush, parts_append]

theorem steps_push (base : List Char) {path : List Char} (h : path.head? ≠ some '/')
    (hne : path ≠ []) : steps (push base path) = parts base ++ steps path := by
  obtain ⟨front, hfront⟩ := path_isSuffix_push base h
  have hlast : (push base path).getLast? = path.getLast? := by
    rw [← hfront, List.getLast?_append_of_ne_nil _ hne]
  rw [steps_eq, steps_eq, hlast, parts_push base h, List.append_assoc]

theorem parts_of_isName {name : List Char} (h : IsName name) : parts name = [name] := by
  rw [parts, h.segments]
  simp [h.ne_nil]

theorem steps_of_isName {name : List Char} (h : IsName name) : steps name = [name] := by
  have hlast : name.getLast? ≠ some '/' := fun he => h.no_slash (List.mem_of_getLast? he)
  rw [steps_eq, if_neg hlast, parts_of_isName h, List.append_nil]

theorem steps_foldl_push {names : List (List Char)} (h : ∀ name ∈ names, IsName name)
    (hne : names ≠ []) (base : List Char) :
    steps (names.foldl push base) = parts base ++ names := by
  induction names generalizing base with
  | nil => exact absurd rfl hne
  | cons name names ih =>
    have hname := h name List.mem_cons_self
    rw [List.foldl_cons]
    by_cases hlast : names = []
    · rw [hlast, List.foldl_nil, steps_push base hname.head? hname.ne_nil, steps_of_isName hname]
    · rw [ih (fun other ho => h other (List.mem_cons_of_mem _ ho)) hlast, parts_push base hname.head?,
        parts_of_isName hname, List.append_assoc, List.singleton_append]

variable {t : FileTree}

theorem entry?_of_isDirectory {place : Place} (h : t.isDirectory place = true) :
    t.entry? place = some .directory := eq_of_beq h

/-- A slash at the end of a path asks for what is true of a directory anyway. -/
theorem Reaches.steps {here place : Place} {path : List Char} {followed : Nat}
    (h : t.Reaches followed here (parts path) place []) (hdirectory : t.isDirectory place = true) :
    t.Reaches followed here (steps path) place [] := by
  rw [steps_eq]
  split
  · exact (h.carry [['.']]).trans (.stay hdirectory (.refl _ _))
  · rwa [List.append_nil]

theorem Reaches.parts {here place : Place} {path : List Char} {followed : Nat}
    (h : t.Reaches followed here (FileTree.steps path) place []) :
    ∃ fewer, t.Reaches fewer here (parts path) place [] := by
  rw [steps_eq] at h
  split at h
  · obtain ⟨first, second, between, -, hfirst, hsecond⟩ := h.passes
    have hbetween := hsecond.isDirectory
    have hstay : t.Reaches 0 between [['.']] between [] := .stay hbetween (.refl _ _)
    have hplace : place = between := hstay.place_eq (entry?_of_isDirectory hbetween) hsecond
    exact ⟨first, hplace ▸ hfirst⟩
  · rw [List.append_nil] at h
    exact ⟨followed, h⟩

end FileTree

namespace Below

variable {root file : String} {names : List (List Char)}

theorem isPrefix (h : Below root names file) : root.toList <+: file.toList := by
  rw [h.text]
  exact base_isPrefix_foldl_push h.plain root.toList

theorem head? (h : Below root names file) (hroot : root.toList ≠ []) :
    file.toList.head? = root.toList.head? := by
  obtain ⟨rest, hrest⟩ := h.isPrefix
  rw [← hrest, List.head?_append_of_ne_nil _ hroot]

theorem steps (h : Below root names file) (hnames : names ≠ []) :
    FileTree.steps file.toList = FileTree.parts root.toList ++ names := by
  rw [h.text, FileTree.steps_foldl_push h.plain hnames]

end Below

namespace Machine

variable {m : Machine} {place base : Place} {entry : Entry}

end Machine

namespace Program

/-- Runs a file as a program. -/
def start (m : Machine) (content : Bytes) (name value : List Char) : Except SystemError Bytes :=
  if longestSetting < (Utf8.encode (name ++ '=' :: value)).length then .error .argumentsTooLong
  else
    match interpreter? content with
    | none => .error .execFormat
    | some interpreter =>
      match executable m interpreter with
      | .error e => .error e
      | .ok (place, _) =>
        if place = shellPlace then
          .ok (Shell.output ⟨m, [(name, Shell.ofBytes (Utf8.encode value))]⟩ content)
        else .error .execFormat

/-- Looks a program up and runs it, once the process is where it is to run. -/
def launch (m : Machine) (path name value : List Char) : Except SystemError Bytes :=
  if '\x00' ∈ value then .error .nulByte
  else
    match executable m path with
    | .error e => .error e
    | .ok (_, content) => start m content name value

variable {m : Machine} {directory path : List Char}

end Program

namespace Site

/-- The page that a program makes, or its failure. -/
def page (path : String) : Except SystemError Bytes → Except ContentError Response
  | .ok output => .ok (.content "text/html" output)
  | .error cause => .error (.program path cause)

end Site

end PooledHttp
