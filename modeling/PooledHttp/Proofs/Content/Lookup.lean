import PooledHttp.Content.FileTree

/-! What a path text names, as a relation in which nothing limits the links that are followed, and how
far the walk agrees with it. The walk finds what the relation reaches by few enough links. Where it
says that nothing is there, or that a file stands where a directory is needed, no number of links
would have led anywhere. -/

namespace PooledHttp

namespace FileTree

/-- A name that can be looked up in a directory. -/
structure Enters (t : FileTree) (here : Place) (name : List Char) : Prop where
  directory : t.isDirectory here = true
  notDot : name ≠ ['.']
  notParent : name ≠ Target.parent
  short : (Utf8.encode name).length ≤ longestName

/-- From a place and names to go, following so many links, to another place and the names left. -/
inductive Reaches (t : FileTree) : Nat → Place → List (List Char) → Place → List (List Char) → Prop
  | refl (here : Place) (names : List (List Char)) : Reaches t 0 here names here names
  | stay {links : Nat} {here place : Place} {rest left : List (List Char)}
    (directory : t.isDirectory here = true) (next : Reaches t links here rest place left) :
    Reaches t links here (['.'] :: rest) place left
  | up {links : Nat} {here place : Place} {rest left : List (List Char)}
    (directory : t.isDirectory here = true) (next : Reaches t links here.dropLast rest place left) :
    Reaches t links here (Target.parent :: rest) place left
  | down {links : Nat} {here place : Place} {name : List Char} {rest left : List (List Char)}
    {entry : Entry} (enters : t.Enters here name) (found : t.entry? (here ++ [name]) = some entry)
    (notLink : ∀ target, entry ≠ .link target)
    (next : Reaches t links (here ++ [name]) rest place left) :
    Reaches t links here (name :: rest) place left
  | follow {links : Nat} {here place : Place} {name target : List Char}
    {rest left : List (List Char)} (enters : t.Enters here name)
    (found : t.entry? (here ++ [name]) = some (.link target))
    (next : Reaches t links (origin here target) (steps target ++ rest) place left) :
    Reaches t (links + 1) here (name :: rest) place left

/-- The next name is missing from the directory, or the place itself from the tree. -/
def Misses (t : FileTree) (here : Place) : List (List Char) → Prop
  | [] => t.entry? here = none
  | name :: _ => t.Enters here name ∧ t.entry? (here ++ [name]) = none

variable {t : FileTree} {links : Nat} {here : Place} {name : List Char} {rest : List (List Char)}

theorem walk_nil :
    t.walk links here [] =
      match t.entry? here with
      | some entry => .ok (here, entry)
      | none => .error .notFound := by
  cases hentry : t.entry? here <;> simp only [walk, hentry]

theorem walk_dot (h : t.isDirectory here = true) :
    t.walk links here (['.'] :: rest) = t.walk links here rest := by
  rw [walk]
  simp [h]

theorem walk_parent (h : t.isDirectory here = true) :
    t.walk links here (Target.parent :: rest) = t.walk links here.dropLast rest := by
  have hdot : Target.parent ≠ ['.'] := by decide
  rw [walk]
  simp [h, hdot]

theorem Enters.walk_eq (h : t.Enters here name) :
    t.walk links here (name :: rest) =
      match t.entry? (here ++ [name]) with
      | none => .error .notFound
      | some (.link target) =>
        match links with
        | 0 => .error .tooManyLinks
        | links + 1 => t.walk links (origin here target) (steps target ++ rest)
      | some _ => t.walk links (here ++ [name]) rest := by
  rcases hentry : t.entry? (here ++ [name]) with _ | (_ | _ | _) <;> cases links <;>
    simp only [walk, hentry, h.directory, h.notDot, h.notParent, Nat.not_lt.mpr h.short,
      Bool.not_true, Bool.false_eq_true, if_false]

/-- What the walk says at a place from which it cannot go on. -/
inductive Stops (t : FileTree) (here : Place) :
    List (List Char) → Except SystemError (Place × Entry) → Prop
  | found {entry : Entry} (h : t.entry? here = some entry) : Stops t here [] (.ok (here, entry))
  | missing {names : List (List Char)} (h : t.Misses here names) :
    Stops t here names (.error .notFound)
  | notDirectory (name : List Char) (rest : List (List Char)) (h : t.isDirectory here = false) :
    Stops t here (name :: rest) (.error .notDirectory)
  | nameTooLong {name : List Char} (rest : List (List Char)) (directory : t.isDirectory here = true)
    (notDot : name ≠ ['.']) (notParent : name ≠ Target.parent)
    (long : longestName < (Utf8.encode name).length) :
    Stops t here (name :: rest) (.error .nameTooLong)
  | tooManyLinks (names : List (List Char)) : Stops t here names (.error .tooManyLinks)

variable {names left : List (List Char)} {place : Place}

theorem Misses.walk_eq (h : t.Misses here names) : t.walk links here names = .error .notFound := by
  cases names with
  | nil =>
    have hnone : t.entry? here = none := h
    rw [walk_nil, hnone]
  | cons name rest => rw [h.1.walk_eq, h.2]

/-- Except for want of links, it says the same with any number of them. -/
theorem Stops.walk_eq {result : Except SystemError (Place × Entry)} (h : t.Stops here names result)
    (hne : result ≠ .error .tooManyLinks) : t.walk links here names = result := by
  cases h with
  | found h => rw [walk_nil, h]
  | missing h => exact h.walk_eq
  | notDirectory name rest h =>
    rw [walk]
    simp [h]
  | nameTooLong rest directory notDot notParent long =>
    rw [walk]
    simp [directory, notDot, notParent, long]
  | tooManyLinks names => exact absurd rfl hne

theorem Reaches.walk_eq {followed : Nat} (h : t.Reaches followed here names place left)
    (hle : followed ≤ links) :
    t.walk links here names = t.walk (links - followed) place left := by
  induction h generalizing links with
  | refl here names => rw [Nat.sub_zero]
  | stay directory next ih => rw [walk_dot directory, ih hle]
  | up directory next ih => rw [walk_parent directory, ih hle]
  | @down _ here _ name _ _ entry enters found notLink next ih =>
    rw [enters.walk_eq, found, ← ih hle]
    cases entry with
    | link target => exact absurd rfl (notLink target)
    | directory | file => rfl
  | @follow followed here _ name target _ _ enters found next ih =>
    obtain ⟨spare, rfl⟩ : ∃ spare, links = spare + 1 := ⟨links - 1, by omega⟩
    rw [enters.walk_eq, found, Nat.add_sub_add_right]
    exact ih (Nat.le_of_succ_le_succ hle)

theorem Reaches.trans {first second : Nat} {between : Place} {middle : List (List Char)}
    (h : t.Reaches first here names between middle)
    (h' : t.Reaches second between middle place left) :
    t.Reaches (first + second) here names place left := by
  induction h with
  | refl here names => rwa [Nat.zero_add]
  | stay directory next ih => exact .stay directory (ih h')
  | up directory next ih => exact .up directory (ih h')
  | down enters found notLink next ih => exact .down enters found notLink (ih h')
  | follow enters found next ih =>
    rw [Nat.add_right_comm]
    exact .follow enters found (ih h')

/-- Names behind those to go stay where they are. -/
theorem Reaches.carry {followed : Nat} (h : t.Reaches followed here names place left)
    (more : List (List Char)) : t.Reaches followed here (names ++ more) place (left ++ more) := by
  induction h with
  | refl here names => exact .refl here (names ++ more)
  | stay directory next ih => exact .stay directory ih
  | up directory next ih => exact .up directory ih
  | down enters found notLink next ih => exact .down enters found notLink ih
  | follow enters found next ih =>
    rw [List.append_assoc] at ih
    exact .follow enters found ih

/-- A way along the names in front, and from where it ends one along those behind. -/
def Passes (t : FileTree) (followed : Nat) (here : Place) (front back : List (List Char))
    (place : Place) : Prop :=
  ∃ first second between, first + second = followed ∧ t.Reaches first here front between [] ∧
    t.Reaches second between back place []

theorem Passes.nil {followed : Nat} {back : List (List Char)}
    (h : t.Reaches followed here back place []) : t.Passes followed here [] back place :=
  ⟨0, followed, here, Nat.zero_add _, .refl _ _, h⟩

theorem Passes.before {followed : Nat} {next : Place} {front front' back : List (List Char)}
    (h : t.Passes followed next front' back place) (more : Nat)
    (hfront : ∀ {links : Nat} {between : Place}, t.Reaches links next front' between [] →
      t.Reaches (links + more) here front between []) :
    t.Passes (followed + more) here front back place := by
  obtain ⟨first, second, between, rfl, hfirst, hsecond⟩ := h
  exact ⟨first + more, second, between, Nat.add_right_comm _ _ _, hfront hfirst, hsecond⟩

theorem Reaches.passes {followed : Nat} {front back : List (List Char)}
    (h : t.Reaches followed here (front ++ back) place []) :
    t.Passes followed here front back place := by
  generalize hnames : front ++ back = names at h
  generalize hleft : ([] : List (List Char)) = left at h
  -- A link puts its target's names before the others, so `front` changes on the way.
  induction h generalizing front with
  | refl here names =>
    obtain ⟨rfl, rfl⟩ := List.append_eq_nil_iff.mp (hnames.trans hleft.symm)
    exact .nil (.refl _ _)
  | stay directory next ih =>
    cases front with
    | nil =>
      subst hnames hleft
      exact .nil (.stay directory next)
    | cons name front =>
      obtain ⟨rfl, hrest⟩ := List.cons.inj hnames
      exact (ih hrest hleft).before 0 (.stay directory)
  | up directory next ih =>
    cases front with
    | nil =>
      subst hnames hleft
      exact .nil (.up directory next)
    | cons name front =>
      obtain ⟨rfl, hrest⟩ := List.cons.inj hnames
      exact (ih hrest hleft).before 0 (.up directory)
  | down enters found notLink next ih =>
    cases front with
    | nil =>
      subst hnames hleft
      exact .nil (.down enters found notLink next)
    | cons name front =>
      obtain ⟨rfl, hrest⟩ := List.cons.inj hnames
      exact (ih hrest hleft).before 0 (.down enters found notLink)
  | follow enters found next ih =>
    cases front with
    | nil =>
      subst hnames hleft
      exact .nil (.follow enters found next)
    | cons name front =>
      obtain ⟨rfl, rfl⟩ := List.cons.inj hnames
      exact (ih (List.append_assoc _ _ _) hleft).before 1 (.follow enters found)

/-- Only from a directory is there anywhere to go. -/
theorem Reaches.isDirectory {followed : Nat} (h : t.Reaches followed here (name :: rest) place []) :
    t.isDirectory here = true := by
  cases h with
  | stay directory next => exact directory
  | up directory next => exact directory
  | down enters found notLink next => exact enters.directory
  | follow enters found next => exact enters.directory

/-- Where one way along the names ends at an entry, every way does. -/
theorem Reaches.place_eq {followed followed' : Nat} {place' : Place} {entry : Entry}
    (h : t.Reaches followed here names place []) (hentry : t.entry? place = some entry)
    (h' : t.Reaches followed' here names place' []) : place' = place := by
  have hwalk := h.walk_eq (Nat.le_max_left followed followed')
  rw [h'.walk_eq (Nat.le_max_right followed followed'), walk_nil, walk_nil, hentry] at hwalk
  cases hentry' : t.entry? place' with
  | none => simp [hentry'] at hwalk
  | some entry' =>
    rw [hentry'] at hwalk
    exact (Prod.mk.inj (Except.ok.inj hwalk)).1

end FileTree

namespace Machine

/-- Goes along a path text. The empty text is no path, nor is one with a NUL in it. -/
structure Goes (m : Machine) (path : List Char) (links : Nat) (place : Place)
    (left : List (List Char)) : Prop where
  notEmpty : path ≠ []
  noNul : '\x00' ∉ path
  reaches : m.tree.Reaches links (FileTree.origin m.directory path) (FileTree.steps path) place left

/-- What a path text names, however many links lead there. -/
def Names (m : Machine) (path : List Char) (place : Place) (entry : Entry) : Prop :=
  ∃ links, m.Goes path links place [] ∧ m.tree.entry? place = some entry

/-- What is found under a path text of bearable length, through few enough links. -/
def Finds (m : Machine) (path : List Char) (place : Place) (entry : Entry) : Prop :=
  (Utf8.encode path).length ≤ FileTree.longestPath ∧ ∃ links ≤ FileTree.mostLinks,
    m.Goes path links place [] ∧ m.tree.entry? place = some entry

variable {m : Machine} {path : List Char} {place : Place} {entry : Entry}

theorem Finds.names (h : m.Finds path place entry) : m.Names path place entry := by
  obtain ⟨-, links, -, hgoes, hentry⟩ := h
  exact ⟨links, hgoes, hentry⟩

end Machine

end PooledHttp
