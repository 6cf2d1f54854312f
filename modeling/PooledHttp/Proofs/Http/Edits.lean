import Mathlib.Data.List.Induction
import PooledHttp.Proofs.Http.Response

/-! How an answer is put together: from one of three beginnings, by headers that are set one at a time or
a block at a time and by bodies that are put in. Whatever the order, the headers are a map that
remembers in which order its names first came. -/

namespace PooledHttp

namespace Response

theorem lookup_field (field : String × String) (fields : List (String × String)) (name : String) :
    (field :: fields).lookup name = if name = field.1 then some field.2 else fields.lookup name := by
  obtain ⟨first, value⟩ := field
  rw [List.lookup_cons]
  by_cases he : name = first
  · simp [he]
  · rw [beq_false_of_ne he, if_neg he]

theorem lookup_eq_none {fields : List (String × String)} {name : String}
    (h : name ∉ fields.map Prod.fst) : fields.lookup name = none := by
  rw [List.lookup_eq_none_iff]
  intro field hmem
  rw [bne_iff_ne]
  rintro rfl
  exact h (List.mem_map_of_mem hmem)

theorem setIn_names (name value : String) (fields : List (String × String)) :
    (setIn name value fields).map Prod.fst =
      if name ∈ fields.map Prod.fst then fields.map Prod.fst else fields.map Prod.fst ++ [name] := by
  induction fields with
  | nil => rfl
  | cons field fields ih =>
    by_cases he : field.1 = name
    · simp [setIn, he]
    · have hne : name ≠ field.1 := fun h => he h.symm
      rw [setIn, if_neg he, List.map_cons, ih]
      by_cases hmem : name ∈ fields.map Prod.fst
      · rw [if_pos hmem, List.map_cons, if_pos (List.mem_cons_of_mem _ hmem)]
      · rw [if_neg hmem, List.map_cons, if_neg (List.not_mem_cons_of_ne_of_not_mem hne hmem),
          List.cons_append]

theorem setIn_nodup {fields : List (String × String)} (h : (fields.map Prod.fst).Nodup)
    (name value : String) : ((setIn name value fields).map Prod.fst).Nodup := by
  rw [setIn_names]
  split
  · exact h
  · next hnot => exact List.concat_eq_append ▸ h.concat hnot

theorem lookup_setIn (name value : String) (fields : List (String × String)) (other : String) :
    (setIn name value fields).lookup other =
      if other = name then some value else fields.lookup other := by
  induction fields with
  | nil => exact lookup_field (name, value) [] other
  | cons field fields ih =>
    obtain ⟨first, found⟩ := field
    rw [setIn, lookup_field]
    by_cases he : first = name
    · rw [if_pos he, lookup_field, he]
      split <;> rfl
    · rw [if_neg he, lookup_field, ih]
      by_cases ho : other = first
      · have hne : other ≠ name := fun h => he (ho ▸ h)
        rw [if_pos ho, if_neg hne, if_pos ho]
      · rw [if_neg ho, if_neg ho]

/-- Sets these one after the other. -/
def setAll (given fields : List (String × String)) : List (String × String) :=
  given.foldl (fun fields field => setIn field.1 field.2 fields) fields

theorem setAll_append (given more fields : List (String × String)) :
    setAll (given ++ more) fields = setAll more (setAll given fields) := List.foldl_append

theorem setHeaders_headers (r : Response) (given : List (String × String)) :
    (r.setHeaders given).headers = setAll given r.headers := by
  induction given generalizing r with
  | nil => rfl
  | cons field given ih => exact ih (r.setHeader field.1 field.2)

theorem setAll_nodup {fields : List (String × String)} (h : (fields.map Prod.fst).Nodup)
    (given : List (String × String)) : ((setAll given fields).map Prod.fst).Nodup := by
  induction given generalizing fields with
  | nil => exact h
  | cons field given ih => exact ih (setIn_nodup h field.1 field.2)

theorem setAll_nil_nodup (given : List (String × String)) :
    ((setAll given []).map Prod.fst).Nodup :=
  setAll_nodup (show (([] : List (String × String)).map Prod.fst).Nodup from List.nodup_nil) given

/-- The value that a name was given last is the one that is found. -/
theorem lookup_setAll (given fields : List (String × String)) (name : String) :
    (setAll given fields).lookup name = (given.reverse.lookup name).or (fields.lookup name) := by
  induction given generalizing fields with
  | nil => rfl
  | cons field given ih =>
    have hset : (setAll (field :: given) fields).lookup name =
        (given.reverse.lookup name).or ((setIn field.1 field.2 fields).lookup name) := ih _
    rw [hset, lookup_setIn, List.reverse_cons, List.lookup_append, Option.or_assoc, lookup_field]
    by_cases he : name = field.1
    · rw [if_pos he, if_pos he, Option.some_or]
    · rw [if_neg he, if_neg he, List.lookup_nil, Option.none_or]

/-- The names stand in the order in which each came first. -/
theorem setAll_names (given : List (String × String)) :
    (setAll given []).map Prod.fst = (given.map Prod.fst).eraseDups := by
  induction given using List.reverseRecOn with
  | nil => rfl
  | append_singleton given field ih =>
    have hset : setAll (given ++ [field]) [] = setIn field.1 field.2 (setAll given []) :=
      setAll_append given [field] []
    rw [hset, setIn_names, ih, List.map_append, List.map_singleton, List.eraseDups_append]
    by_cases hmem : field.1 ∈ given.map Prod.fst
    · have hnone : [field.1].removeAll (given.map Prod.fst) = [] := by simp [List.removeAll, hmem]
      rw [if_pos (List.mem_eraseDups.mpr hmem), hnone, List.eraseDups_nil, List.append_nil]
    · have hone : [field.1].removeAll (given.map Prod.fst) = [field.1] := by
        simp [List.removeAll, hmem]
      rw [if_neg (mt List.mem_eraseDups.mp hmem), hone]
      rfl

theorem fields_ext {fields others : List (String × String)}
    (hnames : fields.map Prod.fst = others.map Prod.fst) (hnodup : (fields.map Prod.fst).Nodup)
    (hlookup : ∀ name, fields.lookup name = others.lookup name) : fields = others := by
  induction fields generalizing others with
  | nil => exact (List.map_eq_nil_iff.mp hnames.symm).symm
  | cons field fields ih =>
    obtain _ | ⟨other, others⟩ := others
    · cases hnames
    · rw [List.map_cons, List.map_cons, List.cons.injEq] at hnames
      rw [List.map_cons, List.nodup_cons] at hnodup
      obtain ⟨name, value⟩ := field
      obtain ⟨name', value'⟩ := other
      obtain ⟨hname, hrest⟩ := hnames
      obtain rfl : name = name' := hname
      have hvalue : value = value' := by
        have hfirst := hlookup name
        rw [lookup_field, lookup_field, if_pos rfl, if_pos rfl] at hfirst
        exact Option.some.inj hfirst
      have htail : fields = others := by
        refine ih hrest hnodup.2 fun other => ?_
        by_cases he : other = name
        · rw [he, lookup_eq_none hnodup.1, lookup_eq_none (hrest ▸ hnodup.1)]
        · have hother := hlookup other
          rwa [lookup_field, lookup_field, if_neg he, if_neg he] at hother
      rw [hvalue, htail]

/-- What was given again changes nothing. -/
theorem setAll_again (given block : List (String × String)) :
    setAll block (setAll (given ++ block) []) = setAll (given ++ block) [] := by
  rw [← setAll_append]
  refine fields_ext ?_ (setAll_nil_nodup _) fun name => ?_
  · have hnone : (block.map Prod.fst).removeAll ((given ++ block).map Prod.fst) = [] := by
      rw [List.removeAll, List.filter_eq_nil_iff]
      intro name hmem
      simpa using fun _ => hmem
    rw [setAll_names, setAll_names, List.map_append, List.eraseDups_append, hnone,
      List.eraseDups_nil, List.append_nil]
  · rw [lookup_setAll, lookup_setAll, List.reverse_append, List.reverse_append, List.lookup_append,
      List.lookup_append]
    cases block.reverse.lookup name <;> rfl

/-- What an answer begins as. -/
inductive Origin
  | new (status : Status)
  | content (mediaType : String) (body : Bytes)
  | error (status : Status) (cause message : String)

/-- What is then done to it. -/
inductive Edit
  | header (name value : String)
  | body (bytes : Bytes)
  | block (fields : List (String × String))

def Edit.apply (r : Response) : Edit → Response
  | header name value => r.setHeader name value
  | body bytes => r.withBody bytes
  | block fields => r.setHeaders fields

def edited (r : Response) (edits : List Edit) : Response := edits.foldl Edit.apply r

/-- The headers that are set, in their order. -/
def Edit.given : Edit → List (String × String)
  | header name value => [(name, value)]
  | body bytes => [("Content-Length", Decimal.text bytes.length)]
  | block fields => fields

namespace Origin

def response : Origin → Response
  | new status => empty status
  | content mediaType body => Response.content mediaType body
  | error status cause message => Response.error status cause message

def status : Origin → Status
  | new status => status
  | content _ _ => .ok
  | error status _ _ => status

/-- What the beginning itself has done to an empty answer. -/
def edits : Origin → List Edit
  | new _ => []
  | content mediaType body => [.header "Content-Type" mediaType, .body body]
  | error status cause message =>
    [.header "Content-Type" "text/html", .body (Utf8.ofString (errorPage status cause message))]

theorem response_eq (origin : Origin) :
    origin.response = (empty origin.status).edited origin.edits := by
  cases origin <;> rfl

end Origin

theorem edited_append (r : Response) (edits more : List Edit) :
    r.edited (edits ++ more) = (r.edited edits).edited more := List.foldl_append

theorem Edit.apply_headers (r : Response) (edit : Edit) :
    (edit.apply r).headers = setAll edit.given r.headers := by
  cases edit with
  | header | body => rfl
  | block fields => exact setHeaders_headers r fields

theorem edited_headers (r : Response) (edits : List Edit) :
    (r.edited edits).headers = setAll (edits.flatMap Edit.given) r.headers := by
  induction edits generalizing r with
  | nil => rfl
  | cons edit edits ih =>
    have hrest : (r.edited (edit :: edits)).headers =
        setAll (edits.flatMap Edit.given) (edit.apply r).headers := ih _
    rw [hrest, List.flatMap_cons, setAll_append, edit.apply_headers]

/-- As long as nothing sets the length, the body stays. -/
theorem edited_body {edits : List Edit}
    (h : "Content-Length" ∉ (edits.flatMap Edit.given).map Prod.fst) (r : Response) :
    (r.edited edits).body = r.body := by
  induction edits generalizing r with
  | nil => rfl
  | cons edit edits ih =>
    rw [List.flatMap_cons, List.map_append, List.mem_append, not_or] at h
    have hedit : (edit.apply r).body = r.body := by
      cases edit with
      | header => rfl
      | body bytes => exact absurd (List.mem_singleton_self _) h.1
      | block fields => exact setHeaders_body r fields
    exact (ih h.2 _).trans hedit

theorem edited_header? {edits : List Edit} {name : String}
    (h : name ∉ (edits.flatMap Edit.given).map Prod.fst) (r : Response) :
    (r.edited edits).header? name = r.header? name := by
  have hnone : name ∉ (edits.flatMap Edit.given).reverse.map Prod.fst := by
    rwa [List.map_reverse, List.mem_reverse]
  rw [header?, edited_headers, lookup_setAll, lookup_eq_none hnone, Option.none_or, header?]

/-- The length that a body was put in with stays right until something sets it. -/
theorem edited_length {after : List Edit}
    (h : "Content-Length" ∉ (after.flatMap Edit.given).map Prod.fst) (r : Response) (body : Bytes) :
    let last := r.edited (.body body :: after)
    last.body = body ∧ last.header? "Content-Length" = some (Decimal.text last.body.length) := by
  intro last
  have hbody : last.body = body := edited_body h (r.withBody body)
  refine ⟨hbody, ?_⟩
  have hlength : last.header? "Content-Length" = (r.withBody body).header? "Content-Length" :=
    edited_header? h (r.withBody body)
  rw [hlength, hbody, header?, withBody, setHeader, lookup_setIn, if_pos rfl]

end Response

end PooledHttp
