import PooledHttp.Content.Basic
import PooledHttp.Proofs.Log.Entry

/-! How answers are framed. A client that cuts an answer at its first blank line gets a status line and
ten headers, one a line, and a body as long as they say. Of what is put into an answer only the body
is free; the media type is one of five, and all else in the head are numerals and fixed names. -/

namespace PooledHttp

namespace MediaType

def all : List String := ["text/html", "image/gif", "image/jpeg", "image/png", "text/plain"]

theorem ofExtension_mem (extension : String) : ofExtension extension ∈ all := by
  unfold ofExtension
  split <;> decide

theorem ofPath_mem (path : List Char) : ofPath path ∈ all := by
  unfold ofPath
  split
  · exact ofExtension_mem _
  · decide

end MediaType

theorem Status.reason_oneLine (status : Status) : IsOneLine status.reason := by
  cases status <;> decide

namespace Response

/-- As pages and error pages are built, before they carry statistics. -/
def IsBuilt (r : Response) : Prop :=
  ∃ status body, ∃ mediaType ∈ MediaType.all,
    r = ((empty status).setHeader "Content-Type" mediaType).withBody body

theorem content_isBuilt {mediaType : String} (h : mediaType ∈ MediaType.all) (body : Bytes) :
    (content mediaType body).IsBuilt := ⟨.ok, body, mediaType, h, rfl⟩

theorem error_isBuilt (status : Status) (cause message : String) :
    (error status cause message).IsBuilt := ⟨status, _, "text/html", by decide, rfl⟩

theorem IsBuilt.isPlain {r : Response} (h : r.IsBuilt) : r.IsPlain := by
  obtain ⟨status, body, mediaType, -, rfl⟩ := h
  exact withBody_isPlain status mediaType body

/-- The line without its end. -/
def statusText (status : Status) : String :=
  "HTTP/1.0 " ++ Decimal.text status.code ++ " " ++ status.reason

def headerText (field : String × String) : String := field.1 ++ ": " ++ field.2

def headLines (status : Status) (fields : List (String × String)) : List Bytes :=
  Utf8.ofString (statusText status) :: fields.map fun field => Utf8.ofString (headerText field)

/-- What the bytes of an answer are cut into. -/
structure Framed (status : Status) (output head body : Bytes) (fields : List (String × String)) :
    Prop where
  cut : cutAtBlankLine output = some (head, body)
  lines : head = crlf.intercalate (headLines status fields)
  names : fields.map Prod.fst = ["Server", "Content-Type", "Content-Length"] ++ StatBlock.names
  oneLine : ∀ field ∈ fields, IsOneLine field.1 ∧ IsOneLine field.2
  length : fields.lookup "Content-Length" = some (Decimal.text body.length)

theorem ofString_crlf (text : String) :
    Utf8.ofString (text ++ "\r\n") = Utf8.ofString text ++ crlf := Utf8.ofString_append text "\r\n"

theorem render_eq (r : Response) :
    r.render = (headLines r.status r.headers).flatMap (· ++ crlf) ++ crlf ++ r.body := by
  have hstatus : Utf8.ofString (statusLine r.status) =
      Utf8.ofString (statusText r.status) ++ crlf := by
    rw [← ofString_crlf, statusLine, statusText, Status.text, ← String.append_assoc,
      ← String.append_assoc]
  have hheaders : r.headers.flatMap (Utf8.ofString ∘ headerLine) =
      (r.headers.map fun field => Utf8.ofString (headerText field)).flatMap (· ++ crlf) := by
    rw [List.flatMap_map]
    exact congrArg (r.headers.flatMap ·) (funext fun field => ofString_crlf (headerText field))
  rw [render, hstatus, hheaders, headLines, List.flatMap_cons]
  rfl

theorem statusText_oneLine (status : Status) : IsOneLine (statusText status) := by
  have hversion : IsOneLine "HTTP/1.0 " := by decide
  have hblank : IsOneLine " " := by decide
  exact ((hversion.append (Decimal.text_oneLine _)).append hblank).append status.reason_oneLine

theorem headerText_oneLine {field : String × String} (hname : IsOneLine field.1)
    (hvalue : IsOneLine field.2) : IsOneLine (headerText field) := by
  have hcolon : IsOneLine ": " := by decide
  exact (hname.append hcolon).append hvalue

theorem headLines_fit {status : Status} {fields : List (String × String)}
    (h : ∀ field ∈ fields, IsOneLine field.1 ∧ IsOneLine field.2) :
    ∀ line ∈ headLines status fields, line ≠ [] ∧ 13 ∉ line := by
  refine List.forall_mem_cons.mpr ⟨⟨?_, (statusText_oneLine status).no_cr⟩, fun line hmem => ?_⟩
  · have hversion : Utf8.ofString "HTTP/1.0 " ≠ [] := by decide
    rw [statusText, Utf8.ofString_append, Utf8.ofString_append, Utf8.ofString_append]
    simp [hversion]
  · obtain ⟨field, hfield, rfl⟩ := List.mem_map.mp hmem
    have hcolon : Utf8.ofString ": " ≠ [] := by decide
    obtain ⟨hname, hvalue⟩ := h field hfield
    refine ⟨?_, (headerText_oneLine hname hvalue).no_cr⟩
    rw [headerText, Utf8.ofString_append, Utf8.ofString_append]
    simp [hcolon]

variable {r : Response} (timing : Timing) (tally : Tally)

/-- The ten headers of an answer. -/
theorem IsBuilt.headers_eq (h : r.IsBuilt) :
    ∃ mediaType ∈ MediaType.all, (r.setHeaders (StatBlock.build timing tally)).headers =
      [("Server", serverName), ("Content-Type", mediaType),
        ("Content-Length", Decimal.text r.body.length)] ++ StatBlock.build timing tally := by
  have hheaders := h.isPlain.setHeaders timing tally
  obtain ⟨status, body, mediaType, hmedia, rfl⟩ := h
  refine ⟨mediaType, hmedia, ?_⟩
  rw [hheaders]
  simp [empty, setHeader, withBody, setIn]

theorem IsBuilt.names (h : r.IsBuilt) :
    (r.setHeaders (StatBlock.build timing tally)).headers.map Prod.fst =
      ["Server", "Content-Type", "Content-Length"] ++ StatBlock.names := by
  obtain ⟨mediaType, -, hheaders⟩ := h.headers_eq timing tally
  rw [hheaders, List.map_append, StatBlock.build_names]
  rfl

theorem IsBuilt.oneLine (h : r.IsBuilt) :
    ∀ field ∈ (r.setHeaders (StatBlock.build timing tally)).headers,
      IsOneLine field.1 ∧ IsOneLine field.2 := by
  obtain ⟨mediaType, hmedia, hheaders⟩ := h.headers_eq timing tally
  have hfixed : ∀ text ∈ serverName :: "Server" :: "Content-Type" :: "Content-Length" ::
      MediaType.all, IsOneLine text := by decide
  rw [hheaders]
  refine List.forall_mem_append.mpr ⟨?_, StatBlock.build_oneLine timing tally⟩
  refine List.forall_mem_cons.mpr ⟨⟨?_, ?_⟩, List.forall_mem_cons.mpr ⟨⟨?_, ?_⟩,
    List.forall_mem_singleton.mpr ⟨?_, Decimal.text_oneLine _⟩⟩⟩
  · exact hfixed _ (by simp)
  · exact hfixed _ (by simp)
  · exact hfixed _ (by simp)
  · exact hfixed _ (by simp [hmedia])
  · exact hfixed _ (by simp)

theorem IsBuilt.framed (h : r.IsBuilt) :
    ∃ head body fields,
      Framed r.status (r.setHeaders (StatBlock.build timing tally)).render head body fields := by
  let answer := r.setHeaders (StatBlock.build timing tally)
  have hstatus : answer.status = r.status := setHeaders_status r _
  have hone := h.oneLine timing tally
  refine ⟨crlf.intercalate (headLines r.status answer.headers), answer.body, answer.headers, ?_, rfl,
    h.names timing tally, hone, ?_⟩
  · change cutAtBlankLine answer.render = _
    rw [render_eq, hstatus]
    exact cutAtBlankLine_lines (List.cons_ne_nil _ _) (headLines_fit hone) answer.body
  · obtain ⟨mediaType, -, hheaders⟩ := h.headers_eq timing tally
    have hbody : answer.body = r.body := setHeaders_body r _
    rw [hheaders, hbody]
    rfl

end Response

end PooledHttp
