import Mathlib
import PooledHttp.Proofs.Handler.Drafts
import PooledHttp.Proofs.Http.Decoding
import PooledHttp.Proofs.Log.Steps
import PooledHttp.Proofs.Pool.Handlers

/-! One request, one account. Whatever a client sends, the worker's counters, the statistics in the
answer and the entry in the log tell of the same one request. -/

namespace PooledHttp

namespace Tally

theorem recordError_cases {t next : Tally} (h : t.recordError = .ok next) :
    next = { t with total := t.total + 1 } := by
  rw [recordError] at h
  split at h
  · cases h
    rfl
  · cases h

theorem record_cases {t next : Tally} {kind : Served} (h : t.record kind = .ok next) :
    next = increment { t with total := t.total + 1 } kind := by
  cases he : t.recordError with
  | error e => simp [record, he] at h
  | ok mid =>
    simp only [record, he] at h
    split at h
    · cases h
      rw [recordError_cases he]
    · cases h

def successes (t : Tally) : Nat := t.static + t.dynamic + t.post

theorem count_successes {t next : Tally} {kind : Option Served} (h : t.count kind = .ok next) :
    next.successes = t.successes + if kind.isSome then 1 else 0 := by
  cases kind with
  | none =>
    rw [recordError_cases h]
    rfl
  | some kind =>
    rw [record_cases h]
    cases kind <;> simp only [successes, increment, Option.isSome_some, if_true] <;> omega

/-- Counts that a worker can have come to. -/
def Reachable (t : Tally) : Prop :=
  ∃ worker, ∃ kinds : List (Option Served), kinds.foldlM count (start worker) = .ok t

theorem foldlM_count_le {t next : Tally} {kinds : List (Option Served)}
    (ht : t.successes ≤ t.total) (h : kinds.foldlM count t = .ok next) :
    next.successes ≤ next.total := by
  induction kinds generalizing t with
  | nil =>
    cases h
    exact ht
  | cons kind kinds ih =>
    rw [List.foldlM_cons] at h
    cases hc : t.count kind with
    | error e =>
      rw [hc] at h
      cases h
    | ok mid =>
      rw [hc] at h
      refine ih ?_ h
      rw [count_successes hc, count_total hc]
      split <;> omega

theorem Reachable.successes_le {t : Tally} (h : t.Reachable) : t.successes ≤ t.total := by
  obtain ⟨worker, kinds, hkinds⟩ := h
  exact foldlM_count_le (show (start worker).successes ≤ (start worker).total from Nat.le_refl 0) hkinds

theorem counter_le_successes (t : Tally) (kind : Served) : t.counter kind ≤ t.successes := by
  cases kind <;> simp only [counter, successes] <;> omega

/-- Where what succeeded is in the total, room in the total is room in each counter. -/
theorem room_of_successes_le {t : Tally} (hle : t.successes ≤ t.total)
    (hroom : t.total < Decimal.max64) (kind : Option Served) :
    ∀ which, t.shows which + adds kind which ≤ Decimal.max64 := by
  intro which
  cases which with
  | none => exact hroom
  | some counted =>
    have hcounter := t.counter_le_successes counted
    have hadds : adds kind (some counted) ≤ 1 := by
      rw [adds]
      split <;> omega
    simp only [shows]
    omega

theorem Reachable.room {t : Tally} (h : t.Reachable) (hroom : t.total < Decimal.max64)
    (kind : Option Served) : ∀ which, t.shows which + adds kind which ≤ Decimal.max64 :=
  room_of_successes_le h.successes_le hroom kind

end Tally

theorem LogBuffer.append_bytes {allocate : Allocator} {buffer next : LogBuffer} {data : Bytes}
    (h : buffer.append allocate data = .ok next) : next.bytes = buffer.bytes ++ data := by
  rw [append] at h
  split at h
  · next hempty =>
    cases h
    rw [List.isEmpty_iff.mp hempty, List.append_nil]
  · cases hm : buffer.makeRoom allocate data with
    | error e => simp [hm, Except.map] at h
    | ok room =>
      simp only [hm, Except.map] at h
      cases h
      rw [add, LogRoom.makeRoom_bytes hm]

theorem Response.render_ne_nil (r : Response) : r.render ≠ [] := by
  have hline : Utf8.ofString "\r\n" ≠ [] := by decide
  simp [render, hline]

namespace Request

def servedAs (request : Request) : Option Served := Served.of request.method request.path

/-- What the client asks, if that can be read. -/
def received? (events : List ReadEvent) : Option Request :=
  match (RequestReader.read events).1 with
  | .error _ => none
  | .ok raw => (parse raw).toOption

theorem servedAs_eq_post_iff (request : Request) :
    request.servedAs = some .post ↔ request.method = .post := by
  cases hm : request.method with
  | get =>
    simp only [servedAs, hm, Served.of]
    split <;> exact ⟨nofun, nofun⟩
  | head | post => simp [servedAs, hm, Served.of]

theorem servedAs_isSome_iff (request : Request) :
    request.servedAs.isSome = true ↔ request.method = .get ∨ request.method = .post := by
  cases hm : request.method with
  | get =>
    simp only [servedAs, hm, Served.of]
    split <;> exact ⟨fun _ => .inl trivial, fun _ => rfl⟩
  | head | post => simp [servedAs, hm, Served.of]

end Request

namespace Draft

theorem isLogged_iff (draft : Draft) :
    draft.isLogged = true ↔ draft.kind.isSome = true ∧ draft.kind ≠ some .post := by
  rcases hk : draft.kind with _ | (_ | _ | _) <;> simp [isLogged, hk]

theorem ofRequest_report (site : Site) (log : Bytes) {request : Request}
    (hm : request.method = .post)
    (h : ((ofRequest site.root request).result (site.source log)).kind.isSome = true) :
    ((ofRequest site.root request).result (site.source log)).response.body = log := by
  rw [ofRequest_result, hm] at h ⊢
  cases he : site.ensureExists request.path with
  | error e =>
    rw [he] at h
    cases h
  | ok _ => rfl

end Draft

/-- No request comes: reading fails, or ends at once. -/
def NoRequest (events : List ReadEvent) : Prop :=
  ∀ raw, (RequestReader.read events).1 = .ok raw → raw = []

namespace Site

theorem draft?_none {site : Site} {log : Bytes} {events : List ReadEvent}
    (h : site.draft? log events = none) : NoRequest events := by
  intro raw hr
  by_contra hne
  simp [draft?, hr, hne] at h

/-- A draft is made for the request that came, or, if it cannot be read, without one. -/
theorem draft?_some {site : Site} {log : Bytes} {events : List ReadEvent} {draft : Draft}
    (h : site.draft? log events = some draft) :
    ¬ NoRequest events ∧ draft.Made ((Request.received? events).bind Request.servedAs) ∧
      (∀ request, Request.received? events = some request → request.method = .post →
        draft.kind.isSome = true → draft.response.body = log) := by
  cases hr : (RequestReader.read events).1 with
  | error cause => simp [draft?, hr] at h
  | ok raw =>
    by_cases hempty : raw = []
    · simp [draft?, hr, hempty] at h
    · have hdraft : (Draft.ofRaw site.root raw).result (site.source log) = draft := by
        simpa [draft?, hr, hempty] using h
      have hmade := (Draft.ofRaw_ends site.root raw).result (site.source log)
      refine ⟨fun hno => hempty (hno raw hr), ?_, ?_⟩
      · have hkind : (Request.received? events).bind Request.servedAs = Draft.kindOf raw := by
          simp only [Request.received?, hr, Draft.kindOf]
          cases Request.parse raw <;> rfl
        rwa [hkind, ← hdraft]
      · intro request hreceived hm hsome
        have hp : Request.parse raw = .ok request := by
          simp only [Request.received?, hr] at hreceived
          cases hp : Request.parse raw with
          | error e =>
            rw [hp] at hreceived
            cases hreceived
          | ok other =>
            rw [hp] at hreceived
            cases hreceived
            rfl
        rw [← hdraft] at hsome ⊢
        simp only [Draft.ofRaw, hp] at hsome ⊢
        exact Draft.ofRequest_report site log hm hsome

end Site

theorem LogBuffer.appendOrKeep_cases (allocate : Allocator) (b : LogBuffer) (data : Bytes) :
    (∃ next, b.append allocate data = .ok next ∧ b.appendOrKeep allocate data = next ∧
      next.bytes = b.bytes ++ data) ∨
    ∃ cause, b.append allocate data = .error cause ∧ b.appendOrKeep allocate data = b := by
  cases ha : b.append allocate data with
  | ok next => exact .inl ⟨next, rfl, by simp only [appendOrKeep, ha], append_bytes ha⟩
  | error cause => exact .inr ⟨cause, rfl, by simp only [appendOrKeep, ha]⟩

/-- What a draft adds to the log is seven lines, if the log can grow. -/
theorem Draft.logged {draft : Draft} (hl : draft.isLogged = true) (allocate : Allocator)
    (timing : Timing) (log : LogBuffer) (tally : Tally) :
    let entry := (LogEntry.mk timing tally).shown.bytes
    let after := (Exchange.ofDraft? allocate timing log tally (some draft)).log
    (∃ next, log.append allocate entry = .ok next ∧ after = next ∧
        next.bytes = log.bytes ++ entry) ∨
      ∃ cause, log.append allocate entry = .error cause ∧ after = log := by
  intro entry after
  have hafter : after = log.appendOrKeep allocate entry := by
    rw [show entry = (LogEntry.mk timing tally).bytes from (LogEntry.bytes_shown _).symm]
    exact if_pos hl
  rw [hafter]
  exact log.appendOrKeep_cases allocate entry

/-- Where a draft is no served GET, the log stays. -/
theorem Draft.Made.kept {request? : Option Request} {draft : Draft}
    (h : draft.Made (request?.bind Request.servedAs)) {allocate : Allocator} {timing : Timing}
    {log : LogBuffer} {tally : Tally}
    (hne : (Exchange.ofDraft? allocate timing log tally (some draft)).log ≠ log) :
    draft.response.status = .ok ∧ ∃ request, request? = some request ∧ request.method = .get := by
  have hl : draft.isLogged = true := by
    by_contra hnot
    exact hne (if_neg hnot)
  obtain ⟨hsome, hpost⟩ := draft.isLogged_iff.mp hl
  have hok := h.status_ok_iff.mpr hsome
  have hkind := h.kind_eq
  rw [if_pos hok] at hkind
  cases request? with
  | none =>
    rw [hkind] at hsome
    cases hsome
  | some request =>
    have hserved : draft.kind = request.servedAs := hkind
    rw [hserved] at hsome hpost
    refine ⟨hok, request, rfl, (request.servedAs_isSome_iff.mp hsome).resolve_right ?_⟩
    exact fun hm => hpost (request.servedAs_eq_post_iff.mpr hm)

/-- One request, whatever it is, counts once, and under one kind more where the answer has status
200: that of its method and path, in which the query has no say. Every answer that is written can be
read back and carries the seven statistics: when the request came, how long it waited, and the counters
as they are after the count. A GET that is answered with 200 adds just these to the log, line by line,
unless the log cannot grow, of which the client sees nothing; everything else leaves the log as it is.
A report has the log as its body. Nothing is written just where nothing came. -/
theorem respond_accounts (site : Site) (allocate : Allocator) (timing : Timing) {tally : Tally}
    (ht : tally.Reachable) (hroom : tally.total < Decimal.max64) (log : LogBuffer)
    (events : List ReadEvent) :
    ∃ exchange rest, respond site allocate timing tally log events = (.ok exchange, rest) ∧
      exchange.tally.worker = tally.worker ∧ exchange.tally.total = tally.total + 1 ∧
      (∀ kind, exchange.tally.counter kind = tally.counter kind +
        if exchange.status = some .ok ∧
          (Request.received? events).bind Request.servedAs = some kind then 1 else 0) ∧
      (exchange.status = some .ok →
        ((Request.received? events).bind Request.servedAs).isSome = true) ∧
      (exchange.status = none ↔ NoRequest events) ∧ (exchange.output = [] ↔ NoRequest events) ∧
      (∀ status, exchange.status = some status →
        let shown := (LogEntry.mk timing exchange.tally).shown
        ∃ response : Response, exchange.output = response.render ∧
        Response.read? exchange.output = some response ∧ response.status = status ∧
        response.statistics = shown.fields ∧
        ∀ request, Request.received? events = some request → status = .ok →
          (request.method = .post → response.body = log.bytes) ∧
          (request.method = .get →
            (∃ next, log.append allocate shown.bytes = .ok next ∧ exchange.log = next ∧
              next.bytes = log.bytes ++ shown.bytes) ∨
            ∃ cause, log.append allocate shown.bytes = .error cause ∧ exchange.log = log)) ∧
      (exchange.log ≠ log → exchange.status = some .ok ∧
        ∃ request, Request.received? events = some request ∧ request.method = .get) ∧
      ∀ other, ∃ exchange', respond site other timing tally log events = (.ok exchange', rest) ∧
        exchange'.status = exchange.status ∧ exchange'.output = exchange.output ∧
        exchange'.tally = exchange.tally := by
  obtain ⟨next, hcount, hworker, hshows⟩ := Tally.count_of_room
    (ht.room hroom ((site.draft? log.bytes events).bind Draft.kind))
  have hrespond : ∀ allocate, respond site allocate timing tally log events =
      (.ok (Exchange.ofDraft? allocate timing log next (site.draft? log.bytes events)),
        (RequestReader.read events).2) := by
    intro allocate
    rw [respond_eq, hcount]
    rfl
  cases hd : site.draft? log.bytes events with
  | none =>
    have hno := Site.draft?_none hd
    simp only [hd, Option.bind_none] at hshows hrespond
    refine ⟨⟨none, [], next, log⟩, _, hrespond allocate, hworker, hshows none, ?_, nofun,
      ⟨fun _ => hno, fun _ => rfl⟩, ⟨fun _ => hno, fun _ => rfl⟩, nofun, fun h => absurd rfl h,
      fun other => ⟨_, hrespond other, rfl, rfl, rfl⟩⟩
    intro kind
    rw [if_neg fun h => nomatch h.1]
    exact hshows (some kind)
  | some draft =>
    obtain ⟨hsome, hmade, hreport⟩ := Site.draft?_some hd
    simp only [hd, Option.bind_some] at hshows hrespond
    have hkind := hmade.kind_eq
    have hok := hmade.status_ok_iff
    refine ⟨_, _, hrespond allocate, hworker, hshows none, ?_, ?_, ?_, ?_, ?_, ?_,
      fun other => ⟨_, hrespond other, rfl, rfl, rfl⟩⟩
    · intro kind
      have hone := hshows (some kind)
      simp only [Tally.shows, Tally.adds, hkind] at hone
      refine hone.trans ?_
      by_cases hs : draft.response.status = .ok <;> simp [Exchange.ofDraft?, hs]
    · intro hstatus
      have hs : draft.response.status = .ok := Option.some.inj hstatus
      have hcounted := hok.mp hs
      rwa [hkind, if_pos hs] at hcounted
    · exact ⟨by rintro ⟨⟩, fun hno => absurd hno hsome⟩
    · exact ⟨fun hnil => absurd hnil (Response.render_ne_nil _), fun hno => absurd hno hsome⟩
    · intro status hstatus
      have hs : draft.response.status = status := Option.some.inj hstatus
      refine ⟨draft.answer timing next, rfl, Response.read?_render (hmade.isBuilt.isLegible timing next),
        (Response.setHeaders_status _ _).trans hs, hmade.statistics timing next, ?_⟩
      rintro request hreceived rfl
      have hcounted := hok.mp hs
      refine ⟨?_, ?_⟩
      · intro hm
        exact (Response.setHeaders_body _ _).trans (hreport request hreceived hm hcounted)
      · intro hm
        refine Draft.logged (draft.isLogged_iff.mpr ⟨hcounted, ?_⟩) allocate timing log next
        rw [hkind, if_pos hs, hreceived, Option.bind_some, Ne, Request.servedAs_eq_post_iff, hm]
        rintro ⟨⟩
    · intro hne
      obtain ⟨hs, hget⟩ := hmade.kept hne
      exact ⟨congrArg some hs, hget⟩

/-- The default page, asked for with a query that would make another path dynamic. -/
theorem respond_accounts_default_page :
    let page : Entry := .file [104, 105] false
    let tree := FileTree.empty.putBelow ["site".toList, "home.html".toList] page
    let events := [ReadEvent.data (Utf8.ofString "GET /?cgi HTTP/1.0\n\n")]
    let tally := Tally.start 7
    tally.Reachable ∧ tally.total < Decimal.max64 ∧ ∃ exchange rest,
      respond ⟨⟨tree, []⟩, "/site"⟩ (fun _ => none) ⟨.epoch, .zero⟩ tally ⟨[], 1⟩ events =
        (.ok exchange, rest) ∧
      exchange.status = some .ok ∧ exchange.tally.total = 1 ∧
      exchange.tally.counter .static = 1 ∧ exchange.tally.counter .dynamic = 0 ∧
      ∃ response, Response.read? exchange.output = some response ∧
        response.statistics = (LogEntry.mk ⟨.epoch, .zero⟩ exchange.tally).shown.fields := by
  intro page tree events tally
  have ht : tally.Reachable := ⟨7, [], rfl⟩
  have hroom : tally.total < Decimal.max64 := by decide
  refine ⟨ht, hroom, ?_⟩
  obtain ⟨exchange, rest, h, -, htotal, hcounter, -, -, -, hanswer, -⟩ :=
    respond_accounts ⟨⟨tree, []⟩, "/site"⟩ (fun _ => none) ⟨.epoch, .zero⟩ ht hroom ⟨[], 1⟩ events
  have hdraft : (Site.draft? ⟨⟨tree, []⟩, "/site"⟩ [] events).map
      (fun draft => draft.response.status) = some .ok := by
    simp only [tree, page, events]
    cbv
  have hserved : (Request.received? events).bind Request.servedAs = some .static := by
    simp only [events]
    cbv
  have hok : exchange.status = some .ok := (respond_status h).trans hdraft
  obtain ⟨response, -, hread, -, hstatistics, -⟩ := hanswer .ok hok
  refine ⟨exchange, rest, h, hok, htotal, ?_, ?_, response, hread, hstatistics⟩
  · rw [hcounter, hserved, if_pos ⟨hok, rfl⟩]
    rfl
  · rw [hcounter, hserved, if_neg fun hd => absurd hd.2 (by decide)]
    rfl

end PooledHttp
