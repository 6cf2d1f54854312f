import PooledHttp.Connection
import PooledHttp.Proofs.Handler.Respond

/-! Handlers of which the request alone decides whether they fail and what they add to the counters.
The handler of a site is one of them: it fails only where a counter is full. -/

namespace PooledHttp

namespace Tally

/-- The counter of a kind, or the total. -/
def shows (t : Tally) : Option Served → Nat
  | none => t.total
  | some kind => t.counter kind

/-- What one answered request adds to the total, and to the counter of its kind. -/
def adds (kind : Option Served) : Option Served → Nat
  | none => 1
  | some counted => if kind = some counted then 1 else 0

theorem shows_start (id : Nat) (which : Option Served) : (start id).shows which = 0 := by
  cases which with
  | none => rfl
  | some kind => cases kind <;> rfl

theorem increment_counter (t : Tally) (kind counted : Served) :
    (t.increment kind).counter counted =
      t.counter counted + if kind = counted then 1 else 0 := by
  cases kind <;> cases counted <;> rfl

theorem count_of_room {t : Tally} {kind : Option Served}
    (h : ∀ which, t.shows which + adds kind which ≤ Decimal.max64) :
    ∃ next, t.count kind = .ok next ∧ next.worker = t.worker ∧
      ∀ which, next.shows which = t.shows which + adds kind which := by
  have htotal : t.total < Decimal.max64 := h none
  have herror : t.recordError = .ok { t with total := t.total + 1 } := by
    rw [recordError, if_pos htotal]
  cases kind with
  | none =>
    refine ⟨{ t with total := t.total + 1 }, herror, rfl, ?_⟩
    intro which
    cases which <;> rfl
  | some kind =>
    have hkind := h (some kind)
    simp only [shows, adds, if_pos] at hkind
    have hroom : Tally.counter { t with total := t.total + 1 } kind < Decimal.max64 := by
      cases kind <;> exact hkind
    refine ⟨Tally.increment { t with total := t.total + 1 } kind, ?_, ?_, ?_⟩
    · simp only [count, record, herror, if_pos hroom]
    · cases kind <;> rfl
    · intro which
      cases which with
      | none => cases kind <;> rfl
      | some counted =>
        simp only [shows, adds, increment_counter, Option.some.injEq]
        cases counted <;> rfl

theorem recordError_total {t next : Tally} (h : t.recordError = .ok next) : next.total = t.total + 1 := by
  rw [recordError] at h
  split at h
  · cases h
    rfl
  · cases h

theorem count_total {t next : Tally} {kind : Option Served} (h : t.count kind = .ok next) :
    next.total = t.total + 1 := by
  cases kind with
  | none => exact recordError_total h
  | some kind =>
    cases he : t.recordError with
    | error e => simp [count, record, he] at h
    | ok mid =>
      simp only [count, record, he] at h
      split at h
      · cases h
        rw [← recordError_total he]
        cases kind <;> rfl
      · cases h

end Tally

/-- Counters may have a largest number; without one there is always room. -/
def Within (limit : Option Nat) (n : Nat) : Prop := ∀ largest ∈ limit, n ≤ largest

theorem Within.mono {limit : Option Nat} {m n : Nat} (h : Within limit n) (hle : m ≤ n) :
    Within limit m :=
  fun largest hl => Nat.le_trans hle (h largest hl)

/-- The request alone decides whether its handling fails and, as long as the counters have room,
what is added to them. -/
structure GoesByRequest {α : Type} (handler : RequestHandler α) (limit : Option Nat)
    (fails : Pending α → Bool) (adds : Pending α → Option Served → Nat) : Prop where
  fails_on : ∀ request, fails request = true → ∀ wait tally log, ∃ left,
    handler request.connection request.arrival wait tally log = .failed left
  returns_on : ∀ request, fails request = false → ∀ wait tally log,
    (∀ which, Within limit (tally.shows which + adds request which)) →
    ∃ connection next left,
      handler request.connection request.arrival wait tally log = .returned connection next left ∧
      next.worker = tally.worker ∧
      ∀ which, next.shows which = tally.shows which + adds request which

/-- A call that returns counts one request more. -/
def CountsEach {α : Type} (handler : RequestHandler α) : Prop :=
  ∀ {connection arrival wait tally log left later log'},
    handler connection arrival wait tally log = .returned left later log' →
    later.total = tally.total + 1

/-- Counts every request under one kind, but for those that fail. -/
def countingHandler {α : Type} (fails : α → Bool) (kind : Served) : RequestHandler α :=
  fun connection _ _ tally log =>
    if fails connection then .failed log
    else
      match tally.record kind with
      | .ok tally => .returned connection tally log
      | .error _ => .failed log

theorem countingHandler_goesByRequest {α : Type} (fails : α → Bool) (kind : Served) :
    GoesByRequest (countingHandler fails kind) (some Decimal.max64)
      (fun request => fails request.connection) fun _ => Tally.adds (some kind) where
  fails_on := by
    intro request hf wait tally log
    exact ⟨log, if_pos hf⟩
  returns_on := by
    intro request hf wait tally log hroom
    have hcount := Tally.count_of_room fun which => hroom which Decimal.max64 rfl
    obtain ⟨next, hnext, hworker, hshows⟩ := hcount
    have hrecord : tally.record kind = .ok next := hnext
    refine ⟨request.connection, next, log, ?_, hworker, hshows⟩
    rw [countingHandler, hf, if_neg Bool.false_ne_true, hrecord]

theorem Draft.ofRequest_kind (site : Site) (log log' : Bytes) (request : Request) :
    ((ofRequest site.root request).result (site.source log)).kind =
      ((ofRequest site.root request).result (site.source log')).kind := by
  cases hm : request.method with
  | get | head => simp only [ofRequest_result, hm]
  | post =>
    simp only [ofRequest_result, hm]
    cases site.ensureExists request.path <;> rfl

theorem Draft.ofRaw_kind (site : Site) (log log' raw : Bytes) :
    ((ofRaw site.root raw).result (site.source log)).kind =
      ((ofRaw site.root raw).result (site.source log')).kind := by
  cases hp : Request.parse raw with
  | error e =>
    simp only [ofRaw, hp]
    rfl
  | ok request => simpa only [ofRaw, hp] using ofRequest_kind site log log' request

namespace Site

/-- The kind of success that what a client sends leads to, if it does. -/
def kind? (site : Site) (events : List ReadEvent) : Option Served :=
  (site.draft? [] events).bind Draft.kind

theorem draft?_kind (site : Site) (log log' : Bytes) (events : List ReadEvent) :
    (site.draft? log events).bind Draft.kind = (site.draft? log' events).bind Draft.kind := by
  simp only [draft?]
  cases (RequestReader.read events).1 with
  | error e => rfl
  | ok raw =>
    dsimp only
    split
    · rfl
    · exact Draft.ofRaw_kind site log log' raw

theorem respond_of_count {site : Site} (allocate : Allocator) (timing : Timing)
    {tally next : Tally} (log : LogBuffer) {events : List ReadEvent}
    (h : tally.count (site.kind? events) = .ok next) :
    ∃ exchange, (respond site allocate timing tally log events).1 = .ok exchange ∧
      exchange.tally = next := by
  rw [respond_eq, draft?_kind site log.bytes [], ← kind?, h]
  refine ⟨_, rfl, ?_⟩
  cases site.draft? log.bytes events <;> rfl

/-- A site's handler fails only where a counter is full. -/
theorem handler_goesByRequest (site : Site) (allocate : Allocator) :
    GoesByRequest (site.handler allocate) (some Decimal.max64) (fun _ => false)
      fun request => Tally.adds (site.kind? request.connection.incoming) where
  fails_on := fun _ h => absurd h Bool.false_ne_true
  returns_on := by
    intro request _ wait tally log hroom
    have hcount := Tally.count_of_room fun which => hroom which Decimal.max64 rfl
    obtain ⟨next, hnext, hworker, hshows⟩ := hcount
    obtain ⟨exchange, hexchange, rfl⟩ :=
      respond_of_count allocate ⟨request.arrival, wait⟩ log hnext
    rcases hr : respond site allocate ⟨request.arrival, wait⟩ tally log
      request.connection.incoming with ⟨result, rest⟩
    rw [hr] at hexchange
    cases hexchange
    exact ⟨_, exchange.tally, exchange.log, by simp only [handler, Connection.serve, hr]; rfl,
      hworker, hshows⟩

theorem respond_total {site : Site} {allocate : Allocator} {timing : Timing} {tally : Tally}
    {log : LogBuffer} {events rest : List ReadEvent} {exchange : Exchange}
    (h : respond site allocate timing tally log events = (.ok exchange, rest)) :
    exchange.tally.total = tally.total + 1 := by
  rw [respond_eq] at h
  cases hc : tally.count ((site.draft? log.bytes events).bind Draft.kind) with
  | error e => simp [hc, Except.map] at h
  | ok next =>
    have he := congrArg Prod.fst h
    simp only [hc, Except.map] at he
    cases he
    rw [← Tally.count_total hc]
    cases site.draft? log.bytes events <;> rfl

theorem handler_countsEach (site : Site) (allocate : Allocator) :
    CountsEach (site.handler allocate) := by
  intro connection arrival wait tally log left later log' h
  rcases hr : respond site allocate ⟨arrival, wait⟩ tally log connection.incoming with
    ⟨e | exchange, rest⟩
  · simp [handler, Connection.serve, hr] at h
  · simp only [handler, Connection.serve, hr] at h
    cases h
    exact respond_total hr

end Site

end PooledHttp
