import PooledHttp.Proofs.Pool.Accounts
import PooledHttp.Proofs.Pool.Handlers

/-! Workers whose handler goes by the request alone. Each failing request that is taken dooms the
worker that takes it, and what the workers have counted and are about to count is what the requests
add that they took. -/

namespace PooledHttp

variable {α : Type}

def added (adds : Pending α → Option Served → Nat) (which : Option Served)
    (requests : List (Pending α)) : Nat := (requests.map fun request => adds request which).sum

theorem added_append (adds : Pending α → Option Served → Nat) (which : Option Served)
    (requests more : List (Pending α)) :
    added adds which (requests ++ more) = added adds which requests + added adds which more := by
  rw [added, List.map_append, List.sum_append]
  rfl

namespace Worker

/-- Lost, or bound to be. -/
def isDoomed (fails : Pending α → Bool) (w : Worker α) : Bool :=
  match w.phase with
  | .handling request _ => fails request
  | _ => w.hasFailed

/-- What a worker has counted, with what it is about to count. -/
def load (adds : Pending α → Option Served → Nat) (which : Option Served) (w : Worker α) : Nat :=
  w.tally.shows which +
    match w.phase with
    | .handling request _ => adds request which
    | _ => 0

end Worker

def spoilt (called : List (Call α)) : List (Pending α) :=
  (called.filter Call.failed).map Call.request

theorem spoilt_append (called more : List (Call α)) :
    spoilt (called ++ more) = spoilt called ++ spoilt more := by
  rw [spoilt, List.filter_append, List.map_append]
  rfl

theorem GoesByRequest.call_cases {handler : RequestHandler α} {limit : Option Nat}
    {fails : Pending α → Bool} {adds : Pending α → Option Served → Nat}
    (hgo : GoesByRequest handler limit fails adds) {tally : Tally} {request : Pending α}
    (wait : Span) (log : LogBuffer)
    (hroom : ∀ which, Within limit (tally.shows which + adds request which)) :
    (fails request = true ∧ ∃ left,
      handler request.connection request.arrival wait tally log = .failed left) ∨
    (fails request = false ∧ ∃ connection next left,
      handler request.connection request.arrival wait tally log = .returned connection next left ∧
      next.worker = tally.worker ∧
      ∀ which, next.shows which = tally.shows which + adds request which) := by
  cases hf : fails request with
  | true => exact .inl ⟨rfl, hgo.fails_on request hf wait tally log⟩
  | false => exact .inr ⟨rfl, hgo.returns_on request hf wait tally log hroom⟩

/-- The workers, what they took and what they called, where the request alone decides how it is
handled. The last of the requests was taken while there was still somebody to take it. -/
structure Fated (size : Nat) (fails : Pending α → Bool) (adds : Pending α → Option Served → Nat)
    (taken : List (Pending α)) (called : List (Call α)) (workers : List (Worker α)) : Prop where
  outcomes : ∀ c ∈ called, c.failed = fails c.request
  doomed : workers.countP (Worker.isDoomed fails) = taken.countP fails
  short : taken = [] ∨ taken.dropLast.countP fails < size
  owner : ∀ w ∈ workers, w.tally.worker = w.id
  loads : ∀ which, (workers.map (Worker.load adds which)).sum + added adds which (spoilt called) =
    added adds which taken

namespace Fated

variable {size : Nat} {fails : Pending α → Bool} {adds : Pending α → Option Served → Nat}
  {taken : List (Pending α)} {called : List (Call α)} {front back : List (Worker α)}
  {id : Nat} {tally : Tally}

theorem turn {phase later : WorkerPhase α}
    (h : Fated size fails adds taken called (front ++ ⟨id, tally, phase⟩ :: back))
    (hdoomed : Worker.isDoomed fails ⟨id, tally, later⟩ = Worker.isDoomed fails ⟨id, tally, phase⟩)
    (hload : ∀ which,
      Worker.load adds which ⟨id, tally, later⟩ = Worker.load adds which ⟨id, tally, phase⟩) :
    Fated size fails adds taken called (front ++ ⟨id, tally, later⟩ :: back) := by
  refine ⟨h.outcomes, ?_, h.short, ?_, ?_⟩
  · rw [countP_row, hdoomed, ← countP_row]
    exact h.doomed
  · exact forall_mem_row.mpr (forall_mem_row.mp h.owner)
  · intro which
    rw [sum_row, hload which, ← sum_row]
    exact h.loads which

theorem take (h : Fated size fails adds taken called (front ++ ⟨id, tally, .ready⟩ :: back))
    (hsize : (front ++ ⟨id, tally, .ready⟩ :: back).length = size) (request : Pending α)
    (wait : Span) :
    Fated size fails adds (taken ++ [request]) called
      (front ++ ⟨id, tally, .handling request wait⟩ :: back) := by
  have hdoomed := h.doomed
  rw [countP_row] at hdoomed
  change _ + 0 = _ at hdoomed
  refine ⟨h.outcomes, ?_, .inr ?_, ?_, ?_⟩
  · rw [countP_row, List.countP_append, List.countP_singleton, ← hdoomed]
    change _ + (fails request).toNat = _
    cases fails request <;> rfl
  · -- the worker that takes the request is not doomed, so not all of them are
    rw [List.dropLast_concat, ← hdoomed, ← hsize, List.length_append, List.length_cons]
    have hfront := front.countP_le_length (p := Worker.isDoomed fails)
    have hback := back.countP_le_length (p := Worker.isDoomed fails)
    omega
  · exact forall_mem_row.mpr (forall_mem_row.mp h.owner)
  · intro which
    have hloads := h.loads which
    rw [sum_row] at hloads
    rw [sum_row, added_append, ← hloads]
    change _ + (tally.shows which + adds request which) + _ =
      _ + (tally.shows which + 0) + _ + (adds request which + 0)
    omega

/-- Whoever has a request has room for it: all that was counted and is about to be counted was
taken. -/
theorem room {request : Pending α} {wait : Span}
    (h : Fated size fails adds taken called
      (front ++ ⟨id, tally, .handling request wait⟩ :: back)) {limit : Option Nat}
    (hwithin : ∀ which, Within limit (added adds which taken)) (which : Option Served) :
    Within limit (tally.shows which + adds request which) := by
  have hloads := h.loads which
  rw [sum_row] at hloads
  change _ + (tally.shows which + adds request which) + _ = _ at hloads
  exact (hwithin which).mono (by omega)

theorem call {handler : RequestHandler α} {limit : Option Nat} {log : LogBuffer}
    (hgo : GoesByRequest handler limit fails adds) {request : Pending α} {wait : Span}
    (h : Fated size fails adds taken called
      (front ++ ⟨id, tally, .handling request wait⟩ :: back))
    (hwithin : ∀ which, Within limit (added adds which taken)) {outcome : Handled α}
    (ho : handler request.connection request.arrival wait tally log = outcome) :
    Fated size fails adds taken (called ++ [⟨id, request, wait, outcome⟩])
      (front ++ Worker.resumed id tally request outcome :: back) := by
  have hdoomed := h.doomed
  rw [countP_row] at hdoomed
  change _ + (fails request).toNat = _ at hdoomed
  have howner := forall_mem_row.mp h.owner
  rcases hgo.call_cases wait log (h.room hwithin) with
    ⟨hf, left, he⟩ | ⟨hf, connection, next, left, he, hworker, hshows⟩
  · rw [he] at ho
    subst ho
    refine ⟨?_, ?_, h.short, ?_, ?_⟩
    · exact List.forall_mem_append.mpr ⟨h.outcomes, List.forall_mem_singleton.mpr hf.symm⟩
    · rw [countP_row, ← hdoomed, hf]
      rfl
    · exact forall_mem_row.mpr howner
    · intro which
      have hloads := h.loads which
      rw [sum_row] at hloads
      rw [sum_row, spoilt_append, added_append, ← hloads]
      change _ + (tally.shows which + 0) + (_ + (adds request which + 0)) =
        _ + (tally.shows which + adds request which) + _
      omega
  · rw [he] at ho
    subst ho
    refine ⟨?_, ?_, h.short, ?_, ?_⟩
    · exact List.forall_mem_append.mpr ⟨h.outcomes, List.forall_mem_singleton.mpr hf.symm⟩
    · rw [countP_row, ← hdoomed, hf]
      rfl
    · exact forall_mem_row.mpr ⟨hworker.trans howner.1, howner.2⟩
    · intro which
      have hloads := h.loads which
      rw [sum_row] at hloads
      rw [sum_row, spoilt_append, added_append, ← hloads]
      change _ + (next.shows which + 0) + (_ + 0) =
        _ + (tally.shows which + adds request which) + _
      rw [hshows which]
      omega

end Fated

namespace WorkerPool

open PoolEvent

variable {handler : RequestHandler α} {limit : Option Nat} {fails : Pending α → Bool}
  {adds : Pending α → Option Served → Nat} {size : Nat} {past : List (PoolEvent α)}
  {p next : WorkerPool α} {event : Option (PoolEvent α)}

theorem fated_start (size : Nat) (q : RequestQueue α) (log : LogBuffer) :
    Fated size fails adds [] [] (start size q log).workers := by
  refine ⟨fun c hc => absurd hc List.not_mem_nil, ?_, .inl rfl, ?_, ?_⟩
  · rw [List.countP_nil, List.countP_eq_zero]
    intro w hw
    rw [start_worker hw]
    exact Bool.false_ne_true
  · intro w hw
    rw [start_worker hw]
    rfl
  · intro which
    have hzero : ∀ n ∈ (start size q log).workers.map (Worker.load adds which), n = 0 := by
      rintro n hn
      obtain ⟨w, hw, rfl⟩ := List.mem_map.mp hn
      rw [start_worker hw]
      exact Tally.shows_start w.id which
    rw [List.sum_eq_zero hzero]
    rfl

theorem Kept.added_takes_le (h : Kept size past p) (which : Option Served) :
    added adds which (takes past) ≤ added adds which (accepts past) := by
  obtain ⟨waiting, -, he⟩ := h.queue
  rw [he, added_append]
  exact Nat.le_add_right _ _

theorem fated_step (hgo : GoesByRequest handler limit fails adds) (hk : Kept size past p)
    (h : Fated size fails adds (takes past) (calls past) p.workers)
    (hwithin : ∀ which, Within limit (added adds which (accepts past)))
    (hm : Move handler p event next) :
    Fated size fails adds (takes (past ++ event.toList)) (calls (past ++ event.toList))
      next.workers := by
  have hsize := hk.size_eq
  have htaken : ∀ which, Within limit (added adds which (takes past)) :=
    fun which => (hwithin which).mono (hk.added_takes_le which)
  rw [takes_append, calls_append]
  have hquiet : ∀ {workers : List (Worker α)},
      Fated size fails adds (takes past) (calls past) workers →
      Fated size fails adds (takes past ++ []) (calls past ++ []) workers := by
    intro workers hf
    rwa [List.append_nil, List.append_nil]
  cases hm with
  | idle | accept | close => exact hquiet h
  | retire hw | shut hw | drop hw =>
    rw [hw] at h
    exact hquiet (h.turn rfl fun _ => rfl)
  | @release front back id tally survives hw hlt =>
    rw [hw] at h
    cases survives <;> exact hquiet (h.turn rfl fun _ => rfl)
  | take hw request wait hd =>
    rw [hw] at h hsize
    have htake := h.take hsize request wait
    rwa [← List.append_nil (calls past)] at htake
  | call hw ho =>
    rw [hw] at h
    have hcall := h.call hgo htaken ho
    rwa [← List.append_nil (takes past)] at hcall

end WorkerPool

end PooledHttp
