import Mathlib.Data.List.Nodup
import PooledHttp.Http.Response
import PooledHttp.StatBlock

/-! The headers of an answer: three at first, and the seven statistics behind them. -/

namespace PooledHttp

namespace Response

theorem setHeaders_status (r : Response) (fields : List (String × String)) :
    (r.setHeaders fields).status = r.status := by
  induction fields generalizing r with
  | nil => rfl
  | cons field fields ih => exact ih _

theorem setHeaders_body (r : Response) (fields : List (String × String)) :
    (r.setHeaders fields).body = r.body := by
  induction fields generalizing r with
  | nil => rfl
  | cons field fields ih => exact ih _

theorem setIn_new {name : String} (value : String) {fields : List (String × String)}
    (h : name ∉ fields.map Prod.fst) : setIn name value fields = fields ++ [(name, value)] := by
  induction fields with
  | nil => rfl
  | cons field fields ih =>
    rw [List.map_cons, List.mem_cons, not_or] at h
    rw [setIn, if_neg fun he => h.1 he.symm, ih h.2, List.cons_append]

theorem setHeaders_new {r : Response} {fields : List (String × String)}
    (hnew : ∀ field ∈ fields, field.1 ∉ r.headers.map Prod.fst)
    (hnodup : (fields.map Prod.fst).Nodup) :
    (r.setHeaders fields).headers = r.headers ++ fields := by
  induction fields generalizing r with
  | nil => exact (List.append_nil r.headers).symm
  | cons field fields ih =>
    have hset : (r.setHeader field.1 field.2).headers = r.headers ++ [field] :=
      setIn_new field.2 (hnew field List.mem_cons_self)
    rw [List.map_cons, List.nodup_cons] at hnodup
    have hrest : ((r.setHeader field.1 field.2).setHeaders fields).headers =
        (r.setHeader field.1 field.2).headers ++ fields := by
      refine ih ?_ hnodup.2
      intro other ho
      rw [hset, List.map_append, List.mem_append, not_or]
      refine ⟨hnew other (List.mem_cons_of_mem _ ho), ?_⟩
      rw [List.map_singleton, List.mem_singleton]
      intro he
      exact hnodup.1 (he ▸ List.mem_map_of_mem ho)
    rw [hset, List.append_assoc, List.singleton_append] at hrest
    exact hrest

def statPrefix : List Char := "Stat-".toList

/-- The headers that carry statistics. -/
def statistics (r : Response) : List (String × String) :=
  r.headers.filter fun field => statPrefix.isPrefixOf field.1.toList

/-- As a page is built: what it is and how long, and nothing else. -/
def IsPlain (r : Response) : Prop :=
  ∃ mediaType length, r.headers =
    [("Server", serverName), ("Content-Type", mediaType), ("Content-Length", length)]

theorem withBody_isPlain (status : Status) (mediaType : String) (body : Bytes) :
    (((empty status).setHeader "Content-Type" mediaType).withBody body).IsPlain :=
  ⟨mediaType, Decimal.text body.length, by simp [empty, setHeader, withBody, setIn]⟩

end Response

namespace StatBlock

def names : List String :=
  ["Stat-Req-Arrival:", "Stat-Req-Dispatch:", "Stat-Thread-Id:", "Stat-Thread-Count:",
    "Stat-Thread-Static:", "Stat-Thread-Dynamic:", "Stat-Thread-Post:"]

theorem build_names (timing : Timing) (tally : Tally) :
    (build timing tally).map Prod.fst = names := rfl

end StatBlock

namespace Response

variable {r : Response} (timing : Timing) (tally : Tally)

theorem IsPlain.setHeaders (h : r.IsPlain) :
    (r.setHeaders (StatBlock.build timing tally)).headers =
      r.headers ++ StatBlock.build timing tally := by
  refine setHeaders_new ?_ (StatBlock.build_names timing tally ▸ by decide)
  obtain ⟨mediaType, length, he⟩ := h
  have hapart : ∀ name ∈ StatBlock.names, name ∉ ["Server", "Content-Type", "Content-Length"] := by
    decide
  intro field hf
  have hname : field.1 ∈ StatBlock.names := by
    rw [← StatBlock.build_names timing tally]
    exact List.mem_map_of_mem hf
  rw [he]
  exact hapart field.1 hname

/-- The statistics of an answer are the seven of its block, in their order. -/
theorem IsPlain.statistics (h : r.IsPlain) :
    (r.setHeaders (StatBlock.build timing tally)).statistics = StatBlock.build timing tally := by
  have hall : ∀ name ∈ StatBlock.names, statPrefix.isPrefixOf name.toList = true := by decide
  have hkeep : (StatBlock.build timing tally).filter
      (fun field => statPrefix.isPrefixOf field.1.toList) = StatBlock.build timing tally := by
    refine List.filter_eq_self.mpr fun field hf => hall field.1 ?_
    rw [← StatBlock.build_names timing tally]
    exact List.mem_map_of_mem hf
  have hdrop : r.headers.filter (fun field => statPrefix.isPrefixOf field.1.toList) = [] := by
    obtain ⟨mediaType, length, he⟩ := h
    have hnone : ∀ name ∈ ["Server", "Content-Type", "Content-Length"],
        ¬ statPrefix.isPrefixOf name.toList = true := by decide
    rw [he, List.filter_eq_nil_iff]
    intro field hf
    exact hnone field.1 (List.mem_map_of_mem (f := Prod.fst) hf)
  rw [Response.statistics, h.setHeaders, List.filter_append, hkeep, hdrop, List.nil_append]

end Response

end PooledHttp
